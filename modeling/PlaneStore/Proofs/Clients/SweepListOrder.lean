import PlaneStore.Proofs.Planes.OpenRegions
import PlaneStore.Proofs.SweepLists.ListHistory
import PlaneStore.Proofs.Clients.ScrubbedReads

/-!
# Sweep lists as clients see them

The sweep lists of a store are a partition of its containers by owner, and each dataspace counts
what is on its own. A request that makes a container puts it in front of a list. What requests take
off lists, or move from one to another, leaves the rest in order.
-/

namespace PlaneStore

open Store

namespace Store

variable {s s' : Store} {ds : DataspaceId} {id : ContainerId} {ids ids' : List ContainerId}

/-- A sweep list as the sequence of its containers. -/
structure Swept (s : Store) (ds : DataspaceId) (ids : List ContainerId) : Prop where
  /-- Whoever follows the links from the head meets all of the sequence, and comes to an end. -/
  walked : s.sweepList ds = .ok (ids.map s.handleAt)
  head : s.head? ds = some ids.head?
  /-- Each container is linked to its neighbours. -/
  linked : ∀ i id c, ids[i]? = some id → s.container? id = some c →
    c.next = ids[i + 1]? ∧ c.prev = if i = 0 then none else ids[i - 1]?
  nodup : ids.Nodup
  mem : ∀ id, id ∈ ids ↔ ∃ c, s.container? id = some c ∧ c.owner = ds
  count : s.listed? ds = some ids.length

theorem Sweeps.swept {F : Refs} {C : Charges} {q : Option Closing} (h : s.Sweeps ds ids)
    (ha : Account.Kept ⟨s, F, C, q⟩) : s.Swept ds ids := by
  have hs := ha.listed
  obtain ⟨first, hfirst, hids⟩ := h.strand
  obtain ⟨d, hd, rfl⟩ := Option.map_eq_some_iff.mp hfirst
  refine ⟨sweepList_eq ha hd hids, ?_, ?_, h.nodup, fun id => h.mem_iff hs, h.count⟩
  · rw [hfirst, hids.head?_eq]
  · intro i id c hi hc
    have hl := links?_of_container hc
    refine ⟨hids.next_eq hi hl, ?_⟩
    cases i with
    | zero =>
      have hid : d.head = some id := by
        rw [hids.head?_eq, List.head?_eq_getElem?]
        exact hi
      rw [hid] at hfirst
      obtain ⟨l, hl', hprev, -⟩ := hs.head hfirst
      obtain rfl := Option.some.inj (hl.symm.trans hl')
      exact hprev
    | succ i =>
      obtain ⟨hlt, -⟩ := List.getElem?_eq_some_iff.mp hi
      have hbefore : ids[i]? = some ids[i] := List.getElem?_eq_getElem (Nat.lt_of_succ_lt hlt)
      obtain ⟨m, hm⟩ := hids.linked ids[i] (List.getElem_mem _)
      have hnext := (hids.next_eq hbefore hm).trans hi
      obtain ⟨l, hl', hprev, -⟩ := hs.next hm hnext
      obtain rfl := Option.some.inj (hl.symm.trans hl')
      exact hprev.trans hbefore.symm

theorem containerId?_handleAt {c : Container} (hc : s.container? id = some c) :
    (s.handleAt id).containerId? = some id := by
  rw [handleAt_of_container hc, Value.containerId?_ofContainer]

/-- A dataspace has one sweep list. -/
theorem Swept.unique (h : s.Swept ds ids) (h' : s.Swept ds ids') : ids' = ids := by
  have hids : ∀ {ids}, s.Swept ds ids →
      (ids.map s.handleAt).map Value.containerId? = ids.map some := by
    intro ids h
    rw [List.map_map]
    refine List.map_congr_left ?_
    intro id hid
    obtain ⟨c, hc, -⟩ := (h.mem id).mp hid
    exact containerId?_handleAt hc
  have hsame := Except.ok.inj (h'.walked.symm.trans h.walked)
  have hsome : ids'.map some = ids.map some := by rw [← hids h', ← hids h, hsame]
  exact List.map_injective_iff.mpr (Option.some_injective _) hsome

/-! ## Containers at the head -/

/-- A reference to the container that its owner has in front. -/
def Foremost (v : Value) (s : Store) : Prop :=
  ∃ shape id c, v = .container shape id ∧ s.container? id = some c ∧
    s.head? c.owner = some (some id)

/-- A container that was just allocated heads the sweep list of its owner. -/
theorem foremost_allocate {owner : DataspaceId} {kind : Kind} {values : List Value}
    (h : allocate owner kind values s = .ok (id, s')) :
    ∃ c, s'.container? id = some c ∧ s'.head? c.owner = some (some id) := by
  obtain ⟨s₁, s₂, s₃, -, -, h₃, rfl⟩ := allocate_eq_ok h
  obtain ⟨first, hfirst, hself, -, hhead, -⟩ := link_links h₃
  obtain ⟨c, hc, hlinks⟩ := Option.map_eq_some_iff.mp hself
  have howner : c.owner = owner := by
    have hlinked := congrArg Links.owner hlinks
    split at hlinked <;> exact hlinked
  refine ⟨c, (container?_withPlane _ _ _).trans hc, ?_⟩
  have hsites := sites_withPlane s₃ fun p => { p with census := p.census.insert id .fresh }
  rw [head?_of_sites hsites, hhead, howner, if_pos rfl, hfirst]
  rfl

theorem ofNew_foremost : OfNew Foremost where
  allocated := by
    intro owner kind values f hf s v s' h
    obtain ⟨id, t, h₁, h⟩ := ClientM.lift_bind_eq_ok.mp h
    obtain ⟨hv, rfl⟩ := ClientM.pure_eq_ok.mp h
    obtain ⟨shape, hshape⟩ := hf id
    obtain ⟨c, hc, hhead⟩ := foremost_allocate h₁
    exact ⟨shape, id, c, (Except.ok.inj hv).trans hshape, hc, hhead⟩
  restored := by
    intro owner kind tag values s v s' h
    obtain ⟨id, t, c, h₁, hc, hv, rfl⟩ := allocate_retag_eq_ok h
    obtain ⟨c', hc', hhead⟩ := foremost_allocate h₁
    obtain rfl := Option.some.inj (hc.symm.trans hc')
    exact ⟨kind.shape, id, { c with tag }, Except.ok.inj hv,
      container?_withContainer_self hc, hhead⟩

end Store

/-- The effects of evicting a dataspace. -/
inductive Effect.Gathers (ds : DataspaceId) : Effect → Prop
  | still : Gathers ds .still
  | evict (id : ContainerId) : Gathers ds (.evict id)
  | transfer (id : ContainerId) : Gathers ds (.transfer ds id)

/-- Containers move between dataspaces only if one of these is evicted. -/
theorem Operation.evicts_cases (op : Operation) :
    (∃ x, op = .evictDataspace x) ∨ (∃ v, op = .evict v) ∨ op.evicts = false := by
  cases op with
  | evictDataspace x => exact .inl ⟨x, rfl⟩
  | evict v => exact .inr (.inl ⟨v, rfl⟩)
  | _ => exact .inr (.inr rfl)

namespace Client

variable {limits : Limits} {c c' : Client} {op : Operation} {outcome : Outcome} {ds : DataspaceId}

/-! ## Lists after a request -/

/--
What a request puts on the list of a dataspace: the container that it makes, or foreign ones if it
evicts the dataspace.
-/
def Joins (c : Client) (ds : DataspaceId) (op : Operation) (outcome : Outcome) (id : ContainerId) :
    Prop :=
  (op.creates = true ∧ ∃ kind, outcome = .ok (.value (.ofContainer kind id))) ∨
    op = .evictDataspace ds ∧ ∃ x, c.store.container? id = some x ∧ x.owner ≠ ds

theorem Requests.relists (hr : c.Requests op outcome c') (ha : c.account.Kept)
    (ds : DataspaceId) : Relists (c.Joins ds op outcome) ds c.store c'.store := by
  rcases op.evicts_cases with ⟨x, rfl⟩ | ⟨v, rfl⟩ | hstays
  · obtain ⟨r, h, -⟩ := ClientM.bind_pure_eq_ok.mp hr.performed
    have hpath : Path (Effect.Gathers x) c.account ⟨c'.store, c.owned, 0, none⟩ :=
      walk_evictDataspace .still (fun _ => .evict) (fun _ => .transfer) ha h
    refine (hpath.relists ha ?_).mono ?_
    · rintro _ _ _ _ ⟨⟩ ⟨⟩
      rfl
    · rintro id (⟨flight, hmade⟩ | ⟨hmoved, y, hy, howner⟩)
      · cases hmade
      · cases hmoved
        obtain ⟨d, hd, rfl⟩ := content?_eq_some.mp hy
        exact .inr ⟨rfl, d, hd, howner⟩
  · obtain ⟨r, h, -⟩ := ClientM.bind_pure_eq_ok.mp hr.performed
    have hpath : Path (fun e => e = .still ∨ ∃ id, e = .evict id) c.account
        ⟨c'.store, c.owned, 0, none⟩ :=
      walk_evictContainer (.inl rfl) (fun _ id => .inr ⟨id, rfl⟩) ha h
    refine (hpath.relists ha ?_).mono ?_
    · rintro _ _ _ _ (h | ⟨_, h⟩) <;> cases h
    · rintro id (⟨flight, h | ⟨_, h⟩⟩ | ⟨h | ⟨_, h⟩, -⟩) <;> cases h
  · refine ((hr.path ha).relists ha ?_).mono ?_
    · rintro _ _ _ _ ⟨-, hevicts⟩
      cases hstays.symm.trans hevicts
    · rintro id (⟨flight, hcreates, -, hmade⟩ | ⟨⟨-, hevicts⟩, -⟩)
      · exact .inl ⟨hcreates, hmade⟩
      · cases hstays.symm.trans hevicts

/-- Every dataspace has its sweep list, which is as long as it counts. -/
theorem Reachable.sweeps (h : Reachable limits c) (ds : DataspaceId) :
    c.store.listed? ds = none ∨ ∃ ids, c.store.Sweeps ds ids := by
  induction h with
  | start => exact .inl rfl
  | next h hr ih =>
    have hrelists := hr.relists h.kept ds
    rcases ih with hnone | ⟨ids, hids⟩
    · exact hrelists.starts hnone
    · obtain ⟨ids', hids', -⟩ := hrelists.changes hids
      exact .inr ⟨ids', hids'⟩

theorem Reachable.swept (h : Reachable limits c) {d : Dataspace}
    (hd : c.store.dataspace? ds = some d) :
    ∃ ids, c.store.Sweeps ds ids ∧ c.store.Swept ds ids := by
  rcases h.sweeps ds with hnone | ⟨ids, hids⟩
  · rw [listed?, hd] at hnone
    cases hnone
  · exact ⟨ids, hids, hids.swept h.kept⟩

/-- A request for a container adds no dataspace. -/
theorem Requests.exists_dataspace (hr : c.Requests op outcome c') (ha : c.account.Kept)
    (hop : op.creates = true) {d : Dataspace} (hd : c'.store.dataspace? ds = some d) :
    ∃ d₀, c.store.dataspace? ds = some d₀ := by
  have hadds : op.adds = false := by
    cases op with
    | createDataspace | createString => cases hop
    | _ => rfl
  have hwidth : c'.store.width? ds = c.store.width? ds :=
    (hr.path ha).width? ha fun he => by cases hadds.symm.trans he.2
  have hsome : c'.store.width? ds = some d.vars.size := by rw [Store.width?, hd, Option.map_some]
  obtain ⟨d₀, hd₀, -⟩ := Option.map_eq_some_iff.mp (hwidth.symm.trans hsome)
  exact ⟨d₀, hd₀⟩

/--
The sweep lists of a store are a partition of its containers. Following the links from the head of a
dataspace comes to an end and leads past just the containers that the dataspace owns, past each
once; each container names its neighbours, the first one none before it; and the dataspace counts as
many as there are. Every container is on one list. What a request puts on a list comes first, and
the others stay in the order they were in, whatever is freed or goes to other lists: it is the
container that a request for one makes, which comes to be the first of its list, or it belonged to
another dataspace and this one was evicted.
-/
theorem Reachable.partitioned (h : Reachable limits c) :
    (∀ ds d, c.store.dataspace? ds = some d → ∃ ids, c.store.Swept ds ids) ∧
    (∀ id x, c.store.container? id = some x → ∃! ds, ∃ ids, c.store.Swept ds ids ∧ id ∈ ids) ∧
    (∀ op outcome c' ds ids, c.Requests op outcome c' → c.store.Swept ds ids →
      ∃ front rest, c'.store.Swept ds (front ++ rest) ∧ rest.Sublist ids ∧
        ∀ id ∈ front, c.Joins ds op outcome id) ∧
    ∀ op v c', op.creates = true → c.Requests op (.ok (.value v)) c' → ∃ shape id x rest ids,
      v = .container shape id ∧ c'.store.container? id = some x ∧
        c'.store.Swept x.owner (id :: rest) ∧ c.store.Swept x.owner ids ∧ rest.Sublist ids := by
  have ha := h.kept
  have hchange : ∀ op outcome c' ds ids, c.Requests op outcome c' → c.store.Swept ds ids →
      ∃ front rest, c'.store.Swept ds (front ++ rest) ∧ rest.Sublist ids ∧
        ∀ id ∈ front, c.Joins ds op outcome id := by
    intro op outcome c' ds ids hr hids
    have hds := hids.count
    obtain ⟨d, hd, -⟩ := Option.map_eq_some_iff.mp hds
    obtain ⟨ids₀, hsweeps, hswept⟩ := h.swept hd
    obtain rfl := hswept.unique hids
    obtain ⟨_, hsweeps', front, rest, rfl, hrest, hfront⟩ := (hr.relists ha ds).changes hsweeps
    exact ⟨front, rest, hsweeps'.swept (h.next hr).kept, hrest, hfront⟩
  refine ⟨fun ds d hd => ?_, fun id x hx => ?_, hchange, fun op v c' hop hr => ?_⟩
  · obtain ⟨ids, -, hids⟩ := h.swept hd
    exact ⟨ids, hids⟩
  · obtain ⟨first, hfirst⟩ := ha.listed.owner (links?_of_container hx)
    obtain ⟨d, hd, -⟩ := Option.map_eq_some_iff.mp hfirst
    obtain ⟨ids, -, hids⟩ := h.swept hd
    refine ⟨x.owner, ⟨ids, hids, (hids.mem id).mpr ⟨x, hx, rfl⟩⟩, ?_⟩
    rintro ds ⟨ids', hids', hid⟩
    obtain ⟨y, hy, ho⟩ := (hids'.mem id).mp hid
    rw [← ho, Option.some.inj (hx.symm.trans hy)]
  · obtain ⟨shape, id, x, rfl, hx, hhead⟩ :=
      Operation.yields_of_creates ofNew_foremost hop hr.performed
    obtain ⟨d', hd', -⟩ := Option.map_eq_some_iff.mp hhead
    obtain ⟨d, hd⟩ := hr.exists_dataspace ha hop hd'
    obtain ⟨ids, -, hids⟩ := h.swept hd
    obtain ⟨front, rest, hswept, hrest, hfront⟩ := hchange _ _ _ _ _ hr hids
    have hfirst : (front ++ rest).head? = some id :=
      Option.some.inj (hswept.head.symm.trans hhead)
    cases front with
    | nil =>
      obtain ⟨tail, rfl⟩ := List.head?_eq_some_iff.mp hfirst
      exact ⟨shape, id, x, tail, ids, rfl, hx, hswept, hids,
        (List.sublist_cons_self _ _).trans hrest⟩
    | cons y front =>
      obtain rfl : y = id := Option.some.inj hfirst
      have hnil : front = [] := by
        refine List.eq_nil_iff_forall_not_mem.mpr ?_
        intro z hz
        obtain ⟨hnotin, -⟩ := List.nodup_cons.mp hswept.nodup
        rcases hfront z (List.mem_cons_of_mem _ hz) with ⟨-, kind, hmade⟩ | ⟨rfl, -⟩
        · obtain ⟨-, rfl⟩ := Value.container.inj (Answer.value.inj (Except.ok.inj hmade))
          exact hnotin (List.mem_append_left _ hz)
        · cases hop
      subst hnil
      exact ⟨shape, y, x, rest, ids, rfl, hx, hswept, hids, hrest⟩

/--
Requests after which each of two dataspaces owns three containers, and a variable of the first
refers to the one in the middle of the other list, of which the client gives up its references.
-/
def moving : List Operation :=
  [.createDataspace 1, .createDataspace 0, .createArray ⟨0⟩ 0, .createArray ⟨1⟩ 0,
    .createArray ⟨0⟩ 0, .createArray ⟨1⟩ 0, .createArray ⟨0⟩ 0, .createArray ⟨1⟩ 0,
    .assignVariable ⟨⟨0⟩, 0⟩ (.container .array ⟨3⟩), .release (.container .array ⟨3⟩)]

/--
One container goes from the sweep list of its owner to that of the dataspace that takes it over.
-/
theorem partitioned_moving : ∃ c c' report, Reachable {} c ∧
    c.Requests (.evictDataspace ⟨0⟩) (.ok (.eviction report)) c' ∧ report.rehomed = 1 ∧
    (∃ ids, c.store.Swept ⟨0⟩ ids ∧ ∃ front rest, c'.store.Swept ⟨0⟩ (front ++ rest) ∧
      rest.Sublist ids) ∧
    c.store.sweepList ⟨0⟩ = .ok [.container .array ⟨4⟩, .container .array ⟨2⟩,
      .container .array ⟨0⟩] ∧
    c.store.sweepList ⟨1⟩ =
      .ok [.container .array ⟨5⟩, .container .array ⟨3⟩, .container .array ⟨1⟩] := by
  obtain ⟨c, hc, hf⟩ := exists_visit moving
    (fun c => ((c.store.dataspace? ⟨0⟩).isSome, c.store.sweepList ⟨0⟩, c.store.sweepList ⟨1⟩,
      (c.request? (.evictDataspace ⟨0⟩)).map Prod.fst))
    (a := (true,
      .ok [.container .array ⟨4⟩, .container .array ⟨2⟩, .container .array ⟨0⟩],
      .ok [.container .array ⟨5⟩, .container .array ⟨3⟩, .container .array ⟨1⟩],
      some (.ok (.eviction ⟨4, 1, []⟩)))) (by cbv)
  obtain ⟨hd, hfirst, hsecond, hr⟩ : _ ∧ _ ∧ _ ∧ _ := by simpa only [Prod.mk.injEq] using hf
  obtain ⟨d, hd⟩ := Option.isSome_iff_exists.mp hd
  obtain ⟨⟨outcome, c'⟩, hr, rfl⟩ := Option.map_eq_some_iff.mp hr
  have hr := request?_eq_some.mp hr
  obtain ⟨hall, -, hchange, -⟩ := Reachable.partitioned hc
  obtain ⟨ids, hids⟩ := hall ⟨0⟩ d hd
  obtain ⟨front, rest, hswept, hrest, -⟩ := hchange _ _ _ _ _ hr hids
  exact ⟨c, c', _, hc, hr, rfl, ⟨ids, hids, front, rest, hswept, hrest⟩, hfirst, hsecond⟩

end Client

end PlaneStore
