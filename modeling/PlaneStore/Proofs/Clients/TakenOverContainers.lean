import PlaneStore.Proofs.Contents.UpkeepEffects
import PlaneStore.Proofs.Eviction.ExclusiveTakeover
import PlaneStore.Proofs.Clients.NoFaults

/-!
# What a dataspace takes over as clients see it

A dataspace that is evicted takes over the containers that nothing else refers to, be it directly or
through others that it takes over. Which these are does not depend on the order in which they change
hands.
-/

namespace PlaneStore

open Store

/-- The imports of every dataspace are the references that its slots hold to foreign containers. -/
def Store.ImportsExact (s : Store) : Prop := ∀ ds d id, s.dataspace? ds = some d → d.imports[id]? =
  if s.isForeign ds id ∧ 0 < (s.slots ds).tally (.container id) then
    some ((s.slots ds).tally (.container id))
  else none

section

variable {s s₁ s' : Store} {F : Refs} {ds : DataspaceId} {ids : List ContainerId}

theorem Account.Kept.importsExact (ha : Account.Kept ⟨s, F, 0, none⟩) : s.ImportsExact :=
  fun _ _ id hd => ha.imports_eq hd id

/-- Walking a sweep list leaves what a container is, and who owns it. -/
theorem exists_container_of_evictList {n m : Nat} {cursor : Option ContainerId} {id : ContainerId}
    {x' : Container} (ha : Account.Kept ⟨s, F, 0, none⟩) (hp : s.planes = [])
    (h : evictList n cursor s = .ok (m, s')) (hx' : s'.container? id = some x') :
    ∃ x, s.container? id = some x ∧ x.owner = x'.owner := by
  have hpath : Path Effect.Minds ⟨s, F, 0, none⟩ ⟨s', F, 0, none⟩ :=
    walk_evictList trivial (fun _ => trivial) ha hp h
  obtain ⟨y, hy, hfades⟩ := hpath.fading ha (fun _ he => he) (content?_of_container hx')
  obtain ⟨x, hx, rfl⟩ := content?_eq_some.mp hy
  exact ⟨x, hx, hfades.owner.symm⟩

/-- Who owns a container after an eviction. -/
theorem owner_after_eviction {n m : Nat} {cursor : Option ContainerId} {id : ContainerId}
    {x' : Container} (h₁ : Transfers ds s ids s₁) (ha : Account.Kept ⟨s, F, 0, none⟩)
    (hp : s.planes = []) (h : evictList n cursor s₁ = .ok (m, s'))
    (hx' : s'.container? id = some x') :
    ∃ x, s.container? id = some x ∧ x'.owner = if id ∈ ids then ds else x.owner := by
  obtain ⟨hpath, hp₁⟩ := h₁.walk ha hp
  obtain ⟨x₁, hx₁, howner⟩ := exists_container_of_evictList (hpath.kept ha) hp₁ h hx'
  have hcard := (h₁.rehomed ha hp).card id
  rw [card?_of_container hx₁] at hcard
  obtain ⟨k, hk, hk₁⟩ := Option.map_eq_some_iff.mp hcard.symm
  obtain ⟨x, hx, rfl⟩ := exists_of_card hk
  refine ⟨x, hx, ?_⟩
  rw [← howner]
  refine (congrArg Card.owner hk₁).symm.trans ?_
  split <;> rfl

end

namespace Client

variable {limits : Limits} {c : Client} {ds : DataspaceId}

/--
Outside of regions there is a least set of foreign containers that contains each to which nothing
refers but slots of a dataspace and of the set. Evicting the dataspace takes over just this set, in
rounds that come to an end; any other order of transfers, as long as they go on until no container
is left to be taken over, leads to the same owners, imports and shared containers. After the
eviction what is left of the set is on the sweep list of the dataspace, no other container has a new
owner, all imports are exact, and the shared containers are those that were still imported, by slot,
to each of which there are references from elsewhere.
-/
theorem Reachable.takes_over (h : Reachable limits c) {d : Dataspace}
    (hd : c.store.dataspace? ds = some d) (hp : c.store.planes = []) :
    ∃ (T : Finset ContainerId) (s₁ : Store),
      (∀ id, c.store.Secluded c.owned ds T id → id ∈ T) ∧
      (∀ U : Finset ContainerId, (∀ id, c.store.Secluded c.owned ds U id → id ∈ U) → T ⊆ U) ∧
      (∀ n, c.store.heap.containers.cells.size < n →
        transferExclusive ds n c.store = .ok (T.card, s₁)) ∧
      Settled s₁ ds ∧ s₁.ImportsExact ∧
      (∀ ids s₂, Transfers ds c.store ids s₂ → Settled s₂ ds →
        ids.Nodup ∧ ids.toFinset = T ∧ (∀ id, s₂.card? id = s₁.card? id) ∧
        (∀ x d₁ d₂, s₁.dataspace? x = some d₁ → s₂.dataspace? x = some d₂ →
          ∀ id : ContainerId, d₂.imports[id]? = d₁.imports[id]?) ∧
        s₂.imported ds = s₁.imported ds) ∧
      ∀ report c', c.Requests (.evictDataspace ds) (.ok (.eviction report)) c' →
        report.rehomed = T.card ∧
        (∀ id x, c'.store.container? id = some x →
          (id ∈ T → x.owner = ds ∧
            ∃ vs, c'.store.sweepList ds = .ok vs ∧ Value.ofContainer x.kind id ∈ vs) ∧
          (id ∉ T → ∃ y, c.store.container? id = some y ∧ y.owner = x.owner)) ∧
        report.shared.Pairwise (fun v w =>
          ∃ i j, v.containerId? = some i ∧ w.containerId? = some j ∧ i.slot < j.slot) ∧
        (∀ v, v ∈ report.shared ↔ ∃ d₁ n id x, s₁.dataspace? ds = some d₁ ∧
          d₁.imports[id]? = some n ∧ s₁.container? id = some x ∧ v = .ofContainer x.kind id) ∧
        (∀ d₁ n id, s₁.dataspace? ds = some d₁ → d₁.imports[id]? = some n →
          (s₁.slots ds).tally (.container id) < (s₁.refs + c.owned).tally (.container id)) ∧
        c'.store.ImportsExact := by
  have ha : Account.Kept ⟨c.store, c.owned, 0, none⟩ := h.kept
  obtain ⟨ids, s₁, hids, hsettled, hrounds⟩ := rounds_settle ha hp ds
  -- One run stands for any: the transfers of the first to settle are what the statement names.
  obtain ⟨hn, -⟩ := hids.foreign ha hp
  obtain ⟨hpath, hp₁⟩ := hids.walk ha hp
  have ha₁ := hpath.kept ha
  obtain ⟨d₁, hd₁⟩ := hids.exists_dataspace ha hp hd
  have hcard : ids.toFinset.card = ids.length := List.toFinset_card_of_nodup hn
  refine ⟨ids.toFinset, s₁, fun id hid => ?_, fun U hU id hid => ?_, fun n hlt => ?_, hsettled,
    ha₁.importsExact, fun ids₂ s₂ hids₂ hsettled₂ => ?_, fun report c' hr => ?_⟩
  · exact List.mem_toFinset.mpr (hids.closed ha hp hd₁ hsettled hid)
  · exact hids.least ha hp hU id (List.mem_toFinset.mp hid)
  · rw [hcard]
    exact hrounds n hlt
  · have hperm := hids.perm hids₂ ha hp hd hsettled hsettled₂
    refine ⟨(hids₂.foreign ha hp).1, (List.toFinset_eq_of_perm _ _ hperm).symm,
      hids.card_eq hids₂ ha hp hperm, fun x e₁ e₂ he₁ he₂ => ?_,
      hids.imported_eq hids₂ ha hp hd hperm⟩
    exact hids.imports_eq hids₂ ha hp hperm he₁ he₂
  obtain ⟨r, hs, hreport⟩ := ClientM.bind_pure_eq_ok.mp hr.performed
  obtain ⟨rehomed, evicted, t, rfl, h₁, h₂⟩ := evictDataspace_stages hd hp hs
  obtain ⟨rfl, rfl⟩ := Prod.mk.inj
    (Except.ok.inj ((hrounds _ (Nat.lt_succ_self _)).symm.trans h₁))
  obtain rfl : report = { evicted, rehomed := ids.length, shared := s₁.imported ds } :=
    Answer.eviction.inj (Except.ok.inj hreport)
  refine ⟨hcard.symm, fun id x hx => ?_, pairwise_imported s₁ ds, fun v => mem_imported,
    fun e n id he hn => hsettled.shared ha₁ he hn, (h.next hr).kept.importsExact⟩
  obtain ⟨y, hy, howner⟩ := owner_after_eviction hids ha hp h₂ hx
  constructor
  · intro hid
    rw [if_pos (List.mem_toFinset.mp hid)] at howner
    subst howner
    exact ⟨rfl, mem_sweepList (h.next hr).kept hx⟩
  · intro hid
    rw [if_neg fun hmem => hid (List.mem_toFinset.mpr hmem)] at howner
    exact ⟨y, hy, howner.symm⟩

/--
Requests after which a variable of a dataspace holds a foreign array, and this one another, to which
there are no other references; a second variable holds an array that the client owns, too.
-/
def lending : List Operation :=
  [.createDataspace 2, .createDataspace 0, .createArray ⟨1⟩ 1, .createArray ⟨1⟩ 0,
    .assign (.container .array ⟨0⟩) (.int 0) (.container .array ⟨1⟩),
    .release (.container .array ⟨1⟩), .assignVariable ⟨⟨0⟩, 0⟩ (.container .array ⟨0⟩),
    .release (.container .array ⟨0⟩), .createArray ⟨1⟩ 0,
    .assignVariable ⟨⟨0⟩, 1⟩ (.container .array ⟨2⟩)]

/-- Two containers that are taken over, and one that is shared. -/
theorem takes_over_lending : ∃ (c c' : Client) (T : Finset ContainerId) (report : EvictionReport),
    Reachable {} c ∧ c.Requests (.evictDataspace ⟨0⟩) (.ok (.eviction report)) c' ∧
    (∀ id, c.store.Secluded c.owned ⟨0⟩ T id → id ∈ T) ∧ T.card = 2 ∧
    report.shared = [.container .array ⟨2⟩] := by
  obtain ⟨c, hc, hf⟩ := exists_visit lending
    (fun c => ((c.store.dataspace? ⟨0⟩).isSome, c.store.planes.isEmpty,
      (c.request? (.evictDataspace ⟨0⟩)).map Prod.fst))
    (a := (true, true, some (.ok (.eviction ⟨2, 2, [.container .array ⟨2⟩]⟩)))) (by cbv)
  obtain ⟨hd, hp, hr⟩ : _ ∧ _ ∧ _ := by simpa only [Prod.mk.injEq] using hf
  obtain ⟨d, hd⟩ := Option.isSome_iff_exists.mp hd
  obtain ⟨⟨outcome, c'⟩, hr, rfl⟩ := Option.map_eq_some_iff.mp hr
  have hr := request?_eq_some.mp hr
  obtain ⟨T, s₁, hclosed, -, -, -, -, -, hreport⟩ :=
    Reachable.takes_over hc hd (List.isEmpty_iff.mp hp)
  exact ⟨c, c', T, _, hc, hr, hclosed, (hreport _ _ hr).1.symm, rfl⟩

end Client

end PlaneStore
