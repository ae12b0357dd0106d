import PlaneStore.Proofs.Mapping.MappingsOfMappings
import PlaneStore.Proofs.Clients.ArrayCombinators

/-!
# Containers made of mappings as clients see them

Making a container of a mapping is as compacting the mapping, looking at the other operand, and then
making a container of the pairs that the operation is about. The operands keep what they have.
-/

namespace PlaneStore

open Store

namespace Client

variable {limits : Limits} {c c' : Client} {id : ContainerId} {s : Store}

theorem visit?_cons {op : Operation} {ops : List Operation} {outcome : Outcome}
    (h : c.Requests op outcome c') : c.visit? (op :: ops) = c'.visit? ops := by
  show (c.request? op).bind _ = _
  rw [request?_eq_some.mpr h]
  rfl

/-! ## Operands -/

/-- Reading a mapping that is an operand is compacting it. -/
theorem Requests.compacts {α : Type} {f : ContainerId × Array Value → ClientM α}
    {r : Except Refusal α} (ha : c.account.Kept) (hm : c.owned.Covers (.container .mapping id))
    (h : (Mapping.operand (.container .mapping id) >>= f) c.store = .ok (r, s)) :
    ∃ buffer x c₁, c.Requests (.mapMerge (.container .mapping id) true) (.ok .done) c₁ ∧
      c₁.owned = c.owned ∧ Path Effect.Tends c.account c₁.account ∧
      c₁.store.content? id = some x ∧ x.Clean c₁.store.objects.epoch buffer ∧
      f (id, buffer) c₁.store = .ok (r, s) := by
  -- To read an operand is to merge with compaction and to look at the buffer; it is never refused.
  have hoperand : ∀ {o t}, Mapping.operand (.container .mapping id) c.store = .ok (o, t) →
      ∃ buffer, o = .ok (id, buffer) ∧ Mapping.mergeOverlay id true c.store = .ok ((), t) := by
    intro o t ho
    obtain ⟨_, s₁, h₁, ho⟩ := ClientM.lift_bind_eq_ok.mp ho
    obtain ⟨buffer, s₂, h₂, ho⟩ := ClientM.lift_bind_eq_ok.mp ho
    obtain ⟨-, rfl⟩ := StoreM.residentValues_eq_ok.mp h₂
    obtain ⟨rfl, rfl⟩ := ClientM.pure_eq_ok.mp ho
    exact ⟨buffer, rfl, h₁⟩
  rcases ClientM.bind_eq_ok.mp h with ⟨e, h₁, -⟩ | ⟨p, t, h₁, h⟩
  · obtain ⟨_, hr, -⟩ := hoperand h₁
    cases hr
  obtain ⟨buffer, hr, hmerge⟩ := hoperand h₁
  obtain ⟨hpath, hclean⟩ :=
    walk_mapOperand (E := Effect.Tends) .still (fun id _ => .scrub id) ha hm h₁
  obtain ⟨-, x, hx, hclean⟩ := hclean id buffer hr
  refine ⟨buffer, x, ⟨t, c.owned⟩, ⟨List.forall_mem_singleton.mpr hm, ?_, rfl⟩, rfl,
    hpath, hx, hclean,
    Except.ok.inj hr ▸ h⟩
  exact ClientM.bind_pure_eq_ok.mpr ⟨.ok (), ClientM.lift_eq_ok.mpr ⟨(), rfl, hmerge⟩, rfl⟩

/-- Reading an array that is an operand is looking at it. -/
theorem Requests.sorts {α : Type} {f : Array Value → ClientM α} {r : Except Refusal α}
    (ha : c.account.Kept) (hv : c.owned.Covers (.container .array id))
    (h : (Sequence.sortedOperand (.container .array id) >>= f) c.store = .ok (r, s)) :
    ∃ values sorted x c₁,
      c.Requests (.elements (.container .array id)) (.ok (.values values.toList)) c₁ ∧
      c₁.owned = c.owned ∧ Path Effect.Tends c.account c₁.account ∧
      c₁.store.content? id = some x ∧ x.Swept c₁.store.objects.epoch values ∧
      c₁.store.heap.sort values = .ok sorted ∧ f sorted c₁.store = .ok (r, s) := by
  obtain ⟨values, sorted, t, he, hs, h⟩ := Sequence.sortedOperand_bind_eq_ok h
  obtain ⟨hpath, x, hx, hsx⟩ := swept_elements ha hv (by decide) he
  exact ⟨values, sorted, x, ⟨t, c.owned⟩, .looks hv he, rfl, hpath, hx, hsx, hs, h⟩

/-! ## Pairs -/

/-- The operands of an operation have been looked after, and it has its pairs. -/
structure Combines (c : Client) (op : Mapping.Combinator) (id : ContainerId) (ps : List Pair)
    (c' : Client) : Prop where
  visits : c.visit? (op.prepares (.container .mapping id)) = some c'
  owned : c'.owned = c.owned
  path : Path Effect.Tends c.account c'.account
  maps : ∀ a ∈ id :: op.maps, ∃ x buffer, c'.store.content? a = some x ∧
    x.Clean c'.store.objects.epoch buffer
  arrays : ∀ a ∈ op.arrays, ∃ x values, c'.store.content? a = some x ∧
    x.Swept c'.store.objects.epoch values
  table : c'.store.heap.Table ps
  alive : ∀ p ∈ ps, c'.store.lost p.1 = false ∧ c'.store.lost p.2 = false
  find : ∀ k, c'.store.heap.find ps k = op.lookup? c.store id k
  listed : op.kind = .array → ∀ x, c'.store.content? id = some x → ps = x.pairs

/-- The pairs of an operation that selects by key. -/
theorem Combines.of_filter {op : Mapping.Combinator} {x : Content} {buffer : Array Value}
    (keep : Identity → Bool) (ha : c.account.Kept)
    (hvisits : c.visit? (op.prepares (.container .mapping id)) = some c')
    (howned : c'.owned = c.owned)
    (hpath : Path Effect.Tends c.account c'.account) (hx : c'.store.content? id = some x)
    (hc : x.Clean c'.store.objects.epoch buffer) (hmaps : op.maps = [])
    (harrays : ∀ a ∈ op.arrays, ∃ y values, c'.store.content? a = some y ∧
      y.Swept c'.store.objects.epoch values)
    (hentry : ∀ k, (if keep k then c.store.spared? id k else none) = op.lookup? c.store id k)
    (hlisted : op.kind = .array → ∀ k, keep k = true) :
    c.Combines op id ((Pair.ofBuffer buffer).filter fun p => keep (c'.store.heap.identity p.1))
      c' := by
  obtain ⟨hsolid, -, htable⟩ := (hpath.kept ha).solid hx hc
  refine ⟨hvisits, howned, hpath, fun a hmem => ?_, harrays, htable.sublist List.filter_sublist,
    fun p hp => ?_, fun k => ?_, fun hk y hy => ?_⟩
  · rw [hmaps] at hmem
    obtain rfl := List.mem_singleton.mp hmem
    exact ⟨x, buffer, hx, hc⟩
  · obtain ⟨hkey, hvalue⟩ := Pair.mem_of_ofBuffer (List.mem_filter.mp hp).1
    exact ⟨(hsolid _ hkey).2, (hsolid _ hvalue).2⟩
  · refine (Heap.find_select htable.distinct keep).trans (Eq.trans ?_ (hentry k))
    exact if_congr Iff.rfl (hpath.find_of_clean ha hx hc) rfl
  · obtain rfl := Option.some.inj (hx.symm.trans hy)
    rw [Content.pairs, hc.buffer]
    exact List.filter_eq_self.mpr fun p _ => hlisted hk _

theorem Combines.lost_of_mem {op : Mapping.Combinator} {ps : List Pair} {v : Value}
    (h : c.Combines op id ps c') (hv : v ∈ op.list ps) : c'.store.lost v = false := by
  obtain ⟨p, hp, rfl | rfl⟩ := op.mem_of_list hv
  · exact (h.alive p hp).1
  · exact (h.alive p hp).2

section

variable {r : Except Refusal Value} (ha : c.account.Kept)
  (hm : c.owned.Covers (.container .mapping id))
include ha hm

/-- The pairs of an operation that takes all the pairs. -/
theorem combines_all (op : Mapping.Combinator) {f : ContainerId × Array Value → ClientM Value}
    (hprepares : op.prepares (.container .mapping id) = [.mapMerge (.container .mapping id) true])
    (hmaps : op.maps = []) (harrays : op.arrays = [])
    (hentry : ∀ k, op.lookup? c.store id k = c.store.spared? id k)
    (h : (Mapping.operand (.container .mapping id) >>= f) c.store = .ok (r, s)) :
    ∃ buffer c₁, c.Combines op id (Pair.ofBuffer buffer) c₁ ∧
      Pair.flatten (Pair.ofBuffer buffer) = buffer.toList ∧
        f (id, buffer) c₁.store = .ok (r, s) := by
  obtain ⟨buffer, x, c₁, hr, howned, hpath, hx, hclean, h⟩ := Requests.compacts ha hm h
  obtain ⟨-, heven, -⟩ := (hpath.kept ha).solid hx hclean
  have hcombines : c.Combines op id ((Pair.ofBuffer buffer).filter fun _ => true) c₁ :=
    .of_filter (fun _ => true) ha (hprepares ▸ visit?_cons hr) howned hpath hx hclean hmaps
      (harrays ▸ nofun) (fun k => (hentry k).symm) fun _ _ => rfl
  rw [List.filter_true] at hcombines
  exact ⟨buffer, c₁, hcombines, Pair.flatten_ofBuffer heven, h⟩

/-- The indices of a mapping are derived from its pairs. -/
theorem combines_indices (h : Mapping.indices (.container .mapping id) c.store = .ok (r, s)) :
    ∃ ps c₁, c.Combines .indices id ps c₁ ∧
      derive id .array (ps.map Prod.fst) c₁.store = .ok (r, s) := by
  obtain ⟨buffer, c₁, hc, hflat, h⟩ := combines_all ha hm .indices rfl rfl rfl (fun _ => rfl) h
  refine ⟨_, c₁, hc, ?_⟩
  rw [← Mapping.everySecond_flatten, hflat]
  exact h

/-- The values of a mapping are derived from its pairs. -/
theorem combines_values (h : Mapping.values (.container .mapping id) c.store = .ok (r, s)) :
    ∃ ps c₁, c.Combines .values id ps c₁ ∧
      derive id .array (ps.map Prod.snd) c₁.store = .ok (r, s) := by
  obtain ⟨buffer, c₁, hc, hflat, h⟩ := combines_all ha hm .values rfl rfl rfl (fun _ => rfl) h
  refine ⟨_, c₁, hc, ?_⟩
  rw [← Mapping.everySecond_tail_flatten, hflat]
  exact h

/-- A range is derived from the pairs between the bounds. -/
theorem combines_range {lo hi : Value} (hlo : c.owned.Covers lo) (hhi : c.owned.Covers hi)
    (h : Mapping.range (.container .mapping id) lo hi c.store = .ok (r, s)) :
    ∃ ps c₁, c.Combines (.range lo hi) id ps c₁ ∧
      derive id .mapping (Pair.flatten ps) c₁.store = .ok (r, s) := by
  obtain ⟨buffer, x, c₁, hr, howned, hpath, hx, hclean, h⟩ := Requests.compacts ha hm h
  obtain ⟨values, s₁, h₁, h⟩ := ClientM.lift_bind_eq_ok.mp h
  obtain ⟨rfl, rfl⟩ := Mapping.selectPairs_eq_filter (c₁.store.heap.within lo hi)
    (fun v b => Heap.inRange_eq_ok) h₁
  obtain ⟨-, -, htable⟩ := (hpath.kept ha).solid hx hclean
  have hplace : ∀ v, c.owned.Covers v → c₁.store.heap.place v = c.store.heap.place v := fun v hv =>
    (hpath.stands ha Effect.Tends.calm (howned ▸ hv : c₁.owned.Covers v).of_flight).place
  refine ⟨_, c₁, .of_filter (c₁.store.heap.within lo hi) ha (visit?_cons hr) howned hpath hx hclean
    rfl nofun (fun k => ?_) nofun, h⟩
  cases hv : c.store.spared? id k with
  | none => simp [Mapping.Combinator.lookup?, hv]
  | some v =>
    obtain ⟨p, hp, hid, -⟩ := (Heap.find_eq_some htable.distinct).mp
      ((hpath.find_of_clean ha hx hclean).trans hv)
    have hkey : c₁.store.heap.place p.1 = c.store.heap.place p.1 :=
      hpath.place_of_clean ha hx hclean hp
    have hwithin := Heap.within_congr hkey (hplace lo hlo) (hplace hi hhi)
    have hid : c₁.store.heap.identity p.1 = k := hid
    have hid' : c.store.heap.identity p.1 = k := (Heap.identity_eq_of_place hkey).symm.trans hid
    rw [hid, hid'] at hwithin
    rw [hwithin, ← hv]
    rfl

/-- Subtraction and intersection keep the pairs without or with a key in the array. -/
theorem combines_restrict {op : Mapping.Combinator} {keys : ContainerId} (keep : Bool)
    (hop : op = if keep then .intersect keys else .subtract keys)
    (hv : c.owned.Covers (.container .array keys))
    (h : Mapping.restrict (.container .mapping id) (.container .array keys) keep c.store =
      .ok (r, s)) :
    ∃ ps c₁, c.Combines op id ps c₁ ∧ derive id .mapping (Pair.flatten ps) c₁.store =
      .ok (r, s) := by
  obtain ⟨buffer, x, c₁, hr, howned, hpath, hx, hclean, h⟩ := Requests.compacts ha hm h
  have ha₁ := hpath.kept ha
  have hv₁ : c₁.owned.Covers (.container .array keys) := howned ▸ hv
  obtain ⟨values, sorted, y, c₂, hr', howned', hpath', hy, hswept, hsorted, h⟩ :=
    Requests.sorts ha₁ hv₁ h
  obtain ⟨x', hx', hclean'⟩ := hpath'.exists_clean ha₁
    (show c₂.owned.Covers _ from howned' ▸ howned ▸ hm) hx hclean
  have hall := hpath.trans hpath'
  obtain ⟨-, heven, -⟩ := (hall.kept ha).solid hx' hclean'
  -- The keys of the array are those that it had before both operands were tended.
  have hmembers : values.toList.map c₂.store.heap.identity = c.store.members keys :=
    hall.members_of_swept ha hy hswept
  have hvisits : c.visit? [.mapMerge (.container .mapping id) true,
      .elements (.container .array keys)] = some c₂ := (visit?_cons hr).trans (visit?_cons hr')
  refine ⟨_, c₂, .of_filter (fun k => decide (k ∈ c.store.members keys) == keep) ha ?_
    (howned'.trans howned) hall hx' hclean' ?_ ?_ (fun k => ?_) ?_, ?_⟩
  · subst hop
    cases keep <;> exact hvisits
  · subst hop
    cases keep <;> rfl
  · subst hop
    cases keep <;> exact List.forall_mem_singleton.mpr ⟨y, values, hy, hswept⟩
  · subst hop
    cases keep <;> simp [Mapping.Combinator.lookup?]
  · subst hop
    cases keep <;> nofun
  rw [← hmembers]
  dsimp only at h
  split at h
  · next hempty =>
    rw [Mapping.filter_of_empty hsorted heven hempty]
    exact h
  · obtain ⟨selected, s₁, h₁, h⟩ := ClientM.lift_bind_eq_ok.mp h
    obtain ⟨rfl, rfl⟩ := Mapping.selectPairs_eq_filter
      (fun k => decide (k ∈ values.toList.map c₂.store.heap.identity) == keep)
      (fun v b hb => Mapping.isHit_eq_mem hsorted hb) h₁
    exact h

/-- The right operand wins where both have the key. -/
theorem combines_concat {right : ContainerId} (hb : c.owned.Covers (.container .mapping right))
    (h : Mapping.concat (.container .mapping id) (.container .mapping right) c.store = .ok (r, s)) :
    ∃ ps c₁, c.Combines (.concat right) id ps c₁ ∧
      derive id .mapping (Pair.flatten ps) c₁.store = .ok (r, s) := by
  obtain ⟨buffer, x, c₁, hr, howned, hpath, hx, hclean, h⟩ := Requests.compacts ha hm h
  have ha₁ := hpath.kept ha
  have hb₁ : c₁.owned.Covers (.container .mapping right) := howned ▸ hb
  obtain ⟨buffer', y, c₂, hr', howned', hpath', hy, hclean', h⟩ := Requests.compacts ha₁ hb₁ h
  obtain ⟨x', hx', hclean⟩ := hpath'.exists_clean ha₁
    (show c₂.owned.Covers _ from howned' ▸ howned ▸ hm) hx hclean
  have hall := hpath.trans hpath'
  obtain ⟨hsolid, heven, htable⟩ := (hall.kept ha).solid hx' hclean
  obtain ⟨hsolid', -, htable'⟩ := (hall.kept ha).solid hy hclean'
  have hfind : ∀ k, c₂.store.heap.find (Pair.ofBuffer buffer) k = c.store.spared? id k :=
    fun k => hall.find_of_clean ha hx' hclean
  have hfind' : ∀ k, c₂.store.heap.find (Pair.ofBuffer buffer') k = c.store.spared? right k :=
    fun k => hall.find_of_clean ha hy hclean'
  have halive : ∀ p, p ∈ Pair.ofBuffer buffer ∨ p ∈ Pair.ofBuffer buffer' →
      c₂.store.lost p.1 = false ∧ c₂.store.lost p.2 = false := by
    rintro p (hp | hp)
    · exact ⟨(hsolid _ (Pair.mem_of_ofBuffer hp).1).2, (hsolid _ (Pair.mem_of_ofBuffer hp).2).2⟩
    · exact ⟨(hsolid' _ (Pair.mem_of_ofBuffer hp).1).2, (hsolid' _ (Pair.mem_of_ofBuffer hp).2).2⟩
  -- All that the two branches leave open is the list of pairs and what is found in it.
  have hcombines : ∀ ps, c₂.store.heap.Table ps →
      (∀ p ∈ ps, p ∈ Pair.ofBuffer buffer ∨ p ∈ Pair.ofBuffer buffer') →
      (∀ k, c₂.store.heap.find ps k = (c₂.store.heap.find (Pair.ofBuffer buffer') k).or
        (c₂.store.heap.find (Pair.ofBuffer buffer) k)) → c.Combines (.concat right) id ps c₂ := by
    intro ps htable hps hentries
    refine ⟨(visit?_cons hr).trans (visit?_cons hr'), howned'.trans howned, hall,
      List.forall_mem_cons.mpr ⟨⟨x', buffer, hx', hclean⟩,
        List.forall_mem_singleton.mpr ⟨y, buffer', hy, hclean'⟩⟩, nofun, htable,
      fun p hp => halive p (hps p hp), fun k => ?_, nofun⟩
    rw [hentries, hfind, hfind']
    rfl
  dsimp only at h
  split at h
  · next hempty =>
    obtain rfl := Array.isEmpty_iff.mp hempty
    refine ⟨_, c₂, hcombines (Pair.ofBuffer buffer) htable (fun p hp => .inl hp) fun k => rfl, ?_⟩
    rw [Pair.flatten_ofBuffer heven]
    exact h
  · obtain ⟨union, s₁, h₁, h⟩ := ClientM.lift_bind_eq_ok.mp h
    obtain ⟨rfl, ps, rfl, hps, hmem, hentries⟩ := Mapping.overridden_eq_ok htable htable' h₁
    exact ⟨ps, c₂, hcombines ps hps hmem hentries, h⟩

/-- Any of the operations looks after its operands, and makes a container of its pairs. -/
theorem combines_run (op : Mapping.Combinator)
    (hop : ∀ v ∈ (op.request (.container .mapping id)).passed, c.owned.Covers v)
    (h : op.run (.container .mapping id) c.store = .ok (r, s)) :
    ∃ ps c₁, c.Combines op id ps c₁ ∧ derive id op.kind (op.list ps) c₁.store = .ok (r, s) := by
  cases op with
  | indices => exact combines_indices ha hm h
  | values => exact combines_values ha hm h
  | range lo hi =>
    exact combines_range ha hm (hop _ (.tail _ (.head _))) (hop _ (.tail _ (.tail _ (.head _)))) h
  | concat right => exact combines_concat ha hm (hop _ (.tail _ (.head _))) h
  | subtract keys =>
    exact combines_restrict ha hm false rfl (hop _ (.tail _ (.head _))) h
  | intersect keys =>
    exact combines_restrict ha hm true rfl (hop _ (.tail _ (.head _))) h

end

/-! ## What comes of it -/

/--
Making a container of a mapping is as compacting the mapping, which another operand may follow, and
then making a container of certain pairs. These are sorted by key and have each key once, and
neither nil keys nor nil values. Under each key they have what the operation is for, where entries
of which a half is destroyed do not count; the keys and the values of a mapping are those of its
pairs, in turn. What is made is new, has one reference, and belongs to the owner of the mapping.
Only the two limits may stand against it. The operands keep what was spared of them.
-/
theorem Reachable.joins (h : Reachable limits c) (op : Mapping.Combinator)
    (hm : c.owned.Covers (.container .mapping id))
    (hop : ∀ v ∈ (op.request (.container .mapping id)).passed, c.owned.Covers v) :
    ∃ (w x : Content) (ps : List Pair) (c₁ c' : Client) (r : Except Refusal Value),
      c.store.content? id = some w ∧
      c.visit? (op.prepares (.container .mapping id)) = some c₁ ∧
      c₁.store.limits = c.store.limits ∧ c₁.store.level = c.store.level ∧
      c₁.store.content? id = some x ∧ x.overlay = none ∧ (op.kind = .array → ps = x.pairs) ∧
      c₁.store.heap.Table ps ∧ (∀ k, c₁.store.heap.find ps k = op.lookup? c.store id k) ∧
      c.Requests (op.request (.container .mapping id)) (r.map .value) c' ∧
      c₁.store.Derives w.owner op.kind (op.list ps) r c'.store ∧
      (∀ new, r = .ok (.container .mapping new) → c'.store.heap.Table ps ∧
        ∀ k, c'.store.entryAt? new k = op.lookup? c.store id k) ∧
      (∀ a ∈ id :: op.maps, ∀ k, c'.store.entryAt? a k = c.store.spared? a k) ∧
      ∀ a ∈ op.arrays, ∃ y, c.store.view? a = some y ∧
        (c'.store.content? a).map (·.buffer.toList) = some y.elements := by
  obtain ⟨outcome, c', hr⟩ := h.request _ hop fun ds => by cases op <;> nofun
  obtain ⟨r, hrun, rfl⟩ := ClientM.bind_pure_eq_ok.mp
    ((congrFun (op.perform_request _) c.store).symm.trans hr.performed)
  obtain ⟨ps, c₁, hc, hderive⟩ := combines_run h.kept hm op hop hrun
  obtain ⟨x, buffer, hx, hclean⟩ := hc.maps id (.head _)
  have ha₁ := hc.path.kept h.kept
  have hsteady := hc.path.holdsSteady h.kept Effect.minds_of_tends
  obtain ⟨w, hw, hfades⟩ := hc.path.fading h.kept Effect.minds_of_tends hx
  have hderives : c₁.store.Derives x.owner op.kind ((op.list ps).map c₁.store.seen) r c'.store :=
    derive_derives ha₁.accounted.balanced.containers hx hderive
  rw [map_seen_of_alive fun v hv => hc.lost_of_mem hv, hfades.owner] at hderives
  refine ⟨w, x, ps, c₁, c', r, hw, hc.visits, hsteady.limits, hsteady.level, hx, hclean.overlay,
    fun hk => hc.listed hk x hx, hc.table, hc.find, hr, hderives, fun new hnew => ?_,
    fun a hmem k => ?_, fun a hmem => ?_⟩
  · obtain ⟨hshape, hbears⟩ := hderives.bears hnew
    have hk := Kind.shape_eq_mapping.mp hshape
    rw [hk, op.list_of_mapping hk] at hbears
    obtain ⟨htable, hentries⟩ := hbears.find_new rfl rfl rfl (h.next hr).kept
    exact ⟨htable, fun k => (hentries k).trans (hc.find k)⟩
  · obtain ⟨y, buffer', hy, hclean'⟩ := hc.maps a hmem
    -- The derivation touches no operand, so a mapping still has what its compaction left.
    have hentry : c'.store.entryAt? a k = c'.store.heap.find (Pair.ofBuffer buffer') k := by
      rw [entryAt?_of_content (hderives.content? hy), Content.find_of_none hclean'.overlay,
        Content.pairs, hclean'.buffer]
    rw [hentry, Heap.find_congr fun p _ => hderives.sameTexts.identity p.1]
    exact hc.path.find_of_clean h.kept hy hclean'
  · obtain ⟨y, values, hy, hswept⟩ := hc.arrays a hmem
    have hview := (ha₁.view?_of_swept hy hswept).symm.trans
      (hc.path.view? h.kept Effect.minds_of_tends hy hswept.kind)
    refine ⟨_, hview.symm, ?_⟩
    rw [hderives.content? hy, Option.map_some, hswept.buffer]

/-- Requests after which a client owns two mappings that have one key in common. -/
def overlapping : List Operation :=
  [.createDataspace 0, .createMapping ⟨0⟩ 0, .createMapping ⟨0⟩ 0,
    .assign (.container .mapping ⟨0⟩) (.int 1) (.int 10),
    .assign (.container .mapping ⟨0⟩) (.int 2) (.int 20),
    .assign (.container .mapping ⟨1⟩) (.int 2) (.int 30)]

/-- Two mappings with one key in common, joined. -/
theorem joins_overlapping : ∃ (c c₁ c' : Client) (ps : List Pair) (r : Except Refusal Value),
    Reachable {} c ∧
    c.Requests (.mapConcat (.container .mapping ⟨0⟩) (.container .mapping ⟨1⟩)) (r.map .value) c' ∧
    c₁.store.Derives ⟨0⟩ .mapping (Pair.flatten ps) r c'.store ∧
    c₁.store.heap.find ps (c.store.heap.identity (.int 1)) = some (.int 10) ∧
    c₁.store.heap.find ps (c.store.heap.identity (.int 2)) = some (.int 30) := by
  obtain ⟨c, hc, hf⟩ := exists_visit overlapping
    (fun c => (decide (c.owned.Covers (.container .mapping ⟨0⟩)),
      decide (c.owned.Covers (.container .mapping ⟨1⟩)), (c.store.content? ⟨0⟩).map Content.owner,
      (Mapping.Combinator.concat ⟨1⟩).lookup? c.store ⟨0⟩ (c.store.heap.identity (.int 1)),
      (Mapping.Combinator.concat ⟨1⟩).lookup? c.store ⟨0⟩ (c.store.heap.identity (.int 2))))
    (a := (true, true, some ⟨0⟩, some (.int 10), some (.int 30))) (by decide +kernel)
  obtain ⟨ha, hb, howner, hone, htwo⟩ : _ ∧ _ ∧ _ ∧ _ ∧ _ := by simpa only [Prod.mk.injEq] using hf
  have ha := of_decide_eq_true ha
  obtain ⟨w, x, ps, c₁, c', r, hw, -, -, -, -, -, -, -, hfind, hr, hd, -⟩ := Reachable.joins hc
    (.concat ⟨1⟩) ha (List.forall_mem_cons.mpr
      ⟨ha, List.forall_mem_singleton.mpr (of_decide_eq_true hb)⟩)
  rw [hw] at howner
  have howner : w.owner = ⟨0⟩ := Option.some.inj howner
  rw [howner] at hd
  exact ⟨c, c₁, c', ps, r, hc, hr, hd, (hfind _).trans hone, (hfind _).trans htwo⟩

end Client

end PlaneStore
