import PlaneStore.Proofs.Totality.References

/-!
# No faults: looking after one container

The swap gives back what it was handed, so elements can be made resident; the slots of what is held
in a container are in use, so it can be scrubbed, merged and compacted.
-/

namespace PlaneStore

open Store

section

variable {s s' : Store} {F : Refs} {C : Charges} {q : Option Closing} {id : ContainerId}
  {c : Container}

/-! ## What a container holds -/

/-- What a container holds is there. -/
theorem Account.Kept.there_of_held {a : Account} (ha : a.Kept) {v : Value}
    (hc : a.store.container? id = some c) (hv : v ∈ c.held a.store.swap) : a.store.There v :=
  ha.there fun _ => Account.mem_refs_of_store (mem_refs_of_held hc hv)

/-- The elements at hand are there. -/
theorem Account.Kept.has_values {a : Account} (ha : a.Kept) {values : Array Value}
    (hc : a.store.container? id = some c) (he : c.elements = .resident values) :
    ∀ v ∈ values, a.store.heap.Has v := fun v hv => by
  refine ha.there_of_held hc (Multiset.mem_coe.mpr (List.mem_append_left _ ?_))
  rw [Container.buffer_of_resident _ he]
  exact Array.mem_toList_iff.mpr hv

/-- The pending entries are there. -/
theorem Account.Kept.has_overlay {a : Account} (ha : a.Kept) {o : Overlay}
    (hc : a.store.container? id = some c) (ho : c.overlay = some o) : o.Has a.store.heap := by
  intro i e hi
  have hx := content?_of_container hc
  obtain ⟨hkey, hvalue⟩ := Content.mem_held_of_entry (x := c.content a.store.swap) ho hi
  exact ⟨ha.there fun _ => Account.mem_refs_of_store (Content.mem_refs hx hkey),
    ha.there fun _ => Account.mem_refs_of_store (Content.mem_refs hx hvalue)⟩

/-! ## Residency -/

/-- The swap has the elements of a container that was evicted. -/
theorem succeeds_faultIn (hs : s.Stored) (hc : s.container? id = some c) :
    Succeeds (faultIn id) s := by
  refine Succeeds.bind (.container hc) fun c' t h => ?_
  obtain ⟨hc', rfl⟩ := StoreM.container_eq_ok.mp h
  obtain rfl := Option.some.inj (hc.symm.trans hc')
  cases he : c.elements with
  | resident values => exact .pure _
  | evicted ticket n =>
    obtain ⟨values, hvalues, hn⟩ := hs.length hc he
    refine Succeeds.bind ⟨_, _, rfl⟩ fun values' t h => ?_
    obtain ⟨rfl, rfl⟩ := Prod.mk.inj (Except.ok.inj h)
    have hsize : (s.swap.buffers.getD ticket #[]).size = n := by
      rw [Std.TreeMap.getD_eq_getD_getElem?, hvalues]
      exact hn
    rw [if_pos hsize]
    exact Succeeds.modifyContainer (s := { s with swap := (s.swap.load ticket).2 }) hc

theorem succeeds_residentValues {values : Array Value} (hc : s.container? id = some c)
    (he : c.elements = .resident values) : Succeeds (residentValues id) s :=
  ⟨values, s, StoreM.residentValues_eq_ok.mpr ⟨⟨c, hc, he⟩, rfl⟩⟩

theorem succeeds_modifyValues {f : Array Value → Array Value} {values : Array Value}
    (hc : s.container? id = some c) (he : c.elements = .resident values) :
    Succeeds (modifyValues id f) s :=
  ⟨(), _, StoreM.modifyValues_eq_ok.mpr ⟨c, values, hc, he, rfl⟩⟩

theorem succeeds_report (hc : s.container? id = some c) : Succeeds (reportSizeChange id) s := by
  refine Succeeds.bind (.container hc) fun c' t h => ?_
  obtain ⟨hc', rfl⟩ := StoreM.container_eq_ok.mp h
  split
  · exact .pure _
  · exact Succeeds.bind (.modifyContainer hc) fun u t h => .update _

/-- Elements can be rid of what is destroyed. -/
theorem succeeds_scrubElements (ha : Account.Kept ⟨s, F, C, q⟩) (hc : s.container? id = some c)
    (hk : c.kind ≠ .mapping) : Succeeds (scrubElements id) s := by
  refine Succeeds.bind (succeeds_faultIn ha.accounted.stored hc) fun u s₁ h₁ => ?_
  obtain ⟨hpath, c₀, values₀, hc₀, hc₁⟩ := walk_faultIn (E := (· = .still)) (F := F) (C := C)
    (q := q) rfl h₁
  obtain rfl := Option.some.inj (hc.symm.trans hc₀)
  have ha₁ := hpath.kept ha
  refine Succeeds.bind (.container hc₁) fun d t h => ?_
  obtain ⟨hd, rfl⟩ := StoreM.container_eq_ok.mp h
  obtain rfl := Option.some.inj (hc₁.symm.trans hd)
  refine Succeeds.get_bind ?_
  split
  · refine Succeeds.bind (succeeds_residentValues hc₁ rfl) fun values t h => ?_
    obtain ⟨⟨c', hc', he⟩, rfl⟩ := StoreM.residentValues_eq_ok.mp h
    obtain rfl := Option.some.inj (hc₁.symm.trans hc')
    have hthere := ha₁.has_values hc₁ he
    refine Succeeds.bind (succeeds_mapM_scrub fun v hv => hthere v (Array.mem_toList_iff.mp hv))
      fun seen t h => ?_
    obtain ⟨rfl, hseen⟩ := mapM_scrub_eq_ok h
    refine Succeeds.bind (.modifyContainer hc₁) fun u t h => ?_
    obtain ⟨c', hc', rfl⟩ := StoreM.modifyContainer_eq_ok.mp h
    obtain rfl := Option.some.inj (hc₁.symm.trans hc')
    have hstep := Step.upkeep (.scrub (F := F) (C := C) (q := q) hc₁ he hk hseen)
    exact succeeds_relinquish (hstep.kept ha₁)
  · exact .pure _

/-! ## Merging overlays -/

/-- The overlay goes with the sorted pairs, so it can be merged into them. -/
theorem succeeds_absorbOverlay {values : Array Value} (ha : Account.Kept ⟨s, F, C, q⟩)
    (hc : s.container? id = some c) (he : c.elements = .resident values) :
    Succeeds (Mapping.absorbOverlay id) s := by
  refine Succeeds.bind (.container hc) fun c' t h => ?_
  obtain ⟨hc', rfl⟩ := StoreM.container_eq_ok.mp h
  obtain rfl := Option.some.inj (hc.symm.trans hc')
  cases ho : c.overlay with
  | none => exact .pure _
  | some o =>
    have hk : c.kind = .mapping :=
      ((Content.whole ha.accounted (content?_of_container hc)).overlay ho).1
    obtain ⟨htable, hpending⟩ := ha.tables hc hk he
    have hmerged := @Mapping.faultless_merged s.heap _ id _ htable (hpending o ho)
      (ha.has_values hc he)
      (ha.has_overlay hc ho)
    refine Succeeds.bind (.readHeap (.bind ⟨values, StoreM.values_eq_ok.mpr he⟩ fun vs hvs => ?_))
      fun r t h => ?_
    · obtain rfl := Elements.resident.inj ((StoreM.values_eq_ok.mp hvs).symm.trans he)
      exact hmerged
    · obtain ⟨-, rfl⟩ := StoreM.readHeap_eq_ok.mp h
      exact Succeeds.bind (.modifyContainer hc) fun u t _ => .pure _

theorem succeeds_isDead {v : Value} (hv : s.There v) : Succeeds (isDead v) s :=
  .bind (succeeds_scrub hv) fun _ _ _ => .pure _

theorem succeeds_isLivePair {p : Pair} (hp : s.There p.1 ∧ s.There p.2) :
    Succeeds (Mapping.isLivePair p) s := by
  refine Succeeds.bind (succeeds_isDead hp.1) fun dead t h => ?_
  obtain ⟨rfl, -⟩ := isDead_eq_ok h
  cases dead with
  | true => exact .pure _
  | false => exact Succeeds.bind (succeeds_isDead hp.2) fun _ _ _ => .pure _

theorem succeeds_mapM_isLivePair {ps : List Pair} (hps : ∀ p ∈ ps, s.There p.1 ∧ s.There p.2) :
    Succeeds (ps.mapM Mapping.isLivePair : StoreM (List Bool)) s := by
  induction ps with
  | nil => exact .pure _
  | cons p ps ih =>
    obtain ⟨hp, hps⟩ := List.forall_mem_cons.mp hps
    rw [List.mapM_cons]
    refine Succeeds.bind (succeeds_isLivePair hp) fun b t h => ?_
    obtain ⟨rfl, -⟩ := isLivePair_eq_ok h
    exact .bind (ih hps) fun bs t _ => .pure _

/-- The pairs of a mapping can be rid of what is destroyed. -/
theorem succeeds_dropDeadPairs {values : Array Value} (ha : Account.Kept ⟨s, F, C, q⟩)
    (hc : s.container? id = some c) (he : c.elements = .resident values) :
    Succeeds (Mapping.dropDeadPairs id) s := by
  refine Succeeds.bind (.container hc) fun c' t h => ?_
  obtain ⟨hc', rfl⟩ := StoreM.container_eq_ok.mp h
  obtain rfl := Option.some.inj (hc.symm.trans hc')
  refine Succeeds.get_bind ?_
  split
  · refine Succeeds.bind (succeeds_residentValues hc he) fun values' t h => ?_
    obtain ⟨⟨c', hc', he'⟩, rfl⟩ := StoreM.residentValues_eq_ok.mp h
    obtain rfl := Option.some.inj (hc.symm.trans hc')
    have hthere := ha.has_values hc he'
    refine Succeeds.bind (succeeds_mapM_isLivePair fun p hp => ?_) fun live t h => ?_
    · obtain ⟨hkey, hvalue⟩ := Pair.mem_of_ofBuffer hp
      exact ⟨hthere _ hkey, hthere _ hvalue⟩
    obtain ⟨rfl, -⟩ := mapM_isLivePair_eq_ok h
    refine Succeeds.bind (.modifyContainer hc) fun u t h => ?_
    obtain ⟨c', hc', rfl⟩ := StoreM.modifyContainer_eq_ok.mp h
    refine Succeeds.bind ?_ fun u t _ => .pure _
    unfold StoreM.when
    split
    · refine Succeeds.bind (.modifyContainer (container?_withContainer_self hc)) fun u t h => ?_
      obtain ⟨d, hd, rfl⟩ := StoreM.modifyContainer_eq_ok.mp h
      exact succeeds_report (container?_withContainer_self hd)
    · exact .pure _
  · exact .pure _

/-- A container that is there can be merged and compacted. -/
theorem succeeds_mergeOverlay {compact : Bool} (ha : Account.Kept ⟨s, F, C, q⟩)
    (hc : s.container? id = some c) (hk : compact = true → c.kind = .mapping) :
    Succeeds (Mapping.mergeOverlay id compact) s := by
  refine Succeeds.bind (succeeds_faultIn ha.accounted.stored hc) fun u s₁ h₁ => ?_
  obtain ⟨hpath₁, c₀, values₀, hc₀, hc₁⟩ := walk_faultIn (E := fun _ => True) (F := F) (C := C)
    (q := q) trivial h₁
  obtain rfl := Option.some.inj (hc.symm.trans hc₀)
  have ha₁ := hpath₁.kept ha
  refine Succeeds.bind (.container hc₁) fun d t h => ?_
  obtain ⟨hd, rfl⟩ := StoreM.container_eq_ok.mp h
  obtain rfl := Option.some.inj (hc₁.symm.trans hd)
  refine Succeeds.bind (succeeds_absorbOverlay ha₁ hc₁ rfl) fun superseded s₂ h₂ => ?_
  obtain ⟨hpath₂, values', hc₂⟩ := walk_absorbOverlay (E := fun _ => True) (F := F) (C := C)
    (q := q) trivial hc₁ rfl h₂
  have ha₂ := hpath₂.kept ha₁
  refine Succeeds.bind ?_ fun dropped s₃ h₃ => ?_
  · cases compact with
    | true => exact succeeds_dropDeadPairs ha₂ hc₂ rfl
    | false => exact .pure _
  -- What both halves give up is in flight until it is relinquished.
  have hpath₃ : Path (fun _ => True)
      ⟨s₂, F, .of c.owner superseded + C, q⟩
      ⟨s₃, F, .of c.owner (superseded ++ dropped) + C, q⟩ := by
    cases compact with
    | true =>
      rw [Charges.of_append, add_comm (Charges.of c.owner superseded)
        (Charges.of c.owner dropped), add_assoc]
      exact (walk_dropDeadPairs (E := fun _ => True) trivial ha₂ hc₂ rfl rfl (hk rfl) h₃).1
    | false =>
      obtain ⟨rfl, rfl⟩ := StoreM.pure_eq_ok.mp h₃
      rw [List.append_nil]
      exact .refl _
  exact succeeds_relinquish (hpath₃.kept ha₂)

end

end PlaneStore
