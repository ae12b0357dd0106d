import PlaneStore.Proofs.Walk.Creation
import PlaneStore.Proofs.Totality.Assignment

/-!
# No faults: creation

A container is made only for a dataspace that exists, and the head of its sweep list is there, so
the new container can be linked in.
-/

namespace PlaneStore

open Store

section

variable {s s' : Store} {F : Refs} {C : Charges} {ds : DataspaceId} {d : Dataspace}

/-- A dataspace does not go away as its containers do. -/
theorem Store.Wanes.exists_dataspace (h : Wanes s s') (hd : s.dataspace? ds = some d) :
    ∃ d', s'.dataspace? ds = some d' := by
  have he := h.dataspace ds
  rw [hd] at he
  cases hd' : s'.dataspace? ds with
  | none =>
    rw [hd'] at he
    cases he
  | some d' => exact ⟨d', rfl⟩

/-! ## Allocation -/

/-- A container can be linked in if the head of the list is there. -/
theorem succeeds_link {id : ContainerId} {c : Container} (hd : s.dataspace? ds = some d)
    (hc : s.container? id = some c)
    (hhead : ∀ first, d.head = some first → ∃ c, s.container? first = some c) :
    Succeeds (link ds id) s := by
  refine Succeeds.get_bind ?_
  rw [hd]
  refine Succeeds.bind (.modifyDataspace _ _) fun u t h => ?_
  obtain rfl := StoreM.modifyDataspace_eq_ok.mp h
  have hc' : (s.withDataspace ds fun d => { d with head := some id }).container? id = some c := hc
  refine Succeeds.bind (.modifyContainer hc') fun u t h => ?_
  obtain ⟨c', -, rfl⟩ := StoreM.modifyContainer_eq_ok.mp h
  refine Succeeds.bind ?_ fun u t h => .modifyDataspace _ _
  unfold setPrev
  cases hfirst : d.head with
  | none => exact .pure _
  | some first =>
    obtain ⟨e, he⟩ := hhead first hfirst
    by_cases hid : id = first
    · subst hid
      exact .modifyContainer (container?_withContainer_self hc')
    · exact .modifyContainer ((container?_withContainer_of_ne hid).trans he)

/-- A container for values in flight can be made in a dataspace that exists. -/
theorem succeeds_allocate {kind : Kind} {values : List Value}
    (ha : Account.Kept ⟨s, ↑values + F, C, none⟩) (hd : s.dataspace? ds = some d) :
    Succeeds (allocate ds kind values) s := by
  have hthere : ∀ v ∈ values, s.There v := fun v hv =>
    ha.there_of_flight (Refs.covers_of_mem (Multiset.mem_add.mpr (.inl (Multiset.mem_coe.mpr hv))))
  refine Succeeds.bind (succeeds_addImports hthere) fun u s₁ h₁ => ?_
  have hcharge := walk_addImports (E := (· = .still)) (F := F) (C := C) (q := none) rfl h₁
  have ha₁ := hcharge.kept ha
  obtain ⟨d₁, hd₁⟩ := (alike_addImports h₁).wanes.exists_dataspace hd
  have hsound := ha₁.accounted.balanced.containers
  refine Succeeds.bind ⟨_, _, StoreM.modifyGet_eq_ok.mpr rfl⟩ fun id s₂ h₂ => ?_
  obtain ⟨rfl, rfl⟩ := Prod.mk.inj (StoreM.modifyGet_eq_ok.mp h₂)
  have hnew := container?_withNew_self (c := s₁.newContainer ds kind values) hsound
  refine Succeeds.bind (succeeds_link (s := s₁.withNew (s₁.newContainer ds kind values)) hd₁ hnew
    fun first hfirst => ?_) fun u s₃ _ => Succeeds.bind (.modifyPlane _) fun u t _ => .pure _
  obtain ⟨l, hl, -⟩ := ha₁.listed.head (by
    unfold head?
    rw [hd₁, Option.map_some, hfirst])
  obtain ⟨c, hc, -⟩ := Option.map_eq_some_iff.mp hl
  by_cases hid : s₁.heap.nextId = first
  · rw [← hid]
    exact ⟨_, hnew⟩
  · exact ⟨c, (container?_withNew_of_ne hid).trans hc⟩

/-- Copies are in flight once they are made. -/
theorem walk_copying {values copied : List Value} {t : Store} (ha : Account.Kept ⟨s, F, C, none⟩)
    (hfits : ∀ v ∈ values, s.heap.Fits v) (h : copies values s = .ok (copied, t)) :
    Account.Kept ⟨t, ↑copied + F, C, none⟩ :=
  (walk_copies (E := (· = .still)) rfl hfits h).1.kept ha

theorem wanes_copies {values copied : List Value} {t : Store}
    (h : copies values s = .ok (copied, t)) :
    Wanes s t := by
  obtain ⟨seen, s₁, h₁, h⟩ := StoreM.bind_eq_ok.mp h
  obtain ⟨rfl, -⟩ := mapM_scrub_eq_ok h₁
  obtain ⟨_, s₂, h₂, h⟩ := StoreM.bind_eq_ok.mp h
  obtain ⟨-, rfl⟩ := StoreM.pure_eq_ok.mp h
  exact wanes_retains h₂

/-! ## Requests -/

theorem succeeds_requireRoom (n : Nat) : Succeeds (requireRoom n) s := by
  refine Succeeds.requestGetBind ?_
  split
  · exact .refuse _
  · split
    · exact .refuse _
    · exact .answer _

theorem succeeds_requireDataspace (ds : DataspaceId) : Succeeds (requireDataspace ds) s := by
  refine Succeeds.requestGetBind ?_
  cases s.dataspace? ds with
  | none => exact .refuse _
  | some d => exact .answer _

/-- Whoever owns a container exists. -/
theorem Account.Kept.exists_owner {a : Account} (ha : a.Kept) {id : ContainerId} {c : Container}
    (hc : a.store.container? id = some c) : ∃ d, a.store.dataspace? c.owner = some d := by
  obtain ⟨h, hh⟩ := ha.listed.owner (links?_of_container hc)
  obtain ⟨d, hd, -⟩ := Option.map_eq_some_iff.mp hh
  exact ⟨d, hd⟩

/-- A container of copies can be made. -/
theorem succeeds_build {α : Type} {kind : Kind} {values : List Value} {f : ContainerId → ClientM α}
    (ha : Account.Kept ⟨s, F, C, none⟩) (hthere : ∀ v ∈ values, s.There v)
    (hfits : ∀ v ∈ values, s.heap.Fits v) (hd : s.dataspace? ds = some d)
    (hf : ∀ id copied t s', copies values s = .ok (copied, t) →
      allocate ds kind copied t = .ok (id, s') → Succeeds (f id) s') :
    Succeeds (do f (← allocate ds kind (← copies values)) : ClientM α) s := by
  refine Succeeds.liftBind (succeeds_copies hthere) fun copied t h₁ => ?_
  obtain ⟨d', hd'⟩ := (wanes_copies h₁).exists_dataspace hd
  exact Succeeds.liftBind (succeeds_allocate (walk_copying ha hfits h₁) hd') fun id s' h₂ =>
    hf id copied t s' h₁ h₂

/-- Out of an operand that is there a container like it can be made. -/
theorem succeeds_derive {source : ContainerId} {c : Container} {kind : Kind} {values : List Value}
    (ha : Account.Kept ⟨s, F, C, none⟩) (hc : s.container? source = some c)
    (hthere : ∀ v ∈ values, s.There v) (hfits : ∀ v ∈ values, s.heap.Fits v) :
    Succeeds (derive source kind values) s := by
  refine Succeeds.requestBind (succeeds_requireRoom _) fun u t h => ?_
  obtain ⟨rfl, -⟩ := requireRoom_eq_ok h
  refine Succeeds.liftBind (.container hc) fun c' t h => ?_
  obtain ⟨hc', rfl⟩ := StoreM.container_eq_ok.mp h
  obtain ⟨d, hd⟩ := ha.exists_owner hc'
  exact succeeds_build ha hthere hfits hd fun id copied t s' _ _ => .answer _

/-- An array or record of nils, or an empty mapping. -/
theorem succeeds_blank {kind : Kind} {n m : Nat} (ha : Account.Kept ⟨s, F, C, none⟩) :
    Succeeds (do
      let _ ← requireDataspace ds
      requireRoom n
      return .ofContainer kind (← allocate ds kind (List.replicate m .nil)) : ClientM Value) s := by
  refine Succeeds.requestBind (succeeds_requireDataspace ds) fun d t h => ?_
  obtain ⟨rfl, hd⟩ := requireDataspace_eq_ok h
  refine Succeeds.requestBind (succeeds_requireRoom n) fun u t h => ?_
  obtain ⟨rfl, -⟩ := requireRoom_eq_ok h
  have hnils : Path (· = .still) ⟨s, F, C, none⟩ ⟨s, ↑(List.replicate m Value.nil) + F, C, none⟩ :=
    walk_retains rfl (fun v hv => by
      rw [List.eq_of_mem_replicate hv]
      exact Heap.fits_of_not_counted rfl) (retain_nils s m)
  exact Succeeds.liftBind (succeeds_allocate (hnils.kept ha) (hd d rfl)) fun id s' _ => .answer _

theorem succeeds_createArrayOf {values : List Value} (ha : Account.Kept ⟨s, F, C, none⟩)
    (hv : ∀ v ∈ values, F.Covers v) : Succeeds (createArrayOf ds values) s := by
  refine Succeeds.requestBind (succeeds_requireDataspace ds) fun d t h => ?_
  obtain ⟨rfl, hd⟩ := requireDataspace_eq_ok h
  refine Succeeds.requestBind (succeeds_requireRoom _) fun u t h => ?_
  obtain ⟨rfl, -⟩ := requireRoom_eq_ok h
  exact succeeds_build ha (fun v hmem => ha.there_of_flight (hv v hmem))
    (fun v hmem => ha.fits_of_covers (hv v hmem)) (hd d rfl) fun id copied t s' _ _ => .answer _

/-! ## Containers from storage -/

/-- Pairs can be read if what they refer to is there. -/
theorem succeeds_scrubPairs {ps : List Pair} (hps : ∀ p ∈ ps, s.There p.1 ∧ s.There p.2) :
    Succeeds (ps.mapM (fun (k, v) => do return (← scrub k, ← scrub v) : Pair → StoreM Pair) :
      StoreM (List Pair)) s := by
  induction ps with
  | nil => exact .pure _
  | cons p ps ih =>
    obtain ⟨⟨hkey, hvalue⟩, hps⟩ := List.forall_mem_cons.mp hps
    rw [List.mapM_cons]
    refine Succeeds.bind ?_ fun q t h => ?_
    · refine Succeeds.bind (succeeds_scrub hkey) fun k t h => ?_
      obtain ⟨-, rfl⟩ := StoreM.scrub_eq_ok.mp h
      exact Succeeds.bind (succeeds_scrub hvalue) fun v t _ => .pure _
    · obtain ⟨k, s₁, h₁, h⟩ := StoreM.bind_eq_ok.mp h
      obtain ⟨-, rfl⟩ := StoreM.scrub_eq_ok.mp h₁
      obtain ⟨v, s₁, h₁, h⟩ := StoreM.bind_eq_ok.mp h
      obtain ⟨-, rfl⟩ := StoreM.scrub_eq_ok.mp h₁
      obtain ⟨-, rfl⟩ := StoreM.pure_eq_ok.mp h
      exact Succeeds.bind (ih hps) fun qs t _ => .pure _

theorem succeeds_restoredElements {kind : Kind} {elements : List Value}
    (hthere : ∀ v ∈ elements, s.There v) : Succeeds (restoredElements kind elements) s := by
  cases kind with
  | mapping =>
    have hpairs : ∀ p ∈ Pair.ofFlat elements, s.There p.1 ∧ s.There p.2 := fun p hp =>
      ⟨hthere _ (Pair.mem_of_ofFlat hp).1, hthere _ (Pair.mem_of_ofFlat hp).2⟩
    refine Succeeds.bind (succeeds_scrubPairs hpairs) fun qs t h => ?_
    obtain ⟨rfl, hqs⟩ := mapM_scrubPair_eq_ok h
    refine Succeeds.bind (.readHeap (Heap.faultless_normalizePairs fun p hp => ?_))
      fun ps t _ => .pure _
    obtain ⟨p', hp', hkey, -⟩ := Content.exists_of_forall₂ hqs hp
    rw [scrubbed_eq hkey]
    exact (hpairs p' hp').1.seen
  | array | record => exact .pure _

/-- A container can be restored of values that the client owns. -/
theorem succeeds_restore {kind : Kind} {tag : Nat} {elements : List Value}
    (ha : Account.Kept ⟨s, F, C, none⟩) (hv : ∀ v ∈ elements, F.Covers v) :
    Succeeds (restore ds kind tag elements) s := by
  refine Succeeds.requestBind (succeeds_requireDataspace ds) fun d t h => ?_
  obtain ⟨rfl, hd⟩ := requireDataspace_eq_ok h
  split
  · exact .refuse _
  refine Succeeds.requestBind (succeeds_requireRoom _) fun u t h => ?_
  obtain ⟨rfl, hroom⟩ := requireRoom_eq_ok h
  refine Succeeds.liftBind
    (succeeds_restoredElements fun v hmem => ha.there_of_flight (hv v hmem)) fun values t h => ?_
  obtain ⟨rfl, hvalues, hsolid, hle⟩ := restoredElements_eq_ok h
  have hcovers : ∀ v ∈ values, F.Covers v := fun v hmem => by
    rcases hvalues v hmem with hmem | rfl
    · exact hv v hmem
    · exact F.covers_nil
  have hfits : ∀ v ∈ values, s.heap.Fits v := fun v hmem => ha.fits_of_covers (hcovers v hmem)
  refine succeeds_build ha (fun v hmem => ha.there_of_flight (hcovers v hmem)) hfits (hd d rfl)
    fun id copied t s' h₁ h₂ => ?_
  obtain ⟨-, c, hc, -⟩ :=
    walk_build (E := fun _ => True) trivial trivial ha hfits hsolid
      ⟨Nat.le_trans hle (hroom rfl).1, (hroom rfl).2⟩ h₁ h₂
  refine Succeeds.liftBind (.modifyContainer hc) fun u t _ => ?_
  exact Succeeds.liftBind (.updateHeap ⟨_, rfl⟩) fun u t _ => .answer _

end

end PlaneStore
