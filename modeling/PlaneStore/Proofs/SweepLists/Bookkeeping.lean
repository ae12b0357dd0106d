import PlaneStore.Proofs.References.Inventory
import PlaneStore.Proofs.Inversion.Functions

/-!
# Bookkeeping

Sweep lists and imports are kept beside the contents of a store and say nothing about them. Two
stores are `Alike` if they differ in these only; what is linked, unlinked or counted as an import
leaves the store alike, so every property that looks elsewhere carries over.
-/

namespace PlaneStore

/-- A container without its place on a sweep list. -/
def Container.bare (c : Container) : Container := { c with prev := none, next := none }

/-- A dataspace without its sweep list and its imports. -/
def Dataspace.bare (d : Dataspace) : Dataspace :=
  { d with head := none, containers := 0, imports := ∅ }

namespace Store

/-- The two stores differ in sweep lists and imports only. -/
structure Alike (s s' : Store) : Prop where
  limits : s'.limits = s.limits
  strings : s'.heap.strings = s.heap.strings
  nextTag : s'.heap.nextTag = s.heap.nextTag
  free : s'.heap.containers.free = s.heap.containers.free
  cells : s'.heap.containers.cells.size = s.heap.containers.cells.size
  live : s'.heap.containers.live = s.heap.containers.live
  container : ∀ id, (s'.container? id).map Container.bare = (s.container? id).map Container.bare
  dataspace : ∀ ds, (s'.dataspace? ds).map Dataspace.bare = (s.dataspace? ds).map Dataspace.bare
  size : s'.dataspaces.size = s.dataspaces.size
  planes : s'.planes = s.planes
  swap : s'.swap = s.swap
  objects : s'.objects = s.objects
  scheduler : s'.scheduler = s.scheduler

namespace Alike

variable {s s' s'' : Store}

protected theorem refl (s : Store) : Alike s s :=
  ⟨rfl, rfl, rfl, rfl, rfl, rfl, fun _ => rfl, fun _ => rfl, rfl, rfl, rfl, rfl, rfl⟩

protected theorem symm (h : Alike s s') : Alike s' s where
  limits := h.limits.symm
  strings := h.strings.symm
  nextTag := h.nextTag.symm
  free := h.free.symm
  cells := h.cells.symm
  live := h.live.symm
  container id := (h.container id).symm
  dataspace ds := (h.dataspace ds).symm
  size := h.size.symm
  planes := h.planes.symm
  swap := h.swap.symm
  objects := h.objects.symm
  scheduler := h.scheduler.symm

protected theorem trans (h : Alike s s') (h' : Alike s' s'') : Alike s s'' where
  limits := h'.limits.trans h.limits
  strings := h'.strings.trans h.strings
  nextTag := h'.nextTag.trans h.nextTag
  free := h'.free.trans h.free
  cells := h'.cells.trans h.cells
  live := h'.live.trans h.live
  container id := (h'.container id).trans (h.container id)
  dataspace ds := (h'.dataspace ds).trans (h.dataspace ds)
  size := h'.size.trans h.size
  planes := h'.planes.trans h.planes
  swap := h'.swap.trans h.swap
  objects := h'.objects.trans h.objects
  scheduler := h'.scheduler.trans h.scheduler

/-- A container of one store is in the other, on another place of its sweep list perhaps. -/
theorem exists_container (h : Alike s s') {id : ContainerId} {c : Container}
    (hc : s.container? id = some c) :
    ∃ c', s'.container? id = some c' ∧ c'.bare = c.bare := by
  have he := h.container id
  rw [hc] at he
  cases hc' : s'.container? id with
  | none => rw [hc'] at he; cases he
  | some c' =>
    rw [hc'] at he
    exact ⟨c', rfl, Option.some.inj he⟩

/-- No dataspace comes or goes with sweep lists and imports. -/
theorem exists_dataspace (h : Alike s s') {ds : DataspaceId} {d : Dataspace}
    (hd : s.dataspace? ds = some d) :
    ∃ d', s'.dataspace? ds = some d' ∧ d'.bare = d.bare := by
  have he := h.dataspace ds
  rw [hd] at he
  cases hd' : s'.dataspace? ds with
  | none => rw [hd'] at he; cases he
  | some d' =>
    rw [hd'] at he
    exact ⟨d', rfl, Option.some.inj he⟩

end Alike

/-! ## Steps that leave the store alike -/

theorem container?_withContainer_self {s : Store} {id : ContainerId} {c d : Container}
    (hc : s.container? id = some c) : (s.withContainer id d).container? id = some d :=
  Slab.get?_set_self hc

theorem container?_withContainer_of_ne {s : Store} {id other : ContainerId} {d : Container}
    (h : id ≠ other) : (s.withContainer id d).container? other = s.container? other := by
  refine Slab.get?_set_of_ne fun he => h ?_
  cases id; cases other
  exact congrArg ContainerId.mk he

theorem dataspace?_withDataspace_self {s : Store} {ds : DataspaceId} {f : Dataspace → Dataspace} :
    (s.withDataspace ds f).dataspace? ds = (s.dataspace? ds).map f := by
  simp [dataspace?, withDataspace, Array.getElem?_modify]

theorem dataspace?_withDataspace_of_some {s : Store} {ds : DataspaceId} {d : Dataspace}
    (hd : s.dataspace? ds = some d) (f : Dataspace → Dataspace) :
    (s.withDataspace ds f).dataspace? ds = some (f d) := by
  rw [dataspace?_withDataspace_self, hd, Option.map_some]

theorem dataspace?_withDataspace_of_ne {s : Store} {ds other : DataspaceId}
    {f : Dataspace → Dataspace} (h : ds ≠ other) :
    (s.withDataspace ds f).dataspace? other = s.dataspace? other := by
  have hi : ds.index ≠ other.index := fun he => h (by cases ds; cases other; exact congrArg _ he)
  simp [dataspace?, withDataspace, Array.getElem?_modify, hi]

theorem dataspace?_withDataspace (s : Store) (ds other : DataspaceId)
    (f : Dataspace → Dataspace) :
    (s.withDataspace ds f).dataspace? other =
      if other = ds then (s.dataspace? other).map f else s.dataspace? other := by
  split
  · next h =>
    subst h
    exact dataspace?_withDataspace_self
  · next h => exact dataspace?_withDataspace_of_ne (Ne.symm h)

/-- What a change of a dataspace has nothing to do with stays as it is. -/
theorem map_dataspace?_withDataspace {α : Type} {s : Store} {ds : DataspaceId}
    {f : Dataspace → Dataspace} {g : Dataspace → α} (hf : ∀ d, g (f d) = g d)
    (other : DataspaceId) :
    ((s.withDataspace ds f).dataspace? other).map g = (s.dataspace? other).map g := by
  rw [dataspace?_withDataspace]
  split
  · rw [Option.map_map]
    exact congrArg (Option.map · _) (funext hf)
  · rfl

/-- A dataspace that is founded comes last. -/
theorem dataspace?_founded (s : Store) (n : Nat) (ds : DataspaceId) :
    ({ s with dataspaces := s.dataspaces.push { vars := Array.replicate n .nil } } :
        Store).dataspace? ds =
      if ds.index = s.dataspaces.size then some { vars := Array.replicate n .nil }
      else s.dataspace? ds :=
  Array.getElem?_push

theorem dataspace?_founded_of_some {s : Store} {ds : DataspaceId} {d : Dataspace} (n : Nat)
    (hd : s.dataspace? ds = some d) :
    ({ s with dataspaces := s.dataspaces.push { vars := Array.replicate n .nil } } :
        Store).dataspace? ds = some d := by
  obtain ⟨hlt, -⟩ := Array.getElem?_eq_some_iff.mp hd
  rw [dataspace?_founded, if_neg (Nat.ne_of_lt hlt), hd]

/-- A dataspace has no deferred calls when it is founded. -/
theorem call?_founded (s : Store) (n : Nat) (call : CallRef) :
    ({ s with dataspaces := s.dataspaces.push { vars := Array.replicate n .nil } } :
        Store).call? call = s.call? call := by
  unfold call?
  rw [dataspace?_founded]
  split
  · next hnew =>
    have hnone : s.dataspace? call.dataspace = none := Array.getElem?_eq_none hnew.ge
    rw [hnone]
    exact Std.TreeMap.getElem?_emptyc
  · rfl

/-- Changing the innermost plane changes no more than that. -/
theorem withPlane_fields (s : Store) (f : Plane → Plane) :
    (s.withPlane f).heap = s.heap ∧ (s.withPlane f).swap = s.swap ∧
      (s.withPlane f).dataspaces = s.dataspaces ∧ (s.withPlane f).objects = s.objects := by
  unfold withPlane
  split
  · exact ⟨rfl, rfl, rfl, rfl⟩
  · exact ⟨rfl, rfl, rfl, rfl⟩

theorem container?_withPlane (s : Store) (f : Plane → Plane) (id : ContainerId) :
    (s.withPlane f).container? id = s.container? id := by
  unfold container?
  rw [(withPlane_fields s f).1]

theorem dataspace?_withPlane (s : Store) (f : Plane → Plane) (ds : DataspaceId) :
    (s.withPlane f).dataspace? ds = s.dataspace? ds := by
  unfold dataspace?
  rw [(withPlane_fields s f).2.2.1]

/-- A container and the innermost plane can be changed in either order. -/
theorem withPlane_withContainer (s : Store) (id : ContainerId) (c : Container)
    (f : Plane → Plane) :
    (s.withContainer id c).withPlane f = (s.withPlane f).withContainer id c := by
  unfold withPlane
  cases hp : s.planes with
  | nil => simp only [withContainer, hp]
  | cons p rest => simp only [withContainer, hp]

theorem planes_withPlane {s : Store} {p : Plane} {rest : List Plane} (hp : s.planes = p :: rest)
    (f : Plane → Plane) : (s.withPlane f).planes = f p :: rest := by
  unfold withPlane
  rw [hp]

/-- A change that keeps some part of planes keeps that part of all of them. -/
theorem planes_map_withPlane {β : Type} (s : Store) {f : Plane → Plane} {g : Plane → β}
    (hg : ∀ p, g (f p) = g p) : (s.withPlane f).planes.map g = s.planes.map g := by
  cases hp : s.planes with
  | nil =>
    unfold withPlane
    rw [hp]
    simp only [hp]
  | cons p rest => rw [planes_withPlane hp, List.map_cons, List.map_cons, hg]

/-- Links and imports are not in the bare record of a container. -/
theorem alike_withContainer {s : Store} {id : ContainerId} {c d : Container}
    (hc : s.container? id = some c) (hd : d.bare = c.bare) : Alike s (s.withContainer id d) := by
  refine ⟨rfl, rfl, rfl, rfl, ?_, rfl, fun other => ?_, fun _ => rfl, rfl, rfl, rfl, rfl, rfl⟩
  · simp [withContainer, Slab.set]
  · by_cases h : id = other
    · rw [← h, container?_withContainer_self hc, hc]
      exact congrArg some hd
    · rw [container?_withContainer_of_ne h]

/-- Links and imports are not in the bare record of a dataspace. -/
theorem alike_withDataspace {s : Store} {ds : DataspaceId} {f : Dataspace → Dataspace}
    (hf : ∀ d, s.dataspace? ds = some d → (f d).bare = d.bare) :
    Alike s (s.withDataspace ds f) := by
  refine ⟨rfl, rfl, rfl, rfl, rfl, rfl, fun _ => rfl, fun other => ?_, ?_, rfl, rfl, rfl, rfl⟩
  · by_cases h : ds = other
    · rw [← h, dataspace?_withDataspace_self]
      cases hd : s.dataspace? ds with
      | none => rfl
      | some d => exact congrArg some (hf d hd)
    · rw [dataspace?_withDataspace_of_ne h]
  · simp [withDataspace]

/-- Stores that are alike stay so when a container is replaced in both. -/
theorem Alike.withContainer {s s' : Store} (h : Alike s s') {id : ContainerId}
    {c c' d d' : Container} (hc : s.container? id = some c) (hc' : s'.container? id = some c')
    (hd : d'.bare = d.bare) : Alike (s.withContainer id d) (s'.withContainer id d') := by
  refine ⟨h.limits, h.strings, h.nextTag, h.free, ?_, h.live, fun other => ?_, h.dataspace, h.size,
    h.planes, h.swap, h.objects, h.scheduler⟩
  · simp only [Store.withContainer, Slab.set, Array.size_setIfInBounds]
    exact h.cells
  · by_cases hid : id = other
    · rw [← hid, container?_withContainer_self hc, container?_withContainer_self hc']
      exact congrArg some hd
    · rw [container?_withContainer_of_ne hid, container?_withContainer_of_ne hid]
      exact h.container other

section Steps

variable {s s' : Store} {u : Unit}

/-- To set a link changes sweep lists alone. -/
theorem alike_setNext {ds : DataspaceId} {prev next : Option ContainerId}
    (h : setNext ds prev next s = .ok (u, s')) : Alike s s' := by
  cases prev with
  | some prev =>
    obtain ⟨c, hc, rfl⟩ := StoreM.modifyContainer_eq_ok.mp h
    exact alike_withContainer hc rfl
  | none =>
    rw [StoreM.modifyDataspace_eq_ok.mp h]
    exact alike_withDataspace fun _ _ => rfl

theorem alike_setPrev {prev next : Option ContainerId}
    (h : setPrev prev next s = .ok (u, s')) : Alike s s' := by
  cases next with
  | some next =>
    obtain ⟨c, hc, rfl⟩ := StoreM.modifyContainer_eq_ok.mp h
    exact alike_withContainer hc rfl
  | none =>
    rw [← (StoreM.pure_eq_ok.mp h).2]
    exact Alike.refl _

theorem alike_recount {ds : DataspaceId} {f : Nat → Nat} (h : recount ds f s = .ok (u, s')) :
    Alike s s' := by
  rw [StoreM.modifyDataspace_eq_ok.mp h]
  exact alike_withDataspace fun _ _ => rfl

theorem alike_unlink {id : ContainerId} (h : unlink id s = .ok (u, s')) : Alike s s' := by
  obtain ⟨c, s₁, s₂, hc, h₁, h₂, h₃⟩ := unlink_eq_ok h
  have hal := alike_withContainer (d := { c with prev := none, next := none }) hc rfl
  exact hal.trans ((alike_setNext h₁).trans ((alike_setPrev h₂).trans (alike_recount h₃)))

/-- Linking makes the dataspace the owner, and changes nothing else. -/
theorem alike_link {ds : DataspaceId} {id : ContainerId} {c : Container}
    (hc : s.container? id = some c) (h : link ds id s = .ok (u, s')) :
    Alike (s.withContainer id { c with owner := ds }) s' := by
  obtain ⟨d, c', s₁, s₂, -, h₁, hc', h₂, h₃⟩ := link_eq_ok h
  obtain rfl : s₁ = s.withDataspace ds _ := StoreM.modifyDataspace_eq_ok.mp h₁
  obtain rfl := Option.some.inj (hc.symm.trans hc')
  have hhead : Alike s (s.withDataspace ds fun d => { d with head := some id }) :=
    alike_withDataspace fun _ _ => rfl
  have hlinked : Alike (s.withContainer id { c with owner := ds })
      ((s.withDataspace ds fun d => { d with head := some id }).withContainer id
        { c with owner := ds, prev := none, next := d.head }) := hhead.withContainer hc hc rfl
  exact hlinked.trans ((alike_setPrev h₂).trans (alike_recount h₃))

/-- An import is counted of containers that belong to others. -/
theorem addImport_eq_ok {ds : DataspaceId} {v : Value} (h : addImport ds v s = .ok (u, s')) :
    (s' = s ∧ ∀ id, v.containerId? = some id → ∃ c, s.container? id = some c ∧ c.owner = ds) ∨
      ∃ id c, v.containerId? = some id ∧ s.container? id = some c ∧ c.owner ≠ ds ∧
        s' = s.withDataspace ds (·.addImport id) := by
  unfold addImport at h
  cases hv : v.containerId? with
  | none =>
    rw [hv] at h
    exact Or.inl ⟨(StoreM.pure_eq_ok.mp h).2.symm, nofun⟩
  | some id =>
    rw [hv] at h
    obtain ⟨c, s₁, h₁, h⟩ := StoreM.bind_eq_ok.mp h
    obtain ⟨hc, rfl⟩ := StoreM.container_eq_ok.mp h₁
    split at h
    · next howner =>
      refine Or.inl ⟨(StoreM.pure_eq_ok.mp h).2.symm, fun id' hid => ?_⟩
      obtain rfl := Option.some.inj hid
      exact ⟨c, hc, howner⟩
    · next howner =>
      exact Or.inr ⟨id, c, rfl, hc, howner, StoreM.modifyDataspace_eq_ok.mp h⟩

/-- To count an import changes imports alone. -/
theorem alike_addImport {ds : DataspaceId} {v : Value} (h : addImport ds v s = .ok (u, s')) :
    Alike s s' := by
  rcases addImport_eq_ok h with ⟨rfl, -⟩ | ⟨id, c, -, -, -, rfl⟩
  · exact Alike.refl _
  · exact alike_withDataspace fun _ _ => rfl

/-- An import is dropped of containers that belong to others. -/
theorem dropImport_eq_ok {ds : DataspaceId} {v : Value} (h : dropImport ds v s = .ok (u, s')) :
    (s' = s ∧ ∀ id, v.containerId? = some id → s.dataspace? ds = none ∨
      ∃ c, s.container? id = some c ∧ c.owner = ds) ∨
      ∃ id c d d', v.containerId? = some id ∧ s.container? id = some c ∧ c.owner ≠ ds ∧
        s.dataspace? ds = some d ∧ d.dropImport? id = some d' ∧
          s' = s.withDataspace ds fun _ => d' := by
  unfold dropImport at h
  cases hv : v.containerId? with
  | none =>
    rw [hv] at h
    exact Or.inl ⟨(StoreM.pure_eq_ok.mp h).2.symm, nofun⟩
  | some id =>
    rw [hv] at h
    obtain ⟨c, s₁, h₁, h⟩ := StoreM.bind_eq_ok.mp h
    obtain ⟨hc, rfl⟩ := StoreM.container_eq_ok.mp h₁
    split at h
    · next howner =>
      refine Or.inl ⟨(StoreM.pure_eq_ok.mp h).2.symm, fun id' hid => Or.inr ?_⟩
      obtain rfl := Option.some.inj hid
      exact ⟨c, hc, howner⟩
    next howner =>
    obtain ⟨t, s₂, h₂, h⟩ := StoreM.bind_eq_ok.mp h
    obtain ⟨rfl, rfl⟩ := StoreM.get_eq_ok.mp h₂
    cases hd : s.dataspace? ds with
    | none =>
      simp only [hd] at h
      exact Or.inl ⟨(StoreM.pure_eq_ok.mp h).2.symm, fun _ _ => Or.inl rfl⟩
    | some d =>
      simp only [hd] at h
      cases hd' : d.dropImport? id with
      | none =>
        simp only [hd'] at h
        exact absurd h StoreM.fault_ne_ok
      | some d' =>
        simp only [hd'] at h
        exact Or.inr ⟨id, c, d, d', rfl, hc, howner, rfl, hd', StoreM.modifyDataspace_eq_ok.mp h⟩

/-- Dropping an import takes another dataspace in its place, which differs in its imports only. -/
theorem alike_dropImport {ds : DataspaceId} {v : Value} (h : dropImport ds v s = .ok (u, s')) :
    Alike s s' := by
  rcases dropImport_eq_ok h with ⟨rfl, -⟩ | ⟨id, c, d, d', -, -, -, hd, hd', rfl⟩
  · exact Alike.refl _
  · refine alike_withDataspace fun d₀ hd₀ => ?_
    obtain rfl := Option.some.inj (hd.symm.trans hd₀)
    unfold Dataspace.dropImport? at hd'
    split at hd'
    · cases hd'
    · cases hd'
      rfl

/-- A step that leaves the store alike does so over a whole list. -/
theorem alike_forM {α : Type} {f : α → StoreM PUnit}
    (hf : ∀ x s s' u, f x s = .ok (u, s') → Alike s s') {xs : List α} {u : PUnit}
    (h : xs.forM f s = .ok (u, s')) : Alike s s' := by
  induction xs generalizing s with
  | nil =>
    rw [← StoreM.forM_nil_eq_ok.mp h]
    exact Alike.refl _
  | cons x xs ih =>
    obtain ⟨_, s₁, h₁, h₂⟩ := StoreM.forM_cons_eq_ok.mp h
    exact (hf x _ _ _ h₁).trans (ih h₂)

/-- To count imports changes imports alone. -/
theorem alike_addImports {ds : DataspaceId} {vs : List Value} {u : PUnit}
    (h : vs.forM (addImport ds) s = .ok (u, s')) : Alike s s' :=
  alike_forM (fun _ _ _ _ => alike_addImport) h

theorem alike_dropImports {ds : DataspaceId} {vs : List Value} {u : PUnit}
    (h : vs.forM (dropImport ds) s = .ok (u, s')) : Alike s s' :=
  alike_forM (fun _ _ _ _ => alike_dropImport) h

end Steps

/-! ## What stores that are alike have in common -/

namespace Alike

variable {s s' : Store}

/-- What a container holds is in its bare record. -/
theorem held_eq {c c' : Container} (h : c'.bare = c.bare) (swap : Swap) :
    c'.held swap = c.held swap :=
  Container.held_congr (show c'.bare.elements = c.bare.elements by rw [h])
    (show c'.bare.overlay = c.bare.overlay by rw [h])

theorem refs (h : Alike s s') : s'.refs = s.refs := by
  have hheap : s'.heap.refs s'.swap = s.heap.refs s.swap := by
    rw [h.swap]
    refine Slab.total_congr _ fun i => ?_
    have hc := h.container ⟨i⟩
    change (s'.heap.containers.get? i).map _ = (s.heap.containers.get? i).map _ at hc
    cases hi : s.heap.containers.get? i with
    | none =>
      rw [hi] at hc
      rw [Option.map_eq_none_iff.mp hc]
    | some c =>
      rw [hi] at hc
      obtain ⟨c', hc', he⟩ := Option.map_eq_some_iff.mp hc
      rw [hc', Option.map_some, Option.map_some, held_eq he]
  have hds : s'.dataspaces.toList.map Dataspace.held = s.dataspaces.toList.map Dataspace.held := by
    refine List.ext_getElem? fun i => ?_
    have hd := congrArg (Option.map Dataspace.held) (h.dataspace ⟨i⟩)
    rw [Option.map_map, Option.map_map] at hd
    have hbare : Dataspace.held ∘ Dataspace.bare = Dataspace.held := rfl
    simpa [dataspace?, hbare] using hd
  unfold Store.refs
  rw [hheap, hds, h.planes]

end Alike

end Store

end PlaneStore
