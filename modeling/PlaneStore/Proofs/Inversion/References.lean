import PlaneStore.Proofs.Accounts.ElementarySteps

/-!
# What taking and giving up a reference does

`Retained` and `Dropped` list the cases. When a reference is given up nothing happens, a count goes
down, or with the last reference the slot is freed. A container that is freed hands out what it
held. Up to sweep lists and imports the store is then the one without the container, and no plane
lists it any more.
-/

namespace PlaneStore.Store

/-- The store with the entry of a string slot in use replaced. -/
def withString (s : Store) (id : StringId) (e : StringEntry) : Store :=
  { s with heap := { s.heap with strings := s.heap.strings.set id.slot e } }

/-- The store with a string slot freed. -/
def withoutString (s : Store) (id : StringId) : Store :=
  { s with heap := { s.heap with strings := s.heap.strings.erase id.slot } }

/-- The store without a container: its slot is free, and a buffer of it has left the swap. -/
def without (s : Store) (id : ContainerId) (c : Container) : Store :=
  { s with
    heap := { s.heap with containers := s.heap.containers.erase id.slot }
    planes := s.planes.map fun p => { p with census := p.census.erase id }
    swap :=
      match c.elements with
      | .resident _ => s.swap
      | .evicted ticket _ => (s.swap.load ticket).2 }

/-- A reference to `v` is taken. -/
inductive Retained (s : Store) : Value → Store → Prop where
  | scalar {v : Value} (hv : v.isCounted = false) : Retained s v s
  | text {id : StringId} {e : StringEntry} (he : s.heap.strings.get? id.slot = some e) :
      Retained s (.string id) (s.withString id { e with refcount := e.refcount + 1 })
  | container {shape : Shape} {id : ContainerId} {c : Container}
      (hc : s.container? id = some c) :
      Retained s (.container shape id) (s.withContainer id { c with refcount := c.refcount + 1 })

theorem retain_eq_ok {s s' : Store} {v : Value} {u : Unit} (h : retain v s = .ok (u, s')) :
    Retained s v s' := by
  unfold retain at h
  cases v with
  | string id =>
    obtain ⟨heap, hr, rfl⟩ := StoreM.updateHeap_eq_ok.mp h
    obtain ⟨e, he, rfl⟩ := Heap.retainString_eq_ok.mp hr
    exact .text he
  | container shape id =>
    obtain ⟨c, hc, rfl⟩ := StoreM.modifyContainer_eq_ok.mp h
    exact .container hc
  | _ =>
    obtain ⟨-, rfl⟩ := StoreM.pure_eq_ok.mp h
    exact .scalar rfl

/-- A reference to `v` is given up, which sets `children` free. -/
inductive Dropped (s : Store) : Value → List Value → Store → Prop where
  | scalar {v : Value} (hv : v.isCounted = false) : Dropped s v [] s
  | text {id : StringId} {e : StringEntry} (he : s.heap.strings.get? id.slot = some e)
      (h : 1 < e.refcount) :
      Dropped s (.string id) [] (s.withString id { e with refcount := e.refcount - 1 })
  | lastText {id : StringId} {e : StringEntry} (he : s.heap.strings.get? id.slot = some e)
      (h : e.refcount ≤ 1) :
      Dropped s (.string id) [] (s.withoutString id)
  | shared {shape : Shape} {id : ContainerId} {c : Container} (hc : s.container? id = some c)
      (h : 1 < c.refcount) :
      Dropped s (.container shape id) []
        (s.withContainer id { c with refcount := c.refcount - 1 })
  | freed {shape : Shape} {id : ContainerId} {c : Container} {s' : Store}
      (hc : s.container? id = some c) (h : c.refcount = 1) (ha : Alike (s.without id c) s') :
      Dropped s (.container shape id) (c.buffer s.swap ++ c.overlayValues) s'

theorem container?_without_of_ne {s : Store} {id other : ContainerId} {c : Container}
    (h : id ≠ other) : (s.without id c).container? other = s.container? other := by
  refine Slab.get?_erase_of_ne fun he => h ?_
  cases id; cases other
  exact congrArg ContainerId.mk he

theorem container?_without_self {s : Store} {id : ContainerId} {c : Container} :
    (s.without id c).container? id = none :=
  Slab.get?_erase_self

/-- Stores that are alike are so without a container, too. -/
theorem Alike.without {s s' : Store} (h : Alike s s') {id : ContainerId} {c c' : Container}
    (he : c'.elements = c.elements) : Alike (s.without id c) (s'.without id c') where
  limits := h.limits
  strings := h.strings
  nextTag := h.nextTag
  free := congrArg (id.slot :: ·) h.free
  cells := by
    simp only [Store.without, Slab.erase, Array.size_setIfInBounds]
    exact h.cells
  live := congrArg (· - 1) h.live
  container other := by
    by_cases hid : id = other
    · rw [← hid, container?_without_self, container?_without_self]
    · rw [container?_without_of_ne hid, container?_without_of_ne hid, h.container other]
  dataspace := h.dataspace
  size := h.size
  planes := by
    simp only [Store.without, h.planes]
  swap := by
    simp only [Store.without, he, h.swap]
  objects := h.objects
  scheduler := h.scheduler

theorem without_withContainer (s : Store) (id : ContainerId) (c d : Container) :
    (s.withContainer id d).without id c = s.without id c := by
  have herase : (s.heap.containers.set id.slot d).erase id.slot =
      s.heap.containers.erase id.slot := by
    simp [Slab.erase, Slab.set]
  simp only [Store.without, withContainer, herase]

/-- A container that is off its sweep list leaves its slot and hands out its elements. -/
theorem vacated_eq {s s₁ s₂ s₃ s₄ : Store} {id : ContainerId} {c d : Container}
    {elements : List Value} {u u' : Unit} (hc : s.container? id = some c)
    (h₁ : unlink id s = .ok (u, s₁)) (h₂ : strike id s₁ = .ok (u', s₂))
    (h₃ : vacate id s₂ = .ok (d, s₃)) (h₄ : takeElements d s₃ = .ok (elements, s₄)) :
    s₁.container? id = some d ∧ d.bare = c.bare ∧ elements = c.buffer s.swap ∧
      s₄ = s₁.without id d := by
  have ha₁ := alike_unlink h₁
  have hs₂ := StoreM.modify_eq_ok.mp h₂
  obtain ⟨d', hd', hbare⟩ := ha₁.exists_container hc
  have hvacate : d = d' ∧ s₃ = { s₂ with heap := { s₂.heap with
      containers := s₂.heap.containers.erase id.slot } } := by
    have hget : s₂.heap.containers.get? id.slot = some d' := by
      rw [hs₂]
      exact hd'
    unfold vacate at h₃
    obtain ⟨⟨e, heap⟩, hr, hp⟩ := Fallible.bind_eq_ok.mp h₃
    obtain ⟨rfl, rfl⟩ := Prod.mk.inj (Fallible.pure_eq_ok.mp hp)
    unfold Heap.remove at hr
    rw [hget] at hr
    obtain ⟨rfl, rfl⟩ := Prod.mk.inj (Except.ok.inj hr)
    exact ⟨rfl, rfl⟩
  obtain ⟨rfl, hs₃⟩ := hvacate
  have helements : d.elements = c.elements := show d.bare.elements = c.bare.elements by rw [hbare]
  have hswap : s₃.swap = s.swap := by rw [hs₃, hs₂, ← ha₁.swap]
  refine ⟨hd', hbare, ?_⟩
  unfold takeElements at h₄
  unfold Container.buffer Store.without
  cases he : c.elements with
  | resident values =>
    rw [helements, he] at h₄ ⊢
    obtain ⟨rfl, rfl⟩ := StoreM.pure_eq_ok.mp h₄
    rw [hs₃, hs₂]
    exact ⟨rfl, rfl⟩
  | evicted ticket n =>
    rw [helements, he] at h₄ ⊢
    obtain ⟨values, s₆, h₆, h₄⟩ := StoreM.bind_eq_ok.mp h₄
    obtain ⟨rfl, rfl⟩ := StoreM.pure_eq_ok.mp h₄
    unfold loadSwapped at h₆
    obtain ⟨rfl, rfl⟩ := Prod.mk.inj (Except.ok.inj h₆)
    rw [← hswap]
    refine ⟨rfl, ?_⟩
    rw [hs₃, hs₂]
    rfl

/-- Containers that differ in their places and counts only have the same pending writes. -/
theorem overlayValues_of_bare {c d : Container} (h : d.bare = c.bare) :
    d.overlayValues = c.overlayValues := by
  unfold Container.overlayValues
  rw [show d.overlay = c.overlay from show d.bare.overlay = c.bare.overlay by rw [h]]

/-- A container is freed once it is off its sweep list; then the imports of what it held go. -/
theorem freeContainer_stages {s s' : Store} {id : ContainerId} {c : Container}
    {children : List Value} (hc : s.container? id = some c)
    (h : freeContainer id s = .ok (children, s')) :
    children = c.buffer s.swap ++ c.overlayValues ∧ ∃ t d u u', unlink id s = .ok (u, t) ∧
      t.container? id = some d ∧ d.bare = c.bare ∧
        children.forM (dropImport c.owner) (t.without id d) = .ok (u', s') := by
  obtain ⟨_, s₁, h₁, h⟩ := StoreM.bind_eq_ok.mp h
  obtain ⟨_, s₂, h₂, h⟩ := StoreM.bind_eq_ok.mp h
  obtain ⟨d, s₃, h₃, h⟩ := StoreM.bind_eq_ok.mp h
  obtain ⟨elements, s₄, h₄, h⟩ := StoreM.bind_eq_ok.mp h
  obtain ⟨_, s₅, h₅, h⟩ := StoreM.bind_eq_ok.mp h
  obtain ⟨rfl, rfl⟩ := StoreM.pure_eq_ok.mp h
  obtain ⟨hd, hbare, rfl, rfl⟩ := vacated_eq hc h₁ h₂ h₃ h₄
  rw [show d.owner = c.owner from show d.bare.owner = c.bare.owner by rw [hbare]] at h₅
  exact ⟨by rw [overlayValues_of_bare hbare], s₁, d, _, _, h₁, hd, hbare, h₅⟩

/-- Freeing a container hands out what it held. -/
theorem freeContainer_eq_ok {s s' : Store} {id : ContainerId} {c : Container}
    {children : List Value} (hc : s.container? id = some c)
    (h : freeContainer id s = .ok (children, s')) :
    Alike (s.without id c) s' ∧ children = c.buffer s.swap ++ c.overlayValues := by
  obtain ⟨hchildren, t, d, u, u', h₁, hd, hbare, h₂⟩ := freeContainer_stages hc h
  have helements : d.elements = c.elements := show d.bare.elements = c.bare.elements by rw [hbare]
  exact ⟨((alike_unlink h₁).without helements).trans (alike_dropImports h₂), hchildren⟩

theorem dropReference_eq_ok {s s' : Store} {v : Value} {children : List Value}
    (h : dropReference v s = .ok (children, s')) : Dropped s v children s' := by
  cases v with
  | string id =>
    obtain ⟨_, s₁, h₁, h₂⟩ := StoreM.bind_eq_ok.mp h
    obtain ⟨rfl, rfl⟩ := StoreM.pure_eq_ok.mp h₂
    obtain ⟨heap, hr, rfl⟩ := StoreM.updateHeap_eq_ok.mp h₁
    obtain ⟨e, he, rfl⟩ := Heap.releaseString_eq_ok.mp hr
    split
    · next hlt => exact .text he hlt
    · next hle => exact .lastText he (Nat.le_of_not_lt hle)
  | container shape id =>
    obtain ⟨c, s₁, h₁, h⟩ := StoreM.bind_eq_ok.mp h
    obtain ⟨hc, rfl⟩ := StoreM.container_eq_ok.mp h₁
    split at h
    · exact absurd h StoreM.fault_ne_ok
    next hpos =>
    obtain ⟨_, s₂, h₂, h⟩ := StoreM.bind_eq_ok.mp h
    obtain ⟨c', hc', rfl⟩ := StoreM.modifyContainer_eq_ok.mp h₂
    obtain rfl := Option.some.inj (hc.symm.trans hc')
    split at h
    · next hone =>
      obtain ⟨ha, rfl⟩ := freeContainer_eq_ok (container?_withContainer_self hc) h
      rw [without_withContainer] at ha
      exact .freed (c := c) hc hone ha
    · next hne =>
      obtain ⟨rfl, rfl⟩ := StoreM.pure_eq_ok.mp h
      exact .shared hc (by omega)
  | _ =>
    obtain ⟨rfl, rfl⟩ := StoreM.pure_eq_ok.mp h
    exact .scalar rfl

end PlaneStore.Store
