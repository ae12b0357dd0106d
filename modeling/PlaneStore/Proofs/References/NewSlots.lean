import PlaneStore.Proofs.References.TrafficSurvivors

/-!
# New slots

A new container or string goes to a free slot, to which nothing refers yet. With the reference that
its maker gets, its count of one is right.
-/

namespace PlaneStore.Store

open Heap

variable {s : Store} {c : Container}

theorem container?_withNew_self (hs : s.heap.containers.Sound) :
    (s.withNew c).container? s.heap.nextId = some c :=
  Slab.get?_insert_self hs

theorem container?_withNew_of_ne {id : ContainerId} (h : s.heap.nextId ≠ id) :
    (s.withNew c).container? id = s.container? id := by
  refine Slab.get?_insert_of_ne fun he => h ?_
  cases id
  exact congrArg ContainerId.mk he

theorem container?_nextId (hs : s.heap.containers.Sound) :
    s.container? s.heap.nextId = none :=
  Slab.get?_nextCell hs

/-- What is in the slots after a container was added. -/
theorem container?_withNew_cases (hs : s.heap.containers.Sound) {id : ContainerId} {d : Container}
    (hd : (s.withNew c).container? id = some d) :
    id = s.heap.nextId ∧ d = c ∨ id ≠ s.heap.nextId ∧ s.container? id = some d := by
  by_cases h : s.heap.nextId = id
  · subst h
    rw [container?_withNew_self hs] at hd
    exact Or.inl ⟨rfl, (Option.some.inj hd).symm⟩
  · rw [container?_withNew_of_ne h] at hd
    exact Or.inr ⟨Ne.symm h, hd⟩

/-- Linking a new container to its owner changes sweep lists only. -/
theorem alike_link_new {owner : DataspaceId} {t : Store} {u : Unit}
    (hs : s.heap.containers.Sound) (ho : c.owner = owner)
    (h : link owner s.heap.nextId (s.withNew c) = .ok (u, t)) : Alike (s.withNew c) t := by
  have hc := container?_withNew_self (c := c) hs
  subst ho
  exact (alike_withContainer hc rfl).trans (alike_link hc h)

/-- A new container brings in what it holds. -/
theorem refs_withNew (hs : s.heap.containers.Sound) :
    (s.withNew c).refs = c.held s.swap + s.refs := by
  unfold refs
  rw [show (s.withNew c).heap.refs (s.withNew c).swap = c.held s.swap + s.heap.refs s.swap from
    Slab.total_insert _ hs]
  show _ + (s.dataspaces.toList.map Dataspace.held).sum + (s.planes.map Plane.held).sum = _
  abel

theorem Stored.withNew (hst : s.Stored) (hs : s.heap.containers.Sound) {values : Array Value}
    (he : c.elements = .resident values) (hm : c.kind = .mapping → values.size % 2 = 0) :
    (s.withNew c).Stored := by
  refine hst.of_each (fun _ _ => hst.next) fun id d hd => ?_
  rcases container?_withNew_cases hs hd with ⟨-, rfl⟩ | ⟨-, hd⟩
  · exact Or.inl ⟨values, he, hm⟩
  · exact Or.inr ⟨d, hd, rfl, rfl, fun _ _ _ => rfl⟩

/-! ## Counts -/

/-- A new container comes with one reference, which is handed out. -/
theorem balanced_withNew {R : Refs} (hb : s.heap.Balanced R) (hone : c.refcount = 1) :
    (s.withNew c).heap.Balanced ({.ofContainer c.kind s.heap.nextId} + R) := by
  -- The slot is free, so nothing refers to the new container but the reference that is handed out.
  have hnone := container?_nextId hb.containers
  refine hb.add (show Value.target? _ = some (.container s.heap.nextId) from rfl)
    (congrArg (Option.map _) hnone)
    hb.containers.insert hb.strings (fun t => ?_) ?_ fun v hv => ?_
  · cases t with
    | string _ => rfl
    | container id =>
      by_cases h : id = s.heap.nextId
      · subst h
        rw [if_pos rfl, ← hone]
        exact congrArg (Option.map _) (container?_withNew_self hb.containers)
      · rw [if_neg (by simpa using h)]
        exact congrArg (Option.map _) (container?_withNew_of_ne (Ne.symm h))
  · rintro shape id d hv hd
    obtain ⟨rfl, rfl⟩ := Value.container.inj hv
    rw [Option.some.inj ((container?_withNew_self hb.containers).symm.trans hd)]
  · rintro shape id d rfl hd
    obtain ⟨d', hd', hshape⟩ := hb.exists_container hv
    rcases container?_withNew_cases hb.containers hd with ⟨rfl, -⟩ | ⟨-, hold⟩
    · rw [show s.heap.containers.get? s.heap.nextId.slot = none from hnone] at hd'
      cases hd'
    · rw [← Option.some.inj (hd'.symm.trans hold)]
      exact hshape

/-- A new text comes with one reference, which is handed out. -/
theorem balanced_allocString {R : Refs} (hb : s.heap.Balanced R) (text : String) :
    (s.heap.allocString text).2.Balanced ({.string (s.heap.allocString text).1} + R) := by
  have hnone : s.heap.strings.get? s.heap.strings.nextCell = none := Slab.get?_nextCell hb.strings
  refine hb.add (show Value.target? _ = some (.string (s.heap.allocString text).1) from rfl)
    (congrArg (Option.map _) hnone)
    hb.containers hb.strings.insert (fun t => ?_) ?_ hb.fits
  · cases t with
    | container _ => rfl
    | string id =>
      by_cases h : id = (s.heap.allocString text).1
      · subst h
        rw [if_pos rfl]
        exact congrArg (Option.map _) (Slab.get?_insert_self hb.strings)
      · have hslot : s.heap.strings.nextCell ≠ id.slot :=
          fun he => h (by cases id; exact congrArg _ he.symm)
        rw [if_neg (by simpa using h)]
        exact congrArg (Option.map _) (Slab.get?_insert_of_ne hslot)
  · rintro shape id d he -
    cases he

end PlaneStore.Store
