import PlaneStore.Proofs.Inversion.References

/-!
# How counts move

Taking and giving up references change the count of one slot; all else that happens to a heap leaves
the counts and kinds of its slots as they are. From either, a balanced heap is balanced again.
-/

namespace PlaneStore

namespace Heap

/-! ## Heaps with the same counts -/

/-- The same slots are in use, with the same counts and kinds. -/
structure SameCounts (h h' : Heap) : Prop where
  containers : h.containers.Sound → h'.containers.Sound
  strings : h.strings.Sound → h'.strings.Sound
  count : ∀ t, h'.count? t = h.count? t
  kind : ∀ i, (h'.containers.get? i).map Container.kind = (h.containers.get? i).map Container.kind

namespace SameCounts

variable {h h' h'' : Heap}

protected theorem refl (h : Heap) : SameCounts h h := ⟨id, id, fun _ => rfl, fun _ => rfl⟩

protected theorem trans (hs : SameCounts h h') (hs' : SameCounts h' h'') : SameCounts h h'' where
  containers := hs'.containers ∘ hs.containers
  strings := hs'.strings ∘ hs.strings
  count t := (hs'.count t).trans (hs.count t)
  kind i := (hs'.kind i).trans (hs.kind i)

/-- Where the counts are the same, each container is still of its kind. -/
theorem exists_kind (hs : SameCounts h h') {i : Nat} {c' : Container}
    (hc' : h'.containers.get? i = some c') :
    ∃ c, h.containers.get? i = some c ∧ c.kind = c'.kind := by
  have hk := hs.kind i
  rw [hc'] at hk
  exact Option.map_eq_some_iff.mp hk.symm

end SameCounts

/-- The balance is one of counts. -/
theorem Balanced.sameCounts {h h' : Heap} {R R' : Refs} (hb : h.Balanced R)
    (hs : SameCounts h h') (hR : R'.counted = R.counted) : h'.Balanced R' := by
  refine Balanced.congr_refs (R := R) ?_ hR
  refine hb.move (hs.containers hb.containers) (hs.strings hb.strings) (fun t => ?_) (fun t => ?_)
    (fun i c' => hs.exists_kind) (fun v hv hn => absurd hv hn)
  · rw [Heap.count, hs.count t]
    rfl
  · rw [hs.count t]
    exact hb.pos t

end Heap

namespace Store

open Heap

variable {s s' : Store}

/-! ## The count of one container -/

theorem count?_withContainer {id : ContainerId} {c d : Container} (hc : s.container? id = some c)
    (t : Target) :
    (s.withContainer id d).heap.count? t =
      if t = .container id then some d.refcount else s.heap.count? t := by
  cases t with
  | string _ => rfl
  | container other =>
    by_cases h : other = id
    · subst h
      rw [if_pos rfl]
      exact congrArg (Option.map _) (container?_withContainer_self hc)
    · rw [if_neg (by simpa using h)]
      exact congrArg (Option.map _) (container?_withContainer_of_ne (Ne.symm h))

/-- Replacing a container by one of its kind changes no kinds. -/
theorem exists_kind_withContainer {id : ContainerId} {c d : Container}
    (hc : s.container? id = some c) {i : Nat} {c' : Container}
    (hc' : (s.withContainer id d).heap.containers.get? i = some c') (hk : d.kind = c.kind) :
    ∃ c, s.heap.containers.get? i = some c ∧ c.kind = c'.kind := by
  by_cases h : id.slot = i
  · subst h
    rw [show (s.withContainer id d).heap.containers.get? id.slot = some d from
      container?_withContainer_self hc] at hc'
    cases hc'
    exact ⟨c, hc, hk.symm⟩
  · rw [show (s.withContainer id d).heap.containers.get? i = s.heap.containers.get? i from
      Slab.get?_set_of_ne h] at hc'
    exact ⟨c', hc', rfl⟩

theorem sameCounts_withContainer {id : ContainerId} {c d : Container}
    (hc : s.container? id = some c) (hr : d.refcount = c.refcount) (hk : d.kind = c.kind) :
    SameCounts s.heap (s.withContainer id d).heap where
  containers hs := hs.set hc
  strings hs := hs
  count t := by
    rw [count?_withContainer hc]
    split
    · next h =>
      rw [h, hr]
      exact (congrArg (Option.map Container.refcount) hc).symm
    · rfl
  kind i := by
    by_cases h : id.slot = i
    · subst h
      rw [show (s.withContainer id d).heap.containers.get? id.slot = some d from
        container?_withContainer_self hc, show s.heap.containers.get? id.slot = some c from hc]
      exact congrArg some hk
    · rw [show (s.withContainer id d).heap.containers.get? i = s.heap.containers.get? i from
        Slab.get?_set_of_ne h]

theorem sameCounts_of_alike (h : Alike s s') : SameCounts s.heap s'.heap where
  containers hs := by
    have hnone : ∀ i, s'.heap.containers.get? i = none ↔ s.heap.containers.get? i = none := by
      intro i
      have hbare := congrArg (· = none) (h.container ⟨i⟩)
      simp only [Option.map_eq_none_iff, eq_iff_iff] at hbare
      exact hbare
    refine ⟨by rw [h.free]; exact hs.nodup, fun i => ?_, ?_⟩
    · rw [h.free, h.cells, hs.mem_free i, hnone]
    · rw [h.live, hs.count, Slab.occupied_congr hnone]
  strings hs := by rw [h.strings]; exact hs
  count t := by
    cases t with
    | string id => simp only [count?, h.strings]
    | container id =>
      have := congrArg (Option.map Container.refcount) (h.container id)
      rw [Option.map_map, Option.map_map] at this
      exact this
  kind i := by
    have := congrArg (Option.map Container.kind) (h.container ⟨i⟩)
    rw [Option.map_map, Option.map_map] at this
    exact this

/-! ## The count of one string -/

theorem count?_withString {id : StringId} {e e' : StringEntry}
    (he : s.heap.strings.get? id.slot = some e) (t : Target) :
    (s.withString id e').heap.count? t =
      if t = .string id then some e'.refcount else s.heap.count? t := by
  cases t with
  | container _ => rfl
  | string other =>
    by_cases h : other = id
    · subst h
      rw [if_pos rfl]
      exact congrArg (Option.map _) (Slab.get?_set_self he)
    · have hslot : id.slot ≠ other.slot :=
        fun hs => h (by cases id; cases other; exact congrArg _ hs.symm)
      rw [if_neg (by simpa using h)]
      exact congrArg (Option.map _) (Slab.get?_set_of_ne hslot)

theorem count?_withoutString {id : StringId} (t : Target) :
    (s.withoutString id).heap.count? t =
      if t = .string id then none else s.heap.count? t := by
  cases t with
  | container _ => rfl
  | string other =>
    by_cases h : other = id
    · subst h
      rw [if_pos rfl]
      exact congrArg (Option.map _) Slab.get?_erase_self
    · have hslot : id.slot ≠ other.slot :=
        fun hs => h (by cases id; cases other; exact congrArg _ hs.symm)
      rw [if_neg (by simpa using h)]
      exact congrArg (Option.map _) (Slab.get?_erase_of_ne hslot)

theorem count?_without {id : ContainerId} {c : Container} (t : Target) :
    (s.without id c).heap.count? t =
      if t = .container id then none else s.heap.count? t := by
  cases t with
  | string _ => rfl
  | container other =>
    by_cases h : other = id
    · subst h
      rw [if_pos rfl]
      exact congrArg (Option.map _) (container?_without_self (c := c))
    · rw [if_neg (by simpa using h)]
      exact congrArg (Option.map _) (container?_without_of_ne (c := c) (Ne.symm h))

/-- A slot in use counts what it says. -/
theorem count_of_container {id : ContainerId} {c : Container} (hc : s.container? id = some c) :
    s.heap.count (.container id) = c.refcount :=
  congrArg (fun o => (o.map Container.refcount).getD 0) hc

theorem count_of_string {id : StringId} {e : StringEntry}
    (he : s.heap.strings.get? id.slot = some e) : s.heap.count (.string id) = e.refcount :=
  congrArg (fun o => (o.map StringEntry.refcount).getD 0) he

/-! ## Taking and giving up a reference -/

/-- Taking a reference raises a count by one. -/
theorem Retained.balanced {v : Value} {R : Refs} (h : Retained s v s') (hb : s.heap.Balanced R)
    (hv : s.heap.Fits v) : s'.heap.Balanced ({v} + R) := by
  cases h with
  | scalar hs =>
    refine hb.congr_refs ?_
    rw [Refs.counted_add, Refs.counted_singleton hs, zero_add]
  | text he =>
    refine hb.raise rfl hb.containers (hb.strings.set he) ?_ (fun t ht => ?_)
      (fun i c' hc' => ⟨c', hc', rfl⟩) hv
    · rw [count?_withString he, if_pos rfl, count_of_string he]
    · rw [count?_withString he, if_neg ht]
  | container hc =>
    refine hb.raise rfl (hb.containers.set hc) hb.strings ?_ (fun t ht => ?_)
      (fun i c' hc' => ?_) hv
    · rw [count?_withContainer hc, if_pos rfl, count_of_container hc]
    · rw [count?_withContainer hc, if_neg ht]
    · exact exists_kind_withContainer hc hc' rfl

/-- Giving up a reference lowers a count by one, or frees the slot. -/
theorem Dropped.balanced {v : Value} {children : List Value} {R : Refs}
    (h : Dropped s v children s') (hb : s.heap.Balanced ({v} + R)) : s'.heap.Balanced R := by
  cases h with
  | scalar hs =>
    refine hb.congr_refs ?_
    rw [Refs.counted_add, Refs.counted_singleton hs, zero_add]
  | @text id e he hlt =>
    refine hb.lower (show Value.target? _ = some (.string id) from rfl) hb.containers
      (hb.strings.set he) ?_ ?_ (fun t ht => ?_) fun i c' hc' => ⟨c', hc', rfl⟩
    · rw [Heap.count, count?_withString he, if_pos rfl, count_of_string he]
      simp only [Option.getD_some]
      omega
    · rw [count?_withString he, if_pos rfl]
      simp only [ne_eq, Option.some.injEq]
      omega
    · rw [count?_withString he, if_neg ht]
  | @lastText id e he hle =>
    have hone : e.refcount = 1 := by
      have := hb.count_pos (t := .string id) (congrArg (Option.map StringEntry.refcount) he)
      omega
    refine hb.lower (show Value.target? _ = some (.string id) from rfl) hb.containers
      (hb.strings.erase he) ?_ ?_ (fun t ht => ?_) fun i c' hc' => ⟨c', hc', rfl⟩
    · rw [Heap.count, count?_withoutString, if_pos rfl, count_of_string he, hone]
      rfl
    · rw [count?_withoutString, if_pos rfl]
      simp
    · rw [count?_withoutString, if_neg ht]
  | @shared shape id c hc hlt =>
    refine hb.lower (show Value.target? _ = some (.container id) from rfl)
      (hb.containers.set hc) hb.strings ?_ ?_ (fun t ht => ?_)
      fun i c' hc' => exists_kind_withContainer hc hc' rfl
    · rw [Heap.count, count?_withContainer hc, if_pos rfl, count_of_container hc]
      simp only [Option.getD_some]
      omega
    · rw [count?_withContainer hc, if_pos rfl]
      simp only [ne_eq, Option.some.injEq]
      omega
    · rw [count?_withContainer hc, if_neg ht]
  | @freed shape id c _ hc hone ha =>
    have hwithout : (s.without id c).heap.Balanced R := by
      refine hb.lower (show Value.target? _ = some (.container id) from rfl)
        (hb.containers.erase hc) hb.strings ?_ ?_ (fun t ht => ?_) fun i c' hc' => ⟨c', ?_, rfl⟩
      · rw [Heap.count, count?_without, if_pos rfl, count_of_container hc, hone]
        rfl
      · rw [count?_without, if_pos rfl]
        simp
      · rw [count?_without, if_neg ht]
      · by_cases hi : id.slot = i
        · subst hi
          rw [show (s.without id c).heap.containers.get? id.slot =
            none from Slab.get?_erase_self] at hc'
          cases hc'
        · rw [← hc']
          exact (Slab.get?_erase_of_ne hi).symm
    exact hwithout.sameCounts (sameCounts_of_alike ha) rfl

end Store

end PlaneStore
