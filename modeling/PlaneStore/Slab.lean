/-!
# Slabs

A slab is a table of numbered cells. A freed cell goes on the free list and is taken again before
the table grows, the one freed last first, so the number of an entry depends on the order in which
others were freed.

The view of a slab is `get?`; each operation comes with what it does to that view and to the number
of live entries. A slab is `Sound` if its free list holds exactly the empty cells and it counts the
others, which every operation preserves.
-/

namespace PlaneStore

structure Slab (α : Type) where
  cells : Array (Option α) := #[]
  /-- The empty cells, the one freed last in front. -/
  free : List Nat := []
  /-- The number of live entries, counted as they come and go. -/
  live : Nat := 0
  deriving Repr

namespace Slab

variable {α : Type}

instance : Inhabited (Slab α) := ⟨{}⟩

/-- The entry of a cell, if the cell is in use. -/
def get? (s : Slab α) (i : Nat) : Option α := s.cells[i]?.join

def contains (s : Slab α) (i : Nat) : Bool := (s.get? i).isSome

/-- The number of cells in use. -/
def occupied (s : Slab α) : Nat := s.cells.countP Option.isSome

/-- The entries in the order of their cells. -/
def toList (s : Slab α) : List α := s.cells.toList.filterMap id

/-- The cell that the next entry goes to. -/
def nextCell (s : Slab α) : Nat := s.free.head?.getD s.cells.size

/-- Puts an entry in the next cell. -/
def insert (s : Slab α) (a : α) : Slab α :=
  match s.free with
  | [] => { s with cells := s.cells.push (some a), live := s.live + 1 }
  | i :: rest => { cells := s.cells.setIfInBounds i (some a), free := rest, live := s.live + 1 }

/-- Replaces the entry of a cell that is in use. -/
def set (s : Slab α) (i : Nat) (a : α) : Slab α :=
  { s with cells := s.cells.setIfInBounds i (some a) }

/-- Empties a cell that is in use. -/
def erase (s : Slab α) (i : Nat) : Slab α :=
  { cells := s.cells.setIfInBounds i none, free := i :: s.free, live := s.live - 1 }

/-! ## The view -/

/-- An entry is in a cell of the table. -/
theorem get?_eq_some {s : Slab α} {i : Nat} {a : α} :
    s.get? i = some a ↔ ∃ h : i < s.cells.size, s.cells[i] = some a := by
  unfold get?
  by_cases h : i < s.cells.size
  · simp [h]
  · simp [h]

theorem get?_set_self {s : Slab α} {i : Nat} {a b : α} (h : s.get? i = some b) :
    (s.set i a).get? i = some a := by
  obtain ⟨hi, -⟩ := get?_eq_some.mp h
  simp [get?, set, hi]

theorem get?_set_of_ne {s : Slab α} {i j : Nat} {a : α} (h : i ≠ j) :
    (s.set i a).get? j = s.get? j := by
  simp [get?, set, Array.getElem?_setIfInBounds_ne h]

theorem get?_erase_self {s : Slab α} {i : Nat} : (s.erase i).get? i = none := by
  unfold get? erase
  by_cases h : i < s.cells.size
  · simp [h]
  · simp [Nat.le_of_not_lt h]

theorem get?_erase_of_ne {s : Slab α} {i j : Nat} (h : i ≠ j) :
    (s.erase i).get? j = s.get? j := by
  simp [get?, erase, Array.getElem?_setIfInBounds_ne h]

/-! ## The number of cells in use -/

/-- To overwrite an entry takes no cell. -/
theorem occupied_set {s : Slab α} {i : Nat} {a b : α} (h : s.get? i = some b) :
    (s.set i a).occupied = s.occupied := by
  obtain ⟨hi, hb⟩ := get?_eq_some.mp h
  have hpos : 0 < s.cells.countP Option.isSome :=
    Array.countP_pos_iff.mpr ⟨some b, hb ▸ s.cells.getElem_mem hi, rfl⟩
  unfold occupied set
  rw [Array.setIfInBounds_def, dif_pos hi, Array.countP_set]
  simp [hb]
  omega

/-- To erase an entry gives one cell up. -/
theorem occupied_erase {s : Slab α} {i : Nat} {b : α} (h : s.get? i = some b) :
    (s.erase i).occupied + 1 = s.occupied := by
  obtain ⟨hi, hb⟩ := get?_eq_some.mp h
  have hpos : 0 < s.cells.countP Option.isSome :=
    Array.countP_pos_iff.mpr ⟨some b, hb ▸ s.cells.getElem_mem hi, rfl⟩
  unfold occupied erase
  rw [Array.setIfInBounds_def, dif_pos hi, Array.countP_set]
  simp [hb]
  omega

/-! ## The free list -/

/-- The free list holds each empty cell once and nothing else, and all other cells are counted. -/
structure Sound (s : Slab α) : Prop where
  nodup : s.free.Nodup
  mem_free : ∀ i, i ∈ s.free ↔ i < s.cells.size ∧ s.get? i = none
  count : s.live = s.occupied

theorem sound_empty : Sound ({} : Slab α) where
  nodup := List.nodup_nil
  mem_free i := by
    constructor
    · intro h
      cases h
    · rintro ⟨h, -⟩
      cases h
  count := rfl

/-- There is nothing beyond the table. -/
theorem get?_of_size_le {s : Slab α} {i : Nat} (h : s.cells.size ≤ i) : s.get? i = none := by
  simp [get?, h]

/-- The next cell is empty. -/
theorem get?_nextCell {s : Slab α} (hs : s.Sound) : s.get? s.nextCell = none := by
  unfold nextCell
  cases hf : s.free with
  | nil => exact get?_of_size_le (Nat.le_refl _)
  | cons i rest =>
    have hi : i ∈ s.free := by rw [hf]; exact List.mem_cons_self
    exact ((hs.mem_free i).mp hi).2

/-- A new entry is found in the next cell. -/
theorem get?_insert_self {s : Slab α} {a : α} (hs : s.Sound) :
    (s.insert a).get? s.nextCell = some a := by
  unfold insert nextCell
  cases hf : s.free with
  | nil => simp [get?]
  | cons i rest =>
    have hi : i ∈ s.free := by rw [hf]; exact List.mem_cons_self
    have hlt := ((hs.mem_free i).mp hi).1
    simp [get?, hlt]

/-- A new entry leaves the others where they are. -/
theorem get?_insert_of_ne {s : Slab α} {j : Nat} {a : α} (h : s.nextCell ≠ j) :
    (s.insert a).get? j = s.get? j := by
  unfold insert get?
  unfold nextCell at h
  cases hf : s.free with
  | nil =>
    rw [hf] at h
    have hne : j ≠ s.cells.size := Ne.symm h
    simp [Array.getElem?_push, hne]
  | cons i rest =>
    rw [hf] at h
    simp [Array.getElem?_setIfInBounds_ne (show i ≠ j from h)]

/-- What is found in the cell that is filled next is what was put there. -/
theorem eq_of_get?_insert {s : Slab α} {a b : α} (h : (s.insert a).get? s.nextCell = some b) :
    b = a := by
  unfold insert nextCell at h
  obtain ⟨hlt, he⟩ := get?_eq_some.mp h
  cases hf : s.free with
  | nil => simpa [hf] using he.symm
  | cons i rest => simpa [hf] using he.symm

/-- The next cell is in the table or comes right after it. -/
theorem nextCell_le {s : Slab α} (hs : s.Sound) : s.nextCell ≤ s.cells.size := by
  unfold nextCell
  cases hf : s.free with
  | nil => exact Nat.le_refl _
  | cons i rest =>
    have hi : i ∈ s.free := by rw [hf]; exact List.mem_cons_self
    exact Nat.le_of_lt ((hs.mem_free i).mp hi).1

/-- The table grows only if no cell in it is free. -/
theorem size_insert {s : Slab α} {a : α} (hs : s.Sound) : (s.insert a).cells.size =
    if s.nextCell < s.cells.size then s.cells.size else s.cells.size + 1 := by
  unfold insert nextCell
  cases hf : s.free with
  | nil => simp
  | cons i rest =>
    have hi : i ∈ s.free := by rw [hf]; exact List.mem_cons_self
    simp [((hs.mem_free i).mp hi).1]

/-- The cell that was freed last is taken first. -/
theorem free_insert {s : Slab α} {a : α} : (s.insert a).free = s.free.tail := by
  unfold insert
  split
  · next hf => simp [hf]
  · next hf => simp [hf]

theorem live_insert {s : Slab α} {a : α} : (s.insert a).live = s.live + 1 := by
  unfold insert
  split <;> rfl

/-- A new entry takes one cell. -/
theorem occupied_insert {s : Slab α} {a : α} (hs : s.Sound) :
    (s.insert a).occupied = s.occupied + 1 := by
  unfold occupied insert
  cases hf : s.free with
  | nil => simp
  | cons i rest =>
    have hi : i ∈ s.free := by rw [hf]; exact List.mem_cons_self
    obtain ⟨hlt, hnone⟩ := (hs.mem_free i).mp hi
    have hcell : s.cells[i] = none := by
      cases hc : s.cells[i] with
      | none => rfl
      | some b =>
        rw [get?_eq_some.mpr ⟨hlt, hc⟩] at hnone
        cases hnone
    show Array.countP _ (s.cells.setIfInBounds i (some a)) = _
    rw [Array.setIfInBounds_def, dif_pos hlt, Array.countP_set]
    simp [hcell]

/-- A new entry goes where nothing was, so the table stays sound. -/
theorem Sound.insert {s : Slab α} {a : α} (hs : s.Sound) : (s.insert a).Sound := by
  have hself := get?_insert_self (a := a) hs
  have hcount : (s.insert a).live = (s.insert a).occupied := by
    rw [live_insert, occupied_insert hs, hs.count]
  -- A new cell is put at the end if none is free, and else the first free one is taken.
  cases hf : s.free with
  | nil =>
    have hfree : (s.insert a).free = [] := by simp [Slab.insert, hf]
    have hsize : (s.insert a).cells.size = s.cells.size + 1 := by simp [Slab.insert, hf]
    have hnext : s.nextCell = s.cells.size := by simp [nextCell, hf]
    refine ⟨by rw [hfree]; exact List.nodup_nil, fun i => ?_, hcount⟩
    rw [hfree, hsize]
    constructor
    · intro h
      cases h
    rintro ⟨hlt, hnone⟩
    exfalso
    by_cases hi : s.nextCell = i
    · rw [← hi, hself] at hnone
      cases hnone
    · rw [get?_insert_of_ne hi] at hnone
      have : i ∈ s.free := (hs.mem_free i).mpr ⟨by omega, hnone⟩
      rw [hf] at this
      cases this
  | cons n rest =>
    have hfree : (s.insert a).free = rest := by simp [Slab.insert, hf]
    have hsize : (s.insert a).cells.size = s.cells.size := by simp [Slab.insert, hf]
    have hnext : s.nextCell = n := by simp [nextCell, hf]
    have hnd := hs.nodup
    rw [hf] at hnd
    obtain ⟨hn, hrest⟩ := List.nodup_cons.mp hnd
    refine ⟨by rw [hfree]; exact hrest, fun i => ?_, hcount⟩
    rw [hfree, hsize]
    by_cases hi : s.nextCell = i
    · rw [← hi, hself, hnext]
      exact ⟨fun h => absurd h hn, fun h => by cases h.2⟩
    · rw [get?_insert_of_ne hi, ← hs.mem_free i, hf, List.mem_cons]
      rw [hnext] at hi
      exact ⟨Or.inr, fun h => h.resolve_left (Ne.symm hi)⟩

theorem Sound.set {s : Slab α} {i : Nat} {a b : α} (hs : s.Sound) (h : s.get? i = some b) :
    (s.set i a).Sound := by
  refine ⟨hs.nodup, fun j => ?_, hs.count.trans (occupied_set h).symm⟩
  have hsize : (s.set i a).cells.size = s.cells.size := by simp [Slab.set]
  rw [hsize]
  show j ∈ s.free ↔ _
  rw [hs.mem_free j]
  by_cases hij : i = j
  · rw [← hij, get?_set_self h, h]
    simp
  · rw [get?_set_of_ne hij]

/-- A cell that is erased is free once. -/
theorem Sound.erase {s : Slab α} {i : Nat} {b : α} (hs : s.Sound) (h : s.get? i = some b) :
    (s.erase i).Sound := by
  have hsize : (s.erase i).cells.size = s.cells.size := by simp [Slab.erase]
  have hlt : i < s.cells.size := (get?_eq_some.mp h).1
  have hnot : i ∉ s.free := by
    intro hi
    rw [((hs.mem_free i).mp hi).2] at h
    cases h
  have hcount : (s.erase i).live = (s.erase i).occupied := by
    have hoccupied := occupied_erase h
    show s.live - 1 = _
    rw [hs.count]
    omega
  refine ⟨List.nodup_cons.mpr ⟨hnot, hs.nodup⟩, fun j => ?_, hcount⟩
  rw [hsize]
  show j ∈ i :: s.free ↔ _
  rw [List.mem_cons, hs.mem_free j]
  by_cases hij : i = j
  · rw [← hij, get?_erase_self]
    simp [hlt]
  · rw [get?_erase_of_ne hij]
    simp [Ne.symm hij]

/-! ## What becomes of one cell -/

/-- An entry goes to the cell that was freed last, or to a new one if none is free. -/
structure Fills (s : Slab α) (i : Nat) (a : α) (s' : Slab α) : Prop where
  next : i = s.free.head?.getD s.cells.size
  empty : s.get? i = none
  free : s'.free = s.free.tail
  get? : ∀ j, s'.get? j = if i = j then some a else s.get? j

/-- An entry goes, and its cell is the one freed last. -/
structure Empties (s : Slab α) (i : Nat) (a : α) (s' : Slab α) : Prop where
  full : s.get? i = some a
  free : s'.free = i :: s.free
  get? : ∀ j, s'.get? j = if i = j then none else s.get? j

/-- An entry takes the place of another. -/
structure Rewrites (s : Slab α) (i : Nat) (a b : α) (s' : Slab α) : Prop where
  full : s.get? i = some a
  free : s'.free = s.free
  get? : ∀ j, s'.get? j = if i = j then some b else s.get? j

theorem fills_insert {s : Slab α} (hs : s.Sound) (a : α) : s.Fills s.nextCell a (s.insert a) where
  next := rfl
  empty := get?_nextCell hs
  free := free_insert
  get? j := by
    split
    · next hj => rw [← hj, get?_insert_self hs]
    · next hj => exact get?_insert_of_ne hj

theorem empties_erase {s : Slab α} {i : Nat} {a : α} (hi : s.get? i = some a) :
    s.Empties i a (s.erase i) where
  full := hi
  free := rfl
  get? j := by
    split
    · next hj => rw [← hj, get?_erase_self]
    · next hj => exact get?_erase_of_ne hj

theorem rewrites_set {s : Slab α} {i : Nat} {a : α} (hi : s.get? i = some a) (b : α) :
    s.Rewrites i a b (s.set i b) where
  full := hi
  free := rfl
  get? j := by
    split
    · next hj => rw [← hj, get?_set_self hi]
    · next hj => exact get?_set_of_ne hj

end Slab

end PlaneStore
