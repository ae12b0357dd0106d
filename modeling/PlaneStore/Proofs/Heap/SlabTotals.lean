import PlaneStore.Slab
import Mathlib.Algebra.BigOperators.Group.List.Basic
import Mathlib.Algebra.Group.Basic
import Std.Data.TreeMap.Lemmas

/-!
# Totals over tables

What the entries of a table add up to, and how the total moves when one entry is put in, replaced or
taken out. The equations are stated without subtraction, so they hold in any commutative monoid; the
one that matters is that of multisets of references.
-/

namespace PlaneStore

/-! ## Lists with holes -/

section Cells

variable {α M : Type} [AddCommMonoid M] (f : α → M)

/-- What the entries of a list of cells add up to. -/
def cellTotal (cells : List (Option α)) : M := ((cells.filterMap id).map f).sum

theorem cellTotal_cons (c : Option α) (cells : List (Option α)) :
    cellTotal f (c :: cells) = (c.map f).getD 0 + cellTotal f cells := by
  cases c with
  | none => simp [cellTotal]
  | some a => simp [cellTotal]

theorem cellTotal_set {cells : List (Option α)} {i : Nat} {c d : Option α}
    (h : cells[i]? = some c) :
    cellTotal f (cells.set i d) + (c.map f).getD 0 = cellTotal f cells + (d.map f).getD 0 := by
  induction cells generalizing i with
  | nil => cases h
  | cons e cells ih =>
    cases i with
    | zero =>
      cases h
      rw [List.set_cons_zero, cellTotal_cons, cellTotal_cons]
      rw [add_right_comm, add_comm ((d.map f).getD 0), add_right_comm]
    | succ i =>
      rw [List.set_cons_succ, cellTotal_cons, cellTotal_cons, add_assoc, ih h, add_assoc]

end Cells

/-! ## Slabs -/

namespace Slab

variable {α M : Type} [AddCommMonoid M] (f : α → M)

/-- What the entries of a slab add up to. -/
def total (s : Slab α) : M := (s.toList.map f).sum

theorem total_eq_cellTotal (s : Slab α) : s.total f = cellTotal f s.cells.toList := rfl

/-- To put something in place of an entry changes the total by the difference. -/
theorem total_set {s : Slab α} {i : Nat} {a b : α} (h : s.get? i = some b) :
    (s.set i a).total f + f b = s.total f + f a := by
  obtain ⟨hi, hb⟩ := get?_eq_some.mp h
  have hcell : s.cells.toList[i]? = some (some b) := by simp [hi, hb]
  have := cellTotal_set f (d := some a) hcell
  simpa [total_eq_cellTotal, set] using this

/-- What is taken out is taken off the total. -/
theorem total_erase {s : Slab α} {i : Nat} {b : α} (h : s.get? i = some b) :
    (s.erase i).total f + f b = s.total f := by
  obtain ⟨hi, hb⟩ := get?_eq_some.mp h
  have hcell : s.cells.toList[i]? = some (some b) := by simp [hi, hb]
  have := cellTotal_set f (d := none) hcell
  simpa [total_eq_cellTotal, erase] using this

/-- What is put in is added to the total. -/
theorem total_insert {s : Slab α} {a : α} (hs : s.Sound) :
    (s.insert a).total f = f a + s.total f := by
  unfold insert
  cases hf : s.free with
  | nil => simp [total, toList, add_comm]
  | cons i rest =>
    have hi : i ∈ s.free := by rw [hf]; exact List.mem_cons_self
    obtain ⟨hlt, hnone⟩ := (hs.mem_free i).mp hi
    have hcell : s.cells.toList[i]? = some none := by
      simp only [get?, Array.getElem?_eq_getElem hlt, Option.join_some] at hnone
      simp [hlt, hnone]
    have := cellTotal_set f (d := some a) hcell
    simpa [total_eq_cellTotal, add_comm] using this

/-- Empty cells add nothing. -/
theorem cellTotal_of_empty {cells : List (Option α)} (h : ∀ i : Nat, cells[i]?.join = none) :
    cellTotal f cells = 0 := by
  induction cells with
  | nil => rfl
  | cons c cells ih =>
    have hhead : c = none := by simpa using h 0
    rw [cellTotal_cons, hhead, ih fun i => by simpa using h (i + 1)]
    exact add_zero 0

/-- Totals agree where the entries count alike, cell by cell. -/
theorem cellTotal_congr {β : Type} {g : β → M} {l : List (Option α)} {m : List (Option β)}
    (h : ∀ i : Nat, l[i]?.join.map f = m[i]?.join.map g) : cellTotal f l = cellTotal g m := by
  induction l generalizing m with
  | nil =>
    refine (cellTotal_of_empty g fun i => ?_).symm
    simpa using (h i).symm
  | cons c l ih =>
    cases m with
    | nil => exact cellTotal_of_empty f fun i => by simpa using h i
    | cons d m =>
      have hhead : c.map f = d.map g := by simpa using h 0
      rw [cellTotal_cons, cellTotal_cons, hhead, ih fun i => by simpa using h (i + 1)]

/-- The total is a matter of what is in which cell. -/
theorem total_congr {β : Type} {g : β → M} {s : Slab α} {t : Slab β}
    (h : ∀ i, (s.get? i).map f = (t.get? i).map g) : s.total f = t.total g := by
  rw [total_eq_cellTotal, total_eq_cellTotal]
  refine cellTotal_congr f fun i => ?_
  simpa [get?] using h i

/-- The number of entries is a total, too. -/
theorem live_eq_total {s : Slab α} (hs : s.Sound) : s.live = s.total fun _ => 1 := by
  rw [hs.count]
  unfold occupied total toList
  rw [← Array.countP_toList, List.map_const', List.sum_replicate, List.length_filterMap_eq_countP]
  simp

/-- Slabs with the same slots in use have as many of them. -/
theorem live_congr {β γ : Type} {s : Slab α} {t : Slab β} {f : α → γ} {g : β → γ} (hs : s.Sound)
    (ht : t.Sound) (h : ∀ i, (s.get? i).map f = (t.get? i).map g) : s.live = t.live := by
  rw [live_eq_total hs, live_eq_total ht]
  refine total_congr _ fun i => ?_
  have hone := congrArg (Option.map fun _ => 1) (h i)
  rwa [Option.map_map, Option.map_map] at hone

theorem countP_cells_le {β : Type} {l : List (Option α)} {m : List (Option β)}
    (h : ∀ i : Nat, m[i]?.join ≠ none → l[i]?.join ≠ none) :
    m.countP Option.isSome ≤ l.countP Option.isSome := by
  induction m generalizing l with
  | nil => exact Nat.zero_le _
  | cons d m ih =>
    cases l with
    | nil =>
      refine Nat.le_of_eq (List.countP_eq_zero.mpr fun c hc => ?_)
      obtain ⟨i, hi⟩ := List.mem_iff_getElem?.mp hc
      have hnone : c = none := by simpa [hi] using h i
      simp [hnone]
    | cons c l =>
      have hhead : d ≠ none → c ≠ none := by simpa using h 0
      have htail := ih (l := l) fun i => by simpa using h (i + 1)
      rw [List.countP_cons, List.countP_cons]
      cases d with
      | none => exact Nat.le_add_right_of_le htail
      | some b =>
        obtain ⟨a, rfl⟩ := Option.ne_none_iff_exists'.mp (hhead (by simp))
        exact Nat.add_le_add_right htail 1

/-- A slab that uses only cells which another uses has no more entries. -/
theorem occupied_le {β : Type} {s : Slab α} {t : Slab β}
    (h : ∀ i, t.get? i ≠ none → s.get? i ≠ none) : t.occupied ≤ s.occupied := by
  unfold occupied
  rw [← Array.countP_toList, ← Array.countP_toList]
  exact countP_cells_le fun i => by simpa [get?] using h i

theorem occupied_congr {β : Type} {s : Slab α} {t : Slab β}
    (h : ∀ i, t.get? i = none ↔ s.get? i = none) : t.occupied = s.occupied :=
  Nat.le_antisymm (occupied_le fun i => mt (h i).mpr) (occupied_le fun i => mt (h i).mp)

/-- A slab that uses one cell more has one entry more at most. -/
theorem occupied_le_succ {β : Type} {s : Slab α} {t : Slab β} {n : Nat}
    (h : ∀ i, i ≠ n → t.get? i ≠ none → s.get? i ≠ none) : t.occupied ≤ s.occupied + 1 := by
  cases hn : t.get? n with
  | none =>
    refine Nat.le_add_right_of_le (occupied_le fun i hi => h i ?_ hi)
    rintro rfl
    exact hi hn
  | some b =>
    rw [← occupied_erase hn]
    refine Nat.add_le_add_right (occupied_le fun i hi => ?_) 1
    by_cases hin : n = i
    · rw [← hin, get?_erase_self] at hi
      exact absurd rfl hi
    · rw [get?_erase_of_ne hin] at hi
      exact h i (Ne.symm hin) hi

/-- Where every occupied cell was occupied, there are no more entries. -/
theorem live_le {β : Type} {s : Slab α} {t : Slab β} (hs : s.Sound) (ht : t.Sound)
    (h : ∀ i, t.get? i ≠ none → s.get? i ≠ none) : t.live ≤ s.live := by
  rw [hs.count, ht.count]
  exact occupied_le h

/-- Where one more cell may be occupied, there is at most one more entry. -/
theorem live_le_succ {β : Type} {s : Slab α} {t : Slab β} (hs : s.Sound) (ht : t.Sound) {n : Nat}
    (h : ∀ i, i ≠ n → t.get? i ≠ none → s.get? i ≠ none) : t.live ≤ s.live + 1 := by
  rw [hs.count, ht.count]
  exact occupied_le_succ h

/-- One entry is replaced, and what is counted of the others does not change. -/
theorem total_replace {f g : α → M} {s : Slab α} {i : Nat} {a b : α} (h : s.get? i = some b)
    (hother : ∀ j c, i ≠ j → s.get? j = some c → g c = f c) :
    (s.set i a).total g + f b = s.total f + g a := by
  -- The slab of what the entries count for is the same before and after, but for one cell.
  let m : Slab M := ⟨s.cells.map (Option.map f), s.free, s.live⟩
  have hget : ∀ j, m.get? j = (s.get? j).map f := fun j => by
    simp only [m, get?, Array.getElem?_map]
    cases s.cells[j]? with
    | none => rfl
    | some c => rfl
  have hi : m.get? i = some (f b) := by rw [hget, h]; rfl
  have hbefore : s.total f = m.total id :=
    total_congr f fun j => by rw [hget, Option.map_id]; rfl
  have hafter : (s.set i a).total g = (m.set i (g a)).total id := by
    refine total_congr g fun j => ?_
    by_cases hij : i = j
    · subst hij
      rw [get?_set_self h, get?_set_self hi]
      rfl
    · rw [get?_set_of_ne hij, get?_set_of_ne hij, hget, Option.map_id]
      cases hj : s.get? j with
      | none => rfl
      | some c => exact congrArg some (hother j c hij hj)
  rw [hbefore, hafter]
  exact total_set id hi

/-- An entry of the slab is one of its list. -/
theorem mem_toList {s : Slab α} {a : α} : a ∈ s.toList ↔ ∃ i, s.get? i = some a := by
  simp only [toList, List.mem_filterMap, id, Array.mem_toList_iff]
  constructor
  · rintro ⟨_, hmem, rfl⟩
    obtain ⟨i, hi, hc⟩ := Array.mem_iff_getElem.mp hmem
    exact ⟨i, get?_eq_some.mpr ⟨hi, hc⟩⟩
  · rintro ⟨i, h⟩
    obtain ⟨hi, hc⟩ := get?_eq_some.mp h
    exact ⟨some a, hc ▸ s.cells.getElem_mem hi, rfl⟩

end Slab

/-! ## Ordered tables -/

namespace TreeTotal

open Std

variable {κ β M : Type} [Ord κ] [TransOrd κ] [LawfulEqOrd κ] [DecidableEq κ] [AddCommMonoid M]
variable (f : β → M)

/-- What the values of an ordered table add up to. -/
def total (t : TreeMap κ β) : M := (t.toList.map fun p => f p.2).sum

omit [TransOrd κ] [LawfulEqOrd κ] [DecidableEq κ] in
@[simp] theorem total_empty : total f (∅ : TreeMap κ β) = 0 := rfl

variable {f}

theorem total_insert_of_none {t : TreeMap κ β} {k : κ} {v : β} (h : t[k]? = none) :
    total f (t.insert k v) = f v + total f t := by
  have hperm := TreeMap.toList_insert_perm (t := t) (k := k) (v := v)
  have hfilter : t.toList.filter (fun p => decide (¬(k == p.1) = true)) = t.toList := by
    rw [List.filter_eq_self]
    rintro ⟨k', v'⟩ hmem
    rw [TreeMap.mem_toList_iff_getElem?_eq_some] at hmem
    have hne : k ≠ k' := by
      rintro rfl
      rw [h] at hmem
      cases hmem
    simpa using hne
  rw [hfilter] at hperm
  simpa [total] using (hperm.map fun p : κ × β => f p.2).sum_eq

omit [DecidableEq κ] in
/-- Maps with the same entries have the same total. -/
theorem total_congr {t u : TreeMap κ β} (h : ∀ k : κ, t[k]? = u[k]?) :
    total f t = total f u := by
  have he : t.Equiv u := TreeMap.Equiv.of_forall_constGet?_eq h
  simp only [total, he.toList_eq]

theorem total_erase {t : TreeMap κ β} {k : κ} {v : β} (h : t[k]? = some v) :
    total f (t.erase k) + f v = total f t := by
  have hnone : (t.erase k)[k]? = none := by simp
  rw [add_comm, ← total_insert_of_none hnone]
  refine total_congr fun k' => ?_
  rw [TreeMap.getElem?_insert, TreeMap.getElem?_erase]
  by_cases hk : compare k k' = .eq
  · rw [if_pos hk, ← LawfulEqOrd.eq_of_compare hk, h]
  · rw [if_neg hk, if_neg hk]

theorem total_insert_of_some {t : TreeMap κ β} {k : κ} {v w : β} (h : t[k]? = some w) :
    total f (t.insert k v) + f w = total f t + f v := by
  have hnone : (t.erase k)[k]? = none := by simp
  have hins : total f (t.insert k v) = f v + total f (t.erase k) := by
    rw [← total_insert_of_none hnone]
    refine total_congr fun k' => ?_
    rw [TreeMap.getElem?_insert, TreeMap.getElem?_insert, TreeMap.getElem?_erase]
    split <;> rfl
  rw [hins, ← total_erase h, add_assoc, add_comm]

end TreeTotal

/-! ## Lists of keys and entries -/

section

variable {κ μ : Type}

theorem lookup_of_mem [BEq κ] [LawfulBEq κ] {l : List (κ × μ)} {k : κ} {m : μ}
    (hn : (l.map Prod.fst).Nodup) (h : (k, m) ∈ l) : l.lookup k = some m := by
  induction l with
  | nil => cases h
  | cons x l ih =>
    obtain ⟨k', m'⟩ := x
    obtain ⟨hnot, hn⟩ := List.nodup_cons.mp hn
    rcases List.mem_cons.mp h with he | hmem
    · obtain ⟨rfl, rfl⟩ := Prod.mk.inj he
      exact List.lookup_cons_self
    · have hne : k ≠ k' := by
        rintro rfl
        exact hnot (List.mem_map.mpr ⟨_, hmem, rfl⟩)
      rw [List.lookup_cons, beq_eq_false_iff_ne.mpr hne]
      exact ih hn hmem

theorem lookup_of_notMem [BEq κ] [LawfulBEq κ] {l : List (κ × μ)} {k : κ}
    (h : k ∉ l.map Prod.fst) : l.lookup k = none := by
  refine List.lookup_eq_none_iff.mpr fun p hp => bne_iff_ne.mpr ?_
  rintro rfl
  exact h (List.mem_map_of_mem hp)

theorem lookup_cons_of_ne [BEq κ] [LawfulBEq κ] {l : List (κ × μ)} {k k' : κ} {m : μ}
    (h : k ≠ k') : ((k, m) :: l).lookup k' = l.lookup k' := by
  rw [List.lookup_cons, beq_eq_false_iff_ne.mpr (Ne.symm h)]

variable [Ord κ] [Std.TransOrd κ] [Std.LawfulEqOrd κ]

theorem nodup_toList (t : Std.TreeMap κ μ) : (t.toList.map Prod.fst).Nodup := by
  have h := Std.TreeMap.distinct_keys_toList (t := t)
  refine List.pairwise_map.mpr (h.imp fun hne he => hne ?_)
  rw [he]
  exact Std.ReflCmp.compare_self

/-- To look a key up in the list of a map is to look it up in the map. -/
theorem lookup_toList [BEq κ] [LawfulBEq κ] (t : Std.TreeMap κ μ) (k : κ) :
    t.toList.lookup k = t[k]? := by
  cases h : t[k]? with
  | some m =>
    exact lookup_of_mem (nodup_toList t) (Std.TreeMap.mem_toList_iff_getElem?_eq_some.mpr h)
  | none =>
    refine lookup_of_notMem fun hmem => ?_
    obtain ⟨⟨k', m⟩, hx, rfl⟩ := List.mem_map.mp hmem
    rw [Std.TreeMap.mem_toList_iff_getElem?_eq_some.mp hx] at h
    cases h

end

end PlaneStore
