import PlaneStore.Proofs.Order.SortedSearch
import PlaneStore.Proofs.References.Inventory
import PlaneStore.Proofs.Inversion.Functions
import PlaneStore.Proofs.Overlay.BucketChains

/-!
# References in buffers and overlays

What becomes of the references when an element is replaced, a pair is deleted, pairs are dropped, or
an overlay is merged into sorted pairs. Nothing is lost: what leaves the buffer is handed out.
-/

namespace PlaneStore

/-! ## Buffers -/

namespace Refs

/-- An element of a list is replaced. -/
theorem coe_set {l : List Value} {i : Nat} {v old : Value} (h : l[i]? = some old) :
    (↑(l.set i v) : Refs) + {old} = ↑l + {v} := by
  induction l generalizing i with
  | nil => cases h
  | cons a l ih =>
    cases i with
    | zero =>
      cases h
      rw [List.set_cons_zero, ← Multiset.cons_coe, ← Multiset.cons_coe, ← Multiset.singleton_add,
        ← Multiset.singleton_add]
      abel
    | succ i =>
      rw [List.set_cons_succ, ← Multiset.cons_coe, ← Multiset.cons_coe, Multiset.cons_add,
        Multiset.cons_add, ih h]

/-- To overwrite an element is to hold another value in place of the old one. -/
theorem coe_setIfInBounds {values : Array Value} {i : Nat} {v old : Value}
    (h : values[i]? = some old) :
    (↑(values.setIfInBounds i v).toList : Refs) + {old} = ↑values.toList + {v} := by
  rw [Array.toList_setIfInBounds]
  exact coe_set (by simpa using h)

/-- A stretch of an array is cut out. -/
theorem coe_cut (values : Array Value) {i j : Nat} (hij : i ≤ j) :
    (↑(values.extract 0 i ++ values.extract j values.size).toList : Refs) +
      ↑(values.extract i j).toList = ↑values.toList := by
  have hlist : values.toList =
      (values.extract 0 i).toList ++ ((values.extract i j).toList ++
        (values.extract j values.size).toList) := by
    have htail : values.toList.drop i =
        (values.toList.drop i).take (j - i) ++ values.toList.drop j := by
      conv_lhs => rw [← List.take_append_drop (j - i) (values.toList.drop i)]
      rw [List.drop_drop, Nat.add_sub_cancel' hij]
    simp only [Array.toList_extract, List.extract_eq_take_drop, Nat.sub_zero, List.drop_zero]
    rw [show values.size - j = (values.toList.drop j).length by simp, List.take_length, ← htail,
      List.take_append_drop]
  rw [hlist, Array.toList_append, ← Multiset.coe_add, ← Multiset.coe_add, ← Multiset.coe_add]
  abel

end Refs

/-! ## Pairs -/

namespace Pair

/-- The references of a list of pairs. -/
def held (ps : List Pair) : Refs := ↑(flatten ps)

theorem held_cons (p : Pair) (ps : List Pair) : held (p :: ps) = {p.1} + {p.2} + held ps := by
  unfold held flatten
  rw [List.flatMap_cons, ← Multiset.coe_add]
  rfl

@[simp] theorem held_nil : held [] = 0 := rfl

theorem held_append (ps qs : List Pair) : held (ps ++ qs) = held ps + held qs := by
  unfold held flatten
  rw [List.flatMap_append, Multiset.coe_add]

theorem held_perm {ps qs : List Pair} (h : ps.Perm qs) : held ps = held qs :=
  Multiset.coe_eq_coe.mpr (h.flatMap_right _)

/-- A list of whole pairs is that of its pairs. -/
theorem flatten_ofFlat : ∀ {vs : List Value}, vs.length % 2 = 0 → flatten (ofFlat vs) = vs
  | [], _ => rfl
  | [_], h => by cases h
  | v :: w :: rest, h => by
    have hrest : rest.length % 2 = 0 := by
      simp only [List.length_cons] at h
      omega
    show v :: w :: flatten (ofFlat rest) = _
    rw [flatten_ofFlat hrest]

theorem length_flatten (ps : List Pair) : (flatten ps).length = 2 * ps.length := by
  induction ps with
  | nil => rfl
  | cons p ps ih =>
    show (flatten ps).length + 1 + 1 = 2 * (ps.length + 1)
    omega

/-- The pairs of a buffer hold what the buffer holds. -/
theorem held_ofBuffer {values : Array Value} (h : values.size % 2 = 0) :
    held (ofBuffer values) = ↑values.toList := by
  unfold held ofBuffer
  rw [flatten_ofFlat (by simpa using h)]

theorem coe_toBuffer (ps : List Pair) : (↑(toBuffer ps).toList : Refs) = held ps := rfl

theorem size_toBuffer (ps : List Pair) : (toBuffer ps).size % 2 = 0 := by
  unfold toBuffer
  rw [List.size_toArray, length_flatten]
  omega

/-- The pairs that pass a test with the given outcomes. -/
def kept (ps : List Pair) (live : List Bool) : List Pair :=
  (ps.zip live).filterMap fun (p, b) => if b then some p else none

/-- What the other pairs hold. -/
def gone (ps : List Pair) (live : List Bool) : List Value :=
  (ps.zip live).flatMap fun (p, b) => if b then [] else [p.1, p.2]

@[simp] theorem kept_nil (live : List Bool) : kept [] live = [] := rfl

theorem kept_cons (p : Pair) (ps : List Pair) (b : Bool) (live : List Bool) :
    kept (p :: ps) (b :: live) = if b then p :: kept ps live else kept ps live := by
  unfold kept
  rw [List.zip_cons_cons, List.filterMap_cons]
  cases b <;> rfl

theorem gone_cons (p : Pair) (ps : List Pair) (b : Bool) (live : List Bool) :
    gone (p :: ps) (b :: live) = if b then gone ps live else p.1 :: p.2 :: gone ps live := by
  unfold gone
  rw [List.zip_cons_cons, List.flatMap_cons]
  cases b <;> rfl

/-- Where all pairs pass, all are kept. -/
theorem kept_of_all {P : Pair → Bool → Prop} {ps : List Pair} {live : List Bool}
    (h : List.Forall₂ P ps live) (hall : ∀ p ∈ ps, ¬P p false) : kept ps live = ps := by
  induction h with
  | nil => rfl
  | @cons p b ps live hp h ih =>
    cases b with
    | false => exact absurd hp (hall p List.mem_cons_self)
    | true =>
      rw [kept_cons, if_pos rfl, ih fun q hq => hall q (List.mem_cons_of_mem _ hq)]

/-- The pairs that are kept and those that are dropped are all there were. -/
theorem held_split (ps : List Pair) (live : List Bool) (h : live.length = ps.length) :
    held (kept ps live) + ↑(gone ps live) = held ps := by
  induction ps generalizing live with
  | nil => rfl
  | cons p ps ih =>
    cases live with
    | nil => cases h
    | cons b live =>
      have hrest := ih live (by simpa using h)
      rw [kept_cons, gone_cons, held_cons, ← hrest]
      cases b with
      | true =>
        simp only [if_true, held_cons]
        abel
      | false =>
        simp only [Bool.false_eq_true, if_false]
        rw [← Multiset.cons_coe, ← Multiset.cons_coe, ← Multiset.singleton_add,
          ← Multiset.singleton_add]
        abel

/-- Compaction leaves no more pairs than there were. -/
theorem length_kept_le (ps : List Pair) (live : List Bool) : (kept ps live).length ≤ ps.length := by
  refine (List.length_filterMap_le _ _).trans ?_
  rw [List.length_zip]
  exact Nat.min_le_left _ _

/-- If no fewer pairs are kept than there were, all are. -/
theorem kept_eq_self {ps : List Pair} {live : List Bool} (h : live.length = ps.length)
    (hle : ps.length ≤ (kept ps live).length) : kept ps live = ps := by
  induction ps generalizing live with
  | nil => rfl
  | cons p ps ih =>
    cases live with
    | nil => cases h
    | cons b live =>
      have hlen : live.length = ps.length := by simpa using h
      rw [kept_cons] at hle ⊢
      cases b with
      | true =>
        simp only [if_true, List.length_cons] at hle ⊢
        rw [ih hlen (by omega)]
      | false =>
        have hfew := length_kept_le ps live
        simp only [Bool.false_eq_true, if_false, List.length_cons] at hle
        omega

/-- A buffer of whole pairs is that of its pairs. -/
theorem toBuffer_ofBuffer {values : Array Value} (h : values.size % 2 = 0) :
    toBuffer (ofBuffer values) = values := by
  unfold toBuffer ofBuffer
  rw [flatten_ofFlat (by simpa using h)]

theorem size_toBuffer_eq (ps : List Pair) : (toBuffer ps).size = 2 * ps.length := by
  unfold toBuffer
  rw [List.size_toArray, length_flatten]

/-- A buffer that keeps its size keeps all of its pairs. -/
theorem toBuffer_kept {values : Array Value} {live : List Bool} (heven : values.size % 2 = 0)
    (hlen : live.length = (ofBuffer values).length)
    (hsize : (toBuffer (kept (ofBuffer values) live)).size = values.size) :
    toBuffer (kept (ofBuffer values) live) = values := by
  have hall := size_toBuffer_eq (ofBuffer values)
  rw [toBuffer_ofBuffer heven] at hall
  rw [size_toBuffer_eq] at hsize
  rw [kept_eq_self hlen (by omega), toBuffer_ofBuffer heven]

end Pair

/-! ## Overlays -/

/-- The references of an overlay entry. -/
def OverlayEntry.held (e : OverlayEntry) : Refs := {e.key} + {e.value}

def Overlay.held (o : Overlay) : Refs := o.entries.total OverlayEntry.held

theorem Overlay.held_eq_sum (o : Overlay) : o.held = (o.toList.map OverlayEntry.held).sum := rfl

namespace Overlay

/-- What is put into an overlay is held besides what it held. -/
theorem held_insert {o : Overlay} {e : OverlayEntry} (hs : o.entries.Sound) :
    (o.insert e).held = e.held + o.held := by
  unfold Overlay.held
  rw [entries_insert]
  exact Slab.total_insert _ hs

theorem sound_insert {o : Overlay} {e : OverlayEntry} (hs : o.entries.Sound) :
    (o.insert e).entries.Sound := by
  rw [entries_insert]
  exact hs.insert

end Overlay

theorem Overlay.coe_values (o : Overlay) :
    (↑(o.toList.flatMap fun e => [e.key, e.value]) : Refs) = o.held := by
  unfold Overlay.toList Overlay.held Slab.total
  induction o.entries.toList with
  | nil => rfl
  | cons e es ih =>
    rw [List.flatMap_cons, ← Multiset.coe_add, ih, List.map_cons, List.sum_cons]
    rfl

namespace Container

theorem coe_overlayValues {c : Container} {o : Overlay} (h : c.overlay = some o) :
    (↑c.overlayValues : Refs) = o.held := by
  unfold overlayValues
  rw [h]
  exact o.coe_values

theorem overlayValues_of_none {c : Container} (h : c.overlay = none) : c.overlayValues = [] := by
  unfold overlayValues
  rw [h]

theorem held_eq (swap : Swap) (c : Container) :
    c.held swap = ↑(c.buffer swap) + ↑c.overlayValues := by
  unfold held
  rw [Multiset.coe_add]

end Container

/-! ## Merging -/

namespace Heap

/-- Merging loses no pair and adds none. -/
theorem mergePairs_perm {h : Heap} {left right merged : List Pair}
    (hm : h.mergePairs left right = .ok merged) : merged.Perm (left ++ right) := by
  induction left, right using mergePairs.induct generalizing merged with
  | case1 right =>
    rw [mergePairs] at hm
    obtain rfl := Fallible.pure_eq_ok.mp hm
    exact List.Perm.refl _
  | case2 left hne =>
    rw [mergePairs.eq_2 _ _ hne] at hm
    obtain rfl := Fallible.pure_eq_ok.mp hm
    rw [List.append_nil]
  | case3 l left r right ih₁ ih₂ =>
    rw [mergePairs] at hm
    obtain ⟨o, -, hm⟩ := Fallible.bind_eq_ok.mp hm
    split at hm
    · obtain ⟨rest, hr, hm⟩ := Fallible.bind_eq_ok.mp hm
      obtain rfl := Fallible.pure_eq_ok.mp hm
      exact ((ih₁ hr).cons r).trans (@List.perm_middle _ _ (l :: left) _).symm
    · obtain ⟨rest, hr, hm⟩ := Fallible.bind_eq_ok.mp hm
      obtain rfl := Fallible.pure_eq_ok.mp hm
      exact (ih₂ hr).cons l

end Heap

namespace Mapping

/-- The references that a merge has dealt with so far. -/
def Merge.held (m : Merge) : Refs := ↑m.values.toList + Pair.held m.added + ↑m.released

/-- An entry that is taken into account adds what it holds. -/
theorem Merge.held_step {h : Heap} {id : ContainerId} {m m' : Merge} {e : OverlayEntry}
    (hs : Merge.step h id m e = .ok m') :
    m'.held = m.held + e.held ∧ m'.values.size = m.values.size := by
  rcases Merge.step_eq_ok hs with ⟨-, rfl⟩ | ⟨i, -, hf, rfl⟩
  · refine ⟨?_, rfl⟩
    simp only [Merge.held, OverlayEntry.held, Pair.held_append, Pair.held_cons, Pair.held_nil]
    abel
  · obtain ⟨hi, -⟩ := Heap.findSorted_at hf
    have hlt : 2 * i + 1 < m.values.size := by omega
    refine ⟨?_, Array.size_setIfInBounds⟩
    have hget : m.values[2 * i + 1]? = some (m.values.getD (2 * i + 1) .nil) := by
      simp [hlt]
    have hset := Refs.coe_setIfInBounds (v := e.value) hget
    have hout : (↑[m.values.getD (2 * i + 1) .nil, e.key] : Refs) =
        {m.values.getD (2 * i + 1) .nil} + {e.key} := rfl
    simp only [Merge.held, OverlayEntry.held, ← Multiset.coe_add, hout]
    calc _ = (↑(m.values.setIfInBounds (2 * i + 1) e.value).toList +
          {m.values.getD (2 * i + 1) .nil}) + Pair.held m.added + ↑m.released + {e.key} := by abel
      _ = _ := by rw [hset]; abel

/-- The references of all pending writes go into the merge, and none is lost. -/
theorem Merge.held_foldlM {h : Heap} {id : ContainerId} {es : List OverlayEntry} {m m' : Merge}
    (hs : es.foldlM (Merge.step h id) m = .ok m') :
    m'.held = m.held + (es.map OverlayEntry.held).sum ∧ m'.values.size = m.values.size := by
  induction es generalizing m with
  | nil =>
    obtain rfl := Fallible.pure_eq_ok.mp hs
    exact ⟨by simp, rfl⟩
  | cons e es ih =>
    rw [List.foldlM_cons] at hs
    obtain ⟨m₁, h₁, hs⟩ := Fallible.bind_eq_ok.mp hs
    obtain ⟨hheld, hsize⟩ := ih hs
    obtain ⟨hheld₁, hsize₁⟩ := Merge.held_step h₁
    refine ⟨?_, hsize.trans hsize₁⟩
    rw [hheld, hheld₁, List.map_cons, List.sum_cons, add_assoc]

/-- A merge hands out what does not stay in the buffer. -/
theorem held_merged {h : Heap} {id : ContainerId} {overlay : Overlay} {values values' : Array Value}
    {released : List Value} (hm : merged h id overlay values = .ok (values', released))
    (heven : values.size % 2 = 0) :
    (↑values'.toList : Refs) + ↑released = ↑values.toList + overlay.held ∧
      values'.size % 2 = 0 := by
  obtain ⟨m, sorted, pairs, hfold, hsort, hpairs, rfl, rfl⟩ := merged_eq_ok hm
  obtain ⟨hheld, hsize⟩ := Merge.held_foldlM hfold
  refine ⟨?_, Pair.size_toBuffer _⟩
  have hperm := Pair.held_perm (Heap.mergePairs_perm hpairs)
  rw [Pair.held_append, Pair.held_ofBuffer (by rw [hsize]; exact heven),
    Pair.held_perm (Heap.sortOn_perm hsort)] at hperm
  rw [Pair.coe_toBuffer, hperm, Overlay.held_eq_sum]
  have hstart : ({ values } : Merge).held = ↑values.toList := by
    simp [Merge.held]
  rw [hstart] at hheld
  exact hheld

/-- Where pending writes only add keys, the merge gives nothing up. -/
theorem Merge.released_foldlM {h : Heap} {id : ContainerId} {es : List OverlayEntry} {m m' : Merge}
    (hadded : ∀ e ∈ es, e.added = true) (hs : es.foldlM (Merge.step h id) m = .ok m') :
    m'.released = m.released := by
  induction es generalizing m with
  | nil => rw [← Fallible.pure_eq_ok.mp hs]
  | cons e es ih =>
    rw [List.foldlM_cons] at hs
    obtain ⟨m₁, h₁, hs⟩ := Fallible.bind_eq_ok.mp hs
    rw [ih (fun d hd => hadded d (List.mem_cons_of_mem _ hd)) hs]
    rcases Merge.step_eq_ok h₁ with ⟨-, rfl⟩ | ⟨i, hupdate, -⟩
    · rfl
    · cases hupdate.symm.trans (hadded e List.mem_cons_self)

/-- A merge of new keys gives nothing up. -/
theorem released_merged {h : Heap} {id : ContainerId} {overlay : Overlay}
    {values values' : Array Value}
    {released : List Value} (hm : merged h id overlay values = .ok (values', released))
    (hadded : ∀ e ∈ overlay.toList, e.added = true) : released = [] := by
  obtain ⟨m, _, _, hfold, -, -, -, rfl⟩ := merged_eq_ok hm
  exact Merge.released_foldlM hadded hfold

end Mapping

end PlaneStore
