import PlaneStore.Proofs.Order.Identity
import PlaneStore.Proofs.References.BufferReferences

/-!
# Tables

The pairs of a mapping as a finite map from identities to values. A table is sorted by key, has one
pair for each identity and no nil among its keys and values. The pending writes of an overlay come
before the sorted pairs.
-/

namespace PlaneStore

/-! ## Pairs of a flat list -/

namespace Pair

/-- The pairs of a flat list, one by one. -/
theorem getElem?_ofFlat : ∀ (vs : List Value) (i : Nat), (ofFlat vs)[i]? =
    if 2 * i + 1 < vs.length then some (vs.getD (2 * i) .nil, vs.getD (2 * i + 1) .nil) else none
  | [], i => by simp [ofFlat]
  | [_], i => by simp [ofFlat]
  | v :: w :: rest, 0 => by simp [ofFlat]
  | v :: w :: rest, i + 1 => by
    have hi : 2 * (i + 1) + 1 < (v :: w :: rest).length ↔ 2 * i + 1 < rest.length := by
      simp only [List.length_cons]
      omega
    show (ofFlat rest)[i]? = _
    rw [getElem?_ofFlat rest i]
    simp only [hi]
    rfl

theorem length_ofFlat : ∀ vs : List Value, (ofFlat vs).length = vs.length / 2
  | [] => rfl
  | [_] => by simp [ofFlat]
  | v :: w :: rest => by
    have := length_ofFlat rest
    simp only [ofFlat, List.length_cons, this]
    omega

/-- The value of a pair is replaced. -/
theorem ofFlat_set : ∀ (vs : List Value) (i : Nat) (v : Value), 2 * i + 1 < vs.length →
    ofFlat (vs.set (2 * i + 1) v) = (ofFlat vs).set i (vs.getD (2 * i) .nil, v)
  | [], i, _, h => by simp at h
  | [_], i, _, h => by simp at h
  | k :: w :: rest, 0, v, _ => rfl
  | k :: w :: rest, i + 1, v, h => by
    have hi : 2 * i + 1 < rest.length := by
      simp only [List.length_cons] at h
      omega
    have hset : (k :: w :: rest).set (2 * (i + 1) + 1) v = k :: w :: rest.set (2 * i + 1) v := rfl
    rw [hset]
    show (k, w) :: ofFlat (rest.set (2 * i + 1) v) = _
    rw [ofFlat_set rest i v hi]
    rfl

/-- A pair is taken out. -/
theorem ofFlat_cut : ∀ (vs : List Value) (i : Nat), 2 * i + 1 < vs.length →
    ofFlat (vs.take (2 * i) ++ vs.drop (2 * i + 2)) = (ofFlat vs).eraseIdx i
  | [], i, h => by simp at h
  | [_], i, h => by simp at h
  | k :: w :: rest, 0, _ => rfl
  | k :: w :: rest, i + 1, h => by
    have hi : 2 * i + 1 < rest.length := by
      simp only [List.length_cons] at h
      omega
    have htake : (k :: w :: rest).take (2 * (i + 1)) ++ (k :: w :: rest).drop (2 * (i + 1) + 2) =
        k :: w :: (rest.take (2 * i) ++ rest.drop (2 * i + 2)) := rfl
    rw [htake]
    show (k, w) :: ofFlat (rest.take (2 * i) ++ rest.drop (2 * i + 2)) = _
    rw [ofFlat_cut rest i hi]
    rfl

section

variable {values : Array Value} {i : Nat}

theorem getElem?_ofBuffer (h : 2 * i + 1 < values.size) :
    (ofBuffer values)[i]? = some (values.getD (2 * i) .nil, values.getD (2 * i + 1) .nil) := by
  unfold ofBuffer
  rw [getElem?_ofFlat, if_pos (by simpa using h)]
  simp

theorem length_ofBuffer (values : Array Value) : (ofBuffer values).length = values.size / 2 := by
  unfold ofBuffer
  rw [length_ofFlat, Array.length_toList]

theorem ofBuffer_set {v : Value} (h : 2 * i + 1 < values.size) :
    ofBuffer (values.setIfInBounds (2 * i + 1) v) =
      (ofBuffer values).set i (values.getD (2 * i) .nil, v) := by
  unfold ofBuffer
  rw [Array.toList_setIfInBounds, ofFlat_set _ _ _ (by simpa using h)]
  simp

theorem ofBuffer_cut (h : 2 * i + 1 < values.size) :
    ofBuffer (values.extract 0 (2 * i) ++ values.extract (2 * i + 2) values.size) =
      (ofBuffer values).eraseIdx i := by
  unfold ofBuffer
  rw [← ofFlat_cut _ _ (by simpa using h)]
  congr 1
  simp

end

/-- What is in a pair is in the buffer that the pair comes from. -/
theorem mem_of_ofFlat : ∀ {vs : List Value} {p : Pair}, p ∈ ofFlat vs → p.1 ∈ vs ∧ p.2 ∈ vs
  | [], _, h => by cases h
  | [_], _, h => by cases h
  | k :: w :: rest, p, h => by
    rcases List.mem_cons.mp h with rfl | h
    · simp
    · obtain ⟨h₁, h₂⟩ := mem_of_ofFlat h
      simp [h₁, h₂]

theorem mem_of_ofBuffer {values : Array Value} {p : Pair} (hp : p ∈ ofBuffer values) :
    p.1 ∈ values ∧ p.2 ∈ values := by
  obtain ⟨h₁, h₂⟩ := mem_of_ofFlat hp
  exact ⟨Array.mem_toList_iff.mp h₁, Array.mem_toList_iff.mp h₂⟩

end Pair

/-! ## Looking a key up in a list of pairs -/

namespace Heap

variable {h h' : Heap} {ps qs : List Pair} {k : Identity}

/-- The value under a key. -/
def find (h : Heap) (ps : List Pair) (k : Identity) : Option Value :=
  (ps.find? fun p => h.identity p.1 = k).map Prod.snd

/-- The keys are told apart. -/
def Distinct (h : Heap) (ps : List Pair) : Prop := (ps.map fun p => h.identity p.1).Nodup

@[simp] theorem find_nil : h.find [] k = none := rfl

theorem find_cons (p : Pair) (ps : List Pair) (k : Identity) :
    h.find (p :: ps) k = if h.identity p.1 = k then some p.2 else h.find ps k := by
  unfold find
  rw [List.find?_cons]
  split <;> simp_all

theorem find_append (ps qs : List Pair) (k : Identity) :
    h.find (ps ++ qs) k = (h.find ps k).or (h.find qs k) := by
  induction ps with
  | nil => rfl
  | cons p ps ih =>
    rw [List.cons_append, find_cons, find_cons]
    split
    · rfl
    · exact ih

theorem find_eq_none : h.find ps k = none ↔ ∀ p ∈ ps, h.identity p.1 ≠ k := by
  unfold find
  simp

theorem distinct_cons {p : Pair} :
    h.Distinct (p :: ps) ↔ (∀ q ∈ ps, h.identity q.1 ≠ h.identity p.1) ∧ h.Distinct ps := by
  unfold Distinct
  rw [List.map_cons, List.nodup_cons, List.mem_map]
  simp only [not_exists, not_and]

theorem find_eq_some (hd : h.Distinct ps) {v : Value} :
    h.find ps k = some v ↔ ∃ p ∈ ps, h.identity p.1 = k ∧ p.2 = v := by
  induction ps with
  | nil => simp
  | cons p ps ih =>
    obtain ⟨hnot, hd'⟩ := distinct_cons.mp hd
    rw [find_cons]
    by_cases hk : h.identity p.1 = k
    · rw [if_pos hk]
      constructor
      · rintro hv
        exact ⟨p, List.mem_cons_self, hk, Option.some.inj hv⟩
      · rintro ⟨p', hp', hk', rfl⟩
        rcases List.mem_cons.mp hp' with rfl | hp'
        · rfl
        · exact absurd (hk'.trans hk.symm) (hnot p' hp')
    · rw [if_neg hk, ih hd']
      constructor
      · rintro ⟨p', hp', hk', hv⟩
        exact ⟨p', List.mem_cons_of_mem _ hp', hk', hv⟩
      · rintro ⟨p', hp', hk', hv⟩
        rcases List.mem_cons.mp hp' with rfl | hp'
        · exact absurd hk' hk
        · exact ⟨p', hp', hk', hv⟩

theorem Distinct.perm (hd : h.Distinct ps) (hp : qs.Perm ps) : h.Distinct qs :=
  (hp.map _).nodup_iff.mpr hd

theorem find_perm (hd : h.Distinct ps) (hp : qs.Perm ps) : h.find qs k = h.find ps k := by
  have hd' := hd.perm hp
  refine Option.ext fun v => ?_
  rw [find_eq_some hd, find_eq_some hd']
  simp only [hp.mem_iff]

theorem Distinct.congr (hd : h.Distinct ps)
    (hk : ∀ p ∈ ps, h'.identity p.1 = h.identity p.1) : h'.Distinct ps := by
  unfold Distinct
  rw [List.map_congr_left hk]
  exact hd

theorem find_congr (hk : ∀ p ∈ ps, h'.identity p.1 = h.identity p.1) :
    h'.find ps k = h.find ps k := by
  induction ps with
  | nil => rfl
  | cons p ps ih =>
    rw [find_cons, find_cons, hk p List.mem_cons_self,
      ih fun q hq => hk q (List.mem_cons_of_mem _ hq)]

/-- The pair of an index is the one found under its key. -/
theorem find_getElem (hd : h.Distinct ps) {i : Nat} {p : Pair} (hi : ps[i]? = some p) :
    h.find ps (h.identity p.1) = some p.2 :=
  (find_eq_some hd).mpr ⟨p, List.mem_of_getElem? hi, rfl, rfl⟩

/-- A pair gets another value. -/
theorem find_set (hd : h.Distinct ps) {i : Nat} {p : Pair} {v : Value} (hi : ps[i]? = some p) :
    h.find (ps.set i (p.1, v)) k = if h.identity p.1 = k then some v else h.find ps k := by
  induction ps generalizing i with
  | nil => cases hi
  | cons q ps ih =>
    obtain ⟨hnot, hd'⟩ := distinct_cons.mp hd
    cases i with
    | zero =>
      cases hi
      rw [List.set_cons_zero, find_cons, find_cons]
      split <;> rfl
    | succ i =>
      rw [List.set_cons_succ, find_cons, find_cons, ih hd' hi]
      by_cases hk : h.identity p.1 = k
      · have hne : h.identity q.1 ≠ k := by
          rw [← hk]
          exact (hnot p (List.mem_of_getElem? hi)).symm
        simp only [hk, hne, if_true, if_false]
      · simp only [hk, if_false]

/-- The keys stay when a pair gets another value. -/
theorem map_fst_set {i : Nat} {p : Pair} {v : Value} (hi : ps[i]? = some p) :
    (ps.set i (p.1, v)).map Prod.fst = ps.map Prod.fst := by
  induction ps generalizing i with
  | nil => rfl
  | cons q ps ih =>
    cases i with
    | zero =>
      cases hi
      rfl
    | succ i =>
      rw [List.set_cons_succ, List.map_cons, List.map_cons, ih hi]

/-- A pair is taken out. -/
theorem find_eraseIdx (hd : h.Distinct ps) {i : Nat} {p : Pair} (hi : ps[i]? = some p) :
    h.find (ps.eraseIdx i) k = if h.identity p.1 = k then none else h.find ps k := by
  induction ps generalizing i with
  | nil => cases hi
  | cons q ps ih =>
    obtain ⟨hnot, hd'⟩ := distinct_cons.mp hd
    cases i with
    | zero =>
      cases hi
      rw [List.eraseIdx_cons_zero, find_cons]
      split
      · next hk =>
        exact find_eq_none.mpr fun p' hp' hk' => hnot p' hp' (hk'.trans hk.symm)
      · rfl
    | succ i =>
      rw [List.eraseIdx_cons_succ, find_cons, find_cons, ih hd' hi]
      by_cases hk : h.identity p.1 = k
      · have hne : h.identity q.1 ≠ k := by
          rw [← hk]
          exact (hnot p (List.mem_of_getElem? hi)).symm
        simp only [hk, hne, if_true, if_false]
      · simp only [hk, if_false]

theorem distinct_of_keys (hd : h.Distinct ps) (hk : qs.map Prod.fst = ps.map Prod.fst) :
    h.Distinct qs := by
  have hmap : ∀ rs : List Pair, (rs.map fun p => h.identity p.1) =
      (rs.map Prod.fst).map h.identity :=
    fun rs => by
      rw [List.map_map]
      rfl
  unfold Distinct at hd ⊢
  rw [hmap, hk, ← hmap]
  exact hd

/-! ## Tables -/

/-- Pairs that make a mapping: sorted by key, each key once, nothing nil. -/
structure Table (h : Heap) (ps : List Pair) : Prop where
  sorted : (ps.map Prod.fst).Pairwise fun a b => h.le a b = true
  distinct : h.Distinct ps
  solid : ∀ p ∈ ps, p.1 ≠ .nil ∧ p.2 ≠ .nil

namespace Table

theorem nil : h.Table [] := ⟨.nil, List.nodup_nil, fun _ hp => absurd hp List.not_mem_nil⟩

theorem sublist (ht : h.Table ps) (hs : qs.Sublist ps) : h.Table qs where
  sorted := ht.sorted.sublist (hs.map _)
  distinct := ht.distinct.sublist (hs.map _)
  solid p hp := ht.solid p (hs.subset hp)

theorem set (ht : h.Table ps) {i : Nat} {p : Pair} {v : Value} (hi : ps[i]? = some p)
    (hv : v ≠ .nil) : h.Table (ps.set i (p.1, v)) where
  sorted := by
    rw [map_fst_set hi]
    exact ht.sorted
  distinct := distinct_of_keys ht.distinct (map_fst_set hi)
  solid q hq := by
    rcases List.mem_or_eq_of_mem_set hq with hq | rfl
    · exact ht.solid q hq
    · exact ⟨(ht.solid p (List.mem_of_getElem? hi)).1, hv⟩

/-- A table stays one as long as its keys keep their places. -/
theorem congr (ht : h.Table ps) (hk : ∀ p ∈ ps, h'.place p.1 = h.place p.1) : h'.Table ps where
  sorted := by
    refine ht.sorted.imp_of_mem fun {a b} ha hb hab => ?_
    obtain ⟨p, hp, rfl⟩ := List.mem_map.mp ha
    obtain ⟨q, hq, rfl⟩ := List.mem_map.mp hb
    rw [le_congr (hk p hp) (hk q hq)]
    exact hab
  distinct := ht.distinct.congr fun p hp => identity_eq_of_place (hk p hp)
  solid := ht.solid

section

variable {values : Array Value} {key : Value}

theorem key_getD {i : Nat} (hi : i < values.size / 2) :
    ((Pair.ofBuffer values).map Prod.fst)[i]? = some (values.getD (i * 2) .nil) := by
  rw [List.getElem?_map, Pair.getElem?_ofBuffer (by omega), Nat.mul_comm]
  rfl

/-- The search finds the value that belongs to the key. -/
theorem find_of_at (ht : h.Table (Pair.ofBuffer values)) {i : Nat}
    (hf : h.findSorted values 2 key = .ok (.at i)) :
    2 * i + 1 < values.size ∧ h.identity (values.getD (2 * i) .nil) = h.identity key ∧
      h.find (Pair.ofBuffer values) (h.identity key) =
        some (values.getD (2 * i + 1) .nil) := by
  obtain ⟨hi, hs⟩ := findSorted_at hf
  have hlt : 2 * i + 1 < values.size := by omega
  rw [Nat.mul_comm] at hs
  have hid := identity_of_same hs
  refine ⟨hlt, hid, ?_⟩
  rw [← hid]
  exact find_getElem ht.distinct (Pair.getElem?_ofBuffer hlt)

theorem find_of_absent (ht : h.Table (Pair.ofBuffer values)) {i : Nat}
    (hf : h.findSorted values 2 key = .ok (.absent i)) :
    h.find (Pair.ofBuffer values) (h.identity key) = none := by
  have hsorted : ∀ i j, i ≤ j → j < values.size / 2 →
      h.le (values.getD (i * 2) .nil) (values.getD (j * 2) .nil) = true := by
    intro i j hij hj
    rcases Nat.lt_or_eq_of_le hij with hlt | rfl
    · obtain ⟨hi', ha⟩ := List.getElem?_eq_some_iff.mp (key_getD (by omega : i < values.size / 2))
      obtain ⟨hj', hb⟩ := List.getElem?_eq_some_iff.mp (key_getD hj)
      rw [← ha, ← hb]
      exact List.pairwise_iff_getElem.mp ht.sorted i j hi' hj' hlt
    · have htot := h.le_total (values.getD (i * 2) .nil) (values.getD (i * 2) .nil)
      rwa [Bool.or_self] at htot
  refine find_eq_none.mpr fun p hp hk => ?_
  obtain ⟨j, hj⟩ := List.mem_iff_getElem?.mp hp
  have hlt : j < values.size / 2 := by
    rw [← Pair.length_ofBuffer]
    exact (List.getElem?_eq_some_iff.mp hj).1
  have hkey := key_getD hlt
  rw [List.getElem?_map, hj] at hkey
  refine findSorted_absent hsorted hf j hlt ?_
  rw [← Option.some.inj hkey]
  exact hk

end

end Table

/-! ## Sorting and merging -/

theorem map_fst_sortPairs {ps qs : List Pair} (hs : h.sortPairs ps = .ok qs) :
    (qs.map Prod.fst).Pairwise fun a b => h.le a b = true :=
  List.pairwise_map.mpr (pairwise_sortOn hs)

theorem Table.of_sortPairs (hd : h.Distinct ps) (hv : ∀ p ∈ ps, p.1 ≠ .nil ∧ p.2 ≠ .nil)
    (hs : h.sortPairs ps = .ok qs) : h.Table qs where
  sorted := map_fst_sortPairs hs
  distinct := hd.perm (sortOn_perm hs)
  solid p hp := hv p ((sortOn_perm hs).mem_iff.mp hp)

/-- Merging sorted pairs gives sorted pairs. -/
theorem mergePairs_sorted {left right merged : List Pair}
    (hl : left.Pairwise fun p q => h.le p.1 q.1 = true)
    (hr : right.Pairwise fun p q => h.le p.1 q.1 = true)
    (hm : h.mergePairs left right = .ok merged) :
    merged.Pairwise fun p q => h.le p.1 q.1 = true := by
  induction left, right using mergePairs.induct generalizing merged with
  | case1 right =>
    rw [mergePairs] at hm
    obtain rfl := Fallible.pure_eq_ok.mp hm
    exact hr
  | case2 left hne =>
    rw [mergePairs.eq_2 _ _ hne] at hm
    obtain rfl := Fallible.pure_eq_ok.mp hm
    exact hl
  | case3 l left r right ih₁ ih₂ =>
    rw [mergePairs] at hm
    obtain ⟨o, ho, hm⟩ := Fallible.bind_eq_ok.mp hm
    obtain ⟨-, rfl⟩ := compare_eq_ok.mp ho
    obtain ⟨hl₁, hl₂⟩ := List.pairwise_cons.mp hl
    obtain ⟨hr₁, hr₂⟩ := List.pairwise_cons.mp hr
    split at hm
    · next hlt =>
      obtain ⟨rest, hrest, hm⟩ := Fallible.bind_eq_ok.mp hm
      obtain rfl := Fallible.pure_eq_ok.mp hm
      have hrl : h.le r.1 l.1 = true := by
        unfold le
        rw [hlt]
        rfl
      refine List.pairwise_cons.mpr ⟨fun p hp => ?_, ih₁ hl hr₂ hrest⟩
      rcases List.mem_append.mp ((mergePairs_perm hrest).mem_iff.mp hp) with hp | hp
      · rcases List.mem_cons.mp hp with rfl | hp
        · exact hrl
        · exact le_trans hrl (hl₁ p hp)
      · exact hr₁ p hp
    · next hge =>
      obtain ⟨rest, hrest, hm⟩ := Fallible.bind_eq_ok.mp hm
      obtain rfl := Fallible.pure_eq_ok.mp hm
      have hlr : h.le l.1 r.1 = true := by
        have htot := h.le_total r.1 l.1
        unfold le at htot ⊢
        rw [h.order_swap l.1]
        cases ho : h.order r.1 l.1 with
        | lt => exact absurd ho hge
        | eq | gt => rfl
      refine List.pairwise_cons.mpr ⟨fun p hp => ?_, ih₂ hl₂ hr hrest⟩
      rcases List.mem_append.mp ((mergePairs_perm hrest).mem_iff.mp hp) with hp | hp
      · exact hl₁ p hp
      · rcases List.mem_cons.mp hp with rfl | hp
        · exact hlr
        · exact le_trans hlr (hr₁ p hp)

end Heap

end PlaneStore
