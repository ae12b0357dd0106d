import PlaneStore.Sequence
import PlaneStore.Proofs.Order.Identity
import PlaneStore.Proofs.Inversion.Basic

/-!
# Membership by search

Whether an array has some value is decided by a search in a sorted copy of it. The order is coarser
than sameness: different values may order as equal, and then stand side by side in any order. The
search is exact nevertheless, so selections by membership are those by identity. A search depends on
the identity of what it looks for only; so where duplicates are to be left out it is enough to keep
in mind which places of the sorted copy were hit.
-/

namespace PlaneStore

namespace Heap

variable {h : Heap} {values sorted : Array Value} {L : List Value} {v w key : Value}

/-- Some value of a list is the same as a given one. -/
def In (h : Heap) (L : List Value) (v : Value) : Prop := ∃ w ∈ L, h.identity w = h.identity v

instance (h : Heap) (L : List Value) (v : Value) : Decidable (h.In L v) :=
  inferInstanceAs (Decidable (∃ w ∈ L, h.identity w = h.identity v))

/-! ## Sorted copies -/

theorem In.of_perm {L M : List Value} (hp : L.Perm M) : h.In L v ↔ h.In M v := by
  simp only [In, hp.mem_iff]

/-- A sort puts the values in order and loses none. -/
theorem sort_eq_ok (hs : h.sort values = .ok sorted) : sorted.toList.Perm values.toList ∧
    sorted.toList.Pairwise fun a b => h.le a b = true := by
  obtain ⟨xs, hxs, hp⟩ := Fallible.bind_eq_ok.mp hs
  obtain rfl := Fallible.pure_eq_ok.mp hp
  exact ⟨sortOn_perm hxs, pairwise_sortOn hxs⟩

/-- A search in a sorted array hits exactly if the array has the value. -/
theorem isHit_iff {f : Found} (hs : sorted.toList.Pairwise fun a b => h.le a b = true)
    (hf : h.findSorted sorted 1 key = .ok f) : f.isHit = true ↔ h.In sorted.toList key := by
  cases f with
  | «at» i =>
    obtain ⟨hi, hsame⟩ := findSorted_at hf
    rw [Nat.div_one] at hi
    rw [Nat.mul_one, Array.getD_eq_getD_getElem?, Array.getElem?_eq_getElem hi,
      Option.getD_some] at hsame
    refine ⟨fun _ => ⟨sorted[i], ?_, identity_of_same hsame⟩, fun _ => rfl⟩
    exact Array.mem_toList_iff.mpr (Array.getElem_mem hi)
  | absent i =>
    refine ⟨nofun, fun ⟨w, hw, hid⟩ => ?_⟩
    obtain ⟨j, hj, rfl⟩ := List.getElem_of_mem hw
    have hj' : j < sorted.size := by simpa using hj
    -- The search counts in elements of width one here.
    have hordered : ∀ i j, i ≤ j → j < sorted.size / 1 →
        h.le (sorted.getD (i * 1) .nil) (sorted.getD (j * 1) .nil) = true := by
      intro i j hij hj
      rw [Nat.div_one] at hj
      simp only [Nat.mul_one, Array.getD_eq_getD_getElem?,
        Array.getElem?_eq_getElem (Nat.lt_of_le_of_lt hij hj), Array.getElem?_eq_getElem hj,
        Option.getD_some]
      rcases Nat.lt_or_eq_of_le hij with hlt | rfl
      · have hle := List.pairwise_iff_getElem.mp hs i j (by simpa using Nat.lt_trans hlt hj)
          (by simpa using hj) hlt
        rwa [Array.getElem_toList, Array.getElem_toList] at hle
      · exact (or_self_iff.mp (Bool.or_eq_true _ _ ▸ h.le_total _ _))
    have hne := findSorted_absent hordered hf j (by simpa using hj')
    rw [Nat.mul_one, Array.getD_eq_getD_getElem?, Array.getElem?_eq_getElem hj',
      Option.getD_some] at hne
    exact absurd (by simpa using hid) hne

/-! ## Searches for the same value -/

section

variable {probe : Nat → Value} {key' : Value} (hid : h.identity key = h.identity key')
include hid

/-- Keys of one place compare alike. -/
theorem compare_congr {x : Value} {o o' : Ordering} (ho : h.compare key x = .ok o)
    (ho' : h.compare key' x = .ok o') : o = o' := by
  rw [(compare_eq_ok.mp ho).2, (compare_eq_ok.mp ho').2]
  simp only [order, place_eq_of_identity hid]

theorem same_congr {x : Value} {b b' : Bool} (hb : h.same key x = .ok b)
    (hb' : h.same key' x = .ok b') : b = b' := by
  rw [same_eq_ok hb, same_eq_ok hb', hid]

theorem probeDown_congr {i : Nat} {r r' : Option Nat} (hr : h.probeDown key probe i = .ok r)
    (hr' : h.probeDown key' probe i = .ok r') : r = r' := by
  induction i with
  | zero => rw [← Fallible.pure_eq_ok.mp hr, ← Fallible.pure_eq_ok.mp hr']
  | succ i ih =>
    unfold probeDown at hr hr'
    obtain ⟨o, ho, hr⟩ := Fallible.bind_eq_ok.mp hr
    obtain ⟨o', ho', hr'⟩ := Fallible.bind_eq_ok.mp hr'
    obtain rfl := compare_congr hid ho ho'
    split at hr
    · next hne =>
      rw [if_pos hne] at hr'
      rw [← Fallible.pure_eq_ok.mp hr, ← Fallible.pure_eq_ok.mp hr']
    · next heq =>
      rw [if_neg heq] at hr'
      obtain ⟨b, hb, hr⟩ := Fallible.bind_eq_ok.mp hr
      obtain ⟨b', hb', hr'⟩ := Fallible.bind_eq_ok.mp hr'
      obtain rfl := same_congr hid hb hb'
      cases b with
      | true => rw [← Fallible.pure_eq_ok.mp hr, ← Fallible.pure_eq_ok.mp hr']
      | false => exact ih hr hr'

theorem probeUp_congr {n i : Nat} {r r' : Option Nat} (hr : h.probeUp key probe n i = .ok r)
    (hr' : h.probeUp key' probe n i = .ok r') : r = r' := by
  induction i using probeUp.induct (n := n) with
  | case1 i hi ih =>
    unfold probeUp at hr hr'
    rw [if_pos hi] at hr hr'
    obtain ⟨o, ho, hr⟩ := Fallible.bind_eq_ok.mp hr
    obtain ⟨o', ho', hr'⟩ := Fallible.bind_eq_ok.mp hr'
    obtain rfl := compare_congr hid ho ho'
    split at hr
    · next hne =>
      rw [if_pos hne] at hr'
      rw [← Fallible.pure_eq_ok.mp hr, ← Fallible.pure_eq_ok.mp hr']
    · next heq =>
      rw [if_neg heq] at hr'
      obtain ⟨b, hb, hr⟩ := Fallible.bind_eq_ok.mp hr
      obtain ⟨b', hb', hr'⟩ := Fallible.bind_eq_ok.mp hr'
      obtain rfl := same_congr hid hb hb'
      cases b with
      | true => rw [← Fallible.pure_eq_ok.mp hr, ← Fallible.pure_eq_ok.mp hr']
      | false => exact ih hr hr'
  | case2 i hi =>
    unfold probeUp at hr hr'
    rw [if_neg hi] at hr hr'
    rw [← Fallible.pure_eq_ok.mp hr, ← Fallible.pure_eq_ok.mp hr']

theorem probeRun_congr {n mid : Nat} {f f' : Found} (hf : h.probeRun key probe n mid = .ok f)
    (hf' : h.probeRun key' probe n mid = .ok f') : f = f' := by
  unfold probeRun at hf hf'
  obtain ⟨b, hb, hf⟩ := Fallible.bind_eq_ok.mp hf
  obtain ⟨b', hb', hf'⟩ := Fallible.bind_eq_ok.mp hf'
  obtain rfl := same_congr hid hb hb'
  cases b with
  | true => rw [← Fallible.pure_eq_ok.mp hf, ← Fallible.pure_eq_ok.mp hf']
  | false =>
    obtain ⟨r, hr, hf⟩ := Fallible.bind_eq_ok.mp hf
    obtain ⟨r', hr', hf'⟩ := Fallible.bind_eq_ok.mp hf'
    obtain rfl := probeDown_congr hid hr hr'
    cases r with
    | some i => rw [← Fallible.pure_eq_ok.mp hf, ← Fallible.pure_eq_ok.mp hf']
    | none =>
      obtain ⟨u, hu, hf⟩ := Fallible.bind_eq_ok.mp hf
      obtain ⟨u', hu', hf'⟩ := Fallible.bind_eq_ok.mp hf'
      obtain rfl := probeUp_congr hid hu hu'
      cases u <;> rw [← Fallible.pure_eq_ok.mp hf, ← Fallible.pure_eq_ok.mp hf']

/-- A search comes to the same result for all keys that stand for the same thing. -/
theorem bisect_congr {n lo hi : Nat} {f f' : Found} (hf : h.bisect key probe n lo hi = .ok f)
    (hf' : h.bisect key' probe n lo hi = .ok f') : f = f' := by
  induction lo, hi using bisect.induct with
  | case1 lo hi hlt mid ihlt ihgt =>
    unfold bisect at hf hf'
    rw [if_pos hlt] at hf hf'
    obtain ⟨o, ho, hf⟩ := Fallible.bind_eq_ok.mp hf
    obtain ⟨o', ho', hf'⟩ := Fallible.bind_eq_ok.mp hf'
    obtain rfl := compare_congr hid ho ho'
    cases o with
    | lt => exact ihlt hf hf'
    | gt => exact ihgt hf hf'
    | eq => exact probeRun_congr hid hf hf'
  | case2 lo hi hlt =>
    unfold bisect at hf hf'
    rw [if_neg hlt] at hf hf'
    rw [← Fallible.pure_eq_ok.mp hf, ← Fallible.pure_eq_ok.mp hf']

/-- Two searches for the same value end at the same place. -/
theorem findSorted_congr {stride : Nat} {f f' : Found}
    (hf : h.findSorted sorted stride key = .ok f) (hf' : h.findSorted sorted stride key' = .ok f') :
    f = f' :=
  bisect_congr hid hf hf'

end

/-- Values that are found at one place are the same. -/
theorem identity_eq_of_at {stride i : Nat} (hv : h.findSorted sorted stride v = .ok (.at i))
    (hw : h.findSorted sorted stride w = .ok (.at i)) : h.identity v = h.identity w :=
  (identity_of_same (findSorted_at hv).2).symm.trans (identity_of_same (findSorted_at hw).2)

/-! ## First occurrences -/

/-- The first occurrence of each value of a list, but of those met before. -/
def firsts (h : Heap) : List Identity → List Value → List Value
  | _, [] => []
  | met, v :: rest =>
    if h.identity v ∈ met then h.firsts met rest else v :: h.firsts (h.identity v :: met) rest

end Heap

/-! ## Selections -/

/-- A filter that does not fail keeps what passes the test. -/
theorem Fallible.filterM_eq_filter {α : Type} {test : α → Except Fault Bool} {p : α → Bool}
    {xs ys : List α} (htest : ∀ x ∈ xs, ∀ b, test x = .ok b → b = p x)
    (hf : xs.filterM test = .ok ys) : ys = xs.filter p := by
  have haux : ∀ (xs acc : List α) {zs : List α},
      (∀ x ∈ xs, ∀ b, test x = .ok b → b = p x) → xs.filterAuxM test acc = .ok zs →
        zs = (xs.filter p).reverse ++ acc := by
    intro xs
    induction xs with
    | nil =>
      intro acc zs _ hz
      exact (Fallible.pure_eq_ok.mp hz).symm
    | cons x xs ih =>
      intro acc zs htest hz
      obtain ⟨b, hb, hz⟩ := Fallible.bind_eq_ok.mp hz
      obtain rfl := htest x List.mem_cons_self b hb
      rw [ih _ (fun y hy => htest y (List.mem_cons_of_mem _ hy)) hz, List.filter_cons]
      cases p x <;> simp
  obtain ⟨zs, hz, hf⟩ := Fallible.bind_eq_ok.mp hf
  obtain rfl := Fallible.pure_eq_ok.mp hf
  rw [haux xs [] htest hz, List.append_nil, List.reverse_reverse]

namespace Sequence

variable {s s' : Store} {h : Heap} {values sorted left right sortedLeft sortedRight : Array Value}

theorem sorted_spec (hs : Sequence.sorted values s = .ok (sorted, s')) :
    s = s' ∧ s.heap.sort values = .ok sorted := by
  obtain ⟨h, rfl⟩ := StoreM.readHeap_eq_ok.mp hs
  exact ⟨rfl, h⟩

/-- The members of a list are found as if each was compared with all of the other array. -/
theorem members_eq_filter {vs kept : List Value} {keep : Bool}
    (hs : s.heap.sort right = .ok sorted)
    (hm : members vs sorted keep s = .ok (kept, s')) :
    s = s' ∧ kept = vs.filter fun v => decide (s.heap.In right.toList v) == keep := by
  obtain ⟨hf, rfl⟩ := StoreM.readHeap_eq_ok.mp hm
  refine ⟨rfl, Fallible.filterM_eq_filter (fun v _ b hb => ?_) hf⟩
  obtain ⟨f, hfound, hb⟩ := Fallible.bind_eq_ok.mp hb
  obtain ⟨hperm, hsorted⟩ := Heap.sort_eq_ok hs
  have hhit := (Heap.isHit_iff hsorted hfound).trans (Heap.In.of_perm hperm)
  rw [← Fallible.pure_eq_ok.mp hb, Bool.eq_iff_iff.mpr (hhit.trans decide_eq_true_iff.symm)]

/-- The places that were hit stand for the values that were met. -/
theorem missingOnce_eq_firsts (hleft : h.sort left = .ok sortedLeft)
    (hright : h.sort right = .ok sortedRight) {vs kept : List Value} {taken : List Nat}
    {met : List Identity} (hvs : ∀ v ∈ vs, v ∈ right)
    (htaken : ∀ v i, h.findSorted sortedRight 1 v = .ok (.at i) → (i ∈ taken ↔ h.identity v ∈ met))
    (hm : missingOnce h sortedLeft sortedRight taken vs = .ok kept) :
    kept = h.firsts (met ++ left.toList.map h.identity) vs := by
  obtain ⟨hpermL, hsortedL⟩ := Heap.sort_eq_ok hleft
  obtain ⟨hpermR, hsortedR⟩ := Heap.sort_eq_ok hright
  induction vs generalizing taken met kept with
  | nil => rw [← Fallible.pure_eq_ok.mp hm, Heap.firsts]
  | cons v rest ih =>
    have hrest : ∀ w ∈ rest, w ∈ right := fun w hw => hvs w (List.mem_cons_of_mem _ hw)
    unfold missingOnce at hm
    obtain ⟨f, hf, hm⟩ := Fallible.bind_eq_ok.mp hm
    have hhit : f.isHit = true ↔ h.identity v ∈ left.toList.map h.identity := by
      rw [Heap.isHit_iff hsortedL hf, Heap.In.of_perm hpermL, List.mem_map]
      rfl
    unfold Heap.firsts
    split at hm
    · next hin =>
      rw [if_pos (List.mem_append_right _ (hhit.mp hin))]
      exact ih hrest htaken hm
    next hout =>
    obtain ⟨g, hg, hm⟩ := Fallible.bind_eq_ok.mp hm
    cases g with
    | absent j =>
      have hmem : h.In sortedRight.toList v :=
        ⟨v, hpermR.mem_iff.mpr (Array.mem_toList_iff.mpr (hvs v List.mem_cons_self)), rfl⟩
      exact absurd ((Heap.isHit_iff hsortedR hg).mpr hmem) nofun
    | «at» i =>
      by_cases hi : i ∈ taken
      · rw [if_pos (List.mem_append_left _ ((htaken v i hg).mp hi))]
        simp only [hi, if_true] at hm
        exact ih hrest htaken hm
      simp only [hi, if_false] at hm
      obtain ⟨kept', hm', hp⟩ := Fallible.bind_eq_ok.mp hm
      obtain rfl := Fallible.pure_eq_ok.mp hp
      rw [if_neg fun hmet => (List.mem_append.mp hmet).elim
        (fun hmet => hi ((htaken v i hg).mpr hmet))
        fun hin => hout (hhit.mpr hin)]
      have hmore : ∀ w j, h.findSorted sortedRight 1 w = .ok (.at j) →
          (j ∈ i :: taken ↔ h.identity w ∈ h.identity v :: met) := by
        intro w j hw
        rw [List.mem_cons, List.mem_cons, htaken w j hw]
        refine or_congr_left ⟨?_, fun hid => ?_⟩
        · rintro rfl
          exact Heap.identity_eq_of_at hw hg
        · exact Found.at.inj (Heap.findSorted_congr hid hw hg)
      exact congrArg (v :: ·) (ih hrest hmore hm')

/-- What is missing in one array are the first occurrences in the other of what it lacks. -/
theorem missing_eq_firsts {kept : List Value} (hm : missing left right s = .ok (kept, s')) :
    s = s' ∧ kept = s.heap.firsts (left.toList.map s.heap.identity) right.toList := by
  obtain ⟨sortedLeft, s₁, h₁, hm⟩ := StoreM.bind_eq_ok.mp hm
  obtain ⟨rfl, hleft⟩ := sorted_spec h₁
  obtain ⟨sortedRight, s₂, h₂, hm⟩ := StoreM.bind_eq_ok.mp hm
  obtain ⟨rfl, hright⟩ := sorted_spec h₂
  obtain ⟨hkept, rfl⟩ := StoreM.readHeap_eq_ok.mp hm
  have hnone : ∀ v i, s.heap.findSorted sortedRight 1 v = .ok (.at i) →
      (i ∈ ([] : List Nat) ↔ s.heap.identity v ∈ ([] : List Identity)) := fun v i _ => by simp
  exact ⟨rfl, missingOnce_eq_firsts hleft hright (fun v hv => Array.mem_toList_iff.mp hv)
    hnone hkept⟩

end Sequence

end PlaneStore
