import PlaneStore.Proofs.Order.MembershipSearch
import PlaneStore.Proofs.Totality.Comparing

/-!
# Order, sameness, hash and search

The order is a total preorder of values of all types, and sameness is an equivalence that refines it
and is respected by the hash. A search relies on no more than that: in a sorted sequence it answers
with the place of a value that is the same, or else with a place where the key can be inserted. It
looks at nothing outside of the sequence, and what it answers depends on the identity of the key
only.
-/

namespace PlaneStore

namespace Heap

variable {h : Heap} {a b c key : Value} {probe probe' : Nat → Value} {n : Nat}

/-! ## Comparisons that are answered -/

/-- A comparison is answered, and `a` is not above `b`. -/
def NotAbove (h : Heap) (a b : Value) : Prop := ∃ o, h.compare a b = .ok o ∧ o.isLE = true

theorem compare_eq (ha : h.Has a) (hb : h.Has b) : h.compare a b = .ok (h.order a b) := by
  obtain ⟨u, hu⟩ := faultless_checkComparable ha hb
  exact compare_eq_ok.mpr ⟨hu, rfl⟩

theorem notAbove_iff (ha : h.Has a) (hb : h.Has b) : h.NotAbove a b ↔ h.le a b = true := by
  unfold NotAbove
  rw [compare_eq ha hb]
  constructor
  · rintro ⟨o, ho, hle⟩
    rwa [← Except.ok.inj ho] at hle
  · exact fun hle => ⟨_, rfl, hle⟩

theorem same_eq (ha : h.Has a) (hb : h.Has b) :
    h.same a b = .ok (decide (h.identity a = h.identity b)) := by
  obtain ⟨r, hr⟩ := faultless_same ha hb
  rw [hr, same_eq_ok hr]

theorem same_iff (ha : h.Has a) (hb : h.Has b) :
    h.same a b = .ok true ↔ h.identity a = h.identity b := by
  rw [same_eq ha hb, Except.ok.injEq, decide_eq_true_iff]

/-- Of two values that are compared equal each may stand before the other. -/
theorem le_of_order_eq (ho : h.order a b = .eq) : h.le a b = true ∧ h.le b a = true := by
  unfold le
  rw [h.order_swap b a, ho]
  exact ⟨rfl, rfl⟩

/-! ## What a search looks at -/

theorem probeDown_probe_congr {i : Nat} (hp : ∀ j < i, probe' j = probe j) :
    h.probeDown key probe' i = h.probeDown key probe i := by
  induction i with
  | zero => rfl
  | succ i ih =>
    unfold probeDown
    rw [hp i (Nat.lt_succ_self i), ih fun j hj => hp j (Nat.lt_succ_of_lt hj)]

theorem probeUp_probe_congr (hp : ∀ j < n, probe' j = probe j) (i : Nat) :
    h.probeUp key probe' n i = h.probeUp key probe n i := by
  induction i using probeUp.induct (n := n) with
  | case1 i hi ih =>
    unfold probeUp
    simp only [if_pos hi, hp i hi, ih]
  | case2 i hi =>
    unfold probeUp
    simp only [if_neg hi]

/-- The run of equals is searched within bounds. -/
theorem probeRun_probe_congr {mid : Nat} (hp : ∀ j < n, probe' j = probe j) (hmid : mid < n) :
    h.probeRun key probe' n mid = h.probeRun key probe n mid := by
  unfold probeRun
  rw [hp mid hmid, probeDown_probe_congr fun j hj => hp j (Nat.lt_trans hj hmid),
    probeUp_probe_congr hp]

/-- A search looks at the keys of the sequence only. -/
theorem bisect_probe_congr (hp : ∀ j < n, probe' j = probe j) {lo hi : Nat} (hn : hi ≤ n) :
    h.bisect key probe' n lo hi = h.bisect key probe n lo hi := by
  induction lo, hi using bisect.induct with
  | case1 lo hi hlt mid ihlt ihgt =>
    have hmid : mid < n := by omega
    unfold bisect
    rw [if_pos hlt, if_pos hlt]
    show h.compare key (probe' mid) >>= _ = h.compare key (probe mid) >>= _
    rw [hp mid hmid]
    refine congrArg _ (funext fun o => ?_)
    cases o with
    | lt => exact ihlt (by omega)
    | gt => exact ihgt hn
    | eq => exact probeRun_probe_congr hp hmid
  | case2 lo hi hge =>
    unfold bisect
    rw [if_neg hge, if_neg hge]

/-! ## Where a search that misses ends -/

/-- A run in which the key is not met is left where it was entered. -/
theorem eq_of_probeRun_absent {mid i : Nat} (hr : h.probeRun key probe n mid = .ok (.absent i)) :
    i = mid := by
  unfold probeRun at hr
  obtain ⟨r, -, hr⟩ := Fallible.bind_eq_ok.mp hr
  cases r with
  | true => cases Fallible.pure_eq_ok.mp hr
  | false =>
    obtain ⟨down, -, hr⟩ := Fallible.bind_eq_ok.mp hr
    cases down with
    | some j => cases Fallible.pure_eq_ok.mp hr
    | none =>
      obtain ⟨up, -, hr⟩ := Fallible.bind_eq_ok.mp hr
      cases up with
      | some j => cases Fallible.pure_eq_ok.mp hr
      | none => exact (Found.absent.inj (Fallible.pure_eq_ok.mp hr)).symm

section

variable (sorted : ∀ i j, i ≤ j → j < n → h.le (probe i) (probe j) = true)

include sorted

/-- What is before the place that a search ends at is not above the key, what follows not below. -/
theorem bisect_between {lo hi i : Nat} (hle : lo ≤ hi) (hn : hi ≤ n)
    (hlo : ∀ j < lo, h.le (probe j) key = true)
    (hhi : ∀ j, hi ≤ j → j < n → h.le key (probe j) = true)
    (hb : h.bisect key probe n lo hi = .ok (.absent i)) :
    i ≤ n ∧ (∀ j < i, h.le (probe j) key = true) ∧
      ∀ j, i ≤ j → j < n → h.le key (probe j) = true := by
  induction lo, hi using bisect.induct with
  | case1 lo hi hlt mid ihlt ihgt =>
    unfold bisect at hb
    rw [if_pos hlt] at hb
    obtain ⟨o, ho, hb⟩ := Fallible.bind_eq_ok.mp hb
    obtain ⟨-, rfl⟩ := compare_eq_ok.mp ho
    have hmid : mid < n := by omega
    have hbefore : h.le (probe mid) key = true → ∀ j ≤ mid, h.le (probe j) key = true :=
      fun hm j hj => le_trans (sorted j mid hj hmid) hm
    have hafter : h.le key (probe mid) = true → ∀ j, mid ≤ j → j < n → h.le key (probe j) = true :=
      fun hm j hj hjn => le_trans hm (sorted mid j hj hjn)
    cases ho : h.order key (probe mid) with
    | lt =>
      rw [ho] at hb
      exact ihlt (by omega) (by omega) hlo (hafter (by unfold le; rw [ho]; rfl)) hb
    | gt =>
      rw [ho] at hb
      refine ihgt (by omega) hn (fun j hj => hbefore ?_ j (Nat.le_of_lt_succ hj)) hhi hb
      unfold le
      rw [h.order_swap, ho]
      rfl
    | eq =>
      rw [ho] at hb
      obtain rfl := eq_of_probeRun_absent hb
      obtain ⟨hkey, hprobe⟩ := le_of_order_eq ho
      exact ⟨Nat.le_of_lt hmid, fun j hj => hbefore hprobe j (Nat.le_of_lt hj), hafter hkey⟩
  | case2 lo hi hge =>
    unfold bisect at hb
    rw [if_neg hge] at hb
    obtain rfl := Found.absent.inj (Fallible.pure_eq_ok.mp hb)
    exact ⟨by omega, hlo, fun j hj hjn => hhi j (by omega) hjn⟩

end

/-! ## Answers of a search -/

/-- The key of an entry among entries of some stride. -/
def keyAt (elements : Array Value) (stride i : Nat) : Value := elements.getD (i * stride) .nil

/--
An answer that is right for a key among `n` others: the place of one that is the same, or, if there
is none, a place where the key can go without breaking the order.
-/
def Answers (h : Heap) (key : Value) (keys : Nat → Value) (n : Nat) : Found → Prop
  | .at i => i < n ∧ h.same key (keys i) = .ok true
  | .absent i => i ≤ n ∧ (∀ j < n, h.same key (keys j) = .ok false) ∧
      (∀ j < i, h.NotAbove (keys j) key) ∧ ∀ j, i ≤ j → j < n → h.NotAbove key (keys j)

variable {elements : Array Value} {stride : Nat}

theorem has_keyAt (hvs : ∀ v ∈ elements, h.Has v) (i : Nat) : h.Has (keyAt elements stride i) :=
  has_getD hvs _

/-- Entries that follow each other in order are in order wherever they stand. -/
theorem le_keyAt (hvs : ∀ v ∈ elements, h.Has v)
    (sorted : ∀ i, i + 1 < n → h.NotAbove (keyAt elements stride i) (keyAt elements stride (i + 1)))
    (i j : Nat) (hij : i ≤ j) (hj : j < n) :
    h.le (keyAt elements stride i) (keyAt elements stride j) = true := by
  induction j, hij using Nat.le_induction with
  | base => exact (le_of_order_eq Std.ReflCmp.compare_self).1
  | succ j hij ih =>
    refine le_trans (ih (Nat.lt_of_succ_lt hj)) ?_
    exact (notAbove_iff (has_keyAt hvs j) (has_keyAt hvs (j + 1))).mp (sorted j hj)

/-- The search answers with an index of the key, or with the one where it belongs. -/
theorem answers_findSorted {f : Found} (hvs : ∀ v ∈ elements, h.Has v) (hkey : h.Has key)
    (sorted : ∀ i j, i ≤ j → j < elements.size / stride →
      h.le (keyAt elements stride i) (keyAt elements stride j) = true)
    (hf : h.findSorted elements stride key = .ok f) :
    h.Answers key (keyAt elements stride) (elements.size / stride) f := by
  cases f with
  | «at» i => exact findSorted_at hf
  | absent i =>
    obtain ⟨hi, hbefore, hafter⟩ := bisect_between sorted (Nat.zero_le _) (Nat.le_refl _)
      (fun j hj => absurd hj (Nat.not_lt_zero j))
      (fun j hj hjn => absurd hjn (Nat.not_lt_of_le hj)) hf
    refine ⟨hi, fun j hj => ?_, fun j hj => ?_, fun j hij hj => ?_⟩
    · rw [same_eq hkey (has_keyAt hvs j), Except.ok.injEq, decide_eq_false_iff_not]
      exact fun hid => findSorted_absent sorted hf j hj hid.symm
    · exact (notAbove_iff (has_keyAt hvs j) hkey).mpr (hbefore j hj)
    · exact (notAbove_iff hkey (has_keyAt hvs j)).mpr (hafter j hij hj)

/-! ## All of it together -/

/--
Values in use are totally preordered, so they can be sorted, and stably. Sameness is an equivalence;
what is the same compares equal and has one hash. A search among sorted entries ends, its answer is
right, it looks at no key but those of the entries, and keys that are the same get the same answer.
-/
theorem order_coherent (h : Heap) :
    (∀ a b, h.Has a → h.Has b → ∃ o, h.compare a b = .ok o ∧ h.compare b a = .ok o.swap) ∧
    (∀ a, h.Has a → h.compare a a = .ok .eq) ∧
    (∀ a b c, h.Has a → h.Has b → h.Has c → h.NotAbove a b → h.NotAbove b c → h.NotAbove a c) ∧
    (∀ values : Array Value, (∀ v ∈ values, h.Has v) →
      ∃ sorted, h.sort values = .ok sorted ∧ sorted.toList.Perm values.toList ∧
        sorted.toList.Pairwise h.NotAbove ∧
        ∀ a b, [a, b].Sublist values.toList → h.NotAbove a b → [a, b].Sublist sorted.toList) ∧
    (∀ a b, h.Has a → h.Has b → ∃ r, h.same a b = .ok r ∧ h.same b a = .ok r) ∧
    (∀ a, h.Has a → h.same a a = .ok true) ∧
    (∀ a b c, h.Has a → h.Has b → h.Has c → h.same a b = .ok true → h.same b c = .ok true →
      h.same a c = .ok true) ∧
    (∀ a b, h.Has a → h.Has b → h.same a b = .ok true →
      h.compare a b = .ok .eq ∧ ∃ hash, h.hash a = .ok hash ∧ h.hash b = .ok hash) ∧
    ∀ (elements : Array Value) (stride : Nat) (key : Value), 1 ≤ stride →
      (∀ v ∈ elements, h.Has v) → h.Has key →
      (∀ i, i + 1 < elements.size / stride →
        h.NotAbove (keyAt elements stride i) (keyAt elements stride (i + 1))) →
      ∃ f, h.findSorted elements stride key = .ok f ∧
        h.Answers key (keyAt elements stride) (elements.size / stride) f ∧
        (∀ i < elements.size / stride, elements[i * stride]? = some (keyAt elements stride i)) ∧
        (∀ probe : Nat → Value,
          (∀ i < elements.size / stride, probe i = keyAt elements stride i) →
          h.bisect key probe (elements.size / stride) 0 (elements.size / stride) = .ok f) ∧
        ∀ key', h.Has key' → h.same key key' = .ok true →
          h.findSorted elements stride key' = .ok f := by
  refine ⟨fun a b ha hb => ?_, fun a ha => ?_, fun a b c ha hb hc hab hbc => ?_,
    fun values hvs => ?_,
    fun a b ha hb => ?_, fun a ha => ?_, fun a b c ha hb hc hab hbc => ?_, fun a b ha hb hs => ?_,
    fun elements stride key hstride hvs hkey hsorted => ?_⟩
  · exact ⟨_, compare_eq ha hb, by rw [compare_eq hb ha, h.order_swap b a]⟩
  · rw [compare_eq ha ha]
    exact congrArg _ Std.ReflCmp.compare_self
  · rw [notAbove_iff ha hb] at hab
    rw [notAbove_iff hb hc] at hbc
    rw [notAbove_iff ha hc]
    exact le_trans hab hbc
  · obtain ⟨sorted, hs⟩ := faultless_sort hvs
    obtain ⟨hperm, hpairwise⟩ := sort_eq_ok hs
    have hhas : ∀ v ∈ sorted.toList, h.Has v := fun v hv =>
      hvs v (Array.mem_toList_iff.mp (hperm.mem_iff.mp hv))
    refine ⟨sorted, hs, hperm, ?_, fun a b hab hle => ?_⟩
    · exact hpairwise.imp_of_mem fun hv hw hle => (notAbove_iff (hhas _ hv) (hhas _ hw)).mpr hle
    · obtain ⟨xs, hxs, hsorted⟩ := Fallible.bind_eq_ok.mp hs
      obtain rfl := Fallible.pure_eq_ok.mp hsorted
      obtain ⟨-, rfl⟩ := sortOn_eq_ok.mp hxs
      have hmem : ∀ v ∈ [a, b], h.Has v :=
        fun v hv => hvs v (Array.mem_toList_iff.mp (hab.subset hv))
      have hle' := (notAbove_iff (hmem a (by simp)) (hmem b (by simp))).mp hle
      exact List.pair_sublist_mergeSort (fun _ _ _ => le_trans) (fun a b => h.le_total a b) hle' hab
  · exact ⟨_, same_eq ha hb, by rw [same_eq hb ha, decide_eq_decide.mpr eq_comm]⟩
  · rw [same_iff ha ha]
  · rw [same_iff ha hb] at hab
    rw [same_iff hb hc] at hbc
    rw [same_iff ha hc]
    exact hab.trans hbc
  · have hid := (same_iff ha hb).mp hs
    obtain ⟨x, hx⟩ := faultless_hash ha
    obtain ⟨y, hy⟩ := faultless_hash hb
    rw [compare_eq ha hb, order_eq_of_identity hid]
    exact ⟨rfl, x, hx, hash_eq_of_identity hid hx hy ▸ hy⟩
  · obtain ⟨f, hf⟩ : Faultless (h.findSorted elements stride key) := faultless_findSorted hkey hvs
    refine ⟨f, hf, answers_findSorted hvs hkey (le_keyAt hvs hsorted) hf, fun i hi => ?_,
      fun probe hprobe => ?_, fun key' hkey' hs => ?_⟩
    · have hlt : i * stride < elements.size := calc
        i * stride < (i + 1) * stride := Nat.mul_lt_mul_of_pos_right (Nat.lt_succ_self i) hstride
        _ ≤ elements.size / stride * stride := Nat.mul_le_mul_right stride hi
        _ ≤ elements.size := Nat.div_mul_le_self _ _
      rw [keyAt, Array.getD_eq_getD_getElem?, Array.getElem?_eq_getElem hlt, Option.getD_some]
    · exact (bisect_probe_congr hprobe (Nat.le_refl _)).trans hf
    · obtain ⟨f', hf'⟩ : Faultless (h.findSorted elements stride key') :=
        faultless_findSorted hkey' hvs
      rw [hf', findSorted_congr ((same_iff hkey hkey').mp hs) hf hf']

/-! ## A run of equal keys -/

/-- A heap with three arrays of one tag. -/
def crowded : Heap :=
  let c : Container :=
    { kind := .array, elements := .resident #[], tag := 7, home := 0, owner := ⟨0⟩,
      scrubEpoch := 0 }
  { containers := { cells := #[some c, some c, some c], live := 3 }, nextTag := 8 }

/-- A mapping under two of the arrays. -/
def crowdedPairs : Array Value :=
  #[.container .array ⟨0⟩, .int 5, .container .array ⟨1⟩, .int 6]

theorem has_crowded (i : Fin 3) : crowded.Has (.container .array ⟨i⟩) := by
  have hlive : ∀ i : Fin 3, (crowded.containers.get? i).isSome = true := by decide +kernel
  refine ⟨fun shape id he => ?_, nofun⟩
  obtain ⟨-, rfl⟩ := Value.container.inj he
  exact Option.isSome_iff_exists.mp (hlive i)

/-- A search among keys of one place, of which one is there and the other is not. -/
theorem order_coherent_crowded : ∃ f g,
    (∀ v ∈ crowdedPairs, crowded.Has v) ∧
    (∀ i, i + 1 < 2 → crowded.NotAbove (keyAt crowdedPairs 2 i) (keyAt crowdedPairs 2 (i + 1))) ∧
    crowded.Has (.container .array ⟨1⟩) ∧ crowded.Has (.container .array ⟨2⟩) ∧
    crowded.findSorted crowdedPairs 2 (.container .array ⟨1⟩) = .ok f ∧
    crowded.Answers (.container .array ⟨1⟩) (keyAt crowdedPairs 2) 2 f ∧
    crowded.findSorted crowdedPairs 2 (.container .array ⟨2⟩) = .ok g ∧
    crowded.Answers (.container .array ⟨2⟩) (keyAt crowdedPairs 2) 2 g := by
  have hvs : ∀ v ∈ crowdedPairs, crowded.Has v := by
    intro v hv
    have hcases : v = .container .array ⟨0⟩ ∨ v = .int 5 ∨ v = .container .array ⟨1⟩ ∨
        v = .int 6 := by
      simpa [crowdedPairs] using hv
    rcases hcases with rfl | rfl | rfl | rfl
    · exact has_crowded 0
    · exact ⟨nofun, nofun⟩
    · exact has_crowded 1
    · exact ⟨nofun, nofun⟩
  have hsorted : ∀ i, i + 1 < 2 →
      crowded.NotAbove (keyAt crowdedPairs 2 i) (keyAt crowdedPairs 2 (i + 1)) := by
    intro i hi
    obtain rfl : i = 0 := by omega
    exact (notAbove_iff (has_crowded 0) (has_crowded 1)).mpr (by decide +kernel)
  obtain ⟨-, -, -, -, -, -, -, -, hsearch⟩ := order_coherent crowded
  obtain ⟨f, hf, hanswers, -⟩ :=
    hsearch crowdedPairs 2 (.container .array ⟨1⟩) (by decide) hvs (has_crowded 1) hsorted
  obtain ⟨g, hg, hmisses, -⟩ :=
    hsearch crowdedPairs 2 (.container .array ⟨2⟩) (by decide) hvs (has_crowded 2) hsorted
  exact ⟨f, g, hvs, hsorted, has_crowded 1, has_crowded 2, hf, hanswers, hg, hmisses⟩

end Heap

end PlaneStore
