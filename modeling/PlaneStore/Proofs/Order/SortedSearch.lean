import PlaneStore.Proofs.Inversion.Basic

/-!
# What a search finds

A hit is the index of a key that is the same. In a sorted sequence a miss means that no key is the
same: keys before the interval of the binary search are below the one looked for, those behind it
are above, and the run of equal keys around the middle is looked at in full.
-/

namespace PlaneStore.Heap

variable {h : Heap} {key : Value} {probe : Nat → Value}

/-! ## The run of equal keys -/

theorem probeDown_some {i j : Nat} (hd : h.probeDown key probe i = .ok (some j)) :
    j < i ∧ h.same key (probe j) = .ok true := by
  induction i with
  | zero => cases hd
  | succ i ih =>
    unfold probeDown at hd
    obtain ⟨o, -, hd⟩ := Fallible.bind_eq_ok.mp hd
    split at hd
    · cases hd
    obtain ⟨b, hb, hd⟩ := Fallible.bind_eq_ok.mp hd
    cases b with
    | true =>
      obtain rfl := Option.some.inj (Fallible.pure_eq_ok.mp hd)
      exact ⟨Nat.lt_succ_self _, hb⟩
    | false =>
      obtain ⟨hlt, hs⟩ := ih hd
      exact ⟨Nat.lt_succ_of_lt hlt, hs⟩

theorem probeUp_some {n i j : Nat} (hu : h.probeUp key probe n i = .ok (some j)) :
    j < n ∧ h.same key (probe j) = .ok true := by
  induction i using probeUp.induct (n := n) with
  | case1 i hi ih =>
    unfold probeUp at hu
    rw [if_pos hi] at hu
    obtain ⟨o, -, hu⟩ := Fallible.bind_eq_ok.mp hu
    split at hu
    · cases hu
    obtain ⟨b, hb, hu⟩ := Fallible.bind_eq_ok.mp hu
    cases b with
    | true =>
      obtain rfl := Option.some.inj (Fallible.pure_eq_ok.mp hu)
      exact ⟨hi, hb⟩
    | false => exact ih hu
  | case2 i hi =>
    unfold probeUp at hu
    rw [if_neg hi] at hu
    cases hu

/-- Where the run of equals has the key, it is the same. -/
theorem probeRun_at {n mid i : Nat} (hmid : mid < n)
    (hr : h.probeRun key probe n mid = .ok (.at i)) : i < n ∧ h.same key (probe i) = .ok true := by
  unfold probeRun at hr
  obtain ⟨b, hb, hr⟩ := Fallible.bind_eq_ok.mp hr
  cases b with
  | true =>
    obtain rfl := Found.at.inj (Fallible.pure_eq_ok.mp hr)
    exact ⟨hmid, hb⟩
  | false =>
    obtain ⟨down, hd, hr⟩ := Fallible.bind_eq_ok.mp hr
    cases down with
    | some j =>
      obtain rfl := Found.at.inj (Fallible.pure_eq_ok.mp hr)
      obtain ⟨hlt, hs⟩ := probeDown_some hd
      exact ⟨by omega, hs⟩
    | none =>
      obtain ⟨up, hu, hr⟩ := Fallible.bind_eq_ok.mp hr
      cases up with
      | some j =>
        obtain rfl := Found.at.inj (Fallible.pure_eq_ok.mp hr)
        exact probeUp_some hu
      | none => cases Fallible.pure_eq_ok.mp hr

/-! ## Binary search -/

/-- A search that ends with an index ends with one of the same key. -/
theorem bisect_at {n lo hi i : Nat} (hn : hi ≤ n)
    (hb : h.bisect key probe n lo hi = .ok (.at i)) : i < n ∧ h.same key (probe i) = .ok true := by
  induction lo, hi using bisect.induct with
  | case1 lo hi hlt mid ihlt ihgt =>
    unfold bisect at hb
    rw [if_pos hlt] at hb
    obtain ⟨o, -, hb⟩ := Fallible.bind_eq_ok.mp hb
    have hmid : mid < n := by omega
    cases o with
    | lt => exact ihlt (by omega) hb
    | gt => exact ihgt hn hb
    | eq => exact probeRun_at hmid hb
  | case2 lo hi hlt =>
    unfold bisect at hb
    rw [if_neg hlt] at hb
    cases hb

/-- A hit is an index of the sequence, and its key is the same. -/
theorem findSorted_at {elements : Array Value} {stride i : Nat}
    (hf : h.findSorted elements stride key = .ok (.at i)) :
    i < elements.size / stride ∧ h.same key (elements.getD (i * stride) .nil) = .ok true :=
  bisect_at (Nat.le_refl _) hf

end PlaneStore.Heap
