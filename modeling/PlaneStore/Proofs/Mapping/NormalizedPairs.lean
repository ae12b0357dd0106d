import PlaneStore.Proofs.Mapping.SelectedTables

/-!
# Pairs in any order

Pairs that are brought into the form of a mapping all at once leave what writing them one after the
other would. The sort is stable and the pairs are reversed before it, so among pairs of one key the
last comes first. Keys that order as equal may be different, and then their pairs interleave; only
the first pair of each counts, be its value nil or not.
-/

namespace PlaneStore

namespace Heap

variable {h : Heap} {ps qs : List Pair} {run : List Value} {k : Identity}

/-! ## Writing pairs in turn -/

/--
What a mapping holds under a key after one more pair was written; a nil value deletes the key.
-/
def overwrite (h : Heap) (M : Identity → Option Value) (p : Pair) : Identity → Option Value :=
  if p.1.isNil then M
  else Function.update M (h.identity p.1) (if p.2.isNil then none else some p.2)

/-- What an empty mapping holds after pairs were written one after the other. -/
def writes (h : Heap) (ps : List Pair) : Identity → Option Value :=
  ps.foldl h.overwrite fun _ => none

/-- The value of the first pair of a key, unless that is nil. -/
def first (h : Heap) (ps : List Pair) (k : Identity) : Option Value :=
  ((ps.find? fun p => !p.1.isNil && h.identity p.1 = k).map Prod.snd).filter (!·.isNil)

theorem first_cons (p : Pair) : h.first (p :: ps) k =
    if p.1.isNil = false ∧ h.identity p.1 = k then (some p.2).filter (!·.isNil)
    else h.first ps k := by
  unfold first
  rw [List.find?_cons]
  cases hn : p.1.isNil <;> by_cases hk : h.identity p.1 = k <;> simp [hk]

/-- The last pair of a key counts. -/
theorem writes_eq_first (h : Heap) (ps : List Pair) : h.writes ps = h.first ps.reverse := by
  have hfoldr : ∀ qs : List Pair, qs.foldr (fun p M => h.overwrite M p) (fun _ => none) =
      h.first qs := by
    intro qs
    induction qs with
    | nil => rfl
    | cons p qs ih =>
      funext k
      rw [List.foldr_cons, ih, first_cons, overwrite]
      cases hn : p.1.isNil with
      | true => simp
      | false =>
        by_cases hk : h.identity p.1 = k
        · subst hk
          cases hv : p.2.isNil <;> simp [Option.filter, hv]
        · simp [hk, Function.update_of_ne (Ne.symm hk)]
  unfold writes
  rw [List.foldl_eq_foldr_reverse, hfoldr]

theorem first_eq_none (hk : ∀ p ∈ ps, h.identity p.1 ≠ k) : h.first ps k = none := by
  unfold first
  rw [List.find?_eq_none.mpr fun p hp => by simp [hk p hp]]
  rfl

/-! ## Stable sorting -/

/-- A stable sort leaves the first of several elements in front that may stand in any order. -/
theorem find?_mergeSort {α : Type} {le : α → α → Bool} {test : α → Bool} {xs : List α}
    (htrans : ∀ a b c, le a b = true → le b c = true → le a c = true)
    (htotal : ∀ a b, (le a b || le b a) = true)
    (htest : ∀ a b, test a = true → test b = true → le a b = true) :
    (xs.mergeSort le).find? test = xs.find? test := by
  have hpairwise : (xs.filter test).Pairwise fun a b => le a b = true :=
    List.pairwise_of_forall_mem_list fun a ha b hb =>
      htest a b (List.mem_filter.mp ha).2 (List.mem_filter.mp hb).2
  have hsub := (List.sublist_mergeSort htrans htotal hpairwise List.filter_sublist).filter test
  rw [List.filter_filter] at hsub
  simp only [Bool.and_self] at hsub
  have heq := hsub.eq_of_length (((List.mergeSort_perm xs le).filter test).length_eq.symm)
  rw [← List.head?_filter, ← List.head?_filter, heq]

/-! ## What is found among first pairs -/

/-- The keys of the run are taken; under any other key the first pair of it is found. -/
theorem find_firstOfEach (hr : h.Run run ps)
    (hsorted : (ps.map Prod.fst).Pairwise fun a b => h.le a b = true)
    (hf : h.firstOfEach run ps = .ok qs) :
    h.find qs k = if ∃ a ∈ run, h.identity a = k then none else h.first ps k := by
  induction ps generalizing run qs with
  | nil =>
    obtain rfl := Fallible.pure_eq_ok.mp hf
    exact (ite_self none).symm
  | cons p ps ih =>
    obtain ⟨key, value⟩ := p
    rw [List.map_cons, List.pairwise_cons] at hsorted
    rw [first_cons]
    rcases firstOfEach_cons hr (fun p hp => hsorted.1 _ (List.mem_map_of_mem hp)) hf with
      ⟨rfl, hf⟩ | ⟨hsolid, run', hrun', hsub, hstays, hcase⟩
    · rw [ih hr.tail hsorted.2 hf]
      simp [Value.isNil]
    have hnil : key.isNil = false := Bool.eq_false_iff.mpr fun hn => hsolid (Value.isNil_iff.mp hn)
    have hrest : (if ∃ a ∈ run', h.identity a = k then none else h.first ps k) =
        if ∃ a ∈ run, h.identity a = k then none else h.first ps k := by
      by_cases hk : ∃ a ∈ run, h.identity a = k
      · rw [if_pos hk]
        split
        · rfl
        · next hk' =>
          obtain ⟨a, ha, hak⟩ := hk
          refine first_eq_none fun p hp hpk => hk' ?_
          obtain ⟨b, hb, hid⟩ := hstays p hp a ha (hpk.trans hak.symm)
          exact ⟨b, hb, hid.symm.trans hpk⟩
      · have hk' : ¬∃ a ∈ run', h.identity a = k := by
          rintro ⟨a, ha, hak⟩
          exact hk ⟨a, hsub a ha, hak⟩
        rw [if_neg hk, if_neg hk']
    rcases hcase with ⟨⟨a, ha, hid⟩, hf⟩ | ⟨hnew, hrunKey, kept, hkept, rfl⟩
    · rw [ih hrun' hsorted.2 hf, hrest]
      by_cases hk : ∃ a ∈ run, h.identity a = k
      · rw [if_pos hk, if_pos hk]
      · rw [if_neg hk, if_neg hk, if_neg fun hkey => hk ⟨a, ha, hid.trans hkey.2⟩]
    · have hfind := ih hrunKey hsorted.2 hkept
      by_cases hkey : h.identity key = k
      · subst hkey
        have htaken : ∃ a ∈ key :: run', h.identity a = h.identity key :=
          ⟨key, List.mem_cons_self, rfl⟩
        have hfree : ¬∃ a ∈ run, h.identity a = h.identity key := by
          rintro ⟨a, ha, hid⟩
          exact hnew a ha hid
        rw [if_pos htaken] at hfind
        rw [if_neg hfree, if_pos (And.intro hnil rfl)]
        cases hv : value.isNil with
        | true => simp [hfind, Option.filter, hv]
        | false => simp [find_cons, Option.filter, hv]
      · have hcons : (∃ a ∈ key :: run', h.identity a = k) ↔ ∃ a ∈ run', h.identity a = k := by
          simp [hkey]
        rw [if_congr hcons rfl rfl, hrest] at hfind
        rw [if_congr (and_iff_right hnil) rfl rfl, if_neg hkey, ← hfind]
        split
        · rfl
        · rw [find_cons, if_neg hkey]

/-- Pairs brought into the form of a mapping leave what writing them in turn would. -/
theorem find_normalizePairs (hn : h.normalizePairs ps = .ok qs) (k : Identity) :
    h.find qs k = h.writes ps k := by
  obtain ⟨_, -, hn⟩ := Fallible.bind_eq_ok.mp hn
  have hempty : ¬∃ a ∈ ([] : List Value), h.identity a = k := by simp
  rw [find_firstOfEach .nil (h.pairwise_keys _) hn, if_neg hempty, writes_eq_first]
  unfold first
  rw [find?_mergeSort]
  · exact fun _ _ _ => le_trans
  · exact fun p q => h.le_total p.1 q.1
  · intro p q hp hq
    obtain ⟨-, hp⟩ := Bool.and_eq_true_iff.mp hp
    obtain ⟨-, hq⟩ := Bool.and_eq_true_iff.mp hq
    have heq := order_eq_of_identity ((of_decide_eq_true hp).trans (of_decide_eq_true hq).symm)
    unfold le
    rw [heq]
    rfl

end Heap

end PlaneStore
