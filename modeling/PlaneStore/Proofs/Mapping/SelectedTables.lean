import PlaneStore.Proofs.Mapping.PairTables

/-!
# Tables from tables

A selection of the pairs of a table is a table, and so is what overriding one by another or writing
pairs in turn to an empty mapping leaves.
-/

namespace PlaneStore

namespace Heap

variable {h : Heap} {ps qs : List Pair}

/-! ## Selections -/

/-- A filter that did not fail kept elements in order, those that passed the test. -/
theorem filterM_eq_ok {α : Type} {test : α → Except Fault Bool} {xs ys : List α}
    (hf : xs.filterM test = .ok ys) : ys.Sublist xs ∧ ∀ y ∈ ys, test y = .ok true := by
  -- The accumulator holds what was taken so far, in reverse.
  have haux : ∀ (xs acc : List α) {zs : List α}, xs.filterAuxM test acc = .ok zs →
      ∃ ys : List α, zs = ys.reverse ++ acc ∧ ys.Sublist xs ∧ ∀ y ∈ ys, test y = .ok true := by
    intro xs
    induction xs with
    | nil =>
      intro acc zs hz
      obtain rfl := Fallible.pure_eq_ok.mp hz
      exact ⟨[], rfl, .slnil, fun y hy => absurd hy List.not_mem_nil⟩
    | cons x xs ih =>
      intro acc zs hz
      obtain ⟨b, hb, hz⟩ := Fallible.bind_eq_ok.mp hz
      obtain ⟨ys, rfl, hsub, htest⟩ := ih _ hz
      cases b with
      | false => exact ⟨ys, rfl, hsub.cons x, htest⟩
      | true =>
        refine ⟨x :: ys, by simp, hsub.cons_cons x, fun y hy => ?_⟩
        rcases List.mem_cons.mp hy with rfl | hy
        · exact hb
        · exact htest y hy
  obtain ⟨zs, hz, hf⟩ := Fallible.bind_eq_ok.mp hf
  obtain ⟨ys', rfl, hsub, htest⟩ := haux xs [] hz
  obtain rfl := Fallible.pure_eq_ok.mp hf
  rw [List.append_nil, List.reverse_reverse]
  exact ⟨hsub, htest⟩

theorem Table.flatten (ht : h.Table ps) :
    (Pair.flatten ps).length % 2 = 0 ∧ h.Table (Pair.ofFlat (Pair.flatten ps)) := by
  rw [Pair.length_flatten, Pair.ofFlat_flatten]
  exact ⟨Nat.mul_mod_right 2 _, ht⟩

/-! ## Overriding -/

/-- The pairs of one table whose keys another one lacks, and those of the other. -/
theorem distinct_override {left right : Array Value} {rest : List Pair}
    (hl : h.Table (Pair.ofBuffer left)) (hr : h.Table (Pair.ofBuffer right))
    (hf : (Pair.ofBuffer left).filterM
      (fun p => do return !(← h.findSorted right 2 p.1).isHit) = .ok rest) :
    h.Distinct (rest ++ Pair.ofBuffer right) := by
  obtain ⟨hsub, htest⟩ := filterM_eq_ok hf
  unfold Distinct
  rw [List.map_append, List.nodup_append]
  refine ⟨hl.distinct.sublist (hsub.map _), hr.distinct, fun x hx y hy hxy => ?_⟩
  obtain ⟨p, hp, rfl⟩ := List.mem_map.mp hx
  obtain ⟨p', hp', rfl⟩ := List.mem_map.mp hy
  obtain ⟨found, hfound, hmiss⟩ := Fallible.bind_eq_ok.mp (htest p hp)
  cases found with
  | «at» i => cases Fallible.pure_eq_ok.mp hmiss
  | absent i => exact find_eq_none.mp (hr.find_of_absent hfound) p' hp' hxy.symm

/-- The pairs of the right table, and those of the left whose keys it lacks, make a table. -/
theorem table_override {left right : Array Value} {rest merged : List Pair}
    (hl : h.Table (Pair.ofBuffer left)) (hr : h.Table (Pair.ofBuffer right))
    (hf : (Pair.ofBuffer left).filterM
      (fun p => do return !(← h.findSorted right 2 p.1).isHit) = .ok rest)
    (hs : h.sortPairs (rest ++ Pair.ofBuffer right) = .ok merged) : h.Table merged := by
  refine .of_sortPairs (distinct_override hl hr hf) (fun p hp => ?_) hs
  rcases List.mem_append.mp hp with hp | hp
  · exact hl.solid p ((filterM_eq_ok hf).1.subset hp)
  · exact hr.solid p hp

/-! ## Pairs in any order -/

/-- Keys of a run: they order as equal, and no key that comes next is below them. -/
structure Run (h : Heap) (run : List Value) (ps : List Pair) : Prop where
  equal : ∀ a ∈ run, ∀ b ∈ run, h.order a b = .eq
  below : ∀ a ∈ run, ∀ p ∈ ps, h.le a p.1 = true

theorem order_eq_of_le {a b : Value} (hab : h.le a b = true) (hba : h.le b a = true) :
    h.order a b = .eq := by
  have hswap : h.order b a = (h.order a b).swap := Std.OrientedCmp.eq_swap
  unfold le at hab hba
  rw [hswap] at hba
  cases ho : h.order a b with
  | eq => rfl
  | lt =>
    rw [ho] at hba
    cases hba
  | gt =>
    rw [ho] at hab
    cases hab

/-- The run goes on with a key that is equal to it in the order, or starts over behind it. -/
theorem Run.continue {run run' : List Value} {key value : Value} {rest : List Pair}
    (hr : h.Run run ((key, value) :: rest))
    (hsorted : ∀ p ∈ rest, h.le key p.1 = true)
    (hc : h.continueRun run key = .ok run') :
    (∀ a ∈ run', h.order a key = .eq) ∧ h.Run run' rest ∧ run'.Sublist run ∧
      ∀ a ∈ run, a ∉ run' → ∀ p ∈ (key, value) :: rest, h.identity p.1 ≠ h.identity a := by
  have hrest : h.Run run rest :=
    ⟨hr.equal, fun a ha p hp => hr.below a ha p (List.mem_cons_of_mem _ hp)⟩
  cases run with
  | nil =>
    obtain rfl := Fallible.pure_eq_ok.mp hc
    exact ⟨fun a ha => absurd ha List.not_mem_nil, hrest, .slnil,
      fun a ha => absurd ha List.not_mem_nil⟩
  | cons last run =>
    obtain ⟨o, ho, hc⟩ := Fallible.bind_eq_ok.mp hc
    obtain ⟨-, rfl⟩ := compare_eq_ok.mp ho
    by_cases heq : h.order last key = .eq
    · rw [if_pos heq] at hc
      obtain rfl := Fallible.pure_eq_ok.mp hc
      refine ⟨fun a ha => ?_, hrest, List.Sublist.refl _, fun a ha hn => absurd ha hn⟩
      exact Std.TransCmp.eq_trans (hr.equal a ha last List.mem_cons_self) heq
    · rw [if_neg heq] at hc
      obtain rfl := Fallible.pure_eq_ok.mp hc
      refine ⟨fun a ha => absurd ha List.not_mem_nil, ⟨fun a ha => absurd ha List.not_mem_nil,
        fun a ha => absurd ha List.not_mem_nil⟩, List.nil_sublist _, fun a ha _ p hp hid => ?_⟩
      have hlp : h.order last p.1 = .eq :=
        Std.TransCmp.eq_trans (Std.OrientedCmp.eq_symm (hr.equal a ha last List.mem_cons_self))
          (order_eq_of_identity hid.symm)
      rcases List.mem_cons.mp hp with rfl | hp
      · exact heq hlp
      · have hpl : h.le p.1 last = true := by
          unfold le
          rw [Std.OrientedCmp.eq_symm hlp]
          rfl
        have hkl : h.le key last = true := le_trans (hsorted p hp) hpl
        have hlk := hr.below last List.mem_cons_self (key, value) List.mem_cons_self
        exact heq (order_eq_of_le hlk hkl)

/-- Whether a run has a key. -/
theorem anyM_same_eq_ok {run : List Value} {key : Value} {b : Bool}
    (ha : run.anyM (h.same · key) = .ok b) :
    b = true ↔ ∃ a ∈ run, h.identity a = h.identity key := by
  induction run with
  | nil =>
    obtain rfl := Fallible.pure_eq_ok.mp ha
    simp
  | cons x run ih =>
    obtain ⟨found, hx, ha⟩ := Fallible.bind_eq_ok.mp ha
    rw [same_eq_ok hx] at ha
    by_cases hid : h.identity x = h.identity key
    · rw [decide_eq_true hid] at ha
      obtain rfl := Fallible.pure_eq_ok.mp ha
      simp [hid]
    · rw [decide_eq_false hid] at ha
      simp [ih ha, hid]

theorem Run.nil : h.Run [] ps :=
  ⟨fun _ ha => absurd ha List.not_mem_nil, fun _ ha => absurd ha List.not_mem_nil⟩

theorem Run.tail {run : List Value} {p : Pair} (hr : h.Run run (p :: ps)) : h.Run run ps :=
  ⟨hr.equal, fun a ha q hq => hr.below a ha q (List.mem_cons_of_mem _ hq)⟩

/-- A key joins a run of keys that order as it does. -/
theorem Run.cons {run : List Value} {key : Value} (hr : h.Run run ps)
    (hkey : ∀ a ∈ run, h.order a key = .eq) (hbelow : ∀ p ∈ ps, h.le key p.1 = true) :
    h.Run (key :: run) ps where
  equal a ha b hb := by
    rcases List.mem_cons.mp ha with rfl | ha'
    · rcases List.mem_cons.mp hb with rfl | hb'
      · exact Std.ReflCmp.compare_self
      · exact Std.OrientedCmp.eq_symm (hkey b hb')
    · rcases List.mem_cons.mp hb with rfl | hb'
      · exact hkey a ha'
      · exact hr.equal a ha' b hb'
  below a ha p hp := by
    rcases List.mem_cons.mp ha with rfl | ha
    · exact hbelow p hp
    · exact hr.below a ha p hp

/--
What happens to the pair in front. Keys that leave the run do not come again, so it does not matter
that they are forgotten.
-/
theorem firstOfEach_cons {run : List Value} {key value : Value} {rest : List Pair}
    (hr : h.Run run ((key, value) :: rest)) (hbelow : ∀ p ∈ rest, h.le key p.1 = true)
    (hf : h.firstOfEach run ((key, value) :: rest) = .ok qs) :
    key = .nil ∧ h.firstOfEach run rest = .ok qs ∨
    key ≠ .nil ∧ ∃ run', h.Run run' rest ∧ (∀ a ∈ run', a ∈ run) ∧
      (∀ p ∈ rest, ∀ a ∈ run, h.identity p.1 = h.identity a →
        ∃ b ∈ run', h.identity p.1 = h.identity b) ∧
      ((∃ a ∈ run, h.identity a = h.identity key) ∧ h.firstOfEach run' rest = .ok qs ∨
        (∀ a ∈ run, h.identity a ≠ h.identity key) ∧ h.Run (key :: run') rest ∧
          ∃ kept, h.firstOfEach (key :: run') rest = .ok kept ∧
            qs = if value.isNil then kept else (key, value) :: kept) := by
  unfold firstOfEach at hf
  split at hf
  · next hnil => exact .inl ⟨Value.isNil_iff.mp hnil, hf⟩
  next hsolid =>
  obtain ⟨run', hcont, hf⟩ := Fallible.bind_eq_ok.mp hf
  obtain ⟨hkey, hrun', hsub, hgone⟩ := hr.continue hbelow hcont
  -- What the run loses is below all keys to come, so no later key can equal it.
  have hstays : ∀ p ∈ (key, value) :: rest, ∀ a ∈ run, h.identity p.1 = h.identity a →
      ∃ b ∈ run', h.identity p.1 = h.identity b := by
    intro p hp a ha hid
    by_cases hmem : a ∈ run'
    · exact ⟨a, hmem, hid⟩
    · exact absurd hid (hgone a ha hmem p hp)
  obtain ⟨b, hb, hf⟩ := Fallible.bind_eq_ok.mp hf
  have hiff := anyM_same_eq_ok hb
  refine .inr ⟨fun hn => hsolid (Value.isNil_iff.mpr hn), run', hrun', hsub.subset,
    fun p hp => hstays p (List.mem_cons_of_mem _ hp), ?_⟩
  cases b with
  | true =>
    obtain ⟨a, ha, hid⟩ := hiff.mp rfl
    exact .inl ⟨⟨a, hsub.subset ha, hid⟩, hf⟩
  | false =>
    obtain ⟨kept, hkept, hf⟩ := Fallible.bind_eq_ok.mp hf
    refine .inr ⟨fun a ha hid => ?_, hrun'.cons hkey hbelow, kept, hkept,
      (Fallible.pure_eq_ok.mp hf).symm⟩
    obtain ⟨b, hb, hid'⟩ := hstays _ List.mem_cons_self a ha hid.symm
    cases hiff.mpr ⟨b, hb, hid'.symm⟩

/-- The first pairs of each key, of those that are not in the run already, form a table. -/
theorem table_firstOfEach {run : List Value} (hr : h.Run run ps)
    (hsorted : (ps.map Prod.fst).Pairwise fun a b => h.le a b = true)
    (hf : h.firstOfEach run ps = .ok qs) :
    h.Table qs ∧ qs.Sublist ps ∧ ∀ p ∈ qs, ∀ a ∈ run, h.identity p.1 ≠ h.identity a := by
  induction ps generalizing run qs with
  | nil =>
    obtain rfl := Fallible.pure_eq_ok.mp hf
    exact ⟨.nil, .slnil, fun p hp => absurd hp List.not_mem_nil⟩
  | cons p ps ih =>
    obtain ⟨key, value⟩ := p
    rw [List.map_cons, List.pairwise_cons] at hsorted
    rcases firstOfEach_cons hr (fun p hp => hsorted.1 _ (List.mem_map_of_mem hp)) hf with
      ⟨-, hf⟩ | ⟨hsolid, run', hrun', -, hstays, ⟨-, hf⟩ | ⟨hnew, hrunKey, kept, hkept, rfl⟩⟩
    · obtain ⟨ht, hsub, hapart⟩ := ih hr.tail hsorted.2 hf
      exact ⟨ht, hsub.cons _, hapart⟩
    · obtain ⟨ht, hsub, hapart⟩ := ih hrun' hsorted.2 hf
      refine ⟨ht, hsub.cons _, fun p hp a ha hid => ?_⟩
      obtain ⟨b, hb, hid'⟩ := hstays p (hsub.subset hp) a ha hid
      exact hapart p hp b hb hid'
    · obtain ⟨ht, hsub, hapart⟩ := ih hrunKey hsorted.2 hkept
      have hapart' : ∀ p ∈ kept, ∀ a ∈ run, h.identity p.1 ≠ h.identity a := by
        intro p hp a ha hid
        obtain ⟨b, hb, hid'⟩ := hstays p (hsub.subset hp) a ha hid
        exact hapart p hp b (List.mem_cons_of_mem _ hb) hid'
      split
      · exact ⟨ht, hsub.cons _, hapart'⟩
      · next hvalue =>
        refine ⟨⟨?_, ?_, ?_⟩, hsub.cons_cons _, ?_⟩
        · rw [List.map_cons, List.pairwise_cons]
          exact ⟨fun a ha => hsorted.1 a ((hsub.map _).subset ha), ht.sorted⟩
        · rw [distinct_cons]
          exact ⟨fun q hq => hapart q hq key List.mem_cons_self, ht.distinct⟩
        · intro p hp
          rcases List.mem_cons.mp hp with rfl | hp
          · exact ⟨hsolid, fun hn => hvalue (Value.isNil_iff.mpr hn)⟩
          · exact ht.solid p hp
        · intro p hp a ha
          rcases List.mem_cons.mp hp with rfl | hp
          · exact (hnew a ha).symm
          · exact hapart' p hp a ha

/-- The keys of pairs that are sorted by key. -/
theorem pairwise_keys (h : Heap) (ps : List Pair) :
    ((ps.mergeSort fun p q => h.le p.1 q.1).map Prod.fst).Pairwise fun a b => h.le a b = true := by
  refine List.pairwise_map.mpr (List.pairwise_mergeSort ?_ ?_ _)
  · exact fun _ _ _ => le_trans
  · exact fun p q => h.le_total p.1 q.1

/-- Writing pairs in turn to an empty mapping leaves a table. -/
theorem table_normalizePairs (hn : h.normalizePairs ps = .ok qs) :
    h.Table qs ∧ qs.length ≤ ps.length ∧ ∀ p ∈ qs, p ∈ ps := by
  obtain ⟨_, -, hn⟩ := Fallible.bind_eq_ok.mp hn
  obtain ⟨ht, hsub, -⟩ := table_firstOfEach .nil (h.pairwise_keys _) hn
  refine ⟨ht, ?_, fun p hp => ?_⟩
  · have hlength := hsub.length_le
    rwa [List.length_mergeSort, List.length_reverse] at hlength
  have hmem := hsub.subset hp
  rwa [List.mem_mergeSort, List.mem_reverse] at hmem

end Heap

end PlaneStore
