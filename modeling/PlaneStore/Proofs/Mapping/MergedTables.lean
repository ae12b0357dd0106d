import PlaneStore.Proofs.Overlay.PendingWrites

/-!
# Tables out of tables

Merging an overlay into sorted pairs gives a table of what the two held together. So does bringing
pairs in any order into the form of a mapping, of which the last pair of every key counts.
-/

namespace PlaneStore

open Heap

namespace Mapping

variable {h : Heap} {id : ContainerId} {k : Identity}

/-- Entries of an overlay as pairs. -/
def pairsOf (es : List OverlayEntry) : List Pair := es.map fun e => (e.key, e.value)

theorem pairsOf_cons (e : OverlayEntry) (es : List OverlayEntry) :
    pairsOf (e :: es) = (e.key, e.value) :: pairsOf es := rfl

/-- The sorted pairs of a merge in progress are a table, and the pairs to be added go with it. -/
structure Merge.Ready (h : Heap) (m : Merge) (es : List OverlayEntry) : Prop where
  table : h.Table (Pair.ofBuffer m.values)
  distinct : h.Distinct (m.added ++ pairsOf es)
  solid : ∀ p ∈ m.added ++ pairsOf es, p.1 ≠ .nil ∧ p.2 ≠ .nil
  fresh : ∀ p ∈ m.added, h.find (Pair.ofBuffer m.values) (h.identity p.1) = none
  added : ∀ e ∈ es, e.added = true ↔ h.find (Pair.ofBuffer m.values) (h.identity e.key) = none

/-- A mapping and what is pending for it are ready to be merged. -/
theorem Merge.Ready.start {overlay : Overlay} {values : Array Value}
    (ht : h.Table (Pair.ofBuffer values)) (hp : h.Pending (Pair.ofBuffer values) overlay) :
    Merge.Ready h { values } overlay.toList where
  table := ht
  distinct := hp.distinct_pairs
  solid p hmem := by
    obtain ⟨i, e, hi, rfl⟩ := Overlay.mem_pairs.mp hmem
    exact hp.solid hi
  fresh p hmem := absurd hmem List.not_mem_nil
  added e he := by
    obtain ⟨i, hi⟩ := Slab.mem_toList.mp he
    exact hp.added hi

/-- One pending write is taken in, and what is found under any key stays the same. -/
theorem Merge.Ready.step {m m' : Merge} {e : OverlayEntry} {es : List OverlayEntry}
    (hr : Merge.Ready h m (e :: es)) (hs : Merge.step h id m e = .ok m') :
    Merge.Ready h m' es ∧ ∀ k, h.find (m'.added ++ (pairsOf es ++ Pair.ofBuffer m'.values)) k =
      h.find (m.added ++ (pairsOf (e :: es) ++ Pair.ofBuffer m.values)) k := by
  obtain ⟨ht, hd, hv, hfresh, hadded⟩ := hr
  rw [pairsOf_cons] at hd hv
  rcases Merge.step_eq_ok hs with ⟨ha, rfl⟩ | ⟨i, -, hf, rfl⟩
  · have hmove : m.added ++ [(e.key, e.value)] ++ pairsOf es =
        m.added ++ (e.key, e.value) :: pairsOf es := by simp
    refine ⟨⟨ht, by rw [hmove]; exact hd, by rw [hmove]; exact hv, fun p hp => ?_,
      fun e' he' => hadded e' (List.mem_cons_of_mem _ he')⟩, fun k => ?_⟩
    · rcases List.mem_append.mp hp with hp | hp
      · exact hfresh p hp
      · rw [List.mem_singleton.mp hp]
        exact (hadded e List.mem_cons_self).mp ha
    · rw [pairsOf_cons, ← List.append_assoc, hmove, List.cons_append, List.append_assoc,
        List.cons_append]
  · obtain ⟨hlt, hid, hfound⟩ := ht.find_of_at hf
    have hvalue : e.value ≠ .nil := (hv (e.key, e.value) (by simp)).2
    have hpair := Pair.getElem?_ofBuffer hlt
    have hset : ∀ k, h.find (Pair.ofBuffer (m.values.setIfInBounds (2 * i + 1) e.value)) k =
        if h.identity e.key = k then some e.value else h.find (Pair.ofBuffer m.values) k := by
      intro k
      rw [Pair.ofBuffer_set hlt, find_set ht.distinct hpair]
      simp only [hid]
    have hnone : ∀ k, h.find (Pair.ofBuffer (m.values.setIfInBounds (2 * i + 1) e.value)) k =
        none ↔ h.find (Pair.ofBuffer m.values) k = none := by
      intro k
      rw [hset]
      split
      · next hk => simp [← hk, hfound]
      · exact Iff.rfl
    have hrest : (m.added ++ pairsOf es).Sublist (m.added ++ (e.key, e.value) :: pairsOf es) :=
      (List.Sublist.refl _).append (List.sublist_cons_self _ _)
    refine ⟨⟨?_, hd.sublist (hrest.map _), fun p hp => hv p (hrest.subset hp), fun p hp => ?_,
      fun e' he' => ?_⟩, fun k => ?_⟩
    · show h.Table (Pair.ofBuffer (m.values.setIfInBounds (2 * i + 1) e.value))
      rw [Pair.ofBuffer_set hlt]
      exact ht.set hpair hvalue
    · exact (hnone _).mpr (hfresh p hp)
    · exact (hadded e' (List.mem_cons_of_mem _ he')).trans (hnone _).symm
    · show h.find (m.added ++ (pairsOf es ++
        Pair.ofBuffer (m.values.setIfInBounds (2 * i + 1) e.value))) k = _
      rw [find_append, find_append, hset, pairsOf_cons, find_append, List.cons_append, find_cons,
        find_append]
      by_cases hk : h.identity e.key = k
      · have hothers : h.find (pairsOf es) k = none := by
          refine find_eq_none.mpr fun p hp hpk => ?_
          exact (distinct_cons.mp (hd.sublist ((List.sublist_append_right ..).map _))).1 p hp
            (hpk.trans hk.symm)
        simp only [hk, if_true, hothers, Option.none_or]
      · simp only [hk, if_false]

/-- All pending writes are taken in, and what is found under any key stays the same. -/
theorem Merge.Ready.foldlM {m m' : Merge} {es : List OverlayEntry} (hr : Merge.Ready h m es)
    (hs : es.foldlM (Merge.step h id) m = .ok m') :
    Merge.Ready h m' [] ∧ ∀ k, h.find (m'.added ++ Pair.ofBuffer m'.values) k =
      h.find (m.added ++ (pairsOf es ++ Pair.ofBuffer m.values)) k := by
  induction es generalizing m with
  | nil =>
    obtain rfl := Fallible.pure_eq_ok.mp hs
    exact ⟨hr, fun k => rfl⟩
  | cons e es ih =>
    rw [List.foldlM_cons] at hs
    obtain ⟨m₁, h₁, hs⟩ := Fallible.bind_eq_ok.mp hs
    obtain ⟨hr₁, hfind₁⟩ := hr.step h₁
    obtain ⟨hr', hfind⟩ := ih hr₁ hs
    exact ⟨hr', fun k => (hfind k).trans (hfind₁ k)⟩

/-- A merge makes a table that holds what sorted pairs and overlay held together. -/
theorem table_merged {overlay : Overlay} {values values' : Array Value} {released : List Value}
    (ht : h.Table (Pair.ofBuffer values)) (hp : h.Pending (Pair.ofBuffer values) overlay)
    (hm : merged h id overlay values = .ok (values', released)) :
    h.Table (Pair.ofBuffer values') ∧
      ∀ k, h.find (Pair.ofBuffer values') k =
        h.find (overlay.pairs ++ Pair.ofBuffer values) k := by
  obtain ⟨m, sorted, pairs, hfold, hsort, hpairs, rfl, rfl⟩ := merged_eq_ok hm
  obtain ⟨⟨ht', hd, hv, hfresh, -⟩, hfind⟩ := (Merge.Ready.start ht hp).foldlM hfold
  rw [show pairsOf [] = [] from rfl, List.append_nil] at hd hv
  have hsorted : h.Table sorted := Table.of_sortPairs hd hv hsort
  -- The result is what was added together with what was there; sorting and merging only reorder.
  have hperm : pairs.Perm (m.added ++ Pair.ofBuffer m.values) :=
    (mergePairs_perm hpairs).trans
      (List.perm_append_comm.trans ((sortOn_perm hsort).append_right _))
  have hdistinct : h.Distinct (m.added ++ Pair.ofBuffer m.values) := by
    unfold Distinct
    rw [List.map_append]
    refine List.nodup_append.mpr ⟨hd, ht'.distinct, fun a ha b hb hab => ?_⟩
    obtain ⟨p, hp, rfl⟩ := List.mem_map.mp ha
    obtain ⟨q, hq, rfl⟩ := List.mem_map.mp hb
    exact find_eq_none.mp (hfresh p hp) q hq hab.symm
  rw [Pair.ofBuffer_toBuffer]
  refine ⟨⟨?_, hdistinct.perm hperm, fun p hp => ?_⟩, fun k => ?_⟩
  · exact List.pairwise_map.mpr (mergePairs_sorted (List.pairwise_map.mp ht'.sorted)
      (List.pairwise_map.mp hsorted.sorted) hpairs)
  · rcases List.mem_append.mp (hperm.mem_iff.mp hp) with hp | hp
    · exact hv p hp
    · exact ht'.solid p hp
  · rw [find_perm hdistinct hperm, hfind]
    rfl

end Mapping

end PlaneStore
