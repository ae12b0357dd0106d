import PlaneStore.Proofs.Mapping.MergedTables
import PlaneStore.Proofs.Mapping.KeyLocation
import PlaneStore.Proofs.Mapping.SelectedTables

/-!
# No faults: comparing

Comparing, searching, sorting and merging look only at the slots that values refer to, and at
entries that an overlay has. So they do not fail if those slots are in use and the overlay goes with
its sorted pairs.
-/

namespace PlaneStore

/-! ## Computations that do not fail -/

/-- The computation does not end in a fault. -/
def Faultless {α : Type} (x : Except Fault α) : Prop := ∃ a, x = .ok a

namespace Faultless

variable {α β : Type}

theorem pure (a : α) : Faultless (Pure.pure a) := ⟨a, rfl⟩

theorem bind {x : Except Fault α} {f : α → Except Fault β} (hx : Faultless x)
    (hf : ∀ a, x = .ok a → Faultless (f a)) : Faultless (x >>= f) := by
  obtain ⟨a, ha⟩ := hx
  obtain ⟨b, hb⟩ := hf a ha
  exact ⟨b, Fallible.bind_eq_ok.mpr ⟨a, ha, hb⟩⟩

theorem forM {f : α → Except Fault PUnit} {xs : List α} (hf : ∀ x ∈ xs, Faultless (f x)) :
    Faultless (xs.forM f) := by
  induction xs with
  | nil => exact pure _
  | cons x xs ih =>
    obtain ⟨hx, hxs⟩ := List.forall_mem_cons.mp hf
    exact bind hx fun u _ => ih hxs

theorem filterM {test : α → Except Fault Bool} {xs : List α}
    (ht : ∀ x ∈ xs, Faultless (test x)) : Faultless (xs.filterM test) := by
  have haux : ∀ (xs acc : List α), (∀ x ∈ xs, Faultless (test x)) →
      Faultless (xs.filterAuxM test acc) := by
    intro xs
    induction xs with
    | nil => exact fun acc _ => pure _
    | cons x xs ih =>
      intro acc ht
      obtain ⟨hx, hxs⟩ := List.forall_mem_cons.mp ht
      exact bind hx fun b _ => ih _ hxs
  exact bind (haux xs [] ht) fun ys _ => pure _

theorem anyM {test : α → Except Fault Bool} {xs : List α}
    (ht : ∀ x ∈ xs, Faultless (test x)) : Faultless (xs.anyM test) := by
  induction xs with
  | nil => exact pure _
  | cons x xs ih =>
    obtain ⟨hx, hxs⟩ := List.forall_mem_cons.mp ht
    rw [List.anyM]
    refine bind hx fun b _ => ?_
    cases b with
    | true => exact pure _
    | false => exact ih hxs

end Faultless

namespace Heap

/-- The slot that a value refers to, if any, is in use. -/
def Has (h : Heap) (v : Value) : Prop :=
  (∀ shape id, v = .container shape id → ∃ c, h.containers.get? id.slot = some c) ∧
    ∀ id, v = .string id → ∃ e, h.strings.get? id.slot = some e

variable {h : Heap} {a b key : Value} {elements : Array Value}

theorem has_nil : h.Has .nil := ⟨nofun, nofun⟩

/-- What is read beyond the end is nil, which refers to nothing. -/
theorem has_getD (hvs : ∀ v ∈ elements, h.Has v) (i : Nat) : h.Has (elements.getD i .nil) := by
  rw [Array.getD_eq_getD_getElem?]
  cases hi : elements[i]? with
  | none => exact has_nil
  | some v => exact hvs v (Array.mem_of_getElem? hi)

/-! ## Comparing two values -/

theorem faultless_get {shape : Shape} {id : ContainerId} (hv : h.Has (.container shape id)) :
    Faultless (h.get id) := by
  obtain ⟨c, hc⟩ := hv.1 shape id rfl
  exact ⟨c, get_eq_ok.mpr hc⟩

theorem faultless_stringEntry {id : StringId} (hv : h.Has (.string id)) :
    Faultless (h.stringEntry id) := by
  obtain ⟨e, he⟩ := hv.2 id rfl
  exact ⟨e, stringEntry_eq_ok.mpr he⟩

theorem faultless_discard {α : Type} {x : Except Fault α} (hx : Faultless x) :
    Faultless (discard x) := by
  obtain ⟨a, rfl⟩ := hx
  exact ⟨(), rfl⟩

/-- Two values can be compared if what they refer to is there. -/
theorem faultless_checkComparable (ha : h.Has a) (hb : h.Has b) :
    Faultless (h.checkComparable a b) := by
  unfold checkComparable
  split
  · split
    · exact .pure _
    · exact .bind (faultless_discard (faultless_stringEntry ha)) fun u _ =>
        faultless_discard (faultless_stringEntry hb)
  · split
    · exact .bind (faultless_discard (faultless_get ha)) fun u _ =>
        faultless_discard (faultless_get hb)
    · exact .pure _
  · exact .pure _

theorem faultless_compare (ha : h.Has a) (hb : h.Has b) : Faultless (h.compare a b) :=
  .bind (faultless_checkComparable ha hb) fun _ _ => .pure _

theorem faultless_same (ha : h.Has a) (hb : h.Has b) : Faultless (h.same a b) := by
  unfold same
  split
  · exact .pure _
  · exact .pure _
  · exact .pure _
  · exact .pure _
  · exact .bind (faultless_compare ha hb) fun _ _ => .pure _

/-- A key can be hashed if what it refers to is there. -/
theorem faultless_hash (ha : h.Has a) : Faultless (h.hash a) := by
  cases a with
  | string id =>
    exact .bind (.bind (faultless_stringEntry ha) fun _ _ => .pure _) fun _ _ => .pure _
  | _ => exact .pure _

/-! ## Searching -/

section

variable {probe : Nat → Value} {n : Nat} (hkey : h.Has key) (hprobe : ∀ i, h.Has (probe i))
include hkey hprobe

/-- The probe below the hit stays within the elements. -/
theorem faultless_probeDown (i : Nat) : Faultless (h.probeDown key probe i) := by
  induction i with
  | zero => exact .pure _
  | succ i ih =>
    refine .bind (faultless_compare hkey (hprobe i)) fun o _ => ?_
    split
    · exact .pure _
    refine .bind (faultless_same hkey (hprobe i)) fun b _ => ?_
    split
    · exact .pure _
    · exact ih

theorem faultless_probeUp (i : Nat) : Faultless (h.probeUp key probe n i) := by
  fun_induction h.probeUp key probe n i with
  | case1 i hi ih =>
    refine .bind (faultless_compare hkey (hprobe i)) fun o _ => ?_
    split
    · exact .pure _
    refine .bind (faultless_same hkey (hprobe i)) fun b _ => ?_
    split
    · exact .pure _
    · exact ih
  | case2 i hi => exact .pure _

theorem faultless_probeRun (mid : Nat) : Faultless (h.probeRun key probe n mid) := by
  refine .bind (faultless_same hkey (hprobe mid)) fun b _ => ?_
  split
  · exact .pure _
  refine .bind (faultless_probeDown hkey hprobe mid) fun found _ => ?_
  cases found with
  | some i => exact .pure _
  | none =>
    refine .bind (faultless_probeUp hkey hprobe (mid + 1)) fun found _ => ?_
    cases found with
    | some i => exact .pure _
    | none => exact .pure _

/-- Each round of the bisection looks at a key that is there. -/
theorem faultless_bisect (lo hi : Nat) : Faultless (h.bisect key probe n lo hi) := by
  fun_induction h.bisect key probe n lo hi with
  | case1 lo hi hlt mid ihlow ihhigh =>
    refine .bind (faultless_compare hkey (hprobe mid)) fun o _ => ?_
    cases o with
    | lt => exact ihlow
    | gt => exact ihhigh
    | eq => exact faultless_probeRun hkey hprobe mid
  | case2 lo hi hlt => exact .pure _

end

/-- A search among keys that are there does not fail. -/
theorem faultless_findSorted {stride : Nat} (hkey : h.Has key) (hvs : ∀ v ∈ elements, h.Has v) :
    Faultless (h.findSorted elements stride key) :=
  faultless_bisect hkey (fun i => has_getD hvs (i * stride)) _ _

/-! ## Sorting -/

theorem faultless_checkSortable {before keys : List Value} (hb : ∀ v ∈ before, h.Has v)
    (hk : ∀ v ∈ keys, h.Has v) : Faultless (h.checkSortable before keys) := by
  induction keys generalizing before with
  | nil => exact .pure _
  | cons key rest ih =>
    obtain ⟨hkey, hrest⟩ := List.forall_mem_cons.mp hk
    refine .bind (.forM fun v hv => faultless_checkComparable hkey ?_) fun u _ =>
      ih (List.forall_mem_cons.mpr ⟨hkey, hb⟩) hrest
    exact hb v (List.mem_of_find?_eq_some (Option.mem_toList.mp hv))

/-- Keys that are there can be sorted by. -/
theorem faultless_sortOn {α : Type} {keyOf : α → Value} {xs : List α}
    (hk : ∀ x ∈ xs, h.Has (keyOf x)) : Faultless (h.sortOn keyOf xs) := by
  refine .bind (faultless_checkSortable nofun fun v hv => ?_) fun u _ => .pure _
  obtain ⟨x, hx, rfl⟩ := List.mem_map.mp hv
  exact hk x hx

theorem faultless_sort {values : Array Value} (hvs : ∀ v ∈ values, h.Has v) :
    Faultless (h.sort values) :=
  .bind (faultless_sortOn fun v hv => hvs v (Array.mem_toList_iff.mp hv)) fun _ _ => .pure _

/-! ## Pairs -/

/-- Two tables of pairs can be merged if their keys are there. -/
theorem faultless_mergePairs {left right : List Pair} (hl : ∀ p ∈ left, h.Has p.1)
    (hr : ∀ p ∈ right, h.Has p.1) : Faultless (h.mergePairs left right) := by
  fun_induction h.mergePairs left right with
  | case1 right => exact .pure _
  | case2 left hleft => exact .pure _
  | case3 l left r right ihright ihleft =>
    obtain ⟨hl₁, hl₂⟩ := List.forall_mem_cons.mp hl
    obtain ⟨hr₁, hr₂⟩ := List.forall_mem_cons.mp hr
    refine .bind (faultless_compare hr₁ hl₁) fun o _ => ?_
    split
    · exact .bind (ihright hl hr₂) fun _ _ => .pure _
    · exact .bind (ihleft hl₂ hr) fun _ _ => .pure _

/-- A run is continued by comparing a key with those in it. -/
theorem faultless_continueRun {run : List Value} (hrun : ∀ v ∈ run, h.Has v) (hkey : h.Has key) :
    Faultless (h.continueRun run key) := by
  cases run with
  | nil => exact .pure _
  | cons last run =>
    exact .bind (faultless_compare (List.forall_mem_cons.mp hrun).1 hkey) fun o _ => .pure _

theorem faultless_firstOfEach {run : List Value} {ps : List Pair} (hrun : ∀ v ∈ run, h.Has v)
    (hps : ∀ p ∈ ps, h.Has p.1) : Faultless (h.firstOfEach run ps) := by
  induction ps generalizing run with
  | nil => exact .pure _
  | cons p rest ih =>
    obtain ⟨key, value⟩ := p
    obtain ⟨hkey, hrest⟩ := List.forall_mem_cons.mp hps
    rw [firstOfEach]
    split
    · exact ih hrun hrest
    refine .bind (faultless_continueRun hrun hkey) fun run' hrun' => ?_
    -- A run goes on or starts over, so its keys are among those that it had.
    have hsub : ∀ v ∈ run', h.Has v := by
      intro v hv
      cases run with
      | nil =>
        obtain rfl := Fallible.pure_eq_ok.mp hrun'
        cases hv
      | cons last run =>
        obtain ⟨o, -, heq⟩ := Fallible.bind_eq_ok.mp hrun'
        obtain rfl := Fallible.pure_eq_ok.mp heq
        split at hv
        · exact hrun v hv
        · cases hv
    refine .bind (.anyM fun v hv => faultless_same (hsub v hv) hkey) fun b _ => ?_
    split
    · exact ih hsub hrest
    · exact .bind (ih (List.forall_mem_cons.mpr ⟨hkey, hsub⟩) hrest) fun kept _ => .pure _

/-- Pairs can be sorted and thinned out to the first of each key. -/
theorem faultless_normalizePairs {ps : List Pair} (hps : ∀ p ∈ ps, h.Has p.1) :
    Faultless (h.normalizePairs ps) := by
  refine .bind (faultless_checkSortable nofun fun v hv => ?_) fun u _ =>
    faultless_firstOfEach nofun fun p hp => ?_
  · obtain ⟨p, hp, rfl⟩ := List.mem_map.mp hv
    exact hps p hp
  · exact hps p (List.mem_reverse.mp (List.mem_mergeSort.mp hp))

end Heap

/-! ## Overlays -/

namespace Overlay

variable {h : Heap} {o : Overlay} {key : Value}

/-- What an overlay refers to is there. -/
def Has (h : Heap) (o : Overlay) : Prop :=
  ∀ i e, o.entries.get? i = some e → h.Has e.key ∧ h.Has e.value

theorem faultless_entry {i : Nat} {e : OverlayEntry} (hi : o.entries.get? i = some e) :
    Faultless (o.entry i) := ⟨e, entry_eq_ok.mpr hi⟩

/-- The lookup in an overlay whose entries are filed meets only entries that are there. -/
theorem faultless_find? {hash : UInt32} (hf : o.Filed)
    (ho : ∀ i e, o.entries.get? i = some e → h.Has e.key) (hkey : h.Has key) :
    Faultless (o.find? (h.same · key) hash) := by
  obtain ⟨chain, hmem, hfind⟩ := hf.find?_eq_findIn hash
  have hchain : ∀ i ∈ chain, ∃ e, o.entries.get? i = some e := fun i hi => by
    obtain ⟨e, he, -⟩ := (hmem i).mp hi
    exact ⟨e, he⟩
  rw [hfind]
  clear hfind hmem
  induction chain with
  | nil => exact .pure _
  | cons i rest ih =>
    obtain ⟨⟨e, he⟩, hrest⟩ := List.forall_mem_cons.mp hchain
    refine .bind (faultless_entry he) fun e' he' => ?_
    obtain rfl := Option.some.inj (he.symm.trans (entry_eq_ok.mp he'))
    split
    · refine .bind (Heap.faultless_same (ho i e he) hkey) fun b _ => ?_
      cases b with
      | true => exact .pure _
      | false => exact ih hrest
    · exact ih hrest

theorem has_of_mem (ho : o.Has h) {e : OverlayEntry} (he : e ∈ o.toList) :
    h.Has e.key ∧ h.Has e.value := by
  obtain ⟨i, hi⟩ := Slab.mem_toList.mp he
  exact ho i e hi

end Overlay

namespace Mapping

variable {h : Heap} {key : Value} {values : Array Value} {overlay : Option Overlay}

/-- A pending entry can be looked for, if there is an overlay at all. -/
theorem faultless_findPending {hash : UInt32} (hkey : h.Has key)
    (ho : ∀ o ∈ overlay, o.Filed ∧ o.Has h) : Faultless (findPending h hash key overlay) := by
  cases overlay with
  | none => exact .pure _
  | some o =>
    exact Overlay.faultless_find? (ho o rfl).1 (fun i e hi => ((ho o rfl).2 i e hi).1) hkey

/-- No pending update lacks its sorted key. -/
theorem faultless_step {id : ContainerId} {m : Merge} {e : OverlayEntry} {es : List OverlayEntry}
    (hr : m.Ready h (e :: es)) (hm : ∀ v ∈ m.held, h.Has v) (he : h.Has e.key) :
    Faultless (Merge.step h id m e) := by
  unfold Merge.step
  split
  · exact .pure _
  next hupdate =>
  have hvalues : ∀ v ∈ m.values, h.Has v := fun v hv =>
    hm v (Multiset.mem_add.mpr (.inl (Multiset.mem_add.mpr (.inl (by simpa using hv)))))
  refine .bind (Heap.faultless_findSorted he hvalues) fun f hf => ?_
  cases f with
  | «at» i => exact .pure _
  | absent i =>
    exact absurd ((hr.added e List.mem_cons_self).mpr (hr.table.find_of_absent hf)) hupdate

/-- What the merge holds after one entry was there before. -/
theorem has_step {id : ContainerId} {m m' : Merge} {e : OverlayEntry}
    (hs : Merge.step h id m e = .ok m') (hm : ∀ v ∈ m.held, h.Has v)
    (he : h.Has e.key ∧ h.Has e.value) : ∀ v ∈ m'.held, h.Has v := by
  intro v hv
  rw [(Merge.held_step hs).1] at hv
  rcases Multiset.mem_add.mp hv with hv | hv
  · exact hm v hv
  rcases Multiset.mem_add.mp hv with hv | hv
  · rw [Multiset.mem_singleton.mp hv]
    exact he.1
  · rw [Multiset.mem_singleton.mp hv]
    exact he.2

/-- The entries of an overlay can be merged one after the other. -/
theorem faultless_foldlM {id : ContainerId} {m : Merge} {es : List OverlayEntry}
    (hr : m.Ready h es) (hm : ∀ v ∈ m.held, h.Has v)
    (hes : ∀ e ∈ es, h.Has e.key ∧ h.Has e.value) :
    ∃ m', es.foldlM (Merge.step h id) m = .ok m' ∧ ∀ v ∈ m'.held, h.Has v := by
  induction es generalizing m with
  | nil => exact ⟨m, rfl, hm⟩
  | cons e es ih =>
    obtain ⟨he, hes⟩ := List.forall_mem_cons.mp hes
    obtain ⟨m₁, h₁⟩ := faultless_step hr hm he.1
    obtain ⟨m', h', hm'⟩ := ih (hr.step h₁).1 (has_step h₁ hm he) hes
    rw [List.foldlM_cons]
    exact ⟨m', Fallible.bind_eq_ok.mpr ⟨m₁, h₁, h'⟩, hm'⟩

/-- A merge does not fail. -/
theorem faultless_merged {id : ContainerId} {o : Overlay}
    (ht : h.Table (Pair.ofBuffer values)) (hp : h.Pending (Pair.ofBuffer values) o)
    (hvalues : ∀ v ∈ values, h.Has v) (ho : o.Has h) : Faultless (merged h id o values) := by
  have hstart : ∀ v ∈ Merge.held { values }, h.Has v := fun v hv => by
    refine hvalues v ?_
    simpa [Merge.held] using hv
  obtain ⟨m, hm, hheld⟩ := faultless_foldlM (.start ht hp) hstart fun e => Overlay.has_of_mem ho
  have hadded : ∀ p ∈ m.added, h.Has p.1 := fun p hpm => by
    refine hheld _ (Multiset.mem_add.mpr (.inl (Multiset.mem_add.mpr (.inr ?_))))
    exact Multiset.mem_coe.mpr (List.mem_flatMap.mpr ⟨p, hpm, List.mem_cons_self⟩)
  have hkept : ∀ p ∈ Pair.ofBuffer m.values, h.Has p.1 := fun p hpm => by
    refine hheld _ (Multiset.mem_add.mpr (.inl (Multiset.mem_add.mpr (.inl ?_))))
    exact Multiset.mem_coe.mpr (Array.mem_toList_iff.mpr (Pair.mem_of_ofBuffer hpm).1)
  refine .bind ⟨m, hm⟩ fun m' hm' => ?_
  obtain rfl := Except.ok.inj (hm.symm.trans hm')
  refine .bind (Heap.faultless_sortOn hadded) fun sorted hsorted => ?_
  refine .bind (Heap.faultless_mergePairs hkept fun p hpm => ?_) fun pairs _ => .pure _
  exact hadded p ((Heap.sortOn_perm hsorted).mem_iff.mp hpm)

end Mapping

end PlaneStore
