import PlaneStore.Proofs.Inversion.Basic
import PlaneStore.Proofs.Heap.SlabTotals
import Mathlib.Data.List.Perm.Subperm

/-!
# The chains of an overlay

A chain is said by its first index and by what comes after each index, so one wrong link loses
entries or leads around for ever. Here every chain is a finite list of indices without repetition:
the entries of one bucket. Filing an index in front of its chain and taking one out anywhere keep
this, whether or not the index was used before, and so does making all chains anew.
-/

namespace PlaneStore

/-! ## Following links -/

/-- The indices that are passed from a first one on, up to the last. -/
inductive Thread (next : Nat → Option Nat) : Option Nat → List Nat → Prop
  | nil : Thread next none []
  | cons {i : Nat} {is : List Nat} (h : Thread next (next i) is) : Thread next (some i) (i :: is)

namespace Thread

variable {next next' : Nat → Option Nat} {cursor : Option Nat} {is : List Nat} {i : Nat}

/-- A thread depends on no more than what comes after its indices. -/
theorem congr (h : Thread next cursor is) (hnext : ∀ i ∈ is, next' i = next i) :
    Thread next' cursor is := by
  induction h with
  | nil => exact .nil
  | @cons i is _ ih =>
    obtain ⟨hi, hrest⟩ := List.forall_mem_cons.mp hnext
    exact .cons (hi ▸ ih hrest)

/-- A chain has one list of indices. -/
theorem unique (h : Thread next cursor is) : ∀ {is'}, Thread next cursor is' → is' = is := by
  induction h with
  | nil =>
    intro is' h'
    cases h'
    rfl
  | cons _ ih =>
    intro is' h'
    cases h' with
    | cons h' => rw [ih h']

/-- From each index on there is a thread, which is no longer than the whole. -/
theorem exists_from (h : Thread next cursor is) :
    ∀ i ∈ is, ∃ rest, Thread next (some i) rest ∧ rest.length ≤ is.length := by
  induction h with
  | nil => nofun
  | cons h ih =>
    refine List.forall_mem_cons.mpr ⟨⟨_, .cons h, Nat.le_refl _⟩, ?_⟩
    intro j hj
    obtain ⟨rest, hrest, hle⟩ := ih j hj
    exact ⟨rest, hrest, Nat.le_trans hle (Nat.le_succ _)⟩

/-- A thread does not come back to an index. -/
theorem nodup (h : Thread next cursor is) : is.Nodup := by
  induction h with
  | nil => exact List.nodup_nil
  | @cons i is h ih =>
    refine List.nodup_cons.mpr ⟨?_, ih⟩
    intro hi
    -- The thread from a second passage on would have to be as long as the whole.
    obtain ⟨rest, hrest, hle⟩ := h.exists_from i hi
    rw [(Thread.cons h).unique hrest, List.length_cons] at hle
    omega

/-- A thread among the first `n` indices has no more than those. -/
theorem length_le (h : Thread next cursor is) {n : Nat} (hn : ∀ i ∈ is, i < n) :
    is.length ≤ n := by
  have hsub : is ⊆ List.range n := fun i hi => List.mem_range.mpr (hn i hi)
  simpa using (h.nodup.subperm hsub).length_le

end Thread

namespace Chains

variable {c : Chains} {b i j n : Nat} {x : Option Nat}

/-! ## What a change of a link does -/

theorem next_setNext (hi : i ≤ c.links.size) (j : Nat) :
    (c.setNext i x).next j = if i = j then x else c.next j := by
  unfold next setNext
  by_cases hij : i = j
  · subst hij
    by_cases hlt : i < c.links.size
    · simp [hlt]
    · obtain rfl : i = c.links.size := by omega
      simp
  · by_cases hlt : i < c.links.size
    · simp [hlt, hij]
    · obtain rfl : i = c.links.size := by omega
      simp [Array.getElem?_push, hij, Ne.symm hij]

theorem lt_size_of_next (h : c.next i = some j) : i < c.links.size := by
  by_contra hlt
  simp [next, hlt] at h

theorem lt_size_of_head (h : c.head b = some i) : b < c.buckets.size := by
  by_contra hlt
  simp [head, hlt] at h

theorem head_setHead (hb : b < c.buckets.size) (b' : Nat) :
    (c.setHead b x).head b' = if b = b' then x else c.head b' := by
  unfold head setHead
  by_cases hbb : b = b'
  · subst hbb
    simp [hb]
  · simp [hbb]

@[simp] theorem head_setNext : (c.setNext i x).head b = c.head b := rfl

@[simp] theorem next_setHead : (c.setHead b x).next i = c.next i := rfl

@[simp] theorem size_buckets_push : (c.push b i).buckets.size = c.buckets.size := by
  simp [push, setHead, setNext]

theorem size_links_push :
    (c.push b i).links.size = if i < c.links.size then c.links.size else c.links.size + 1 := by
  simp only [push, setHead, setNext]
  split <;> simp

/-- To push an index links it to the former first one and touches no other link. -/
theorem next_push (hi : i ≤ c.links.size) (j : Nat) :
    (c.push b i).next j = if i = j then c.head b else c.next j :=
  next_setNext hi j

/-- To push an index makes it the first of its bucket and of no other. -/
theorem head_push (hb : b < c.buckets.size) (b' : Nat) :
    (c.push b i).head b' = if b = b' then some i else c.head b' :=
  head_setHead hb b'

@[simp] theorem size_buckets_bypass {cursor : Option Nat} :
    (c.bypass i n cursor).buckets.size = c.buckets.size := by
  induction n generalizing cursor with
  | zero => rfl
  | succ n ih =>
    cases cursor with
    | none => rfl
    | some p =>
      simp only [bypass]
      split
      · rfl
      · exact ih

@[simp] theorem size_links_bypass {cursor : Option Nat} :
    (c.bypass i n cursor).links.size = c.links.size := by
  induction n generalizing cursor with
  | zero => rfl
  | succ n ih =>
    cases cursor with
    | none => rfl
    | some p =>
      simp only [bypass]
      split
      · next hp => simp [setNext, lt_size_of_next hp]
      · exact ih

@[simp] theorem size_buckets_unlink : (c.unlink b i n).buckets.size = c.buckets.size := by
  unfold unlink
  split
  · simp [setHead]
  · exact size_buckets_bypass

@[simp] theorem size_links_unlink : (c.unlink b i n).links.size = c.links.size := by
  unfold unlink
  split
  · rfl
  · exact size_links_bypass

/-- The index before `i` is found on its chain, and then it leads past `i`. -/
theorem thread_bypass {cursor : Option Nat} {is : List Nat} (h : Thread c.next cursor is)
    (hi : i ∈ is) (hne : cursor ≠ some i) (hn : is.length ≤ n) :
    ∃ p ∈ is, p < c.links.size ∧ c.bypass i n cursor = c.setNext p (c.next i) ∧
      Thread (c.setNext p (c.next i)).next cursor (is.erase i) := by
  induction h generalizing n with
  | nil => exact absurd hi List.not_mem_nil
  | @cons x is h ih =>
    have hnodup := List.nodup_cons.mp (Thread.cons h).nodup
    have hx : x ≠ i := fun hx => hne (congrArg some hx)
    have hi : i ∈ is := (List.mem_cons.mp hi).resolve_left (Ne.symm hx)
    obtain ⟨n, rfl⟩ : ∃ m, n = m + 1 := ⟨n - 1, by rw [List.length_cons] at hn; omega⟩
    rw [List.erase_cons_tail (by simpa using hx)]
    by_cases hnext : c.next x = some i
    · have hlt := lt_size_of_next hnext
      refine ⟨x, List.mem_cons_self, hlt, if_pos hnext, .cons ?_⟩
      rw [next_setNext (Nat.le_of_lt hlt), if_pos rfl]
      rw [hnext] at h
      cases h with
      | @cons _ rest h =>
        rw [List.erase_cons_head]
        refine h.congr fun j hj => ?_
        rw [next_setNext (Nat.le_of_lt hlt), if_neg]
        rintro rfl
        exact hnodup.1 (List.mem_cons_of_mem _ hj)
    · obtain ⟨p, hp, hlt, hbypass, hthread⟩ :=
        ih hi hnext (Nat.le_of_succ_le_succ (by simpa using hn))
      refine ⟨p, List.mem_cons_of_mem _ hp, hlt, (if_neg hnext).trans hbypass, .cons ?_⟩
      rw [next_setNext (Nat.le_of_lt hlt), if_neg]
      · exact hthread
      · rintro rfl
        exact hnodup.1 hp

/-! ## Chains of what is filed -/

/-- The chain of each bucket leads past the indices that have their place there, and no others. -/
structure Files (c : Chains) (place : Nat → Option Nat) : Prop where
  chain : ∀ b, ∃ is, Thread c.next (c.head b) is ∧ ∀ i, i ∈ is ↔ place i = some b
  known : ∀ {i b}, place i = some b → i < c.links.size

namespace Files

variable {place place' : Nat → Option Nat}

theorem congr (h : c.Files place) (hp : ∀ i, place' i = place i) : c.Files place' := by
  obtain rfl : place' = place := funext hp
  exact h

theorem empty (hc : ∀ b, c.head b = none) (hp : ∀ i, place i = none) : c.Files place where
  chain b := ⟨[], hc b ▸ .nil, fun i => by simp [hp]⟩
  known hi := by simp [hp] at hi

/-- An index is put in front of the chain of its bucket. -/
theorem push (h : c.Files place) (hb : b < c.buckets.size) (hl : i ≤ c.links.size)
    (hi : place i = none) : (c.push b i).Files fun j => if i = j then some b else place j where
  chain b' := by
    obtain ⟨is, hthread, hmem⟩ := h.chain b'
    -- The index is filed nowhere yet, so no thread goes through its link.
    have hfresh : i ∉ is := by
      intro hin
      rw [(hmem i).mp hin] at hi
      cases hi
    have hold : Thread (c.push b i).next (c.head b') is := by
      refine hthread.congr fun j hj => ?_
      rw [next_push hl, if_neg]
      rintro rfl
      exact hfresh hj
    by_cases hbb : b = b'
    · subst hbb
      refine ⟨i :: is, ?_, ?_⟩
      · rw [head_push hb, if_pos rfl]
        refine .cons ?_
        rwa [next_push hl, if_pos rfl]
      · intro j
        by_cases hij : i = j
        · simp [hij]
        · simp [hij, Ne.symm hij, hmem j]
    · refine ⟨is, ?_, ?_⟩
      · rwa [head_push hb, if_neg hbb]
      · intro j
        by_cases hij : i = j
        · subst hij
          simp [hfresh, hbb]
        · simp [hij, hmem j]
  known {j b'} hj := by
    rw [size_links_push]
    by_cases hij : i = j
    · subst hij
      split <;> omega
    · rw [if_neg hij] at hj
      have hlt := h.known hj
      split <;> omega

/-- An index is taken off the chain of its bucket. -/
theorem unlink (h : c.Files place) (hi : place i = some b) (hn : c.links.size ≤ n) :
    (c.unlink b i n).Files fun j => if i = j then none else place j where
  chain b' := by
    obtain ⟨is, hthread, hmem⟩ := h.chain b
    have hin : i ∈ is := (hmem i).mpr hi
    have hlength : is.length ≤ n :=
      Nat.le_trans (hthread.length_le fun j hj => h.known ((hmem j).mp hj)) hn
    have hleft : ∀ j, j ∈ is.erase i ↔ (if i = j then none else place j) = some b := by
      intro j
      by_cases hij : i = j
      · subst hij
        simp [hthread.nodup.not_mem_erase]
      · simp [List.mem_erase_of_ne (Ne.symm hij), hij, hmem j]
    have hother : b ≠ b' → ∃ is', Thread c.next (c.head b') is' ∧ (∀ j ∈ is', j ∉ is) ∧
        ∀ j, j ∈ is' ↔ (if i = j then none else place j) = some b' := by
      intro hbb
      obtain ⟨is', hthread', hmem'⟩ := h.chain b'
      refine ⟨is', hthread', ?_, ?_⟩
      · intro j hj hj'
        exact hbb (Option.some.inj (((hmem j).mp hj').symm.trans ((hmem' j).mp hj)))
      · intro j
        by_cases hij : i = j
        · subst hij
          simp [hmem', hi, hbb]
        · simp [hij, hmem' j]
    unfold Chains.unlink
    split
    · next hhead =>
      have hb := lt_size_of_head hhead
      rw [hhead] at hthread
      by_cases hbb : b = b'
      · subst hbb
        refine ⟨is.erase i, ?_, hleft⟩
        rw [head_setHead hb, if_pos rfl]
        cases hthread with
        | cons hrest =>
          rw [List.erase_cons_head]
          exact hrest.congr fun j _ => next_setHead
      · obtain ⟨is', hthread', -, hmem'⟩ := hother hbb
        refine ⟨is', ?_, hmem'⟩
        rw [head_setHead hb, if_neg hbb]
        exact hthread'.congr fun j _ => next_setHead
    · next hhead =>
      obtain ⟨p, hp, hlt, hbypass, hskipped⟩ := thread_bypass hthread hin hhead hlength
      rw [hbypass, head_setNext]
      by_cases hbb : b = b'
      · subst hbb
        exact ⟨is.erase i, hskipped, hleft⟩
      · obtain ⟨is', hthread', hdisjoint, hmem'⟩ := hother hbb
        refine ⟨is', hthread'.congr fun j hj => ?_, hmem'⟩
        rw [next_setNext (Nat.le_of_lt hlt), if_neg]
        rintro rfl
        exact hdisjoint _ hj hp
  known {j b'} hj := by
    rw [size_links_unlink]
    by_cases hij : i = j
    · simp [hij] at hj
    · rw [if_neg hij] at hj
      exact h.known hj

end Files

end Chains

/-! ## Overlays -/

namespace Overlay

variable {o o' : Overlay} {i : Nat} {e : OverlayEntry}

/-- An entry is taken out if there is one. -/
theorem remove_eq_ok :
    o.remove i = .ok (e, o') ↔ o.entries.get? i = some e ∧ o' = o.without i e := by
  unfold remove
  constructor
  · intro h
    obtain ⟨d, hd, h⟩ := Fallible.bind_eq_ok.mp h
    obtain ⟨rfl, rfl⟩ := Prod.mk.inj (Fallible.pure_eq_ok.mp h)
    exact ⟨entry_eq_ok.mp hd, rfl⟩
  · rintro ⟨hi, rfl⟩
    exact Fallible.bind_eq_ok.mpr ⟨e, entry_eq_ok.mpr hi, rfl⟩

/-- The place of an index among `n` buckets. -/
def placeOf (entries : Slab OverlayEntry) (n i : Nat) : Option Nat :=
  (entries.get? i).map fun e => bucketOf e.hash n

theorem placeOf_eq_some {entries : Slab OverlayEntry} {n b : Nat} :
    placeOf entries n i = some b ↔ ∃ e, entries.get? i = some e ∧ bucketOf e.hash n = b :=
  Option.map_eq_some_iff

theorem bucketOf_lt (hash : UInt32) {n : Nat} (hn : 0 < n) : bucketOf hash n < n :=
  Nat.lt_of_le_of_lt Nat.and_le_right (Nat.sub_lt hn Nat.one_pos)

/-- The chains hold each entry once, under its hash, and the `added` ones are counted. -/
structure Filed (o : Overlay) : Prop where
  buckets : 0 < o.buckets.size
  links : o.links.size = o.entries.cells.size
  files : o.Files (placeOf o.entries o.buckets.size)
  count : o.addedCount = o.entries.total additions

section

variable {entries : Slab OverlayEntry} {c : Chains}

theorem size_links_enchain (h : c.links.size = entries.cells.size) :
    (enchain entries c i).links.size = entries.cells.size := by
  unfold enchain
  cases hi : entries.get? i with
  | none => exact h
  | some e =>
    have hlt := (Slab.get?_eq_some.mp hi).1
    rw [Chains.size_links_push, if_pos (by omega), h]

theorem size_buckets_enchain : (enchain entries c i).buckets.size = c.buckets.size := by
  unfold enchain
  split
  · exact Chains.size_buckets_push
  · rfl

/-- All entries are filed once each index has been gone through. -/
theorem files_enchain (entries : Slab OverlayEntry) {c : Chains}
    (hs : c.links.size = entries.cells.size) (hb : 0 < c.buckets.size)
    (h : c.Files fun _ => none) :
    let c' := (List.range entries.cells.size).foldl (enchain entries) c
    c'.links.size = entries.cells.size ∧ c'.buckets.size = c.buckets.size ∧
      c'.Files (placeOf entries c.buckets.size) := by
  -- After `n` indices those below `n` are filed.
  have hfold : ∀ n ≤ entries.cells.size,
      let c' := (List.range n).foldl (enchain entries) c
      c'.links.size = entries.cells.size ∧ c'.buckets.size = c.buckets.size ∧
        c'.Files fun i => if i < n then placeOf entries c.buckets.size i else none := by
    intro n
    induction n with
    | zero =>
      intro _
      exact ⟨hs, rfl, h.congr fun i => if_neg (Nat.not_lt_zero i)⟩
    | succ n ih =>
      intro hn
      obtain ⟨hlinks, hsize, hfiles⟩ := ih (by omega)
      simp only [List.range_succ, List.foldl_concat]
      refine ⟨size_links_enchain hlinks, size_buckets_enchain.trans hsize, ?_⟩
      generalize (List.range n).foldl (enchain entries) c = c' at hlinks hsize hfiles
      unfold enchain
      cases hget : entries.get? n with
      | none =>
        refine hfiles.congr fun i => ?_
        by_cases hi : i = n
        · subst hi
          simp [placeOf, hget]
        · simp only [show i < n + 1 ↔ i < n by omega]
      | some e =>
        have hlt : bucketOf e.hash c'.buckets.size < c'.buckets.size :=
          bucketOf_lt _ (by omega)
        refine (hfiles.push hlt (by omega) (if_neg (Nat.lt_irrefl n))).congr fun i => ?_
        by_cases hi : n = i
        · subst hi
          simp [placeOf, hget, hsize]
        · simp only [hi, if_false, show i < n + 1 ↔ i < n by omega]
  obtain ⟨hlinks, hsize, hfiles⟩ := hfold _ (Nat.le_refl _)
  refine ⟨hlinks, hsize, hfiles.congr fun i => ?_⟩
  split
  · rfl
  · next hlt =>
    unfold placeOf
    rw [Slab.get?_of_size_le (Nat.le_of_not_lt hlt)]
    rfl

end

theorem head_replicate {n : Nat} {links : Array (Option Nat)} (b : Nat) :
    Chains.head ⟨Array.replicate n none, links⟩ b = none := by
  unfold Chains.head
  rw [Array.getElem?_replicate]
  split <;> rfl

namespace Filed

theorem ofBuckets (n : Nat) : (Overlay.ofBuckets n).Filed where
  buckets := by
    have hmin := minBuckets_le_size n
    have hpos : 0 < minBuckets := by decide
    omega
  links := rfl
  files := .empty head_replicate fun i => by
    unfold placeOf
    rw [entries_ofBuckets, Slab.get?_of_size_le (Nat.zero_le _)]
    rfl
  count := rfl

/-- Growing doubles the buckets and files every entry anew. -/
theorem chains_grow (hf : o.Filed) : o.grow.links.size = o.entries.cells.size ∧
    o.grow.buckets.size = 2 * o.buckets.size ∧
      o.grow.Files (placeOf o.entries (2 * o.buckets.size)) := by
  have hpos := hf.buckets
  have hfiles := files_enchain o.entries
    (c := { o.toChains with buckets := Array.replicate (2 * o.buckets.size) none })
    hf.links (by simp; omega) (.empty head_replicate fun _ => rfl)
  simp only [Array.size_replicate] at hfiles
  exact hfiles

theorem size_buckets_grow (hf : o.Filed) : o.grow.buckets.size = 2 * o.buckets.size :=
  hf.chains_grow.2.1

theorem grow (hf : o.Filed) : o.grow.Filed := by
  obtain ⟨hlinks, hsize, hfiles⟩ := hf.chains_grow
  have hpos := hf.buckets
  exact ⟨by omega, hlinks, hsize ▸ hfiles, hf.count⟩

theorem reserve (hf : o.Filed) : o.reserve.Filed := by
  unfold Overlay.reserve
  split
  · exact hf.grow
  · exact hf

/-- An entry that is put in is filed in front of its chain. -/
theorem insert (hf : o.Filed) (hs : o.entries.Sound) (e : OverlayEntry) : (o.insert e).Filed := by
  have hr := hf.reserve
  have hnext : o.reserve.nextIndex = o.entries.nextCell := by rw [nextIndex, entries_reserve]
  have hle : o.reserve.nextIndex ≤ o.reserve.links.size := by
    rw [hr.links, hnext, entries_reserve]
    exact Slab.nextCell_le hs
  have hsize : (o.insert e).buckets.size = o.reserve.buckets.size := Chains.size_buckets_push
  refine ⟨by rw [hsize]; exact hr.buckets, ?_, ?_, ?_⟩
  · show (o.reserve.push _ _).links.size = (o.reserve.entries.insert e).cells.size
    rw [Chains.size_links_push, hr.links, hnext, entries_reserve]
    exact (Slab.size_insert hs).symm
  · refine (hr.files.push (bucketOf_lt e.hash hr.buckets) hle ?_).congr fun j => ?_
    · unfold placeOf
      rw [entries_reserve, hnext, Slab.get?_nextCell hs]
      rfl
    · unfold placeOf
      rw [hsize, entries_insert, entries_reserve, hnext]
      by_cases hj : o.entries.nextCell = j
      · rw [← hj, Slab.get?_insert_self hs, if_pos rfl]
        rfl
      · rw [Slab.get?_insert_of_ne hj, if_neg hj]
  · rw [addedCount_insert, entries_insert, Slab.total_insert _ hs, hf.count]

/-- Entries that keep their hashes, and are `added` as before, stay filed. -/
theorem set (hf : o.Filed) {e' : OverlayEntry} (hi : o.entries.get? i = some e)
    (hh : e'.hash = e.hash) (ha : e'.added = e.added) :
    Filed { o with entries := o.entries.set i e' } where
  buckets := hf.buckets
  links := by
    rw [hf.links]
    simp [Slab.set]
  files := hf.files.congr fun j => by
    unfold placeOf
    by_cases hij : i = j
    · subst hij
      simp only [Slab.get?_set_self hi, hi, Option.map_some, hh]
    · simp only [Slab.get?_set_of_ne hij]
  count := by
    have htotal := Slab.total_set additions (a := e') hi
    rw [show additions e' = additions e by unfold additions; rw [ha]] at htotal
    exact hf.count.trans (Nat.add_right_cancel htotal).symm

/-- The additions that were counted are those that there are. -/
theorem addedCount_eq_countP (hf : o.Filed) :
    o.addedCount = o.toList.countP OverlayEntry.added := by
  rw [hf.count]
  show (o.toList.map additions).sum = _
  induction o.toList with
  | nil => rfl
  | cons e es ih =>
    rw [List.countP_cons, List.map_cons, List.sum_cons, ih, Nat.add_comm]
    rfl

theorem addedCount_without (hf : o.Filed) (hi : o.entries.get? i = some e) :
    (o.without i e).addedCount + additions e = o.addedCount := by
  have htotal := Slab.total_erase additions hi
  have hcount := hf.count
  show o.addedCount - additions e + additions e = o.addedCount
  omega

/-- An entry that is taken out is off its chain, and all others are filed as before. -/
theorem without (hf : o.Filed) (hi : o.entries.get? i = some e) : (o.without i e).Filed := by
  have hsize : (o.without i e).buckets.size = o.buckets.size := Chains.size_buckets_unlink
  refine ⟨by rw [hsize]; exact hf.buckets, ?_, ?_, ?_⟩
  · show (o.unlink _ i _).links.size = (o.entries.erase i).cells.size
    rw [Chains.size_links_unlink, hf.links]
    simp [Slab.erase]
  · have hplace : placeOf o.entries o.buckets.size i = some (o.bucket e.hash) :=
      placeOf_eq_some.mpr ⟨e, hi, rfl⟩
    refine (hf.files.unlink hplace (Nat.le_of_eq hf.links)).congr fun j => ?_
    unfold placeOf
    rw [hsize]
    show ((o.entries.erase i).get? j).map _ = _
    by_cases hij : i = j
    · subst hij
      rw [Slab.get?_erase_self, if_pos rfl]
      rfl
    · rw [Slab.get?_erase_of_ne hij, if_neg hij]
  · have hcount := hf.addedCount_without hi
    have htotal := Slab.total_erase additions hi
    have hold := hf.count
    show _ = (o.entries.erase i).total additions
    omega

end Filed

/-! ## Search along a chain -/

/-- The first index of a list whose entry has the hash and the key. -/
def findIn (o : Overlay) (same : Value → Except Fault Bool) (hash : UInt32) :
    List Nat → Except Fault (Option Nat)
  | [] => return none
  | i :: rest => do
    let e ← o.entry i
    if e.hash = hash then
      if ← same e.key then return some i
      o.findIn same hash rest
    else
      o.findIn same hash rest

variable {same : Value → Except Fault Bool} {hash : UInt32}

/-- Following the links comes to the end of a thread, however many more steps it might take. -/
theorem findFrom_of_thread {cursor : Option Nat} {is : List Nat} (h : Thread o.next cursor is)
    {n : Nat} (hn : is.length ≤ n) : o.findFrom same hash n cursor = o.findIn same hash is := by
  induction h generalizing n with
  | nil => cases n <;> rfl
  | @cons i is h ih =>
    obtain ⟨n, rfl⟩ : ∃ m, n = m + 1 := ⟨n - 1, by rw [List.length_cons] at hn; omega⟩
    unfold findFrom findIn
    rw [ih (Nat.le_of_succ_le_succ (by simpa using hn))]

/-- The search goes through the entries of one bucket and ends, whatever bound it is given. -/
theorem Filed.findFrom_eq_findIn (hf : o.Filed) (hash : UInt32) : ∃ is,
    (∀ i, i ∈ is ↔ ∃ e, o.entries.get? i = some e ∧ o.bucket e.hash = o.bucket hash) ∧
      ∀ same n, o.entries.cells.size ≤ n →
        o.findFrom same hash n (o.head (o.bucket hash)) = o.findIn same hash is := by
  obtain ⟨is, hthread, hmem⟩ := hf.files.chain (o.bucket hash)
  refine ⟨is, fun i => (hmem i).trans placeOf_eq_some, ?_⟩
  intro same n hn
  have hlength : is.length ≤ o.entries.cells.size := hthread.length_le fun i hi => by
    rw [← hf.links]
    exact hf.files.known ((hmem i).mp hi)
  exact findFrom_of_thread hthread (Nat.le_trans hlength hn)

/-- A search goes through the entries of one bucket and no others. -/
theorem Filed.find?_eq_findIn (hf : o.Filed) (hash : UInt32) : ∃ is,
    (∀ i, i ∈ is ↔ ∃ e, o.entries.get? i = some e ∧ o.bucket e.hash = o.bucket hash) ∧
      ∀ same, o.find? same hash = o.findIn same hash is := by
  obtain ⟨is, hmem, hfind⟩ := hf.findFrom_eq_findIn hash
  exact ⟨is, hmem, fun same => hfind same _ (Nat.le_refl _)⟩

end Overlay

end PlaneStore
