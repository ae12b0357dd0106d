import PlaneStore.Proofs.Overlay.PendingWrites

/-!
# Where a key is

A key of a mapping is in its overlay, among its sorted pairs, in both or in neither. Looking it up
tells which, and finds the value that the two together have for it.
-/

namespace PlaneStore

open Store

namespace Heap

/-- What a mapping holds under a key: the pending write if there is one, else the sorted value. -/
def seek (h : Heap) (ps : List Pair) (overlay : Option Overlay) (k : Identity) : Option Value :=
  match h.find ((overlay.map Overlay.pairs).getD []) k with
  | some v => some v
  | none => h.find ps k

theorem seek_none (h : Heap) (ps : List Pair) (k : Identity) : h.seek ps none k = h.find ps k := rfl

/-- No key is stored with a nil. -/
theorem seek_ne_nil {h : Heap} {ps : List Pair} {overlay : Option Overlay} {k : Identity}
    (ht : h.Table ps) (hp : ∀ o ∈ overlay, h.Pending ps o) : h.seek ps overlay k ≠ some .nil := by
  unfold seek
  intro hv
  cases hpending : h.find ((overlay.map Overlay.pairs).getD []) k with
  | some v =>
    simp only [hpending, Option.some.injEq] at hv
    subst hv
    cases overlay with
    | none => cases hpending
    | some o =>
      obtain ⟨i, e, he, -, hnil⟩ := (hp o rfl).find_pairs.mp hpending
      exact ((hp o rfl).solid he).2 hnil
  | none =>
    simp only [hpending] at hv
    obtain ⟨p, hmem, -, hnil⟩ := (find_eq_some ht.distinct).mp hv
    exact (ht.solid p hmem).2 hnil

end Heap

namespace Mapping

/-- What `Whereabouts` say of a key. -/
structure Located (h : Heap) (overlay : Option Overlay) (values : Array Value) (key : Value)
    (w : Whereabouts) : Prop where
  pending : ∀ {i : Nat}, w.pending = some i → ∃ o e, overlay = some o ∧ o.entries.get? i = some e ∧
    h.identity e.key = h.identity key
  unparked : w.pending = none → ∀ o ∈ overlay, ∀ j d, o.entries.get? j = some d →
    h.identity d.key ≠ h.identity key
  sorted : ∀ {i : Nat}, w.sorted = some i → 2 * i + 1 < values.size ∧
    h.identity (values.getD (2 * i) .nil) = h.identity key
  absent : w.sorted = none ↔ h.find (Pair.ofBuffer values) (h.identity key) = none
  dirty : w.dirty = overlay.isSome

/-- A mapping that is not dirty has no pending writes. -/
theorem Located.clean {h : Heap} {overlay : Option Overlay} {values : Array Value} {key : Value}
    {w : Whereabouts} (hl : Located h overlay values key w) (hd : w.dirty = false) :
    overlay = none := by
  rw [hl.dirty] at hd
  exact Option.not_isSome_iff_eq_none.mp (by rw [hd]; exact Bool.false_ne_true)

/-- A key that is in neither place has no value. -/
theorem Located.seek_eq_none {h : Heap} {overlay : Option Overlay} {values : Array Value}
    {key : Value} {w : Whereabouts} (hl : Located h overlay values key w) (hp : w.pending = none)
    (hs : w.sorted = none) : h.seek (Pair.ofBuffer values) overlay (h.identity key) = none := by
  have hsorted := hl.absent.mp hs
  unfold Heap.seek
  cases ho : overlay with
  | none => exact hsorted
  | some o =>
    have hpending : h.find o.pairs (h.identity key) = none :=
      Heap.Pending.find_pairs_none.mpr (hl.unparked hp o ho)
    rw [Option.map_some, Option.getD_some, hpending]
    exact hsorted

/-- A key that is found and not pending is among the sorted pairs. -/
theorem Located.exists_sorted {h : Heap} {overlay : Option Overlay} {values : Array Value}
    {key : Value} {w : Whereabouts} (hl : Located h overlay values key w)
    (hpending : w.pending = none)
    (hfound : h.seek (Pair.ofBuffer values) overlay (h.identity key) ≠ none) :
    ∃ i, w.sorted = some i :=
  Option.ne_none_iff_exists'.mp fun hnone => hfound (hl.seek_eq_none hpending hnone)

variable {s s' : Store} {id : ContainerId} {c : Container} {values : Array Value} {key : Value}
  {hash : UInt32} {w : Whereabouts}

/-- What is found in an overlay is the pending write of the key. -/
theorem findPending_eq_ok {h : Heap} {overlay : Option Overlay} {pending : Option Nat}
    (hp : ∀ o ∈ overlay, h.Pending (Pair.ofBuffer values) o) (hh : h.hash key = .ok hash)
    (hf : findPending h hash key overlay = .ok pending) :
    (∀ {i : Nat}, pending = some i → ∃ o e, overlay = some o ∧ o.entries.get? i = some e ∧
      h.identity e.key = h.identity key) ∧
    (pending = none → ∀ o ∈ overlay, ∀ j d, o.entries.get? j = some d →
      h.identity d.key ≠ h.identity key) := by
  cases overlay with
  | none =>
    obtain rfl := Fallible.pure_eq_ok.mp hf
    exact ⟨nofun, fun _ o ho => nomatch ho⟩
  | some o =>
    refine ⟨fun hi => ?_, fun hi o' ho' => ?_⟩
    · subst hi
      obtain ⟨e, he, hk⟩ := Heap.Pending.find?_some hf
      exact ⟨o, e, rfl, he, hk⟩
    · subst hi
      obtain rfl := Option.some.inj ho'
      exact (hp o rfl).find?_none hh hf

/-- A key is located by searching the overlay and the pairs, which changes nothing. -/
theorem locate_eq_ok (hc : s.container? id = some c) (he : c.elements = .resident values)
    (ht : s.heap.Table (Pair.ofBuffer values))
    (hp : ∀ o ∈ c.overlay, s.heap.Pending (Pair.ofBuffer values) o)
    (hh : s.heap.hash key = .ok hash) (h : locate id hash key s = .ok (w, s')) :
    s = s' ∧ Located s.heap c.overlay values key w := by
  obtain ⟨h₁, rfl⟩ := StoreM.readHeap_eq_ok.mp h
  refine ⟨rfl, ?_⟩
  obtain ⟨c', hc', h⟩ := Fallible.bind_eq_ok.mp h₁
  obtain rfl := Option.some.inj (hc.symm.trans (Heap.get_eq_ok.mp hc'))
  obtain ⟨pending, hpending, h⟩ := Fallible.bind_eq_ok.mp h
  obtain ⟨values', hvalues, h⟩ := Fallible.bind_eq_ok.mp h
  obtain rfl := Elements.resident.inj ((StoreM.values_eq_ok.mp hvalues).symm.trans he)
  obtain ⟨found, hfound, h⟩ := Fallible.bind_eq_ok.mp h
  obtain rfl := Fallible.pure_eq_ok.mp h
  obtain ⟨hsome, hnone⟩ := findPending_eq_ok hp hh hpending
  refine ⟨hsome, hnone, ?_, ?_, rfl⟩
  · cases found with
    | «at» j =>
      intro i hi
      obtain rfl : j = i := Option.some.inj hi
      obtain ⟨hlt, hk, -⟩ := ht.find_of_at hfound
      exact ⟨hlt, hk⟩
    | absent j => nofun
  · cases found with
    | «at» j =>
      obtain ⟨-, -, hv⟩ := ht.find_of_at hfound
      rw [hv]
      exact ⟨nofun, nofun⟩
    | absent j => exact ⟨fun _ => ht.find_of_absent hfound, fun _ => rfl⟩

/-- What is looked up in the sorted pairs is the value of the key, or nil. -/
theorem lookupSorted_eq_ok {h : Heap} {value : Value} (he : c.elements = .resident values)
    (ht : h.Table (Pair.ofBuffer values)) (hf : lookupSorted h c key = .ok value) :
    value = (h.find (Pair.ofBuffer values) (h.identity key)).getD .nil := by
  obtain ⟨values', hvalues, hf⟩ := Fallible.bind_eq_ok.mp hf
  obtain rfl := Elements.resident.inj ((StoreM.values_eq_ok.mp hvalues).symm.trans he)
  obtain ⟨found, hfound, hf⟩ := Fallible.bind_eq_ok.mp hf
  cases found with
  | «at» i =>
    obtain ⟨-, -, hv⟩ := ht.find_of_at hfound
    rw [hv]
    exact (Fallible.pure_eq_ok.mp hf).symm
  | absent i =>
    rw [ht.find_of_absent hfound]
    exact (Fallible.pure_eq_ok.mp hf).symm

/-- Looking a key up yields what the mapping holds under it, or nil. -/
theorem lookup_eq_ok {value : Value} (hc : s.container? id = some c)
    (he : c.elements = .resident values) (ht : s.heap.Table (Pair.ofBuffer values))
    (hp : ∀ o ∈ c.overlay, s.heap.Pending (Pair.ofBuffer values) o)
    (h : lookup id key s = .ok (value, s')) :
    s = s' ∧ value =
      (s.heap.seek (Pair.ofBuffer values) c.overlay (s.heap.identity key)).getD .nil := by
  obtain ⟨h₁, rfl⟩ := StoreM.readHeap_eq_ok.mp h
  refine ⟨rfl, ?_⟩
  obtain ⟨c', hc', h⟩ := Fallible.bind_eq_ok.mp h₁
  obtain rfl := Option.some.inj (hc.symm.trans (Heap.get_eq_ok.mp hc'))
  cases ho : c.overlay with
  | none =>
    simp only [ho] at h
    exact lookupSorted_eq_ok he ht h
  | some o =>
    simp only [ho] at h
    obtain ⟨hash, hhash, h⟩ := Fallible.bind_eq_ok.mp h
    obtain ⟨found, hfound, h⟩ := Fallible.bind_eq_ok.mp h
    unfold Heap.seek
    rw [Option.map_some, Option.getD_some]
    cases found with
    | some i =>
      obtain ⟨e, he', hk⟩ := Heap.Pending.find?_some hfound
      obtain ⟨e', he'', h⟩ := Fallible.bind_eq_ok.mp h
      obtain rfl := Option.some.inj (he'.symm.trans (Overlay.entry_eq_ok.mp he''))
      rw [(hp o ho).find_pairs.mpr ⟨i, e, he', hk, rfl⟩]
      exact (Fallible.pure_eq_ok.mp h).symm
    | none =>
      rw [Heap.Pending.find_pairs_none.mpr ((hp o ho).find?_none hhash hfound)]
      exact lookupSorted_eq_ok he ht h

/-- Whereabouts stay as long as the keys keep what they stand for. -/
theorem Located.congr {h h' : Heap} {overlay : Option Overlay}
    (hl : Located h overlay values key w) (hkey : h'.identity key = h.identity key)
    (hvalues : ∀ v ∈ values, h'.identity v = h.identity v)
    (hoverlay : ∀ o ∈ overlay, ∀ j d, o.entries.get? j = some d →
      h'.identity d.key = h.identity d.key) : Located h' overlay values key w where
  pending hi := by
    obtain ⟨o, e, ho, he, hk⟩ := hl.pending hi
    exact ⟨o, e, ho, he, by rw [hoverlay o ho _ e he, hk, hkey]⟩
  unparked hi o ho j d hd := by
    rw [hoverlay o ho j d hd, hkey]
    exact hl.unparked hi o ho j d hd
  sorted {i} hi := by
    obtain ⟨hlt, hk⟩ := hl.sorted hi
    have hmem : values.getD (2 * i) .nil ∈ values := by
      rw [Array.getD_eq_getD_getElem?, Array.getElem?_eq_getElem (by omega)]
      exact Array.getElem_mem _
    exact ⟨hlt, by rw [hvalues _ hmem, hk, hkey]⟩
  absent := by
    have hfind : h'.find (Pair.ofBuffer values) (h'.identity key) =
        h.find (Pair.ofBuffer values) (h.identity key) := by
      rw [hkey]
      exact Heap.find_congr fun p hp => hvalues _ (Pair.mem_of_ofBuffer hp).1
    rw [hfind]
    exact hl.absent
  dirty := hl.dirty

end Mapping

end PlaneStore
