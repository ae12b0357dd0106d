import PlaneStore.Proofs.Mapping.PairTables

/-!
# Pending writes

The overlay of a mapping as a table of its own: each entry is filed under the hash of its key and
says truly whether the sorted pairs lack the key. A merge makes one table of the two.
-/

namespace PlaneStore

/-- The pending writes as pairs. -/
def Overlay.pairs (o : Overlay) : List Pair := o.toList.map fun e => (e.key, e.value)

/-- The pairs of an overlay are those of its entries. -/
theorem Overlay.mem_pairs {o : Overlay} {p : Pair} :
    p ∈ o.pairs ↔ ∃ i e, o.entries.get? i = some e ∧ (e.key, e.value) = p := by
  unfold pairs
  rw [List.mem_map]
  constructor
  · rintro ⟨e, he, hp⟩
    obtain ⟨i, hi⟩ := Slab.mem_toList.mp he
    exact ⟨i, e, hi, hp⟩
  · rintro ⟨i, e, hi, hp⟩
    exact ⟨e, Slab.mem_toList.mpr ⟨i, hi⟩, hp⟩

namespace Slab

variable {α β : Type}

/-- Entries that a function tells apart by their cells are told apart in the list. -/
theorem nodup_toList (s : Slab α) (f : α → β)
    (hf : ∀ i j a b, s.get? i = some a → s.get? j = some b → f a = f b → i = j) :
    (s.toList.map f).Nodup := by
  have hget : ∀ i (hi : i < s.cells.toList.length) a, s.cells.toList[i] = some a →
      s.get? i = some a := by
    intro i hi a ha
    exact get?_eq_some.mpr ⟨by simpa using hi, by simpa using ha⟩
  unfold toList
  rw [List.map_filterMap]
  refine List.pairwise_filterMap.mpr (List.pairwise_iff_getElem.mpr fun i j hi hj hij => ?_)
  intro x hx y hy hxy
  obtain ⟨a, ha, rfl⟩ := Option.map_eq_some_iff.mp hx
  obtain ⟨b, hb, rfl⟩ := Option.map_eq_some_iff.mp hy
  exact absurd (hf i j a b (hget i hi a ha) (hget j hj b hb) hxy) (Nat.ne_of_lt hij)

end Slab

namespace Heap

variable {h h' : Heap} {ps : List Pair} {o : Overlay} {k : Identity}

/-- An overlay that goes with sorted pairs. -/
structure Pending (h : Heap) (ps : List Pair) (o : Overlay) : Prop where
  distinct : ∀ {i j : Nat} {e e' : OverlayEntry}, o.entries.get? i = some e →
    o.entries.get? j = some e' → h.identity e.key = h.identity e'.key → i = j
  hash : ∀ {i : Nat} {e : OverlayEntry}, o.entries.get? i = some e → h.hash e.key = .ok e.hash
  filed : o.Filed
  added : ∀ {i : Nat} {e : OverlayEntry}, o.entries.get? i = some e →
    (e.added = true ↔ h.find ps (h.identity e.key) = none)
  solid : ∀ {i : Nat} {e : OverlayEntry}, o.entries.get? i = some e → e.key ≠ .nil ∧ e.value ≠ .nil

namespace Pending

theorem distinct_pairs (hp : h.Pending ps o) : h.Distinct o.pairs := by
  unfold Distinct Overlay.pairs
  rw [List.map_map]
  exact Slab.nodup_toList _ _ fun i j a b ha hb => hp.distinct ha hb

/-- A pending write is found under its key. -/
theorem find_pairs (hp : h.Pending ps o) {v : Value} : h.find o.pairs k = some v ↔
    ∃ i e, o.entries.get? i = some e ∧ h.identity e.key = k ∧ e.value = v := by
  rw [find_eq_some hp.distinct_pairs]
  constructor
  · rintro ⟨p, hmem, hk, hv⟩
    obtain ⟨i, e, hi, rfl⟩ := Overlay.mem_pairs.mp hmem
    exact ⟨i, e, hi, hk, hv⟩
  · rintro ⟨i, e, hi, hk, hv⟩
    exact ⟨_, Overlay.mem_pairs.mpr ⟨i, e, hi, rfl⟩, hk, hv⟩

theorem find_pairs_none : h.find o.pairs k = none ↔
    ∀ i e, o.entries.get? i = some e → h.identity e.key ≠ k := by
  rw [find_eq_none]
  constructor
  · exact fun hall i e hi => hall _ (Overlay.mem_pairs.mpr ⟨i, e, hi, rfl⟩)
  · rintro hall p hmem
    obtain ⟨i, e, hi, rfl⟩ := Overlay.mem_pairs.mp hmem
    exact hall i e hi

/-! ## Looking for a key -/

theorem findFrom_some {key : Value} {hash : UInt32} {i n : Nat} {cursor : Option Nat}
    (hf : o.findFrom (h.same · key) hash n cursor = .ok (some i)) :
    ∃ e, o.entries.get? i = some e ∧ h.identity e.key = h.identity key := by
  induction n generalizing cursor with
  | zero => cases hf
  | succ n ih =>
    cases cursor with
    | none => cases hf
    | some j =>
      unfold Overlay.findFrom at hf
      obtain ⟨e, he, hf⟩ := Fallible.bind_eq_ok.mp hf
      split at hf
      · obtain ⟨b, hb, hf⟩ := Fallible.bind_eq_ok.mp hf
        cases b with
        | true =>
          obtain rfl := Option.some.inj (Fallible.pure_eq_ok.mp hf)
          exact ⟨e, Overlay.entry_eq_ok.mp he, of_decide_eq_true (same_eq_ok hb).symm⟩
        | false => exact ih hf
      · exact ih hf

/-- If a chain is searched to its end, no entry of the hash has the key. -/
theorem findIn_none {key : Value} {hash : UInt32} {is : List Nat}
    (hf : o.findIn (h.same · key) hash is = .ok none) :
    ∀ i ∈ is, ∀ e, o.entries.get? i = some e → e.hash = hash →
      h.identity e.key ≠ h.identity key := by
  induction is with
  | nil => exact fun i hi => absurd hi List.not_mem_nil
  | cons j is ih =>
    unfold Overlay.findIn at hf
    obtain ⟨e, he, hf⟩ := Fallible.bind_eq_ok.mp hf
    have hget := Overlay.entry_eq_ok.mp he
    intro i hi e' he' hhash
    split at hf
    · obtain ⟨b, hb, hf⟩ := Fallible.bind_eq_ok.mp hf
      cases b with
      | true => cases Fallible.pure_eq_ok.mp hf
      | false =>
        rcases List.mem_cons.mp hi with rfl | hi
        · obtain rfl := Option.some.inj (hget.symm.trans he')
          exact of_decide_eq_false (same_eq_ok hb).symm
        · exact ih hf i hi e' he' hhash
    · next hne =>
      rcases List.mem_cons.mp hi with rfl | hi
      · obtain rfl := Option.some.inj (hget.symm.trans he')
        exact absurd hhash hne
      · exact ih hf i hi e' he' hhash

/-- The search in an overlay finds the entry of a key if there is one. -/
theorem find?_none (hp : h.Pending ps o) {key : Value} {hash : UInt32}
    (hh : h.hash key = .ok hash) (hf : o.find? (h.same · key) hash = .ok none) :
    ∀ i e, o.entries.get? i = some e → h.identity e.key ≠ h.identity key := by
  intro i e hi hk
  obtain rfl := hash_eq_of_identity hk (hp.hash hi) hh
  obtain ⟨is, hmem, hfind⟩ := hp.filed.find?_eq_findIn e.hash
  rw [hfind] at hf
  exact findIn_none hf i ((hmem i).mpr ⟨e, hi, rfl⟩) e hi rfl hk

/-- What is found in an overlay has the key. -/
theorem find?_some {key : Value} {hash : UInt32} {i : Nat}
    (hf : o.find? (h.same · key) hash = .ok (some i)) :
    ∃ e, o.entries.get? i = some e ∧ h.identity e.key = h.identity key :=
  findFrom_some hf

/-! ## Changing an overlay -/

theorem ofBuckets (n : Nat) : h.Pending ps (.ofBuckets n) := by
  have hnone : ∀ {i : Nat} {e : OverlayEntry}, (Overlay.ofBuckets n).entries.get? i ≠ some e := by
    intro i e hi
    have hi' : ({} : Slab OverlayEntry).get? i = some e := hi
    rw [Slab.get?_of_size_le (Nat.zero_le _)] at hi'
    cases hi'
  exact ⟨fun hi => absurd hi hnone, fun hi => absurd hi hnone, .ofBuckets n,
    fun hi => absurd hi hnone, fun hi => absurd hi hnone⟩

/-- What is in a cell after an entry was added. -/
theorem get?_insert (hs : o.entries.Sound) {e d : OverlayEntry} {i : Nat} :
    (o.insert e).entries.get? i = some d ↔
      (i = o.entries.nextCell ∧ d = e) ∨ o.entries.get? i = some d := by
  rw [Overlay.entries_insert]
  by_cases hi : o.entries.nextCell = i
  · subst hi
    rw [Slab.get?_insert_self hs, Slab.get?_nextCell hs]
    simp [eq_comm]
  · rw [Slab.get?_insert_of_ne hi]
    simp [Ne.symm hi]

/-- A write to a key that has none pending can be put in. -/
theorem insert (hp : h.Pending ps o) (hs : o.entries.Sound) {e : OverlayEntry}
    (hhash : h.hash e.key = .ok e.hash)
    (hnew : ∀ i d, o.entries.get? i = some d → h.identity d.key ≠ h.identity e.key)
    (hadd : e.added = true ↔ h.find ps (h.identity e.key) = none)
    (hv : e.key ≠ .nil ∧ e.value ≠ .nil) :
    h.Pending ps (o.insert e) where
  distinct hi hj hid := by
    rcases (get?_insert hs).mp hi with ⟨rfl, rfl⟩ | hi'
    · rcases (get?_insert hs).mp hj with ⟨rfl, rfl⟩ | hj'
      · rfl
      · exact absurd hid.symm (hnew _ _ hj')
    · rcases (get?_insert hs).mp hj with ⟨rfl, rfl⟩ | hj'
      · exact absurd hid (hnew _ _ hi')
      · exact hp.distinct hi' hj' hid
  hash hi := by
    rcases (get?_insert hs).mp hi with ⟨rfl, rfl⟩ | hi
    · exact hhash
    · exact hp.hash hi
  filed := hp.filed.insert hs e
  added hi := by
    rcases (get?_insert hs).mp hi with ⟨rfl, rfl⟩ | hi
    · exact hadd
    · exact hp.added hi
  solid hi := by
    rcases (get?_insert hs).mp hi with ⟨rfl, rfl⟩ | hi
    · exact hv
    · exact hp.solid hi

/-- What was put in is found under its key, and nothing else has changed. -/
theorem find_insert (hp : h.Pending ps o) (hs : o.entries.Sound) {e : OverlayEntry}
    (hi : h.Pending ps (o.insert e)) :
    h.find (o.insert e).pairs k =
      if h.identity e.key = k then some e.value else h.find o.pairs k := by
  refine Option.ext fun v => ?_
  rw [hi.find_pairs]
  split
  · next hk =>
    constructor
    · rintro ⟨i, d, hget, hid, rfl⟩
      have hself : (o.insert e).entries.get? o.entries.nextCell = some e :=
        (get?_insert hs).mpr (Or.inl ⟨rfl, rfl⟩)
      obtain rfl := hi.distinct hget hself (hid.trans hk.symm)
      obtain rfl := Option.some.inj (hget.symm.trans hself)
      rfl
    · intro hv
      exact ⟨_, e, (get?_insert hs).mpr (Or.inl ⟨rfl, rfl⟩), hk, Option.some.inj hv⟩
  · next hk =>
    rw [hp.find_pairs]
    constructor
    · rintro ⟨i, d, hget, hid, hv⟩
      rcases (get?_insert hs).mp hget with ⟨-, rfl⟩ | hget
      · exact absurd hid hk
      · exact ⟨i, d, hget, hid, hv⟩
    · rintro ⟨i, d, hget, hid, hv⟩
      exact ⟨i, d, (get?_insert hs).mpr (Or.inr hget), hid, hv⟩

/-- What is in a cell after an entry got another value. -/
theorem get?_set {e d : OverlayEntry} {i j : Nat} {v : Value} (hi : o.entries.get? i = some e)
    (hj : (o.entries.set i { e with value := v }).get? j = some d) :
    ∃ d', o.entries.get? j = some d' ∧ d'.key = d.key ∧ d'.hash = d.hash ∧ d'.added = d.added ∧
      d.value = if i = j then v else d'.value := by
  by_cases hij : i = j
  · subst hij
    obtain rfl := Option.some.inj ((Slab.get?_set_self hi).symm.trans hj)
    exact ⟨e, hi, rfl, rfl, rfl, (if_pos rfl).symm⟩
  · rw [Slab.get?_set_of_ne hij] at hj
    exact ⟨d, hj, rfl, rfl, rfl, (if_neg hij).symm⟩

/-- The value of a pending write can be replaced by any but nil. -/
theorem set (hp : h.Pending ps o) {i : Nat} {e : OverlayEntry} {v : Value}
    (hi : o.entries.get? i = some e) (hv : v ≠ .nil) :
    h.Pending ps { o with entries := o.entries.set i { e with value := v } } where
  distinct hj hl hid := by
    obtain ⟨d, hd, hdk, -⟩ := get?_set hi hj
    obtain ⟨d', hd', hdk', -⟩ := get?_set hi hl
    exact hp.distinct hd hd' (by rw [hdk, hdk', hid])
  hash hj := by
    obtain ⟨d, hd, hdk, hdh, -⟩ := get?_set hi hj
    rw [← hdk, ← hdh]
    exact hp.hash hd
  filed := hp.filed.set hi rfl rfl
  added hj := by
    obtain ⟨d, hd, hdk, -, hda, -⟩ := get?_set hi hj
    rw [← hdk, ← hda]
    exact hp.added hd
  solid hj := by
    obtain ⟨d, hd, hdk, -, -, hdv⟩ := get?_set hi hj
    rw [← hdk, hdv]
    split
    · exact ⟨(hp.solid hd).1, hv⟩
    · exact hp.solid hd

/-- What was replaced is found under its key, and nothing else has changed. -/
theorem find_set (hp : h.Pending ps o) {i : Nat} {e : OverlayEntry} {v : Value}
    (hi : o.entries.get? i = some e) (hv : v ≠ .nil) :
    h.find (Overlay.pairs { o with entries := o.entries.set i { e with value := v } }) k =
      if h.identity e.key = k then some v else h.find o.pairs k := by
  have hself := Slab.get?_set_self (a := { e with value := v }) hi
  refine Option.ext fun w => ?_
  rw [(hp.set hi hv).find_pairs]
  split
  · next hk =>
    constructor
    · rintro ⟨j, d, hget, hid, rfl⟩
      obtain rfl := (hp.set hi hv).distinct hget hself (hid.trans hk.symm)
      obtain rfl := Option.some.inj (hget.symm.trans hself)
      rfl
    · intro hw
      exact ⟨i, _, hself, hk, Option.some.inj hw⟩
  · next hk =>
    rw [hp.find_pairs]
    constructor
    · rintro ⟨j, d, hget, hid, hw⟩
      have hij : i ≠ j := by
        rintro rfl
        obtain rfl := Option.some.inj (hget.symm.trans hself)
        exact hk hid
      exact ⟨j, d, (Slab.get?_set_of_ne hij).symm.trans hget, hid, hw⟩
    · rintro ⟨j, d, hget, hid, hw⟩
      have hij : i ≠ j := by
        rintro rfl
        obtain rfl := Option.some.inj (hget.symm.trans hi)
        exact hk hid
      exact ⟨j, d, (Slab.get?_set_of_ne hij).trans hget, hid, hw⟩

/-- What is in a cell after an entry was taken out. -/
theorem get?_erase {d : OverlayEntry} {i j : Nat} :
    (o.entries.erase i).get? j = some d ↔ i ≠ j ∧ o.entries.get? j = some d := by
  by_cases hij : i = j
  · subst hij
    rw [Slab.get?_erase_self]
    simp
  · rw [Slab.get?_erase_of_ne hij]
    simp [hij]

/-- A pending write can be taken out. -/
theorem without (hp : h.Pending ps o) {i : Nat} {e : OverlayEntry}
    (hi : o.entries.get? i = some e) : h.Pending ps (o.without i e) where
  distinct hj hl hid := hp.distinct (get?_erase.mp hj).2 (get?_erase.mp hl).2 hid
  hash hj := hp.hash (get?_erase.mp hj).2
  filed := hp.filed.without hi
  added hj := hp.added (get?_erase.mp hj).2
  solid hj := hp.solid (get?_erase.mp hj).2

/-- What was taken out is not found any more, and nothing else has changed. -/
theorem find_without (hp : h.Pending ps o) {i : Nat} {e : OverlayEntry}
    (hi : o.entries.get? i = some e) :
    h.find (o.without i e).pairs k = if h.identity e.key = k then none else h.find o.pairs k := by
  split
  · next hk =>
    refine find_pairs_none.mpr fun j d hget hid => ?_
    obtain ⟨hij, hget⟩ := get?_erase.mp hget
    exact hij (hp.distinct hi hget (hk.trans hid.symm))
  · next hk =>
    refine Option.ext fun w => ?_
    rw [(hp.without hi).find_pairs, hp.find_pairs]
    constructor
    · rintro ⟨j, d, hget, hid, hw⟩
      exact ⟨j, d, (get?_erase.mp hget).2, hid, hw⟩
    · rintro ⟨j, d, hget, hid, hw⟩
      refine ⟨j, d, get?_erase.mpr ⟨?_, hget⟩, hid, hw⟩
      rintro rfl
      obtain rfl := Option.some.inj (hget.symm.trans hi)
      exact hk hid

/-- Sorted pairs may change as long as no key with a pending write comes or goes. -/
theorem of_find (hp : h.Pending ps o) {qs : List Pair}
    (hf : ∀ i e, o.entries.get? i = some e →
      (h.find qs (h.identity e.key) = none ↔ h.find ps (h.identity e.key) = none)) :
    h.Pending qs o where
  distinct := hp.distinct
  hash := hp.hash
  filed := hp.filed
  added hi := (hp.added hi).trans (hf _ _ hi).symm
  solid := hp.solid

/-- An overlay goes with its pairs as long as the keys keep their places. -/
theorem congr (hp : h.Pending ps o)
    (hkeys : ∀ i e, o.entries.get? i = some e → h'.place e.key = h.place e.key ∧
      ∀ id, e.key = .string id → ∃ x, h'.strings.get? id.slot = some x)
    (hk : ∀ p ∈ ps, h'.place p.1 = h.place p.1) : h'.Pending ps o where
  distinct hi hj hid := by
    rw [identity_eq_of_place (hkeys _ _ hi).1, identity_eq_of_place (hkeys _ _ hj).1] at hid
    exact hp.distinct hi hj hid
  hash hi := hash_congr (hkeys _ _ hi).1 (hkeys _ _ hi).2 (hp.hash hi)
  filed := hp.filed
  added hi := by
    rw [identity_eq_of_place (hkeys _ _ hi).1,
      find_congr fun p hp => identity_eq_of_place (hk p hp)]
    exact hp.added hi
  solid := hp.solid

end Pending

end Heap

end PlaneStore
