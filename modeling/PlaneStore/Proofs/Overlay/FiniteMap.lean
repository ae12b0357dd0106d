import PlaneStore.Proofs.Totality.Comparing

/-!
# An overlay is a finite map

Whatever is asked of an overlay that started empty, as long as no key is inserted twice, equal keys
come with equal hashes, and only indices in use are named: its chains are finite and hold each entry
once, in the bucket of its hash; a search ends and finds the one entry of a key, or none; the counts
and the list are those of the entries; the free list has each cell that was given back once, the
last one in front; and there is room. None of it depends on how many buckets there are.
-/

namespace PlaneStore

namespace Slab

variable {α : Type} {s : Slab α}

/-- The list of a slab goes through its cells in order. -/
theorem toList_eq_filterMap (s : Slab α) :
    s.toList = (List.range s.cells.size).filterMap s.get? := by
  have hcells : s.cells.toList = (List.range s.cells.size).map s.get? := by
    refine List.ext_getElem (by simp) ?_
    intro i hi _
    have hi : i < s.cells.size := by simpa using hi
    simp [get?, hi]
  unfold toList
  rw [hcells, List.filterMap_map]
  rfl

theorem live_eq_length (hs : s.Sound) : s.live = s.toList.length := by
  rw [live_eq_total hs]
  simp [total]

end Slab

namespace Overlay

/-- What can be asked of an overlay. -/
inductive Query where
  | insert (e : OverlayEntry)
  | find (key : Value) (hash : UInt32)
  | entry (i : Nat)
  | setValue (i : Nat) (v : Value)
  | remove (i : Nat)
  | grow
  | list

inductive Answer where
  | done
  | index (i : Nat)
  | found (i : Option Nat)
  | entry (e : OverlayEntry)
  | entries (es : List OverlayEntry)

/-- The answer of an overlay, and what becomes of it. -/
def ask (h : Heap) (o : Overlay) : Query → Except Fault (Answer × Overlay)
  | .insert e => return (.index o.nextIndex, o.insert e)
  | .find key hash => return (.found (← o.find? (h.same · key) hash), o)
  | .entry i => return (.entry (← o.entry i), o)
  | .setValue i v => return (.done, ← o.setValue i v)
  | .remove i => do
    let (e, o) ← o.remove i
    return (.entry e, o)
  | .grow => return (.done, o.grow)
  | .list => return (.entries o.toList, o)

section

variable (h : Heap) (hashOf : Identity → UInt32)

/-- What may be asked: new keys under the hash of what they stand for, and indices in use. -/
def Admits (o : Overlay) : Query → Prop
  | .insert e => h.Has e.key ∧ e.hash = hashOf (h.identity e.key) ∧
      ∀ d ∈ o.toList, h.identity d.key ≠ h.identity e.key
  | .find key hash => h.Has key ∧ hash = hashOf (h.identity key)
  | .entry i | .setValue i _ | .remove i => o.entries.contains i = true
  | .grow | .list => True

/-- An overlay that was made with `n` buckets, of which only was asked what may be asked. -/
inductive Reached (n : Nat) : Overlay → Prop
  | start : Reached n (ofBuckets n)
  | ask {o o' : Overlay} {q : Query} {a : Answer} (ho : Reached n o) (hq : o.Admits h hashOf q)
    (h : o.ask h q = .ok (a, o')) : Reached n o'

/-- The right answer to a query, and the right change of the overlay. -/
def Does (o : Overlay) : Query → Answer → Overlay → Prop
  | .insert e, .index i, o' => o.entries.Fills i e o'.entries
  | .find key _, .found r, o' => o' = o ∧ ∀ i, r = some i ↔
      ∃ e, o.entries.get? i = some e ∧ h.identity e.key = h.identity key
  | .entry i, .entry e, o' => o' = o ∧ o.entries.get? i = some e
  | .setValue i v, .done, o' => ∃ e, o.entries.Rewrites i e { e with value := v } o'.entries
  | .remove i, .entry e, o' => o.entries.Empties i e o'.entries
  | .grow, .done, o' => o'.entries = o.entries ∧ o'.buckets.size = 2 * o.buckets.size ∧
      ∀ q a p, o.Admits h hashOf q → o.ask h q = .ok (a, p) →
        ∃ p', o'.ask h q = .ok (a, p') ∧ p'.entries = p.entries
  | .list, .entries es, o' => o' = o ∧ es = o.toList
  | _, _, _ => False

/-- What an overlay is between queries. -/
structure IsMap (o : Overlay) : Prop where
  /-- Every chain is finite and holds the entries of its bucket, each once, and nothing else. -/
  chain : ∀ b, ∃ is, Thread o.next (o.head b) is ∧ is.Nodup ∧
    ∀ i, i ∈ is ↔ ∃ e, o.entries.get? i = some e ∧ o.bucket e.hash = b
  distinct : ∀ {i j d e}, o.entries.get? i = some d → o.entries.get? j = some e →
    h.identity d.key = h.identity e.key → i = j
  /-- The search comes to an end, and would with more steps, at the entry of the key or at none. -/
  find : ∀ key, h.Has key → ∃ r,
    (∀ n, o.entries.cells.size ≤ n → o.findFrom (h.same · key) (hashOf (h.identity key)) n
      (o.head (o.bucket (hashOf (h.identity key)))) = .ok r) ∧
    ∀ i, r = some i ↔ ∃ e, o.entries.get? i = some e ∧ h.identity e.key = h.identity key
  list : o.toList = (List.range o.entries.cells.size).filterMap o.entries.get?
  size : o.size = o.toList.length
  added : o.addedCount = o.toList.countP OverlayEntry.added
  empty : o.isEmpty = true ↔ o.toList = []
  free_nodup : o.entries.free.Nodup
  free : ∀ i, i ∈ o.entries.free ↔ i < o.entries.cells.size ∧ o.entries.get? i = none
  power : ∃ k, o.buckets.size = 2 ^ k
  least : minBuckets ≤ o.buckets.size
  load : 4 * o.size ≤ 3 * o.buckets.size

/-! ## What every query keeps -/

/-- All that makes an overlay a map, and that each query keeps. -/
structure Tidy (o : Overlay) : Prop where
  filed : o.Filed
  sound : o.entries.Sound
  distinct : ∀ {i j d e}, o.entries.get? i = some d → o.entries.get? j = some e →
    h.identity d.key = h.identity e.key → i = j
  entry : ∀ {i e}, o.entries.get? i = some e →
    h.Has e.key ∧ e.hash = hashOf (h.identity e.key)
  power : ∃ k, o.buckets.size = 2 ^ k
  least : minBuckets ≤ o.buckets.size
  load : 4 * o.size ≤ 3 * o.buckets.size

end

namespace Tidy

variable {h : Heap} {hashOf : Identity → UInt32} {n : Nat} {o o' : Overlay} {i : Nat}
  {e : OverlayEntry} {v key : Value}

theorem ofBuckets (n : Nat) : (ofBuckets n).Tidy h hashOf := by
  have hnone : ∀ {i e}, (Overlay.ofBuckets n).entries.get? i ≠ some e := by
    intro i e hi
    rw [entries_ofBuckets, Slab.get?_of_size_le (Nat.zero_le _)] at hi
    cases hi
  refine ⟨.ofBuckets n, Slab.sound_empty, ?_, ?_, ?_, minBuckets_le_size n, Nat.zero_le _⟩
  · intro i j d e hd
    exact absurd hd hnone
  · intro i e he
    exact absurd he hnone
  · refine ⟨(max n minBuckets - 1).log2 + 1, ?_⟩
    simp only [Overlay.ofBuckets, Array.size_replicate, powerAbove, Nat.one_shiftLeft]

theorem grow (ht : o.Tidy h hashOf) : o.grow.Tidy h hashOf := by
  have hsize := ht.filed.size_buckets_grow
  have hload := ht.load
  have hleast := ht.least
  obtain ⟨k, hk⟩ := ht.power
  refine ⟨ht.filed.grow, ht.sound, ht.distinct, ht.entry, ⟨k + 1, ?_⟩, by omega, ?_⟩
  · rw [hsize, hk, Nat.pow_succ, Nat.mul_comm]
  · show 4 * o.size ≤ _
    omega

/-- There is room for one more entry when it is put in. -/
theorem reserve (ht : o.Tidy h hashOf) :
    o.reserve.Tidy h hashOf ∧ 4 * (o.size + 1) ≤ 3 * o.reserve.buckets.size := by
  have hload := ht.load
  have hleast : 4 ≤ o.buckets.size := ht.least
  unfold Overlay.reserve
  split
  · refine ⟨ht.grow, ?_⟩
    rw [ht.filed.size_buckets_grow]
    omega
  · exact ⟨ht, by omega⟩

/--
An insertion doubles the buckets only when the entries would fill more than three quarters of them,
so there are never many more buckets than the most entries that there were.
-/
theorem size_buckets_insert_le (ht : o.Tidy h hashOf) (e : OverlayEntry) :
    (o.insert e).buckets.size ≤ max o.buckets.size (3 * (o.size + 1)) := by
  have hsize : (o.insert e).buckets.size = o.reserve.buckets.size := Chains.size_buckets_push
  rw [hsize]
  unfold Overlay.reserve
  split
  · rw [ht.filed.size_buckets_grow]
    omega
  · exact Nat.le_max_left ..

/-- An entry that is put in fills the next free cell. -/
theorem fills (ht : o.Tidy h hashOf) (e : OverlayEntry) :
    o.entries.Fills o.nextIndex e (o.insert e).entries := by
  rw [entries_insert]
  exact Slab.fills_insert ht.sound e

/-- An overlay with a new key put in is tidy. -/
theorem insert (ht : o.Tidy h hashOf) (hq : o.Admits h hashOf (.insert e)) :
    (o.insert e).Tidy h hashOf := by
  obtain ⟨hhas, hhash, hnew⟩ := hq
  obtain ⟨hroom, hload⟩ := ht.reserve
  have hother : ∀ {j d}, o.entries.get? j = some d → h.identity d.key ≠ h.identity e.key :=
    fun hj => hnew _ (Slab.mem_toList.mpr ⟨_, hj⟩)
  have hsize : (o.insert e).buckets.size = o.reserve.buckets.size := Chains.size_buckets_push
  refine ⟨ht.filed.insert ht.sound e, ?_, ?_, ?_, ?_, ?_, ?_⟩
  · rw [entries_insert]
    exact ht.sound.insert
  · intro i j d d' hd hd' hid
    rw [(ht.fills e).get?] at hd hd'
    split at hd <;> split at hd'
    · next hi hj => rw [← hi, hj]
    · obtain rfl := Option.some.inj hd
      exact absurd hid.symm (hother hd')
    · obtain rfl := Option.some.inj hd'
      exact absurd hid (hother hd)
    · exact ht.distinct hd hd' hid
  · intro j d hd
    rw [(ht.fills e).get?] at hd
    split at hd
    · obtain rfl := Option.some.inj hd
      exact ⟨hhas, hhash⟩
    · exact ht.entry hd
  · rw [hsize]
    exact hroom.power
  · rw [hsize]
    exact hroom.least
  · rw [hsize, size, entries_insert, Slab.live_insert]
    exact hload

/-- An overlay with another value for a key is tidy. -/
theorem set (ht : o.Tidy h hashOf) (hi : o.entries.get? i = some e) :
    Tidy h hashOf { o with entries := o.entries.set i { e with value := v } } := by
  -- Entries keep their keys and hashes, so whatever is asked of these still holds.
  have hold : ∀ {j d}, (o.entries.set i { e with value := v }).get? j = some d →
      ∃ d', o.entries.get? j = some d' ∧ d'.key = d.key ∧ d'.hash = d.hash := by
    intro j d hd
    obtain ⟨d', hd', hkey, hhash, -⟩ := Heap.Pending.get?_set hi hd
    exact ⟨d', hd', hkey, hhash⟩
  refine ⟨ht.filed.set hi rfl rfl, ht.sound.set hi, ?_, ?_, ht.power, ht.least, ht.load⟩
  · intro i j d e hd he hid
    obtain ⟨d', hd', hdk, -⟩ := hold hd
    obtain ⟨e', he', hek, -⟩ := hold he
    rw [← hdk, ← hek] at hid
    exact ht.distinct hd' he' hid
  · intro j d hd
    obtain ⟨d', hd', hdk, hdh⟩ := hold hd
    rw [← hdk, ← hdh]
    exact ht.entry hd'

/-- An overlay with an entry taken out is tidy. -/
theorem without (ht : o.Tidy h hashOf) (hi : o.entries.get? i = some e) :
    (o.without i e).Tidy h hashOf := by
  have hsize : (o.without i e).buckets.size = o.buckets.size := Chains.size_buckets_unlink
  have hold : ∀ {j d}, (o.without i e).entries.get? j = some d → o.entries.get? j = some d :=
    fun hd => (Heap.Pending.get?_erase.mp hd).2
  refine ⟨ht.filed.without hi, ht.sound.erase hi, ?_, ?_, ?_, ?_, ?_⟩
  · intro i j d e hd he
    exact ht.distinct (hold hd) (hold he)
  · intro j d hd
    exact ht.entry (hold hd)
  · rw [hsize]
    exact ht.power
  · rw [hsize]
    exact ht.least
  · have hload := ht.load
    rw [hsize]
    show 4 * (o.entries.live - 1) ≤ _
    unfold size at hload
    omega

/-! ## The right answers -/

/-- The search for a key ends with its entry, if there is one. -/
theorem find (ht : o.Tidy h hashOf) (hkey : h.Has key) : ∃ r,
    (∀ n, o.entries.cells.size ≤ n → o.findFrom (h.same · key) (hashOf (h.identity key)) n
      (o.head (o.bucket (hashOf (h.identity key)))) = .ok r) ∧
    ∀ i, r = some i ↔ ∃ e, o.entries.get? i = some e ∧ h.identity e.key = h.identity key := by
  have hfind : Faultless (o.find? (h.same · key) (hashOf (h.identity key))) :=
    faultless_find? ht.filed (fun i e hi => (ht.entry hi).1) hkey
  obtain ⟨r, hr⟩ := hfind
  obtain ⟨is, hmem, hwalk⟩ := ht.filed.findFrom_eq_findIn (hashOf (h.identity key))
  have hin := (hwalk (h.same · key) _ (Nat.le_refl _)).symm.trans hr
  refine ⟨r, fun n hn => (hwalk _ n hn).trans hin, fun i => ⟨?_, ?_⟩⟩
  · rintro rfl
    exact Heap.Pending.find?_some hr
  · rintro ⟨e, he, hid⟩
    have hhash : e.hash = hashOf (h.identity key) := by rw [(ht.entry he).2, hid]
    cases r with
    | none => exact absurd hid (Heap.Pending.findIn_none hin i ((hmem i).mpr ⟨e, he, by rw [hhash]⟩)
        e he hhash)
    | some j =>
      obtain ⟨d, hd, hid'⟩ := Heap.Pending.find?_some hr
      rw [ht.distinct hd he (hid'.trans hid.symm)]

/-- The answer depends on the entries alone, not on the chains. -/
theorem ask_congr (ht : o.Tidy h hashOf) (ht' : o'.Tidy h hashOf) (he : o'.entries = o.entries)
    {q : Query} {a : Answer} {p : Overlay} (hq : o.Admits h hashOf q)
    (hask : o.ask h q = .ok (a, p)) : ∃ p', o'.ask h q = .ok (a, p') ∧ p'.entries = p.entries := by
  have hentry : ∀ i, o'.entry i = o.entry i := fun i => by
    rw [Overlay.entry, Overlay.entry, he]
  cases q with
  | insert e =>
    obtain ⟨rfl, rfl⟩ := Prod.mk.inj (Fallible.pure_eq_ok.mp hask)
    refine ⟨o'.insert e, ?_, by rw [entries_insert, entries_insert, he]⟩
    rw [ask, nextIndex, he]
    rfl
  | find key hash =>
    obtain ⟨hkey, rfl⟩ := hq
    obtain ⟨r, hr, hask⟩ := Fallible.bind_eq_ok.mp hask
    obtain ⟨rfl, rfl⟩ := Prod.mk.inj (Fallible.pure_eq_ok.mp hask)
    obtain ⟨r₁, hr₁, hiff₁⟩ := ht.find hkey
    obtain ⟨r₂, hr₂, hiff₂⟩ := ht'.find hkey
    obtain rfl := Except.ok.inj ((hr₁ _ (Nat.le_refl _)).symm.trans hr)
    -- A search answers with the one entry of its key, however the entries are spread over buckets.
    have hsame : r₂ = r₁ := Option.ext fun i => by rw [hiff₁, hiff₂, he]
    exact ⟨o', Fallible.bind_eq_ok.mpr ⟨r₁, hsame ▸ hr₂ _ (Nat.le_refl _), rfl⟩, he⟩
  | entry i =>
    obtain ⟨e, hi, hask⟩ := Fallible.bind_eq_ok.mp hask
    obtain ⟨rfl, rfl⟩ := Prod.mk.inj (Fallible.pure_eq_ok.mp hask)
    exact ⟨o', Fallible.bind_eq_ok.mpr ⟨e, (hentry i).trans hi, rfl⟩, he⟩
  | setValue i v =>
    obtain ⟨p, hp, hask⟩ := Fallible.bind_eq_ok.mp hask
    obtain ⟨rfl, rfl⟩ := Prod.mk.inj (Fallible.pure_eq_ok.mp hask)
    obtain ⟨e, hi, hp⟩ := Fallible.bind_eq_ok.mp hp
    obtain rfl := Fallible.pure_eq_ok.mp hp
    refine ⟨_, Fallible.bind_eq_ok.mpr
      ⟨_, Fallible.bind_eq_ok.mpr ⟨e, (hentry i).trans hi, rfl⟩, rfl⟩,
      ?_⟩
    rw [he]
  | remove i =>
    obtain ⟨⟨e, p⟩, hp, hask⟩ := Fallible.bind_eq_ok.mp hask
    obtain ⟨rfl, rfl⟩ := Prod.mk.inj (Fallible.pure_eq_ok.mp hask)
    obtain ⟨hi, rfl⟩ := remove_eq_ok.mp hp
    refine ⟨o'.without i e, Fallible.bind_eq_ok.mpr ⟨(e, o'.without i e), ?_, rfl⟩, ?_⟩
    · exact remove_eq_ok.mpr ⟨he ▸ hi, rfl⟩
    · show o'.entries.erase i = o.entries.erase i
      rw [he]
  | grow =>
    obtain ⟨rfl, rfl⟩ := Prod.mk.inj (Fallible.pure_eq_ok.mp hask)
    exact ⟨o'.grow, rfl, he⟩
  | list =>
    obtain ⟨rfl, rfl⟩ := Prod.mk.inj (Fallible.pure_eq_ok.mp hask)
    refine ⟨o', ?_, he⟩
    rw [ask, toList, he]
    rfl

/-- Whatever may be asked is answered, and rightly. -/
theorem answers (ht : o.Tidy h hashOf) {q : Query} (hq : o.Admits h hashOf q) :
    ∃ a o', o.ask h q = .ok (a, o') ∧ o.Does h hashOf q a o' ∧ o'.Tidy h hashOf := by
  cases q with
  | insert e =>
    exact ⟨.index o.nextIndex, o.insert e, rfl, ht.fills e, ht.insert hq⟩
  | find key hash =>
    obtain ⟨hkey, rfl⟩ := hq
    obtain ⟨r, hr, hiff⟩ := ht.find hkey
    exact ⟨.found r, o, Fallible.bind_eq_ok.mpr ⟨r, hr _ (Nat.le_refl _), rfl⟩, ⟨rfl, hiff⟩, ht⟩
  | entry i =>
    obtain ⟨e, hi⟩ := Option.isSome_iff_exists.mp hq
    exact ⟨.entry e, o, Fallible.bind_eq_ok.mpr ⟨e, entry_eq_ok.mpr hi, rfl⟩, ⟨rfl, hi⟩, ht⟩
  | setValue i v =>
    obtain ⟨e, hi⟩ := Option.isSome_iff_exists.mp hq
    exact ⟨.done, _, Fallible.bind_eq_ok.mpr ⟨_, Fallible.bind_eq_ok.mpr
      ⟨e, entry_eq_ok.mpr hi, rfl⟩, rfl⟩, ⟨e, Slab.rewrites_set hi _⟩, ht.set hi⟩
  | remove i =>
    obtain ⟨e, hi⟩ := Option.isSome_iff_exists.mp hq
    refine ⟨.entry e, o.without i e, ?_, Slab.empties_erase hi, ht.without hi⟩
    exact Fallible.bind_eq_ok.mpr ⟨(e, o.without i e), remove_eq_ok.mpr ⟨hi, rfl⟩, rfl⟩
  | grow =>
    refine ⟨.done, o.grow, rfl, ⟨rfl, ht.filed.size_buckets_grow, ?_⟩, ht.grow⟩
    intro q a p hq hask
    exact ht.ask_congr ht.grow rfl hq hask
  | list => exact ⟨.entries o.toList, o, rfl, ⟨rfl, rfl⟩, ht⟩

theorem isMap (ht : o.Tidy h hashOf) : o.IsMap h hashOf where
  chain b := by
    obtain ⟨is, hthread, hmem⟩ := ht.filed.files.chain b
    exact ⟨is, hthread, hthread.nodup, fun i => (hmem i).trans placeOf_eq_some⟩
  distinct := ht.distinct
  find key hkey := ht.find hkey
  list := o.entries.toList_eq_filterMap
  size := Slab.live_eq_length ht.sound
  added := ht.filed.addedCount_eq_countP
  empty := by
    have hsize : o.size = o.toList.length := Slab.live_eq_length ht.sound
    rw [isEmpty, beq_iff_eq, hsize, List.length_eq_zero_iff]
  free_nodup := ht.sound.nodup
  free := ht.sound.mem_free
  power := ht.power
  least := ht.least
  load := ht.load

end Tidy

/-! ## Every overlay -/

section

variable {h : Heap} {hashOf : Identity → UInt32} {n : Nat} {o : Overlay}

theorem Reached.tidy (ho : o.Reached h hashOf n) : o.Tidy h hashOf := by
  induction ho with
  | start => exact .ofBuckets n
  | ask ho hq hask ih =>
    obtain ⟨a, o', hask', -, ht⟩ := ih.answers hq
    obtain ⟨-, rfl⟩ := Prod.mk.inj (Except.ok.inj (hask'.symm.trans hask))
    exact ht

/-- An overlay is a finite map, and gives the right answer to everything that may be asked. -/
theorem Reached.finite_map (ho : o.Reached h hashOf n) : o.IsMap h hashOf ∧
    ∀ q, o.Admits h hashOf q → ∃ a o', o.ask h q = .ok (a, o') ∧ o.Does h hashOf q a o' := by
  refine ⟨ho.tidy.isMap, ?_⟩
  intro q hq
  obtain ⟨a, o', hask, hdoes, -⟩ := ho.tidy.answers hq
  exact ⟨a, o', hask, hdoes⟩

end

/-- An entry for a number; all of them have the same hash. -/
def colliding (n : Int64) : OverlayEntry := ⟨7, n % 2 = 0, .int n, .nil⟩

/-- Four entries on one chain, two of them in cells that were given back before. -/
def crowded : Overlay where
  buckets := (Array.replicate 8 none).set! 7 (some 3)
  links := #[none, some 0, some 1, some 2]
  entries :=
    { cells := #[some (colliding 4), some (colliding 5), some (colliding 3), some (colliding 6)]
      live := 4 }
  addedCount := 2

theorem reached_crowded : crowded.Reached {} (fun _ => 7) 0 := by
  have insert : ∀ {o : Overlay} (n : Int64), o.Reached {} (fun _ => 7) 0 →
      (∀ d ∈ o.toList, Heap.identity {} d.key ≠ Heap.identity {} (.int n)) →
        (o.insert (colliding n)).Reached {} (fun _ => 7) 0 :=
    fun n ho hn => ho.ask (q := .insert (colliding n)) ⟨⟨nofun, nofun⟩, rfl, hn⟩ rfl
  have h₃ := insert 3 (insert 2 (insert 1 .start (by decide)) (by decide)) (by decide)
  have h₁ := (h₃.ask (q := .remove 1) rfl rfl).ask (q := .remove 0) rfl rfl
  exact insert 6 (insert 5 (insert 4 h₁ (by decide)) (by decide)) (by decide)

/-- Four entries under one hash, in one chain. -/
theorem finite_map_crowded : crowded.Reached {} (fun _ => 7) 0 ∧
    crowded.IsMap {} (fun _ => 7) ∧ ∀ q, crowded.Admits {} (fun _ => 7) q →
      ∃ a o', crowded.ask {} q = .ok (a, o') ∧ crowded.Does {} (fun _ => 7) q a o' :=
  ⟨reached_crowded, reached_crowded.finite_map⟩

/-- The search passes the newer entries and stops at the one of the key. -/
example : crowded.find? (Heap.same {} · (.int 5)) 7 = .ok (some 1) := rfl

end Overlay

end PlaneStore
