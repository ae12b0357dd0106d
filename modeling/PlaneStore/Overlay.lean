import PlaneStore.Fault
import PlaneStore.Slab

/-!
# Overlays

An overlay is the hash table of a mapping's pending writes. An entry that is `added` holds a key
which the sorted pairs of the mapping lack; any other holds a new value for one of their keys.

Entries live in a slab and keep their index until they are removed. Each bucket is a chain of the
indices whose hash falls into it, the newest in front: it names the first index, and each index
names the one after it. Whether two keys are the same is not the overlay's business: `find?` is
given the test.

```text
buckets:  [3, -, 0, -]
entries:  0 ↦ e₀   1 ↦ e₁   3 ↦ e₃      (cell 2 is free)
links:    0 → -    1 → -    3 → 1
```
-/

namespace PlaneStore

/-- A pending write. -/
structure OverlayEntry where
  hash : UInt32
  /-- Whether the key is absent from the sorted pairs. -/
  added : Bool
  key : Value
  value : Value
  deriving DecidableEq, Inhabited

/-! ## Chains -/

/-- Chains of indices, one for each bucket. -/
structure Chains where
  /-- The first index of each chain. -/
  buckets : Array (Option Nat)
  /-- The index after each index on its chain. -/
  links : Array (Option Nat) := #[]

namespace Chains

/-- The first index of a bucket. -/
def head (c : Chains) (b : Nat) : Option Nat := c.buckets[b]?.join

/-- The index after another. -/
def next (c : Chains) (i : Nat) : Option Nat := c.links[i]?.join

def setHead (c : Chains) (b : Nat) (first : Option Nat) : Chains :=
  { c with buckets := c.buckets.setIfInBounds b first }

/-- Says what comes after an index, which may be the one after all that are known. -/
def setNext (c : Chains) (i : Nat) (next : Option Nat) : Chains :=
  { c with
    links := if i < c.links.size then c.links.setIfInBounds i next else c.links.push next }

/-- Puts an index in front of a chain. -/
def push (c : Chains) (b i : Nat) : Chains := (c.setNext i (c.head b)).setHead b (some i)

/-- Makes the index before `i` lead past it; it is looked for from `cursor` on, `n` times. -/
def bypass (c : Chains) (i : Nat) : Nat → Option Nat → Chains
  | 0, _ | _, none => c
  | n + 1, some p => if c.next p = some i then c.setNext p (c.next i) else c.bypass i n (c.next p)

/-- Takes an index off a chain of no more than `n`. -/
def unlink (c : Chains) (b i n : Nat) : Chains :=
  if c.head b = some i then c.setHead b (c.next i) else c.bypass i n (c.head b)

end Chains

structure Overlay extends Chains where
  entries : Slab OverlayEntry := {}
  /-- The number of `added` entries, counted as they come and go. -/
  addedCount : Nat := 0

namespace Overlay

instance : Inhabited Overlay := ⟨{ buckets := #[] }⟩

/-- The fewest buckets that an overlay starts with. -/
def minBuckets : Nat := 4

/-- The least power of two that is not below `n`, for `n` at least two. -/
def powerAbove (n : Nat) : Nat := 1 <<< ((n - 1).log2 + 1)

/--
An empty overlay with at least `n` buckets; their number is a power of two. It is a size in memory,
so `n` is at most `2 ^ 60`, which no table gets near: see `size_buckets_ofBuckets_lt`.
-/
def ofBuckets (n : Nat) : Overlay :=
  { buckets := Array.replicate (powerAbove (max n minBuckets)) none }

/-- The number of entries. -/
def size (o : Overlay) : Nat := o.entries.live

def isEmpty (o : Overlay) : Bool := o.size == 0

/-- The entries in the order of their indices. -/
def toList (o : Overlay) : List OverlayEntry := o.entries.toList

/-- What an entry counts for among the `added` ones. -/
def additions (e : OverlayEntry) : Nat := if e.added then 1 else 0

/-- The bucket that a hash falls into, of `n`, which is a power of two. -/
def bucketOf (hash : UInt32) (n : Nat) : Nat := hash.toNat &&& (n - 1)

/-- The bucket of a hash. -/
def bucket (o : Overlay) (hash : UInt32) : Nat := bucketOf hash o.buckets.size

def entry (o : Overlay) (i : Nat) : Except Fault OverlayEntry :=
  match o.entries.get? i with
  | some e => .ok e
  | none => .error (.danglingEntry i)

/-! ## Search -/

/-- Looks for the hash and the key from a cursor on, at no more than `n` entries. -/
def findFrom (o : Overlay) (same : Value → Except Fault Bool) (hash : UInt32) :
    Nat → Option Nat → Except Fault (Option Nat)
  | 0, _ | _, none => return none
  | n + 1, some i => do
    let e ← o.entry i
    if e.hash = hash then
      if ← same e.key then return some i
      o.findFrom same hash n (o.next i)
    else
      o.findFrom same hash n (o.next i)

/-- The index of the entry whose key is the `same`, given the hash of that key. -/
def find? (o : Overlay) (same : Value → Except Fault Bool) (hash : UInt32) :
    Except Fault (Option Nat) :=
  o.findFrom same hash o.entries.cells.size (o.head (o.bucket hash))

/-! ## Change -/

/-- Puts the entry of an index in front of its chain, if there is an entry. -/
def enchain (entries : Slab OverlayEntry) (c : Chains) (i : Nat) : Chains :=
  match entries.get? i with
  | some e => c.push (bucketOf e.hash c.buckets.size) i
  | none => c

/-- Doubles the number of buckets and makes their chains anew, in the order of the indices. -/
def grow (o : Overlay) : Overlay :=
  let empty := { o.toChains with buckets := Array.replicate (2 * o.buckets.size) none }
  { o with toChains := (List.range o.entries.cells.size).foldl (enchain o.entries) empty }

/-- Room for one more entry: the buckets stay at most three quarters full. -/
def reserve (o : Overlay) : Overlay :=
  if 3 * o.buckets.size < 4 * (o.size + 1) then o.grow else o

/-- The index that the next entry gets. -/
def nextIndex (o : Overlay) : Nat := o.entries.nextCell

/-- Adds an entry whose key no other entry has. -/
def insert (o : Overlay) (e : OverlayEntry) : Overlay :=
  let o := o.reserve
  { toChains := o.push (o.bucket e.hash) o.nextIndex
    entries := o.entries.insert e
    addedCount := o.addedCount + additions e }

/-- Replaces the value of an entry. -/
def setValue (o : Overlay) (i : Nat) (v : Value) : Except Fault Overlay := do
  let e ← o.entry i
  return { o with entries := o.entries.set i { e with value := v } }

/-- The overlay without the entry of an index. -/
def without (o : Overlay) (i : Nat) (e : OverlayEntry) : Overlay where
  toChains := o.unlink (o.bucket e.hash) i o.entries.cells.size
  entries := o.entries.erase i
  addedCount := o.addedCount - additions e

/-- Takes an entry out. -/
def remove (o : Overlay) (i : Nat) : Except Fault (OverlayEntry × Overlay) := do
  let e ← o.entry i
  return (e, o.without i e)

/-! ## Entries and buckets -/

@[simp] theorem entries_ofBuckets (n : Nat) : (ofBuckets n).entries = {} := rfl

@[simp] theorem addedCount_ofBuckets (n : Nat) : (ofBuckets n).addedCount = 0 := rfl

/-- More buckets hold the same entries. -/
@[simp] theorem entries_grow (o : Overlay) : o.grow.entries = o.entries := rfl

@[simp] theorem addedCount_grow (o : Overlay) : o.grow.addedCount = o.addedCount := rfl

@[simp] theorem entries_reserve (o : Overlay) : o.reserve.entries = o.entries := by
  unfold reserve
  split <;> rfl

@[simp] theorem addedCount_reserve (o : Overlay) : o.reserve.addedCount = o.addedCount := by
  unfold reserve
  split <;> rfl

/-- An entry that is put in takes a slot, whether the buckets grow for it or not. -/
theorem entries_insert (o : Overlay) (e : OverlayEntry) :
    (o.insert e).entries = o.entries.insert e := by
  show o.reserve.entries.insert e = _
  rw [entries_reserve]

/-- Only additions are counted. -/
theorem addedCount_insert (o : Overlay) (e : OverlayEntry) :
    (o.insert e).addedCount = additions e + o.addedCount := by
  show o.reserve.addedCount + additions e = _
  rw [addedCount_reserve, Nat.add_comm]

/-- Another value for a key adds no entry. -/
@[simp] theorem addedCount_set (o : Overlay) (i : Nat) (e : OverlayEntry) :
    ({ o with entries := o.entries.set i e } : Overlay).addedCount = o.addedCount := rfl

theorem addedCount_without_le (o : Overlay) (i : Nat) (e : OverlayEntry) :
    (o.without i e).addedCount ≤ o.addedCount := Nat.sub_le ..

/-- An entry can be read if its slot is in use. -/
theorem entry_eq_ok {o : Overlay} {i : Nat} {e : OverlayEntry} :
    o.entry i = .ok e ↔ o.entries.get? i = some e := by
  unfold entry
  split <;> simp_all

theorem le_powerAbove (n : Nat) : n ≤ powerAbove n := by
  have hlt : n - 1 < 2 ^ ((n - 1).log2 + 1) := Nat.lt_log2_self
  rw [powerAbove, Nat.one_shiftLeft]
  omega

/-- No smaller power of two would do. -/
theorem powerAbove_lt {n : Nat} (h : 2 ≤ n) : powerAbove n < 2 * n := by
  have hle : 2 ^ (n - 1).log2 ≤ n - 1 := Nat.log2_self_le (by omega)
  rw [powerAbove, Nat.one_shiftLeft]
  omega

theorem minBuckets_le_size (n : Nat) : minBuckets ≤ (ofBuckets n).buckets.size := by
  have hle := le_powerAbove (max n minBuckets)
  have hmax := Nat.le_max_right n minBuckets
  simp only [ofBuckets, Array.size_replicate]
  omega

/-- Rounding up less than doubles the buckets that were asked for. -/
theorem size_buckets_ofBuckets_lt (n : Nat) :
    (ofBuckets n).buckets.size < 2 * max n minBuckets := by
  have htwo : 2 ≤ max n minBuckets := Nat.le_trans (by decide) (Nat.le_max_right n minBuckets)
  simpa only [ofBuckets, Array.size_replicate] using powerAbove_lt htwo

end Overlay

end PlaneStore
