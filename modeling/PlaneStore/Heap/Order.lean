import PlaneStore.Heap.Basic

/-!
# Order, sameness and hash of values

Values order first by type, then by a key of their type: the integer, the float by its bits, the
text of a string, the slot of an object, the tag of a container. The key of a value is its
`Heap.place`, and the order of places is lexicographic, which makes `Heap.order` a total preorder by
construction.

Two distinct containers may share a tag, and two generations of an object share a slot, so values
that order as equal need not be the same. `Heap.same` tells them apart.

Looking at a string or container through a dead handle is a fault. `Heap.compare` is the order
together with that check: a text or tag is looked at only if the types agree, and the text not even
then if both values are one string.
-/

namespace PlaneStore

/-- Key of a float: negative numbers by falling bits, below the others by rising bits. -/
def Binary64.orderKey (x : Binary64) : Nat :=
  if x.isNegative then 0xFFFFFFFFFFFFFFFF - x.bits.toNat else 0x8000000000000000 + x.bits.toNat

/-- Where a value stands in the order: its type, then a number, then a text. -/
structure Place where
  rank : Nat
  number : Int := 0
  text : String := ""
  deriving DecidableEq, Repr

instance : Ord Place :=
  ⟨compareLex (compareOn Place.rank) (compareLex (compareOn Place.number) (compareOn Place.text))⟩

instance : Std.TransOrd Place :=
  inferInstanceAs (Std.TransCmp (compareLex (compareOn Place.rank)
    (compareLex (compareOn Place.number) (compareOn Place.text))))

instance : Std.LawfulEqOrd Place where
  eq_of_compare {a b} h := by
    change compareLex (compareOn Place.rank)
      (compareLex (compareOn Place.number) (compareOn Place.text)) a b = .eq at h
    obtain ⟨h₁, h₂⟩ := compareLex_eq_eq.mp h
    obtain ⟨h₂, h₃⟩ := compareLex_eq_eq.mp h₂
    cases a; cases b
    simp only [Place.mk.injEq]
    exact ⟨Std.LawfulEqOrd.eq_of_compare h₁, Std.LawfulEqOrd.eq_of_compare h₂,
      Std.LawfulEqOrd.eq_of_compare h₃⟩

namespace Heap

/-! ## Order -/

/-- The place of a value; a dead handle stands where an empty text or a tag of zero would. -/
def place (h : Heap) (v : Value) : Place :=
  let rank := v.type.rank
  match v with
  | .nil => { rank }
  | .int n => { rank, number := n.toInt }
  | .float x => { rank, number := x.orderKey }
  | .string id => { rank, text := ((h.strings.get? id.slot).map StringEntry.text).getD "" }
  | .object obj => { rank, number := obj.index }
  | .container _ id => { rank, number := ((h.containers.get? id.slot).map Container.tag).getD 0 }

/-- The total preorder of values. -/
def order (h : Heap) (a b : Value) : Ordering :=
  Ord.compare (h.place a) (h.place b)

/-- Whether `a` may stand before `b`. -/
def le (h : Heap) (a b : Value) : Bool := (h.order a b).isLE

instance (h : Heap) : Std.TransCmp h.order :=
  inferInstanceAs (Std.TransCmp (compareOn h.place))

/-- Looks at what a comparison of `a` and `b` has to look at, `a` first. -/
def checkComparable (h : Heap) : Value → Value → Except Fault Unit
  | .string x, .string y =>
    if x = y then return
    else do
      discard (h.stringEntry x)
      discard (h.stringEntry y)
  | .container s x, .container t y =>
    if s = t then do
      discard (h.get x)
      discard (h.get y)
    else return
  | _, _ => return

def compare (h : Heap) (a b : Value) : Except Fault Ordering := do
  h.checkComparable a b
  return h.order a b

theorem le_trans {h : Heap} {a b c : Value} (hab : h.le a b) (hbc : h.le b c) : h.le a c :=
  Std.TransCmp.isLE_trans hab hbc

/-- The order the other way round. -/
theorem order_swap (h : Heap) (a b : Value) : h.order a b = (h.order b a).swap :=
  Std.OrientedCmp.eq_swap

/-- Any two values are in order, one way or the other. -/
theorem le_total (h : Heap) (a b : Value) : (h.le a b || h.le b a) = true := by
  unfold le
  rw [h.order_swap b]
  cases h.order a b <;> rfl

/-- A comparison that is not a fault answers with the order. -/
theorem compare_eq_ok {h : Heap} {a b : Value} {o : Ordering} :
    h.compare a b = .ok o ↔ h.checkComparable a b = .ok () ∧ o = h.order a b := by
  unfold compare
  cases hc : h.checkComparable a b with
  | error e => simp [bind, Except.bind]
  | ok u => simp [bind, Except.bind, pure, Except.pure, eq_comm]

/-! ## Sameness -/

/-- Whether two values are the same: containers by slot, objects by slot and generation. -/
def same (h : Heap) : Value → Value → Except Fault Bool
  | .container s x, .container t y => return x = y && s = t
  | .container .., _ => return false
  | _, .container .. => return false
  | .object x, .object y => return x = y
  | a, b => return (← h.compare a b) = .eq

/-! ## Hash -/

/-- Folds 64 bits to 32. -/
def foldBits (bits : UInt64) : UInt32 := (bits ^^^ (bits >>> 32)).toUInt32

/-- Moves the seven high bits of a word to its low end. -/
def rotate7 (w : UInt32) : UInt32 := (w <<< 7) ||| (w >>> 25)

/-- FNV-1a over the bytes of a text. -/
def hashBytes (text : String) : UInt32 :=
  text.toUTF8.data.foldl (fun hash b => (hash ^^^ b.toUInt32) * 0x01000193) 0x811C9DC5

/-- The hash under which an overlay files a key. -/
def hash (h : Heap) : Value → Except Fault UInt32
  | .nil => return 0
  | .int n => return foldBits n.toUInt64
  | .float x => return rotate7 (foldBits x.bits)
  | .string id => do
    let text ← h.text id
    return hashBytes text ^^^ text.utf8ByteSize.toUInt32
  | .object obj => return obj.index.toUInt32
  | .container _ id => return id.slot.toUInt32 * 0x9E3779B1

end Heap

end PlaneStore
