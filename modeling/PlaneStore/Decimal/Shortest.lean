/-!
# The shortest decimal that reads back

A binary fraction `m · 2 ^ e` with a fixed number of mantissa bits stands for a whole interval of
reals: those that round to it. `shortest` picks, of the decimals in that interval, one with the
fewest digits and, of those, the nearest to `m · 2 ^ e`; a tie goes up.

## Mechanism

The interval is written in quarters of the last mantissa bit, which makes its ends whole numbers.
A decimal with few digits is a multiple of a large power of ten, so the powers are tried from the
largest down, and on each grid only the two neighbours of the value can be the nearest point. All
comparisons are between natural numbers.
-/

namespace PlaneStore

/-- The decimal number `digits · 10 ^ exponent`. -/
structure Decimal where
  digits : Nat
  exponent : Int
  deriving DecidableEq, Repr

namespace Decimal

/-- What `a · 2 ^ e` becomes when both sides of `a · 2 ^ e ≤ b · 10 ^ k` are made whole. -/
def binarySide (a : Nat) (e k : Int) : Nat :=
  a <<< e.toNat * Nat.pow 10 (-k).toNat

/-- What `b · 10 ^ k` becomes when both sides of `a · 2 ^ e ≤ b · 10 ^ k` are made whole. -/
def decimalSide (b : Nat) (e k : Int) : Nat :=
  (b * Nat.pow 10 k.toNat) <<< (-e).toNat

/--
The multiple of `10 ^ k` that rounds to `m · 2 ^ e` and lies nearest to it, if there is one.

`narrow` says that the next number below is only half as far as the next above. The ends of the
interval belong to it exactly when `m` is even.
-/
def gridPoint? (m : Nat) (e : Int) (narrow : Bool) (k : Int) : Option Nat :=
  let unit := decimalSide 1 (e - 2) k
  let value := binarySide (4 * m) (e - 2) k
  let low := binarySide (4 * m - if narrow then 1 else 2) (e - 2) k
  let high := binarySide (4 * m + 2) (e - 2) k
  let inside (d : Nat) : Bool :=
    d != 0 &&
      if m % 2 = 0 then low ≤ d * unit && d * unit ≤ high else low < d * unit && d * unit < high
  let below := value / unit
  if inside (below + 1) && (!inside below || unit ≤ 2 * (value % unit)) then some (below + 1)
  else if inside below then some below
  else none

/-- No finite double reaches `10 ^ 309`. -/
def largestExponent : Int := 309

/-- The smallest double is a multiple of `10 ^ (-1074)`, so the search ends by then. -/
def gridCount : Nat := 309 + 1075

/-- The decimal with the fewest digits that rounds to `m · 2 ^ e`. -/
def shortest (m : Nat) (e : Int) (narrow : Bool) : Decimal :=
  ((List.range gridCount).findSome? fun (i : Nat) =>
    let k := largestExponent - (i : Int)
    (gridPoint? m e narrow k).map (Decimal.mk · k)).getD ⟨0, 0⟩

end Decimal

end PlaneStore
