import PlaneStore.Decimal.Shortest

/-!
# Positional notation

A decimal is written out in full, however large or small: no exponent, no point without a digit
after it, no zero at the end of the fraction.
-/

namespace PlaneStore.Decimal

/-- Removes the zeros at the end. -/
def trimZeros (cs : List Char) : List Char :=
  (cs.reverse.dropWhile (· == '0')).reverse

/-- The digits of `n` in at least `width` places. -/
def padded (n width : Nat) : List Char :=
  let cs := Nat.toDigits 10 n
  List.replicate (width - cs.length) '0' ++ cs

/-- A decimal in positional notation. -/
def positional (x : Decimal) : List Char :=
  if 0 ≤ x.exponent then Nat.toDigits 10 x.digits ++ List.replicate x.exponent.toNat '0'
  else
    let places := (-x.exponent).toNat
    let cs := padded x.digits (places + 1)
    let whole := cs.take (cs.length - places)
    let fraction := trimZeros (cs.drop (cs.length - places))
    if fraction.isEmpty then whole else whole ++ '.' :: fraction

example : (Decimal.mk 15 (-1)).positional = ['1', '.', '5'] := by decide +kernel
example : (Decimal.mk 10 (-2)).positional = ['0', '.', '1'] := by decide +kernel
example : (Decimal.mk 7 2).positional = ['7', '0', '0'] := by decide +kernel

end PlaneStore.Decimal
