import PlaneStore.Value.Basic
import PlaneStore.Decimal.Positional

/-!
# The text of values

How handles and values are written in messages: `#3` is a container, `$3` a string, `ds3` a
dataspace, and a float is written with the fewest digits that read back.
-/

namespace PlaneStore

/-! ## Handles -/

def ContainerId.text (id : ContainerId) : String := "#" ++ toString id.slot

def StringId.text (id : StringId) : String := "$" ++ toString id.slot

def DataspaceId.text (ds : DataspaceId) : String := "ds" ++ toString ds.index

def CallHandle.text (handle : CallHandle) : String :=
  "CallHandle(" ++ toString handle.number ++ ")"

/-- An object reference in the short form `index/generation`. -/
def ObjectRef.text (obj : ObjectRef) : String :=
  toString obj.index ++ "/" ++ toString obj.generation

/-! ## Floats -/

namespace Binary64

def isNegative (x : Binary64) : Bool := x.bits ≥ 0x8000000000000000

/-- The eleven bits of the biased exponent. -/
def biasedExponent (x : Binary64) : Nat := x.bits.toNat >>> 52 % 2048

/-- The fifty-two stored bits of the mantissa. -/
def fraction (x : Binary64) : Nat := x.bits.toNat % 0x10000000000000

/-- The text of the number without its sign, for a number that is neither infinite nor NaN. -/
def magnitudeText (x : Binary64) : String :=
  if x.biasedExponent = 0 then
    if x.fraction = 0 then "0"
    else String.ofList (Decimal.shortest x.fraction (-1074) false).positional
  else
    String.ofList (Decimal.shortest (0x10000000000000 + x.fraction) (x.biasedExponent - 1075)
      (x.fraction = 0 && x.biasedExponent ≠ 1)).positional

/-- A float in positional notation; NaN has no sign, zero has one. -/
def text (x : Binary64) : String :=
  if x.biasedExponent = 2047 ∧ x.fraction ≠ 0 then "NaN"
  else
    (if x.isNegative then "-" else "") ++
      if x.biasedExponent = 2047 then "inf" else x.magnitudeText

end Binary64

/-! ## Values and kinds -/

/-- The word that introduces a container of the given shape. -/
def Shape.title : Shape → String
  | .array => "Array"
  | .mapping => "Mapping"
  | .record => "Record"

/-- A kind, with the class of a record spelled out. -/
def Kind.text : Kind → String
  | .record cls =>
    "Record(ObjectRef \x7b index: " ++ toString cls.index ++ ", generation: " ++
      toString cls.generation ++ " \x7d)"
  | kind => kind.shape.title

def Value.text : Value → String
  | .nil => "Nil"
  | .int n => "Int(" ++ toString n.toInt ++ ")"
  | .float x => "Float(" ++ x.text ++ ")"
  | .string id => "String(" ++ id.text ++ ")"
  | .object obj => "Object(" ++ obj.text ++ ")"
  | .container shape id => shape.title ++ "(" ++ id.text ++ ")"

end PlaneStore
