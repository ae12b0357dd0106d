import PlaneStore.Value.Text

/-!
# Refusals

A refusal answers a request that the store does not carry out: an argument is wrong, or a configured
limit is reached. The client may go on.
-/

namespace PlaneStore

inductive Refusal where
  /-- An index outside of `0 .. size - 1`. -/
  | outOfRange (index : Int) (size : Nat)
  /-- Bounds that violate `0 ≤ lo ≤ hi + 1 ≤ size`. -/
  | badRange (lo hi : Int) (size : Nat)
  /-- An operand or key of the wrong kind. -/
  | wrongKind (expected found : String)
  | unknownDataspace (dataspace : DataspaceId)
  /-- A slot outside of the variable table. -/
  | badVariable (ref : VariableRef)
  | unknownCall (call : CallRef)
  | containerTooLarge (size max : Nat)
  | tooManyContainers (max : Nat)
  /-- Atomic regions nested deeper than allowed. -/
  | planeDepth (max : Nat)
  /-- No atomic region is active. -/
  | noPlane
  /-- Only the topmost plane can be committed or discarded. -/
  | planeOrder (top requested : Nat)
  /-- Only allowed outside of atomic regions. -/
  | planeActive
  deriving DecidableEq, Repr

namespace Refusal

/-- Whether a configured limit was reached. -/
def isResource : Refusal → Bool
  | containerTooLarge .. | tooManyContainers _ | planeDepth _ => true
  | _ => false

/-- Whether the client passed something invalid. -/
def isArgument (r : Refusal) : Bool := !r.isResource

/-- The refusal of a value where something else is expected. -/
def expected (what : String) (v : Value) : Refusal :=
  .wrongKind what v.type.name

def message : Refusal → String
  | outOfRange index size =>
    "index " ++ toString index ++ " out of range for size " ++ toString size
  | badRange lo hi size =>
    "invalid range [" ++ toString lo ++ ".." ++ toString hi ++ "] for size " ++ toString size
  | wrongKind expected found => "expected " ++ expected ++ ", got " ++ found
  | unknownDataspace ds => "no such dataspace " ++ toString ds.index
  | badVariable v =>
    "no variable " ++ toString v.slot ++ " in dataspace " ++ toString v.dataspace.index
  | unknownCall c =>
    "no deferred call " ++ toString c.handle.number ++ " in dataspace " ++
      toString c.dataspace.index
  | containerTooLarge size max =>
    "container size " ++ toString size ++ " exceeds maximum " ++ toString max
  | tooManyContainers max => "too many containers (max " ++ toString max ++ ")"
  | planeDepth max => "atomic regions nested too deeply (max " ++ toString max ++ ")"
  | noPlane => "no atomic region active"
  | planeOrder top requested =>
    "plane " ++ toString requested ++ " is not the topmost plane (" ++ toString top ++ ")"
  | planeActive => "not allowed inside an atomic region"

end Refusal

end PlaneStore
