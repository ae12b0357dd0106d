import PlaneStore.Mapping.Assign
import PlaneStore.Store.Inspection

/-!
# Sequences

Indexing of containers, and the operations that make a new array out of arrays. The latter leave
their operands alone, apart from dead references that become nil, and the result belongs to the
owner of the first operand.

Membership is tested by binary search in a sorted copy of the other operand.
-/

namespace PlaneStore.Sequence

open Store StoreM ClientM

/-! ## Indexing -/

/-- The index that a key stands for in a container. -/
def requireIndex (id : ContainerId) (key : Value) : ClientM Nat :=
  match key with
  | .int n => do
    let size := (← container id).size
    if 0 ≤ n.toInt ∧ n.toInt < size then return n.toInt.toNat
    else refuse (.outOfRange n.toInt size)
  | _ => refuse (.expected "int" key)

/-- An element of a resident container. -/
def element (id : ContainerId) (i : Nat) : StoreM Value := do
  match (← residentValues id)[i]? with
  | some v => return v
  | none => fault .elementOutOfBounds

/-- The element at an index, or the value under a key of a mapping, retained. -/
def indexGet (v key : Value) : ClientM Value :=
  match v with
  | .container .mapping _ => Mapping.get v key
  | .container _ id => do
    scrubElements id
    let value ← element id (← requireIndex id key)
    retain value
    return value
  | _ => refuse (.expected "container" v)

/-- Overwrites an element of a container that may be changed. -/
def put (id : ContainerId) (i : Nat) (v : Value) : StoreM Unit := do
  let owner := (← container id).owner
  let v ← scrub v
  acquire owner v
  relinquish owner [← exchange id i v]

/-- Overwrites the element at an index, or the value under a key of a mapping. -/
def assign (v key value : Value) : ClientM Unit :=
  match v with
  | .container .mapping id => Mapping.assign id key value
  | .container _ id => do
    faultIn id
    let i ← requireIndex id key
    makeWritable id
    put id i value
  | _ => refuse (.expected "container" v)

/-! ## Operands -/

/-- An array operand: its container and its elements, scrubbed. -/
def operand (v : Value) : ClientM (ContainerId × Array Value) :=
  match v with
  | .container .array id => do
    scrubElements id
    return (id, ← residentValues id)
  | _ => refuse (.expected "array" v)

/-- A sorted copy of some values. -/
def sorted (values : Array Value) : StoreM (Array Value) := readHeap (·.sort values)

/-- The elements of an array operand, sorted. -/
def sortedOperand (v : Value) : ClientM (Array Value) := do
  sorted (← operand v).2

/-- The values whose membership in a sorted array is as asked for. -/
def members (values : List Value) (among : Array Value) (keep : Bool) : StoreM (List Value) :=
  readHeap fun h =>
    values.filterM fun v => return (← h.findSorted among 1 v).isHit == keep

/--
The values that are not in `left`, each only once; both arrays are sorted, and `right` holds the
values. `taken` are the indices in `right` that were met before.
-/
def missingOnce (h : Heap) (left right : Array Value) :
    List Nat → List Value → Except Fault (List Value)
  | _, [] => return []
  | taken, v :: rest => do
    if (← h.findSorted left 1 v).isHit then missingOnce h left right taken rest
    else
      match ← h.findSorted right 1 v with
      | .absent _ => missingOnce h left right taken rest
      | .at i =>
        if i ∈ taken then missingOnce h left right taken rest
        else return v :: (← missingOnce h left right (i :: taken) rest)

/-- The values of `right` that are not in `left`, each once, in the order of `right`. -/
def missing (left right : Array Value) : StoreM (List Value) := do
  let sortedLeft ← sorted left
  let sortedRight ← sorted right
  readHeap fun h => missingOnce h sortedLeft sortedRight [] right.toList

/-! ## Operations -/

/-- The elements `lo .. hi`; the array is empty if `lo = hi + 1`. -/
def range (v : Value) (lo hi : Int) : ClientM Value := do
  let (id, values) ← operand v
  if 0 ≤ lo ∧ lo ≤ hi + 1 ∧ hi + 1 ≤ values.size then
    derive id .array (values.extract lo.toNat (hi + 1).toNat).toList
  else refuse (.badRange lo hi values.size)

/-- The elements of `a`, then those of `b`. -/
def concat (a b : Value) : ClientM Value := do
  let (id, left) ← operand a
  let (_, right) ← operand b
  derive id .array (left ++ right).toList

/-- The elements of `a` whose membership in `b` is as asked for. -/
def restrict (a b : Value) (keep : Bool) : ClientM Value := do
  let (id, left) ← operand a
  let right ← sortedOperand b
  derive id .array (← members left.toList right keep)

/-- The elements of `a` that are not in `b`. -/
def subtract (a b : Value) : ClientM Value := restrict a b false

/-- The elements of `a` that are in `b` too. -/
def intersect (a b : Value) : ClientM Value := restrict a b true

/-- The elements of `a`, then what else is in `b`, each value once. -/
def union (a b : Value) : ClientM Value := do
  let (id, left) ← operand a
  let (_, right) ← operand b
  let extra ← if right.isEmpty then pure [] else missing left right
  derive id .array (left.toList ++ extra)

/-- The elements of `a` that are not in `b`, then those of `b` that are not in `a`. -/
def symmetricDifference (a b : Value) : ClientM Value := do
  let (id, left) ← operand a
  let (_, right) ← operand b
  let sortedLeft ← sorted left
  let sortedRight ← sorted right
  let here ← members left.toList sortedRight false
  let there ← members right.toList sortedLeft false
  derive id .array (here ++ there)

end PlaneStore.Sequence
