import PlaneStore.Sequence

/-!
# Operations on whole mappings

Each compacts its mapping operands first, leaves them alone otherwise, and makes a new container
owned by the owner of the first operand.
-/

namespace PlaneStore.Mapping

open Store StoreM ClientM

/-- The container of a mapping operand and its buffer, merged and compacted. -/
def operand (map : Value) : ClientM (ContainerId × Array Value) := do
  let id ← require map
  mergeOverlay id true
  return (id, ← residentValues id)

/-- The first, third, fifth … value. -/
def everySecond : List Value → List Value
  | [] => []
  | [v] => [v]
  | v :: _ :: rest => v :: everySecond rest

/-- The keys, in order, as an array. -/
def indices (map : Value) : ClientM Value := do
  let (id, buffer) ← operand map
  derive id .array (everySecond buffer.toList)

/-- The values, in the order of their keys, as an array. -/
def values (map : Value) : ClientM Value := do
  let (id, buffer) ← operand map
  derive id .array (everySecond buffer.toList.tail)

/-- Whether a key is not below a bound; a nil bound is open. -/
def notBelow (h : Heap) (lo key : Value) : Except Fault Bool :=
  if lo.isNil then return true else return (← h.compare key lo) ≠ .lt

/-- Whether a key is not above a bound; a nil bound is open. -/
def notAbove (h : Heap) (hi key : Value) : Except Fault Bool :=
  if hi.isNil then return true else return (← h.compare key hi) ≠ .gt

/-- Whether a key lies between two bounds. -/
def inRange (h : Heap) (lo hi key : Value) : Except Fault Bool := do
  if ← notBelow h lo key then notAbove h hi key else return false

/-- The pairs that pass a test. -/
def selectPairs (buffer : Array Value) (test : Heap → Value → Except Fault Bool) :
    StoreM (List Value) :=
  readHeap fun h => do
    return Pair.flatten (← (Pair.ofBuffer buffer).filterM fun p => test h p.1)

/-- The entries with a key between the bounds. -/
def range (map lo hi : Value) : ClientM Value := do
  let (id, buffer) ← operand map
  derive id .mapping (← selectPairs buffer fun h key => inRange h lo hi key)

/-- The pairs of two buffers; of a key in both, the right one has the value. -/
def overridden (left right : Array Value) : StoreM (List Value) :=
  readHeap fun h => do
    let rest ← (Pair.ofBuffer left).filterM fun p => return !(← h.findSorted right 2 p.1).isHit
    return Pair.flatten (← h.sortPairs (rest ++ Pair.ofBuffer right))

/-- The entries of both mappings; of a key in both, `b` has the value. -/
def concat (a b : Value) : ClientM Value := do
  let (id, left) ← operand a
  let (_, right) ← operand b
  let union ← if right.isEmpty then pure left.toList else overridden left right
  derive id .mapping union

/-- The entries for whose key being an element of the array `keys` is as asked for. -/
def restrict (map keys : Value) (keep : Bool) : ClientM Value := do
  let (id, buffer) ← operand map
  let keys ← Sequence.sortedOperand keys
  let kept ←
    if keys.isEmpty || buffer.isEmpty then pure (if keep then [] else buffer.toList)
    else selectPairs buffer fun h key => return (← h.findSorted keys 1 key).isHit == keep
  derive id .mapping kept

/-- The entries whose key is not in the array `keys`. -/
def subtract (map keys : Value) : ClientM Value := restrict map keys false

/-- The entries whose key is in the array `keys`. -/
def intersect (map keys : Value) : ClientM Value := restrict map keys true

end PlaneStore.Mapping
