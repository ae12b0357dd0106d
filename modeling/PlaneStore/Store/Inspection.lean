import PlaneStore.Store.Atomic
import PlaneStore.Store.Creation

/-!
# Inspection

Questions about values and containers. None of them takes a reference; looking at the elements of a
container may make them resident, merge an overlay or remove dead references.

Deep equality walks two values side by side. Pairs of containers that were met before count as
equal, so it also ends on cyclic structures: there are no more pairs than pairs of slots.
-/

namespace PlaneStore.Store

open StoreM ClientM

/-- The container that a value addresses. -/
def requireContainer (v : Value) (expected : String) : ClientM ContainerId :=
  match v.containerId? with
  | some id => return id
  | none => refuse (.expected expected v)

/-- The number of references to a string or container; zero for other values. -/
def refcount (s : Store) : Value → Except Fault Nat
  | .string id => return (← s.heap.stringEntry id).refcount
  | .container _ id => return (← s.heap.get id).refcount
  | _ => return 0

/-- Whether a string or container is still in its slot. -/
def isLive (s : Store) : Value → Bool
  | .string id => s.heap.containsString id
  | .container _ id => s.heap.contains id
  | _ => true

/-- The text in a string slot. -/
def textOf (id : StringId) : StoreM String := readHeap (·.text id)

/-- The text of a string value. -/
def stringText (v : Value) : ClientM String :=
  match v with
  | .string id => textOf id
  | _ => refuse (.expected "string" v)

/-- The container of a value, looked at as it is. -/
def inspect (v : Value) : ClientM Container := do
  container (← requireContainer v "container")

/-- The class of a record. -/
def recordClass (v : Value) : ClientM ObjectRef := do
  match (← container (← requireContainer v "record")).kind with
  | .record cls => return cls
  | kind => refuse (.wrongKind "record" kind.shape.name)

/-- The number of elements; a mapping is merged and compacted first, so dead pairs do not count. -/
def size (v : Value) : ClientM Nat := do
  let id ← requireContainer v "container"
  when (v.type = .container .mapping) (Mapping.mergeOverlay id true)
  return (← container id).size

/-- Brings the elements of a container, addressed as the given shape, up to date. -/
def refresh (id : ContainerId) : Shape → StoreM Unit
  | .mapping => Mapping.mergeOverlay id false
  | _ => scrubElements id

/-- The elements of a container, addressed as the given shape. -/
def elementsOf (shape : Shape) (id : ContainerId) : StoreM (Array Value) := do
  refresh id shape
  residentValues id

/-- The elements of a container; those of a mapping are its keys and values in key order. -/
def elements (v : Value) : ClientM (Array Value) :=
  match v with
  | .container shape id => elementsOf shape id
  | _ => refuse (.expected "container" v)

/-! ## Deep equality -/

/-- Whether two containers are of one kind. -/
def sameKind (x y : ContainerId) : StoreM Bool :=
  readHeap fun h => do
    let c ← h.get x
    let d ← h.get y
    return c.kind = d.kind

/--
Whether all pairs of values on a stack are equal, given pairs of containers that count as equal.
At most `n` more pairs of containers are looked into.
-/
def allEqual (n : Nat) (seen : List (ContainerId × ContainerId)) :
    List (Value × Value) → StoreM Bool
  | [] => return true
  | (.container s x, .container t y) :: work => do
    if x = y ∨ (x, y) ∈ seen then allEqual n seen work
    else if s ≠ t then return false
    else if !(← sameKind x y) then return false
    else
      match n with
      | 0 => return false
      | n + 1 => do
        let xs ← elementsOf s x
        let ys ← elementsOf t y
        if xs.size ≠ ys.size then return false
        else allEqual n ((x, y) :: seen) ((xs.toList.zip ys.toList).reverse ++ work)
  | (.container .., _) :: _ => return false
  | (_, .container ..) :: _ => return false
  | (x, y) :: work => do
    if ← readHeap (·.same x y) then allEqual n seen work else return false
termination_by work => (n, work.length)

/--
Structural equality: equal numbers and texts, the same objects, and containers of one kind whose
elements are equal in turn.
-/
def deepEqual (x y : Value) : StoreM Bool := do
  let slots := (← get).heap.containers.cells.size
  allEqual (slots * slots) [] [(x, y)]

/-! ## Counters -/

/-- Counters of a store. -/
structure Stats where
  containers : Nat
  strings : Nat
  dataspaces : Nat
  planes : Nat
  /-- Backups on all planes. -/
  ledgerEntries : Nat
  deriving DecidableEq, Repr

def stats (s : Store) : Stats :=
  { containers := s.heap.liveContainers
    strings := s.heap.liveStrings
    dataspaces := s.dataspaces.size
    planes := s.level
    ledgerEntries := (s.planes.flatMap Plane.ledger).length }

end PlaneStore.Store
