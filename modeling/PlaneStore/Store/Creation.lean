import PlaneStore.Store.Residency
import PlaneStore.Mapping.Pairs

/-!
# Creation

New dataspaces, containers and strings. A new container has one reference, which is the client's,
belongs to the current plane and comes first on the sweep list of its owner.

The limits are checked before anything is changed.
-/

namespace PlaneStore.Store

open StoreM ClientM

/-! ## Checks -/

/-- Refuses a dataspace that does not exist. -/
def requireDataspace (ds : DataspaceId) : ClientM Dataspace := do
  match (← get).dataspace? ds with
  | some d => return d
  | none => refuse (.unknownDataspace ds)

/-- Refuses a container of the given size if a limit stands against it. -/
def requireRoom (size : Nat) : ClientM Unit := do
  let s ← get
  if s.limits.containerSize < size then
    refuse (.containerTooLarge size s.limits.containerSize)
  else if s.limits.containers ≤ s.heap.liveContainers then
    refuse (.tooManyContainers s.limits.containers)
  else return

/-! ## Allocation -/

/-- Puts a new container in the heap. -/
def install (owner : DataspaceId) (kind : Kind) (values : List Value) : StoreM ContainerId :=
  modifyGet fun s =>
    let (tag, heap) := s.heap.takeTag
    let c : Container :=
      { kind, tag, owner, elements := .resident values.toArray, home := s.level
        scrubEpoch := s.objects.epoch }
    (heap.nextId, { s with heap := heap.insert c })

/-- Makes a container of values that a reference was taken to already. -/
def allocate (owner : DataspaceId) (kind : Kind) (values : List Value) : StoreM ContainerId := do
  values.forM (addImport owner)
  let id ← install owner kind values
  link owner id
  modifyPlane fun p => { p with census := p.census.insert id .fresh }
  return id

/-- Makes a container of copies of values, owned by the owner of `source`. -/
def derive (source : ContainerId) (kind : Kind) (values : List Value) : ClientM Value := do
  requireRoom (kind.entries values.length)
  let owner := (← container source).owner
  return .ofContainer kind (← allocate owner kind (← copies values))

/-! ## Requests -/

/-- Creates a dataspace with `n` nil variables. -/
def createDataspace (n : Nat) : StoreM DataspaceId :=
  modifyGet fun s =>
    (⟨s.dataspaces.size⟩,
      { s with dataspaces := s.dataspaces.push { vars := Array.replicate n .nil } })

/-- Creates an array of `n` nils. -/
def createArray (ds : DataspaceId) (n : Nat) : ClientM Value := do
  let _ ← requireDataspace ds
  requireRoom n
  return .container .array (← allocate ds .array (List.replicate n .nil))

/-- Creates an empty mapping; the size is only held against the limits. -/
def createMapping (ds : DataspaceId) (n : Nat) : ClientM Value := do
  let _ ← requireDataspace ds
  requireRoom n
  return .container .mapping (← allocate ds .mapping [])

/-- Creates a record of a class with `n` nil variables. -/
def createRecord (ds : DataspaceId) (cls : ObjectRef) (n : Nat) : ClientM Value := do
  let _ ← requireDataspace ds
  requireRoom n
  return .container .record (← allocate ds (.record cls) (List.replicate n .nil))

/-- Creates an array of copies of values. -/
def createArrayOf (ds : DataspaceId) (values : List Value) : ClientM Value := do
  let _ ← requireDataspace ds
  requireRoom values.length
  return .container .array (← allocate ds .array (← copies values))

/-- Stores a text, with one reference to it. -/
def createString (text : String) : StoreM Value :=
  modifyGet fun s =>
    let (id, heap) := s.heap.allocString text
    (.string id, { s with heap })

/-! ## Restoring from storage -/

/--
The elements of a container to be restored.

Those of a mapping are `key, value` pairs in any order. They become what assigning them in order to
a new mapping would leave: the last of several values of one key counts, a nil value deletes, and
pairs with a dead key or value are left out.
-/
def restoredElements (kind : Kind) (elements : List Value) : StoreM (List Value) :=
  match kind with
  | .mapping => do
    let pairs ← (Pair.ofFlat elements).mapM fun (k, v) => do return (← scrub k, ← scrub v)
    return Pair.flatten (← readHeap (·.normalizePairs pairs))
  | _ => return elements

/-- Recreates a container under the tag that it had. -/
def restore (ds : DataspaceId) (kind : Kind) (tag : Nat) (elements : List Value) :
    ClientM Value := do
  let _ ← requireDataspace ds
  if kind = .mapping ∧ elements.length % 2 ≠ 0 then
    refuse (.wrongKind "key/value pairs" "odd element count")
  else do
    requireRoom (kind.entries elements.length)
    let id ← allocate ds kind (← copies (← restoredElements kind elements))
    modifyContainer id fun c => { c with tag }
    updateHeap fun h => .ok (h.observeTag tag)
    return .ofContainer kind id

end PlaneStore.Store
