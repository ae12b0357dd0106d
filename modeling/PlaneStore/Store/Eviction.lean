import PlaneStore.Store.Inspection

/-!
# Eviction

Handing the elements of containers to the swap. Only committed state is handed out, so nothing is
evicted while a plane is active. An evicted container keeps its slot, its references and its tag.

Evicting a dataspace first makes it the owner of every foreign container that it alone refers to;
each such transfer can make more of them exclusive, so this is repeated until none is left. A
container changes owner at most once, hence there are no more rounds than slots.
-/

namespace PlaneStore.Store

open StoreM ClientM

/-! ## Single containers -/

/-- Hands a buffer to the swap. -/
def storeSwapped (values : Array Value) : StoreM SwapTicket :=
  modifyGet fun s =>
    let (ticket, swap) := s.swap.store values
    (ticket, { s with swap })

/-- Evicts a container; tells whether it was resident before. -/
def evictOne (id : ContainerId) : StoreM Bool := do
  let c ← container id
  if !c.isResident then return false
  else do
    when c.overlay.isSome (Mapping.mergeOverlay id false)
    let size := (← container id).size
    let values ← residentValues id
    let ticket ← storeSwapped values
    modifyContainer id fun c =>
      { c with
        elements := .evicted ticket values.size, savedSize := some size, sizeReported := false }
    return true

/-- Refuses to go on while a plane is active. -/
def requireRoot : ClientM Unit := do
  if (← get).planes.isEmpty then return else refuse .planeActive

/-- Evicts the container of a value; tells whether it was resident before. -/
def evictContainer (v : Value) : ClientM Bool := do
  let id ← requireContainer v "container"
  requireRoot
  evictOne id

/-! ## Dataspaces -/

/-- Makes `ds` the owner of a container; the imports of what it holds move along. -/
def transfer (ds : DataspaceId) (id : ContainerId) : StoreM Unit := do
  faultIn id
  let c ← container id
  let children := (← c.values).toList ++ c.overlayValues
  children.forM (dropImport c.owner)
  unlink id
  link ds id
  modifyDataspace ds fun d => { d with imports := d.imports.erase id }
  children.forM (addImport ds)

/-- The imports of a dataspace. -/
def importsOf (s : Store) (ds : DataspaceId) : List (ContainerId × Nat) :=
  ((s.dataspace? ds).map (·.imports.toList)).getD []

/-- The foreign containers whose every reference is held by `ds`. -/
def exclusiveImports (ds : DataspaceId) : StoreM (List ContainerId) := do
  let s ← get
  let held ← (s.importsOf ds).filterM fun (id, n) => return (← container id).refcount = n
  return held.map Prod.fst

/-- Transfers exclusive imports for at most `n` rounds; counts the transfers. -/
def transferExclusive (ds : DataspaceId) : Nat → StoreM Nat
  | 0 => return 0
  | n + 1 => do
    let ids ← exclusiveImports ds
    if ids.isEmpty then return 0
    else do
      ids.forM (transfer ds)
      return ids.length + (← transferExclusive ds n)

/-- Evicts the containers of a sweep list from `cursor` on, at most `n`; counts the evicted. -/
def evictList : Nat → Option ContainerId → StoreM Nat
  | 0, _ | _, none => return 0
  | n + 1, some id => do
    let next := (← container id).next
    let evicted ← evictOne id
    return (if evicted then 1 else 0) + (← evictList n next)

/-- What evicting a dataspace did. -/
structure EvictionReport where
  /-- The number of containers that were evicted. -/
  evicted : Nat
  /-- The number of containers that changed owner. -/
  rehomed : Nat
  /-- The foreign containers that others refer to as well; they stay resident. -/
  shared : List Value
  deriving DecidableEq

/-- Evicts every container that a dataspace owns or alone refers to. -/
def evictDataspace (ds : DataspaceId) : ClientM EvictionReport := do
  let _ ← requireDataspace ds
  requireRoot
  let slots := (← get).heap.containers.cells.size
  let rehomed ← transferExclusive ds (slots + 1)
  let shared ← ((← get).importsOf ds).mapM fun (id, _) => do
    return Value.ofContainer (← container id).kind id
  let evicted ← evictList slots (((← get).dataspace? ds).bind Dataspace.head)
  return { evicted, rehomed, shared }

end PlaneStore.Store
