import PlaneStore.Limits
import PlaneStore.Refusal
import PlaneStore.Heap.Search
import PlaneStore.Objects
import PlaneStore.Scheduler
import PlaneStore.Dataspace
import PlaneStore.Plane

/-!
# The store

A store is the heap, the dataspaces, the stack of planes and the three collaborators: the swap, the
object table and the scheduler.

## Two kinds of steps

`StoreM` is for steps inside the store. They always succeed on a sound store; the only way to fail
is a `Fault`, which ends the run. `ClientM` is for what a client can ask for: such a request may
also be refused, and then the store as the request left it is still there to go on with.
-/

namespace PlaneStore

structure Store where
  limits : Limits := {}
  heap : Heap := {}
  dataspaces : Array Dataspace := #[]
  /-- The active planes, the innermost in front. -/
  planes : List Plane := []
  swap : Swap := {}
  objects : Objects := {}
  scheduler : Scheduler := {}

instance : Inhabited Store := ⟨{}⟩

/-- Steps inside the store. -/
abbrev StoreM := StateT Store (Except Fault)

/-- Requests of a client. -/
abbrev ClientM := ExceptT Refusal StoreM

/-- Ends the run. -/
def StoreM.fault {α : Type} (f : Fault) : StoreM α := fun _ => .error f

/-- Takes a step only under a condition. -/
def StoreM.when (p : Bool) (x : StoreM Unit) : StoreM Unit := if p then x else pure ()

/-- Turns a request down. -/
def ClientM.refuse {α : Type} (r : Refusal) : ClientM α := ExceptT.mk (pure (.error r))

namespace Store

/-! ## Reading -/

/-- Level of the current plane; zero outside of atomic regions. -/
def level (s : Store) : Nat := s.planes.length

def dataspace? (s : Store) (ds : DataspaceId) : Option Dataspace := s.dataspaces[ds.index]?

/-- Reads from the heap. -/
def readHeap {α : Type} (f : Heap → Except Fault α) : StoreM α := fun s => do
  return (← f s.heap, s)

/-- A live container. -/
def container (id : ContainerId) : StoreM Container := readHeap (·.get id)

/--
A value as a reader sees it: nil if it refers to a destroyed object or is a record of a destroyed
class.
-/
def scrubbed (s : Store) : Value → Except Fault Value
  | .object obj => return if s.objects.isDestroyed obj then .nil else .object obj
  | .container .record id => do
    match (← s.heap.get id).kind with
    | .record cls => return if s.objects.isDestroyed cls then .nil else .container .record id
    | _ => return .container .record id
  | v => return v

/-- `Store.scrubbed` in the current store. -/
def scrub (v : Value) : StoreM Value := fun s => do
  return (← s.scrubbed v, s)

/-! ## Writing -/

/-- Changes the heap by a step that may find it broken. -/
def updateHeap (f : Heap → Except Fault Heap) : StoreM Unit := fun s => do
  return ((), { s with heap := ← f s.heap })

/-- Changes a live container. -/
def modifyContainer (id : ContainerId) (f : Container → Container) : StoreM Unit :=
  updateHeap (·.modify id f)

/-- Changes the resident elements of a container. -/
def modifyValues (id : ContainerId) (f : Array Value → Array Value) : StoreM Unit :=
  updateHeap (·.modifyM id (·.modifyValues f))

/-- Changes a dataspace, if it exists. -/
def modifyDataspace (ds : DataspaceId) (f : Dataspace → Dataspace) : StoreM Unit :=
  modify fun s => { s with dataspaces := s.dataspaces.modify ds.index f }

/-- Changes the innermost plane, if there is one. -/
def modifyPlane (f : Plane → Plane) : StoreM Unit :=
  modify fun s =>
    match s.planes with
    | [] => s
    | p :: rest => { s with planes := f p :: rest }

end Store

end PlaneStore
