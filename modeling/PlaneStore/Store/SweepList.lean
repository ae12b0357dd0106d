import PlaneStore.Store.Frame

/-!
# Sweep lists

The containers that a dataspace owns form a doubly linked list through the containers themselves,
the one linked last in front:

```text
head ──► #7 ◄──► #3 ◄──► #12
```

A container is on exactly one such list, that of its owner.
-/

namespace PlaneStore.Store

open StoreM

/-- Makes `next` the successor of `prev`, or the head of the list if nothing comes before it. -/
def setNext (ds : DataspaceId) (prev next : Option ContainerId) : StoreM Unit :=
  match prev with
  | some prev => modifyContainer prev fun c => { c with next }
  | none => modifyDataspace ds fun d => { d with head := next }

/-- Makes `prev` the predecessor of `next`, if there is one. -/
def setPrev (prev next : Option ContainerId) : StoreM Unit :=
  match next with
  | some next => modifyContainer next fun c => { c with prev }
  | none => return

/-- Counts the containers on the list of `ds` anew. -/
def recount (ds : DataspaceId) (f : Nat → Nat) : StoreM Unit :=
  modifyDataspace ds fun d => { d with containers := f d.containers }

/-- Puts a container in front of the sweep list of `ds`, which becomes its owner. -/
def link (ds : DataspaceId) (id : ContainerId) : StoreM Unit := do
  match (← get).dataspace? ds with
  | none => fault (.unknownOwner id ds)
  | some d => do
    setNext ds none (some id)
    modifyContainer id fun c => { c with owner := ds, prev := none, next := d.head }
    setPrev (some id) d.head
    recount ds (· + 1)

/-- Takes a container off the sweep list of its owner. -/
def unlink (id : ContainerId) : StoreM Unit := do
  let c ← container id
  modifyContainer id fun c => { c with prev := none, next := none }
  setNext c.owner c.prev c.next
  setPrev c.prev c.next
  recount c.owner (· - 1)

/-- The containers met from `cursor` on, at most `n` of them. -/
def walk (h : Heap) : Nat → Option ContainerId → Except Fault (List Value)
  | 0, _ | _, none => return []
  | n + 1, some id => do
    let c ← h.get id
    return Value.ofContainer c.kind id :: (← walk h n c.next)

/--
The containers on the sweep list of a dataspace, the one linked last in front. A list is never
longer than the table of containers.
-/
def sweepList (s : Store) (ds : DataspaceId) : Except Fault (List Value) :=
  walk s.heap s.heap.containers.cells.size ((s.dataspace? ds).bind Dataspace.head)

/-! ## Linking frees nothing -/

theorem setNext_keeps_occupied (ds : DataspaceId) (prev next : Option ContainerId) :
    Keeps occupied (setNext ds prev next) := by
  cases prev with
  | some prev => exact modifyContainer_keeps_occupied _ _
  | none => exact modifyDataspace_keeps_occupied _ _

theorem setPrev_keeps_occupied (prev next : Option ContainerId) :
    Keeps occupied (setPrev prev next) := by
  cases next with
  | some next => exact modifyContainer_keeps_occupied _ _
  | none => exact Keeps.pure _

/-- To unlink a container does not free it. -/
theorem unlink_keeps_occupied (id : ContainerId) : Keeps occupied (unlink id) :=
  Keeps.bind Keeps.readHeap fun _ =>
    Keeps.bind (modifyContainer_keeps_occupied _ _) fun _ =>
      Keeps.bind (setNext_keeps_occupied _ _ _) fun _ =>
        Keeps.bind (setPrev_keeps_occupied _ _) fun _ => modifyDataspace_keeps_occupied _ _

end PlaneStore.Store
