import PlaneStore.Callout

/-!
# Faults

A fault says that the tables of a store contradict each other, or that a handle was used after its
slot was freed. Nothing can be recovered then, so a fault ends the run; a well-behaved client never
sees one.
-/

namespace PlaneStore

inductive Fault where
  /-- A handle addresses a container slot that is empty. -/
  | danglingContainer (id : ContainerId)
  /-- A handle addresses a string slot that is empty. -/
  | danglingString (id : StringId)
  /-- An empty container slot is to be freed. -/
  | freeingEmptySlot (id : ContainerId)
  /-- Elements are read that were handed to the swap. -/
  | elementsEvicted
  /-- An overlay index addresses no entry. -/
  | danglingEntry (index : Nat)
  /-- A reference is given back that was never taken. -/
  | unreferenced (id : ContainerId)
  /-- An import is dropped that was never counted. -/
  | importUnderflow (id : ContainerId) (dataspace : DataspaceId)
  /-- A container is to be owned by a dataspace that does not exist. -/
  | unknownOwner (id : ContainerId) (dataspace : DataspaceId)
  /-- The overlay updates a key that the sorted pairs lack. -/
  | updateWithoutKey (id : ContainerId)
  /-- A key is deleted that is nowhere. -/
  | deletedKeyAbsent (id : ContainerId)
  /-- A container belongs to a plane that no longer exists. -/
  | homeAbovePlane (id : ContainerId) (home level : Nat)
  /-- A plane already holds a backup of the container. -/
  | backedUpTwice (id : ContainerId) (level : Nat)
  /-- A restored container has not the size that its backup recorded. -/
  | restoredSize (id : ContainerId) (size recorded : Nat)
  /-- The swap gave back another number of elements than it was handed. -/
  | swappedSize (id : ContainerId) (found expected : Nat)
  /-- A saved variable has no slot to return to. -/
  | missingVariable (ref : VariableRef)
  /-- A patched call has no dataspace. -/
  | missingCallTable (dataspace : DataspaceId)
  /-- A call that was added is not there to be taken back. -/
  | addedCallMissing (call : CallRef)
  /-- A call that was replaced is not there to be put back. -/
  | replacedCallMissing (call : CallRef)
  /-- Two patches cannot follow each other. -/
  | patchesClash (earlier later : CallPatch) (call : CallRef)
  /-- A patch says otherwise than the callout table. -/
  | patchMismatch (patch : CallPatch) (call : CallRef)
  /-- An element is addressed beyond the buffer. -/
  | elementOutOfBounds
  deriving DecidableEq

namespace Fault

/-- What is wrong, without the words that open every message. -/
def detail : Fault → String
  | danglingContainer id => "dangling container handle " ++ id.text
  | danglingString id => "dangling string handle " ++ id.text
  | freeingEmptySlot id => "removing dangling container " ++ id.text
  | elementsEvicted => "container elements not resident"
  | danglingEntry index => "dangling overlay entry " ++ toString index
  | unreferenced id => "releasing container " ++ id.text ++ " with no references"
  | importUnderflow id ds => "import count underflow for " ++ id.text ++ " in " ++ ds.text
  | unknownOwner id ds => "linking " ++ id.text ++ " into unknown " ++ ds.text
  | updateWithoutKey id => "pending update of " ++ id.text ++ " has no sorted key"
  | deletedKeyAbsent id =>
    "deleting a key of " ++ id.text ++ " that is in neither array nor overlay"
  | homeAbovePlane id home level =>
    id.text ++ " is homed on plane " ++ toString home ++ " above current plane " ++ toString level
  | backedUpTwice id level => id.text ++ " backed up twice on plane " ++ toString level
  | restoredSize id size recorded =>
    "restored " ++ id.text ++ " has size " ++ toString size ++ " but the backup recorded " ++
      toString recorded
  | swappedSize id found expected =>
    "persistence returned " ++ toString found ++ " elements for " ++ id.text ++ ", expected " ++
      toString expected
  | missingVariable ref =>
    "variable ledger names missing " ++ ref.dataspace.text ++ " slot " ++
      toString ref.slot
  | missingCallTable ds => "deferred-call journal names missing " ++ ds.text
  | addedCallMissing call =>
    "added call " ++ call.handle.text ++ " of " ++ call.dataspace.text ++ " vanished"
  | replacedCallMissing call =>
    "replaced call " ++ call.handle.text ++ " of " ++ call.dataspace.text ++ " vanished"
  | patchesClash earlier later call =>
    "cannot fold " ++ later.text ++ " into " ++ earlier.text ++ " for " ++ call.dataspace.text ++
      " call " ++ call.handle.text
  | patchMismatch patch call =>
    patch.text ++ " for " ++ call.dataspace.text ++ " call " ++ call.handle.text ++
      " does not match the callout table"
  | elementOutOfBounds => "element index out of bounds"

def message (fault : Fault) : String :=
  "store invariant violated: " ++ fault.detail

end Fault

end PlaneStore
