import PlaneStore.Overlay
import PlaneStore.Swap

/-!
# Containers

A container is an array, a mapping or a record. All three keep their elements in one flat buffer; a
mapping stores `key, value, key, value, …` there, sorted by key, and its pending writes in an
overlay.
-/

namespace PlaneStore

/-- Where the elements of a container are. -/
inductive Elements where
  | resident (values : Array Value)
  /-- Handed to the swap, with the number of values handed over. -/
  | evicted (ticket : SwapTicket) (length : Nat)

instance : Inhabited Elements := ⟨.resident #[]⟩

/-- The number of values, resident or not. -/
def Elements.length : Elements → Nat
  | .resident values => values.size
  | .evicted _ n => n

structure Container where
  kind : Kind
  elements : Elements
  refcount : Nat := 1
  /-- Place among the containers of the same shape; two containers may share a tag. -/
  tag : Nat
  /-- Level of the plane that owns the element buffer. -/
  home : Nat
  /-- Dataspace whose sweep list holds the container. -/
  owner : DataspaceId
  /-- Neighbours in that sweep list. -/
  prev : Option ContainerId := none
  next : Option ContainerId := none
  overlay : Option Overlay := none
  /-- Number of objects that had been destroyed when dead references were last removed. -/
  scrubEpoch : Nat
  /-- Size at the last eviction. -/
  savedSize : Option Nat := none
  /-- Whether a change of size since the last eviction was reported. -/
  sizeReported : Bool := false
  deriving Inhabited

namespace Container

/-- Number of elements; for a mapping the number of entries, pending additions included. -/
def size (c : Container) : Nat :=
  match c.kind with
  | .mapping => c.elements.length / 2 + (c.overlay.map Overlay.addedCount).getD 0
  | _ => c.elements.length

def isResident (c : Container) : Bool :=
  match c.elements with
  | .resident _ => true
  | .evicted .. => false

/-- The element buffer, which has to be resident. -/
def values (c : Container) : Except Fault (Array Value) :=
  match c.elements with
  | .resident values => .ok values
  | .evicted .. => .error .elementsEvicted

/-- Changes the element buffer, which has to be resident. -/
def modifyValues (c : Container) (f : Array Value → Array Value) : Except Fault Container := do
  return { c with elements := .resident (f (← c.values)) }

/-- The keys and values of the pending writes, in the order of the overlay. -/
def overlayValues (c : Container) : List Value :=
  match c.overlay with
  | none => []
  | some overlay => overlay.toList.flatMap fun e => [e.key, e.value]

end Container

end PlaneStore
