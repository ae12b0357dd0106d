import PlaneStore.Value.Basic
import Std.Data.TreeMap.Lemmas

/-!
# The swap

Secondary storage for the elements of evicted containers. The swap keeps a buffer until it is loaded
and also records which containers reported that their size has changed since.
-/

namespace PlaneStore

/-- What the swap hands out for a stored buffer. -/
structure SwapTicket where
  number : Nat
  deriving DecidableEq, Repr, Inhabited

instance : Ord SwapTicket := ⟨compareOn SwapTicket.number⟩

instance : Std.TransOrd SwapTicket :=
  inferInstanceAs (Std.TransCmp (compareOn SwapTicket.number))

instance : Std.LawfulEqOrd SwapTicket where
  eq_of_compare {a b} h := by
    cases a; cases b
    exact congrArg SwapTicket.mk (Std.LawfulEqOrd.eq_of_compare (α := Nat) h)

structure Swap where
  buffers : Std.TreeMap SwapTicket (Array Value) := ∅
  /-- The number of the next ticket. -/
  next : Nat := 0
  /-- The containers whose size was reported as changed, the first report first. -/
  sizeChanges : Array ContainerId := #[]
  /-- How often a buffer was asked for. -/
  loads : Nat := 0

namespace Swap

/-- The number of buffers that are swapped out. -/
def size (s : Swap) : Nat := s.buffers.size

/-- Takes custody of a buffer. -/
def store (s : Swap) (values : Array Value) : SwapTicket × Swap :=
  (⟨s.next⟩, { s with buffers := s.buffers.insert ⟨s.next⟩ values, next := s.next + 1 })

/-- Gives a buffer back; a ticket that is not outstanding yields no values. -/
def load (s : Swap) (ticket : SwapTicket) : Array Value × Swap :=
  (s.buffers.getD ticket #[], { s with buffers := s.buffers.erase ticket, loads := s.loads + 1 })

/-- Records that a container has another size than its stored buffer. -/
def markSizeChanged (s : Swap) (id : ContainerId) : Swap :=
  { s with sizeChanges := s.sizeChanges.push id }

/-! ## What was stored is what is loaded -/

/-- What was handed over comes back. -/
theorem load_store (s : Swap) (values : Array Value) :
    ((s.store values).2.load (s.store values).1).1 = values := by
  simp [load, store]

/-- A ticket is good for one load. -/
theorem load_load (s : Swap) (ticket : SwapTicket) :
    ((s.load ticket).2.load ticket).1 = #[] := by
  simp [load]

end Swap

end PlaneStore
