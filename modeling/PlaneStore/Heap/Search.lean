import PlaneStore.Heap.Order

/-!
# Search and sort

Binary search in a sequence of keys that is sorted in the order of values. Since keys that order as
equal need not be the same, a hit on a key that is not the same is followed by a probe of the equal
keys below and then above it.

## Termination

The interval `lo .. hi` of the binary search shrinks; the probe downwards is structural, the one
upwards ends at the number of keys.
-/

namespace PlaneStore

/-- The answer of a search: where the key is, or where it would be inserted. -/
inductive Found where
  | at (i : Nat)
  | absent (i : Nat)
  deriving DecidableEq, Repr

namespace Found

def index? : Found → Option Nat
  | .at i => some i
  | .absent _ => none

def isHit (f : Found) : Bool := f.index?.isSome

end Found

namespace Heap

variable (h : Heap) (key : Value) (probe : Nat → Value)

/-- Looks for the same key in the run of equal keys that ends before `i`. -/
def probeDown : Nat → Except Fault (Option Nat)
  | 0 => return none
  | i + 1 => do
    if (← h.compare key (probe i)) ≠ .eq then return none
    if ← h.same key (probe i) then return some i
    probeDown i

/-- Looks for the same key in the run of equal keys that starts at `i`, among `n` keys. -/
def probeUp (n i : Nat) : Except Fault (Option Nat) := do
  if i < n then
    if (← h.compare key (probe i)) ≠ .eq then return none
    if ← h.same key (probe i) then return some i
    probeUp n (i + 1)
  else return none
termination_by n - i

/-- Looks for the same key around a key that orders as equal. -/
def probeRun (n mid : Nat) : Except Fault Found := do
  if ← h.same key (probe mid) then return .at mid
  match ← h.probeDown key probe mid with
  | some i => return .at i
  | none =>
    match ← h.probeUp key probe n (mid + 1) with
    | some i => return .at i
    | none => return .absent mid

/-- Binary search between `lo` and `hi`, among `n` keys. -/
def bisect (n lo hi : Nat) : Except Fault Found := do
  if lo < hi then
    let mid := lo + (hi - lo) / 2
    match ← h.compare key (probe mid) with
    | .lt => bisect n lo mid
    | .gt => bisect n (mid + 1) hi
    | .eq => h.probeRun key probe n mid
  else return .absent lo
termination_by hi - lo

/--
Finds `key` among entries of `stride` values each, sorted by the first value of every entry.
Values at the end that make no whole entry are not looked at.
-/
def findSorted (elements : Array Value) (stride : Nat) (key : Value) : Except Fault Found :=
  let n := elements.size / stride
  h.bisect key (fun i => elements.getD (i * stride) .nil) n 0 n

/-! ## Sort -/

/--
Looks at what a sort of `keys` has to look at: every key is compared with one before it of its own
type.
-/
def checkSortable : List Value → List Value → Except Fault Unit
  | _, [] => return
  | before, key :: rest => do
    ((before.find? (·.type = key.type)).toList).forM (h.checkComparable key)
    checkSortable (key :: before) rest

/-- Sorts by key; what has equal keys stays in order. -/
def sortOn {α : Type} (keyOf : α → Value) (xs : List α) : Except Fault (List α) := do
  h.checkSortable [] (xs.map keyOf)
  return xs.mergeSort fun a b => h.le (keyOf a) (keyOf b)

/-- Sorts values. -/
def sort (values : Array Value) : Except Fault (Array Value) := do
  return (← h.sortOn id values.toList).toArray

/-! ## What sorting does -/

variable {h}

/-- Sorting is the stable sort, once all keys were found sortable. -/
theorem sortOn_eq_ok {α : Type} {keyOf : α → Value} {xs ys : List α} :
    h.sortOn keyOf xs = .ok ys ↔
      h.checkSortable [] (xs.map keyOf) = .ok () ∧
        xs.mergeSort (fun a b => h.le (keyOf a) (keyOf b)) = ys := by
  unfold sortOn
  cases hc : h.checkSortable [] (xs.map keyOf) with
  | error e => simp [bind, Except.bind]
  | ok u => simp [bind, Except.bind, pure, Except.pure]

theorem sortOn_perm {α : Type} {keyOf : α → Value} {xs ys : List α}
    (hs : h.sortOn keyOf xs = .ok ys) : ys.Perm xs := by
  obtain ⟨-, rfl⟩ := sortOn_eq_ok.mp hs
  exact List.mergeSort_perm _ _

/-- What was sorted is in the order of the keys. -/
theorem pairwise_sortOn {α : Type} {keyOf : α → Value} {xs ys : List α}
    (hs : h.sortOn keyOf xs = .ok ys) :
    ys.Pairwise fun a b => h.le (keyOf a) (keyOf b) = true := by
  obtain ⟨-, rfl⟩ := sortOn_eq_ok.mp hs
  have trans : ∀ a b c : α, h.le (keyOf a) (keyOf b) → h.le (keyOf b) (keyOf c) →
      h.le (keyOf a) (keyOf c) := fun _ _ _ => le_trans
  exact List.pairwise_mergeSort trans (fun a b => h.le_total (keyOf a) (keyOf b)) xs

end Heap

end PlaneStore
