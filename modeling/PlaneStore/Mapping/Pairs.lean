import PlaneStore.Heap.Search

/-!
# Pairs

The buffer of a mapping as a list of `key, value` pairs, and what is done to such lists: merging two
that are sorted, and bringing pairs in any order into the form of a mapping.
-/

namespace PlaneStore

abbrev Pair := Value × Value

namespace Pair

/-- The pairs of a flat buffer; a value at the end without a partner is left out. -/
def ofFlat : List Value → List Pair
  | key :: value :: rest => (key, value) :: ofFlat rest
  | _ => []

/-- The pairs of a buffer. -/
def ofBuffer (values : Array Value) : List Pair := ofFlat values.toList

/-- Keys and values in turn. -/
def flatten (ps : List Pair) : List Value := ps.flatMap fun p => [p.1, p.2]

/-- The buffer that holds the given pairs. -/
def toBuffer (ps : List Pair) : Array Value := (flatten ps).toArray

/-- Pairs written out one after the other can be read back. -/
@[simp] theorem ofFlat_flatten (ps : List Pair) : ofFlat (flatten ps) = ps := by
  induction ps with
  | nil => rfl
  | cons p ps ih => simpa [flatten, ofFlat] using ih

@[simp] theorem ofBuffer_toBuffer (ps : List Pair) : ofBuffer (toBuffer ps) = ps := by
  simp [ofBuffer, toBuffer]

end Pair

namespace Heap

variable (h : Heap)

/-- Merges two lists of pairs, both sorted by key; of equal keys the left one comes first. -/
def mergePairs : List Pair → List Pair → Except Fault (List Pair)
  | [], right => return right
  | left, [] => return left
  | l :: left, r :: right => do
    if (← h.compare r.1 l.1) = .lt then return r :: (← mergePairs (l :: left) right)
    else return l :: (← mergePairs left (r :: right))
termination_by left right => left.length + right.length

/-- Sorts pairs by key. -/
def sortPairs (ps : List Pair) : Except Fault (List Pair) :=
  h.sortOn Prod.fst ps

/-- What is left of a run of keys that order as equal when `key` comes next. -/
def continueRun (run : List Value) (key : Value) : Except Fault (List Value) :=
  match run with
  | [] => return []
  | last :: _ => return if (← h.compare last key) = .eq then run else []

/--
Of sorted pairs, those with the first occurrence of each key.

`run` holds the distinct keys seen last that order as equal. Pairs with a nil key are left out; so
is a pair with a nil value, but its key counts as seen.
-/
def firstOfEach : List Value → List Pair → Except Fault (List Pair)
  | _, [] => return []
  | run, (key, value) :: rest => do
    if key.isNil then firstOfEach run rest
    else
      let run ← h.continueRun run key
      if ← run.anyM (h.same · key) then firstOfEach run rest
      else
        let kept ← firstOfEach (key :: run) rest
        return if value.isNil then kept else (key, value) :: kept

/--
The pairs that remain when the given ones are written in order to an empty mapping, sorted by key:
of several pairs with one key the last, and none if its value is nil.
-/
def normalizePairs (ps : List Pair) : Except Fault (List Pair) := do
  h.checkSortable [] (ps.map Prod.fst)
  h.firstOfEach [] (ps.reverse.mergeSort fun p q => h.le p.1 q.1)

end Heap

end PlaneStore
