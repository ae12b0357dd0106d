import PlaneStore.Store.Creation

/-!
# Mappings

A clean mapping keeps its pairs sorted by key in the element buffer. Writing a key that is not there
opens an overlay and parks the pair in it; from then on all writes go to the overlay, so that the
sorted pairs are only rebuilt when the overlay is merged.

A key is in one of four states:

* in neither place;
* among the sorted pairs only;
* in the overlay only, as an *added* entry;
* in both, and then the overlay has the value that counts.

Every entry of the overlay owns a reference to its key and one to its value.
-/

namespace PlaneStore.Mapping

open Store StoreM ClientM

/-- The container of a mapping value. -/
def require (v : Value) : ClientM ContainerId :=
  match v with
  | .container .mapping id => return id
  | _ => refuse (.expected "mapping" v)

/-! ## Where a key is -/

/-- The index of the overlay entry of a key, if there is an overlay. -/
def findPending (h : Heap) (hash : UInt32) (key : Value) :
    Option Overlay → Except Fault (Option Nat)
  | none => return none
  | some overlay => overlay.find? (h.same · key) hash

/-- Whereabouts of a key in a mapping. -/
structure Whereabouts where
  /-- Index of its overlay entry. -/
  pending : Option Nat
  /-- Index of its sorted pair. -/
  sorted : Option Nat
  /-- Whether the mapping has an overlay at all. -/
  dirty : Bool
  deriving DecidableEq, Repr

/-- Looks for a key in the overlay, then among the sorted pairs. -/
def locate (id : ContainerId) (hash : UInt32) (key : Value) : StoreM Whereabouts :=
  readHeap fun h => do
    let c ← h.get id
    let pending ← findPending h hash key c.overlay
    let found ← h.findSorted (← c.values) 2 key
    return { pending, sorted := found.index?, dirty := c.overlay.isSome }

/-- The value of the sorted pair of a key, or nil. -/
def lookupSorted (h : Heap) (c : Container) (key : Value) : Except Fault Value := do
  let values ← c.values
  match ← h.findSorted values 2 key with
  | .at i => return values.getD (2 * i + 1) .nil
  | .absent _ => return .nil

/-- The value stored under a key, or nil; the mapping is resident. -/
def lookup (id : ContainerId) (key : Value) : StoreM Value :=
  readHeap fun h => do
    let c ← h.get id
    match c.overlay with
    | none => lookupSorted h c key
    | some overlay => do
      match ← overlay.find? (h.same · key) (← h.hash key) with
      | some i => return (← overlay.entry i).value
      | none => lookupSorted h c key

/-! ## Merging the overlay -/

/-- What a merge has done so far. -/
structure Merge where
  values : Array Value
  /-- The pairs to be added, in the order of the overlay. -/
  added : List Pair := []
  /-- References that the mapping gives up. -/
  released : List Value := []

/-- Takes one overlay entry into account. -/
def Merge.step (h : Heap) (id : ContainerId) (m : Merge) (e : OverlayEntry) :
    Except Fault Merge := do
  if e.added then return { m with added := m.added ++ [(e.key, e.value)] }
  else
    match ← h.findSorted m.values 2 e.key with
    | .absent _ => .error (.updateWithoutKey id)
    | .at i =>
      return { m with
        values := m.values.setIfInBounds (2 * i + 1) e.value
        released := m.released ++ [m.values.getD (2 * i + 1) .nil, e.key] }

/-- The buffer with the overlay merged in, and the references that are given up. -/
def merged (h : Heap) (id : ContainerId) (overlay : Overlay) (values : Array Value) :
    Except Fault (Array Value × List Value) := do
  let m ← overlay.toList.foldlM (Merge.step h id) { values }
  let pairs ← h.mergePairs (Pair.ofBuffer m.values) (← h.sortPairs m.added)
  return (Pair.toBuffer pairs, m.released)

/-- Merges the overlay, if there is one, and returns the references that are given up. -/
def absorbOverlay (id : ContainerId) : StoreM (List Value) := do
  let c ← container id
  match c.overlay with
  | none => return []
  | some overlay => do
    let (values, released) ← readHeap fun h => do merged h id overlay (← c.values)
    modifyContainer id fun c => { c with overlay := none, elements := .resident values }
    return released

/-- Whether neither half of a pair refers to something destroyed. -/
def isLivePair (p : Pair) : StoreM Bool := do
  if ← isDead p.1 then return false
  else return !(← isDead p.2)

/--
Drops the pairs with a dead key or value and returns what they held. This is done once for each
destruction epoch.
-/
def dropDeadPairs (id : ContainerId) : StoreM (List Value) := do
  let c ← container id
  let s ← get
  if s.isStale c then
    let values ← residentValues id
    let pairs := Pair.ofBuffer values
    let live ← pairs.mapM isLivePair
    let kept := Pair.toBuffer ((pairs.zip live).filterMap fun (p, b) => if b then some p else none)
    let dropped := (pairs.zip live).flatMap fun (p, b) => if b then [] else [p.1, p.2]
    modifyContainer id fun c => { c with scrubEpoch := s.objects.epoch }
    when (kept.size ≠ values.size) do
      modifyContainer id fun c => { c with elements := .resident kept }
      reportSizeChange id
    return dropped
  else return []

/--
Merges the overlay of a mapping into its sorted pairs; with `compact`, also drops the pairs with a
dead key or value. References are given up last.
-/
def mergeOverlay (id : ContainerId) (compact : Bool) : StoreM Unit := do
  faultIn id
  let owner := (← container id).owner
  let superseded ← absorbOverlay id
  let dropped ← (if compact then dropDeadPairs id else pure [])
  relinquish owner (superseded ++ dropped)

/-- `mergeOverlay` as a request. -/
def merge (map : Value) (compact : Bool) : ClientM Unit := do
  mergeOverlay (← require map) compact

/-- The number of entries, dead ones not counted. -/
def size (map : Value) : ClientM Nat := do
  let id ← require map
  mergeOverlay id true
  return (← container id).size

/-! ## Reading -/

/-- The value stored under a key as a reader sees it, retained; nil if there is none. -/
protected def get (map key : Value) : ClientM Value := do
  let id ← require map
  faultIn id
  let value ← scrub (← lookup id key)
  retain value
  return value

/-- Whether a key is present. -/
def contains (map key : Value) : ClientM Bool := do
  let id ← require map
  faultIn id
  return !(← lookup id key).isNil

end PlaneStore.Mapping
