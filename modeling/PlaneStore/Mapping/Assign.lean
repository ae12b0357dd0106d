import PlaneStore.Store.Backup

/-!
# Assignment to mappings

Writing and deleting keys. All that can be refused is checked before the mapping is backed up or
changed.
-/

namespace PlaneStore.Mapping

open Store StoreM ClientM

/-! ## Pending writes -/

/-- Parks a pair in the overlay, which is made if there is none. -/
def park (id : ContainerId) (e : OverlayEntry) : StoreM Unit := do
  let buckets := (← get).limits.overlayBuckets
  modifyContainer id fun c =>
    { c with overlay := some ((c.overlay.getD (.ofBuckets buckets)).insert e) }

/-- The overlay that index `i` belongs to. -/
def overlayOf (id : ContainerId) (i : Nat) : StoreM Overlay := do
  match (← container id).overlay with
  | some overlay => return overlay
  | none => fault (.danglingEntry i)

/-- Replaces the value of an overlay entry and returns the one that was there. -/
def exchangePending (id : ContainerId) (i : Nat) (v : Value) : StoreM Value := do
  let overlay ← overlayOf id i
  let old := (← overlay.entry i).value
  let overlay ← overlay.setValue i v
  modifyContainer id fun c => { c with overlay := some overlay }
  return old

/-- Takes an entry out of the overlay; also tells whether an added one is left. -/
def takePending (id : ContainerId) (i : Nat) : StoreM (OverlayEntry × Bool) := do
  let (e, overlay) ← (← overlayOf id i).remove i
  modifyContainer id fun c => { c with overlay := some overlay }
  return (e, overlay.addedCount ≠ 0)

/-! ## Writing and deleting -/

/-- Stores a value, which is not nil, under a key. -/
def write (id : ContainerId) (key value : Value) : StoreM Unit := do
  let owner := (← container id).owner
  let hash ← readHeap (·.hash key)
  let w ← locate id hash key
  acquire owner value
  match w.pending, w.sorted, w.dirty with
  | some i, _, _ => relinquish owner [← exchangePending id i value]
  | none, some i, false => relinquish owner [← exchange id (2 * i + 1) value]
  | none, sorted, _ => do
    acquire owner key
    park id { hash, key, value, added := sorted.isNone }

/-- Deletes a sorted pair. -/
def deleteSorted (id : ContainerId) (owner : DataspaceId) : Option Nat → StoreM Unit
  | none => fault (.deletedKeyAbsent id)
  | some i => do
    let values ← residentValues id
    modifyValues id fun values =>
      values.extract 0 (2 * i) ++ values.extract (2 * i + 2) values.size
    relinquish owner (values.extract (2 * i) (2 * i + 2)).toList

/-- Deletes a key that is present. With the last added entry the overlay goes too. -/
def delete (id : ContainerId) (key : Value) : StoreM Unit := do
  let owner := (← container id).owner
  let hash ← readHeap (·.hash key)
  let w ← locate id hash key
  match w.pending with
  | none => deleteSorted id owner w.sorted
  | some i => do
    let (e, additionsLeft) ← takePending id i
    relinquish owner [e.key, e.value]
    if !e.added then deleteSorted id owner w.sorted
    else if additionsLeft then return
    else mergeOverlay id false

/-! ## Assignment -/

/-- Refuses one more entry in a mapping that is full, unless the key is there already. -/
def requireGrowth (id : ContainerId) (present : Bool) : ClientM Unit := do
  let size := (← container id).size + 1
  let max := (← get).limits.containerSize
  if !present && max < size then refuse (.containerTooLarge size max) else return

/-- Writes a value, or deletes the key if the value is nil. -/
def change (id : ContainerId) (key value : Value) : StoreM Unit :=
  if value.isNil then delete id key else write id key value

/-- Stores a value under a key; nil deletes the key. -/
def assign (id : ContainerId) (key value : Value) : ClientM Unit := do
  if (← scrub key).isNil then refuse (.expected "live key" key)
  else do
    faultIn id
    let value ← scrub value
    let present := !(← lookup id key).isNil
    if value.isNil && !present then return
    else do
      requireGrowth id present
      makeWritable id
      change id key value
      reportSizeChange id

end PlaneStore.Mapping
