import PlaneStore.Store.References

/-!
# Residency

Bringing evicted elements back, removing dead references from arrays and records, and reporting that
a container has another size than its evicted image.

Dead references are looked for once per destruction epoch: as long as no object is destroyed, a
container that was scrubbed once stays clean. Scrubbing takes no backup, since a discard could only
bring dead references back.
-/

namespace PlaneStore.Store

open StoreM

/-! ## Elements -/

/-- Makes the elements of a container resident. -/
def faultIn (id : ContainerId) : StoreM Unit := do
  match (← container id).elements with
  | .resident _ => return
  | .evicted ticket expected => do
    let values ← loadSwapped ticket
    if values.size = expected then
      modifyContainer id fun c => { c with elements := .resident values }
    else fault (.swappedSize id values.size expected)

/-- The resident elements of a container. -/
def residentValues (id : ContainerId) : StoreM (Array Value) :=
  readHeap fun h => do (← h.get id).values

/-! ## Scrubbing -/

/-- Whether an object was destroyed since the container was scrubbed. -/
def isStale (s : Store) (c : Container) : Bool := c.scrubEpoch ≠ s.objects.epoch

/-- Whether a value refers to something destroyed. -/
def isDead (v : Value) : StoreM Bool := return (← scrub v) ≠ v

/-- Makes the elements of an array or record resident and dead references among them nil. -/
def scrubElements (id : ContainerId) : StoreM Unit := do
  faultIn id
  let c ← container id
  let s ← get
  if s.isStale c then
    let values ← residentValues id
    let seen ← values.toList.mapM scrub
    let dead := (values.toList.zip seen).filterMap fun (v, w) => if w ≠ v then some v else none
    modifyContainer id fun c =>
      { c with scrubEpoch := s.objects.epoch, elements := .resident seen.toArray }
    relinquish c.owner dead
  else return

/-! ## Size -/

/--
Reports a container whose size differs from that of its evicted image, once for each eviction.
-/
def reportSizeChange (id : ContainerId) : StoreM Unit := do
  let c ← container id
  if c.sizeReported || c.savedSize.all (· = c.size) then return
  else do
    modifyContainer id fun c => { c with sizeReported := true }
    modify fun s => { s with swap := s.swap.markSizeChanged id }

end PlaneStore.Store
