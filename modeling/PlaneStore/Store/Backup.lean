import PlaneStore.Mapping.Basic

/-!
# Backups

A container may be changed on the current plane once its home is that plane. The first change of a
container whose home lies further out takes a backup of its elements; the backup keeps a reference
to each of them and one to the container itself.
-/

namespace PlaneStore.Store

open StoreM

/-- Files a backup of a container on the current plane, which becomes its home. -/
def backUp (id : ContainerId) : StoreM Unit := do
  let s ← get
  if s.planes.head?.any (·.isBacked id) then fault (.backedUpTwice id s.level)
  else do
    let c ← container id
    let elements ← residentValues id
    elements.toList.forM retain
    retain (.ofContainer c.kind id)
    modifyContainer id fun c => { c with home := s.level }
    modifyPlane fun p => p.file
      { container := id, kind := c.kind, elements, size := c.size, home := c.home
        scrubEpoch := c.scrubEpoch }

/-- Makes a container safe to change on the current plane. -/
def makeWritable (id : ContainerId) : StoreM Unit := do
  faultIn id
  let level := (← get).level
  let c ← container id
  if c.home = level then return
  else if level < c.home then fault (.homeAbovePlane id c.home level)
  else do
    when (c.kind = .mapping) (Mapping.mergeOverlay id false)
    backUp id

/-- Replaces an element and returns the one that was there. -/
def exchange (id : ContainerId) (i : Nat) (v : Value) : StoreM Value := do
  match (← residentValues id)[i]? with
  | none => fault .elementOutOfBounds
  | some old => do
    modifyValues id (·.setIfInBounds i v)
    return old

end PlaneStore.Store
