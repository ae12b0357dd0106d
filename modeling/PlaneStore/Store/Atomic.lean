import PlaneStore.Store.Backup
import PlaneStore.Store.Journal

/-!
# Atomic regions

Entering a region pushes a plane, committing folds the innermost plane into the one below it, and
discarding restores everything the plane remembers.

```text
level 2    ledger: #4 from 1             variables: ds0.3
level 1    ledger: #4 from 0, #9 from 0  census: #4 backed, #9 backed, #12 fresh
level 0    the committed state
```

A backup survives a commit if the plane below has not backed up the container itself and the
container's home lay further out still; otherwise the plane below needs no older state of it.
-/

namespace PlaneStore.Store

open StoreM ClientM

/-! ## Entering and leaving -/

/-- Opens an atomic region and returns its level. -/
def enter : ClientM Nat := do
  let s ← get
  if s.limits.planes ≤ s.level then refuse (.planeDepth s.limits.planes)
  else do
    modify fun s => { s with planes := {} :: s.planes }
    return s.level + 1

/-- Takes the innermost plane off the stack, which has to be that of the given level. -/
def pop (level : Nat) : ClientM Plane := do
  let s ← get
  match s.planes with
  | [] => refuse .noPlane
  | plane :: rest =>
    if level ≠ s.level then refuse (.planeOrder s.level level)
    else do
      modify fun s => { s with planes := rest }
      return plane

/-! ## Committing -/

/-- The references that a backup holds. -/
def backupReferences (b : Backup) : List Value :=
  .ofContainer b.kind b.container :: b.elements.toList

/-- Hands a backup to the plane below; returns its references if that plane does not need it. -/
def refile (parentLevel : Nat) (b : Backup) : StoreM (List Value) := do
  match (← get).planes with
  | [] => return backupReferences b
  | parent :: _ =>
    if b.home ≠ parentLevel ∧ !parent.isBacked b.container then do
      modifyPlane (·.file b)
      return []
    else return backupReferences b

/-- Moves a container of a finished plane to the plane below. -/
def settle (level : Nat) (id : ContainerId) : StoreM Unit := do
  if (← get).heap.contains id then
    modifyContainer id fun c => if c.home = level then { c with home := level - 1 } else c
    modifyPlane (·.adopt id)
  else return

/--
Hands a saved variable to the plane below; returns the value if that plane saved an older one.
-/
def resave (ref : VariableRef) (saved : Value) : StoreM (List Value) := do
  match (← get).planes with
  | [] => return [saved]
  | parent :: _ =>
    if parent.savedVars.contains ref then return [saved]
    else do
      modifyPlane fun p => { p with savedVars := p.savedVars.insert ref saved }
      return []

/-- Folds a plane into the one below; the plane, of the given level, is off the stack. -/
def foldDown (level : Nat) (plane : Plane) : StoreM Unit := do
  let backups ← plane.ledger.reverse.mapM (refile (level - 1))
  plane.census.keys.forM (settle level)
  let saved ← plane.savedVars.toList.mapM fun (ref, v) => resave ref v
  plane.patches.toList.forM fun (call, patch) => journal call patch
  releaseAll (backups.flatten ++ saved.flatten)

/-- Commits the innermost plane. -/
def commit (level : Nat) : ClientM Unit := do
  foldDown level (← pop level)

/-! ## Discarding -/

/-- Puts a container back into the state that a backup recorded. -/
def restoreBackup (b : Backup) : StoreM Unit := do
  let id := b.container
  faultIn id
  let c ← container id
  let current := (← c.values).toList ++ c.overlayValues
  let restored :=
    { c with
      elements := .resident b.elements, overlay := none, home := b.home
      scrubEpoch := b.scrubEpoch }
  if restored.size ≠ b.size then fault (.restoredSize id restored.size b.size)
  else do
    modifyContainer id fun _ => restored
    b.elements.toList.forM (addImport c.owner)
    relinquish c.owner current
    reportSizeChange id
    release (.ofContainer b.kind id)

/-- Puts a variable back. -/
def restoreVariable (ref : VariableRef) (saved : Value) : StoreM Unit := do
  let ds := ref.dataspace
  addImport ds saved
  match ((← get).dataspace? ds).bind (·.vars[ref.slot]?) with
  | none => fault (.missingVariable ref)
  | some current => do
    modifyDataspace ds fun d => { d with vars := d.vars.setIfInBounds ref.slot saved }
    relinquish ds [current]

/-- Restores everything that a plane remembers; the plane, of the given level, is off the stack. -/
def undo (level : Nat) (plane : Plane) : StoreM Unit := do
  plane.ledger.forM restoreBackup
  plane.savedVars.toList.forM fun (ref, saved) => restoreVariable ref saved
  plane.patches.toList.forM fun (call, patch) => unwind call patch
  (plane.census.toList.filter (·.2 = .fresh)).forM fun (id, _) => settle level id

/-- Throws away the innermost plane. -/
def discard (level : Nat) : ClientM Unit := do
  undo level (← pop level)

/-- Throws away the `n` innermost planes. -/
def discardMany : Nat → ClientM Unit
  | 0 => return
  | n + 1 => do
    discard (← get).level
    discardMany n

/-- Throws away the planes down to and including `level`. -/
def discardTo (level : Nat) : ClientM Unit := do
  let top := (← get).level
  if level = 0 ∨ top < level then refuse (.planeOrder top level)
  else discardMany (top + 1 - level)

/-! ## Regions with a body -/

/--
Ends the region of the given level after its body has run.

The region is committed if the body succeeded and left no plane open above it. It is discarded,
together with all planes above it, if the body was refused something or left planes open.
-/
def conclude {α : Type} (level : Nat) (outcome : Except Refusal α) : ClientM α := do
  let top := (← get).level
  if top < level then refuse (.planeOrder top level)
  else
    match outcome with
    | .error r => do
      discardTo level
      refuse r
    | .ok a =>
      if top = level then do
        commit level
        return a
      else do
        discardTo level
        refuse (.planeOrder top level)

/-- Runs a request in an atomic region of its own. -/
def atomic {α : Type} (body : ClientM α) : ClientM α := do
  let level ← enter
  let outcome : Except Refusal α ← (body.run : StoreM (Except Refusal α))
  conclude level outcome

end PlaneStore.Store
