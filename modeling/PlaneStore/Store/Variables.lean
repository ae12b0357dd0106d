import PlaneStore.Store.Atomic
import PlaneStore.Store.Creation

/-!
# Variables

Reading and writing the variables of dataspaces. The first write of a variable inside an atomic
region moves the old value to the plane, which keeps the reference; it is no import any more.
-/

namespace PlaneStore.Store

open StoreM ClientM

/-- The value that a variable holds. -/
def requireVariable (ref : VariableRef) : ClientM Value := do
  let d ← requireDataspace ref.dataspace
  match d.vars[ref.slot]? with
  | some v => return v
  | none => refuse (.badVariable ref)

/-- The value of a variable as a reader sees it, retained. -/
def variableValue (ref : VariableRef) : ClientM Value := do
  let value ← scrub (← requireVariable ref)
  retain value
  return value

/-- Gives the old value of a variable to the current plane, if this is the first write there. -/
def saveVariable (ref : VariableRef) (old : Value) : StoreM Unit := do
  match (← get).planes with
  | [] => relinquish ref.dataspace [old]
  | plane :: _ =>
    if plane.savedVars.contains ref then relinquish ref.dataspace [old]
    else do
      dropImport ref.dataspace old
      modifyPlane fun p => { p with savedVars := p.savedVars.insert ref old }

/-- Writes a variable. -/
def assignVariable (ref : VariableRef) (value : Value) : ClientM Unit := do
  let old ← requireVariable ref
  let value ← scrub value
  acquire ref.dataspace value
  modifyDataspace ref.dataspace fun d =>
    { d with vars := d.vars.setIfInBounds ref.slot value }
  saveVariable ref old

end PlaneStore.Store
