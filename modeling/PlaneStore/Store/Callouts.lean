import PlaneStore.Store.Creation
import PlaneStore.Store.Journal

/-!
# Callouts

Scheduling, removing and replacing deferred calls. Handles count up from zero in each dataspace and
are not used again.
-/

namespace PlaneStore.Store

open StoreM ClientM

/-- A call that is pending on the current plane. -/
def requireCall (call : CallRef) : ClientM DeferredCall := do
  let d ← requireDataspace call.dataspace
  match d.callouts[call.handle]? with
  | some c => return c
  | none => refuse (.unknownCall call)

/-- Schedules a call and returns its handle. -/
def addCall (ds : DataspaceId) (due : Nat) (payload : Value) : ClientM CallHandle := do
  let d ← requireDataspace ds
  let payload ← scrub payload
  acquire ds payload
  let handle : CallHandle := ⟨d.nextHandle⟩
  modifyDataspace ds fun d => { d with nextHandle := d.nextHandle + 1 }
  modifyCallouts ds (·.insert handle { due, payload })
  journal ⟨ds, handle⟩ .added
  return handle

/-- Removes a call and returns when it was due. -/
def removeCall (call : CallRef) : ClientM Nat := do
  let old ← requireCall call
  modifyCallouts call.dataspace (·.erase call.handle)
  dropImport call.dataspace old.payload
  journal call (.removed old)
  return old.due

/-- Gives a call another due time and payload. -/
def replaceCall (call : CallRef) (due : Nat) (payload : Value) : ClientM Unit := do
  let old ← requireCall call
  let payload ← scrub payload
  acquire call.dataspace payload
  modifyCallouts call.dataspace (·.insert call.handle { due, payload })
  dropImport call.dataspace old.payload
  journal call (.replaced old)

/-- All pending calls of a dataspace, by handle. -/
def calls (ds : DataspaceId) : ClientM (List (CallHandle × DeferredCall)) := do
  return (← requireDataspace ds).callouts.toList

end PlaneStore.Store
