import PlaneStore.Store.References

/-!
# The journal of deferred calls

A callout table always shows the calls of the current plane, while the scheduler only ever hears of
committed ones. A change made inside an atomic region is therefore kept as a patch on the current
plane, folded into what the plane already has for that call, and replayed to the scheduler once it
reaches the root.
-/

namespace PlaneStore.Store

open StoreM

/-- A call as the current plane sees it. -/
def call? (s : Store) (call : CallRef) : Option DeferredCall :=
  (s.dataspace? call.dataspace).bind (·.callouts[call.handle]?)

theorem call?_of_dataspace {s : Store} {call : CallRef} {d : Dataspace}
    (hd : s.dataspace? call.dataspace = some d) : s.call? call = d.callouts[call.handle]? := by
  rw [call?, hd, Option.bind_some]

/-- Changes the callout table of a dataspace. -/
def modifyCallouts (ds : DataspaceId)
    (f : Std.TreeMap CallHandle DeferredCall → Std.TreeMap CallHandle DeferredCall) :
    StoreM Unit :=
  modifyDataspace ds fun d => { d with callouts := f d.callouts }

/-- Tells the scheduler of a committed change. -/
def replay (call : CallRef) (patch : CallPatch) : StoreM Unit := do
  match patch, (← get).call? call with
  | .added, some c =>
    modify fun s => { s with scheduler := s.scheduler.schedule call c.due }
  | .removed last, none => do
    modify fun s => { s with scheduler := s.scheduler.cancel call }
    release last.payload
  | .replaced last, some c => do
    modify fun s => { s with scheduler := s.scheduler.reschedule call c.due }
    release last.payload
  | patch, _ => fault (.patchMismatch patch call)

/-- Sets or clears the patch of a call on the current plane. -/
def setPatch (call : CallRef) : Option CallPatch → StoreM Unit
  | some patch => modifyPlane fun p => { p with patches := p.patches.insert call patch }
  | none => modifyPlane fun p => { p with patches := p.patches.erase call }

/-- Records a change that was already made to a callout table. -/
def journal (call : CallRef) (patch : CallPatch) : StoreM Unit := do
  match (← get).planes with
  | [] => replay call patch
  | plane :: _ =>
    match plane.patches[call]? with
    | none => setPatch call (some patch)
    | some earlier =>
      match earlier.fold? patch with
      | none => fault (.patchesClash earlier patch call)
      | some fold => do
        setPatch call fold.patch
        releaseAll fold.givenUp.toList

/-- Takes a change to a callout table back. -/
def unwind (call : CallRef) (patch : CallPatch) : StoreM Unit := do
  let ds := call.dataspace
  match (← get).dataspace? ds with
  | none => fault (.missingCallTable ds)
  | some d =>
    match patch, d.callouts[call.handle]? with
    | .added, none => fault (.addedCallMissing call)
    | .added, some added => do
      modifyCallouts ds (·.erase call.handle)
      relinquish ds [added.payload]
    | .removed old, _ => do
      modifyCallouts ds (·.insert call.handle old)
      addImport ds old.payload
    | .replaced _, none => fault (.replacedCallMissing call)
    | .replaced old, some replacement => do
      modifyCallouts ds (·.insert call.handle old)
      addImport ds old.payload
      relinquish ds [replacement.payload]

end PlaneStore.Store
