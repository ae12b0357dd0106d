import PlaneStore.Mapping.Combinators
import PlaneStore.Store.Callouts
import PlaneStore.Store.Eviction
import PlaneStore.Store.Variables

/-!
# Operations of a client

Everything a client can ask of a store, as data: an `Operation` says what is asked for, an `Answer`
what came of it, and `Operation.perform` carries it out. A run of a client is then a list of
operations.

Values that an answer hands out come with a reference that the client owns, except where the
operation says that it only looks.
-/

namespace PlaneStore

open Store

/-- A request to a store. -/
inductive Operation where
  -- Creation
  | createDataspace (vars : Nat)
  | createArray (ds : DataspaceId) (size : Nat)
  | createMapping (ds : DataspaceId) (size : Nat)
  | createRecord (ds : DataspaceId) (cls : ObjectRef) (vars : Nat)
  | createArrayOf (ds : DataspaceId) (values : List Value)
  | createString (text : String)
  | restore (ds : DataspaceId) (kind : Kind) (tag : Nat) (elements : List Value)
  -- References
  | retain (v : Value)
  | release (v : Value)
  | copyValues (values : List Value)
  -- Elements and keys
  | indexGet (container key : Value)
  | assign (container key value : Value)
  | mapGet (map key : Value)
  | mapContains (map key : Value)
  | mapMerge (map : Value) (compact : Bool)
  | mapSize (map : Value)
  -- Arrays out of arrays
  | range (array : Value) (lo hi : Int)
  | concat (a b : Value)
  | subtract (a b : Value)
  | intersect (a b : Value)
  | union (a b : Value)
  | symmetricDifference (a b : Value)
  -- Containers out of mappings
  | mapIndices (map : Value)
  | mapValues (map : Value)
  | mapRange (map lo hi : Value)
  | mapConcat (a b : Value)
  | mapSubtract (map keys : Value)
  | mapIntersect (map keys : Value)
  -- Looking
  | size (container : Value)
  | elements (container : Value)
  | deepEqual (a b : Value)
  | refcount (v : Value)
  | isLive (v : Value)
  | stringText (v : Value)
  | tag (container : Value)
  | home (container : Value)
  | owner (container : Value)
  | recordClass (record : Value)
  | dataspaceInfo (ds : DataspaceId)
  | importCount (ds : DataspaceId) (container : Value)
  | sweepList (ds : DataspaceId)
  | stats
  -- Variables and deferred calls
  | readVariable (ref : VariableRef)
  | assignVariable (ref : VariableRef) (value : Value)
  | addCall (ds : DataspaceId) (due : Nat) (payload : Value)
  | removeCall (call : CallRef)
  | replaceCall (call : CallRef) (due : Nat) (payload : Value)
  | call (call : CallRef)
  | calls (ds : DataspaceId)
  -- Eviction
  | evict (container : Value)
  | evictDataspace (ds : DataspaceId)
  -- Atomic regions
  | enter
  | commit (level : Nat)
  | discard (level : Nat)
  | discardTo (level : Nat)
  | backUp (container : Value)
  | level
  -- Objects
  | spawn
  | reuse (index : Nat)
  | destroy (obj : ObjectRef)
  | isDestroyed (obj : ObjectRef)
  | epoch

/-- What a dataspace holds, in numbers. -/
structure DataspaceInfo where
  vars : Nat
  containers : Nat
  imports : Nat
  deriving DecidableEq, Repr

/-- What came of a request. -/
inductive Answer where
  | done
  | bool (b : Bool)
  | number (n : Nat)
  | text (s : String)
  | value (v : Value)
  | values (vs : List Value)
  | object (obj : Option ObjectRef)
  | call (call : DeferredCall)
  | calls (calls : List (CallHandle × DeferredCall))
  | dataspace (info : DataspaceInfo)
  | eviction (report : EvictionReport)
  | stats (stats : Stats)
  deriving DecidableEq

namespace Store

/-- Answers from the store as it is. -/
def ask {α : Type} (f : Store → α) : ClientM α := return f (← get)

/-- Answers from the store as it is, which may turn out to be broken. -/
def askM {α : Type} (f : Store → Except Fault α) : ClientM α :=
  ExceptT.lift fun s => do return (← f s, s)

/-- The numbers of a dataspace. -/
def dataspaceInfo (ds : DataspaceId) : ClientM DataspaceInfo := do
  let d ← requireDataspace ds
  return {
    vars := d.vars.size
    containers := d.containers
    imports := d.imports.size }

/-- Changes the object table. -/
def modifyObjects {α : Type} (f : Objects → α × Objects) : ClientM α :=
  modifyGet fun s =>
    let (a, objects) := f s.objects
    (a, { s with objects })

/-- Makes the container of a value safe to change on the current plane. -/
def prepare (v : Value) : ClientM Unit := do
  makeWritable (← requireContainer v "container")

end Store

/-- Carries out a request. -/
def Operation.perform : Operation → ClientM Answer
  | .createDataspace n => return .number (← Store.createDataspace n).index
  | .createArray ds n => return .value (← Store.createArray ds n)
  | .createMapping ds n => return .value (← Store.createMapping ds n)
  | .createRecord ds cls n => return .value (← Store.createRecord ds cls n)
  | .createArrayOf ds vs => return .value (← Store.createArrayOf ds vs)
  | .createString text => return .value (← Store.createString text)
  | .restore ds kind t vs => return .value (← Store.restore ds kind t vs)
  | .retain v => do Store.retain v; return .done
  | .release v => do Store.release v; return .done
  | .copyValues vs => return .values (← Store.copies vs)
  | .indexGet c k => return .value (← Sequence.indexGet c k)
  | .assign c k v => do Sequence.assign c k v; return .done
  | .mapGet m k => return .value (← Mapping.get m k)
  | .mapContains m k => return .bool (← Mapping.contains m k)
  | .mapMerge m compact => do Mapping.merge m compact; return .done
  | .mapSize m => return .number (← Mapping.size m)
  | .range a lo hi => return .value (← Sequence.range a lo hi)
  | .concat a b => return .value (← Sequence.concat a b)
  | .subtract a b => return .value (← Sequence.subtract a b)
  | .intersect a b => return .value (← Sequence.intersect a b)
  | .union a b => return .value (← Sequence.union a b)
  | .symmetricDifference a b => return .value (← Sequence.symmetricDifference a b)
  | .mapIndices m => return .value (← Mapping.indices m)
  | .mapValues m => return .value (← Mapping.values m)
  | .mapRange m lo hi => return .value (← Mapping.range m lo hi)
  | .mapConcat a b => return .value (← Mapping.concat a b)
  | .mapSubtract m ks => return .value (← Mapping.subtract m ks)
  | .mapIntersect m ks => return .value (← Mapping.intersect m ks)
  | .size c => return .number (← Store.size c)
  | .elements c => return .values (← Store.elements c).toList
  | .deepEqual a b => return .bool (← Store.deepEqual a b)
  | .refcount v => return .number (← askM (·.refcount v))
  | .isLive v => return .bool (← ask (·.isLive v))
  | .stringText v => return .text (← Store.stringText v)
  | .tag c => return .number (← inspect c).tag
  | .home c => return .number (← inspect c).home
  | .owner c => return .number (← inspect c).owner.index
  | .recordClass r => return .object (← Store.recordClass r)
  | .dataspaceInfo ds => return .dataspace (← Store.dataspaceInfo ds)
  | .importCount ds c => return .number (← ask (·.importCount ds c))
  | .sweepList ds => return .values (← askM (·.sweepList ds))
  | .stats => return .stats (← ask Store.stats)
  | .readVariable ref => return .value (← variableValue ref)
  | .assignVariable ref v => do Store.assignVariable ref v; return .done
  | .addCall ds due v => return .number (← Store.addCall ds due v).number
  | .removeCall c => return .number (← Store.removeCall c)
  | .replaceCall c due v => do Store.replaceCall c due v; return .done
  | .call c => return .call (← requireCall c)
  | .calls ds => return .calls (← Store.calls ds)
  | .evict c => return .bool (← evictContainer c)
  | .evictDataspace ds => return .eviction (← Store.evictDataspace ds)
  | .enter => return .number (← Store.enter)
  | .commit n => do Store.commit n; return .done
  | .discard n => do Store.discard n; return .done
  | .discardTo n => do Store.discardTo n; return .done
  | .backUp c => do prepare c; return .done
  | .level => return .number (← ask Store.level)
  | .spawn => return .object (← modifyObjects Objects.spawn)
  | .reuse i => return .object (← ask (·.objects.reuse i))
  | .destroy obj => do
    modifyObjects fun o => ((), o.destroy obj)
    return .done
  | .isDestroyed obj => return .bool (← ask (·.objects.isDestroyed obj))
  | .epoch => return .number (← ask (·.objects.epoch))

/-! ## Runs -/

/-- How a request ends that did not break the store. -/
abbrev Outcome := Except Refusal Answer

/-- Carries out a request on a store. -/
def Store.perform (s : Store) (op : Operation) : Except Fault (Outcome × Store) :=
  (op.perform.run : StoreM Outcome) s

/-- Carries out requests one after the other, whether refused or not. -/
def Store.performAll (s : Store) : List Operation → Except Fault (List Outcome × Store)
  | [] => return ([], s)
  | op :: rest => do
    let (outcome, s) ← s.perform op
    let (outcomes, s) ← s.performAll rest
    return (outcome :: outcomes, s)

end PlaneStore
