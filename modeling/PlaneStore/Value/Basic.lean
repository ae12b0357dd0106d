import Std.Data.TreeMap.Basic

/-!
# Values

A value is a small handle. Numbers and object references are stored inline; strings and containers
are slots of the tables in `PlaneStore.Heap`, and copying a value does not touch their reference
counts.

Handles are plain numbers in structures of their own, so that a container slot is never taken for a
string slot. Those that serve as keys of ordered tables carry a lawful order.
-/

namespace PlaneStore

/-! ## Handles -/

/-- Slot of a container in the container table. -/
structure ContainerId where
  slot : Nat
  deriving DecidableEq, Repr, Inhabited

/-- Slot of a string in the string table. -/
structure StringId where
  slot : Nat
  deriving DecidableEq, Repr, Inhabited

/-- A dataspace: the variables, containers and callouts of one object. -/
structure DataspaceId where
  index : Nat
  deriving DecidableEq, Repr, Inhabited

/-- Handle of a deferred call within its dataspace. -/
structure CallHandle where
  number : Nat
  deriving DecidableEq, Repr, Inhabited

/--
Reference to an entry of the object table.

The generation tells a reference to a destroyed object from one to the object that has since taken
its place.
-/
structure ObjectRef where
  index : Nat
  generation : Nat
  deriving DecidableEq, Repr, Inhabited

/-- A double-precision number as its IEEE 754 bit pattern; equality is equality of patterns. -/
structure Binary64 where
  bits : UInt64
  deriving DecidableEq, Repr, Inhabited

/-- A variable of a dataspace. -/
structure VariableRef where
  dataspace : DataspaceId
  slot : Nat
  deriving DecidableEq, Repr

/-- A deferred call of a dataspace. -/
structure CallRef where
  dataspace : DataspaceId
  handle : CallHandle
  deriving DecidableEq, Repr

/-! ## Order on handles -/

instance : Ord ContainerId := ⟨compareOn ContainerId.slot⟩

instance : Std.TransOrd ContainerId :=
  inferInstanceAs (Std.TransCmp (compareOn ContainerId.slot))

instance : Std.LawfulEqOrd ContainerId where
  eq_of_compare {a b} h := by
    cases a; cases b
    exact congrArg ContainerId.mk (Std.LawfulEqOrd.eq_of_compare (α := Nat) h)

instance : Ord DataspaceId := ⟨compareOn DataspaceId.index⟩

instance : Std.TransOrd DataspaceId :=
  inferInstanceAs (Std.TransCmp (compareOn DataspaceId.index))

instance : Std.LawfulEqOrd DataspaceId where
  eq_of_compare {a b} h := by
    cases a; cases b
    exact congrArg DataspaceId.mk (Std.LawfulEqOrd.eq_of_compare (α := Nat) h)

instance : Ord CallHandle := ⟨compareOn CallHandle.number⟩

instance : Std.TransOrd CallHandle :=
  inferInstanceAs (Std.TransCmp (compareOn CallHandle.number))

instance : Std.LawfulEqOrd CallHandle where
  eq_of_compare {a b} h := by
    cases a; cases b
    exact congrArg CallHandle.mk (Std.LawfulEqOrd.eq_of_compare (α := Nat) h)

/-- Variables order by dataspace, then by slot. -/
instance : Ord VariableRef :=
  ⟨compareLex (compareOn VariableRef.dataspace) (compareOn VariableRef.slot)⟩

instance : Std.TransOrd VariableRef :=
  inferInstanceAs
    (Std.TransCmp (compareLex (compareOn VariableRef.dataspace) (compareOn VariableRef.slot)))

instance : Std.LawfulEqOrd VariableRef where
  eq_of_compare {a b} h := by
    change compareLex (compareOn VariableRef.dataspace) (compareOn VariableRef.slot) a b = .eq at h
    obtain ⟨h₁, h₂⟩ := compareLex_eq_eq.mp h
    cases a; cases b
    simp only [VariableRef.mk.injEq]
    exact ⟨Std.LawfulEqOrd.eq_of_compare h₁, Std.LawfulEqOrd.eq_of_compare h₂⟩

/-- Calls order by dataspace, then by handle. -/
instance : Ord CallRef :=
  ⟨compareLex (compareOn CallRef.dataspace) (compareOn CallRef.handle)⟩

instance : Std.TransOrd CallRef :=
  inferInstanceAs
    (Std.TransCmp (compareLex (compareOn CallRef.dataspace) (compareOn CallRef.handle)))

instance : Std.LawfulEqOrd CallRef where
  eq_of_compare {a b} h := by
    change compareLex (compareOn CallRef.dataspace) (compareOn CallRef.handle) a b = .eq at h
    obtain ⟨h₁, h₂⟩ := compareLex_eq_eq.mp h
    cases a; cases b
    simp only [CallRef.mk.injEq]
    exact ⟨Std.LawfulEqOrd.eq_of_compare h₁, Std.LawfulEqOrd.eq_of_compare h₂⟩

/-! ## Shapes and kinds of containers -/

/-- The three container shapes. -/
inductive Shape where
  | array
  | mapping
  | record
  deriving DecidableEq, Repr, Inhabited

/-- The name of a shape in messages. -/
def Shape.name : Shape → String
  | .array => "array"
  | .mapping => "mapping"
  | .record => "record"

/-- What a container is: a record also knows the class it is an instance of. -/
inductive Kind where
  | array
  | mapping
  | record (cls : ObjectRef)
  deriving DecidableEq, Repr, Inhabited

def Kind.shape : Kind → Shape
  | .array => .array
  | .mapping => .mapping
  | .record _ => .record

/-- The number of entries that a buffer of `n` values holds: a mapping stores pairs. -/
def Kind.entries : Kind → Nat → Nat
  | .mapping, n => n / 2
  | _, n => n

/-! ## Values -/

/-- A value. Nil also stands in for references to destroyed objects. -/
inductive Value where
  | nil
  | int (n : Int64)
  | float (x : Binary64)
  | string (id : StringId)
  | object (obj : ObjectRef)
  | container (shape : Shape) (id : ContainerId)
  deriving DecidableEq, Inhabited

/-- The types of values, in the order in which values of different types compare. -/
inductive ValueType where
  | nil
  | integer
  | float
  | string
  | object
  | container (shape : Shape)
  deriving DecidableEq, Repr

namespace Value

def type : Value → ValueType
  | .nil => .nil
  | .int _ => .integer
  | .float _ => .float
  | .string _ => .string
  | .object _ => .object
  | .container shape _ => .container shape

/-- The value that addresses container `id` of the given kind. -/
def ofContainer (kind : Kind) (id : ContainerId) : Value :=
  .container kind.shape id

def isNil : Value → Bool
  | .nil => true
  | _ => false

/-- Whether the value addresses a slot that counts its references. -/
def isCounted : Value → Bool
  | .string _ | .container .. => true
  | _ => false

/-- The container a value addresses, if any. -/
def containerId? : Value → Option ContainerId
  | .container _ id => some id
  | _ => none

/-- The string a value addresses, if any. -/
def stringId? : Value → Option StringId
  | .string id => some id
  | _ => none

theorem isNil_iff {v : Value} : v.isNil = true ↔ v = .nil := by
  cases v <;> simp [isNil]

@[simp] theorem containerId?_ofContainer (kind : Kind) (id : ContainerId) :
    (ofContainer kind id).containerId? = some id := rfl

end Value

namespace ValueType

/-- Position of a type in the total order of values. -/
def rank : ValueType → Nat
  | .nil => 0
  | .integer => 1
  | .float => 2
  | .string => 3
  | .object => 4
  | .container .array => 5
  | .container .mapping => 6
  | .container .record => 7

/-- The name of a type in messages. -/
def name : ValueType → String
  | .nil => "nil"
  | .integer => "integer"
  | .float => "float"
  | .string => "string"
  | .object => "object"
  | .container shape => shape.name

/-- Different types have different positions. -/
theorem rank_inj {s t : ValueType} : s.rank = t.rank ↔ s = t := by
  cases s with
  | container a => cases t with
    | container b => cases a <;> cases b <;> simp [rank]
    | _ => cases a <;> simp [rank]
  | _ => cases t with
    | container b => cases b <;> simp [rank]
    | _ => simp [rank]

end ValueType

end PlaneStore
