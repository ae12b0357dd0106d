import PlaneStore.Proofs.Inversion.Journal

/-!
# Accounts

Between two requests every reference is in a slot of the store or with the client. While a request
is carried out some are on their way, so an account keeps besides the store

* the references *in flight*, which no slot holds and no dataspace counts as imports;
* the *charges*, references that no slot holds but that a dataspace counts already or still;
* what is left of a plane that was taken off the stack and is being folded down or undone.

`Account.refs` are all of these together.
-/

namespace PlaneStore

/-- References on behalf of slots of a dataspace. -/
abbrev Charges := Multiset (DataspaceId × Value)

namespace Charges

/-- The charges of one dataspace for a list of values. -/
def of (ds : DataspaceId) (vs : List Value) : Charges := ↑(vs.map (ds, ·))

/-- The references that are charged. -/
def refs (C : Charges) : Refs := C.map Prod.snd

@[simp] theorem refs_zero : refs 0 = 0 := rfl

@[simp] theorem refs_add (C D : Charges) : (C + D).refs = C.refs + D.refs := Multiset.map_add _ _ _

@[simp] theorem refs_of (ds : DataspaceId) (vs : List Value) : (Charges.of ds vs).refs = ↑vs := by
  simp [refs, of, Function.comp_def]

theorem of_cons (ds : DataspaceId) (v : Value) (vs : List Value) :
    Charges.of ds (v :: vs) = Charges.of ds [v] + Charges.of ds vs := rfl

theorem of_nil (ds : DataspaceId) : Charges.of ds [] = 0 := rfl

theorem of_append (ds : DataspaceId) (vs ws : List Value) :
    Charges.of ds (vs ++ ws) = Charges.of ds vs + Charges.of ds ws := by
  simp [of]

end Charges

/-- What is left of a plane that is folded into the one below it, or undone. -/
structure Closing where
  folds : Bool
  level : Nat
  ledger : List Backup
  saved : List (VariableRef × Value)
  patches : List (CallRef × CallPatch)
  /-- The containers whose home is still to be settled. -/
  census : List ContainerId

namespace Closing

/-- All of a plane: to be folded down from its oldest backup on, or undone from its newest. -/
def ofPlane (folds : Bool) (level : Nat) (p : Plane) : Closing where
  folds
  level
  ledger := if folds then p.ledger.reverse else p.ledger
  saved := p.savedVars.toList
  patches := p.patches.toList
  census :=
    if folds then p.census.keys else (p.census.toList.filter (·.2 = .fresh)).map Prod.fst

/-- The references that are left. -/
def held (cl : Closing) : Refs :=
  (cl.ledger.map Backup.held).sum + (cl.saved.map fun p => {p.2}).sum +
    (cl.patches.map fun p => p.2.held).sum

theorem held_ofPlane (folds : Bool) (level : Nat) (p : Plane) :
    (ofPlane folds level p).held = p.held := by
  unfold held Plane.held TreeTotal.total ofPlane
  cases folds with
  | false => rfl
  | true => simp only [if_true, List.map_reverse, List.sum_reverse]

end Closing

/-- The backups on the planes of a store and on one that is closing. -/
def Store.backups (s : Store) (q : Option Closing) : List Backup :=
  (q.map Closing.ledger).getD [] ++ s.planes.flatMap Plane.ledger

structure Account where
  store : Store
  flight : Refs
  charged : Charges
  closing : Option Closing

namespace Account

/-- The backups that a closing plane has left. -/
def closingRefs (cl : Option Closing) : Refs := (cl.map Closing.held).getD 0

/-- Every reference there is. -/
def refs (a : Account) : Refs :=
  a.store.refs + a.flight + a.charged.refs + closingRefs a.closing

theorem refs_between (s : Store) (F : Refs) : (⟨s, F, 0, none⟩ : Account).refs = s.refs + F := by
  show s.refs + F + 0 + 0 = _
  rw [add_zero, add_zero]

theorem mem_refs_of_flight {a : Account} {v : Value} (hv : v ∈ a.flight) : v ∈ a.refs :=
  Multiset.mem_add.mpr (Or.inl (Multiset.mem_add.mpr (Or.inl (Multiset.mem_add.mpr (Or.inr hv)))))

theorem mem_refs_of_store {a : Account} {v : Value} (hv : v ∈ a.store.refs) : v ∈ a.refs :=
  Multiset.mem_add.mpr (Or.inl (Multiset.mem_add.mpr (Or.inl (Multiset.mem_add.mpr (Or.inl hv)))))

theorem mem_refs_of_charged {a : Account} {v : Value} (hv : v ∈ a.charged.refs) : v ∈ a.refs :=
  Multiset.mem_add.mpr (Or.inl (Multiset.mem_add.mpr (Or.inr hv)))

/-- All backups, on planes that are active and on the one that is closing. -/
abbrev backups (a : Account) : List Backup := a.store.backups a.closing

end Account

end PlaneStore
