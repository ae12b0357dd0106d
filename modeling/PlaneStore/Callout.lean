import PlaneStore.Value.Text

/-!
# Deferred calls and their patches

A callout table shows the calls of the current plane. What an atomic region did to one call is kept
as a single patch, so a patch on top of a patch is folded into one:

| earlier      | later       | result       | payload given up |
|--------------|-------------|--------------|------------------|
| added        | removed     | –            | of the removed   |
| added        | replaced    | added        | of the replaced  |
| removed `a`  | added       | replaced `a` | –                |
| replaced `a` | removed     | removed `a`  | of the removed   |
| replaced `a` | replaced    | replaced `a` | of the replaced  |

No other pair can meet: a call that is there is not added, one that is gone is not removed.
-/

namespace PlaneStore

/-- A pending call; its payload is a value owned by the callout table. -/
structure DeferredCall where
  due : Nat
  payload : Value
  deriving DecidableEq, Inhabited

/-- A change to one call. `removed` and `replaced` hold the call as it was before. -/
inductive CallPatch where
  | added
  | removed (call : DeferredCall)
  | replaced (call : DeferredCall)
  deriving DecidableEq, Inhabited

namespace CallPatch

/-- What is left of two patches in a row, and the payload that nothing needs any more. -/
structure Fold where
  patch : Option CallPatch
  givenUp : Option Value
  deriving DecidableEq

/-- Two patches in a row as one, or `none` if they cannot follow each other. -/
def fold? : CallPatch → CallPatch → Option Fold
  | .added, .removed last => some ⟨none, some last.payload⟩
  | .added, .replaced last => some ⟨some .added, some last.payload⟩
  | .removed old, .added => some ⟨some (.replaced old), none⟩
  | .replaced old, .removed last => some ⟨some (.removed old), some last.payload⟩
  | .replaced old, .replaced last => some ⟨some (.replaced old), some last.payload⟩
  | _, _ => none

/-! ## What a patch says -/

/-- What a patch says of a call: what was there before the change, and what after it. -/
inductive Fits : CallPatch → Option DeferredCall → Option DeferredCall → Prop where
  | added (new : DeferredCall) : Fits .added none (some new)
  | removed (old : DeferredCall) : Fits (.removed old) (some old) none
  | replaced (old new : DeferredCall) : Fits (.replaced old) (some old) (some new)

/-- A call that was there before is the one that the patch holds. -/
theorem Fits.before {p : CallPatch} {a b : Option DeferredCall} (h : p.Fits a b) :
    a = match p with
      | .added => none
      | .removed old | .replaced old => some old := by
  cases h <;> rfl

/--
Two patches in a row can be folded, and the fold says of the call what they say together. If nothing
is left of them, the call was neither there before nor is there now.
-/
theorem Fits.fold? {p q : CallPatch} {a b c : Option DeferredCall} (hp : p.Fits a b)
    (hq : q.Fits b c) :
    ∃ fold, p.fold? q = some fold ∧
      match fold.patch with
      | none => a = none ∧ c = none
      | some r => r.Fits a c := by
  cases hp with
  | added new =>
    cases hq with
    | removed => exact ⟨_, rfl, rfl, rfl⟩
    | replaced _ last => exact ⟨_, rfl, Fits.added last⟩
  | removed old =>
    cases hq with
    | added new => exact ⟨_, rfl, Fits.replaced old new⟩
  | replaced old new =>
    cases hq with
    | removed => exact ⟨_, rfl, Fits.removed old⟩
    | replaced _ last => exact ⟨_, rfl, Fits.replaced old last⟩

/-- Of two folded patches, the payload between them is the one given up. -/
theorem Fits.givenUp {p q : CallPatch} {a b c : Option DeferredCall} {fold : Fold}
    (hp : p.Fits a b) (hq : q.Fits b c) (h : p.fold? q = some fold) :
    fold.givenUp = b.map DeferredCall.payload := by
  cases hp <;> cases hq <;> (cases h; rfl)

end CallPatch

/-! ## Text -/

def DeferredCall.text (call : DeferredCall) : String :=
  "DeferredCall \x7b due: " ++ toString call.due ++ ", payload: " ++ call.payload.text ++ " \x7d"

def CallPatch.text : CallPatch → String
  | .added => "Add"
  | .removed call => "Remove(" ++ call.text ++ ")"
  | .replaced call => "Replace(" ++ call.text ++ ")"

end PlaneStore
