import PlaneStore.Proofs.References.CountedInventory

/-!
# Recording patches

Journaling a change to a call is two things: the patch is recorded, and the payload that it makes
superfluous is released. `Recorded` describes the first, which touches the innermost plane or the
scheduler and nothing else.
-/

namespace PlaneStore

namespace CallPatch

/-- The call as it was before the change. -/
def before : CallPatch → Option DeferredCall
  | .added => none
  | .removed old | .replaced old => some old

/-- The payloads that a patch holds. -/
def payloads (patch : CallPatch) : List Value := (patch.before.map DeferredCall.payload).toList

theorem held_eq_payloads (patch : CallPatch) : patch.held = ↑patch.payloads := by
  cases patch <;> rfl

/-- What the scheduler is told of a committed change to a call that is now due at `due`. -/
def tell (patch : CallPatch) (call : CallRef) (due : Nat) (q : Scheduler) : Scheduler :=
  match patch with
  | .added => q.schedule call due
  | .removed _ => q.cancel call
  | .replaced _ => q.reschedule call due

/-- Of two patches in a row, the fold and the payload given up hold what both held. -/
theorem held_fold? {p q : CallPatch} {fold : Fold} (h : p.fold? q = some fold) :
    (fold.patch.map held).getD 0 + ↑fold.givenUp.toList = p.held + q.held := by
  cases p <;> cases q <;> cases h <;> simp [held]

end CallPatch

namespace Store

/--
A patch is recorded. Outside of atomic regions the scheduler is told, otherwise the innermost plane
takes the patch. What becomes superfluous is handed out.
-/
inductive Recorded (call : CallRef) (patch : CallPatch) (s : Store) :
    List Value → Store → Prop where
  | told (hp : s.planes = []) (hfit : patch.Fits patch.before (s.call? call)) :
      Recorded call patch s patch.payloads
        { s with scheduler :=
            patch.tell call (((s.call? call).map DeferredCall.due).getD 0) s.scheduler }
  | filed (p : Plane) (rest : List Plane) (hp : s.planes = p :: rest)
      (hnone : p.patches[call]? = none) :
      Recorded call patch s [] (s.withPlane fun p =>
        { p with patches := p.patches.insert call patch })
  | folded (p : Plane) (rest : List Plane) (earlier later : CallPatch) (out : Option Value)
      (hp : s.planes = p :: rest) (hsome : p.patches[call]? = some earlier)
      (hfold : earlier.fold? patch = some ⟨some later, out⟩) :
      Recorded call patch s out.toList (s.withPlane fun p =>
        { p with patches := p.patches.insert call later })
  | cancelled (p : Plane) (rest : List Plane) (earlier : CallPatch) (out : Option Value)
      (hp : s.planes = p :: rest) (hsome : p.patches[call]? = some earlier)
      (hfold : earlier.fold? patch = some ⟨none, out⟩) :
      Recorded call patch s out.toList (s.withPlane fun p =>
        { p with patches := p.patches.erase call })

/-- Giving up one reference is giving up a list of one. -/
theorem release_eq (v : Value) : release v = releaseAll [v] := by
  unfold release
  split
  · rfl
  · next hc =>
    cases v with
    | string | container => exact absurd rfl hc
    | _ =>
      funext s
      show Except.ok ((), s) = drain [_] s
      rw [drain]
      show Except.ok ((), s) = drain [] s
      rw [drain]

section

variable {s s' : Store} {call : CallRef} {patch : CallPatch} {u : Unit}

theorem replay_eq_ok (hp : s.planes = []) (h : replay call patch s = .ok (u, s')) :
    ∃ out s₁, Recorded call patch s out s₁ ∧ releaseAll out s₁ = .ok (u, s') := by
  obtain ⟨t, s₁, h₁, h⟩ := StoreM.bind_eq_ok.mp h
  obtain ⟨rfl, rfl⟩ := StoreM.get_eq_ok.mp h₁
  have hnothing : ∀ t : Store, releaseAll [] t = .ok ((), t) := fun t => by
    show drain [] t = _
    rw [drain]
  -- The scheduler hears of what the patch amounts to now; a patch that fits nothing is a fault.
  cases hc : s.call? call with
  | none =>
    cases patch with
    | removed last =>
      simp only [hc] at h
      obtain ⟨_, s₂, h₂, h⟩ := StoreM.bind_eq_ok.mp h
      rw [StoreM.modify_eq_ok.mp h₂, release_eq] at h
      refine ⟨_, _, .told hp ?_, h⟩
      rw [hc]
      exact .removed last
    | _ =>
      simp only [hc] at h
      exact absurd h StoreM.fault_ne_ok
  | some c =>
    cases patch with
    | added =>
      simp only [hc] at h
      rw [StoreM.modify_eq_ok.mp h]
      refine ⟨_, _, .told hp ?_, ?_⟩
      · rw [hc]
        exact .added c
      · rw [hc]
        exact hnothing _
    | removed last =>
      simp only [hc] at h
      exact absurd h StoreM.fault_ne_ok
    | replaced last =>
      simp only [hc] at h
      obtain ⟨_, s₂, h₂, h⟩ := StoreM.bind_eq_ok.mp h
      rw [StoreM.modify_eq_ok.mp h₂, release_eq] at h
      refine ⟨_, _, .told hp ?_, ?_⟩
      · rw [hc]
        exact .replaced last c
      · rw [hc]
        exact h

/-- Journaling records the patch and releases what that makes superfluous. -/
theorem journal_eq_ok (h : journal call patch s = .ok (u, s')) :
    ∃ out s₁, Recorded call patch s out s₁ ∧ releaseAll out s₁ = .ok (u, s') := by
  obtain ⟨t, s₁, h₁, h⟩ := StoreM.bind_eq_ok.mp h
  obtain ⟨rfl, rfl⟩ := StoreM.get_eq_ok.mp h₁
  cases hp : s.planes with
  | nil =>
    simp only [hp] at h
    exact replay_eq_ok hp h
  | cons p rest =>
    simp only [hp] at h
    cases he : p.patches[call]? with
    | none =>
      simp only [he] at h
      rw [StoreM.modifyPlane_eq_ok.mp h]
      refine ⟨[], _, .filed p rest hp he, ?_⟩
      show drain [] _ = _
      rw [drain]
    | some earlier =>
      simp only [he] at h
      cases hf : earlier.fold? patch with
      | none =>
        simp only [hf] at h
        exact absurd h StoreM.fault_ne_ok
      | some fold =>
        simp only [hf] at h
        obtain ⟨_, s₂, h₂, h⟩ := StoreM.bind_eq_ok.mp h
        obtain ⟨later, out⟩ := fold
        cases later with
        | none =>
          rw [StoreM.modifyPlane_eq_ok.mp h₂] at h
          exact ⟨_, _, .cancelled p rest earlier out hp he hf, h⟩
        | some later =>
          rw [StoreM.modifyPlane_eq_ok.mp h₂] at h
          exact ⟨_, _, .folded p rest earlier later out hp he hf, h⟩

end

end Store

end PlaneStore
