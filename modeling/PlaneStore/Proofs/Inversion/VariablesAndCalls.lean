import PlaneStore.Proofs.Callouts.Agenda
import PlaneStore.Proofs.Inversion.Functions
import PlaneStore.Proofs.Accounts.ElementarySteps

/-!
# Variables and deferred calls that are asked for

A request that names a variable or a deferred call is refused if the dataspace is not there, or if
the dataspace has nothing of that name; then the store is as it was. What such a request did
otherwise is spelled out once for each, with the value as readers see it and the table as it was
left for the journal.
-/

namespace PlaneStore

open Store StoreM

namespace Store

/-- What a client is told of a variable. -/
def askVariable (s : Store) (ref : VariableRef) : Except Refusal Value :=
  if s.agenda.tables ref.dataspace = none then .error (.unknownDataspace ref.dataspace)
  else
    match s.variableAt? ref with
    | some v => .ok v
    | none => .error (.badVariable ref)

/-- What a client is told of a deferred call. -/
def askCall (s : Store) (call : CallRef) : Except Refusal DeferredCall :=
  if s.agenda.tables call.dataspace = none then .error (.unknownDataspace call.dataspace)
  else
    match s.call? call with
    | some c => .ok c
    | none => .error (.unknownCall call)

variable {α : Type} {s s' : Store} {ds : DataspaceId} {ref : VariableRef} {call : CallRef}
  {v : Value} {c : DeferredCall} {e : Refusal}

theorem tables_eq_none : s.agenda.tables ds = none ↔ s.dataspace? ds = none :=
  Option.map_eq_none_iff

theorem tables_ne_none {d : Dataspace} (hd : s.dataspace? ds = some d) :
    s.agenda.tables ds ≠ none := fun hnone => by
  cases (tables_eq_none.mp hnone).symm.trans hd

/-! ## Variables -/

theorem variableAt?_of_dataspace {d : Dataspace} (hd : s.dataspace? ref.dataspace = some d) :
    s.variableAt? ref = d.vars[ref.slot]? := by
  rw [variableAt?, hd, Option.bind_some]

theorem askVariable_eq_ok : s.askVariable ref = .ok v ↔ s.variableAt? ref = some v := by
  unfold askVariable
  cases hd : s.dataspace? ref.dataspace with
  | none => simp [tables_eq_none.mpr hd, variableAt?, hd]
  | some d =>
    rw [if_neg (tables_ne_none hd)]
    cases s.variableAt? ref <;> simp

/-- A variable that the client is told nothing of is not there. -/
theorem variableAt?_of_refused (h : s.askVariable ref = .error e) : s.variableAt? ref = none := by
  cases hv : s.variableAt? ref with
  | none => rfl
  | some v => cases (askVariable_eq_ok.mpr hv).symm.trans h

theorem requireVariable_eq_ok {r : Except Refusal Value}
    (h : requireVariable ref s = .ok (r, s')) : s = s' ∧ r = s.askVariable ref := by
  unfold askVariable
  rcases requireDataspace_bind_eq_ok h with ⟨hd, rfl, rfl⟩ | ⟨d, hd, h⟩
  · exact ⟨rfl, (if_pos (tables_eq_none.mpr hd)).symm⟩
  rw [if_neg (tables_ne_none hd), variableAt?_of_dataspace hd]
  cases hv : d.vars[ref.slot]? with
  | none =>
    simp only [hv] at h
    exact ⟨(ClientM.refuse_eq_ok.mp h).2, (ClientM.refuse_eq_ok.mp h).1⟩
  | some v =>
    simp only [hv] at h
    exact ⟨(ClientM.pure_eq_ok.mp h).2, (ClientM.pure_eq_ok.mp h).1⟩

theorem requireVariable_bind_eq_ok {g : Value → ClientM α} {r : Except Refusal α}
    (h : (requireVariable ref >>= g) s = .ok (r, s')) :
    (∃ e, s.askVariable ref = .error e ∧ r = .error e ∧ s' = s) ∨
      ∃ v, s.askVariable ref = .ok v ∧ g v s = .ok (r, s') := by
  rcases ClientM.bind_eq_ok.mp h with ⟨e, h₁, rfl⟩ | ⟨v, s₁, h₁, h⟩
  · obtain ⟨rfl, hask⟩ := requireVariable_eq_ok h₁
    exact .inl ⟨e, hask.symm, rfl, rfl⟩
  · obtain ⟨rfl, hask⟩ := requireVariable_eq_ok h₁
    exact .inr ⟨v, hask.symm, h⟩

/-- A variable is read as it is seen, and its value is retained. -/
theorem variableValue_eq_ok {r : Except Refusal Value} (h : variableValue ref s = .ok (r, s')) :
    (∃ e, s.askVariable ref = .error e ∧ r = .error e ∧ s' = s) ∨
      ∃ v w, s.askVariable ref = .ok v ∧ s.scrubbed v = .ok w ∧ r = .ok w ∧
        retain w s = .ok ((), s') := by
  rcases requireVariable_bind_eq_ok h with ⟨e, hask, rfl, rfl⟩ | ⟨v, hask, h⟩
  · exact .inl ⟨e, hask, rfl, rfl⟩
  obtain ⟨w, s₁, h₁, h⟩ := ClientM.lift_bind_eq_ok.mp h
  obtain ⟨hw, rfl⟩ := scrub_eq_ok.mp h₁
  obtain ⟨_, s₁, h₁, h⟩ := ClientM.lift_bind_eq_ok.mp h
  obtain ⟨rfl, rfl⟩ := ClientM.pure_eq_ok.mp h
  exact .inr ⟨v, w, hask, hw, rfl, h₁⟩

/--
The old value is given up, unless this is the first write on the current plane, which keeps it.
-/
theorem saveVariable_eq_ok {old : Value} {u : Unit} (h : saveVariable ref old s = .ok (u, s')) :
    ((∀ p, s.planes.head? = some p → p.savedVars.contains ref = true) ∧
      relinquish ref.dataspace [old] s = .ok (u, s')) ∨
    ∃ p rest s₁, s.planes = p :: rest ∧ p.savedVars.contains ref = false ∧
      dropImport ref.dataspace old s = .ok ((), s₁) ∧
      s' = s₁.withPlane fun p => { p with savedVars := p.savedVars.insert ref old } := by
  obtain ⟨t, s₁, h₁, h⟩ := bind_eq_ok.mp h
  obtain ⟨rfl, rfl⟩ := get_eq_ok.mp h₁
  cases hp : s.planes with
  | nil =>
    simp only [hp] at h
    exact .inl ⟨nofun, h⟩
  | cons p rest =>
    simp only [hp] at h
    split at h
    · next hsaved => exact .inl ⟨fun p' hp' => Option.some.inj hp' ▸ hsaved, h⟩
    · next hnew =>
      obtain ⟨_, s₂, h₂, h⟩ := bind_eq_ok.mp h
      exact .inr ⟨p, rest, s₂, rfl, Bool.eq_false_iff.mpr hnew, h₂, modifyPlane_eq_ok.mp h⟩

/-- An assignment to a variable acquires the new value, and the old one is saved or given up. -/
theorem assignVariable_eq_ok {r : Except Refusal Unit} (h : assignVariable ref v s = .ok (r, s')) :
    (∃ e, s.askVariable ref = .error e ∧ r = .error e ∧ s' = s) ∨
      ∃ old w s₁ u, s.askVariable ref = .ok old ∧ s.scrubbed v = .ok w ∧ r = .ok u ∧
        acquire ref.dataspace w s = .ok ((), s₁) ∧
        saveVariable ref old (s₁.withVariable ref w) = .ok (u, s') := by
  rcases requireVariable_bind_eq_ok h with ⟨e, hask, rfl, rfl⟩ | ⟨old, hask, h⟩
  · exact .inl ⟨e, hask, rfl, rfl⟩
  obtain ⟨w, s₁, h₁, h⟩ := ClientM.lift_bind_eq_ok.mp h
  obtain ⟨hw, rfl⟩ := scrub_eq_ok.mp h₁
  obtain ⟨_, s₁, h₁, h⟩ := ClientM.lift_bind_eq_ok.mp h
  obtain ⟨_, s₂, h₂, h⟩ := ClientM.lift_bind_eq_ok.mp h
  obtain rfl := modifyDataspace_eq_ok.mp h₂
  obtain ⟨u, rfl, h₃⟩ := ClientM.lift_eq_ok.mp h
  exact .inr ⟨old, w, s₁, u, hask, hw, rfl, h₁, h₃⟩

/-! ## Deferred calls -/

theorem modifyCallouts_eq_ok {u : Unit}
    {f : Std.TreeMap CallHandle DeferredCall → Std.TreeMap CallHandle DeferredCall} :
    modifyCallouts ds f s = .ok (u, s') ↔ s' = s.withCallouts ds f :=
  modify_eq_ok

theorem askCall_eq_ok : s.askCall call = .ok c ↔ s.call? call = some c := by
  unfold askCall
  cases hd : s.dataspace? call.dataspace with
  | none => simp [tables_eq_none.mpr hd, call?, hd]
  | some d =>
    rw [if_neg (tables_ne_none hd)]
    cases s.call? call <;> simp

/-- A call that the client is told nothing of is not there. -/
theorem call?_of_refused (h : s.askCall call = .error e) : s.call? call = none := by
  cases hc : s.call? call with
  | none => rfl
  | some c => cases (askCall_eq_ok.mpr hc).symm.trans h

theorem requireCall_eq_ok {r : Except Refusal DeferredCall}
    (h : requireCall call s = .ok (r, s')) : s = s' ∧ r = s.askCall call := by
  unfold askCall
  rcases requireDataspace_bind_eq_ok h with ⟨hd, rfl, rfl⟩ | ⟨d, hd, h⟩
  · exact ⟨rfl, (if_pos (tables_eq_none.mpr hd)).symm⟩
  rw [if_neg (tables_ne_none hd), call?_of_dataspace hd]
  cases hc : d.callouts[call.handle]? with
  | none =>
    simp only [hc] at h
    exact ⟨(ClientM.refuse_eq_ok.mp h).2, (ClientM.refuse_eq_ok.mp h).1⟩
  | some c =>
    simp only [hc] at h
    exact ⟨(ClientM.pure_eq_ok.mp h).2, (ClientM.pure_eq_ok.mp h).1⟩

theorem requireCall_bind_eq_ok {g : DeferredCall → ClientM α} {r : Except Refusal α}
    (h : (requireCall call >>= g) s = .ok (r, s')) :
    (∃ e, s.askCall call = .error e ∧ r = .error e ∧ s' = s) ∨
      ∃ c, s.askCall call = .ok c ∧ g c s = .ok (r, s') := by
  rcases ClientM.bind_eq_ok.mp h with ⟨e, h₁, rfl⟩ | ⟨c, s₁, h₁, h⟩
  · obtain ⟨rfl, hask⟩ := requireCall_eq_ok h₁
    exact .inl ⟨e, hask.symm, rfl, rfl⟩
  · obtain ⟨rfl, hask⟩ := requireCall_eq_ok h₁
    exact .inr ⟨c, hask.symm, h⟩

/-- A call gets the next handle of its dataspace, and the handle after that is next. -/
theorem addCall_eq_ok {due : Nat} {r : Except Refusal CallHandle}
    (h : addCall ds due v s = .ok (r, s')) :
    (s.dataspace? ds = none ∧ r = .error (.unknownDataspace ds) ∧ s' = s) ∨
      ∃ d w s₁, s.dataspace? ds = some d ∧ s.scrubbed v = .ok w ∧ r = .ok ⟨d.nextHandle⟩ ∧
        acquire ds w s = .ok ((), s₁) ∧
        journal ⟨ds, ⟨d.nextHandle⟩⟩ .added
          ((s₁.withDataspace ds fun d => { d with nextHandle := d.nextHandle + 1 }).withCallouts ds
            (·.insert ⟨d.nextHandle⟩ { due, payload := w })) = .ok ((), s') := by
  rcases requireDataspace_bind_eq_ok h with ⟨hd, rfl, rfl⟩ | ⟨d, hd, h⟩
  · exact .inl ⟨hd, rfl, rfl⟩
  obtain ⟨w, s₁, h₁, h⟩ := ClientM.lift_bind_eq_ok.mp h
  obtain ⟨hw, rfl⟩ := scrub_eq_ok.mp h₁
  obtain ⟨_, s₁, h₁, h⟩ := ClientM.lift_bind_eq_ok.mp h
  obtain ⟨_, s₂, h₂, h⟩ := ClientM.lift_bind_eq_ok.mp h
  obtain rfl := modifyDataspace_eq_ok.mp h₂
  obtain ⟨_, s₃, h₃, h⟩ := ClientM.lift_bind_eq_ok.mp h
  obtain rfl := modifyCallouts_eq_ok.mp h₃
  obtain ⟨_, s₄, h₄, h⟩ := ClientM.lift_bind_eq_ok.mp h
  obtain ⟨rfl, rfl⟩ := ClientM.pure_eq_ok.mp h
  exact .inr ⟨d, w, s₁, hd, hw, rfl, h₁, h₄⟩

/-- A call is taken off the table before its removal is journaled. -/
theorem removeCall_eq_ok {r : Except Refusal Nat} (h : removeCall call s = .ok (r, s')) :
    (∃ e, s.askCall call = .error e ∧ r = .error e ∧ s' = s) ∨
      ∃ old s₁, s.askCall call = .ok old ∧ r = .ok old.due ∧
        dropImport call.dataspace old.payload
          (s.withCallouts call.dataspace (·.erase call.handle)) = .ok ((), s₁) ∧
        journal call (.removed old) s₁ = .ok ((), s') := by
  rcases requireCall_bind_eq_ok h with ⟨e, hask, rfl, rfl⟩ | ⟨old, hask, h⟩
  · exact .inl ⟨e, hask, rfl, rfl⟩
  obtain ⟨_, s₁, h₁, h⟩ := ClientM.lift_bind_eq_ok.mp h
  obtain rfl := modifyCallouts_eq_ok.mp h₁
  obtain ⟨_, s₂, h₂, h⟩ := ClientM.lift_bind_eq_ok.mp h
  obtain ⟨_, s₃, h₃, h⟩ := ClientM.lift_bind_eq_ok.mp h
  obtain ⟨rfl, rfl⟩ := ClientM.pure_eq_ok.mp h
  exact .inr ⟨old, s₂, hask, rfl, h₂, h₃⟩

/-- A call is put in the place of another before that is journaled. -/
theorem replaceCall_eq_ok {due : Nat} {r : Except Refusal Unit}
    (h : replaceCall call due v s = .ok (r, s')) :
    (∃ e, s.askCall call = .error e ∧ r = .error e ∧ s' = s) ∨
      ∃ old w s₁ s₂ u, s.askCall call = .ok old ∧ s.scrubbed v = .ok w ∧ r = .ok u ∧
        acquire call.dataspace w s = .ok ((), s₁) ∧
        dropImport call.dataspace old.payload (s₁.withCallouts call.dataspace
          (·.insert call.handle { due, payload := w })) = .ok ((), s₂) ∧
        journal call (.replaced old) s₂ = .ok (u, s') := by
  rcases requireCall_bind_eq_ok h with ⟨e, hask, rfl, rfl⟩ | ⟨old, hask, h⟩
  · exact .inl ⟨e, hask, rfl, rfl⟩
  obtain ⟨w, s₁, h₁, h⟩ := ClientM.lift_bind_eq_ok.mp h
  obtain ⟨hw, rfl⟩ := scrub_eq_ok.mp h₁
  obtain ⟨_, s₁, h₁, h⟩ := ClientM.lift_bind_eq_ok.mp h
  obtain ⟨_, s₂, h₂, h⟩ := ClientM.lift_bind_eq_ok.mp h
  obtain rfl := modifyCallouts_eq_ok.mp h₂
  obtain ⟨_, s₃, h₃, h⟩ := ClientM.lift_bind_eq_ok.mp h
  obtain ⟨u, rfl, h₄⟩ := ClientM.lift_eq_ok.mp h
  exact .inr ⟨old, w, s₁, s₃, u, hask, hw, rfl, h₁, h₃, h₄⟩

end Store

end PlaneStore
