import PlaneStore.Proofs.Planes.RewoundNotes
import PlaneStore.Proofs.Callouts.SoundAgendas
import PlaneStore.Proofs.Contents.UpkeepEffects
import PlaneStore.Proofs.Walk.Writing

/-!
# What is written to dataspaces

Variables and callout tables are written at once, in a region and outside of one; what a plane has
to remember, and what the scheduler is told, comes besides. So what a request answers and leaves
there is a matter of the variables and callout tables that it finds.
-/

namespace PlaneStore

open Store

namespace Store

variable {s s' : Store} {F : Refs} {C : Charges} {ds : DataspaceId} {ref : VariableRef}
  {call : CallRef} {v : Value}

/-! ## Variables -/

/-- A variable reads as its value would. -/
theorem variableValue_answers {r : Except Refusal Value}
    (h : variableValue ref s = .ok (r, s')) : r = (s.askVariable ref).map s.seen := by
  rcases variableValue_eq_ok h with ⟨e, hask, rfl, -⟩ | ⟨v, w, hask, hw, rfl, -⟩
  · rw [hask]
    rfl
  · rw [hask, scrubbed_eq hw]
    rfl

/-- What becomes of the old value is no matter of variables. -/
theorem variableAt?_of_saved {old : Value} {u : Unit} (hs : s.Stored)
    (h : saveVariable ref old s = .ok (u, s')) (other : VariableRef) :
    s'.variableAt? other = s.variableAt? other := by
  rcases saveVariable_eq_ok h with ⟨-, h⟩ | ⟨p, rest, s₁, -, -, hdrop, rfl⟩
  · exact (wanes_relinquish hs h).variableAt? other
  · rw [variableAt?_withPlane, (alike_dropImport hdrop).wanes.variableAt?]

/-- A variable that is there gets the value as a reader sees it; all others stay. -/
theorem assignVariable_answers {r : Except Refusal Unit} (ha : Account.Kept ⟨s, F, C, none⟩)
    (hv : F.Covers v) (h : assignVariable ref v s = .ok (r, s')) :
    r = (s.askVariable ref).map (fun _ => ()) ∧ ∀ other, s'.variableAt? other =
      if other = ref then (s.variableAt? ref).map fun _ => s.seen v else s.variableAt? other := by
  rcases assignVariable_eq_ok h with
    ⟨e, hask, rfl, rfl⟩ | ⟨old, w, s₁, u, hask, hw, rfl, hacquire, hsave⟩
  · refine ⟨by rw [hask]; rfl, fun other => ?_⟩
    split
    · next hsame => rw [hsame, variableAt?_of_refused hask]; rfl
    · rfl
  refine ⟨by rw [hask]; rfl, fun other => ?_⟩
  have hold := askVariable_eq_ok.mp hask
  have hstored := ((walk_charge ha hv hw hacquire).1.kept ha).accounted.stored
  have hstored : (s₁.withVariable ref w).Stored :=
    ⟨hstored.length, hstored.apart, hstored.next, hstored.even⟩
  have hacquired := (wanes_acquire hacquire).variableAt?
  rw [variableAt?_of_saved hstored hsave other, ← scrubbed_eq hw]
  split
  · next hsame =>
    rw [hsame, hold, variableAt?_withVariable_self ((hacquired ref).trans hold)]
    rfl
  · next hne => rw [variableAt?_withVariable_of_ne hne, hacquired]

/-! ## Calls that are changed -/

/-- Callout tables of which one is another. -/
def amend (tables : DataspaceId → Option (Std.TreeMap CallHandle DeferredCall × Nat))
    (ds : DataspaceId)
    (f : Std.TreeMap CallHandle DeferredCall × Nat → Std.TreeMap CallHandle DeferredCall × Nat) :
    DataspaceId → Option (Std.TreeMap CallHandle DeferredCall × Nat) :=
  fun other => if other = ds then (tables other).map f else tables other

theorem tables_withDataspace {f : Dataspace → Dataspace}
    {g : Std.TreeMap CallHandle DeferredCall × Nat → Std.TreeMap CallHandle DeferredCall × Nat}
    (hf : ∀ d, (f d).table = g d.table) :
    (s.withDataspace ds f).agenda.tables = amend s.agenda.tables ds g := by
  funext other
  unfold amend agenda
  simp only [dataspace?_withDataspace]
  split
  · rw [Option.map_map, Option.map_map]
    exact congrArg (Option.map · _) (funext hf)
  · rfl

theorem tables_withCallouts
    (f : Std.TreeMap CallHandle DeferredCall → Std.TreeMap CallHandle DeferredCall) :
    (s.withCallouts ds f).agenda.tables = amend s.agenda.tables ds fun t => (f t.1, t.2) :=
  tables_withDataspace (g := fun t => (f t.1, t.2)) fun _ => rfl

theorem tables_of_journal {patch : CallPatch} {u : Unit} (h : journal call patch s = .ok (u, s')) :
    s'.agenda.tables = s.agenda.tables := by
  have hrecords := journal_agenda h
  generalize s'.agenda = b at hrecords
  cases hrecords <;> rfl

theorem addCall_posts {due : Nat} {r : Except Refusal CallHandle}
    (h : addCall ds due v s = .ok (r, s')) :
    r = (match s.agenda.tables ds with
      | none => .error (.unknownDataspace ds)
      | some t => .ok ⟨t.2⟩) ∧
    s'.agenda.tables = amend s.agenda.tables ds fun t =>
      (t.1.insert ⟨t.2⟩ { due, payload := s.seen v }, t.2 + 1) := by
  rcases addCall_eq_ok h with ⟨hd, rfl, rfl⟩ | ⟨d, w, s₁, hd, hw, rfl, hacquire, hjournal⟩
  · have hnone := tables_eq_none.mpr hd
    refine ⟨by rw [hnone], funext fun other => ?_⟩
    unfold amend
    split
    · next hsame => rw [hsame, hnone]; rfl
    · rfl
  have htable : s.agenda.tables ds = some d.table := congrArg (Option.map Dataspace.table) hd
  have hquiet : s₁.agenda = s.agenda := Quiet.eq hacquire
  refine ⟨by rw [htable]; rfl, ?_⟩
  rw [tables_of_journal hjournal, tables_withCallouts,
    tables_withDataspace (g := fun t => (t.1, t.2 + 1)) fun _ => rfl, hquiet]
  funext other
  unfold amend
  split
  · next hsame => rw [hsame, htable, scrubbed_eq hw]; rfl
  · rfl

/-- What is answered when a call is removed, and the callout table it leaves. -/
theorem removeCall_posts {r : Except Refusal Nat} (h : removeCall call s = .ok (r, s')) :
    r = (s.askCall call).map DeferredCall.due ∧
    s'.agenda.tables = if s.call? call = none then s.agenda.tables
      else amend s.agenda.tables call.dataspace fun t => (t.1.erase call.handle, t.2) := by
  rcases removeCall_eq_ok h with ⟨e, hask, rfl, rfl⟩ | ⟨old, s₁, hask, rfl, hdrop, hjournal⟩
  · exact ⟨by rw [hask]; rfl, by rw [if_pos (call?_of_refused hask)]⟩
  have hquiet : s₁.agenda = (s.withCallouts call.dataspace (·.erase call.handle)).agenda :=
    Quiet.eq hdrop
  refine ⟨by rw [hask]; rfl, ?_⟩
  rw [if_neg (Option.ne_none_iff_exists'.mpr ⟨old, askCall_eq_ok.mp hask⟩),
    tables_of_journal hjournal, hquiet, tables_withCallouts]

/-- What is answered when a call is replaced, and the callout table it leaves. -/
theorem replaceCall_posts {due : Nat} {r : Except Refusal Unit}
    (h : replaceCall call due v s = .ok (r, s')) :
    r = (s.askCall call).map (fun _ => ()) ∧
    s'.agenda.tables = if s.call? call = none then s.agenda.tables
      else amend s.agenda.tables call.dataspace fun t =>
        (t.1.insert call.handle { due, payload := s.seen v }, t.2) := by
  rcases replaceCall_eq_ok h with
    ⟨e, hask, rfl, rfl⟩ | ⟨old, w, s₁, s₂, u, hask, hw, rfl, hacquire, hdrop, hjournal⟩
  · exact ⟨by rw [hask]; rfl, by rw [if_pos (call?_of_refused hask)]⟩
  have hquiet₁ : s₁.agenda = s.agenda := Quiet.eq hacquire
  have hquiet₂ : s₂.agenda = (s₁.withCallouts call.dataspace
      (·.insert call.handle { due, payload := w })).agenda := Quiet.eq hdrop
  refine ⟨by rw [hask]; rfl, ?_⟩
  rw [if_neg (Option.ne_none_iff_exists'.mpr ⟨old, askCall_eq_ok.mp hask⟩),
    tables_of_journal hjournal, hquiet₂, tables_withCallouts, hquiet₁, scrubbed_eq hw]

end Store

/-- Callout tables stay while containers are looked after. -/
theorem Store.Steady.tables {s s' : Store} (h : Steady s s') :
    s'.agenda.tables = s.agenda.tables := by
  funext ds
  have htable := congrArg (Option.map fun d : Dataspace => d.table) (h.dataspace ds)
  rw [Option.map_map, Option.map_map] at htable
  exact htable

/-- Which calls are pending is a matter of the callout tables. -/
theorem Store.call?_of_tables {s s' : Store} (h : s'.agenda.tables = s.agenda.tables)
    (call : CallRef) :
    s'.call? call = s.call? call := by
  rw [← Agenda.call?_agenda, ← Agenda.call?_agenda]
  unfold Agenda.call?
  rw [h]

/-- A call in a table that was amended was there before, or it comes from the amendment. -/
theorem Store.call?_of_amended {s s' : Store} {ds : DataspaceId} {call : CallRef} {d : DeferredCall}
    {f : Std.TreeMap CallHandle DeferredCall × Nat → Std.TreeMap CallHandle DeferredCall × Nat}
    {P : DeferredCall → Prop} (h : s'.agenda.tables = amend s.agenda.tables ds f)
    (hf :
      ∀ (t : Std.TreeMap CallHandle DeferredCall × Nat) (handle : CallHandle) (d : DeferredCall),
      (f t).1[handle]? = some d → t.1[handle]? = some d ∨ P d)
    (hd : s'.call? call = some d) : s.call? call = some d ∨ P d := by
  rw [← Agenda.call?_agenda] at hd ⊢
  unfold Agenda.call? at hd ⊢
  rw [h] at hd
  unfold amend at hd
  split at hd
  · obtain ⟨t, ht, hd⟩ := Option.bind_eq_some_iff.mp hd
    obtain ⟨t, hold, rfl⟩ := Option.map_eq_some_iff.mp ht
    exact (hf t _ d hd).imp_left fun hd => Option.bind_eq_some_iff.mpr ⟨t, hold, hd⟩
  · exact .inl hd

/-- In a table where a call was filed there is that call, and what was there before. -/
theorem eq_or_of_filed {t : Std.TreeMap CallHandle DeferredCall} {handle other : CallHandle}
    {c d : DeferredCall} (h : (t.insert handle c)[other]? = some d) :
    t[other]? = some d ∨ d = c := by
  rw [Std.TreeMap.getElem?_insert] at h
  split at h
  · exact .inr (Option.some.inj h).symm
  · exact .inl h

/-! ## Requests that write no variables -/

/-- The effects of changing containers and deferred calls. -/
inductive Effect.Alters : Effect → Prop
  | still : Alters .still
  | nest : Alters .nest
  | change (id : ContainerId) (e : Edit) : Alters (.change id e)
  | record (call : CallRef) (patch : CallPatch) : Alters (.record call patch)

section

variable {E : Effect → Prop} {e : Effect} {a b : Account}

/-- While no plane is closing, changes of containers and of deferred calls leave variables alone. -/
theorem Step.variableAt?_of_alters (h : Step e a b) (ha : a.Accounted) (hq : a.closing = none)
    (he : e.Alters) (ref : VariableRef) :
    b.closing = none ∧ b.store.variableAt? ref = a.store.variableAt? ref := by
  have hclosing : b.closing = none := by
    have hfolds := h.folds (by cases he <;> exact ⟨nofun, nofun⟩)
    rw [hq] at hfolds
    exact Option.map_eq_none_iff.mp hfolds
  refine ⟨hclosing, ?_⟩
  cases he with
  | still => exact (h.holdsSteady ha trivial).variableAt? ref
  | nest =>
    cases h with
    | upkeep h => cases h
    | creation h => cases h
    | writing h => cases h
    | nesting h =>
      cases h with
      | backUp => exact variableAt?_withPlane _ _ _
      | _ => cases hq
  | change id ed =>
    cases h with
    | upkeep h => cases h
    | creation h => cases h
    | writing h => cases h
    | nesting h => cases h
    | change h =>
      obtain ⟨c, d, -, hstore, -⟩ := Content.change_becomes h
      rw [hstore]
      rfl
  | record call patch =>
    cases h with
    | upkeep h => cases h
    | creation h => cases h
    | nesting h =>
      cases h
      cases hq
    | writing h =>
      cases h with
      | addCall hd hv h =>
        rw [h.variableAt?, variableAt?_withCallouts, variableAt?_bump]
      | removeCall hold h₁ h₂ | replaceCall hold hv h₁ h₂ =>
        rw [h₂.variableAt?, (alike_dropImport h₁).wanes.variableAt?, variableAt?_withCallouts]

/-- What alters containers only writes to no variable. -/
theorem Path.variableAt?_of_alters (h : Path E a b) (ha : a.Kept) (hq : a.closing = none)
    (hE : ∀ e, E e → e.Alters) (ref : VariableRef) :
    b.store.variableAt? ref = a.store.variableAt? ref := by
  have hboth : b.closing = none ∧ b.store.variableAt? ref = a.store.variableAt? ref := by
    induction h with
    | refl => exact ⟨hq, rfl⟩
    | tail h he hs ih =>
      have hstep := hs.variableAt?_of_alters (h.kept ha).accounted ih.1 (hE _ he) ref
      exact ⟨hstep.1, hstep.2.trans ih.2⟩
  exact hboth.2

end

end PlaneStore
