import PlaneStore.Proofs.Walk.Writing
import PlaneStore.Proofs.Totality.Reading
import PlaneStore.Proofs.Totality.Creation

/-!
# No faults: variables and deferred calls

What is taken out of a variable or a callout table was counted as an import, and a change of a call
follows what the planes have recorded of it, so that it can be folded into that.
-/

namespace PlaneStore

open Store

section

variable {s s' : Store} {F : Refs} {C : Charges} {v : Value}

/-! ## Variables -/

theorem succeeds_requireVariable (ref : VariableRef) : Succeeds (requireVariable ref) s := by
  refine Succeeds.requestBind (succeeds_requireDataspace _) fun d t _ => ?_
  cases d.vars[ref.slot]? with
  | none => exact .refuse _
  | some v => exact .answer _

/-- What a variable holds is there. -/
theorem Account.Kept.there_of_variable {a : Account} (ha : a.Kept) {ref : VariableRef}
    (hv : a.store.variableAt? ref = some v) : a.store.There v :=
  ha.there fun _ => Account.mem_refs_of_store (mem_refs_of_variable hv)

theorem succeeds_variableValue {q : Option Closing} (ha : Account.Kept ⟨s, F, C, q⟩)
    (ref : VariableRef) : Succeeds (variableValue ref) s := by
  refine Succeeds.requestBind (succeeds_requireVariable ref) fun v t h => ?_
  obtain ⟨rfl, hask⟩ := requireVariable_eq_ok h
  have hthere := ha.there_of_variable (askVariable_eq_ok.mp hask.symm)
  refine Succeeds.liftBind (succeeds_scrub hthere) fun w t h => ?_
  obtain ⟨hw, rfl⟩ := StoreM.scrub_eq_ok.mp h
  rw [scrubbed_eq hw]
  exact Succeeds.liftBind (succeeds_retain hthere.seen) fun u t _ => .answer _

/-- What a write takes out of a variable is given up, or kept by the current plane. -/
theorem succeeds_saveVariable {ref : VariableRef} {old : Value}
    (ha : Account.Kept ⟨s, F, .of ref.dataspace [v] + C, none⟩)
    (hold : s.variableAt? ref = some old) (hv : s.Alive v) :
    Succeeds (saveVariable ref old) (s.withVariable ref v) := by
  refine Succeeds.get_bind ?_
  cases hp : (s.withVariable ref v).planes with
  | nil =>
    have hstep : Step (.write ref) ⟨s, F, .of ref.dataspace [v] + C, none⟩
        ⟨s.withVariable ref v, F, .of ref.dataspace [old] + C, none⟩ :=
      .writing (.write hold hv fun p hmem => by
        rw [show s.planes = [] from hp] at hmem
        cases hmem)
    exact succeeds_relinquish (hstep.kept ha)
  | cons p rest =>
    dsimp only
    split
    · next hsaved =>
      have hstep : Step (.write ref) ⟨s, F, .of ref.dataspace [v] + C, none⟩
          ⟨s.withVariable ref v, F, .of ref.dataspace [old] + C, none⟩ :=
        .writing (.write hold hv fun p' hmem => by
          rw [show s.planes = p :: rest from hp] at hmem
          obtain rfl := Option.some.inj hmem
          exact hsaved)
      exact succeeds_relinquish (hstep.kept ha)
    · have hthere : (s.withVariable ref v).There old := ha.there_of_variable hold
      exact Succeeds.bind (succeeds_dropImport hthere (ha.imported.written hold)) fun u t _ =>
        .modifyPlane _

/-- An assignment to a variable is carried out or refused. -/
theorem succeeds_assignVariable {ref : VariableRef} (ha : Account.Kept ⟨s, F, C, none⟩)
    (hv : F.Covers v) : Succeeds (assignVariable ref v) s := by
  refine Succeeds.requestBind (succeeds_requireVariable ref) fun old t h => ?_
  obtain ⟨rfl, hask⟩ := requireVariable_eq_ok h
  refine Succeeds.liftBind (succeeds_scrub (ha.there_of_flight hv)) fun w t h => ?_
  obtain ⟨hw, rfl⟩ := StoreM.scrub_eq_ok.mp h
  refine Succeeds.liftBind (succeeds_acquire ha (hv.scrubbed hw)) fun u s₁ h₁ => ?_
  obtain ⟨hpath, halive⟩ := walk_charge ha hv hw h₁
  have hold₁ := ((wanes_acquire h₁).variableAt? ref).trans (askVariable_eq_ok.mp hask.symm)
  refine Succeeds.liftBind (.modifyDataspace _ _) fun u t h => ?_
  obtain rfl := StoreM.modifyDataspace_eq_ok.mp h
  exact .lift (succeeds_saveVariable (hpath.kept ha) hold₁ halive)

/-! ## Journaling -/

theorem succeeds_setPatch (call : CallRef) (patch : Option CallPatch) :
    Succeeds (setPatch call patch) s := by
  cases patch <;> exact .modifyPlane _

/-- A change that follows what is recorded of a call can be journaled. -/
theorem succeeds_journal {call : CallRef} {patch : CallPatch}
    (hc : CallPatch.Chain (patch :: patchesOn s.planes call) (s.call? call))
    (hrelease : ∀ out t, Recorded call patch s out t → Succeeds (releaseAll out) t) :
    Succeeds (journal call patch) s := by
  obtain ⟨hfits, hchain⟩ := hc
  refine Succeeds.get_bind ?_
  cases hp : s.planes with
  | nil =>
    have htold := hrelease _ _ (.told hp hfits)
    refine Succeeds.get_bind ?_
    cases hnow : s.call? call with
    | none =>
      rw [hnow] at hfits htold
      cases hfits with
      | removed old =>
        refine Succeeds.bind (.update _) fun u t h => ?_
        rw [StoreM.modify_eq_ok.mp h, release_eq]
        exact htold
    | some c =>
      rw [hnow] at hfits htold
      cases hfits with
      | added => exact .update _
      | replaced old =>
        refine Succeeds.bind (.update _) fun u t h => ?_
        rw [StoreM.modify_eq_ok.mp h, release_eq]
        exact htold
  | cons p rest =>
    dsimp only
    cases he : p.patches[call]? with
    | none => exact .modifyPlane _
    | some earlier =>
      rw [hp, patchesOn_cons, he] at hchain
      -- The patches of a callout form a chain, so two that follow each other fold.
      obtain ⟨fold, hfold, -⟩ := CallPatch.Fits.fold? hchain.1 hfits
      dsimp only
      rw [hfold]
      refine Succeeds.bind (succeeds_setPatch _ _) fun u t h => ?_
      obtain ⟨later, out⟩ := fold
      cases later with
      | none =>
        rw [StoreM.modifyPlane_eq_ok.mp h]
        exact hrelease _ _ (.cancelled p rest earlier out hp he hfold)
      | some later =>
        rw [StoreM.modifyPlane_eq_ok.mp h]
        exact hrelease _ _ (.folded p rest earlier later out hp he hfold)

/-! ## Deferred calls -/

theorem succeeds_requireCall (call : CallRef) : Succeeds (requireCall call) s := by
  refine Succeeds.requestBind (succeeds_requireDataspace _) fun d t _ => ?_
  cases d.callouts[call.handle]? with
  | none => exact .refuse _
  | some c => exact .answer _

/-- The payload of a call is there. -/
theorem Account.Kept.there_of_call {a : Account} (ha : a.Kept) {call : CallRef} {c : DeferredCall}
    (hc : a.store.call? call = some c) : a.store.There c.payload :=
  ha.there fun _ => Account.mem_refs_of_store (mem_refs_of_call hc)

/-- A call is added or refused. -/
theorem succeeds_addCall {ds : DataspaceId} {due : Nat} (ha : Account.Kept ⟨s, F, C, none⟩)
    (hv : F.Covers v) : Succeeds (addCall ds due v) s := by
  refine Succeeds.requestBind (succeeds_requireDataspace ds) fun d t h => ?_
  obtain ⟨rfl, hd⟩ := requireDataspace_eq_ok h
  refine Succeeds.liftBind (succeeds_scrub (ha.there_of_flight hv)) fun w t h => ?_
  obtain ⟨hw, rfl⟩ := StoreM.scrub_eq_ok.mp h
  refine Succeeds.liftBind (succeeds_acquire ha (hv.scrubbed hw)) fun u s₁ h₁ => ?_
  obtain ⟨hpath, halive⟩ := walk_charge ha hv hw h₁
  have ha₁ := hpath.kept ha
  obtain ⟨d₁, hd₁, hnext⟩ := (wanes_acquire h₁).nextHandle (hd d rfl)
  dsimp only
  rw [← hnext]
  refine Succeeds.liftBind (.modifyDataspace _ _) fun u t h => ?_
  obtain rfl := StoreM.modifyDataspace_eq_ok.mp h
  refine Succeeds.liftBind (.modifyDataspace _ _) fun u t h => ?_
  obtain rfl := modifyCallouts_eq_ok.mp h
  refine Succeeds.liftBind (succeeds_journal ?_ fun out t hrecorded => ?_) fun u t _ => .answer _
  · rw [call?_added hd₁, if_pos rfl]
    exact ha₁.chained.added ha₁.numbered hd₁ _
  · have hstep := Step.writing (.addCall (F := F) (C := C) hd₁ halive hrecorded)
    exact succeeds_releaseAll (hstep.kept ha₁)

/-- A call is removed or refused. -/
theorem succeeds_removeCall {call : CallRef} (ha : Account.Kept ⟨s, F, C, none⟩) :
    Succeeds (removeCall call) s := by
  refine Succeeds.requestBind (succeeds_requireCall call) fun old t h => ?_
  obtain ⟨rfl, hask⟩ := requireCall_eq_ok h
  have hold := askCall_eq_ok.mp hask.symm
  refine Succeeds.liftBind (.modifyDataspace _ _) fun u t h => ?_
  obtain rfl := modifyCallouts_eq_ok.mp h
  refine Succeeds.liftBind (succeeds_dropImport (show s.There _ from ha.there_of_call hold)
    (ha.imported.removed hold)) fun u t h₁ => ?_
  have hal := alike_dropImport h₁
  refine Succeeds.liftBind (succeeds_journal ?_ fun out t hrecorded => ?_) fun u t _ => .answer _
  · rw [hal.planes, call?_of_bare (hal.dataspace _), call?_withCallouts_erase, if_pos rfl]
    exact ha.chained.removed hold
  · exact succeeds_releaseAll ((Step.writing (.removeCall hold h₁ hrecorded)).kept ha)

/-- A call is replaced or refused. -/
theorem succeeds_replaceCall {call : CallRef} {due : Nat} (ha : Account.Kept ⟨s, F, C, none⟩)
    (hv : F.Covers v) : Succeeds (replaceCall call due v) s := by
  refine Succeeds.requestBind (succeeds_requireCall call) fun old t h => ?_
  obtain ⟨rfl, hask⟩ := requireCall_eq_ok h
  refine Succeeds.liftBind (succeeds_scrub (ha.there_of_flight hv)) fun w t h => ?_
  obtain ⟨hw, rfl⟩ := StoreM.scrub_eq_ok.mp h
  refine Succeeds.liftBind (succeeds_acquire ha (hv.scrubbed hw)) fun u s₁ h₁ => ?_
  obtain ⟨hpath, halive⟩ := walk_charge ha hv hw h₁
  have ha₁ := hpath.kept ha
  have hold₁ := ((wanes_acquire h₁).call? call).trans (askCall_eq_ok.mp hask.symm)
  refine Succeeds.liftBind (.modifyDataspace _ _) fun u t h => ?_
  obtain rfl := modifyCallouts_eq_ok.mp h
  refine Succeeds.liftBind (succeeds_dropImport (show s₁.There _ from ha₁.there_of_call hold₁)
    (ha₁.imported.replaced hold₁)) fun u t h₂ => ?_
  have hal := alike_dropImport h₂
  obtain ⟨d, hd, -⟩ := Option.bind_eq_some_iff.mp hold₁
  refine .lift (succeeds_journal ?_ fun out t hrecorded => ?_)
  · rw [hal.planes, call?_of_bare (hal.dataspace _), call?_withCallouts_insert hd, if_pos rfl]
    exact ha₁.chained.replaced hold₁ _
  · exact succeeds_releaseAll ((Step.writing (.replaceCall hold₁ halive h₂ hrecorded)).kept ha₁)

end

end PlaneStore
