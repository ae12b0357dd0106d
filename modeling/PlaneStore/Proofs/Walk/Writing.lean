import PlaneStore.Proofs.Inversion.VariablesAndCalls
import PlaneStore.Proofs.Walk.Reading

/-!
# Walks: variables and deferred calls

Writes to variables and callout tables as chains of elementary steps: the new value is charged, it
is put in its place, and what becomes superfluous is given up.
-/

namespace PlaneStore

open Store

section

variable {E : Effect → Prop} {s s' : Store} {F : Refs} {C : Charges}

/-! ## Variables -/

/-- A variable holds a reference to its value. -/
theorem mem_refs_of_variable {ref : VariableRef} {v : Value} (hv : s.variableAt? ref = some v) :
    v ∈ s.refs := by
  obtain ⟨d, hd, hv⟩ := Option.bind_eq_some_iff.mp hv
  refine Multiset.mem_add.mpr (Or.inl (Multiset.mem_add.mpr (Or.inr (Refs.mem_sum.mpr
    ⟨d.held, List.mem_map_of_mem (Array.mem_toList_iff.mpr (Array.mem_of_getElem? hd)), ?_⟩))))
  exact Multiset.mem_add.mpr (Or.inl (Multiset.mem_coe.mpr
    (Array.mem_toList_iff.mpr (Array.mem_of_getElem? hv))))

/-- A reading of a variable hands out a reference to the value. -/
theorem walk_variableValue {ref : VariableRef} {r : Except Refusal Value} {q : Option Closing}
    (still : E .still) (ha : Account.Kept ⟨s, F, C, q⟩)
    (h : variableValue ref s = .ok (r, s')) : Path E ⟨s, F, C, q⟩ ⟨s', earned r + F, C, q⟩ := by
  rcases variableValue_eq_ok h with ⟨e, -, rfl, rfl⟩ | ⟨v, w, hask, hw, rfl, hretain⟩
  · exact (Path.refl _).earned_error
  refine walk_retain still ?_ hretain
  rw [scrubbed_eq hw]
  exact (ha.fits (Account.mem_refs_of_store
    (mem_refs_of_variable (askVariable_eq_ok.mp hask)))).seen

theorem Store.Wanes.variableAt? (h : Wanes s s') (ref : VariableRef) :
    s'.variableAt? ref = s.variableAt? ref := by
  have hv := congrArg (fun o : Option Dataspace => o.bind (·.vars[ref.slot]?))
    (h.dataspace ref.dataspace)
  simp only [Option.bind_map] at hv
  exact hv

/-- A variable that is written is saved first, and its old value is no longer charged. -/
theorem walk_saveVariable {ref : VariableRef} {v old : Value} {u : Unit} (still : E .still)
    (write : E (.write ref)) (hold : s.variableAt? ref = some old) (hv : s.Alive v)
    (h : saveVariable ref old (s.withVariable ref v) = .ok (u, s')) :
    Path E ⟨s, F, .of ref.dataspace [v] + C, none⟩ ⟨s', F, C, none⟩ := by
  rcases saveVariable_eq_ok h with ⟨hsaved, h⟩ | ⟨p, rest, s₁, hp, hnew, hdrop, rfl⟩
  · exact (Path.single write (.writing (.write hold hv hsaved))).trans (walk_relinquish still h)
  · exact .single write (.writing (.firstWrite hold hv hp hnew hdrop))

/-- An assignment to a variable is one write of it, or refused. -/
theorem walk_assignVariable {ref : VariableRef} {v : Value} {r : Except Refusal Unit}
    (still : E .still) (write : (∃ u, r = .ok u) → E (.write ref))
    (ha : Account.Kept ⟨s, F, C, none⟩) (hv : F.Covers v)
    (h : assignVariable ref v s = .ok (r, s')) : Path E ⟨s, F, C, none⟩ ⟨s', F, C, none⟩ := by
  rcases assignVariable_eq_ok h with
    ⟨e, -, rfl, rfl⟩ | ⟨old, w, s₁, u, hask, hw, rfl, hacquire, hsave⟩
  · exact .refl _
  obtain ⟨hpath, halive⟩ := walk_charge ha hv hw hacquire
  have hold := ((wanes_acquire hacquire).variableAt? ref).trans (askVariable_eq_ok.mp hask)
  exact (hpath.of_still still).trans (walk_saveVariable still (write ⟨u, rfl⟩) hold halive hsave)

/-! ## Deferred calls -/

theorem mem_refs_of_call {call : CallRef} {c : DeferredCall} (hc : s.call? call = some c) :
    c.payload ∈ s.refs := by
  rw [← refs_withCallouts_erase hc]
  exact Multiset.mem_add.mpr (Or.inr (Multiset.mem_singleton_self _))

/-- Journaling a change releases what becomes superfluous. -/
theorem walk_journal {call : CallRef} {patch : CallPatch} {a : Account} {q : Option Closing}
    {u : Unit} (still : E .still)
    (hstep : ∀ {out : List Value} {t : Store}, Recorded call patch s out t →
      Path E a ⟨t, ↑out + F, C, q⟩)
    (h : journal call patch s = .ok (u, s')) : Path E a ⟨s', F, C, q⟩ := by
  obtain ⟨out, t, hrecorded, hrelease⟩ := journal_eq_ok h
  exact (hstep hrecorded).trans (walk_releaseAll still hrelease)

/-- Upkeep leaves dataspaces where they are, and their next handles. -/
theorem Store.Wanes.nextHandle {ds : DataspaceId} {d : Dataspace} (h : Wanes s s')
    (hd : s.dataspace? ds = some d) :
    ∃ d', s'.dataspace? ds = some d' ∧ d'.nextHandle = d.nextHandle := by
  have hbare := h.dataspace ds
  rw [hd] at hbare
  obtain ⟨d', hd', hb⟩ := Option.map_eq_some_iff.mp hbare
  exact ⟨d', hd', show d'.bare.nextHandle = _ by rw [hb]; rfl⟩

/-- A call that is added is recorded with the plane, or refused. -/
theorem walk_addCall {ds : DataspaceId} {due : Nat} {v : Value} {r : Except Refusal CallHandle}
    (still : E .still) (record : (∃ handle, r = .ok handle) → ∀ call patch, E (.record call patch))
    (ha : Account.Kept ⟨s, F, C, none⟩) (hv : F.Covers v)
    (h : addCall ds due v s = .ok (r, s')) : Path E ⟨s, F, C, none⟩ ⟨s', F, C, none⟩ := by
  rcases addCall_eq_ok h with ⟨-, rfl, rfl⟩ | ⟨d, w, s₁, hd, hw, rfl, hacquire, hjournal⟩
  · exact .refl _
  obtain ⟨hpath, halive⟩ := walk_charge ha hv hw hacquire
  obtain ⟨d₁, hd₁, hnext⟩ := (wanes_acquire hacquire).nextHandle hd
  rw [← hnext] at hjournal
  exact walk_journal still (fun hrecorded => (hpath.of_still still).tail (record ⟨_, rfl⟩ _ _)
    (.writing (.addCall hd₁ halive hrecorded))) hjournal

/-- A call that is removed is recorded with the plane, or refused. -/
theorem walk_removeCall {call : CallRef} {r : Except Refusal Nat} (still : E .still)
    (record : (∃ n, r = .ok n) → ∀ patch, E (.record call patch))
    (h : removeCall call s = .ok (r, s')) : Path E ⟨s, F, C, none⟩ ⟨s', F, C, none⟩ := by
  rcases removeCall_eq_ok h with ⟨e, -, rfl, rfl⟩ | ⟨old, s₁, hask, rfl, hdrop, hjournal⟩
  · exact .refl _
  exact walk_journal still (fun hrecorded => .single (record ⟨_, rfl⟩ _)
    (.writing (.removeCall (askCall_eq_ok.mp hask) hdrop hrecorded))) hjournal

theorem Store.Wanes.call? (h : Wanes s s') (call : CallRef) : s'.call? call = s.call? call :=
  call?_of_bare (h.dataspace call.dataspace)

theorem walk_replaceCall {call : CallRef} {due : Nat} {v : Value} {r : Except Refusal Unit}
    (still : E .still) (record : (∃ u, r = .ok u) → ∀ patch, E (.record call patch))
    (ha : Account.Kept ⟨s, F, C, none⟩) (hv : F.Covers v)
    (h : replaceCall call due v s = .ok (r, s')) : Path E ⟨s, F, C, none⟩ ⟨s', F, C, none⟩ := by
  rcases replaceCall_eq_ok h with
    ⟨e, -, rfl, rfl⟩ | ⟨old, w, s₁, s₂, u, hask, hw, rfl, hacquire, hdrop, hjournal⟩
  · exact .refl _
  obtain ⟨hpath, halive⟩ := walk_charge ha hv hw hacquire
  have hold := ((wanes_acquire hacquire).call? call).trans (askCall_eq_ok.mp hask)
  exact walk_journal still (fun hrecorded => (hpath.of_still still).tail (record ⟨u, rfl⟩ _)
    (.writing (.replaceCall hold halive hdrop hrecorded))) hjournal

end

end PlaneStore
