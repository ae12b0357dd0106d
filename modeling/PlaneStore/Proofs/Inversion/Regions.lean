import PlaneStore.Proofs.Inversion.VariablesAndCalls

/-!
# How regions are entered and left

What the requests that open and close atomic regions did, and the steps that they are made of. A
region that cannot be left is left alone; otherwise its plane is off the stack, and what folds it
down or undoes it starts from the planes below.
-/

namespace PlaneStore

open Store StoreM

namespace Store

variable {s s' : Store} {level : Nat} {u : Unit}

/-! ## The stack of planes -/

/-- A region is entered within the limit. -/
theorem enter_eq_ok {r : Except Refusal Nat} (h : enter s = .ok (r, s')) :
    (s.limits.planes ≤ s.level ∧ r = .error (.planeDepth s.limits.planes) ∧ s = s') ∨
      (s.level < s.limits.planes ∧ r = .ok (s.level + 1) ∧
        s' = { s with planes := {} :: s.planes }) := by
  have h := ClientM.get_bind_eq_ok.mp h
  split at h
  · next hfull =>
    obtain ⟨rfl, rfl⟩ := ClientM.refuse_eq_ok.mp h
    exact .inl ⟨hfull, rfl, rfl⟩
  · next hroom =>
    rcases ClientM.bind_eq_ok.mp h with ⟨e, h₁, rfl⟩ | ⟨_, s₁, h₁, h⟩
    · cases h₁
    · obtain ⟨rfl, rfl⟩ := ClientM.pure_eq_ok.mp h
      cases h₁
      exact .inr ⟨Nat.lt_of_not_le hroom, rfl, rfl⟩

theorem pop_eq_ok {r : Except Refusal Plane} (h : pop level s = .ok (r, s')) :
    match r with
    | .error _ => s = s' ∧ (s.planes = [] ∨ level ≠ s.level)
    | .ok p => ∃ rest, s.planes = p :: rest ∧ level = s.level ∧ s' = { s with planes := rest } := by
  have h := ClientM.get_bind_eq_ok.mp h
  cases hp : s.planes with
  | nil =>
    simp only [hp] at h
    obtain ⟨rfl, rfl⟩ := ClientM.refuse_eq_ok.mp h
    exact ⟨rfl, Or.inl rfl⟩
  | cons p rest =>
    simp only [hp] at h
    split at h
    · next hlevel =>
      obtain ⟨rfl, rfl⟩ := ClientM.refuse_eq_ok.mp h
      exact ⟨rfl, Or.inr hlevel⟩
    · next hlevel =>
      rcases ClientM.bind_eq_ok.mp h with ⟨e, h₁, rfl⟩ | ⟨_, s₁, h₁, h⟩
      · cases h₁
      · obtain ⟨rfl, rfl⟩ := ClientM.pure_eq_ok.mp h
        cases h₁
        exact ⟨rest, rfl, Decidable.not_not.mp hlevel, rfl⟩

/-- A region is left by what is done with its plane, if it is the innermost one. -/
theorem pop_lift_eq_ok {f : Plane → StoreM Unit} {r : Except Refusal Unit}
    (h : (do f (← pop level) : ClientM Unit) s = .ok (r, s')) :
    (s = s' ∧ (∃ e, r = .error e) ∧ (s.planes = [] ∨ level ≠ s.level)) ∨
      ∃ p rest, s.planes = p :: rest ∧ level = s.level ∧ r = .ok () ∧
        f p { s with planes := rest } = .ok ((), s') := by
  rcases ClientM.bind_eq_ok.mp h with ⟨e, h₁, rfl⟩ | ⟨p, s₁, h₁, h⟩
  · obtain ⟨rfl, hno⟩ := pop_eq_ok h₁
    exact .inl ⟨rfl, ⟨e, rfl⟩, hno⟩
  · obtain ⟨rest, hp, hlevel, rfl⟩ := pop_eq_ok h₁
    obtain ⟨u, rfl, h₂⟩ := ClientM.lift_eq_ok.mp h
    exact .inr ⟨p, rest, hp, hlevel, rfl, h₂⟩

/-- A commit is refused, or the innermost plane is taken off and folded down. -/
theorem commit_eq_ok {r : Except Refusal Unit} (h : commit level s = .ok (r, s')) :
    (s = s' ∧ (∃ e, r = .error e) ∧ (s.planes = [] ∨ level ≠ s.level)) ∨
      ∃ p rest, s.planes = p :: rest ∧ level = s.level ∧ r = .ok () ∧
        foldDown level p { s with planes := rest } = .ok ((), s') :=
  pop_lift_eq_ok h

/-- A discard is refused, or the innermost plane is taken off and undone. -/
theorem discard_eq_ok {r : Except Refusal Unit} (h : discard level s = .ok (r, s')) :
    (s = s' ∧ (∃ e, r = .error e) ∧ (s.planes = [] ∨ level ≠ s.level)) ∨
      ∃ p rest, s.planes = p :: rest ∧ level = s.level ∧ r = .ok () ∧
        undo level p { s with planes := rest } = .ok ((), s') :=
  pop_lift_eq_ok h

/-- While there are planes, the innermost one can be thrown away. -/
theorem discardMany_succ_eq_ok {n : Nat} {r : Except Refusal Unit} (hn : n < s.level)
    (h : discardMany (n + 1) s = .ok (r, s')) :
    ∃ s₁, discard s.level s = .ok (.ok (), s₁) ∧ discardMany n s₁ = .ok (r, s') := by
  have h := ClientM.get_bind_eq_ok.mp h
  rcases ClientM.bind_eq_ok.mp h with ⟨e, h₁, rfl⟩ | ⟨_, s₁, h₁, h⟩
  · rcases discard_eq_ok h₁ with ⟨-, -, hnone | hne⟩ | ⟨p, rest, -, -, he, -⟩
    · have hlevel : s.level = 0 := congrArg List.length hnone
      omega
    · exact absurd rfl hne
    · cases he
  · exact ⟨s₁, h₁, h⟩

/-- All planes down to a level are discarded, if there is one of that level. -/
theorem discardTo_eq_ok {r : Except Refusal Unit} (h : discardTo level s = .ok (r, s')) :
    (s = s' ∧ (∃ e, r = .error e) ∧ (level = 0 ∨ s.level < level)) ∨
      (0 < level ∧ level ≤ s.level ∧ discardMany (s.level + 1 - level) s = .ok (r, s')) := by
  have h := ClientM.get_bind_eq_ok.mp h
  split at h
  · next hno =>
    obtain ⟨rfl, rfl⟩ := ClientM.refuse_eq_ok.mp h
    exact .inl ⟨rfl, ⟨_, rfl⟩, hno⟩
  · next hyes => exact .inr ⟨by omega, by omega, h⟩

/-! ## Planes that are folded down -/

/-- A backup goes to the plane below, or it is given up. -/
theorem refile_eq_ok {b : Backup} {out : List Value} (h : refile level b s = .ok (out, s')) :
    (out = backupReferences b ∧ s' = s ∧
        ∀ p, s.planes.head? = some p → b.home = level ∨ p.isBacked b.container = true) ∨
      ∃ p rest, s.planes = p :: rest ∧ b.home ≠ level ∧ p.isBacked b.container = false ∧
        out = [] ∧ s' = s.withPlane (·.file b) := by
  obtain ⟨t, s₁, h₁, h⟩ := bind_eq_ok.mp h
  obtain ⟨rfl, rfl⟩ := get_eq_ok.mp h₁
  cases hp : s.planes with
  | nil =>
    simp only [hp] at h
    obtain ⟨rfl, rfl⟩ := pure_eq_ok.mp h
    exact .inl ⟨rfl, rfl, nofun⟩
  | cons p rest =>
    simp only [hp] at h
    split at h
    · next hneeded =>
      obtain ⟨_, s₁, h₁, h⟩ := bind_eq_ok.mp h
      obtain rfl := modifyPlane_eq_ok.mp h₁
      obtain ⟨rfl, rfl⟩ := pure_eq_ok.mp h
      exact .inr ⟨p, rest, rfl, hneeded.1, by simpa using hneeded.2, rfl, rfl⟩
    · next hnot =>
      obtain ⟨rfl, rfl⟩ := pure_eq_ok.mp h
      refine .inl ⟨rfl, rfl, fun p' hp' => ?_⟩
      obtain rfl := Option.some.inj hp'
      by_cases hb : b.home = level
      · exact .inl hb
      · refine .inr ?_
        by_contra hbacked
        exact hnot ⟨hb, by simpa using hbacked⟩

/-- A container settles one plane below if it was at home on the closing one. -/
theorem settle_eq_ok {id : ContainerId} (h : settle level id s = .ok (u, s')) :
    (s.container? id = none ∧ s' = s) ∨
      ∃ c, s.container? id = some c ∧
        s' = (s.withContainer id
          (if c.home = level then { c with home := level - 1 } else c)).withPlane
          (·.adopt id) := by
  obtain ⟨t, s₁, h₁, h⟩ := bind_eq_ok.mp h
  obtain ⟨rfl, rfl⟩ := get_eq_ok.mp h₁
  split at h
  · obtain ⟨_, s₂, h₂, h⟩ := bind_eq_ok.mp h
    obtain ⟨c, hc, rfl⟩ := modifyContainer_eq_ok.mp h₂
    exact .inr ⟨c, hc, modifyPlane_eq_ok.mp h⟩
  · next hnot =>
    obtain ⟨-, rfl⟩ := pure_eq_ok.mp h
    refine .inl ⟨?_, rfl⟩
    cases hc : s.container? id with
    | none => rfl
    | some c =>
      refine absurd ?_ hnot
      show (s.container? id).isSome = true
      rw [hc]
      rfl

/-- A saved value goes to the plane below, or it is given up. -/
theorem resave_eq_ok {ref : VariableRef} {v : Value} {out : List Value}
    (h : resave ref v s = .ok (out, s')) :
    (out = [v] ∧ s' = s ∧ ∀ p, s.planes.head? = some p → p.savedVars.contains ref = true) ∨
      ∃ p rest, s.planes = p :: rest ∧ p.savedVars.contains ref = false ∧ out = [] ∧
        s' = s.withPlane fun p => { p with savedVars := p.savedVars.insert ref v } := by
  obtain ⟨t, s₁, h₁, h⟩ := bind_eq_ok.mp h
  obtain ⟨rfl, rfl⟩ := get_eq_ok.mp h₁
  cases hp : s.planes with
  | nil =>
    simp only [hp] at h
    obtain ⟨rfl, rfl⟩ := pure_eq_ok.mp h
    exact .inl ⟨rfl, rfl, nofun⟩
  | cons p rest =>
    simp only [hp] at h
    split at h
    · next hsaved =>
      obtain ⟨rfl, rfl⟩ := pure_eq_ok.mp h
      exact .inl ⟨rfl, rfl, fun p' hp' => Option.some.inj hp' ▸ hsaved⟩
    · next hnew =>
      obtain ⟨_, s₁, h₁, h⟩ := bind_eq_ok.mp h
      obtain rfl := modifyPlane_eq_ok.mp h₁
      obtain ⟨rfl, rfl⟩ := pure_eq_ok.mp h
      exact .inr ⟨p, rest, rfl, Bool.eq_false_iff.mpr hnew, rfl, rfl⟩

/-- A plane is folded down in four parts, and what they give up is released at the end. -/
theorem foldDown_eq_ok {p : Plane} (h : foldDown level p s = .ok (u, s')) :
    ∃ backups saved s₁ s₂ s₃ s₄,
      p.ledger.reverse.mapM (refile (level - 1)) s = .ok (backups, s₁) ∧
      p.census.keys.forM (settle level) s₁ = .ok (PUnit.unit, s₂) ∧
      (p.savedVars.toList.mapM fun (ref, v) => resave ref v : StoreM (List (List Value))) s₂ =
        .ok (saved, s₃) ∧
      (p.patches.toList.forM fun (call, patch) => journal call patch : StoreM PUnit) s₃ =
        .ok (PUnit.unit, s₄) ∧
      releaseAll (backups.flatten ++ saved.flatten) s₄ = .ok (u, s') := by
  obtain ⟨backups, s₁, h₁, h⟩ := bind_eq_ok.mp h
  obtain ⟨_, s₂, h₂, h⟩ := bind_eq_ok.mp h
  obtain ⟨saved, s₃, h₃, h⟩ := bind_eq_ok.mp h
  obtain ⟨_, s₄, h₄, h⟩ := bind_eq_ok.mp h
  exact ⟨backups, saved, s₁, s₂, s₃, s₄, h₁, h₂, h₃, h₄, h⟩

/-! ## Planes that are undone -/

/--
A call that came is taken out, one that went is put back, and one that was replaced is as before.
-/
theorem unwind_eq_ok {call : CallRef} {patch : CallPatch} (h : unwind call patch s = .ok (u, s')) :
    (patch = .added ∧ ∃ c, s.call? call = some c ∧
      relinquish call.dataspace [c.payload]
        (s.withCallouts call.dataspace (·.erase call.handle)) = .ok (u, s')) ∨
    (∃ old d, patch = .removed old ∧ s.dataspace? call.dataspace = some d ∧
      addImport call.dataspace old.payload
        (s.withCallouts call.dataspace (·.insert call.handle old)) = .ok (u, s')) ∨
    ∃ old new s₁, patch = .replaced old ∧ s.call? call = some new ∧
      addImport call.dataspace old.payload
        (s.withCallouts call.dataspace (·.insert call.handle old)) = .ok ((), s₁) ∧
      relinquish call.dataspace [new.payload] s₁ = .ok (u, s') := by
  obtain ⟨t, s₁, h₁, h⟩ := bind_eq_ok.mp h
  obtain ⟨rfl, rfl⟩ := get_eq_ok.mp h₁
  cases hd : s.dataspace? call.dataspace with
  | none =>
    simp only [hd] at h
    exact absurd h fault_ne_ok
  | some d =>
    simp only [hd] at h
    have hcall := call?_of_dataspace hd
    cases patch with
    | added =>
      cases hc : d.callouts[call.handle]? with
      | none =>
        simp only [hc] at h
        exact absurd h fault_ne_ok
      | some added =>
        simp only [hc] at h
        obtain ⟨_, s₁, h₁, h⟩ := bind_eq_ok.mp h
        obtain rfl := modifyCallouts_eq_ok.mp h₁
        exact .inl ⟨rfl, added, hcall.trans hc, h⟩
    | removed old =>
      -- Whether the callout is still there does not matter to a patch that puts it back.
      have h : (do
          modifyCallouts call.dataspace (·.insert call.handle old)
          addImport call.dataspace old.payload) s = .ok (u, s') := by
        cases hc : d.callouts[call.handle]? <;> simpa only [hc] using h
      obtain ⟨_, s₁, h₁, h⟩ := bind_eq_ok.mp h
      obtain rfl := modifyCallouts_eq_ok.mp h₁
      exact .inr (.inl ⟨old, d, rfl, rfl, h⟩)
    | replaced old =>
      cases hc : d.callouts[call.handle]? with
      | none =>
        simp only [hc] at h
        exact absurd h fault_ne_ok
      | some new =>
        simp only [hc] at h
        obtain ⟨_, s₁, h₁, h⟩ := bind_eq_ok.mp h
        obtain rfl := modifyCallouts_eq_ok.mp h₁
        obtain ⟨_, s₂, h₂, h⟩ := bind_eq_ok.mp h
        exact .inr (.inr ⟨old, new, s₂, rfl, hcall.trans hc, h₂, h⟩)

/-- A plane is undone in four parts: containers, variables, calls and homes. -/
theorem undo_eq_ok {p : Plane} (h : undo level p s = .ok (u, s')) :
    ∃ s₁ s₂ s₃, p.ledger.forM restoreBackup s = .ok (PUnit.unit, s₁) ∧
      (p.savedVars.toList.forM fun (ref, saved) => restoreVariable ref saved : StoreM PUnit) s₁ =
        .ok (PUnit.unit, s₂) ∧
      (p.patches.toList.forM fun (call, patch) => unwind call patch : StoreM PUnit) s₂ =
        .ok (PUnit.unit, s₃) ∧
      ((p.census.toList.filter (·.2 = .fresh)).map Prod.fst).forM (settle level) s₃ =
        .ok (u, s') := by
  obtain ⟨_, s₁, h₁, h⟩ := bind_eq_ok.mp h
  obtain ⟨_, s₂, h₂, h⟩ := bind_eq_ok.mp h
  obtain ⟨_, s₃, h₃, h⟩ := bind_eq_ok.mp h
  refine ⟨s₁, s₂, s₃, h₁, h₂, h₃, ?_⟩
  rw [List.forM_eq_forM, List.forM_map]
  exact h

end Store

end PlaneStore
