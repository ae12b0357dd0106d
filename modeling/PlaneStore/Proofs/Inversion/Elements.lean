import PlaneStore.Proofs.Inversion.Functions

/-!
# What indexing did

Elements of arrays and records are read and overwritten by index. A key that stands for no index is
refused; what was done to bring the elements up to date stays done.
-/

namespace PlaneStore.Sequence

open Store StoreM

variable {s s' : Store} {id : ContainerId} {shape : Shape} {key : Value}

theorem requireIndex_eq_ok {r : Except Refusal Nat} (h : requireIndex id key s = .ok (r, s')) :
    s = s' ∧ match key with
      | .int n => ∃ c, s.container? id = some c ∧
          r = if 0 ≤ n.toInt ∧ n.toInt < c.size then .ok n.toInt.toNat
            else .error (.outOfRange n.toInt c.size)
      | _ => r = .error (.expected "int" key) := by
  cases key with
  | int n =>
    obtain ⟨size, s₁, h₁, h⟩ := ClientM.lift_bind_eq_ok.mp h
    obtain ⟨hc, rfl⟩ := container_eq_ok.mp h₁
    split at h
    · next hin =>
      obtain ⟨rfl, rfl⟩ := ClientM.pure_eq_ok.mp h
      exact ⟨rfl, _, hc, (if_pos hin).symm⟩
    · next hout =>
      obtain ⟨rfl, rfl⟩ := ClientM.refuse_eq_ok.mp h
      exact ⟨rfl, _, hc, (if_neg hout).symm⟩
  | _ =>
    obtain ⟨rfl, rfl⟩ := ClientM.refuse_eq_ok.mp h
    exact ⟨rfl, rfl⟩

/-- A key that stands for an index is that number. -/
theorem exists_of_requireIndex {i : Nat} (h : requireIndex id key s = .ok (.ok i, s')) :
    ∃ n c, key = .int n ∧ s.container? id = some c ∧ (0 ≤ n.toInt ∧ n.toInt < c.size) ∧
      i = n.toInt.toNat := by
  obtain ⟨-, hindex⟩ := requireIndex_eq_ok h
  cases key with
  | int n =>
    obtain ⟨c, hc, hr⟩ := hindex
    split at hr
    · next hin => exact ⟨n, c, rfl, hc, hin, Except.ok.inj hr⟩
    · cases hr
  | _ => cases hindex

theorem element_eq_ok {i : Nat} {v : Value} (h : element id i s = .ok (v, s')) :
    s = s' ∧ ∃ c values, s.container? id = some c ∧ c.elements = .resident values ∧
      values[i]? = some v := by
  obtain ⟨values, s₁, h₁, h⟩ := bind_eq_ok.mp h
  obtain ⟨⟨c, hc, he⟩, rfl⟩ := residentValues_eq_ok.mp h₁
  cases hi : values[i]? with
  | none =>
    simp only [hi] at h
    exact absurd h fault_ne_ok
  | some w =>
    simp only [hi] at h
    obtain ⟨rfl, rfl⟩ := pure_eq_ok.mp h
    exact ⟨rfl, c, values, hc, he, hi⟩

/-- Of anything but mappings, the elements are read. -/
theorem indexGet_of_ne_mapping (hs : shape ≠ .mapping) :
    indexGet (.container shape id) key = (do
      scrubElements id
      let value ← element id (← requireIndex id key)
      retain value
      return value) := by
  cases shape with
  | mapping => exact absurd rfl hs
  | array | record => rfl

/-- Element access scrubs, asks for the index and retains the element. -/
theorem indexGet_eq_ok {r : Except Refusal Value} (hs : shape ≠ .mapping)
    (h : indexGet (.container shape id) key s = .ok (r, s')) :
    ∃ t, scrubElements id s = .ok ((), t) ∧
      ((∃ e, requireIndex id key t = .ok (.error e, t) ∧ r = .error e ∧ s' = t) ∨
        ∃ i w, requireIndex id key t = .ok (.ok i, t) ∧ element id i t = .ok (w, t) ∧
          r = .ok w ∧ retain w t = .ok ((), s')) := by
  rw [indexGet_of_ne_mapping hs] at h
  obtain ⟨_, t, h₁, h⟩ := ClientM.lift_bind_eq_ok.mp h
  refine ⟨t, h₁, ?_⟩
  rcases ClientM.bind_eq_ok.mp h with ⟨e, h₂, rfl⟩ | ⟨i, s₁, h₂, h⟩
  · obtain ⟨rfl, -⟩ := requireIndex_eq_ok h₂
    exact .inl ⟨e, h₂, rfl, rfl⟩
  obtain ⟨rfl, -⟩ := requireIndex_eq_ok h₂
  obtain ⟨w, s₁, h₃, h⟩ := ClientM.lift_bind_eq_ok.mp h
  obtain ⟨rfl, -⟩ := element_eq_ok h₃
  obtain ⟨_, s₁, h₄, h⟩ := ClientM.lift_bind_eq_ok.mp h
  obtain ⟨rfl, rfl⟩ := ClientM.pure_eq_ok.mp h
  exact .inr ⟨i, w, h₂, h₃, rfl, h₄⟩

/-- Of anything but mappings, the elements are overwritten. -/
theorem assign_of_ne_mapping {value : Value} (hs : shape ≠ .mapping) :
    assign (.container shape id) key value = (do
      faultIn id
      let i ← requireIndex id key
      makeWritable id
      put id i value) := by
  cases shape with
  | mapping => exact absurd rfl hs
  | array | record => rfl

/-- An assignment asks for the index, readies the container and puts the value. -/
theorem assign_eq_ok {value : Value} {r : Except Refusal Unit} (hs : shape ≠ .mapping)
    (h : assign (.container shape id) key value s = .ok (r, s')) :
    ∃ t, faultIn id s = .ok ((), t) ∧
      ((∃ e, requireIndex id key t = .ok (.error e, t) ∧ r = .error e ∧ s' = t) ∨
        ∃ i s₁, requireIndex id key t = .ok (.ok i, t) ∧ makeWritable id t = .ok ((), s₁) ∧
          r = .ok () ∧ put id i value s₁ = .ok ((), s')) := by
  rw [assign_of_ne_mapping hs] at h
  obtain ⟨_, t, h₁, h⟩ := ClientM.lift_bind_eq_ok.mp h
  refine ⟨t, h₁, ?_⟩
  rcases ClientM.bind_eq_ok.mp h with ⟨e, h₂, rfl⟩ | ⟨i, s₁, h₂, h⟩
  · obtain ⟨rfl, -⟩ := requireIndex_eq_ok h₂
    exact .inl ⟨e, h₂, rfl, rfl⟩
  obtain ⟨rfl, -⟩ := requireIndex_eq_ok h₂
  obtain ⟨_, s₁, h₃, h⟩ := ClientM.lift_bind_eq_ok.mp h
  obtain ⟨_, rfl, h₄⟩ := ClientM.lift_eq_ok.mp h
  exact .inr ⟨i, s₁, h₂, h₃, rfl, h₄⟩

end PlaneStore.Sequence
