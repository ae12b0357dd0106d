import PlaneStore.Proofs.Accounts.StepInvariants

/-!
# Walks: references and imports

Taking references, giving them up and counting them as imports as chains of elementary steps. What
else is in flight, charged or left of a closing plane stays as it is.
-/

namespace PlaneStore

open Store

namespace Refs

theorem cons_add (v : Value) (vs : List Value) (F : Refs) :
    (↑(v :: vs) : Refs) + F = {v} + (↑vs + F) := by
  rw [← Multiset.cons_coe, ← Multiset.singleton_add, add_assoc]

theorem cons_add_left (v : Value) (vs : List Value) (F : Refs) :
    (↑(v :: vs) : Refs) + F = ↑vs + ({v} + F) := by
  rw [cons_add, add_left_comm]

end Refs

section

variable {E : Effect → Prop} {s s' : Store} {F : Refs} {C : Charges} {q : Option Closing}

/-! ## Taking references -/

theorem Store.Wanes.fits {v : Value} (h : Wanes s s') (hf : s.heap.Fits v) : s'.heap.Fits v := by
  refine hf.mono fun i c' hc' => ?_
  obtain ⟨c, hc, hcore⟩ := h.container ⟨i⟩ c' hc'
  exact ⟨c, hc, (Container.kind_of_core hcore).symm⟩

/-- To take a reference puts it in flight. -/
theorem walk_retain {v : Value} {u : Unit} (still : E .still) (hv : s.heap.Fits v)
    (h : retain v s = .ok (u, s')) : Path E ⟨s, F, C, q⟩ ⟨s', {v} + F, C, q⟩ :=
  .single still (.traffic (.retain hv h))

theorem walk_retains {vs : List Value} {u : PUnit} (still : E .still)
    (hvs : ∀ v ∈ vs, s.heap.Fits v) (h : vs.forM retain s = .ok (u, s')) :
    Path E ⟨s, F, C, q⟩ ⟨s', ↑vs + F, C, q⟩ := by
  induction vs generalizing s F with
  | nil =>
    obtain rfl := StoreM.forM_nil_eq_ok.mp h
    rw [Multiset.coe_nil, zero_add]
    exact .refl _
  | cons v vs ih =>
    obtain ⟨_, s₁, h₁, h⟩ := StoreM.forM_cons_eq_ok.mp h
    have hw := (retain_eq_ok h₁).wanes
    rw [Refs.cons_add_left]
    refine (walk_retain still (hvs v List.mem_cons_self) h₁).trans (ih (fun w hw' => ?_) h)
    exact hw.fits (hvs w (List.mem_cons_of_mem _ hw'))

/-! ## Imports -/

/-- Values in flight are charged to a dataspace. -/
theorem walk_addImports {ds : DataspaceId} {vs : List Value} {u : PUnit} (still : E .still)
    (h : vs.forM (addImport ds) s = .ok (u, s')) :
    Path E ⟨s, ↑vs + F, C, q⟩ ⟨s', F, .of ds vs + C, q⟩ := by
  induction vs generalizing s C with
  | nil =>
    obtain rfl := StoreM.forM_nil_eq_ok.mp h
    rw [Multiset.coe_nil, zero_add, Charges.of_nil, zero_add]
    exact .refl _
  | cons v vs ih =>
    obtain ⟨_, s₁, h₁, h⟩ := StoreM.forM_cons_eq_ok.mp h
    rw [Refs.cons_add, Charges.of_cons, add_comm (Charges.of ds [v]), add_assoc]
    exact (Path.single still (.traffic (.charge h₁))).trans (ih h)

theorem walk_dropImports {ds : DataspaceId} {vs : List Value} {u : PUnit} (still : E .still)
    (h : vs.forM (dropImport ds) s = .ok (u, s')) :
    Path E ⟨s, F, .of ds vs + C, q⟩ ⟨s', ↑vs + F, C, q⟩ := by
  induction vs generalizing s F with
  | nil =>
    obtain rfl := StoreM.forM_nil_eq_ok.mp h
    rw [Multiset.coe_nil, zero_add, Charges.of_nil, zero_add]
    exact .refl _
  | cons v vs ih =>
    obtain ⟨_, s₁, h₁, h⟩ := StoreM.forM_cons_eq_ok.mp h
    rw [Refs.cons_add_left, Charges.of_cons, add_assoc]
    exact (Path.single still (.traffic (.discharge h₁))).trans (ih h)

/-- What is acquired is charged, not in flight. -/
theorem walk_acquire {ds : DataspaceId} {v : Value} {u : Unit} (still : E .still)
    (hv : s.heap.Fits v) (h : acquire ds v s = .ok (u, s')) :
    Path E ⟨s, F, C, q⟩ ⟨s', F, .of ds [v] + C, q⟩ := by
  obtain ⟨_, s₁, h₁, h₂⟩ := StoreM.bind_eq_ok.mp h
  exact (walk_retain still hv h₁).trans (.single still (.traffic (.charge h₂)))

/-- What a client hands in is charged as readers see it, and nothing of it is destroyed by that. -/
theorem walk_charge {ds : DataspaceId} {v w : Value} {u : Unit} (ha : Account.Kept ⟨s, F, C, q⟩)
    (hv : F.Covers v) (hw : s.scrubbed v = .ok w) (h : acquire ds w s = .ok (u, s')) :
    Path (· = .still) ⟨s, F, C, q⟩ ⟨s', F, .of ds [w] + C, q⟩ ∧ s'.Alive w := by
  have hwF := hv.scrubbed hw
  have hpath : Path (· = .still) ⟨s, F, C, q⟩ ⟨s', F, .of ds [w] + C, q⟩ :=
    walk_acquire rfl (ha.fits_of_covers hwF) h
  exact ⟨hpath, hpath.alive ha Effect.calm_of_still hwF.of_flight (alive_of_scrubbed hw)⟩

/-! ## Giving references up -/

theorem relinquish_nil {ds : DataspaceId} {u : Unit} (h : relinquish ds [] s = .ok (u, s')) :
    s' = s := by
  obtain ⟨_, s₁, h₁, h⟩ := StoreM.bind_eq_ok.mp h
  obtain rfl := StoreM.forM_nil_eq_ok.mp h₁
  cases drain_eq_ok h with
  | done => rfl

/-- A cascade of releases spends the references in flight. -/
theorem walk_drain {work : List Value} {u : Unit} (still : E .still)
    (h : drain work s = .ok (u, s')) : Path E ⟨s, ↑work + F, C, q⟩ ⟨s', F, C, q⟩ := by
  replace h := drain_eq_ok h
  induction h with
  | done =>
    rw [Multiset.coe_nil, zero_add]
    exact .refl _
  | drop hd _ ih =>
    rw [← Multiset.coe_add, Multiset.coe_reverse, add_assoc] at ih
    rw [Refs.cons_add]
    exact (Path.single still (.traffic (.drop hd))).trans ih

theorem walk_releaseAll {vs : List Value} {u : Unit} (still : E .still)
    (h : releaseAll vs s = .ok (u, s')) : Path E ⟨s, ↑vs + F, C, q⟩ ⟨s', F, C, q⟩ := by
  have hd := walk_drain (F := F) (C := C) (q := q) still h
  rwa [Multiset.coe_reverse] at hd

theorem walk_release {v : Value} {u : Unit} (still : E .still)
    (h : release v s = .ok (u, s')) : Path E ⟨s, {v} + F, C, q⟩ ⟨s', F, C, q⟩ := by
  rw [release_eq] at h
  exact walk_releaseAll still h

/-- To relinquish charged references drops the imports and spends them. -/
theorem walk_relinquish {ds : DataspaceId} {vs : List Value} {u : Unit} (still : E .still)
    (h : relinquish ds vs s = .ok (u, s')) :
    Path E ⟨s, F, .of ds vs + C, q⟩ ⟨s', F, C, q⟩ := by
  obtain ⟨_, s₁, h₁, h₂⟩ := StoreM.bind_eq_ok.mp h
  exact (walk_dropImports still h₁).trans (walk_releaseAll still h₂)

end

end PlaneStore
