import PlaneStore.Proofs.Inversion.Functions

/-!
# What evictions did

An eviction hands the elements of one container to the swap. The eviction of a dataspace has two
stages: exclusive imports change hands, round by round, and then the sweep list is walked, with the
next container looked up before the one at hand is evicted.
-/

namespace PlaneStore

open Store StoreM

namespace Store

variable {s s' : Store} {id : ContainerId} {ds : DataspaceId} {u : Unit}

/-! ## Single containers -/

/-- The store with the elements of a container handed to the swap. -/
def parked (s : Store) (id : ContainerId) (c : Container) (values : Array Value) : Store :=
  ({ s with swap := (s.swap.store values).2 }).withContainer id
    { c with
      elements := .evicted (s.swap.store values).1 values.size, savedSize := some c.size
      sizeReported := false }

/-- A container that is evicted was evicted before, or its elements go once they are merged. -/
theorem evictOne_eq_ok {b : Bool} (h : evictOne id s = .ok (b, s')) :
    ∃ c, s.container? id = some c ∧ b = c.isResident ∧
      (b = false ∧ s' = s ∨
        b = true ∧ ∃ t d values,
          when c.overlay.isSome (Mapping.mergeOverlay id false) s = .ok ((), t) ∧
            t.container? id = some d ∧ d.elements = .resident values ∧
              s' = t.parked id d values) := by
  obtain ⟨c, s₁, h₁, h⟩ := bind_eq_ok.mp h
  obtain ⟨hc, rfl⟩ := container_eq_ok.mp h₁
  refine ⟨c, hc, ?_⟩
  split at h
  · next hevicted =>
    obtain ⟨rfl, rfl⟩ := pure_eq_ok.mp h
    have hres : c.isResident = false := by simpa using hevicted
    exact ⟨hres.symm, .inl ⟨rfl, rfl⟩⟩
  next hresident =>
  obtain ⟨_, t, hmerge, h⟩ := bind_eq_ok.mp h
  obtain ⟨d, s₂, h₂, h⟩ := bind_eq_ok.mp h
  obtain ⟨hd, rfl⟩ := container_eq_ok.mp h₂
  obtain ⟨values, s₂, h₂, h⟩ := bind_eq_ok.mp h
  obtain ⟨⟨d', hd', he⟩, rfl⟩ := residentValues_eq_ok.mp h₂
  obtain rfl := Option.some.inj (hd.symm.trans hd')
  obtain ⟨ticket, s₂, h₂, h⟩ := bind_eq_ok.mp h
  obtain ⟨rfl, rfl⟩ := Prod.mk.inj (modifyGet_eq_ok.mp h₂)
  obtain ⟨_, s₃, h₃, h⟩ := bind_eq_ok.mp h
  obtain ⟨rfl, rfl⟩ := pure_eq_ok.mp h
  obtain ⟨d', hd', rfl⟩ := modifyContainer_eq_ok.mp h₃
  obtain rfl := Option.some.inj (hd.symm.trans hd')
  have hres : c.isResident = true := by simpa using hresident
  exact ⟨hres.symm, .inr ⟨rfl, _, _, _, hmerge, hd, he, rfl⟩⟩

theorem requireRoot_eq_ok {r : Except Refusal Unit} (h : requireRoot s = .ok (r, s')) :
    s = s' ∧ (r = .ok () → s.planes = []) := by
  have h := ClientM.get_bind_eq_ok.mp h
  split at h
  · next hp =>
    obtain ⟨rfl, rfl⟩ := ClientM.pure_eq_ok.mp h
    exact ⟨rfl, fun _ => List.isEmpty_iff.mp hp⟩
  · obtain ⟨rfl, rfl⟩ := ClientM.refuse_eq_ok.mp h
    exact ⟨rfl, nofun⟩

theorem requireRoot_bind_eq_ok {α : Type} {g : Unit → ClientM α} {r : Except Refusal α}
    (h : (requireRoot >>= g) s = .ok (r, s')) :
    (s.planes ≠ [] ∧ (∃ e, r = .error e) ∧ s = s') ∨ s.planes = [] ∧ g () s = .ok (r, s') := by
  rcases ClientM.bind_eq_ok.mp h with ⟨e, h₁, rfl⟩ | ⟨_, s₁, h₁, h⟩
  · refine .inl ⟨fun hp => ?_, ⟨e, rfl⟩, (requireRoot_eq_ok h₁).1⟩
    have hroot : requireRoot s = .ok (.ok (), s) :=
      ClientM.get_bind_eq_ok.mpr (by rw [hp, List.isEmpty_nil, if_pos rfl]; rfl)
    cases hroot.symm.trans h₁
  · obtain ⟨rfl, hp⟩ := requireRoot_eq_ok h₁
    exact .inr ⟨hp rfl, h⟩

/-- The eviction of a value is refused, or it evicts the container of the value. -/
theorem evictContainer_eq_ok {v : Value} {r : Except Refusal Bool}
    (h : evictContainer v s = .ok (r, s')) :
    (∃ e, r = .error e) ∧ s = s' ∨
      ∃ shape id b, v = .container shape id ∧ s.planes = [] ∧ r = .ok b ∧
        evictOne id s = .ok (b, s') := by
  rcases requireContainer_bind_eq_ok h with hrefused | ⟨shape, id, hv, h⟩
  · exact .inl hrefused
  rcases requireRoot_bind_eq_ok h with ⟨-, hrefused⟩ | ⟨hp, h⟩
  · exact .inl hrefused
  obtain ⟨b, rfl, h₁⟩ := ClientM.lift_eq_ok.mp h
  exact .inr ⟨shape, id, b, hv, hp, rfl, h₁⟩

/-! ## Dataspaces -/

/--
What a container that changes hands holds is given back by one dataspace and taken by another.
-/
theorem transfer_eq_ok (h : transfer ds id s = .ok (u, s')) :
    ∃ t c values s₁ s₂ s₃, faultIn id s = .ok ((), t) ∧ t.container? id = some c ∧
      c.elements = .resident values ∧
      (values.toList ++ c.overlayValues).forM (dropImport c.owner) t = .ok (PUnit.unit, s₁) ∧
      unlink id s₁ = .ok ((), s₂) ∧ link ds id s₂ = .ok ((), s₃) ∧
      (values.toList ++ c.overlayValues).forM (addImport ds)
        (s₃.withDataspace ds fun d => { d with imports := d.imports.erase id }) = .ok (u, s') := by
  obtain ⟨_, t, h₁, h⟩ := bind_eq_ok.mp h
  obtain ⟨c, s₁, h₂, h⟩ := bind_eq_ok.mp h
  obtain ⟨hc, rfl⟩ := container_eq_ok.mp h₂
  obtain ⟨values, s₁, h₂, h⟩ := bind_eq_ok.mp h
  obtain ⟨hvalues, rfl⟩ := lift_eq_ok.mp h₂
  obtain ⟨_, s₁, h₂, h⟩ := bind_eq_ok.mp h
  obtain ⟨_, s₂, h₃, h⟩ := bind_eq_ok.mp h
  obtain ⟨_, s₃, h₄, h⟩ := bind_eq_ok.mp h
  obtain ⟨_, s₄, h₅, h⟩ := bind_eq_ok.mp h
  obtain rfl := modifyDataspace_eq_ok.mp h₅
  exact ⟨t, c, values, s₁, s₂, s₃, h₁, hc, values_eq_ok.mp hvalues, h₂, h₃, h₄, h⟩

/--
The rounds end when nothing is exclusive any more; until then everything that is changes hands.
-/
theorem transferExclusive_succ_eq_ok {n m : Nat}
    (h : transferExclusive ds (n + 1) s = .ok (m, s')) :
    ∃ ids t, exclusiveImports ds s = .ok (ids, t) ∧ ((ids = [] ∧ m = 0 ∧ s' = t) ∨
      (ids ≠ [] ∧ ∃ s₁ k, ids.forM (transfer ds) t = .ok (PUnit.unit, s₁) ∧
        transferExclusive ds n s₁ = .ok (k, s') ∧ m = ids.length + k)) := by
  obtain ⟨ids, t, h₁, h⟩ := bind_eq_ok.mp h
  refine ⟨ids, t, h₁, ?_⟩
  split at h
  · next hempty =>
    obtain ⟨rfl, rfl⟩ := pure_eq_ok.mp h
    exact .inl ⟨List.isEmpty_iff.mp hempty, rfl, rfl⟩
  · next hfull =>
    obtain ⟨_, s₁, h₁, h⟩ := bind_eq_ok.mp h
    obtain ⟨k, s₂, h₂, h⟩ := bind_eq_ok.mp h
    obtain ⟨rfl, rfl⟩ := pure_eq_ok.mp h
    exact .inr ⟨fun he => hfull (List.isEmpty_iff.mpr he), s₁, k, h₁, h₂, rfl⟩

/-- The walk evicts a container and goes on with the link that it had before. -/
theorem evictList_some_eq_ok {n m : Nat} (h : evictList (n + 1) (some id) s = .ok (m, s')) :
    ∃ c b s₁ k, s.container? id = some c ∧ evictOne id s = .ok (b, s₁) ∧
      evictList n c.next s₁ = .ok (k, s') ∧ m = (if b then 1 else 0) + k := by
  obtain ⟨next, s₁, h₁, h⟩ := bind_eq_ok.mp h
  obtain ⟨hc, rfl⟩ := container_eq_ok.mp h₁
  obtain ⟨b, s₁, h₁, h⟩ := bind_eq_ok.mp h
  obtain ⟨k, s₂, h₂, h⟩ := bind_eq_ok.mp h
  obtain ⟨rfl, rfl⟩ := pure_eq_ok.mp h
  exact ⟨_, b, s₁, k, hc, h₁, h₂, rfl⟩

/-- The value of a container that is imported. -/
def importedValue (s : Store) (p : ContainerId × Nat) : Option Value :=
  (s.container? p.1).map fun c => .ofContainer c.kind p.1

/-- The containers that a dataspace imports, as values. -/
def imported (s : Store) (ds : DataspaceId) : List Value :=
  (s.importsOf ds).filterMap s.importedValue

theorem mapM_importKind_eq_ok {ps : List (ContainerId × Nat)} {r : Except Refusal (List Value)}
    (h : (ps.mapM fun (id, _) => do return Value.ofContainer (← container id).kind id :
      ClientM (List Value)) s = .ok (r, s')) :
    s = s' ∧ r = .ok (ps.filterMap s.importedValue) := by
  induction ps generalizing r s' with
  | nil =>
    rw [List.mapM_nil] at h
    obtain ⟨rfl, rfl⟩ := ClientM.pure_eq_ok.mp h
    exact ⟨rfl, rfl⟩
  | cons p ps ih =>
    rw [List.mapM_cons] at h
    have hfirst : ∀ {r s'}, (do return Value.ofContainer (← container p.1).kind p.1 :
        ClientM Value) s = .ok (r, s') → s = s' ∧ ∃ v, r = .ok v ∧ s.importedValue p = some v := by
      intro r s' h
      obtain ⟨c, s₁, h₁, h⟩ := ClientM.lift_bind_eq_ok.mp h
      obtain ⟨hc, rfl⟩ := container_eq_ok.mp h₁
      obtain ⟨rfl, rfl⟩ := ClientM.pure_eq_ok.mp h
      exact ⟨rfl, _, rfl, by rw [importedValue, hc, Option.map_some]⟩
    rcases ClientM.bind_eq_ok.mp h with ⟨e, h₁, -⟩ | ⟨v, s₁, h₁, h⟩
    · obtain ⟨-, v, hv, -⟩ := hfirst h₁
      cases hv
    obtain ⟨rfl, v', hv', hvalue⟩ := hfirst h₁
    obtain rfl := Except.ok.inj hv'
    rcases ClientM.bind_eq_ok.mp h with ⟨e, h₂, -⟩ | ⟨vs, s₂, h₂, h⟩
    · cases (ih h₂).2
    obtain ⟨rfl, hvs⟩ := ih h₂
    obtain rfl := Except.ok.inj hvs
    obtain ⟨rfl, rfl⟩ := ClientM.pure_eq_ok.mp h
    exact ⟨rfl, by rw [List.filterMap_cons_some hvalue]⟩

/-- An eviction transfers first, walks the sweep list then, and reports what is still shared. -/
theorem evictDataspace_eq_ok {r : Except Refusal EvictionReport}
    (h : evictDataspace ds s = .ok (r, s')) :
    ((s.dataspace? ds = none ∨ s.planes ≠ []) ∧ (∃ e, r = .error e) ∧ s = s') ∨
      ∃ d rehomed evicted s₁, s.dataspace? ds = some d ∧ s.planes = [] ∧
        r = .ok { evicted, rehomed, shared := s₁.imported ds } ∧
        transferExclusive ds (s.heap.containers.cells.size + 1) s = .ok (rehomed, s₁) ∧
        evictList s.heap.containers.cells.size ((s₁.dataspace? ds).bind Dataspace.head) s₁ =
          .ok (evicted, s') := by
  rcases requireDataspace_bind_eq_ok h with ⟨hd, rfl, rfl⟩ | ⟨d, hd, h⟩
  · exact .inl ⟨.inl hd, ⟨_, rfl⟩, rfl⟩
  rcases requireRoot_bind_eq_ok h with ⟨hp, hrefused⟩ | ⟨hp, h⟩
  · exact .inl ⟨.inr hp, hrefused⟩
  have h := ClientM.get_bind_eq_ok.mp h
  obtain ⟨rehomed, s₁, h₁, h⟩ := ClientM.lift_bind_eq_ok.mp h
  have h := ClientM.get_bind_eq_ok.mp h
  rcases ClientM.bind_eq_ok.mp h with ⟨e, h₂, -⟩ | ⟨shared, s₂, h₂, h⟩
  · cases (mapM_importKind_eq_ok h₂).2
  obtain ⟨rfl, hshared⟩ := mapM_importKind_eq_ok h₂
  obtain rfl := Except.ok.inj hshared
  have h := ClientM.get_bind_eq_ok.mp h
  obtain ⟨evicted, s₂, h₃, h⟩ := ClientM.lift_bind_eq_ok.mp h
  obtain ⟨rfl, rfl⟩ := ClientM.pure_eq_ok.mp h
  exact .inr ⟨d, rehomed, evicted, s₁, hd, hp, rfl, h₁, h₃⟩

/--
Outside of regions an eviction is not refused: containers change hands, then they are evicted.
-/
theorem evictDataspace_stages {r : Except Refusal EvictionReport} {d : Dataspace}
    (hd : s.dataspace? ds = some d) (hp : s.planes = []) (h : evictDataspace ds s = .ok (r, s')) :
    ∃ rehomed evicted s₁, r = .ok { evicted, rehomed, shared := s₁.imported ds } ∧
      transferExclusive ds (s.heap.containers.cells.size + 1) s = .ok (rehomed, s₁) ∧
      evictList s.heap.containers.cells.size ((s₁.dataspace? ds).bind Dataspace.head) s₁ =
        .ok (evicted, s') := by
  rcases evictDataspace_eq_ok h with
    ⟨hnone | hne, -⟩ | ⟨_, rehomed, evicted, s₁, -, -, rfl, h₁, h₂⟩
  · cases hnone.symm.trans hd
  · exact absurd hp hne
  · exact ⟨rehomed, evicted, s₁, rfl, h₁, h₂⟩

end Store

end PlaneStore
