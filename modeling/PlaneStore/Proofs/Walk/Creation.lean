import PlaneStore.Proofs.Contents.LimitBounds
import PlaneStore.Proofs.Walk.Assignment
import PlaneStore.Proofs.Mapping.SelectedTables

/-!
# Walks: creation

New containers as chains of elementary steps. The values of a new container are copied, which takes
a reference to each, and charged to the owner before the container exists.
-/

namespace PlaneStore

open Store

/-- The reference that a request hands out with its answer. -/
def earned : Except Refusal Value → Refs
  | .ok v => {v}
  | .error _ => 0

section

variable {E : Effect → Prop} {s s' : Store} {F : Refs} {C : Charges} {q : Option Closing}

theorem Path.earned_error {a : Account} {e : Refusal} (h : Path E a ⟨s', F, C, q⟩) :
    Path E a ⟨s', earned (.error e) + F, C, q⟩ := by
  rw [earned, zero_add]
  exact h

/-! ## Copies -/

theorem map_seen_of_forall₂ {vs ws : List Value}
    (h : List.Forall₂ (fun v w => s.scrubbed v = .ok w) vs ws) : ws = vs.map s.seen := by
  induction h with
  | nil => rfl
  | cons hvw _ ih => rw [scrubbed_eq hvw, ih, List.map_cons]

/-- What a reader sees of a value is a value of the heap. -/
theorem Heap.Fits.seen {v : Value} (h : s.heap.Fits v) : s.heap.Fits (s.seen v) := by
  unfold Store.seen
  split
  · exact Heap.fits_of_not_counted rfl
  · exact h

theorem map_seen_of_alive {vs : List Value} (h : ∀ v ∈ vs, s.lost v = false) :
    vs.map s.seen = vs := by
  refine (List.map_congr_left fun v hv => ?_).trans (List.map_id vs)
  show (if s.lost v then Value.nil else v) = v
  rw [h v hv]
  rfl

/-- Copies are what a reader sees, with a reference taken to each. -/
theorem walk_copies {values copied : List Value} (still : E .still)
    (hfits : ∀ v ∈ values, s.heap.Fits v) (h : copies values s = .ok (copied, s')) :
    Path E ⟨s, F, C, q⟩ ⟨s', ↑copied + F, C, q⟩ ∧ copied = values.map s.seen ∧
      ∀ v ∈ copied, s.Alive v := by
  obtain ⟨seen, s₁, h₁, h⟩ := StoreM.bind_eq_ok.mp h
  obtain ⟨rfl, hseen⟩ := mapM_scrub_eq_ok h₁
  obtain ⟨_, s₂, h₂, h⟩ := StoreM.bind_eq_ok.mp h
  obtain ⟨rfl, rfl⟩ := StoreM.pure_eq_ok.mp h
  have hmap := map_seen_of_forall₂ hseen
  refine ⟨walk_retains still (fun w hw => ?_) h₂, hmap, fun w hw => ?_⟩
  · rw [hmap] at hw
    obtain ⟨v, hv, rfl⟩ := List.mem_map.mp hw
    exact (hfits v hv).seen
  · obtain ⟨v, -, hvw⟩ := Content.exists_of_forall₂ hseen hw
    exact alive_of_scrubbed hvw

/-! ## Allocation -/

/-- The values of a new mapping. -/
def Store.Solid (s : Store) (kind : Kind) (values : List Value) : Prop :=
  kind = .mapping → values.length % 2 = 0 ∧ s.heap.Table (Pair.ofFlat values)

/-- Values that stand for the same are as solid. -/
theorem Store.Solid.of_stands {kind : Kind} {values : List Value} (h : s.Solid kind values)
    (hv : ∀ v ∈ values, Stands s s' v) : s'.Solid kind values := fun hk =>
  ⟨(h hk).1, table_of_stands (h hk).2 fun _ hp => hv _ (Pair.mem_of_ofFlat hp).1⟩

/-- A path on which nothing happens leaves the room there is. -/
theorem Path.room {F F' : Refs} {C C' : Charges} {q q' : Option Closing} {n : Nat}
    (h : Path (· = .still) ⟨s, F, C, q⟩ ⟨s', F', C', q'⟩) (ha : Account.Kept ⟨s, F, C, q⟩)
    (hroom : s.Room n) : s'.Room n := by
  have hlimits : s'.limits = s.limits := h.limits ha
  refine ⟨hlimits ▸ hroom.1, hlimits ▸ Nat.lt_of_le_of_lt (h.live_le ha ?_) hroom.2⟩
  rintro e rfl id F
  exact nofun

/-- Values in flight go into a new container, which is handed out. -/
theorem walk_allocate {owner : DataspaceId} {kind : Kind} {values : List Value}
    {id : ContainerId} (still : E .still) (create : E (.create id F))
    (ha : Account.Kept ⟨s, ↑values + F, C, none⟩) (hv : ∀ v ∈ values, s.Alive v)
    (hm : s.Solid kind values) (hroom : s.Room (kind.entries values.length))
    (h : allocate owner kind values s = .ok (id, s')) :
    Path E ⟨s, ↑values + F, C, none⟩ ⟨s', {.ofContainer kind id} + F, C, none⟩ ∧
      ∃ c, s'.container? id = some c ∧ c.kind = kind ∧ c.refcount = 1 := by
  obtain ⟨s₁, s₂, s₃, h₁, h₂, h₃, rfl⟩ := allocate_eq_ok h
  obtain ⟨rfl, rfl⟩ := Prod.mk.inj (StoreM.modifyGet_eq_ok.mp h₂)
  -- The elements are charged to the owner first, and the new container takes them over.
  have hcharge := walk_addImports (E := (· = .still)) (F := F) (C := C) (q := none) rfl h₁
  have hkept := hcharge.kept ha
  have hcharged :
      ∀ v ∈ values, v ∈ (Account.mk s₁ F (.of owner values + C) none).refs := fun v hv =>
    Account.mem_refs_of_charged (by simp [hv])
  have hstands : ∀ v ∈ values, Stands s s₁ v := fun v hv =>
    hcharge.stands ha Effect.calm_of_still fun _ => hcharged v hv
  have halive : ∀ v ∈ values, s₁.Alive v := fun v hmem =>
    hcharge.alive ha Effect.calm_of_still (fun _ => hcharged v hmem) (hv v hmem)
  have hpath : Path E ⟨s, ↑values + F, C, none⟩ ⟨s₁, F, .of owner values + C, none⟩ :=
    hcharge.of_still still
  have hroom₁ := hcharge.room ha hroom
  refine ⟨hpath.tail create
    (.creation (.container halive (hm.of_stands hstands) h₃ hroom₁.2 hroom₁.1)), ?_⟩
  have hsound := hkept.accounted.balanced.containers
  obtain ⟨c, hc, hbare⟩ := (alike_link_new hsound rfl h₃).exists_container
    (container?_withNew_self (c := s₁.newContainer owner kind values) hsound)
  refine ⟨c, ?_, ?_, ?_⟩
  · rw [container?_withPlane]
    exact hc
  · show c.bare.kind = kind
    rw [hbare]
    rfl
  · show c.bare.refcount = 1
    rw [hbare]
    rfl

/-! ## Requests -/

/-- A container of copies is made, and its maker gets the reference to it. -/
theorem walk_build {owner : DataspaceId} {kind : Kind} {values copied : List Value}
    {id : ContainerId} {t : Store} (still : E .still) (create : E (.create id F))
    (ha : Account.Kept ⟨s, F, C, none⟩) (hfits : ∀ v ∈ values, s.heap.Fits v)
    (hm : s.Solid kind (values.map s.seen)) (hroom : s.Room (kind.entries values.length))
    (h₁ : copies values s = .ok (copied, t))
    (h₂ : allocate owner kind copied t = .ok (id, s')) :
    Path E ⟨s, F, C, none⟩ ⟨s', {.ofContainer kind id} + F, C, none⟩ ∧
      ∃ c, s'.container? id = some c ∧ c.kind = kind ∧ c.refcount = 1 := by
  obtain ⟨hcopy, hmap, halive⟩ :=
    walk_copies (E := (· = .still)) (F := F) (C := C) (q := none) rfl hfits h₁
  have hF : ∀ v ∈ copied, (↑copied + F : Refs).Covers v := fun v hv _ =>
    Multiset.mem_add.mpr (Or.inl hv)
  have hstands : ∀ v ∈ copied, Stands s t v := fun v hv =>
    hcopy.stands ha Effect.calm_of_still (hF v hv).of_flight
  have hlength : copied.length = values.length := by rw [hmap, List.length_map]
  obtain ⟨hwalk, hc⟩ := walk_allocate still create (hcopy.kept ha)
    (fun v hv => hcopy.alive ha Effect.calm_of_still (hF v hv).of_flight (halive v hv))
    ((hmap ▸ hm : s.Solid kind copied).of_stands hstands) (hlength ▸ hcopy.room ha hroom) h₂
  exact ⟨(hcopy.of_still still).trans hwalk, hc⟩

/-- A container made of an operand is a creation, or refused. -/
theorem walk_derive {source : ContainerId} {kind : Kind} {values : List Value}
    {r : Except Refusal Value} (still : E .still)
    (create : ∀ kind id, r = .ok (.ofContainer kind id) → E (.create id F))
    (ha : Account.Kept ⟨s, F, C, none⟩) (hfits : ∀ v ∈ values, s.heap.Fits v)
    (hm : s.Solid kind (values.map s.seen)) (h : derive source kind values s = .ok (r, s')) :
    Path E ⟨s, F, C, none⟩ ⟨s', earned r + F, C, none⟩ := by
  rcases requireRoom_bind_eq_ok h with ⟨-, rfl, rfl⟩ | ⟨-, -, rfl, rfl⟩ | ⟨hroom, h⟩
  · exact (Path.refl _).earned_error
  · exact (Path.refl _).earned_error
  obtain ⟨c, s₁, h₁, h⟩ := ClientM.lift_bind_eq_ok.mp h
  obtain ⟨hc, rfl⟩ := StoreM.container_eq_ok.mp h₁
  obtain ⟨copied, s₁, h₁, h⟩ := ClientM.lift_bind_eq_ok.mp h
  obtain ⟨id, s₂, h₂, h⟩ := ClientM.lift_bind_eq_ok.mp h
  obtain ⟨rfl, rfl⟩ := ClientM.pure_eq_ok.mp h
  exact (walk_build still (create _ _ rfl) ha hfits hm hroom h₁ h₂).1

theorem retain_nils (s : Store) (m : Nat) :
    (List.replicate m Value.nil).forM retain s = .ok ((), s) := by
  induction m with
  | zero => exact StoreM.forM_nil_eq_ok.mpr rfl
  | succ m ih => exact StoreM.forM_cons_eq_ok.mpr ⟨(), s, rfl, ih⟩

/-- An array or record of nils, or an empty mapping. -/
theorem walk_blank {ds : DataspaceId} {kind : Kind} {n m : Nat} {r : Except Refusal Value}
    (still : E .still) (create : ∀ kind id, r = .ok (.ofContainer kind id) → E (.create id F))
    (ha : Account.Kept ⟨s, F, C, none⟩) (hm : kind = .mapping → m = 0)
    (hle : kind.entries m ≤ n) (h : (do
      let _ ← requireDataspace ds
      requireRoom n
      return .ofContainer kind (← allocate ds kind (List.replicate m .nil)) : ClientM Value) s =
        .ok (r, s')) :
    Path E ⟨s, F, C, none⟩ ⟨s', earned r + F, C, none⟩ := by
  rcases requireDataspace_bind_eq_ok h with ⟨-, rfl, rfl⟩ | ⟨d, -, h⟩
  · exact (Path.refl _).earned_error
  rcases requireRoom_bind_eq_ok h with ⟨-, rfl, rfl⟩ | ⟨-, -, rfl, rfl⟩ | ⟨hroom, h⟩
  · exact (Path.refl _).earned_error
  · exact (Path.refl _).earned_error
  obtain ⟨id, s₂, h₂, h⟩ := ClientM.lift_bind_eq_ok.mp h
  obtain ⟨rfl, rfl⟩ := ClientM.pure_eq_ok.mp h
  have hnils : Path (· = .still) ⟨s, F, C, none⟩ ⟨s, ↑(List.replicate m Value.nil) + F, C, none⟩ :=
    walk_retains rfl (fun v hv => by
      rw [List.eq_of_mem_replicate hv]
      exact Heap.fits_of_not_counted rfl) (retain_nils s m)
  obtain ⟨hwalk, -⟩ := walk_allocate still (create _ _ rfl) (hnils.kept ha)
    (fun v hv => by
      rw [List.eq_of_mem_replicate hv]
      rfl)
    (fun hk => by
      rw [hm hk]
      exact ⟨rfl, .nil⟩)
    (hnils.room ha ⟨by rw [List.length_replicate]; exact Nat.le_trans hle hroom.1, hroom.2⟩) h₂
  exact (hnils.of_still still).trans hwalk

theorem walk_createArray {ds : DataspaceId} {n : Nat} {r : Except Refusal Value} (still : E .still)
    (create : ∀ kind id, r = .ok (.ofContainer kind id) → E (.create id F))
    (ha : Account.Kept ⟨s, F, C, none⟩) (h : createArray ds n s = .ok (r, s')) :
    Path E ⟨s, F, C, none⟩ ⟨s', earned r + F, C, none⟩ :=
  @walk_blank E s s' F C ds .array n n r still create ha nofun (Nat.le_refl n) h

theorem walk_createMapping {ds : DataspaceId} {n : Nat} {r : Except Refusal Value}
    (still : E .still)
    (create : ∀ kind id, r = .ok (.ofContainer kind id) → E (.create id F))
    (ha : Account.Kept ⟨s, F, C, none⟩) (h : createMapping ds n s = .ok (r, s')) :
    Path E ⟨s, F, C, none⟩ ⟨s', earned r + F, C, none⟩ :=
  @walk_blank E s s' F C ds .mapping n 0 r still create ha (fun _ => rfl) (Nat.zero_le n) h

theorem walk_createRecord {ds : DataspaceId} {cls : ObjectRef} {n : Nat} {r : Except Refusal Value}
    (still : E .still) (create : ∀ kind id, r = .ok (.ofContainer kind id) → E (.create id F))
    (ha : Account.Kept ⟨s, F, C, none⟩) (h : createRecord ds cls n s = .ok (r, s')) :
    Path E ⟨s, F, C, none⟩ ⟨s', earned r + F, C, none⟩ :=
  @walk_blank E s s' F C ds (.record cls) n n r still create ha nofun (Nat.le_refl n) h

theorem walk_createArrayOf {ds : DataspaceId} {values : List Value} {r : Except Refusal Value}
    (still : E .still) (create : ∀ kind id, r = .ok (.ofContainer kind id) → E (.create id F))
    (ha : Account.Kept ⟨s, F, C, none⟩) (hv : ∀ v ∈ values, F.Covers v)
    (h : createArrayOf ds values s = .ok (r, s')) :
    Path E ⟨s, F, C, none⟩ ⟨s', earned r + F, C, none⟩ := by
  rcases requireDataspace_bind_eq_ok h with ⟨-, rfl, rfl⟩ | ⟨d, -, h⟩
  · exact (Path.refl _).earned_error
  rcases requireRoom_bind_eq_ok h with ⟨-, rfl, rfl⟩ | ⟨-, -, rfl, rfl⟩ | ⟨hroom, h⟩
  · exact (Path.refl _).earned_error
  · exact (Path.refl _).earned_error
  obtain ⟨copied, s₁, h₁, h⟩ := ClientM.lift_bind_eq_ok.mp h
  obtain ⟨id, s₂, h₂, h⟩ := ClientM.lift_bind_eq_ok.mp h
  obtain ⟨rfl, rfl⟩ := ClientM.pure_eq_ok.mp h
  have hroom : s.Room (Kind.array.entries values.length) := hroom
  exact (walk_build still (create .array id rfl) ha (fun v hmem => ha.fits_of_covers (hv v hmem))
    (fun hk => Kind.noConfusion hk) hroom h₁ h₂).1

/-! ## Containers from storage -/

/-- To read pairs changes nothing and gives each as a reader sees it. -/
theorem mapM_scrubPair_eq_ok {ps qs : List Pair}
    (h : ps.mapM (fun (k, v) => do return (← scrub k, ← scrub v) : Pair → StoreM Pair) s =
      .ok (qs, s')) :
    s = s' ∧ List.Forall₂ (fun p q : Pair => s.scrubbed p.1 = .ok q.1 ∧ s.scrubbed p.2 = .ok q.2)
      ps qs := by
  induction ps generalizing qs with
  | nil =>
    obtain ⟨rfl, rfl⟩ := StoreM.mapM_nil_eq_ok.mp h
    exact ⟨rfl, .nil⟩
  | cons p ps ih =>
    obtain ⟨p₁, s₁, qs, h₁, h₂, rfl⟩ := StoreM.mapM_cons_eq_ok.mp h
    obtain ⟨key, s₂, h₃, h₁⟩ := StoreM.bind_eq_ok.mp h₁
    obtain ⟨hkey, rfl⟩ := StoreM.scrub_eq_ok.mp h₃
    obtain ⟨value, s₂, h₃, h₁⟩ := StoreM.bind_eq_ok.mp h₁
    obtain ⟨hvalue, rfl⟩ := StoreM.scrub_eq_ok.mp h₃
    obtain ⟨rfl, rfl⟩ := StoreM.pure_eq_ok.mp h₁
    obtain ⟨rfl, hqs⟩ := ih h₂
    exact ⟨rfl, .cons ⟨hkey, hvalue⟩ hqs⟩

/-- What a container from storage is made of: values that are given, or nils. -/
theorem restoredElements_eq_ok {kind : Kind} {elements values : List Value}
    (h : restoredElements kind elements s = .ok (values, s')) :
    s = s' ∧ (∀ v ∈ values, v ∈ elements ∨ v = .nil) ∧ s.Solid kind (values.map s.seen) ∧
      kind.entries values.length ≤ kind.entries elements.length := by
  by_cases hk : kind = .mapping
  · subst hk
    obtain ⟨pairs, s₁, h₁, h⟩ := StoreM.bind_eq_ok.mp h
    obtain ⟨rfl, hpairs⟩ := mapM_scrubPair_eq_ok h₁
    obtain ⟨table, s₂, h₂, h⟩ := StoreM.bind_eq_ok.mp h
    obtain ⟨hn, rfl⟩ := StoreM.readHeap_eq_ok.mp h₂
    obtain ⟨rfl, rfl⟩ := StoreM.pure_eq_ok.mp h
    obtain ⟨ht, hlength, hmem⟩ := Heap.table_normalizePairs hn
    have hseen : ∀ v ∈ Pair.flatten table, ∃ w ∈ elements, s.scrubbed w = .ok v := by
      intro v hv
      obtain ⟨p, hp, hpv⟩ := Pair.mem_of_flatten hv
      obtain ⟨p', hp', h₁, h₂⟩ := Content.exists_of_forall₂ hpairs (hmem p hp)
      obtain ⟨hp₁, hp₂⟩ := Pair.mem_of_ofFlat hp'
      rcases hpv with rfl | rfl
      · exact ⟨p'.1, hp₁, h₁⟩
      · exact ⟨p'.2, hp₂, h₂⟩
    refine ⟨rfl, fun v hv => ?_, fun _ => ?_, ?_⟩
    · obtain ⟨w, hw, hvw⟩ := hseen v hv
      rcases scrubbed_cases hvw with rfl | rfl
      · exact Or.inl hw
      · exact Or.inr rfl
    · rw [map_seen_of_alive fun v hv => ?_]
      · exact ht.flatten
      · obtain ⟨w, -, hvw⟩ := hseen v hv
        exact (alive_of_scrubbed hvw).lost_eq
    · have hpairs := hpairs.length_eq
      show (Pair.flatten table).length / 2 ≤ elements.length / 2
      rw [← Pair.length_ofFlat, Pair.ofFlat_flatten, ← Pair.length_ofFlat, hpairs]
      exact hlength
  · have h : (pure elements : StoreM (List Value)) s = .ok (values, s') := by
      cases kind with
      | mapping => exact absurd rfl hk
      | array | record => exact h
    obtain ⟨rfl, rfl⟩ := StoreM.pure_eq_ok.mp h
    exact ⟨rfl, fun v hv => Or.inl hv, fun hm => absurd hm hk, Nat.le_refl _⟩

/-- A restored container is a creation, or refused. -/
theorem walk_restore {ds : DataspaceId} {kind : Kind} {tag : Nat} {elements : List Value}
    {r : Except Refusal Value} (still : E .still)
    (create : ∀ kind id, r = .ok (.ofContainer kind id) → E (.create id F))
    (ha : Account.Kept ⟨s, F, C, none⟩) (hv : ∀ v ∈ elements, F.Covers v)
    (h : restore ds kind tag elements s = .ok (r, s')) :
    Path E ⟨s, F, C, none⟩ ⟨s', earned r + F, C, none⟩ := by
  rcases restore_eq_ok h with ⟨-, ⟨e, rfl⟩, rfl⟩ |
    ⟨hroom, values, s₁, copied, s₂, id, t, c, h₁, h₂, h₃, hc, rfl, rfl⟩
  · exact (Path.refl _).earned_error
  obtain ⟨rfl, hvalues, hsolid, hle⟩ := restoredElements_eq_ok h₁
  obtain ⟨hbuild, c', hc', rfl, hone⟩ := walk_build still (create kind id rfl) ha (fun v hmem => by
    rcases hvalues v hmem with hmem | rfl
    · exact ha.fits_of_covers (hv v hmem)
    · exact Heap.fits_of_not_counted rfl) hsolid ⟨Nat.le_trans hle hroom.1, hroom.2⟩ h₂ h₃
  obtain rfl := Option.some.inj (hc.symm.trans hc')
  exact hbuild.tail (create c.kind id rfl) (.creation (.retag hc hone))

end

end PlaneStore
