import PlaneStore.Proofs.Inversion.Elements
import PlaneStore.Proofs.Walk.Creation

/-!
# Walks: reading

Requests that answer questions. They may bring elements back, merge overlays and drop what is
destroyed; some hand a reference out with the answer.
-/

namespace PlaneStore

open Store

section

variable {E : Effect → Prop} {s s' : Store} {F : Refs} {C : Charges} {q : Option Closing}
  {id : ContainerId}

/-- What is found under a key is held by the mapping. -/
theorem Content.mem_held_of_seek {h : Heap} {x : Content} {k : Identity} {v : Value}
    (ht : x.Tabled h) (hv : h.seek x.pairs x.overlay k = some v) : v ∈ x.held := by
  unfold Heap.seek at hv
  split at hv
  · next w hw =>
    obtain rfl := Option.some.inj hv
    cases ho : x.overlay with
    | none =>
      rw [ho] at hw
      cases hw
    | some o =>
      rw [ho] at hw
      obtain ⟨i, e, he, -, rfl⟩ := (ht.pending ho).find_pairs.mp hw
      exact (mem_held_of_entry ho he).2
  · obtain ⟨p, hp, -, rfl⟩ := (Heap.find_eq_some ht.table.distinct).mp hv
    exact (mem_held_of_pair hp).2

/-! ## Values under keys -/

/-- A value that was looked up is handed out with a reference. -/
theorem walk_mapGet {v key : Value} {r : Except Refusal Value} (ha : Account.Kept ⟨s, F, C, q⟩)
    (hv : F.Covers v) (h : Mapping.get v key s = .ok (r, s')) :
    match r with
    | .error _ => (∀ id, v ≠ .container .mapping id) ∧ s = s'
    | .ok w => ∃ id c values t, v = .container .mapping id ∧
        Path (· = .still) ⟨s, F, C, q⟩ ⟨t, F, C, q⟩ ∧ t.container? id = some c ∧
          c.elements = .resident values ∧
            w = t.seen ((t.heap.seek (Pair.ofBuffer values) c.overlay (t.heap.identity key)).getD
              .nil) ∧
              Path (· = .still) ⟨t, F, C, q⟩ ⟨s', {w} + F, C, q⟩ := by
  rcases Mapping.require_bind_eq_ok h with ⟨hno, rfl, rfl⟩ | ⟨id, rfl, h⟩
  · exact ⟨hno, rfl⟩
  obtain ⟨_, s₁, h₁, h⟩ := ClientM.lift_bind_eq_ok.mp h
  obtain ⟨hpath, c₀, values, -, hc⟩ :=
    walk_faultIn (E := (· = .still)) (F := F) (C := C) (q := q) rfl h₁
  have ha₁ := hpath.kept ha
  have hk := (ha₁.fits_of_covers hv).mapping hc
  obtain ⟨found, s₂, h₂, h⟩ := ClientM.lift_bind_eq_ok.mp h
  obtain ⟨ht, hp⟩ := ha₁.tables hc hk rfl
  obtain ⟨rfl, hfound⟩ := Mapping.lookup_eq_ok hc rfl ht hp h₂
  obtain ⟨w, s₂, h₂, h⟩ := ClientM.lift_bind_eq_ok.mp h
  obtain ⟨hw, rfl⟩ := StoreM.scrub_eq_ok.mp h₂
  obtain ⟨_, s₂, h₂, h⟩ := ClientM.lift_bind_eq_ok.mp h
  obtain ⟨rfl, rfl⟩ := ClientM.pure_eq_ok.mp h
  refine ⟨id, _, values, s₁, rfl, hpath, hc, rfl, ?_, walk_retain rfl ?_ h₂⟩
  · rw [← hfound]
    exact scrubbed_eq hw
  · have hfits : s₁.heap.Fits found := by
      rw [hfound]
      cases hseek : s₁.heap.seek (Pair.ofBuffer values) c₀.overlay (s₁.heap.identity key) with
      | none => exact Heap.fits_of_not_counted rfl
      | some x =>
        have hx := content?_of_container hc
        have hmem := Content.mem_held_of_seek (ha₁.tabled.content hx hk) (k := s₁.heap.identity key)
          (v := x) (by
            unfold Content.pairs
            rw [Container.content_buffer rfl]
            exact hseek)
        exact ha₁.fits (Account.mem_refs_of_store (Content.mem_refs hx hmem))
    rw [scrubbed_eq hw]
    exact hfits.seen

/-- A lookup is a path on which nothing happens, and hands out what it found. -/
theorem walk_mapGetHanding {v key : Value} {r : Except Refusal Value}
    (ha : Account.Kept ⟨s, F, C, q⟩) (hv : F.Covers v) (still : E .still)
    (h : Mapping.get v key s = .ok (r, s')) :
    Path E ⟨s, F, C, q⟩ ⟨s', earned r + F, C, q⟩ := by
  have hwalk := walk_mapGet ha hv h
  cases r with
  | error e =>
    obtain ⟨-, rfl⟩ := hwalk
    exact Path.earned_error (.refl _)
  | ok w =>
    obtain ⟨id, c, values, t, -, hpath, -, -, -, hpath'⟩ := hwalk
    exact (hpath.trans hpath').of_still still

theorem mapContains_eq_ok {v key : Value} {r : Except Refusal Bool} (still : E .still)
    (h : Mapping.contains v key s = .ok (r, s')) : Path E ⟨s, F, C, q⟩ ⟨s', F, C, q⟩ := by
  rcases Mapping.require_bind_eq_ok h with ⟨-, rfl, rfl⟩ | ⟨id, rfl, h⟩
  · exact .refl _
  obtain ⟨_, s₁, h₁, h⟩ := ClientM.lift_bind_eq_ok.mp h
  obtain ⟨found, s₂, h₂, h⟩ := ClientM.lift_bind_eq_ok.mp h
  obtain ⟨-, rfl⟩ := StoreM.readHeap_eq_ok.mp h₂
  obtain ⟨-, rfl⟩ := ClientM.pure_eq_ok.mp h
  exact (walk_faultIn still h₁).1

/-! ## Elements -/

/-- What a resident container holds fits. -/
theorem Account.Kept.fits_of_values {a : Account} {c : Container} {values : Array Value}
    (ha : a.Kept) (hc : a.store.container? id = some c) (he : c.elements = .resident values) :
    ∀ v ∈ values, a.store.heap.Fits v := fun v hv =>
  ha.fits (Account.mem_refs_of_store (Content.mem_refs (content?_of_container hc)
    (Content.mem_held_of_buffer (by
      rw [Container.content_buffer he]
      exact hv))))

theorem walk_indexGet {v key : Value} {r : Except Refusal Value} (still : E .still)
    (scrub : ∀ id, E (.scrub id)) (ha : Account.Kept ⟨s, F, C, q⟩) (hv : F.Covers v)
    (h : Sequence.indexGet v key s = .ok (r, s')) :
    Path E ⟨s, F, C, q⟩ ⟨s', earned r + F, C, q⟩ := by
  cases v with
  | container shape id =>
    by_cases hs : shape = .mapping
    · subst hs
      exact walk_mapGetHanding ha hv still h
    obtain ⟨s₁, h₁, hindexed⟩ := Sequence.indexGet_eq_ok hs h
    have hpath := walk_scrubElements (F := F) (C := C) (q := q) still (scrub id)
      (fun c hc => (ha.fits_of_covers hv).not_mapping hc hs) h₁
    rcases hindexed with ⟨e, -, rfl, rfl⟩ | ⟨i, w, -, h₂, rfl, h₃⟩
    · exact hpath.earned_error
    obtain ⟨-, c, values, hc, he, hi⟩ := Sequence.element_eq_ok h₂
    exact hpath.trans (walk_retain still
      ((hpath.kept ha).fits_of_values hc he w (Array.mem_of_getElem? hi)) h₃)
  | _ =>
    obtain ⟨rfl, rfl⟩ := ClientM.refuse_eq_ok.mp h
    exact (Path.refl _).earned_error

/-- To bring a container up to date may scrub it, unless it is a mapping. -/
theorem walk_refresh {shape : Shape} {u : Unit} (still : E .still)
    (scrub : shape ≠ .mapping → E (.scrub id)) (ha : Account.Kept ⟨s, F, C, q⟩)
    (hv : s.heap.Fits (.container shape id))
    (h : refresh id shape s = .ok (u, s')) : Path E ⟨s, F, C, q⟩ ⟨s', F, C, q⟩ := by
  by_cases hs : shape = .mapping
  · subst hs
    have h : Mapping.mergeOverlay id false s = .ok (u, s') := h
    exact (walk_mergeOverlay still (fun hf => absurd hf (by decide)) ha
      (fun hf => absurd hf (by decide)) h).1
  · have h : scrubElements id s = .ok (u, s') := by
      cases shape with
      | mapping => exact absurd rfl hs
      | array | record => exact h
    exact walk_scrubElements still (scrub hs) (fun c hc => hv.not_mapping hc hs) h

/-- The elements that are read are those at hand afterwards. -/
theorem walk_elementsOf {shape : Shape} {values : Array Value} (still : E .still)
    (scrub : shape ≠ .mapping → E (.scrub id)) (ha : Account.Kept ⟨s, F, C, q⟩)
    (hv : s.heap.Fits (.container shape id)) (h : elementsOf shape id s = .ok (values, s')) :
    Path E ⟨s, F, C, q⟩ ⟨s', F, C, q⟩ ∧
      ∃ c, s'.container? id = some c ∧ c.elements = .resident values := by
  obtain ⟨_, s₁, h₁, h⟩ := StoreM.bind_eq_ok.mp h
  obtain ⟨hc, rfl⟩ := StoreM.residentValues_eq_ok.mp h
  exact ⟨walk_refresh still scrub ha hv h₁, hc⟩

theorem walk_elements {v : Value} {r : Except Refusal (Array Value)} (still : E .still)
    (scrub : ∀ id, E (.scrub id)) (ha : Account.Kept ⟨s, F, C, q⟩) (hv : F.Covers v)
    (h : elements v s = .ok (r, s')) : Path E ⟨s, F, C, q⟩ ⟨s', F, C, q⟩ := by
  cases v with
  | container shape id =>
    obtain ⟨values, rfl, h₁⟩ := ClientM.lift_eq_ok.mp h
    exact (walk_elementsOf still (fun _ => scrub id) ha (ha.fits_of_covers hv) h₁).1
  | _ =>
    obtain ⟨-, rfl⟩ := ClientM.refuse_eq_ok.mp h
    exact .refl _

/-! ## Sizes -/

/-- A merge as a request; a compacting one is of a mapping. -/
theorem walk_merge {v : Value} {compact : Bool} {r : Except Refusal Unit} (still : E .still)
    (scrub : ∀ id, E (.scrub id)) (ha : Account.Kept ⟨s, F, C, q⟩) (hv : F.Covers v)
    (h : Mapping.merge v compact s = .ok (r, s')) : Path E ⟨s, F, C, q⟩ ⟨s', F, C, q⟩ := by
  rcases Mapping.require_bind_eq_ok h with ⟨-, rfl, rfl⟩ | ⟨id, rfl, h⟩
  · exact .refl _
  obtain ⟨u, rfl, h₂⟩ := ClientM.lift_eq_ok.mp h
  exact (walk_mergeOverlay still (fun _ => scrub id) ha
    (fun _ c hc => (ha.fits_of_covers hv).mapping hc) h₂).1

/-- A reading of the size may scrub the mapping. -/
theorem walk_mapSize {v : Value} {r : Except Refusal Nat} (still : E .still)
    (scrub : ∀ id, E (.scrub id)) (ha : Account.Kept ⟨s, F, C, q⟩) (hv : F.Covers v)
    (h : Mapping.size v s = .ok (r, s')) : Path E ⟨s, F, C, q⟩ ⟨s', F, C, q⟩ := by
  rcases Mapping.require_bind_eq_ok h with ⟨-, rfl, rfl⟩ | ⟨id, rfl, h⟩
  · exact .refl _
  obtain ⟨_, s₁, h₁, h⟩ := ClientM.lift_bind_eq_ok.mp h
  obtain ⟨c, s₂, h₂, h⟩ := ClientM.lift_bind_eq_ok.mp h
  obtain ⟨-, rfl⟩ := StoreM.container_eq_ok.mp h₂
  obtain ⟨-, rfl⟩ := ClientM.pure_eq_ok.mp h
  exact (walk_mergeOverlay still (fun _ => scrub id) ha
    (fun _ c hc => (ha.fits_of_covers hv).mapping hc) h₁).1

theorem walk_size {v : Value} {r : Except Refusal Nat} (still : E .still)
    (scrub : ∀ id, E (.scrub id)) (ha : Account.Kept ⟨s, F, C, q⟩) (hv : F.Covers v)
    (h : size v s = .ok (r, s')) : Path E ⟨s, F, C, q⟩ ⟨s', F, C, q⟩ := by
  rcases requireContainer_bind_eq_ok h with ⟨-, rfl⟩ | ⟨shape, id, rfl, h⟩
  · exact .refl _
  obtain ⟨_, s₁, h₁, h⟩ := ClientM.lift_bind_eq_ok.mp h
  obtain ⟨c, s₂, h₂, h⟩ := ClientM.lift_bind_eq_ok.mp h
  obtain ⟨-, rfl⟩ := StoreM.container_eq_ok.mp h₂
  obtain ⟨-, rfl⟩ := ClientM.pure_eq_ok.mp h
  rcases StoreM.when_eq_ok.mp h₁ with ⟨hs, h₁⟩ | ⟨-, rfl⟩
  · have hs : shape = .mapping := by
      cases shape with
      | mapping => rfl
      | array | record => cases of_decide_eq_true hs
    subst hs
    exact (walk_mergeOverlay still (fun _ => scrub id) ha
      (fun _ c hc => (ha.fits_of_covers hv).mapping hc) h₁).1
  · exact .refl _

/-- What a value addresses keeps its shape along a quiet path. -/
theorem Path.fits {a b : Account} {v : Value} (h : Path E a b) (ha : a.Kept)
    (hE : ∀ e, E e → e.Calm) (hv : a.store.heap.Fits v) : b.store.heap.Fits v := by
  refine hv.mono fun i c' hc' => ?_
  obtain ⟨c, hc, -, hk⟩ := (h.marks ha hE).container ⟨i⟩ c' hc'
  exact ⟨c, hc, hk.symm⟩

end

end PlaneStore
