import PlaneStore.Proofs.Walk.References

/-!
# Walks: looking after one container

Making elements resident, removing dead references, merging overlays and evicting, as chains of
elementary steps.
-/

namespace PlaneStore

open Store

/-! ## What survives a release -/

namespace Store

variable {s s' : Store}

/-- A cascade of releases only takes away. -/
theorem wanes_drain {work : List Value} {u : Unit} (hs : s.Stored)
    (h : drain work s = .ok (u, s')) : Wanes s s' := by
  replace h := drain_eq_ok h
  induction h with
  | done => exact .refl _
  | drop hd _ ih =>
    have hdrop := dropReference_eq_ok hd
    exact (hdrop.wanes hs).trans (ih (hdrop.stored hs))

theorem wanes_releaseAll {vs : List Value} {u : Unit} (hs : s.Stored)
    (h : releaseAll vs s = .ok (u, s')) : Wanes s s' :=
  wanes_drain hs h

theorem wanes_relinquish {ds : DataspaceId} {vs : List Value} {u : Unit} (hs : s.Stored)
    (h : relinquish ds vs s = .ok (u, s')) : Wanes s s' := by
  obtain ⟨_, s₁, h₁, h₂⟩ := StoreM.bind_eq_ok.mp h
  have hal := alike_dropImports h₁
  exact hal.wanes.trans (wanes_releaseAll (hs.alike hal) h₂)

theorem wanes_retains {vs : List Value} {u : PUnit} (h : vs.forM retain s = .ok (u, s')) :
    Wanes s s' := by
  induction vs generalizing s with
  | nil =>
    obtain rfl := StoreM.forM_nil_eq_ok.mp h
    exact .refl _
  | cons v vs ih =>
    obtain ⟨_, s₁, h₁, h⟩ := StoreM.forM_cons_eq_ok.mp h
    exact (retain_eq_ok h₁).wanes.trans (ih h)

theorem wanes_acquire {ds : DataspaceId} {v : Value} {u : Unit}
    (h : acquire ds v s = .ok (u, s')) : Wanes s s' := by
  obtain ⟨_, s₁, h₁, h₂⟩ := StoreM.bind_eq_ok.mp h
  exact (retain_eq_ok h₁).wanes.trans (alike_addImport h₂).wanes

/-- Taking references frees nothing. -/
theorem exists_of_retains {vs : List Value} {u : PUnit} {id : ContainerId} {c : Container}
    (hc : s.container? id = some c) (h : vs.forM retain s = .ok (u, s')) :
    ∃ c', s'.container? id = some c' ∧ c'.core = c.core := by
  induction vs generalizing s c with
  | nil =>
    obtain rfl := StoreM.forM_nil_eq_ok.mp h
    exact ⟨c, hc, rfl⟩
  | cons v vs ih =>
    obtain ⟨_, s₁, h₁, h⟩ := StoreM.forM_cons_eq_ok.mp h
    obtain ⟨c₁, hc₁, he₁⟩ := (retain_eq_ok h₁).exists_container hc
    obtain ⟨c', hc', he'⟩ := ih hc₁ h
    exact ⟨c', hc', he'.trans he₁⟩

/-- To take a reference keeps every container, with its core. -/
theorem exists_of_acquire {ds : DataspaceId} {v : Value} {u : Unit} {id : ContainerId}
    {c : Container} (hc : s.container? id = some c) (h : acquire ds v s = .ok (u, s')) :
    ∃ c', s'.container? id = some c' ∧ c'.core = c.core := by
  obtain ⟨_, s₁, h₁, h₂⟩ := StoreM.bind_eq_ok.mp h
  obtain ⟨c₁, hc₁, he₁⟩ := (retain_eq_ok h₁).exists_container hc
  obtain ⟨c', hc', hbare⟩ := (alike_addImport h₂).exists_container hc₁
  exact ⟨c', hc', (Container.core_of_bare hbare).trans he₁⟩

theorem withContainer_withContainer (s : Store) (id : ContainerId) (c d : Container) :
    (s.withContainer id c).withContainer id d = s.withContainer id d := by
  simp only [withContainer, Slab.set, Array.setIfInBounds_setIfInBounds]

end Store

/-! ## Residency -/

section

variable {E : Effect → Prop} {s s' : Store} {F : Refs} {C : Charges} {q : Option Closing}
  {id : ContainerId}

/-- To make elements resident is not seen from outside. -/
theorem walk_faultIn {u : Unit} (still : E .still) (h : faultIn id s = .ok (u, s')) :
    Path E ⟨s, F, C, q⟩ ⟨s', F, C, q⟩ ∧ ∃ c values, s.container? id = some c ∧
      s'.container? id = some { c with elements := .resident values } := by
  obtain ⟨c, hc, ⟨values, he, rfl⟩ | ⟨ticket, he, rfl⟩⟩ := faultIn_eq_ok h
  · refine ⟨.refl _, c, values, hc, ?_⟩
    rw [hc, ← he]
  · exact ⟨.single still (.upkeep (.load hc he rfl)), c, _, hc, container?_withContainer_self hc⟩

/-- What is reported is that the size of a container diverges. -/
theorem reportSizeChange_eq_ok {u : Unit} (h : reportSizeChange id s = .ok (u, s')) :
    ∃ c, s.container? id = some c ∧ (¬ c.Diverges ∧ s' = s ∨ c.Diverges ∧
      s' = { s.withContainer id { c with sizeReported := true } with
        swap := s.swap.markSizeChanged id }) := by
  obtain ⟨c, s₁, h₁, h⟩ := StoreM.bind_eq_ok.mp h
  obtain ⟨hc, rfl⟩ := StoreM.container_eq_ok.mp h₁
  refine ⟨c, hc, ?_⟩
  split at h
  · next hquiet =>
    obtain ⟨-, rfl⟩ := StoreM.pure_eq_ok.mp h
    refine .inl ⟨?_, rfl⟩
    rintro ⟨hnot, n, hn, hne⟩
    simp [hnot, hn, hne] at hquiet
  · next hloud =>
    obtain ⟨_, s₂, h₂, h⟩ := StoreM.bind_eq_ok.mp h
    obtain ⟨c', hc', rfl⟩ := StoreM.modifyContainer_eq_ok.mp h₂
    obtain rfl := Option.some.inj (hc.symm.trans hc')
    refine .inr ⟨?_, StoreM.modify_eq_ok.mp h⟩
    unfold Container.Diverges
    cases hn : c.savedSize with
    | none => simp [hn] at hloud
    | some n => simpa [hn] using hloud

theorem walk_report {u : Unit} (still : E .still) (h : reportSizeChange id s = .ok (u, s')) :
    Path E ⟨s, F, C, q⟩ ⟨s', F, C, q⟩ := by
  obtain ⟨c, hc, ⟨-, rfl⟩ | ⟨hd, rfl⟩⟩ := reportSizeChange_eq_ok h
  · exact .refl _
  · exact .single still (.upkeep (.report hc hd))

/-- Afterwards there is nothing left to report. -/
theorem noted_of_report {u : Unit} (h : reportSizeChange id s = .ok (u, s')) : s'.Noted id := by
  obtain ⟨c, hc, ⟨hquiet, rfl⟩ | ⟨-, rfl⟩⟩ := reportSizeChange_eq_ok h
  · intro c' hc'
    obtain rfl := Option.some.inj (hc.symm.trans hc')
    exact hquiet
  · intro c' hc'
    obtain rfl := Option.some.inj ((container?_withContainer_self hc).symm.trans hc')
    exact fun hd => nomatch hd.1

/-- Scrubbing is for arrays and records. -/
theorem walk_scrubElements {u : Unit} (still : E .still) (scrub : E (.scrub id))
    (hk : ∀ c, s.container? id = some c → c.kind ≠ .mapping)
    (h : scrubElements id s = .ok (u, s')) : Path E ⟨s, F, C, q⟩ ⟨s', F, C, q⟩ := by
  obtain ⟨s₁, c, h₁, hc, hscrubbed⟩ := scrubElements_eq_ok h
  obtain ⟨hpath, c₀, values₀, hc₀, hc₁⟩ := walk_faultIn (F := F) (C := C) (q := q) still h₁
  obtain rfl := Option.some.inj (hc₁.symm.trans hc)
  rcases hscrubbed with ⟨-, rfl⟩ | ⟨-, values, seen, he, hseen, hdrop⟩
  · exact hpath
  · refine hpath.trans ((Path.single scrub (.upkeep (.scrub hc he (hk c₀ hc₀) hseen))).trans ?_)
    exact walk_relinquish still hdrop

/-! ## Merging overlays -/

/-- To merge the overlay charges nothing that the mapping did not hold. -/
theorem walk_absorbOverlay {released : List Value} {c : Container} {values : Array Value}
    (still : E .still) (hc : s.container? id = some c) (he : c.elements = .resident values)
    (h : Mapping.absorbOverlay id s = .ok (released, s')) :
    Path E ⟨s, F, C, q⟩ ⟨s', F, .of c.owner released + C, q⟩ ∧
      ∃ values', s'.container? id =
        some { c with overlay := none, elements := .resident values' } := by
  obtain ⟨c', hc', habsorb⟩ := Mapping.absorbOverlay_eq_ok h
  obtain rfl := Option.some.inj (hc.symm.trans hc')
  rcases habsorb with ⟨ho, rfl, rfl⟩ | ⟨overlay, values₀, values', ho, he', hm, rfl⟩
  · rw [Charges.of_nil, zero_add]
    refine ⟨.refl _, values, ?_⟩
    rw [hc, ← ho, ← he]
  · exact ⟨.single still (.upkeep (.absorb hc ho he' hm)), values',
      container?_withContainer_self hc⟩

/-- Whether a value refers to something destroyed is told without a change. -/
theorem isDead_eq_ok {v : Value} {b : Bool} (h : isDead v s = .ok (b, s')) :
    s = s' ∧ if b then s.Dead v else s.Alive v := by
  obtain ⟨w, s₁, h₁, h⟩ := StoreM.bind_eq_ok.mp h
  obtain ⟨hw, rfl⟩ := StoreM.scrub_eq_ok.mp h₁
  obtain ⟨rfl, rfl⟩ := StoreM.pure_eq_ok.mp h
  refine ⟨rfl, ?_⟩
  by_cases hv : w = v
  · subst hv
    simpa [Store.Alive] using hw
  · simp only [hv, ne_eq, not_false_eq_true, decide_true, if_true]
    exact ⟨w, hw, hv⟩

theorem isLivePair_eq_ok {p : Pair} {b : Bool} (h : Mapping.isLivePair p s = .ok (b, s')) :
    s = s' ∧ if b then s.Alive p.1 ∧ s.Alive p.2 else s.Dead p.1 ∨ s.Dead p.2 := by
  obtain ⟨dead₁, s₁, h₁, h⟩ := StoreM.bind_eq_ok.mp h
  obtain ⟨rfl, hkey⟩ := isDead_eq_ok h₁
  cases dead₁ with
  | true =>
    obtain ⟨rfl, rfl⟩ := StoreM.pure_eq_ok.mp h
    exact ⟨rfl, Or.inl hkey⟩
  | false =>
    obtain ⟨dead₂, s₂, h₂, h⟩ := StoreM.bind_eq_ok.mp h
    obtain ⟨rfl, hvalue⟩ := isDead_eq_ok h₂
    obtain ⟨rfl, rfl⟩ := StoreM.pure_eq_ok.mp h
    cases dead₂ with
    | true => exact ⟨rfl, Or.inr hvalue⟩
    | false => exact ⟨rfl, hkey, hvalue⟩

/-- Which pairs are alive is told without a change. -/
theorem mapM_isLivePair_eq_ok {ps : List Pair} {bs : List Bool}
    (h : ps.mapM Mapping.isLivePair s = .ok (bs, s')) :
    s = s' ∧ List.Forall₂
      (fun p b => if b then s.Alive p.1 ∧ s.Alive p.2 else s.Dead p.1 ∨ s.Dead p.2) ps bs := by
  induction ps generalizing bs with
  | nil =>
    obtain ⟨rfl, rfl⟩ := StoreM.mapM_nil_eq_ok.mp h
    exact ⟨rfl, .nil⟩
  | cons p ps ih =>
    obtain ⟨b, s₁, bs₁, h₁, h₂, rfl⟩ := StoreM.mapM_cons_eq_ok.mp h
    obtain ⟨rfl, hb⟩ := isLivePair_eq_ok h₁
    obtain ⟨rfl, hbs⟩ := ih h₂
    exact ⟨rfl, .cons hb hbs⟩

/-- To drop pairs of what is destroyed is to scrub the mapping. -/
theorem walk_dropDeadPairs {dropped : List Value} {c : Container} {values : Array Value}
    (scrub : E (.scrub id)) (ha : Account.Kept ⟨s, F, C, q⟩) (hc : s.container? id = some c)
    (he : c.elements = .resident values) (ho : c.overlay = none) (hk : c.kind = .mapping)
    (h : Mapping.dropDeadPairs id s = .ok (dropped, s')) :
    Path E ⟨s, F, C, q⟩ ⟨s', F, .of c.owner dropped + C, q⟩ ∧
      ∃ d values', s'.container? id = some d ∧ d.elements = .resident values' ∧
        d.overlay = none ∧ d.label = c.label ∧ d.scrubEpoch = s'.objects.epoch := by
  obtain ⟨c', s₁, h₁, h⟩ := StoreM.bind_eq_ok.mp h
  obtain ⟨hc', rfl⟩ := StoreM.container_eq_ok.mp h₁
  obtain rfl := Option.some.inj (hc.symm.trans hc')
  obtain ⟨t, s₂, h₂, h⟩ := StoreM.bind_eq_ok.mp h
  obtain ⟨rfl, rfl⟩ := StoreM.get_eq_ok.mp h₂
  split at h
  · obtain ⟨values₀, s₃, h₃, h⟩ := StoreM.bind_eq_ok.mp h
    obtain ⟨⟨c', hc', he'⟩, rfl⟩ := StoreM.residentValues_eq_ok.mp h₃
    obtain rfl := Option.some.inj (hc.symm.trans hc')
    obtain rfl := Elements.resident.inj (he'.symm.trans he)
    obtain ⟨live, s₄, h₄, h⟩ := StoreM.bind_eq_ok.mp h
    obtain ⟨rfl, hlive⟩ := mapM_isLivePair_eq_ok h₄
    obtain ⟨_, s₅, h₅, h⟩ := StoreM.bind_eq_ok.mp h
    obtain ⟨c', hc', rfl⟩ := StoreM.modifyContainer_eq_ok.mp h₅
    obtain rfl := Option.some.inj (hc.symm.trans hc')
    obtain ⟨_, s₆, h₆, h⟩ := StoreM.bind_eq_ok.mp h
    obtain ⟨rfl, rfl⟩ := StoreM.pure_eq_ok.mp h
    rcases StoreM.when_eq_ok.mp h₆ with ⟨-, h₆⟩ | ⟨hsize, rfl⟩
    · obtain ⟨_, s₇, h₇, h₈⟩ := StoreM.bind_eq_ok.mp h₆
      obtain ⟨c', hc', rfl⟩ := StoreM.modifyContainer_eq_ok.mp h₇
      obtain rfl := Option.some.inj ((container?_withContainer_self hc).symm.trans hc')
      rw [withContainer_withContainer] at h₈
      obtain ⟨d, hd, hreported⟩ := reportSizeChange_eq_ok h₈
      obtain rfl := Option.some.inj ((container?_withContainer_self hc).symm.trans hd)
      rcases hreported with ⟨hquiet, rfl⟩ | ⟨hdiverges, rfl⟩
      · have hstep := Upkeep.compact (F := F) (C := C) (q := q) hc he ho hk hlive
          (.silent fun hd => absurd hd hquiet)
        exact ⟨.single scrub (.upkeep hstep), _, _, container?_withContainer_self hc, rfl,
          ho, rfl, rfl⟩
      · have hstep := Upkeep.compact (F := F) (C := C) (q := q) hc he ho hk hlive (.told hdiverges)
        rw [withContainer_withContainer]
        exact ⟨.single scrub (.upkeep hstep), _, _, container?_withContainer_self hc, rfl,
          ho, rfl, rfl⟩
    · have hbuffer := Pair.toBuffer_kept (ha.accounted.even_of_resident hc he hk)
        hlive.length_eq.symm (Decidable.not_not.mp (of_decide_eq_false hsize))
      have hcompact := Path.single (a := ⟨s, F, C, q⟩) scrub
        (.upkeep (.compact hc he ho hk hlive (.silent fun _ => by rw [hbuffer, ← he]; rfl)))
      rw [hbuffer, ← he] at hcompact
      exact ⟨hcompact, _, _, container?_withContainer_self hc, he, ho, rfl, rfl⟩
  · next hfresh =>
    obtain ⟨rfl, rfl⟩ := StoreM.pure_eq_ok.mp h
    rw [Charges.of_nil, zero_add]
    exact ⟨.refl _, c, values, hc, he, ho, rfl, of_not_not fun hne => hfresh (decide_eq_true hne)⟩

/-- A merge leaves a container without an overlay, unless it frees it. -/
theorem walk_mergeOverlay {compact : Bool} {u : Unit} (still : E .still)
    (scrub : compact = true → E (.scrub id)) (ha : Account.Kept ⟨s, F, C, q⟩)
    (hk : compact = true → ∀ c, s.container? id = some c → c.kind = .mapping)
    (h : Mapping.mergeOverlay id compact s = .ok (u, s')) :
    Path E ⟨s, F, C, q⟩ ⟨s', F, C, q⟩ ∧ ∀ c', s'.container? id = some c' →
      ∃ c values, s.container? id = some c ∧ c'.elements = .resident values ∧
        c'.overlay = none ∧ c'.label = c.label ∧
          (compact = true → c'.scrubEpoch = s'.objects.epoch) := by
  obtain ⟨s₁, c, superseded, s₃, dropped, s₄, h₁, hc, h₃, h₄, h⟩ := Mapping.mergeOverlay_eq_ok h
  obtain ⟨hpath₁, c₀, values₀, hc₀, hc₁⟩ := walk_faultIn (F := F) (C := C) (q := q) still h₁
  obtain rfl := Option.some.inj (hc₁.symm.trans hc)
  obtain ⟨hpath₂, values', hc'⟩ := walk_absorbOverlay (F := F) (C := C) (q := q) still hc rfl h₃
  have hpath := hpath₁.trans hpath₂
  have hdropped : Path E ⟨s, F, C, q⟩ ⟨s₄, F, .of c₀.owner (superseded ++ dropped) + C, q⟩ ∧
      ∃ d values, s₄.container? id = some d ∧ d.elements = .resident values ∧
        d.overlay = none ∧ d.label = c₀.label ∧
          (compact = true → d.scrubEpoch = s₄.objects.epoch) := by
    cases compact with
    | true =>
      obtain ⟨hpath₃, hd⟩ := walk_dropDeadPairs (scrub rfl) (hpath.kept ha) hc' rfl rfl
        (hk rfl c₀ hc₀) h₄
      obtain ⟨d, values, hd, hde, hdo, hlabel, hepoch⟩ := hd
      rw [Charges.of_append, add_comm (Charges.of c₀.owner superseded), add_assoc]
      exact ⟨hpath.trans hpath₃, d, values, hd, hde, hdo, hlabel, fun _ => hepoch⟩
    | false =>
      obtain ⟨rfl, rfl⟩ := h₄
      rw [List.append_nil]
      exact ⟨hpath, _, values', hc', rfl, rfl, rfl, nofun⟩
  obtain ⟨hpath', d, values, hd, hde, hdo, hlabel, hepoch⟩ := hdropped
  refine ⟨hpath'.trans (walk_relinquish still h), fun c' hc' => ⟨c₀, values, hc₀, ?_⟩⟩
  have hw := wanes_relinquish (hpath'.kept ha).accounted.stored h
  obtain ⟨d', hd', hcore⟩ := hw.container id c' hc'
  obtain rfl := Option.some.inj (hd.symm.trans hd')
  refine ⟨(Container.elements_of_core hcore).trans hde, (Container.overlay_of_core hcore).trans hdo,
    (Container.label_of_core hcore).trans hlabel, fun hcompact => ?_⟩
  rw [Container.scrubEpoch_of_core hcore, hepoch hcompact, hw.objects]

/-- A reference to a mapping leads to one. -/
theorem Heap.Fits.mapping {h : Heap} {c : Container} (hv : h.Fits (.container .mapping id))
    (hc : h.containers.get? id.slot = some c) : c.kind = .mapping :=
  Kind.shape_eq_mapping.mp (hv .mapping id c rfl hc)

/-- A reference to an array or record does not lead to a mapping. -/
theorem Heap.Fits.not_mapping {h : Heap} {c : Container} {shape : Shape}
    (hv : h.Fits (.container shape id)) (hc : h.containers.get? id.slot = some c)
    (hs : shape ≠ .mapping) : c.kind ≠ .mapping := by
  rintro hk
  refine hs ?_
  rw [← hv shape id c rfl hc, hk]
  rfl

end

end PlaneStore
