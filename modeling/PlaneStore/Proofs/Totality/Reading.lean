import PlaneStore.Proofs.Walk.Deriving
import PlaneStore.Proofs.Totality.Creation

/-!
# No faults: reading

What a client owns stays there while it reads. So does what was read of a container that is owned,
or that was itself read so: no element of a container without pending writes goes while containers
are looked after. That is why a deep comparison never meets a reference to something freed, although
merging and scrubbing on the way may free containers.
-/

namespace PlaneStore

open Store

section

variable {E : Effect → Prop} {s s' : Store} {F : Refs} {C C' : Charges} {q q' : Option Closing}
  {id : ContainerId} {c : Container} {v : Value}

/-! ## What stays -/

/--
A value that is owned, or an element of a container without pending writes that is referred to by
such a value. The container is not scrubbed by what goes on, or was since an object went last.
-/
inductive Store.Holds (E : Effect → Prop) (s : Store) (F : Refs) : Value → Prop
  | owned {v : Value} (hv : F.Covers v) : Holds E s F v
  | element {shape : Shape} {id : ContainerId} {x : Content} {v : Value}
    (hid : Holds E s F (.container shape id)) (hx : s.content? id = some x) (ho : x.overlay = none)
    (hs : E (.scrub id) → x.scrubEpoch = s.objects.epoch) (hv : v ∈ x.buffer) : Holds E s F v

namespace Store.Holds

/-- What is held is covered by the references of the store. -/
theorem covers (h : s.Holds E F v) : (Account.mk s F C q).refs.Covers v := by
  cases h with
  | owned hv => exact Refs.Covers.of_flight (a := ⟨s, F, C, q⟩) hv
  | element hid hx ho hs hv =>
    exact fun _ => Account.mem_refs_of_store (Content.mem_refs hx (Content.mem_held_of_buffer hv))

/-- What is held is there. -/
theorem there (h : s.Holds E F v) (ha : Account.Kept ⟨s, F, C, q⟩) : s.There v :=
  ha.there h.covers

/-- What is held is a value of this heap. -/
theorem fits (h : s.Holds E F v) (ha : Account.Kept ⟨s, F, C, q⟩) : s.heap.Fits v := by
  cases hc : v.isCounted with
  | false => exact Heap.fits_of_not_counted hc
  | true => exact ha.fits (h.covers hc)

/-- What is held stays held while containers are looked after. -/
theorem path (h : s.Holds E F v) (ha : Account.Kept ⟨s, F, C, q⟩)
    (hE : ∀ e, E e → e.Tends) (hpath : Path E ⟨s, F, C, q⟩ ⟨s', F, C', q'⟩) : s'.Holds E F v := by
  induction h with
  | owned hv => exact .owned hv
  | @element shape id x v hid hx ho hs hv ih =>
    obtain ⟨c', hc'⟩ := (ih.there (hpath.kept ha)).exists_container
    obtain ⟨-, hbuffer, hoverlay, hepoch⟩ :=
      hpath.steady ha hE hx ho hs (content?_of_container hc')
    have hobjects := (hpath.marks ha fun e he => Effect.Tends.calm e (hE e he)).objects
    exact .element ih (content?_of_container hc') hoverlay
      (fun hscrub => by rw [hepoch, hs hscrub]; exact congrArg Objects.epoch hobjects.symm)
      (hbuffer ▸ hv)

end Store.Holds

/-! ## What a container is addressed as -/

theorem succeeds_require (v : Value) : Succeeds (Mapping.require v) s := by
  unfold Mapping.require
  split
  · exact .answer _
  · exact .refuse _

theorem succeeds_requireContainer (v : Value) (expected : String) :
    Succeeds (requireContainer v expected) s := by
  unfold requireContainer
  split
  · exact .answer _
  · exact .refuse _

/-- A request that goes on with the container of a value. -/
theorem succeeds_requiring {α : Type} {v : Value} {f : ContainerId → ClientM α} {expected : String}
    (hf : ∀ shape id, v = .container shape id → Succeeds (f id) s) :
    Succeeds (requireContainer v expected >>= f : ClientM α) s := by
  refine Succeeds.requestBind (succeeds_requireContainer v expected) fun id t h => ?_
  obtain ⟨rfl, hid⟩ := requireContainer_eq_ok h
  obtain ⟨shape, hv⟩ := hid id rfl
  exact hf shape id hv

/-- A request that goes on with the slot of a mapping. -/
theorem succeeds_requireMapping {α : Type} {v : Value} {f : ContainerId → ClientM α}
    (hf : ∀ id, v = .container .mapping id → Succeeds (f id) s) :
    Succeeds (Mapping.require v >>= f : ClientM α) s := by
  refine Succeeds.requestBind (succeeds_require v) fun id t h => ?_
  obtain ⟨rfl, hid⟩ := Mapping.require_eq_ok h
  exact hf id (hid id rfl)

/-! ## Values under keys -/

/-- A lookup is answered or refused. -/
theorem succeeds_mapGet {key : Value} (ha : Account.Kept ⟨s, F, C, q⟩) (hv : F.Covers v)
    (hkey : F.Covers key) : Succeeds (Mapping.get v key) s := by
  refine succeeds_requireMapping fun id hid => ?_
  subst hid
  obtain ⟨c, hc⟩ := (ha.there_of_flight hv).exists_container
  refine Succeeds.liftBind (succeeds_faultIn ha.accounted.stored hc) fun u s₁ h₁ => ?_
  obtain ⟨hpath, c₀, values, hc₀, hc₁⟩ :=
    walk_faultIn (E := (· = .still)) (F := F) (C := C) (q := q) rfl h₁
  have ha₁ := hpath.kept ha
  have hk := (ha₁.fits_of_covers hv).mapping hc₁
  refine Succeeds.liftBind (succeeds_lookup ha₁ hc₁ hk rfl (ha₁.there_of_flight hkey))
    fun found t h => ?_
  obtain ⟨ht, hp⟩ := ha₁.tables hc₁ hk rfl
  obtain ⟨rfl, hfound⟩ := Mapping.lookup_eq_ok hc₁ rfl ht hp h
  have hthere : s₁.There found := by
    rw [hfound]
    cases hseek : s₁.heap.seek (Pair.ofBuffer values) c₀.overlay (s₁.heap.identity key) with
    | none => exact Heap.has_nil
    | some w =>
      have hx := content?_of_container hc₁
      rw [← Content.find_of_resident (c := { c₀ with elements := .resident values }) rfl s₁.swap]
        at hseek
      exact ha₁.there fun _ => Account.mem_refs_of_store
        (Content.mem_refs hx (Content.mem_held_of_seek (ha₁.tabled.content hx hk) hseek))
  refine Succeeds.liftBind (succeeds_scrub hthere) fun w t h => ?_
  obtain ⟨hw, rfl⟩ := StoreM.scrub_eq_ok.mp h
  rw [scrubbed_eq hw]
  exact Succeeds.liftBind (succeeds_retain hthere.seen) fun u t _ => .answer _

/-- Whether a mapping has a key is answered or refused. -/
theorem succeeds_mapContains {key : Value} (ha : Account.Kept ⟨s, F, C, q⟩) (hv : F.Covers v)
    (hkey : F.Covers key) : Succeeds (Mapping.contains v key) s := by
  refine succeeds_requireMapping fun id hid => ?_
  subst hid
  obtain ⟨c, hc⟩ := (ha.there_of_flight hv).exists_container
  refine Succeeds.liftBind (succeeds_faultIn ha.accounted.stored hc) fun u s₁ h₁ => ?_
  obtain ⟨hpath, c₀, values, hc₀, hc₁⟩ :=
    walk_faultIn (E := (· = .still)) (F := F) (C := C) (q := q) rfl h₁
  have ha₁ := hpath.kept ha
  have hk := (ha₁.fits_of_covers hv).mapping hc₁
  exact Succeeds.liftBind (succeeds_lookup ha₁ hc₁ hk rfl (ha₁.there_of_flight hkey))
    fun found t _ => .answer _

/-! ## Bringing elements up to date -/

/-- A container that was scrubbed, if it was not freed on the way. -/
theorem scrubElements_post {u : Unit} (ha : Account.Kept ⟨s, F, C, q⟩)
    (hk : ∀ c, s.container? id = some c → c.kind ≠ .mapping)
    (h : scrubElements id s = .ok (u, s')) : ∀ c', s'.container? id = some c' →
      ∃ c values, s.container? id = some c ∧ c'.elements = .resident values ∧
        c'.overlay = c.overlay ∧ c'.scrubEpoch = s'.objects.epoch := by
  obtain ⟨s₁, c, h₁, hc₁, hscrubbed⟩ := scrubElements_eq_ok h
  obtain ⟨hpath, c, values, hc, hc'⟩ := walk_faultIn (E := (· = .still)) (F := F) (C := C)
    (q := q) rfl h₁
  obtain rfl := Option.some.inj (hc'.symm.trans hc₁)
  intro d hd
  rcases hscrubbed with ⟨hfresh, rfl⟩ | ⟨-, values, seen, he, hseen, hdrop⟩
  · obtain rfl := Option.some.inj (hc₁.symm.trans hd)
    exact ⟨c, values, hc, rfl, rfl, hfresh⟩
  · have hstep := Step.upkeep (.scrub (F := F) (C := C) (q := q) hc₁ he (hk c hc) hseen)
    have hw := wanes_relinquish (hstep.kept (hpath.kept ha)).accounted.stored hdrop
    obtain ⟨e, he, hcore⟩ := hw.container id d hd
    obtain rfl := Option.some.inj ((container?_withContainer_self hc₁).symm.trans he)
    refine ⟨c, seen.toArray, hc, Container.elements_of_core hcore,
      (Container.overlay_of_core hcore).trans rfl, ?_⟩
    rw [Container.scrubEpoch_of_core hcore, hw.objects]
    rfl

/-- A container that is there can be brought up to date. -/
theorem succeeds_refresh {shape : Shape} (ha : Account.Kept ⟨s, F, C, q⟩)
    (hv : s.heap.Fits (.container shape id)) (hc : s.container? id = some c) :
    Succeeds (refresh id shape) s := by
  cases shape with
  | mapping => exact succeeds_mergeOverlay ha hc nofun
  | array | record => exact succeeds_scrubElements ha hc (hv.not_mapping hc (by decide))

/-- A container that was brought up to date, if it was not freed on the way. -/
theorem refresh_post {shape : Shape} {u : Unit} (ha : Account.Kept ⟨s, F, C, q⟩)
    (hv : s.heap.Fits (.container shape id)) (h : refresh id shape s = .ok (u, s')) :
    ∀ c', s'.container? id = some c' → ∃ values, c'.elements = .resident values ∧
      c'.overlay = none ∧ (shape ≠ .mapping → c'.scrubEpoch = s'.objects.epoch) := by
  intro c' hc'
  by_cases hs : shape = .mapping
  · subst hs
    have hmerge : Mapping.mergeOverlay id false s = .ok (u, s') := h
    obtain ⟨-, hpost⟩ := walk_mergeOverlay (E := fun _ => True) trivial
      (fun _ => trivial) ha (by nofun) hmerge
    obtain ⟨c, values, -, he, ho, -⟩ := hpost c' hc'
    exact ⟨values, he, ho, fun hne => absurd rfl hne⟩
  · have hk : ∀ c, s.container? id = some c → c.kind ≠ .mapping := fun c hc =>
      hv.not_mapping hc hs
    have h : scrubElements id s = .ok (u, s') := by
      cases shape with
      | mapping => exact absurd rfl hs
      | array | record => exact h
    obtain ⟨c, values, hc, he, ho, hepoch⟩ := scrubElements_post ha hk h c' hc'
    refine ⟨values, he, ho.trans ?_, fun _ => hepoch⟩
    cases hover : c.overlay with
    | none => rfl
    | some o =>
      exact absurd ((Content.whole ha.accounted (content?_of_container hc)).overlay hover).1
        (hk c hc)

/--
What is brought up to date can be read, and what was read is held from then on, along with what was
held before.
-/
theorem succeeds_elementsOf {shape : Shape} (ha : Account.Kept ⟨s, F, C, q⟩)
    (hE : ∀ e, E e → e.Tends) (still : E .still) (scrub : shape ≠ .mapping → E (.scrub id))
    (merge : shape = .mapping → ¬ E (.scrub id)) (hv : s.Holds E F (.container shape id)) :
    ∃ values s', elementsOf shape id s = .ok (values, s') ∧ Path E ⟨s, F, C, q⟩ ⟨s', F, C, q⟩ ∧
      ∀ v ∈ values, s'.Holds E F v := by
  obtain ⟨c, hc⟩ := (hv.there ha).exists_container
  obtain ⟨u, s₁, h₁⟩ := succeeds_refresh ha (hv.fits ha) hc
  have hpath := walk_refresh still scrub ha (hv.fits ha) h₁
  have hv₁ := hv.path ha hE hpath
  obtain ⟨c₁, hc₁⟩ := (hv₁.there (hpath.kept ha)).exists_container
  obtain ⟨values, he, ho, hepoch⟩ := refresh_post ha (hv.fits ha) h₁ c₁ hc₁
  refine ⟨values, s₁, StoreM.bind_eq_ok.mpr ⟨u, s₁, h₁, ?_⟩, hpath, fun v hmem => ?_⟩
  · exact StoreM.residentValues_eq_ok.mpr ⟨⟨c₁, hc₁, he⟩, rfl⟩
  · refine .element hv₁ (content?_of_container hc₁) ho (fun hscrub => ?_) ?_
    · by_cases hs : shape = .mapping
      · exact absurd hscrub (merge hs)
      · exact hepoch hs
    · rw [Container.content_buffer he]
      exact hmem

/-- A reading of all elements is answered or refused. -/
theorem succeeds_elements (ha : Account.Kept ⟨s, F, C, q⟩) (hv : F.Covers v) :
    Succeeds (elements v) s := by
  cases v with
  | container shape id =>
    by_cases hs : shape = .mapping
    · obtain ⟨values, s', h, -⟩ := succeeds_elementsOf (E := (· = .still)) ha
        (by rintro e rfl; exact .still) rfl (absurd hs) (fun _ => nofun) (.owned hv)
      exact .lift ⟨values, s', h⟩
    · obtain ⟨values, s', h, -⟩ :=
        succeeds_elementsOf (E := Effect.Tends) ha (fun _ he => he) .still
        (fun _ => .scrub id) (fun hm => absurd hm hs) (.owned hv)
      exact .lift ⟨values, s', h⟩
  | _ => exact .refuse _

/-! ## Elements -/

theorem succeeds_element {values : Array Value} {i : Nat} (hc : s.container? id = some c)
    (he : c.elements = .resident values) (hi : i < values.size) :
    Succeeds (Sequence.element id i) s := by
  refine Succeeds.bind (succeeds_residentValues hc he) fun values' t h => ?_
  obtain ⟨⟨c', hc', he'⟩, rfl⟩ := StoreM.residentValues_eq_ok.mp h
  obtain rfl := Option.some.inj (hc.symm.trans hc')
  obtain rfl := Elements.resident.inj (he.symm.trans he')
  rw [Array.getElem?_eq_getElem hi]
  exact .pure _

/-- A reading of one element is answered or refused. -/
theorem succeeds_indexGet {key : Value} (ha : Account.Kept ⟨s, F, C, q⟩) (hv : F.Covers v)
    (hkey : F.Covers key) : Succeeds (Sequence.indexGet v key) s := by
  cases v with
  | container shape id =>
    by_cases hs : shape = .mapping
    · subst hs
      exact succeeds_mapGet ha hv hkey
    rw [Sequence.indexGet_of_ne_mapping hs]
    obtain ⟨c, hc⟩ := (ha.there_of_flight hv).exists_container
    have hk : ∀ c, s.container? id = some c → c.kind ≠ .mapping := fun c hc =>
      (ha.fits_of_covers hv).not_mapping hc hs
    refine Succeeds.liftBind (succeeds_scrubElements ha hc (hk c hc)) fun u s₁ h₁ => ?_
    have ha₁ := (walk_scrubElements (E := fun _ => True) (F := F) (C := C) (q := q) trivial trivial
      hk h₁).kept ha
    obtain ⟨c₁, hc₁⟩ := (ha₁.there_of_flight hv).exists_container
    obtain ⟨-, values, -, he, -⟩ := scrubElements_post ha hk h₁ c₁ hc₁
    refine Succeeds.requestBind (succeeds_requireIndex hc₁) fun i t h => ?_
    obtain ⟨rfl, -⟩ := Sequence.requireIndex_eq_ok h
    have hlt := lt_size_of_requireIndex hc₁ h
    rw [Container.size_of_values ((ha₁.fits_of_covers hv).not_mapping hc₁ hs) he] at hlt
    refine Succeeds.liftBind (succeeds_element hc₁ he hlt) fun w t h => ?_
    obtain ⟨rfl, c', values', hc', he', hi⟩ := Sequence.element_eq_ok h
    refine Succeeds.liftBind (succeeds_retain ?_) fun u t _ => .answer _
    exact ha₁.has_values hc' he' w (Array.mem_of_getElem? hi)
  | _ => exact .refuse _

/-! ## Sizes -/

/-- A request to merge a mapping is carried out or refused. -/
theorem succeeds_merge {compact : Bool} (ha : Account.Kept ⟨s, F, C, q⟩) (hv : F.Covers v) :
    Succeeds (Mapping.merge v compact) s := by
  refine succeeds_requireMapping fun id hid => ?_
  subst hid
  obtain ⟨c, hc⟩ := (ha.there_of_flight hv).exists_container
  exact .lift (succeeds_mergeOverlay ha hc fun _ => (ha.fits_of_covers hv).mapping hc)

/-- A container that is owned is there after it was merged. -/
theorem exists_merged {shape : Shape} {compact : Bool} {u : Unit} (ha : Account.Kept ⟨s, F, C, q⟩)
    (hv : F.Covers (.container shape id))
    (hk : compact = true → ∀ c, s.container? id = some c → c.kind = .mapping)
    (h : Mapping.mergeOverlay id compact s = .ok (u, s')) :
    Account.Kept ⟨s', F, C, q⟩ ∧ ∃ c values, s'.container? id = some c ∧
      c.elements = .resident values ∧ c.overlay = none := by
  obtain ⟨hpath, hpost⟩ :=
    walk_mergeOverlay (E := fun _ => True) trivial (fun _ => trivial) ha hk h
  have ha' := hpath.kept ha
  obtain ⟨c, hc⟩ := (ha'.there_of_flight hv).exists_container
  obtain ⟨-, values, -, he, ho, -⟩ := hpost c hc
  exact ⟨ha', c, values, hc, he, ho⟩

theorem succeeds_mapSize (ha : Account.Kept ⟨s, F, C, q⟩) (hv : F.Covers v) :
    Succeeds (Mapping.size v) s := by
  refine succeeds_requireMapping fun id hid => ?_
  subst hid
  have hk : ∀ c, s.container? id = some c → c.kind = .mapping := fun c hc =>
    (ha.fits_of_covers hv).mapping hc
  obtain ⟨c, hc⟩ := (ha.there_of_flight hv).exists_container
  refine Succeeds.liftBind (succeeds_mergeOverlay ha hc fun _ => hk c hc) fun u s₁ h₁ => ?_
  obtain ⟨-, c₁, -, hc₁, -⟩ := exists_merged ha hv (fun _ => hk) h₁
  exact Succeeds.liftBind (.container hc₁) fun d t _ => .answer _

theorem succeeds_size (ha : Account.Kept ⟨s, F, C, q⟩) (hv : F.Covers v) :
    Succeeds (size v) s := by
  refine succeeds_requiring fun shape id hid => ?_
  subst hid
  obtain ⟨c, hc⟩ := (ha.there_of_flight hv).exists_container
  unfold StoreM.when
  by_cases hs : shape = .mapping
  · subst hs
    have hk : ∀ c, s.container? id = some c → c.kind = .mapping := fun c hc =>
      (ha.fits_of_covers hv).mapping hc
    refine Succeeds.liftBind (succeeds_mergeOverlay ha hc fun _ => hk c hc) fun u s₁ h₁ => ?_
    obtain ⟨-, c₁, -, hc₁, -⟩ := exists_merged ha hv (fun _ => hk) h₁
    exact Succeeds.liftBind (.container hc₁) fun d t _ => .answer _
  · have hfalse : decide ((Value.container shape id).type = .container .mapping) = false := by
      cases shape with
      | mapping => exact absurd rfl hs
      | array | record => rfl
    rw [hfalse]
    refine Succeeds.liftBind (.pure ()) fun u t h => ?_
    obtain ⟨-, rfl⟩ := StoreM.pure_eq_ok.mp h
    exact Succeeds.liftBind (.container hc) fun d t _ => .answer _

end

end PlaneStore
