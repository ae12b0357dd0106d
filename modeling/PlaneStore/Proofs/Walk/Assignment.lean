import PlaneStore.Proofs.Inversion.MappingWrites
import PlaneStore.Proofs.Inversion.Elements
import PlaneStore.Proofs.Contents.ContainerSizes
import PlaneStore.Proofs.Walk.Upkeep

/-!
# Walks: changing elements

Backing a container up and writing elements of arrays, records and mappings as chains of elementary
steps. A value that is written has been looked at by a reader, and the slot takes a reference of its
own to it.
-/

namespace PlaneStore

open Store

/-! ## What a reader sees stays in sight -/

namespace Store

variable {s s' : Store} {v w : Value}

theorem planes_of_retains {vs : List Value} {u : PUnit} (h : vs.forM retain s = .ok (u, s')) :
    s'.planes = s.planes := by
  induction vs generalizing s with
  | nil => rw [StoreM.forM_nil_eq_ok.mp h]
  | cons v vs ih =>
    obtain ⟨_, s₁, h₁, h⟩ := StoreM.forM_cons_eq_ok.mp h
    rw [ih h, (retain_eq_ok h₁).planes]

end Store

theorem Container.size_of_core {c d : Container} (h : d.core = c.core) : d.size = c.size :=
  show d.core.size = c.core.size by rw [h]

section

variable {E : Effect → Prop} {s s' : Store} {F : Refs} {C : Charges}
  {id : ContainerId}

/-! ## Backing up -/

/-- To back a container up is to nest it, once its elements are at hand. -/
theorem walk_backUp {c : Container} {u : Unit} (still : E .still) (nest : E .nest)
    (ha : Account.Kept ⟨s, F, C, none⟩) (hc : s.container? id = some c) (hh : c.home < s.level)
    (hm : c.kind = .mapping → c.overlay = none) (h : backUp id s = .ok (u, s')) :
    Path E ⟨s, F, C, none⟩ ⟨s', F, C, none⟩ ∧ ∃ c', s'.container? id = some c' ∧
      c'.core = ({ c with home := s.level } : Container).core ∧ s'.level = s.level := by
  obtain ⟨hnew, c', values, s₄, s₅, c₅, hc', he, h₄, h₅, hc₅, rfl⟩ := backUp_eq_ok h
  obtain rfl := Option.some.inj (hc.symm.trans hc')
  have hfits : ∀ v ∈ values.toList, s.heap.Fits v := fun v hv =>
    ha.fits (Account.mem_refs_of_store (mem_refs_of_held hc (by
      rw [Container.held_eq, c.buffer_of_resident _ he]
      exact Multiset.mem_add.mpr (Or.inl hv))))
  have hself : s.heap.Fits (.ofContainer c.kind id) := by
    rintro shape other d hv hd
    obtain ⟨rfl, rfl⟩ := Value.container.inj hv
    obtain rfl := Option.some.inj (hc.symm.trans hd)
    rfl
  have hw₄ := wanes_retains h₄
  have hwalk := (walk_retains (F := F) (C := C) (q := none) still hfits h₄).trans
    (walk_retain still (hw₄.fits hself) h₅)
  have hplanes : s₅.planes = s.planes := (retain_eq_ok h₅).planes.trans (planes_of_retains h₄)
  have hlevel : s₅.level = s.level := by
    unfold Store.level
    rw [hplanes]
  obtain ⟨c₄, hc₄, hcore₄⟩ := exists_of_retains hc h₄
  obtain ⟨c', hc', hcore₅⟩ := (retain_eq_ok h₅).exists_container hc₄
  obtain rfl := Option.some.inj (hc₅.symm.trans hc')
  have hcore := hcore₅.trans hcore₄
  have hkind : c₅.kind = c.kind := Container.kind_of_core hcore
  cases hp : s.planes with
  | nil =>
    unfold Store.level at hh
    rw [hp] at hh
    cases hh
  | cons p rest =>
    have hnotBacked : p.isBacked id = false := by
      rw [hp] at hnew
      simpa using hnew
    have hstep := Nesting.backUp (F := F) (C := C) hc₅
      ((Container.elements_of_core hcore).trans he)
      (fun hk => (Container.overlay_of_core hcore).trans (hm (hkind ▸ hk)))
      (by rw [Container.home_of_core hcore, hlevel]; exact hh) (hplanes.trans hp) hnotBacked
    -- To retain what the backup holds changes counts alone, so the copy is that of the first store.
    have hbackup : ({ container := id, kind := c₅.kind, elements := values, size := c₅.size
                      home := c₅.home, scrubEpoch := c₅.scrubEpoch } : Backup) =
        { container := id, kind := c.kind, elements := values, size := c.size, home := c.home
          scrubEpoch := c.scrubEpoch } := by
      rw [hkind, Container.size_of_core hcore, Container.home_of_core hcore,
        Container.scrubEpoch_of_core hcore]
    rw [hbackup, hlevel, show Value.ofContainer c₅.kind id = Value.ofContainer c.kind id by
      rw [hkind], Refs.cons_add] at hstep
    refine ⟨hwalk.trans (.single nest (.nesting hstep)), { c₅ with home := s.level }, ?_, ?_, ?_⟩
    · rw [container?_withPlane]
      exact container?_withContainer_self hc₅
    · exact congrArg (fun d : Container => { d with home := s.level }) hcore
    · exact (level_withPlane _ _).trans hlevel

/-- A writable container is at home on the current plane, with its elements at hand. -/
theorem walk_makeWritable {u : Unit} (still : E .still) (nest : E .nest)
    (ha : Account.Kept ⟨s, F, C, none⟩) (h : makeWritable id s = .ok (u, s')) :
    Path E ⟨s, F, C, none⟩ ⟨s', F, C, none⟩ ∧ ∃ c values, s'.container? id = some c ∧
      c.home = s'.level ∧ c.elements = .resident values := by
  obtain ⟨s₁, c₀', h₁, hc, hrest⟩ := makeWritable_eq_ok h
  obtain ⟨hpath₁, c₀, values₀, hc₀, hc₁⟩ := walk_faultIn (F := F) (C := C) (q := none) still h₁
  obtain rfl := Option.some.inj (hc₁.symm.trans hc)
  rcases hrest with ⟨hhome, rfl⟩ | ⟨hbelow, s₂, hmerge, hback⟩
  · exact ⟨hpath₁, _, values₀, hc, hhome, rfl⟩
  obtain ⟨-, c₂, values₂, -, -, -, hc₂, he₂, -⟩ := backUp_eq_ok hback
  -- A mapping is merged before it is backed up; anything else has no overlay.
  have hmerged : Path (· = .still) ⟨s₁, F, C, none⟩ ⟨s₂, F, C, none⟩ ∧ c₂.label = c₀.label ∧
      (c₂.kind = .mapping → c₂.overlay = none) := by
    rcases hmerge with ⟨-, h₂⟩ | ⟨hk, rfl⟩
    · obtain ⟨hpath₂, hpost⟩ :=
        walk_mergeOverlay (E := (· = .still)) (F := F) (C := C) (q := none) rfl
        (fun hf => absurd hf (by decide)) (hpath₁.kept ha) (fun hf => absurd hf (by decide)) h₂
      obtain ⟨d, values, hd, -, ho, hlabel, -⟩ := hpost c₂ hc₂
      obtain rfl := Option.some.inj (hc.symm.trans hd)
      exact ⟨hpath₂, hlabel, fun _ => ho⟩
    · obtain rfl := Option.some.inj (hc.symm.trans hc₂)
      exact ⟨.refl _, rfl, fun hm => absurd hm hk⟩
  obtain ⟨hpath₂, hlabel, hoverlay⟩ := hmerged
  have hlevel : s₂.level = s₁.level := hpath₂.level (hpath₁.kept ha) (by
    rintro e rfl
    exact ⟨nofun, nofun⟩)
  have hhome₂ : c₂.home = c₀.home := congrArg (fun l => l.2.2.2) hlabel
  have hpath := hpath₁.trans (hpath₂.of_still still)
  obtain ⟨hpath₃, c', hc', hcore, hlevel'⟩ := walk_backUp still nest (hpath.kept ha) hc₂
    (show c₂.home < s₂.level by rw [hhome₂, hlevel]; exact hbelow) hoverlay hback
  refine ⟨hpath.trans hpath₃, c', values₂, hc', ?_, (Container.elements_of_core hcore).trans he₂⟩
  rw [hlevel', Container.home_of_core hcore]

/-! ## Changing one container -/

/-- One container is changed once; apart from that contents stay as they are. -/
def Makes (id : ContainerId) (ed : Edit) (a b : Account) : Prop :=
  ∃ c d, Path Effect.Readies a c ∧ Change id ed c d ∧ Path Effect.Readies d b

/-- An edit is a path that readies a container and changes it. -/
theorem Makes.path {id : ContainerId} {ed : Edit} {a b : Account} (still : E .still)
    (nest : E .nest)
    (change : E (.change id ed)) (h : Makes id ed a b) : Path E a b := by
  obtain ⟨c, d, hbefore, hchange, hafter⟩ := h
  have hmono : ∀ e : Effect, e.Readies → E e
    | _, .still => still
    | _, .nest => nest
  exact ((hbefore.mono hmono).tail change (.change hchange)).trans (hafter.mono hmono)

theorem Makes.path_trans {id : ContainerId} {ed : Edit} {a b c : Account} (h : Makes id ed b c)
    (hp : Path Effect.Readies a b) : Makes id ed a c := by
  obtain ⟨d, e, hbefore, hchange, hafter⟩ := h
  exact ⟨d, e, hp.trans hbefore, hchange, hafter⟩

theorem Makes.trans_path {id : ContainerId} {ed : Edit} {a b c : Account} (h : Makes id ed a b)
    (hp : Path Effect.Readies b c) : Makes id ed a c := by
  obtain ⟨d, e, hbefore, hchange, hafter⟩ := h
  exact ⟨d, e, hbefore, hchange, hafter.trans hp⟩

/-- To overwrite an element is an edit, of what a reader sees of the value. -/
theorem walk_put {c : Container} {i : Nat} {v : Value} {u : Unit}
    (ha : Account.Kept ⟨s, F, C, none⟩) (hv : F.Covers v) (hc : s.container? id = some c)
    (hh : c.home = s.level) (hk : c.kind ≠ .mapping) (h : Sequence.put id i v s = .ok (u, s')) :
    Makes id (.element i (s.seen v)) ⟨s, F, C, none⟩ ⟨s', F, C, none⟩ := by
  obtain ⟨c', s₁, h₁, h⟩ := StoreM.bind_eq_ok.mp h
  obtain ⟨hc', rfl⟩ := StoreM.container_eq_ok.mp h₁
  obtain rfl := Option.some.inj (hc.symm.trans hc')
  obtain ⟨w, s₂, h₂, h⟩ := StoreM.bind_eq_ok.mp h
  obtain ⟨hw, rfl⟩ := StoreM.scrub_eq_ok.mp h₂
  obtain ⟨_, s₃, h₃, h⟩ := StoreM.bind_eq_ok.mp h
  obtain ⟨old, s₄, h₄, h⟩ := StoreM.bind_eq_ok.mp h
  rw [← scrubbed_eq hw]
  obtain ⟨hpath, halive⟩ := walk_charge ha hv hw h₃
  obtain ⟨c₃, hc₃, hcore⟩ := exists_of_acquire hc h₃
  obtain ⟨c', values', hc', he', hi, rfl⟩ := exchange_eq_ok h₄
  obtain rfl := Option.some.inj (hc₃.symm.trans hc')
  have howner := Container.owner_of_core hcore
  refine ⟨_, _, hpath.readies, ?_, walk_relinquish .still h⟩
  rw [← howner]
  exact .overwrite hc₃
    ((Container.home_of_core hcore).trans (hh.trans (wanes_acquire h₃).level.symm))
    (Container.kind_of_core hcore ▸ hk) he' hi halive

/-! ## Mappings that may be written to -/

/-- A mapping of the plane on top whose elements are in memory. -/
structure Store.Writable (s : Store) (id : ContainerId) (c : Container) (values : Array Value) :
    Prop where
  container : s.container? id = some c
  home : c.home = s.level
  kind : c.kind = .mapping
  elements : c.elements = .resident values

/-- Whether a mapping is writable depends on its core alone. -/
theorem Store.Writable.of_core {c c' : Container} {values : Array Value}
    (hm : s.Writable id c values) (hc' : s'.container? id = some c') (hcore : c'.core = c.core)
    (hlevel : s'.level = s.level) : s'.Writable id c' values where
  container := hc'
  home := (Container.home_of_core hcore).trans (hm.home.trans hlevel.symm)
  kind := (Container.kind_of_core hcore).trans hm.kind
  elements := (Container.elements_of_core hcore).trans hm.elements

/-- To take a reference leaves a mapping writable. -/
theorem Store.Writable.acquired {c : Container} {values : Array Value} {ds : DataspaceId}
    {v : Value} {u : Unit} (hm : s.Writable id c values) (h : acquire ds v s = .ok (u, s')) :
    ∃ c', s'.Writable id c' values ∧ c'.core = c.core := by
  obtain ⟨c', hc', hcore⟩ := exists_of_acquire hm.container h
  exact ⟨c', hm.of_core hc' hcore (wanes_acquire h).level, hcore⟩

/-! ## Writing a key -/

/-- There is room for a key in a mapping, unless the key is there already. -/
def Mapping.Roomy (s : Store) (c : Container) (values : Array Value) (key : Value) : Prop :=
  s.heap.seek (Pair.ofBuffer values) c.overlay (s.heap.identity key) = none →
    c.size < s.limits.containerSize

/-- Where a mapping is left alone there stays room in it. -/
theorem Path.roomy {a b : Account} {c c' : Container} {values values' : Array Value} {key : Value}
    (h : Path E a b) (ha : a.Kept) (hleaves : ∀ e, E e → e.Leaves id) (hcalm : ∀ e, E e → e.Calm)
    (hkey : b.refs.Covers key) (hc : a.store.container? id = some c)
    (he : c.elements = .resident values) (hc' : b.store.container? id = some c')
    (he' : c'.elements = .resident values') (hk' : c'.kind = .mapping)
    (hr : Mapping.Roomy a.store c values key) : Mapping.Roomy b.store c' values' key := by
  have hx' := content?_of_container hc'
  obtain ⟨x, hx, -, hfind⟩ := h.find ha hleaves hx' hk'
  obtain rfl := Option.some.inj ((content?_of_container hc).symm.trans hx)
  obtain ⟨y, hy, -, hsize⟩ := h.size ha hleaves hx'
  obtain rfl := Option.some.inj ((content?_of_container hc).symm.trans hy)
  rw [(h.kept ha).accounted.size_content hc', ha.accounted.size_content hc] at hsize
  intro hnone
  rw [(h.stands ha hcalm hkey).identity, ← Content.find_of_resident he' b.store.swap, hfind,
    Content.find_of_resident he] at hnone
  rw [hsize, h.limits ha]
  exact hr hnone

/-- A key that is not pending is parked, unless it could be overwritten in place. -/
theorem walk_park {s₁ : Store} {c c₁ : Container} {values : Array Value} {key value : Value}
    {hash : UInt32} {w : Mapping.Whereabouts}
    (ha : Account.Kept ⟨s, F, .of c.owner [value] + C, none⟩) (hkey : F.Covers key)
    (hvalue : F.Covers value) (hka : s.Alive key) (hva : s.Alive value) (hkn : key ≠ .nil)
    (hvn : value ≠ .nil) (hm : s.Writable id c values) (hroom : Mapping.Roomy s c values key)
    (hhash : s.heap.hash key = .ok hash) (hl : Mapping.Located s.heap c.overlay values key w)
    (hpending : w.pending = none) (hover : ∀ i, w.sorted = some i → w.dirty = true)
    (h : acquire c.owner key s = .ok ((), s₁)) (hc₁ : s₁.container? id = some c₁) :
    Makes id (.entry (s.heap.identity key) (some value)) ⟨s, F, .of c.owner [value] + C, none⟩
      ⟨s₁.withContainer id { c₁ with
        overlay := some ((c₁.overlay.getD (.ofBuckets s₁.limits.overlayBuckets)).insert
          ⟨hash, w.sorted.isNone, key, value⟩) }, F, C, none⟩ := by
  have hpath := walk_acquire (E := (· = .still)) (F := F) (C := .of c.owner [value] + C) (q := none)
    rfl (ha.fits_of_covers hkey) h
  obtain ⟨c', hm₁, hcore⟩ := hm.acquired h
  obtain rfl := Option.some.inj (hc₁.symm.trans hm₁.container)
  have ho := Container.overlay_of_core hcore
  have hl₁ := ho ▸ hpath.located ha Effect.calm_of_still hkey.of_flight hc₁ hm₁.elements ho hl
  have hroom₁ := hpath.roomy ha Effect.leaves_of_still Effect.calm_of_still hkey.of_flight
    hm.container hm.elements hc₁ hm₁.elements hm₁.kind hroom
  have hstands := hpath.stands ha Effect.calm_of_still hkey.of_flight
  have hka₁ := hpath.alive ha Effect.calm_of_still hkey.of_flight hka
  have hva₁ := hpath.alive ha Effect.calm_of_still hvalue.of_flight hva
  rw [← Container.owner_of_core hcore, ← add_assoc, ← Charges.of_cons] at hpath
  rw [← Container.owner_of_core hcore, ← hstands.identity]
  refine ⟨_, _, hpath.readies, .park (e := ⟨hash, w.sorted.isNone, key, value⟩) hc₁
    hm₁.home hm₁.kind
    hm₁.elements hka₁ hva₁ ⟨hkn, hvn⟩ ?_ ?_ ?_ (fun ho => ?_) fun hadded => ?_, .refl _⟩
  · exact Heap.hash_congr hstands.place hstands.text hhash
  · exact hl₁.unparked hpending
  · rw [Option.isNone_iff_eq_none]
    exact hl₁.absent
  · have hdirty : w.dirty = false := by rw [hl₁.dirty, ho]; rfl
    cases hsorted : w.sorted with
    | none => rfl
    | some i => cases (hover i hsorted).symm.trans hdirty
  · exact hroom₁ (hl₁.seek_eq_none hpending (Option.isNone_iff_eq_none.mp hadded))

/-- A key is written: over its pending write, over its sorted pair, or by parking it. -/
theorem walk_write {c : Container} {values : Array Value} {key value : Value} {u : Unit}
    (ha : Account.Kept ⟨s, F, C, none⟩) (hkey : F.Covers key) (hvalue : F.Covers value)
    (hka : s.Alive key) (hva : s.Alive value) (hkn : key ≠ .nil) (hvn : value ≠ .nil)
    (hm : s.Writable id c values) (hroom : Mapping.Roomy s c values key)
    (h : Mapping.write id key value s = .ok (u, s')) :
    Makes id (.entry (s.heap.identity key) (some value)) ⟨s, F, C, none⟩ ⟨s', F, C, none⟩ := by
  obtain ⟨c', hash, w, s₁, hc', hhash, h₁, h₂, hstores⟩ := Mapping.write_eq_ok h
  obtain rfl := Option.some.inj (hm.container.symm.trans hc')
  obtain ⟨ht, hp⟩ := ha.tables hc' hm.kind hm.elements
  obtain ⟨-, hl⟩ := Mapping.locate_eq_ok hc' hm.elements ht hp hhash h₁
  have hpath := walk_acquire (E := (· = .still)) (F := F) (C := C) (q := none) rfl
    (ha.fits_of_covers hvalue) h₂
  obtain ⟨c₁, hm₁, hcore⟩ := hm.acquired h₂
  have hc₁ := hm₁.container
  have ho₁ := Container.overlay_of_core hcore
  have hva₁ := hpath.alive ha Effect.calm_of_still hvalue.of_flight hva
  have hstands := hpath.stands ha Effect.calm_of_still hkey.of_flight
  have hl₁ := ho₁ ▸ hpath.located ha Effect.calm_of_still hkey.of_flight hc₁ hm₁.elements ho₁ hl
  rw [← Container.owner_of_core hcore] at hstores hpath
  rw [← hstands.identity]
  -- To acquire the value comes first, and only makes ready for the change.
  refine Makes.path_trans ?_ hpath.readies
  cases hstores with
  | pending hpending hc' ho hi h =>
    obtain rfl := Option.some.inj (hc₁.symm.trans hc')
    obtain ⟨o', e', ho', hi', hek⟩ := hl₁.pending hpending
    obtain rfl := Option.some.inj (ho.symm.trans ho')
    obtain rfl := Option.some.inj (hi.symm.trans hi')
    rw [← hek]
    exact ⟨_, _, .refl _, .overwritePending hc₁ hm₁.home ho hi hva₁ hvn, walk_relinquish .still h⟩
  | sorted hpending hsorted hdirty hc' he' hi h =>
    obtain rfl := Option.some.inj (hc₁.symm.trans hc')
    obtain rfl := Elements.resident.inj (hm₁.elements.symm.trans he')
    obtain ⟨-, hek⟩ := hl₁.sorted hsorted
    rw [← hek]
    exact ⟨_, _, .refl _, .overwriteValue hc₁ hm₁.home hm₁.kind he' (hl₁.clean hdirty) hi hva₁ hvn,
      walk_relinquish .still h⟩
  | parked hpending hover hacquire hc₂ hs =>
    subst hs
    exact walk_park (hpath.kept ha) hkey hvalue
      (hpath.alive ha Effect.calm_of_still hkey.of_flight hka) hva₁ hkn hvn hm₁
      (hpath.roomy ha Effect.leaves_of_still Effect.calm_of_still hkey.of_flight hc' hm.elements hc₁
        hm₁.elements hm₁.kind hroom)
      (Heap.hash_congr hstands.place hstands.text hhash) hl₁ hpending hover hacquire hc₂

/-! ## Deleting a key -/

/-- A container was replaced, and then references were given up. -/
theorem Store.content_of_replaced {c d : Container} {x' : Content} {ds : DataspaceId}
    {vs : List Value} {u : Unit}
    (hc : s.container? id = some c) (h : relinquish ds vs (s.withContainer id d) = .ok (u, s'))
    (hs : (s.withContainer id d).Stored) (hx' : s'.content? id = some x') :
    x' = d.content s.swap := by
  rcases content?_withContainer_cases hc ((wanes_relinquish hs h).content? hx') with
    ⟨-, rfl⟩ | ⟨hne, -⟩
  · rfl
  · exact absurd rfl hne

/-- A mapping that had a pending write taken back may still be written to. -/
theorem Store.Writable.taken {c c' : Container} {values : Array Value} {o : Overlay}
    {ds : DataspaceId} {vs : List Value} {u : Unit} (hm : s.Writable id c values)
    (hs : (s.withContainer id { c with overlay := some o }).Stored)
    (h : relinquish ds vs (s.withContainer id { c with overlay := some o }) = .ok (u, s'))
    (hc' : s'.container? id = some c') :
    s'.Writable id c' values ∧ c'.core = ({ c with overlay := some o } : Container).core := by
  have hw := wanes_relinquish hs h
  obtain ⟨d, hd, hcore⟩ := hw.container id c' hc'
  obtain rfl := Option.some.inj ((container?_withContainer_self hm.container).symm.trans hd)
  have hset : Store.Writable (s.withContainer id { c with overlay := some o }) id
      { c with overlay := some o } values := ⟨hd, hm.home, hm.kind, hm.elements⟩
  exact ⟨hset.of_core hc' hcore hw.level, hcore⟩

/-- To take a pair out of the sorted pairs is to edit the entry of its key. -/
theorem walk_deleteSorted {c : Container} {values : Array Value} {key : Value} {u : Unit}
    {w : Mapping.Whereabouts} (ha : Account.Kept ⟨s, F, C, none⟩) (hm : s.Writable id c values)
    (hl : Mapping.Located s.heap c.overlay values key w) (hpending : w.pending = none)
    (h : Mapping.deleteSorted id c.owner w.sorted s = .ok (u, s')) :
    Makes id (.entry (s.heap.identity key) none) ⟨s, F, C, none⟩ ⟨s', F, C, none⟩ ∧
      (s.Extended id → s'.Extended id) := by
  obtain ⟨hc, hh, hk, he⟩ := hm
  obtain ⟨i, c', values', hsorted, hc', he', h⟩ := Mapping.deleteSorted_eq_ok h
  obtain rfl := Option.some.inj (hc.symm.trans hc')
  obtain rfl := Elements.resident.inj (he.symm.trans he')
  obtain ⟨hlt, hek⟩ := hl.sorted hsorted
  have hstep := Change.deletePair (F := F) (C := C) hc hh hk he hlt
    fun o ho j e hj => hek ▸ hl.unparked hpending o ho j e hj
  refine ⟨⟨_, _, .refl _, hek ▸ hstep, walk_relinquish .still h⟩, fun hx => ?_⟩
  have hdrop := walk_relinquish (E := (· = .still)) (F := F) (C := C) (q := none) rfl h
  refine hdrop.extended (Step.kept (.change hstep) ha) (by rintro _ rfl k; nofun) ?_
  exact extended_withContainer hc (hx _ (content?_of_container hc))

/-- With its pending write taken back a key is only among the sorted pairs. -/
theorem Mapping.Located.taken {h : Heap} {o o' : Overlay} {values : Array Value} {key : Value}
    {w : Whereabouts} {i : Nat} {e : OverlayEntry} (hl : Located h (some o) values key w)
    (hp : h.Pending (Pair.ofBuffer values) o) (hpending : w.pending = some i)
    (hr : o.remove i = .ok (e, o')) :
    h.identity e.key = h.identity key ∧
      Located h (some o') values key { w with pending := none, dirty := true } := by
  obtain ⟨he, rfl⟩ := Overlay.remove_eq_ok.mp hr
  obtain ⟨o', e', ho', he', hek⟩ := hl.pending hpending
  obtain rfl := Option.some.inj ho'
  obtain rfl := Option.some.inj (he.symm.trans he')
  refine ⟨hek, nofun, fun _ o' ho' j d hd => ?_, hl.sorted, hl.absent, rfl⟩
  obtain rfl := Option.some.inj ho'
  obtain ⟨hne, hd⟩ := Heap.Pending.get?_erase.mp hd
  intro hdk
  exact hne (hp.distinct he hd (hek.trans hdk.symm))

/--
The pending write of a key is taken back: the key has the value that it has among the sorted pairs,
and if there are additions left the overlay stays.
-/
theorem walk_takePending {c : Container} {values : Array Value} {key : Value}
    {w : Mapping.Whereabouts}
    {i : Nat} {e : OverlayEntry} {additionsLeft : Bool} {u : Unit} {s₁ : Store}
    (ha : Account.Kept ⟨s, F, C, none⟩) (hm : s.Writable id c values)
    (hl : Mapping.Located s.heap c.overlay values key w) (hpending : w.pending = some i)
    (h : Mapping.takePending id i s = .ok ((e, additionsLeft), s₁))
    (h' : relinquish c.owner [e.key, e.value] s₁ = .ok (u, s')) :
    ∃ o o', c.overlay = some o ∧ o.remove i = .ok (e, o') ∧
      additionsLeft = decide (o'.addedCount ≠ 0) ∧
      s₁ = s.withContainer id { c with overlay := some o' } ∧
      o'.addedCount + Overlay.additions e = o.addedCount ∧
      (e.added = true ↔ s.heap.find (Pair.ofBuffer values) (s.heap.identity key) = none) ∧
      Mapping.Located s.heap (some o') values key { w with pending := none, dirty := true } ∧
      Change id (.entry (s.heap.identity key)
        (s.heap.find (Pair.ofBuffer values) (s.heap.identity key))) ⟨s, F, C, none⟩
        ⟨s₁, F, .of c.owner [e.key, e.value] + C, none⟩ ∧
      (o'.addedCount ≠ 0 → s'.Extended id) := by
  obtain ⟨hc, hh, hk, he⟩ := hm
  obtain ⟨-, hp⟩ := ha.tables hc hk he
  obtain ⟨c', o, o', hc', ho, hremove, hleft, rfl⟩ := Mapping.takePending_eq_ok h
  obtain rfl := Option.some.inj (hc.symm.trans hc')
  obtain ⟨hi, ho'⟩ := Overlay.remove_eq_ok.mp hremove
  rw [ho] at hl
  obtain ⟨hek, hl'⟩ := hl.taken (hp o ho) hpending hremove
  rw [← hek]
  have htake := Change.unpark (F := F) (C := C) hc hh he ho hremove
  refine ⟨o, o', ho, hremove, hleft, rfl, ?_, (hp o ho).added hi, hl', htake, fun hcount => ?_⟩
  · rw [ho']
    exact (hp o ho).filed.addedCount_without hi
  · have hdrop := walk_relinquish (E := (· = .still)) (F := F) (C := C) (q := none) rfl h'
    exact hdrop.extended (Step.kept (.change htake) ha) (by rintro _ rfl k; nofun)
      (extended_withContainer hc (by rintro _ ⟨⟩; exact hcount))

/-- A key is deleted: its pending write goes, and then its sorted pair. -/
theorem walk_delete {c : Container} {values : Array Value} {key : Value} {u : Unit}
    (ha : Account.Kept ⟨s, F, C, none⟩) (hkey : F.Covers key) (hm : s.Writable id c values)
    (h : Mapping.delete id key s = .ok (u, s')) :
    ∃ b : Account, (b = ⟨s, F, C, none⟩ ∨
        ∃ r, Makes id (.entry (s.heap.identity key) r) ⟨s, F, C, none⟩ b) ∧
      Account.SameSize id ⟨s, F, C, none⟩ b ∧
      Makes id (.entry (s.heap.identity key) none) b ⟨s', F, C, none⟩ ∧
      (s.Extended id → s'.Extended id) := by
  have hc := hm.container
  obtain ⟨c', hash, w, hc', hhash, h₁, hdeletes⟩ := Mapping.delete_eq_ok h
  obtain rfl := Option.some.inj (hc.symm.trans hc')
  obtain ⟨ht, hp⟩ := ha.tables hc hm.kind hm.elements
  obtain ⟨-, hl⟩ := Mapping.locate_eq_ok hc hm.elements ht hp hhash h₁
  rcases hdeletes with ⟨hpending, hlast⟩ | ⟨i, e, additionsLeft, s₁, s₂, hpending, h₁, h₂, hlast⟩
  · exact ⟨_, Or.inl rfl, fun x hx => ⟨x, hx, rfl⟩, walk_deleteSorted ha hm hl hpending hlast⟩
  obtain ⟨o, o', ho, -, hleft, rfl, hcount, hnew, hl', htake, hextended⟩ :=
    walk_takePending ha hm hl hpending h₁ h₂
  have ha₁ := Step.kept (.change htake) ha
  have hdrop := walk_relinquish (E := (· = .still)) (F := F) (C := C) (q := none) rfl h₂
  rcases hlast with ⟨hadded, hlast⟩ | ⟨hadded, rfl, rfl⟩ | ⟨hadded, -, hlast⟩
  · have htaken : Path Effect.Calm ⟨s, F, C, none⟩ ⟨s₂, F, C, none⟩ :=
      (Path.single trivial (.change htake)).trans (hdrop.mono Effect.calm_of_still)
    obtain ⟨-, c₂, -, -, hc₂, -⟩ := Mapping.deleteSorted_eq_ok hlast
    obtain ⟨hm₂, hcore⟩ := hm.taken ha₁.accounted.stored h₂ hc₂
    have ho₂ := Container.overlay_of_core hcore
    have hl₂ := ho₂ ▸ htaken.located ha (fun _ he => he) hkey.of_flight hc₂ hm₂.elements ho₂ hl'
    have hlast : Mapping.deleteSorted id c₂.owner w.sorted s₂ = .ok ((), s') :=
      Container.owner_of_core hcore ▸ hlast
    obtain ⟨hmakes, hafter⟩ := walk_deleteSorted (w := { w with pending := none, dirty := true })
      (hdrop.kept ha₁) hm₂ hl₂ rfl hlast
    rw [(htaken.stands ha (fun _ he => he) hkey.of_flight).identity] at hmakes
    -- A write to a sorted key is no addition, so there are as many without it.
    rw [Overlay.additions, hadded, if_neg Bool.false_ne_true, Nat.add_zero] at hcount
    refine ⟨_, Or.inr ⟨_, _, _, .refl _, htake, hdrop.readies⟩, fun x' hx' => ?_, hmakes, fun hx =>
      hafter (hextended (hcount ▸ hx _ (content?_of_container hc) o ho))⟩
    refine ⟨_, content?_of_container hc, ?_⟩
    obtain rfl := content_of_replaced hc h₂ ha₁.accounted.stored hx'
    unfold Content.size
    rw [show (c.content s.swap).overlay = some o from ho]
    exact congrArg _ hcount
  · rw [hnew.mp hadded] at htake
    exact ⟨_, Or.inl rfl, fun x hx => ⟨x, hx, rfl⟩, ⟨_, _, .refl _, htake, hdrop.readies⟩,
      fun _ => hextended (of_decide_eq_true hleft.symm)⟩
  · rw [hnew.mp hadded] at htake
    obtain ⟨hmerge, hpost⟩ := walk_mergeOverlay (E := (· = .still)) rfl
      (fun hf => absurd hf (by decide)) (hdrop.kept ha₁) (fun hf => absurd hf (by decide)) hlast
    refine ⟨_, Or.inl rfl, fun x hx => ⟨x, hx, rfl⟩,
      ⟨_, _, .refl _, htake, (hdrop.trans hmerge).readies⟩, fun _ x hx => ?_⟩
    obtain ⟨c', hc', rfl⟩ := content?_eq_some.mp hx
    obtain ⟨-, -, -, -, hnone, -⟩ := hpost c' hc'
    intro o₁ ho₁
    rw [show (c'.content s'.swap).overlay = none from hnone] at ho₁
    cases ho₁

/-! ## Assignment -/

/-- A change of one entry keeps the account in order. -/
theorem kept_change {c : Container} {values : Array Value} {key value : Value} {u : Unit}
    (ha : Account.Kept ⟨s, F, C, none⟩) (hkey : F.Covers key) (hvalue : F.Covers value)
    (hka : s.Alive key) (hva : s.Alive value) (hkn : key ≠ .nil) (hm : s.Writable id c values)
    (hroom : Mapping.Roomy s c values key) (h : Mapping.change id key value s = .ok (u, s')) :
    Account.Kept ⟨s', F, C, none⟩ := by
  unfold Mapping.change at h
  split at h
  · obtain ⟨b, hb, -, hlast, -⟩ := walk_delete ha hkey hm h
    refine (hlast.path (E := fun _ => True) trivial trivial trivial).kept ?_
    rcases hb with rfl | ⟨r, hb⟩
    · exact ha
    · exact (hb.path (E := fun _ => True) trivial trivial trivial).kept ha
  · next hnil =>
    have hvn : value ≠ .nil := fun hn => hnil (Value.isNil_iff.mpr hn)
    have hmake := walk_write ha hkey hvalue hka hva hkn hvn hm hroom h
    exact (hmake.path (E := fun _ => True) trivial trivial trivial).kept ha

/-- What was let through by the limits has room. -/
theorem roomy_of_requireGrowth {c : Container} {values : Array Value} {key found : Value}
    (hc : s.container? id = some c) (hfound : found =
      (s.heap.seek (Pair.ofBuffer values) c.overlay (s.heap.identity key)).getD .nil)
    (h : Mapping.requireGrowth id (!found.isNil) s = .ok (.ok (), s')) :
    s = s' ∧ Mapping.Roomy s c values key := by
  obtain ⟨rfl, hroom⟩ := Mapping.requireGrowth_eq_ok hc h
  refine ⟨rfl, fun hnone => ?_⟩
  rw [hnone] at hfound
  exact (hroom.resolve_right nofun).2 (by rw [hfound]; rfl)

/--
What an assignment to a mapping that was not refused did. Before a key is deleted that is pending as
well as sorted, the pending write is taken back, which does not change the size.
-/
inductive Mapping.Assigned (id : ContainerId) (k : Identity) :
    Value → Account → Account → Prop where
  | written {w : Value} {a b : Account} (hw : w ≠ .nil) (h : Makes id (.entry k (some w)) a b)
      (hnoted : b.store.Noted id) : Assigned id k w a b
  | deleted {a b c : Account} (h : Path Effect.Readies a b ∨ ∃ r, Makes id (.entry k r) a b)
      (hsize : Account.SameSize id a b) (h' : Makes id (.entry k none) b c)
      (hextended : a.store.Extended id → c.store.Extended id) (hnoted : c.store.Noted id) :
      Assigned id k .nil a c
  | absent {a b : Account} (h : Path (· = .still) a b)
      (hk : ∃ c values, b.store.container? id = some c ∧ c.elements = .resident values ∧
        b.store.heap.seek (Pair.ofBuffer values) c.overlay k = none) : Assigned id k .nil a b

/--
A request that was refused left contents as they are, and one that was not did what it is for.
-/
def Settles {α : Type} (r : Except Refusal α) (P : α → Account → Account → Prop) (a b : Account) :
    Prop :=
  match r with
  | .ok x => P x a b
  | .error _ => Path (· = .still) a b

/-- An assignment to a mapping is one edit of the entry of its key, or refused. -/
theorem walk_mapAssign {key value : Value} {r : Except Refusal Unit}
    (ha : Account.Kept ⟨s, F, C, none⟩) (hm : F.Covers (.container .mapping id))
    (hkey : F.Covers key)
    (hvalue : F.Covers value) (h : Mapping.assign id key value s = .ok (r, s')) :
    Settles r (fun _ => Mapping.Assigned id (s.heap.identity key) (s.seen value))
      ⟨s, F, C, none⟩ ⟨s', F, C, none⟩ := by
  rcases Mapping.assign_eq_ok h with ⟨-, rfl, rfl⟩ | ⟨hx, hxn, s₁, w, found, h₁, hw, h₂, hassigns⟩
  · exact .refl _
  obtain ⟨hpath₁, c₀, values, hc₀, hc₁⟩ :=
    walk_faultIn (E := (· = .still)) (F := F) (C := C) (q := none) rfl h₁
  have ha₁ := hpath₁.kept ha
  have hk₁ := (ha₁.fits_of_covers hm).mapping hc₁
  obtain ⟨ht, hp⟩ := ha₁.tables hc₁ hk₁ rfl
  obtain ⟨-, hfound⟩ := Mapping.lookup_eq_ok hc₁ rfl ht hp h₂
  have hid₁ := (hpath₁.stands ha Effect.calm_of_still hkey.of_flight).identity
  have hseen : w = s.seen value :=
    (scrubbed_eq hw).trans (hpath₁.seen ha Effect.calm_of_still hvalue.of_flight)
  rw [← hseen]
  cases hassigns with
  | idle hnil hnone =>
    subst hnil hnone
    refine .absent hpath₁ ⟨_, values, hc₁, rfl, ?_⟩
    rw [← hid₁]
    cases hv : s'.heap.seek (Pair.ofBuffer values) c₀.overlay (s'.heap.identity key) with
    | none => rfl
    | some v =>
      rw [hv] at hfound
      obtain rfl : .nil = v := hfound
      exact absurd hv (Heap.seek_ne_nil ht hp)
  | full => exact hpath₁
  | @changed s₂ s₃ _ _ hgrowth hready hchange hreport =>
    obtain ⟨-, hroom⟩ := roomy_of_requireGrowth hc₁ hfound hgrowth
    obtain ⟨hpath₂, c₂, values₂, hc₂, hh₂, he₂⟩ :=
      walk_makeWritable Effect.Readies.still .nest ha₁ hready
    have hpath := hpath₁.readies.trans hpath₂
    have ha₂ := hpath.kept ha
    have hk₂ := (ha₂.fits_of_covers hm).mapping hc₂
    have hnoted := noted_of_report hreport
    have hreported := walk_report (F := F) (C := C) (q := none) Effect.Readies.still hreport
    have hid := (hpath.stands ha Effect.Readies.calm hkey.of_flight).identity
    have hwF := hvalue.scrubbed hw
    have hka := hpath.alive ha Effect.Readies.calm hkey.of_flight hx
    have hwa := hpath₂.alive ha₁ Effect.Readies.calm hwF.of_flight (alive_of_scrubbed hw)
    have hroom₂ := hpath₂.roomy ha₁ Effect.Readies.leaves Effect.Readies.calm hkey.of_flight hc₁ rfl
      hc₂ he₂ hk₂ hroom
    have hm₂ : s₂.Writable id c₂ values₂ := ⟨hc₂, hh₂, hk₂, he₂⟩
    have ha₃ := kept_change ha₂ hkey hwF hka hwa hxn hm₂ hroom₂ hchange
    show Mapping.Assigned id _ w _ _
    rw [← hid]
    unfold Mapping.change at hchange
    split at hchange
    · next hnil =>
      obtain rfl := Value.isNil_iff.mp hnil
      obtain ⟨b, hb, hsize, hlast, hextended⟩ := walk_delete ha₂ hkey hm₂ hchange
      have hkeeps : ∀ e : Effect, e.Readies → ∀ k, e ≠ .change id (.entry k none) := by
        rintro _ (_ | _) k <;> nofun
      refine .deleted ?_ (.trans (hpath.sameSize ha Effect.Readies.leaves) hsize)
        (hlast.trans_path hreported)
        (fun hx => hreported.extended ha₃ hkeeps (hextended (hpath.extended ha hkeeps hx))) hnoted
      rcases hb with rfl | ⟨r, hb⟩
      · exact Or.inl hpath
      · exact Or.inr ⟨r, hb.path_trans hpath⟩
    · next hnil =>
      have hwn : w ≠ .nil := fun hn => hnil (Value.isNil_iff.mpr hn)
      have hmake := walk_write ha₂ hkey hwF hka hwa hxn hwn hm₂ hroom₂ hchange
      exact .written hwn ((hmake.path_trans hpath).trans_path hreported) hnoted

/-- What was assigned was edited on a path. -/
theorem Mapping.Assigned.path {k : Identity} {w : Value} {a b : Account} (still : E .still)
    (nest : E .nest) (change : ∀ k r, E (.change id (.entry k r))) (h : Assigned id k w a b) :
    Path E a b := by
  have hmono : ∀ e : Effect, e.Readies → E e
    | _, .still => still
    | _, .nest => nest
  cases h with
  | written hw h => exact h.path still nest (change _ _)
  | deleted h _ h' =>
    refine Path.trans ?_ (h'.path still nest (change _ _))
    rcases h with h | ⟨r, h⟩
    · exact h.mono hmono
    · exact h.path still nest (change _ _)
  | absent h => exact h.readies.mono hmono

/-- What an assignment to a value may change. -/
inductive Value.Edits : Value → ContainerId → Edit → Prop where
  | entry {id : ContainerId} {k : Identity} {r : Option Value} :
    Edits (.container .mapping id) id (.entry k r)
  | element {shape : Shape} {id : ContainerId} {i : Nat} {w : Value} (hs : shape ≠ .mapping) :
    Edits (.container shape id) id (.element i w)

/-- An assignment is one edit of the element or entry, or refused. -/
theorem walk_assign {v key value : Value} {r : Except Refusal Unit} (still : E .still)
    (nest : (∃ u, r = .ok u) → E .nest)
    (change : (∃ u, r = .ok u) → ∀ id ed, v.Edits id ed → E (.change id ed))
    (ha : Account.Kept ⟨s, F, C, none⟩) (hv : F.Covers v) (hkey : F.Covers key)
    (hvalue : F.Covers value)
    (h : Sequence.assign v key value s = .ok (r, s')) :
    Path E ⟨s, F, C, none⟩ ⟨s', F, C, none⟩ := by
  cases v with
  | container shape id =>
    by_cases hs : shape = .mapping
    · subst hs
      have hwalk := walk_mapAssign ha hv hkey hvalue h
      cases r with
      | ok u =>
        exact Mapping.Assigned.path still (nest ⟨u, rfl⟩)
          (fun k r => change ⟨u, rfl⟩ id (.entry k r) .entry) hwalk
      | error e => exact Path.of_still still hwalk
    obtain ⟨s₁, h₁, hassigned⟩ := Sequence.assign_eq_ok hs h
    obtain ⟨hpath₁, -⟩ := walk_faultIn (F := F) (C := C) (q := none) still h₁
    rcases hassigned with ⟨e, -, rfl, rfl⟩ | ⟨i, s₂, -, h₂, rfl, h₃⟩
    · exact hpath₁
    have nest := nest ⟨(), rfl⟩
    obtain ⟨hpath₂, c, values, hc, hh, -⟩ := walk_makeWritable still nest (hpath₁.kept ha) h₂
    have hpath := hpath₁.trans hpath₂
    have hk := ((hpath.kept ha).fits_of_covers hv).not_mapping hc hs
    exact hpath.trans
      ((walk_put (hpath.kept ha) hvalue hc hh hk h₃).path still nest
        (change ⟨(), rfl⟩ _ _ (.element hs)))
  | _ =>
    obtain ⟨-, rfl⟩ := ClientM.refuse_eq_ok.mp h
    exact .refl _

end

end PlaneStore
