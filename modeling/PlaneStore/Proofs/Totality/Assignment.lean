import PlaneStore.Proofs.Mapping.ValuesUnderKeys
import PlaneStore.Proofs.Walk.Assignment
import PlaneStore.Proofs.Totality.Upkeep

/-!
# No faults: changing elements

A container whose home lies further out was not backed up on the current plane yet, so backing it up
does not fail. Where a key was located, there it can be overwritten, parked or deleted; and a key
that was found is still there after its mapping was made writable.
-/

namespace PlaneStore

open Store

section

variable {s s' : Store} {F : Refs} {C : Charges} {id : ContainerId} {c : Container}

/-! ## Backing up -/

/-- A container whose home lies further out is not backed up on the current plane. -/
theorem Account.Kept.not_backed (ha : Account.Kept ⟨s, F, C, none⟩)
    (hc : s.container? id = some c) (hh : c.home < s.level) :
    s.planes.head?.any (·.isBacked id) = false := by
  have htrail := ha.trail hc
  cases hp : s.planes with
  | nil => rfl
  | cons p rest =>
    unfold Store.stays at htrail
    unfold Store.level at hh
    rw [hp, List.map_cons] at htrail
    rw [hp, List.length_cons] at hh
    obtain ⟨hstay, -⟩ := htrail.untouched (by rw [List.length_map]; omega)
    have hcensus : p.census[id]? = none := congrArg Prod.fst hstay
    simp [Plane.isBacked, hcensus]

/-- A container that belongs further out has no backup on the current plane, so one can be made. -/
theorem succeeds_backUp {values : Array Value} (ha : Account.Kept ⟨s, F, C, none⟩)
    (hc : s.container? id = some c) (he : c.elements = .resident values) (hh : c.home < s.level) :
    Succeeds (backUp id) s := by
  refine Succeeds.get_bind ?_
  rw [ha.not_backed hc hh]
  refine Succeeds.bind (.container hc) fun c' t h => ?_
  obtain ⟨hc', rfl⟩ := StoreM.container_eq_ok.mp h
  obtain rfl := Option.some.inj (hc.symm.trans hc')
  refine Succeeds.bind (succeeds_residentValues hc he) fun values' t h => ?_
  obtain ⟨⟨c', hc', he'⟩, rfl⟩ := StoreM.residentValues_eq_ok.mp h
  obtain rfl := Option.some.inj (hc.symm.trans hc')
  have hthere := ha.has_values hc he'
  refine Succeeds.bind (succeeds_retains fun v hv => hthere v (Array.mem_toList_iff.mp hv))
    fun u s₁ h₁ => ?_
  obtain ⟨c₁, hc₁, hcore₁⟩ := exists_of_retains hc h₁
  have hself : s₁.There (.ofContainer c.kind id) := by
    refine ⟨fun shape other hother => ?_, nofun⟩
    obtain ⟨rfl, rfl⟩ := Value.container.inj hother
    exact ⟨c₁, hc₁⟩
  refine Succeeds.bind (succeeds_retain hself) fun u s₂ h₂ => ?_
  obtain ⟨c₂, hc₂, -⟩ := (retain_eq_ok h₂).exists_container hc₁
  exact Succeeds.bind (.modifyContainer hc₂) fun u t _ => .modifyPlane _

/-- A container that is passed can be made writable. -/
theorem succeeds_makeWritable {shape : Shape} (ha : Account.Kept ⟨s, F, C, none⟩)
    (hv : F.Covers (.container shape id)) : Succeeds (makeWritable id) s := by
  obtain ⟨c, hc⟩ := (ha.there_of_flight hv).exists_container
  refine Succeeds.bind (succeeds_faultIn ha.accounted.stored hc) fun u s₁ h₁ => ?_
  obtain ⟨hpath₁, c₀, values₀, hc₀, hc₁⟩ := walk_faultIn (E := (· = .still)) (F := F) (C := C)
    (q := none) rfl h₁
  have ha₁ := hpath₁.kept ha
  refine Succeeds.get_bind ?_
  refine Succeeds.bind (.container hc₁) fun d t h => ?_
  obtain ⟨hd, rfl⟩ := StoreM.container_eq_ok.mp h
  obtain rfl := Option.some.inj (hc₁.symm.trans hd)
  have hle := ha₁.home_le hc₁
  split
  · exact .pure _
  next hhome =>
  rw [if_neg (Nat.not_lt.mpr hle)]
  refine Succeeds.bind ?_ fun u s₂ h₂ => ?_
  · unfold StoreM.when
    split
    · exact succeeds_mergeOverlay ha₁ hc₁ nofun
    · exact .pure _
  have hmerged : Path (· = .still) ⟨s₁, F, C, none⟩ ⟨s₂, F, C, none⟩ ∧
      ∀ c₂, s₂.container? id = some c₂ → ∃ values, c₂.elements = .resident values ∧
        c₂.label = c₀.label := by
    rcases StoreM.when_eq_ok.mp h₂ with ⟨-, h₂⟩ | ⟨-, rfl⟩
    · obtain ⟨hpath₂, hpost⟩ := walk_mergeOverlay (E := (· = .still)) (F := F) (C := C) (q := none)
        rfl (fun hf => absurd hf (by decide)) ha₁ (fun hf => absurd hf (by decide)) h₂
      refine ⟨hpath₂, fun c₂ hc₂ => ?_⟩
      obtain ⟨d, values, hd, he, -, hlabel, -⟩ := hpost c₂ hc₂
      obtain rfl := Option.some.inj (hc₁.symm.trans hd)
      exact ⟨values, he, hlabel⟩
    · refine ⟨.refl _, fun c₂ hc₂ => ?_⟩
      obtain rfl := Option.some.inj (hc₁.symm.trans hc₂)
      exact ⟨values₀, rfl, rfl⟩
  obtain ⟨hpath₂, hpost⟩ := hmerged
  have ha₂ := hpath₂.kept ha₁
  obtain ⟨c₂, hc₂⟩ := (ha₂.there_of_flight hv).exists_container
  obtain ⟨values, he, hlabel⟩ := hpost c₂ hc₂
  have hlevel : s₂.level = s₁.level := hpath₂.level ha₁ (by
    rintro e rfl
    exact ⟨nofun, nofun⟩)
  have hhome₂ : c₂.home = c₀.home := congrArg (fun l => l.2.2.2) hlabel
  refine succeeds_backUp ha₂ hc₂ he ?_
  have hne : c₀.home ≠ s₁.level := hhome
  have hle : c₀.home ≤ s₁.level := hle
  omega

/-! ## Elements of arrays and records -/

theorem succeeds_exchange {values : Array Value} {i : Nat} {v old : Value}
    (hc : s.container? id = some c) (he : c.elements = .resident values)
    (hi : values[i]? = some old) : Succeeds (exchange id i v) s := by
  refine Succeeds.bind (succeeds_residentValues hc he) fun values' t h => ?_
  obtain ⟨⟨c', hc', he'⟩, rfl⟩ := StoreM.residentValues_eq_ok.mp h
  obtain rfl := Option.some.inj (hc.symm.trans hc')
  obtain rfl := Elements.resident.inj (he.symm.trans he')
  rw [hi]
  exact Succeeds.bind (succeeds_modifyValues hc he) fun u t _ => .pure _

/-- An element within bounds can be overwritten. -/
theorem succeeds_put {values : Array Value} {i : Nat} {v : Value}
    (ha : Account.Kept ⟨s, F, C, none⟩) (hv : F.Covers v) (hc : s.container? id = some c)
    (hh : c.home = s.level) (hk : c.kind ≠ .mapping) (he : c.elements = .resident values)
    (hi : i < values.size) : Succeeds (Sequence.put id i v) s := by
  refine Succeeds.bind (.container hc) fun c' t h => ?_
  obtain ⟨hc', rfl⟩ := StoreM.container_eq_ok.mp h
  obtain rfl := Option.some.inj (hc.symm.trans hc')
  refine Succeeds.bind (succeeds_scrub (ha.there_of_flight hv)) fun w t h => ?_
  obtain ⟨hw, rfl⟩ := StoreM.scrub_eq_ok.mp h
  refine Succeeds.bind (succeeds_acquire ha (hv.scrubbed hw)) fun u s₁ h₁ => ?_
  obtain ⟨hpath, halive⟩ := walk_charge ha hv hw h₁
  obtain ⟨c₁, hc₁, hcore⟩ := exists_of_acquire hc h₁
  have he₁ := (Container.elements_of_core hcore).trans he
  refine Succeeds.bind (succeeds_exchange hc₁ he₁ (Array.getElem?_eq_getElem hi))
    fun old s₂ h₂ => ?_
  obtain ⟨c', values', hc', he', hi', rfl⟩ := exchange_eq_ok h₂
  obtain rfl := Option.some.inj (hc₁.symm.trans hc')
  have howner := Container.owner_of_core hcore
  rw [← howner] at hpath ⊢
  have hstep := Step.change (.overwrite (F := F) (C := C) hc₁
    ((Container.home_of_core hcore).trans (hh.trans (wanes_acquire h₁).level.symm))
    (Container.kind_of_core hcore ▸ hk) he' hi' halive)
  exact succeeds_relinquish (hstep.kept (hpath.kept ha))

/-! ## Keys of mappings -/

section

variable {values : Array Value} {key value : Value} {hash : UInt32} {w : Mapping.Whereabouts}

/-- The overlay of a container files what is there. -/
theorem Account.Kept.filed {a : Account} (ha : a.Kept) (hc : a.store.container? id = some c)
    (hk : c.kind = .mapping) (he : c.elements = .resident values) :
    ∀ o ∈ c.overlay, o.Filed ∧ o.Has a.store.heap := fun o ho =>
  ⟨((ha.tables hc hk he).2 o ho).filed, ha.has_overlay hc ho⟩

theorem succeeds_locate (ha : Account.Kept ⟨s, F, C, none⟩) (hc : s.container? id = some c)
    (hk : c.kind = .mapping) (he : c.elements = .resident values) (hkey : s.There key) :
    Succeeds (Mapping.locate id hash key) s := by
  refine .readHeap (.bind ⟨c, Heap.get_eq_ok.mpr hc⟩ fun c' hc' => ?_)
  obtain rfl := Option.some.inj (hc.symm.trans (Heap.get_eq_ok.mp hc'))
  refine .bind (Mapping.faultless_findPending hkey (ha.filed hc hk he)) fun pending _ => ?_
  refine .bind ⟨values, StoreM.values_eq_ok.mpr he⟩ fun vs hvs => ?_
  obtain rfl := Elements.resident.inj ((StoreM.values_eq_ok.mp hvs).symm.trans he)
  exact .bind (Heap.faultless_findSorted hkey (ha.has_values hc he)) fun _ _ => .pure _

/-- The search meets only keys that are there. -/
theorem faultless_lookupSorted {h : Heap} (he : c.elements = .resident values) (hkey : h.Has key)
    (hvs : ∀ v ∈ values, h.Has v) : Faultless (Mapping.lookupSorted h c key) := by
  refine .bind ⟨values, StoreM.values_eq_ok.mpr he⟩ fun vs hvs' => ?_
  obtain rfl := Elements.resident.inj ((StoreM.values_eq_ok.mp hvs').symm.trans he)
  refine .bind (Heap.faultless_findSorted hkey hvs) fun f _ => ?_
  cases f <;> exact .pure _

theorem succeeds_lookup {q : Option Closing} (ha : Account.Kept ⟨s, F, C, q⟩)
    (hc : s.container? id = some c) (hk : c.kind = .mapping) (he : c.elements = .resident values)
    (hkey : s.There key) : Succeeds (Mapping.lookup id key) s := by
  refine .readHeap (.bind ⟨c, Heap.get_eq_ok.mpr hc⟩ fun c' hc' => ?_)
  obtain rfl := Option.some.inj (hc.symm.trans (Heap.get_eq_ok.mp hc'))
  have hsorted := faultless_lookupSorted he hkey (ha.has_values hc he)
  cases ho : c.overlay with
  | none => exact hsorted
  | some o =>
    obtain ⟨hfiled, hhas⟩ := ha.filed hc hk he o ho
    refine .bind (Heap.faultless_hash hkey) fun hash _ => ?_
    refine .bind (Overlay.faultless_find? hfiled (fun i e hi => (hhas i e hi).1) hkey)
      fun found hfound => ?_
    cases found with
    | none => exact hsorted
    | some i =>
      obtain ⟨e, hi, -⟩ := Heap.Pending.find?_some hfound
      exact .bind (Overlay.faultless_entry hi) fun _ _ => .pure _

/-! ### Writing a key -/

/-- The overlay is there to be written to. -/
theorem succeeds_overlayOf {o : Overlay} {i : Nat} (hc : s.container? id = some c)
    (ho : c.overlay = some o) : Succeeds (Mapping.overlayOf id i) s := by
  refine Succeeds.bind (.container hc) fun c' t h => ?_
  obtain ⟨hc', rfl⟩ := StoreM.container_eq_ok.mp h
  obtain rfl := Option.some.inj (hc.symm.trans hc')
  rw [ho]
  exact .pure _

/-- The value of a pending entry can be exchanged. -/
theorem succeeds_exchangePending {o : Overlay} {e : OverlayEntry} {i : Nat} {v : Value}
    (hc : s.container? id = some c) (ho : c.overlay = some o) (hi : o.entries.get? i = some e) :
    Succeeds (Mapping.exchangePending id i v) s := by
  refine Succeeds.bind (succeeds_overlayOf hc ho) fun o' t h => ?_
  obtain ⟨rfl, c', hc', ho'⟩ := Mapping.overlayOf_eq_ok h
  obtain rfl := Option.some.inj (hc.symm.trans hc')
  obtain rfl := Option.some.inj (ho.symm.trans ho')
  refine Succeeds.bind (.reading (Overlay.faultless_entry hi)) fun e' t h => ?_
  obtain ⟨-, rfl⟩ := StoreM.lift_eq_ok.mp h
  refine Succeeds.bind (.reading (.bind (Overlay.faultless_entry hi) fun _ _ => .pure _))
    fun o'' t h => ?_
  obtain ⟨-, rfl⟩ := StoreM.lift_eq_ok.mp h
  exact Succeeds.bind (.modifyContainer hc) fun u t _ => .pure _

theorem succeeds_takePending {o : Overlay} {e : OverlayEntry} {i : Nat}
    (hc : s.container? id = some c) (ho : c.overlay = some o) (hi : o.entries.get? i = some e) :
    Succeeds (Mapping.takePending id i) s := by
  refine Succeeds.bind (succeeds_overlayOf hc ho) fun o' t h => ?_
  obtain ⟨rfl, c', hc', ho'⟩ := Mapping.overlayOf_eq_ok h
  obtain rfl := Option.some.inj (hc.symm.trans hc')
  obtain rfl := Option.some.inj (ho.symm.trans ho')
  refine Succeeds.bind (.reading (.bind (Overlay.faultless_entry hi) fun _ _ => .pure _))
    fun r t h => ?_
  obtain ⟨-, rfl⟩ := StoreM.lift_eq_ok.mp h
  exact Succeeds.bind (.modifyContainer hc) fun u t _ => .pure _

/-- A key can be assigned wherever it was located, be it sorted, pending or new. -/
theorem succeeds_write (ha : Account.Kept ⟨s, F, C, none⟩) (hkey : F.Covers key)
    (hvalue : F.Covers value) (hva : s.Alive value) (hvn : value ≠ .nil)
    (hm : s.Writable id c values) : Succeeds (Mapping.write id key value) s := by
  have hc := hm.container
  refine Succeeds.bind (.container hc) fun c' t h => ?_
  obtain ⟨hc', rfl⟩ := StoreM.container_eq_ok.mp h
  obtain rfl := Option.some.inj (hc.symm.trans hc')
  refine Succeeds.bind (.readHeap (Heap.faultless_hash (ha.there_of_flight hkey)))
    fun hash t h => ?_
  obtain ⟨hhash, rfl⟩ := StoreM.readHeap_eq_ok.mp h
  refine Succeeds.bind (succeeds_locate ha hc hm.kind hm.elements (ha.there_of_flight hkey))
    fun w t h => ?_
  obtain ⟨ht, hp⟩ := ha.tables hc hm.kind hm.elements
  obtain ⟨rfl, hl⟩ := Mapping.locate_eq_ok hc hm.elements ht hp hhash h
  refine Succeeds.bind (succeeds_acquire ha hvalue) fun u s₁ h₁ => ?_
  have hpath₁ := walk_acquire (E := (· = .still)) (F := F) (C := C) (q := none) rfl
    (ha.fits_of_covers hvalue) h₁
  have ha₁ := hpath₁.kept ha
  obtain ⟨c₁, hm₁, hcore⟩ := hm.acquired h₁
  have hc₁ := hm₁.container
  have ho₁ := Container.overlay_of_core hcore
  have hva₁ := hpath₁.alive ha Effect.calm_of_still hvalue.of_flight hva
  have hl₁ := ho₁ ▸ hpath₁.located ha Effect.calm_of_still hkey.of_flight hc₁ hm₁.elements ho₁ hl
  rw [← Container.owner_of_core hcore] at ha₁ ⊢
  have hpark : ∀ sorted : Option Nat, Succeeds (do
      acquire c₁.owner key
      Mapping.park id ⟨hash, sorted.isNone, key, value⟩ : StoreM Unit) s₁ := fun sorted => by
    refine Succeeds.bind (succeeds_acquire ha₁ hkey) fun u s₂ h₂ => Succeeds.get_bind ?_
    obtain ⟨c₂, hc₂, -⟩ := exists_of_acquire hc₁ h₂
    exact .modifyContainer hc₂
  cases hpending : w.pending with
  | some i =>
    obtain ⟨o, e, ho, hi, -⟩ := hl₁.pending hpending
    refine Succeeds.bind (succeeds_exchangePending hc₁ ho hi) fun old s₂ h₂ => ?_
    obtain ⟨c', o', e', hc', ho', hi', rfl, rfl⟩ := Mapping.exchangePending_eq_ok h₂
    obtain rfl := Option.some.inj (hc₁.symm.trans hc')
    have hstep := Step.change
      (.overwritePending (F := F) (C := C) hc₁ hm₁.home ho' hi' hva₁ hvn)
    exact succeeds_relinquish (hstep.kept ha₁)
  | none =>
    cases hsorted : w.sorted with
    | none => exact hpark none
    | some i =>
      cases hdirty : w.dirty with
      | true => exact hpark (some i)
      | false =>
        obtain ⟨hlt, -⟩ := hl₁.sorted hsorted
        refine Succeeds.bind (succeeds_exchange hc₁ hm₁.elements (Array.getElem?_eq_getElem hlt))
          fun old s₂ h₂ => ?_
        obtain ⟨c', values', hc', he', hi, rfl⟩ := exchange_eq_ok h₂
        obtain rfl := Option.some.inj (hc₁.symm.trans hc')
        have hstep := Step.change
          (.overwriteValue (F := F) (C := C) hc₁ hm₁.home hm₁.kind he' (hl₁.clean hdirty)
            hi hva₁ hvn)
        exact succeeds_relinquish (hstep.kept ha₁)

/-! ### Deleting a key -/

/-- A pair can be taken out of the sorted pairs once the pending entry is gone. -/
theorem succeeds_deleteSorted {i : Nat} (ha : Account.Kept ⟨s, F, C, none⟩)
    (hm : s.Writable id c values) (hl : Mapping.Located s.heap c.overlay values key w)
    (hpending : w.pending = none) (hsorted : w.sorted = some i) :
    Succeeds (Mapping.deleteSorted id c.owner w.sorted) s := by
  obtain ⟨hc, hh, hk, he⟩ := hm
  rw [hsorted]
  refine Succeeds.bind (succeeds_residentValues hc he) fun values' t h => ?_
  obtain ⟨⟨c', hc', he'⟩, rfl⟩ := StoreM.residentValues_eq_ok.mp h
  obtain rfl := Option.some.inj (hc.symm.trans hc')
  obtain rfl := Elements.resident.inj (he.symm.trans he')
  refine Succeeds.bind (succeeds_modifyValues hc he) fun u t h => ?_
  obtain ⟨c', values', hc', he', rfl⟩ := StoreM.modifyValues_eq_ok.mp h
  obtain rfl := Option.some.inj (hc.symm.trans hc')
  obtain rfl := Elements.resident.inj (he.symm.trans he')
  obtain ⟨hlt, hek⟩ := hl.sorted hsorted
  have hstep := Step.change (.deletePair (F := F) (C := C) hc hh hk he hlt
    fun o ho j e hj => hek ▸ hl.unparked hpending o ho j e hj)
  exact succeeds_relinquish (hstep.kept ha)

/-- A key that is there can be deleted. -/
theorem succeeds_delete {shape : Shape} (ha : Account.Kept ⟨s, F, C, none⟩)
    (hv : F.Covers (.container shape id)) (hkey : F.Covers key) (hm : s.Writable id c values)
    (hfound : s.heap.seek (Pair.ofBuffer values) c.overlay (s.heap.identity key) ≠ none) :
    Succeeds (Mapping.delete id key) s := by
  have hc := hm.container
  refine Succeeds.bind (.container hc) fun c' t h => ?_
  obtain ⟨hc', rfl⟩ := StoreM.container_eq_ok.mp h
  obtain rfl := Option.some.inj (hc.symm.trans hc')
  refine Succeeds.bind (.readHeap (Heap.faultless_hash (ha.there_of_flight hkey)))
    fun hash t h => ?_
  obtain ⟨hhash, rfl⟩ := StoreM.readHeap_eq_ok.mp h
  refine Succeeds.bind (succeeds_locate ha hc hm.kind hm.elements (ha.there_of_flight hkey))
    fun w t h => ?_
  obtain ⟨ht, hp⟩ := ha.tables hc hm.kind hm.elements
  obtain ⟨rfl, hl⟩ := Mapping.locate_eq_ok hc hm.elements ht hp hhash h
  cases hpending : w.pending with
  | none =>
    obtain ⟨i, hi⟩ := hl.exists_sorted hpending hfound
    exact succeeds_deleteSorted ha hm hl hpending hi
  | some i =>
    obtain ⟨o, e, ho, hi, hek⟩ := hl.pending hpending
    refine Succeeds.bind (succeeds_takePending hc ho hi) fun r s₁ h₁ => ?_
    obtain ⟨e', additionsLeft⟩ := r
    have htake : Account.Kept ⟨s₁, F, .of c.owner [e'.key, e'.value] + C, none⟩ := by
      obtain ⟨c', o', o'', hc', ho', hremove, -, rfl⟩ := Mapping.takePending_eq_ok h₁
      obtain rfl := Option.some.inj (hc.symm.trans hc')
      exact Step.kept (.change (.unpark (F := F) (C := C) hc hm.home hm.elements ho' hremove)) ha
    refine Succeeds.bind (succeeds_relinquish htake) fun u s₂ h₂ => ?_
    obtain ⟨o, o', ho, hremove, -, rfl, -, hnew, hl', hchange, -⟩ :=
      walk_takePending ha hm hl hpending h₁ h₂
    have hdrop := walk_relinquish (E := Effect.Calm) (F := F) (C := C) (q := none) trivial h₂
    have ha₂ := hdrop.kept htake
    obtain ⟨c₂, hc₂⟩ := (ha₂.there_of_flight hv).exists_container
    cases hadded : e'.added with
    | true =>
      simp only [Bool.not_true, Bool.false_eq_true, if_false]
      split
      · exact .pure _
      · exact succeeds_mergeOverlay ha₂ hc₂ nofun
    | false =>
      simp only [Bool.not_false, if_true]
      have hsorted : w.sorted ≠ none := fun hnone =>
        Bool.false_ne_true (hadded.symm.trans (hnew.mpr (hl.absent.mp hnone)))
      obtain ⟨j, hj⟩ := Option.ne_none_iff_exists'.mp hsorted
      have htaken : Path Effect.Calm ⟨s, F, C, none⟩ ⟨s₂, F, C, none⟩ :=
        (Path.single trivial (.change hchange)).trans hdrop
      obtain ⟨hm₂, hcore⟩ := hm.taken htake.accounted.stored h₂ hc₂
      have ho₂ := Container.overlay_of_core hcore
      have hl₂ := ho₂ ▸ htaken.located ha (fun _ he => he) hkey.of_flight hc₂ hm₂.elements ho₂ hl'
      have howner := Container.owner_of_core hcore
      rw [show c.owner = c₂.owner from howner.symm]
      exact succeeds_deleteSorted (w := { w with pending := none, dirty := true }) ha₂
        hm₂ hl₂ rfl hj

/-! ### Assignment -/

theorem succeeds_requireGrowth {present : Bool} (hc : s.container? id = some c) :
    Succeeds (Mapping.requireGrowth id present) s := by
  refine Succeeds.liftBind (.container hc) fun c' t h => ?_
  obtain ⟨-, rfl⟩ := StoreM.container_eq_ok.mp h
  refine Succeeds.requestGetBind ?_
  dsimp only
  split
  · exact .refuse _
  · exact .answer _

/-- An assignment to a key of a mapping is carried out or refused. -/
theorem succeeds_mapAssign (ha : Account.Kept ⟨s, F, C, none⟩)
    (hm : F.Covers (.container .mapping id)) (hkey : F.Covers key) (hvalue : F.Covers value) :
    Succeeds (Mapping.assign id key value) s := by
  refine Succeeds.liftBind (succeeds_scrub (ha.there_of_flight hkey)) fun x t h => ?_
  obtain ⟨hx, rfl⟩ := StoreM.scrub_eq_ok.mp h
  split
  · exact .refuse _
  next hxn =>
  have hxn : x ≠ .nil := fun hn => hxn (hn ▸ rfl)
  obtain rfl : x = key := (scrubbed_cases hx).resolve_right hxn
  obtain ⟨c, hc⟩ := (ha.there_of_flight hm).exists_container
  refine Succeeds.liftBind (succeeds_faultIn ha.accounted.stored hc) fun u s₁ h₁ => ?_
  obtain ⟨hpath₁, c₀, values, hc₀, hc₁⟩ :=
    walk_faultIn (E := (· = .still)) (F := F) (C := C) (q := none) rfl h₁
  have ha₁ := hpath₁.kept ha
  have hk₁ := (ha₁.fits_of_covers hm).mapping hc₁
  obtain ⟨ht, hp⟩ := ha₁.tables hc₁ hk₁ rfl
  refine Succeeds.liftBind (succeeds_scrub (ha₁.there_of_flight hvalue)) fun w t h => ?_
  obtain ⟨hw, rfl⟩ := StoreM.scrub_eq_ok.mp h
  refine Succeeds.liftBind (succeeds_lookup ha₁ hc₁ hk₁ rfl (ha₁.there_of_flight hkey))
    fun found t h => ?_
  obtain ⟨rfl, hfound⟩ := Mapping.lookup_eq_ok hc₁ rfl ht hp h
  dsimp only
  split
  · exact .answer _
  next hpresent =>
  refine Succeeds.requestBind (succeeds_requireGrowth hc₁) fun u t h => ?_
  obtain ⟨rfl, hroom⟩ := roomy_of_requireGrowth hc₁ hfound h
  refine Succeeds.liftBind (succeeds_makeWritable ha₁ hm) fun u s₂ h₂ => ?_
  obtain ⟨hpath₂, c₂, values₂, hc₂, hh₂, he₂⟩ := walk_makeWritable Effect.Readies.still .nest ha₁ h₂
  have ha₂ := hpath₂.kept ha₁
  have hpath := hpath₁.readies.trans hpath₂
  have hk₂ := (ha₂.fits_of_covers hm).mapping hc₂
  have hm₂ : s₂.Writable id c₂ values₂ := ⟨hc₂, hh₂, hk₂, he₂⟩
  have hwF := hvalue.scrubbed hw
  refine Succeeds.liftBind ?_ fun u s₃ h₃ => ?_
  · unfold Mapping.change
    split
    · next hnil =>
      refine succeeds_delete ha₂ hm hkey hm₂ fun hnone => ?_
      obtain ⟨y, hy, -, hfind⟩ := hpath₂.find ha₁ Effect.Readies.leaves
        (content?_of_container hc₂) hk₂
      obtain rfl := Option.some.inj ((content?_of_container hc₁).symm.trans hy)
      have hid := (hpath₂.stands ha₁ Effect.Readies.calm hkey.of_flight).identity
      have hlost := (hfind (s₁.heap.identity x)).symm
      rw [Content.find_of_resident he₂, Content.find_of_resident rfl, ← hid] at hlost
      replace hlost := hlost.trans hnone
      rw [hid] at hlost
      rw [hfound, hlost] at hpresent
      exact hpresent (by rw [hnil]; rfl)
    · next hnil =>
      have hwn : w ≠ .nil := fun hn => hnil (Value.isNil_iff.mpr hn)
      exact succeeds_write ha₂ hkey hwF
        (hpath₂.alive ha₁ Effect.Readies.calm hwF.of_flight (alive_of_scrubbed hw)) hwn hm₂
  · have hkept := kept_change ha₂ hkey hwF (hpath.alive ha Effect.Readies.calm hkey.of_flight hx)
      (hpath₂.alive ha₁ Effect.Readies.calm hwF.of_flight (alive_of_scrubbed hw)) hxn hm₂
      (hpath₂.roomy ha₁ Effect.Readies.leaves Effect.Readies.calm hkey.of_flight hc₁ rfl hc₂ he₂
        hk₂ hroom) h₃
    obtain ⟨c₃, hc₃⟩ := (hkept.there_of_flight hm).exists_container
    exact .lift (succeeds_report hc₃)

end

/-! ## Assignment -/

theorem succeeds_requireIndex {key : Value} (hc : s.container? id = some c) :
    Succeeds (Sequence.requireIndex id key) s := by
  cases key with
  | int n =>
    refine Succeeds.liftBind (.container hc) fun c' t h => ?_
    obtain ⟨-, rfl⟩ := StoreM.container_eq_ok.mp h
    dsimp only
    split
    · exact .answer _
    · exact .refuse _
  | _ => exact .refuse _

/-- An index that a key stands for is below the size. -/
theorem lt_size_of_requireIndex {key : Value} {i : Nat} (hc : s.container? id = some c)
    (h : Sequence.requireIndex id key s = .ok (.ok i, s')) : i < c.size := by
  obtain ⟨n, c', -, hc', hin, rfl⟩ := Sequence.exists_of_requireIndex h
  obtain rfl := Option.some.inj (hc.symm.trans hc')
  omega

/-- The size of an array or record is that of its buffer. -/
theorem Container.size_of_values {values : Array Value} (hk : c.kind ≠ .mapping)
    (he : c.elements = .resident values) : c.size = values.size := by
  unfold Container.size
  split
  · next h => exact absurd h hk
  · rw [he]
    rfl

/-- An assignment to an element or a key is carried out or refused. -/
theorem succeeds_assign {v key value : Value} (ha : Account.Kept ⟨s, F, C, none⟩)
    (hv : F.Covers v) (hkey : F.Covers key) (hvalue : F.Covers value) :
    Succeeds (Sequence.assign v key value) s := by
  cases v with
  | container shape id =>
    by_cases hs : shape = .mapping
    · subst hs
      exact succeeds_mapAssign ha hv hkey hvalue
    rw [Sequence.assign_of_ne_mapping hs]
    obtain ⟨c, hc⟩ := (ha.there_of_flight hv).exists_container
    refine Succeeds.liftBind (succeeds_faultIn ha.accounted.stored hc) fun u s₁ h₁ => ?_
    obtain ⟨hpath₁, c₀, values, hc₀, hc₁⟩ :=
      walk_faultIn (E := (· = .still)) (F := F) (C := C) (q := none) rfl h₁
    have ha₁ := hpath₁.kept ha
    have hk₁ := (ha₁.fits_of_covers hv).not_mapping hc₁ hs
    refine Succeeds.requestBind (succeeds_requireIndex hc₁) fun i t h => ?_
    obtain ⟨rfl, -⟩ := Sequence.requireIndex_eq_ok h
    have hlt := lt_size_of_requireIndex hc₁ h
    rw [Container.size_of_values hk₁ rfl] at hlt
    refine Succeeds.liftBind (succeeds_makeWritable ha₁ hv) fun u s₂ h₂ => ?_
    obtain ⟨hpath₂, c₂, values₂, hc₂, hh₂, he₂⟩ :=
      walk_makeWritable Effect.Readies.still .nest ha₁ h₂
    have ha₂ := hpath₂.kept ha₁
    have hk₂ := (ha₂.fits_of_covers hv).not_mapping hc₂ hs
    obtain ⟨y, hy, -, hbuffer⟩ := hpath₂.buffer ha₁ Effect.Readies.leaves
      (content?_of_container hc₂) hk₂
    obtain rfl := Option.some.inj ((content?_of_container hc₁).symm.trans hy)
    rw [Container.content_buffer rfl, Container.content_buffer he₂] at hbuffer
    subst hbuffer
    exact .lift (succeeds_put ha₂ hvalue hc₂ hh₂ hk₂ he₂ hlt)
  | _ => exact .refuse _

end

end PlaneStore
