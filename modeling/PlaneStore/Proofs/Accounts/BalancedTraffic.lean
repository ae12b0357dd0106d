import PlaneStore.Proofs.References.TrafficSurvivors
import PlaneStore.Proofs.References.BufferReferences

/-!
# Accounts stay balanced

An account is in order if the counts of its heap are those of all references there are, and the
buffers that hold them are sound. Every elementary step keeps it so: a step that takes or gives up a
reference moves a count with it, and every other step moves references from one place to another.
-/

namespace PlaneStore

open Store

/-- The counts are right, and so are the buffers that hold references. -/
structure Account.Accounted (a : Account) : Prop where
  balanced : a.store.heap.Balanced a.refs
  stored : a.store.Stored
  overlays : ∀ {id : ContainerId} {c : Container} {o : Overlay},
    a.store.container? id = some c → c.overlay = some o → c.kind = .mapping ∧ o.entries.Sound
  backups : ∀ b ∈ a.backups, b.kind = .mapping → b.elements.size % 2 = 0

/-- Equal sums, with what is not concerned split off. -/
theorem Refs.shift {x y g k X Y : Refs} (r : Refs) (h : x + g = y + k) (hX : X = x + g + r)
    (hY : Y = y + k + r) : X = Y := by
  rw [hX, hY, h]

namespace Account.Accounted

variable {a b : Account}

/-- The account is in order still if references have only been moved about. -/
theorem moved (ha : a.Accounted) (hs : Heap.SameCounts a.store.heap b.store.heap)
    (hr : b.refs.counted = a.refs.counted) (hst : b.store.Stored)
    (ho : ∀ {id : ContainerId} {c : Container} {o : Overlay}, b.store.container? id = some c →
      c.overlay = some o → c.kind = .mapping ∧ o.entries.Sound)
    (hb : ∀ x ∈ b.backups, x ∈ a.backups) : b.Accounted where
  balanced := ha.balanced.sameCounts hs hr
  stored := hst
  overlays := ho
  backups x hx := ha.backups x (hb x hx)

/-- Overlays are sound still if none has been made. -/
theorem overlays_of_wanes (ha : a.Accounted) {s' : Store} (hw : Wanes a.store s')
    {id : ContainerId} {c : Container} {o : Overlay} (hc : s'.container? id = some c)
    (ho : c.overlay = some o) : c.kind = .mapping ∧ o.entries.Sound := by
  obtain ⟨d, hd, hcore⟩ := hw.container id c hc
  rw [Container.kind_of_core hcore]
  exact ha.overlays hd (Container.overlay_of_core hcore ▸ ho)

/-- The buffer of a resident mapping holds whole pairs. -/
theorem even_of_resident (ha : a.Accounted) {id : ContainerId} {c : Container}
    {values : Array Value} (hc : a.store.container? id = some c)
    (he : c.elements = .resident values) (hk : c.kind = .mapping) : values.size % 2 = 0 := by
  have heven := ha.stored.even hc hk
  rw [c.buffer_of_resident _ he] at heven
  exact heven

end Account.Accounted

/-- Backups are kept by planes alone. -/
theorem Store.mem_backups_of_planes {s s' : Store} (hp : s'.planes = s.planes)
    {q : Option Closing} {x : Backup} (hx : x ∈ s'.backups q) : x ∈ s.backups q := by
  unfold Store.backups at hx ⊢
  rwa [hp] at hx

theorem Store.mem_backups_of_wanes {s s' : Store} (hw : Wanes s s') {q : Option Closing}
    {x : Backup} (hx : x ∈ s'.backups q) : x ∈ s.backups q := by
  have h := congrArg (fun ps : List Plane => ps.flatMap Plane.ledger) hw.planes
  simp only [List.flatMap_map] at h
  rwa [show s'.backups q = s.backups q from congrArg _ h] at hx

/-! ## Traffic -/

/-- Traffic takes away what is freed and makes nothing. -/
theorem Traffic.wanes {a b : Account} (h : Traffic a b) (hs : a.store.Stored) :
    Wanes a.store b.store := by
  cases h with
  | retain _ h => exact (retain_eq_ok h).wanes
  | drop h => exact (dropReference_eq_ok h).wanes hs
  | charge h => exact (alike_addImport h).wanes
  | discharge h => exact (alike_dropImport h).wanes

theorem Traffic.accounted {a b : Account} (h : Traffic a b) (ha : a.Accounted) : b.Accounted := by
  have hw := h.wanes ha.stored
  cases h with
  | @retain s s' F C q v u hv h =>
    have hr := retain_eq_ok h
    refine ⟨?_, hr.stored ha.stored, ha.overlays_of_wanes hw, fun x hx => ?_⟩
    · have hb := hr.balanced ha.balanced hv
      refine hb.congr_refs (congrArg _ ?_)
      simp only [Account.refs, hr.refs]
      abel
    · exact ha.backups x (mem_backups_of_wanes hw hx)
  | @drop s s' F C q v children h =>
    have hd := dropReference_eq_ok h
    refine ⟨?_, hd.stored ha.stored, ha.overlays_of_wanes hw, fun x hx => ?_⟩
    · refine hd.balanced (R := Account.refs ⟨s', ↑children + F, C, q⟩)
        (ha.balanced.congr_refs (congrArg _ ?_))
      simp only [Account.refs, ← hd.refs ha.stored]
      abel
    · exact ha.backups x (mem_backups_of_wanes hw hx)
  | charge h =>
    have hal := alike_addImport h
    refine ha.moved (sameCounts_of_alike hal) (congrArg _ ?_) (ha.stored.alike hal)
      (ha.overlays_of_wanes hw) fun x hx => ?_
    · simp only [Account.refs, hal.refs, Charges.refs_add, Charges.refs_of, Multiset.coe_singleton]
      abel
    · exact mem_backups_of_wanes hw hx
  | discharge h =>
    have hal := alike_dropImport h
    refine ha.moved (sameCounts_of_alike hal) (congrArg _ ?_) (ha.stored.alike hal)
      (ha.overlays_of_wanes hw) fun x hx => ?_
    · simp only [Account.refs, hal.refs, Charges.refs_add, Charges.refs_of, Multiset.coe_singleton]
      abel
    · exact mem_backups_of_wanes hw hx

/-! ## Upkeep and change of one container -/

/-- One container is replaced by another of its count and kind. -/
theorem Account.Accounted.replaced {s s' : Store} {F F' : Refs} {C C' : Charges}
    {q : Option Closing}
    {id : ContainerId} {c d : Container} (ha : Account.Accounted ⟨s, F, C, q⟩)
    (hc : s.container? id = some c) (hheap : s'.heap = (s.withContainer id d).heap)
    (hp : s'.planes = s.planes) (hcount : d.refcount = c.refcount) (hk : d.kind = c.kind)
    (hr : (Account.refs ⟨s', F', C', q⟩).counted = (Account.refs ⟨s, F, C, q⟩).counted)
    (hst : s'.Stored) (ho : ∀ o, d.overlay = some o → c.kind = .mapping ∧ o.entries.Sound) :
    Account.Accounted ⟨s', F', C', q⟩ := by
  refine ha.moved ?_ hr hst ?_ ?_
  · rw [show (Account.mk s' F' C' q).store.heap = _ from hheap]
    exact sameCounts_withContainer hc hcount hk
  · intro other e o he heo
    have he' : (s.withContainer id d).container? other = some e := by
      unfold container?
      rw [← hheap]
      exact he
    rcases container?_withContainer_cases hc he' with ⟨rfl, rfl⟩ | ⟨-, hold⟩
    · exact hk.symm ▸ ho o heo
    · exact ha.overlays hold heo
  · intro x hx
    exact mem_backups_of_planes hp hx

/-- A nil in the place of a value that is handed out. -/
theorem Refs.counted_scrubbed {s : Store} {vs ws : List Value}
    (h : List.Forall₂ (fun v w => s.scrubbed v = .ok w) vs ws) :
    (↑ws + ↑((vs.zip ws).filterMap fun (v, w) => if w ≠ v then some v else none) : Refs).counted =
      Refs.counted ↑vs := by
  induction h with
  | nil => rfl
  | @cons v w vs ws hvw _ ih =>
    rw [List.zip_cons_cons, List.filterMap_cons]
    by_cases hne : w = v
    · subst hne
      simp only [ne_eq, not_true_eq_false, if_false]
      rw [← Multiset.cons_coe, ← Multiset.cons_coe, ← Multiset.singleton_add,
        ← Multiset.singleton_add w ↑vs, add_assoc, Refs.counted_add, ih, ← Refs.counted_add]
    · have hnil : w = .nil := (scrubbed_cases hvw).resolve_left hne
      simp only [ne_eq, hne, not_false_eq_true, if_true]
      rw [← Multiset.cons_coe, ← Multiset.cons_coe, ← Multiset.cons_coe, ← Multiset.singleton_add,
        ← Multiset.singleton_add v, ← Multiset.singleton_add v ↑vs, add_add_add_comm,
        Refs.counted_add, ih, hnil, Refs.counted_add, Refs.counted_singleton rfl, zero_add,
        ← Refs.counted_add]

/-- References that leave a container for a dataspace that they are charged to. -/
theorem Account.counted_refs_charged {s s' : Store} (F : Refs) (C : Charges) (q : Option Closing)
    {gone came : Refs} {D E : Charges} (h : (s'.refs + gone).counted = (s.refs + came).counted)
    (hD : D.refs = gone) (hE : E.refs = came) :
    (Account.refs ⟨s', F, D + C, q⟩).counted = (Account.refs ⟨s, F, E + C, q⟩).counted := by
  have hsplit : ∀ (t : Store) (B : Charges),
      Account.refs ⟨t, F, B + C, q⟩ = t.refs + B.refs + (F + C.refs + Account.closingRefs q) := by
    intro t B
    simp only [Account.refs, Charges.refs_add]
    abel
  rw [hsplit, hsplit, hD, hE, Refs.counted_add, h, ← Refs.counted_add]

/-- What a container is apart from what it holds: its kind, its count and its places. -/
def Container.frame (c : Container) : Container :=
  { c with
    elements := default, overlay := none, scrubEpoch := 0, savedSize := none
    sizeReported := false }

/--
One container takes in values that were charged to its owner, and gives up values that are charged
to it from then on. Its frame stays, and so do all other containers.
-/
inductive Trade (id : ContainerId) : Account → Account → Prop where
  | mk {s : Store} {w : Swap} {c d : Container} {came gone : List Value} {A B C : Charges}
      (hc : s.container? id = some c) (hframe : d.frame = c.frame)
      (hA : A = .of c.owner came + C) (hB : B = .of c.owner gone + C)
      (hheld : (d.held w + ↑gone).counted = (c.held s.swap + ↑came).counted)
      (hothers : ∀ other e, id ≠ other → s.container? other = some e →
        e.buffer w = e.buffer s.swap)
      (hst : (({ s with swap := w } : Store).withContainer id d).Stored)
      (ho : ∀ o, d.overlay = some o → c.kind = .mapping ∧ o.entries.Sound) :
      Trade id ⟨s, F, A, q⟩ ⟨({ s with swap := w } : Store).withContainer id d, F, B, q⟩

/-- What leaves the elements of a container is in flight, and what comes to them was. -/
theorem Trade.accounted {id : ContainerId} {a b : Account} (h : Trade id a b)
    (ha : a.Accounted) : b.Accounted := by
  cases h with
  | @mk F q s w c d came gone A B C hc hframe hA hB hheld hothers hst ho =>
    have hkind : d.kind = c.kind := congrArg (·.kind) hframe
    have hcount : d.refcount = c.refcount := congrArg (·.refcount) hframe
    refine ha.replaced (c := c) hc rfl rfl hcount hkind ?_ hst ho
    rw [hA, hB]
    refine Account.counted_refs_charged F C q ?_ (Charges.refs_of _ _) (Charges.refs_of _ _)
    have hmoved := congrArg Refs.counted (refs_moved (d := d) hc hothers)
    simp only [Refs.counted_add] at hmoved hheld ⊢
    exact Refs.exchange hmoved hheld

theorem Charges.of_nil_add (ds : DataspaceId) (C : Charges) : C = .of ds [] + C :=
  (zero_add C).symm

/-- A container that is looked after gives up what it has lost or replaced. -/
theorem Upkeep.trade {id : ContainerId} {e : Effect} {a b : Account} (h : Upkeep id e a b)
    (ha : a.Accounted) : Trade id a b := by
  cases h with
  | @load s F C q c ticket n hc he hn =>
    refine .mk hc rfl (Charges.of_nil_add _ C) (Charges.of_nil_add _ C) (congrArg _ ?_)
      (fun other e hne he' => ha.stored.buffer_load hc he he' hne) (ha.stored.load hc he)
      fun o ho => ha.overlays hc ho
    rw [Container.held_eq, Container.held_eq, c.buffer_of_evicted _ he]
    rfl
  | @evict s F C q c values hc he ho hp =>
    refine .mk hc rfl (Charges.of_nil_add _ C) (Charges.of_nil_add _ C) (congrArg _ ?_)
      (fun other e hne he' => ha.stored.buffer_store he' values) (ha.stored.evict hc he rfl rfl)
      fun o ho' => ha.overlays hc ho'
    rw [Container.held_eq, Container.held_eq, c.buffer_of_resident _ he,
      Container.buffer_of_evicted _ rfl, Std.TreeMap.getD_eq_getD_getElem?,
      Swap.getElem?_store_self]
    rfl
  | @report s F C q c hc =>
    refine .mk (w := s.swap.markSizeChanged id) (d := { c with sizeReported := true }) hc rfl
      (Charges.of_nil_add _ C) (Charges.of_nil_add _ C) rfl (fun _ _ _ _ => rfl) ?_
      fun o ho => ha.overlays hc ho
    exact (ha.stored.withContainer (d := { c with sizeReported := true }) hc rfl rfl).of_elements
      rfl rfl fun _ c' hc' => ⟨c', hc', rfl, rfl⟩
  | @scrub s F C q c values seen hc he hk hseen =>
    refine .mk (w := s.swap) hc rfl (Charges.of_nil_add _ C) rfl ?_ (fun _ _ _ _ => rfl)
      (ha.stored.withValues hc rfl fun hm => absurd hm hk) fun o ho => ha.overlays hc ho
    rw [Container.held_eq, Container.held_eq, c.buffer_of_resident _ he,
      Container.buffer_of_resident _ rfl, add_right_comm, Refs.counted_add,
      Refs.counted_scrubbed hseen, ← Refs.counted_add, Multiset.coe_nil, add_zero]
    rfl
  | @absorb s F C q c overlay values values' released hc ho he h =>
    -- What the merge drops is in flight; the rest moves from the overlay to the pairs.
    have hkind : values.size % 2 = 0 := ha.even_of_resident hc he (ha.overlays hc ho).1
    obtain ⟨hheld, hsize⟩ := Mapping.held_merged h hkind
    refine .mk (w := s.swap) hc rfl (Charges.of_nil_add _ C) rfl (congrArg _ ?_)
      (fun _ _ _ _ => rfl) (ha.stored.withValues hc rfl fun _ => hsize) fun o ho => by cases ho
    rw [Container.held_eq, Container.held_eq, c.buffer_of_resident _ he,
      Container.buffer_of_resident _ rfl, Container.coe_overlayValues ho,
      Container.overlayValues_of_none rfl, Multiset.coe_nil, add_zero, add_zero, ← hheld]
  | @compact s F C q c values live told w hc he ho hk hlive htold =>
    refine .mk (w := w) hc rfl (Charges.of_nil_add _ C) rfl (congrArg _ ?_)
      (fun _ e _ _ => e.buffer_of_buffers htold.buffers.1) ?_ fun o ho' => ha.overlays hc ho'
    · rw [Container.held_eq, Container.held_eq, c.buffer_of_resident _ he,
        Container.buffer_of_resident _ rfl, Container.overlayValues_of_none ho,
        Container.overlayValues_of_none (c := { c with
          scrubEpoch := s.objects.epoch, elements := _, sizeReported := told }) ho,
        Pair.coe_toBuffer, Multiset.coe_nil, add_zero, add_zero, add_zero,
        Pair.held_split _ _ hlive.length_eq.symm, Pair.held_ofBuffer (ha.even_of_resident hc he hk)]
    · exact (ha.stored.withValues (d := { c with
          scrubEpoch := s.objects.epoch, elements := .resident _, sizeReported := told }) hc rfl
        fun _ => Pair.size_toBuffer _).of_elements htold.buffers.1 htold.buffers.2
          fun _ c' hc' => ⟨c', hc', rfl, rfl⟩

/-- Upkeep puts what it drops in flight. -/
theorem Upkeep.accounted {id : ContainerId} {e : Effect} {a b : Account} (h : Upkeep id e a b)
    (ha : a.Accounted) : b.Accounted := (h.trade ha).accounted ha

/-- An element makes room for one that was charged. -/
theorem Account.Accounted.overwritten {s : Store} {F : Refs} {C : Charges} {q : Option Closing}
    {id : ContainerId} {c : Container} {values : Array Value} {i : Nat} {v old : Value}
    (ha : Account.Accounted ⟨s, F, .of c.owner [v] + C, q⟩) (hc : s.container? id = some c)
    (he : c.elements = .resident values) (hi : values[i]? = some old) :
    Trade id ⟨s, F, .of c.owner [v] + C, q⟩
      ⟨s.withContainer id { c with elements := .resident (values.setIfInBounds i v) }, F,
        .of c.owner [old] + C, q⟩ := by
  refine .mk (w := s.swap) hc rfl rfl rfl (congrArg _ ?_) (fun _ _ _ _ => rfl)
    (ha.stored.withValues hc rfl fun hk => ?_) fun o ho => ha.overlays hc ho
  · rw [Container.held_eq, Container.held_eq, c.buffer_of_resident _ he,
      Container.buffer_of_resident _ rfl, add_right_comm, add_right_comm (↑values.toList : Refs)]
    exact congrArg (· + _) (Refs.coe_setIfInBounds hi)
  · rw [Array.size_setIfInBounds]
    exact ha.even_of_resident hc he hk

/-- A container that is changed takes in what is written and gives up what that replaces. -/
theorem Change.trade {id : ContainerId} {e : Edit} {a b : Account} (h : Change id e a b)
    (ha : a.Accounted) : Trade id a b := by
  cases h with
  | overwrite hc hh hk he hi hv => exact ha.overwritten hc he hi
  | overwriteValue hc hh hk he ho hi hv hn => exact ha.overwritten hc he hi
  | @overwritePending s F C c overlay e i v hc hh ho hi hv hn =>
    refine .mk (w := s.swap) hc rfl rfl rfl (congrArg _ ?_) (fun _ _ _ _ => rfl)
      (ha.stored.withContainer hc rfl rfl) fun o ho' => ?_
    · rw [Container.held_eq, Container.held_eq, Container.coe_overlayValues ho,
        Container.coe_overlayValues rfl, add_assoc, add_assoc]
      refine congrArg ((↑(c.buffer s.swap) : Refs) + ·) (Refs.exchange (Slab.total_set _ hi) ?_)
      simp only [OverlayEntry.held, Multiset.coe_singleton]
      abel
    · cases ho'
      exact ⟨(ha.overlays hc ho).1, (ha.overlays hc ho).2.set hi⟩
  | @park s F C c values buckets e hc hh hk he hkey hv hn hhash hnew hadd =>
    have hsound : (c.overlay.getD (.ofBuckets buckets)).entries.Sound := by
      cases ho : c.overlay with
      | none => exact Slab.sound_empty
      | some o => exact (ha.overlays hc ho).2
    refine .mk (w := s.swap) hc rfl rfl (Charges.of_nil_add _ C) (congrArg _ ?_)
      (fun _ _ _ _ => rfl) (ha.stored.withContainer hc rfl rfl) fun o ho => ?_
    · rw [Container.held_eq, Container.held_eq, Container.coe_overlayValues rfl,
        Overlay.held_insert hsound]
      have hold : (↑c.overlayValues : Refs) = (c.overlay.getD (.ofBuckets buckets)).held := by
        cases ho : c.overlay with
        | none =>
          rw [Container.overlayValues_of_none ho]
          rfl
        | some o => exact Container.coe_overlayValues ho
      rw [hold, show (↑[e.key, e.value] : Refs) = e.held from rfl, Multiset.coe_nil, add_zero]
      rw [show Container.buffer s.swap { c with overlay := some _ } = c.buffer s.swap from rfl]
      abel
    · cases ho
      exact ⟨hk, Overlay.sound_insert hsound⟩
  | @unpark s F C c values overlay overlay' e i hc hh he ho h =>
    obtain ⟨hi, rfl⟩ := Overlay.remove_eq_ok.mp h
    refine .mk (w := s.swap) hc rfl (Charges.of_nil_add _ C) rfl (congrArg _ ?_)
      (fun _ _ _ _ => rfl) (ha.stored.withContainer hc rfl rfl) fun o ho' => ?_
    · rw [Container.held_eq, Container.held_eq, Container.coe_overlayValues ho,
        Container.coe_overlayValues rfl, add_assoc, Multiset.coe_nil, add_zero]
      exact congrArg ((↑(c.buffer s.swap) : Refs) + ·) (Slab.total_erase _ hi)
    · cases ho'
      exact ⟨(ha.overlays hc ho).1, (ha.overlays hc ho).2.erase hi⟩
  | @deletePair s F C c values i hc hh hk he hi hno =>
    have heven := ha.even_of_resident hc he hk
    refine .mk (w := s.swap) hc rfl (Charges.of_nil_add _ C) rfl (congrArg _ ?_)
      (fun _ _ _ _ => rfl) (ha.stored.withValues hc rfl fun _ => ?_) fun o ho => ha.overlays hc ho
    · rw [Container.held_eq, Container.held_eq, c.buffer_of_resident _ he,
        Container.buffer_of_resident _ rfl, add_right_comm, Refs.coe_cut values (by omega),
        Multiset.coe_nil, add_zero]
      rfl
    · simp only [Array.size_append, Array.size_extract]
      omega

/-- An edit trades the old value for the new one. -/
theorem Change.accounted {id : ContainerId} {e : Edit} {a b : Account} (h : Change id e a b)
    (ha : a.Accounted) : b.Accounted := (h.trade ha).accounted ha

end PlaneStore
