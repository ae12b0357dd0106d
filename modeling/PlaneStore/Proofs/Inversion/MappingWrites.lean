import PlaneStore.Proofs.Inversion.Basic

/-!
# What an assignment did

A container is brought into memory before it is changed, and backed up if it belongs to a plane
further down. A key of a mapping is written over its pending write, over its sorted pair, or parked;
it is deleted from wherever it is. Whatever may be refused is refused before the first change.
-/

namespace PlaneStore

open Store StoreM

namespace Store

variable {s s' : Store} {id : ContainerId} {u : Unit}

/-! ## Before a change -/

/--
What is filed is the container as it was found, which takes a reference to it and its elements.
-/
theorem backUp_eq_ok (h : backUp id s = .ok (u, s')) :
    s.planes.head?.any (·.isBacked id) = false ∧ ∃ c values t t₁ d, s.container? id = some c ∧
      c.elements = .resident values ∧ values.toList.forM retain s = .ok (⟨⟩, t) ∧
      retain (.ofContainer c.kind id) t = .ok ((), t₁) ∧ t₁.container? id = some d ∧
        s' = (t₁.withContainer id { d with home := s.level }).withPlane (·.file
          { container := id, kind := c.kind, elements := values, size := c.size, home := c.home
            scrubEpoch := c.scrubEpoch }) := by
  obtain ⟨t, s₁, h₁, h⟩ := bind_eq_ok.mp h
  obtain ⟨rfl, rfl⟩ := get_eq_ok.mp h₁
  split at h
  · exact absurd h fault_ne_ok
  next hnew =>
  obtain ⟨c, s₂, h₂, h⟩ := bind_eq_ok.mp h
  obtain ⟨hc, rfl⟩ := container_eq_ok.mp h₂
  obtain ⟨values, s₃, h₃, h⟩ := bind_eq_ok.mp h
  obtain ⟨⟨c', hc', he⟩, rfl⟩ := residentValues_eq_ok.mp h₃
  obtain rfl := Option.some.inj (hc.symm.trans hc')
  obtain ⟨_, s₄, h₄, h⟩ := bind_eq_ok.mp h
  obtain ⟨_, s₅, h₅, h⟩ := bind_eq_ok.mp h
  obtain ⟨_, s₆, h₆, h⟩ := bind_eq_ok.mp h
  obtain ⟨d, hd, rfl⟩ := modifyContainer_eq_ok.mp h₆
  exact ⟨Bool.eq_false_iff.mpr hnew, c, values, s₄, s₅, d, hc, he, h₄, h₅, hd,
    modifyPlane_eq_ok.mp h⟩

/--
A container that is not at home on this plane is merged and backed up before it is written to.
-/
theorem makeWritable_eq_ok (h : makeWritable id s = .ok (u, s')) :
    ∃ t c, faultIn id s = .ok ((), t) ∧ t.container? id = some c ∧
      (c.home = t.level ∧ s' = t ∨ c.home < t.level ∧ ∃ t₁,
        (c.kind = .mapping ∧ Mapping.mergeOverlay id false t = .ok ((), t₁) ∨
          c.kind ≠ .mapping ∧ t₁ = t) ∧ backUp id t₁ = .ok ((), s')) := by
  obtain ⟨_, s₁, h₁, h⟩ := bind_eq_ok.mp h
  obtain ⟨t, s₂, h₂, h⟩ := bind_eq_ok.mp h
  obtain ⟨rfl, rfl⟩ := get_eq_ok.mp h₂
  obtain ⟨c, s₃, h₃, h⟩ := bind_eq_ok.mp h
  obtain ⟨hc, rfl⟩ := container_eq_ok.mp h₃
  refine ⟨s₁, c, h₁, hc, ?_⟩
  split at h
  · next hhome => exact .inl ⟨hhome, (pure_eq_ok.mp h).2.symm⟩
  next hhome =>
  split at h
  · exact absurd h fault_ne_ok
  next hbelow =>
  obtain ⟨_, s₂, h₂, h⟩ := bind_eq_ok.mp h
  refine .inr ⟨Nat.lt_of_le_of_ne (Nat.not_lt.mp hbelow) hhome, s₂, ?_, h⟩
  rcases when_eq_ok.mp h₂ with ⟨hk, h₂⟩ | ⟨hk, rfl⟩
  · exact .inl ⟨of_decide_eq_true hk, h₂⟩
  · exact .inr ⟨of_decide_eq_false hk, rfl⟩

/-- An element is exchanged for another. -/
theorem exchange_eq_ok {i : Nat} {v old : Value} (h : exchange id i v s = .ok (old, s')) :
    ∃ c values, s.container? id = some c ∧ c.elements = .resident values ∧ values[i]? = some old ∧
      s' = s.withContainer id { c with elements := .resident (values.setIfInBounds i v) } := by
  obtain ⟨values, s₁, h₁, h⟩ := bind_eq_ok.mp h
  obtain ⟨⟨c, hc, he⟩, rfl⟩ := residentValues_eq_ok.mp h₁
  cases hi : values[i]? with
  | none =>
    simp only [hi] at h
    exact absurd h fault_ne_ok
  | some x =>
    simp only [hi] at h
    obtain ⟨_, s₂, h₂, h⟩ := bind_eq_ok.mp h
    obtain ⟨rfl, rfl⟩ := pure_eq_ok.mp h
    obtain ⟨c', values', hc', he', rfl⟩ := modifyValues_eq_ok.mp h₂
    obtain rfl := Option.some.inj (hc.symm.trans hc')
    obtain rfl := Elements.resident.inj (he.symm.trans he')
    exact ⟨c, values, hc, he, hi, rfl⟩

end Store

namespace Mapping

variable {s s' : Store} {id : ContainerId} {key value : Value} {u : Unit}

/-! ## Pending writes -/

theorem overlayOf_eq_ok {i : Nat} {o : Overlay} (h : overlayOf id i s = .ok (o, s')) :
    s = s' ∧ ∃ c, s.container? id = some c ∧ c.overlay = some o := by
  obtain ⟨c, s₁, h₁, h⟩ := bind_eq_ok.mp h
  obtain ⟨hc, rfl⟩ := container_eq_ok.mp h₁
  cases ho : c.overlay with
  | none =>
    simp only [ho] at h
    exact absurd h fault_ne_ok
  | some o' =>
    simp only [ho] at h
    obtain ⟨rfl, rfl⟩ := pure_eq_ok.mp h
    exact ⟨rfl, c, hc, ho⟩

/-- The first write that is parked opens the overlay. -/
theorem park_eq_ok {e : OverlayEntry} (h : park id e s = .ok (u, s')) :
    ∃ c, s.container? id = some c ∧ s' = s.withContainer id { c with
      overlay := some ((c.overlay.getD (.ofBuckets s.limits.overlayBuckets)).insert e) } := by
  obtain ⟨t, s₁, h₁, h⟩ := bind_eq_ok.mp h
  obtain ⟨rfl, rfl⟩ := get_eq_ok.mp h₁
  exact modifyContainer_eq_ok.mp h

/-- The value of a pending write is exchanged for another. -/
theorem exchangePending_eq_ok {i : Nat} {v old : Value}
    (h : exchangePending id i v s = .ok (old, s')) :
    ∃ c o e, s.container? id = some c ∧ c.overlay = some o ∧ o.entries.get? i = some e ∧
      old = e.value ∧ s' = s.withContainer id
        { c with overlay := some { o with entries := o.entries.set i { e with value := v } } } := by
  obtain ⟨o, s₁, h₁, h⟩ := bind_eq_ok.mp h
  obtain ⟨rfl, c, hc, ho⟩ := overlayOf_eq_ok h₁
  obtain ⟨e, s₂, h₂, h⟩ := bind_eq_ok.mp h
  obtain ⟨he, rfl⟩ := lift_eq_ok.mp h₂
  obtain ⟨o', s₃, h₃, h⟩ := bind_eq_ok.mp h
  obtain ⟨hset, rfl⟩ := lift_eq_ok.mp h₃
  obtain ⟨e', he', hset⟩ := Fallible.bind_eq_ok.mp hset
  obtain rfl := Except.ok.inj (he.symm.trans he')
  obtain rfl := Fallible.pure_eq_ok.mp hset
  obtain ⟨_, s₄, h₄, h⟩ := bind_eq_ok.mp h
  obtain ⟨c', hc', rfl⟩ := modifyContainer_eq_ok.mp h₄
  obtain rfl := Option.some.inj (hc.symm.trans hc')
  obtain ⟨rfl, rfl⟩ := pure_eq_ok.mp h
  exact ⟨c, o, e, hc, ho, Overlay.entry_eq_ok.mp he, rfl, rfl⟩

/-- A pending write is taken out, and it is known whether one is left that adds a key. -/
theorem takePending_eq_ok {i : Nat} {e : OverlayEntry} {additionsLeft : Bool}
    (h : takePending id i s = .ok ((e, additionsLeft), s')) :
    ∃ c o o', s.container? id = some c ∧ c.overlay = some o ∧ o.remove i = .ok (e, o') ∧
      additionsLeft = decide (o'.addedCount ≠ 0) ∧
        s' = s.withContainer id { c with overlay := some o' } := by
  obtain ⟨o, s₁, h₁, h⟩ := bind_eq_ok.mp h
  obtain ⟨rfl, c, hc, ho⟩ := overlayOf_eq_ok h₁
  obtain ⟨⟨e', o'⟩, s₂, h₂, h⟩ := bind_eq_ok.mp h
  obtain ⟨hremove, rfl⟩ := lift_eq_ok.mp h₂
  obtain ⟨_, s₃, h₃, h⟩ := bind_eq_ok.mp h
  obtain ⟨c', hc', rfl⟩ := modifyContainer_eq_ok.mp h₃
  obtain rfl := Option.some.inj (hc.symm.trans hc')
  obtain ⟨hr, rfl⟩ := pure_eq_ok.mp h
  cases hr
  exact ⟨c, o, o', hc, ho, hremove, rfl, rfl⟩

/-! ## Writing and deleting -/

/-- How a value is stored under a key of which the whereabouts are known. -/
inductive Stores (id : ContainerId) (owner : DataspaceId) (hash : UInt32) (key value : Value)
    (w : Whereabouts) (s s' : Store) : Prop
  | pending {c : Container} {o : Overlay} {i : Nat} {e : OverlayEntry} (hw : w.pending = some i)
      (hc : s.container? id = some c) (ho : c.overlay = some o) (he : o.entries.get? i = some e)
      (h : relinquish owner [e.value] (s.withContainer id
        { c with overlay := some { o with entries := o.entries.set i { e with value } } }) =
          .ok ((), s'))
  | sorted {c : Container} {values : Array Value} {i : Nat} {old : Value} (hw : w.pending = none)
      (hi : w.sorted = some i) (hclean : w.dirty = false) (hc : s.container? id = some c)
      (he : c.elements = .resident values) (hold : values[2 * i + 1]? = some old)
      (h : relinquish owner [old] (s.withContainer id
        { c with elements := .resident (values.setIfInBounds (2 * i + 1) value) }) = .ok ((), s'))
  | parked {t : Store} {c : Container} (hw : w.pending = none)
      (hdirty : ∀ i, w.sorted = some i → w.dirty = true) (h : acquire owner key s = .ok ((), t))
      (hc : t.container? id = some c)
      (hs : s' = t.withContainer id { c with
        overlay := some ((c.overlay.getD (.ofBuckets t.limits.overlayBuckets)).insert
          ⟨hash, w.sorted.isNone, key, value⟩) })

/-- A write acquires the value before it decides where to put it. -/
theorem write_eq_ok (h : write id key value s = .ok (u, s')) :
    ∃ c hash w t, s.container? id = some c ∧ s.heap.hash key = .ok hash ∧
      locate id hash key s = .ok (w, s) ∧ acquire c.owner value s = .ok ((), t) ∧
        Stores id c.owner hash key value w t s' := by
  obtain ⟨c, s₁, h₁, h⟩ := bind_eq_ok.mp h
  obtain ⟨hc, rfl⟩ := container_eq_ok.mp h₁
  obtain ⟨hash, s₂, h₂, h⟩ := bind_eq_ok.mp h
  obtain ⟨hhash, rfl⟩ := readHeap_eq_ok.mp h₂
  obtain ⟨w, s₃, h₃, h⟩ := bind_eq_ok.mp h
  obtain ⟨-, rfl⟩ := readHeap_eq_ok.mp h₃
  obtain ⟨_, t, h₄, h⟩ := bind_eq_ok.mp h
  refine ⟨c, hash, w, t, hc, hhash, h₃, h₄, ?_⟩
  -- Two branches park the write: the key is nowhere, or its sorted pair must not be touched.
  have hpark : w.pending = none → (∀ i, w.sorted = some i → w.dirty = true) → (do
      acquire c.owner key
      park id ⟨hash, w.sorted.isNone, key, value⟩ : StoreM Unit) t = .ok (u, s') →
        Stores id c.owner hash key value w t s' := fun hnone hdirty h => by
    obtain ⟨_, t₁, h₅, h⟩ := bind_eq_ok.mp h
    obtain ⟨d, hd, hs⟩ := park_eq_ok h
    exact .parked hnone hdirty h₅ hd hs
  cases hpending : w.pending with
  | some i =>
    simp only [hpending] at h
    obtain ⟨old, s₂, h₅, h⟩ := bind_eq_ok.mp h
    obtain ⟨d, o, e, hd, ho, he, rfl, rfl⟩ := exchangePending_eq_ok h₅
    exact .pending hpending hd ho he h
  | none =>
    simp only [hpending] at h
    cases hsorted : w.sorted with
    | none =>
      simp only [hsorted] at h
      exact hpark hpending (fun i hi => by cases hsorted.symm.trans hi) (by rw [hsorted]; exact h)
    | some i =>
      cases hdirty : w.dirty with
      | true =>
        simp only [hsorted, hdirty] at h
        exact hpark hpending (fun _ _ => hdirty) (by rw [hsorted]; exact h)
      | false =>
        simp only [hsorted, hdirty] at h
        obtain ⟨old, s₂, h₅, h⟩ := bind_eq_ok.mp h
        obtain ⟨d, values, hd, he, hold, rfl⟩ := exchange_eq_ok h₅
        exact .sorted hpending hsorted hdirty hd he hold h

/-- A sorted pair is cut out, and its key and value are given up. -/
theorem deleteSorted_eq_ok {owner : DataspaceId} {i : Option Nat}
    (h : deleteSorted id owner i s = .ok (u, s')) :
    ∃ j c values, i = some j ∧ s.container? id = some c ∧ c.elements = .resident values ∧
      relinquish owner (values.extract (2 * j) (2 * j + 2)).toList (s.withContainer id { c with
        elements := .resident
          (values.extract 0 (2 * j) ++ values.extract (2 * j + 2) values.size) }) =
            .ok ((), s') := by
  cases i with
  | none =>
    have h : StoreM.fault (.deletedKeyAbsent id) s = .ok (u, s') := h
    exact absurd h fault_ne_ok
  | some j =>
    obtain ⟨values, s₁, h₁, h⟩ := bind_eq_ok.mp h
    obtain ⟨⟨c, hc, he⟩, rfl⟩ := residentValues_eq_ok.mp h₁
    obtain ⟨_, s₂, h₂, h⟩ := bind_eq_ok.mp h
    obtain ⟨c', values', hc', he', rfl⟩ := modifyValues_eq_ok.mp h₂
    obtain rfl := Option.some.inj (hc.symm.trans hc')
    obtain rfl := Elements.resident.inj (he.symm.trans he')
    exact ⟨j, c, values, rfl, hc, he, h⟩

/-- The pending write goes first; the sorted pair goes if there is one, and an empty overlay too. -/
theorem delete_eq_ok (h : delete id key s = .ok (u, s')) :
    ∃ c hash w, s.container? id = some c ∧ s.heap.hash key = .ok hash ∧
      locate id hash key s = .ok (w, s) ∧
      (w.pending = none ∧ deleteSorted id c.owner w.sorted s = .ok ((), s') ∨
        ∃ i e additionsLeft s₁ s₂, w.pending = some i ∧
          takePending id i s = .ok ((e, additionsLeft), s₁) ∧
          relinquish c.owner [e.key, e.value] s₁ = .ok ((), s₂) ∧
          (e.added = false ∧ deleteSorted id c.owner w.sorted s₂ = .ok ((), s') ∨
            e.added = true ∧ additionsLeft = true ∧ s' = s₂ ∨
              e.added = true ∧ additionsLeft = false ∧
                mergeOverlay id false s₂ = .ok ((), s'))) := by
  obtain ⟨c, s₁, h₁, h⟩ := bind_eq_ok.mp h
  obtain ⟨hc, rfl⟩ := container_eq_ok.mp h₁
  obtain ⟨hash, s₂, h₂, h⟩ := bind_eq_ok.mp h
  obtain ⟨hhash, rfl⟩ := readHeap_eq_ok.mp h₂
  obtain ⟨w, s₃, h₃, h⟩ := bind_eq_ok.mp h
  obtain ⟨-, rfl⟩ := readHeap_eq_ok.mp h₃
  refine ⟨c, hash, w, hc, hhash, h₃, ?_⟩
  cases hpending : w.pending with
  | none =>
    simp only [hpending] at h
    exact .inl ⟨rfl, h⟩
  | some i =>
    simp only [hpending] at h
    obtain ⟨⟨e, additionsLeft⟩, s₁, h₄, h⟩ := bind_eq_ok.mp h
    obtain ⟨_, s₂, h₅, h⟩ := bind_eq_ok.mp h
    refine .inr ⟨i, e, additionsLeft, s₁, s₂, rfl, h₄, h₅, ?_⟩
    cases hadded : e.added with
    | false =>
      simp only [hadded, Bool.not_false, if_true] at h
      exact .inl ⟨rfl, h⟩
    | true =>
      simp only [hadded, Bool.not_true, Bool.false_eq_true, if_false] at h
      split at h
      · next hleft => exact .inr (.inl ⟨rfl, hleft, (pure_eq_ok.mp h).2.symm⟩)
      · next hleft => exact .inr (.inr ⟨rfl, Bool.eq_false_iff.mpr hleft, h⟩)

/-! ## Assignment -/

/-- A mapping may grow if there is room in it, and anyway if it does not have to. -/
theorem requireGrowth_eq_ok {c : Container} {present : Bool} {r : Except Refusal Unit}
    (hc : s.container? id = some c) (h : requireGrowth id present s = .ok (r, s')) :
    s = s' ∧ (r = .ok () ∧ (present = false → c.size < s.limits.containerSize) ∨
      present = false ∧ s.limits.containerSize < c.size + 1 ∧
        r = .error (.containerTooLarge (c.size + 1) s.limits.containerSize)) := by
  obtain ⟨c', s₁, h₁, h⟩ := ClientM.lift_bind_eq_ok.mp h
  obtain ⟨hc', rfl⟩ := container_eq_ok.mp h₁
  obtain rfl := Option.some.inj (hc.symm.trans hc')
  have h := ClientM.get_bind_eq_ok.mp h
  split at h
  · next hfull =>
    obtain ⟨rfl, rfl⟩ := ClientM.refuse_eq_ok.mp h
    simp only [Bool.and_eq_true, Bool.not_eq_true', decide_eq_true_eq] at hfull
    exact ⟨rfl, .inr ⟨hfull.1, hfull.2, rfl⟩⟩
  · next hroom =>
    obtain ⟨rfl, rfl⟩ := ClientM.pure_eq_ok.mp h
    refine ⟨rfl, .inl ⟨rfl, fun hp => ?_⟩⟩
    simp only [hp, Bool.not_false, Bool.true_and, decide_eq_true_eq] at hroom
    omega

/--
How an assignment to a resident mapping ends, if `w` is what a reader sees of the value and `found`
is what is stored under the key.
-/
inductive Assigns (id : ContainerId) (key w found : Value) (s : Store) :
    Except Refusal Unit → Store → Prop
  | idle (hw : w = .nil) (hf : found = .nil) : Assigns id key w found s (.ok ()) s
  | full {e : Refusal} (hsome : w ≠ .nil ∨ found ≠ .nil)
      (h : requireGrowth id (!found.isNil) s = .ok (.error e, s)) :
      Assigns id key w found s (.error e) s
  | changed {s₁ s₂ s' : Store} (hsome : w ≠ .nil ∨ found ≠ .nil)
      (hroom : requireGrowth id (!found.isNil) s = .ok (.ok (), s))
      (hready : makeWritable id s = .ok ((), s₁)) (hchange : change id key w s₁ = .ok ((), s₂))
      (hreport : reportSizeChange id s₂ = .ok ((), s')) : Assigns id key w found s (.ok ()) s'

/-- An assignment refuses a key that is nil or lost, and otherwise looks for the key first. -/
theorem assign_eq_ok {r : Except Refusal Unit} (h : assign id key value s = .ok (r, s')) :
    (s.scrubbed key = .ok .nil ∧ r = .error (.expected "live key" key) ∧ s' = s) ∨
      s.scrubbed key = .ok key ∧ key ≠ .nil ∧ ∃ t w found, faultIn id s = .ok ((), t) ∧
        t.scrubbed value = .ok w ∧ lookup id key t = .ok (found, t) ∧
          Assigns id key w found t r s' := by
  obtain ⟨x, s₁, h₁, h⟩ := ClientM.lift_bind_eq_ok.mp h
  obtain ⟨hx, rfl⟩ := scrub_eq_ok.mp h₁
  split at h
  · next hnil =>
    obtain ⟨rfl, rfl⟩ := ClientM.refuse_eq_ok.mp h
    exact .inl ⟨Value.isNil_iff.mp hnil ▸ hx, rfl, rfl⟩
  next hlive =>
  have hlive : x ≠ .nil := fun hn => hlive (hn ▸ rfl)
  obtain rfl : x = key := (scrubbed_cases hx).resolve_right hlive
  obtain ⟨_, t, h₁, h⟩ := ClientM.lift_bind_eq_ok.mp h
  obtain ⟨w, s₂, h₂, h⟩ := ClientM.lift_bind_eq_ok.mp h
  obtain ⟨hw, rfl⟩ := scrub_eq_ok.mp h₂
  obtain ⟨found, s₂, h₂, h⟩ := ClientM.lift_bind_eq_ok.mp h
  obtain ⟨-, rfl⟩ := readHeap_eq_ok.mp h₂
  refine .inr ⟨hx, hlive, t, w, found, h₁, hw, h₂, ?_⟩
  split at h
  · next hidle =>
    obtain ⟨rfl, rfl⟩ := ClientM.pure_eq_ok.mp h
    simp only [Bool.and_eq_true, Bool.not_not] at hidle
    exact .idle (Value.isNil_iff.mp hidle.1) (Value.isNil_iff.mp hidle.2)
  next hbusy =>
  have hsome : w ≠ .nil ∨ found ≠ .nil := Decidable.not_and_iff_not_or_not.mp fun hnil =>
    hbusy (by rw [hnil.1, hnil.2]; rfl)
  have hgrowth : ∀ {r : Except Refusal Unit} {s₂ : Store},
      requireGrowth id (!found.isNil) t = .ok (r, s₂) → t = s₂ := fun h => by
    obtain ⟨c, s₃, h₃, -⟩ := ClientM.lift_bind_eq_ok.mp h
    exact (requireGrowth_eq_ok (container_eq_ok.mp h₃).1 h).1
  rcases ClientM.bind_eq_ok.mp h with ⟨e, h₃, rfl⟩ | ⟨_, s₃, h₃, h⟩
  · obtain rfl := hgrowth h₃
    exact .full hsome h₃
  obtain rfl := hgrowth h₃
  obtain ⟨_, s₁, h₄, h⟩ := ClientM.lift_bind_eq_ok.mp h
  obtain ⟨_, s₂, h₅, h⟩ := ClientM.lift_bind_eq_ok.mp h
  obtain ⟨_, rfl, h₆⟩ := ClientM.lift_eq_ok.mp h
  exact .changed hsome h₃ h₄ h₅ h₆

end Mapping

end PlaneStore
