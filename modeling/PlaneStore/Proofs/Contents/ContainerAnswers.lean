import PlaneStore.Proofs.Contents.UpkeepConfluence
import PlaneStore.Proofs.Totality.Reading

/-!
# What containers answer

Reading an array or record scrubs it first, unless that was done in the current epoch; listing a
mapping merges what is pending for it. So what is answered can be told from what the container holds
afterwards. Evicting a container before it is read makes no difference to the answer.
-/

namespace PlaneStore

open Store

/-- The element that a key stands for. -/
def Sequence.indexed (values : Array Value) : Value → Except Refusal Value
  | .int n =>
    if 0 ≤ n.toInt ∧ n.toInt < values.size then .ok (values.getD n.toInt.toNat .nil)
    else .error (.outOfRange n.toInt values.size)
  | key => .error (.expected "int" key)

theorem Sequence.mem_of_indexed {values : Array Value} {key v : Value}
    (h : indexed values key = .ok v) : v ∈ values := by
  cases key with
  | int n =>
    by_cases hin : 0 ≤ n.toInt ∧ n.toInt < values.size
    · have hlt : n.toInt.toNat < values.size := by omega
      rw [← Except.ok.inj ((if_pos hin).symm.trans h), Array.getD_eq_getD_getElem?,
        Array.getElem?_eq_getElem hlt]
      exact Array.getElem_mem hlt
    · cases (if_neg hin).symm.trans h
  | _ => cases h

/-- The elements with the one replaced that a key stands for. -/
def Sequence.overwritten (values : Array Value) (key v : Value) : Array Value :=
  match key with
  | .int n => if 0 ≤ n.toInt then values.setIfInBounds n.toInt.toNat v else values
  | _ => values

theorem Sequence.mem_of_overwritten {values : Array Value} {key v w : Value}
    (h : w ∈ overwritten values key v) : w ∈ values ∨ w = v := by
  unfold overwritten at h
  split at h
  · split at h
    · exact Array.mem_or_eq_of_mem_setIfInBounds h
    · exact .inl h
  · exact .inl h

/-- Nothing is overwritten by a key that stands for no element. -/
theorem Sequence.overwritten_of_refused {values : Array Value} {key v : Value} {e : Refusal}
    (h : indexed values key = .error e) : overwritten values key v = values := by
  cases key with
  | int n =>
    have hout : ¬(0 ≤ n.toInt ∧ n.toInt < values.size) := fun hin => by
      cases (if_pos hin).symm.trans h
    by_cases hpos : 0 ≤ n.toInt
    · exact (if_pos hpos).trans (Array.setIfInBounds_eq_of_size_le (by omega))
    · exact if_neg hpos
  | _ => rfl

namespace Store

variable {s s' : Store} {id : ContainerId}

theorem Recent.of_wanes (h : s.Recent id) (hw : Wanes s s') : s'.Recent id := by
  intro c' hc'
  obtain ⟨c, hc, hcore⟩ := hw.container id c' hc'
  rw [Container.scrubEpoch_of_core hcore, hw.objects]
  exact h c hc

/-- The size of an array or record is that of its buffer, wherever that is. -/
theorem Stored.size_eq {c : Container} (hs : s.Stored) (hc : s.container? id = some c)
    (hk : c.kind ≠ .mapping) : c.size = (c.content s.swap).buffer.size := by
  have hlength : c.size = c.elements.length := by
    unfold Container.size
    split
    · next h => exact absurd h hk
    · rfl
  rw [hlength, hs.length_eq hc]

end Store

section

variable {s s' : Store} {F : Refs} {C : Charges} {q : Option Closing} {id : ContainerId}
  {shape : Shape}

/-- After a scrub there is nothing to scrub in this epoch. -/
theorem recent_scrubElements {u : Unit} (ha : Account.Kept ⟨s, F, C, q⟩)
    (hk : ∀ c, s.container? id = some c → c.kind ≠ .mapping)
    (h : scrubElements id s = .ok (u, s')) : s'.Recent id := by
  intro c hc
  obtain ⟨-, -, -, -, -, hepoch⟩ := scrubElements_post ha hk h c hc
  exact hepoch

/-- Scrubbing touches one container, which is resident and clean then. -/
theorem scrubElements_answers {u : Unit} (ha : Account.Kept ⟨s, F, C, q⟩)
    (hv : F.Covers (.container shape id)) (hs : shape ≠ .mapping)
    (h : scrubElements id s = .ok (u, s')) :
    Path (Effect.Keeps id) ⟨s, F, C, q⟩ ⟨s', F, C, q⟩ ∧ s'.Recent id ∧
      ∃ c values, s'.container? id = some c ∧ c.kind ≠ .mapping ∧
        c.elements = .resident values := by
  have hk : ∀ c, s.container? id = some c → c.kind ≠ .mapping :=
    fun c hc => (ha.fits_of_covers hv).not_mapping hc hs
  have hpath := walk_scrubElements (E := Effect.Keeps id) (F := F) (C := C) (q := q) (.inl rfl)
    (.inr rfl) hk h
  have ha' := hpath.kept ha
  obtain ⟨c, hc⟩ := (ha'.there_of_flight hv).exists_container
  obtain ⟨-, values, -, he, -⟩ := scrubElements_post ha hk h c hc
  exact ⟨hpath, recent_scrubElements ha hk h, c, values, hc,
    (ha'.fits_of_covers hv).not_mapping hc hs, he⟩

/-- Listing an array or record scrubs it and answers with what is left. -/
theorem elements_answers {r : Except Refusal (Array Value)} (ha : Account.Kept ⟨s, F, C, q⟩)
    (hv : F.Covers (.container shape id)) (hs : shape ≠ .mapping)
    (h : elements (.container shape id) s = .ok (r, s')) :
    Path (Effect.Keeps id) ⟨s, F, C, q⟩ ⟨s', F, C, q⟩ ∧ s'.Recent id ∧
      ∃ x, s'.content? id = some x ∧ x.kind ≠ .mapping ∧ r = .ok x.buffer := by
  obtain ⟨values, rfl, hlisted⟩ := ClientM.lift_eq_ok.mp h
  obtain ⟨_, s₁, h₁, h₂⟩ := StoreM.bind_eq_ok.mp hlisted
  obtain ⟨⟨c, hc, he⟩, rfl⟩ := StoreM.residentValues_eq_ok.mp h₂
  have h₁ : scrubElements id s = .ok ((), s₁) := by
    cases shape with
    | mapping => exact absurd rfl hs
    | array | record => exact h₁
  obtain ⟨hpath, hrecent, c', -, hc', hk, -⟩ := scrubElements_answers ha hv hs h₁
  obtain rfl := Option.some.inj (hc.symm.trans hc')
  refine ⟨hpath, hrecent, _, content?_of_container hc, hk, ?_⟩
  rw [Container.content_buffer he]

/-- An index is granted where the list has an element. -/
theorem requireIndex_answers {key : Value} {r : Except Refusal Nat} {c : Container}
    {values : Array Value} (hc : s.container? id = some c) (hk : c.kind ≠ .mapping)
    (he : c.elements = .resident values) (h : Sequence.requireIndex id key s = .ok (r, s')) :
    r.map (values.getD · .nil) = Sequence.indexed values key := by
  obtain ⟨-, hindex⟩ := Sequence.requireIndex_eq_ok h
  cases key with
  | int n =>
    obtain ⟨c', hc', rfl⟩ := hindex
    obtain rfl := Option.some.inj (hc.symm.trans hc')
    rw [Container.size_of_values hk he]
    by_cases hin : 0 ≤ n.toInt ∧ n.toInt < values.size
    · rw [if_pos hin]
      exact (if_pos hin).symm
    · rw [if_neg hin]
      exact (if_neg hin).symm
  | _ =>
    rw [show r = _ from hindex]
    rfl

/-- Element access scrubs the container and answers from what is left. -/
theorem indexGet_answers {key : Value} {r : Except Refusal Value} (ha : Account.Kept ⟨s, F, C, q⟩)
    (hv : F.Covers (.container shape id)) (hs : shape ≠ .mapping)
    (h : Sequence.indexGet (.container shape id) key s = .ok (r, s')) :
    Path (Effect.Keeps id) ⟨s, F, C, q⟩ ⟨s', earned r + F, C, q⟩ ∧ s'.Recent id ∧
      ∃ x, s'.content? id = some x ∧ x.kind ≠ .mapping ∧ r = Sequence.indexed x.buffer key := by
  obtain ⟨s₁, h₁, hindexed⟩ := Sequence.indexGet_eq_ok hs h
  obtain ⟨hpath, hrecent, c, values, hc, hk, he⟩ := scrubElements_answers ha hv hs h₁
  have ha₁ := hpath.kept ha
  have hx := content?_of_container hc
  have hbuffer : (c.content s₁.swap).buffer = values := Container.content_buffer he _
  rcases hindexed with ⟨e, h₂, rfl, rfl⟩ | ⟨i, v, h₂, h₃, rfl, h₄⟩
  · refine ⟨hpath.earned_error, hrecent, _, hx, hk, ?_⟩
    rw [hbuffer]
    exact requireIndex_answers hc hk he h₂
  · obtain ⟨-, c', values', hc', he', hi⟩ := Sequence.element_eq_ok h₃
    obtain rfl := Option.some.inj (hc.symm.trans hc')
    obtain rfl := Elements.resident.inj (he.symm.trans he')
    have hretain := walk_retain (E := Effect.Keeps id) (F := F) (C := C) (q := q) (.inl rfl)
      (ha₁.fits_of_values hc he _ (Array.mem_of_getElem? hi)) h₄
    have hwanes := (retain_eq_ok h₄).wanes
    obtain ⟨d, hd, hcore⟩ := (retain_eq_ok h₄).exists_container hc
    have hcontent : d.content s'.swap = c.content s₁.swap :=
      content_of_core hcore (hwanes.buffer id d hd)
    refine ⟨hpath.trans hretain, hrecent.of_wanes hwanes, _, content?_of_container hd, ?_, ?_⟩
    · rw [hcontent]
      exact hk
    · rw [hcontent, hbuffer, ← requireIndex_answers hc hk he h₂]
      simp [Array.getD_eq_getD_getElem?, hi, Except.map]

/-- The index that is granted is that of the element that an assignment replaces. -/
theorem index_of_requireIndex {key : Value} {i : Nat} {c : Container} {values : Array Value}
    (hc : s.container? id = some c) (hk : c.kind ≠ .mapping) (he : c.elements = .resident values)
    (h : Sequence.requireIndex id key s = .ok (.ok i, s')) :
    (∃ v, Sequence.indexed values key = .ok v) ∧
      ∀ w, Sequence.overwritten values key w = values.setIfInBounds i w := by
  refine ⟨⟨_, (requireIndex_answers hc hk he h).symm⟩, fun w => ?_⟩
  obtain ⟨n, c', rfl, -, hin, rfl⟩ := Sequence.exists_of_requireIndex h
  exact if_pos hin.1

/-- An edit of an element replaces it. -/
theorem Makes.buffer {a b : Account} {i : Nat} {w : Value} {x' : Content}
    (h : Makes id (.element i w) a b) (ha : a.Kept) (hx' : b.store.content? id = some x')
    (hk : x'.kind ≠ .mapping) :
    ∃ x, a.store.content? id = some x ∧ x.kind = x'.kind ∧
      x'.buffer = x.buffer.setIfInBounds i w := by
  obtain ⟨c, d, hbefore, hchange, hafter⟩ := h
  have hc := hbefore.kept ha
  obtain ⟨z, hz, hkz, hlast⟩ :=
    hafter.buffer ((Step.change hchange).kept hc) Effect.Readies.leaves hx' hk
  obtain ⟨x₀, d₀, hx₀, hd, hbec⟩ := Content.change_becomes hchange
  rw [hd] at hz
  obtain ⟨-, rfl⟩ := (content?_withContainer_cases hx₀ hz).resolve_right fun hne => hne.1 rfl
  have hky := hbec.kind.symm.trans hkz
  obtain ⟨x, hx, hkx, hfirst⟩ :=
    hbefore.buffer ha Effect.Readies.leaves (content?_of_container hx₀) (hky ▸ hk)
  have hedit : (d₀.content c.store.swap).buffer =
      (x₀.content c.store.swap).buffer.setIfInBounds i w := by
    generalize d₀.content c.store.swap = y at hbec
    cases hbec
    rfl
  exact ⟨x, hx, hkx.trans hky, hlast.symm.trans (hedit.trans (by rw [hfirst]))⟩

/-- An assignment to an array or record overwrites the element that the key stands for. -/
theorem overwrite_answers {key value : Value} {r : Except Refusal Unit}
    (ha : Account.Kept ⟨s, F, C, none⟩) (hv : F.Covers (.container shape id))
    (hs : shape ≠ .mapping)
    (hvalue : F.Covers value)
    (h : Sequence.assign (.container shape id) key value s = .ok (r, s')) :
    ∃ x x', s.content? id = some x ∧ s'.content? id = some x' ∧ x.kind ≠ .mapping ∧
      r = (Sequence.indexed x.buffer key).map (fun _ => ()) ∧
      x'.buffer = Sequence.overwritten x.buffer key (s.seen value) := by
  obtain ⟨s₁, h₁, hassigned⟩ := Sequence.assign_eq_ok hs h
  obtain ⟨hpath₁, c₀, values, -, hc₁⟩ :=
    walk_faultIn (E := (· = .still)) (F := F) (C := C) (q := none) rfl h₁
  have ha₁ := hpath₁.kept ha
  have hk := (ha₁.fits_of_covers hv).not_mapping hc₁ hs
  obtain ⟨x, hx, hkx, hbuffer⟩ :=
    hpath₁.buffer ha Effect.leaves_of_still (content?_of_container hc₁) hk
  rw [Container.content_buffer rfl] at hbuffer
  rcases hassigned with ⟨e, h₂, rfl, rfl⟩ | ⟨i, s₂, h₂, h₃, rfl, h₄⟩
  · have hrefused := (requireIndex_answers hc₁ hk rfl h₂).symm
    refine ⟨x, _, hx, content?_of_container hc₁, hkx ▸ hk, ?_, ?_⟩
    · rw [hbuffer, hrefused]
      rfl
    · rw [hbuffer, Sequence.overwritten_of_refused hrefused, Container.content_buffer rfl]
  obtain ⟨⟨v, hindexed⟩, hover⟩ := index_of_requireIndex hc₁ hk rfl h₂
  obtain ⟨hpath₂, c, values', hc, hh, -⟩ := walk_makeWritable Effect.Readies.still .nest ha₁ h₃
  have hpath := hpath₁.readies.trans hpath₂
  have ha₂ := hpath.kept ha
  have hk₂ := (ha₂.fits_of_covers hv).not_mapping hc hs
  have hmakes := (walk_put ha₂ hvalue hc hh hk₂ h₄).path_trans hpath
  have ha' := (hmakes.path (E := fun _ => True) trivial trivial trivial).kept ha
  obtain ⟨c', hc'⟩ := (ha'.there_of_flight hv).exists_container
  have hk' := (ha'.fits_of_covers hv).not_mapping hc' hs
  obtain ⟨y, hy, -, hlast⟩ := hmakes.buffer ha (content?_of_container hc') hk'
  obtain rfl := Option.some.inj (hx.symm.trans hy)
  refine ⟨x, _, hx, content?_of_container hc', hkx ▸ hk, ?_, ?_⟩
  · rw [hbuffer, hindexed]
    rfl
  · rw [hlast, hpath.seen ha Effect.Readies.calm hvalue.of_flight, hbuffer, hover]

/-- The size of an array or record is told as it is. -/
theorem size_answers {r : Except Refusal Nat} (ha : Account.Kept ⟨s, F, C, q⟩)
    (hv : F.Covers (.container shape id)) (hs : shape ≠ .mapping)
    (h : size (.container shape id) s = .ok (r, s')) :
    s = s' ∧ ∃ x, s.content? id = some x ∧ x.kind ≠ .mapping ∧ r = .ok x.buffer.size := by
  obtain ⟨_, s₁, h₁, h⟩ := ClientM.lift_bind_eq_ok.mp h
  obtain ⟨c, s₂, h₂, h⟩ := ClientM.lift_bind_eq_ok.mp h
  obtain ⟨hc, rfl⟩ := StoreM.container_eq_ok.mp h₂
  obtain ⟨rfl, rfl⟩ := ClientM.pure_eq_ok.mp h
  rcases StoreM.when_eq_ok.mp h₁ with ⟨hm, -⟩ | ⟨-, rfl⟩
  · have hm : shape = .mapping := ValueType.container.inj (of_decide_eq_true hm)
    exact absurd hm hs
  · have hk := (ha.fits_of_covers hv).not_mapping hc hs
    exact ⟨rfl, _, content?_of_container hc, hk,
      congrArg Except.ok (ha.accounted.stored.size_eq hc hk)⟩

/-! ## Mappings -/

/-- The elements that come back are those that the container has in the heap or in the swap. -/
theorem faultIn_values {c : Container} {u : Unit} (hc : s.container? id = some c)
    (h : faultIn id s = .ok (u, s')) :
    s'.container? id = some { c with elements := .resident (c.buffer s.swap).toArray } := by
  obtain ⟨c', hc', hload⟩ := faultIn_eq_ok h
  obtain rfl := Option.some.inj (hc.symm.trans hc')
  rcases hload with ⟨values, he, rfl⟩ | ⟨ticket, he, rfl⟩
  · rw [c.buffer_of_resident _ he, Array.toArray_toList, hc, ← he]
  · rw [c.buffer_of_evicted _ he, Array.toArray_toList]
    exact container?_withContainer_self (s := { s with swap := (s.swap.load ticket).2 }) hc

/-- If nothing is pending, a merge only makes the elements resident. -/
theorem mergeOverlay_of_clean {c : Container} {u : Unit} (hc : s.container? id = some c)
    (ho : c.overlay = none) (h : Mapping.mergeOverlay id false s = .ok (u, s')) :
    faultIn id s = .ok (u, s') := by
  obtain ⟨s₁, c₁, superseded, s₂, dropped, s₃, h₁, -, h₂, ⟨rfl, rfl⟩, h⟩ :=
    Mapping.mergeOverlay_eq_ok h
  obtain ⟨c₂, hc₂, ⟨-, rfl, rfl⟩ | ⟨overlay, _, _, ho₂, -⟩⟩ := Mapping.absorbOverlay_eq_ok h₂
  · obtain rfl := relinquish_nil h
    exact h₁
  · obtain rfl := Option.some.inj ((faultIn_values hc h₁).symm.trans hc₂)
    cases ho.symm.trans ho₂

/-- The elements of a mapping for which nothing is pending are listed as they are. -/
theorem elements_of_clean {c : Container} {r : Except Refusal (Array Value)}
    (hc : s.container? id = some c) (ho : c.overlay = none)
    (h : elements (.container .mapping id) s = .ok (r, s')) :
    r = .ok (c.buffer s.swap).toArray := by
  obtain ⟨values, rfl, hlisted⟩ := ClientM.lift_eq_ok.mp h
  obtain ⟨u, s₁, h₁, h₂⟩ := StoreM.bind_eq_ok.mp hlisted
  obtain ⟨⟨d, hd, he⟩, rfl⟩ := StoreM.residentValues_eq_ok.mp h₂
  have hd' := faultIn_values hc (mergeOverlay_of_clean hc ho h₁)
  obtain rfl := Option.some.inj (hd'.symm.trans hd)
  rw [Elements.resident.inj he]

/-- A mapping that is evicted is listed afterwards as it would have been before. -/
theorem elements_evicted {s₁ s₂ s₃ : Store} {b : Bool} {r₂ r₃ : Except Refusal (Array Value)}
    (ha : Account.Kept ⟨s, F, C, q⟩) (h₁ : evictOne id s = .ok (b, s₁))
    (h₂ : elements (.container .mapping id) s₁ = .ok (r₂, s₂))
    (h₃ : elements (.container .mapping id) s = .ok (r₃, s₃)) : r₂ = r₃ := by
  obtain ⟨c, hc, -, ⟨-, rfl⟩ | ⟨-, t, d, values, hmerge, hd, he, rfl⟩⟩ := evictOne_eq_ok h₁
  · rw [h₂] at h₃
    exact (Prod.mk.inj (Except.ok.inj h₃)).1
  -- Listing lists what the merge makes of the mapping, and that is what is evicted.
  have hmerged : r₃ = .ok values ∧ d.overlay = none := by
    rcases StoreM.when_eq_ok.mp hmerge with ⟨-, hmerge⟩ | ⟨hclean, rfl⟩
    · obtain ⟨values', rfl, hlisted⟩ := ClientM.lift_eq_ok.mp h₃
      obtain ⟨u, m, hm, h₄⟩ := StoreM.bind_eq_ok.mp hlisted
      have hm : Mapping.mergeOverlay id false s = .ok (u, m) := hm
      obtain ⟨-, rfl⟩ := Prod.mk.inj (Except.ok.inj (hmerge.symm.trans hm))
      obtain ⟨⟨d', hd', he'⟩, rfl⟩ := StoreM.residentValues_eq_ok.mp h₄
      obtain rfl := Option.some.inj (hd.symm.trans hd')
      obtain ⟨-, hpost⟩ := walk_mergeOverlay (E := fun _ => True) trivial (fun _ => trivial) ha
        (fun hf => absurd hf (by decide)) hmerge
      obtain ⟨-, -, -, -, ho, -⟩ := hpost d hd
      exact ⟨congrArg Except.ok (Elements.resident.inj (he'.symm.trans he)), ho⟩
    · obtain rfl := Option.some.inj (hc.symm.trans hd)
      have ho : c.overlay = none := by simpa using hclean
      rw [elements_of_clean hc ho h₃, c.buffer_of_resident _ he, Array.toArray_toList]
      exact ⟨rfl, ho⟩
  obtain ⟨rfl, ho⟩ := hmerged
  have hparked := container?_withContainer_self (s := { t with swap := (t.swap.store values).2 })
    (d := { d with
      elements := .evicted (t.swap.store values).1 values.size, savedSize := some d.size
      sizeReported := false }) hd
  rw [elements_of_clean hparked ho h₂, Container.buffer_of_evicted _ rfl, Array.toArray_toList]
  exact congrArg Except.ok (Swap.load_store t.swap values)

/-- A mapping whose size was told was scrubbed for that. -/
theorem recent_size {r : Except Refusal Nat} (ha : Account.Kept ⟨s, F, C, q⟩)
    (hv : F.Covers (.container .mapping id))
    (h : Mapping.size (.container .mapping id) s = .ok (r, s')) : s'.Recent id := by
  obtain ⟨u, s₁, h₁, h⟩ := ClientM.lift_bind_eq_ok.mp h
  obtain ⟨c, s₂, h₂, h⟩ := ClientM.lift_bind_eq_ok.mp h
  obtain ⟨-, rfl⟩ := StoreM.container_eq_ok.mp h₂
  obtain ⟨rfl, rfl⟩ := ClientM.pure_eq_ok.mp h
  obtain ⟨-, hpost⟩ := walk_mergeOverlay (E := fun _ => True) trivial (fun _ => trivial) ha
    (fun _ c hc => (ha.fits_of_covers hv).mapping hc) h₁
  intro d hd
  obtain ⟨-, -, -, -, -, -, hepoch⟩ := hpost d hd
  exact hepoch rfl

end

end PlaneStore
