import PlaneStore.Proofs.Mapping.AssignmentSize

/-!
# The keys that a mapping stores

Two texts may have one identity, and a mapping holds on to the one that came first: a later write
under that identity changes the value alone, even where it is parked with a key of its own until the
overlay is merged. So what a mapping stores something under are the keys of its sorted pairs and
those that the overlay adds to them. Which these are does not depend on how far writes have been
merged, and only an assignment under a new identity brings one in.
-/

namespace PlaneStore

open Store

namespace Mapping

/-! ## Keys in a merge -/

variable {h : Heap} {id : ContainerId} {m m' : Merge} {e : OverlayEntry} {es : List OverlayEntry}

/-- The sorted pairs keep their keys, and only entries that are added join them. -/
theorem Merge.keys_step (hs : Merge.step h id m e = .ok m') :
    (Pair.ofBuffer m'.values).map Prod.fst = (Pair.ofBuffer m.values).map Prod.fst ∧
      ∀ p ∈ m'.added, p ∈ m.added ∨ e.added = true ∧ p.1 = e.key := by
  rcases Merge.step_eq_ok hs with ⟨hadd, rfl⟩ | ⟨i, -, -, rfl⟩
  · refine ⟨rfl, fun p hp => ?_⟩
    rcases List.mem_append.mp hp with hp | hp
    · exact .inl hp
    · exact .inr ⟨hadd, by rw [List.mem_singleton.mp hp]⟩
  · refine ⟨?_, fun p hp => .inl hp⟩
    by_cases hlt : 2 * i + 1 < m.values.size
    · show (Pair.ofBuffer (m.values.setIfInBounds (2 * i + 1) e.value)).map Prod.fst = _
      rw [Pair.ofBuffer_set hlt, Heap.map_fst_set (Pair.getElem?_ofBuffer hlt)]
    · show (Pair.ofBuffer (m.values.setIfInBounds (2 * i + 1) e.value)).map Prod.fst = _
      rw [Array.setIfInBounds_eq_of_size_le (Nat.le_of_not_lt hlt)]

/-- Merging keeps the sorted keys and adds those of additions alone. -/
theorem Merge.keys_foldlM (hs : es.foldlM (Merge.step h id) m = .ok m') :
    (Pair.ofBuffer m'.values).map Prod.fst = (Pair.ofBuffer m.values).map Prod.fst ∧
      ∀ p ∈ m'.added, p ∈ m.added ∨ ∃ e ∈ es, e.added = true ∧ p.1 = e.key := by
  induction es generalizing m with
  | nil =>
    obtain rfl := Fallible.pure_eq_ok.mp hs
    exact ⟨rfl, fun p hp => .inl hp⟩
  | cons e es ih =>
    rw [List.foldlM_cons] at hs
    obtain ⟨m₁, h₁, hs⟩ := Fallible.bind_eq_ok.mp hs
    obtain ⟨hkeys₁, hadded₁⟩ := Merge.keys_step h₁
    obtain ⟨hkeys, hadded⟩ := ih hs
    refine ⟨hkeys.trans hkeys₁, fun p hp => ?_⟩
    rcases hadded p hp with hp | ⟨d, hd, hp⟩
    · rcases hadded₁ p hp with hp | hp
      · exact .inl hp
      · exact .inr ⟨e, List.mem_cons_self, hp⟩
    · exact .inr ⟨d, List.mem_cons_of_mem e hd, hp⟩

/-- A merge brings no key in that was neither sorted nor added. -/
theorem keys_merged {overlay : Overlay} {values values' : Array Value} {released : List Value}
    (hm : merged h id overlay values = .ok (values', released)) {p : Pair}
    (hp : p ∈ Pair.ofBuffer values') :
    (∃ q ∈ Pair.ofBuffer values, q.1 = p.1) ∨
      ∃ i e, overlay.entries.get? i = some e ∧ e.added = true ∧ e.key = p.1 := by
  obtain ⟨m, sorted, pairs, hfold, hsort, hpairs, rfl, rfl⟩ := merged_eq_ok hm
  obtain ⟨hkeys, hadded⟩ := Merge.keys_foldlM hfold
  rw [Pair.ofBuffer_toBuffer] at hp
  rcases List.mem_append.mp ((Heap.mergePairs_perm hpairs).mem_iff.mp hp) with hp | hp
  · have hkey : p.1 ∈ (Pair.ofBuffer values).map Prod.fst := hkeys ▸ List.mem_map_of_mem hp
    exact .inl (List.mem_map.mp hkey)
  · rcases hadded p ((Heap.sortOn_perm hsort).mem_iff.mp hp) with hp | ⟨e, he, hadd, hkey⟩
    · cases hp
    · obtain ⟨i, hi⟩ := Slab.mem_toList.mp he
      exact .inr ⟨i, e, hi, hadd, hkey.symm⟩

end Mapping

namespace Content

/-- The mapping stores something under just this key. -/
def HasKey (x : Content) (w : Value) : Prop :=
  (∃ p ∈ x.pairs, p.1 = w) ∨ ∃ o i e, x.overlay = some o ∧ o.entries.get? i = some e ∧
    e.added = true ∧ e.key = w

section

variable {h : Heap} {x : Content} {k : Identity} {w w' : Value}

theorem HasKey.mem_held (hw : x.HasKey w) : w ∈ x.held := by
  rcases hw with ⟨p, hp, rfl⟩ | ⟨o, i, e, ho, hi, -, rfl⟩
  · exact (mem_held_of_pair hp).1
  · exact (mem_held_of_entry ho hi).1

/-- Under every key something is found. -/
theorem HasKey.find_ne_none (hw : x.HasKey w) : x.find h (h.identity w) ≠ none := by
  rw [find_eq, ne_eq, Option.or_eq_none_iff]
  rcases hw with ⟨p, hp, rfl⟩ | ⟨o, i, e, ho, hi, -, rfl⟩
  · rintro ⟨-, hnone⟩
    exact Heap.find_eq_none.mp hnone p hp rfl
  · rintro ⟨hnone, -⟩
    unfold Content.pending at hnone
    rw [ho] at hnone
    exact Heap.Pending.find_pairs_none.mp hnone i e hi rfl

namespace Tabled

/-- What is found is stored under a key. -/
theorem exists_hasKey (ht : x.Tabled h) (hk : x.find h k ≠ none) :
    ∃ w, x.HasKey w ∧ h.identity w = k := by
  have hsorted : h.find x.pairs k ≠ none → ∃ w, x.HasKey w ∧ h.identity w = k := fun hne => by
    obtain ⟨v, hv⟩ := Option.ne_none_iff_exists'.mp hne
    obtain ⟨p, hp, hkey, -⟩ := (Heap.find_eq_some ht.table.distinct).mp hv
    exact ⟨p.1, .inl ⟨p, hp, rfl⟩, hkey⟩
  cases ho : x.overlay with
  | none => exact hsorted (find_of_none ho ▸ hk)
  | some o =>
    rw [find_of_some ho, ne_eq, Option.or_eq_none_iff, not_and_or] at hk
    rcases hk with hk | hk
    · obtain ⟨v, hv⟩ := Option.ne_none_iff_exists'.mp hk
      obtain ⟨i, e, hi, rfl, -⟩ := (ht.pending ho).find_pairs.mp hv
      by_cases hadd : e.added = true
      · exact ⟨e.key, .inr ⟨o, i, e, ho, hi, hadd, rfl⟩, rfl⟩
      · exact hsorted fun hnone => hadd (((ht.pending ho).added hi).mpr hnone)
    · exact hsorted hk

/-- Keys of one identity are one key. -/
theorem hasKey_inj (ht : x.Tabled h) (hw : x.HasKey w) (hw' : x.HasKey w')
    (hid : h.identity w = h.identity w') : w = w' := by
  have hapart : ∀ {p : Pair} {o : Overlay} {i : Nat} {e : OverlayEntry}, p ∈ x.pairs →
      x.overlay = some o → o.entries.get? i = some e → e.added = true →
        h.identity p.1 ≠ h.identity e.key := fun hp ho hi hadd =>
    Heap.find_eq_none.mp (((ht.pending ho).added hi).mp hadd) _ hp
  rcases hw with ⟨p, hp, rfl⟩ | ⟨o, i, e, ho, hi, hadd, rfl⟩
  · rcases hw' with ⟨q, hq, rfl⟩ | ⟨o, i, e, ho, hi, hadd, rfl⟩
    · exact congrArg Prod.fst (List.inj_on_of_nodup_map ht.table.distinct hp hq hid)
    · exact absurd hid (hapart hp ho hi hadd)
  · rcases hw' with ⟨q, hq, rfl⟩ | ⟨o', j, e', ho', hj, hadd', rfl⟩
    · exact absurd hid.symm (hapart hq ho hi hadd)
    · obtain rfl := Option.some.inj (ho.symm.trans ho')
      obtain rfl := (ht.pending ho).distinct hi hj hid
      obtain rfl := Option.some.inj (hi.symm.trans hj)
      rfl

end Tabled

/-! ## Keys and edits -/

section

variable {o : Overlay} {i : Nat} {e : OverlayEntry} {v : Value}

theorem HasKey.of_setValue (hlt : 2 * i + 1 < x.buffer.size)
    (hw : HasKey { x with buffer := x.buffer.setIfInBounds (2 * i + 1) v } w) : x.HasKey w := by
  rcases hw with ⟨p, hp, rfl⟩ | hw
  · have hp : p ∈ Pair.ofBuffer (x.buffer.setIfInBounds (2 * i + 1) v) := hp
    have hkey := List.mem_map_of_mem (f := Prod.fst) hp
    rw [Pair.ofBuffer_set hlt, Heap.map_fst_set (Pair.getElem?_ofBuffer hlt)] at hkey
    exact .inl (List.mem_map.mp hkey)
  · exact .inr hw

theorem HasKey.of_setPending (ho : x.overlay = some o) (hi : o.entries.get? i = some e)
    (hw : HasKey { x with
      overlay := some { o with entries := o.entries.set i { e with value := v } } } w) :
    x.HasKey w := by
  rcases hw with hw | ⟨_, j, d, ho', hj, hadd, rfl⟩
  · exact .inl hw
  · obtain rfl := Option.some.inj ho'
    obtain ⟨d₀, hj₀, hkey, -, hadded, -⟩ := Heap.Pending.get?_set hi hj
    exact .inr ⟨o, j, d₀, ho, hj₀, hadded.trans hadd, hkey⟩

/-- A pair that is parked brings its key in if it is added. -/
theorem HasKey.of_insert {buckets : Nat} (hs : ∀ o ∈ x.overlay, o.entries.Sound)
    (hw : HasKey { x with overlay := some ((x.overlay.getD (.ofBuckets buckets)).insert e) } w) :
    x.HasKey w ∨ e.added = true ∧ e.key = w := by
  rcases hw with hw | ⟨_, j, d, ho', hj, hadd, rfl⟩
  · exact .inl (.inl hw)
  · obtain rfl := Option.some.inj ho'
    cases ho : x.overlay with
    | none =>
      rw [ho, Option.getD_none] at hj
      rcases (Heap.Pending.get?_insert Slab.sound_empty).mp hj with ⟨-, rfl⟩ | hj
      · exact .inr ⟨hadd, rfl⟩
      · exact absurd hj get?_ofBuckets_ne
    | some o =>
      rw [ho, Option.getD_some] at hj
      rcases (Heap.Pending.get?_insert (hs o ho)).mp hj with ⟨-, rfl⟩ | hj
      · exact .inr ⟨hadd, rfl⟩
      · exact .inl (.inr ⟨o, j, d, ho, hj, hadd, rfl⟩)

end

end

/-! ## Keys and steps -/

section

variable {a b : Account} {e : Effect} {id : ContainerId} {x x' : Content} {k : Identity} {w : Value}

/-- Whatever is done to a mapping but to write a key, it stores nothing under other keys by that. -/
theorem Becomes.hasKey (hbec : Becomes a id e x x') (hk : x'.kind = .mapping)
    (he : e.Leaves id ∨ e = .scrub id) (hw : x'.HasKey w) : x.HasKey w := by
  cases hbec with
  | scrub hnot => exact absurd hk hnot
  | absorb ho hm =>
    rcases hw with ⟨p, hp, rfl⟩ | ⟨o, i, d, ho', -⟩
    · rcases Mapping.keys_merged hm hp with hold | ⟨i, d, hi, hadd, hkey⟩
      · exact .inl hold
      · exact .inr ⟨_, i, d, ho, hi, hadd, hkey⟩
    · cases ho'
  | compact _ ho hlive =>
    rcases hw with ⟨p, hp, rfl⟩ | ⟨o, i, d, ho', -⟩
    · have hp : p ∈ Pair.ofBuffer (Pair.toBuffer (Pair.kept x.pairs _)) := hp
      rw [Pair.ofBuffer_toBuffer] at hp
      exact .inl ⟨p, (Pair.kept_sublist _ _).subset hp, rfl⟩
    · exact absurd (ho.symm.trans ho') nofun
  | backUp | settle | transfer => exact hw
  | overwrite | overwriteValue | overwritePending | park | unpark | deletePair | restore | retag =>
    rcases he with he | he
    · exact absurd rfl he
    · cases he

/-- A mapping that is edited gets a new key only if a value is written under a new identity. -/
theorem Becomes.hasKey_change {r : Option Value}
    (hbec : Becomes a id (.change id (.entry k r)) x x')
    (hwhole : x.Whole) (hw : x'.HasKey w) :
    x.HasKey w ∨ r ≠ none ∧ a.store.heap.identity w = k ∧ x.find a.store.heap k = none := by
  cases hbec with
  | overwriteValue hh hk ho hi hv hn hC =>
    exact .inl (hw.of_setValue (Array.getElem?_eq_some_iff.mp hi).1)
  | overwritePending hh ho hi hv hn hC => exact .inl (hw.of_setPending ho hi)
  | park hh hk hkey hv hn hhash hnew hadd hC =>
    refine (hw.of_insert fun o ho => (hwhole.overlay ho).2).imp_right ?_
    rintro ⟨hadded, rfl⟩
    refine ⟨nofun, rfl, ?_⟩
    rw [find_eq, hadd.mp hadded, Option.or_none]
    unfold pending
    cases ho : x.overlay with
    | none => rfl
    | some o => exact Heap.Pending.find_pairs_none.mpr (hnew o ho)
  | @unpark _ o d i hh ho hi =>
    rcases hw with hw | ⟨_, j, d', ho', hj, hadd, rfl⟩
    · exact .inl (.inl hw)
    · obtain rfl := Option.some.inj ho'
      exact .inl (.inr ⟨o, j, d', ho, (Heap.Pending.get?_erase.mp hj).2, hadd, rfl⟩)
  | @deletePair _ i hh hk hi hno =>
    rcases hw with ⟨p, hp, rfl⟩ | hw
    · have hp : p ∈ Pair.ofBuffer
          (x.buffer.extract 0 (2 * i) ++ x.buffer.extract (2 * i + 2) x.buffer.size) := hp
      rw [Pair.ofBuffer_cut hi] at hp
      exact .inl (.inl ⟨p, List.mem_of_mem_eraseIdx hp, rfl⟩)
    · exact .inl (.inr hw)

end

end Content

section

variable {E : Effect → Prop} {a b : Account} {e : Effect} {id : ContainerId} {x' : Content}
  {k : Identity} {w : Value}

/-- What leaves a mapping alone, or scrubs it, brings in no key. -/
theorem Step.hasKey (h : Step e a b) (ha : a.Kept) (he : e.Leaves id ∨ e = .scrub id)
    (hx' : b.store.content? id = some x') (hk : x'.kind = .mapping) (hw : x'.HasKey w) :
    ∃ x, a.store.content? id = some x ∧ x.kind = .mapping ∧ x.HasKey w := by
  cases h.content ha.accounted hx' with
  | kept hx => exact ⟨x', hx, hk, hw⟩
  | becomes hx hbec => exact ⟨_, hx, hbec.kind ▸ hk, hbec.hasKey hk he hw⟩
  | made hcreate =>
    rw [hcreate] at he
    rcases he with he | he
    · exact absurd rfl he
    · cases he

/-- A path that leaves a mapping alone, or scrubs it, brings in no key. -/
theorem Path.hasKey (h : Path E a b) (ha : a.Kept) (hE : ∀ e, E e → e.Leaves id ∨ e = .scrub id)
    (hx' : b.store.content? id = some x') (hk : x'.kind = .mapping) (hw : x'.HasKey w) :
    ∃ x, a.store.content? id = some x ∧ x.kind = .mapping ∧ x.HasKey w := by
  induction h generalizing x' with
  | refl => exact ⟨x', hx', hk, hw⟩
  | tail h he hs ih =>
    obtain ⟨y, hy, hky, hwy⟩ := hs.hasKey (h.kept ha) (hE _ he) hx' hk hw
    exact ih hy hky hwy

/-- What a mapping holds stands for the same thing along a calm chain of steps. -/
theorem Path.identity_held (h : Path E a b) (ha : a.Kept) (hE : ∀ e, E e → e.Calm)
    (hx' : b.store.content? id = some x') (hw : w ∈ x'.held) :
    b.store.heap.identity w = a.store.heap.identity w :=
  (h.stands ha hE (Account.covers_of_held hx' hw)).identity

/-- An assignment that was made brings in no key but its own, and that only if it was new. -/
theorem Makes.hasKey {r : Option Value} (h : Makes id (.entry k r) a b) (ha : a.Kept)
    (hx' : b.store.content? id = some x') (hk : x'.kind = .mapping) (hw : x'.HasKey w) :
    ∃ x, a.store.content? id = some x ∧ x.kind = .mapping ∧ (x.HasKey w ∨
      r ≠ none ∧ b.store.heap.identity w = k ∧ x.find a.store.heap k = none) := by
  obtain ⟨c, d, hbefore, hchange, hafter⟩ := h
  have hstep := Step.change hchange
  have hc := hbefore.kept ha
  obtain ⟨z, hz, hkz, hwz⟩ := hafter.hasKey (hstep.kept hc)
    (fun e he => .inl (Effect.Readies.leaves e he)) hx' hk hw
  have hid : b.store.heap.identity w = c.store.heap.identity w :=
    (Path.trans (.single (e := .change id (.entry k r)) trivial hstep)
      (hafter.mono Effect.Readies.calm)).identity_held hc (fun _ he => he) hx' hw.mem_held
  -- Before the one change, entries are only made ready, which adds no key.
  have hback : ∀ {y : Content}, c.store.content? id = some y → y.kind = .mapping → y.HasKey w →
      ∃ x, a.store.content? id = some x ∧ x.kind = .mapping ∧ x.HasKey w := fun hy hky hwy =>
    hbefore.hasKey ha (fun e he => .inl (Effect.Readies.leaves e he)) hy hky hwy
  cases hstep.content hc.accounted hz with
  | kept hy =>
    obtain ⟨x, hx, hkx, hwx⟩ := hback hy hkz hwz
    exact ⟨x, hx, hkx, .inl hwx⟩
  | @becomes y _ hy hbec =>
    have hky : y.kind = .mapping := hbec.kind ▸ hkz
    rcases hbec.hasKey_change (Content.whole hc.accounted hy) hwz with
      hwy | ⟨hr, hkey, hnone⟩
    · obtain ⟨x, hx, hkx, hwx⟩ := hback hy hky hwy
      exact ⟨x, hx, hkx, .inl hwx⟩
    · obtain ⟨x, hx, hkx, hfind⟩ := hbefore.find ha Effect.Readies.leaves hy hky
      exact ⟨x, hx, hkx, .inr ⟨hr, hid.trans hkey, (hfind k).symm.trans hnone⟩⟩
  | made hcreate => cases hcreate

/-- An assignment brings in a key only where nothing was found before. -/
theorem Mapping.Assigned.hasKey {v : Value} (h : Mapping.Assigned id k v a b) (ha : a.Kept)
    (hx' : b.store.content? id = some x') (hk : x'.kind = .mapping) (hw : x'.HasKey w) :
    ∃ x, a.store.content? id = some x ∧ x.kind = .mapping ∧ (x.HasKey w ∨
      v ≠ .nil ∧ x.find a.store.heap k = none) := by
  cases h with
  | written hv h =>
    obtain ⟨x, hx, hkx, hwx⟩ := h.hasKey ha hx' hk hw
    exact ⟨x, hx, hkx, hwx.imp_right fun ⟨_, _, hnone⟩ => ⟨hv, hnone⟩⟩
  | @deleted _ c _ h _ h' =>
    have hE : ∀ e : Effect, e.Calm → e.Calm := fun _ he => he
    have hpath : Path Effect.Calm a c := by
      rcases h with h | ⟨r, h⟩
      · exact h.mono Effect.Readies.calm
      · exact h.path trivial trivial trivial
    have hc := hpath.kept ha
    obtain ⟨y, hy, hky, hwy⟩ := h'.hasKey hc hx' hk hw
    have hwy := hwy.resolve_right fun ⟨hne, _⟩ => hne rfl
    rcases h with h | ⟨r, h⟩
    · obtain ⟨x, hx, hkx, hwx⟩ :=
        h.hasKey ha (fun e he => .inl (Effect.Readies.leaves e he)) hy hky hwy
      exact ⟨x, hx, hkx, .inl hwx⟩
    · obtain ⟨x, hx, hkx, hwx⟩ := h.hasKey ha hy hky hwy
      refine ⟨x, hx, hkx, .inl (hwx.resolve_right ?_)⟩
      rintro ⟨-, hkey, -⟩
      obtain ⟨_, -, -, hfind⟩ := h'.find hc hx' hk
      have hid := (h'.path (E := Effect.Calm) trivial trivial trivial).identity_held hc hE
        hx' hw.mem_held
      have hnone := hfind k
      rw [if_pos rfl, ← hkey, ← hid] at hnone
      exact hw.find_ne_none hnone
  | absent h =>
    obtain ⟨x, hx, hkx, hwx⟩ :=
      h.hasKey ha (fun e he => .inl (Effect.leaves_of_still e he)) hx' hk hw
    exact ⟨x, hx, hkx, .inl hwx⟩

end

/-! ## Which key is written -/

section

variable {s s' : Store} {F : Refs} {C : Charges} {id : ContainerId} {key value w : Value}
  {x' : Content}

/--
Of the keys that a mapping has once a value is written, only the one that was passed may be new.
-/
theorem Mapping.write_hasKey {u : Unit} (ha : Account.Kept ⟨s, F, C, none⟩) (hkey : F.Covers key)
    (hvalue : F.Covers value) (h : Mapping.write id key value s = .ok (u, s'))
    (hx' : s'.content? id = some x') (hw : x'.HasKey w) :
    ∃ x, s.content? id = some x ∧ (x.HasKey w ∨ w = key) := by
  obtain ⟨c, hash, w₀, s₁, hc, -, -, h₁, hstores⟩ := Mapping.write_eq_ok h
  have hpath₁ := walk_acquire (E := (· = .still)) (F := F) (C := C) (q := none) rfl
    (ha.fits_of_covers hvalue) h₁
  have ha₁ := (hpath₁.kept ha).accounted
  have hback : ∀ {y : Content}, s₁.content? id = some y → s.content? id = some y :=
    (wanes_acquire h₁).content?
  cases hstores with
  | pending hpending hc₁ ho hi h =>
    obtain rfl := content_of_replaced hc₁ h (ha₁.stored.withContainer hc₁ rfl rfl) hx'
    exact ⟨_, hback (content?_of_container hc₁), .inl (.of_setPending ho hi hw)⟩
  | @sorted c₁ values i old hpending hsorted hclean hc₁ he hi h =>
    have hstored := ha₁.stored.withValues hc₁
      (d := { c₁ with elements := .resident (values.setIfInBounds (2 * i + 1) value) }) rfl
      fun hk => by
        rw [Array.size_setIfInBounds]
        exact ha₁.even_of_resident hc₁ he hk
    obtain rfl := content_of_replaced hc₁ h hstored hx'
    rw [Container.content_values, ← Container.content_buffer he s₁.swap] at hw
    refine ⟨_, hback (content?_of_container hc₁), .inl (.of_setValue ?_ hw)⟩
    rw [Container.content_buffer he]
    exact (Array.getElem?_eq_some_iff.mp hi).1
  | @parked s₂ c₂ hpending hdirty h₂ hc₂ hs =>
    subst hs
    have ha₂ := ((hpath₁.trans (walk_acquire rfl
      ((hpath₁.kept ha).fits_of_covers hkey) h₂)).kept ha).accounted
    rcases content?_withContainer_cases hc₂ hx' with ⟨-, rfl⟩ | ⟨hne, -⟩
    swap
    · exact absurd rfl hne
    refine ⟨_, hback ((wanes_acquire h₂).content? (content?_of_container hc₂)), ?_⟩
    have hsound : ∀ o ∈ (c₂.content s₂.swap).overlay, o.entries.Sound := fun o ho =>
      (ha₂.overlays hc₂ ho).2
    exact (Content.HasKey.of_insert hsound hw).imp_right fun he => he.2.symm

/-- To report a size changes the content of no container. -/
theorem content?_of_report {u : Unit} (h : reportSizeChange id s = .ok (u, s'))
    (hx' : s'.content? id = some x') : s.content? id = some x' := by
  obtain ⟨c, hc, ⟨-, rfl⟩ | ⟨-, rfl⟩⟩ := reportSizeChange_eq_ok h
  · exact hx'
  · rcases content?_withContainer_cases hc hx' with ⟨-, rfl⟩ | ⟨hne, -⟩
    · have hx : s.content? id = some (c.content s.swap) := content?_of_container hc
      exact hx
    · exact absurd rfl hne

/-- So it is with an assignment that writes a value. -/
theorem assign_hasKey {r : Except Refusal Unit} (ha : Account.Kept ⟨s, F, C, none⟩)
    (hm : F.Covers (.container .mapping id)) (hkey : F.Covers key) (hvalue : F.Covers value)
    (hv : s.seen value ≠ .nil)
    (h : Mapping.assign id key value s = .ok (r, s')) (hx' : s'.content? id = some x')
    (hk : x'.kind = .mapping) (hw : x'.HasKey w) :
    ∃ x, s.content? id = some x ∧ (x.HasKey w ∨ w = key) := by
  have hreadies : ∀ e : Effect, e.Readies → e.Leaves id ∨ e = .scrub id := fun e he =>
    .inl (Effect.Readies.leaves e he)
  have hafter : ∀ {t : Store}, Path Effect.Readies ⟨s, F, C, none⟩ ⟨t, F, C, none⟩ →
      ∀ {y : Content}, t.content? id = some y → y.kind = .mapping → y.HasKey w ∨ w = key →
        ∃ x, s.content? id = some x ∧ (x.HasKey w ∨ w = key) := fun hpath y hy hky hwy => by
    rcases hwy with hwy | rfl
    · obtain ⟨x, hx, -, hwx⟩ := hpath.hasKey ha hreadies hy hky hwy
      exact ⟨x, hx, .inl hwx⟩
    · obtain ⟨x, hx, -, -⟩ := hpath.find ha Effect.Readies.leaves hy hky
      exact ⟨x, hx, .inr rfl⟩
  rcases Mapping.assign_eq_ok h with ⟨-, -, rfl⟩ | ⟨-, -, s₁, v, found, h₁, hscrubbed, -, hassigns⟩
  · exact ⟨x', hx', .inl hw⟩
  obtain ⟨hpath₁, -⟩ := walk_faultIn (E := (· = .still)) (F := F) (C := C) (q := none) rfl h₁
  have hseen : v = s.seen value := (scrubbed_eq hscrubbed).trans
    (hpath₁.seen ha Effect.calm_of_still hvalue.of_flight)
  cases hassigns with
  | idle | full => exact hafter hpath₁.readies hx' hk (.inl hw)
  | @changed s₂ s₃ _ _ _ hready hchange hreport =>
    have hpath := hpath₁.readies.trans
      (walk_makeWritable Effect.Readies.still .nest (hpath₁.kept ha) hready).1
    unfold Mapping.change at hchange
    rw [if_neg fun hnil => hv (hseen ▸ Value.isNil_iff.mp hnil)] at hchange
    obtain ⟨y, hy, hwy⟩ := Mapping.write_hasKey (hpath.kept ha) hkey (hvalue.scrubbed hscrubbed)
      hchange (content?_of_report hreport hx') hw
    obtain ⟨z, hz, hkz⟩ := (hpath.kept ha).mapping hm
    obtain rfl := Option.some.inj (hy.symm.trans hz)
    exact hafter hpath hy hkz hwy

/--
An assignment brings the key in that was passed, and only where nothing was found under its
identity.
-/
theorem mapAssign_hasKey {r : Except Refusal Unit} (ha : Account.Kept ⟨s, F, C, none⟩)
    (hm : F.Covers (.container .mapping id)) (hkey : F.Covers key) (hvalue : F.Covers value)
    (h : Mapping.assign id key value s = .ok (r, s')) (hx' : s'.content? id = some x')
    (hk : x'.kind = .mapping) (hw : x'.HasKey w) :
    ∃ x, s.content? id = some x ∧ x.kind = .mapping ∧
      (x.HasKey w ∨ w = key ∧ x.find s.heap (s.heap.identity key) = none) := by
  have hwalk := walk_mapAssign ha hm hkey hvalue h
  cases r with
  | error e =>
    have hpath : Path (· = .still) ⟨s, F, C, none⟩ ⟨s', F, C, none⟩ := hwalk
    obtain ⟨x, hx, hkx, hwx⟩ :=
      hpath.hasKey ha (fun e he => .inl (Effect.leaves_of_still e he)) hx' hk hw
    exact ⟨x, hx, hkx, .inl hwx⟩
  | ok u =>
    have hassigned : Mapping.Assigned id (s.heap.identity key) (s.seen value) ⟨s, F, C, none⟩
        ⟨s', F, C, none⟩ := hwalk
    obtain ⟨x, hx, hkx, hwx⟩ := hassigned.hasKey ha hx' hk hw
    refine ⟨x, hx, hkx, ?_⟩
    rcases hwx with hwx | ⟨hv, hnone⟩
    · exact .inl hwx
    · obtain ⟨y, hy, hwy⟩ := assign_hasKey ha hm hkey hvalue hv h hx' hk hw
      obtain rfl := Option.some.inj (hx.symm.trans hy)
      exact hwy.imp_right fun hkey => ⟨hkey, hnone⟩

end

end PlaneStore
