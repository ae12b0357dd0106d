import PlaneStore.Proofs.Contents.ValueStanding
import PlaneStore.Proofs.Mapping.MergedTables

/-!
# Mappings are tables with writes pending

The buffer of a mapping is a table, and its overlay goes with it. This is so of every mapping that
is there after a step if it was so of those before, and of what backups recorded of mappings: a step
makes a table of a table, and what is in it stands for what it stood for.
-/

namespace PlaneStore

open Store

namespace Content

variable {x x' : Content} {v : Value} {a b : Account} {e : Effect} {id : ContainerId}

/-! ## What a content holds -/

theorem mem_held : v ∈ x.held ↔ v ∈ x.buffer ∨
    ∃ o i d, x.overlay = some o ∧ o.entries.get? i = some d ∧ (v = d.key ∨ v = d.value) := by
  unfold held
  rw [List.mem_append, Array.mem_toList_iff]
  refine or_congr_right ?_
  cases ho : x.overlay with
  | none => simp
  | some o =>
    simp only [Option.map_some, Option.getD_some, List.mem_flatMap, List.mem_cons,
      List.not_mem_nil, or_false, Option.some.injEq]
    constructor
    · rintro ⟨d, hd, hv⟩
      obtain ⟨i, hi⟩ := Slab.mem_toList.mp hd
      exact ⟨o, i, d, rfl, hi, hv⟩
    · rintro ⟨_, i, d, rfl, hi, hv⟩
      exact ⟨d, Slab.mem_toList.mpr ⟨i, hi⟩, hv⟩

theorem mem_held_of_buffer (hv : v ∈ x.buffer) : v ∈ x.held := mem_held.mpr (Or.inl hv)

theorem mem_held_of_entry {o : Overlay} {i : Nat} {d : OverlayEntry} (ho : x.overlay = some o)
    (hi : o.entries.get? i = some d) : d.key ∈ x.held ∧ d.value ∈ x.held :=
  ⟨mem_held.mpr (Or.inr ⟨o, i, d, ho, hi, Or.inl rfl⟩),
    mem_held.mpr (Or.inr ⟨o, i, d, ho, hi, Or.inr rfl⟩)⟩

end Content

theorem Pair.mem_of_flatten {ps : List Pair} {v : Value} (h : v ∈ flatten ps) :
    ∃ p ∈ ps, v = p.1 ∨ v = p.2 := by
  obtain ⟨p, hp, hv⟩ := List.mem_flatMap.mp h
  refine ⟨p, hp, ?_⟩
  simpa using hv

theorem Pair.kept_sublist (ps : List Pair) (live : List Bool) : (kept ps live).Sublist ps := by
  induction ps generalizing live with
  | nil => exact List.Sublist.refl _
  | cons p ps ih =>
    cases live with
    | nil => exact List.nil_sublist _
    | cons b live =>
      rw [kept_cons]
      cases b with
      | true => exact (ih live).cons_cons p
      | false => exact (ih live).cons p

namespace Content

variable {x x' : Content} {v : Value} {a b : Account} {e : Effect} {id : ContainerId}

theorem mem_held_of_pair {p : Pair} (hp : p ∈ x.pairs) : p.1 ∈ x.held ∧ p.2 ∈ x.held := by
  obtain ⟨h₁, h₂⟩ := Pair.mem_of_ofFlat hp
  exact ⟨mem_held_of_buffer (Array.mem_toList_iff.mp h₁),
    mem_held_of_buffer (Array.mem_toList_iff.mp h₂)⟩

/-- The buffers of a content are sound. -/
structure Whole (x : Content) : Prop where
  even : x.kind = .mapping → x.buffer.size % 2 = 0
  overlay : ∀ {o : Overlay}, x.overlay = some o → x.kind = .mapping ∧ o.entries.Sound

theorem whole (ha : a.Accounted) (hx : a.store.content? id = some x) : x.Whole := by
  obtain ⟨c, hc, rfl⟩ := content?_eq_some.mp hx
  refine ⟨fun hk => ?_, fun ho => ha.overlays hc ho⟩
  show ((c.buffer a.store.swap).toArray).size % 2 = 0
  rw [List.size_toArray]
  exact ha.stored.even hc hk

/-- A merge makes up nothing. -/
theorem Whole.mem_held_of_merged {h : Heap} {o : Overlay} {values : Array Value}
    {released : List Value} (hw : x.Whole) (ho : x.overlay = some o)
    (hm : Mapping.merged h id o x.buffer = .ok (values, released)) (hv : v ∈ values) :
    v ∈ x.held := by
  obtain ⟨hheld, -⟩ := Mapping.held_merged hm (hw.even (hw.overlay ho).1)
  have hcoe : (↑x.held : Refs) = ↑x.buffer.toList + o.held := by
    unfold held
    rw [ho, Option.map_some, Option.getD_some, ← Multiset.coe_add, Overlay.coe_values]
  rw [← Multiset.mem_coe, hcoe, ← hheld]
  exact Multiset.mem_add.mpr (Or.inl (Multiset.mem_coe.mpr (Array.mem_toList_iff.mpr hv)))

theorem exists_of_forall₂ {α β : Type} {R : α → β → Prop} {vs : List α} {ws : List β} {w : β}
    (h : List.Forall₂ R vs ws) (hw : w ∈ ws) : ∃ v ∈ vs, R v w := by
  induction h with
  | nil => cases hw
  | @cons v' w' vs ws hr _ ih =>
    rcases List.mem_cons.mp hw with rfl | hw
    · exact ⟨v', List.mem_cons_self, hr⟩
    · obtain ⟨v, hv, hvw⟩ := ih hw
      exact ⟨v, List.mem_cons_of_mem _ hv, hvw⟩

theorem get?_ofBuckets_ne {n i : Nat} {d : OverlayEntry} :
    (Overlay.ofBuckets n).entries.get? i ≠ some d := by
  intro hi
  have hi : ({} : Slab OverlayEntry).get? i = some d := hi
  rw [Slab.get?_of_size_le (Nat.zero_le _)] at hi
  cases hi

/-- The pairs that stay when a mapping is compacted are those of which nothing is lost. -/
theorem kept_eq_filter {s : Store} {ps : List Pair} {live : List Bool}
    (h : List.Forall₂
      (fun p b => if b then s.Alive p.1 ∧ s.Alive p.2 else s.Dead p.1 ∨ s.Dead p.2) ps live) :
    Pair.kept ps live = ps.filter fun p => !s.lost p.1 && !s.lost p.2 := by
  induction h with
  | nil => rfl
  | @cons p b ps live hp _ ih =>
    rw [Pair.kept_cons, ih]
    cases b with
    | true =>
      rw [List.filter_cons_of_pos]
      · rfl
      · rw [hp.1.lost_eq, hp.2.lost_eq]
        rfl
    | false =>
      rw [List.filter_cons_of_neg]
      · rfl
      · rcases hp with hp | hp <;> simp [hp.lost_eq]

/-- The pairs that stay when a mapping is compacted are alive. -/
theorem alive_of_kept {s : Store} {ps : List Pair} {live : List Bool} {p : Pair}
    (h : List.Forall₂
      (fun p b => if b then s.Alive p.1 ∧ s.Alive p.2 else s.Dead p.1 ∨ s.Dead p.2) ps live)
    (hp : p ∈ Pair.kept ps live) : s.Alive p.1 ∧ s.Alive p.2 := by
  induction h with
  | nil => cases hp
  | @cons q b ps live hq _ ih =>
    rw [Pair.kept_cons] at hp
    cases b with
    | true =>
      rcases List.mem_cons.mp hp with rfl | hp
      · exact hq
      · exact ih hp
    | false => exact ih hp

theorem mem_buffer_of_held (hv : v ∈ x.held) (ho : x.overlay = none) : v ∈ x.buffer := by
  rcases mem_held.mp hv with hv | ⟨o, i, d, ho', -⟩
  · exact hv
  · rw [ho] at ho'
    cases ho'

/-- A value is written over another one of the buffer. -/
theorem mem_held_of_set {i : Nat} {w : Value} (hv : v ∈ x'.held) (ho : x'.overlay = x.overlay)
    (hb : x'.buffer = x.buffer.setIfInBounds i w) : v ∈ x.held ∨ v = w := by
  rcases mem_held.mp hv with hmem | ⟨o, j, d, ho', hrest⟩
  · rw [hb] at hmem
    exact (Array.mem_or_eq_of_mem_setIfInBounds hmem).imp_left mem_held_of_buffer
  · exact Or.inl (mem_held.mpr (Or.inr ⟨o, j, d, ho ▸ ho', hrest⟩))

/-- A value is written over the one of a pending write. -/
theorem mem_held_of_overwritten {o : Overlay} {d : OverlayEntry} {i : Nat} {w : Value}
    (hv : v ∈ x'.held) (ho : x.overlay = some o) (hi : o.entries.get? i = some d)
    (hb : x'.buffer = x.buffer)
    (ho' : x'.overlay = some { o with entries := o.entries.set i { d with value := w } }) :
    v ∈ x.held ∨ v = w := by
  rcases mem_held.mp hv with hmem | ⟨o', j, d', hoj, hj, hd⟩
  · exact Or.inl (mem_held_of_buffer (hb ▸ hmem))
  · obtain rfl := Option.some.inj (ho'.symm.trans hoj)
    obtain ⟨d', hd', hkey, -, -, hvalue⟩ := Heap.Pending.get?_set hi hj
    obtain ⟨h₁, h₂⟩ := mem_held_of_entry ho hd'
    rcases hd with rfl | rfl
    · exact Or.inl (hkey ▸ h₁)
    · rw [hvalue]
      split
      · exact Or.inr rfl
      · exact Or.inl h₂

/-- A key and a value are parked. -/
theorem Whole.mem_held_of_parked {n : Nat} {d : OverlayEntry} (hw : x.Whole) (hv : v ∈ x'.held)
    (hb : x'.buffer = x.buffer)
    (ho' : x'.overlay = some ((x.overlay.getD (.ofBuckets n)).insert d)) :
    v ∈ x.held ∨ v = d.key ∨ v = d.value := by
  have hsound : (x.overlay.getD (.ofBuckets n)).entries.Sound := by
    cases ho : x.overlay with
    | none => exact Slab.sound_empty
    | some o => exact (hw.overlay ho).2
  rcases mem_held.mp hv with hmem | ⟨o, j, d', hoj, hj, hd⟩
  · exact Or.inl (mem_held_of_buffer (hb ▸ hmem))
  · obtain rfl := Option.some.inj (ho'.symm.trans hoj)
    rcases (Heap.Pending.get?_insert hsound).mp hj with ⟨-, rfl⟩ | hj
    · exact Or.inr hd
    · cases ho : x.overlay with
      | none =>
        rw [ho] at hj
        exact absurd hj get?_ofBuckets_ne
      | some o =>
        rw [ho] at hj
        exact Or.inl (mem_held.mpr (Or.inr ⟨o, j, d', ho, hj, hd⟩))

/--
What a content holds after a step it held before, or a reader has just seen it, or a backup had it.
-/
theorem Becomes.held (h : Becomes a id e x x') (hw : x.Whole) (hv : v ∈ x'.held) :
    (v ∈ x.held ∧ x'.scrubEpoch = x.scrubEpoch) ∨
      (a.store.Alive v ∧ (v = .nil ∨ v ∈ x.held ∨ v ∈ a.charged.refs)) ∨
        ∃ y ∈ a.backups, y.container = id ∧ v ∈ y.elements ∧ x'.scrubEpoch = y.scrubEpoch := by
  cases h with
  | scrub hk hseen =>
    refine Or.inr (Or.inl ?_)
    rcases mem_held.mp hv with hmem | ⟨o, i, d, ho, -⟩
    · obtain ⟨w, hw, hwv⟩ := exists_of_forall₂ hseen (by simpa using hmem)
      refine ⟨alive_of_scrubbed hwv, ?_⟩
      rcases scrubbed_cases hwv with rfl | rfl
      · exact Or.inr (Or.inl (mem_held_of_buffer (Array.mem_toList_iff.mp hw)))
      · exact Or.inl rfl
    · exact absurd (hw.overlay ho).1 hk
  | @absorb _ overlay values' released ho h =>
    exact Or.inl ⟨hw.mem_held_of_merged ho h (mem_buffer_of_held hv rfl), rfl⟩
  | @compact _ live hk ho hlive =>
    refine Or.inr (Or.inl ?_)
    have hmem := mem_buffer_of_held hv ho
    obtain ⟨p, hp, hpv⟩ := Pair.mem_of_flatten (Array.mem_toList_iff.mpr hmem)
    obtain ⟨h₁, h₂⟩ := mem_held_of_pair ((Pair.kept_sublist _ _).subset hp)
    obtain ⟨halive₁, halive₂⟩ := alive_of_kept hlive hp
    rcases hpv with rfl | rfl
    · exact ⟨halive₁, Or.inr (Or.inl h₁)⟩
    · exact ⟨halive₂, Or.inr (Or.inl h₂)⟩
  | overwrite hh hk hi hv' hC =>
    rcases mem_held_of_set (x := x) hv rfl rfl with hmem | rfl
    · exact Or.inl ⟨hmem, rfl⟩
    · exact Or.inr (Or.inl ⟨hv', Or.inr (Or.inr hC)⟩)
  | overwriteValue hh hk ho hi hv' hn hC =>
    rcases mem_held_of_set (x := x) hv rfl rfl with hmem | rfl
    · exact Or.inl ⟨hmem, rfl⟩
    · exact Or.inr (Or.inl ⟨hv', Or.inr (Or.inr hC)⟩)
  | overwritePending hh ho hi hv' hn hC =>
    rcases mem_held_of_overwritten hv ho hi rfl rfl with hmem | rfl
    · exact Or.inl ⟨hmem, rfl⟩
    · exact Or.inr (Or.inl ⟨hv', Or.inr (Or.inr hC)⟩)
  | park hh hk hkey hv' hn hhash hnew hadd hC =>
    rcases hw.mem_held_of_parked hv rfl rfl with hmem | rfl | rfl
    · exact Or.inl ⟨hmem, rfl⟩
    · exact Or.inr (Or.inl ⟨hkey, Or.inr (Or.inr hC.1)⟩)
    · exact Or.inr (Or.inl ⟨hv', Or.inr (Or.inr hC.2)⟩)
  | @unpark _ overlay e i hh ho hi =>
    refine Or.inl ⟨?_, rfl⟩
    rcases mem_held.mp hv with hmem | ⟨o, j, d, ho', hj, hd⟩
    · exact mem_held_of_buffer hmem
    · cases ho'
      exact mem_held.mpr (Or.inr ⟨overlay, j, d, ho, (Heap.Pending.get?_erase.mp hj).2, hd⟩)
  | @deletePair _ i hh hk hi hno =>
    refine Or.inl ⟨?_, rfl⟩
    rcases mem_held.mp hv with hmem | ⟨o, j, d, ho', hj, hd⟩
    · refine mem_held_of_buffer ?_
      have mem_of_extract : ∀ i j, v ∈ x.buffer.extract i j → v ∈ x.buffer := fun i j h => by
        obtain ⟨k, hk, hv⟩ := Array.mem_extract_iff_getElem.mp h
        exact hv ▸ Array.getElem_mem _
      rcases Array.mem_append.mp hmem with hmem | hmem
      · exact mem_of_extract _ _ hmem
      · exact mem_of_extract _ _ hmem
    · exact mem_held.mpr (Or.inr ⟨o, j, d, ho', hj, hd⟩)
  | backUp | settle | transfer | retag => exact Or.inl ⟨hv, rfl⟩
  | @restore _ cl y ledger hq hl hf hy =>
    exact Or.inr (Or.inr
      ⟨y, Account.mem_backups_of_closing hq hl, hy, mem_buffer_of_held hv rfl, rfl⟩)

/-- Whatever a content holds after a step was not in flight before. -/
theorem Becomes.placed (h : Becomes a id e x x') (hw : x.Whole) (hx : ∀ v ∈ x.held, v ∈ a.placed)
    (hv : v ∈ x'.held) : v = .nil ∨ v ∈ a.placed := by
  rcases h.held hw hv with ⟨hmem, -⟩ | ⟨-, hmem⟩ | ⟨y, hy, -, hmem, -⟩
  · exact Or.inr (hx v hmem)
  · rcases hmem with hnil | hmem | hmem
    · exact Or.inl hnil
    · exact Or.inr (hx v hmem)
    · exact Or.inr (Account.mem_placed_of_charged hmem)
  · exact Or.inr (Account.mem_placed_of_backup hy (Backup.mem_held hmem))

/-- What a container holds after a step stands for what it stood for before. -/
theorem stands (h : Step e a b) (ha : a.Accounted) (hb : b.Accounted)
    (hx' : b.store.content? id = some x') (hv : v ∈ x'.held) : Stands a.store b.store v := by
  have hv' : v ∈ b.refs := b.mem_refs_of_store (mem_refs hx' hv)
  have hplaced : v = .nil ∨ v ∈ a.placed := by
    cases h.content ha hx' with
    | kept hx => exact Or.inr (Account.mem_placed_of_content hx hv)
    | becomes hx hbec =>
      exact hbec.placed (whole ha hx) (fun w hw => Account.mem_placed_of_content hx hw) hv
    | @made owner kind values C F he hid halive hC hm =>
      rcases mem_held.mp hv with hmem | ⟨o, i, d, ho, -⟩
      · refine Or.inr (Account.mem_placed_of_charged ?_)
        rw [hC, Charges.refs_add, Charges.refs_of]
        exact Multiset.mem_add.mpr (Or.inl (Multiset.mem_coe.mpr (List.mem_toArray.mp hmem)))
      · cases ho
  rcases hplaced with rfl | hplaced
  · exact .of_slots (fun _ _ h => by cases h) (fun _ h => by cases h)
  · exact h.stands ha hb hplaced hv'

/-- What a backup holds after a step stands for what it stood for before. -/
theorem stands_backup (h : Step e a b) (ha : a.Accounted) (hb : b.Accounted) {y : Backup}
    (hy : y ∈ b.backups) (hv : v ∈ y.elements) : Stands a.store b.store v := by
  refine h.stands ha hb ?_
    (Account.mem_refs_of_placed (Account.mem_placed_of_backup hy (Backup.mem_held hv)))
  rcases h.backups ha hy with hold | ⟨x, hx, hrec, -, -⟩
  · exact Account.mem_placed_of_backup hold (Backup.mem_held hv)
  · exact Account.mem_placed_of_content hx (mem_held_of_buffer (hrec.elements ▸ hv))

/-! ## Tables -/

/-- The buffer of a mapping is a table, and its overlay goes with it. -/
structure Tabled (h : Heap) (x : Content) : Prop where
  table : h.Table x.pairs
  pending : ∀ {o : Overlay}, x.overlay = some o → h.Pending x.pairs o

theorem Tabled.of_stands {s s' : Store} (ht : x.Tabled s.heap)
    (h : ∀ v ∈ x.held, Stands s s' v) : x.Tabled s'.heap where
  table := table_of_stands ht.table fun _ hp => h _ (mem_held_of_pair hp).1
  pending ho := pending_of_stands (ht.pending ho) (fun _ hp => h _ (mem_held_of_pair hp).1)
    fun _ _ hi => h _ (mem_held_of_entry ho hi).1

/-- The overlay that a pair is parked in, which is made if there is none, goes with the table. -/
theorem Tabled.pending_getD {h : Heap} (ht : x.Tabled h) (hw : x.Whole) (buckets : Nat) :
    h.Pending x.pairs (x.overlay.getD (.ofBuckets buckets)) ∧
      (x.overlay.getD (.ofBuckets buckets)).entries.Sound := by
  cases ho : x.overlay with
  | none => exact ⟨.ofBuckets buckets, Slab.sound_empty⟩
  | some o => exact ⟨ht.pending ho, (hw.overlay ho).2⟩

/-- A step makes a table of a table. -/
theorem Becomes.tabled (h : Becomes a id e x x') (hw : x.Whole) (hx : x.Tabled a.store.heap)
    (hb : ∀ {cl : Closing} {y : Backup} {ledger : List Backup}, a.closing = some cl →
      cl.ledger = y :: ledger → y.container = id →
        a.store.heap.Table (Pair.ofBuffer y.elements))
    (hk' : x'.kind = .mapping) : x'.Tabled a.store.heap := by
  cases h with
  | scrub hk | overwrite _ hk => exact absurd hk' hk
  | absorb ho h =>
    exact ⟨(Mapping.table_merged hx.table (hx.pending ho) h).1, fun ho' => by cases ho'⟩
  | compact hk ho hlive =>
    refine ⟨?_, fun ho' => absurd (ho.symm.trans ho') (by simp)⟩
    unfold pairs
    rw [Pair.ofBuffer_toBuffer]
    exact hx.table.sublist (Pair.kept_sublist _ _)
  | @overwriteValue _ i v old hh hk ho hi hv hn hC =>
    have hlt := (Array.getElem?_eq_some_iff.mp hi).1
    refine ⟨?_, fun ho' => absurd (ho.symm.trans ho') (by simp)⟩
    unfold pairs
    rw [Pair.ofBuffer_set hlt]
    exact hx.table.set (Pair.getElem?_ofBuffer hlt) hn
  | overwritePending hh ho hi hv hn hC =>
    exact ⟨hx.table, fun ho' => Option.some.inj ho' ▸ (hx.pending ho).set hi hn⟩
  | @park _ buckets d hh hk hkey hv hn hhash hnew hadd hC =>
    obtain ⟨hp, hsound⟩ := hx.pending_getD hw buckets
    refine ⟨hx.table, fun ho' => Option.some.inj ho' ▸ hp.insert hsound hhash ?_ hadd hn⟩
    intro j d' hj
    cases ho : x.overlay with
    | none =>
      rw [ho] at hj
      exact absurd hj get?_ofBuckets_ne
    | some o =>
      rw [ho] at hj
      exact hnew o ho j d' hj
  | unpark hh ho hi =>
    exact ⟨hx.table, fun ho' => Option.some.inj ho' ▸ (hx.pending ho).without hi⟩
  | @deletePair _ i hh hk hi hno =>
    have hpairs : pairs { x with
        buffer := x.buffer.extract 0 (2 * i) ++ x.buffer.extract (2 * i + 2) x.buffer.size } =
        x.pairs.eraseIdx i := Pair.ofBuffer_cut hi
    refine ⟨?_, fun ho => ?_⟩
    · rw [hpairs]
      exact hx.table.sublist (List.eraseIdx_sublist _ _)
    · rw [hpairs]
      -- The deleted pair had no entry in the overlay, so what the overlay replaces is still there.
      refine (hx.pending ho).of_find fun j d hj => ?_
      rw [Heap.find_eraseIdx hx.table.distinct (Pair.getElem?_ofBuffer hi),
        if_neg fun he => hno _ ho j d hj he.symm]
  | backUp | settle | transfer | retag => exact ⟨hx.table, hx.pending⟩
  | restore hq hl hf hb' => exact ⟨hb hq hl hb', fun ho => by cases ho⟩

end Content

/-- All mappings are tables, and so is what was recorded of them. -/
structure Account.Tabled (a : Account) : Prop where
  content : ∀ {id : ContainerId} {x : Content}, a.store.content? id = some x →
    x.kind = .mapping → x.Tabled a.store.heap
  backup : ∀ {y : Backup}, y ∈ a.backups → y.kind = .mapping →
    a.store.heap.Table (Pair.ofBuffer y.elements)

/-- A backup is of the kind of the container that it was taken of. -/
theorem Account.Accounted.backup_kind {a : Account} (ha : a.Accounted) {y : Backup} {x : Content}
    (hy : y ∈ a.backups) (hx : a.store.content? y.container = some x) :
    y.kind = .mapping ↔ x.kind = .mapping := by
  obtain ⟨c, hc, rfl⟩ := content?_eq_some.mp hx
  have hself : Value.ofContainer y.kind y.container ∈ y.held :=
    Multiset.mem_coe.mpr List.mem_cons_self
  have hrefs := Account.mem_refs_of_placed (mem_placed_of_backup hy hself)
  have hshape := ha.balanced.fits _ hrefs _ _ c rfl hc
  show y.kind = .mapping ↔ c.kind = .mapping
  rw [← Kind.shape_eq_mapping, ← Kind.shape_eq_mapping, hshape]

theorem Step.tabled {a b : Account} {e : Effect} (h : Step e a b) (hacc : a.Accounted)
    (hb : b.Accounted) (ha : a.Tabled) : b.Tabled where
  content {id x'} hx' hk' := by
    have hstands : ∀ v ∈ x'.held, Stands a.store b.store v :=
      fun v hv => Content.stands h hacc hb hx' hv
    refine Content.Tabled.of_stands ?_ hstands
    cases h.content hacc hx' with
    | kept hx => exact ha.content hx hk'
    | @becomes x _ hx hbec =>
      have hk : x.kind = .mapping := by
        cases hbec <;> exact hk'
      refine hbec.tabled (Content.whole hacc hx) (ha.content hx hk) ?_ hk'
      intro cl y ledger hq hl hy
      have hmem := Account.mem_backups_of_closing hq hl
      exact ha.backup hmem ((hacc.backup_kind hmem (hy ▸ hx)).mpr hk)
    | made he hid hv hC hm =>
      refine ⟨?_, fun ho => by cases ho⟩
      unfold Content.pairs Pair.ofBuffer
      rw [show (Content.new a.store _ _ _).buffer.toList = _ from rfl]
      exact (hm hk').2
  backup {y} hy hk := by
    refine table_of_stands ?_ fun p hp =>
      Content.stands_backup h hacc hb hy (Pair.mem_of_ofBuffer hp).1
    -- A backup is old, or it is a copy of what the container has now.
    rcases h.backups hacc hy with hold | ⟨x, hx, hrec, -, -⟩
    · exact ha.backup hold hk
    · rw [hrec.elements]
      exact (ha.content hx (hrec.kind ▸ hk)).table

end PlaneStore
