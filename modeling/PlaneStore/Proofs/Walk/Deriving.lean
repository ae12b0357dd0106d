import PlaneStore.Proofs.Walk.Reading

/-!
# Walks: containers made of others

Every operand is brought up to date before anything is copied. What was read of a mapping that is
merged and compacted stays what the mapping holds while the other operand is looked after.
-/

namespace PlaneStore

open Store

/-- A mapping without pending writes in which nothing is destroyed. -/
structure Content.Clean (x : Content) (epoch : Nat) (buffer : Array Value) : Prop where
  kind : x.kind = .mapping
  buffer : x.buffer = buffer
  overlay : x.overlay = none
  epoch : x.scrubEpoch = epoch

/-- What is known of the pairs of a clean mapping. -/
theorem Account.Kept.solid {a : Account} {id : ContainerId} {x : Content} {buffer : Array Value}
    (ha : a.Kept) (hx : a.store.content? id = some x)
    (hclean : x.Clean a.store.objects.epoch buffer) :
    (∀ v ∈ buffer, a.store.heap.Fits v ∧ a.store.lost v = false) ∧ buffer.size % 2 = 0 ∧
      a.store.heap.Table (Pair.ofBuffer buffer) := by
  have hbuffer := hclean.buffer
  subst hbuffer
  refine ⟨fun v hv => ?_, (Content.whole ha.accounted hx).even hclean.kind,
    (ha.tabled.content hx hclean.kind).table⟩
  have hmem := Content.mem_held_of_buffer hv
  exact ⟨ha.fits (Account.mem_refs_of_store (Content.mem_refs hx hmem)),
    (ha.fresh.content hx).alive hclean.epoch v hmem⟩

/--
A container without pending writes keeps its elements while containers are looked after, if it was
scrubbed since an object went last or is not scrubbed meanwhile.
-/
theorem Content.Becomes.steady {a : Account} {id : ContainerId} {e : Effect} {x x' : Content}
    (h : Becomes a id e x x') (ha : a.Kept) (hx : a.store.content? id = some x)
    (ho : x.overlay = none) (hs : e = .scrub id → x.scrubEpoch = a.store.objects.epoch)
    (he : e.Tends) : x'.kind = x.kind ∧ x'.buffer = x.buffer ∧ x'.overlay = none ∧
      x'.scrubEpoch = x.scrubEpoch := by
  -- With the scrub up to date, nothing held is lost, so no upkeep has anything to take away.
  have halive : x.scrubEpoch = a.store.objects.epoch → ∀ v ∈ x.held, a.store.lost v = false :=
    (ha.fresh.content hx).alive
  cases h with
  | absorb hover =>
    rw [ho] at hover
    cases hover
  | backUp | settle | transfer => exact ⟨rfl, rfl, ho, rfl⟩
  | @scrub _ seen hk hseen =>
    refine ⟨rfl, ?_, ho, (hs rfl).symm⟩
    show seen.toArray = x.buffer
    rw [map_seen_of_forall₂ hseen, map_seen_of_alive fun v hv => ?_]
    exact halive (hs rfl) v (mem_held_of_buffer (Array.mem_toList_iff.mp hv))
  | @compact _ live hk _ hlive =>
    refine ⟨rfl, ?_, ho, (hs rfl).symm⟩
    show Pair.toBuffer (Pair.kept x.pairs live) = x.buffer
    rw [Content.kept_eq_filter hlive, List.filter_eq_self.mpr fun p hp => ?_]
    · exact Pair.toBuffer_ofBuffer ((whole ha.accounted hx).even hk)
    · obtain ⟨hkey, hvalue⟩ := mem_held_of_pair hp
      rw [halive (hs rfl) _ hkey, halive (hs rfl) _ hvalue]
      rfl
  | _ => cases he

/-- A container that is up to date stays as it is. -/
theorem Path.steady {E : Effect → Prop} {a b : Account} {id : ContainerId} {x x' : Content}
    (h : Path E a b) (ha : a.Kept) (hE : ∀ e, E e → e.Tends) (hx : a.store.content? id = some x)
    (ho : x.overlay = none) (hs : E (.scrub id) → x.scrubEpoch = a.store.objects.epoch)
    (hx' : b.store.content? id = some x') : x'.kind = x.kind ∧ x'.buffer = x.buffer ∧
      x'.overlay = none ∧ x'.scrubEpoch = x.scrubEpoch := by
  induction h generalizing x' with
  | refl =>
    obtain rfl := Option.some.inj (hx.symm.trans hx')
    exact ⟨rfl, rfl, ho, rfl⟩
  | @tail _ e c h he hst ih =>
    have hc := h.kept ha
    have hobjects := (h.marks ha fun e he => Effect.Tends.calm e (hE e he)).objects
    cases hst.content hc.accounted hx' with
    | kept hx => exact ih hx
    | @becomes y _ hy hbec =>
      obtain ⟨hkind, hbuffer, hoverlay, hepoch⟩ := ih hy
      obtain ⟨hkind', hbuffer', hoverlay', hepoch'⟩ := hbec.steady hc hy hoverlay
        (fun hscrub => by rw [hepoch, hobjects]; exact hs (hscrub ▸ he)) (hE _ he)
      exact ⟨hkind'.trans hkind, hbuffer'.trans hbuffer, hoverlay', hepoch'.trans hepoch⟩
    | made hcreate =>
      subst hcreate
      exact absurd (hE _ he) nofun

/-- What is clean stays clean, with the same pairs. -/
theorem Path.clean {a b : Account} {id : ContainerId} {x x' : Content} {buffer : Array Value}
    (h : Path Effect.Tends a b) (ha : a.Kept) (hx : a.store.content? id = some x)
    (hclean : x.Clean a.store.objects.epoch buffer) (hx' : b.store.content? id = some x') :
    x'.Clean b.store.objects.epoch buffer := by
  obtain ⟨hkind, hbuffer, hoverlay, hepoch⟩ :=
    h.steady ha (fun _ he => he) hx hclean.overlay (fun _ => hclean.epoch) hx'
  rw [(h.marks ha Effect.Tends.calm).objects]
  exact ⟨hkind.trans hclean.kind, hbuffer.trans hclean.buffer, hoverlay, hepoch.trans hclean.epoch⟩

/--
An operand that was compacted is still there once another was looked after, and holds the same.
-/
theorem Path.exists_clean {a b : Account} {id : ContainerId} {x : Content} {buffer : Array Value}
    (h : Path Effect.Tends a b) (ha : a.Kept) (hm : b.flight.Covers (.container .mapping id))
    (hx : a.store.content? id = some x) (hclean : x.Clean a.store.objects.epoch buffer) :
    ∃ y, b.store.content? id = some y ∧ y.Clean b.store.objects.epoch buffer := by
  obtain ⟨c, hc, -⟩ := (h.kept ha).accounted.balanced.exists_container
    (Account.mem_refs_of_flight (hm rfl))
  exact ⟨_, content?_of_container hc, h.clean ha hx hclean (content?_of_container hc)⟩

section

variable {E : Effect → Prop} {s s' : Store} {F : Refs} {C : Charges} {q : Option Closing}

/-! ## Operands -/

/-- A mapping operand is merged and compacted, and clean then. -/
theorem walk_mapOperand {v : Value} {r : Except Refusal (ContainerId × Array Value)}
    (still : E .still) (scrub : ∀ id, v = .container .mapping id → E (.scrub id))
    (ha : Account.Kept ⟨s, F, C, q⟩) (hv : F.Covers v)
    (h : Mapping.operand v s = .ok (r, s')) :
    Path E ⟨s, F, C, q⟩ ⟨s', F, C, q⟩ ∧ ∀ id buffer, r = .ok (id, buffer) →
      v = .container .mapping id ∧
        ∃ x, s'.content? id = some x ∧ x.Clean s'.objects.epoch buffer := by
  rcases Mapping.require_bind_eq_ok h with ⟨-, rfl, rfl⟩ | ⟨id, rfl, h⟩
  · exact ⟨.refl _, nofun⟩
  obtain ⟨_, s₁, h₁, h⟩ := ClientM.lift_bind_eq_ok.mp h
  obtain ⟨buffer, s₂, h₂, h⟩ := ClientM.lift_bind_eq_ok.mp h
  obtain ⟨⟨c, hc, he⟩, rfl⟩ := StoreM.residentValues_eq_ok.mp h₂
  obtain ⟨rfl, rfl⟩ := ClientM.pure_eq_ok.mp h
  obtain ⟨hpath, hpost⟩ := walk_mergeOverlay (F := F) (C := C) (q := q) still
    (fun _ => scrub id rfl) ha (fun _ c hc => (ha.fits_of_covers hv).mapping hc) h₁
  refine ⟨hpath, fun id' buffer' hr => ?_⟩
  obtain ⟨rfl, rfl⟩ := Prod.mk.inj (Except.ok.inj hr)
  obtain ⟨c₀, values, hc₀, he', ho, hlabel, hepoch⟩ := hpost c hc
  exact ⟨rfl, _, content?_of_container hc, ((hpath.kept ha).fits_of_covers hv).mapping hc,
    Container.content_buffer he _, ho, hepoch rfl⟩

/-- An array operand is rid of what is destroyed, and read. -/
theorem walk_seqOperand {v : Value} {r : Except Refusal (ContainerId × Array Value)}
    (still : E .still) (scrub : ∀ id, v = .container .array id → E (.scrub id))
    (ha : Account.Kept ⟨s, F, C, q⟩) (hv : F.Covers v)
    (h : Sequence.operand v s = .ok (r, s')) :
    Path E ⟨s, F, C, q⟩ ⟨s', F, C, q⟩ ∧ ∀ id values, r = .ok (id, values) →
      v = .container .array id ∧ ∀ v ∈ values, s'.heap.Fits v := by
  unfold Sequence.operand at h
  split at h
  · next id =>
    obtain ⟨_, s₁, h₁, h⟩ := ClientM.lift_bind_eq_ok.mp h
    obtain ⟨values, s₂, h₂, h⟩ := ClientM.lift_bind_eq_ok.mp h
    obtain ⟨⟨c, hc, he⟩, rfl⟩ := StoreM.residentValues_eq_ok.mp h₂
    obtain ⟨rfl, rfl⟩ := ClientM.pure_eq_ok.mp h
    have hpath := walk_scrubElements (F := F) (C := C) (q := q) still (scrub id rfl)
      (fun c hc => (ha.fits_of_covers hv).not_mapping hc (by decide)) h₁
    refine ⟨hpath, fun id' values' hr => ?_⟩
    obtain ⟨rfl, rfl⟩ := Prod.mk.inj (Except.ok.inj hr)
    exact ⟨rfl, (hpath.kept ha).fits_of_values hc he⟩
  · obtain ⟨rfl, rfl⟩ := ClientM.refuse_eq_ok.mp h
    exact ⟨.refl _, fun id values hr => by cases hr⟩

/-! ## Sequences -/

theorem mem_of_everySecond {v : Value} : ∀ {values : List Value},
    v ∈ Mapping.everySecond values → v ∈ values
  | [], h => h
  | [_], h => h
  | w :: w' :: rest, h => by
    rcases List.mem_cons.mp h with rfl | h
    · exact List.mem_cons_self
    · exact List.mem_cons_of_mem _ (List.mem_cons_of_mem _ (mem_of_everySecond h))

theorem mem_of_selectPairs {buffer : Array Value} {test : Heap → Value → Except Fault Bool}
    {values : List Value} (h : Mapping.selectPairs buffer test s = .ok (values, s')) :
    s = s' ∧ ∀ v ∈ values, v ∈ buffer := by
  obtain ⟨hf, rfl⟩ := StoreM.readHeap_eq_ok.mp h
  obtain ⟨selected, hselected, hf⟩ := Fallible.bind_eq_ok.mp hf
  obtain rfl := Fallible.pure_eq_ok.mp hf
  refine ⟨rfl, fun v hv => ?_⟩
  obtain ⟨p, hp, hpv⟩ := Pair.mem_of_flatten hv
  obtain ⟨hp₁, hp₂⟩ := Pair.mem_of_ofBuffer ((Heap.filterM_eq_ok hselected).1.subset hp)
  rcases hpv with rfl | rfl
  · exact hp₁
  · exact hp₂

/-- Pairs that are selected of a table are a table. -/
theorem table_of_selectPairs {buffer : Array Value} {test : Heap → Value → Except Fault Bool}
    {values : List Value} (ht : s.heap.Table (Pair.ofBuffer buffer))
    (h : Mapping.selectPairs buffer test s = .ok (values, s')) :
    values.length % 2 = 0 ∧ s.heap.Table (Pair.ofFlat values) := by
  obtain ⟨hf, rfl⟩ := StoreM.readHeap_eq_ok.mp h
  obtain ⟨selected, hselected, hf⟩ := Fallible.bind_eq_ok.mp hf
  obtain rfl := Fallible.pure_eq_ok.mp hf
  exact (ht.sublist (Heap.filterM_eq_ok hselected).1).flatten

/-- Of two tables that are merged, each value is from one of them. -/
theorem mem_of_overridden {left right : Array Value} {values : List Value}
    (h : Mapping.overridden left right s = .ok (values, s')) :
    s = s' ∧ ∀ v ∈ values, v ∈ left ∨ v ∈ right := by
  obtain ⟨hf, rfl⟩ := StoreM.readHeap_eq_ok.mp h
  obtain ⟨rest, hrest, hf⟩ := Fallible.bind_eq_ok.mp hf
  obtain ⟨merged, hmerged, hf⟩ := Fallible.bind_eq_ok.mp hf
  obtain rfl := Fallible.pure_eq_ok.mp hf
  refine ⟨rfl, fun v hv => ?_⟩
  obtain ⟨p, hp, hpv⟩ := Pair.mem_of_flatten hv
  have hmem : p.1 ∈ left ∧ p.2 ∈ left ∨ p.1 ∈ right ∧ p.2 ∈ right := by
    rcases List.mem_append.mp ((Heap.sortOn_perm hmerged).mem_iff.mp hp) with hp | hp
    · exact Or.inl (Pair.mem_of_ofBuffer ((Heap.filterM_eq_ok hrest).1.subset hp))
    · exact Or.inr (Pair.mem_of_ofBuffer hp)
  rcases hpv with rfl | rfl
  · exact hmem.imp And.left And.left
  · exact hmem.imp And.right And.right

/-- Two tables that are merged are a table. -/
theorem table_of_overridden {left right : Array Value} {values : List Value}
    (hl : s.heap.Table (Pair.ofBuffer left)) (hr : s.heap.Table (Pair.ofBuffer right))
    (h : Mapping.overridden left right s = .ok (values, s')) :
    values.length % 2 = 0 ∧ s.heap.Table (Pair.ofFlat values) := by
  obtain ⟨hf, rfl⟩ := StoreM.readHeap_eq_ok.mp h
  obtain ⟨rest, hrest, hf⟩ := Fallible.bind_eq_ok.mp hf
  obtain ⟨merged, hmerged, hf⟩ := Fallible.bind_eq_ok.mp hf
  obtain rfl := Fallible.pure_eq_ok.mp hf
  exact (Heap.table_override hl hr hrest hmerged).flatten

theorem sorted_eq_ok {values sorted : Array Value}
    (h : Sequence.sorted values s = .ok (sorted, s')) : s = s' :=
  (StoreM.readHeap_eq_ok.mp h).2

theorem members_eq_ok {values kept : List Value} {among : Array Value} {keep : Bool}
    (h : Sequence.members values among keep s = .ok (kept, s')) :
    s = s' ∧ ∀ v ∈ kept, v ∈ values := by
  obtain ⟨hf, rfl⟩ := StoreM.readHeap_eq_ok.mp h
  exact ⟨rfl, fun v hv => (Heap.filterM_eq_ok hf).1.subset hv⟩

/-- The multiset difference has values of its operand only. -/
theorem missingOnce_eq_ok {h : Heap} {left right : Array Value} {taken : List Nat}
    {values missing : List Value}
    (hm : Sequence.missingOnce h left right taken values = .ok missing) :
    ∀ v ∈ missing, v ∈ values := by
  induction values generalizing taken missing with
  | nil =>
    obtain rfl := Fallible.pure_eq_ok.mp hm
    exact fun v hv => hv
  | cons w values ih =>
    have hskip : ∀ {taken : List Nat}, Sequence.missingOnce h left right taken values =
      .ok missing →
        ∀ v ∈ missing, v ∈ w :: values := fun hm v hv => List.mem_cons_of_mem _ (ih hm v hv)
    obtain ⟨inLeft, -, hm⟩ := Fallible.bind_eq_ok.mp hm
    split at hm
    · exact hskip hm
    obtain ⟨inRight, -, hm⟩ := Fallible.bind_eq_ok.mp hm
    cases inRight with
    | absent i => exact hskip hm
    | «at» i =>
      simp only at hm
      split at hm
      · exact hskip hm
      obtain ⟨rest, hrest, hm⟩ := Fallible.bind_eq_ok.mp hm
      obtain rfl := Fallible.pure_eq_ok.mp hm
      intro v hv
      rcases List.mem_cons.mp hv with rfl | hv
      · exact List.mem_cons_self
      · exact List.mem_cons_of_mem _ (ih hrest v hv)

theorem missing_eq_ok {left right : Array Value} {missing : List Value}
    (h : Sequence.missing left right s = .ok (missing, s')) :
    s = s' ∧ ∀ v ∈ missing, v ∈ right := by
  obtain ⟨_, s₁, h₁, h⟩ := StoreM.bind_eq_ok.mp h
  obtain rfl := sorted_eq_ok h₁
  obtain ⟨_, s₁, h₁, h⟩ := StoreM.bind_eq_ok.mp h
  obtain rfl := sorted_eq_ok h₁
  obtain ⟨hm, rfl⟩ := StoreM.readHeap_eq_ok.mp h
  exact ⟨rfl, fun v hv => Array.mem_toList_iff.mp (missingOnce_eq_ok hm v hv)⟩

/-- An array operand is read and sorted without a change to it. -/
theorem walk_sortedOperand {v : Value} {r : Except Refusal (Array Value)} (still : E .still)
    (scrub : ∀ id, v = .container .array id → E (.scrub id)) (ha : Account.Kept ⟨s, F, C, q⟩)
    (hv : F.Covers v) (h : Sequence.sortedOperand v s = .ok (r, s')) :
    Path E ⟨s, F, C, q⟩ ⟨s', F, C, q⟩ := by
  rcases ClientM.bind_eq_ok.mp h with ⟨e, h₁, rfl⟩ | ⟨p, s₁, h₁, h⟩
  · exact (walk_seqOperand still scrub ha hv h₁).1
  · obtain ⟨_, rfl, h₂⟩ := ClientM.lift_eq_ok.mp h
    obtain rfl := sorted_eq_ok h₂
    exact (walk_seqOperand still scrub ha hv h₁).1

variable {v w : Value} {r : Except Refusal Value}

section

variable (still : E .still) (scrub : ∀ id, E (.scrub id))
  (create : ∀ kind id, r = .ok (.ofContainer kind id) → E (.create id F))
  (ha : Account.Kept ⟨s, F, C, none⟩) (hv : F.Covers v) (hw : F.Covers w)

include still scrub

theorem Path.of_tends {a b : Account} (h : Path Effect.Tends a b) : Path E a b :=
  h.mono fun e he => match e, he with
    | _, .still => still
    | _, .scrub id => scrub id

include ha create

/-- An array is made of values that were read. -/
theorem walk_deriveArray {id : ContainerId} {values : List Value} {t : Store}
    (hpath : Path Effect.Tends ⟨s, F, C, none⟩ ⟨t, F, C, none⟩)
    (hfits : ∀ v ∈ values, t.heap.Fits v)
    (h : derive id .array values t = .ok (r, s')) :
    Path E ⟨s, F, C, none⟩ ⟨s', earned r + F, C, none⟩ :=
  (hpath.of_tends still scrub).trans
    (walk_derive still create (hpath.kept ha) hfits (fun hk => Kind.noConfusion hk) h)

include hv

/-- A slice is a creation, or refused. -/
theorem walk_seqRange {lo hi : Int} (h : Sequence.range v lo hi s = .ok (r, s')) :
    Path E ⟨s, F, C, none⟩ ⟨s', earned r + F, C, none⟩ := by
  rcases ClientM.bind_eq_ok.mp h with ⟨e, h₁, rfl⟩ | ⟨p, s₁, h₁, h⟩
  · exact (walk_seqOperand still (fun id _ => scrub id) ha hv h₁).1.earned_error
  obtain ⟨hpath, hp⟩ := walk_seqOperand (E := Effect.Tends) .still (fun id _ => .scrub id) ha hv h₁
  obtain ⟨id, values⟩ := p
  obtain ⟨-, hfits⟩ := hp id values rfl
  dsimp only at h
  split at h
  · refine walk_deriveArray still scrub create ha hpath (fun v hv => hfits v ?_) h
    have hmem := Array.mem_toList_iff.mp hv
    rw [Array.mem_iff_getElem?] at hmem ⊢
    obtain ⟨i, hi⟩ := hmem
    rw [Array.getElem?_extract] at hi
    split at hi
    · exact ⟨_, hi⟩
    · cases hi
  · obtain ⟨rfl, rfl⟩ := ClientM.refuse_eq_ok.mp h
    exact (hpath.of_tends still scrub).earned_error

include hw

/-- An array is made of what was read of two others. -/
theorem walk_deriveFromTwo (make : ContainerId → Array Value → Array Value → ClientM Value)
    (hmake : ∀ {id : ContainerId} {left right : Array Value} {t : Store},
      make id left right t = .ok (r, s') → ∃ values, derive id .array values t = .ok (r, s') ∧
        ∀ v ∈ values, v ∈ left ∨ v ∈ right)
    (h : (do
      let (id, left) ← Sequence.operand v
      let (_, right) ← Sequence.operand w
      make id left right : ClientM Value) s = .ok (r, s')) :
    Path E ⟨s, F, C, none⟩ ⟨s', earned r + F, C, none⟩ := by
  rcases ClientM.bind_eq_ok.mp h with ⟨e, h₁, rfl⟩ | ⟨p, s₁, h₁, h⟩
  · exact (walk_seqOperand still (fun id _ => scrub id) ha hv h₁).1.earned_error
  obtain ⟨hpath₁, hp⟩ := walk_seqOperand (E := Effect.Tends) .still (fun id _ => .scrub id) ha hv h₁
  obtain ⟨id, left⟩ := p
  obtain ⟨-, hleft⟩ := hp id left rfl
  have ha₁ := hpath₁.kept ha
  rcases ClientM.bind_eq_ok.mp h with ⟨e, h₂, rfl⟩ | ⟨p, s₂, h₂, h⟩
  · exact ((hpath₁.of_tends still scrub).trans
      (walk_seqOperand still (fun id _ => scrub id) ha₁ hw h₂).1).earned_error
  obtain ⟨hpath₂, hp⟩ :=
    walk_seqOperand (E := Effect.Tends) .still (fun id _ => .scrub id) ha₁ hw h₂
  obtain ⟨id', right⟩ := p
  obtain ⟨-, hright⟩ := hp id' right rfl
  obtain ⟨values, hderive, hvalues⟩ := hmake h
  -- The second operand may be tended after the first was read, which leaves its values fit.
  refine walk_deriveArray still scrub create ha (hpath₁.trans hpath₂) (fun x hx => ?_) hderive
  rcases hvalues x hx with hx | hx
  · exact hpath₂.fits ha₁ Effect.Tends.calm (hleft x hx)
  · exact hright x hx

theorem walk_seqConcat (h : Sequence.concat v w s = .ok (r, s')) :
    Path E ⟨s, F, C, none⟩ ⟨s', earned r + F, C, none⟩ :=
  walk_deriveFromTwo still scrub create ha hv hw
    (fun id left right => derive id .array (left ++ right).toList) (fun h => ⟨_, h, fun x hx => by
    rwa [Array.toList_append, List.mem_append, Array.mem_toList_iff, Array.mem_toList_iff] at hx⟩) h

theorem walk_seqUnion (h : Sequence.union v w s = .ok (r, s')) :
    Path E ⟨s, F, C, none⟩ ⟨s', earned r + F, C, none⟩ := by
  refine walk_deriveFromTwo still scrub create ha hv hw (fun id left right => do
    let extra ← if right.isEmpty then pure [] else Sequence.missing left right
    derive id .array (left.toList ++ extra)) (fun {id left right t} h => ?_) h
  obtain ⟨extra, h, hextra⟩ : ∃ extra, derive id .array (left.toList ++ extra) t = .ok (r, s') ∧
      ∀ x ∈ extra, x ∈ right := by
    dsimp only at h
    split at h
    · exact ⟨[], h, fun x hx => absurd hx List.not_mem_nil⟩
    · obtain ⟨extra, s₁, h₁, h⟩ := ClientM.lift_bind_eq_ok.mp h
      obtain ⟨rfl, hextra⟩ := missing_eq_ok h₁
      exact ⟨extra, h, hextra⟩
  refine ⟨_, h, fun x hx => ?_⟩
  rcases List.mem_append.mp hx with hx | hx
  · exact Or.inl (Array.mem_toList_iff.mp hx)
  · exact Or.inr (hextra x hx)

theorem walk_symmetricDifference (h : Sequence.symmetricDifference v w s = .ok (r, s')) :
    Path E ⟨s, F, C, none⟩ ⟨s', earned r + F, C, none⟩ := by
  refine walk_deriveFromTwo still scrub create ha hv hw (fun id left right => do
    let sortedLeft ← Sequence.sorted left
    let sortedRight ← Sequence.sorted right
    let here ← Sequence.members left.toList sortedRight false
    let there ← Sequence.members right.toList sortedLeft false
    derive id .array (here ++ there)) (fun {id left right t} h => ?_) h
  obtain ⟨_, s₁, h₁, h⟩ := ClientM.lift_bind_eq_ok.mp h
  obtain rfl := sorted_eq_ok h₁
  obtain ⟨_, s₁, h₁, h⟩ := ClientM.lift_bind_eq_ok.mp h
  obtain rfl := sorted_eq_ok h₁
  obtain ⟨here, s₁, h₁, h⟩ := ClientM.lift_bind_eq_ok.mp h
  obtain ⟨rfl, hhere⟩ := members_eq_ok h₁
  obtain ⟨there, s₁, h₁, h⟩ := ClientM.lift_bind_eq_ok.mp h
  obtain ⟨rfl, hthere⟩ := members_eq_ok h₁
  refine ⟨_, h, fun x hx => ?_⟩
  rcases List.mem_append.mp hx with hx | hx
  · exact Or.inl (Array.mem_toList_iff.mp (hhere x hx))
  · exact Or.inr (Array.mem_toList_iff.mp (hthere x hx))

theorem walk_seqRestrict {keep : Bool} (h : Sequence.restrict v w keep s = .ok (r, s')) :
    Path E ⟨s, F, C, none⟩ ⟨s', earned r + F, C, none⟩ := by
  rcases ClientM.bind_eq_ok.mp h with ⟨e, h₁, rfl⟩ | ⟨p, s₁, h₁, h⟩
  · exact (walk_seqOperand still (fun id _ => scrub id) ha hv h₁).1.earned_error
  obtain ⟨hpath₁, hp⟩ := walk_seqOperand (E := Effect.Tends) .still (fun id _ => .scrub id) ha hv h₁
  obtain ⟨id, left⟩ := p
  obtain ⟨-, hleft⟩ := hp id left rfl
  have ha₁ := hpath₁.kept ha
  rcases ClientM.bind_eq_ok.mp h with ⟨e, h₂, rfl⟩ | ⟨right, s₂, h₂, h⟩
  · exact ((hpath₁.of_tends still scrub).trans
      (walk_sortedOperand still (fun id _ => scrub id) ha₁ hw h₂)).earned_error
  have hpath₂ := walk_sortedOperand (E := Effect.Tends) .still (fun id _ => .scrub id) ha₁ hw h₂
  obtain ⟨kept, s₃, h₃, h⟩ := ClientM.lift_bind_eq_ok.mp h
  obtain ⟨rfl, hkept⟩ := members_eq_ok h₃
  exact walk_deriveArray still scrub create ha (hpath₁.trans hpath₂) (fun x hx =>
    hpath₂.fits ha₁ Effect.Tends.calm (hleft x (Array.mem_toList_iff.mp (hkept x hx)))) h

/-! ## Mappings -/

omit hw hv

/-- A mapping is made of pairs that were read, none of which is lost. -/
theorem walk_deriveMapping {id : ContainerId} {values : List Value} {t : Store}
    (hpath : Path Effect.Tends ⟨s, F, C, none⟩ ⟨t, F, C, none⟩)
    (hvalues : ∀ v ∈ values, t.heap.Fits v ∧ t.lost v = false)
    (hm : values.length % 2 = 0 ∧ t.heap.Table (Pair.ofFlat values))
    (h : derive id .mapping values t = .ok (r, s')) :
    Path E ⟨s, F, C, none⟩ ⟨s', earned r + F, C, none⟩ := by
  refine (hpath.of_tends still scrub).trans
    (walk_derive still create (hpath.kept ha) (fun v hv => (hvalues v hv).1) (fun _ => ?_) h)
  rw [map_seen_of_alive fun v hv => (hvalues v hv).2]
  exact hm

include hv

theorem walk_mapIndices (h : Mapping.indices v s = .ok (r, s')) :
    Path E ⟨s, F, C, none⟩ ⟨s', earned r + F, C, none⟩ := by
  rcases ClientM.bind_eq_ok.mp h with ⟨e, h₁, rfl⟩ | ⟨p, s₁, h₁, h⟩
  · exact (walk_mapOperand still (fun id _ => scrub id) ha hv h₁).1.earned_error
  obtain ⟨hpath, hp⟩ := walk_mapOperand (E := Effect.Tends) .still (fun id _ => .scrub id) ha hv h₁
  obtain ⟨id, buffer⟩ := p
  obtain ⟨-, x, hx, hclean⟩ := hp id buffer rfl
  obtain ⟨hvalues, -, -⟩ := (hpath.kept ha).solid hx hclean
  exact walk_deriveArray still scrub create ha hpath (fun w hw =>
    (hvalues w (Array.mem_toList_iff.mp (mem_of_everySecond hw))).1) h

theorem walk_mapValues (h : Mapping.values v s = .ok (r, s')) :
    Path E ⟨s, F, C, none⟩ ⟨s', earned r + F, C, none⟩ := by
  rcases ClientM.bind_eq_ok.mp h with ⟨e, h₁, rfl⟩ | ⟨p, s₁, h₁, h⟩
  · exact (walk_mapOperand still (fun id _ => scrub id) ha hv h₁).1.earned_error
  obtain ⟨hpath, hp⟩ := walk_mapOperand (E := Effect.Tends) .still (fun id _ => .scrub id) ha hv h₁
  obtain ⟨id, buffer⟩ := p
  obtain ⟨-, x, hx, hclean⟩ := hp id buffer rfl
  obtain ⟨hvalues, -, -⟩ := (hpath.kept ha).solid hx hclean
  exact walk_deriveArray still scrub create ha hpath (fun w hw =>
    (hvalues w (Array.mem_toList_iff.mp (List.mem_of_mem_tail (mem_of_everySecond hw)))).1) h

/-- A mapping of the pairs within bounds is a creation, or refused. -/
theorem walk_mapRange {lo hi : Value} (h : Mapping.range v lo hi s = .ok (r, s')) :
    Path E ⟨s, F, C, none⟩ ⟨s', earned r + F, C, none⟩ := by
  rcases ClientM.bind_eq_ok.mp h with ⟨e, h₁, rfl⟩ | ⟨p, s₁, h₁, h⟩
  · exact (walk_mapOperand still (fun id _ => scrub id) ha hv h₁).1.earned_error
  obtain ⟨hpath, hp⟩ := walk_mapOperand (E := Effect.Tends) .still (fun id _ => .scrub id) ha hv h₁
  obtain ⟨id, buffer⟩ := p
  obtain ⟨-, x, hx, hclean⟩ := hp id buffer rfl
  obtain ⟨hvalues, -, ht⟩ := (hpath.kept ha).solid hx hclean
  obtain ⟨selected, s₂, h₂, h⟩ := ClientM.lift_bind_eq_ok.mp h
  have hm := table_of_selectPairs ht h₂
  obtain ⟨rfl, hmem⟩ := mem_of_selectPairs h₂
  exact walk_deriveMapping still scrub create ha hpath (fun w hw => hvalues w (hmem w hw)) hm h

include hw

theorem walk_mapConcat (h : Mapping.concat v w s = .ok (r, s')) :
    Path E ⟨s, F, C, none⟩ ⟨s', earned r + F, C, none⟩ := by
  rcases ClientM.bind_eq_ok.mp h with ⟨e, h₁, rfl⟩ | ⟨p, s₁, h₁, h⟩
  · exact (walk_mapOperand still (fun id _ => scrub id) ha hv h₁).1.earned_error
  obtain ⟨hpath₁, hp⟩ := walk_mapOperand (E := Effect.Tends) .still (fun id _ => .scrub id) ha hv h₁
  obtain ⟨id, left⟩ := p
  obtain ⟨hid, x, hx, hcleanL⟩ := hp id left rfl
  have ha₁ := hpath₁.kept ha
  rcases ClientM.bind_eq_ok.mp h with ⟨e, h₂, rfl⟩ | ⟨p, s₂, h₂, h⟩
  · exact ((hpath₁.of_tends still scrub).trans
      (walk_mapOperand still (fun id _ => scrub id) ha₁ hw h₂).1).earned_error
  obtain ⟨hpath₂, hp⟩ :=
    walk_mapOperand (E := Effect.Tends) .still (fun id _ => .scrub id) ha₁ hw h₂
  obtain ⟨id', right⟩ := p
  obtain ⟨-, y, hy, hcleanR⟩ := hp id' right rfl
  have ha₂ := hpath₂.kept ha₁
  have hpath := hpath₁.trans hpath₂
  obtain ⟨x', hx', hclean⟩ := hpath₂.exists_clean ha₁ (hid ▸ hv) hx hcleanL
  obtain ⟨hleftValues, hleftEven, hleftTable⟩ := ha₂.solid hx' hclean
  obtain ⟨hrightValues, -, hrightTable⟩ := ha₂.solid hy hcleanR
  dsimp only at h
  split at h
  · refine walk_deriveMapping still scrub create ha hpath
      (fun v hv => hleftValues v (Array.mem_toList_iff.mp hv)) ⟨?_, hleftTable⟩ h
    rw [Array.length_toList]
    exact hleftEven
  · obtain ⟨union, s₃, h₃, h⟩ := ClientM.lift_bind_eq_ok.mp h
    have hm := table_of_overridden hleftTable hrightTable h₃
    obtain ⟨rfl, hmem⟩ := mem_of_overridden h₃
    refine walk_deriveMapping still scrub create ha hpath (fun v hv => ?_) hm h
    rcases hmem v hv with hv | hv
    · exact hleftValues v hv
    · exact hrightValues v hv

theorem walk_mapRestrict {keep : Bool} (h : Mapping.restrict v w keep s = .ok (r, s')) :
    Path E ⟨s, F, C, none⟩ ⟨s', earned r + F, C, none⟩ := by
  rcases ClientM.bind_eq_ok.mp h with ⟨e, h₁, rfl⟩ | ⟨p, s₁, h₁, h⟩
  · exact (walk_mapOperand still (fun id _ => scrub id) ha hv h₁).1.earned_error
  obtain ⟨hpath₁, hp⟩ := walk_mapOperand (E := Effect.Tends) .still (fun id _ => .scrub id) ha hv h₁
  obtain ⟨id, buffer⟩ := p
  obtain ⟨hid, x, hx, hclean⟩ := hp id buffer rfl
  have ha₁ := hpath₁.kept ha
  rcases ClientM.bind_eq_ok.mp h with ⟨e, h₂, rfl⟩ | ⟨keys, s₂, h₂, h⟩
  · exact ((hpath₁.of_tends still scrub).trans
      (walk_sortedOperand still (fun id _ => scrub id) ha₁ hw h₂)).earned_error
  have hpath₂ := walk_sortedOperand (E := Effect.Tends) .still (fun id _ => .scrub id) ha₁ hw h₂
  have ha₂ := hpath₂.kept ha₁
  have hpath := hpath₁.trans hpath₂
  obtain ⟨x', hx', hclean'⟩ := hpath₂.exists_clean ha₁ (hid ▸ hv) hx hclean
  obtain ⟨hvalues, heven, ht⟩ := ha₂.solid hx' hclean'
  dsimp only at h
  split at h
  · cases keep with
    | true =>
      exact walk_deriveMapping still scrub create ha hpath
        (fun v hv => absurd hv List.not_mem_nil) ⟨rfl, .nil⟩ h
    | false =>
      refine walk_deriveMapping still scrub create ha hpath
        (fun v hv => hvalues v (Array.mem_toList_iff.mp hv)) ⟨?_, ht⟩ h
      rw [Array.length_toList]
      exact heven
  · obtain ⟨kept, s₃, h₃, h⟩ := ClientM.lift_bind_eq_ok.mp h
    have hm := table_of_selectPairs ht h₃
    obtain ⟨rfl, hmem⟩ := mem_of_selectPairs h₃
    exact walk_deriveMapping still scrub create ha hpath (fun v hv => hvalues v (hmem v hv)) hm h

end

end

end PlaneStore
