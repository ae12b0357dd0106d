import PlaneStore.Proofs.Mapping.StoredKeys
import PlaneStore.Proofs.Planes.OpenRegions

/-!
# Containers that do not differ but in where they are at home

Two stores may have come from one and the same, on different ways. A container of the one and the
container in its slot in the other are twins if neither what they are nor what they store tells them
apart; how far writes have been merged does not matter.

What a container shows are the values that a reader can come upon in it. A sorted value for which an
update is pending is not shown: it goes with the next merge. Containers that show each other in a
circle stay as long as nothing is done to them, whatever else goes.
-/

namespace PlaneStore

open Store

/-! ## Twins -/

/-- A container that is the same in another store, and stores the same. -/
structure Content.Twin (s s' : Store) (x x' : Content) : Prop where
  kind : x'.kind = x.kind
  tag : x'.tag = x.tag
  owner : x'.owner = x.owner
  elements : x.kind ≠ .mapping → x'.buffer = x.buffer
  entries : x.kind = .mapping → ∀ k, x'.find s'.heap k = x.find s.heap k
  keys : x.kind = .mapping → ∀ w, x'.HasKey w ↔ x.HasKey w

namespace Content

variable {s s₁ s₂ : Store} {x y z : Content}

namespace Twin

protected theorem refl (s : Store) (x : Content) : x.Twin s s x where
  kind := rfl
  tag := rfl
  owner := rfl
  elements _ := rfl
  entries _ _ := rfl
  keys _ _ := Iff.rfl

protected theorem symm (h : x.Twin s s₁ y) : y.Twin s₁ s x where
  kind := h.kind.symm
  tag := h.tag.symm
  owner := h.owner.symm
  elements hk := (h.elements (h.kind ▸ hk)).symm
  entries hk k := (h.entries (h.kind ▸ hk) k).symm
  keys hk w := (h.keys (h.kind ▸ hk) w).symm

protected theorem trans (h : x.Twin s s₁ y) (h' : y.Twin s₁ s₂ z) : x.Twin s s₂ z where
  kind := h'.kind.trans h.kind
  tag := h'.tag.trans h.tag
  owner := h'.owner.trans h.owner
  elements hk := (h'.elements (h.kind ▸ hk)).trans (h.elements hk)
  entries hk k := (h'.entries (h.kind ▸ hk) k).trans (h.entries hk k)
  keys hk w := (h'.keys (h.kind ▸ hk) w).trans (h.keys hk w)

end Twin

/--
Mappings with the same entries store them under the same keys if no two of their keys are different
and of one identity.
-/
theorem keys_iff {h h' : Heap} (hx : x.Tabled h) (hy : y.Tabled h')
    (hfind : ∀ k, y.find h' k = x.find h k)
    (hinj : ∀ w w', x.HasKey w → y.HasKey w' → h'.identity w' = h.identity w → w' = w) (w : Value) :
    y.HasKey w ↔ x.HasKey w := by
  constructor
  · intro hw
    have hne : x.find h (h'.identity w) ≠ none := hfind _ ▸ hw.find_ne_none
    obtain ⟨u, hu, hid⟩ := hx.exists_hasKey hne
    rwa [hinj u w hu hw hid.symm]
  · intro hw
    have hne : y.find h' (h.identity w) ≠ none := by
      rw [hfind]
      exact hw.find_ne_none
    obtain ⟨u, hu, hid⟩ := hy.exists_hasKey hne
    rwa [← hinj w u hw hu hid]

/-! ## What a container shows -/

/-- The values that a reader can come upon. -/
def Shows (h : Heap) (x : Content) (v : Value) : Prop :=
  x.kind ≠ .mapping ∧ v ∈ x.buffer ∨ x.kind = .mapping ∧ (x.HasKey v ∨ ∃ k, x.find h k = some v)

theorem Twin.shows (h : x.Twin s s₁ y) (v : Value) : y.Shows s₁.heap v ↔ x.Shows s.heap v := by
  unfold Shows
  rw [h.kind]
  by_cases hk : x.kind = .mapping
  · simp [hk, h.keys hk, h.entries hk]
  · simp [hk, h.elements hk]

end Content

/-! ## Containers with nothing pending -/

namespace Content

variable {s s' : Store} {x y : Content} {v : Value}

theorem coe_held_of_none (ho : x.overlay = none) : (↑x.held : Refs) = ↑x.buffer.toList := by
  rw [coe_held, ho]
  exact add_zero _

/-- If nothing is pending, all that a container holds is shown. -/
theorem shows_of_held (hw : x.Whole) (ht : x.kind = .mapping → x.Tabled s.heap)
    (ho : x.overlay = none) (hv : v ∈ x.held) : x.Shows s.heap v := by
  rw [← Multiset.mem_coe, coe_held_of_none ho] at hv
  by_cases hk : x.kind = .mapping
  · rw [← Pair.held_ofBuffer (hw.even hk)] at hv
    obtain ⟨p, hp, hpv⟩ := Pair.mem_of_flatten (Multiset.mem_coe.mp hv)
    refine .inr ⟨hk, ?_⟩
    rcases hpv with rfl | rfl
    · exact .inl (.inl ⟨p, hp, rfl⟩)
    · refine .inr ⟨s.heap.identity p.1, ?_⟩
      rw [find_of_none ho]
      exact (Heap.find_eq_some (ht hk).table.distinct).mpr ⟨p, hp, rfl, rfl⟩
  · exact .inl ⟨hk, Array.mem_toList_iff.mp (Multiset.mem_coe.mp hv)⟩

/-- If nothing is pending, a pair is a key with the value that is found under it. -/
theorem mem_pairs_iff {p : Pair} (ht : x.Tabled s.heap) (ho : x.overlay = none) :
    p ∈ x.pairs ↔ x.HasKey p.1 ∧ x.find s.heap (s.heap.identity p.1) = some p.2 := by
  rw [find_of_none ho, Heap.find_eq_some ht.table.distinct]
  constructor
  · exact fun hp => ⟨.inl ⟨p, hp, rfl⟩, p, hp, rfl, rfl⟩
  · rintro ⟨hkey, q, hq, hid, hvalue⟩
    have hkeys : q.1 = p.1 := ht.hasKey_inj (.inl ⟨q, hq, rfl⟩) hkey hid
    rwa [← show q = p from Prod.ext hkeys hvalue]

/-- Twins hold the same if nothing is pending for them. -/
theorem Twin.held_eq (h : x.Twin s s' y) (hw : x.Whole) (hw' : y.Whole)
    (ht : x.kind = .mapping → x.Tabled s.heap) (ht' : x.kind = .mapping → y.Tabled s'.heap)
    (ho : x.overlay = none) (ho' : y.overlay = none)
    (hid : x.kind = .mapping → ∀ w, x.HasKey w → s'.heap.identity w = s.heap.identity w) :
    (↑y.held : Refs) = ↑x.held := by
  rw [coe_held_of_none ho, coe_held_of_none ho']
  by_cases hk : x.kind = .mapping
  · rw [← Pair.held_ofBuffer (hw.even hk), ← Pair.held_ofBuffer (hw'.even (h.kind.trans hk))]
    refine Pair.held_perm ?_
    refine (List.perm_ext_iff_of_nodup (ht' hk).table.distinct.of_map
      (ht hk).table.distinct.of_map).mpr fun p => ?_
    have hiff := mem_pairs_iff (p := p) (ht hk) ho
    have hiff' := mem_pairs_iff (p := p) (ht' hk) ho'
    rw [h.keys hk, h.entries hk] at hiff'
    refine hiff'.trans (Iff.trans (and_congr_right fun hkey => ?_) hiff.symm)
    rw [hid hk _ hkey]
  · rw [h.elements hk]

end Content

/-- A container in a slot shows a reference to another one. -/
def Store.Shows (s : Store) (id other : ContainerId) : Prop :=
  ∃ x, s.content? id = some x ∧ ∃ v, x.Shows s.heap v ∧ v.target? = some (.container other)

section

variable {a : Account} {id other : ContainerId} {x : Content} {v : Value}

/-- What a container shows it holds. -/
theorem Account.Kept.held_of_shows (ha : a.Kept) (hx : a.store.content? id = some x)
    (hv : x.Shows a.store.heap v) : v ∈ x.held := by
  rcases hv with ⟨-, hv⟩ | ⟨hk, hv | ⟨k, hv⟩⟩
  · exact Content.mem_held_of_buffer hv
  · exact hv.mem_held
  · exact ha.held_of_find hx hk hv

/-- What is shown is there. -/
theorem Account.Kept.live_of_shows (ha : a.Kept) (h : a.store.Shows id other) :
    a.store.container? other ≠ none := by
  obtain ⟨x, hx, v, hv, ht⟩ := h
  have hmem := Account.mem_refs_of_store (Content.mem_refs hx (ha.held_of_shows hx hv))
  exact fun hnone => ha.accounted.balanced.ne_free hmem ht (Option.map_eq_none_iff.mpr hnone)

end

/-! ## Steps that leave containers alone -/

/-- The effects of steps that bring nothing into being and leave all containers but one alone. -/
structure Effect.Turns (subject : Option ContainerId) (e : Effect) : Prop where
  calm : e.Calm
  stays : ∀ ds id, e ≠ .transfer ds id
  leaves : ∀ id, subject ≠ some id → e.Leaves id

section

variable {E : Effect → Prop} {subject : Option ContainerId} {a b : Account} {e : Effect}
  {id : ContainerId} {x x' : Content}

/-- Kind, tag and owner stay, even of the container that is turned to. -/
theorem Content.Becomes.identity (h : Content.Becomes a id e x x') (he : e.Turns subject) :
    x'.kind = x.kind ∧ x'.tag = x.tag ∧ x'.owner = x.owner := by
  cases h with
  | transfer ds => exact absurd rfl (he.stays ds id)
  | retag tag hfree => exact he.calm.elim
  | _ => exact ⟨rfl, rfl, rfl⟩

/-- What a container is does not change. -/
theorem Path.identity (h : Path E a b) (ha : a.Kept) (hE : ∀ e, E e → e.Turns subject)
    (hx' : b.store.content? id = some x') :
    ∃ x, a.store.content? id = some x ∧ x'.kind = x.kind ∧ x'.tag = x.tag ∧ x'.owner = x.owner := by
  induction h generalizing x' with
  | refl => exact ⟨x', hx', rfl, rfl, rfl⟩
  | tail h he hs ih =>
    cases hs.content (h.kept ha).accounted hx' with
    | kept hx => exact ih hx
    | becomes hx hbec =>
      obtain ⟨y, hy, hkind, htag, howner⟩ := ih hx
      obtain ⟨hkind', htag', howner'⟩ := hbec.identity (hE _ he)
      exact ⟨y, hy, hkind'.trans hkind, htag'.trans htag, howner'.trans howner⟩
    | made hcreate =>
      subst hcreate
      exact (hE _ he).calm.elim

/-- A container that is left alone is its own twin. -/
theorem Path.twin (h : Path E a b) (ha : a.Kept) (hE : ∀ e, E e → e.Turns subject)
    (hid : subject ≠ some id) (hx' : b.store.content? id = some x') :
    ∃ x, a.store.content? id = some x ∧ x.Twin a.store b.store x' := by
  have hleaves : ∀ e, E e → e.Leaves id := fun e he => (hE e he).leaves id hid
  obtain ⟨x, hx, hkind, htag, howner⟩ := h.identity ha hE hx'
  have hfind : x.kind = .mapping → ∀ k, x'.find b.store.heap k = x.find a.store.heap k := by
    intro hk
    obtain ⟨y, hy, -, hfind⟩ := h.find ha hleaves hx' (hkind.trans hk)
    rwa [Option.some.inj (hx.symm.trans hy)]
  refine ⟨x, hx, hkind, htag, howner, fun hk => ?_, hfind, fun hk => ?_⟩
  · obtain ⟨y, hy, -, hbuffer⟩ := h.buffer ha hleaves hx' (hkind ▸ hk)
    rw [Option.some.inj (hx.symm.trans hy), hbuffer]
  · have hk' := hkind.trans hk
    have htabled := ha.tabled.content hx hk
    refine Content.keys_iff htabled ((h.kept ha).tabled.content hx' hk') (hfind hk) ?_
    intro w w' hw hw' hsame
    obtain ⟨y, hy, -, hwy⟩ := h.hasKey ha (fun e he => .inl (hleaves e he)) hx' hk' hw'
    rw [← Option.some.inj (hx.symm.trans hy)] at hwy
    rw [h.identity_held ha (fun e he => (hE e he).calm) hx' hw'.mem_held] at hsame
    exact htabled.hasKey_inj hwy hw hsame

theorem Effect.Minds.leaves_or : ∀ e : Effect, e.Minds → e.Leaves id ∨ e = .scrub id
  | .still, _ | .evict _, _ => .inl trivial
  | .scrub other, _ => (ne_or_eq other id).imp_right fun h => congrArg Effect.scrub h

/-- Looking after containers brings nothing in sight. -/
theorem Path.shows_of_minds {other : ContainerId} (h : Path E a b) (ha : a.Kept)
    (hE : ∀ e, E e → e.Minds) (hshows : b.store.Shows id other) : a.store.Shows id other := by
  obtain ⟨x', hx', v, hv, ht⟩ := hshows
  obtain ⟨x, hx, hfades⟩ := h.fading ha hE hx'
  refine ⟨x, hx, v, ?_, ht⟩
  rcases hv with ⟨hk, hv⟩ | ⟨hk, hv⟩
  · have hkx : x.kind ≠ .mapping := hfades.kind ▸ hk
    obtain ⟨u, hu, hleft⟩ :=
      Content.exists_of_forall₂ (hfades.elements hkx) (Array.mem_toList_iff.mpr hv)
    refine .inl ⟨hkx, Array.mem_toList_iff.mp ?_⟩
    cases hleft with
    | kept => exact hu
    | lost => cases ht
  · have hkx : x.kind = .mapping := hfades.kind ▸ hk
    refine .inr ⟨hkx, ?_⟩
    rcases hv with hv | ⟨k, hv⟩
    · obtain ⟨y, hy, -, hkey⟩ :=
        h.hasKey ha (fun e he => Effect.Minds.leaves_or e (hE e he)) hx' hk hv
      rw [← Option.some.inj (hx.symm.trans hy)] at hkey
      exact .inl hkey
    · refine .inr ⟨k, ?_⟩
      cases hu : x.find a.store.heap k with
      | none => cases (hfades.absent hkx k hu).symm.trans hv
      | some u =>
        have hleft := hfades.entries hkx hu
        rw [hv] at hleft
        cases hleft
        rfl

/-- Containers that are left alone stay as long as each is shown by one of them. -/
theorem Path.circle {Z : ContainerId → Prop} (h : Path E a b) (ha : a.Kept)
    (hE : ∀ e, E e → e.Turns subject) (hZ : ∀ id, Z id → subject ≠ some id)
    (hshown : ∀ id, Z id → ∃ other, Z other ∧ a.store.Shows other id) :
    ∀ id, Z id → ∃ other, Z other ∧ b.store.Shows other id := by
  induction h with
  | refl => exact hshown
  | @tail b c e h he hs ih =>
    have hb := h.kept ha
    -- None of them goes with the step, since each is referred to by one of them.
    have hlive : ∀ id, Z id → c.store.container? id ≠ none := fun id hid hgone => by
      obtain ⟨other, -, x, hx, v, hv, ht⟩ := ih id hid
      obtain ⟨y, hy⟩ := Option.ne_none_iff_exists'.mp (hb.live_of_shows ⟨x, hx, v, hv, ht⟩)
      have hzero := (hs.last_reference hb.accounted hy hgone).2
      have hpos := Refs.tally_pos (Account.mem_placed_of_content hx (hb.held_of_shows hx hv)) ht
      omega
    intro id hid
    obtain ⟨other, hother, x, hx, v, hv, ht⟩ := ih id hid
    obtain ⟨y, hy⟩ := Option.ne_none_iff_exists'.mp (hlive other hother)
    have hx' := content?_of_container hy
    obtain ⟨x₀, hx₀, htwin⟩ := (Path.single he hs).twin hb hE (hZ other hother) hx'
    rw [← Option.some.inj (hx.symm.trans hx₀)] at htwin
    exact ⟨other, hother, _, hx', v, (htwin.shows v).mpr hv, ht⟩

end

end PlaneStore
