import PlaneStore.Proofs.Planes.DiscardedPlanes

/-!
# What lasts while a region is open

As long as no object is destroyed, what there was when the plane of a level was entered is still
there and holds what it held, or a plane remembers what it held. All that it refers to is therefore
referred to still; and since a container goes only with the last reference to it, none of these
containers goes.
-/

namespace PlaneStore

open Store

/-! ## Containers that stay -/

section

variable {e : Effect} {a b : Account} {s s' : Store} {id other : ContainerId} {c d x : Container}

theorem Store.exists_of_home? (h : s'.home? id = s.home? id) (hx : s.container? id = some x) :
    ∃ x', s'.container? id = some x' := by
  rw [home?_of_container hx] at h
  obtain ⟨x', hx', -⟩ := Option.map_eq_some_iff.mp h
  exact ⟨x', hx'⟩

theorem Store.exists_withContainer (hc : s.container? other = some c) (d : Container)
    (hx : s.container? id = some x) : ∃ x', (s.withContainer other d).container? id = some x' := by
  by_cases hid : other = id
  · subst hid
    exact ⟨d, container?_withContainer_self hc⟩
  · exact ⟨x, (container?_withContainer_of_ne hid).trans hx⟩

/-- What concerns sweep lists and imports alone frees nothing. -/
theorem Store.Alike.exists_live (h : Alike s s') (hx : s.container? id = some x) :
    ∃ x', s'.container? id = some x' := (h.exists_container hx).imp fun _ hx' => hx'.1

/-- Nothing goes when something is made. -/
theorem Creation.exists_live (h : Creation e a b) (ha : a.Accounted)
    (hx : a.store.container? id = some x) : ∃ x', b.store.container? id = some x' := by
  cases h with
  | @container t s F C owner kind values u hv hm h =>
    have hs := ha.balanced.containers
    have hne : s.heap.nextId ≠ id := by
      rintro rfl
      cases (container?_nextId hs).symm.trans hx
    obtain ⟨x', hx'⟩ := (alike_link_new hs rfl h).exists_live
      ((container?_withNew_of_ne (c := s.newContainer owner kind values) hne).trans hx)
    exact ⟨x', (container?_withPlane t _ id).trans hx'⟩
  | retag hc => exact exists_withContainer hc _ hx
  | string | dataspace | spawn | destroy => exact ⟨x, hx⟩

/-- No container goes when a variable or a call is written to, for what is given up is in flight. -/
theorem Writing.exists_live (h : Writing e a b) (hx : a.store.container? id = some x) :
    ∃ x', b.store.container? id = some x' := by
  cases h with
  | write => exact ⟨x, hx⟩
  | firstWrite hold hv hp hnew h =>
    exact ((alike_dropImport h).exists_live hx).imp fun _ hx' => (container?_withPlane
      _ _ id).trans hx'
  | addCall hd hv h =>
    refine ⟨x, ?_⟩
    unfold container? at hx ⊢
    rw [h.fields.1]
    exact hx
  | removeCall hold h₁ h₂ | replaceCall hold hv h₁ h₂ =>
    obtain ⟨x', hx'⟩ := (alike_dropImport h₁).exists_live hx
    refine ⟨x', ?_⟩
    unfold container? at hx' ⊢
    rw [h₂.fields.1]
    exact hx'

/-- No container goes as regions are entered and left, for what is given up is in flight. -/
theorem Nesting.exists_live (h : Nesting e a b) (hx : a.store.container? id = some x) :
    ∃ x', b.store.container? id = some x' := by
  cases h with
  | backUp hc | settle hl hledger hc =>
    exact (exists_withContainer hc _ hx).imp fun _ hx' => (container?_withPlane _ _ id).trans hx'
  | refile | resave => exact ⟨x, (container?_withPlane _ _ id).trans hx⟩
  | enter | pop | forget | skip | unsave | unwindAdded | finish => exact ⟨x, hx⟩
  | record hl hf h =>
    refine ⟨x, ?_⟩
    unfold container? at hx ⊢
    rw [h.fields.1]
    exact hx
  | restore hl hf hc he h =>
    obtain ⟨x', hx'⟩ := exists_withContainer hc _ hx
    exact (alike_addImports h).exists_live hx'
  | restoreVariable hl hf h | unwindRemoved hl hf hd h | unwindReplaced hl hf hcur h =>
    exact (alike_addImport h).exists_live hx

/-- A container goes with the last reference to it, and that one is in flight. -/
theorem Step.last_reference (h : Step e a b) (ha : a.Accounted)
    (hx : a.store.container? id = some x) (hgone : b.store.container? id = none) :
    a.flight.tally (.container id) = 1 ∧ a.placed.tally (.container id) = 0 := by
  -- Every step but one leaves the container where it is, which contradicts that it is gone.
  have hstays : ¬∃ x', b.store.container? id = some x' := fun ⟨x', hx'⟩ => by
    cases hgone.symm.trans hx'
  cases h with
  | upkeep h => exact absurd (exists_of_home? (h.home? id) hx) hstays
  | change h => exact absurd (exists_of_home? (h.home? id) hx) hstays
  | creation h => exact absurd (h.exists_live ha hx) hstays
  | writing h => exact absurd (h.exists_live hx) hstays
  | nesting h => exact absurd (h.exists_live hx) hstays
  | transfer h =>
    obtain ⟨c, hc, hal⟩ := h.alike
    obtain ⟨x', hx'⟩ := exists_withContainer hc _ hx
    exact absurd (hal.exists_live hx') hstays
  | traffic h =>
    cases h with
    | retain hv h =>
      exact absurd (((retain_eq_ok h).exists_container hx).imp fun _ hx' => hx'.1) hstays
    | charge h => exact absurd ((alike_addImport h).exists_live hx) hstays
    | discharge h => exact absurd ((alike_dropImport h).exists_live hx) hstays
    | @drop s s' F C q v children h =>
      cases dropReference_eq_ok h with
      | scalar | text | lastText => exact absurd ⟨x, hx⟩ hstays
      | shared hc => exact absurd (exists_withContainer hc _ hx) hstays
      | @freed shape other c _ hc hone hal =>
        by_cases hid : other = id
        · subst hid
          have hcount := ha.balanced.count_eq (t := .container other)
            (congrArg (Option.map Container.refcount) hc)
          have hin : 0 < Refs.tally ({Value.container shape other} + F) (.container other) :=
            Refs.tally_pos (v := Value.container shape other) (by simp) rfl
          -- The count was one and the dropped reference is in flight, so no other place has one.
          have hsum : (Account.refs ⟨s, {Value.container shape other} + F, C, q⟩).tally
            (.container other) =
              Refs.tally ({Value.container shape other} + F) (.container other) +
                (Account.placed ⟨s, {Value.container shape other} + F, C, q⟩).tally
                  (.container other) := by
            unfold Account.refs Account.placed
            simp only [Refs.tally_add]
            omega
          show Refs.tally ({Value.container shape other} + F) (.container other) = 1 ∧ _
          omega
        · exact absurd (hal.exists_live ((container?_without_of_ne hid).trans hx)) hstays

/-- There is no other reference to a container that comes to be. -/
theorem Step.first_reference {F : Refs} (h : Step (.create id F) a b) (ha : a.Accounted) :
    F ≤ a.flight ∧ F.tally (.container id) = 0 ∧ a.placed.tally (.container id) = 0 := by
  cases h with
  | upkeep h => cases h
  | writing h => cases h
  | nesting h => cases h
  | creation h =>
    cases h with
    | @container t s F C owner kind values u hv hm h =>
      have hfree : s.heap.count? (.container s.heap.nextId) = none :=
        congrArg (Option.map Container.refcount) (container?_nextId ha.balanced.containers)
      have hzero := ha.balanced.free_iff.mp hfree
      unfold Account.refs at hzero
      unfold Account.placed
      simp only [Refs.tally_add] at hzero ⊢
      exact ⟨le_rfl, by omega, by omega⟩
    | @retag s F C q id c tag hc hone =>
      have hcount := ha.balanced.count_eq (t := .container id)
        (congrArg (Option.map Container.refcount) hc)
      have hself : Refs.tally {Value.ofContainer c.kind id} (.container id) = 1 := by
        rw [Refs.tally_singleton]
        exact if_pos rfl
      unfold Account.refs at hcount
      unfold Account.placed
      simp only [Refs.tally_add] at hcount ⊢
      exact ⟨Multiset.le_add_left _ _, by omega, by omega⟩

end

/-! ## The planes below a level -/

/-- The planes below that of a level, without their censuses. -/
def Store.lower (s : Store) (level : Nat) : List Plane :=
  (s.planes.map Plane.bare).drop (s.level + 1 - level)

section

variable {e : Effect} {a b : Account} {s s' : Store} {level : Nat}

theorem Store.lower_congr (h : s'.planes.map Plane.bare = s.planes.map Plane.bare) :
    s'.lower level = s.lower level := by
  have hlevel : s'.level = s.level := by
    have hlen := congrArg List.length h
    rwa [List.length_map, List.length_map] at hlen
  unfold lower
  rw [h, hlevel]

/-- Below the innermost plane are all but that one. -/
theorem Store.lower_level {p : Plane} {rest : List Plane} (hp : s.planes = p :: rest) :
    s.lower s.level = rest.map Plane.bare := by
  unfold lower
  rw [hp, Nat.add_sub_cancel_left]
  rfl

theorem Store.lower_above (s : Store) : s.lower (s.level + 1) = s.planes.map Plane.bare := by
  unfold lower
  rw [Nat.sub_self]
  rfl

/-- A change of the innermost plane is none of a plane below. -/
theorem Store.lower_cons {p p' : Plane} {rest : List Plane} (hp : s.planes = p :: rest)
    (hp' : s'.planes = p' :: rest) (hle : level ≤ s.level) : s'.lower level = s.lower level := by
  unfold Store.level at hle
  unfold lower Store.level
  rw [hp, List.length_cons] at hle ⊢
  rw [hp', List.length_cons]
  rw [show rest.length + 1 + 1 - level = (rest.length + 1 - level) + 1 by omega]
  rfl

theorem Store.lower_withPlane (f : Plane → Plane) (hle : level ≤ s.level) :
    (s.withPlane f).lower level = s.lower level := by
  cases hp : s.planes with
  | nil =>
    refine lower_congr ?_
    unfold withPlane
    simp only [hp]
  | cons p rest => exact lower_cons hp (planes_withPlane hp f) hle

theorem Store.lower_withPlane_of_bare {f : Plane → Plane} (hf : ∀ p, (f p).bare = p.bare) :
    (s.withPlane f).lower level = s.lower level :=
  lower_congr (planes_map_withPlane s hf)

theorem Store.Alike.lower (h : Alike s s') : s'.lower level = s.lower level :=
  lower_congr (congrArg _ h.planes)

theorem Store.Recorded.lower {call : CallRef} {patch : CallPatch} {out : List Value}
    (h : Recorded call patch s out s') (hle : level ≤ s.level) :
    s'.lower level = s.lower level := by
  rcases h.planes_cases with ⟨hp, hp'⟩ | ⟨p, rest, p', hp, hp', -⟩
  · exact lower_congr (by rw [hp, hp'])
  · exact lower_cons hp hp' hle

theorem Account.Reaches.le_level {F : Refs} {C : Charges} (h : Reaches ⟨s, F, C, none⟩ level) :
    level ≤ s.level := h.le

theorem Account.Reaches.le_level_of_folds {F : Refs} {C : Charges} {cl : Closing}
    (h : Reaches ⟨s, F, C, some cl⟩ level) (hf : cl.folds = true) : level ≤ s.level :=
  Nat.le_of_lt_succ (h.lt hf)

theorem Writing.lower (h : Writing e a b) (hr : a.Reaches level) :
    b.store.lower level = a.store.lower level := by
  cases h with
  | write => rfl
  | @firstWrite t s F C ref v old p rest u hold hv hp hnew h =>
    have hal := alike_dropImport h
    have hle : level ≤ t.level := by
      unfold Store.level
      rw [hal.planes]
      exact hr.le_level
    exact (lower_withPlane _ hle).trans hal.lower
  | addCall hd hv h => exact h.lower hr.le_level
  | @removeCall t s' s F C call old out u hold h₁ h₂ =>
    have hal := alike_dropImport h₁
    refine (h₂.lower ?_).trans hal.lower
    unfold Store.level
    rw [hal.planes]
    exact hr.le_level
  | @replaceCall t s' s F C call old new out u hold hv h₁ h₂ =>
    have hal := alike_dropImport h₁
    refine (h₂.lower ?_).trans hal.lower
    unfold Store.level
    rw [hal.planes]
    exact hr.le_level

/-- What spares a level leaves the planes below it alone. -/
theorem Nesting.lower (h : Nesting e a b) (hr : a.Reaches level) (he : e.Spares level) :
    b.store.lower level = a.store.lower level := by
  cases h with
  | backUp hc he hm hh hp hnew =>
    exact lower_withPlane (s := Store.withContainer _ _ _) _ hr.le_level
  | @enter s F C hroom =>
    have hle : level ≤ s.planes.length := hr.le_level
    show (Plane.bare {} :: s.planes.map Plane.bare).drop (s.planes.length + 1 + 1 - level) =
      (s.planes.map Plane.bare).drop (s.planes.length + 1 - level)
    rw [show s.planes.length + 1 + 1 - level = (s.planes.length + 1 - level) + 1 by omega]
    rfl
  | @pop s F C p rest folds hp =>
    have hle : level ≤ s.planes.length := hr.le_level
    show (rest.map Plane.bare).drop (rest.length + 1 - level) =
      (s.planes.map Plane.bare).drop (s.planes.length + 1 - level)
    rw [hp, List.length_cons] at hle ⊢
    rw [show rest.length + 1 + 1 - level = (rest.length + 1 - level) + 1 by omega]
    rfl
  | refile hl hf | resave hl hf => exact lower_withPlane _ (hr.le_level_of_folds hf)
  | settle => exact lower_withPlane_of_bare (s := Store.withContainer _ _ _) (by exact fun _ => rfl)
  | forget | skip | unsave | unwindAdded | finish => rfl
  | record hl hf h => exact h.lower (hr.le_level_of_folds hf)
  | restore hl hf hc he h => exact (alike_addImports h).lower
  | restoreVariable hl hf h | unwindRemoved hl hf hd h | unwindReplaced hl hf hcur h =>
    exact (alike_addImport h).lower

/--
What the planes below a level remember does not change while the plane of that level is there.
-/
theorem Step.lower (h : Step e a b) (ha : a.Accounted) (hr : a.Reaches level)
    (he : e.Spares level) :
    b.store.lower level = a.store.lower level := by
  cases h with
  | traffic h => exact lower_congr (h.wanes ha.stored).planes
  | upkeep h => cases h <;> rfl
  | change h => cases h <;> rfl
  | writing h => exact h.lower hr
  | nesting h => exact h.lower hr he
  | transfer h =>
    obtain ⟨c, -, hal⟩ := h.alike
    exact hal.lower
  | creation h =>
    cases h with
    | @container t s F C owner kind values u hv hm h =>
      exact (lower_withPlane_of_bare (by exact fun _ => rfl)).trans
        (alike_link_new ha.balanced.containers rfl h).lower
    | retag | string | dataspace | spawn | destroy => rfl

/-- On a path that spares a level, the planes below it stay as they are. -/
theorem Path.lower {E : Effect → Prop} (h : Path E a b) (ha : a.Kept)
    (hE : ∀ e, E e → e.Spares level) (hr : a.Reaches level) :
    b.store.lower level = a.store.lower level := by
  induction h with
  | refl => rfl
  | tail h he hs ih =>
    exact (hs.lower (h.kept ha).accounted (h.reaches ha hE hr) (hE _ he)).trans ih

end

/-! ## The shapes of dataspaces -/

/-- The number of variables of a dataspace, if it is there. -/
def Store.width? (s : Store) (ds : DataspaceId) : Option Nat := (s.dataspace? ds).map (·.vars.size)

section

variable {e : Effect} {a b : Account} {s s' : Store} {ds : DataspaceId}

/-- How many variables a dataspace has is in its bare record. -/
theorem Store.width?_of_bare
    (h : (s'.dataspace? ds).map Dataspace.bare = (s.dataspace? ds).map Dataspace.bare) :
    s'.width? ds = s.width? ds := by
  have hw := congrArg (Option.map fun d : Dataspace => d.vars.size) h
  rw [Option.map_map, Option.map_map] at hw
  exact hw

theorem Store.width?_withDataspace {other : DataspaceId} {f : Dataspace → Dataspace}
    (hf : ∀ d, (f d).vars.size = d.vars.size) : (s.withDataspace other f).width? ds = s.width? ds :=
  map_dataspace?_withDataspace hf ds

theorem Store.width?_withVariable (ref : VariableRef) (v : Value) :
    (s.withVariable ref v).width? ds = s.width? ds :=
  width?_withDataspace fun _ => Array.size_setIfInBounds

theorem Store.width?_withCallouts (other : DataspaceId)
    (f : Std.TreeMap CallHandle DeferredCall → Std.TreeMap CallHandle DeferredCall) :
    (s.withCallouts other f).width? ds = s.width? ds :=
  width?_withDataspace fun _ => rfl

theorem Store.width?_of_eq (h : s'.dataspaces = s.dataspaces) : s'.width? ds = s.width? ds := by
  unfold width? dataspace?
  rw [h]

theorem Store.width?_withPlane (f : Plane → Plane) : (s.withPlane f).width? ds = s.width? ds :=
  width?_of_eq (withPlane_fields s f).2.2.1

theorem Store.Alike.width? (h : Alike s s') : s'.width? ds = s.width? ds :=
  width?_of_bare (h.dataspace ds)

/-- No dataspace comes to be by accident, and none changes its number of variables. -/
theorem Step.width? (h : Step e a b) (ha : a.Accounted) (he : e ≠ .add) :
    b.store.width? ds = a.store.width? ds := by
  cases h with
  | traffic h => exact width?_of_bare ((h.wanes ha.stored).dataspace ds)
  | upkeep h => cases h <;> rfl
  | change h => cases h <;> rfl
  | transfer h =>
    obtain ⟨c, -, hal⟩ := h.alike
    exact hal.width?
  | creation h =>
    cases h with
    | container hv hm h =>
      exact (width?_withPlane _).trans (alike_link_new ha.balanced.containers rfl h).width?
    | string | dataspace => exact absurd rfl he
    | retag | spawn | destroy => rfl
  | writing h =>
    cases h with
    | write => exact width?_withVariable _ _
    | firstWrite hold hv hp hnew h =>
      exact (width?_withPlane _).trans ((alike_dropImport h).width?.trans (width?_withVariable _ _))
    | addCall hd hv h =>
      refine (width?_of_eq h.fields.2.2.1).trans ((width?_withCallouts _ _).trans ?_)
      exact width?_withDataspace fun _ => rfl
    | removeCall hold h₁ h₂ | replaceCall hold hv h₁ h₂ =>
      exact (width?_of_eq h₂.fields.2.2.1).trans
        ((alike_dropImport h₁).width?.trans (width?_withCallouts _ _))
  | nesting h =>
    cases h with
    | backUp | settle | refile | resave => exact width?_withPlane _
    | enter | pop | forget | skip | unsave | finish => rfl
    | record hl hf h => exact width?_of_eq h.fields.2.2.1
    | restore hl hf hc he h => exact (alike_addImports h).width?
    | restoreVariable hl hf h => exact (width?_withVariable _ _).trans (alike_addImport h).width?
    | unwindAdded => exact width?_withCallouts _ _
    | unwindRemoved hl hf hd h | unwindReplaced hl hf hcur h =>
      exact (alike_addImport h).width?.trans (width?_withCallouts _ _)

/-- No dataspace gets more variables, and none is made without saying so. -/
theorem Path.width? {E : Effect → Prop} (h : Path E a b) (ha : a.Kept) (hE : ¬E .add) :
    b.store.width? ds = a.store.width? ds := by
  induction h with
  | refl => rfl
  | tail h he hs ih =>
    exact (hs.width? (h.kept ha).accounted (by rintro rfl; exact hE he)).trans ih

/-- No text comes to be by accident either. -/
theorem Path.string {E : Effect → Prop} (h : Path E a b) (ha : a.Kept) (hE : ¬E .add) {i : Nat}
    {x' : StringEntry} (hx' : b.store.heap.strings.get? i = some x') :
    ∃ x, a.store.heap.strings.get? i = some x ∧ x'.text = x.text := by
  induction h generalizing x' with
  | refl => exact ⟨x', hx', rfl⟩
  | tail h he hs ih =>
    rcases hs.string (h.kept ha).accounted hx' with ⟨rfl, -⟩ | ⟨y, hy, ht⟩
    · exact absurd he hE
    · obtain ⟨x, hx, ht'⟩ := ih hy
      exact ⟨x, hx, ht.trans ht'⟩

end

/-! ## Containers that hold what they held -/

theorem Container.coe_content (swap : Swap) (c : Container) :
    (↑(c.content swap).held : Refs) = c.held swap := by
  unfold Content.held content Container.held overlayValues
  cases c.overlay <;> rfl

/-- A container that is what it was and holds what it held, with nothing pending but new keys. -/
structure Content.Intact (s s' : Store) (x y : Content) : Prop where
  label : y.label = x.label
  held : (↑y.held : Refs) = ↑x.held
  added : ∀ o ∈ y.overlay, ∀ e ∈ o.toList, e.added = true
  subject : ∀ v ∈ y.held, s'.subject v = s.subject v

namespace Content

variable {s s' s'' : Store} {x y y' : Content} {v : Value}

theorem coe_held (x : Content) :
    (↑x.held : Refs) = ↑x.buffer.toList + (x.overlay.map Overlay.held).getD 0 := by
  unfold held
  rw [← Multiset.coe_add]
  cases x.overlay with
  | none => rfl
  | some o => exact congrArg _ o.coe_values

namespace Intact

protected theorem refl (s : Store) (h : ∀ o ∈ x.overlay, ∀ e ∈ o.toList, e.added = true) :
    x.Intact s s x := ⟨rfl, rfl, h, fun _ _ => rfl⟩

theorem home (h : x.Intact s s' y) : y.home = x.home :=
  congrArg (fun l : Kind × Nat × DataspaceId × Nat => l.2.2.2) h.label

theorem mem_held (h : x.Intact s s' y) : v ∈ y.held ↔ v ∈ x.held := by
  rw [← Multiset.mem_coe, h.held, Multiset.mem_coe]

theorem of_stands (h : x.Intact s s' y) (hv : ∀ v ∈ y.held, Stands s' s'' v) : x.Intact s s'' y :=
  ⟨h.label, h.held, h.added, fun v hmem => (hv v hmem).subject.trans (h.subject v hmem)⟩

/-- It is so after a step that tends to it, if nothing that it holds is lost. -/
theorem tended {a : Account} {e : Effect} {id : ContainerId} (h : x.Intact s a.store y)
    (hbec : Becomes a id e y y') (he : e.Rests) (howner : y'.owner = y.owner)
    (hhome : y'.home = y.home) (halive : ∀ v ∈ y.held, a.store.lost v = false) (hw : y.Whole) :
    x.Intact s a.store y' := by
  -- All that matters is that label and references stay; an overlay may go but not come.
  suffices hsame : y'.kind = y.kind ∧ y'.tag = y.tag ∧ (↑y'.held : Refs) = ↑y.held ∧
      (y'.overlay = y.overlay ∨ y'.overlay = none) by
    obtain ⟨hkind, htag, hheld, hoverlay⟩ := hsame
    refine ⟨?_, hheld.trans h.held, fun o ho => ?_, fun v hv => h.subject v ?_⟩
    · rw [← h.label]
      unfold Content.label
      rw [hkind, htag, howner, hhome]
    · rcases hoverlay with hsame | hnone
      · exact h.added o (hsame ▸ ho)
      · rw [hnone] at ho
        cases ho
    · rwa [← Multiset.mem_coe, hheld, Multiset.mem_coe] at hv
  cases hbec with
  | backUp | settle | transfer => exact ⟨rfl, rfl, rfl, .inl rfl⟩
  | @scrub _ seen hk hseen =>
    have hsame : y.buffer.toList = seen := by
      refine List.forall₂_eq_eq_eq ▸ ((List.forall₂_and_left _ _).mpr ⟨fun v hv =>
        halive v (mem_held_of_buffer (Array.mem_toList_iff.mp hv)), hseen⟩).imp fun v w hvw => ?_
      rw [scrubbed_eq hvw.2, seen_of_kept hvw.1]
    rw [← hsame, Array.toArray_toList]
    exact ⟨rfl, rfl, rfl, .inl rfl⟩
  | absorb ho hm =>
    -- An overlay that only adds keys replaces nothing, so its merge drops nothing.
    have hreleased := Mapping.released_merged hm (h.added _ ho)
    obtain ⟨hheld, -⟩ := Mapping.held_merged hm (hw.even (hw.overlay ho).1)
    rw [hreleased, Multiset.coe_nil, add_zero] at hheld
    refine ⟨rfl, rfl, ?_, .inr rfl⟩
    rw [coe_held, coe_held, ho]
    exact (add_zero _).trans hheld
  | compact hk ho hlive =>
    have hall := Pair.kept_of_all hlive fun p hp hdead => by
      obtain ⟨hkey, hvalue⟩ := mem_held_of_pair hp
      rcases hdead with hdead | hdead
      · exact Bool.false_ne_true ((halive _ hkey).symm.trans hdead.lost_eq)
      · exact Bool.false_ne_true ((halive _ hvalue).symm.trans hdead.lost_eq)
    rw [hall, show Pair.toBuffer y.pairs = y.buffer from Pair.toBuffer_ofBuffer (hw.even hk)]
    exact ⟨rfl, rfl, rfl, .inl rfl⟩
  | overwrite | overwriteValue | overwritePending | park | unpark | deletePair | restore | retag =>
    exact he.elim

end Intact

end Content

/-! ## What is referred to still -/

section

variable {a : Account} {s : Store} {v : Value} {level : Nat}

/-- Where the references of a store are. -/
theorem Store.refs_cases (hv : v ∈ s.refs) :
    (∃ id x, s.content? id = some x ∧ v ∈ x.held) ∨ (∃ ref, s.variableAt? ref = some v) ∨
      (∃ call c, s.call? call = some c ∧ c.payload = v) ∨ ∃ p ∈ s.planes, v ∈ p.held := by
  rcases Multiset.mem_add.mp hv with hv | hv
  · rcases Multiset.mem_add.mp hv with hv | hv
    · obtain ⟨R, hR, hv⟩ := Refs.mem_sum.mp hv
      obtain ⟨c, hc, rfl⟩ := List.mem_map.mp hR
      obtain ⟨i, hi⟩ := Slab.mem_toList.mp hc
      have hget : s.container? ⟨i⟩ = some c := hi
      refine .inl ⟨⟨i⟩, _, content?_of_container hget, ?_⟩
      rwa [← Multiset.mem_coe, c.coe_content]
    · obtain ⟨R, hR, hv⟩ := Refs.mem_sum.mp hv
      obtain ⟨d, hd, rfl⟩ := List.mem_map.mp hR
      obtain ⟨i, hi⟩ := List.mem_iff_getElem?.mp hd
      have hget : s.dataspace? ⟨i⟩ = some d := by
        rw [← hi]
        exact Array.getElem?_toList.symm
      rcases Multiset.mem_add.mp hv with hv | hv
      · obtain ⟨j, hj⟩ := List.mem_iff_getElem?.mp (Multiset.mem_coe.mp hv)
        refine .inr (.inl ⟨⟨⟨i⟩, j⟩, Option.bind_eq_some_iff.mpr ⟨d, hget, ?_⟩⟩)
        rw [← hj]
        exact Array.getElem?_toList.symm
      · obtain ⟨R, hR, hv⟩ := Refs.mem_sum.mp hv
        obtain ⟨⟨handle, c⟩, hc, rfl⟩ := List.mem_map.mp hR
        refine .inr (.inr (.inl ⟨⟨⟨i⟩, handle⟩, c, ?_, (Multiset.mem_singleton.mp hv).symm⟩))
        exact Option.bind_eq_some_iff.mpr
          ⟨d, hget, Std.TreeMap.mem_toList_iff_getElem?_eq_some.mp hc⟩
  · obtain ⟨R, hR, hv⟩ := Refs.mem_sum.mp hv
    obtain ⟨p, hp, rfl⟩ := List.mem_map.mp hR
    exact .inr (.inr (.inr ⟨p, hp, hv⟩))

namespace Account

theorem mem_placed_of_plane {p : Plane} (hp : p ∈ a.store.planes) (hv : v ∈ p.held) :
    v ∈ a.placed :=
  Multiset.mem_add.mpr (.inl (Multiset.mem_add.mpr (.inl (Multiset.mem_add.mpr (.inr
    (Refs.mem_sum.mpr ⟨_, List.mem_map_of_mem hp, hv⟩))))))

theorem mem_placed_of_closing {cl : Closing} (hq : a.closing = some cl) (hv : v ∈ cl.held) :
    v ∈ a.placed := by
  refine Multiset.mem_add.mpr (.inr ?_)
  unfold closingRefs
  rw [hq]
  exact hv

theorem mem_placed_of_store (hv : v ∈ a.store.refs) : v ∈ a.placed :=
  Multiset.mem_add.mpr (.inl (Multiset.mem_add.mpr (.inl hv)))

/-- What planes saved of a variable is in its place. -/
theorem mem_placed_of_saves {ref : VariableRef} (h : some v ∈ a.saves ref) : v ∈ a.placed := by
  unfold saves at h
  rcases List.mem_append.mp h with h | h
  · cases hq : a.closing with
    | none =>
      rw [hq] at h
      cases h
    | some cl =>
      rw [hq] at h
      obtain ⟨l₁, l₂, hl, -⟩ := List.lookup_eq_some_iff.mp (List.mem_singleton.mp h).symm
      refine mem_placed_of_closing hq (Multiset.mem_add.mpr (.inl (Multiset.mem_add.mpr (.inr ?_))))
      exact Refs.mem_sum.mpr
        ⟨_, List.mem_map_of_mem (hl ▸ List.mem_append_right l₁ List.mem_cons_self),
        Multiset.mem_singleton_self v⟩
  · obtain ⟨p, hp, hget⟩ := List.mem_map.mp h
    refine mem_placed_of_plane hp (Multiset.mem_add.mpr (.inl (Multiset.mem_add.mpr (.inr ?_))))
    exact Refs.mem_sum.mpr ⟨_, List.mem_map_of_mem
      (Std.TreeMap.mem_toList_iff_getElem?_eq_some.mpr hget), Multiset.mem_singleton_self v⟩

/-- What a patch holds is in its place. -/
theorem mem_placed_of_patches {call : CallRef} {patch : CallPatch} (h : some patch ∈ a.patches call)
    (hv : v ∈ patch.held) : v ∈ a.placed := by
  unfold patches at h
  rcases List.mem_append.mp h with h | h
  · cases hq : a.closing with
    | none =>
      rw [hq] at h
      cases h
    | some cl =>
      rw [hq] at h
      obtain ⟨l₁, l₂, hl, -⟩ := List.lookup_eq_some_iff.mp (List.mem_singleton.mp h).symm
      refine mem_placed_of_closing hq (Multiset.mem_add.mpr (.inr ?_))
      exact Refs.mem_sum.mpr
        ⟨_, List.mem_map_of_mem (hl ▸ List.mem_append_right l₁ List.mem_cons_self), hv⟩
  · obtain ⟨p, hp, hget⟩ := List.mem_map.mp h
    refine mem_placed_of_plane hp (Multiset.mem_add.mpr (.inr ?_))
    exact Refs.mem_sum.mpr ⟨_, List.mem_map_of_mem
      (Std.TreeMap.mem_toList_iff_getElem?_eq_some.mpr hget), hv⟩

theorem mem_placed_of_variableAt {ref : VariableRef} (h : a.variableAt level ref = some v) :
    v ∈ a.placed := by
  unfold variableAt at h
  rcases rewindTo_cases level (a.saves ref) with ⟨w, hw, hat⟩ | hat
  · rw [hat] at h
    obtain rfl := Option.some.inj h
    exact mem_placed_of_saves hw
  · rw [hat] at h
    exact mem_placed_of_store (mem_refs_of_variable h)

/-- What a level would restore as a call is placed. -/
theorem mem_placed_of_callAt {call : CallRef} {c : DeferredCall}
    (h : a.callAt level call = some c) : c.payload ∈ a.placed := by
  unfold callAt at h
  rcases rewindTo_cases level (a.patches call) with ⟨patch, hpatch, hat⟩ | hat
  · rw [hat] at h
    refine mem_placed_of_patches hpatch ?_
    rw [CallPatch.held_eq_payloads]
    unfold CallPatch.payloads
    rw [h]
    exact Multiset.mem_coe.mpr (List.mem_singleton_self _)
  · rw [hat] at h
    exact mem_placed_of_store (mem_refs_of_call h)

/-- What a level would restore to a container is placed. -/
theorem mem_placed_of_contentAt {id : ContainerId} {x : Content} (hx : a.store.content? id = some x)
    (hv : v ∈ (a.contentAt level id x).held) : v ∈ a.placed := by
  unfold contentAt at hv
  rcases a.contentAt_cases level id with ⟨y, hy, -, hat⟩ | hat
  · rw [hat] at hv
    rcases Content.mem_held.mp hv with hmem | ⟨o, i, d, ho, -⟩
    · exact mem_placed_of_backup hy (Backup.mem_held hmem)
    · cases ho
  · rw [hat] at hv
    exact mem_placed_of_content hx hv

end Account

end

/-! ## Regions in which nothing is destroyed -/

/--
What there was when the plane of a level was entered would come back if it were thrown away, and the
planes below remember what they remembered.
-/
structure Account.Preserves (s : Store) (level : Nat) (a : Account) : Prop where
  content : ∀ {id x₀}, s.content? id = some x₀ →
    ∃ x, a.store.content? id = some x ∧ x₀.Intact s a.store (a.contentAt level id x)
  var : ∀ {ref v}, s.variableAt? ref = some v → a.variableAt level ref = some v
  call : ∀ call, a.callAt level call = s.call? call
  lower : a.store.lower level = s.lower level

section

variable {e : Effect} {s : Store} {G : Refs} {rest : List Plane} {a b : Account}
  {id : ContainerId} {v : Value}

theorem Plane.held_of_bare {p p' : Plane} (h : p'.bare = p.bare) : p'.held = p.held :=
  show p'.bare.held = p.bare.held from congrArg Plane.held h

/-- Everything that was referred to is referred to still. -/
theorem Account.Preserves.placed (h : b.Preserves s s.level) (hp : s.planes = {} :: rest)
    (hv : v ∈ s.refs) : v ∈ b.placed := by
  rcases refs_cases hv with ⟨id, x₀, hx₀, hv⟩ | ⟨ref, hv⟩ | ⟨call, c, hc, rfl⟩ | ⟨p, hmem, hv⟩
  · obtain ⟨x, hx, hintact⟩ := h.content hx₀
    exact mem_placed_of_contentAt hx (hintact.mem_held.mpr hv)
  · exact mem_placed_of_variableAt (h.var hv)
  · exact mem_placed_of_callAt ((h.call call).trans hc)
  · rw [hp] at hmem
    rcases List.mem_cons.mp hmem with rfl | hmem
    · simp [Plane.held] at hv
    · have hbare : p.bare ∈ b.store.lower s.level := by
        rw [h.lower, Store.lower_level hp]
        exact List.mem_map_of_mem hmem
      obtain ⟨p', hp', hsame⟩ := List.mem_map.mp (List.mem_of_mem_drop hbare)
      exact mem_placed_of_plane hp' (Plane.held_of_bare hsame ▸ hv)

/-- What comes to be is not what the other references are to. -/
theorem Step.container_of_live (h : Step e a b) (ha : a.Accounted)
    (hnew : ∀ F, e = .create id F → G ≤ F)
    (hv : v ∈ G) (ht : v.target? = some (.container id))
    (hlive : ∃ c, b.store.container? id = some c) : ∃ c, a.store.container? id = some c := by
  obtain ⟨c', hc'⟩ := hlive
  rcases h.container ha hc' with ⟨⟨F, rfl⟩, -⟩ | ⟨c, hc, -⟩
  · obtain ⟨hF, hzero, -⟩ := h.first_reference ha
    exact absurd ht (Refs.tally_eq_zero.mp hzero v (Multiset.mem_of_le (hnew F rfl) hv))
  · exact ⟨c, hc⟩

/-- An object that is alive in the end was alive all the time. -/
theorem Objects.alive_between {o o' o'' : Objects} (h : o.Precedes o') (h' : o'.Precedes o'')
    (halive : ∀ obj, o.isDestroyed obj = false → o''.isDestroyed obj = false) :
    ∀ obj, o.isDestroyed obj = false → o'.isDestroyed obj = false := by
  intro obj hobj
  refine Bool.eq_false_of_not_eq_true fun hd => ?_
  have hout := h'.outlived ((h.knows (knows_of_alive hobj)).outlived hd)
  exact Bool.false_ne_true ((halive obj hobj).symm.trans hout.destroyed)

/-- Of what is intact nothing is lost, as long as no object goes. -/
theorem Content.Intact.alive {x y : Content} {s' : Store} (h : x.Intact s s' y)
    (halive : ∀ v ∈ x.held, s.lost v = false)
    (hobj : ∀ obj, s.objects.isDestroyed obj = false → s'.objects.isDestroyed obj = false) :
    ∀ v ∈ y.held, s'.lost v = false := by
  intro v hv
  have hbefore := halive v (h.mem_held.mp hv)
  rw [lost_eq_subject] at hbefore ⊢
  rw [h.subject v hv]
  cases hsubject : s.subject v with
  | none => rfl
  | some obj =>
    rw [hsubject] at hbefore
    exact hobj obj hbefore

/-- What there was is intact after a step, or it goes with the step. -/
theorem Account.Preserves.step (h : a.Preserves s s.level) (hs : Step e a b) (ha : a.Kept)
    (hr : a.Reaches s.level) (hcreate : ∀ F, e ≠ .create id F) {x₀ : Content}
    (hx₀ : s.content? id = some x₀) (hhome : x₀.home < s.level)
    (halive : ∀ v ∈ x₀.held, s.lost v = false)
    (hobj : ∀ obj, s.objects.isDestroyed obj = false → a.store.objects.isDestroyed obj = false)
    (hlive : b.store.container? id ≠ none) :
    ∃ x', b.store.content? id = some x' ∧ x₀.Intact s b.store (b.contentAt s.level id x') := by
  obtain ⟨c', hc'⟩ := Option.ne_none_iff_exists'.mp hlive
  have hx' := content?_of_container hc'
  obtain ⟨x, hx, hintact⟩ := h.content hx₀
  obtain ⟨y, hy, hturned⟩ := hs.turned ha (Nat.lt_of_lt_of_le hr.pos hr.le) hcreate hx'
  obtain rfl := Option.some.inj (hx.symm.trans hy)
  refine ⟨_, hx', Content.Intact.of_stands ?_ (hs.stands_contentAt ha hx' s.level)⟩
  rcases hturned.contentAt_cases ha hr hcreate (by rw [hintact.home]; exact hhome) with
    hsame | ⟨hnow, hnow', hbec, hrests, howner, hhome'⟩
  · rwa [hsame]
  · rw [hnow] at hintact
    rw [hnow']
    exact hintact.tended hbec hrests howner hhome' (hintact.alive halive hobj)
      (Content.whole ha.accounted hx)

end

section

variable {E : Effect → Prop} {s : Store} {G : Refs} {rest : List Plane} {b : Account}

/--
In a region in which nothing is destroyed, nothing of what there was when it was entered is lost as
long as the references in flight at that time are in flight at the end.
-/
theorem Path.preserves (h : Path E ⟨s, G, 0, none⟩ b) (ha : Account.Kept ⟨s, G, 0, none⟩)
    (hp : s.planes = {} :: rest) (hE : ∀ e, E e → e.Spares s.level)
    (hnew : ∀ id F, E (.create id F) → G ≤ F)
    (hclean : ∀ {id x}, s.content? id = some x → ∀ o ∈ x.overlay, ∀ e ∈ o.toList, e.added = true)
    (halive : ∀ {id x}, s.content? id = some x → ∀ v ∈ x.held, s.lost v = false)
    (hhome : ∀ {id x}, s.content? id = some x → x.home < s.level)
    (hobj : ∀ obj, s.objects.isDestroyed obj = false → b.store.objects.isDestroyed obj = false)
    (hG : ∀ v ∈ G, ∀ id, v.target? = some (.container id) → ∃ c, b.store.container? id = some c) :
    b.Preserves s s.level := by
  have hpos : 0 < s.level := by
    unfold Store.level
    rw [hp]
    exact Nat.succ_pos _
  have hr : Account.Reaches ⟨s, G, 0, none⟩ s.level := ⟨hpos, le_rfl, nofun⟩
  refine ⟨?_, fun hv => ?_, fun call => ?_, h.lower ha hE hr⟩
  · induction h with
    | refl =>
      intro id x₀ hx₀
      refine ⟨x₀, hx₀, ?_⟩
      rw [Account.contentAt_entered hp]
      exact .refl s (hclean hx₀)
    | @tail a b e h he hs ih =>
      have hkept := h.kept ha
      have hreach := h.reaches ha hE hr
      have hobj' := Objects.alive_between (h.precedes ha) (hs.precedes hkept.accounted) hobj
      have hbefore : Account.Preserves s s.level a :=
        { content := ih hobj' fun v hv id ht =>
            hs.container_of_live hkept.accounted (fun F hF => hnew id F (hF ▸ he)) hv ht
              (hG v hv id ht)
          var := fun hv => ((h.variableAt ha hE hr hv).1.trans
            (Account.variableAt_entered hp _)).trans hv
          call := fun call => (h.callAt ha hE hr call).trans (Account.callAt_entered hp call)
          lower := h.lower ha hE hr }
      intro id x₀ hx₀
      obtain ⟨c₀, hc₀, rfl⟩ := content?_eq_some.mp hx₀
      obtain ⟨v, hv, ht⟩ := ha.accounted.balanced.exists_mem (t := .container id)
        (congrArg (Option.map Container.refcount) hc₀)
      rw [Account.refs_between] at hv
      obtain ⟨x, hx, -⟩ := hbefore.content hx₀
      obtain ⟨c, hc, -⟩ := content?_eq_some.mp hx
      refine hbefore.step hs hkept hreach ?_ hx₀ (hhome hx₀) (halive hx₀) hobj' fun hgone => ?_
      · rintro F rfl
        obtain ⟨hF, hzero, hplaced⟩ := hs.first_reference hkept.accounted
        rcases Multiset.mem_add.mp hv with hv | hv
        · exact Refs.tally_eq_zero.mp hplaced v (hbefore.placed hp hv) ht
        · exact Refs.tally_eq_zero.mp hzero v (Multiset.mem_of_le (hnew id F he) hv) ht
      · obtain ⟨-, hplaced⟩ := hs.last_reference hkept.accounted hc hgone
        rcases Multiset.mem_add.mp hv with hv | hv
        · exact Refs.tally_eq_zero.mp hplaced v (hbefore.placed hp hv) ht
        · obtain ⟨c', hc'⟩ := hG v hv id ht
          cases hgone.symm.trans hc'
  · exact ((h.variableAt ha hE hr hv).1.trans (Account.variableAt_entered hp _)).trans hv
  · exact (h.callAt ha hE hr call).trans (Account.callAt_entered hp call)

end

end PlaneStore
