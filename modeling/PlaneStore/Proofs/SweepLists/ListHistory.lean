import PlaneStore.Proofs.References.ReleaseCascade

/-!
# Sweep lists over time

A sweep list gets longer at its head only, where a container is put that comes into being or changes
hands, and it loses containers anywhere. Those that stay on it stay in the order they were in,
however many come and go meanwhile; and a dataspace counts as many as there are.
-/

namespace PlaneStore

open Store

/-! ## Lists of which some are gone, with others in front -/

/-- Of a list of containers some are gone, and some new ones were put in front. -/
def Relisted (New : ContainerId → Prop) (ids ids' : List ContainerId) : Prop :=
  ∃ front rest, ids' = front ++ rest ∧ rest.Sublist ids ∧ ∀ id ∈ front, New id

namespace Relisted

variable {New New' : ContainerId → Prop} {ids ids' ids'' : List ContainerId} {id : ContainerId}

/-- A list from which some were taken off. -/
theorem of_sublist (h : ids'.Sublist ids) : Relisted New ids ids' := ⟨[], ids', rfl, h, nofun⟩

protected theorem refl (ids : List ContainerId) : Relisted New ids ids := .of_sublist (.refl ids)

theorem cons (h : Relisted New ids ids') (hid : New id) : Relisted New ids (id :: ids') := by
  obtain ⟨front, rest, rfl, hrest, hfront⟩ := h
  exact ⟨id :: front, rest, rfl, hrest, List.forall_mem_cons.mpr ⟨hid, hfront⟩⟩

/-- Two histories of a list make one. -/
protected theorem trans (h : Relisted New ids ids') (h' : Relisted New ids' ids'') :
    Relisted New ids ids'' := by
  obtain ⟨front, rest, rfl, hrest, hfront⟩ := h
  obtain ⟨front', rest', rfl, hrest', hfront'⟩ := h'
  -- What is left of the list in between comes from its front, and then from the list before.
  obtain ⟨mid, last, rfl, hmid, hlast⟩ := List.sublist_append_iff.mp hrest'
  refine ⟨front' ++ mid, last, (List.append_assoc _ _ _).symm, hlast.trans hrest, ?_⟩
  intro id hid
  rcases List.mem_append.mp hid with hid | hid
  · exact hfront' id hid
  · exact hfront id (hmid.subset hid)

theorem mono (hNew : ∀ id, New id → New' id) (h : Relisted New ids ids') :
    Relisted New' ids ids' := by
  obtain ⟨front, rest, he, hrest, hfront⟩ := h
  exact ⟨front, rest, he, hrest, fun id hid => hNew id (hfront id hid)⟩

end Relisted

/-! ## Lists and what is counted of them -/

namespace Store

/-- The containers on the sweep list of a dataspace, which counts as many. -/
structure Sweeps (s : Store) (ds : DataspaceId) (ids : List ContainerId) : Prop where
  strand : ∃ first, s.head? ds = some first ∧ Strand s.links? first ids
  count : s.listed? ds = some ids.length

/-- What becomes of the sweep list of a dataspace. -/
structure Relists (New : ContainerId → Prop) (ds : DataspaceId) (s s' : Store) : Prop where
  /-- A list that there was is still there, with some gone and some in front. -/
  changes : ∀ {ids}, s.Sweeps ds ids → ∃ ids', s'.Sweeps ds ids' ∧ Relisted New ids ids'
  /-- A dataspace that comes into being has a list. -/
  starts : s.listed? ds = none → s'.listed? ds = none ∨ ∃ ids, s'.Sweeps ds ids

variable {s s' s'' t : Store} {ds : DataspaceId} {id : ContainerId} {ids ids' : List ContainerId}
  {New New' : ContainerId → Prop} {c : Container}

/-- A sweep list is a matter of sites. -/
theorem Sweeps.of_sites (h : s.Sweeps ds ids) (hs : s'.sites = s.sites) : s'.Sweeps ds ids := by
  obtain ⟨first, hfirst, hids⟩ := h.strand
  refine ⟨⟨first, (head?_of_sites hs ds).trans hfirst, hids.congr ?_⟩,
    (listed?_of_sites hs ds).trans h.count⟩
  intro x _
  rw [links?_of_sites hs]

theorem Sweeps.unique (h : s.Sweeps ds ids) (h' : s.Sweeps ds ids') : ids' = ids := by
  obtain ⟨first, hfirst, hids⟩ := h.strand
  obtain ⟨first', hfirst', hids'⟩ := h'.strand
  obtain rfl := Option.some.inj (hfirst.symm.trans hfirst')
  exact hids.unique hids'

theorem Sweeps.nodup (h : s.Sweeps ds ids) : ids.Nodup := by
  obtain ⟨first, -, hids⟩ := h.strand
  exact hids.nodup

/-- A sweep list has the containers of its dataspace. -/
theorem Sweeps.mem_iff (h : s.Sweeps ds ids) (hs : s.Listed) :
    id ∈ ids ↔ ∃ c, s.container? id = some c ∧ c.owner = ds := by
  obtain ⟨first, hfirst, hids⟩ := h.strand
  constructor
  · intro hid
    obtain ⟨l, hl, ho⟩ := Linked.owner_of_strand hs hfirst hids id hid
    obtain ⟨c, hc, rfl⟩ := Option.map_eq_some_iff.mp hl
    exact ⟨c, hc, ho⟩
  · rintro ⟨c, hc, ho⟩
    exact Linked.mem_of_strand hs hfirst hids (links?_of_container hc) ho

namespace Relists

theorem of_sites (hs : s'.sites = s.sites) : Relists New ds s s' where
  changes h := ⟨_, h.of_sites hs, .refl _⟩
  starts h := .inl ((listed?_of_sites hs ds).trans h)

protected theorem trans (h : Relists New ds s s') (h' : Relists New ds s' s'') :
    Relists New ds s s'' where
  changes hids := by
    obtain ⟨ids', hids', hr⟩ := h.changes hids
    obtain ⟨ids'', hids'', hr'⟩ := h'.changes hids'
    exact ⟨ids'', hids'', hr.trans hr'⟩
  starts hnone := by
    rcases h.starts hnone with hnone' | ⟨ids, hids⟩
    · exact h'.starts hnone'
    · obtain ⟨ids', hids', -⟩ := h'.changes hids
      exact .inr ⟨ids', hids'⟩

theorem mono (hNew : ∀ id, New id → New' id) (h : Relists New ds s s') :
    Relists New' ds s s' where
  changes hids := by
    obtain ⟨ids', hids', hr⟩ := h.changes hids
    exact ⟨ids', hids', hr.mono hNew⟩
  starts := h.starts

end Relists

/-- A list without one container is shorter by one if it was on it. -/
theorem length_filter_ne (hn : ids.Nodup) :
    (ids.filter (· ≠ id)).length = if id ∈ ids then ids.length - 1 else ids.length := by
  have herase : ids.erase id = ids.filter (· ≠ id) := by
    rw [hn.erase_eq_filter]
    refine List.filter_congr ?_
    intro x _
    simp [bne, beq_eq_decide]
  rw [← herase, List.length_erase]

/-- Taking a container off its list. -/
theorem Sweeps.remove {off : ContainerId → Option Links}
    {head : DataspaceId → Option (Option ContainerId)} {count : DataspaceId → Option Nat}
    (h : s.Sweeps ds ids) (hs : s.Listed) (hc : s.container? id = some c)
    (hother : ∀ other, id ≠ other → off other = (s.links? other).map (Linked.bypass c.links other))
    (hhead : ∀ x, head x =
      if x = c.owner ∧ c.prev = none then (s.head? x).map fun _ => c.next else s.head? x)
    (hcount : ∀ x, count x = if x = c.owner then (s.listed? x).map (· - 1) else s.listed? x) :
    (∃ first, head ds = some first ∧ Strand off first (ids.filter (· ≠ id))) ∧
      count ds = some (ids.filter (· ≠ id)).length := by
  have hl := links?_of_container hc
  obtain ⟨first, hfirst, hids⟩ := h.strand
  refine ⟨Linked.strand_remove hs hl hother hhead hfirst hids, ?_⟩
  have hmem : id ∈ ids ↔ ds = c.owner := by
    rw [h.mem_iff hs]
    constructor
    · rintro ⟨d, hd, rfl⟩
      rw [Option.some.inj (hc.symm.trans hd)]
    · rintro rfl
      exact ⟨c, hc, rfl⟩
  rw [length_filter_ne hids.nodup, hcount, h.count, if_congr hmem rfl rfl]
  split <;> rfl

/-- Putting a container in front of a list. -/
theorem Sweeps.insert {owner : DataspaceId} {links : ContainerId → Option Links}
    {head : DataspaceId → Option (Option ContainerId)} {count : DataspaceId → Option Nat}
    {first cursor : Option ContainerId} (hnew : links id = none)
    (hself : t.links? id = some ⟨owner, none, first⟩)
    (hother : ∀ other, id ≠ other →
      t.links? other = (links other).map (Linked.follow id first other))
    (hhead : ∀ x, t.head? x = if x = owner then some (some id) else head x)
    (hcount : ∀ x, t.listed? x = if x = owner then (count x).map (· + 1) else count x)
    (hfirst : head owner = some first) (hcursor : head ds = some cursor)
    (hids : Strand links cursor ids) (hn : count ds = some ids.length) :
    t.Sweeps ds (if ds = owner then id :: ids else ids) where
  strand := Linked.strand_insert hnew hself hother hhead hfirst hcursor hids
  count := by
    rw [hcount, hn]
    split <;> rfl

/-- What is vacated is taken off its list, and no list gets anything new. -/
theorem Vacated.relists (h : Vacated s id c t) (hs : s.Listed) (hc : s.container? id = some c) :
    Relists New ds s t where
  changes hids := by
    obtain ⟨hstrand, hcount⟩ := hids.remove hs hc h.links h.head h.count
    exact ⟨_, ⟨hstrand, hcount⟩, .of_sublist List.filter_sublist⟩
  starts hnone := by
    refine .inl ?_
    rw [h.count, hnone]
    split <;> rfl

/-- To drop a reference puts nothing on a list. -/
theorem Released.relists {v : Value} {children : List Value} (h : Released s v children s')
    (hs : s.Listed) : Relists New ds s s' := by
  cases h with
  | kept hsites => exact .of_sites hsites
  | freed hc hone ht h => exact (ht.relists hs hc).trans (.of_sites (sites_dropImports h))

/-- A new dataspace has an empty list. -/
theorem relists_founded (n : Nat) :
    Relists New ds s
      { s with dataspaces := s.dataspaces.push { vars := Array.replicate n .nil } } where
  changes := by
    intro ids hids
    obtain ⟨first, hfirst, hstrand⟩ := hids.strand
    obtain ⟨d, hd, -⟩ := Option.map_eq_some_iff.mp hfirst
    have hsame := (dataspace?_founded_of_some n hd).trans hd.symm
    refine ⟨ids, ⟨⟨first, ?_, hstrand⟩, ?_⟩, .refl ids⟩
    · exact (congrArg (Option.map Dataspace.head) hsame).trans hfirst
    · exact (congrArg (Option.map Dataspace.containers) hsame).trans hids.count
  starts := by
    intro hnone
    have hget := dataspace?_founded s n ds
    split at hget
    · refine .inr ⟨[], ⟨⟨none, ?_, .nil⟩, ?_⟩⟩
      · exact congrArg (Option.map Dataspace.head) hget
      · exact congrArg (Option.map Dataspace.containers) hget
    · exact .inl ((congrArg (Option.map Dataspace.containers) hget).trans hnone)

end Store

/-! ## Sweep lists and steps -/

/-- A step puts a container on the list of a dataspace: it comes into being, or changes hands. -/
def Effect.Lists (e : Effect) (s : Store) (ds : DataspaceId) (id : ContainerId) : Prop :=
  (∃ flight, e = .create id flight) ∨
    e = .transfer ds id ∧ ∃ c, s.container? id = some c ∧ c.owner ≠ ds

/-- A new container is put in front of the list of its owner. -/
theorem Creation.relists {e : Effect} {a b : Account} {ds : DataspaceId} (h : Creation e a b)
    (hs : a.store.heap.containers.Sound) (ha : a.store.Listed) :
    Relists (e.Lists a.store ds) ds a.store b.store := by
  cases h with
  | @container t s F C owner kind values u hv hm h =>
    refine .trans ?_ (.of_sites (sites_withPlane t _))
    have hcount := link_listed h
    have hnone : s.links? s.heap.nextId = none := congrArg (Option.map _) (Slab.get?_nextCell hs)
    obtain ⟨first, hfirst, hself, hother, hhead⟩ := link_first h ha hnone
      fun other hne => congrArg (Option.map _) (container?_withNew_of_ne hne)
    constructor
    · intro ids hids
      obtain ⟨cursor, hcursor, hstrand⟩ := hids.strand
      refine ⟨_, Sweeps.insert hnone hself hother hhead hcount hfirst hcursor hstrand
        hids.count, ?_⟩
      split
      · exact (Relisted.refl ids).cons (.inl ⟨F, rfl⟩)
      · exact .refl ids
    · intro hds
      refine .inl ?_
      rw [hcount]
      change (if ds = owner then (s.listed? ds).map _ else s.listed? ds) = none
      rw [hds]
      split <;> rfl
  | @retag s F C q id c tag hc hone => exact .of_sites (sites_withContainer hc rfl)
  | string | spawn | destroy => exact .of_sites rfl
  | dataspace n => exact relists_founded n

/-- What is transferred is put in front of the list of its new owner. -/
theorem Transfer.relists {x ds : DataspaceId} {id : ContainerId} {a b : Account}
    (h : Transfer x id a b) (ha : a.store.Listed) :
    Relists ((Effect.transfer x id).Lists a.store ds) ds a.store b.store := by
  cases h with
  | @mk s F c d values s₁ s₂ s₃ s₄ u u₃ u₁ u₂ hp hc he howner hd hall h₁ h₂ h₃ h₄ =>
    have hsites₁ := sites_dropImports h₁
    have hs₁ : s₁.Listed := ha.of_sites hsites₁
    obtain ⟨c₁, hc₁, -⟩ := (alike_dropImports h₁).exists_container hc
    obtain ⟨hlinks₂, hhead₂, -⟩ := unlink_links hc₁ h₂
    have hcount₂ := unlink_listed hc₁ h₂
    let off : ContainerId → Option Links := fun y => if id = y then none else s₂.links? y
    have hother : ∀ other, id ≠ other →
        off other = (s₁.links? other).map (Linked.bypass c₁.links other) := by
      intro other hne
      exact (if_neg hne).trans (hlinks₂ other hne)
    have hoff : Linked off s₂.head? :=
      Linked.remove hs₁ (links?_of_container hc₁) (if_pos rfl) hother hhead₂
    have hnone : off id = none := if_pos rfl
    obtain ⟨first, hfirst, hself, hfollow, hhead⟩ :=
      link_first h₃ hoff hnone fun other hne => (if_neg hne).symm
    have hcount := link_listed h₃
    have hlast : s₄.sites = s₃.sites :=
      (sites_addImports h₄).trans (sites_withDataspace fun _ => rfl)
    constructor
    · intro ids hids
      obtain ⟨⟨cursor, hcursor, hstrand⟩, hn⟩ :=
        (hids.of_sites hsites₁).remove hs₁ hc₁ hother hhead₂ hcount₂
      have hlisted : s₃.Sweeps ds
          (if ds = x then id :: ids.filter (· ≠ id) else ids.filter (· ≠ id)) :=
        Sweeps.insert hnone hself hfollow hhead hcount hfirst hcursor hstrand hn
      refine ⟨_, hlisted.of_sites hlast, ?_⟩
      have hrest : Relisted ((Effect.transfer x id).Lists s ds) ids (ids.filter (· ≠ id)) :=
        .of_sublist List.filter_sublist
      split
      · next hx =>
        subst hx
        exact hrest.cons (.inr ⟨rfl, c, hc, howner⟩)
      · exact hrest
    · intro hnone
      refine .inl ?_
      rw [listed?_of_sites hlast, hcount, hcount₂, listed?_of_sites hsites₁, hnone]
      split <;> split <;> rfl

/-- What a step does to sweep lists. -/
theorem Step.relists {e : Effect} {a b : Account} {ds : DataspaceId} (h : Step e a b)
    (ha : a.Kept) : Relists (e.Lists a.store ds) ds a.store b.store := by
  cases h with
  | traffic h =>
    cases h with
    | retain hv h => exact .of_sites (retain_eq_ok h).sites
    | drop h => exact (dropReference_released h).relists ha.listed
    | charge h => exact .of_sites (sites_addImport h)
    | discharge h => exact .of_sites (sites_dropImport h)
  | upkeep h => exact .of_sites (h.trade ha.accounted).sites
  | change h => exact .of_sites (h.trade ha.accounted).sites
  | creation h => exact h.relists ha.accounted.balanced.containers ha.listed
  | writing h => exact .of_sites h.sites
  | nesting h => exact .of_sites h.sites
  | transfer h => exact h.relists ha.listed

/-- Who owns a container after a step. -/
theorem Step.owner {e : Effect} {a b : Account} {id : ContainerId} {x : Content} (h : Step e a b)
    (ha : a.Kept) (hx : b.store.content? id = some x) :
    (∃ flight, e = .create id flight) ∨ e = .transfer x.owner id ∨
      ∃ y, a.store.content? id = some y ∧ y.owner = x.owner := by
  cases h.content ha.accounted hx with
  | kept hy => exact .inr (.inr ⟨x, hy, rfl⟩)
  | made he => exact .inl ⟨_, he⟩
  | becomes hy h =>
    cases h with
    | transfer => exact .inr (.inl rfl)
    | retag => exact .inl ⟨_, rfl⟩
    | _ => exact .inr (.inr ⟨_, hy, rfl⟩)

/-- Who owns a container after a chain of steps that does not make it or give it to its owner. -/
theorem Path.owner {E : Effect → Prop} {a b : Account} {id : ContainerId} {x : Content}
    (h : Path E a b) (ha : a.Kept) (hx : b.store.content? id = some x) :
    (∃ flight, E (.create id flight)) ∨ E (.transfer x.owner id) ∨
      ∃ y, a.store.content? id = some y ∧ y.owner = x.owner := by
  induction h generalizing x with
  | refl => exact .inr (.inr ⟨x, hx, rfl⟩)
  | tail hpath he hs ih =>
    rcases hs.owner (hpath.kept ha) hx with ⟨flight, rfl⟩ | rfl | ⟨y, hy, ho⟩
    · exact .inl ⟨flight, he⟩
    · exact .inr (.inl he)
    · rw [← ho]
      exact ih hy

/--
What a chain of steps does to a sweep list, if it moves containers to one dataspace at most: those
that are put on the list came into being, or belonged to another dataspace before the chain.
-/
theorem Path.relists {E : Effect → Prop} {a b : Account} {ds : DataspaceId} (h : Path E a b)
    (ha : a.Kept) (hone : ∀ {x y id id'}, E (.transfer x id) → E (.transfer y id') → x = y) :
    Relists (fun id => (∃ flight, E (.create id flight)) ∨
      E (.transfer ds id) ∧ ∃ x, a.store.content? id = some x ∧ x.owner ≠ ds)
      ds a.store b.store := by
  induction h with
  | refl => exact .of_sites rfl
  | tail hpath he hs ih =>
    refine ih.trans ((hs.relists (hpath.kept ha)).mono ?_)
    rintro id (⟨flight, rfl⟩ | ⟨rfl, c, hc, howner⟩)
    · exact .inl ⟨flight, he⟩
    · rcases hpath.owner ha (content?_of_container hc) with hmade | hmoved | hold
      · exact .inl hmade
      · exact absurd (hone hmoved he) howner
      · obtain ⟨y, hy, ho⟩ := hold
        exact .inr ⟨he, y, hy, fun hds => howner (ho.symm.trans hds)⟩

end PlaneStore
