import PlaneStore.Proofs.Eviction.SweepWalk
import Mathlib.Algebra.BigOperators.Group.Finset.Basic

/-!
# Containers that change hands

Before a dataspace is evicted it takes over each foreign container to which it holds all references,
again and again until there is none. A transfer moves no reference: it makes slots of another
dataspace to slots of this one. So it can only make more containers exclusive, and whatever the
order in which they are taken over, in the end it is the least set of containers to which there are
no references but from the dataspace and from the set itself.
-/

namespace PlaneStore

open Store

/-! ## What a transfer leaves alone -/

/-- What a container is to others: where its elements are and how it is linked does not matter. -/
structure Card where
  kind : Kind
  refcount : Nat
  owner : DataspaceId
  held : Refs

def Container.card (swap : Swap) (c : Container) : Card :=
  ⟨c.kind, c.refcount, c.owner, c.held swap⟩

namespace Store

/-- The card of the container in a slot. -/
def card? (s : Store) (id : ContainerId) : Option Card :=
  (s.container? id).map (Container.card s.swap)

/-- Some containers have a new owner, and that is all that is different to others. -/
structure Rehomed (s : Store) (ds : DataspaceId) (ids : List ContainerId) (s' : Store) : Prop where
  dataspace : ∀ x, (s'.dataspace? x).map Dataspace.held = (s.dataspace? x).map Dataspace.held
  card : ∀ id, s'.card? id =
    (s.card? id).map fun k => if id ∈ ids then { k with owner := ds } else k

section

variable {s s' s'' : Store} {ds x : DataspaceId} {ids ids' : List ContainerId} {id : ContainerId}
  {c : Container}

theorem card?_of_container (hc : s.container? id = some c) : s.card? id = some (c.card s.swap) := by
  simp [card?, hc]

theorem exists_of_card {k : Card} (hk : s.card? id = some k) :
    ∃ c, s.container? id = some c ∧ c.card s.swap = k :=
  Option.map_eq_some_iff.mp hk

/-- Whether a container is foreign is on its card. -/
theorem isForeign_eq_card (s : Store) (ds : DataspaceId) (id : ContainerId) :
    s.isForeign ds id = (s.card? id).any fun k => k.owner ≠ ds := by
  unfold isForeign card?
  cases s.container? id <;> rfl

theorem isForeign_of_container (hc : s.container? id = some c) (ho : c.owner ≠ ds) :
    s.isForeign ds id = true := by
  simp [isForeign, hc, ho]

theorem exists_of_isForeign (h : s.isForeign ds id = true) :
    ∃ c, s.container? id = some c ∧ c.owner ≠ ds := by
  unfold isForeign at h
  cases hc : s.container? id with
  | none => simp [hc] at h
  | some c =>
    rw [hc, Option.any_some, decide_eq_true_eq] at h
    exact ⟨c, rfl, h⟩

theorem Alike.card? (h : Alike s s') (id : ContainerId) : s'.card? id = s.card? id := by
  have hbare := congrArg (Option.map (Container.card s.swap)) (h.container id)
  rw [Option.map_map, Option.map_map] at hbare
  unfold Store.card?
  rw [h.swap]
  exact hbare

/-- Slots are a matter of what dataspaces and containers hold. -/
theorem slots_of_cards
    (hd : (s'.dataspace? x).map Dataspace.held = (s.dataspace? x).map Dataspace.held)
    (hcard : ∀ id, s'.card? id = s.card? id) : s'.slots x = s.slots x := by
  unfold slots
  rw [hd, Slab.total_congr (f := share s'.swap x) (g := share s.swap x) fun i => ?_]
  have hshare := congrArg (Option.map fun k : Card => if k.owner = x then k.held else 0) (hcard ⟨i⟩)
  unfold Store.card? at hshare
  rw [Option.map_map, Option.map_map] at hshare
  exact hshare

namespace Rehomed

protected theorem refl (s : Store) (ds : DataspaceId) : Rehomed s ds [] s where
  dataspace _ := rfl
  card id := by simp

protected theorem trans (h : Rehomed s ds ids s') (h' : Rehomed s' ds ids' s'') :
    Rehomed s ds (ids ++ ids') s'' where
  dataspace x := (h'.dataspace x).trans (h.dataspace x)
  card id := by
    rw [h'.card, h.card, Option.map_map]
    refine congrArg (Option.map · _) (funext fun k => ?_)
    by_cases hid : id ∈ ids <;> by_cases hid' : id ∈ ids' <;> simp [hid, hid']

theorem of_alike (h : Alike s s') : Rehomed s ds [] s' where
  dataspace x := by
    have hbare := congrArg (Option.map Dataspace.held) (h.dataspace x)
    rw [Option.map_map, Option.map_map] at hbare
    exact hbare
  card id := by simp [h.card?]

theorem withOwner (hc : s.container? id = some c) :
    Rehomed s ds [id] (s.withContainer id { c with owner := ds }) where
  dataspace _ := rfl
  card other := by
    by_cases h : id = other
    · subst h
      rw [card?_of_container hc, card?_of_container (container?_withContainer_self hc)]
      simp only [Option.map_some, List.mem_singleton, if_true]
      rfl
    · have hcard : (s.withContainer id { c with owner := ds }).card? other = s.card? other := by
        unfold card?
        rw [container?_withContainer_of_ne h]
        rfl
      simp [hcard, Ne.symm h]

/-- The elements of a container come back, and all that is held stays held. -/
theorem of_faultIn {u : Unit} (hs : s.Stored) (h : faultIn id s = .ok (u, s')) :
    Rehomed s ds [] s' := by
  obtain ⟨c, hc, ⟨-, -, rfl⟩ | ⟨ticket, he, rfl⟩⟩ := faultIn_eq_ok h
  · exact .refl _ ds
  · refine ⟨fun _ => rfl, fun other => ?_⟩
    simp only [List.not_mem_nil, if_false, Option.map_id']
    by_cases hid : id = other
    · subst hid
      rw [card?_of_container hc,
        card?_of_container
          (container?_withContainer_self (s := { s with swap := (s.swap.load ticket).2 }) hc)]
      refine congrArg some (congrArg (Card.mk c.kind c.refcount c.owner) ?_)
      unfold Container.held
      rw [Container.buffer_of_resident _ rfl, c.buffer_of_evicted _ he]
      rfl
    · unfold card?
      rw [container?_withContainer_of_ne hid]
      show (s.container? other).map _ = _
      cases hother : s.container? other with
      | none => rfl
      | some e =>
        refine congrArg some (congrArg (Card.mk e.kind e.refcount e.owner) ?_)
        have hbuffer := hs.buffer_load hc he hother hid
        show ↑(e.buffer (s.swap.load ticket).2 ++ e.overlayValues) = e.held s.swap
        rw [hbuffer]
        rfl

/-- A transfer rehomes one container. -/
theorem of_transfer {u : Unit} (hs : s.Stored) (hp : s.planes = []) (hx : Exclusive s ds id c)
    (h : transfer ds id s = .ok (u, s')) : Rehomed s ds [id] s' := by
  obtain ⟨t, hload, htransfer⟩ := exists_transfer (F := 0) hp hx h
  obtain ⟨d, hd, hal⟩ := htransfer.alike
  exact ((of_faultIn hs hload).trans (withOwner hd)).trans (of_alike hal)

/-- What was rehomed is not foreign any more, and nothing else has changed. -/
theorem isForeign (h : Rehomed s ds ids s') (id : ContainerId) :
    s'.isForeign ds id = true ↔ s.isForeign ds id = true ∧ id ∉ ids := by
  rw [isForeign_eq_card, isForeign_eq_card, h.card]
  cases s.card? id with
  | none => simp
  | some k => by_cases hid : id ∈ ids <;> simp [hid]

/-- What a container holds is in slots of its new owner. -/
theorem slots (h : Rehomed s ds [id] s') (hc : s.container? id = some c) (ho : c.owner ≠ ds) :
    s'.slots ds = s.slots ds + c.held s.swap := by
  have hmoved : Rehomed s ds [id] (s.withContainer id { c with owner := ds }) := withOwner hc
  have hsame : s'.slots ds = (s.withContainer id { c with owner := ds }).slots ds :=
    slots_of_cards ((h.dataspace ds).trans (hmoved.dataspace ds).symm)
      fun other => (h.card other).trans (hmoved.card other).symm
  have hslots := slots_withContainer hc { c with owner := ds } ds
  have hbefore : share s.swap ds c = 0 := if_neg ho
  have hafter : share s.swap ds { c with owner := ds } = c.held s.swap := if_pos rfl
  rw [hbefore, add_zero, hafter] at hslots
  rw [hsame, hslots]

end Rehomed

/-! ## What only a dataspace refers to -/

/-- What a foreign container holds. -/
def abroad (s : Store) (ds : DataspaceId) (id : ContainerId) : Refs :=
  (s.card? id).elim 0 fun k => if k.owner = ds then 0 else k.held

/-- The references in slots of a dataspace and of the foreign containers of a set. -/
def within (s : Store) (ds : DataspaceId) (T : Finset ContainerId) : Refs :=
  s.slots ds + ∑ id ∈ T, s.abroad ds id

/--
A foreign container to which there are references, but none from elsewhere than slots of a dataspace
and of the containers of a set.
-/
structure Secluded (s : Store) (F : Refs) (ds : DataspaceId) (T : Finset ContainerId)
    (id : ContainerId) : Prop where
  foreign : s.isForeign ds id = true
  referred : 0 < (s.refs + F).tally (.container id)
  inside : (s.refs + F).tally (.container id) ≤ (s.within ds T).tally (.container id)

variable {T : Finset ContainerId}

theorem abroad_of_container (hc : s.container? id = some c) (ho : c.owner ≠ ds) :
    s.abroad ds id = c.held s.swap := by
  unfold abroad
  rw [card?_of_container hc]
  exact if_neg ho

theorem abroad_of_not_foreign (h : s.isForeign ds id = false) : s.abroad ds id = 0 := by
  rw [isForeign_eq_card] at h
  unfold abroad
  cases hk : s.card? id with
  | none => rfl
  | some k =>
    rw [hk, Option.any_some, decide_eq_false_iff_not, not_not] at h
    exact if_pos h

theorem slots_le_within : s.slots ds ≤ s.within ds T := Multiset.le_add_right _ _

/-- Nothing is abroad if all of a set belong to the dataspace. -/
theorem within_of_home (h : ∀ id ∈ T, s.isForeign ds id = false) :
    s.within ds T = s.slots ds := by
  unfold within
  rw [Finset.sum_eq_zero fun id hid => abroad_of_not_foreign (h id hid), add_zero]

/-- What is within a set does not change while a container of the set changes hands. -/
theorem Rehomed.within (h : Rehomed s ds [id] s') (hc : s.container? id = some c)
    (ho : c.owner ≠ ds) (hT : id ∈ T) : s'.within ds T = s.within ds T := by
  have hself : s'.abroad ds id = 0 := by
    refine abroad_of_not_foreign (Bool.eq_false_iff.mpr fun hforeign => ?_)
    exact ((h.isForeign id).mp hforeign).2 (List.mem_singleton.mpr rfl)
  have hothers : ∑ x ∈ T.erase id, s'.abroad ds x = ∑ x ∈ T.erase id, s.abroad ds x := by
    refine Finset.sum_congr rfl fun x hx => ?_
    unfold abroad
    rw [h.card]
    simp [Finset.ne_of_mem_erase hx]
  unfold Store.within
  rw [← Finset.add_sum_erase T _ hT, ← Finset.add_sum_erase T (s.abroad ds) hT, hself, hothers,
    h.slots hc ho, abroad_of_container hc ho, zero_add, add_assoc]

end

section

variable {s s' : Store} {F : Refs} {ds : DataspaceId} {T : Finset ContainerId} {id : ContainerId}
  {c : Container}

/-- All references to a container are counted. -/
theorem tally_of_container (ha : Account.Kept ⟨s, F, 0, none⟩) (hc : s.container? id = some c) :
    (s.refs + F).tally (.container id) = c.refcount := by
  have hcount := ha.accounted.balanced.count (.container id)
  rw [count_of_container hc, Account.refs_between] at hcount
  exact hcount.symm

/-- A container has no fewer references than a dataspace has slots for it. -/
theorem slots_tally_le (s : Store) (F : Refs) (ds : DataspaceId) (id : ContainerId) :
    (s.slots ds).tally (.container id) ≤ (s.refs + F).tally (.container id) :=
  Refs.tally_le ((slots_le_refs s ds).trans (Multiset.le_add_right _ _)) _

/-- A container that is there is referred to. -/
theorem referred_of_container (ha : Account.Kept ⟨s, F, 0, none⟩) (hc : s.container? id = some c) :
    0 < (s.refs + F).tally (.container id) := by
  have hcount : s.heap.count? (.container id) = some c.refcount :=
    congrArg (Option.map Container.refcount) hc
  rw [tally_of_container ha hc]
  exact ha.accounted.balanced.count_pos hcount

/-- A dataspace holds all references to a foreign container exactly if it imports so many. -/
theorem exists_exclusive_iff (ha : Account.Kept ⟨s, F, 0, none⟩) {d : Dataspace}
    (hd : s.dataspace? ds = some d) : (∃ c, Exclusive s ds id c) ↔
      s.isForeign ds id = true ∧
        (s.refs + F).tally (.container id) ≤ (s.slots ds).tally (.container id) := by
  constructor
  · rintro ⟨c, hc, ho, d', hd', hget⟩
    have hforeign := isForeign_of_container hc ho
    refine ⟨hforeign, ?_⟩
    rw [ha.imports_eq hd'] at hget
    split at hget
    · rw [tally_of_container ha hc, Option.some.inj hget]
    · cases hget
  · rintro ⟨hforeign, hle⟩
    obtain ⟨c, hc, ho⟩ := exists_of_isForeign hforeign
    have heq := Nat.le_antisymm (slots_tally_le s F ds id) hle
    have hpos := referred_of_container ha hc
    refine ⟨c, hc, ho, d, hd, ?_⟩
    rw [ha.imports_eq hd, if_pos ⟨hforeign, heq ▸ hpos⟩, heq, tally_of_container ha hc]

/-- No reference to a container comes or goes. -/
theorem Rehomed.tally {ids : List ContainerId} {c' : Container} (h : Rehomed s ds ids s')
    (ha : Account.Kept ⟨s, F, 0, none⟩) (ha' : Account.Kept ⟨s', F, 0, none⟩)
    (hc : s.container? id = some c) (hc' : s'.container? id = some c') :
    (s.refs + F).tally (.container id) = (s'.refs + F).tally (.container id) := by
  have hcard := h.card id
  rw [card?_of_container hc, card?_of_container hc'] at hcard
  have hrefcount : c'.refcount = c.refcount := by
    refine (congrArg Card.refcount (Option.some.inj hcard)).trans ?_
    split <;> rfl
  rw [tally_of_container ha hc, tally_of_container ha' hc', hrefcount]

/-- What is secluded after a container of the set changed hands was so before. -/
theorem Secluded.of_rehomed {x : ContainerId} (hx : Secluded s' F ds T x)
    (h : Rehomed s ds [id] s') (ha : Account.Kept ⟨s, F, 0, none⟩)
    (ha' : Account.Kept ⟨s', F, 0, none⟩) (hc : s.container? id = some c) (ho : c.owner ≠ ds)
    (hT : id ∈ T) : Secluded s F ds T x := by
  have hforeign := ((h.isForeign x).mp hx.foreign).1
  obtain ⟨e', he', -⟩ := exists_of_isForeign hx.foreign
  obtain ⟨e, he, -⟩ := exists_of_isForeign hforeign
  have hcount := h.tally ha ha' he he'
  refine ⟨hforeign, hcount ▸ hx.referred, ?_⟩
  rw [hcount, ← h.within hc ho hT]
  exact hx.inside

/-! ## Chains of transfers -/

/-- Transfers to a dataspace, each of a container to which it holds all references by then. -/
inductive Transfers (ds : DataspaceId) : Store → List ContainerId → Store → Prop
  | nil (s : Store) : Transfers ds s [] s
  | cons {s s₁ s' : Store} {id : ContainerId} {c : Container} {ids : List ContainerId}
      (hx : Exclusive s ds id c) (h : transfer ds id s = .ok ((), s₁))
      (hrest : Transfers ds s₁ ids s') : Transfers ds s (id :: ids) s'

/-- A dataspace holds all references to no foreign container. -/
def Settled (s : Store) (ds : DataspaceId) : Prop := ∀ id c, ¬ Exclusive s ds id c

/-- What only the slots of a dataspace refer to is secluded, whatever the set. -/
theorem Secluded.of_exclusive (hx : Exclusive s ds id c) (ha : Account.Kept ⟨s, F, 0, none⟩)
    (T : Finset ContainerId) : Secluded s F ds T id := by
  obtain ⟨d, hd, -⟩ := hx.all
  obtain ⟨hforeign, hle⟩ := (exists_exclusive_iff ha hd).mp ⟨c, hx⟩
  exact ⟨hforeign, referred_of_container ha hx.there,
    hle.trans (Refs.tally_le slots_le_within _)⟩

namespace Transfers

variable {s'' : Store} {ids ids' : List ContainerId}

theorem append (h : Transfers ds s ids s') (h' : Transfers ds s' ids' s'') :
    Transfers ds s (ids ++ ids') s'' := by
  induction h with
  | nil => exact h'
  | cons hx h _ ih => exact .cons hx h (ih h')

/-- One transfer, in steps. -/
theorem walk_one (hx : Exclusive s ds id c) (h : transfer ds id s = .ok ((), s'))
    (ha : Account.Kept ⟨s, F, 0, none⟩) (hp : s.planes = []) :
    Path Effect.Moves ⟨s, F, 0, none⟩ ⟨s', F, 0, none⟩ ∧ s'.planes = [] := by
  have hone : ∀ other ∈ [id], ∃ c, Exclusive s ds other c := by
    intro other hother
    obtain rfl := List.mem_singleton.mp hother
    exact ⟨c, hx⟩
  obtain ⟨hpath, hp', -⟩ := walk_transfer Effect.Moves.still (.transfer ds id) ha hp
    (List.nodup_singleton id) hone h
  exact ⟨hpath, hp'⟩

/-- A chain of transfers is a path that moves containers, outside of all regions. -/
theorem walk (h : Transfers ds s ids s') (ha : Account.Kept ⟨s, F, 0, none⟩) (hp : s.planes = []) :
    Path Effect.Moves ⟨s, F, 0, none⟩ ⟨s', F, 0, none⟩ ∧ s'.planes = [] := by
  induction h with
  | nil s => exact ⟨.refl _, hp⟩
  | cons hx h _ ih =>
    obtain ⟨hpath, hp₁⟩ := walk_one hx h ha hp
    obtain ⟨hrest, hp'⟩ := ih (hpath.kept ha) hp₁
    exact ⟨hpath.trans hrest, hp'⟩

/-- A chain of transfers rehomes what it transfers. -/
theorem rehomed (h : Transfers ds s ids s') (ha : Account.Kept ⟨s, F, 0, none⟩)
    (hp : s.planes = []) : Rehomed s ds ids s' := by
  induction h with
  | nil s => exact .refl s ds
  | cons hx h _ ih =>
    obtain ⟨hpath, hp₁⟩ := walk_one hx h ha hp
    exact (Rehomed.of_transfer ha.accounted.stored hp hx h).trans (ih (hpath.kept ha) hp₁)

/-- Each container that changes hands was foreign, and does so once. -/
theorem foreign (h : Transfers ds s ids s') (ha : Account.Kept ⟨s, F, 0, none⟩)
    (hp : s.planes = []) : ids.Nodup ∧ ∀ id ∈ ids, s.isForeign ds id = true := by
  induction h with
  | nil s => exact ⟨List.nodup_nil, nofun⟩
  | @cons s s₁ s' id c ids hx h hrest ih =>
    obtain ⟨hpath, hp₁⟩ := walk_one hx h ha hp
    obtain ⟨hn, hall⟩ := ih (hpath.kept ha) hp₁
    have hone := Rehomed.of_transfer ha.accounted.stored hp hx h
    refine ⟨List.nodup_cons.mpr ⟨fun hid => ?_, hn⟩, fun other hother => ?_⟩
    · exact ((hone.isForeign id).mp (hall id hid)).2 (List.mem_singleton.mpr rfl)
    · rcases List.mem_cons.mp hother with rfl | hother
      · exact isForeign_of_container hx.there hx.foreign
      · exact ((hone.isForeign other).mp (hall other hother)).1

/-- What is transferred from within stays within. -/
theorem within_eq (h : Transfers ds s ids s') (ha : Account.Kept ⟨s, F, 0, none⟩)
    (hp : s.planes = []) (hT : ∀ id ∈ ids, id ∈ T) : s'.within ds T = s.within ds T := by
  induction h with
  | nil s => rfl
  | cons hx h _ ih =>
    obtain ⟨hpath, hp₁⟩ := walk_one hx h ha hp
    obtain ⟨hid, hrest⟩ := List.forall_mem_cons.mp hT
    have hone := Rehomed.of_transfer ha.accounted.stored hp hx h
    rw [ih (hpath.kept ha) hp₁ hrest, hone.within hx.there hx.foreign hid]

/-- Only what has to be in a closed set changes hands. -/
theorem least (h : Transfers ds s ids s') (ha : Account.Kept ⟨s, F, 0, none⟩) (hp : s.planes = [])
    (hT : ∀ id, Secluded s F ds T id → id ∈ T) : ∀ id ∈ ids, id ∈ T := by
  induction h with
  | nil s => exact nofun
  | cons hx h _ ih =>
    obtain ⟨hpath, hp₁⟩ := walk_one hx h ha hp
    have hid := hT _ (.of_exclusive hx ha T)
    have hone := Rehomed.of_transfer ha.accounted.stored hp hx h
    refine List.forall_mem_cons.mpr ⟨hid, ih (hpath.kept ha) hp₁ fun x hx' => hT x ?_⟩
    exact hx'.of_rehomed hone ha (hpath.kept ha) hx.there hx.foreign hid

/-- When no container is left to be taken over, those that were taken over are a closed set. -/
theorem closed (h : Transfers ds s ids s') (ha : Account.Kept ⟨s, F, 0, none⟩) (hp : s.planes = [])
    {d : Dataspace} (hd : s'.dataspace? ds = some d) (hs : Settled s' ds)
    (hid : Secluded s F ds ids.toFinset id) : id ∈ ids := by
  by_contra hout
  obtain ⟨hpath, -⟩ := h.walk ha hp
  have ha' := hpath.kept ha
  have hrehomed := h.rehomed ha hp
  have hforeign : s'.isForeign ds id = true := (hrehomed.isForeign id).mpr ⟨hid.foreign, hout⟩
  obtain ⟨c, hc, -⟩ := exists_of_isForeign hid.foreign
  obtain ⟨c', hc', ho'⟩ := exists_of_isForeign hforeign
  have hslots : s.within ds ids.toFinset = s'.slots ds := by
    rw [← h.within_eq ha hp fun id => List.mem_toFinset.mpr]
    refine within_of_home fun x hx => Bool.eq_false_iff.mpr fun hforeign => ?_
    exact ((hrehomed.isForeign x).mp hforeign).2 (List.mem_toFinset.mp hx)
  have hcount := hrehomed.tally ha ha' hc hc'
  obtain ⟨e, he⟩ := (exists_exclusive_iff ha' hd).mpr ⟨hforeign, by
    rw [← hcount, ← hslots]
    exact hid.inside⟩
  exact hs id e he

end Transfers

/-! ## In any order -/

namespace Transfers

variable {s₁ s₂ : Store} {ids₁ ids₂ : List ContainerId}

theorem exists_dataspace (h : Transfers ds s ids₁ s₁) (ha : Account.Kept ⟨s, F, 0, none⟩)
    (hp : s.planes = []) {d : Dataspace} (hd : s.dataspace? ds = some d) :
    ∃ d', s₁.dataspace? ds = some d' := by
  have hheld := (h.rehomed ha hp).dataspace ds
  rw [hd, Option.map_some] at hheld
  obtain ⟨d', hd', -⟩ := Option.map_eq_some_iff.mp hheld
  exact ⟨d', hd'⟩

/-- Two chains that go as far as can be take over the same containers. -/
theorem perm (h₁ : Transfers ds s ids₁ s₁) (h₂ : Transfers ds s ids₂ s₂)
    (ha : Account.Kept ⟨s, F, 0, none⟩) (hp : s.planes = []) {d : Dataspace}
    (hd : s.dataspace? ds = some d) (hs₁ : Settled s₁ ds) (hs₂ : Settled s₂ ds) :
    ids₁.Perm ids₂ := by
  have hsub : ∀ {ids ids' : List ContainerId} {t t' : Store}, Transfers ds s ids t →
      Transfers ds s ids' t' → Settled t' ds → ∀ id ∈ ids, id ∈ ids' := by
    intro ids ids' t t' h h' hs id hid
    obtain ⟨d', hd'⟩ := h'.exists_dataspace ha hp hd
    refine List.mem_toFinset.mp (h.least ha hp (fun x hx => ?_) id hid)
    exact List.mem_toFinset.mpr (h'.closed ha hp hd' hs hx)
  refine (List.perm_ext_iff_of_nodup (h₁.foreign ha hp).1 (h₂.foreign ha hp).1).mpr fun id => ?_
  exact ⟨hsub h₁ h₂ hs₂ id, hsub h₂ h₁ hs₁ id⟩

/-- Owners are the same, and so is all that containers hold. -/
theorem card_eq (h₁ : Transfers ds s ids₁ s₁) (h₂ : Transfers ds s ids₂ s₂)
    (ha : Account.Kept ⟨s, F, 0, none⟩) (hp : s.planes = []) (hids : ids₁.Perm ids₂)
    (id : ContainerId) : s₂.card? id = s₁.card? id := by
  rw [(h₁.rehomed ha hp).card, (h₂.rehomed ha hp).card]
  simp only [hids.mem_iff]

/-- The imports afterwards do not depend on the order of the transfers. -/
theorem imports_eq (h₁ : Transfers ds s ids₁ s₁) (h₂ : Transfers ds s ids₂ s₂)
    (ha : Account.Kept ⟨s, F, 0, none⟩) (hp : s.planes = []) (hids : ids₁.Perm ids₂)
    {x : DataspaceId} {d₁ d₂ : Dataspace} (hd₁ : s₁.dataspace? x = some d₁)
    (hd₂ : s₂.dataspace? x = some d₂) (id : ContainerId) : d₂.imports[id]? = d₁.imports[id]? := by
  have hcard := h₁.card_eq h₂ ha hp hids
  have hslots : s₂.slots x = s₁.slots x :=
    slots_of_cards
      (((h₂.rehomed ha hp).dataspace x).trans ((h₁.rehomed ha hp).dataspace x).symm) hcard
  rw [((h₁.walk ha hp).1.kept ha).imports_eq hd₁, ((h₂.walk ha hp).1.kept ha).imports_eq hd₂,
    hslots, isForeign_eq_card, isForeign_eq_card, hcard]

/-- What is left of the imports of the dataspace is the same. -/
theorem imported_eq (h₁ : Transfers ds s ids₁ s₁) (h₂ : Transfers ds s ids₂ s₂)
    (ha : Account.Kept ⟨s, F, 0, none⟩) (hp : s.planes = []) {d : Dataspace}
    (hd : s.dataspace? ds = some d) (hids : ids₁.Perm ids₂) : s₂.imported ds = s₁.imported ds := by
  obtain ⟨d₁, hd₁⟩ := h₁.exists_dataspace ha hp hd
  obtain ⟨d₂, hd₂⟩ := h₂.exists_dataspace ha hp hd
  have hequiv : d₂.imports.Equiv d₁.imports :=
    Std.TreeMap.Equiv.of_forall_constGet?_eq (h₁.imports_eq h₂ ha hp hids hd₁ hd₂)
  have himports : s₂.importsOf ds = s₁.importsOf ds := by
    unfold importsOf
    rw [hd₁, hd₂, Option.map_some, Option.map_some, hequiv.toList_eq]
  have hvalue : s₂.importedValue = s₁.importedValue := by
    funext p
    have hcard := congrArg (Option.map fun k : Card => Value.ofContainer k.kind p.1)
      (h₁.card_eq h₂ ha hp hids p.1)
    unfold Store.card? at hcard
    rw [Option.map_map, Option.map_map] at hcard
    exact hcard
  unfold imported
  rw [himports, hvalue]

end Transfers

/-! ## The loop -/

variable {ids : List ContainerId}

/-- Exclusive containers can be taken over one after the other. -/
theorem transfers_of_forM {u : PUnit} (ha : Account.Kept ⟨s, F, 0, none⟩) (hp : s.planes = [])
    (hn : ids.Nodup) (hx : ∀ id ∈ ids, ∃ c, Exclusive s ds id c)
    (h : ids.forM (transfer ds) s = .ok (u, s')) : Transfers ds s ids s' := by
  induction ids generalizing s with
  | nil =>
    obtain rfl := StoreM.forM_nil_eq_ok.mp h
    exact .nil _
  | cons id ids ih =>
    obtain ⟨_, s₁, h₁, h⟩ := StoreM.forM_cons_eq_ok.mp h
    obtain ⟨c, hc⟩ := hx id List.mem_cons_self
    obtain ⟨hpath, hp₁, hn₁, hx₁⟩ :=
      walk_transfer Effect.Moves.still (.transfer ds id) ha hp hn hx h₁
    exact .cons hc h₁ (ih (hpath.kept ha) hp₁ hn₁ hx₁ h)

/-- Rounds of transfers are a chain of them; it ends early only when none is left. -/
theorem transfers_of_rounds {n m : Nat} (ha : Account.Kept ⟨s, F, 0, none⟩) (hp : s.planes = [])
    (h : transferExclusive ds n s = .ok (m, s')) :
    ∃ ids, Transfers ds s ids s' ∧ m = ids.length ∧ (m < n → Settled s' ds) := by
  induction n generalizing s m with
  | zero =>
    obtain ⟨rfl, rfl⟩ := StoreM.pure_eq_ok.mp h
    exact ⟨[], .nil s, rfl, fun hlt => absurd hlt (Nat.not_lt_zero _)⟩
  | succ n ih =>
    obtain ⟨batch, t, h₁, hround⟩ := transferExclusive_succ_eq_ok h
    obtain ⟨rfl, hn, hx⟩ := exclusiveImports_eq_ok ha h₁
    rcases hround with ⟨rfl, rfl, rfl⟩ | ⟨hne, s₁, k, h₁, h₂, rfl⟩
    · exact ⟨[], .nil _, rfl, fun _ id c hc => absurd ((hx id).mpr ⟨c, hc⟩) List.not_mem_nil⟩
    · have hbatch := transfers_of_forM ha hp hn (fun id => (hx id).mp) h₁
      obtain ⟨hpath, hp₁⟩ := hbatch.walk ha hp
      obtain ⟨rest, hrest, rfl, hsettled⟩ := ih (hpath.kept ha) hp₁ h₂
      refine ⟨batch ++ rest, hbatch.append hrest, by simp, fun hlt => hsettled ?_⟩
      have hpos := List.length_pos_iff.mpr hne
      omega

/-- More rounds than there are transfers make no difference. -/
theorem transferExclusive_of_le {n m k : Nat} (h : transferExclusive ds n s = .ok (m, s'))
    (hm : m < n) (hk : n ≤ k) : transferExclusive ds k s = .ok (m, s') := by
  induction n generalizing s m k with
  | zero => exact absurd hm (Nat.not_lt_zero _)
  | succ n ih =>
    obtain ⟨k, rfl⟩ : ∃ j, k = j + 1 := ⟨k - 1, by omega⟩
    obtain ⟨batch, s₁, h₁, h⟩ := StoreM.bind_eq_ok.mp h
    refine StoreM.bind_eq_ok.mpr ⟨batch, s₁, h₁, ?_⟩
    split at h
    · next hempty =>
      rw [if_pos hempty]
      exact h
    · next hfull =>
      rw [if_neg hfull]
      obtain ⟨u, s₂, h₂, h⟩ := StoreM.bind_eq_ok.mp h
      obtain ⟨j, s₃, h₃, h⟩ := StoreM.bind_eq_ok.mp h
      obtain ⟨rfl, rfl⟩ := StoreM.pure_eq_ok.mp h
      have hpos := List.length_pos_iff.mpr fun he => hfull (List.isEmpty_iff.mpr he)
      have hrest := ih h₃ (by omega) (Nat.le_of_succ_le_succ hk)
      exact StoreM.bind_eq_ok.mpr ⟨u, s₂, h₂, StoreM.bind_eq_ok.mpr ⟨j, s₃, hrest, rfl⟩⟩

/-- The rounds come to an end before there are more of them than slots. -/
theorem rounds_settle (ha : Account.Kept ⟨s, F, 0, none⟩) (hp : s.planes = []) (ds : DataspaceId) :
    ∃ ids s', Transfers ds s ids s' ∧ Settled s' ds ∧
      ∀ n, s.heap.containers.cells.size < n →
        transferExclusive ds n s = .ok (ids.length, s') := by
  have hloop : Succeeds (transferExclusive ds (s.heap.containers.cells.size + 1)) s :=
    succeeds_transferExclusive ha hp
  obtain ⟨m, s', h⟩ := hloop
  obtain ⟨ids, hids, rfl, hsettled⟩ := transfers_of_rounds ha hp h
  obtain ⟨hn, hforeign⟩ := hids.foreign ha hp
  have hle := length_le_cells hn fun id hid => by
    obtain ⟨c, hc, -⟩ := exists_of_isForeign (hforeign id hid)
    exact ⟨c, hc⟩
  refine ⟨ids, s', hids, hsettled (by omega), fun n hlt => ?_⟩
  exact transferExclusive_of_le h (by omega) hlt

/-! ## Shared containers -/

/-- What a dataspace imports, by its import table. -/
theorem mem_imported {v : Value} : v ∈ s.imported ds ↔ ∃ d n id c, s.dataspace? ds = some d ∧
    d.imports[id]? = some n ∧ s.container? id = some c ∧ v = .ofContainer c.kind id := by
  unfold imported importsOf importedValue
  rw [List.mem_filterMap]
  cases hd : s.dataspace? ds with
  | none => simp
  | some d =>
    simp only [Option.map_some, Option.getD_some]
    constructor
    · rintro ⟨⟨id, n⟩, hmem, hv⟩
      obtain ⟨c, hc, rfl⟩ := Option.map_eq_some_iff.mp hv
      exact ⟨d, n, id, c, rfl, Std.TreeMap.mem_toList_iff_getElem?_eq_some.mp hmem, hc, rfl⟩
    · rintro ⟨d', n, id, c, hd', hn, hc, rfl⟩
      obtain rfl := Option.some.inj hd'
      exact ⟨(id, n), Std.TreeMap.mem_toList_iff_getElem?_eq_some.mpr hn, by rw [hc]; rfl⟩

/-- Imports are listed by slot. -/
theorem pairwise_imported (s : Store) (ds : DataspaceId) : (s.imported ds).Pairwise fun v w =>
    ∃ i j, v.containerId? = some i ∧ w.containerId? = some j ∧ i.slot < j.slot := by
  unfold imported importsOf
  cases s.dataspace? ds with
  | none => exact .nil
  | some d =>
    refine (Std.TreeMap.ordered_keys_toList (t := d.imports)).filterMap _ ?_
    intro p q hpq v hv w hw
    obtain ⟨c, -, rfl⟩ := Option.map_eq_some_iff.mp hv
    obtain ⟨e, -, rfl⟩ := Option.map_eq_some_iff.mp hw
    exact ⟨p.1, q.1, rfl, rfl, compare_lt_iff_lt.mp hpq⟩

/-- What is still imported once there is nothing left to take over is referred to from elsewhere. -/
theorem Settled.shared (hs : Settled s ds) (ha : Account.Kept ⟨s, F, 0, none⟩) {d : Dataspace}
    {n : Nat} (hd : s.dataspace? ds = some d) (hn : d.imports[id]? = some n) :
    (s.slots ds).tally (.container id) < (s.refs + F).tally (.container id) := by
  rw [ha.imports_eq hd] at hn
  split at hn
  · next hforeign =>
    refine Nat.lt_of_not_le fun hle => ?_
    obtain ⟨c, hc⟩ := (exists_exclusive_iff ha hd).mpr ⟨hforeign.1, hle⟩
    exact hs id c hc
  · cases hn

/-! ## Sweep lists -/

/-- The handle of the container in a slot. -/
def handleAt (s : Store) (id : ContainerId) : Value :=
  ((s.container? id).map fun c => Value.ofContainer c.kind id).getD .nil

theorem handleAt_of_container (hc : s.container? id = some c) :
    s.handleAt id = Value.ofContainer c.kind id := by
  rw [handleAt, hc]
  rfl

/-- The containers met on a walk along linked containers. -/
theorem walk_of_strand {n : Nat} {cursor : Option ContainerId} (h : Strand s.links? cursor ids)
    (hn : ids.length ≤ n) : Store.walk s.heap n cursor = .ok (ids.map s.handleAt) := by
  induction h generalizing n with
  | nil => cases n <;> rfl
  | @cons id l ids hl _ ih =>
    obtain ⟨n, rfl⟩ : ∃ m, n = m + 1 := ⟨n - 1, by rw [List.length_cons] at hn; omega⟩
    obtain ⟨c, hc, rfl⟩ := Option.map_eq_some_iff.mp hl
    refine Fallible.bind_eq_ok.mpr ⟨c, Heap.get_eq_ok.mpr hc, ?_⟩
    refine Fallible.bind_eq_ok.mpr ⟨_, ih (Nat.le_of_succ_le_succ hn), ?_⟩
    rw [List.map_cons, handleAt_of_container hc]
    rfl

/-- The sweep list of a dataspace has the handles of the containers that are linked. -/
theorem sweepList_eq {C : Charges} {q : Option Closing} (ha : Account.Kept ⟨s, F, C, q⟩)
    {d : Dataspace} (hd : s.dataspace? ds = some d) (hids : Strand s.links? d.head ids) :
    s.sweepList ds = .ok (ids.map s.handleAt) := by
  obtain ⟨ids', hids', hle, -⟩ := exists_strand ha hd
  obtain rfl := hids.unique hids'
  unfold sweepList
  rw [hd]
  exact walk_of_strand hids hle

/-- What a dataspace owns is on its sweep list. -/
theorem mem_sweepList {C : Charges} {q : Option Closing} (ha : Account.Kept ⟨s, F, C, q⟩)
    (hc : s.container? id = some c) :
    ∃ vs, s.sweepList c.owner = .ok vs ∧ Value.ofContainer c.kind id ∈ vs := by
  obtain ⟨head, hhead⟩ := ha.listed.owner (links?_of_container hc)
  obtain ⟨d, hd, -⟩ := Option.map_eq_some_iff.mp hhead
  obtain ⟨ids, hids, -, hall⟩ := exists_strand ha (show s.dataspace? c.owner = some d from hd)
  refine ⟨_, sweepList_eq ha hd hids, List.mem_map.mpr ⟨id, hall id c hc rfl, ?_⟩⟩
  exact handleAt_of_container hc

end

end Store

end PlaneStore
