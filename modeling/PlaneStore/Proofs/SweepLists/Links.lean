import PlaneStore.Proofs.Accounts.BalancedPlanes

/-!
# Sweep lists hang together

Neighbours on a sweep list know each other, the container without a predecessor is the one at the
head, and all of a list belong to the dataspace whose list it is. That is all that linking and
unlinking look at; in particular no container or dataspace that they name is missing. Following the
links from the head leads past every container of the dataspace, and comes to an end.
-/

namespace PlaneStore

open Store

/-- Where a container is linked. -/
structure Links where
  owner : DataspaceId
  prev : Option ContainerId
  next : Option ContainerId

def Container.links (c : Container) : Links := ⟨c.owner, c.prev, c.next⟩

/-- What a dataspace says of its sweep list: where it starts, and how long it is. -/
def Dataspace.sweep (d : Dataspace) : Option ContainerId × Nat := (d.head, d.containers)

namespace Store

/-- Where the container of a slot is linked. -/
def links? (s : Store) (id : ContainerId) : Option Links := (s.container? id).map Container.links

/-- The head of the sweep list of a dataspace. -/
def head? (s : Store) (ds : DataspaceId) : Option (Option ContainerId) :=
  (s.dataspace? ds).map Dataspace.head

/-- How many containers a dataspace counts on its sweep list. -/
def listed? (s : Store) (ds : DataspaceId) : Option Nat :=
  (s.dataspace? ds).map Dataspace.containers

end Store

/-! ## Lists as links and heads -/

/-- The containers that are passed from a first one on. -/
inductive Strand (links : ContainerId → Option Links) :
    Option ContainerId → List ContainerId → Prop
  | nil : Strand links none []
  | cons {id : ContainerId} {l : Links} {ids : List ContainerId} (hl : links id = some l)
    (h : Strand links l.next ids) : Strand links (some id) (id :: ids)

/-- Links and heads that fit together. -/
structure Linked (links : ContainerId → Option Links)
    (head : DataspaceId → Option (Option ContainerId)) : Prop where
  owner : ∀ {id l}, links id = some l → ∃ h, head l.owner = some h
  next : ∀ {id l n}, links id = some l → l.next = some n →
    ∃ m, links n = some m ∧ m.prev = some id ∧ m.owner = l.owner
  prev : ∀ {id l p}, links id = some l → l.prev = some p →
    ∃ m, links p = some m ∧ m.next = some id ∧ m.owner = l.owner
  first : ∀ {id l}, links id = some l → l.prev = none → head l.owner = some (some id)
  whole : ∀ {ds first}, head ds = some first →
    ∃ ids, Strand links first ids ∧ ∀ {id l}, links id = some l → l.owner = ds → id ∈ ids
  head : ∀ {ds id}, head ds = some (some id) →
    ∃ l, links id = some l ∧ l.prev = none ∧ l.owner = ds

namespace Linked

/-- The links of another container once `l`, which is of `id`, is taken out. -/
def bypass (l : Links) (other : ContainerId) (m : Links) : Links where
  owner := m.owner
  prev := if l.next = some other then l.prev else m.prev
  next := if l.prev = some other then l.next else m.next

/-- The links of a container that a new one is put in front of, if it was the first. -/
def follow (id : ContainerId) (h : Option ContainerId) (other : ContainerId) (m : Links) : Links :=
  if h = some other then { m with prev := some id } else m

theorem follow_owner (id : ContainerId) (h : Option ContainerId) (x : ContainerId) (m : Links) :
    (follow id h x m).owner = m.owner := by
  unfold follow
  split <;> rfl

theorem follow_next (id : ContainerId) (h : Option ContainerId) (x : ContainerId) (m : Links) :
    (follow id h x m).next = m.next := by
  unfold follow
  split <;> rfl

end Linked

namespace Strand

variable {links links' : ContainerId → Option Links} {cursor : Option ContainerId}
  {ids : List ContainerId} {id : ContainerId}

theorem linked (h : Strand links cursor ids) : ∀ x ∈ ids, ∃ l, links x = some l := by
  induction h with
  | nil => nofun
  | cons hl _ ih => exact List.forall_mem_cons.mpr ⟨⟨_, hl⟩, ih⟩

/-- A strand depends on no more than who follows whom. -/
theorem congr (h : Strand links cursor ids)
    (hnext : ∀ x ∈ ids, (links' x).map Links.next = (links x).map Links.next) :
    Strand links' cursor ids := by
  induction h with
  | nil => exact .nil
  | @cons x l ids hl _ ih =>
    obtain ⟨hx, hrest⟩ := List.forall_mem_cons.mp hnext
    rw [hl, Option.map_some] at hx
    obtain ⟨l', hl', he⟩ := Option.map_eq_some_iff.mp hx
    exact .cons hl' (he ▸ ih hrest)

/-- A cursor has one strand. -/
theorem unique (h : Strand links cursor ids) :
    ∀ {ids'}, Strand links cursor ids' → ids' = ids := by
  induction h with
  | nil =>
    intro ids' h'
    cases h'
    rfl
  | cons hl _ ih =>
    intro ids' h'
    cases h' with
    | cons hl' h' =>
      obtain rfl := Option.some.inj (hl.symm.trans hl')
      rw [ih h']

theorem head?_eq (h : Strand links cursor ids) : cursor = ids.head? := by
  cases h <;> rfl

/-- Each container on a list names the one after it. -/
theorem next_eq (h : Strand links cursor ids) {i : Nat} {id : ContainerId} {l : Links}
    (hi : ids[i]? = some id) (hl : links id = some l) : l.next = ids[i + 1]? := by
  induction h generalizing i with
  | nil => cases hi
  | @cons x m ids hm h ih =>
    cases i with
    | zero =>
      obtain rfl : x = id := Option.some.inj hi
      obtain rfl := Option.some.inj (hm.symm.trans hl)
      rw [List.getElem?_cons_succ, ← List.head?_eq_getElem?]
      exact h.head?_eq
    | succ i => exact ih hi

/-- From each container on there is a strand, which is shorter than the whole. -/
theorem exists_from (h : Strand links cursor ids) :
    ∀ x ∈ ids, ∃ rest, Strand links (some x) rest ∧ rest.length ≤ ids.length := by
  induction h with
  | nil => nofun
  | cons hl h ih =>
    refine List.forall_mem_cons.mpr ⟨⟨_, .cons hl h, le_rfl⟩, fun x hx => ?_⟩
    obtain ⟨rest, hrest, hle⟩ := ih x hx
    exact ⟨rest, hrest, hle.trans (Nat.le_succ _)⟩

/-- No container is passed twice. -/
theorem nodup (h : Strand links cursor ids) : ids.Nodup := by
  induction h with
  | nil => exact List.nodup_nil
  | @cons x l ids hl h ih =>
    refine List.nodup_cons.mpr ⟨fun hx => ?_, ih⟩
    obtain ⟨rest, hrest, hle⟩ := h.exists_from x hx
    rw [(Strand.cons hl h).unique hrest, List.length_cons] at hle
    omega

/-- A strand leads past a container that is taken out. -/
theorem remove (h : Strand links cursor ids) {l : Links} (hl : links id = some l)
    (hother : ∀ other, id ≠ other → links' other = (links other).map (Linked.bypass l other))
    (hpred : ∀ {x m}, links x = some m → (m.next = some id ↔ l.prev = some x)) :
    Strand links' (if cursor = some id then l.next else cursor) (ids.filter (· ≠ id)) := by
  induction h with
  | nil => exact .nil
  | @cons x m ids hm _ ih =>
    by_cases hx : x = id
    · subst hx
      obtain rfl := Option.some.inj (hl.symm.trans hm)
      rw [if_pos rfl, List.filter_cons_of_neg (by simp)]
      split at ih <;> exact ih
    · rw [if_neg fun he => hx (Option.some.inj he), List.filter_cons_of_pos (by simpa using hx)]
      refine .cons ((hother x (Ne.symm hx)).trans (congrArg _ hm)) ?_
      show Strand links' (if l.prev = some x then l.next else m.next) _
      rw [← if_congr (hpred hm) rfl rfl]
      exact ih

end Strand

namespace Linked

variable {links links' : ContainerId → Option Links}
  {head head' : DataspaceId → Option (Option ContainerId)} {ds x : DataspaceId}
  {first cursor : Option ContainerId} {id : ContainerId} {ids : List ContainerId} {l : Links}

/-- Links are seen one by one. -/
theorem congr (h : Linked links head) (hl : ∀ id, links' id = links id)
    (hh : ∀ ds, head' ds = head ds) : Linked links' head' := by
  obtain rfl : links' = links := funext hl
  obtain rfl : head' = head := funext hh
  exact h

/-- Who comes before a container, and whom it comes after. -/
theorem next_iff_prev (h : Linked links head) {l m : Links} {x : ContainerId}
    (hl : links id = some l) (hm : links x = some m) : m.next = some id ↔ l.prev = some x := by
  constructor
  · intro hn
    obtain ⟨l', hl', hp, -⟩ := h.next hm hn
    exact Option.some.inj (hl.symm.trans hl') ▸ hp
  · intro hp
    obtain ⟨m', hm', hn, -⟩ := h.prev hl hp
    exact Option.some.inj (hm.symm.trans hm') ▸ hn

/-- All containers on the list of a dataspace belong to it. -/
theorem owner_of_strand (h : Linked links head) (hfirst : head ds = some first)
    (hids : Strand links first ids) : ∀ y ∈ ids, ∃ m, links y = some m ∧ m.owner = ds := by
  have hfrom : ∀ {cursor ids}, Strand links cursor ids →
      (∀ y, cursor = some y → ∃ m, links y = some m ∧ m.owner = ds) →
        ∀ y ∈ ids, ∃ m, links y = some m ∧ m.owner = ds := by
    intro cursor ids hids
    induction hids with
    | nil => nofun
    | @cons y l ids hl _ ih =>
      intro hcursor
      obtain ⟨m, hm, ho⟩ := hcursor y rfl
      obtain rfl := Option.some.inj (hl.symm.trans hm)
      refine List.forall_mem_cons.mpr ⟨⟨l, hl, ho⟩, ih ?_⟩
      intro n hn
      obtain ⟨k, hk, -, hko⟩ := h.next hl hn
      exact ⟨k, hk, hko.trans ho⟩
  refine hfrom hids ?_
  rintro y rfl
  obtain ⟨m, hm, -, ho⟩ := h.head hfirst
  exact ⟨m, hm, ho⟩

/-- The list of a dataspace leads past all that belongs to it. -/
theorem mem_of_strand (h : Linked links head) (hfirst : head ds = some first)
    (hids : Strand links first ids) (hl : links id = some l) (ho : l.owner = ds) : id ∈ ids := by
  obtain ⟨ids', hids', hall⟩ := h.whole hfirst
  rw [← hids.unique hids']
  exact hall hl ho

/-- A container that is taken out is passed no more, and the others are as before. -/
theorem strand_remove (h : Linked links head) (hl : links id = some l)
    (hother : ∀ other, id ≠ other → links' other = (links other).map (bypass l other))
    (hhead : ∀ ds, head' ds =
      if ds = l.owner ∧ l.prev = none then (head ds).map fun _ => l.next else head ds)
    (hfirst : head ds = some first) (hids : Strand links first ids) :
    ∃ first', head' ds = some first' ∧ Strand links' first' (ids.filter (· ≠ id)) := by
  have hstart : first = some id ↔ ds = l.owner ∧ l.prev = none := by
    constructor
    · rintro rfl
      obtain ⟨m, hm, hprev, howner⟩ := h.head hfirst
      obtain rfl := Option.some.inj (hl.symm.trans hm)
      exact ⟨howner.symm, hprev⟩
    · rintro ⟨rfl, hprev⟩
      exact Option.some.inj (hfirst.symm.trans (h.first hl hprev))
  refine ⟨if first = some id then l.next else first, ?_, ?_⟩
  · rw [hhead ds, hfirst]
    by_cases he : first = some id
    · rw [if_pos (hstart.mp he), if_pos he]
      rfl
    · rw [if_neg fun hx => he (hstart.mpr hx), if_neg he]
  · exact hids.remove hl hother fun hm => h.next_iff_prev hl hm

theorem of_bypass (hself : links' id = none)
    (hother : ∀ other, id ≠ other → links' other = (links other).map (bypass l other))
    {x : ContainerId} {m' : Links} (hx : links' x = some m') :
    id ≠ x ∧ ∃ m, links x = some m ∧ m' = bypass l x m := by
  have hne : id ≠ x := by
    rintro rfl
    rw [hself] at hx
    cases hx
  rw [hother x hne] at hx
  obtain ⟨m, hm, rfl⟩ := Option.map_eq_some_iff.mp hx
  exact ⟨hne, m, hm, rfl⟩

theorem bypassed (hother : ∀ other, id ≠ other → links' other = (links other).map (bypass l other))
    {x : ContainerId} {m : Links} (hne : id ≠ x) (hm : links x = some m) :
    links' x = some (bypass l x m) := by
  rw [hother x hne, hm, Option.map_some]

/-- Whoever is named one way names back the other way. -/
def Mutual (links : ContainerId → Option Links) (there back : Links → Option ContainerId) : Prop :=
  ∀ id l n, links id = some l → there l = some n →
    ∃ m, links n = some m ∧ back m = some id ∧ m.owner = l.owner

/-- Neighbours know each other once a container is taken out between them. -/
theorem Mutual.bypass {there back : Links → Option ContainerId} (h : Mutual links there back)
    (h' : Mutual links back there) (hl : links id = some l) (hself : links' id = none)
    (hother : ∀ other, id ≠ other → links' other = (links other).map (bypass l other))
    (hthere : ∀ x m, there (Linked.bypass l x m) = if back l = some x then there l else there m)
    (hback : ∀ x m, back (Linked.bypass l x m) = if there l = some x then back l else back m) :
    Mutual links' there back := by
  intro x m' n hx hn
  obtain ⟨hne, m, hm, rfl⟩ := of_bypass hself hother hx
  rw [hthere] at hn
  split at hn
  · next hp =>
    -- Whom the one taken out named is now named by `x`, which named the one taken out.
    obtain ⟨k, hk, hkp, hko⟩ := h id l n hl hn
    obtain ⟨m₂, hm₂, -, hmo⟩ := h' id l x hl hp
    have hnid : id ≠ n := by grind
    obtain rfl := Option.some.inj (hm.symm.trans hm₂)
    exact ⟨_, bypassed hother hnid hk, by rw [hback, if_pos hn, hp], hko.trans hmo.symm⟩
  · next hp =>
    obtain ⟨k, hk, hkp, hko⟩ := h x m n hm hn
    have hnid : id ≠ n := by grind
    have hln : there l ≠ some n := by
      intro hln
      obtain ⟨k₂, hk₂, hkp₂, -⟩ := h id l n hl hln
      grind
    exact ⟨_, bypassed hother hnid hk, by rw [hback, if_neg hln, hkp], hko⟩

theorem mutual_next (h : Linked links head) : Mutual links Links.next Links.prev :=
  fun _ _ _ hl hn => h.next hl hn

theorem mutual_prev (h : Linked links head) : Mutual links Links.prev Links.next :=
  fun _ _ _ hl hp => h.prev hl hp

/-- A container is taken off its list, and its neighbours become neighbours. -/
theorem remove (h : Linked links head) {l : Links} (hl : links id = some l)
    (hself : links' id = none)
    (hother : ∀ other, id ≠ other → links' other = (links other).map (bypass l other))
    (hhead : ∀ ds, head' ds =
      if ds = l.owner ∧ l.prev = none then (head ds).map fun _ => l.next else head ds) :
    Linked links' head' where
  owner {x m'} hx := by
    obtain ⟨-, m, hm, rfl⟩ := of_bypass hself hother hx
    obtain ⟨k, hk⟩ := h.owner hm
    rw [hhead]
    show ∃ k, (if m.owner = l.owner ∧ _ then (head m.owner).map _ else head m.owner) = some k
    rw [hk]
    split
    · exact ⟨_, rfl⟩
    · exact ⟨_, rfl⟩
  next hx hn := h.mutual_next.bypass h.mutual_prev hl hself hother (fun _ _ => rfl)
    (fun _ _ => rfl) _ _ _ hx hn
  prev hx hp := h.mutual_prev.bypass h.mutual_next hl hself hother (fun _ _ => rfl)
    (fun _ _ => rfl) _ _ _ hx hp
  first {x m'} hx hp := by
    obtain ⟨hne, m, hm, rfl⟩ := of_bypass hself hother hx
    show head' m.owner = _
    rw [hhead]
    by_cases hn : l.next = some x
    · have hlp : l.prev = none := by simpa [bypass, hn] using hp
      obtain ⟨m₂, hm₂, -, hmo⟩ := h.next hl hn
      have howner : m.owner = l.owner := by grind
      rw [if_pos ⟨howner, hlp⟩, howner, h.first hl hlp, hn]
      rfl
    · have hmp : m.prev = none := by simpa [bypass, hn] using hp
      have hfirst := h.first hm hmp
      rw [if_neg, hfirst]
      rintro ⟨howner, hlp⟩
      have := h.first hl hlp
      grind
  whole {ds first'} hfirst' := by
    obtain ⟨first, hfirst⟩ : ∃ first, head ds = some first := by
      rw [hhead] at hfirst'
      split at hfirst'
      · obtain ⟨k, hk, -⟩ := Option.map_eq_some_iff.mp hfirst'
        exact ⟨k, hk⟩
      · exact ⟨first', hfirst'⟩
    obtain ⟨ids, hids, hall⟩ := h.whole hfirst
    obtain ⟨_, hstart, hstrand⟩ := h.strand_remove hl hother hhead hfirst hids
    obtain rfl := Option.some.inj (hfirst'.symm.trans hstart)
    refine ⟨_, hstrand, fun {x m'} hx ho => ?_⟩
    obtain ⟨hne, m, hm, rfl⟩ := of_bypass hself hother hx
    exact List.mem_filter.mpr ⟨hall hm ho, by simpa using hne.symm⟩
  head {ds x} hx := by
    rw [hhead] at hx
    split at hx
    · next hfirst =>
      obtain ⟨rfl, hlp⟩ := hfirst
      obtain ⟨-, -, hn⟩ := Option.map_eq_some_iff.mp hx
      obtain ⟨m, hm, hmp, hmo⟩ := h.next hl hn
      have hne : id ≠ x := by grind
      exact ⟨_, bypassed hother hne hm, by simp [bypass, hn, hlp], hmo⟩
    · next hnot =>
      obtain ⟨m, hm, hmp, rfl⟩ := h.head hx
      have hne : id ≠ x := by grind
      have hn : l.next ≠ some x := by
        intro hn
        obtain ⟨m₂, hm₂, hmp₂, -⟩ := h.next hl hn
        grind
      exact ⟨_, bypassed hother hne hm, by simp [bypass, hn, hmp], rfl⟩

theorem of_follow (hself : links' id = some ⟨ds, none, first⟩)
    (hother : ∀ other, id ≠ other → links' other = (links other).map (follow id first other))
    {x : ContainerId} {m' : Links} (hx : links' x = some m') :
    (x = id ∧ m' = ⟨ds, none, first⟩) ∨
      id ≠ x ∧ ∃ m, links x = some m ∧ m' = follow id first x m := by
  by_cases hne : id = x
  · subst hne
    rw [hself] at hx
    exact Or.inl ⟨rfl, (Option.some.inj hx).symm⟩
  · rw [hother x hne] at hx
    obtain ⟨m, hm, rfl⟩ := Option.map_eq_some_iff.mp hx
    exact Or.inr ⟨hne, m, hm, rfl⟩

theorem followed (hnew : links id = none)
    (hother : ∀ other, id ≠ other → links' other = (links other).map (follow id first other))
    {x : ContainerId} {m : Links} (hm : links x = some m) :
    links' x = some (follow id first x m) := by
  have hne : id ≠ x := by
    rintro rfl
    rw [hnew] at hm
    cases hm
  rw [hother x hne, hm, Option.map_some]

/-- A container that is put in front is passed first, and the others are as before. -/
theorem strand_insert (hnew : links id = none) (hself : links' id = some ⟨ds, none, first⟩)
    (hother : ∀ other, id ≠ other → links' other = (links other).map (follow id first other))
    (hhead : ∀ x, head' x = if x = ds then some (some id) else head x)
    (hfirst : head ds = some first) (hcursor : head x = some cursor)
    (hids : Strand links cursor ids) :
    ∃ cursor', head' x = some cursor' ∧
      Strand links' cursor' (if x = ds then id :: ids else ids) := by
  have hkeep : Strand links' cursor ids := by
    refine hids.congr ?_
    intro y hy
    obtain ⟨m, hm⟩ := hids.linked y hy
    rw [followed hnew hother hm, hm, Option.map_some, Option.map_some, follow_next]
  rw [hhead]
  by_cases hx : x = ds
  · subst hx
    obtain rfl := Option.some.inj (hfirst.symm.trans hcursor)
    rw [if_pos rfl, if_pos rfl]
    exact ⟨_, rfl, .cons hself hkeep⟩
  · rw [if_neg hx, if_neg hx]
    exact ⟨cursor, hcursor, hkeep⟩

/-- A container is put in front of a list. -/
theorem insert (h : Linked links head) {ds : DataspaceId} {first : Option ContainerId}
    (hnew : links id = none) (hds : head ds = some first)
    (hself : links' id = some ⟨ds, none, first⟩)
    (hother : ∀ other, id ≠ other → links' other = (links other).map (follow id first other))
    (hhead : ∀ x, head' x = if x = ds then some (some id) else head x) : Linked links' head' where
  owner {x m'} hx := by
    rw [hhead]
    split
    · exact ⟨_, rfl⟩
    · next hne =>
      rcases of_follow hself hother hx with ⟨-, rfl⟩ | ⟨-, m, hm, rfl⟩
      · exact absurd rfl hne
      · rw [follow_owner]
        exact h.owner hm
  next {x m' n} hx hn := by
    rcases of_follow hself hother hx with ⟨rfl, rfl⟩ | ⟨hne, m, hm, rfl⟩
    · obtain rfl : first = some n := hn
      obtain ⟨m, hm, hmp, hmo⟩ := h.head hds
      exact ⟨_, followed hnew hother hm, by simp [follow], (follow_owner _ _ _ _).trans hmo⟩
    · rw [follow_next] at hn
      obtain ⟨k, hk, hkp, hko⟩ := h.next hm hn
      have hfirst : first ≠ some n := by
        rintro rfl
        obtain ⟨m₂, hm₂, hmp₂, -⟩ := h.head hds
        grind
      refine ⟨_, followed hnew hother hk, by simp [follow, hfirst, hkp], ?_⟩
      rw [follow_owner, follow_owner, hko]
  prev {x m' p} hx hp := by
    rcases of_follow hself hother hx with ⟨rfl, rfl⟩ | ⟨hne, m, hm, rfl⟩
    · cases hp
    · rw [follow_owner]
      by_cases hfirst : first = some x
      · obtain rfl : id = p := by simpa [follow, hfirst] using hp
        subst hfirst
        obtain ⟨m₂, hm₂, hmp₂, hmo₂⟩ := h.head hds
        obtain rfl := Option.some.inj (hm.symm.trans hm₂)
        exact ⟨_, hself, rfl, hmo₂.symm⟩
      · have hp : m.prev = some p := by simpa [follow, hfirst] using hp
        obtain ⟨k, hk, hkn, hko⟩ := h.prev hm hp
        exact ⟨_, followed hnew hother hk, by rw [follow_next, hkn], by rw [follow_owner, hko]⟩
  first {x m'} hx hp := by
    rw [hhead]
    rcases of_follow hself hother hx with ⟨rfl, rfl⟩ | ⟨hne, m, hm, rfl⟩
    · rw [if_pos rfl]
    · have hfirst : first ≠ some x := by
        intro hfirst
        simp [follow, hfirst] at hp
      have hp : m.prev = none := by simpa [follow, hfirst] using hp
      have hhx := h.first hm hp
      rw [follow_owner, if_neg, hhx]
      rintro rfl
      exact hfirst (Option.some.inj (hds.symm.trans hhx))
  whole {x cursor'} hcursor' := by
    obtain ⟨cursor, hcursor⟩ : ∃ cursor, head x = some cursor := by
      rw [hhead] at hcursor'
      split at hcursor'
      · next hx =>
        subst hx
        exact ⟨first, hds⟩
      · exact ⟨cursor', hcursor'⟩
    obtain ⟨ids, hids, hall⟩ := h.whole hcursor
    obtain ⟨_, hstart, hstrand⟩ := strand_insert hnew hself hother hhead hds hcursor hids
    obtain rfl := Option.some.inj (hcursor'.symm.trans hstart)
    refine ⟨_, hstrand, fun {y m'} hy ho => ?_⟩
    rcases of_follow hself hother hy with ⟨rfl, rfl⟩ | ⟨-, m, hm, rfl⟩
    · rw [if_pos ho.symm]
      exact List.mem_cons_self
    · have hmem := hall hm ((follow_owner _ _ _ _).symm.trans ho)
      split
      · exact List.mem_cons_of_mem _ hmem
      · exact hmem
  head {x y} hy := by
    rw [hhead] at hy
    split at hy
    · next hx =>
      subst hx
      obtain rfl := Option.some.inj (Option.some.inj hy)
      exact ⟨_, hself, rfl, rfl⟩
    · next hne =>
      obtain ⟨m, hm, hmp, rfl⟩ := h.head hy
      have hfirst : first ≠ some y := by
        rintro rfl
        obtain ⟨m₂, hm₂, -, hmo₂⟩ := h.head hds
        grind
      exact ⟨_, followed hnew hother hm, by simp [follow, hfirst, hmp], follow_owner _ _ _ _⟩

end Linked

/-! ## Linking and unlinking -/

namespace Store

variable {s s' : Store} {id : ContainerId}

/-- The imports of a dataspace, as a table. -/
def imports? (s : Store) (ds : DataspaceId) : Option (Std.TreeMap ContainerId Nat) :=
  (s.dataspace? ds).map Dataspace.imports

theorem links?_withContainer {c d : Container} (hc : s.container? id = some c)
    (other : ContainerId) :
    (s.withContainer id d).links? other = if id = other then some d.links else s.links? other := by
  unfold links?
  split
  · next h =>
    subst h
    rw [container?_withContainer_self hc]
    rfl
  · next h => rw [container?_withContainer_of_ne h]

theorem links?_of_container {c : Container} (hc : s.container? id = some c) :
    s.links? id = some c.links := by
  rw [links?, hc]
  rfl

/-- What `setNext` does to links, heads and imports. -/
theorem setNext_links {ds : DataspaceId} {prev next : Option ContainerId} {u : Unit}
    (h : setNext ds prev next s = .ok (u, s')) :
    (∀ other, s'.links? other =
      (s.links? other).map fun m => if prev = some other then { m with next } else m) ∧
    (∀ x, s'.head? x = if x = ds ∧ prev = none then (s.head? x).map fun _ => next else s.head? x) ∧
    ∀ x, s'.imports? x = s.imports? x := by
  cases prev with
  | none =>
    obtain rfl := StoreM.modifyDataspace_eq_ok.mp h
    refine ⟨fun other => ?_, fun x => ?_, fun x => ?_⟩
    · simp only [reduceCtorEq, if_false, Option.map_id']
      rfl
    · simp only [head?, dataspace?_withDataspace, and_true]
      split
      · rw [Option.map_map, Option.map_map]
        rfl
      · rfl
    · exact map_dataspace?_withDataspace (by exact fun _ => rfl) x
  | some p =>
    obtain ⟨c, hc, rfl⟩ := StoreM.modifyContainer_eq_ok.mp h
    refine ⟨fun other => ?_, fun x => ?_, fun _ => rfl⟩
    · rw [links?_withContainer hc]
      by_cases hp : p = other
      · subst hp
        rw [if_pos rfl, links?_of_container hc, Option.map_some, if_pos rfl]
        rfl
      · rw [if_neg hp, show (fun m : Links => if some p = some other then _ else m) = id from
          funext fun m => if_neg fun he => hp (Option.some.inj he), Option.map_id]
        rfl
    · rw [if_neg (by simp)]
      rfl

/-- What `setPrev` does to links; heads and imports stay. -/
theorem setPrev_links {prev next : Option ContainerId} {u : Unit}
    (h : setPrev prev next s = .ok (u, s')) :
    (∀ other, s'.links? other =
      (s.links? other).map fun m => if next = some other then { m with prev } else m) ∧
    (∀ x, s'.head? x = s.head? x) ∧ ∀ x, s'.imports? x = s.imports? x := by
  cases next with
  | none =>
    obtain ⟨-, rfl⟩ := StoreM.pure_eq_ok.mp h
    refine ⟨fun other => ?_, fun _ => rfl, fun _ => rfl⟩
    simp only [reduceCtorEq, if_false, Option.map_id']
  | some n =>
    obtain ⟨c, hc, rfl⟩ := StoreM.modifyContainer_eq_ok.mp h
    refine ⟨fun other => ?_, fun _ => rfl, fun _ => rfl⟩
    rw [links?_withContainer hc]
    by_cases hn : n = other
    · subst hn
      rw [if_pos rfl, links?_of_container hc, Option.map_some, if_pos rfl]
      rfl
    · rw [if_neg hn, show (fun m : Links => if some n = some other then _ else m) = id from
        funext fun m => if_neg fun he => hn (Option.some.inj he), Option.map_id]
      rfl

/-- Neither neighbour is a matter of what is counted. -/
theorem setNext_listed {ds : DataspaceId} {prev next : Option ContainerId} {u : Unit}
    (h : setNext ds prev next s = .ok (u, s')) (x : DataspaceId) : s'.listed? x = s.listed? x := by
  cases prev with
  | none =>
    obtain rfl := StoreM.modifyDataspace_eq_ok.mp h
    exact map_dataspace?_withDataspace (by exact fun _ => rfl) x
  | some p =>
    obtain ⟨c, -, rfl⟩ := StoreM.modifyContainer_eq_ok.mp h
    rfl

theorem setPrev_listed {prev next : Option ContainerId} {u : Unit}
    (h : setPrev prev next s = .ok (u, s')) (x : DataspaceId) : s'.listed? x = s.listed? x := by
  cases next with
  | none =>
    obtain ⟨-, rfl⟩ := StoreM.pure_eq_ok.mp h
    rfl
  | some n =>
    obtain ⟨c, -, rfl⟩ := StoreM.modifyContainer_eq_ok.mp h
    rfl

theorem recount_listed {ds : DataspaceId} {f : Nat → Nat} {u : Unit}
    (h : recount ds f s = .ok (u, s')) (x : DataspaceId) :
    s'.listed? x = if x = ds then (s.listed? x).map f else s.listed? x := by
  obtain rfl := StoreM.modifyDataspace_eq_ok.mp h
  simp only [listed?, dataspace?_withDataspace]
  split
  · rw [Option.map_map, Option.map_map]
    rfl
  · rfl

/-- Counting anew concerns no links, heads and imports. -/
theorem recount_links {ds : DataspaceId} {f : Nat → Nat} {u : Unit}
    (h : recount ds f s = .ok (u, s')) :
    (∀ other, s'.links? other = s.links? other) ∧ (∀ x, s'.head? x = s.head? x) ∧
      ∀ x, s'.imports? x = s.imports? x := by
  obtain rfl := StoreM.modifyDataspace_eq_ok.mp h
  exact ⟨fun _ => rfl, map_dataspace?_withDataspace (by exact fun _ => rfl),
    map_dataspace?_withDataspace (by exact fun _ => rfl)⟩

/-- Unlinking bypasses a container on its list. -/
theorem unlink_links {c : Container} {u : Unit} (hc : s.container? id = some c)
    (h : unlink id s = .ok (u, s')) :
    (∀ other, id ≠ other → s'.links? other = (s.links? other).map (Linked.bypass c.links other)) ∧
    (∀ x, s'.head? x =
      if x = c.owner ∧ c.prev = none then (s.head? x).map fun _ => c.next else s.head? x) ∧
    ∀ x, s'.imports? x = s.imports? x := by
  obtain ⟨c', s₁, s₂, hc', h₃, h₄, h₅⟩ := unlink_eq_ok h
  obtain rfl := Option.some.inj (hc.symm.trans hc')
  obtain ⟨hl₃, hh₃, hi₃⟩ := setNext_links h₃
  obtain ⟨hl₄, hh₄, hi₄⟩ := setPrev_links h₄
  obtain ⟨hl₅, hh₅, hi₅⟩ := recount_links h₅
  refine ⟨fun other hne => ?_, fun x => (hh₅ x).trans ((hh₄ x).trans (hh₃ x)),
    fun x => (hi₅ x).trans ((hi₄ x).trans (hi₃ x))⟩
  rw [hl₅, hl₄, hl₃, links?_withContainer hc, if_neg hne, Option.map_map]
  congr 1
  funext m
  by_cases hp : c.prev = some other <;> by_cases hn : c.next = some other <;>
    simp [Linked.bypass, Container.links, hp, hn]

/-- A container that is unlinked is not counted any more. -/
theorem unlink_listed {c : Container} {u : Unit} (hc : s.container? id = some c)
    (h : unlink id s = .ok (u, s')) (x : DataspaceId) :
    s'.listed? x = if x = c.owner then (s.listed? x).map (· - 1) else s.listed? x := by
  obtain ⟨c', s₁, s₂, hc', h₃, h₄, h₅⟩ := unlink_eq_ok h
  obtain rfl := Option.some.inj (hc.symm.trans hc')
  rw [recount_listed h₅, setPrev_listed h₄, setNext_listed h₃]
  rfl

/-- A container that is linked is counted. -/
theorem link_listed {ds : DataspaceId} {u : Unit} (h : link ds id s = .ok (u, s'))
    (x : DataspaceId) :
    s'.listed? x = if x = ds then (s.listed? x).map (· + 1) else s.listed? x := by
  obtain ⟨d, c, s₁, s₂, -, h₁, -, h₂, h₃⟩ := link_eq_ok h
  rw [recount_listed h₃, setPrev_listed h₂]
  have hset := setNext_listed h₁ x
  change s₁.listed? x = _ at hset
  show (if x = ds then (s₁.listed? x).map _ else s₁.listed? x) = _
  rw [hset]

/-- Linking puts a container in front of a list. -/
theorem link_links {ds : DataspaceId} {u : Unit} (h : link ds id s = .ok (u, s')) :
    ∃ first, s.head? ds = some first ∧ s'.links? id = some (if first = some id then
      { owner := ds, prev := some id, next := first } else ⟨ds, none, first⟩) ∧
    (∀ other, id ≠ other → s'.links? other = (s.links? other).map (Linked.follow id first other)) ∧
    (∀ x, s'.head? x = if x = ds then (s.head? x).map fun _ => some id else s.head? x) ∧
    ∀ x, s'.imports? x = s.imports? x := by
  obtain ⟨d, c, s₁, s₂, hd, h₂, hc, h₄, h₅⟩ := link_eq_ok h
  obtain ⟨hl₂, hh₂, hi₂⟩ := setNext_links h₂
  obtain ⟨hl₄, hh₄, hi₄⟩ := setPrev_links h₄
  obtain ⟨hl₅, hh₅, hi₅⟩ := recount_links h₅
  refine ⟨d.head, by rw [head?, hd]; rfl, ?_, fun other hne => ?_, fun x => ?_, fun x => ?_⟩
  · rw [hl₅, hl₄, links?_withContainer hc, if_pos rfl, Option.map_some]
    rfl
  · rw [hl₅, hl₄, links?_withContainer hc, if_neg hne, hl₂]
    simp only [reduceCtorEq, if_false, Option.map_id']
    rfl
  · rw [hh₅, hh₄]
    refine (hh₂ x).trans ?_
    simp only [and_true]
  · exact (hi₅ x).trans ((hi₄ x).trans (hi₂ x))

/-- A container that is on no list becomes the first one of its owner. -/
theorem link_first {off : ContainerId → Option Links} {ds : DataspaceId} {u : Unit}
    (h : link ds id s = .ok (u, s')) (hoff : Linked off s.head?) (hnone : off id = none)
    (hrest : ∀ other, id ≠ other → s.links? other = off other) :
    ∃ first, s.head? ds = some first ∧ s'.links? id = some ⟨ds, none, first⟩ ∧
      (∀ other, id ≠ other → s'.links? other = (off other).map (Linked.follow id first other)) ∧
      ∀ x, s'.head? x = if x = ds then some (some id) else s.head? x := by
  obtain ⟨first, hfirst, hself, hother, hhead, -⟩ := link_links h
  have hne : first ≠ some id := by
    rintro rfl
    obtain ⟨l, hl, -⟩ := hoff.head hfirst
    cases hnone.symm.trans hl
  rw [if_neg hne] at hself
  refine ⟨first, hfirst, hself, fun other hne => ?_, fun x => ?_⟩
  · rw [hother other hne, hrest other hne]
  · rw [hhead]
    split
    · next hx =>
      subst hx
      exact congrArg (Option.map _) hfirst
    · rfl

/-! ## Imports are kept beside the lists -/

/-- All sweep lists: where containers are linked, and the heads with their counts. -/
def sites (s : Store) :
    (ContainerId → Option Links) × (DataspaceId → Option (Option ContainerId × Nat)) :=
  (s.links?, fun ds => (s.dataspace? ds).map Dataspace.sweep)

/-- Sites are links, heads and counts. -/
theorem sites_eq {t : Store} (hl : ∀ id, t.links? id = s.links? id)
    (hh : ∀ ds, (t.dataspace? ds).map Dataspace.sweep = (s.dataspace? ds).map Dataspace.sweep) :
    t.sites = s.sites :=
  Prod.ext (funext hl) (funext hh)

theorem links?_of_sites {t : Store} (h : t.sites = s.sites) (id : ContainerId) :
    t.links? id = s.links? id := congrFun (congrArg Prod.fst h) id

theorem head?_of_sites {t : Store} (h : t.sites = s.sites) (ds : DataspaceId) :
    t.head? ds = s.head? ds := by
  have hsweep := congrArg (Option.map Prod.fst) (congrFun (congrArg Prod.snd h) ds)
  simp only [sites, Option.map_map] at hsweep
  exact hsweep

theorem listed?_of_sites {t : Store} (h : t.sites = s.sites) (ds : DataspaceId) :
    t.listed? ds = s.listed? ds := by
  have hsweep := congrArg (Option.map Prod.snd) (congrFun (congrArg Prod.snd h) ds)
  simp only [sites, Option.map_map] at hsweep
  exact hsweep

theorem sites_withDataspace {ds : DataspaceId} {f : Dataspace → Dataspace}
    (hf : ∀ d, (f d).sweep = d.sweep) : (s.withDataspace ds f).sites = s.sites :=
  sites_eq (fun _ => rfl) (map_dataspace?_withDataspace hf)

theorem sites_withContainer {c d : Container} (hc : s.container? id = some c)
    (hd : d.links = c.links) : (s.withContainer id d).sites = s.sites := by
  refine sites_eq (fun other => ?_) fun _ => rfl
  rw [links?_withContainer hc]
  split
  · next h =>
    subst h
    rw [hd, links?_of_container hc]
  · rfl

theorem sites_withPlane (s : Store) (f : Plane → Plane) : (s.withPlane f).sites = s.sites :=
  sites_eq (fun id => congrArg (Option.map _) (container?_withPlane s f id))
    fun ds => congrArg (Option.map _) (dataspace?_withPlane s f ds)

/-- To count an import links nothing. -/
theorem sites_addImport {ds : DataspaceId} {v : Value} {u : Unit}
    (h : addImport ds v s = .ok (u, s')) : s'.sites = s.sites := by
  rcases addImport_eq_ok h with ⟨rfl, -⟩ | ⟨_, _, -, -, -, rfl⟩
  · rfl
  · exact sites_withDataspace fun _ => rfl

/-- To drop an import links nothing. -/
theorem sites_dropImport {ds : DataspaceId} {v : Value} {u : Unit}
    (h : dropImport ds v s = .ok (u, s')) : s'.sites = s.sites := by
  rcases dropImport_eq_ok h with ⟨rfl, -⟩ | ⟨id, c, d, d', -, -, -, hd, hd', rfl⟩
  · rfl
  · refine sites_eq (fun _ => rfl) fun x => ?_
    simp only [dataspace?_withDataspace]
    split
    · next hx =>
      rw [hx, hd]
      unfold Dataspace.dropImport? at hd'
      split at hd'
      · cases hd'
      · cases hd'
        rfl
    · rfl

/-- Steps over a list keep what each of them keeps. -/
theorem sites_forM {α : Type} {f : α → StoreM PUnit}
    (hf : ∀ x s s' u, f x s = .ok (u, s') → s'.sites = s.sites) {xs : List α} {u : PUnit}
    (h : xs.forM f s = .ok (u, s')) : s'.sites = s.sites :=
  StoreM.Keeps.forM (fun x s s' u => hf x s s' u) xs h

theorem sites_addImports {ds : DataspaceId} {vs : List Value} {u : PUnit}
    (h : vs.forM (addImport ds) s = .ok (u, s')) : s'.sites = s.sites :=
  sites_forM (fun _ _ _ _ => sites_addImport) h

theorem sites_dropImports {ds : DataspaceId} {vs : List Value} {u : PUnit}
    (h : vs.forM (dropImport ds) s = .ok (u, s')) : s'.sites = s.sites :=
  sites_forM (fun _ _ _ _ => sites_dropImport) h

/-! ## Containers that go -/

/--
A container is off its sweep list and its slot is free; imports of what it held are still counted.
-/
structure Vacated (s : Store) (id : ContainerId) (c : Container) (t : Store) : Prop where
  alike : Alike (s.without id c) t
  links : ∀ other, id ≠ other → t.links? other = (s.links? other).map (Linked.bypass c.links other)
  head : ∀ x, t.head? x =
    if x = c.owner ∧ c.prev = none then (s.head? x).map fun _ => c.next else s.head? x
  count : ∀ x, t.listed? x = if x = c.owner then (s.listed? x).map (· - 1) else s.listed? x
  imports : ∀ x, t.imports? x = s.imports? x

/-- Taking an unlinked container out of its slot concerns no other. -/
theorem vacated_of_unlink {c d : Container} {t : Store} {u : Unit} (hc : s.container? id = some c)
    (h : unlink id s = .ok (u, t)) (hbare : d.bare = c.bare) : Vacated s id c (t.without id d) := by
  obtain ⟨hl, hh, hi⟩ := unlink_links hc h
  have helements : d.elements = c.elements := show d.bare.elements = c.bare.elements by rw [hbare]
  refine ⟨(alike_unlink h).without helements, fun other hne => ?_, hh,
    fun x => unlink_listed hc h x, hi⟩
  rw [links?, container?_without_of_ne hne]
  exact hl other hne

/-- A freed container is unlinked, its imports are dropped, and its elements are set free. -/
theorem freeContainer_vacates {c : Container} {children : List Value}
    (hc : s.container? id = some c) (h : freeContainer id s = .ok (children, s')) :
    children = c.buffer s.swap ++ c.overlayValues ∧ ∃ t u, Vacated s id c t ∧
      children.forM (dropImport c.owner) t = .ok (u, s') := by
  obtain ⟨hchildren, t, d, _, u, h₁, -, hbare, h₂⟩ := freeContainer_stages hc h
  exact ⟨hchildren, _, u, vacated_of_unlink hc h₁ hbare, h₂⟩

/-- What is vacated does not count its references. -/
theorem Vacated.of_recounted {c : Container} {t : Store} {n : Nat} (hc : s.container? id = some c)
    (h : Vacated (s.withContainer id { c with refcount := n }) id { c with refcount := n } t) :
    Vacated s id c t := by
  have hsites := sites_withContainer (d := { c with refcount := n }) hc rfl
  have halike := h.alike
  rw [without_withContainer] at halike
  exact ⟨halike, fun other hne => (h.links other hne).trans
    (congrArg (Option.map _) (links?_of_sites hsites other)), h.head, h.count, h.imports⟩

/-- What giving up a reference does to sweep lists and imports. -/
inductive Released (s : Store) : Value → List Value → Store → Prop where
  | kept {v : Value} {s' : Store} (hsites : s'.sites = s.sites)
      (hdataspaces : s'.dataspaces = s.dataspaces) (hswap : s'.swap = s.swap)
      (hcore : ∀ id, (s'.container? id).map Container.core = (s.container? id).map Container.core) :
      Released s v [] s'
  | freed {shape : Shape} {id : ContainerId} {c : Container} {s' t : Store} {u : PUnit}
      (hc : s.container? id = some c) (hone : c.refcount = 1) (ht : Vacated s id c t)
      (h : (c.buffer s.swap ++ c.overlayValues).forM (dropImport c.owner) t = .ok (u, s')) :
      Released s (.container shape id) (c.buffer s.swap ++ c.overlayValues) s'

/-- A reference that is dropped counts one less, or its container is vacated. -/
theorem dropReference_released {v : Value} {children : List Value}
    (h : dropReference v s = .ok (children, s')) : Released s v children s' := by
  cases v with
  | string id =>
    obtain ⟨_, s₁, h₁, h₂⟩ := StoreM.bind_eq_ok.mp h
    obtain ⟨rfl, rfl⟩ := StoreM.pure_eq_ok.mp h₂
    obtain ⟨heap, hr, rfl⟩ := StoreM.updateHeap_eq_ok.mp h₁
    obtain ⟨e, -, hr⟩ := Fallible.bind_eq_ok.mp hr
    -- Strings live in a slab of their own, so no list is touched.
    have hcontainers : heap.containers = s.heap.containers := by
      split at hr <;> (rw [← Fallible.pure_eq_ok.mp hr])
    have hsame : ∀ other, ({ s with heap } : Store).container? other = s.container? other :=
      fun other => congrArg (fun cells : Slab Container => cells.get? other.slot) hcontainers
    exact .kept (sites_eq (fun other => congrArg _ (hsame other)) fun _ => rfl) rfl rfl
      fun other => congrArg _ (hsame other)
  | container shape id =>
    obtain ⟨c, s₁, h₁, h⟩ := StoreM.bind_eq_ok.mp h
    obtain ⟨hc, rfl⟩ := StoreM.container_eq_ok.mp h₁
    split at h
    · exact absurd h StoreM.fault_ne_ok
    obtain ⟨_, s₂, h₂, h⟩ := StoreM.bind_eq_ok.mp h
    obtain ⟨c', hc', rfl⟩ := StoreM.modifyContainer_eq_ok.mp h₂
    obtain rfl := Option.some.inj (hc.symm.trans hc')
    have hsites := sites_withContainer (d := { c with refcount := c.refcount - 1 }) hc rfl
    split at h
    · next hone =>
      obtain ⟨hchildren, t, u, ht, h⟩ := freeContainer_vacates (container?_withContainer_self hc) h
      rw [hchildren] at h ⊢
      exact .freed (c := c) hc hone (ht.of_recounted hc) h
    · obtain ⟨rfl, rfl⟩ := StoreM.pure_eq_ok.mp h
      refine .kept hsites rfl rfl fun other => ?_
      by_cases hid : id = other
      · subst hid
        rw [container?_withContainer_self hc, hc]
        rfl
      · rw [container?_withContainer_of_ne hid]
  | _ =>
    obtain ⟨rfl, rfl⟩ := StoreM.pure_eq_ok.mp h
    exact .kept rfl rfl rfl fun _ => rfl

/-! ## Every step keeps the lists together -/

/-- The sweep lists of a store hang together. -/
def Listed (s : Store) : Prop := Linked s.links? s.head?

theorem Listed.of_sites (h : s.Listed) (hs : s'.sites = s.sites) : s'.Listed :=
  h.congr (links?_of_sites hs) (head?_of_sites hs)

/-- The lists are those before, without the container that was vacated. -/
theorem Vacated.listed {c : Container} {t : Store} (h : Vacated s id c t)
    (hc : s.container? id = some c) (hs : s.Listed) : t.Listed := by
  refine Linked.remove hs (links?_of_container hc) ?_ h.links h.head
  have hnone := h.alike.container id
  rw [container?_without_self] at hnone
  unfold links?
  rw [Option.map_eq_none_iff.mp hnone]
  rfl

/-- To drop a reference leaves lists. -/
theorem Released.listed {v : Value} {children : List Value} (h : Released s v children s')
    (hs : s.Listed) : s'.Listed := by
  cases h with
  | kept hsites => exact hs.of_sites hsites
  | freed hc hone ht h => exact (ht.listed hc hs).of_sites (sites_dropImports h)

theorem Retained.sites {v : Value} (h : Retained s v s') : s'.sites = s.sites := by
  cases h with
  | scalar => rfl
  | text => rfl
  | container hc => exact sites_withContainer hc rfl

/-- To record a patch links nothing. -/
theorem Recorded.sites {call : CallRef} {patch : CallPatch} {out : List Value}
    (h : Recorded call patch s out s') : s'.sites = s.sites := by
  cases h with
  | told => rfl
  | filed | folded | cancelled => exact sites_withPlane _ _

theorem sites_withCallouts (s : Store) (ds : DataspaceId)
    (f : Std.TreeMap CallHandle DeferredCall → Std.TreeMap CallHandle DeferredCall) :
    (s.withCallouts ds f).sites = s.sites :=
  sites_withDataspace fun _ => rfl

theorem sites_withVariable (s : Store) (ref : VariableRef) (v : Value) :
    (s.withVariable ref v).sites = s.sites :=
  sites_withDataspace fun _ => rfl

end Store

/-- A trade moves no container to another list. -/
theorem Trade.sites {id : ContainerId} {a b : Account} (h : Trade id a b) :
    b.store.sites = a.store.sites := by
  cases h with
  | @mk F q s w c d came gone A B C hc hframe =>
    exact sites_withContainer (s := { s with swap := w }) hc
      (congrArg Container.links hframe : d.frame.links = c.frame.links)

/-- What goes is taken off its list. -/
theorem Traffic.listed {a b : Account} (h : Traffic a b) (ha : a.store.Listed) :
    b.store.Listed := by
  cases h with
  | retain hv h => exact ha.of_sites (retain_eq_ok h).sites
  | drop h => exact (dropReference_released h).listed ha
  | charge h => exact ha.of_sites (sites_addImport h)
  | discharge h => exact ha.of_sites (sites_dropImport h)

/-- What comes is put in front of the list of its owner. -/
theorem Creation.listed {e : Effect} {a b : Account} (h : Creation e a b)
    (hs : a.store.heap.containers.Sound) (ha : a.store.Listed) : b.store.Listed := by
  cases h with
  | @container t s F C owner kind values u hv hm h =>
    refine Listed.of_sites (s := t) ?_ (sites_withPlane _ _)
    have hnone : s.links? s.heap.nextId = none := congrArg (Option.map _) (Slab.get?_nextCell hs)
    obtain ⟨first, hfirst, hself, hother, hhead⟩ := link_first h ha hnone
      fun other hne => congrArg (Option.map _) (container?_withNew_of_ne hne)
    exact Linked.insert ha hnone hfirst hself hother hhead
  | @retag s F C q id c tag hc hone => exact ha.of_sites (sites_withContainer hc rfl)
  | string | spawn | destroy => exact ha
  | @dataspace s F n =>
    have hhead : ∀ {ds h}, s.head? ds = some h →
        ({ s with dataspaces := s.dataspaces.push { vars := Array.replicate n .nil } } :
          Store).head? ds = some h := by
      intro ds h hh
      obtain ⟨d, hd, rfl⟩ := Option.map_eq_some_iff.mp hh
      exact Option.map_eq_some_iff.mpr ⟨d, dataspace?_founded_of_some n hd, rfl⟩
    have hold : ∀ {ds h},
        ({ s with dataspaces := s.dataspaces.push { vars := Array.replicate n .nil } } :
          Store).head? ds = some h → s.head? ds = some h ∨ h = none ∧ s.head? ds = none := by
      intro ds h hh
      obtain ⟨d, hd, rfl⟩ := Option.map_eq_some_iff.mp hh
      rw [dataspace?_founded] at hd
      split at hd
      · next hnew =>
        cases hd
        exact .inr ⟨rfl, Option.map_eq_none_iff.mpr (Array.getElem?_eq_none hnew.ge)⟩
      · exact .inl (congrArg (Option.map _) hd)
    refine ⟨fun hl => ?_, ha.next, ha.prev, fun hl hp => hhead (ha.first hl hp),
      fun {ds first} hh => ?_, fun {ds id} hh => ?_⟩
    · obtain ⟨h, hh⟩ := ha.owner hl
      exact ⟨h, hhead hh⟩
    · rcases hold hh with hh | ⟨rfl, hnone⟩
      · exact ha.whole hh
      · refine ⟨[], .nil, fun {id l} hl ho => ?_⟩
        obtain ⟨k, hk⟩ := ha.owner hl
        rw [ho, hnone] at hk
        cases hk
    · rcases hold hh with hh | ⟨hid, -⟩
      · exact ha.head hh
      · cases hid

/-- Writes to variables and calls link nothing. -/
theorem Writing.sites {e : Effect} {a b : Account} (h : Writing e a b) :
    b.store.sites = a.store.sites := by
  cases h with
  | write => exact sites_withVariable _ _ _
  | firstWrite hold hv hp hnew h =>
    exact (sites_withPlane _ _).trans ((sites_dropImport h).trans (sites_withVariable _ _ _))
  | addCall hd hv h =>
    exact h.sites.trans ((sites_withCallouts _ _ _).trans (sites_withDataspace fun _ => rfl))
  | removeCall hold h₁ h₂ | replaceCall hold hv h₁ h₂ =>
    exact h₂.sites.trans ((sites_dropImport h₁).trans (sites_withCallouts _ _ _))

/-- No container changes its list as regions are entered and left. -/
theorem Nesting.sites {e : Effect} {a b : Account} (h : Nesting e a b) :
    b.store.sites = a.store.sites := by
  cases h with
  | backUp hc => exact (sites_withPlane _ _).trans (sites_withContainer hc rfl)
  | enter | pop | forget | skip | unsave | finish => rfl
  | refile | resave => exact sites_withPlane _ _
  | settle hl hledger hc =>
    refine (sites_withPlane _ _).trans (sites_withContainer hc ?_)
    split <;> rfl
  | record hl hf h => exact h.sites
  | restore hl hf hc he h => exact (sites_addImports h).trans (sites_withContainer hc rfl)
  | restoreVariable hl hf h hcur => exact (sites_withVariable _ _ _).trans (sites_addImport h)
  | unwindAdded => exact sites_withCallouts _ _ _
  | unwindRemoved hl hf hd h => exact (sites_addImport h).trans (sites_withCallouts _ _ _)
  | unwindReplaced hl hf hcur h => exact (sites_addImport h).trans (sites_withCallouts _ _ _)

/-- A transfer takes a container off one list and puts it in front of another. -/
theorem Transfer.listed {ds : DataspaceId} {id : ContainerId} {a b : Account}
    (h : Transfer ds id a b) (ha : a.store.Listed) : b.store.Listed := by
  cases h with
  | @mk s F c d values s₁ s₂ s₃ s₄ u u₃ u₁ u₂ hp hc he howner hd hall h₁ h₂ h₃ h₄ =>
    have hs₁ : s₁.Listed := ha.of_sites (sites_dropImports h₁)
    obtain ⟨c₁, hc₁, -⟩ := (alike_dropImports h₁).exists_container hc
    obtain ⟨hlinks₂, hhead₂, -⟩ := unlink_links hc₁ h₂
    -- The container is on no list between the two.
    let off : ContainerId → Option Links := fun x => if id = x then none else s₂.links? x
    have hoff : Linked off s₂.head? := by
      refine Linked.remove hs₁ (links?_of_container hc₁) (if_pos rfl) (fun other hne => ?_) hhead₂
      exact (if_neg hne).trans (hlinks₂ other hne)
    have hnone : off id = none := if_pos rfl
    obtain ⟨first, hfirst, hself, hother, hhead⟩ :=
      link_first h₃ hoff hnone fun other hne => (if_neg hne).symm
    have hs₃ : s₃.Listed := Linked.insert hoff hnone hfirst hself hother hhead
    refine hs₃.of_sites ((sites_addImports h₄).trans (sites_withDataspace ?_))
    exact fun _ => rfl

/-- Sweep lists hang together after a step if they did before. -/
theorem Step.listed {e : Effect} {a b : Account} (h : Step e a b) (hacc : a.Accounted)
    (ha : a.store.Listed) : b.store.Listed := by
  cases h with
  | traffic h => exact h.listed ha
  | upkeep h => exact ha.of_sites (h.trade hacc).sites
  | change h => exact ha.of_sites (h.trade hacc).sites
  | creation h => exact h.listed hacc.balanced.containers ha
  | writing h => exact ha.of_sites h.sites
  | nesting h => exact ha.of_sites h.sites
  | transfer h => exact h.listed ha

end PlaneStore
