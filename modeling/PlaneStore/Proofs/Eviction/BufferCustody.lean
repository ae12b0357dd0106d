import PlaneStore.Proofs.Accounts.StepInvariants

/-!
# Custody of buffers

The elements of a container are with the container or, under a ticket, with the swap. `Hands` lists
all that a step can do about this: most steps do nothing, some take one buffer back, and one hands
over a buffer under a ticket that was never used before. From this follow the invariant that the
swap has no buffer which no container waits for, and that a buffer stays as it is while it is there.
-/

namespace PlaneStore

/-- What an evicted container waits with: its ticket, and what is pending for it. -/
def Container.claim? (c : Container) : Option (SwapTicket × Option Overlay) :=
  match c.elements with
  | .resident _ => none
  | .evicted ticket _ => some (ticket, c.overlay)

namespace Store

/-- What the container in a slot waits with, if its elements are with the swap. -/
def claim? (s : Store) (id : ContainerId) : Option (SwapTicket × Option Overlay) :=
  (s.container? id).bind Container.claim?

/-- The ticket that the container in a slot holds. -/
def ticket? (s : Store) (id : ContainerId) : Option SwapTicket := (s.claim? id).map Prod.fst

/-- Nothing passes between containers and the swap. -/
structure Idle (s s' : Store) : Prop where
  claim : ∀ id, s'.claim? id = s.claim? id
  buffers : s'.swap.buffers = s.swap.buffers
  next : s'.swap.next = s.swap.next

/-- What a step does to the swap. -/
inductive Hands (s : Store) : Effect → Store → Prop
  | idle {e : Effect} (h : Idle s s') : Hands s e s'
  /-- A buffer is taken back, and its container is resident or gone. -/
  | takes {e : Effect} {id : ContainerId} {ticket : SwapTicket} (ht : s.ticket? id = some ticket)
      (h : ∀ other, s'.claim? other = if other = id then none else s.claim? other)
      (hb : s'.swap.buffers = s.swap.buffers.erase ticket) (hn : s'.swap.next = s.swap.next) :
      Hands s e s'
  /-- A buffer is handed over under the next ticket, and nothing is pending for it. -/
  | gives {id : ContainerId} {values : Array Value} (ht : s.claim? id = none)
      (h : ∀ other, s'.claim? other =
        if other = id then some (⟨s.swap.next⟩, none) else s.claim? other)
      (hb : s'.swap.buffers = s.swap.buffers.insert ⟨s.swap.next⟩ values)
      (hn : s'.swap.next = s.swap.next + 1) : Hands s (.evict id) s'

section

variable {s s' s'' : Store} {id other : ContainerId} {c d : Container} {ticket : SwapTicket}

theorem claim?_of_container (hc : s.container? id = some c) : s.claim? id = c.claim? := by
  simp [claim?, hc]

theorem ticket?_eq_some : s.ticket? id = some ticket ↔
    ∃ c n, s.container? id = some c ∧ c.elements = .evicted ticket n := by
  unfold ticket? claim? Container.claim?
  constructor
  · intro h
    obtain ⟨⟨t, o⟩, hclaim, rfl⟩ := Option.map_eq_some_iff.mp h
    obtain ⟨c, hc, hclaim⟩ := Option.bind_eq_some_iff.mp hclaim
    split at hclaim
    · cases hclaim
    · next n he =>
      obtain rfl := (Prod.mk.inj (Option.some.inj hclaim)).1
      exact ⟨c, n, hc, he⟩
  · rintro ⟨c, n, hc, he⟩
    simp [hc, he]

theorem claim?_withContainer (hc : s.container? id = some c) (other : ContainerId) :
    (s.withContainer id d).claim? other = if other = id then d.claim? else s.claim? other := by
  by_cases h : id = other
  · subst h
    rw [if_pos rfl, claim?_of_container (container?_withContainer_self hc)]
  · rw [if_neg (Ne.symm h)]
    simp only [claim?, container?_withContainer_of_ne h]

theorem claim?_without (other : ContainerId) :
    (s.without id c).claim? other = if other = id then none else s.claim? other := by
  by_cases h : id = other
  · subst h
    simp [claim?, container?_without_self]
  · rw [if_neg (Ne.symm h)]
    simp only [claim?, container?_without_of_ne h]

theorem Alike.claim? (h : Alike s s') (id : ContainerId) : s'.claim? id = s.claim? id := by
  have hbare := h.container id
  unfold Store.claim?
  cases hc : s.container? id with
  | none =>
    rw [hc] at hbare
    rw [Option.map_eq_none_iff.mp hbare]
  | some c =>
    obtain ⟨c', hc', hsame⟩ := h.exists_container hc
    rw [hc']
    show c'.bare.claim? = c.bare.claim?
    rw [hsame]

/-! ## Stores between which nothing passes -/

namespace Idle

protected theorem refl (s : Store) : Idle s s := ⟨fun _ => rfl, rfl, rfl⟩

protected theorem trans (h : Idle s s') (h' : Idle s' s'') : Idle s s'' where
  claim id := (h'.claim id).trans (h.claim id)
  buffers := h'.buffers.trans h.buffers
  next := h'.next.trans h.next

/-- Nothing passes where neither heap nor swap is touched. -/
theorem same (hh : s'.heap = s.heap) (hs : s'.swap = s.swap) : Idle s s' where
  claim id := by simp only [claim?, container?, hh]
  buffers := by rw [hs]
  next := by rw [hs]

theorem of_alike (h : Alike s s') : Idle s s' :=
  ⟨h.claim?, by rw [h.swap], by rw [h.swap]⟩

theorem withPlane (s : Store) (f : Plane → Plane) : Idle s (s.withPlane f) where
  claim id := by simp only [claim?, container?_withPlane]
  buffers := by rw [(withPlane_fields s f).2.1]
  next := by rw [(withPlane_fields s f).2.1]

/-- A container is replaced by one that waits with the same, or for nothing still. -/
theorem withContainer (hc : s.container? id = some c) (h : d.claim? = c.claim?) :
    Idle s (s.withContainer id d) where
  claim other := by
    rw [claim?_withContainer hc]
    split
    · next he => rw [he, h, claim?_of_container hc]
    · rfl
  buffers := rfl
  next := rfl

/-- A resident container is replaced by another. -/
theorem withResident {values values' : Array Value} (hc : s.container? id = some c)
    (he : c.elements = .resident values) (hd : d.elements = .resident values') :
    Idle s (s.withContainer id d) := by
  refine withContainer hc ?_
  simp only [Container.claim?, he, hd]

theorem withNew (hs : s.heap.containers.Sound) (hc : c.claim? = none) :
    Idle s (s.withNew c) where
  claim id := by
    by_cases h : s.heap.nextId = id
    · subst h
      simp [claim?, container?_withNew_self hs, container?_nextId hs, hc]
    · simp only [claim?, container?_withNew_of_ne h]
  buffers := rfl
  next := rfl

end Idle

/-- To record a patch leaves the swap idle. -/
theorem Recorded.idle {call : CallRef} {patch : CallPatch} {out : List Value}
    (h : Recorded call patch s out s') : Idle s s' := by
  cases h with
  | told => exact .same rfl rfl
  | filed | folded | cancelled => exact .withPlane _ _

theorem Retained.idle {v : Value} (h : Retained s v s') : Idle s s' := by
  cases h with
  | scalar => exact .refl s
  | text => exact ⟨fun _ => rfl, rfl, rfl⟩
  | container hc => exact .withContainer hc rfl

/-- A container that is freed leaves no buffer behind. -/
theorem Dropped.hands {v : Value} {children : List Value} {e : Effect}
    (h : Dropped s v children s') : Hands s e s' := by
  cases h with
  | scalar => exact .idle (.refl s)
  | text | lastText => exact .idle ⟨fun _ => rfl, rfl, rfl⟩
  | shared hc => exact .idle (.withContainer hc rfl)
  | @freed _ id c _ hc hone hal =>
    have hswap := hal.swap
    cases he : c.elements with
    | resident values =>
      have hs : (s.without id c).swap = s.swap := by simp only [Store.without, he]
      refine .idle ⟨fun other => ?_, by rw [hswap, hs], by rw [hswap, hs]⟩
      rw [hal.claim?, claim?_without]
      split
      · next hid => simp only [hid, claim?_of_container hc, Container.claim?, he]
      · rfl
    | evicted ticket n =>
      have hs : (s.without id c).swap = (s.swap.load ticket).2 := by simp only [Store.without, he]
      refine .takes (ticket?_eq_some.mpr ⟨c, n, hc, he⟩) (fun other => ?_) ?_ ?_
      · rw [hal.claim?, claim?_without]
      · rw [hswap, hs]
        rfl
      · rw [hswap, hs]
        rfl

end

/-! ## What follows for the swap -/

/-- Whatever is in the swap is waited for by a container for which nothing is pending. -/
structure Custody (s : Store) : Prop where
  claimed : ∀ {ticket values}, s.swap.buffers[ticket]? = some values →
    ∃ id, s.ticket? id = some ticket
  clean : ∀ {id ticket o}, s.claim? id = some (ticket, o) → o = none

section

variable {s s' : Store} {e : Effect} {id id' : ContainerId} {ticket : SwapTicket}

/-- A container with pending writes has its elements at hand. -/
theorem Custody.resident (h : s.Custody) {c : Container} {o : Overlay}
    (hc : s.container? id = some c) (ho : c.overlay = some o) :
    ∃ values, c.elements = .resident values := by
  cases he : c.elements with
  | resident values => exact ⟨values, rfl⟩
  | evicted ticket n =>
    have hclaim : s.claim? id = some (ticket, some o) := by
      rw [claim?_of_container hc]
      simp only [Container.claim?, he, ho]
    exact absurd (h.clean hclaim) (by simp)

/-- The swap has a buffer for every ticket that is held. -/
theorem Stored.exists_buffer (hs : s.Stored) (ht : s.ticket? id = some ticket) :
    ∃ values, s.swap.buffers[ticket]? = some values := by
  obtain ⟨c, n, hc, he⟩ := ticket?_eq_some.mp ht
  obtain ⟨values, hv, -⟩ := hs.length hc he
  exact ⟨values, hv⟩

/-- No two containers hold one ticket. -/
theorem Stored.ticket_inj (hs : s.Stored) (h : s.ticket? id = some ticket)
    (h' : s.ticket? id' = some ticket) : id = id' := by
  obtain ⟨c, n, hc, he⟩ := ticket?_eq_some.mp h
  obtain ⟨c', n', hc', he'⟩ := ticket?_eq_some.mp h'
  exact hs.apart hc hc' he he'

theorem Stored.ticket_lt (hs : s.Stored) (ht : s.ticket? id = some ticket) :
    ticket.number < s.swap.next := by
  obtain ⟨values, hv⟩ := hs.exists_buffer ht
  exact hs.next hv

/-- A ticket that is held after a step was held for the same buffer, or is new. -/
theorem Hands.held (h : Hands s e s') (hs : s.Stored) (ht : s'.ticket? id = some ticket) :
    s.ticket? id = some ticket ∧ s'.swap.buffers[ticket]? = s.swap.buffers[ticket]? ∨
      e = .evict id ∧ ticket = ⟨s.swap.next⟩ := by
  unfold ticket? at ht ⊢
  cases h with
  | idle h =>
    rw [h.claim] at ht
    exact .inl ⟨ht, by rw [h.buffers]⟩
  | @takes _ _ taken t htaken h hb hn =>
    rw [h] at ht
    split at ht
    · cases ht
    · next hne =>
      -- One ticket has one owner, so what is taken out belongs to another container.
      have hdiff : t ≠ ticket := by
        rintro rfl
        exact hne (hs.ticket_inj ht htaken)
      refine .inl ⟨ht, ?_⟩
      rw [hb]
      exact Swap.getElem?_load_of_ne hdiff
  | @gives _ given values hnone h hb hn =>
    rw [h] at ht
    split at ht
    · next heq =>
      cases ht
      exact .inr ⟨by rw [heq], rfl⟩
    · have hlt := hs.ticket_lt ht
      have hdiff : (⟨s.swap.next⟩ : SwapTicket) ≠ ticket := by
        rintro rfl
        exact Nat.lt_irrefl _ hlt
      refine .inl ⟨ht, ?_⟩
      rw [hb]
      exact @Swap.getElem?_store_of_ne _ values _ hdiff

theorem Hands.next_le (h : Hands s e s') : s.swap.next ≤ s'.swap.next := by
  cases h with
  | idle h => exact h.next.ge
  | takes _ _ _ hn => exact hn.ge
  | gives _ _ _ hn => omega

/-- A buffer that the swap has is waited for by a container. -/
theorem Hands.claimed (h : Hands s e s') (hc : s.Custody) {values : Array Value}
    (hv : s'.swap.buffers[ticket]? = some values) : ∃ id, s'.ticket? id = some ticket := by
  unfold ticket?
  cases h with
  | idle h =>
    rw [h.buffers] at hv
    obtain ⟨id, hid⟩ := hc.claimed hv
    exact ⟨id, by rw [h.claim]; exact hid⟩
  | @takes _ _ taken t htaken h hb hn =>
    rw [hb] at hv
    have hold : s.swap.buffers[ticket]? = some values := Swap.getElem?_of_load (s := s.swap) hv
    obtain ⟨id, hid⟩ := hc.claimed hold
    refine ⟨id, ?_⟩
    rw [h, if_neg]
    · exact hid
    · rintro rfl
      obtain rfl := Option.some.inj (htaken.symm.trans hid)
      simp at hv
  | @gives _ given buffer hnone h hb hn =>
    rw [hb] at hv
    by_cases hnew : (⟨s.swap.next⟩ : SwapTicket) = ticket
    · exact ⟨given, by rw [h, if_pos rfl, ← hnew]; rfl⟩
    · have hold : s.swap.buffers[ticket]? = some values :=
        (@Swap.getElem?_store_of_ne _ buffer _ hnew).symm.trans hv
      obtain ⟨id, hid⟩ := hc.claimed hold
      refine ⟨id, ?_⟩
      rw [h, if_neg]
      · exact hid
      · rintro rfl
        simp [ticket?, hnone] at hid

theorem Hands.custody (h : Hands s e s') (hc : s.Custody) : s'.Custody := by
  refine ⟨h.claimed hc, fun {id ticket o} hclaim => ?_⟩
  cases h with
  | idle h =>
    rw [h.claim] at hclaim
    exact hc.clean hclaim
  | takes _ h =>
    rw [h] at hclaim
    split at hclaim
    · cases hclaim
    · exact hc.clean hclaim
  | gives _ h =>
    rw [h] at hclaim
    split at hclaim
    · exact (Prod.mk.inj (Option.some.inj hclaim)).2.symm
    · exact hc.clean hclaim

end

end Store

open Store

/-! ## Every step -/

section

variable {a b : Account} {e : Effect} {id : ContainerId}

theorem Traffic.hands (h : Traffic a b) : Hands a.store e b.store := by
  cases h with
  | retain _ h => exact .idle (retain_eq_ok h).idle
  | drop h => exact (dropReference_eq_ok h).hands
  | charge h => exact .idle (.of_alike (alike_addImport h))
  | discharge h => exact .idle (.of_alike (alike_dropImport h))

theorem Upkeep.hands (h : Upkeep id e a b) : Hands a.store e b.store := by
  cases h with
  | @load s F C q c ticket n hc he hn =>
    have hc₁ : ({ s with swap := (s.swap.load ticket).2 } : Store).container? id = some c := hc
    exact .takes (ticket?_eq_some.mpr ⟨c, n, hc, he⟩) (claim?_withContainer hc₁) rfl rfl
  | @evict s F C q c values hc he ho hp =>
    have hc₁ : ({ s with swap := (s.swap.store values).2 } : Store).container? id = some c := hc
    refine .gives ?_ (fun other => (claim?_withContainer hc₁ other).trans ?_) rfl rfl
    · rw [claim?_of_container hc]
      simp only [Container.claim?, he]
    · simp only [Container.claim?, ho]
      rfl
  | @report s F C q c hc =>
    exact .idle ((Idle.withContainer (d := { c with sizeReported := true }) hc rfl).trans
      ⟨fun _ => rfl, rfl, rfl⟩)
  | scrub hc he | absorb hc _ he => exact .idle (.withResident hc he rfl)
  | compact hc he ho hk hlive htold =>
    exact .idle ((Idle.withResident hc he (by exact rfl)).trans
      ⟨fun _ => rfl, htold.buffers.1, htold.buffers.2⟩)

theorem Change.idle {ed : Edit} (h : Change id ed a b) (ha : a.store.Custody) :
    Idle a.store b.store := by
  cases h with
  | overwrite hc _ _ he | overwriteValue hc _ _ he | deletePair hc _ _ he =>
    exact .withResident hc he rfl
  | park hc _ _ he | unpark hc _ he => exact .withResident hc he he
  | overwritePending hc _ ho =>
    obtain ⟨values, he⟩ := ha.resident hc ho
    exact .withResident hc he he

theorem Creation.idle (h : Creation e a b) (ha : a.Accounted) : Idle a.store b.store := by
  cases h with
  | container hv hm h =>
    have hs := ha.balanced.containers
    exact ((Idle.withNew hs rfl).trans (.of_alike (alike_link_new hs rfl h))).trans (.withPlane _ _)
  | @retag s F C q id c tag hc hone =>
    exact (Idle.withContainer (d := { c with tag }) hc rfl).trans ⟨fun _ => rfl, rfl, rfl⟩
  | string | dataspace | spawn | destroy => exact ⟨fun _ => rfl, rfl, rfl⟩

theorem Writing.idle (h : Writing e a b) : Idle a.store b.store := by
  cases h with
  | write => exact .same rfl rfl
  | firstWrite _ _ _ _ h =>
    refine Idle.trans ?_ ((Idle.of_alike (alike_dropImport h)).trans (.withPlane _ _))
    exact .same rfl rfl
  | addCall _ _ h =>
    refine Idle.trans ?_ h.idle
    exact .same rfl rfl
  | removeCall _ h₁ h₂ | replaceCall _ _ h₁ h₂ =>
    refine Idle.trans ?_ ((Idle.of_alike (alike_dropImport h₁)).trans h₂.idle)
    exact .same rfl rfl

theorem Nesting.idle (h : Nesting e a b) : Idle a.store b.store := by
  cases h with
  | @backUp s F C id c values p rest hc =>
    exact (Idle.withContainer (d := { c with home := s.level }) hc rfl).trans (.withPlane _ _)
  | enter | pop | forget | skip | unsave | finish | unwindAdded => exact .same rfl rfl
  | refile | resave => exact .withPlane _ _
  | settle _ _ hc =>
    refine (Idle.withContainer hc ?_).trans (.withPlane _ _)
    split
    · rfl
    · rfl
  | record _ _ h => exact h.idle
  | restore _ _ hc he h =>
    exact (Idle.withResident hc he (by exact rfl)).trans (.of_alike (alike_addImports h))
  | restoreVariable _ _ h => exact (Idle.of_alike (alike_addImport h)).trans (.same rfl rfl)
  | unwindRemoved _ _ _ h | unwindReplaced _ _ _ h =>
    refine Idle.trans ?_ (.of_alike (alike_addImport h))
    exact .same rfl rfl

theorem Step.hands (h : Step e a b) (ha : a.Accounted) (hc : a.store.Custody) :
    Hands a.store e b.store := by
  cases h with
  | traffic h => exact h.hands
  | upkeep h => exact h.hands
  | change h => exact .idle (h.idle hc)
  | creation h => exact .idle (h.idle ha)
  | writing h => exact .idle h.idle
  | nesting h => exact .idle h.idle
  | transfer h =>
    obtain ⟨c, hc, hal⟩ := h.alike
    have hmoved := Idle.of_alike hal
    exact .idle ((Idle.withContainer hc (by exact rfl)).trans hmoved)

/-! ## Every chain of steps -/

variable {E : Effect → Prop} {ticket : SwapTicket}

theorem Path.custody (h : Path E a b) (ha : a.Kept) (hc : a.store.Custody) :
    b.store.Custody := by
  induction h with
  | refl => exact hc
  | tail h he hs ih => exact (hs.hands (h.kept ha).accounted ih).custody ih

/-- On every path the tickets only go up. -/
theorem Path.next_le (h : Path E a b) (ha : a.Kept) (hc : a.store.Custody) :
    a.store.swap.next ≤ b.store.swap.next := by
  induction h with
  | refl => exact Nat.le_refl _
  | tail h he hs ih =>
    exact Nat.le_trans ih (hs.hands (h.kept ha).accounted (h.custody ha hc)).next_le

/--
A ticket that is held after some steps was held for the same buffer, or is newer than all before.
-/
theorem Path.held (h : Path E a b) (ha : a.Kept) (hc : a.store.Custody)
    (ht : b.store.ticket? id = some ticket) :
    a.store.ticket? id = some ticket ∧
        b.store.swap.buffers[ticket]? = a.store.swap.buffers[ticket]? ∨
      E (.evict id) ∧ a.store.swap.next ≤ ticket.number := by
  induction h with
  | refl => exact .inl ⟨ht, rfl⟩
  | tail h he hs ih =>
    have hb := (h.kept ha).accounted
    rcases (hs.hands hb (h.custody ha hc)).held hb.stored ht with ⟨hheld, hsame⟩ | ⟨rfl, rfl⟩
    · exact (ih hheld).imp_left fun ⟨hfirst, hbefore⟩ => ⟨hfirst, hsame.trans hbefore⟩
    · exact .inr ⟨he, h.next_le ha hc⟩

end

end PlaneStore
