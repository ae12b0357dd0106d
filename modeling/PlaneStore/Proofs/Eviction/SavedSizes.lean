import PlaneStore.Proofs.Eviction.BufferCustody
import PlaneStore.Proofs.Eviction.SizeNotes
import PlaneStore.Proofs.Eviction.SweepWalk

/-!
# Sizes of what is evicted

An eviction reports nothing. The container remembers the size it then has, and it stays evicted
until the request is over, whatever else the request evicts.
-/

namespace PlaneStore

open Store

section

variable {a b : Account} {e : Effect} {id : ContainerId} {m : Nat}

/-! ## Nothing is reported -/

theorem Effect.Moves.not_resizes : ∀ e : Effect, e.Moves → ¬e.Resizes id
  | _, .still => not_false
  | _, .evict _ => not_false
  | _, .transfer _ _ => not_false

/-- Outside of regions no backup is taken. -/
theorem Step.backups_nil (h : Step e a b) (ha : a.Accounted) (hlevel : a.store.level = 0)
    (hnone : a.backups = []) : b.backups = [] := by
  refine List.eq_nil_iff_forall_not_mem.mpr fun y hy => ?_
  rcases h.backups ha hy with hold | ⟨x, -, -, -, hhome⟩
  · rw [hnone] at hold
    exact List.not_mem_nil hold
  · rw [hlevel] at hhome
    exact Nat.not_lt_zero _ hhome

/-- Where no sizes are brought back, evicting leaves nothing untold and tells nothing. -/
theorem Path.moved (h : Path Effect.Moves a b) (ha : a.Kept) (hlevel : a.store.level = 0)
    (hnone : a.backups = []) (hinf : a.Informed id) :
    b.backups = [] ∧ b.Informed id ∧ ∀ c', b.store.container? id = some c' →
      ∃ c, a.store.container? id = some c ∧ b.store.reports id = a.store.reports id := by
  induction h with
  | refl => exact ⟨hnone, hinf, fun c' hc' => ⟨c', hc', rfl⟩⟩
  | @tail b d e h he hs ih =>
    obtain ⟨hbackups, hmid, hsofar⟩ := ih
    have hb := h.kept ha
    have hd := (hs.kept hb).accounted
    have hblevel : b.store.level = 0 := by
      rw [h.level ha fun _ he => ?_, hlevel]
      cases he <;> exact ⟨nofun, nofun⟩
    have hoffers : ∀ m, d.Offers id m → b.Offers id m := fun m hm =>
      (hs.offers hb hm).resolve_right fun hr => he.not_resizes _ hr.1
    -- Without backups the only size on offer is that of the container itself.
    have hsize : ∀ {c m}, b.store.container? id = some c → b.Offers id m → m = c.size := by
      rintro c m hc (⟨x, hx, rfl⟩ | ⟨y, hy, -⟩)
      · obtain rfl := Option.some.inj ((content?_of_container hc).symm.trans hx)
        exact hb.accounted.size_content hc
      · rw [hbackups] at hy
        exact absurd hy List.not_mem_nil
    refine ⟨hs.backups_nil hb.accounted hblevel hbackups, fun c'' n hc'' hnote'' m hm => ?_,
      fun c'' hc'' => ?_⟩
    · cases hs.notes hb.accounted hc'' with
      | kept hc hnote => exact hmid _ n hc (hnote.symm.trans hnote'') m (hoffers m hm)
      | made => cases he
      | evicted hc hnote =>
        obtain rfl : _ = n := Option.some.inj (Prod.mk.inj (hnote.symm.trans hnote'')).1
        exact hsize hc (hoffers m hm)
      | told _ _ _ hnote => cases hnote.symm.trans hnote''
    · cases hs.notes hb.accounted hc'' with
      | kept hc hnote hk | evicted hc hnote hk =>
        obtain ⟨c₀, hc₀, hk₀⟩ := hsofar _ hc
        exact ⟨c₀, hc₀, hk.trans hk₀⟩
      | made => cases he
      | told _ hc hnote _ hne =>
        exact absurd (hmid _ _ hc hnote _ (hoffers _ (Account.offers_size hd hc''))) hne

end

/-! ## What is parked with the swap -/

/--
What is in a slot is evicted, has a ticket with at least the number given, and remembers the size
that it has.
-/
def Store.Parked (s : Store) (n : Nat) (id : ContainerId) : Prop :=
  ∀ c, s.container? id = some c →
    c.note = (some c.size, false) ∧ ∃ ticket k, c.elements = .evicted ticket k ∧ n ≤ ticket.number

section

variable {s s' : Store} {F : Refs} {C : Charges} {q : Option Closing} {id other : ContainerId}
  {n m : Nat} {b : Bool}

theorem Store.Parked.mono (h : s.Parked n id) (hle : m ≤ n) : s.Parked m id := by
  intro c hc
  obtain ⟨hnote, ticket, k, he, hn⟩ := h c hc
  exact ⟨hnote, ticket, k, he, Nat.le_trans hle hn⟩

/-- A parked container holds a ticket that was given out since. -/
theorem Store.Parked.ticket (h : s.Parked n id) {c : Container} (hc : s.container? id = some c) :
    ∃ ticket, s.ticket? id = some ticket ∧ n ≤ ticket.number := by
  obtain ⟨-, ticket, k, he, hn⟩ := h c hc
  exact ⟨ticket, ticket?_eq_some.mpr ⟨c, k, hc, he⟩, hn⟩

/-- What is parked stays so while others are evicted. -/
theorem evictOne_parked (ha : Account.Kept ⟨s, F, C, q⟩) (hs : s.Parked n id)
    (h : evictOne other s = .ok (b, s')) : s'.Parked n id := by
  by_cases hid : id = other
  · subst hid
    obtain ⟨c, hc, hb, ⟨-, rfl⟩ | ⟨rfl, -⟩⟩ := evictOne_eq_ok h
    · exact hs
    · obtain ⟨-, ticket, k, he, -⟩ := hs c hc
      unfold Container.isResident at hb
      rw [he] at hb
      cases hb
  · intro c' hc'
    obtain ⟨c, hc, hcore⟩ := (evictOne_evicts ha h).others id c' hid hc'
    obtain ⟨hnote, ticket, k, he, hn⟩ := hs c hc
    have hsize : c'.size = c.size := show c'.core.size = c.core.size by rw [hcore]
    refine ⟨?_, ticket, k, (Container.elements_of_core hcore).trans he, hn⟩
    rw [Container.note_of_core hcore, hnote, hsize]

/-- A container that was evicted already stays as it is, and any other one gets a new ticket. -/
theorem evictOne_parks (ha : Account.Kept ⟨s, F, C, q⟩) (hs : s.Custody)
    (h : evictOne id s = .ok (b, s')) : s' = s ∨ s'.Parked s.swap.next id := by
  obtain ⟨c, hc, -, ⟨-, rfl⟩ | ⟨-, t, d, values, hmerge, hd, he, rfl⟩⟩ := evictOne_eq_ok h
  · exact .inl rfl
  obtain ⟨hpath, -⟩ := walk_mergePending ha hc hmerge hd
  have hnext : s.swap.next ≤ t.swap.next := hpath.next_le ha hs
  right
  intro c' hc'
  have hd' : ({ t with swap := (t.swap.store values).2 } : Store).container? id = some d := hd
  obtain rfl := Option.some.inj ((container?_withContainer_self hd').symm.trans hc')
  refine ⟨?_, _, _, rfl, hnext⟩
  unfold Container.note Container.size
  rw [he]
  rfl

/-- While a dataspace is evicted a container is left where it is, or parked in the end. -/
theorem evictList_parks {cursor : Option ContainerId} (ha : Account.Kept ⟨s, F, C, q⟩)
    (hc : s.Custody) (hp : s.planes = []) (h : evictList n cursor s = .ok (m, s')) :
    (Path (fun e => e.Moves ∧ e ≠ .evict id) ⟨s, F, C, q⟩ ⟨s', F, C, q⟩ ∨
      s'.Parked s.swap.next id) ∧ ∀ k, s.Parked k id → s'.Parked k id := by
  induction n generalizing s cursor m with
  | zero =>
    rw [evictList] at h
    obtain rfl := (StoreM.pure_eq_ok.mp h).2
    exact ⟨.inl (.refl _), fun _ hk => hk⟩
  | succ n ih =>
    cases cursor with
    | none =>
      obtain rfl := (StoreM.pure_eq_ok.mp h).2
      exact ⟨.inl (.refl _), fun _ hk => hk⟩
    | some other =>
      obtain ⟨c, b, s₁, k, -, h₁, h₂, -⟩ := evictList_some_eq_ok h
      obtain ⟨hpath, hp₁, -⟩ := walk_evictOne Effect.Moves.still (.evict other) ha hp h₁
      obtain ⟨hrest, hkeeps⟩ := ih (hpath.kept ha) (hpath.custody ha hc) hp₁ h₂
      refine ⟨?_, fun k hk => hkeeps k (evictOne_parked ha hk h₁)⟩
      -- The list may come to this container now or later, and what is parked stays parked.
      by_cases hid : other = id
      · subst hid
        rcases evictOne_parks ha hc h₁ with rfl | hparked
        · exact hrest
        · exact .inr (hkeeps _ hparked)
      · have hone : Path (fun e => e.Moves ∧ e ≠ .evict id) ⟨s, F, C, q⟩ ⟨s₁, F, C, q⟩ :=
          (walk_evictOne ⟨.still, nofun⟩ ⟨.evict other, by simpa using hid⟩ ha hp h₁).1
        exact hrest.imp hone.trans fun hparked => hparked.mono (hpath.next_le ha hc)

/-- The eviction of a dataspace leaves a container alone or parks it. -/
theorem evictDataspace_parks {ds : DataspaceId} {r : Except Refusal EvictionReport}
    (ha : Account.Kept ⟨s, F, 0, none⟩) (hc : s.Custody) (h : evictDataspace ds s = .ok (r, s')) :
    Path (fun e => e.Moves ∧ e ≠ .evict id) ⟨s, F, 0, none⟩ ⟨s', F, 0, none⟩ ∨
      s.planes = [] ∧ s'.Parked s.swap.next id := by
  rcases evictDataspace_eq_ok h with
    ⟨-, -, rfl⟩ | ⟨d, rehomed, evicted, s₁, -, hp, -, h₁, h₂⟩
  · exact .inl (.refl _)
  obtain ⟨hpath, hp₁⟩ := walk_transferExclusive (E := fun e => e.Moves ∧ e ≠ .evict id)
    ⟨.still, nofun⟩ (fun other => ⟨.transfer ds other, nofun⟩) ha hp h₁
  obtain ⟨hrest, -⟩ :=
    @evictList_parks _ _ _ _ _ id _ _ _ (hpath.kept ha) (hpath.custody ha hc) hp₁ h₂
  exact hrest.imp hpath.trans fun hparked => ⟨hp, hparked.mono (hpath.next_le ha hc)⟩

/-- The eviction of one container leaves a container alone or parks it. -/
theorem evictContainer_parks {v : Value} {r : Except Refusal Bool}
    (ha : Account.Kept ⟨s, F, 0, none⟩) (hc : s.Custody) (h : evictContainer v s = .ok (r, s')) :
    Path (fun e => e.Moves ∧ e ≠ .evict id) ⟨s, F, 0, none⟩ ⟨s', F, 0, none⟩ ∨
      s.planes = [] ∧ s'.Parked s.swap.next id := by
  rcases evictContainer_eq_ok h with ⟨-, rfl⟩ | ⟨shape, other, b, -, hp, -, h₁⟩
  · exact .inl (.refl _)
  by_cases hid : other = id
  · subst hid
    rcases evictOne_parks ha hc h₁ with rfl | hparked
    · exact .inl (.refl _)
    · exact .inr ⟨hp, hparked⟩
  · exact .inl (walk_evictOne ⟨.still, nofun⟩ ⟨.evict other, by simpa using hid⟩ ha hp h₁).1

end

end PlaneStore
