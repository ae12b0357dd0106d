import PlaneStore.Proofs.Clients.NoFaults

/-!
# What a store keeps on record

Between two requests of a disciplined client the counts of all slots, the imports of all dataspaces
and the homes, censuses and ledgers of all planes say exactly what they are meant to say.
-/

namespace PlaneStore

open Store

/-! ## What planes know of one container -/

namespace Trail

variable {stays : List Stay} {home : Nat}

/-- What the plane of a level has on record. -/
theorem at_cons {x y : Stay} {n : Nat} (h : (x :: stays).reverse[n]? = some y) :
    (n < stays.length ∧ stays.reverse[n]? = some y) ∨ n = stays.length ∧ x = y := by
  rw [List.reverse_cons] at h
  rcases Nat.lt_trichotomy n stays.length with hlt | rfl | hgt
  · rw [List.getElem?_append_left (by simpa using hlt)] at h
    exact .inl ⟨hlt, h⟩
  · rw [List.getElem?_append_right (by simp)] at h
    simp only [List.length_reverse, Nat.sub_self, List.getElem?_cons_zero, Option.some.injEq] at h
    exact .inr ⟨rfl, h⟩
  · rw [List.getElem?_eq_none (by simp; omega)] at h
    cases h

theorem at_lt {x : Stay} {n : Nat} (hlt : n < stays.length) :
    (x :: stays).reverse[n]? = stays.reverse[n]? := by
  rw [List.reverse_cons, List.getElem?_append_left (by simpa using hlt)]

theorem at_top (x : Stay) : (x :: stays).reverse[stays.length]? = some x := by
  rw [List.reverse_cons, List.getElem?_append_right (by simp)]
  simp

/-- The plane that is the home of a container lists it. -/
theorem listed_at_home (h : Trail stays home) (hpos : 0 < home) :
    ∃ x, stays.reverse[home - 1]? = some x ∧ x.1 ≠ none := by
  induction h with
  | root => cases hpos
  | @absent stays home h ih =>
    obtain ⟨x, hx, hlisted⟩ := ih hpos
    have hlt : home - 1 < stays.length := by have := h.home_le; omega
    exact ⟨x, (at_lt hlt).trans hx, hlisted⟩
  | fresh => exact ⟨_, at_top _, nofun⟩
  | backed => exact ⟨_, at_top _, nofun⟩

/-- No plane further in than the home of a container lists it. -/
theorem le_home (h : Trail stays home) {n : Nat} {x : Stay} (hx : stays.reverse[n]? = some x)
    (hlisted : x.1 ≠ none) : n < home := by
  induction h with
  | root => cases hx
  | absent h ih =>
    rcases at_cons hx with ⟨-, hx⟩ | ⟨-, rfl⟩
    · exact ih hx
    · exact absurd rfl hlisted
  | fresh | backed =>
    rcases at_cons hx with ⟨hlt, -⟩ | ⟨rfl, -⟩
    · exact Nat.lt_succ_of_lt hlt
    · exact Nat.lt_succ_self _

/-- What a plane has on record of a container: nothing, that it came to be on it, or one backup. -/
theorem stay_cases (h : Trail stays home) {n : Nat} {x : Stay} (hx : stays.reverse[n]? = some x) :
    x = (none, []) ∨ x = (some .fresh, []) ∨ ∃ b, x = (some .backed, [b]) ∧ b.home ≤ n ∧
      (∀ m y, b.home ≤ m → m < n → stays.reverse[m]? = some y → y.1 = none) ∧
      (0 < b.home → ∃ y, stays.reverse[b.home - 1]? = some y ∧ y.1 ≠ none) := by
  induction h with
  | root => cases hx
  | @absent stays home h ih =>
    -- The new plane on top knows nothing of the container; the planes below keep their numbers.
    rcases at_cons hx with ⟨hlt, hx⟩ | ⟨-, rfl⟩
    · refine (ih hx).imp_right (Or.imp_right ?_)
      rintro ⟨b, he, hle, hbetween, hhome⟩
      refine ⟨b, he, hle, fun m y hm hmn hy => hbetween m y hm hmn ?_, fun hpos => ?_⟩
      · rwa [at_lt (hmn.trans hlt)] at hy
      · rw [at_lt (by omega)]
        exact hhome hpos
    · exact .inl rfl
  | @fresh stays hclear =>
    rcases at_cons hx with ⟨-, hx⟩ | ⟨-, rfl⟩
    · exact .inl (hclear x (List.mem_reverse.mp (List.mem_of_getElem? hx)))
    · exact .inr (.inl rfl)
  | @backed stays b h ih =>
    rcases at_cons hx with ⟨hlt, hx⟩ | ⟨rfl, rfl⟩
    · refine (ih hx).imp_right (Or.imp_right ?_)
      rintro ⟨b', he, hle, hbetween, hhome⟩
      refine ⟨b', he, hle, fun m y hm hmn hy => hbetween m y hm hmn ?_, fun hpos => ?_⟩
      · rwa [at_lt (hmn.trans hlt)] at hy
      · rw [at_lt (by omega)]
        exact hhome hpos
    · refine .inr (.inr ⟨b, rfl, h.home_le, fun m y hm hmn hy => ?_, fun hpos => ?_⟩)
      · rw [at_lt hmn] at hy
        by_contra hlisted
        exact absurd (h.le_home hy hlisted) (by omega)
      · rw [at_lt (by have := h.home_le; omega)]
        exact h.listed_at_home hpos

end Trail

namespace Store

/-- The plane of a level, if it is active. -/
def planeAt? (s : Store) (level : Nat) : Option Plane :=
  if level = 0 then none else s.planes.reverse[level - 1]?

/-- The slot that a value refers to is in use, for what the value says. -/
def Addresses (s : Store) : Value → Prop
  | .container shape id => ∃ c, s.container? id = some c ∧ c.kind.shape = shape
  | .string id => ∃ e, s.heap.strings.get? id.slot = some e
  | _ => True

variable {s : Store}

theorem stay_of_planeAt? {n : Nat} {p : Plane} (id : ContainerId) (h : s.planeAt? n = some p) :
    0 < n ∧ (s.stays id).reverse[n - 1]? = some (p.stay id) := by
  unfold planeAt? at h
  split at h
  · cases h
  · next hn =>
    refine ⟨Nat.pos_of_ne_zero hn, ?_⟩
    unfold stays
    rw [← List.map_reverse, List.getElem?_map, h]
    rfl

theorem planeAt?_of_stay {n : Nat} {x : Stay} {id : ContainerId} (hn : 0 < n)
    (h : (s.stays id).reverse[n - 1]? = some x) : ∃ p, s.planeAt? n = some p ∧ p.stay id = x := by
  unfold stays at h
  rw [← List.map_reverse, List.getElem?_map] at h
  obtain ⟨p, hp, hx⟩ := Option.map_eq_some_iff.mp h
  exact ⟨p, (if_neg (Nat.ne_of_gt hn)).trans hp, hx⟩

theorem addresses_of_fits {v : Value} (hv : s.There v) (hf : s.heap.Fits v) : s.Addresses v := by
  cases v with
  | container shape id =>
    obtain ⟨c, hc⟩ := hv.exists_container
    exact ⟨c, hc, hf shape id c rfl hc⟩
  | string id => exact hv.2 id rfl
  | _ => trivial

end Store

namespace Client

variable {limits : Limits} {c : Client}

/-! ## Reference counts -/

theorem refs_account (c : Client) : c.account.refs = c.store.refs + c.owned :=
  Account.refs_between c.store c.owned

/--
Reference counts are exact. Every handle that is stored anywhere, or that the client owns, addresses
a slot in use, of its kind. A slot in use counts the handles that are stored and those that the
client owns, which is at least one; a slot is free exactly if there are none.
-/
theorem Reachable.counts_exact (h : Reachable limits c) :
    (∀ v ∈ c.store.refs + c.owned, c.store.Addresses v) ∧
    (∀ t n, c.store.heap.count? t = some n → n = c.store.refs.tally t + c.owned.tally t ∧ 1 ≤ n) ∧
    ∀ t, c.store.heap.count? t = none ↔ c.store.refs.tally t + c.owned.tally t = 0 := by
  have hb := h.kept.accounted.balanced
  have htally : ∀ t, c.account.refs.tally t = c.store.refs.tally t + c.owned.tally t := fun t => by
    rw [refs_account, Refs.tally_add]
  refine ⟨fun v hv => ?_, fun t n ht => ⟨?_, hb.count_pos ht⟩, fun t => ?_⟩
  · rw [← refs_account] at hv
    exact addresses_of_fits (h.kept.there fun _ => hv) (h.kept.fits hv)
  · rw [← htally]
    exact hb.count_eq ht
  · rw [← htally]
    exact hb.free_iff

theorem counts_exact_sample : ∃ c, Reachable {} c ∧
    c.store.heap.count? (.container ⟨0⟩) = some 5 ∧ c.owned.tally (.container ⟨0⟩) = 1 ∧
    c.store.refs.tally (.container ⟨0⟩) = 4 := by
  obtain ⟨c, hc, hf⟩ := exists_sample
    (fun c => (c.store.heap.count? (.container ⟨0⟩), c.owned.tally (.container ⟨0⟩)))
    (a := (some 5, 1)) (by decide +kernel)
  obtain ⟨hcount, howned⟩ := Prod.mk.inj hf
  obtain ⟨hexact, -⟩ := (Reachable.counts_exact hc).2.1 _ _ hcount
  exact ⟨c, hc, hcount, howned, by omega⟩

/-! ## Imports -/

/--
Imports are exact. A dataspace has an import for a container exactly if the container is there,
belongs to another dataspace, and is held by a slot of the dataspace; then the import is the number
of such slots. So no import is ever dropped that was not counted.
-/
theorem Reachable.imports_exact (h : Reachable limits c) :
    (∀ ds d id, c.store.dataspace? ds = some d →
      d.imports[id]? =
        if c.store.isForeign ds id ∧ 0 < (c.store.slots ds).tally (.container id) then
          some ((c.store.slots ds).tally (.container id))
        else none) ∧
    ∀ op : Operation, (∀ v ∈ op.passed, c.owned.Covers v) → ∀ id ds,
      c.store.perform op ≠ .error (.importUnderflow id ds) := by
  refine ⟨fun ds d id hd => h.kept.imports_eq hd id, fun op hop id ds hf => ?_⟩
  obtain ⟨⟨_, he⟩, -⟩ := h.dangling hop hf
  cases he

theorem imports_exact_sample : ∃ c, Reachable {} c ∧
    c.store.importCount ⟨1⟩ (.container .array ⟨0⟩) = 2 ∧
    (c.store.slots ⟨1⟩).tally (.container ⟨0⟩) = 2 := by
  obtain ⟨c, hc, hf⟩ := exists_sample
    (fun c => ((c.store.dataspace? ⟨1⟩).bind (·.imports[(⟨0⟩ : ContainerId)]?)))
    (a := some 2) (by decide +kernel)
  obtain ⟨d, hd, hi⟩ := Option.bind_eq_some_iff.mp hf
  have hexact := (Reachable.imports_exact hc).1 ⟨1⟩ d ⟨0⟩ hd
  rw [hi] at hexact
  refine ⟨c, hc, ?_, ?_⟩
  · unfold Store.importCount
    simp [Value.containerId?, hd, Std.TreeMap.getD_eq_getD_getElem?, hi]
  · split at hexact
    · exact (Option.some.inj hexact).symm
    · cases hexact

/-! ## Planes -/

/--
Planes are disciplined. A container is at home on a plane that lists it, or outside of all regions;
no plane further in lists it. A plane that lists it as backed up has one backup of it and every
other plane has none; the backup leads to the next plane further out that lists it, or out of all
regions. Planes list only what is there. So no container is found at home above the current plane,
backed up twice, or restored to another size than was recorded.
-/
theorem Reachable.planes_disciplined (h : Reachable limits c) :
    (∀ id x, c.store.container? id = some x →
      x.home ≤ c.store.level ∧
      (0 < x.home → ∃ p, c.store.planeAt? x.home = some p ∧ id ∈ p.census) ∧
      ∀ n p, c.store.planeAt? n = some p →
        (id ∈ p.census → n ≤ x.home) ∧
        (p.isBacked id = true ↔ (p.ledger.filter (·.container = id)).length = 1) ∧
        (p.ledger.filter (·.container = id)).length ≤ 1 ∧
        ∀ b ∈ p.ledger, b.container = id →
          b.home < n ∧
          (∀ m q, b.home < m → m < n → c.store.planeAt? m = some q → id ∉ q.census) ∧
          (0 < b.home → ∃ q, c.store.planeAt? b.home = some q ∧ id ∈ q.census)) ∧
    (∀ n p, c.store.planeAt? n = some p → ∀ id ∈ p.census, ∃ x, c.store.container? id = some x) ∧
    ∀ op : Operation, (∀ v ∈ op.passed, c.owned.Covers v) → ∀ f, c.store.perform op = .error f →
      (∀ id home level, f ≠ .homeAbovePlane id home level) ∧
      (∀ id level, f ≠ .backedUpTwice id level) ∧
      ∀ id size recorded, f ≠ .restoredSize id size recorded := by
  have hd := h.kept.disciplined
  refine ⟨fun id x hx => ?_, fun n p hp id hid => ?_, fun op hop f hf => ?_⟩
  · have htrail : Trail (c.store.stays id) x.home := hd.trail (congrArg (Option.map _) hx)
    have hlisted : ∀ m, 0 < m → (∃ y, (c.store.stays id).reverse[m - 1]? = some y ∧ y.1 ≠ none) →
        ∃ q, c.store.planeAt? m = some q ∧ id ∈ q.census := by
      rintro m hm ⟨y, hy, hne⟩
      obtain ⟨q, hq, rfl⟩ := planeAt?_of_stay hm hy
      exact ⟨q, hq, Plane.mem_census_iff.mpr hne⟩
    refine ⟨?_, fun hpos => hlisted _ hpos (htrail.listed_at_home hpos), fun n p hp => ?_⟩
    · have hle := htrail.home_le
      rwa [show (c.store.stays id).length = c.store.level from List.length_map _] at hle
    obtain ⟨hn, hstay⟩ := stay_of_planeAt? id hp
    refine ⟨fun hmem => ?_, ?_⟩
    · have hlt := htrail.le_home hstay (Plane.mem_census_iff.mp hmem)
      omega
    have hledger : (p.stay id).2 = p.ledger.filter (·.container = id) := rfl
    have hbacked : p.isBacked id = true ↔ (p.stay id).1 = some .backed := Plane.isBacked_iff
    rw [hbacked, ← hledger]
    have hmem : ∀ b ∈ p.ledger, b.container = id → b ∈ (p.stay id).2 := fun b hb hc =>
      List.mem_filter.mpr ⟨hb, by simpa using hc⟩
    rcases htrail.stay_cases hstay with he | he | ⟨b, he, hle, hbetween, hhome⟩
    · rw [he] at hmem ⊢
      exact ⟨⟨nofun, nofun⟩, Nat.zero_le 1, fun b hb hc => by cases hmem b hb hc⟩
    · rw [he] at hmem ⊢
      exact ⟨⟨nofun, nofun⟩, Nat.zero_le 1, fun b hb hc => by cases hmem b hb hc⟩
    · rw [he] at hmem ⊢
      refine ⟨⟨fun _ => rfl, fun _ => rfl⟩, Nat.le_refl 1, fun b' hb hc => ?_⟩
      obtain rfl := List.mem_singleton.mp (hmem b' hb hc)
      refine ⟨by omega, fun m q hm hmn hq hid => ?_, fun hpos => hlisted _ hpos (hhome hpos)⟩
      obtain ⟨hmpos, hmstay⟩ := stay_of_planeAt? id hq
      exact Plane.mem_census_iff.mp hid (hbetween (m - 1) _ (by omega) (by omega) hmstay)
  · cases hx : c.store.container? id with
    | some x => exact ⟨x, rfl⟩
    | none =>
      obtain ⟨-, hstay⟩ := stay_of_planeAt? id hp
      -- A free slot leaves no trail, so a plane that lists the container contradicts it.
      have hclear : Clear (c.store.stays id) := hd.free (congrArg (Option.map _) hx)
      have hnone := hclear _ (List.mem_reverse.mp (List.mem_of_getElem? hstay))
      exact absurd (congrArg Prod.fst hnone) (Plane.mem_census_iff.mp hid)
  · obtain ⟨⟨_, rfl⟩, -⟩ := h.dangling hop hf
    exact ⟨nofun, nofun, nofun⟩

theorem planes_disciplined_sample : ∃ c p, Reachable {} c ∧ c.store.planeAt? 1 = some p ∧
    p.isBacked ⟨0⟩ = true ∧ (p.ledger.filter (·.container = ⟨0⟩)).length = 1 := by
  obtain ⟨c, hc, hf⟩ := exists_sample
    (fun c => ((c.store.container? ⟨0⟩).isSome, (c.store.planeAt? 1).map (·.isBacked ⟨0⟩)))
    (a := (true, some true)) (by decide +kernel)
  obtain ⟨hx, hbacked⟩ := Prod.mk.inj hf
  obtain ⟨x, hx⟩ := Option.isSome_iff_exists.mp hx
  obtain ⟨p, hp, hbacked⟩ := Option.map_eq_some_iff.mp hbacked
  obtain ⟨-, -, hplanes⟩ := (Reachable.planes_disciplined hc).1 ⟨0⟩ x hx
  exact ⟨c, p, hc, hp, hbacked, (hplanes 1 p hp).2.1.mp hbacked⟩

end Client

end PlaneStore
