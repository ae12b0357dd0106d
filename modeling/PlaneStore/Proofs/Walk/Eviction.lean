import PlaneStore.Proofs.Inversion.Eviction
import PlaneStore.Proofs.Walk.Reading

/-!
# Walks: eviction

Handing elements to the swap and moving containers between dataspaces as chains of elementary steps.
Both happen outside of atomic regions only.
-/

namespace PlaneStore

open Store

section

variable {E : Effect → Prop} {s s' : Store} {F : Refs} {id : ContainerId}

/-! ## Looking only -/

/-- What passes a test that only looks at the store. -/
theorem filterM_of_reads {α : Type} {f : α → StoreM Bool} {P : α → Prop} {xs ys : List α}
    (hf : ∀ x b {t : Store}, f x s = .ok (b, t) → s = t ∧ (b = true ↔ P x))
    (h : xs.filterM f s = .ok (ys, s')) :
    s = s' ∧ ys.Sublist xs ∧ ∀ y, y ∈ ys ↔ y ∈ xs ∧ P y := by
  have haux : ∀ (xs acc : List α) {zs : List α} {t : Store},
      xs.filterAuxM f acc s = .ok (zs, t) →
        s = t ∧ ∃ ws : List α, ws.Sublist xs ∧ zs = ws.reverse ++ acc ∧
          ∀ w, w ∈ ws ↔ w ∈ xs ∧ P w := by
    intro xs
    induction xs with
    | nil =>
      intro acc zs t h
      obtain ⟨rfl, rfl⟩ := StoreM.pure_eq_ok.mp h
      exact ⟨rfl, [], .slnil, rfl, fun w => by simp⟩
    | cons x xs ih =>
      intro acc zs t h
      obtain ⟨b, s₁, h₁, h⟩ := StoreM.bind_eq_ok.mp h
      obtain ⟨rfl, hP⟩ := hf x b h₁
      obtain ⟨rfl, ws, hws, rfl, hall⟩ := ih _ h
      cases b with
      | false =>
        have hno : ¬ P x := fun hx => absurd (hP.mpr hx) (by decide)
        refine ⟨rfl, ws, hws.cons x, rfl, fun w => ?_⟩
        rw [hall, List.mem_cons]
        constructor
        · exact fun h => ⟨.inr h.1, h.2⟩
        · rintro ⟨rfl | hw, hw'⟩
          · exact absurd hw' hno
          · exact ⟨hw, hw'⟩
      | true =>
        have hyes : P x := hP.mp rfl
        refine ⟨rfl, x :: ws, hws.cons_cons x, ?_, fun w => ?_⟩
        · rw [List.reverse_cons, List.append_assoc]
          rfl
        · rw [List.mem_cons, List.mem_cons, hall]
          constructor
          · rintro (rfl | ⟨hw, hw'⟩)
            · exact ⟨.inl rfl, hyes⟩
            · exact ⟨.inr hw, hw'⟩
          · rintro ⟨rfl | hw, hw'⟩
            · exact .inl rfl
            · exact .inr ⟨hw, hw'⟩
  obtain ⟨zs, s₁, h₁, h⟩ := StoreM.bind_eq_ok.mp h
  obtain ⟨rfl, ws, hws, rfl, hall⟩ := haux xs [] h₁
  obtain ⟨rfl, rfl⟩ := StoreM.pure_eq_ok.mp h
  rw [List.append_nil, List.reverse_reverse]
  exact ⟨rfl, hws, hall⟩

/-- The effects of an eviction. -/
inductive Effect.Moves : Effect → Prop
  | still : Moves .still
  | evict (id : ContainerId) : Moves (.evict id)
  | transfer (ds : DataspaceId) (id : ContainerId) : Moves (.transfer ds id)

/-! ## Single containers -/

/-- What is pending for a container is merged before its elements go. -/
theorem walk_mergePending {t : Store} {c d : Container} {C : Charges} {q : Option Closing}
    (ha : Account.Kept ⟨s, F, C, q⟩) (hc : s.container? id = some c)
    (h : StoreM.when c.overlay.isSome (Mapping.mergeOverlay id false) s = .ok ((), t))
    (hd : t.container? id = some d) :
    Path (· = .still) ⟨s, F, C, q⟩ ⟨t, F, C, q⟩ ∧ d.overlay = none := by
  rcases StoreM.when_eq_ok.mp h with ⟨-, h⟩ | ⟨hclean, rfl⟩
  · obtain ⟨hpath, hpost⟩ := walk_mergeOverlay (E := (· = .still)) (F := F) (C := C) (q := q) rfl
      (fun hf => absurd hf (by decide)) ha (fun hf => absurd hf (by decide)) h
    obtain ⟨-, -, -, -, ho, -⟩ := hpost d hd
    exact ⟨hpath, ho⟩
  · obtain rfl := Option.some.inj (hc.symm.trans hd)
    exact ⟨.refl _, by simpa using hclean⟩

/-- An eviction leaves nothing pending, and tells whether anything was resident. -/
theorem walk_evictOne {b : Bool} {C : Charges} {q : Option Closing} (still : E .still)
    (evict : E (.evict id)) (ha : Account.Kept ⟨s, F, C, q⟩) (hp : s.planes = [])
    (h : evictOne id s = .ok (b, s')) :
    Path E ⟨s, F, C, q⟩ ⟨s', F, C, q⟩ ∧ s'.planes = [] ∧
      ∃ c c', s.container? id = some c ∧ s'.container? id = some c' ∧ b = c.isResident ∧
        c'.isResident = false := by
  obtain ⟨c, hc, hb, ⟨rfl, rfl⟩ | ⟨rfl, t, d, values, hmerge, hd, he, rfl⟩⟩ := evictOne_eq_ok h
  · exact ⟨.refl _, hp, c, c, hc, hc, hb, hb.symm⟩
  obtain ⟨hpath, ho⟩ := walk_mergePending ha hc hmerge hd
  have hpt : t.planes = [] := by
    have hlevel : t.level = s.level := hpath.level ha (by
      rintro e rfl
      exact ⟨nofun, nofun⟩)
    unfold Store.level at hlevel
    rw [hp] at hlevel
    exact List.eq_nil_of_length_eq_zero hlevel
  exact ⟨(hpath.of_still still).tail evict (.upkeep (.evict hd he ho hpt)), hpt, c, _, hc,
    container?_withContainer_self hd, hb, rfl⟩

/-- An eviction that is answered evicts one container. -/
theorem walk_evictContainer {v : Value} {r : Except Refusal Bool} {C : Charges} {q : Option Closing}
    (still : E .still) (evict : (∃ b, r = .ok b) → ∀ id, E (.evict id))
    (ha : Account.Kept ⟨s, F, C, q⟩)
    (h : evictContainer v s = .ok (r, s')) : Path E ⟨s, F, C, q⟩ ⟨s', F, C, q⟩ := by
  rcases evictContainer_eq_ok h with ⟨-, rfl⟩ | ⟨shape, id, b, -, hp, rfl, h₁⟩
  · exact .refl _
  · exact (walk_evictOne still (evict ⟨b, rfl⟩ id) ha hp h₁).1

/-! ## Dataspaces -/

/-- Making a container resident concerns no other, no dataspace and no plane. -/
theorem faultIn_frame {u : Unit} (h : faultIn id s = .ok (u, s')) :
    s'.planes = s.planes ∧ s'.dataspaces = s.dataspaces ∧
      ∀ other, id ≠ other → s'.container? other = s.container? other := by
  obtain ⟨c, -, ⟨-, -, rfl⟩ | ⟨ticket, -, rfl⟩⟩ := faultIn_eq_ok h
  · exact ⟨rfl, rfl, fun _ _ => rfl⟩
  · exact ⟨rfl, rfl, fun other hne => container?_withContainer_of_ne hne⟩

/-- A foreign container whose every reference is held by slots of `ds`. -/
structure Exclusive (s : Store) (ds : DataspaceId) (id : ContainerId) (c : Container) : Prop where
  there : s.container? id = some c
  foreign : c.owner ≠ ds
  all : ∃ d, s.dataspace? ds = some d ∧ d.imports[id]? = some c.refcount

/-- The imports that make up all references to a container are found, each once. -/
theorem exclusiveImports_eq_ok {ds : DataspaceId} {ids : List ContainerId}
    (ha : Account.Kept ⟨s, F, 0, none⟩) (h : exclusiveImports ds s = .ok (ids, s')) :
    s = s' ∧ ids.Nodup ∧ ∀ id, id ∈ ids ↔ ∃ c, Exclusive s ds id c := by
  obtain ⟨t, s₁, h₁, h⟩ := StoreM.bind_eq_ok.mp h
  obtain ⟨rfl, rfl⟩ := StoreM.get_eq_ok.mp h₁
  obtain ⟨held, s₁, h₁, h⟩ := StoreM.bind_eq_ok.mp h
  obtain ⟨rfl, rfl⟩ := StoreM.pure_eq_ok.mp h
  obtain ⟨rfl, hsub, hall⟩ := filterM_of_reads
    (P := fun p => ∃ c, s.container? p.1 = some c ∧ c.refcount = p.2) (fun p b t h => by
      obtain ⟨c, s₁, h₁, h⟩ := StoreM.bind_eq_ok.mp h
      obtain ⟨hc, rfl⟩ := StoreM.container_eq_ok.mp h₁
      obtain ⟨rfl, rfl⟩ := StoreM.pure_eq_ok.mp h
      refine ⟨rfl, fun hb => ⟨c, hc, of_decide_eq_true hb⟩, ?_⟩
      rintro ⟨c', hc', hn⟩
      obtain rfl := Option.some.inj (hc.symm.trans hc')
      exact decide_eq_true hn) h₁
  unfold importsOf at hsub hall
  cases hd : s.dataspace? ds with
  | none =>
    rw [hd, Option.map_none, Option.getD_none, List.sublist_nil] at hsub
    subst hsub
    refine ⟨rfl, List.nodup_nil, fun id => ⟨nofun, ?_⟩⟩
    rintro ⟨c, -, -, d, hd', -⟩
    cases hd.symm.trans hd'
  | some d =>
    rw [hd, Option.map_some, Option.getD_some] at hsub hall
    refine ⟨rfl, (nodup_toList d.imports).sublist (hsub.map _), fun id => ⟨fun hid => ?_, ?_⟩⟩
    · obtain ⟨⟨id, n⟩, hmem, rfl⟩ := List.mem_map.mp hid
      obtain ⟨hmem, c, hc, rfl⟩ := (hall _).mp hmem
      have hget := Std.TreeMap.mem_toList_iff_getElem?_eq_some.mp hmem
      refine ⟨c, hc, fun howner => ha.imported.pos id hd ?_, d, hd, hget⟩
      -- The dataspace counts imports of foreign containers only, and this count is not zero.
      have hcount := ha.imported.count id hd
      rw [isForeign, show s.container? id = some c from hc, Option.any_some,
        decide_eq_false (not_not.mpr howner), Std.TreeMap.getD_eq_getD_getElem?, hget] at hcount
      rw [hget]
      exact congrArg some hcount
    · rintro ⟨c, hc, -, d', hd', hget⟩
      obtain rfl := Option.some.inj (hd.symm.trans hd')
      refine List.mem_map.mpr ⟨(id, c.refcount), (hall _).mpr ⟨?_, c, hc, rfl⟩, rfl⟩
      exact Std.TreeMap.mem_toList_iff_getElem?_eq_some.mpr hget

/-- A container that is exclusive stays so while another one changes hands. -/
theorem Exclusive.transferred {ds : DataspaceId} {other : ContainerId} {c : Container}
    (hx : Exclusive s ds id c) (ha : Account.Kept ⟨s, F, 0, none⟩) (hne : other ≠ id)
    (h : Transfer ds other ⟨s, F, 0, none⟩ ⟨s', F, 0, none⟩) : ∃ c', Exclusive s' ds id c' := by
  have hb : Account.Kept ⟨s', F, 0, none⟩ := (Step.transfer h).kept ha
  obtain ⟨d, hd, hall⟩ := hx.all
  obtain ⟨e, he, hal⟩ := h.alike
  have howner : e.owner ≠ ds := by
    cases h with
    | mk hp hc he' howner => exact Option.some.inj (hc.symm.trans he) ▸ howner
  have hthere : (s.withContainer other { e with owner := ds }).container? id = some c :=
    (container?_withContainer_of_ne hne).trans hx.there
  obtain ⟨c', hc', hbare⟩ := hal.exists_container hthere
  have hcount : c'.refcount = c.refcount := show c'.bare.refcount = c.bare.refcount by rw [hbare]
  have hforeign : c'.owner ≠ ds := by
    rw [show c'.owner = c.owner from show c'.bare.owner = c.bare.owner by rw [hbare]]
    exact hx.foreign
  obtain ⟨d', hd', -⟩ := hal.exists_dataspace hd
  refine ⟨c', hc', hforeign, d', hd', ?_⟩
  have hbefore : (s.slots ds).tally (.container id) = c.refcount := by
    have hn := ha.imported.count id hd
    rw [Std.TreeMap.getD_eq_getD_getElem?, hall] at hn
    simp only [isForeign, hx.there, Option.any_some, decide_eq_true_eq, hx.foreign, ne_eq,
      not_false_eq_true, if_true, Option.getD_some, Charges.at_zero, add_zero] at hn
    exact hn.symm
  have hmore : (s.slots ds).tally (.container id) ≤ (s'.slots ds).tally (.container id) := by
    rw [hal.slots]
    have hmoved := slots_withContainer he { e with owner := ds } ds
    rw [show share s.swap ds e = 0 from if_neg howner, add_zero] at hmoved
    rw [hmoved, Refs.tally_add]
    exact Nat.le_add_right _ _
  have hless : (s'.slots ds).tally (.container id) ≤ c'.refcount := by
    have hle := Account.tally_slots_le ⟨s', F, 0, none⟩ ds (.container id)
    rw [hb.accounted.balanced.count_eq (t := .container id) (n := c'.refcount)
      (congrArg (Option.map Container.refcount) hc')]
    simp only [Charges.at_zero, add_zero] at hle
    omega
  have hafter := hb.imported.count id hd'
  simp only [isForeign, hc', Option.any_some, decide_eq_true_eq, hforeign, ne_eq,
      not_false_eq_true, if_true, Charges.at_zero, add_zero] at hafter
  have hpos : c'.refcount ≠ 0 := fun h0 => hb.accounted.balanced.pos (.container id)
    ((congrArg (Option.map Container.refcount) hc').trans (congrArg some h0))
  rw [Std.TreeMap.getD_eq_getD_getElem?] at hafter
  cases hget : d'.imports[id]? with
  | none =>
    rw [hget, Option.getD_none] at hafter
    omega
  | some n =>
    rw [hget, Option.getD_some] at hafter
    rw [show n = c'.refcount by omega]

/-- To load another container leaves the references of a dataspace exclusive. -/
theorem Exclusive.faultIn {ds : DataspaceId} {other : ContainerId} {c : Container} {u : Unit}
    (hx : Exclusive s ds id c) (hne : other ≠ id) (h : faultIn other s = .ok (u, s')) :
    Exclusive s' ds id c := by
  obtain ⟨-, hdataspaces, hothers⟩ := faultIn_frame h
  refine ⟨(hothers id hne).trans hx.there, hx.foreign, ?_⟩
  unfold dataspace?
  rw [hdataspaces]
  exact hx.all

/-- A container that changes hands is made resident first. -/
theorem exists_transfer {ds : DataspaceId} {c : Container} {u : Unit} (hp : s.planes = [])
    (hx : Exclusive s ds id c) (h : transfer ds id s = .ok (u, s')) :
    ∃ t, faultIn id s = .ok ((), t) ∧ Transfer ds id ⟨t, F, 0, none⟩ ⟨s', F, 0, none⟩ := by
  obtain ⟨t, c₁, values, s₁, s₂, s₃, hload, hc₁, he, h₁, h₂, h₃, h₄⟩ := transfer_eq_ok h
  obtain ⟨-, c₀, values', hc₀, hc⟩ :=
    walk_faultIn (E := (· = .still)) (F := F) (C := 0) (q := none) rfl hload
  obtain rfl := Option.some.inj (hc.symm.trans hc₁)
  obtain rfl := Elements.resident.inj he
  obtain rfl := Option.some.inj (hc₀.symm.trans hx.there)
  obtain ⟨hplanes, hdataspaces, -⟩ := faultIn_frame hload
  obtain ⟨d, hd, hall⟩ := hx.all
  have hd₁ : t.dataspace? ds = some d := by
    unfold dataspace?
    rw [hdataspaces]
    exact hd
  exact ⟨t, hload, .mk (hplanes.trans hp) hc rfl hx.foreign hd₁ hall h₁ h₂ h₃ h₄⟩

/-- Of several exclusive containers the others stay so when one changes hands. -/
theorem walk_transfer {ds : DataspaceId} {ids : List ContainerId} {u : Unit} (still : E .still)
    (transfer : E (.transfer ds id)) (ha : Account.Kept ⟨s, F, 0, none⟩) (hp : s.planes = [])
    (hn : (id :: ids).Nodup)
    (hx : ∀ other ∈ id :: ids, ∃ c, Exclusive s ds other c)
    (h : Store.transfer ds id s = .ok (u, s')) :
    Path E ⟨s, F, 0, none⟩ ⟨s', F, 0, none⟩ ∧ s'.planes = [] ∧ ids.Nodup ∧
      ∀ other ∈ ids, ∃ c, Exclusive s' ds other c := by
  obtain ⟨c, hid⟩ := hx id List.mem_cons_self
  obtain ⟨s₁, hload, htransfer⟩ := exists_transfer (F := F) hp hid h
  obtain ⟨hnot, hn⟩ := List.nodup_cons.mp hn
  have hpath := (walk_faultIn (F := F) (C := 0) (q := none) still hload).1
  have ha₁ := hpath.kept ha
  have hp' : s'.planes = [] := by
    obtain ⟨d, hd, halike⟩ := htransfer.alike
    exact halike.planes.trans ((faultIn_frame hload).1.trans hp)
  refine ⟨hpath.tail transfer (.transfer htransfer), hp', hn, fun other hother => ?_⟩
  have hne : id ≠ other := fun he => hnot (he ▸ hother)
  obtain ⟨e, he⟩ := hx other (List.mem_cons_of_mem _ hother)
  exact (he.faultIn hne hload).transferred ha₁ hne htransfer

/-- A chain of takeovers is a path of transfers. -/
theorem walk_transfers {ds : DataspaceId} {ids : List ContainerId} {u : PUnit} (still : E .still)
    (transfer : ∀ id, E (.transfer ds id)) (ha : Account.Kept ⟨s, F, 0, none⟩) (hp : s.planes = [])
    (hn : ids.Nodup)
    (hx : ∀ id ∈ ids, ∃ c, Exclusive s ds id c) (h : ids.forM (Store.transfer ds) s = .ok (u, s')) :
    Path E ⟨s, F, 0, none⟩ ⟨s', F, 0, none⟩ ∧ s'.planes = [] := by
  induction ids generalizing s with
  | nil =>
    obtain rfl := StoreM.forM_nil_eq_ok.mp h
    exact ⟨.refl _, hp⟩
  | cons id ids ih =>
    obtain ⟨_, s₁, h₁, h⟩ := StoreM.forM_cons_eq_ok.mp h
    obtain ⟨hpath₁, hp₁, hn₁, hx₁⟩ := walk_transfer still (transfer id) ha hp hn hx h₁
    obtain ⟨hpath, hp'⟩ := ih (hpath₁.kept ha) hp₁ hn₁ hx₁ h
    exact ⟨hpath₁.trans hpath, hp'⟩

/-- The rounds of a takeover are a path of transfers. -/
theorem walk_transferExclusive {ds : DataspaceId} {n m : Nat} (still : E .still)
    (transfer : ∀ id, E (.transfer ds id)) (ha : Account.Kept ⟨s, F, 0, none⟩) (hp : s.planes = [])
    (h : transferExclusive ds n s = .ok (m, s')) :
    Path E ⟨s, F, 0, none⟩ ⟨s', F, 0, none⟩ ∧ s'.planes = [] := by
  induction n generalizing s m with
  | zero =>
    obtain ⟨-, rfl⟩ := StoreM.pure_eq_ok.mp h
    exact ⟨.refl _, hp⟩
  | succ n ih =>
    obtain ⟨ids, t, h₁, hround⟩ := transferExclusive_succ_eq_ok h
    obtain ⟨rfl, hn, hx⟩ := exclusiveImports_eq_ok ha h₁
    rcases hround with ⟨-, -, rfl⟩ | ⟨-, s₁, k, h₁, h₂, -⟩
    · exact ⟨.refl _, hp⟩
    · obtain ⟨hpath₁, hp₁⟩ := walk_transfers still transfer ha hp hn (fun id => (hx id).mp) h₁
      obtain ⟨hpath₂, hp₂⟩ := ih (hpath₁.kept ha) hp₁ h₂
      exact ⟨hpath₁.trans hpath₂, hp₂⟩

theorem walk_evictList {n m : Nat} {cursor : Option ContainerId} {C : Charges}
    {q : Option Closing} (still : E .still) (evict : ∀ id, E (.evict id))
    (ha : Account.Kept ⟨s, F, C, q⟩) (hp : s.planes = [])
    (h : evictList n cursor s = .ok (m, s')) : Path E ⟨s, F, C, q⟩ ⟨s', F, C, q⟩ := by
  induction n generalizing s cursor m with
  | zero =>
    rw [evictList] at h
    rw [(StoreM.pure_eq_ok.mp h).2]
    exact .refl _
  | succ n ih =>
    cases cursor with
    | none =>
      rw [(StoreM.pure_eq_ok.mp h).2]
      exact .refl _
    | some id =>
      obtain ⟨c, b, s₁, k, -, h₁, h₂, -⟩ := evictList_some_eq_ok h
      obtain ⟨hpath, hp₁, -⟩ := walk_evictOne still (evict id) ha hp h₁
      exact hpath.trans (ih (hpath.kept ha) hp₁ h₂)

/-- The eviction of a dataspace is a path of evictions and transfers, or refused. -/
theorem walk_evictDataspace {ds : DataspaceId} {r : Except Refusal EvictionReport}
    (still : E .still) (evict : (∃ report, r = .ok report) → ∀ id, E (.evict id))
    (transfer : (∃ report, r = .ok report) → ∀ id, E (.transfer ds id))
    (ha : Account.Kept ⟨s, F, 0, none⟩)
    (h : evictDataspace ds s = .ok (r, s')) : Path E ⟨s, F, 0, none⟩ ⟨s', F, 0, none⟩ := by
  rcases evictDataspace_eq_ok h with
    ⟨-, -, rfl⟩ | ⟨d, rehomed, evicted, s₁, -, hp, rfl, h₁, h₂⟩
  · exact .refl _
  · obtain ⟨hpath, hp₁⟩ := walk_transferExclusive still (transfer ⟨_, rfl⟩) ha hp h₁
    exact hpath.trans (walk_evictList still (evict ⟨_, rfl⟩) (hpath.kept ha) hp₁ h₂)

end

end PlaneStore
