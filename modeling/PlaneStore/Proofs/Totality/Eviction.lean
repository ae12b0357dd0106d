import PlaneStore.Proofs.Walk.Eviction
import PlaneStore.Proofs.Totality.Reading
import PlaneStore.Proofs.Totality.Creation

/-!
# Faults of eviction

A container that a client owns can always be evicted. While a whole dataspace is evicted, merging
the overlay of one container may free the next on the sweep list, or even the container itself; the
only fault that can follow is that a handle dangles.
-/

namespace PlaneStore

open Store

/-- All faults that the step, or request, may end in are of a certain kind. -/
def FaultsOnly {α : Type} (P : Fault → Prop) (x : Store → Except Fault (α × Store)) (s : Store) :
    Prop := ∀ f, x s = .error f → P f

namespace FaultsOnly

variable {α β : Type} {P : Fault → Prop} {s : Store}

theorem of_succeeds {x : Store → Except Fault (α × Store)} (hx : Succeeds x s) :
    FaultsOnly P x s := by
  obtain ⟨a, s', h⟩ := hx
  intro f hf
  rw [h] at hf
  cases hf

/-- A sequence of steps faults only as its steps do. -/
theorem bind {x : StoreM α} {f : α → StoreM β} (hx : FaultsOnly P x s)
    (hf : ∀ a s', x s = .ok (a, s') → FaultsOnly P (f a) s') :
    FaultsOnly P (x >>= f : StoreM β) s := by
  intro e he
  cases h : x s with
  | error e' =>
    have hbind : (x >>= f : StoreM β) s = .error e' := by
      show (x s >>= fun p => f p.1 p.2) = _
      rw [h]
      rfl
    rw [hbind] at he
    cases he
    exact hx e h
  | ok p =>
    refine hf p.1 p.2 h e ?_
    rw [← he]
    show _ = (x s >>= fun p => f p.1 p.2)
    rw [h]
    rfl

theorem requestBind {x : ClientM α} {f : α → ClientM β} (hx : FaultsOnly P x s)
    (hf : ∀ a s', x s = .ok (.ok a, s') → FaultsOnly P (f a) s') :
    FaultsOnly P (x >>= f : ClientM β) s := by
  refine bind hx fun r s' h => ?_
  cases r with
  | ok a => exact hf a s' h
  | error e => exact .of_succeeds (.pure _)

theorem liftBind {x : StoreM α} {f : α → ClientM β} (hx : FaultsOnly P x s)
    (hf : ∀ a s', x s = .ok (a, s') → FaultsOnly P (f a) s') :
    FaultsOnly P ((monadLift x : ClientM α) >>= f : ClientM β) s := by
  refine requestBind (bind hx fun _ _ _ => .of_succeeds (.pure _)) fun a s' h => ?_
  obtain ⟨b, hb, h⟩ := ClientM.lift_eq_ok.mp h
  exact hf a s' (Except.ok.inj hb ▸ h)

theorem requestGetBind {f : Store → ClientM β} (hf : FaultsOnly P (f s) s) :
    FaultsOnly P (MonadState.get >>= f : ClientM β) s := hf

end FaultsOnly

/-- A handle addresses an empty slot. -/
def Fault.Dangling (f : Fault) : Prop := ∃ id, f = .danglingContainer id

section

variable {s s' : Store} {F : Refs} {C : Charges} {q : Option Closing} {id : ContainerId}
  {c : Container} {ds : DataspaceId}

/-! ## Single containers -/

/-- To write to a container takes no container away. -/
theorem Store.There.withContainer {v : Value} {d : Container} (hv : s.There v)
    (hc : s.container? id = some c) : (s.withContainer id d).There v := by
  refine ⟨fun shape other he => ?_, hv.2⟩
  by_cases hid : id = other
  · subst hid
    exact ⟨d, container?_withContainer_self hc⟩
  · obtain ⟨e, he⟩ := hv.1 shape other he
    exact ⟨e, (container?_withContainer_of_ne hid).trans he⟩

/-- A handle that is followed may dangle, and nothing worse. -/
theorem FaultsOnly.container (id : ContainerId) : FaultsOnly Fault.Dangling (container id) s := by
  intro f hf
  cases hc : s.container? id with
  | some c =>
    obtain ⟨a, s', h⟩ := Succeeds.container hc
    rw [h] at hf
    cases hf
  | none =>
    have hget : s.heap.get id = .error (.danglingContainer id) := by
      unfold Heap.get
      rw [show s.heap.containers.get? id.slot = none from hc]
    have hrun : Store.container id s = .error (.danglingContainer id) := by
      show (s.heap.get id >>= fun c => .ok (c, s)) = _
      rw [hget]
      rfl
    rw [hrun] at hf
    cases hf
    exact ⟨id, rfl⟩

/-- A container of which nothing is pending can be handed to the swap. -/
theorem succeeds_handOver {values : Array Value} (hc : s.container? id = some c)
    (he : c.elements = .resident values) : Succeeds (do
      let size := (← container id).size
      let values ← residentValues id
      let ticket ← storeSwapped values
      modifyContainer id fun c =>
        { c with
          elements := .evicted ticket values.size, savedSize := some size, sizeReported := false }
      return true : StoreM Bool) s := by
  refine Succeeds.bind (.container hc) fun d t h => ?_
  obtain ⟨-, rfl⟩ := StoreM.container_eq_ok.mp h
  refine Succeeds.bind (succeeds_residentValues hc he) fun values' t h => ?_
  obtain ⟨-, rfl⟩ := StoreM.residentValues_eq_ok.mp h
  refine Succeeds.bind ⟨_, _, StoreM.modifyGet_eq_ok.mpr rfl⟩ fun ticket t h => ?_
  obtain ⟨rfl, rfl⟩ := Prod.mk.inj (StoreM.modifyGet_eq_ok.mp h)
  have hc' : { s with swap := (s.swap.store values').2 }.container? id = some c := hc
  exact Succeeds.bind (.modifyContainer hc') fun u t _ => .pure _

/-- Evicting a container fails only if merging its overlay freed it. -/
theorem faults_evictOne {P : Fault → Prop} (ha : Account.Kept ⟨s, F, C, q⟩)
    (hc : FaultsOnly P (container id) s)
    (hmerged : ∀ s', Mapping.mergeOverlay id false s = .ok ((), s') →
      FaultsOnly P (container id) s') : FaultsOnly P (evictOne id) s := by
  refine FaultsOnly.bind hc fun c t h => ?_
  obtain ⟨hc, rfl⟩ := StoreM.container_eq_ok.mp h
  split
  · exact .of_succeeds (.pure _)
  next hresident =>
  unfold StoreM.when
  by_cases ho : c.overlay.isSome = true
  · rw [if_pos ho]
    refine FaultsOnly.bind (.of_succeeds (succeeds_mergeOverlay ha hc nofun)) fun u s₁ h₁ => ?_
    intro f hf
    -- The merge releases what it drops, which may free the container that it was for.
    cases hc₁ : s₁.container? id with
    | none => exact (FaultsOnly.bind (hmerged s₁ h₁) fun c' t h => absurd
        (StoreM.container_eq_ok.mp h).1 (by simp [hc₁])) f hf
    | some c₁ =>
      obtain ⟨-, hpost⟩ := walk_mergeOverlay (E := fun _ => True) trivial (fun _ => trivial) ha
        (fun hf => absurd hf (by decide)) h₁
      obtain ⟨-, values, -, he, -⟩ := hpost c₁ hc₁
      exact (FaultsOnly.of_succeeds (succeeds_handOver hc₁ he)) f hf
  · rw [if_neg ho]
    refine FaultsOnly.bind (.of_succeeds (.pure ())) fun u t h => ?_
    obtain ⟨-, rfl⟩ := StoreM.pure_eq_ok.mp h
    cases he : c.elements with
    | evicted ticket n => exact absurd (by simp [Container.isResident, he]) hresident
    | resident values => exact .of_succeeds (succeeds_handOver hc he)

/-- A step with no fault to end in succeeds. -/
theorem succeeds_of_faultless {α : Type} {x : Store → Except Fault (α × Store)}
    (hx : FaultsOnly (fun _ => False) x s) : Succeeds x s := by
  cases h : x s with
  | error f => exact (hx f h).elim
  | ok p => exact ⟨p.1, p.2, h⟩

theorem succeeds_requireRoot : Succeeds requireRoot s := by
  refine Succeeds.requestGetBind ?_
  split
  · exact .answer _
  · exact .refuse _

/-- What a client owns can be evicted. -/
theorem succeeds_evictContainer {v : Value} (ha : Account.Kept ⟨s, F, C, q⟩) (hv : F.Covers v) :
    Succeeds (evictContainer v) s := by
  refine succeeds_requiring fun shape id hid => ?_
  subst hid
  refine Succeeds.requestBind succeeds_requireRoot fun u t h => ?_
  obtain ⟨rfl, -⟩ := requireRoot_eq_ok h
  obtain ⟨c, hc⟩ := (ha.there_of_flight hv).exists_container
  refine .lift (succeeds_of_faultless (faults_evictOne ha (.of_succeeds (.container hc))
    fun s' h => ?_))
  obtain ⟨-, c', -, hc', -⟩ := exists_merged ha hv (fun hf => absurd hf (by decide)) h
  exact .of_succeeds (.container hc')

/-! ## Containers that change hands -/

/-- Imports are what slots hold of foreign containers. -/
theorem Account.Kept.imports_eq (ha : Account.Kept ⟨s, F, 0, q⟩) {d : Dataspace}
    (hd : s.dataspace? ds = some d) (id : ContainerId) : d.imports[id]? =
      if s.isForeign ds id ∧ 0 < (s.slots ds).tally (.container id) then
        some ((s.slots ds).tally (.container id))
      else none := by
  have hcount := ha.imported.count id hd
  have hslots : s.slots ds + Charges.at 0 ds = s.slots ds := add_zero _
  rw [hslots, Std.TreeMap.getD_eq_getD_getElem?] at hcount
  have hpos := ha.imported.pos id hd
  cases hi : d.imports[id]? with
  | none =>
    rw [hi] at hcount
    refine (if_neg fun hx => ?_).symm
    rw [if_pos hx.1] at hcount
    exact absurd hx.2 (by rw [← hcount]; exact Nat.lt_irrefl 0)
  | some n =>
    rw [hi] at hcount hpos
    have hn : 0 < n := Nat.pos_of_ne_zero fun he => hpos (congrArg some he)
    split at hcount
    · next hforeign =>
      rw [if_pos ⟨hforeign, hcount ▸ hn⟩, ← hcount]
      rfl
    · exact absurd hcount (Nat.ne_of_gt hn)

/-- What a dataspace imports is there. -/
theorem Account.Kept.exists_import {a : Account} (ha : a.Kept) {p : ContainerId × Nat}
    (hp : p ∈ a.store.importsOf ds) : ∃ c, a.store.container? p.1 = some c := by
  unfold importsOf at hp
  cases hd : a.store.dataspace? ds with
  | none =>
    rw [hd] at hp
    exact absurd hp List.not_mem_nil
  | some d =>
    rw [hd, Option.map_some, Option.getD_some] at hp
    have hget := Std.TreeMap.mem_toList_iff_getElem?_eq_some.mp hp
    cases hc : a.store.container? p.1 with
    | some c => exact ⟨c, rfl⟩
    | none =>
      have hcount := ha.imported.count p.1 hd
      rw [isForeign, hc, Std.TreeMap.getD_eq_getD_getElem?, hget] at hcount
      refine absurd ?_ (ha.imported.pos p.1 hd)
      rw [hget]
      exact congrArg some hcount

/-- What only a dataspace refers to can be found out. -/
theorem succeeds_exclusiveImports (ha : Account.Kept ⟨s, F, C, q⟩) :
    Succeeds (exclusiveImports ds) s := by
  refine Succeeds.get_bind (Succeeds.bind ?_ fun held t _ => .pure _)
  refine Succeeds.filterM (fun p hp => ?_) fun p b t h => ?_
  · obtain ⟨c, hc⟩ := ha.exists_import hp
    exact .bind (.container hc) fun _ _ _ => .pure _
  · obtain ⟨c, s₁, h₁, h⟩ := StoreM.bind_eq_ok.mp h
    obtain ⟨-, rfl⟩ := StoreM.container_eq_ok.mp h₁
    obtain ⟨-, rfl⟩ := StoreM.pure_eq_ok.mp h
    rfl

/-- An exclusive container can be moved to the dataspace that refers to it. -/
theorem succeeds_transfer (ha : Account.Kept ⟨s, F, 0, none⟩) (hx : Exclusive s ds id c) :
    Succeeds (transfer ds id) s := by
  refine Succeeds.bind (succeeds_faultIn ha.accounted.stored hx.there) fun u s₁ h₁ => ?_
  obtain ⟨hpath, c₀, values, hc₀, hc₁⟩ :=
    walk_faultIn (E := (· = .still)) (F := F) (C := 0) (q := none) rfl h₁
  have ha₁ := hpath.kept ha
  obtain rfl := Option.some.inj (hc₀.symm.trans hx.there)
  obtain ⟨-, hdataspaces, -⟩ := faultIn_frame h₁
  refine Succeeds.bind (.container hc₁) fun d t h => ?_
  obtain ⟨hd, rfl⟩ := StoreM.container_eq_ok.mp h
  obtain rfl := Option.some.inj (hc₁.symm.trans hd)
  refine Succeeds.bind (.reading ⟨values, StoreM.values_eq_ok.mpr rfl⟩) fun values' t h => ?_
  obtain ⟨hvalues, rfl⟩ := StoreM.lift_eq_ok.mp h
  obtain rfl := Elements.resident.inj (StoreM.values_eq_ok.mp hvalues)
  have hthere : ∀ v ∈ values.toList ++ c₀.overlayValues, s₁.There v := fun v hv => by
    refine ha₁.there_of_held hc₁ (Multiset.mem_coe.mpr ?_)
    rw [Container.buffer_of_resident s₁.swap rfl]
    exact hv
  have himports : s₁.Imports fun x => _ := ha₁.imported.of_tally fun x t =>
    congrArg (Refs.tally · _) ((add_zero _).trans (slots_emptied hc₁ rfl x)).symm
  refine Succeeds.bind (succeeds_dropImports hthere himports) fun u s₂ h₂ => ?_
  have halike₂ := alike_dropImports h₂
  have hl₂ := ha₁.listed.of_sites (sites_dropImports h₂)
  obtain ⟨c₂, hc₂, hbare₂⟩ := halike₂.exists_container hc₁
  refine Succeeds.bind (succeeds_unlink hl₂ hc₂) fun u s₃ h₃ => ?_
  have halike₃ := halike₂.trans (alike_unlink h₃)
  obtain ⟨c₃, hc₃, -⟩ := halike₃.exists_container hc₁
  obtain ⟨d, hd, -⟩ := hx.all
  have hd₁ : s₁.dataspace? ds = some d := by
    unfold dataspace?
    rw [hdataspaces]
    exact hd
  obtain ⟨d₃, hd₃, -⟩ := halike₃.exists_dataspace hd₁
  refine Succeeds.bind (succeeds_link hd₃ hc₃ fun first hfirst => ?_) fun u s₄ h₄ => ?_
  · have howner : c₂.owner = c₀.owner := by
      rw [show c₂.owner = c₂.bare.owner from rfl, hbare₂]
      rfl
    have hhead : s₂.head? ds = some (some first) := by
      have h := (unlink_links hc₂ h₃).2.1 ds
      rw [if_neg fun h => hx.foreign (howner ▸ h.1.symm)] at h
      rw [← h, head?, hd₃, Option.map_some, hfirst]
    obtain ⟨l, hl, -⟩ := hl₂.head hhead
    obtain ⟨e, he, -⟩ := Option.map_eq_some_iff.mp hl
    obtain ⟨e', he', -⟩ := (alike_unlink h₃).exists_container he
    exact ⟨e', he'⟩
  refine Succeeds.bind (.modifyDataspace _ _) fun u s₅ h₅ => ?_
  obtain rfl := StoreM.modifyDataspace_eq_ok.mp h₅
  refine succeeds_addImports fun v hv => ?_
  show s₄.There v
  exact (((hthere v hv).alike halike₃).withContainer hc₃).alike (alike_link hc₃ h₄)

/-- Exclusive containers can be taken over one after the other. -/
theorem succeeds_transfers {ids : List ContainerId} (ha : Account.Kept ⟨s, F, 0, none⟩)
    (hp : s.planes = []) (hn : ids.Nodup) (hx : ∀ id ∈ ids, ∃ c, Exclusive s ds id c) :
    Succeeds (ids.forM (transfer ds) : StoreM PUnit) s := by
  refine Succeeds.forM (P := fun ids s => Account.Kept ⟨s, F, 0, none⟩ ∧ s.planes = [] ∧
    ids.Nodup ∧ ∀ id ∈ ids, ∃ c, Exclusive s ds id c) ⟨ha, hp, hn, hx⟩ ?_
  rintro id ids s ⟨ha, hp, hn, hx⟩
  obtain ⟨c, hid⟩ := hx id List.mem_cons_self
  refine ⟨succeeds_transfer ha hid, fun u s' h => ?_⟩
  obtain ⟨hpath, hp', hrest⟩ := walk_transfer Effect.Moves.still (.transfer _ _) ha hp hn hx h
  exact ⟨hpath.kept ha, hp', hrest⟩

/-- The rounds of a takeover succeed outside of atomic regions. -/
theorem succeeds_transferExclusive {n : Nat} (ha : Account.Kept ⟨s, F, 0, none⟩)
    (hp : s.planes = []) : Succeeds (transferExclusive ds n) s := by
  induction n generalizing s with
  | zero => exact .pure _
  | succ n ih =>
    refine Succeeds.bind (succeeds_exclusiveImports ha) fun ids t h => ?_
    obtain ⟨rfl, hn, hx⟩ := exclusiveImports_eq_ok ha h
    split
    · exact .pure _
    · have hx : ∀ id ∈ ids, ∃ c, Exclusive s ds id c := fun id => (hx id).mp
      refine Succeeds.bind (succeeds_transfers ha hp hn hx) fun u s₁ h₁ => ?_
      obtain ⟨hpath, hp₁⟩ := walk_transfers Effect.Moves.still (.transfer _) ha hp hn hx h₁
      exact Succeeds.bind (ih (hpath.kept ha) hp₁) fun m t _ => .pure _

/-! ## Dataspaces -/

/-- Walking a sweep list while containers are evicted fails only at one that was freed. -/
theorem faults_evictList {n : Nat} {cursor : Option ContainerId} (ha : Account.Kept ⟨s, F, C, q⟩)
    (hp : s.planes = []) : FaultsOnly Fault.Dangling (evictList n cursor) s := by
  induction n generalizing s cursor with
  | zero =>
    rw [evictList]
    exact .of_succeeds (.pure _)
  | succ n ih =>
    cases cursor with
    | none => exact .of_succeeds (.pure _)
    | some id =>
      refine FaultsOnly.bind (.container id) fun c t h => ?_
      obtain ⟨-, rfl⟩ := StoreM.container_eq_ok.mp h
      refine FaultsOnly.bind (faults_evictOne ha (.container id) fun s' _ => .container id)
        fun b s₁ h₁ => ?_
      obtain ⟨hpath, hp₁, -⟩ := walk_evictOne Effect.Moves.still (.evict _) ha hp h₁
      exact FaultsOnly.bind (ih (hpath.kept ha) hp₁) fun m t _ => .of_succeeds (.pure _)

/-- The imports that are left are there to be named. -/
theorem mapM_importKind {ps : List (ContainerId × Nat)}
    (hps : ∀ p ∈ ps, ∃ c, s.container? p.1 = some c) :
    (ps.mapM fun (id, _) => do return Value.ofContainer (← container id).kind id :
      ClientM (List Value)) s = .ok (.ok (ps.filterMap s.importedValue), s) := by
  induction ps with
  | nil => rfl
  | cons p ps ih =>
    obtain ⟨⟨c, hc⟩, hps⟩ := List.forall_mem_cons.mp hps
    have hfirst : s.importedValue p = some (.ofContainer c.kind p.1) := by
      rw [Store.importedValue, hc, Option.map_some]
    rw [List.mapM_cons, List.filterMap_cons_some hfirst]
    refine ClientM.bind_eq_ok.mpr (.inr ⟨Value.ofContainer c.kind p.1, s, ?_, ?_⟩)
    · exact ClientM.lift_bind_eq_ok.mpr ⟨c, s, StoreM.container_eq_ok.mpr ⟨hc, rfl⟩, rfl⟩
    · exact ClientM.bind_eq_ok.mpr (.inr ⟨_, s, ih hps, rfl⟩)

/-- What a dataspace imports is there to be listed. -/
theorem Account.Kept.mapM_imported {a : Account} (ha : a.Kept) (ds : DataspaceId) :
    ((a.store.importsOf ds).mapM fun (id, _) => do
      return Value.ofContainer (← container id).kind id : ClientM (List Value)) a.store =
        .ok (.ok (a.store.imported ds), a.store) :=
  mapM_importKind fun _ hp => ha.exists_import hp

/-- Evicting a dataspace fails only where walking its sweep list does. -/
theorem faults_evictDataspace_of {P : Fault → Prop} (ha : Account.Kept ⟨s, F, 0, none⟩)
    (hlist : s.planes = [] → ∀ rehomed s₁,
      transferExclusive ds (s.heap.containers.cells.size + 1) s = .ok (rehomed, s₁) →
        FaultsOnly P (evictList s.heap.containers.cells.size
          ((s₁.dataspace? ds).bind Dataspace.head)) s₁) :
    FaultsOnly P (evictDataspace ds) s := by
  refine FaultsOnly.requestBind (.of_succeeds (succeeds_requireDataspace ds)) fun d t h => ?_
  obtain ⟨rfl, -⟩ := requireDataspace_eq_ok h
  refine FaultsOnly.requestBind (.of_succeeds succeeds_requireRoot) fun u t h => ?_
  obtain ⟨rfl, hp⟩ := requireRoot_eq_ok h
  refine FaultsOnly.requestGetBind ?_
  refine FaultsOnly.liftBind (.of_succeeds (succeeds_transferExclusive ha (hp rfl)))
    fun rehomed s₁ h₁ => ?_
  obtain ⟨hpath, hp₁⟩ := walk_transferExclusive Effect.Moves.still (.transfer _) ha (hp rfl) h₁
  have ha₁ := hpath.kept ha
  refine FaultsOnly.requestGetBind ?_
  have hshared := ha₁.mapM_imported ds
  refine FaultsOnly.requestBind (.of_succeeds ⟨_, _, hshared⟩) fun shared' t h => ?_
  obtain ⟨-, rfl⟩ := Prod.mk.inj (Except.ok.inj (hshared.symm.trans h))
  refine FaultsOnly.requestGetBind ?_
  exact FaultsOnly.liftBind (hlist (hp rfl) rehomed s₁ h₁) fun evicted t _ =>
    .of_succeeds (.answer _)

/-- The only fault that evicting a dataspace can end in is that a handle dangles. -/
theorem faults_evictDataspace (ha : Account.Kept ⟨s, F, 0, none⟩) :
    FaultsOnly Fault.Dangling (evictDataspace ds) s := by
  refine faults_evictDataspace_of ha fun hp rehomed s₁ h => ?_
  obtain ⟨hpath, hp₁⟩ := walk_transferExclusive Effect.Moves.still (.transfer _) ha hp h
  exact faults_evictList (hpath.kept ha) hp₁

end

end PlaneStore
