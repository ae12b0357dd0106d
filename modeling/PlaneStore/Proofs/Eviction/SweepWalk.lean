import PlaneStore.Proofs.Totality.Eviction

/-!
# Sweeping a dataspace

Evicting a dataspace walks its sweep list. The walk remembers the next container before it evicts
the one it is at, and the merge of an overlay may free containers meanwhile: if the next one is
still there when the walk comes to it, none of the rest is missed. So either a handle dangles or, in
the end, everything that the dataspace owns is evicted.
-/

namespace PlaneStore

open Store

/-! ## Lists that get shorter -/

/-- Containers come off their sweep lists, one after the other. -/
inductive Store.Thins : Store → Store → Prop
  | refl (s : Store) : Thins s s
  | same {s t u : Store} (h : Thins s t) (hsites : u.sites = t.sites) : Thins s u
  | vacates {s t u : Store} {id : ContainerId} {c : Container} (h : Thins s t)
    (hc : t.container? id = some c) (hu : Vacated t id c u) : Thins s u

/-- What was vacated is on no list. -/
theorem Store.Vacated.links?_self {s t : Store} {id : ContainerId} {c : Container}
    (h : Vacated s id c t) : t.links? id = none := by
  have hnone := h.alike.container id
  rw [container?_without_self] at hnone
  unfold links?
  rw [Option.map_eq_none_iff.mp hnone]
  rfl

namespace Store.Thins

variable {s t u : Store} {cursor : Option ContainerId} {ids : List ContainerId}

theorem trans (h : Thins s t) (h' : Thins t u) : Thins s u := by
  induction h' with
  | refl => exact h
  | same _ hsites ih => exact ih.same hsites
  | vacates _ hc hu ih => exact ih.vacates hc hu

theorem listed (h : Thins s t) (hs : s.Listed) : t.Listed := by
  induction h with
  | refl => exact hs
  | same _ hsites ih => exact ih.of_sites hsites
  | vacates _ hc hu ih => exact hu.listed hc ih

/-- What is linked afterwards was linked before, on the list of the same dataspace. -/
theorem linked (h : Thins s t) {id : ContainerId} {l : Links} (hl : t.links? id = some l) :
    ∃ m, s.links? id = some m ∧ m.owner = l.owner := by
  induction h generalizing l with
  | refl => exact ⟨l, hl, rfl⟩
  | same _ hsites ih => exact ih ((links?_of_sites hsites id).symm.trans hl)
  | @vacates t u other c _ hc hu ih =>
    have hne : other ≠ id := by
      rintro rfl
      rw [hu.links?_self] at hl
      cases hl
    rw [hu.links id hne] at hl
    obtain ⟨m, hm, rfl⟩ := Option.map_eq_some_iff.mp hl
    obtain ⟨m₀, hm₀, howner⟩ := ih hm
    exact ⟨m₀, hm₀, howner⟩

/-- From a container that is still there on, the walk leads past all the others that are. -/
theorem strand (h : Thins s t) (hs : s.Listed) (hids : Strand s.links? cursor ids)
    (hcursor : ∀ x, cursor = some x → ∃ l, t.links? x = some l) :
    ∃ ids', Strand t.links? cursor ids' ∧ ids'.length ≤ ids.length ∧
      ∀ x ∈ ids, ∀ l, t.links? x = some l → x ∈ ids' := by
  induction h with
  | refl => exact ⟨ids, hids, le_rfl, fun x hx _ _ => hx⟩
  | @same t u h hsites ih =>
    have hlinks := links?_of_sites hsites
    obtain ⟨ids', hids', hle, hall⟩ := ih fun x hx => by simpa only [hlinks] using hcursor x hx
    refine ⟨ids', hids'.congr fun x _ => by rw [hlinks], hle, fun x hx l hl => ?_⟩
    exact hall x hx l ((hlinks x).symm.trans hl)
  | @vacates t u id c h hc hu ih =>
    have hbefore : ∀ {x l}, u.links? x = some l → x ≠ id ∧ ∃ m, t.links? x = some m := by
      intro x l hl
      have hne : id ≠ x := by
        rintro rfl
        rw [hu.links?_self] at hl
        cases hl
      rw [hu.links x hne] at hl
      obtain ⟨m, hm, -⟩ := Option.map_eq_some_iff.mp hl
      exact ⟨hne.symm, m, hm⟩
    obtain ⟨ids', hids', hle, hall⟩ := ih fun x hx => by
      obtain ⟨l, hl⟩ := hcursor x hx
      exact (hbefore hl).2
    have hremoved := hids'.remove (links?_of_container hc) hu.links
      fun hm => (h.listed hs).next_iff_prev (links?_of_container hc) hm
    rw [if_neg] at hremoved
    · refine ⟨_, hremoved, (List.length_filter_le _ _).trans hle, fun x hx l hl => ?_⟩
      obtain ⟨hne, m, hm⟩ := hbefore hl
      exact List.mem_filter.mpr ⟨hall x hx m hm, by simpa using hne⟩
    · intro he
      obtain ⟨l, hl⟩ := hcursor id he
      exact (hbefore hl).1 rfl

end Store.Thins

section

variable {s s' : Store} {F : Refs} {C : Charges} {q : Option Closing} {id : ContainerId}
  {ds : DataspaceId}

theorem thins_dropReference {v : Value} {children : List Value}
    (h : dropReference v s = .ok (children, s')) : Thins s s' := by
  cases dropReference_released h with
  | kept hsites => exact (Thins.refl s).same hsites
  | freed hc hone ht h => exact ((Thins.refl s).vacates hc ht).same (sites_dropImports h)

theorem thins_drain {work : List Value} {u : Unit} (h : drain work s = .ok (u, s')) :
    Thins s s' := by
  replace h := drain_eq_ok h
  induction h with
  | done => exact .refl _
  | drop hd _ ih => exact (thins_dropReference hd).trans ih

theorem thins_relinquish {vs : List Value} {u : Unit} (h : relinquish ds vs s = .ok (u, s')) :
    Thins s s' := by
  obtain ⟨_, s₁, h₁, h₂⟩ := StoreM.bind_eq_ok.mp h
  exact ((Thins.refl s).same (sites_dropImports h₁)).trans (thins_drain h₂)

/-! ## One container -/

/-- A container is evicted, and what else is there afterwards has the elements it had. -/
structure Store.Evicts (s : Store) (id : ContainerId) (s' : Store) : Prop where
  thins : Thins s s'
  evicted : ∀ c, s'.container? id = some c → c.isResident = false
  others : ∀ other c', other ≠ id → s'.container? other = some c' →
    ∃ c, s.container? other = some c ∧ c'.core = c.core

theorem sites_faultIn {u : Unit} (h : faultIn id s = .ok (u, s')) : s'.sites = s.sites := by
  obtain ⟨c, hc, ⟨-, -, rfl⟩ | ⟨ticket, -, rfl⟩⟩ := faultIn_eq_ok h
  · rfl
  · exact sites_withContainer (s := { s with swap := _ }) hc rfl

/-- A merge works on its own mapping and moves none to another list. -/
theorem sites_absorbOverlay {released : List Value}
    (h : Mapping.absorbOverlay id s = .ok (released, s')) :
    s'.sites = s.sites ∧ ∀ other, id ≠ other → s'.container? other = s.container? other := by
  obtain ⟨c, hc, ⟨-, -, rfl⟩ | ⟨overlay, values, values', -, -, -, rfl⟩⟩ :=
    Mapping.absorbOverlay_eq_ok h
  · exact ⟨rfl, fun _ _ => rfl⟩
  · exact ⟨sites_withContainer hc rfl, fun other hne => container?_withContainer_of_ne hne⟩

/-- What is left beside a merged mapping is what it was. -/
theorem mergeOverlay_others {u : Unit} (ha : Account.Kept ⟨s, F, C, q⟩)
    (h : Mapping.mergeOverlay id false s = .ok (u, s')) :
    Thins s s' ∧ ∀ other c', other ≠ id → s'.container? other = some c' →
      ∃ c, s.container? other = some c ∧ c'.core = c.core := by
  obtain ⟨s₁, c, superseded, s₃, dropped, s₄, h₁, hc, h₃, ⟨rfl, rfl⟩, h⟩ :=
    Mapping.mergeOverlay_eq_ok h
  obtain ⟨hpath₁, c₀, values₀, hc₀, hc₁⟩ :=
    walk_faultIn (E := (· = .still)) (F := F) (C := C) (q := q) rfl h₁
  obtain rfl := Option.some.inj (hc₁.symm.trans hc)
  obtain ⟨hpath₃, -⟩ := walk_absorbOverlay (E := (· = .still)) (F := F) (C := C) (q := q)
    rfl hc rfl h₃
  obtain ⟨hsites, hothers⟩ := sites_absorbOverlay h₃
  have hw := wanes_relinquish (((hpath₁.trans hpath₃).kept ha).accounted.stored) h
  refine ⟨(((Thins.refl s).same (sites_faultIn h₁)).same hsites).trans (thins_relinquish h),
    fun other c' hne hc' => ?_⟩
  obtain ⟨c, hc, hcore⟩ := hw.container other c' hc'
  rw [hothers other hne.symm, (faultIn_frame h₁).2.2 other hne.symm] at hc
  exact ⟨c, hc, hcore⟩

/-- To evict one container leaves it without its elements or frees it. -/
theorem evictOne_evicts {b : Bool} (ha : Account.Kept ⟨s, F, C, q⟩)
    (h : evictOne id s = .ok (b, s')) : Evicts s id s' := by
  obtain ⟨c, hc, hb, ⟨rfl, rfl⟩ | ⟨rfl, t, c₁, values, hmerge, hc₁, -, rfl⟩⟩ := evictOne_eq_ok h
  · refine ⟨.refl _, fun d hd => ?_, fun other c' _ hc' => ⟨c', hc', rfl⟩⟩
    obtain rfl := Option.some.inj (hc.symm.trans hd)
    exact hb.symm
  have hmerged : Thins s t ∧ ∀ other c', other ≠ id → t.container? other = some c' →
      ∃ c, s.container? other = some c ∧ c'.core = c.core := by
    rcases StoreM.when_eq_ok.mp hmerge with ⟨-, h₁⟩ | ⟨-, rfl⟩
    · exact mergeOverlay_others ha h₁
    · exact ⟨.refl _, fun other c' _ hc' => ⟨c', hc', rfl⟩⟩
  refine ⟨hmerged.1.same ?_, fun d hd => ?_, fun other d hne hd => ?_⟩
  · exact sites_withContainer (s := { t with swap := _ }) hc₁ rfl
  · obtain rfl := Option.some.inj ((container?_withContainer_self hc₁).symm.trans hd)
    rfl
  · exact hmerged.2 other d hne ((container?_withContainer_of_ne hne.symm).symm.trans hd)

/-! ## The walk -/

/-- Containers that are there afterwards were there before, and those evicted stay so. -/
theorem evictList_evicts {n m : Nat} {cursor : Option ContainerId} {ids : List ContainerId}
    (ha : Account.Kept ⟨s, F, C, q⟩) (hp : s.planes = [])
    (h : evictList n cursor s = .ok (m, s')) (hids : Strand s.links? cursor ids)
    (hn : ids.length ≤ n) : ∀ id c', s'.container? id = some c' →
      ∃ c, s.container? id = some c ∧ c'.owner = c.owner ∧
        (id ∈ ids ∨ c.isResident = false → c'.isResident = false) := by
  induction n generalizing s cursor ids m with
  | zero =>
    obtain rfl := List.eq_nil_of_length_eq_zero (Nat.le_zero.mp hn)
    rw [evictList] at h
    obtain ⟨-, rfl⟩ := StoreM.pure_eq_ok.mp h
    exact fun id c' hc' => ⟨c', hc', rfl, fun h => h.resolve_left List.not_mem_nil⟩
  | succ n ih =>
    cases hids with
    | nil =>
      obtain ⟨-, rfl⟩ := StoreM.pure_eq_ok.mp h
      exact fun id c' hc' => ⟨c', hc', rfl, fun h => h.resolve_left List.not_mem_nil⟩
    | @cons id l ids hl hids =>
      obtain ⟨c, b, s₁, k, hc, h₁, h₂, -⟩ := evictList_some_eq_ok h
      obtain rfl := Option.some.inj ((links?_of_container hc).symm.trans hl)
      obtain ⟨hpath, hp₁, -⟩ := walk_evictOne Effect.Moves.still (.evict _) ha hp h₁
      have hone := evictOne_evicts ha h₁
      rw [List.length_cons, Nat.add_le_add_iff_right] at hn
      -- The walk looks at the next container, so that one is still there.
      have hnext : ∀ x, c.next = some x → ∃ l, s₁.links? x = some l := by
        intro x hx
        cases n with
        | zero =>
          obtain rfl := List.eq_nil_of_length_eq_zero (Nat.le_zero.mp hn)
          change Strand s.links? c.next [] at hids
          rw [hx] at hids
          cases hids
        | succ n =>
          rw [hx] at h₂
          obtain ⟨d, _, _, _, hd, -⟩ := evictList_some_eq_ok h₂
          exact ⟨_, links?_of_container hd⟩
      obtain ⟨ids', hids', hle, hall⟩ := hone.thins.strand ha.listed hids hnext
      intro x c' hc'
      obtain ⟨c₁, hc₁, howner, hafter⟩ := ih (hpath.kept ha) hp₁ h₂ hids' (hle.trans hn) x c' hc'
      obtain ⟨m, hm, hmo⟩ := hone.thins.linked (links?_of_container hc₁)
      obtain ⟨c₀, hc₀, rfl⟩ := Option.map_eq_some_iff.mp hm
      refine ⟨c₀, hc₀, howner.trans hmo.symm, fun hx => hafter ?_⟩
      by_cases hid : x = id
      · subst hid
        exact .inr (hone.evicted c₁ hc₁)
      rcases hx with hx | hx
      · refine .inl (hall x ((List.mem_cons.mp hx).resolve_left hid) _ (links?_of_container hc₁))
      · obtain ⟨d, hd, hcore⟩ := hone.others x c₁ hid hc₁
        obtain rfl := Option.some.inj (hc₀.symm.trans hd)
        right
        unfold Container.isResident at hx ⊢
        rw [Container.elements_of_core hcore]
        exact hx

/-! ## Pending writes -/

/-- How many slots and dataspaces there are, and which writes are pending. -/
def Store.stock (s : Store) : (Nat × Nat) × (ContainerId → Option (Option Overlay)) :=
  ((s.heap.containers.cells.size, s.dataspaces.size),
    fun id => (s.container? id).map Container.overlay)

theorem Store.Alike.stock {s s' : Store} (h : Alike s s') : s'.stock = s.stock := by
  refine Prod.ext (Prod.ext h.cells h.size) (funext fun id => ?_)
  have hbare := congrArg (Option.map Container.overlay) (h.container id)
  rw [Option.map_map, Option.map_map] at hbare
  exact hbare

theorem Store.stock_withContainer {c d : Container} (hc : s.container? id = some c)
    (hd : d.overlay = c.overlay) : (s.withContainer id d).stock = s.stock := by
  refine Prod.ext (Prod.ext (by simp [Store.stock, withContainer, Slab.set]) rfl)
    (funext fun other => ?_)
  by_cases hid : id = other
  · subst hid
    show ((s.withContainer id d).container? id).map _ = (s.container? id).map _
    rw [container?_withContainer_self hc, hc, Option.map_some, Option.map_some, hd]
  · exact congrArg (Option.map _) (container?_withContainer_of_ne hid)

theorem keeps_faultIn : StoreM.Keeps stock (faultIn id) := by
  intro s s' u h
  obtain ⟨c, hc, ⟨-, -, rfl⟩ | ⟨ticket, -, rfl⟩⟩ := faultIn_eq_ok h
  · rfl
  · exact stock_withContainer (s := { s with swap := _ }) hc rfl

/-- A transfer leaves all pending writes alone. -/
theorem keeps_transfer : StoreM.Keeps stock (transfer ds id) := by
  intro s₀ s' u h
  obtain ⟨s, c, values, s₁, s₂, s₃, hload, hc, -, h₁, h₂, h₃, h⟩ := transfer_eq_ok h
  have halike := (alike_dropImports h₁).trans (alike_unlink h₂)
  obtain ⟨d, hd, -⟩ := halike.exists_container hc
  have hrest : Alike s₃ s' :=
    (alike_withDataspace (by exact fun _ _ => rfl)).trans (alike_addImports h)
  have hlinked : s₃.stock = s₂.stock :=
    (alike_link hd h₃).stock.trans (stock_withContainer hd rfl)
  rw [hrest.stock, hlinked, halike.stock, keeps_faultIn hload]

/-- The rounds of transfers leave all pending writes alone. -/
theorem keeps_transferExclusive {n : Nat} (ha : Account.Kept ⟨s, F, 0, none⟩) (hp : s.planes = [])
    {m : Nat} (h : transferExclusive ds n s = .ok (m, s')) : s'.stock = s.stock := by
  induction n generalizing s m with
  | zero => rw [(StoreM.pure_eq_ok.mp h).2]
  | succ n ih =>
    obtain ⟨ids, t, h₁, hround⟩ := transferExclusive_succ_eq_ok h
    obtain ⟨rfl, hn, hx⟩ := exclusiveImports_eq_ok ha h₁
    rcases hround with ⟨-, -, rfl⟩ | ⟨-, s₁, k, h₁, h₂, -⟩
    · rfl
    · obtain ⟨hpath, hp₁⟩ :=
        walk_transfers Effect.Moves.still (.transfer _) ha hp hn (fun id => (hx id).mp) h₁
      exact (ih (hpath.kept ha) hp₁ h₂).trans (StoreM.Keeps.forM (fun _ => keeps_transfer) _ h₁)

/-- Every pending write adds a key: none is an update of a sorted pair. -/
def Store.Appending (s : Store) : Prop :=
  ∀ id c o, s.container? id = some c → c.overlay = some o → ∀ e ∈ o.toList, e.added = true

theorem Store.Appending.of_stock (h : s.Appending) (hs : s'.stock = s.stock) : s'.Appending := by
  intro id c' o hc' ho
  have hid := congrFun (congrArg Prod.snd hs) id
  change (s'.container? id).map Container.overlay = (s.container? id).map Container.overlay at hid
  rw [hc', Option.map_some, ho] at hid
  obtain ⟨c, hc, ho'⟩ := Option.map_eq_some_iff.mp hid.symm
  exact h id c o hc ho'

/-- If pending writes only add keys, merging and evicting take nothing off a sweep list. -/
theorem mergeOverlay_appending {u : Unit} (happ : s.Appending)
    (h : Mapping.mergeOverlay id false s = .ok (u, s')) : s'.sites = s.sites ∧ s'.Appending := by
  obtain ⟨s₁, c₀, superseded, s₃, dropped, s₄, h₁, hc₀, h₃, ⟨rfl, rfl⟩, h⟩ :=
    Mapping.mergeOverlay_eq_ok h
  have hsites := (sites_absorbOverlay h₃).1.trans (sites_faultIn h₁)
  have happ₁ : s₁.Appending := happ.of_stock (keeps_faultIn h₁)
  obtain ⟨c, hc, ⟨-, rfl, rfl⟩ | ⟨overlay, values, values', ho, -, hm, rfl⟩⟩ :=
    Mapping.absorbOverlay_eq_ok h₃
  · obtain rfl := relinquish_nil h
    exact ⟨hsites, happ₁⟩
  · obtain rfl := Mapping.released_merged hm (happ₁ id c overlay hc ho)
    obtain rfl := relinquish_nil h
    refine ⟨hsites, fun other d o hd hdo => ?_⟩
    rcases container?_withContainer_cases hc hd with ⟨-, rfl⟩ | ⟨-, hd⟩
    · cases hdo
    · exact happ₁ other d o hd hdo

/-- Where pending writes only add keys, evicting a container unlinks nothing. -/
theorem evictOne_appending {b : Bool} (happ : s.Appending) (h : evictOne id s = .ok (b, s')) :
    s'.sites = s.sites ∧ s'.Appending := by
  obtain ⟨c, hc, -, ⟨-, rfl⟩ | ⟨-, t, c₁, values, hmerge, hc₁, -, rfl⟩⟩ := evictOne_eq_ok h
  · exact ⟨rfl, happ⟩
  have hmerged : t.sites = s.sites ∧ t.Appending := by
    rcases StoreM.when_eq_ok.mp hmerge with ⟨-, h₁⟩ | ⟨-, rfl⟩
    · exact mergeOverlay_appending happ h₁
    · exact ⟨rfl, happ⟩
  refine ⟨Eq.trans (sites_withContainer (s := { t with swap := _ }) hc₁ rfl) hmerged.1, ?_⟩
  exact hmerged.2.of_stock (stock_withContainer (s := { t with swap := _ }) hc₁ rfl)

/-- Nothing stops the walk if pending writes only add keys. -/
theorem succeeds_evictList {n : Nat} {cursor : Option ContainerId} {ids : List ContainerId}
    (ha : Account.Kept ⟨s, F, C, q⟩) (hp : s.planes = []) (happ : s.Appending)
    (hids : Strand s.links? cursor ids) : Succeeds (evictList n cursor) s := by
  induction n generalizing s cursor ids with
  | zero =>
    rw [evictList]
    exact .pure _
  | succ n ih =>
    cases hids with
    | nil => exact .pure _
    | @cons id l ids hl hids =>
      obtain ⟨c, hc, rfl⟩ := Option.map_eq_some_iff.mp hl
      refine Succeeds.bind (.container hc) fun c' t h => ?_
      obtain ⟨hc', rfl⟩ := StoreM.container_eq_ok.mp h
      obtain rfl := Option.some.inj (hc.symm.trans hc')
      -- To evict one container merges its overlay first, which unlinks nothing.
      have hone : Succeeds (evictOne id) s := by
        refine succeeds_of_faultless (faults_evictOne ha (.of_succeeds (.container hc))
          fun s' h => ?_)
        obtain ⟨hsites, -⟩ := mergeOverlay_appending happ h
        obtain ⟨d, hd, -⟩ := Option.map_eq_some_iff.mp ((links?_of_sites hsites id).trans hl)
        exact .of_succeeds (.container hd)
      refine Succeeds.bind hone fun b s₁ h₁ => ?_
      obtain ⟨hpath, hp₁, -⟩ := walk_evictOne Effect.Moves.still (.evict _) ha hp h₁
      obtain ⟨hsites, happ₁⟩ := evictOne_appending happ h₁
      refine Succeeds.bind (ih (hpath.kept ha) hp₁ happ₁ (hids.congr fun x _ => ?_))
        fun m t _ => .pure _
      rw [links?_of_sites hsites]

/-! ## Dataspaces -/

/-- There are no more containers than slots. -/
theorem length_le_cells {ids : List ContainerId} (hn : ids.Nodup)
    (hids : ∀ id ∈ ids, ∃ c, s.container? id = some c) :
    ids.length ≤ s.heap.containers.cells.size := by
  have hslots : (ids.map ContainerId.slot).Nodup :=
    hn.map fun x y h => by
      cases x
      cases y
      exact congrArg ContainerId.mk h
  have hsub : ids.map ContainerId.slot ⊆ List.range s.heap.containers.cells.size := by
    intro i hi
    obtain ⟨x, hx, rfl⟩ := List.mem_map.mp hi
    obtain ⟨c, hc⟩ := hids x hx
    exact List.mem_range.mpr (Slab.get?_eq_some.mp hc).1
  have hle := (hslots.subperm hsub).length_le
  rwa [List.length_map, List.length_range] at hle

/-- The sweep list of a dataspace is no longer than there are slots. -/
theorem exists_strand (ha : Account.Kept ⟨s, F, C, q⟩) {d : Dataspace}
    (hd : s.dataspace? ds = some d) : ∃ ids, Strand s.links? d.head ids ∧
      ids.length ≤ s.heap.containers.cells.size ∧
        ∀ id c, s.container? id = some c → c.owner = ds → id ∈ ids := by
  obtain ⟨ids, hids, hall⟩ := ha.listed.whole (congrArg (Option.map Dataspace.head) hd)
  refine ⟨ids, hids, length_le_cells hids.nodup fun id hid => ?_,
    fun id c hc ho => hall (links?_of_container hc) ho⟩
  obtain ⟨l, hl⟩ := hids.linked id hid
  obtain ⟨c, hc, -⟩ := Option.map_eq_some_iff.mp hl
  exact ⟨c, hc⟩

theorem exists_dataspace_of_stock {d : Dataspace} (h : s'.stock = s.stock)
    (hd : s.dataspace? ds = some d) : ∃ d', s'.dataspace? ds = some d' := by
  have hsize : s'.dataspaces.size = s.dataspaces.size := congrArg (·.1.2) h
  have hlt : ds.index < s'.dataspaces.size := hsize ▸ (Array.getElem?_eq_some_iff.mp hd).1
  exact ⟨s'.dataspaces[ds.index], Array.getElem?_eq_getElem hlt⟩

/-- An eviction that is answered leaves nothing of the dataspace in memory. -/
theorem evictDataspace_evicts {r : Except Refusal EvictionReport} {d : Dataspace}
    (hd : s.dataspace? ds = some d) (hp : s.planes = []) (ha : Account.Kept ⟨s, F, 0, none⟩)
    (h : evictDataspace ds s = .ok (r, s')) : (∃ report, r = .ok report) ∧
      ∀ id c, s'.container? id = some c → c.owner = ds → c.isResident = false := by
  obtain ⟨rehomed, evicted, s₁, rfl, h₁, h₂⟩ := evictDataspace_stages hd hp h
  obtain ⟨hpath, hp₁⟩ := walk_transferExclusive Effect.Moves.still (.transfer _) ha hp h₁
  have ha₁ := hpath.kept ha
  have hstock := keeps_transferExclusive ha hp h₁
  obtain ⟨d₁, hd₁⟩ := exists_dataspace_of_stock hstock hd
  obtain ⟨ids, hids, hle, hall⟩ := exists_strand ha₁ hd₁
  have hsize : s₁.heap.containers.cells.size = s.heap.containers.cells.size :=
    congrArg (·.1.1) hstock
  rw [hsize] at hle
  rw [hd₁, Option.bind_some] at h₂
  refine ⟨⟨_, rfl⟩, fun id c hc ho => ?_⟩
  obtain ⟨c₁, hc₁, howner, hafter⟩ := evictList_evicts ha₁ hp₁ h₂ hids hle id c hc
  exact hafter (.inl (hall id c₁ hc₁ (howner ▸ ho)))

/-- Where pending writes only add keys, the eviction of a dataspace meets no fault. -/
theorem succeeds_evictDataspace {d : Dataspace} (hd : s.dataspace? ds = some d)
    (ha : Account.Kept ⟨s, F, 0, none⟩) (happ : s.Appending) :
    Succeeds (evictDataspace ds) s := by
  refine succeeds_of_faultless (faults_evictDataspace_of ha fun hp rehomed s₁ h₁ => ?_)
  obtain ⟨hpath, hp₁⟩ := walk_transferExclusive Effect.Moves.still (.transfer _) ha hp h₁
  have hstock := keeps_transferExclusive ha hp h₁
  obtain ⟨d₁, hd₁⟩ := exists_dataspace_of_stock hstock hd
  obtain ⟨ids, hids, -⟩ := exists_strand (hpath.kept ha) hd₁
  rw [hd₁, Option.bind_some]
  exact .of_succeeds (succeeds_evictList (hpath.kept ha) hp₁ (happ.of_stock hstock) hids)

end

end PlaneStore
