import PlaneStore.Proofs.Planes.RegionResidue
import PlaneStore.Proofs.Clients.MirroredRequests
import PlaneStore.Proofs.Clients.ExactRecords

/-!
# Mirrors for which nothing is pending

A pending write keeps the value alive that it will replace, and so does what a plane remembers.
Outside of all regions, and once every pending write is merged, containers stay for what can be come
upon only. Stores that mirror each other then have the same containers and texts, and count the
same.
-/

namespace PlaneStore

open Store

/-! ## Merging what is pending -/

/-- Nothing is pending for any mapping. -/
def Store.Merged (s : Store) : Prop := ∀ id x, s.content? id = some x → x.overlay = none

section

variable {a b : Account} {id : ContainerId} {x' : Content}

/-- Where contents stay as they are, nothing is pending that was not before. -/
theorem Path.overlay (h : Path (· = .still) a b) (ha : a.Kept)
    (hx' : b.store.content? id = some x') (ho : x'.overlay ≠ none) :
    ∃ x, a.store.content? id = some x ∧ x.overlay ≠ none := by
  induction h generalizing x' with
  | refl => exact ⟨x', hx', ho⟩
  | tail h he hs ih =>
    subst he
    cases hs.content (h.kept ha).accounted hx' with
    | kept hx => exact ih hx ho
    | becomes hx hbec =>
      cases hbec
      exact absurd rfl ho
    | made hcreate => cases hcreate

end

/--
Stores with the same variables, callout tables, queue of the scheduler, and imports. The same
containers and texts are there, as often referred to; the containers hold the same, a mapping as a
finite map, and belong to the same dataspaces and planes.
-/
structure Store.Coincides (s s' : Store) : Prop where
  variableAt? : ∀ ref, s'.variableAt? ref = s.variableAt? ref
  tables : s'.agenda.tables = s.agenda.tables
  queue : ∀ call : CallRef, s'.scheduler.queue[call]? = s.scheduler.queue[call]?
  importCount : ∀ ds v, s'.importCount ds v = s.importCount ds v
  count? : ∀ t, s'.heap.count? t = s.heap.count? t
  text : ∀ i e e', s.heap.strings.get? i = some e → s'.heap.strings.get? i = some e' →
    e'.text = e.text
  content : ∀ id x y, s.content? id = some x → s'.content? id = some y →
    x.Twin s s' y ∧ y.home = x.home

namespace Client

variable {c d c' d' c₁ c₂ : Client} {id : ContainerId}

/-- Pending writes are merged, of one mapping after the other. -/
inductive Merges (c : Client) : Client → Prop
  | start : Merges c c
  | next {c₁ c₂ : Client} {id : ContainerId} {m : Container} (h : Merges c c₁)
    (hm : c₁.store.container? id = some m) (hk : m.kind = .mapping)
    (hmerge : c₁.store.perform (.mapMerge (.container .mapping id) false) =
      .ok (.ok .done, c₂.store))
    (howned : c₂.owned = c₁.owned) : Merges c c₂

/-- A merge without compaction is always carried out. -/
theorem merge_performs {s s' : Store} {o : Outcome} :
    s.perform (.mapMerge (.container .mapping id) false) = .ok (o, s') ↔
      o = .ok .done ∧ Mapping.mergeOverlay id false s = .ok ((), s') := by
  constructor
  · intro h
    obtain ⟨r, h₁, rfl⟩ := ClientM.bind_pure_eq_ok.mp h
    obtain ⟨u, rfl, hmerge⟩ := ClientM.lift_eq_ok.mp
      (show (monadLift (Mapping.mergeOverlay id false) : ClientM Unit) s = .ok (r, s') from h₁)
    exact ⟨rfl, hmerge⟩
  · rintro ⟨rfl, hmerge⟩
    refine ClientM.bind_pure_eq_ok.mpr ⟨.ok (), ?_, rfl⟩
    exact ClientM.lift_eq_ok.mpr ⟨(), rfl, hmerge⟩

/-- A merge changes no content, and nothing is pending for the mapping afterwards. -/
theorem merge_path (ha : c.account.Kept) (howned : c'.owned = c.owned)
    (hmerge : Mapping.mergeOverlay id false c.store = .ok ((), c'.store)) :
    Path (· = .still) c.account c'.account ∧
      ∀ x', c'.store.content? id = some x' → x'.overlay = none := by
  have hscrub : false = true → Effect.scrub id = .still := nofun
  have hkind : false = true → ∀ m, c.store.container? id = some m → m.kind = .mapping := nofun
  obtain ⟨hpath, hpost⟩ := walk_mergeOverlay (E := (· = .still)) rfl hscrub ha hkind hmerge
  have hp : Path (· = .still) c.account c'.account := by
    unfold account
    rw [howned]
    exact hpath
  refine ⟨hp, fun x' hx' => ?_⟩
  obtain ⟨m, hm, rfl⟩ := content?_eq_some.mp hx'
  obtain ⟨-, -, -, -, ho, -⟩ := hpost m hm
  exact ho

namespace Merges

theorem path (h : c.Merges c') (ha : c.account.Kept) : Path (· = .still) c.account c'.account := by
  induction h with
  | start => exact .refl _
  | next h hm hk hmerge howned ih =>
    exact ih.trans (merge_path (ih.kept ha) howned (merge_performs.mp hmerge).2).1

theorem owned (h : c.Merges c') : c'.owned = c.owned := by
  induction h with
  | start => rfl
  | next h hm hk hmerge howned ih => exact howned.trans ih

theorem trans (h : c.Merges c₁) (h' : c₁.Merges c₂) : c.Merges c₂ := by
  induction h' with
  | start => exact h
  | next h hm hk hmerge howned ih => exact ih.next hm hk hmerge howned

/-- What is pending for some mappings can be merged, one after the other. -/
theorem exists_of_pending (ids : List ContainerId) (ha : c.account.Kept)
    (hids : ∀ id x, c.store.content? id = some x → x.overlay ≠ none → id ∈ ids) :
    ∃ c', c.Merges c' ∧ c'.store.Merged := by
  induction ids generalizing c with
  | nil =>
    refine ⟨c, .start, fun id x hx => ?_⟩
    by_contra ho
    cases hids id x hx ho
  | cons id ids ih =>
    by_cases hpending : ∃ x, c.store.content? id = some x ∧ x.overlay ≠ none
    · obtain ⟨x, hx, ho⟩ := hpending
      obtain ⟨m, hm, rfl⟩ := content?_eq_some.mp hx
      obtain ⟨o, ho⟩ := Option.ne_none_iff_exists'.mp ho
      have hk := ((Content.whole ha.accounted hx).overlay ho).1
      have hkind : false = true → m.kind = .mapping := nofun
      obtain ⟨u, s, hmerge⟩ := succeeds_mergeOverlay ha hm hkind
      obtain ⟨hpath, hdone⟩ := @merge_path c ⟨s, c.owned⟩ id ha rfl hmerge
      -- This merge adds no overlay elsewhere, so the rest of the list covers what is pending.
      obtain ⟨c', hmerges, hmerged⟩ := ih (c := ⟨s, c.owned⟩) (hpath.kept ha)
        fun other y hy hoy => by
        obtain ⟨z, hz, hoz⟩ := hpath.overlay ha hy hoy
        refine (List.mem_cons.mp (hids other z hz hoz)).resolve_left ?_
        rintro rfl
        exact hoy (hdone y hy)
      have hfirst : c.Merges ⟨s, c.owned⟩ :=
        Merges.start.next hm hk (merge_performs.mpr ⟨rfl, hmerge⟩) rfl
      exact ⟨c', hfirst.trans hmerges, hmerged⟩
    · refine ih ha fun other x hx ho => (List.mem_cons.mp (hids other x hx ho)).resolve_left ?_
      rintro rfl
      exact hpending ⟨x, hx, ho⟩

/-- All that is pending can be merged. -/
theorem exists_merged (ha : c.account.Kept) : ∃ c', c.Merges c' ∧ c'.store.Merged := by
  refine exists_of_pending
    ((List.range c.store.heap.containers.cells.size).map ContainerId.mk) ha ?_
  intro id x hx _
  obtain ⟨m, hm, -⟩ := content?_eq_some.mp hx
  exact List.mem_map.mpr ⟨id.slot, List.mem_range.mpr (Slab.get?_eq_some.mp hm).1, rfl⟩

/-- Merging leaves alone what it is not about. -/
theorem steady (h : c.Merges c') (ha : c.account.Kept) : Steady c.store c'.store := by
  refine (h.path ha).holdsSteady ha ?_
  rintro e rfl
  trivial

theorem planes (h : c.Merges c') (ha : c.account.Kept) (hp : c.store.planes = []) :
    c'.store.planes = [] := by
  have hbare := (h.steady ha).planes
  rw [hp] at hbare
  exact List.map_eq_nil_iff.mp hbare

end Merges

/-- What is pending can be merged in both of two mirrors. -/
theorem Mirrors.merges (h : c.Mirrors d) (ha : c.account.Kept) (hb : d.account.Kept)
    (hc : c.Merges c') (hd : d.Merges d') : c'.Mirrors d' := by
  refine h.mind (hc.path ha) (hd.path hb) ha hb (@Effect.minds_of_still none) Effect.minds_of_still
    (by rw [hd.owned, hc.owned, h.owned]) ?_ nofun
  intro v hv id ht
  rw [hc.owned] at hv
  exact (Rooted.of_owned hv ht).lasts

/-! ## Nothing is kept that cannot be come upon -/

/-- Where nothing is pending or remembered, all that is there lasts. -/
theorem Lasts.of_live (ha : c.account.Kept) (hp : c.store.planes = []) (hm : c.store.Merged)
    (hlive : c.store.container? id ≠ none) : c.Lasts id := by
  refine ⟨fun k => c.store.container? k ≠ none, hlive, ?_⟩
  intro k hk
  obtain ⟨m, hmk⟩ := Option.ne_none_iff_exists'.mp hk
  obtain ⟨v, hv, ht⟩ := ha.accounted.balanced.exists_mem (t := .container k)
    (congrArg (Option.map Container.refcount) hmk)
  rw [refs_account] at hv
  rcases Multiset.mem_add.mp hv with hv | hv
  · rcases refs_cases hv with ⟨other, x, hx, hv⟩ | ⟨ref, hv⟩ | ⟨call, t, hcall, rfl⟩ | ⟨p, hmem, -⟩
    · have hshows := Content.shows_of_held (Content.whole ha.accounted hx)
        (ha.tabled.content hx) (hm other x hx) hv
      obtain ⟨n, hn, -⟩ := content?_eq_some.mp hx
      have hother : c.store.container? other ≠ none := hn ▸ Option.some_ne_none n
      exact .inr ⟨other, hother, x, hx, v, hshows, ht⟩
    · exact .inl (.of_variable hv ht)
    · exact .inl (.of_call hcall ht)
    · rw [hp] at hmem
      cases hmem
  · exact .inl (.of_owned hv ht)

namespace Mirrors

theorem width? (h : c.Mirrors d) (ds : DataspaceId) : d.store.width? ds = c.store.width? ds := by
  have hslot : ∀ i, (∃ n, d.store.width? ds = some n ∧ i < n) ↔
      ∃ n, c.store.width? ds = some n ∧ i < n := by
    intro i
    rw [← @exists_variableAt _ ⟨ds, i⟩, ← @exists_variableAt _ ⟨ds, i⟩, h.variableAt?]
  have hnone : d.store.width? ds = none ↔ c.store.width? ds = none := by
    unfold Store.width?
    rw [Option.map_eq_none_iff, Option.map_eq_none_iff, ← tables_eq_none,
      ← tables_eq_none, h.tables]
  cases hc : c.store.width? ds with
  | none => rw [hnone, hc]
  | some n =>
    cases hd : d.store.width? ds with
    | none => cases hc.symm.trans (hnone.mp hd)
    | some m =>
      simp only [hc, hd, Option.some.injEq, exists_eq_left'] at hslot
      have hn := hslot n
      have hm := hslot m
      have heq : m = n := by omega
      rw [heq]

section

variable (h : c.Mirrors d) (ha : c.account.Kept) (hb : d.account.Kept)
  (hp : c.store.planes = []) (hp' : d.store.planes = []) (hm : c.store.Merged)
  (hm' : d.store.Merged)
include h ha hb hp hm

/-- What is there is there in the other store. -/
theorem exists_content {x : Content} (hx : c.store.content? id = some x) :
    ∃ y, d.store.content? id = some y ∧ x.Twin c.store d.store y := by
  obtain ⟨m, hmid, -⟩ := content?_eq_some.mp hx
  have hlasts : c.Lasts id := .of_live ha hp hm (by rw [hmid]; exact Option.some_ne_none m)
  obtain ⟨n, hn⟩ := Option.ne_none_iff_exists'.mp (((h.lasts id).mpr hlasts).live hb)
  have hy := content?_of_container hn
  exact ⟨_, hy, h.content hx hy⟩

include hp' hm'

/-- Outside of all regions the stores hold the same. -/
theorem regains : c.store.Regains d.store where
  content {id x} hx := by
    obtain ⟨y, hy, htwin⟩ := h.exists_content ha hb hp hm hx
    -- No plane is entered, so every container is at home on the base plane.
    have hhome : ∀ {e : Client} {z : Content}, e.account.Kept → e.store.planes = [] →
        e.store.content? id = some z → z.home = 0 := by
      intro e z he hplanes hz
      obtain ⟨m, hmid, rfl⟩ := content?_eq_some.mp hz
      have hle : m.home ≤ e.store.planes.length := he.home_le hmid
      rw [hplanes] at hle
      exact Nat.le_zero.mp hle
    refine ⟨y, hy, ?_, ?_⟩
    · unfold Content.label
      rw [htwin.kind, htwin.tag, htwin.owner, hhome ha hp hx, hhome hb hp' hy]
    · refine htwin.held_eq (Content.whole ha.accounted hx) (Content.whole hb.accounted hy)
        (ha.tabled.content hx) ?_ (hm id x hx) (hm' id y hy) ?_
      · intro hk
        exact hb.tabled.content hy (htwin.kind.trans hk)
      · intro hk w hw
        have hmem : w ∈ c.account.refs :=
          Account.mem_refs_of_store (Content.mem_refs hx hw.mem_held)
        have hmem' : w ∈ d.account.refs :=
          Account.mem_refs_of_store (Content.mem_refs hy ((htwin.keys hk w).mpr hw).mem_held)
        exact h.identity ha hb (Refs.covers_of_mem hmem) (Refs.covers_of_mem hmem')
  var {ref v} hv := (h.variableAt? ref).trans hv
  call := h.call?
  width := h.width?
  planes := by rw [hp, hp']

omit hp hm in
/-- The same slots are in use. -/
theorem gone (hnone : c.store.content? id = none) : d.store.content? id = none := by
  by_contra hlive
  obtain ⟨y, hy⟩ := Option.ne_none_iff_exists'.mp hlive
  obtain ⟨x, hx, -⟩ := h.symm.exists_content hb ha hp' hm' hy
  cases hnone.symm.trans hx

/-- Stores that a reader cannot tell apart coincide if nothing is pending or remembered. -/
theorem coincides
    (hq : ∀ call : CallRef, c.store.scheduler.queue[call]? =
      (c.store.call? call).map DeferredCall.due)
    (hq' : ∀ call : CallRef, d.store.scheduler.queue[call]? =
      (d.store.call? call).map DeferredCall.due) :
    c.store.Coincides d.store := by
  have hregains := h.regains ha hb hp hp' hm hm'
  have hgone : ∀ id, c.store.content? id = none → d.store.content? id = none :=
    fun id => h.gone ha hb hp' hm'
  have hb' : Account.Kept ⟨d.store, c.owned, 0, none⟩ := by
    rw [← h.owned]
    exact hb
  have hcount := hregains.count?_eq hgone ha hb'
  refine ⟨h.variableAt?, h.tables, ?_, hregains.importCount_eq hgone ha hb', hcount, ?_, ?_⟩
  · intro call
    rw [hq, hq', h.call?]
  · intro i e e' he he'
    exact h.text he he'
  · intro id x y hx hy
    obtain ⟨z, hz, hlabel, -⟩ := hregains.content hx
    rw [← Option.some.inj (hy.symm.trans hz)] at hlabel
    exact ⟨h.content hx hy, congrArg (fun l => l.2.2.2) hlabel⟩

end

end Mirrors

end Client

end PlaneStore
