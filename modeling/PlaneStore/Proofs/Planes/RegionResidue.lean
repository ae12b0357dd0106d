import PlaneStore.Proofs.Planes.OpenRegions
import PlaneStore.Proofs.Totality.Eviction
import Mathlib.Data.Fintype.EquivFin

/-!
# What came to be in a region goes with it

A store that was given back all that it held, while a client owns the same references as before,
holds nothing else, unless containers that came to be in between keep each other alive. For each of
these is referred to by another one, so if no chain of such references comes back to where it
started there is no first of them.
-/

namespace PlaneStore

open Store

namespace Store

/-- A container refers to another. -/
def Refers (s : Store) (id other : ContainerId) : Prop :=
  ∃ x, s.content? id = some x ∧ ∃ v ∈ x.held, v.target? = some (.container other)

/-- One container that came to be refers to another one. -/
def Loose (s d : Store) (id other : ContainerId) : Prop :=
  s.content? id = none ∧ s.content? other = none ∧ d.Refers id other

/-- All that was in one store is in the other, where more may have come to be. -/
structure Regains (s d : Store) : Prop where
  content : ∀ {id x}, s.content? id = some x →
    ∃ y, d.content? id = some y ∧ y.label = x.label ∧ (↑y.held : Refs) = ↑x.held
  var : ∀ {ref v}, s.variableAt? ref = some v → d.variableAt? ref = some v
  call : ∀ call, d.call? call = s.call? call
  width : ∀ ds, d.width? ds = s.width? ds
  planes : d.planes.map Plane.bare = s.planes.map Plane.bare

/-- Which variables there are is a matter of the widths of dataspaces. -/
theorem exists_variableAt {s : Store} {ref : VariableRef} :
    (∃ v, s.variableAt? ref = some v) ↔ ∃ n, s.width? ref.dataspace = some n ∧ ref.slot < n := by
  unfold variableAt? width?
  cases s.dataspace? ref.dataspace with
  | none => simp
  | some d =>
    simp only [Option.bind_some, Option.map_some, Option.some.injEq, exists_eq_left']
    exact ⟨fun ⟨v, hv⟩ => (Array.getElem?_eq_some_iff.mp hv).1,
      fun h => ⟨_, Array.getElem?_eq_getElem h⟩⟩

namespace Regains

variable {s d : Store} {F : Refs} {id : ContainerId}

theorem variableAt? (h : s.Regains d) (ref : VariableRef) :
    d.variableAt? ref = s.variableAt? ref := by
  cases hv : s.variableAt? ref with
  | some v => exact h.var hv
  | none =>
    refine Option.eq_none_iff_forall_ne_some.mpr fun w hw => ?_
    obtain ⟨n, hn, hlt⟩ := exists_variableAt.mp ⟨w, hw⟩
    obtain ⟨v, hv'⟩ := exists_variableAt.mpr ⟨n, (h.width _).symm.trans hn, hlt⟩
    cases hv.symm.trans hv'

/-- A store that was regained has the same dataspaces. -/
theorem dataspace_cases (h : s.Regains d) (ds : DataspaceId) :
    (d.dataspace? ds = none ∧ s.dataspace? ds = none) ∨
      ∃ x y, d.dataspace? ds = some x ∧ s.dataspace? ds = some y := by
  have hwidth := h.width ds
  unfold width? at hwidth
  cases hd : d.dataspace? ds with
  | none =>
    rw [hd] at hwidth
    exact .inl ⟨rfl, Option.map_eq_none_iff.mp hwidth.symm⟩
  | some x =>
    rw [hd] at hwidth
    obtain ⟨y, hy, -⟩ := Option.map_eq_some_iff.mp hwidth.symm
    exact .inr ⟨x, y, rfl, hy⟩

/-- What a dataspace holds is what its variables and deferred calls say. -/
theorem dataspace_held (h : s.Regains d) (ds : DataspaceId) :
    (d.dataspace? ds).map Dataspace.held = (s.dataspace? ds).map Dataspace.held := by
  rcases h.dataspace_cases ds with ⟨hd, hs⟩ | ⟨x, y, hd, hs⟩
  · rw [hd, hs]
  have hvars : x.vars = y.vars := by
    refine Array.ext_getElem? fun i => ?_
    have hvar := h.variableAt? ⟨ds, i⟩
    unfold Store.variableAt? at hvar
    rwa [hd, hs] at hvar
  have hcalls : ∀ handle : CallHandle, x.callouts[handle]? = y.callouts[handle]? := fun handle => by
    have hcall := h.call ⟨ds, handle⟩
    rwa [call?_of_dataspace hd, call?_of_dataspace hs] at hcall
  rw [hd, hs]
  refine congrArg some ?_
  unfold Dataspace.held
  rw [hvars, TreeTotal.total_congr hcalls]

/-- A container that came to be is referred to by one that came to be. -/
theorem referrer (h : s.Regains d) (ha : Account.Kept ⟨s, F, 0, none⟩)
    (hd : Account.Kept ⟨d, F, 0, none⟩) (hnew : s.content? id = none)
    (hlive : d.content? id ≠ none) :
    ∃ other, s.content? other = none ∧ d.Refers other id := by
  have hold : ∀ v ∈ s.refs + F, v.target? ≠ some (.container id) := by
    have hfree : s.heap.count? (.container id) = none := by
      have hnone := Option.map_eq_none_iff.mp hnew
      exact congrArg (Option.map Container.refcount) hnone
    have hzero := ha.accounted.balanced.free_iff.mp hfree
    rw [Account.refs_between] at hzero
    exact Refs.tally_eq_zero.mp hzero
  obtain ⟨y, hy⟩ := Option.ne_none_iff_exists'.mp hlive
  obtain ⟨c, hc, -⟩ := content?_eq_some.mp hy
  obtain ⟨v, hv, ht⟩ := hd.accounted.balanced.exists_mem (t := .container id)
    (congrArg (Option.map Container.refcount) hc)
  rw [Account.refs_between] at hv
  rcases Multiset.mem_add.mp hv with hv | hv
  · rcases refs_cases hv with ⟨other, x, hx, hv⟩ | ⟨ref, hv⟩ | ⟨call, c, hc, rfl⟩ | ⟨p, hp, hv⟩
    · refine ⟨other, ?_, x, hx, v, hv, ht⟩
      refine Option.eq_none_iff_forall_ne_some.mpr fun x₀ hx₀ => ?_
      obtain ⟨x', hx', -, hheld⟩ := h.content hx₀
      obtain rfl := Option.some.inj (hx.symm.trans hx')
      rw [← Multiset.mem_coe, hheld, Multiset.mem_coe] at hv
      exact hold v (Multiset.mem_add.mpr (.inl (Content.mem_refs hx₀ hv))) ht
    · rw [h.variableAt?] at hv
      exact absurd ht (hold v (Multiset.mem_add.mpr (.inl (mem_refs_of_variable hv))))
    · rw [h.call] at hc
      exact absurd ht (hold _ (Multiset.mem_add.mpr (.inl (mem_refs_of_call hc))))
    · have hbare : p.bare ∈ s.planes.map Plane.bare := h.planes ▸ List.mem_map_of_mem hp
      obtain ⟨p', hp', hsame⟩ := List.mem_map.mp hbare
      rw [← Plane.held_of_bare hsame] at hv
      refine absurd ht (hold v (Multiset.mem_add.mpr (.inl (Multiset.mem_add.mpr (.inr ?_)))))
      exact Refs.mem_sum.mpr ⟨_, List.mem_map_of_mem hp', hv⟩
  · exact absurd ht (hold v (Multiset.mem_add.mpr (.inr hv)))

/-- If no chain of references among containers that came to be is closed, there is none of them. -/
theorem gone (h : s.Regains d) (ha : Account.Kept ⟨s, F, 0, none⟩)
    (hd : Account.Kept ⟨d, F, 0, none⟩) (hacyclic : ∀ id, ¬Relation.TransGen (Loose s d) id id)
    (hnew : s.content? id = none) : d.content? id = none := by
  by_contra hlive
  let New := { id : ContainerId // s.content? id = none ∧ d.content? id ≠ none }
  let Before : New → New → Prop := fun x y => Relation.TransGen (Loose s d) x.1 y.1
  have hfinite : Finite New := by
    have hslot : ∀ x : New, x.1.slot < d.heap.containers.cells.size := fun x => by
      obtain ⟨y, hy⟩ := Option.ne_none_iff_exists'.mp x.2.2
      obtain ⟨c, hc, -⟩ := content?_eq_some.mp hy
      exact (Slab.get?_eq_some.mp hc).1
    let slot : New → Fin d.heap.containers.cells.size := fun x => ⟨x.1.slot, hslot x⟩
    refine Finite.of_injective slot ?_
    rintro ⟨⟨i⟩, _⟩ ⟨⟨j⟩, _⟩ hij
    obtain rfl : i = j := congrArg Fin.val hij
    rfl
  have htrans : IsTrans New Before := ⟨fun _ _ _ => Relation.TransGen.trans⟩
  have hirrefl : Std.Irrefl Before := ⟨fun x => hacyclic x.1⟩
  -- None can be the first one: each is referred to by another.
  have hnone : ∀ x : New, False := fun x => by
    induction x using (Finite.wellFounded_of_trans_of_irrefl Before).induction with
    | _ x ih =>
      obtain ⟨y, hy, hrefers⟩ := h.referrer ha hd x.2.1 x.2.2
      have hylive : d.content? y ≠ none := by
        obtain ⟨z, hz, -⟩ := hrefers
        rw [hz]
        exact Option.some_ne_none z
      exact ih ⟨y, hy, hylive⟩ (.single ⟨hy, x.2.1, hrefers⟩)
  exact hnone ⟨id, hnew, hlive⟩

section

variable (h : s.Regains d) (hgone : ∀ id, s.content? id = none → d.content? id = none)

include h hgone

/-- The same containers are there, and they hold what they held. -/
theorem content_eq (id : ContainerId) :
    (d.content? id).map (fun x => (x.label, (↑x.held : Refs))) =
      (s.content? id).map fun x => (x.label, (↑x.held : Refs)) := by
  cases hx : s.content? id with
  | none => rw [hgone id hx]
  | some x =>
    obtain ⟨y, hy, hlabel, hheld⟩ := h.content hx
    rw [hy, Option.map_some, Option.map_some, hlabel, hheld]

/-- They belong to the same dataspaces, whether what they hold is in the heap or in the swap. -/
theorem container_held (id : ContainerId) :
    (d.container? id).map (fun c => (c.owner, c.held d.swap)) =
      (s.container? id).map fun c => (c.owner, c.held s.swap) := by
  have hsame := congrArg
    (Option.map fun k : (Kind × Nat × DataspaceId × Nat) × Refs => (k.1.2.2.1, k.2))
    (h.content_eq hgone id)
  unfold content? at hsame
  simp only [Option.map_map, Function.comp_def, Container.coe_content] at hsame
  exact hsame

theorem refs_eq : d.refs = s.refs := by
  refine refs_congr (fun id => ?_) h.dataspace_held ?_
  · have hheld := congrArg (Option.map Prod.snd)
      (h.container_held hgone id)
    rwa [Option.map_map, Option.map_map] at hheld
  · have hheld := congrArg (List.map Plane.held) h.planes
    rwa [List.map_map, List.map_map] at hheld

/-- Every slot in use counts what it counted. -/
theorem count?_eq (ha : Account.Kept ⟨s, F, 0, none⟩) (hd : Account.Kept ⟨d, F, 0, none⟩)
    (t : Target) : d.heap.count? t = s.heap.count? t := by
  have hrefs : Account.refs ⟨d, F, 0, none⟩ = Account.refs ⟨s, F, 0, none⟩ := by
    rw [Account.refs_between, Account.refs_between, h.refs_eq hgone]
  have hcount : d.heap.count t = s.heap.count t := by
    rw [ha.accounted.balanced.count, ← hrefs]
    exact hd.accounted.balanced.count t
  have hpos := ha.accounted.balanced.pos t
  have hpos' := hd.accounted.balanced.pos t
  unfold Heap.count at hcount
  revert hcount hpos hpos'
  show (Heap.count? d.heap t).getD 0 = (Heap.count? s.heap t).getD 0 →
    Heap.count? s.heap t ≠ some 0 →
    Heap.count? d.heap t ≠ some 0 → _
  cases Heap.count? d.heap t <;> cases Heap.count? s.heap t <;> simp <;> omega

theorem slots_eq (ds : DataspaceId) : d.slots ds = s.slots ds := by
  unfold slots
  rw [h.dataspace_held, Slab.total_congr (f := share d.swap ds) (g := share s.swap ds) fun i => ?_]
  have hshare := congrArg
    (Option.map fun k : DataspaceId × Refs => if k.1 = ds then k.2 else 0)
    (h.container_held hgone ⟨i⟩)
  rwa [Option.map_map, Option.map_map] at hshare

theorem isForeign_eq (ds : DataspaceId) (id : ContainerId) :
    d.isForeign ds id = s.isForeign ds id := by
  have hforeign := congrArg (Option.any fun k : DataspaceId × Refs => k.1 ≠ ds)
    (h.container_held hgone id)
  rwa [Option.any_map, Option.any_map] at hforeign

/-- Every dataspace has the imports that it had. -/
theorem importCount_eq (ha : Account.Kept ⟨s, F, 0, none⟩) (hd : Account.Kept ⟨d, F, 0, none⟩)
    (ds : DataspaceId) (v : Value) : d.importCount ds v = s.importCount ds v := by
  unfold importCount
  cases v.containerId? with
  | none => rfl
  | some id =>
    rcases h.dataspace_cases ds with ⟨hx, hy⟩ | ⟨x, y, hx, hy⟩
    · rw [hx, hy]
    have himports : x.imports[id]? = y.imports[id]? := by
      rw [hd.imports_eq hx, ha.imports_eq hy, h.slots_eq hgone, h.isForeign_eq hgone]
    rw [hx, hy]
    show x.imports.getD id 0 = y.imports.getD id 0
    rw [Std.TreeMap.getD_eq_getD_getElem?, Std.TreeMap.getD_eq_getD_getElem?, himports]

omit hgone in
theorem dataspaces_size : d.dataspaces.size = s.dataspaces.size := by
  have hlt : ∀ i, i < d.dataspaces.size ↔ i < s.dataspaces.size := fun i => by
    have hwidth : (d.width? ⟨i⟩).isSome ↔ (s.width? ⟨i⟩).isSome := by rw [h.width]
    unfold width? dataspace? at hwidth
    rwa [Option.isSome_map, Option.isSome_map, isSome_getElem?, isSome_getElem?] at hwidth
  have hd := hlt d.dataspaces.size
  have hs := hlt s.dataspaces.size
  omega

/-- The counters are what they were. -/
theorem stats_eq (ha : Account.Kept ⟨s, F, 0, none⟩) (hd : Account.Kept ⟨d, F, 0, none⟩) :
    d.stats = s.stats := by
  have hcount := h.count?_eq hgone ha hd
  have hcontainers : d.heap.liveContainers = s.heap.liveContainers :=
    Slab.live_congr hd.accounted.balanced.containers ha.accounted.balanced.containers
      fun i => hcount (.container ⟨i⟩)
  have hstrings : d.heap.liveStrings = s.heap.liveStrings :=
    Slab.live_congr hd.accounted.balanced.strings ha.accounted.balanced.strings
      fun i => hcount (.string ⟨i⟩)
  have hlevel : d.level = s.level := by
    have hlength := congrArg List.length h.planes
    rwa [List.length_map, List.length_map] at hlength
  have hledger : d.planes.flatMap Plane.ledger = s.planes.flatMap Plane.ledger := by
    have hledgers := congrArg (List.map Plane.ledger) h.planes
    rw [List.map_map, List.map_map] at hledgers
    have hflat := congrArg List.flatten hledgers
    rwa [← List.flatMap_def, ← List.flatMap_def] at hflat
  unfold stats
  rw [hcontainers, hstrings, h.dataspaces_size, hlevel, hledger]

end

end Regains

end Store

end PlaneStore
