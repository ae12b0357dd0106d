import PlaneStore.Proofs.Contents.NewContainers
import PlaneStore.Proofs.Mapping.NormalizedPairs

/-!
# Mappings from storage

A mapping that is made of pairs in any order holds what would be left of writing them in turn, as a
reader sees them. References are taken to what is stored only.
-/

namespace PlaneStore

open Store

theorem Refs.Covers.seen {F : Refs} {s : Store} {v : Value} (h : F.Covers v) :
    F.Covers (s.seen v) := by
  unfold Store.seen
  split
  · exact F.covers_nil
  · exact h

namespace Store

variable {s s' t t' : Store} {R : Refs} {id : ContainerId} {x : Content}
  {ds : DataspaceId} {tag : Nat}
  {elements values : List Value} {d : Dataspace} {n : Nat}

/-- Pairs as a reader sees them. -/
def seenPairs (s : Store) (ps : List Pair) : List Pair := ps.map fun p => (s.seen p.1, s.seen p.2)

/-- What does not refer to the new container is lost afterwards if it was before. -/
theorem Bears.lost {v : Value} (h : Bears s R id x t)
    (hv : ∀ shape other, v = .container shape other → other ≠ id) : t.lost v = s.lost v := by
  unfold Store.lost
  split
  · rw [h.objects]
  · next other =>
    have hkind := congrArg (Option.map Content.kind) (h.others other (hv _ _ rfl))
    rw [content?, content?, Option.map_map, Option.map_map] at hkind
    have hkind : (t.container? other).map Container.kind =
        (s.container? other).map Container.kind :=
      hkind
    rw [hkind, h.objects]
  · rfl

/-- A new container gets another tag. -/
theorem Bears.retag {c : Container} (h : Bears s R id x t) (hc : t.container? id = some c) :
    Bears s R id { x with tag } { t.withContainer id { c with tag } with
      heap := (t.withContainer id { c with tag }).heap.observeTag tag } := by
  have hcounts := sameCounts_withContainer (d := { c with tag }) hc rfl rfl
  refine ⟨h.free, ?_, fun other hne => ?_, fun y => (hcounts.count y).trans (h.count y), h.level,
    h.objects, h.texts⟩
  · have hx := Option.some.inj ((content?_of_container hc).symm.trans h.made)
    rw [← hx]
    exact content?_of_container (container?_withContainer_self (d := { c with tag }) hc)
  · rw [← h.others other hne]
    exact congrArg (Option.map _) (container?_withContainer_of_ne (Ne.symm hne))

/-- What a mapping from storage is made of. -/
theorem restoredElements_mapping (h : restoredElements .mapping elements s = .ok (values, s')) :
    s = s' ∧ ∃ ps, values = Pair.flatten ps ∧ values.map s.seen = values ∧
      ∀ k, s.heap.find ps k = s.heap.writes (s.seenPairs (Pair.ofFlat elements)) k := by
  obtain ⟨pairs, s₁, h₁, h⟩ := StoreM.bind_eq_ok.mp h
  obtain ⟨rfl, hpairs⟩ := mapM_scrubPair_eq_ok h₁
  obtain ⟨ps, s₂, h₂, h⟩ := StoreM.bind_eq_ok.mp h
  obtain ⟨hn, rfl⟩ := StoreM.readHeap_eq_ok.mp h₂
  obtain ⟨rfl, rfl⟩ := StoreM.pure_eq_ok.mp h
  have hseen : s.seenPairs (Pair.ofFlat elements) = pairs := by
    rw [seenPairs, ← List.forall₂_eq_eq_eq, List.forall₂_map_left_iff]
    exact hpairs.imp fun p q hpq => Prod.ext (scrubbed_eq hpq.1).symm (scrubbed_eq hpq.2).symm
  refine ⟨rfl, ps, rfl, map_seen_of_alive fun v hv => ?_,
    fun k => hseen ▸ Heap.find_normalizePairs hn k⟩
  obtain ⟨p, hp, hpv⟩ := Pair.mem_of_flatten hv
  obtain ⟨p', -, hkey, hvalue⟩ :=
    Content.exists_of_forall₂ hpairs ((Heap.table_normalizePairs hn).2.2 p hp)
  rcases hpv with rfl | rfl
  · exact (alive_of_scrubbed hkey).lost_eq
  · exact (alive_of_scrubbed hvalue).lost_eq

/-! ## If nothing stands against it -/

/-- A mapping comes from storage if there is room for it. -/
theorem restore_bears {r : Except Refusal Value} (hs : s.heap.containers.Sound)
    (hd : s.dataspace? ds = some d) (heven : elements.length % 2 = 0)
    (hsize : elements.length / 2 ≤ s.limits.containerSize)
    (hroom : s.heap.liveContainers < s.limits.containers)
    (h : restore ds .mapping tag elements s = .ok (r, s')) :
    ∃ id ps, r = .ok (.container .mapping id) ∧
      (∀ k, s.heap.find ps k = s.heap.writes (s.seenPairs (Pair.ofFlat elements)) k) ∧
      Bears s ↑(Pair.flatten ps) id
        { Content.new s ds .mapping (Pair.flatten ps) with tag } s' := by
  rcases restore_eq_ok h with ⟨hno, -, -⟩ |
    ⟨-, values, s₁, copied, s₂, id, t, c, h₁, h₂, h₃, hc, rfl, rfl⟩
  · rcases hno with hd' | ⟨-, hodd⟩ | hfull
    · cases hd.symm.trans hd'
    · exact absurd heven hodd
    · exact absurd ⟨hsize, hroom⟩ hfull
  obtain ⟨rfl, ps, rfl, hseen, hfind⟩ := restoredElements_mapping h₁
  have hbears := build_bears hs h₂ h₃
  rw [hseen] at hbears
  exact ⟨id, ps, rfl, hfind, hbears.retag hc⟩

/-- A mapping can be created empty if there is room for it. -/
theorem createMapping_bears {r : Except Refusal Value} (hs : s.heap.containers.Sound)
    (hd : s.dataspace? ds = some d) (hsize : n ≤ s.limits.containerSize)
    (hroom : s.heap.liveContainers < s.limits.containers)
    (h : createMapping ds n s = .ok (r, s')) :
    ∃ id, r = .ok (.container .mapping id) ∧ Bears s 0 id (.new s ds .mapping []) s' := by
  obtain ⟨d', -, h⟩ := (requireDataspace_bind_eq_ok h).resolve_left fun hno => by
    cases hd.symm.trans hno.1
  rcases requireRoom_bind_eq_ok h with ⟨hlarge, -, -⟩ | ⟨-, hmany, -, -⟩ | ⟨-, h⟩
  · exact absurd hsize (Nat.not_le.mpr hlarge)
  · exact absurd hroom (Nat.not_lt.mpr hmany)
  obtain ⟨id, s₁, h₁, h⟩ := ClientM.lift_bind_eq_ok.mp h
  obtain ⟨rfl, rfl⟩ := ClientM.pure_eq_ok.mp h
  exact ⟨id, rfl, allocate_bears hs h₁⟩

end Store

end PlaneStore
