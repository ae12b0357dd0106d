import PlaneStore.Proofs.References.ReleaseCascade
import PlaneStore.Proofs.Clients.NoFaults

/-!
# Releases as clients see them

What a release frees is told by the references that there are before it: a slot is freed if all
references to it are the one given up and those held by slots that are freed. Everything else stays
as it is, up to the counts of what was referred to.
-/

namespace PlaneStore

open Store

namespace Client

variable {limits : Limits} {c : Client} {v : Value}

/--
Giving up a reference comes to an end. The strings and containers that it frees are the least set
that contains each to which there are no references but the one given up and those that the set
holds. The count of any other goes down by the number of such references, and is not zero; imports
go down by what freed containers held for their owners. Freed containers leave their sweep lists and
the census of every plane. What is not freed keeps content, owner, home and tag, and apart from
sweep lists and imports the dataspaces, and apart from the census the planes, are as before.
-/
theorem Reachable.release_frees_least (h : Reachable limits c) (hv : c.owned.Covers v) :
    ∃ (T : Finset Target) (c' : Client),
      c.Requests (.release v) (.ok .done) c' ∧
      (∀ t, c.store.Bereft {v} T t → t ∈ T) ∧
      (∀ U : Finset Target, (∀ t, c.store.Bereft {v} U t → t ∈ U) → T ⊆ U) ∧
      (∀ t, c'.store.heap.count? t = none ↔ t ∈ T ∨ c.store.heap.count? t = none) ∧
      (∀ t ∈ T, c.store.heap.count? t ≠ none) ∧
      (∀ t n, t ∉ T → c.store.heap.count? t = some n → ∃ m, 0 < m ∧
        c'.store.heap.count? t = some m ∧ m + ({v} + c.store.heldIn T).tally t = n) ∧
      (∀ ds shape id, c.store.importCount ds (.container shape id) =
        c'.store.importCount ds (.container shape id) +
          if c.store.isForeign ds id then (c.store.heldFor ds T).tally (.container id) else 0) ∧
      (∀ ds, ∃ vs, c.store.sweepList ds = .ok vs ∧
        c'.store.sweepList ds = .ok (vs.filter fun w => ∀ t ∈ T, w.target? ≠ some t)) ∧
      List.Forall₂ (fun p p' => p'.bare = p.bare ∧ ∀ id : ContainerId,
        p'.census[id]? = if .container id ∈ T then none else p.census[id]?)
          c.store.planes c'.store.planes ∧
      (∀ id, .container id ∉ T → c'.store.content? id = c.store.content? id) ∧
      (∀ id, .string id ∉ T → (c'.store.heap.strings.get? id.slot).map StringEntry.text =
        (c.store.heap.strings.get? id.slot).map StringEntry.text) ∧
      (∀ ds, (c'.store.dataspace? ds).map Dataspace.bare =
        (c.store.dataspace? ds).map Dataspace.bare) ∧
      c'.store.objects = c.store.objects ∧ c'.store.scheduler = c.store.scheduler := by
  have ha : Account.Kept ⟨c.store, c.owned, 0, none⟩ := h.kept
  obtain ⟨outcome, c', hr⟩ :=
    h.request (.release v) (fun w hw => List.mem_singleton.mp hw ▸ hv) nofun
  obtain ⟨u, s₁, h₁, h₂⟩ := ClientM.lift_bind_eq_ok.mp hr.performed
  obtain ⟨rfl, hs₁⟩ := ClientM.pure_eq_ok.mp h₂
  subst hs₁
  have ha' : Account.Kept ⟨c'.store, c'.owned, 0, none⟩ := (h.next hr).kept
  obtain ⟨hw, T, hT⟩ := cascade_release ha hv h₁
  refine ⟨T, c', hr, fun t ht => hT.closed ha'.accounted.balanced.pos ht, hT.least,
    fun t => hT.count?_eq_none, hT.live, fun t n ht hn => ?_, hT.importCount hw ha ha',
    hT.sweepList hw ha ha', ?_, fun id hid => hT.content? hw hid, fun id hid => ?_, hw.dataspace,
    hw.objects, hw.scheduler⟩
  · -- What survives keeps a count above zero, less what the freed containers held.
    have hcount : c'.store.heap.count? t =
        some (n - ({v} + c.store.heldIn T).tally t) := by
      rw [hT.count t, if_neg ht, hn]
      rfl
    have hpos := ha'.accounted.balanced.count_pos hcount
    exact ⟨_, hpos, hcount, by omega⟩
  · have hbare : List.Forall₂ (fun p p' => Plane.bare p' = Plane.bare p) c.store.planes
        c'.store.planes := by
      have hplanes := hw.planes
      rw [← List.forall₂_eq_eq_eq, List.forall₂_map_left_iff, List.forall₂_map_right_iff] at hplanes
      exact hplanes.flip
    exact List.Forall₂.mp (fun p p' hp hcensus => ⟨hp, hcensus⟩) hbare hT.sheds.census
  · cases he : c'.store.heap.strings.get? id.slot with
    | none =>
      have hfree : c'.store.heap.count? (.string id) = none := by
        rw [Heap.count?, he]
        rfl
      have hold := (hT.count?_eq_none.mp hfree).resolve_left hid
      rw [Option.map_eq_none_iff.mp hold]
    | some e' =>
      obtain ⟨e, he, htext⟩ := hw.string id.slot e' he
      rw [he]
      exact congrArg some htext

/-- Requests after which a client owns an array, in which there is the only reference to another. -/
def nesting : List Operation :=
  [.createDataspace 0, .createArray ⟨0⟩ 1, .createArray ⟨0⟩ 0,
    .assign (.container .array ⟨0⟩) (.int 0) (.container .array ⟨1⟩),
    .release (.container .array ⟨1⟩)]

/-- The release of an array that has the only reference to another. -/
theorem release_frees_nested : ∃ (c c' : Client) (T : Finset Target), Reachable {} c ∧
    c.Requests (.release (.container .array ⟨0⟩)) (.ok .done) c' ∧
    (∀ U : Finset Target, (∀ t, c.store.Bereft {.container .array ⟨0⟩} U t → t ∈ U) → T ⊆ U) ∧
    .container ⟨0⟩ ∈ T ∧ .container ⟨1⟩ ∈ T ∧
    c'.store.heap.count? (.container ⟨0⟩) = none ∧
      c'.store.heap.count? (.container ⟨1⟩) = none := by
  obtain ⟨c, hc, hf⟩ := exists_visit nesting
    (fun c => (decide (c.owned.Covers (.container .array ⟨0⟩)),
      c.store.heap.count? (.container ⟨0⟩),
      c.store.heap.count? (.container ⟨1⟩), (c.store.content? ⟨0⟩).map Content.held))
    (a := (true, some 1, some 1, some [.container .array ⟨1⟩])) (by cbv)
  obtain ⟨hv, hn₀, hn₁, hheld⟩ : _ ∧ _ ∧ _ ∧ _ := by simpa only [Prod.mk.injEq] using hf
  obtain ⟨T, c', hr, -, hleast, hfree, -, hkept, -⟩ :=
    Reachable.release_frees_least hc (v := .container .array ⟨0⟩) (of_decide_eq_true hv)
  have houter : .container ⟨0⟩ ∈ T := by
    by_contra hnot
    obtain ⟨m, hm, -, hsum⟩ := hkept _ 1 hnot hn₀
    have hmem : Value.container .array ⟨0⟩ ∈ {Value.container .array ⟨0⟩} + c.store.heldIn T :=
      Multiset.mem_add.mpr (.inl (Multiset.mem_singleton_self _))
    have hpos := Refs.tally_pos (t := .container ⟨0⟩) hmem rfl
    omega
  have hinner : .container ⟨1⟩ ∈ T := by
    by_contra hnot
    obtain ⟨m, hm, -, hsum⟩ := hkept _ 1 hnot hn₁
    obtain ⟨x, hx, hx'⟩ := Option.map_eq_some_iff.mp hheld
    have hmem : Value.container .array ⟨1⟩ ∈ {Value.container .array ⟨0⟩} + c.store.heldIn T :=
      Multiset.mem_add.mpr (.inr (mem_heldIn houter hx (hx' ▸ List.mem_singleton_self _)))
    have hpos := Refs.tally_pos (t := .container ⟨1⟩) hmem rfl
    omega
  exact ⟨c, c', T, hc, hr, hleast, houter, hinner, (hfree _).mpr (.inl houter),
    (hfree _).mpr (.inl hinner)⟩

end Client

end PlaneStore
