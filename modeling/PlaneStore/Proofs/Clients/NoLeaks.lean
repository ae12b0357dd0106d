import PlaneStore.Proofs.Clients.DiscardedRegions
import PlaneStore.Proofs.Planes.RegionResidue

/-!
# Regions that leave nothing behind

A client that holds on to what it owned when it entered a region, and has given back by its end
whatever it acquired in it, finds the store as it was when the region is thrown away: every slot
counts what it counted. Only containers that came to be in the region and refer to each other in a
circle stay.
-/

namespace PlaneStore

open Store

/-! ## Back to the store before -/

/-- What would come back is there when the last plane is undone. -/
theorem Account.Preserves.regains {s d : Store} {F : Refs} {p : Plane}
    (h : (undone d F 0 (d.level + 1) p).Preserves { s with planes := {} :: s.planes } (d.level + 1))
    (hlevel : s.level = d.level) (hwidth : ∀ ds, d.width? ds = s.width? ds) : s.Regains d where
  content {id x₀} hx₀ := by
    obtain ⟨x, hx, hintact⟩ := h.content hx₀
    rw [contentAt_undone] at hintact
    exact ⟨x, hx, hintact.label, hintact.held⟩
  var {ref v} hv := (variableAt_undone d F 0 p ref).symm.trans (h.var hv)
  call call := (callAt_undone d F 0 p call).symm.trans (h.call call)
  width := hwidth
  planes := by
    have hlower := h.lower
    rw [← hlevel] at hlower
    rw [← d.lower_above, ← hlevel]
    exact hlower.trans (lower_level (s := { s with planes := {} :: s.planes }) rfl)

namespace Client

variable {limits : Limits} {c c' c'' c₁ c₂ d : Client} {op : Operation} {outcome : Outcome}
  {level : Nat} {rs : List (Operation × Outcome)}

/-! ## Clients that hold on to what they own -/

theorem adds_cases (h : op.adds = true) :
    (∃ n, op = .createDataspace n) ∨ ∃ text, op = .createString text := by
  cases op <;> simp_all [Operation.adds]

/-- A request other than for a dataspace adds none and changes the size of none. -/
theorem Requests.width? (hr : c.Requests op outcome c') (ha : c.account.Kept)
    (hop : ∀ n, op ≠ .createDataspace n) (ds : DataspaceId) :
    c'.store.width? ds = c.store.width? ds := by
  by_cases hadds : op.adds = true
  · rcases adds_cases hadds with ⟨n, rfl⟩ | ⟨text, rfl⟩
    · exact absurd rfl (hop n)
    · obtain ⟨v, s₁, h₁, h⟩ := ClientM.lift_bind_eq_ok.mp hr.performed
      obtain ⟨-, hs⟩ := ClientM.pure_eq_ok.mp h
      cases StoreM.modifyGet_eq_ok.mp h₁
      rw [← hs]
      rfl
  · exact (hr.path ha).width? ha fun he => hadds he.2

/-- A text that is there before a request and after it is the same. -/
theorem Requests.text_eq (hr : c.Requests op outcome c') (ha : c.account.Kept) {i : Nat}
    {x x' : StringEntry} (hx : c.store.heap.strings.get? i = some x)
    (hx' : c'.store.heap.strings.get? i = some x') : x'.text = x.text := by
  by_cases hadds : op.adds = true
  · rcases adds_cases hadds with ⟨n, rfl⟩ | ⟨text, rfl⟩ <;>
      obtain ⟨v, s₁, h₁, h⟩ := ClientM.lift_bind_eq_ok.mp hr.performed <;>
      obtain ⟨-, hs⟩ := ClientM.pure_eq_ok.mp h <;>
      cases StoreM.modifyGet_eq_ok.mp h₁ <;>
      rw [← hs] at hx'
    · exact congrArg StringEntry.text (Option.some.inj (hx'.symm.trans hx))
    · have hne : c.store.heap.strings.nextCell ≠ i := by
        rintro rfl
        cases (Slab.get?_nextCell ha.accounted.balanced.strings).symm.trans hx
      have hsame := (Slab.get?_insert_of_ne hne).symm.trans hx'
      exact congrArg StringEntry.text (Option.some.inj (hsame.symm.trans hx))
  · obtain ⟨y, hy, ht⟩ := (hr.path ha).string ha (fun he => hadds he.2) hx'
    rwa [Option.some.inj (hx.symm.trans hy)]

/-- A session of a client that never gives up what it owned to begin with. -/
inductive Holding (level : Nat) (c : Client) : List (Operation × Outcome) → Client → Prop
  | start : Holding level c [] c
  | next {rs : List (Operation × Outcome)} {c' c'' : Client} {op : Operation} {outcome : Outcome}
    (h : Holding level c rs c') (hr : c'.Requests op outcome c'') (hl : level ≤ c''.store.level)
    (howned : c.owned ≤ c''.owned) : Holding level c (rs ++ [(op, outcome)]) c''

/--
The effects of such requests: the plane stays, and what was owned is in flight with what is made.
-/
def HoldingEffect (level : Nat) (owned : Refs) (e : Effect) : Prop :=
  e.Spares level ∧ ∀ id F, e = .create id F → owned ≤ F

namespace Holding

theorem session (h : Holding level c rs c') : Session level c rs c' := by
  induction h with
  | start => exact .start
  | next h hr hl howned ih => exact ih.next hr hl

theorem owned_le (h : Holding level c rs c') : c.owned ≤ c'.owned := by
  cases h with
  | start => exact le_rfl
  | next h hr hl howned => exact howned

theorem path (h : Holding level c rs c') (hc : Reachable limits c) :
    Path (HoldingEffect level c.owned) c.account c'.account := by
  induction h with
  | start => exact .refl _
  | next h hr hl howned ih =>
    refine ih.trans ((hr.path (h.session.reachable hc).kept).mono fun e he =>
      ⟨spares_of_within hl e he, ?_⟩)
    rintro id F rfl
    exact h.owned_le.trans he.2.1

theorem width? (h : Holding level c rs c') (hc : Reachable limits c)
    (hrs : ∀ r ∈ rs, ∀ n, r.1 ≠ .createDataspace n) (ds : DataspaceId) :
    c'.store.width? ds = c.store.width? ds := by
  induction h with
  | start => rfl
  | @next rs c' c'' op outcome h hr hl howned ih =>
    have hlast := hr.width? (h.session.reachable hc).kept (hrs (op, outcome) (by simp)) ds
    exact hlast.trans (ih fun r hr => hrs r (List.mem_append_left _ hr))

end Holding

section

variable (h : Reachable limits c) (hr : c.Requests .enter (.ok (.number level)) c₁)
  (hclean : ∀ {id x}, c.store.content? id = some x →
    ∀ o ∈ x.overlay, ∀ e ∈ o.toList, e.added = true)
  (halive : ∀ {id x}, c.store.content? id = some x → ∀ v ∈ x.held, c.store.lost v = false)

include h hr hclean halive

/-- As long as the client owns what it owned, what there was would come back. -/
theorem preserves_of_path {b : Account} (hpath : Path (HoldingEffect level c.owned) c₁.account b)
    (howned : c.owned ≤ b.flight)
    (hobj : ∀ obj, c.store.objects.isDestroyed obj = false →
      b.store.objects.isDestroyed obj = false) :
    b.Preserves c₁.store level := by
  have h₁ := h.next hr
  obtain ⟨rfl, rfl, -⟩ := hr.entered
  have hb := hpath.kept h₁.kept
  refine Path.preserves (E := HoldingEffect (c.store.level + 1) c.owned) (G := c.owned)
    hpath h₁.kept rfl
    (fun e he => he.1) (fun id F he => he.2 id F rfl) hclean halive (fun {id x} hx => ?_) hobj
    fun v hv id ht => ?_
  · obtain ⟨c₀, hc₀, rfl⟩ := content?_eq_some.mp hx
    exact Nat.lt_succ_of_le (h.kept.home_le hc₀)
  · have hlive := hb.accounted.balanced.ne_free
      (Account.mem_refs_of_flight (Multiset.mem_of_le howned hv)) ht
    exact Option.ne_none_iff_exists'.mp fun hnone => hlive (Option.map_eq_none_iff.mpr hnone)

/-- Texts stay what they are. -/
theorem Holding.text (hs : Holding level c₁ rs c')
    (hobj : ∀ obj, c.store.objects.isDestroyed obj = false →
      c'.store.objects.isDestroyed obj = false)
    {i : Nat} {x : StringEntry} (hx : c.store.heap.strings.get? i = some x) :
    ∃ x', c'.store.heap.strings.get? i = some x' ∧ x'.text = x.text := by
  have h₁ := h.next hr
  obtain ⟨rfl, rfl, -⟩ := hr.entered
  induction hs with
  | start => exact ⟨x, hx, rfl⟩
  | @next rs c' c'' op outcome hs hr' hl howned ih =>
    have h' := hs.session.reachable h₁
    have hobj' : ∀ obj, c.store.objects.isDestroyed obj = false →
        c'.store.objects.isDestroyed obj = false :=
      Objects.alive_between ((hs.path h₁).precedes h₁.kept)
        ((hr'.path h'.kept).precedes h'.kept) hobj
    obtain ⟨y, hy, hty⟩ := ih hobj'
    -- There was a reference to the text: it is in its place still, or the client has it.
    have hpath := (hs.next hr' hl howned).path h₁
    have hkept := hpath.kept h₁.kept
    have hpreserves := preserves_of_path h hr hclean halive hpath howned hobj
    obtain ⟨v, hv, ht⟩ := h₁.kept.accounted.balanced.exists_mem (t := .string ⟨i⟩)
      (congrArg (Option.map StringEntry.refcount) hx)
    have hmem : v ∈ c''.account.refs := by
      rw [account, Account.refs_between] at hv
      rcases Multiset.mem_add.mp hv with hv | hv
      · exact Account.mem_refs_of_placed (hpreserves.placed rfl hv)
      · exact Account.mem_refs_of_flight (Multiset.mem_of_le howned hv)
    have hlive := hkept.accounted.balanced.ne_free hmem ht
    obtain ⟨z, hz⟩ :=
      Option.ne_none_iff_exists'.mp fun hnone => hlive (Option.map_eq_none_iff.mpr hnone)
    exact ⟨z, hz, (hr'.text_eq h'.kept hy hz).trans hty⟩

end

/--
A region that is thrown away leaves nothing behind. The store had no pending update in a mapping and
no reference to anything destroyed when the client entered the region; in it the client made no
dataspace, no object was destroyed, the plane was not taken off the stack, and whatever else was
done, with further regions committed and thrown away in any order, the client never gave up what it
owned at the start and in the end owns just that again. If no containers that came to be refer to
each other in a circle once the region is gone, then the containers and the texts of before are
there and no others, each with its count of references; containers hold what they held, every
dataspace imports what it imported, and the counters are the same.
-/
theorem Reachable.discard_leaks_nothing (h : Reachable limits c)
    (hclean : ∀ {id x}, c.store.content? id = some x →
      ∀ o ∈ x.overlay, ∀ e ∈ o.toList, e.added = true)
    (halive : ∀ {id x}, c.store.content? id = some x → ∀ v ∈ x.held, c.store.lost v = false)
    (hr : c.Requests .enter (.ok (.number level)) c₁) (hs : Holding level c₁ rs c₂)
    (hspaces : ∀ r ∈ rs, ∀ n, r.1 ≠ .createDataspace n)
    (hobj : ∀ obj, c.store.objects.isDestroyed obj = false →
      c₂.store.objects.isDestroyed obj = false)
    (hback : c₂.owned = c.owned) :
    ∃ d, c₂.Requests (.discardTo level) (.ok .done) d ∧
      ((∀ id, ¬Relation.TransGen (Loose c.store d.store) id id) →
        (∀ t, d.store.heap.count? t = c.store.heap.count? t) ∧
        (∀ id, (d.store.content? id).map (fun x => (x.label, (↑x.held : Refs))) =
          (c.store.content? id).map fun x => (x.label, (↑x.held : Refs))) ∧
        (∀ i, (d.store.heap.strings.get? i).map StringEntry.text =
          (c.store.heap.strings.get? i).map StringEntry.text) ∧
        (∀ ds v, d.store.importCount ds v = c.store.importCount ds v) ∧
        d.store.stats = c.store.stats) := by
  have h₁ := h.next hr
  have h₂ := hs.session.reachable h₁
  obtain ⟨hlevel, hc₁, -⟩ := hr.entered
  have hle₁ : level ≤ c₁.store.level := by rw [hc₁, hlevel]; exact Nat.le_refl _
  obtain ⟨d, p, hd, -, hdepth, hundo⟩ := h₂.undone (by omega) (hs.session.le_level hle₁)
  -- From the entered plane to the end there is one path that spares what is below it.
  have hpath : Path (HoldingEffect level c.owned) c₁.account
      (Account.undone d.store c₂.owned 0 (d.store.level + 1) p) := by
    have hbefore := hs.path h₁
    rw [show c₁.owned = c.owned by rw [hc₁]] at hbefore
    refine hbefore.trans (hundo.mono fun e he => ⟨Effect.Undoes.spares e he, ?_⟩)
    rintro id F rfl
    cases he
  have hmarks := hundo.marks h₂.kept Effect.Undoes.calm
  have hobj' : ∀ obj, c.store.objects.isDestroyed obj = false →
      d.store.objects.isDestroyed obj = false := fun obj ho =>
    (congrArg (·.isDestroyed obj) hmarks.objects).trans (hobj obj ho)
  have hpreserves := preserves_of_path h hr hclean halive hpath hback.ge hobj'
  have hwidth : ∀ ds, d.store.width? ds = c.store.width? ds := fun ds => by
    refine (hundo.width? h₂.kept (by rintro ⟨⟩)).trans ((hs.width? h₁ hspaces ds).trans ?_)
    rw [hc₁]
    rfl
  have hregains : c.store.Regains d.store := by
    rw [hc₁, hdepth] at hpreserves
    exact hpreserves.regains (by omega) hwidth
  have hkept : Account.Kept ⟨d.store, c.owned, 0, none⟩ := by
    have hlast := (h₂.next hd).kept
    rwa [account, show d.owned = c₂.owned from hd.settled, hback] at hlast
  refine ⟨d, hd, fun hacyclic => ?_⟩
  -- A container that was not there before could only be held by a loop.
  have hgone : ∀ id, c.store.content? id = none → d.store.content? id = none := fun id =>
    hregains.gone h.kept hkept hacyclic
  have hcount := hregains.count?_eq hgone h.kept hkept
  refine ⟨hcount, hregains.content_eq hgone, fun i => ?_, hregains.importCount_eq hgone
    h.kept hkept,
    hregains.stats_eq hgone h.kept hkept⟩
  have hslot : (d.store.heap.strings.get? i).map StringEntry.refcount =
      (c.store.heap.strings.get? i).map StringEntry.refcount := hcount (.string ⟨i⟩)
  cases hx : c.store.heap.strings.get? i with
  | none =>
    rw [hx] at hslot
    rw [Option.map_eq_none_iff.mp hslot]
  | some x =>
    rw [hx] at hslot
    obtain ⟨z, hz, -⟩ := Option.map_eq_some_iff.mp hslot
    obtain ⟨y, hy, hty⟩ := hmarks.string i z hz
    obtain ⟨y', hy', hty'⟩ := hs.text h hr hclean halive hobj hx
    obtain rfl := Option.some.inj (hy.symm.trans hy')
    rw [show d.store.heap.strings.get? i = some z from hz]
    exact congrArg some (hty.trans hty')

/--
In a region an array is made, stored in a variable and given back; it goes with the region, and the
array that was there stays.
-/
theorem discard_leaks_nothing_stored : ∃ c c₁ c₂ d rs, Reachable {} c ∧
    c.Requests .enter (.ok (.number 1)) c₁ ∧ Holding 1 c₁ rs c₂ ∧ rs.length = 3 ∧
    c₂.Requests (.discardTo 1) (.ok .done) d ∧ c.store.stats.containers = 1 ∧
    c₂.store.stats.containers = 2 ∧ d.store.stats = c.store.stats ∧
    ∀ t, d.store.heap.count? t = c.store.heap.count? t := by
  obtain ⟨c, hc, hf⟩ := exists_visit [.createDataspace 0, .createDataspace 1, .createArray ⟨0⟩ 1]
    (fun c => ((c.store.heap.containers.cells.size, c.store.stats.containers,
        c.store.objects.generations,
        (c.store.content? ⟨0⟩).map fun x => (x.buffer, x.overlay.isNone)),
      (c.request? .enter).bind fun q => (q.2.request? (.createArray ⟨1⟩ 0)).bind fun r =>
        (r.2.request? (.assignVariable ⟨⟨1⟩, 0⟩ (.container .array ⟨1⟩))).bind fun t =>
          (t.2.request? (.release (.container .array ⟨1⟩))).bind fun u =>
            (u.2.request? (.discardTo 1)).map fun w =>
              ((q.1, r.1, t.1), (r.2.store.level, t.2.store.level, u.2.store.level),
                u.2.store.stats.containers, w.2.store.heap.containers.cells.size,
                (w.2.store.content? ⟨1⟩).isNone)))
    (a := ((1, 1, #[], some (#[.nil], true)),
      some ((.ok (.number 1), .ok (.value (.container .array ⟨1⟩)), .ok .done),
        (1, 1, 1), 2, 2, true)))
    (by cbv)
  obtain ⟨hstart, hrun⟩ := Prod.mk.inj hf
  obtain ⟨hcells, hlive, hobjects, hheld⟩ : _ ∧ _ ∧ _ ∧ _ := by
    simpa only [Prod.mk.injEq] using hstart
  obtain ⟨⟨o₁, c₁⟩, hq, hrun⟩ := Option.bind_eq_some_iff.mp hrun
  obtain ⟨⟨o₂, c₂⟩, hr, hrun⟩ := Option.bind_eq_some_iff.mp hrun
  obtain ⟨⟨o₃, c₃⟩, ht, hrun⟩ := Option.bind_eq_some_iff.mp hrun
  obtain ⟨⟨o₄, c₄⟩, hu, hrun⟩ := Option.bind_eq_some_iff.mp hrun
  obtain ⟨⟨o₅, w⟩, hw, he⟩ := Option.map_eq_some_iff.mp hrun
  obtain ⟨⟨rfl, rfl, rfl⟩, ⟨h₂, h₃, h₄⟩, hmore, hcells', hgone⟩ :
      (_ ∧ _ ∧ _) ∧ (_ ∧ _ ∧ _) ∧ _ ∧ _ ∧ _ := by simpa only [Prod.mk.injEq] using he
  have hq := request?_eq_some.mp hq
  have hr := request?_eq_some.mp hr
  have ht := request?_eq_some.mp ht
  have hu := request?_eq_some.mp hu
  have howned₁ : c₁.owned = c.owned := hq.settled
  have howned₃ : c₃.owned = {.container .array ⟨1⟩} + c₁.owned := ht.settled.trans hr.settled
  have hback : c₄.owned = c₁.owned := by
    rw [show c₄.owned = c₃.owned.erase _ from hu.settled, howned₃, Multiset.singleton_add,
      Multiset.erase_cons_head]
  have hs : Holding 1 c₁ _ c₄ := ((Holding.start.next hr (Nat.le_of_eq h₂.symm)
    (hr.settled ▸ Multiset.le_add_left _ _)).next ht (Nat.le_of_eq h₃.symm)
      (howned₃ ▸ Multiset.le_add_left _ _)).next hu (Nat.le_of_eq h₄.symm) hback.ge
  have honly : ∀ {id x}, c.store.content? id = some x → id = ⟨0⟩ ∧ x.held = [.nil] := by
    intro id x hx
    obtain ⟨y, hy, -⟩ := content?_eq_some.mp hx
    have hlt : id.slot < 1 := hcells ▸ (Slab.get?_eq_some.mp hy).1
    obtain rfl : id = ⟨0⟩ := congrArg ContainerId.mk (show id.slot = 0 by omega)
    obtain ⟨z, hz, hfields⟩ := Option.map_eq_some_iff.mp hheld
    obtain rfl := Option.some.inj (hx.symm.trans hz)
    obtain ⟨hbuffer, hoverlay⟩ := Prod.mk.inj hfields
    refine ⟨rfl, ?_⟩
    unfold Content.held
    rw [hbuffer, Option.isNone_iff_eq_none.mp hoverlay]
    rfl
  obtain ⟨d, hd, hall⟩ := Reachable.discard_leaks_nothing hc
    (fun {id x} hx o ho e he => by
      obtain ⟨z, hz, hfields⟩ := Option.map_eq_some_iff.mp hheld
      rw [(honly hx).1] at hx
      obtain rfl := Option.some.inj (hx.symm.trans hz)
      rw [Option.isNone_iff_eq_none.mp (Prod.mk.inj hfields).2] at ho
      cases ho)
    (fun {id x} hx v hv => by
      rw [(honly hx).2, List.mem_singleton] at hv
      subst hv
      rfl)
    hq hs (by simp) (fun obj ho => by simp [Objects.isDestroyed, hobjects] at ho)
    (hback.trans howned₁)
  obtain rfl : d = w := by
    have hsame := (request?_eq_some.mpr hd).symm.trans hw
    exact (Prod.mk.inj (Option.some.inj hsame)).2
  obtain ⟨hcount, -, -, -, hstats⟩ := hall fun id hcircle => by
    -- A container that came to be would be the second, but that is gone.
    obtain ⟨other, ⟨hnew, -, x, hx, -⟩, -⟩ := Relation.TransGen.head'_iff.mp hcircle
    obtain ⟨y, hy, -⟩ := content?_eq_some.mp hx
    have hlt : id.slot < 2 := hcells' ▸ (Slab.get?_eq_some.mp hy).1
    have hne : id.slot ≠ 0 := fun h0 => by
      obtain ⟨z, hz, -⟩ := Option.map_eq_some_iff.mp hheld
      obtain rfl : id = ⟨0⟩ := congrArg ContainerId.mk h0
      cases hnew.symm.trans hz
    obtain rfl : id = ⟨1⟩ := congrArg ContainerId.mk (show id.slot = 1 by omega)
    cases (Option.isNone_iff_eq_none.mp hgone).symm.trans hx
  exact ⟨c, c₁, c₄, d, _, hc, hq, hs, rfl, hd, hlive, hmore, hstats, hcount⟩

end Client

end PlaneStore
