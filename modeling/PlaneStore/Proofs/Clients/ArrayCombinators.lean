import PlaneStore.Proofs.Contents.ArraysOfArrays
import PlaneStore.Proofs.Clients.NoFaults

/-!
# Combinations of arrays as clients see them

What an array that is made of two others consists of is told by what looking at the two answers; the
two keep what they have.
-/

namespace PlaneStore

open Store

namespace Client

variable {limits : Limits} {c : Client} {ida idb : ContainerId}

theorem Requests.looks {c : Client} {v : Value} {values : List Value} {s : Store}
    (hv : c.owned.Covers v) (h : elements v c.store = .ok (.ok values.toArray, s)) :
    c.Requests (.elements v) (.ok (.values values)) ⟨s, c.owned⟩ where
  covered := List.forall_mem_singleton.mpr hv
  performed := ClientM.bind_pure_eq_ok.mpr ⟨.ok values.toArray, h, rfl⟩
  settled := rfl

/--
Combining two arrays is as looking at them, which scrubs them and does not even change a count if
nothing of them is lost, and then making an array of what the combination of the lists that a reader
sees consists of. The array is new, has one reference, belongs to the owner of the first operand and
to the current plane; counts go up by what it holds. Only the two limits may stand against it. The
operands keep their elements, owners and homes.
-/
theorem Reachable.combines (h : Reachable limits c) (op : Sequence.Combinator)
    (ha : c.owned.Covers (.container .array ida)) (hb : c.owned.Covers (.container .array idb)) :
    ∃ (x y : View) (c₁ c₂ c' : Client) (r : Except Refusal Value),
      c.store.view? ida = some x ∧ c.store.view? idb = some y ∧
      c.Requests (.elements (.container .array ida)) (.ok (.values x.elements)) c₁ ∧
      c₁.Requests (.elements (.container .array idb)) (.ok (.values y.elements)) c₂ ∧
      (c.store.Intact ida → c.store.Intact idb →
        ∀ t, c₂.store.heap.count? t = c.store.heap.count? t) ∧
      c₂.store.limits = c.store.limits ∧ c₂.store.level = c.store.level ∧
      c.Requests (op.request (.container .array ida) (.container .array idb)) (r.map .value) c' ∧
      c₂.store.Derives x.owner .array (op.combine c.store.heap x.elements y.elements) r c'.store ∧
      c'.store.view? ida = some x ∧ c'.store.view? idb = some y := by
  have hpassed : ∀ v ∈ (op.request (.container .array ida) (.container .array idb)).passed,
      c.owned.Covers v := by
    cases op <;> exact List.forall_mem_cons.mpr ⟨ha, List.forall_mem_singleton.mpr hb⟩
  obtain ⟨outcome, c', hr⟩ := h.request _ hpassed fun ds => by cases op <;> nofun
  obtain ⟨r, hrun, rfl⟩ := ClientM.bind_pure_eq_ok.mp
    ((congrFun (op.perform_request _ _) c.store).symm.trans hr.performed)
  obtain ⟨A, B, s₁, s₂, x, y, hx, hy, hleft, hright, hpath, hcounts, hcx, hsx, hcy, hsy, hd⟩ :=
    op.derives h.kept ha hb hrun
  have hsteady := hpath.holdsSteady h.kept Effect.minds_of_tends
  have h₂ := hpath.kept h.kept
  have h' := (h.next hr).kept
  refine ⟨_, _, ⟨s₁, c.owned⟩, ⟨s₂, c.owned⟩, c', r, hx, hy, .looks ha hleft, .looks hb hright,
    fun hia hib => (hcounts hia hib).count, hsteady.limits, hsteady.level, hr, hd, ?_, ?_⟩
  · rw [hd.view? h₂ h' hcx hsx, h₂.view?_of_swept hcx hsx]
  · rw [hd.view? h₂ h' hcy hsy, h₂.view?_of_swept hcy hsy]

/-- Requests after which a client owns two arrays with texts that are equal, in different slots. -/
def namesakes : List Operation :=
  [.createDataspace 0, .createString "name", .createString "name",
    .createArrayOf ⟨0⟩ [.string ⟨0⟩, .int 1, .int 1], .createArrayOf ⟨0⟩ [.nil, .string ⟨1⟩]]

/-- Two arrays with equal texts in two places, of which each counts by itself. -/
theorem combines_namesakes : ∃ (c c₂ c' : Client) (r : Except Refusal Value), Reachable {} c ∧
    c.Requests (.symmetricDifference (.container .array ⟨0⟩) (.container .array ⟨1⟩))
      (r.map .value) c' ∧
    c₂.store.Derives ⟨0⟩ .array [.int 1, .int 1, .nil] r c'.store := by
  obtain ⟨c, hc, hf⟩ := exists_visit namesakes
    (fun c => (decide (c.owned.Covers (.container .array ⟨0⟩)),
      decide (c.owned.Covers (.container .array ⟨1⟩)),
      (c.store.view? ⟨0⟩).bind fun x => (c.store.view? ⟨1⟩).map fun y => (x.owner,
        Sequence.Combinator.symmetricDifference.combine c.store.heap x.elements y.elements)))
    (a := (true, true, some (⟨0⟩, [.int 1, .int 1, .nil]))) (by decide +kernel)
  obtain ⟨ha, hb, hlist⟩ : _ ∧ _ ∧ _ := by simpa only [Prod.mk.injEq] using hf
  obtain ⟨x, y, -, c₂, c', r, hx, hy, -, -, -, -, -, hr, hd, -⟩ := Reachable.combines hc
    .symmetricDifference (of_decide_eq_true ha) (of_decide_eq_true hb)
  rw [hx, hy] at hlist
  obtain ⟨howner, helements⟩ := Prod.mk.inj (Option.some.inj hlist)
  rw [howner, helements] at hd
  exact ⟨c, c₂, c', r, hc, hr, hd⟩

end Client

end PlaneStore
