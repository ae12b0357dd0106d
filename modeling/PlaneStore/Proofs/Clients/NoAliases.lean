import PlaneStore.Proofs.Heap.HandleTraces
import PlaneStore.Proofs.Heap.IdentityTags
import PlaneStore.Proofs.Clients.SweepListOrder

/-!
# Nothing has two names

A heap never gives out a handle or frees a slot twice, and a container that a request makes shares
its tag with no other, also if containers were restored under tags of their own.
-/

namespace PlaneStore

open Store

namespace Store

variable {s s' : Store} {op : Operation}

instance (s : Store) : StepRelation (Preserves s.Ages) where
  trans h h' hs := h' (h hs)
  same hh hl hs := hs.trans (StepRelation.same (R := KeepsTags) hh hl hs.tagged)
  strings h n hs := hs.trans (StepRelation.strings (R := KeepsTags) h n hs.tagged)
  write hc ht hs := hs.trans (keepsTags_write hc ht hs.tagged)
  free {_ id _} _ hs := hs.trans (keepsTags_free id hs.tagged)
  make ht hs := hs.trans (ages_make hs.tagged ht)

/-- A reference to a container with a tag that was not handed out before. -/
def Named (s : Store) (v : Value) (s' : Store) : Prop :=
  ∃ shape id, v = .container shape id ∧ ∀ n, s'.tag? id = some n → s.heap.nextTag ≤ n

theorem ofAllocated_named (s : Store) : OfAllocated s.Ages s.Named := by
  intro owner kind values f hf s₀ v s' hs h
  obtain ⟨id, t, hnew, h⟩ := ClientM.lift_bind_eq_ok.mp h
  obtain ⟨hv, rfl⟩ := ClientM.pure_eq_ok.mp h
  obtain ⟨shape, hshape⟩ := hf id
  refine ⟨shape, id, (Except.ok.inj hv).trans hshape, ?_⟩
  intro n hn
  obtain ⟨s₁, s₂, s₃, h₁, h₂, h₃, rfl⟩ := allocate_eq_ok hnew
  have hs₁ : s.Ages s₁ := Respects.rel (R := Preserves s.Ages) h₁ hs
  have hs₂ : s.Ages s₂ := Respects.rel (R := Preserves s.Ages) h₂ hs₁
  have hs₃ : s₂.Ages s₃ := Respects.rel (R := KeepsTags) h₃ hs₂.tagged
  rw [tag?_withPlane] at hn
  rcases hs₃.tag? hn with hold | ⟨hle, -⟩
  · obtain ⟨rfl, rfl⟩ := Prod.mk.inj (StoreM.modifyGet_eq_ok.mp h₂)
    obtain ⟨c, hc, rfl⟩ := tag?_eq_some.mp hold
    rw [Slab.eq_of_get?_insert hc]
    exact hs₁.next
  · exact Nat.le_trans hs₂.next hle

/-- What a request makes is there, with a tag that no container had or has. -/
def Distinct (s : Store) (v : Value) (s' : Store) : Prop :=
  ∃ shape id c, v = .container shape id ∧ s'.container? id = some c ∧
    ∀ other n, s.tag? other = some n ∨ other ≠ id ∧ s'.tag? other = some n → n ≠ c.tag

theorem distinct_of_creates {v : Value} (hs : s.Tagged) (hop : op.creates = true)
    (hrest : ¬ op.Restores) (h : s.perform op = .ok (.ok (.value v), s')) : s.Distinct v s' := by
  have hages := (respects_perform hrest).rel h hs
  have hstart : s.Ages s := Respects.refl (R := KeepsTags) s hs
  obtain ⟨shape, id, c, rfl, hc, -⟩ := Operation.yields_of_creates ofNew_foremost hop h
  obtain ⟨_, _, hv, hnew⟩ := Operation.yieldsFrom_of_creates (ofAllocated_named s)
    (fun hr => absurd hr hrest) hop hstart h
  obtain ⟨rfl, rfl⟩ := Value.container.inj hv
  have hle := hnew _ (tag?_of_container hc)
  refine ⟨shape, id, c, rfl, hc, ?_⟩
  rintro other n (hold | ⟨hne, hn⟩) rfl
  · have hlt := hs other _ hold
    omega
  · rcases hages.tag? (tag?_of_container hc) with hold | ⟨-, hother⟩
    · have hlt := hs id _ hold
      omega
    · exact hother other hne hn

end Store

/-! ## Every heap and every store -/

section

variable {limits : Limits} {t : Heap.Trace} {h : Heap} {ops : List Operation}
  {outcomes : List Outcome} {s : Store}

/--
Handles and tags never alias. A heap gives out handles that are not in use, those of the slots freed
last, and changes nothing but what is asked for; its free lists hold the empty slots, each once, and
its counts are those of the others; a string goes with as many releases as it was retained, and one.
In a store no tag in use will be handed out, also if containers were restored, under any tag but the
largest: no other request changes the tag of a container, and what it makes has a tag of its own.
-/
theorem never_aliased (hh : Heap.Reached t h) (hops : ∀ op ∈ ops, op.RestoresBelow)
    (hs : ({ limits } : Store).performAll ops = .ok (outcomes, s)) :
    (h.Orderly t ∧ ∀ q, h.Admits q → ∃ a h', h.ask q = .ok (a, h') ∧ h.Does t q a h') ∧
    s.Tagged ∧ ∀ op outcome s', ¬ op.Restores → s.perform op = .ok (outcome, s') →
      s.Ages s' ∧ ∀ v, op.creates = true → outcome = .ok (.value v) → s.Distinct v s' := by
  have htagged := (tagged_new limits).performAll hops hs
  refine ⟨⟨hh.orderly, ?_⟩, htagged, ?_⟩
  · intro q hq
    obtain ⟨a, h', hask, hdoes, -⟩ := hh.orderly.answers hq
    exact ⟨a, h', hask, hdoes⟩
  · intro op outcome s' hrest hperform
    refine ⟨(respects_perform hrest).rel hperform htagged, ?_⟩
    rintro v hop rfl
    exact distinct_of_creates htagged hop hrest hperform

end

/-- A heap in which the slot of one of two strings is free. -/
theorem Heap.exists_reached_free : ∃ t h, Heap.Reached t h ∧ h.strings.free = [1] := by
  have h₂ := (Reached.start.ask (q := .alloc "a") trivial rfl).ask (q := .alloc "b") trivial rfl
  have h₄ := (h₂.ask (q := .retain ⟨0⟩) rfl rfl).ask (q := .release ⟨0⟩) rfl rfl
  exact ⟨_, _, h₄.ask (q := .release ⟨1⟩) rfl rfl, rfl⟩

/-- A free slot is filled; a container is restored under the next tag, and another one is made. -/
theorem never_aliased_restored : ∃ t h outcomes s v s', Heap.Reached t h ∧
    (∃ id h', h.ask (.alloc "c") = .ok (.string id, h') ∧ h.strings.Fills 1 ⟨"c", 1⟩ h'.strings) ∧
    ({} : Store).performAll [.createDataspace 1, .restore ⟨0⟩ .array 1 []] = .ok (outcomes, s) ∧
    s.perform (.createArray ⟨0⟩ 1) = .ok (.ok (.value v), s') ∧ s.Distinct v s' := by
  obtain ⟨t, h, hh, hfree⟩ := Heap.exists_reached_free
  have hrun : (({} : Store).performAll [.createDataspace 1, .restore ⟨0⟩ .array 1 []] >>=
      fun r => r.2.perform (.createArray ⟨0⟩ 1)).toOption.map Prod.fst =
        some (.ok (.value (.container .array ⟨1⟩))) := by cbv
  obtain ⟨⟨_, s'⟩, hrun, rfl⟩ := Option.map_eq_some_iff.mp hrun
  obtain ⟨⟨outcomes, s⟩, hs, hmake⟩ := Fallible.bind_eq_ok.mp (Fallible.toOption_eq_some.mp hrun)
  have hops : ∀ op ∈ [Operation.createDataspace 1, .restore ⟨0⟩ .array 1 []], op.RestoresBelow := by
    rintro op hop ds kind tag vs rfl
    obtain ⟨-, -, rfl, -⟩ : ds = ⟨0⟩ ∧ kind = .array ∧ tag = 1 ∧ vs = [] := by simpa using hop
    decide
  obtain ⟨⟨-, hheap⟩, -, hstore⟩ := never_aliased hh hops hs
  obtain ⟨a, h', hask, hdoes⟩ := hheap (.alloc "c") trivial
  obtain ⟨rfl, rfl⟩ := Prod.mk.inj (Except.ok.inj hask)
  obtain ⟨hfills, -⟩ := hdoes
  have hslot : h.strings.nextCell = 1 := by rw [Slab.nextCell, hfree]; rfl
  refine ⟨t, h, outcomes, s, _, s', hh, ⟨_, _, hask, hslot ▸ hfills⟩, hs, hmake, ?_⟩
  have hrest : ¬ (Operation.createArray ⟨0⟩ 1).Restores := by
    rintro ⟨ds, kind, tag, vs, he⟩
    cases he
  exact (hstore _ _ s' hrest hmake).2 _ rfl rfl

end PlaneStore
