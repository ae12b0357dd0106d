import PlaneStore.Proofs.Totality.Requests

/-!
# Disciplined clients meet no faults

Whatever a disciplined client asks for is answered or refused, and so is the end of a region with a
body. Only evicting a whole dataspace may meet a handle that dangles.
-/

namespace PlaneStore

open Store

namespace Client

variable {limits : Limits} {c c' : Client} {op : Operation} {outcome : Outcome}

/-- From a reachable store every request but one that evicts a dataspace is answered. -/
theorem Reachable.request (h : Reachable limits c) (op : Operation)
    (hd : ∀ v ∈ op.passed, c.owned.Covers v)
    (hop : ∀ ds, op ≠ .evictDataspace ds) : ∃ outcome c', c.Requests op outcome c' := by
  obtain ⟨outcome, s', hs⟩ := Operation.succeeds h.kept hd hop
  exact ⟨outcome, ⟨s', op.settle c.owned outcome⟩, hd, hs, rfl⟩

/-- A fault that a disciplined client meets is that of a dangling handle, in an eviction. -/
theorem Reachable.dangling {f : Fault} (h : Reachable limits c)
    (hd : ∀ v ∈ op.passed, c.owned.Covers v) (hf : c.store.perform op = .error f) :
    f.Dangling ∧ ∃ ds, op = .evictDataspace ds := by
  by_cases hop : ∃ ds, op = .evictDataspace ds
  · refine ⟨?_, hop⟩
    obtain ⟨ds, rfl⟩ := hop
    have hfaults : FaultsOnly Fault.Dangling (Operation.evictDataspace ds).perform c.store :=
      (faults_evictDataspace h.kept).requestBind fun _ _ _ => .of_succeeds (.answer _)
    exact hfaults f hf
  · obtain ⟨outcome, c', -, hs, -⟩ := h.request op hd fun ds he => hop ⟨ds, he⟩
    cases hf.symm.trans hs

/-- A request of the store, with what is answered or refused after it. -/
theorem Reachable.continue {α β : Type} {x : ClientM α} {f : α → ClientM β} {a : Answer}
    {r : Except Refusal α} {s : Store} (h : Reachable limits c)
    (hd : ∀ v ∈ op.passed, c.owned.Covers v)
    (hs : ∀ r : Except Refusal α, op.settle c.owned (r.map fun _ => a) = c.owned)
    (hop : op.perform = x >>= fun _ => pure a) (hx : x c.store = .ok (r, s))
    (hf : ∀ b, ∃ r', f b s = .ok (r', s)) :
    ∃ r' s', (x >>= f : ClientM β) c.store = .ok (r', s') ∧ Reachable limits ⟨s', c.owned⟩ := by
  have hnext : Reachable limits ⟨s, c.owned⟩ := @Reachable.next _ _ _ op (r.map fun _ => a) h
    ⟨hd, (congrFun hop c.store).trans (ClientM.bind_pure_eq_ok.mpr ⟨r, hx, rfl⟩), (hs _).symm⟩
  cases r with
  | error e => exact ⟨_, s, ClientM.bind_eq_ok.mpr (.inl ⟨e, hx, rfl⟩), hnext⟩
  | ok b =>
    obtain ⟨r', hr⟩ := hf b
    exact ⟨r', s, ClientM.bind_eq_ok.mpr (.inr ⟨b, s, hx, hr⟩), hnext⟩

/-- The region of a level can be ended after its body has run, as by committing or discarding. -/
theorem Reachable.conclude {α : Type} (h : Reachable limits c) (level : Nat)
    (r : Except Refusal α) : ∃ r' s',
      Store.conclude level r c.store = .ok (r', s') ∧ Reachable limits ⟨s', c.owned⟩ := by
  obtain ⟨r₁, s₁, hcommit⟩ := succeeds_commit level h.kept
  obtain ⟨r₂, s₂, hdiscard⟩ := succeeds_discardTo level h.kept
  have refused : ∀ {s : Store} (e : Refusal), ∃ r' : Except Refusal α,
      ClientM.refuse e s = .ok (r', s) := fun e => ⟨.error e, rfl⟩
  have hundo : ∀ e : Refusal, ∃ (r' : Except Refusal α) (s' : Store),
      (discardTo level >>= fun _ => ClientM.refuse e : ClientM α) c.store = .ok (r', s') ∧
        Reachable limits ⟨s', c.owned⟩ := fun e =>
    h.continue (by nofun) (fun r => by cases r <;> rfl)
      (show (Operation.discardTo level).perform = _ from rfl) hdiscard fun _ => refused e
  have hget : ∀ r' s', Store.conclude level r c.store = .ok (r', s') ↔ _ := fun r' s' =>
    ClientM.get_bind_eq_ok
  simp only [hget]
  split
  · exact ⟨_, _, rfl, h⟩
  cases r with
  | error e => exact hundo e
  | ok a =>
    dsimp only
    split
    · exact h.continue (by nofun) (fun r => by cases r <;> rfl)
        (show (Operation.commit level).perform = _ from rfl) hcommit fun _ => ⟨.ok a, rfl⟩
    · exact hundo _

/--
Each request of a disciplined client other than the eviction of a dataspace is carried out or
refused, and the client is disciplined after it; so is one that ends a region with a body.
-/
theorem Reachable.answered (h : Reachable limits c) :
    (∀ op : Operation, (∀ ds, op ≠ .evictDataspace ds) → (∀ v ∈ op.passed, c.owned.Covers v) →
      ∃ outcome c', c.Requests op outcome c' ∧ Reachable limits c') ∧
    ∀ (level : Nat) (r : Outcome), ∃ r' s',
      Store.conclude level r c.store = .ok (r', s') ∧ Reachable limits ⟨s', c.owned⟩ := by
  refine ⟨fun op hop hd => ?_, fun level r => h.conclude level r⟩
  obtain ⟨outcome, c', hr⟩ := h.request op hd hop
  exact ⟨outcome, c', hr, h.next hr⟩

/-- An open region that is discarded, or ended by the refusal of its body. -/
theorem answered_sample : ∃ c, Reachable {} c ∧ c.store.level = 1 ∧
    (∃ outcome c', c.Requests (.discardTo 1) outcome c' ∧ Reachable {} c') ∧
    ∃ r' s', Store.conclude 1 (.error .noPlane : Outcome) c.store = .ok (r', s') ∧
      Reachable {} ⟨s', c.owned⟩ := by
  obtain ⟨c, hc, hlevel⟩ := exists_sample (·.store.level) (a := 1) (by decide +kernel)
  obtain ⟨hrequest, hconclude⟩ := Reachable.answered hc
  exact ⟨c, hc, hlevel, hrequest (.discardTo 1) nofun nofun, hconclude 1 _⟩

end Client

end PlaneStore
