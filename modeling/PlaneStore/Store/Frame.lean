import PlaneStore.Store.Basic

/-!
# What a step leaves alone

`x.Keeps f` says that a step that succeeds leaves `f` of the store as it was. Steps are built from
reads, writes and sequencing, and so are the proofs of what they keep.
-/

namespace PlaneStore

namespace StoreM

variable {α β γ : Type}

/-- A sequence of two steps succeeds if both do, the second from where the first ended. -/
theorem bind_eq_ok {x : StoreM α} {g : α → StoreM β} {s s' : Store} {b : β} :
    (x >>= g) s = .ok (b, s') ↔ ∃ a s₁, x s = .ok (a, s₁) ∧ g a s₁ = .ok (b, s') := by
  show (StateT.bind x g) s = _ ↔ _
  unfold StateT.bind
  cases h : x s with
  | error e => simp [bind, Except.bind]
  | ok p =>
    obtain ⟨a, s₁⟩ := p
    constructor
    · exact fun hg => ⟨a, s₁, rfl, hg⟩
    · rintro ⟨_, _, hp, hg⟩
      cases hp
      exact hg

/-- A step that only answers changes nothing. -/
theorem pure_eq_ok {s s' : Store} {a b : α} :
    (pure a : StoreM α) s = .ok (b, s') ↔ a = b ∧ s = s' := by
  show Except.ok (a, s) = _ ↔ _
  simp

@[simp] theorem fault_ne_ok {f : Fault} {s s' : Store} {a : α} :
    (StoreM.fault f : StoreM α) s ≠ .ok (a, s') := by
  simp [StoreM.fault]

/-- The step leaves `f` of the store as it was. -/
def Keeps (f : Store → γ) (x : StoreM α) : Prop :=
  ∀ ⦃s s' : Store⦄ ⦃a : α⦄, x s = .ok (a, s') → f s' = f s

namespace Keeps

variable {f : Store → γ}

protected theorem pure (a : α) : Keeps f (pure a : StoreM α) := by
  intro s s' b h
  rw [(pure_eq_ok.mp h).2]

protected theorem fault (e : Fault) : Keeps f (StoreM.fault e : StoreM α) := by
  intro s s' a h
  exact absurd h fault_ne_ok

/-- A sequence of steps keeps what each of them keeps. -/
protected theorem bind {x : StoreM α} {g : α → StoreM β} (hx : Keeps f x)
    (hg : ∀ a, Keeps f (g a)) :
    Keeps f (x >>= g) := by
  intro s s' b h
  obtain ⟨a, s₁, h₁, h₂⟩ := bind_eq_ok.mp h
  rw [hg a h₂, hx h₁]

protected theorem ite {p : Prop} [Decidable p] {x y : StoreM α} (hx : Keeps f x) (hy : Keeps f y) :
    Keeps f (if p then x else y) := by
  split
  · exact hx
  · exact hy

protected theorem when {p : Bool} {x : StoreM Unit} (hx : Keeps f x) : Keeps f (when p x) :=
  Keeps.ite hx (Keeps.pure _)

protected theorem get : Keeps f (MonadState.get : StoreM Store) := by
  intro s s' a h
  change Except.ok (s, s) = Except.ok (a, s') at h
  cases h
  rfl

protected theorem modify {g : Store → Store} (hg : ∀ s, f (g s) = f s) :
    Keeps f (modify g : StoreM PUnit) := by
  intro s s' a h
  change Except.ok ((), g s) = Except.ok (a, s') at h
  cases h
  exact hg s

protected theorem readHeap {g : Heap → Except Fault α} : Keeps f (Store.readHeap g) := by
  intro s s' a h
  unfold Store.readHeap at h
  cases hg : g s.heap with
  | error e => simp [hg, bind, Except.bind] at h
  | ok b =>
    simp only [hg, bind, Except.bind, pure, Except.pure, Except.ok.injEq,
      Prod.mk.injEq] at h
    rw [← h.2]

/-- A change of the heap keeps what is the same of both heaps. -/
protected theorem updateHeap {g : Heap → Except Fault Heap}
    (hg : ∀ s h, g s.heap = .ok h → f { s with heap := h } = f s) :
    Keeps f (Store.updateHeap g) := by
  intro s s' a h
  unfold Store.updateHeap at h
  cases hh : g s.heap with
  | error e => simp [hh, bind, Except.bind] at h
  | ok h' =>
    simp only [hh, bind, Except.bind, pure, Except.pure, Except.ok.injEq,
      Prod.mk.injEq] at h
    rw [← h.2]
    exact hg s h' hh

/-- A loop keeps what its body keeps. -/
protected theorem forM {g : α → StoreM PUnit} (hg : ∀ a, Keeps f (g a)) (xs : List α) :
    Keeps f (xs.forM g) := by
  induction xs with
  | nil => exact Keeps.pure _
  | cons x xs ih => exact Keeps.bind (hg x) fun _ => ih

end Keeps

end StoreM

namespace Store

open StoreM

/-- The number of slots that hold a container. -/
def occupied (s : Store) : Nat := s.heap.containers.occupied

/-- To change a container takes and frees no slot. -/
theorem modifyContainer_keeps_occupied (id : ContainerId) (f : Container → Container) :
    Keeps occupied (modifyContainer id f) :=
  Keeps.updateHeap fun _ _ h => Heap.occupied_modify h

theorem modifyDataspace_keeps_occupied (ds : DataspaceId) (f : Dataspace → Dataspace) :
    Keeps occupied (modifyDataspace ds f) :=
  Keeps.modify fun _ => rfl

end Store

end PlaneStore
