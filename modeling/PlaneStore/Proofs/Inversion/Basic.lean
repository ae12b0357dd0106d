import PlaneStore.Client

/-!
# What a step that succeeded did

One equivalence for each way to build a step: the left side says that the step took one store to
another, the right side says how. Longer steps are opened one bind at a time, and no proof unfolds
the monads again.
-/

namespace PlaneStore

namespace Store

/-- The container of a slot, if the slot is in use. -/
def container? (s : Store) (id : ContainerId) : Option Container := s.heap.containers.get? id.slot

/-- The store with the container of a slot in use replaced. -/
def withContainer (s : Store) (id : ContainerId) (c : Container) : Store :=
  { s with heap := { s.heap with containers := s.heap.containers.set id.slot c } }

/-- The store with a dataspace changed. -/
def withDataspace (s : Store) (ds : DataspaceId) (f : Dataspace → Dataspace) : Store :=
  { s with dataspaces := s.dataspaces.modify ds.index f }

/-- The store with the innermost plane changed. -/
def withPlane (s : Store) (f : Plane → Plane) : Store :=
  match s.planes with
  | [] => s
  | p :: rest => { s with planes := f p :: rest }

end Store

/-! ## Plain failures -/

namespace Fallible

variable {α β : Type}

theorem bind_eq_ok {ε : Type} {x : Except ε α} {f : α → Except ε β} {b : β} :
    (x >>= f) = .ok b ↔ ∃ a, x = .ok a ∧ f a = .ok b := by
  cases x with
  | error e => simp [bind, Except.bind]
  | ok a => simp [bind, Except.bind]

theorem pure_eq_ok {ε : Type} {a b : α} : (pure a : Except ε α) = .ok b ↔ a = b := by
  simp [pure, Except.pure]

theorem toOption_eq_some {ε : Type} {x : Except ε α} {a : α} : x.toOption = some a ↔ x = .ok a := by
  cases x with
  | error e => exact ⟨nofun, nofun⟩
  | ok b => simp [Except.toOption]

end Fallible

theorem Heap.stringEntry_eq_ok {h : Heap} {id : StringId} {e : StringEntry} :
    h.stringEntry id = .ok e ↔ h.strings.get? id.slot = some e := by
  unfold Heap.stringEntry
  split <;> simp_all

/-- Retaining a text counts one more reference to it. -/
theorem Heap.retainString_eq_ok {h h' : Heap} {id : StringId} : h.retainString id = .ok h' ↔
    ∃ e, h.strings.get? id.slot = some e ∧
      h' = { h with strings := h.strings.set id.slot { e with refcount := e.refcount + 1 } } := by
  unfold retainString
  simp only [Fallible.bind_eq_ok, stringEntry_eq_ok]
  exact exists_congr fun e => and_congr_right fun _ => Fallible.pure_eq_ok.trans eq_comm

/-- Releasing a text counts one reference less, and the last one takes the text along. -/
theorem Heap.releaseString_eq_ok {h h' : Heap} {id : StringId} : h.releaseString id = .ok h' ↔
    ∃ e, h.strings.get? id.slot = some e ∧ h' =
      if 1 < e.refcount then
        { h with strings := h.strings.set id.slot { e with refcount := e.refcount - 1 } }
      else { h with strings := h.strings.erase id.slot } := by
  unfold releaseString
  simp only [Fallible.bind_eq_ok, stringEntry_eq_ok]
  refine exists_congr fun e => and_congr_right fun _ => ?_
  split
  · exact Fallible.pure_eq_ok.trans eq_comm
  · exact Fallible.pure_eq_ok.trans eq_comm

/-! ## Steps inside the store -/

namespace StoreM

open Store

variable {α β : Type} {s s' : Store}

theorem get_eq_ok {t : Store} :
    (MonadState.get : StoreM Store) s = .ok (t, s') ↔ s = t ∧ s = s' := by
  show Except.ok (s, s) = _ ↔ _
  simp only [Except.ok.injEq, Prod.mk.injEq]

theorem modify_eq_ok {f : Store → Store} {u : PUnit} :
    (modify f : StoreM PUnit) s = .ok (u, s') ↔ s' = f s := by
  show Except.ok (PUnit.unit, f s) = _ ↔ _
  simp only [Except.ok.injEq, Prod.mk.injEq, true_and, eq_comm]

theorem modifyGet_eq_ok {f : Store → α × Store} {a : α} :
    (modifyGet f : StoreM α) s = .ok (a, s') ↔ f s = (a, s') := by
  show Except.ok (f s) = _ ↔ _
  simp only [Except.ok.injEq]

theorem lift_eq_ok {x : Except Fault α} {a : α} :
    (monadLift x : StoreM α) s = .ok (a, s') ↔ x = .ok a ∧ s = s' := by
  cases x with
  | error e =>
    show Except.error e = _ ↔ _
    simp
  | ok b =>
    show Except.ok (b, s) = _ ↔ _
    simp only [Except.ok.injEq, Prod.mk.injEq, eq_comm]

theorem readHeap_eq_ok {f : Heap → Except Fault α} {a : α} :
    readHeap f s = .ok (a, s') ↔ f s.heap = .ok a ∧ s = s' := by
  unfold readHeap
  cases f s.heap with
  | error e => simp [bind, Except.bind]
  | ok b => simp [bind, Except.bind, pure, Except.pure, eq_comm]

theorem updateHeap_eq_ok {f : Heap → Except Fault Heap} {u : Unit} :
    updateHeap f s = .ok (u, s') ↔ ∃ h, f s.heap = .ok h ∧ s' = { s with heap := h } := by
  unfold updateHeap
  cases f s.heap with
  | error e => simp [bind, Except.bind]
  | ok h => simp [bind, Except.bind, pure, Except.pure, eq_comm]

theorem scrub_eq_ok {v w : Value} : scrub v s = .ok (w, s') ↔ s.scrubbed v = .ok w ∧ s = s' := by
  unfold scrub
  cases s.scrubbed v with
  | error e => simp [bind, Except.bind]
  | ok b => simp [bind, Except.bind, pure, Except.pure, eq_comm]

theorem container_eq_ok {id : ContainerId} {c : Container} :
    container id s = .ok (c, s') ↔ s.container? id = some c ∧ s = s' := by
  unfold container container?
  rw [readHeap_eq_ok, Heap.get_eq_ok]

/-- Writing to a container needs one that is there. -/
theorem modifyContainer_eq_ok {id : ContainerId} {f : Container → Container} {u : Unit} :
    modifyContainer id f s = .ok (u, s') ↔
      ∃ c, s.container? id = some c ∧ s' = s.withContainer id (f c) := by
  unfold modifyContainer Heap.modify
  rw [updateHeap_eq_ok]
  constructor
  · rintro ⟨h, hm, rfl⟩
    obtain ⟨c, c', hc, hf, rfl⟩ := Heap.modifyM_eq_ok.mp hm
    cases hf
    exact ⟨c, Heap.get_eq_ok.mp hc, rfl⟩
  · rintro ⟨c, hc, rfl⟩
    exact ⟨_, Heap.modifyM_eq_ok.mpr ⟨c, f c, Heap.get_eq_ok.mpr hc, rfl, rfl⟩, rfl⟩

theorem values_eq_ok {c : Container} {values : Array Value} :
    c.values = .ok values ↔ c.elements = .resident values := by
  unfold Container.values
  cases c.elements <;> simp

/-- Writing to elements needs them at hand. -/
theorem modifyValues_eq_ok {id : ContainerId} {f : Array Value → Array Value} {u : Unit} :
    modifyValues id f s = .ok (u, s') ↔
      ∃ c values, s.container? id = some c ∧ c.elements = .resident values ∧
        s' = s.withContainer id { c with elements := .resident (f values) } := by
  unfold modifyValues
  rw [updateHeap_eq_ok]
  constructor
  · rintro ⟨h, hm, rfl⟩
    obtain ⟨c, c', hc, hf, rfl⟩ := Heap.modifyM_eq_ok.mp hm
    obtain ⟨values, hv, hc'⟩ := Fallible.bind_eq_ok.mp hf
    rw [← Fallible.pure_eq_ok.mp hc']
    exact ⟨c, values, Heap.get_eq_ok.mp hc, values_eq_ok.mp hv, rfl⟩
  · rintro ⟨c, values, hc, hv, rfl⟩
    refine ⟨_, Heap.modifyM_eq_ok.mpr ⟨c, _, Heap.get_eq_ok.mpr hc, ?_, rfl⟩, rfl⟩
    exact Fallible.bind_eq_ok.mpr ⟨values, values_eq_ok.mpr hv, rfl⟩

/-- Reading elements needs them at hand. -/
theorem residentValues_eq_ok {id : ContainerId} {values : Array Value} :
    residentValues id s = .ok (values, s') ↔
      (∃ c, s.container? id = some c ∧ c.elements = .resident values) ∧ s = s' := by
  unfold residentValues
  rw [readHeap_eq_ok, Fallible.bind_eq_ok]
  simp only [Heap.get_eq_ok, values_eq_ok, container?]

theorem modifyDataspace_eq_ok {ds : DataspaceId} {f : Dataspace → Dataspace} {u : Unit} :
    modifyDataspace ds f s = .ok (u, s') ↔ s' = s.withDataspace ds f :=
  modify_eq_ok

theorem modifyPlane_eq_ok {f : Plane → Plane} {u : Unit} :
    modifyPlane f s = .ok (u, s') ↔ s' = s.withPlane f :=
  modify_eq_ok

theorem when_eq_ok {p : Bool} {x : StoreM Unit} {u : Unit} :
    when p x s = .ok (u, s') ↔ (p = true ∧ x s = .ok (u, s')) ∨ (p = false ∧ s = s') := by
  unfold when
  cases p with
  | true => simp
  | false =>
    show (pure () : StoreM Unit) s = _ ↔ _
    rw [pure_eq_ok]
    simp

/-- Steps over a list are those over its head, then those over its tail. -/
theorem forM_cons_eq_ok {f : α → StoreM PUnit} {x : α} {xs : List α} {u : PUnit} :
    (x :: xs).forM f s = .ok (u, s') ↔
      ∃ v s₁, f x s = .ok (v, s₁) ∧ xs.forM f s₁ = .ok (u, s') :=
  bind_eq_ok

theorem forM_nil_eq_ok {f : α → StoreM PUnit} {u : PUnit} :
    ([] : List α).forM f s = .ok (u, s') ↔ s = s' := by
  show (pure PUnit.unit : StoreM PUnit) s = _ ↔ _
  rw [pure_eq_ok]
  simp

theorem mapM_cons_eq_ok {f : α → StoreM β} {x : α} {xs : List α} {ys : List β} :
    (x :: xs).mapM f s = .ok (ys, s') ↔
      ∃ y s₁ ys₁, f x s = .ok (y, s₁) ∧ xs.mapM f s₁ = .ok (ys₁, s') ∧ ys = y :: ys₁ := by
  rw [List.mapM_cons, bind_eq_ok]
  constructor
  · rintro ⟨y, s₁, hy, h⟩
    obtain ⟨ys₁, s₂, hys, h⟩ := bind_eq_ok.mp h
    obtain ⟨rfl, rfl⟩ := pure_eq_ok.mp h
    exact ⟨y, s₁, ys₁, hy, hys, rfl⟩
  · rintro ⟨y, s₁, ys₁, hy, hys, rfl⟩
    exact ⟨y, s₁, hy, bind_eq_ok.mpr ⟨ys₁, s', hys, pure_eq_ok.mpr ⟨rfl, rfl⟩⟩⟩

theorem mapM_nil_eq_ok {f : α → StoreM β} {ys : List β} :
    ([] : List α).mapM f s = .ok (ys, s') ↔ ys = [] ∧ s = s' := by
  rw [List.mapM_nil, pure_eq_ok]
  simp only [eq_comm]

end StoreM

/-! ## Readers -/

/-- Whether a value refers to a destroyed object or is a record of a destroyed class. -/
def Store.lost (s : Store) : Value → Bool
  | .object obj => s.objects.isDestroyed obj
  | .container .record id =>
    match (s.container? id).map Container.kind with
    | some (.record cls) => s.objects.isDestroyed cls
    | _ => false
  | _ => false

/-- A value as a reader sees it, unless it refers to what is not there. -/
def Store.seen (s : Store) (v : Value) : Value := if s.lost v then .nil else v

/-- A reader sees nil in the place of what is lost, and everything else as it is. -/
theorem Store.scrubbed_eq {s : Store} {v w : Value} (h : s.scrubbed v = .ok w) : w = s.seen v := by
  unfold Store.scrubbed at h
  unfold Store.seen
  unfold Store.lost
  split at h
  · exact (Fallible.pure_eq_ok.mp h).symm
  · next id =>
    obtain ⟨c, hc, h⟩ := Fallible.bind_eq_ok.mp h
    have hget : s.container? id = some c := Heap.get_eq_ok.mp hc
    simp only [hget, Option.map_some]
    cases hk : c.kind with
    | record cls =>
      rw [hk] at h
      exact (Fallible.pure_eq_ok.mp h).symm
    | array | mapping =>
      rw [hk] at h
      exact (Fallible.pure_eq_ok.mp h).symm
  · next hobj hrec =>
    obtain rfl := Fallible.pure_eq_ok.mp h
    cases v with
    | object obj => exact absurd rfl (hobj obj)
    | container shape id =>
      cases shape with
      | record => exact absurd rfl (hrec id)
      | array | mapping => rfl
    | nil | int | float | string => rfl

/-- A reader sees a value as it is, or nil. -/
theorem Store.scrubbed_cases {s : Store} {v w : Value} (h : s.scrubbed v = .ok w) :
    w = v ∨ w = .nil := by
  rw [scrubbed_eq h]
  unfold seen
  split
  · exact Or.inr rfl
  · exact Or.inl rfl

/-- Looking at a value fails only if the record that it refers to is not there. -/
theorem Store.exists_scrubbed {s : Store} {v : Value}
    (h : ∀ shape id, v = .container shape id → ∃ c, s.container? id = some c) :
    ∃ w, s.scrubbed v = .ok w := by
  unfold Store.scrubbed
  split
  · exact ⟨_, rfl⟩
  · next id =>
    obtain ⟨c, hc⟩ := h _ _ rfl
    rw [show s.heap.get id = .ok c from Heap.get_eq_ok.mpr hc]
    simp only [bind, Except.bind]
    split <;> exact ⟨_, rfl⟩
  · exact ⟨_, rfl⟩

/-! ## Requests -/

namespace ClientM

variable {α β : Type} {s s' : Store}

/-- A request made of two ends with the first if that was refused, else with the second. -/
theorem bind_eq_ok {x : ClientM α} {g : α → ClientM β} {r : Except Refusal β} :
    (x >>= g) s = .ok (r, s') ↔
      (∃ e, x s = .ok (.error e, s') ∧ r = .error e) ∨
        ∃ a s₁, x s = .ok (.ok a, s₁) ∧ g a s₁ = .ok (r, s') := by
  show (StateT.bind x (ExceptT.bindCont g)) s = _ ↔ _
  refine (StoreM.bind_eq_ok (x := x) (g := ExceptT.bindCont g)).trans ?_
  constructor
  · rintro ⟨a, s₁, hx, hg⟩
    cases a with
    | error e =>
      obtain ⟨rfl, rfl⟩ := StoreM.pure_eq_ok.mp hg
      exact .inl ⟨e, hx, rfl⟩
    | ok a => exact .inr ⟨a, s₁, hx, hg⟩
  · rintro (⟨e, hx, rfl⟩ | ⟨a, s₁, hx, hg⟩)
    · exact ⟨_, _, hx, StoreM.pure_eq_ok.mpr ⟨rfl, rfl⟩⟩
    · exact ⟨_, _, hx, hg⟩

theorem pure_eq_ok {a : α} {r : Except Refusal α} :
    (pure a : ClientM α) s = .ok (r, s') ↔ r = .ok a ∧ s = s' := by
  show Except.ok ((Except.ok a, s) : Except Refusal α × Store) = _ ↔ _
  simp only [Except.ok.injEq, Prod.mk.injEq, eq_comm]

theorem refuse_eq_ok {e : Refusal} {r : Except Refusal α} :
    (refuse e : ClientM α) s = .ok (r, s') ↔ r = .error e ∧ s = s' := by
  show Except.ok ((Except.error e, s) : Except Refusal α × Store) = _ ↔ _
  simp only [Except.ok.injEq, Prod.mk.injEq, eq_comm]

/-- What a request hands on is what it returned, if it was not refused. -/
theorem bind_pure_eq_ok {x : ClientM α} {f : α → β} {r : Except Refusal β} :
    (x >>= fun a => pure (f a)) s = .ok (r, s') ↔ ∃ r₀, x s = .ok (r₀, s') ∧ r = r₀.map f := by
  rw [bind_eq_ok]
  constructor
  · rintro (⟨e, hx, rfl⟩ | ⟨a, s₁, hx, h⟩)
    · exact ⟨_, hx, rfl⟩
    · obtain ⟨rfl, rfl⟩ := pure_eq_ok.mp h
      exact ⟨_, hx, rfl⟩
  · rintro ⟨r₀, hx, rfl⟩
    cases r₀ with
    | error e => exact .inl ⟨e, hx, rfl⟩
    | ok a => exact .inr ⟨a, s', hx, pure_eq_ok.mpr ⟨rfl, rfl⟩⟩

/-- A step inside the store is never refused. -/
theorem lift_eq_ok {x : StoreM α} {r : Except Refusal α} :
    (monadLift x : ClientM α) s = .ok (r, s') ↔ ∃ a, r = .ok a ∧ x s = .ok (a, s') := by
  show (x >>= fun a => pure (Except.ok a)) s = _ ↔ _
  rw [StoreM.bind_eq_ok]
  constructor
  · rintro ⟨a, s₁, hx, h⟩
    obtain ⟨rfl, rfl⟩ := StoreM.pure_eq_ok.mp h
    exact ⟨a, rfl, hx⟩
  · rintro ⟨a, rfl, hx⟩
    exact ⟨a, s', hx, StoreM.pure_eq_ok.mpr ⟨rfl, rfl⟩⟩

/-- A step inside the store is taken, then the rest of the request. -/
theorem lift_bind_eq_ok {x : StoreM α} {g : α → ClientM β} {r : Except Refusal β} :
    ((monadLift x : ClientM α) >>= g) s = .ok (r, s') ↔
      ∃ a s₁, x s = .ok (a, s₁) ∧ g a s₁ = .ok (r, s') := by
  rw [bind_eq_ok]
  constructor
  · rintro (⟨e, hx, -⟩ | ⟨a, s₁, hx, hg⟩)
    · obtain ⟨a, ha, -⟩ := lift_eq_ok.mp hx
      cases ha
    · obtain ⟨a', ha, hx⟩ := lift_eq_ok.mp hx
      cases ha
      exact ⟨a, s₁, hx, hg⟩
  · rintro ⟨a, s₁, hx, hg⟩
    exact .inr ⟨a, s₁, lift_eq_ok.mpr ⟨a, rfl, hx⟩, hg⟩

theorem get_bind_eq_ok {g : Store → ClientM β} {r : Except Refusal β} :
    ((MonadState.get : ClientM Store) >>= g) s = .ok (r, s') ↔ g s s = .ok (r, s') := Iff.rfl

theorem get_eq_ok {r : Except Refusal Store} :
    (MonadState.get : ClientM Store) s = .ok (r, s') ↔ r = .ok s ∧ s = s' := by
  show Except.ok ((Except.ok s, s) : Except Refusal Store × Store) = _ ↔ _
  simp only [Except.ok.injEq, Prod.mk.injEq, eq_comm]

end ClientM

end PlaneStore
