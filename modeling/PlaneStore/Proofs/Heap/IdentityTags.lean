import PlaneStore.Proofs.Accounts.RespectedRelations
import PlaneStore.Proofs.Walk.Regions

/-!
# Identity tags

No tag in use will be handed out: not those that were handed out before, nor those that containers
were restored under, as long as there are larger ones. So a container that gets the next tag shares
it with no other, and no request but restoring changes a tag.
-/

namespace PlaneStore

open Store StoreM

namespace Store

/-- The tag of the container of a slot. -/
def tag? (s : Store) (id : ContainerId) : Option Nat := (s.container? id).map Container.tag

/-- No tag in use will be handed out. -/
def Tagged (s : Store) : Prop := ∀ id t, s.tag? id = some t → t < s.heap.nextTag

/-- Tags stay where they are, or are new, and then no other container has them. -/
structure Ages (s s' : Store) : Prop where
  next : s.heap.nextTag ≤ s'.heap.nextTag
  tagged : s'.Tagged
  tag? : ∀ {id t}, s'.tag? id = some t → s.tag? id = some t ∨
    s.heap.nextTag ≤ t ∧ ∀ other, other ≠ id → s'.tag? other ≠ some t

/-- Where no tag in use will be handed out, tags age. -/
def KeepsTags (s s' : Store) : Prop := s.Tagged → s.Ages s'

section

variable {s s' t : Store} {id : ContainerId} {c c' : Container}

theorem tag?_of_container (hc : s.container? id = some c) : s.tag? id = some c.tag := by
  rw [tag?, hc, Option.map_some]

theorem tag?_eq_some {n : Nat} :
    s.tag? id = some n ↔ ∃ c, s.container? id = some c ∧ c.tag = n :=
  Option.map_eq_some_iff

theorem Ages.trans (h : s.Ages t) (h' : t.Ages s') : s.Ages s' where
  next := Nat.le_trans h.next h'.next
  tagged := h'.tagged
  tag? {id n} hn := by
    rcases h'.tag? hn with hold | ⟨hle, hother⟩
    · rcases h.tag? hold with hold' | ⟨hle, hother⟩
      · exact .inl hold'
      · refine .inr ⟨hle, ?_⟩
        intro other hne ho
        -- The other container had the tag before, or has a tag that was not handed out then.
        rcases h'.tag? ho with hbefore | ⟨hnew, -⟩
        · exact hother other hne hbefore
        · have hlt := h.tagged id n hold
          omega
    · exact .inr ⟨Nat.le_trans h.next hle, hother⟩

theorem tag?_withPlane (s : Store) (f : Plane → Plane) (id : ContainerId) :
    (s.withPlane f).tag? id = s.tag? id := congrArg (Option.map _) (container?_withPlane s f id)

/-- Tags age where none comes into use. -/
theorem keepsTags_of_tag? (hn : s'.heap.nextTag = s.heap.nextTag)
    (ht : ∀ {id n}, s'.tag? id = some n → s.tag? id = some n) : KeepsTags s s' := by
  intro hs
  refine ⟨Nat.le_of_eq hn.symm, ?_, fun h => .inl (ht h)⟩
  intro id n h
  rw [hn]
  exact hs id n (ht h)

theorem keepsTags_of_heap (h : s'.heap = s.heap) : KeepsTags s s' := by
  have htag : ∀ id, s'.tag? id = s.tag? id := by
    intro id
    unfold tag? container?
    rw [h]
  exact keepsTags_of_tag? (by rw [h]) fun {id n} hn => htag id ▸ hn

/-- A write keeps the tag of its container. -/
theorem keepsTags_write (hc : s.container? id = some c) (ht : c'.tag = c.tag) :
    KeepsTags s (s.withContainer id c') := by
  refine keepsTags_of_tag? rfl ?_
  intro other n hn
  by_cases hid : id = other
  · subst hid
    rw [tag?_of_container (container?_withContainer_self hc), ht] at hn
    rw [tag?_of_container hc, hn]
  · unfold tag? at hn ⊢
    rwa [container?_withContainer_of_ne hid] at hn

/-- Freeing a container gives its tag to nobody. -/
theorem keepsTags_free (id : ContainerId) : KeepsTags s
    { s with heap := { s.heap with containers := s.heap.containers.erase id.slot } } := by
  refine keepsTags_of_tag? rfl ?_
  intro other n hn
  obtain ⟨c, hc, hn⟩ := tag?_eq_some.mp hn
  refine tag?_eq_some.mpr ⟨c, ?_, hn⟩
  by_cases hid : id.slot = other.slot
  · have hnone : (s.heap.containers.erase id.slot).get? other.slot = none := by
      rw [hid]
      exact Slab.get?_erase_self
    exact absurd (hnone.symm.trans hc) nofun
  · exact (Slab.get?_erase_of_ne hid).symm.trans hc

/-- A container that is made gets a tag that no other has. -/
theorem ages_make (hs : s.Tagged) (ht : c.tag = s.heap.nextTag) :
    s.Ages { s with heap := s.heap.takeTag.2.insert c } := by
  have htag : ∀ {id n},
      ({ s with heap := s.heap.takeTag.2.insert c } : Store).tag? id = some n →
        id = s.heap.nextId ∧ n = s.heap.nextTag ∨ id ≠ s.heap.nextId ∧ s.tag? id = some n := by
    intro id n hn
    obtain ⟨d, hd, rfl⟩ := tag?_eq_some.mp hn
    have hd : (s.heap.containers.insert c).get? id.slot = some d := hd
    by_cases hid : id = s.heap.nextId
    · subst hid
      refine .inl ⟨rfl, ?_⟩
      rw [Slab.eq_of_get?_insert hd, ht]
    · refine .inr ⟨hid, tag?_eq_some.mpr ⟨d, ?_, rfl⟩⟩
      have hne : s.heap.containers.nextCell ≠ id.slot := by
        intro he
        exact hid (by rw [Heap.nextId, he])
      exact (Slab.get?_insert_of_ne hne).symm.trans hd
  have hnext : ({ s with heap := s.heap.takeTag.2.insert c } : Store).heap.nextTag =
      s.heap.nextTag + 1 := rfl
  refine ⟨by omega, ?_, ?_⟩
  · intro id n hn
    rcases htag hn with ⟨-, rfl⟩ | ⟨-, hold⟩
    · omega
    · have hlt := hs id n hold
      omega
  · intro id n hn
    rcases htag hn with ⟨rfl, rfl⟩ | ⟨-, hold⟩
    · refine .inr ⟨Nat.le_refl _, ?_⟩
      intro other hne ho
      rcases htag ho with ⟨rfl, -⟩ | ⟨-, hold⟩
      · exact hne rfl
      · exact absurd (hs other _ hold) (Nat.lt_irrefl _)
    · exact .inl hold

instance : StepRelation KeepsTags where
  trans h h' hs := (h hs).trans (h' (h hs).tagged)
  same hh _ := keepsTags_of_heap hh
  strings _ _ := keepsTags_of_tag? rfl fun hn => hn
  write := keepsTags_write
  free {_ id _} _ := keepsTags_free id
  make ht hs := ages_make hs ht

end

/-- Tags stay distinct and below the counter, through all that keeps them. -/
theorem Tagged.after {α : Type} {x : StoreM α} [hx : Respects KeepsTags x] {s s' : Store} {a : α}
    (hs : s.Tagged) (h : x s = .ok (a, s')) : s'.Tagged := (hx.rel h hs).tagged

/-! ## Steps that change callout tables and planes -/

section

set_option synthInstance.maxSize 4000

instance (ds : DataspaceId) (f : Dataspace → Dataspace) :
    Respects KeepsTags (modifyDataspace ds f) where
  rel h := by
    rw [modifyDataspace_eq_ok.mp h]
    exact keepsTags_of_heap rfl

instance (f : Plane → Plane) : Respects KeepsTags (modifyPlane f) where
  rel h := by
    rw [modifyPlane_eq_ok.mp h]
    exact keepsTags_of_heap (withPlane_fields _ _).1

theorem respects_modify {f : Store → Store} (hf : ∀ s, (f s).heap = s.heap) :
    Respects KeepsTags (modify f : StoreM PUnit) where
  rel h := by
    rw [modify_eq_ok.mp h]
    exact keepsTags_of_heap (hf _)

instance (ds : DataspaceId)
    (f : Std.TreeMap CallHandle DeferredCall → Std.TreeMap CallHandle DeferredCall) :
    Respects KeepsTags (modifyCallouts ds f) :=
  inferInstanceAs (Respects KeepsTags (modifyDataspace _ _))

instance (call : CallRef) (patch : CallPatch) : Respects KeepsTags (replay call patch) := by
  have htell : ∀ f : Scheduler → Scheduler, Respects KeepsTags
      (modify fun s => { s with scheduler := f s.scheduler } : StoreM PUnit) :=
    fun f => respects_modify fun _ => rfl
  have := fun due => htell fun q => q.schedule call due
  have := htell fun q => q.cancel call
  have := fun due => htell fun q => q.reschedule call due
  refine .after fun s => ?_
  split <;> infer_instance

instance (call : CallRef) (patch : Option CallPatch) :
    Respects KeepsTags (setPatch call patch) := by
  cases patch <;> exact inferInstanceAs (Respects KeepsTags (modifyPlane _))

instance (call : CallRef) (patch : CallPatch) : Respects KeepsTags (journal call patch) := by
  refine .after fun s => ?_
  split
  · infer_instance
  · split
    · infer_instance
    · split <;> infer_instance

instance (call : CallRef) (patch : CallPatch) : Respects KeepsTags (unwind call patch) := by
  refine .after fun s => ?_
  split
  · infer_instance
  · split <;> infer_instance

instance (ds : DataspaceId) (due : Nat) (v : Value) :
    Respects KeepsTags (addCall ds due v : ClientM CallHandle) := by
  unfold addCall
  infer_instance

instance (call : CallRef) : Respects KeepsTags (removeCall call : ClientM Nat) := by
  unfold removeCall
  infer_instance

instance (call : CallRef) (due : Nat) (v : Value) :
    Respects KeepsTags (replaceCall call due v : ClientM Unit) := by
  unfold replaceCall
  infer_instance

instance (n : Nat) : Respects KeepsTags (createDataspace n) where
  rel h := by
    cases modifyGet_eq_ok.mp h
    exact keepsTags_of_heap rfl

instance : Respects KeepsTags (enter : ClientM Nat) where
  rel h := by
    rcases enter_eq_ok h with ⟨-, -, rfl⟩ | ⟨-, -, rfl⟩
    · exact keepsTags_of_heap rfl
    · exact keepsTags_of_heap rfl

instance (level : Nat) : Respects KeepsTags (pop level : ClientM Plane) where
  rel {s s' r} h := by
    cases r with
    | error e =>
      rw [(pop_eq_ok h).1]
      exact keepsTags_of_heap rfl
    | ok p =>
      obtain ⟨rest, -, -, rfl⟩ := pop_eq_ok h
      exact keepsTags_of_heap rfl

instance (level : Nat) (p : Plane) : Respects KeepsTags (foldDown level p) := by
  unfold foldDown
  infer_instance

instance (level : Nat) : Respects KeepsTags (commit level : ClientM Unit) := by
  unfold commit
  infer_instance

instance (level : Nat) (p : Plane) : Respects KeepsTags (undo level p) := by
  unfold undo
  infer_instance

instance (level : Nat) : Respects KeepsTags (discard level : ClientM Unit) := by
  unfold discard
  infer_instance

instance (n : Nat) : Respects KeepsTags (discardMany n : ClientM Unit) := by
  induction n with
  | zero => exact inferInstanceAs (Respects KeepsTags (pure () : ClientM Unit))
  | succ n ih =>
    unfold discardMany
    infer_instance

instance (level : Nat) : Respects KeepsTags (discardTo level : ClientM Unit) := by
  unfold discardTo
  infer_instance

/-! ## Requests -/

/-- No request but restoring changes the tag of a container, and new ones get new tags. -/
theorem respects_perform {op : Operation} (hop : ¬ op.Restores) :
    Respects KeepsTags (op.perform : StoreM Outcome) := by
  cases op with
  | restore ds kind tag vs => exact absurd ⟨ds, kind, tag, vs, rfl⟩ hop
  | _ =>
    simp only [Operation.perform]
    infer_instance

end

section

variable {s s' : Store} {ds : DataspaceId} {kind : Kind} {tag : Nat} {vs : List Value}
  {id : ContainerId}

/-- A container may be restored under any tag but the largest. -/
theorem Tagged.retag {c : Container} (hs : s.Tagged) (hc : s.container? id = some c)
    (ht : tag < Heap.maxTag) : Tagged
      { s.withContainer id { c with tag } with
        heap := (s.withContainer id { c with tag }).heap.observeTag tag } := by
  intro other n hn
  have hn : (s.withContainer id { c with tag }).tag? other = some n := hn
  show n < max s.heap.nextTag (min (tag + 1) Heap.maxTag)
  by_cases hid : id = other
  · subst hid
    rw [tag?_of_container (container?_withContainer_self hc)] at hn
    obtain rfl : tag = n := Option.some.inj hn
    omega
  · unfold tag? at hn
    rw [container?_withContainer_of_ne hid] at hn
    have hlt := hs other n hn
    omega

/-- Restoring under a tag that is not the largest leaves larger ones to be handed out. -/
theorem Tagged.restore {r : Except Refusal Value} (hs : s.Tagged) (ht : tag < Heap.maxTag)
    (h : restore ds kind tag vs s = .ok (r, s')) : s'.Tagged := by
  rcases restore_eq_ok h with ⟨-, -, rfl⟩ |
    ⟨-, values, s₁, copied, s₂, id, t, c, h₁, h₂, h₃, hc, -, rfl⟩
  · exact hs
  · exact (((hs.after h₁).after h₂).after h₃).retag hc ht

end

end Store

/-- Containers are restored under tags that are not the largest. -/
def Operation.RestoresBelow (op : Operation) : Prop :=
  ∀ ds kind tag vs, op = .restore ds kind tag vs → tag < Heap.maxTag

namespace Store

variable {s s' : Store} {op : Operation} {outcome : Outcome}

/-- Tags stay distinct through every request that restores none. -/
theorem Tagged.perform (hs : s.Tagged) (hop : op.RestoresBelow)
    (h : s.perform op = .ok (outcome, s')) : s'.Tagged := by
  by_cases hrest : op.Restores
  · obtain ⟨ds, kind, tag, vs, rfl⟩ := hrest
    obtain ⟨r, h, -⟩ := ClientM.bind_pure_eq_ok.mp h
    exact hs.restore (hop ds kind tag vs rfl) h
  · exact ((respects_perform hrest).rel h hs).tagged

/-- Whatever is requested, no tag in use will be handed out. -/
theorem Tagged.performAll {ops : List Operation} {outcomes : List Outcome} (hs : s.Tagged)
    (hops : ∀ op ∈ ops, op.RestoresBelow) (h : s.performAll ops = .ok (outcomes, s')) :
    s'.Tagged := by
  induction ops generalizing s outcomes with
  | nil =>
    obtain ⟨-, rfl⟩ := Prod.mk.inj (Fallible.pure_eq_ok.mp h)
    exact hs
  | cons op ops ih =>
    obtain ⟨hop, hrest⟩ := List.forall_mem_cons.mp hops
    obtain ⟨⟨outcome, t⟩, h₁, h⟩ := Fallible.bind_eq_ok.mp h
    obtain ⟨⟨outcomes, u⟩, h₂, h⟩ := Fallible.bind_eq_ok.mp h
    obtain ⟨-, rfl⟩ := Prod.mk.inj (Fallible.pure_eq_ok.mp h)
    exact ih (hs.perform hop h₁) hrest h₂

/-- A new store has no tags. -/
theorem tagged_new (limits : Limits) : ({ limits } : Store).Tagged := by
  intro id t ht
  obtain ⟨c, hc, -⟩ := tag?_eq_some.mp ht
  have hc : ({} : Slab Container).get? id.slot = some c := hc
  rw [Slab.get?_of_size_le (Nat.zero_le _)] at hc
  cases hc

end Store

end PlaneStore
