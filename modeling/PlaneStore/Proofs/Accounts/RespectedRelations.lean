import PlaneStore.Proofs.Callouts.Agenda

/-!
# Relations that steps respect

Most requests are made of few kinds of changes: of containers that keep their tags, of the counts of
strings, of what dataspaces and planes keep for themselves. A relation between stores that holds
across each of these holds across the requests. This is seen by how they are written: steps that
respect a relation are closed under sequencing.

The first such relation is that the agenda is the same: only few requests have anything to do with
deferred calls, all other steps are `Quiet`.
-/

namespace PlaneStore

open Store StoreM

/-! ## What steps lead to -/

/--
A relation between the stores before and after a step. It has to hold where only the swap, the
objects, or what planes and dataspaces keep for themselves have changed, and across each change of
the heap that requests make: references to strings come and go, a container is written to under the
tag that it has, freed, or made under the next tag.
-/
class StepRelation (R : Store → Store → Prop) : Prop where
  trans : ∀ {s t u}, R s t → R t u → R s u
  same : ∀ {s s' : Store}, s'.heap = s.heap → s'.agenda = s.agenda → R s s'
  strings : ∀ (s : Store) (strings : Slab StringEntry),
    R s { s with heap := { s.heap with strings } }
  write : ∀ {s : Store} {id : ContainerId} {c c' : Container}, s.container? id = some c →
    c'.tag = c.tag → R s (s.withContainer id c')
  free : ∀ {s : Store} {id : ContainerId} {c : Container}, s.container? id = some c →
    R s { s with heap := { s.heap with containers := s.heap.containers.erase id.slot } }
  make : ∀ {s : Store} {c : Container}, c.tag = s.heap.nextTag →
    R s { s with heap := s.heap.takeTag.2.insert c }

/-- The step leads from any store to one that is related to it. -/
class Respects (R : Store → Store → Prop) {α : Type} (x : StoreM α) : Prop where
  rel : ∀ {s s' : Store} {a : α}, x s = .ok (a, s') → R s s'

/-- The change of a container leaves its tag alone. -/
class KeepsTag (f : Container → Container) : Prop where
  tag : ∀ c, (f c).tag = c.tag

namespace Respects

set_option synthInstance.maxSize 4000

variable {α β : Type} {R : Store → Store → Prop} [StepRelation R]

omit [StepRelation R] in
/-- What a step respects holds between the store before it and the one after it. -/
theorem of {x : StoreM α} [hx : Respects R x] {s s' : Store} {a : α} (h : x s = .ok (a, s')) :
    R s s' := hx.rel h

theorem refl (s : Store) : R s s := StepRelation.same rfl rfl

/-! ## Sequencing -/

instance (a : α) : Respects R (pure a : StoreM α) where
  rel h := by
    rw [(pure_eq_ok.mp h).2]
    exact refl _

instance (f : Fault) : Respects R (StoreM.fault f : StoreM α) where
  rel h := absurd h fault_ne_ok

instance (x : StoreM α) (g : α → StoreM β) [hx : Respects R x] [hg : ∀ a, Respects R (g a)] :
    Respects R (x >>= g) where
  rel h := by
    obtain ⟨a, t, h₁, h₂⟩ := bind_eq_ok.mp h
    exact StepRelation.trans (hx.rel h₁) ((hg a).rel h₂)

instance (p : Prop) [Decidable p] (x y : StoreM α) [hx : Respects R x] [hy : Respects R y] :
    Respects R (if p then x else y) where
  rel h := by
    split at h
    · exact hx.rel h
    · exact hy.rel h

instance (p : Bool) (x : StoreM Unit) [hx : Respects R x] : Respects R (StoreM.when p x) :=
  inferInstanceAs (Respects R (if p then x else pure ()))

instance : Respects R (MonadState.get : StoreM Store) where
  rel h := by
    rw [(get_eq_ok.mp h).2]
    exact refl _

instance (f : Heap → Except Fault α) : Respects R (readHeap f) where
  rel h := by
    rw [(readHeap_eq_ok.mp h).2]
    exact refl _

instance (x : Except Fault α) : Respects R (monadLift x : StoreM α) where
  rel h := by
    rw [(lift_eq_ok.mp h).2]
    exact refl _

instance (f : α → StoreM PUnit) (xs : List α) [hf : ∀ a, Respects R (f a)] :
    Respects R (xs.forM f) := by
  induction xs with
  | nil => exact inferInstanceAs (Respects R (pure _))
  | cons x xs ih => exact inferInstanceAs (Respects R (f x >>= fun _ => xs.forM f))

instance (f : α → StoreM β) (xs : List α) [hf : ∀ a, Respects R (f a)] :
    Respects R (xs.mapM f) where
  rel := by
    induction xs with
    | nil =>
      intro s s' a h
      rw [(mapM_nil_eq_ok.mp h).2]
      exact refl _
    | cons x xs ih =>
      intro s s' a h
      obtain ⟨y, s₁, ys, h₁, h₂, -⟩ := mapM_cons_eq_ok.mp h
      exact StepRelation.trans ((hf x).rel h₁) (ih h₂)

instance (f : α → StoreM Bool) (xs : List α) [hf : ∀ a, Respects R (f a)] :
    Respects R (xs.filterM f) := by
  have haux : ∀ xs acc : List α, Respects R (xs.filterAuxM f acc) := by
    intro xs
    induction xs with
    | nil => exact fun acc => inferInstanceAs (Respects R (pure acc))
    | cons x xs ih =>
      intro acc
      unfold List.filterAuxM
      infer_instance
  unfold List.filterM
  infer_instance

instance (x : ClientM α) (g : α → ClientM β) [hx : Respects R (x : StoreM (Except Refusal α))]
    [hg : ∀ a, Respects R (g a : StoreM (Except Refusal β))] :
    Respects R (x >>= g : ClientM β) where
  rel h := by
    rcases ClientM.bind_eq_ok.mp h with ⟨e, h₁, -⟩ | ⟨a, s₁, h₁, h₂⟩
    · exact hx.rel h₁
    · exact StepRelation.trans (hx.rel h₁) ((hg a).rel h₂)

instance (p : Prop) [Decidable p] (x y : ClientM α)
    [hx : Respects R (x : StoreM (Except Refusal α))]
    [hy : Respects R (y : StoreM (Except Refusal α))] :
    Respects R (if p then x else y : ClientM α) :=
  inferInstanceAs (Respects R (if p then (x : StoreM (Except Refusal α)) else y))

instance (a : α) : Respects R (pure a : ClientM α) :=
  inferInstanceAs (Respects R (pure (.ok a) : StoreM (Except Refusal α)))

instance (r : Refusal) : Respects R (ClientM.refuse r : ClientM α) :=
  inferInstanceAs (Respects R (pure (.error r) : StoreM (Except Refusal α)))

instance (x : StoreM α) [hx : Respects R x] : Respects R (monadLift x : ClientM α) where
  rel h := by
    obtain ⟨a, -, h⟩ := ClientM.lift_eq_ok.mp h
    exact hx.rel h

instance : Respects R (MonadState.get : ClientM Store) where
  rel h := by
    rw [(ClientM.get_eq_ok.mp h).2]
    exact refl _

instance (f : α → ClientM β) (xs : List α)
    [hf : ∀ a, Respects R (f a : StoreM (Except Refusal β))] :
    Respects R (xs.mapM f : ClientM (List β)) := by
  induction xs with
  | nil =>
    rw [List.mapM_nil]
    infer_instance
  | cons x xs ih =>
    rw [List.mapM_cons]
    infer_instance

/-! ## Steps -/

instance (v : Value) : Respects R (scrub v) where
  rel h := by
    rw [(scrub_eq_ok.mp h).2]
    exact refl _

instance (id : ContainerId) : Respects R (container id) := inferInstanceAs (Respects R (readHeap _))

instance (kind : Container → Kind) (elements : Container → Elements)
    (overlay : Container → Option Overlay) (refcount home : Container → Nat)
    (owner : Container → DataspaceId) (prev next : Container → Option ContainerId)
    (scrubEpoch : Container → Nat) (savedSize : Container → Option Nat)
    (sizeReported : Container → Bool) : KeepsTag fun c =>
      { kind := kind c, elements := elements c, overlay := overlay c, refcount := refcount c
        tag := c.tag, home := home c, owner := owner c, prev := prev c, next := next c
        scrubEpoch := scrubEpoch c, savedSize := savedSize c, sizeReported := sizeReported c } :=
  ⟨fun _ => rfl⟩

instance : KeepsTag fun c => c := ⟨fun _ => rfl⟩

instance (p : Container → Prop) [∀ c, Decidable (p c)] (f g : Container → Container)
    [hf : KeepsTag f] [hg : KeepsTag g] : KeepsTag fun c => if p c then f c else g c where
  tag c := by
    split
    · exact hf.tag c
    · exact hg.tag c

instance (id : ContainerId) (f : Container → Container) [hf : KeepsTag f] :
    Respects R (modifyContainer id f) where
  rel h := by
    obtain ⟨c, hc, rfl⟩ := modifyContainer_eq_ok.mp h
    exact StepRelation.write hc (hf.tag c)

instance (id : ContainerId) (f : Array Value → Array Value) : Respects R (modifyValues id f) where
  rel h := by
    obtain ⟨c, values, hc, -, rfl⟩ := modifyValues_eq_ok.mp h
    exact StepRelation.write hc rfl

/-- A change of a dataspace that leaves its callout table alone. -/
theorem modifyDataspace {ds : DataspaceId} {f : Dataspace → Dataspace}
    (hf : ∀ d, (f d).table = d.table) : Respects R (Store.modifyDataspace ds f) where
  rel h := by
    rw [modifyDataspace_eq_ok.mp h]
    exact StepRelation.same rfl (agenda_withDataspace fun d _ => hf d)

/-- A change of the innermost plane that leaves its patches alone. -/
theorem modifyPlane {f : Plane → Plane} (hf : ∀ p, (f p).patches = p.patches) :
    Respects R (Store.modifyPlane f) where
  rel h := by
    rw [modifyPlane_eq_ok.mp h]
    refine StepRelation.same ?_ (agenda_changePlane hf)
    unfold Store.withPlane
    split <;> rfl

instance (id : StringId) : Respects R (updateHeap (·.retainString id)) where
  rel h := by
    obtain ⟨heap, hheap, rfl⟩ := updateHeap_eq_ok.mp h
    obtain ⟨e, -, rfl⟩ := Heap.retainString_eq_ok.mp hheap
    exact StepRelation.strings _ _

instance (id : StringId) : Respects R (updateHeap (·.releaseString id)) where
  rel h := by
    obtain ⟨heap, hheap, rfl⟩ := updateHeap_eq_ok.mp h
    obtain ⟨e, -, rfl⟩ := Heap.releaseString_eq_ok.mp hheap
    split
    · exact StepRelation.strings _ _
    · exact StepRelation.strings _ _

instance (v : Value) : Respects R (retain v) := by
  cases v <;> (unfold retain; infer_instance)

instance (ds : DataspaceId) (prev next : Option ContainerId) :
    Respects R (setNext ds prev next) := by
  cases prev with
  | some prev => exact inferInstanceAs (Respects R (modifyContainer _ _))
  | none => exact modifyDataspace fun _ => rfl

instance (prev next : Option ContainerId) : Respects R (setPrev prev next) := by
  cases next <;> (unfold setPrev; infer_instance)

instance (ds : DataspaceId) (f : Nat → Nat) : Respects R (recount ds f) :=
  modifyDataspace fun _ => rfl

/-- What comes after a quiet step may depend on what the step returned. -/
theorem after {x : StoreM α} {g : α → StoreM β} [Respects R x] (hg : ∀ a, Respects R (g a)) :
    Respects R (x >>= g) := inferInstance

/-- What comes after a quiet step of a request may depend on what the step returned. -/
theorem next {x : ClientM α} {g : α → ClientM β} [Respects R (x : StoreM (Except Refusal α))]
    (hg : ∀ a, Respects R (g a : StoreM (Except Refusal β))) : Respects R (x >>= g : ClientM β) :=
  inferInstance

instance (ds : DataspaceId) (id : ContainerId) : Respects R (link ds id) :=
  after fun s => by split <;> infer_instance

instance (id : ContainerId) : Respects R (unlink id) := by
  unfold unlink
  infer_instance

/-! ## References -/

instance (ds : DataspaceId) (v : Value) : Respects R (addImport ds v) := by
  unfold addImport
  split
  · infer_instance
  · have : ∀ id, Respects R (Store.modifyDataspace ds (·.addImport id)) := fun id =>
      modifyDataspace fun _ => rfl
    infer_instance

instance (ds : DataspaceId) (v : Value) : Respects R (acquire ds v) := by
  unfold acquire
  infer_instance

instance (vs : List Value) : Respects R (copies vs) := by
  unfold copies
  infer_instance

instance (ds : DataspaceId) (v : Value) : Respects R (dropImport ds v) where
  rel h := by
    rcases dropImport_eq_ok h with ⟨rfl, -⟩ | ⟨id, c, d, d', -, -, -, hd, hd', rfl⟩
    · exact refl _
    · refine StepRelation.same rfl (agenda_withDataspace fun e he => ?_)
      obtain rfl := Option.some.inj (hd.symm.trans he)
      exact table_dropImport? hd'

instance (ticket : SwapTicket) : Respects R (loadSwapped ticket) where
  rel h := by
    cases h
    exact StepRelation.same rfl rfl

instance (c : Container) : Respects R (takeElements c) := by
  unfold takeElements
  split <;> infer_instance

instance (id : ContainerId) : Respects R (strike id) where
  rel h := by
    rw [modify_eq_ok.mp h]
    refine StepRelation.same rfl ?_
    show Agenda.mk _ (List.map Plane.patches (List.map _ _)) _ = _
    rw [List.map_map]
    rfl

instance (id : ContainerId) : Respects R (vacate id) where
  rel h := by
    obtain ⟨⟨c, heap⟩, hremove, h⟩ := Fallible.bind_eq_ok.mp h
    obtain ⟨rfl, rfl⟩ := Prod.mk.inj (Fallible.pure_eq_ok.mp h)
    obtain ⟨hc, rfl⟩ := Heap.remove_eq_ok.mp hremove
    exact StepRelation.free hc

instance (id : ContainerId) : Respects R (freeContainer id) := by
  unfold freeContainer
  infer_instance

instance (v : Value) : Respects R (dropReference v) := by
  cases v <;> (unfold dropReference; infer_instance)

instance (work : List Value) : Respects R (drain work) where
  rel {s s' u} h := by
    replace h := drain_eq_ok h
    induction h with
    | done => exact refl _
    | drop hd _ ih => exact StepRelation.trans (of hd) ih

instance (vs : List Value) : Respects R (releaseAll vs) := inferInstanceAs (Respects R (drain _))

instance (v : Value) : Respects R (release v) := by
  unfold release
  infer_instance

instance (ds : DataspaceId) (vs : List Value) : Respects R (relinquish ds vs) := by
  unfold relinquish
  infer_instance

/-! ## Residency and mappings -/

instance (id : ContainerId) : Respects R (faultIn id) :=
  after fun c => by split <;> infer_instance

instance (id : ContainerId) : Respects R (residentValues id) :=
  inferInstanceAs (Respects R (readHeap _))

instance (v : Value) : Respects R (isDead v) := by
  unfold isDead
  infer_instance

instance (id : ContainerId) : Respects R (scrubElements id) := by
  unfold scrubElements
  infer_instance

instance (id : ContainerId) : Respects R (reportSizeChange id) := by
  have : Respects R
      (modify fun s => { s with swap := s.swap.markSizeChanged id } : StoreM PUnit) := by
    refine ⟨fun h => ?_⟩
    rw [modify_eq_ok.mp h]
    exact StepRelation.same rfl rfl
  unfold reportSizeChange
  infer_instance

instance (v : Value) : Respects R (Mapping.require v : ClientM ContainerId) := by
  unfold Mapping.require
  split <;> infer_instance

instance (id : ContainerId) (hash : UInt32) (key : Value) :
    Respects R (Mapping.locate id hash key) :=
  inferInstanceAs (Respects R (readHeap _))

instance (id : ContainerId) (key : Value) : Respects R (Mapping.lookup id key) :=
  inferInstanceAs (Respects R (readHeap _))

instance (id : ContainerId) : Respects R (Mapping.absorbOverlay id) :=
  after fun c => by split <;> infer_instance

instance (p : Pair) : Respects R (Mapping.isLivePair p) := by
  unfold Mapping.isLivePair
  infer_instance

instance (id : ContainerId) : Respects R (Mapping.dropDeadPairs id) := by
  unfold Mapping.dropDeadPairs
  infer_instance

instance (id : ContainerId) (compact : Bool) : Respects R (Mapping.mergeOverlay id compact) := by
  unfold Mapping.mergeOverlay
  infer_instance

instance (map : Value) (compact : Bool) :
    Respects R (Mapping.merge map compact : ClientM Unit) := by
  unfold Mapping.merge
  infer_instance

instance (map : Value) : Respects R (Mapping.size map : ClientM Nat) := by
  unfold Mapping.size
  infer_instance

instance (map key : Value) : Respects R (Mapping.get map key : ClientM Value) := by
  unfold Mapping.get
  infer_instance

instance (map key : Value) : Respects R (Mapping.contains map key : ClientM Bool) := by
  unfold Mapping.contains
  infer_instance

/-! ## Creation -/

instance (ds : DataspaceId) : Respects R (requireDataspace ds : ClientM Dataspace) :=
  next fun s => by split <;> infer_instance

instance (n : Nat) : Respects R (requireRoom n : ClientM Unit) := by
  unfold requireRoom
  infer_instance

instance (owner : DataspaceId) (kind : Kind) (vs : List Value) :
    Respects R (install owner kind vs) where
  rel h := by
    cases modifyGet_eq_ok.mp h
    exact StepRelation.make rfl

instance (owner : DataspaceId) (kind : Kind) (vs : List Value) :
    Respects R (allocate owner kind vs) := by
  have : ∀ id,
      Respects R (Store.modifyPlane fun p => { p with census := p.census.insert id .fresh }) :=
    fun id => modifyPlane fun _ => rfl
  unfold allocate
  infer_instance

instance (source : ContainerId) (kind : Kind) (vs : List Value) :
    Respects R (derive source kind vs : ClientM Value) := by
  unfold derive
  infer_instance

instance (text : String) : Respects R (createString text) where
  rel h := by
    cases modifyGet_eq_ok.mp h
    exact StepRelation.strings _ _

instance (ds : DataspaceId) (n : Nat) : Respects R (createArray ds n : ClientM Value) := by
  unfold createArray
  infer_instance

instance (ds : DataspaceId) (n : Nat) : Respects R (createMapping ds n : ClientM Value) := by
  unfold createMapping
  infer_instance

instance (ds : DataspaceId) (cls : ObjectRef) (n : Nat) :
    Respects R (createRecord ds cls n : ClientM Value) := by
  unfold createRecord
  infer_instance

instance (ds : DataspaceId) (vs : List Value) :
    Respects R (createArrayOf ds vs : ClientM Value) := by
  unfold createArrayOf
  infer_instance

instance (kind : Kind) (vs : List Value) : Respects R (restoredElements kind vs) := by
  unfold restoredElements
  split <;> infer_instance

/-! ## Assignment -/

instance (id : ContainerId) : Respects R (backUp id) := by
  have : ∀ b : Backup, Respects R (Store.modifyPlane (·.file b)) :=
    fun b => modifyPlane fun _ => rfl
  unfold backUp
  infer_instance

instance (id : ContainerId) : Respects R (makeWritable id) := by
  unfold makeWritable
  infer_instance

instance (id : ContainerId) (i : Nat) (v : Value) : Respects R (exchange id i v) :=
  after fun values => by split <;> infer_instance

instance (id : ContainerId) (e : OverlayEntry) : Respects R (Mapping.park id e) := by
  unfold Mapping.park
  infer_instance

instance (id : ContainerId) (i : Nat) : Respects R (Mapping.overlayOf id i) :=
  after fun c => by split <;> infer_instance

instance (id : ContainerId) (i : Nat) (v : Value) :
    Respects R (Mapping.exchangePending id i v) := by
  unfold Mapping.exchangePending
  infer_instance

instance (id : ContainerId) (i : Nat) : Respects R (Mapping.takePending id i) := by
  unfold Mapping.takePending
  infer_instance

instance (id : ContainerId) (key value : Value) : Respects R (Mapping.write id key value) :=
  after fun c => after fun hash => after fun w => after fun _ => by split <;> infer_instance

instance (id : ContainerId) (owner : DataspaceId) (i : Option Nat) :
    Respects R (Mapping.deleteSorted id owner i) := by
  cases i <;> (unfold Mapping.deleteSorted; infer_instance)

instance (id : ContainerId) (key : Value) : Respects R (Mapping.delete id key) :=
  after fun c => after fun hash => after fun w => by split <;> infer_instance

instance (id : ContainerId) (key value : Value) : Respects R (Mapping.change id key value) := by
  unfold Mapping.change
  infer_instance

instance (id : ContainerId) (present : Bool) :
    Respects R (Mapping.requireGrowth id present : ClientM Unit) := by
  unfold Mapping.requireGrowth
  infer_instance

instance (id : ContainerId) (key value : Value) :
    Respects R (Mapping.assign id key value : ClientM Unit) := by
  unfold Mapping.assign
  infer_instance

/-! ## Looking -/

instance (v : Value) (expected : String) :
    Respects R (requireContainer v expected : ClientM ContainerId) := by
  unfold requireContainer
  split <;> infer_instance

instance (v : Value) : Respects R (stringText v : ClientM String) := by
  unfold stringText
  split
  · have : ∀ id, Respects R (textOf id) := fun id => inferInstanceAs (Respects R (readHeap _))
    infer_instance
  · infer_instance

instance (v : Value) : Respects R (inspect v : ClientM Container) := by
  unfold inspect
  infer_instance

instance (v : Value) : Respects R (recordClass v : ClientM ObjectRef) :=
  next fun id => next fun c => by split <;> infer_instance

instance (v : Value) : Respects R (Store.size v : ClientM Nat) := by
  unfold Store.size
  infer_instance

instance (id : ContainerId) (shape : Shape) : Respects R (refresh id shape) := by
  unfold refresh
  split <;> infer_instance

instance (shape : Shape) (id : ContainerId) : Respects R (elementsOf shape id) := by
  unfold elementsOf
  infer_instance

instance (v : Value) : Respects R (elements v : ClientM (Array Value)) := by
  unfold elements
  split <;> infer_instance

instance (x y : ContainerId) : Respects R (sameKind x y) :=
  inferInstanceAs (Respects R (readHeap _))

instance (n : Nat) (seen : List (ContainerId × ContainerId)) (work : List (Value × Value)) :
    Respects R (allEqual n seen work) := by
  induction n using Nat.strongRecOn generalizing seen work with
  | ind n ihn =>
    induction work generalizing seen with
    | nil =>
      rw [allEqual]
      infer_instance
    | cons p work ih =>
      obtain ⟨x, y⟩ := p
      rw [allEqual.eq_def]
      cases x with
      | container shape x =>
        cases y with
        | container shape' y =>
          cases n with
          | zero => infer_instance
          | succ n =>
            have := ihn n (Nat.lt_succ_self n)
            infer_instance
        | _ => infer_instance
      | _ => cases y <;> infer_instance

instance (x y : Value) : Respects R (deepEqual x y) := by
  unfold deepEqual
  infer_instance

instance (f : Store → α) : Respects R (ask f : ClientM α) := by
  unfold ask
  infer_instance

instance (f : Store → Except Fault α) : Respects R (askM f : ClientM α) where
  rel h := by
    obtain ⟨a, -, h⟩ := ClientM.lift_eq_ok.mp h
    obtain ⟨b, -, h⟩ := Fallible.bind_eq_ok.mp h
    cases h
    exact refl _

instance (ds : DataspaceId) : Respects R (dataspaceInfo ds : ClientM DataspaceInfo) := by
  unfold dataspaceInfo
  infer_instance

instance (f : Objects → α × Objects) : Respects R (modifyObjects f : ClientM α) where
  rel h := by
    obtain ⟨a, -, h⟩ := ClientM.lift_eq_ok.mp h
    cases modifyGet_eq_ok.mp h
    exact StepRelation.same rfl rfl

instance (v : Value) : Respects R (prepare v : ClientM Unit) := by
  unfold prepare
  infer_instance

/-! ## Sequences and operations on mappings -/

instance (id : ContainerId) (key : Value) :
    Respects R (Sequence.requireIndex id key : ClientM Nat) := by
  unfold Sequence.requireIndex
  split <;> infer_instance

instance (id : ContainerId) (i : Nat) : Respects R (Sequence.element id i) :=
  after fun values => by split <;> infer_instance

instance (v key : Value) : Respects R (Sequence.indexGet v key : ClientM Value) := by
  unfold Sequence.indexGet
  split <;> infer_instance

instance (id : ContainerId) (i : Nat) (v : Value) : Respects R (Sequence.put id i v) := by
  unfold Sequence.put
  infer_instance

instance (v key value : Value) : Respects R (Sequence.assign v key value : ClientM Unit) := by
  unfold Sequence.assign
  split <;> infer_instance

instance (v : Value) : Respects R (Sequence.operand v : ClientM (ContainerId × Array Value)) := by
  unfold Sequence.operand
  split <;> infer_instance

instance (values : Array Value) : Respects R (Sequence.sorted values) :=
  inferInstanceAs (Respects R (readHeap _))

instance (v : Value) : Respects R (Sequence.sortedOperand v : ClientM (Array Value)) := by
  unfold Sequence.sortedOperand
  infer_instance

instance (values : List Value) (among : Array Value) (keep : Bool) :
    Respects R (Sequence.members values among keep) := inferInstanceAs (Respects R (readHeap _))

instance (left right : Array Value) : Respects R (Sequence.missing left right) := by
  unfold Sequence.missing
  infer_instance

instance (v : Value) (lo hi : Int) : Respects R (Sequence.range v lo hi : ClientM Value) := by
  unfold Sequence.range
  infer_instance

instance (a b : Value) : Respects R (Sequence.concat a b : ClientM Value) := by
  unfold Sequence.concat
  infer_instance

instance (a b : Value) (keep : Bool) : Respects R (Sequence.restrict a b keep : ClientM Value) := by
  unfold Sequence.restrict
  infer_instance

instance (a b : Value) : Respects R (Sequence.union a b : ClientM Value) := by
  unfold Sequence.union
  infer_instance

instance (a b : Value) : Respects R (Sequence.symmetricDifference a b : ClientM Value) := by
  unfold Sequence.symmetricDifference
  infer_instance

instance (map : Value) :
    Respects R (Mapping.operand map : ClientM (ContainerId × Array Value)) := by
  unfold Mapping.operand
  infer_instance

instance (buffer : Array Value) (test : Heap → Value → Except Fault Bool) :
    Respects R (Mapping.selectPairs buffer test) := inferInstanceAs (Respects R (readHeap _))

instance (left right : Array Value) : Respects R (Mapping.overridden left right) :=
  inferInstanceAs (Respects R (readHeap _))

instance (map : Value) : Respects R (Mapping.indices map : ClientM Value) := by
  unfold Mapping.indices
  infer_instance

instance (map : Value) : Respects R (Mapping.values map : ClientM Value) := by
  unfold Mapping.values
  infer_instance

instance (map lo hi : Value) : Respects R (Mapping.range map lo hi : ClientM Value) := by
  unfold Mapping.range
  infer_instance

instance (a b : Value) : Respects R (Mapping.concat a b : ClientM Value) := by
  unfold Mapping.concat
  infer_instance

instance (map keys : Value) (keep : Bool) :
    Respects R (Mapping.restrict map keys keep : ClientM Value) := by
  unfold Mapping.restrict
  infer_instance

instance (a b : Value) : Respects R (Sequence.subtract a b : ClientM Value) :=
  inferInstanceAs (Respects R (Sequence.restrict a b false : ClientM Value))

instance (a b : Value) : Respects R (Sequence.intersect a b : ClientM Value) :=
  inferInstanceAs (Respects R (Sequence.restrict a b true : ClientM Value))

instance (map keys : Value) : Respects R (Mapping.subtract map keys : ClientM Value) :=
  inferInstanceAs (Respects R (Mapping.restrict map keys false : ClientM Value))

instance (map keys : Value) : Respects R (Mapping.intersect map keys : ClientM Value) :=
  inferInstanceAs (Respects R (Mapping.restrict map keys true : ClientM Value))

/-! ## Variables and calls -/

instance (ref : VariableRef) : Respects R (requireVariable ref : ClientM Value) :=
  next fun d => by split <;> infer_instance

instance (ref : VariableRef) : Respects R (variableValue ref : ClientM Value) := by
  unfold variableValue
  infer_instance

instance (ref : VariableRef) (old : Value) : Respects R (saveVariable ref old) := by
  have : Respects R
      (Store.modifyPlane fun p => { p with savedVars := p.savedVars.insert ref old }) :=
    modifyPlane fun _ => rfl
  exact after fun s => by split <;> infer_instance

instance (ref : VariableRef) (v : Value) : Respects R (assignVariable ref v : ClientM Unit) := by
  have : ∀ w, Respects R (Store.modifyDataspace ref.dataspace fun d =>
      { d with vars := d.vars.setIfInBounds ref.slot w }) := fun w => modifyDataspace fun _ => rfl
  unfold assignVariable
  infer_instance

instance (call : CallRef) : Respects R (requireCall call : ClientM DeferredCall) :=
  next fun d => by split <;> infer_instance

instance (ds : DataspaceId) :
    Respects R (calls ds : ClientM (List (CallHandle × DeferredCall))) := by
  unfold calls
  infer_instance

/-! ## Eviction -/

instance (values : Array Value) : Respects R (storeSwapped values) where
  rel h := by
    cases modifyGet_eq_ok.mp h
    exact StepRelation.same rfl rfl

instance (id : ContainerId) : Respects R (evictOne id) := by
  unfold evictOne
  infer_instance

instance : Respects R (requireRoot : ClientM Unit) := by
  unfold requireRoot
  infer_instance

instance (v : Value) : Respects R (evictContainer v : ClientM Bool) := by
  unfold evictContainer
  infer_instance

instance (ds : DataspaceId) (id : ContainerId) : Respects R (transfer ds id) := by
  have : Respects R (Store.modifyDataspace ds fun d => { d with imports := d.imports.erase id }) :=
    modifyDataspace fun _ => rfl
  unfold transfer
  infer_instance

instance (ds : DataspaceId) : Respects R (exclusiveImports ds) := by
  unfold exclusiveImports
  infer_instance

instance (ds : DataspaceId) (n : Nat) : Respects R (transferExclusive ds n) := by
  induction n with
  | zero => exact inferInstanceAs (Respects R (pure 0))
  | succ n ih =>
    unfold transferExclusive
    infer_instance

instance (n : Nat) (cursor : Option ContainerId) : Respects R (evictList n cursor) := by
  induction n generalizing cursor with
  | zero =>
    rw [evictList]
    infer_instance
  | succ n ih =>
    cases cursor with
    | none => exact inferInstanceAs (Respects R (pure 0))
    | some id =>
      unfold evictList
      infer_instance

instance (ds : DataspaceId) : Respects R (evictDataspace ds : ClientM EvictionReport) := by
  unfold evictDataspace
  infer_instance

/-! ## What planes leave behind, but for patches -/

instance (n : Nat) (b : Backup) : Respects R (refile n b) := by
  have : Respects R (Store.modifyPlane (·.file b)) := modifyPlane fun _ => rfl
  exact after fun s => by split <;> infer_instance

instance (n : Nat) (id : ContainerId) : Respects R (settle n id) := by
  have : Respects R (Store.modifyPlane (·.adopt id)) := modifyPlane fun _ => rfl
  unfold settle
  infer_instance

instance (ref : VariableRef) (v : Value) : Respects R (resave ref v) := by
  have : Respects R (Store.modifyPlane fun p => { p with savedVars := p.savedVars.insert ref v }) :=
    modifyPlane fun _ => rfl
  exact after fun s => by split <;> infer_instance

instance (b : Backup) : Respects R (restoreBackup b) where
  rel h := by
    obtain ⟨_, s₁, h₁, h⟩ := bind_eq_ok.mp h
    obtain ⟨c, s₂, h₂, h⟩ := bind_eq_ok.mp h
    obtain ⟨hc, rfl⟩ := container_eq_ok.mp h₂
    obtain ⟨values, s₃, h₃, h⟩ := bind_eq_ok.mp h
    obtain ⟨-, rfl⟩ := lift_eq_ok.mp h₃
    refine StepRelation.trans (of h₁) ?_
    split at h
    · exact of h
    · obtain ⟨_, s₄, h₄, h⟩ := bind_eq_ok.mp h
      -- The container that is written back is the one that was read, but for its elements.
      obtain ⟨c', hc', rfl⟩ := modifyContainer_eq_ok.mp h₄
      obtain rfl := Option.some.inj (hc.symm.trans hc')
      refine StepRelation.trans ?_ (of h)
      exact StepRelation.write hc rfl

instance (ref : VariableRef) (v : Value) : Respects R (restoreVariable ref v) := by
  have : Respects R (Store.modifyDataspace ref.dataspace fun d =>
      { d with vars := d.vars.setIfInBounds ref.slot v }) := modifyDataspace fun _ => rfl
  exact after fun _ => after fun s => by split <;> infer_instance

end Respects

/-- The one request that writes a tag: it says which one the new container gets. -/
def Operation.Restores (op : Operation) : Prop := ∃ ds kind tag vs, op = .restore ds kind tag vs

/-! ## The agenda -/

/-- Nothing has happened to deferred calls. -/
def Store.SameAgenda (s s' : Store) : Prop := s'.agenda = s.agenda

instance : StepRelation SameAgenda where
  trans h h' := Eq.trans h' h
  same _ ha := ha
  strings _ _ := rfl
  write _ _ := rfl
  free _ := rfl
  make _ := rfl

/-- The step leaves the agenda as it was. -/
abbrev Quiet {α : Type} (x : StoreM α) : Prop := Respects SameAgenda x

/-- After a quiet step the scheduler and all callout tables are as they were. -/
theorem Quiet.eq {α : Type} {x : StoreM α} [hx : Quiet x] {s s' : Store} {a : α}
    (h : x s = .ok (a, s')) : s'.agenda = s.agenda := hx.rel h

instance (f : Heap → Except Fault Heap) : Quiet (updateHeap f) where
  rel h := by
    obtain ⟨heap, -, rfl⟩ := updateHeap_eq_ok.mp h
    exact rfl

set_option synthInstance.maxSize 4000 in
instance (ds : DataspaceId) (kind : Kind) (tag : Nat) (vs : List Value) :
    Quiet (restore ds kind tag vs : ClientM Value) := by
  have : ∀ id, Quiet (modifyContainer id fun c => { c with tag }) := fun id =>
    inferInstanceAs (Quiet (updateHeap _))
  unfold restore
  infer_instance

end PlaneStore
