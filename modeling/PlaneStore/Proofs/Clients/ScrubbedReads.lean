import PlaneStore.Proofs.Contents.ContainerAnswers
import PlaneStore.Proofs.Eviction.SizeNotes
import PlaneStore.Proofs.Accounts.RespectedRelations
import PlaneStore.Proofs.Clients.FiniteMappings

/-!
# Scrubbing once for each epoch is enough

What was scrubbed in the current epoch refers to nothing that is destroyed. So whatever is read out
of a container or variable, and whatever a new container holds, is seen as it is.
-/

namespace PlaneStore

open Store

/-! ## Answers that are made by a last step -/

/-- Whatever a request answers, it and the store after it are as said. -/
def Yields {α : Type} (P : α → Store → Prop) (x : ClientM α) : Prop :=
  ∀ s a s', x s = .ok (.ok a, s') → P a s'

/-- Whatever a request answers in a store as said, it and the store after it are as said. -/
def YieldsFrom {α : Type} (Pre : Store → Prop) (P : α → Store → Prop) (x : ClientM α) : Prop :=
  ∀ s a s', Pre s → x s = .ok (.ok a, s') → P a s'

/-- What is so before a step is so after it. -/
def Store.Preserves (Pre : Store → Prop) (s s' : Store) : Prop := Pre s → Pre s'

instance : StepRelation (Preserves fun _ => True) where
  trans _ _ _ := trivial
  same _ _ _ := trivial
  strings _ _ _ := trivial
  write _ _ _ := trivial
  free _ _ := trivial
  make _ _ := trivial

namespace YieldsFrom

variable {α β : Type} {Pre : Store → Prop} {P : β → Store → Prop}

theorem bind {x : ClientM α} {f : α → ClientM β}
    [hx : Respects (Preserves Pre) (x : StoreM (Except Refusal α))]
    (hf : ∀ a, YieldsFrom Pre P (f a)) : YieldsFrom Pre P (x >>= f) := by
  intro s b s' hs h
  rcases ClientM.bind_eq_ok.mp h with ⟨e, -, he⟩ | ⟨a, t, h₁, h⟩
  · cases he
  · exact hf a t b s' (hx.rel h₁ hs) h

theorem ite {p : Prop} [Decidable p] {x y : ClientM β} (hx : YieldsFrom Pre P x)
    (hy : YieldsFrom Pre P y) : YieldsFrom Pre P (if p then x else y) := by
  split
  · exact hx
  · exact hy

theorem refuse {e : Refusal} : YieldsFrom Pre P (ClientM.refuse e : ClientM β) := by
  intro s b s' _ h
  cases (ClientM.refuse_eq_ok.mp h).1

/-- What is answered as a value is what the store returned. -/
theorem of_answer {P : Value → Store → Prop} {x : ClientM Value} (hx : YieldsFrom Pre P x)
    {v : Value} {s s' : Store} (hs : Pre s)
    (h : (x >>= fun v => pure (Answer.value v)) s = .ok (.ok (.value v), s')) : P v s' := by
  obtain ⟨r, h, hr⟩ := ClientM.bind_pure_eq_ok.mp h
  cases r with
  | error e => cases hr
  | ok w =>
    obtain rfl := Answer.value.inj (Except.ok.inj hr)
    exact hx s v s' hs h

end YieldsFrom

namespace Store

/-- What is in a slot is as good as new: scrubbed in the current epoch, and never evicted. -/
def Pristine (s : Store) (id : ContainerId) : Prop :=
  ∀ c, s.container? id = some c → c.scrubEpoch = s.objects.epoch ∧ c.note = (none, false)

/-- A reference to a container that is as good as new. -/
def Made (v : Value) (s : Store) : Prop := ∃ shape id, v = .container shape id ∧ s.Pristine id

theorem Pristine.recent {s : Store} {id : ContainerId} (h : s.Pristine id) : s.Recent id :=
  fun c hc => (h c hc).1

theorem Pristine.of_wanes {s s' : Store} {id : ContainerId} (h : s.Pristine id) (hw : Wanes s s') :
    s'.Pristine id := by
  intro c' hc'
  obtain ⟨c, hc, hcore⟩ := hw.container id c' hc'
  rw [Container.scrubEpoch_of_core hcore, Container.note_of_core hcore, hw.objects]
  exact h c hc

theorem Pristine.withContainer {s : Store} {id : ContainerId} {c d : Container} (h : s.Pristine id)
    (hc : s.container? id = some c) (he : d.scrubEpoch = c.scrubEpoch) (hn : d.note = c.note) :
    (s.withContainer id d).Pristine id := by
  intro d' hd'
  rw [container?_withContainer_self hc] at hd'
  obtain rfl := Option.some.inj hd'
  rw [he, hn]
  exact h c hc

/-- A container that was just installed is not stale. -/
theorem pristine_install {owner : DataspaceId} {kind : Kind} {values : List Value}
    {id : ContainerId}
    {s s' : Store} (h : install owner kind values s = .ok (id, s')) : s'.Pristine id := by
  obtain ⟨rfl, rfl⟩ := Prod.mk.inj (StoreM.modifyGet_eq_ok.mp h)
  intro c hc
  rw [Slab.eq_of_get?_insert hc]
  exact ⟨rfl, rfl⟩

theorem Pristine.link {ds : DataspaceId} {id : ContainerId} {u : Unit} {s s' : Store}
    (hs : s.Pristine id) (h : link ds id s = .ok (u, s')) : s'.Pristine id := by
  obtain ⟨d, c, s₁, s₂, -, h₁, hc, -, -⟩ := link_eq_ok h
  obtain rfl : s₁ = s.withDataspace ds _ := StoreM.modifyDataspace_eq_ok.mp h₁
  change s.container? id = some c at hc
  have howned : (s.withContainer id { c with owner := ds }).Pristine id :=
    hs.withContainer hc rfl rfl
  exact howned.of_wanes (alike_link hc h).wanes

/-- A container that was just allocated is not stale. -/
theorem pristine_allocate {owner : DataspaceId} {kind : Kind} {values : List Value}
    {id : ContainerId}
    {s s' : Store} (h : allocate owner kind values s = .ok (id, s')) : s'.Pristine id := by
  obtain ⟨s₁, s₂, s₃, -, h₂, h₃, rfl⟩ := allocate_eq_ok h
  intro c hc
  rw [container?_withPlane] at hc
  rw [(withPlane_fields _ _).2.2.2]
  exact (pristine_install h₂).link h₃ c hc

end Store

/-! ## Containers that are made last -/

/-- What is said of an answer and a store holds of a container once it is allocated or restored. -/
structure OfNew (P : Value → Store → Prop) : Prop where
  /-- It holds of a container that is allocated last. -/
  allocated : ∀ {owner kind values} {f : ContainerId → Value},
    (∀ id, ∃ shape, f id = .container shape id) →
      Yields P (do return f (← allocate owner kind values))
  /-- It holds of a container that is allocated last, and then given its tag. -/
  restored : ∀ {owner : DataspaceId} {kind : Kind} {tag : Nat} {values : List Value}, Yields P (do
    let id ← allocate owner kind values
    modifyContainer id fun c => { c with tag }
    updateHeap fun h => .ok (h.observeTag tag)
    return .ofContainer kind id)

theorem ofNew_made : OfNew Made where
  allocated := by
    intro owner kind values f hf s v s' h
    obtain ⟨id, t, h₁, h⟩ := ClientM.lift_bind_eq_ok.mp h
    obtain ⟨hv, rfl⟩ := ClientM.pure_eq_ok.mp h
    obtain ⟨shape, hshape⟩ := hf id
    exact ⟨shape, id, (Except.ok.inj hv).trans hshape, pristine_allocate h₁⟩
  restored := by
    intro owner kind tag values s v s' h
    obtain ⟨id, t, c, h₁, hc, hv, rfl⟩ := allocate_retag_eq_ok h
    exact ⟨kind.shape, id, Except.ok.inj hv, (pristine_allocate h₁).withContainer hc rfl rfl⟩

/-- What is said of an answer and a store holds of a container that is allocated last. -/
def OfAllocated (Pre : Store → Prop) (P : Value → Store → Prop) : Prop :=
  ∀ {owner kind values} {f : ContainerId → Value}, (∀ id, ∃ shape, f id = .container shape id) →
    YieldsFrom Pre P (do return f (← allocate owner kind values))

/-- What is said of an answer and a store holds of a container that is restored. -/
def OfRestored (Pre : Store → Prop) (P : Value → Store → Prop) : Prop :=
  ∀ {owner : DataspaceId} {kind : Kind} {tag : Nat} {values : List Value}, YieldsFrom Pre P (do
    let id ← allocate owner kind values
    modifyContainer id fun c => { c with tag }
    updateHeap fun h => .ok (h.observeTag tag)
    return .ofContainer kind id)

theorem OfNew.ofAllocated {P : Value → Store → Prop} (hP : OfNew P) :
    OfAllocated (fun _ => True) P :=
  fun hf s a s' _ h => hP.allocated hf s a s' h

theorem OfNew.ofRestored {P : Value → Store → Prop} (hP : OfNew P) :
    OfRestored (fun _ => True) P :=
  fun s a s' _ h => hP.restored s a s' h

section

variable {Pre : Store → Prop} {P : Value → Store → Prop} [StepRelation (Preserves Pre)]

theorem OfAllocated.derived (hP : OfAllocated Pre P) {source : ContainerId} {kind : Kind}
    {values : List Value} : YieldsFrom Pre P (derive source kind values) :=
  .bind fun _ => .bind fun _ => .bind fun _ => hP fun _ => ⟨kind.shape, rfl⟩

end

namespace Operation

/-- The requests that make a container of what others hold, or of what they pass. -/
inductive Builds : Operation → Prop
  | arrayOf (ds : DataspaceId) (vs : List Value) : Builds (.createArrayOf ds vs)
  | restore (ds : DataspaceId) (kind : Kind) (tag : Nat) (vs : List Value) :
    Builds (.restore ds kind tag vs)
  | concat (a b : Value) : Builds (.concat a b)
  | subtract (a b : Value) : Builds (.subtract a b)
  | intersect (a b : Value) : Builds (.intersect a b)
  | union (a b : Value) : Builds (.union a b)
  | symmetricDifference (a b : Value) : Builds (.symmetricDifference a b)
  | range (a : Value) (lo hi : Int) : Builds (.range a lo hi)
  | mapIndices (m : Value) : Builds (.mapIndices m)
  | mapValues (m : Value) : Builds (.mapValues m)
  | mapRange (m lo hi : Value) : Builds (.mapRange m lo hi)
  | mapConcat (a b : Value) : Builds (.mapConcat a b)
  | mapSubtract (m keys : Value) : Builds (.mapSubtract m keys)
  | mapIntersect (m keys : Value) : Builds (.mapIntersect m keys)

section

variable {Pre : Store → Prop} {P : Value → Store → Prop} [StepRelation (Preserves Pre)]
  {op : Operation} {v : Value} {s s' : Store}

theorem Builds.yieldsFrom (hP : OfAllocated Pre P) (hrest : op.Restores → OfRestored Pre P)
    (hop : op.Builds) (hs : Pre s) (h : s.perform op = .ok (.ok (.value v), s')) : P v s' := by
  cases hop with
  | arrayOf ds vs =>
    refine YieldsFrom.of_answer ?_ hs h
    exact .bind fun _ => .bind fun _ => .bind fun _ => hP fun _ => ⟨.array, rfl⟩
  | restore ds kind tag vs =>
    exact YieldsFrom.of_answer (.bind fun _ => .ite .refuse (.bind fun _ => .bind fun _ =>
      .bind fun _ => hrest ⟨ds, kind, tag, vs, rfl⟩)) hs h
  | mapIndices | mapValues =>
    exact YieldsFrom.of_answer (.bind fun (_, _) => hP.derived) hs h
  | range a lo hi =>
    exact YieldsFrom.of_answer (.bind fun (_, _) => .ite hP.derived .refuse) hs h
  | concat a b =>
    exact YieldsFrom.of_answer (.bind fun (_, _) => .bind fun (_, _) => hP.derived) hs h
  | mapRange m lo hi =>
    exact YieldsFrom.of_answer (.bind fun (_, _) => .bind fun _ => hP.derived) hs h
  | subtract | intersect =>
    exact YieldsFrom.of_answer (.bind fun (_, _) => .bind fun _ => .bind fun _ => hP.derived) hs h
  | symmetricDifference a b =>
    exact YieldsFrom.of_answer (.bind fun (_, _) => .bind fun (_, _) => .bind fun _ =>
      .bind fun _ => .bind fun _ => .bind fun _ => hP.derived) hs h
  | union | mapConcat =>
    exact YieldsFrom.of_answer (.bind fun (_, _) => .bind fun (_, _) =>
      .ite (.bind fun _ => hP.derived) (.bind fun _ => hP.derived)) hs h
  | mapSubtract | mapIntersect =>
    exact YieldsFrom.of_answer (.bind fun (_, _) => .bind fun _ =>
      .ite (.bind fun _ => hP.derived) (.bind fun _ => hP.derived)) hs h

/-- A request for a container makes it last. -/
theorem yieldsFrom_of_creates (hP : OfAllocated Pre P) (hrest : op.Restores → OfRestored Pre P)
    (hop : op.creates = true) (hs : Pre s) (h : s.perform op = .ok (.ok (.value v), s')) :
    P v s' := by
  have hallocate : ∀ {owner kind values n} {f : ContainerId → Value},
      (∀ id, ∃ shape, f id = .container shape id) → YieldsFrom Pre P (do
        let _ ← requireDataspace owner
        requireRoom n
        return f (← allocate owner kind values)) := fun hf =>
    .bind fun _ => .bind fun _ => hP hf
  cases op with
  | createArray ds n => exact (hallocate fun _ => ⟨.array, rfl⟩).of_answer hs h
  | createMapping ds n => exact (hallocate fun _ => ⟨.mapping, rfl⟩).of_answer hs h
  | createRecord ds cls n => exact (hallocate fun _ => ⟨.record, rfl⟩).of_answer hs h
  | createArrayOf ds vs => exact Builds.yieldsFrom hP hrest (.arrayOf ds vs) hs h
  | restore ds kind tag vs => exact Builds.yieldsFrom hP hrest (.restore ds kind tag vs) hs h
  | concat a b => exact Builds.yieldsFrom hP hrest (.concat a b) hs h
  | subtract a b => exact Builds.yieldsFrom hP hrest (.subtract a b) hs h
  | intersect a b => exact Builds.yieldsFrom hP hrest (.intersect a b) hs h
  | union a b => exact Builds.yieldsFrom hP hrest (.union a b) hs h
  | symmetricDifference a b =>
    exact Builds.yieldsFrom hP hrest (.symmetricDifference a b) hs h
  | range a lo hi => exact Builds.yieldsFrom hP hrest (.range a lo hi) hs h
  | mapIndices m => exact Builds.yieldsFrom hP hrest (.mapIndices m) hs h
  | mapValues m => exact Builds.yieldsFrom hP hrest (.mapValues m) hs h
  | mapRange m lo hi => exact Builds.yieldsFrom hP hrest (.mapRange m lo hi) hs h
  | mapConcat a b => exact Builds.yieldsFrom hP hrest (.mapConcat a b) hs h
  | mapSubtract m keys => exact Builds.yieldsFrom hP hrest (.mapSubtract m keys) hs h
  | mapIntersect m keys => exact Builds.yieldsFrom hP hrest (.mapIntersect m keys) hs h
  | _ => cases hop

end

theorem Builds.yields {P : Value → Store → Prop} {op : Operation} {v : Value} {s s' : Store}
    (hP : OfNew P) (hop : op.Builds) (h : s.perform op = .ok (.ok (.value v), s')) : P v s' :=
  hop.yieldsFrom hP.ofAllocated (fun _ => hP.ofRestored) trivial h

/-- What holds of new containers holds of what a request creates. -/
theorem yields_of_creates {P : Value → Store → Prop} {op : Operation} {v : Value} {s s' : Store}
    (hP : OfNew P) (hop : op.creates = true) (h : s.perform op = .ok (.ok (.value v), s')) :
    P v s' :=
  yieldsFrom_of_creates hP.ofAllocated (fun _ => hP.ofRestored) hop trivial h

theorem Builds.settle {op : Operation} {v : Value} (hop : op.Builds) (owned : Refs) :
    op.settle owned (.ok (.value v)) = {v} + owned := by
  cases hop <;> rfl

end Operation

/-! ## Containers that are read -/

section

variable {s s' : Store} {F : Refs} {C : Charges} {q : Option Closing} {id : ContainerId}

theorem Store.lost_seen (s : Store) (v : Value) : s.lost (s.seen v) = false := by
  cases h : s.lost v with
  | true =>
    rw [seen_of_lost h]
    rfl
  | false => rw [seen_of_kept h, h]

/-- Nothing that a recent container holds is lost. -/
theorem Account.Kept.of_recent {a : Account} {c : Container} {values : Array Value} {v : Value}
    (ha : a.Kept) (hrecent : a.store.Recent id) (hc : a.store.container? id = some c)
    (he : c.elements = .resident values) (hv : v ∈ values) : a.store.lost v = false := by
  have hx := content?_of_container hc
  refine (ha.fresh.content hx).alive (hrecent c hc) v (Content.mem_held_of_buffer ?_)
  rw [Container.content_buffer he]
  exact hv

/-- A value that is handed out is not lost if it was not before. -/
theorem Path.lost_handed {a b : Account} {v : Value} (h : Path (· = .still) a b) (ha : a.Kept)
    (hv : b.flight.Covers v) (hlost : a.store.lost v = false) : b.store.lost v = false := by
  rw [(h.stands ha Effect.calm_of_still (Refs.Covers.of_flight hv)).lost
    (h.marks ha Effect.calm_of_still).objects, hlost]

theorem lost_mapGet {v key w : Value} (ha : Account.Kept ⟨s, F, C, q⟩) (hv : F.Covers v)
    (h : Mapping.get v key s = .ok (.ok w, s')) : s'.lost w = false := by
  obtain ⟨id, c, values, t, -, hbefore, -, -, rfl, hafter⟩ := walk_mapGet ha hv h
  refine hafter.lost_handed (hbefore.kept ha) (fun hc => ?_) (t.lost_seen _)
  exact Multiset.mem_add.mpr (.inl (Multiset.mem_singleton_self _))

theorem lost_indexGet {v key w : Value} (ha : Account.Kept ⟨s, F, C, q⟩) (hv : F.Covers v)
    (h : Sequence.indexGet v key s = .ok (.ok w, s')) : s'.lost w = false := by
  cases v with
  | container shape id =>
    by_cases hs : shape = .mapping
    · subst hs
      exact lost_mapGet ha hv h
    obtain ⟨s₁, h₁, hindexed⟩ := Sequence.indexGet_eq_ok hs h
    have hk : ∀ c, s.container? id = some c → c.kind ≠ .mapping :=
      fun c hc => (ha.fits_of_covers hv).not_mapping hc hs
    have ha₁ := (walk_scrubElements (E := fun _ => True) trivial trivial hk h₁).kept ha
    rcases hindexed with ⟨e, -, he, -⟩ | ⟨i, x, -, h₂, hw, h₃⟩
    · cases he
    obtain rfl := Except.ok.inj hw
    obtain ⟨-, c, values, hc, he, hi⟩ := Sequence.element_eq_ok h₂
    have hx := Array.mem_of_getElem? hi
    have hlost := ha₁.of_recent (recent_scrubElements ha hk h₁) hc he hx
    refine (walk_retain (E := (· = .still)) (F := F) (C := C) (q := q) rfl
      (ha₁.fits_of_values hc he _ hx) h₃).lost_handed ha₁ (fun _ => ?_) hlost
    exact Multiset.mem_add.mpr (.inl (Multiset.mem_singleton_self _))
  | _ => cases (ClientM.refuse_eq_ok.mp h).1

/-- The elements of an array or record are listed without what is lost. -/
theorem lost_elements {v : Value} {values : Array Value} (ha : Account.Kept ⟨s, F, C, q⟩)
    (hv : F.Covers v) (hm : ∀ id, v ≠ .container .mapping id)
    (h : elements v s = .ok (.ok values, s')) : ∀ w ∈ values, s'.lost w = false := by
  cases v with
  | container shape id =>
    obtain ⟨values', hr, h⟩ := ClientM.lift_eq_ok.mp h
    obtain rfl := Except.ok.inj hr
    have hs : shape ≠ .mapping := by
      rintro rfl
      exact hm id rfl
    obtain ⟨_, s₁, h₁, h⟩ := StoreM.bind_eq_ok.mp h
    obtain ⟨⟨c, hc, he⟩, rfl⟩ := StoreM.residentValues_eq_ok.mp h
    have h₁ : scrubElements id s = .ok ((), s₁) := by
      cases shape with
      | mapping => exact absurd rfl hs
      | array | record => exact h₁
    have hk : ∀ c, s.container? id = some c → c.kind ≠ .mapping :=
      fun c hc => (ha.fits_of_covers hv).not_mapping hc hs
    have ha₁ := (walk_scrubElements (E := fun _ => True) trivial trivial hk h₁).kept ha
    exact fun w hw => ha₁.of_recent (recent_scrubElements ha hk h₁) hc he hw
  | _ => cases (ClientM.refuse_eq_ok.mp h).1

theorem lost_variableValue {ref : VariableRef} {w : Value} (ha : Account.Kept ⟨s, F, C, q⟩)
    (h : variableValue ref s = .ok (.ok w, s')) : s'.lost w = false := by
  obtain ⟨v, x, hask, hx, hw, h₁⟩ := (variableValue_eq_ok h).resolve_left fun ⟨_, _, he, _⟩ => by
    cases he
  obtain rfl := (Except.ok.inj hw).trans (scrubbed_eq hx)
  have hfits := (ha.fits (Account.mem_refs_of_store
    (mem_refs_of_variable (askVariable_eq_ok.mp hask)))).seen
  rw [scrubbed_eq hx] at h₁
  refine (walk_retain (E := (· = .still)) (F := F) (C := C) (q := q) rfl hfits h₁).lost_handed ha
    (fun _ => ?_) (s.lost_seen v)
  exact Multiset.mem_add.mpr (.inl (Multiset.mem_singleton_self _))

end

/-! ## What clients get to see -/

namespace Client

variable {limits : Limits} {c : Client}

/--
Scrubbing once for each epoch is sound. Nothing is lost of what a container or backup holds that was
scrubbed in the current epoch. Hence nothing is lost of what is read out of a container or a
variable, of the elements of an array or record, and of what a container holds that was just made.
-/
theorem Reachable.scrubbed_once (h : Reachable limits c) :
    (∀ id x, c.store.content? id = some x → x.scrubEpoch = c.store.objects.epoch →
      ∀ v ∈ x.held, c.store.lost v = false) ∧
    (∀ p ∈ c.store.planes, ∀ b ∈ p.ledger, b.scrubEpoch = c.store.objects.epoch →
      ∀ v ∈ b.elements.toList, c.store.lost v = false) ∧
    (∀ op v c', (∃ key a, op = .indexGet a key ∨ op = .mapGet a key) ∨
      (∃ ref, op = .readVariable ref) →
      c.Requests op (.ok (.value v)) c' → c'.store.lost v = false) ∧
    (∀ v vs c', (∀ id, v ≠ .container .mapping id) →
      c.Requests (.elements v) (.ok (.values vs)) c' → ∀ w ∈ vs, c'.store.lost w = false) ∧
    ∀ op v c', op.Builds → c.Requests op (.ok (.value v)) c' → ∃ shape id x,
      v = .container shape id ∧ c'.store.content? id = some x ∧
        ∀ w ∈ x.held, c'.store.lost w = false := by
  have ha := h.kept
  refine ⟨fun id x hx he => (ha.fresh.content hx).alive he, fun p hp b hb he => ?_,
    fun op v c' hop hr => ?_, fun v vs c' hm hr => ?_, fun op v c' hop hr => ?_⟩
  · have hmem : b ∈ c.account.backups :=
      List.mem_append.mpr (.inr (List.mem_flatMap.mpr ⟨p, hp, hb⟩))
    exact (ha.fresh.backup hmem).alive he
  · have answered : ∀ {x : ClientM Value},
        (x >>= fun v => pure (Answer.value v)) c.store = .ok (.ok (.value v), c'.store) →
          x c.store = .ok (.ok v, c'.store) := by
      intro x hx
      obtain ⟨r, hx, hr⟩ := ClientM.bind_pure_eq_ok.mp hx
      cases r with
      | error e => cases hr
      | ok w =>
        obtain rfl := Answer.value.inj (Except.ok.inj hr)
        exact hx
    rcases hop with ⟨key, a, rfl | rfl⟩ | ⟨ref, rfl⟩
    · exact lost_indexGet ha (hr.covered a (.head _)) (answered hr.performed)
    · exact lost_mapGet ha (hr.covered a (.head _)) (answered hr.performed)
    · exact lost_variableValue ha (answered hr.performed)
  · obtain ⟨r, hs, hv⟩ := ClientM.bind_pure_eq_ok.mp hr.performed
    cases r with
    | error e => cases hv
    | ok values =>
      obtain rfl := Answer.values.inj (Except.ok.inj hv)
      intro w hw
      exact lost_elements ha (hr.covered v (.head _)) hm hs w
        (Array.mem_toList_iff.mp hw)
  · obtain ⟨shape, id, rfl, hpristine⟩ := hop.yields ofNew_made hr.performed
    have ha' := (h.next hr).kept
    have hv : c'.owned.Covers (.container shape id) := fun _ => by
      rw [hr.settled, hop.settle]
      exact Multiset.mem_add.mpr (.inl (Multiset.mem_singleton_self _))
    obtain ⟨d, hd⟩ := (ha'.there_of_flight hv).exists_container
    have hx := content?_of_container hd
    exact ⟨shape, id, _, rfl, hx, (ha'.fresh.content hx).alive (hpristine.recent d hd)⟩

/-- Requests after which an array of two objects, one of them destroyed, is copied. -/
def mourning : List Operation :=
  [.createDataspace 1, .spawn, .spawn, .createArrayOf ⟨0⟩ [.object ⟨0, 0⟩, .object ⟨1, 0⟩],
    .destroy ⟨0, 0⟩]

/-- An array that holds a lost value, put together with itself. -/
theorem scrubbed_once_mourning : ∃ c c' v, Reachable {} c ∧
    c.Requests (.concat (.container .array ⟨0⟩) (.container .array ⟨0⟩)) (.ok (.value v)) c' ∧
    ∃ shape id x, v = .container shape id ∧ c'.store.content? id = some x ∧
      ∀ w ∈ x.held, c'.store.lost w = false := by
  obtain ⟨c, hc, hf⟩ := exists_visit mourning
    (fun c => (c.request? (.concat (.container .array ⟨0⟩) (.container .array ⟨0⟩))).map Prod.fst)
    (a := some (.ok (.value (.container .array ⟨1⟩)))) (by cbv)
  obtain ⟨⟨_, c'⟩, hr, rfl⟩ := Option.map_eq_some_iff.mp hf
  have hr := request?_eq_some.mp hr
  exact ⟨c, c', _, hc, hr, (Reachable.scrubbed_once hc).2.2.2.2 _ _ _ (.concat _ _) hr⟩

end Client

end PlaneStore
