import Mathlib
import PlaneStore.Proofs.Contents.Bisimulation
import PlaneStore.Proofs.Walk.Deriving
import PlaneStore.Proofs.Walk.Eviction
import PlaneStore.Proofs.Walk.Regions

/-!
# Disciplined clients

A client is disciplined if it passes a handle only while it owns a reference to what the handle
addresses, and gives each reference back once. What a client owns is what its requests have handed
out, less what it has released; the references in flight between two requests are just these.
-/

namespace PlaneStore

open Store

/-! ## Requests of a disciplined client -/

namespace Operation

/-- The values that a request passes. -/
def passed : Operation → List Value
  | .createArrayOf _ vs | .copyValues vs | .restore _ _ _ vs => vs
  | .retain v | .release v | .mapMerge v _ | .mapSize v | .range v _ _ | .mapIndices v
  | .mapValues v | .size v | .elements v | .refcount v | .isLive v | .stringText v | .tag v
  | .home v | .owner v | .recordClass v | .importCount _ v | .assignVariable _ v | .addCall _ _ v
  | .replaceCall _ _ v | .evict v | .backUp v => [v]
  | .indexGet v w | .mapGet v w | .mapContains v w | .concat v w | .subtract v w | .intersect v w
  | .union v w | .symmetricDifference v w | .mapConcat v w | .mapSubtract v w | .mapIntersect v w
  | .deepEqual v w => [v, w]
  | .assign u v w | .mapRange u v w => [u, v, w]
  | _ => []

/-- The requests that make a container. -/
def creates : Operation → Bool
  | .createArray _ _ | .createMapping _ _ | .createRecord _ _ _ | .createArrayOf _ _
  | .restore _ _ _ _ | .range _ _ _ | .concat _ _ | .subtract _ _ | .intersect _ _ | .union _ _
  | .symmetricDifference _ _ | .mapIndices _ | .mapValues _ | .mapRange _ _ _ | .mapConcat _ _
  | .mapSubtract _ _ | .mapIntersect _ _ => true
  | _ => false

/-- The requests that make a dataspace or a text. -/
def adds : Operation → Bool
  | .createDataspace _ | .createString _ => true
  | _ => false

/-- The requests that evict. -/
def evicts : Operation → Bool
  | .evict _ | .evictDataspace _ => true
  | _ => false

/-- The requests that put back what planes have saved. -/
def undoes : Operation → Bool
  | .discard _ | .discardTo _ => true
  | _ => false

/-- What a client owns after a request. A list of elements is only for looking at. -/
def settle (owned : Refs) : Operation → Outcome → Refs
  | .release v, _ => owned.erase v
  | .retain v, .ok _ => {v} + owned
  | .elements _, _ | .sweepList _, _ => owned
  | _, .ok (.value v) => {v} + owned
  | _, .ok (.values vs) => ↑vs + owned
  | _, _ => owned

end Operation

/-- A store, and the references to it that a client owns. -/
structure Client where
  store : Store
  owned : Refs

namespace Client

/-- A request for which the client owns all handles that it passes. -/
structure Requests (c : Client) (op : Operation) (outcome : Outcome) (c' : Client) : Prop where
  covered : ∀ v ∈ op.passed, c.owned.Covers v
  performed : c.store.perform op = .ok (outcome, c'.store)
  settled : c'.owned = op.settle c.owned outcome

/-- What a disciplined client can get to from an empty store. -/
inductive Reachable (limits : Limits) : Client → Prop
  | start : Reachable limits ⟨{ limits }, 0⟩
  | next {c c' : Client} {op : Operation} {outcome : Outcome} (h : Reachable limits c)
    (hop : c.Requests op outcome c') : Reachable limits c'

/-- The account of a client between two requests. -/
def account (c : Client) : Account := ⟨c.store, c.owned, 0, none⟩

end Client

/-! ## The effects of a request -/

/-- What a request may change: an assignment what it assigns to, and all others nothing. -/
def Operation.Changes (op : Operation) (id : ContainerId) (ed : Edit) : Prop :=
  ∃ v key value, op = .assign v key value ∧ v.Edits id ed

/--
What a request may do that ends on a level. One that is refused only tends to containers. Others
leave planes above that level only. Of containers only that comes into being which the request
answers with, if it is a request for one, and then all that the client owned is still in flight.
Only evictions hand elements to the swap and move containers between dataspaces, only assignments
change containers, and only discards put backups back, which in turn do not tend to containers.
-/
def Effect.Within (op : Operation) (owned : Refs) (level : Nat) (outcome : Outcome) : Effect → Prop
  | .still => True
  | .scrub _ => op.undoes = false
  | .change id ed => (∃ a, outcome = .ok a) ∧ op.Changes id ed
  | .restore _ => (∃ a, outcome = .ok a) ∧ op.undoes = true
  | .leave _ n | .left n => (∃ a, outcome = .ok a) ∧ level < n
  | .create id flight => op.creates = true ∧ owned ≤ flight ∧
    ∃ kind, outcome = .ok (.value (.ofContainer kind id))
  | .add => (∃ a, outcome = .ok a) ∧ op.adds = true
  | .evict _ | .transfer _ _ => (∃ a, outcome = .ok a) ∧ op.evicts = true
  | _ => ∃ a, outcome = .ok a

namespace Effect

variable {op : Operation} {owned : Refs} {level : Nat} {outcome : Outcome}

theorem within_of_tends (hop : op.undoes = false) :
    ∀ e : Effect, e.Tends → e.Within op owned level outcome
  | _, .still => trivial
  | _, .scrub _ => hop

theorem within_of_folds (hok : ∃ a, outcome = .ok a) (h : level < n) :
    ∀ e : Effect, e.Folds n → e.Within op owned level outcome
  | _, .still => trivial
  | _, .nest => hok
  | _, .leave => ⟨hok, h⟩
  | _, .left => ⟨hok, h⟩
  | _, .record _ _ => hok

theorem within_of_undoes (hop : op.undoes = true) (hok : ∃ a, outcome = .ok a) :
    ∀ e : Effect, e.Undoes (level + 1) → e.Within op owned level outcome
  | _, .still => trivial
  | _, .nest => hok
  | _, .leave h => ⟨hok, h⟩
  | _, .left h => ⟨hok, Nat.lt_of_succ_lt h⟩
  | _, .restore _ => ⟨hok, hop⟩

end Effect

/-! ## Requests that only look -/

section

variable {s s' : Store}

theorem ask_eq_ok {α : Type} {f : Store → α} {r : Except Refusal α}
    (h : ask f s = .ok (r, s')) : s = s' ∧ r = .ok (f s) := by
  have h := ClientM.get_bind_eq_ok.mp h
  obtain ⟨rfl, rfl⟩ := ClientM.pure_eq_ok.mp h
  exact ⟨rfl, rfl⟩

theorem askM_eq_ok {α : Type} {f : Store → Except Fault α} {r : Except Refusal α}
    (h : askM f s = .ok (r, s')) : s = s' ∧ ∃ a, f s = .ok a ∧ r = .ok a := by
  obtain ⟨a, rfl, h⟩ := ClientM.lift_eq_ok.mp h
  obtain ⟨b, hb, h⟩ := Fallible.bind_eq_ok.mp h
  obtain ⟨c, hc, hb⟩ := Fallible.bind_eq_ok.mp hb
  cases Fallible.pure_eq_ok.mp hb
  cases h
  exact ⟨rfl, _, hc, rfl⟩

theorem stringText_eq_ok {v : Value} {r : Except Refusal String}
    (h : stringText v s = .ok (r, s')) : s = s' := by
  unfold stringText at h
  split at h
  · obtain ⟨_, -, h⟩ := ClientM.lift_eq_ok.mp h
    exact (StoreM.readHeap_eq_ok.mp h).2
  · exact (ClientM.refuse_eq_ok.mp h).2

theorem inspect_eq_ok {v : Value} {r : Except Refusal Container}
    (h : inspect v s = .ok (r, s')) : s = s' := by
  rcases requireContainer_bind_eq_ok h with ⟨-, hsame⟩ | ⟨shape, id, -, h⟩
  · exact hsame
  · obtain ⟨_, -, h⟩ := ClientM.lift_eq_ok.mp h
    exact (StoreM.container_eq_ok.mp h).2

theorem recordClass_eq_ok {v : Value} {r : Except Refusal ObjectRef}
    (h : recordClass v s = .ok (r, s')) : s = s' := by
  rcases requireContainer_bind_eq_ok h with ⟨-, hsame⟩ | ⟨shape, id, -, h⟩
  · exact hsame
  obtain ⟨c, s₁, h₁, h⟩ := ClientM.lift_bind_eq_ok.mp h
  obtain ⟨-, rfl⟩ := StoreM.container_eq_ok.mp h₁
  cases hk : c.kind with
  | record cls =>
    simp only [hk] at h
    exact (ClientM.pure_eq_ok.mp h).2
  | array | mapping =>
    simp only [hk] at h
    exact (ClientM.refuse_eq_ok.mp h).2

theorem dataspaceInfo_eq_ok {ds : DataspaceId} {r : Except Refusal DataspaceInfo}
    (h : dataspaceInfo ds s = .ok (r, s')) : s = s' := by
  rcases ClientM.bind_eq_ok.mp h with ⟨_, h₁, -⟩ | ⟨d, s₁, h₁, h⟩
  · exact (requireDataspace_eq_ok h₁).1
  · obtain ⟨rfl, -⟩ := requireDataspace_eq_ok h₁
    exact (ClientM.pure_eq_ok.mp h).2

theorem calls_eq_ok {ds : DataspaceId} {r : Except Refusal (List (CallHandle × DeferredCall))}
    (h : calls ds s = .ok (r, s')) : s = s' := by
  rcases ClientM.bind_eq_ok.mp h with ⟨_, h₁, -⟩ | ⟨d, s₁, h₁, h⟩
  · exact (requireDataspace_eq_ok h₁).1
  · obtain ⟨rfl, -⟩ := requireDataspace_eq_ok h₁
    exact (ClientM.pure_eq_ok.mp h).2

end

/-! ## Requests as chains of steps -/

section

variable {s s' : Store} {F : Refs} {op : Operation} {outcome : Outcome}

/-- A request that hands a value out. -/
theorem walk_handing {x : ClientM Value}
    (hs : ∀ r : Except Refusal Value, op.settle F (r.map .value) = earned r + F)
    (hx : ∀ {r : Except Refusal Value}, x s = .ok (r, s') →
      (op.creates = true → ∀ kind id, r = .ok (.ofContainer kind id) →
        Effect.Within op F s'.level (r.map .value) (.create id F)) →
      Path (Effect.Within op F s'.level (r.map .value)) ⟨s, F, 0, none⟩ ⟨s', earned r + F, 0, none⟩)
    (h : (x >>= fun v => pure (Answer.value v)) s = .ok (outcome, s')) :
    Path (Effect.Within op F s'.level outcome) ⟨s, F, 0, none⟩
      ⟨s', op.settle F outcome, 0, none⟩ := by
  obtain ⟨r, h₁, rfl⟩ := ClientM.bind_pure_eq_ok.mp h
  rw [hs]
  exact hx h₁ fun hop kind id hr => ⟨hop, le_rfl, kind, by rw [hr]; rfl⟩

/-- A request that hands no reference out and takes none back. -/
theorem walk_keeping {α : Type} {x : ClientM α} {f : α → Answer}
    (hs : ∀ r : Except Refusal α, op.settle F (r.map f) = F)
    (hx : ∀ {r : Except Refusal α}, x s = .ok (r, s') →
      ((∃ a, r = .ok a) → ∃ a, r.map f = .ok a) →
      Path (Effect.Within op F s'.level (r.map f)) ⟨s, F, 0, none⟩ ⟨s', F, 0, none⟩)
    (h : (x >>= fun a => pure (f a)) s = .ok (outcome, s')) :
    Path (Effect.Within op F s'.level outcome) ⟨s, F, 0, none⟩
      ⟨s', op.settle F outcome, 0, none⟩ := by
  obtain ⟨r, h₁, rfl⟩ := ClientM.bind_pure_eq_ok.mp h
  rw [hs]
  refine hx h₁ ?_
  rintro ⟨a, rfl⟩
  exact ⟨f a, rfl⟩

/-- A request that only looks. -/
theorem walk_looking {α : Type} {x : ClientM α} {f : α → Answer}
    (hs : ∀ r : Except Refusal α, op.settle F (r.map f) = F)
    (hx : ∀ {r : Except Refusal α}, x s = .ok (r, s') → s = s')
    (h : (x >>= fun a => pure (f a)) s = .ok (outcome, s')) :
    Path (Effect.Within op F s'.level outcome) ⟨s, F, 0, none⟩ ⟨s', op.settle F outcome, 0, none⟩ :=
  walk_keeping hs (fun h₁ _ => by rw [hx h₁]; exact .refl _) h

/-- A commit does what commits do, and only if it is carried out. -/
theorem walk_commitWithin {n : Nat} {r : Except Refusal Unit} (ha : Account.Kept ⟨s, F, 0, none⟩)
    (hok : (∃ u, r = .ok u) → ∃ a, outcome = .ok a) (h : commit n s = .ok (r, s')) :
    Path (Effect.Within op F s'.level outcome) ⟨s, F, 0, none⟩ ⟨s', F, 0, none⟩ := by
  have hwalk := walk_commit ha h
  cases r with
  | error e =>
    rw [hwalk.1]
    exact .refl _
  | ok u =>
    obtain ⟨rfl, hlevel, hpath⟩ := hwalk
    exact hpath.mono (Effect.within_of_folds (hok ⟨u, rfl⟩) (by omega))

/-- Nothing is left of the last plane that is thrown away. -/
theorem Path.undone {level : Nat} {p : Plane} (hop : op.undoes = true) (hok : ∃ a, outcome = .ok a)
    (h : Path (Effect.Undoes (level + 1)) ⟨s, F, 0, none⟩
      ⟨s', F, 0, some (Closing.ofPlane false (level + 1) p).emptied⟩) :
    Path (Effect.Within op F level outcome) ⟨s, F, 0, none⟩ ⟨s', F, 0, none⟩ :=
  have hdone := @Nesting.finish s' F 0 (Closing.ofPlane false (level + 1) p).emptied
    ⟨rfl, rfl, rfl, rfl⟩
  have hleft : Effect.Within op F level outcome (.left (level + 1)) := ⟨hok, Nat.lt_succ_self level⟩
  (h.mono (Effect.within_of_undoes hop hok)).tail hleft (.nesting hdone)

/-- A discard does what undoing does, and only if it is carried out. -/
theorem walk_discardWithin {n : Nat} {r : Except Refusal Unit} (hop : op.undoes = true)
    (ha : Account.Kept ⟨s, F, 0, none⟩) (hok : (∃ u, r = .ok u) → ∃ a, outcome = .ok a)
    (h : discard n s = .ok (r, s')) :
    Path (Effect.Within op F s'.level outcome) ⟨s, F, 0, none⟩ ⟨s', F, 0, none⟩ := by
  have hwalk := walk_discard ha h
  cases r with
  | error e =>
    rw [hwalk.1]
    exact .refl _
  | ok u =>
    obtain ⟨rfl, -, p, hpath⟩ := hwalk
    exact hpath.undone hop (hok ⟨u, rfl⟩)

theorem walk_discardToWithin {n : Nat} {r : Except Refusal Unit} (hop : op.undoes = true)
    (ha : Account.Kept ⟨s, F, 0, none⟩) (hok : (∃ u, r = .ok u) → ∃ a, outcome = .ok a)
    (h : discardTo n s = .ok (r, s')) :
    Path (Effect.Within op F s'.level outcome) ⟨s, F, 0, none⟩ ⟨s', F, 0, none⟩ := by
  have hwalk := walk_discardTo ha h
  cases r with
  | error e =>
    rw [hwalk.1]
    exact .refl _
  | ok u =>
    obtain ⟨rfl, -, p, hpath⟩ := hwalk
    exact hpath.undone hop (hok ⟨u, rfl⟩)

/-- A reference that is given back was owned, or it was none. -/
theorem walk_releaseOwned {E : Effect → Prop} {v : Value} {u : Unit} (still : E .still)
    (hv : F.Covers v) (h : release v s = .ok (u, s')) :
    Path E ⟨s, F, 0, none⟩ ⟨s', F.erase v, 0, none⟩ := by
  by_cases hmem : v ∈ F
  · have hpath := walk_release (F := F.erase v) (C := 0) (q := none) still h
    rwa [Multiset.singleton_add, Multiset.cons_erase hmem] at hpath
  · have huncounted : v.isCounted = false := Bool.eq_false_iff.mpr fun hc => hmem (hv hc)
    unfold release at h
    rw [huncounted] at h
    obtain ⟨-, rfl⟩ := StoreM.pure_eq_ok.mp h
    rw [Multiset.erase_of_notMem hmem]
    exact .refl _

/-- To prepare a container for a change only readies it, and may be refused. -/
theorem walk_prepare {v : Value} {r : Except Refusal Unit} (ha : Account.Kept ⟨s, F, 0, none⟩)
    (hok : (∃ u, r = .ok u) → ∃ a, outcome = .ok a) (h : prepare v s = .ok (r, s')) :
    Path (Effect.Within op F s'.level outcome) ⟨s, F, 0, none⟩ ⟨s', F, 0, none⟩ := by
  rcases requireContainer_bind_eq_ok h with ⟨-, rfl⟩ | ⟨shape, id, -, h⟩
  · exact .refl _
  · obtain ⟨u, rfl, h₂⟩ := ClientM.lift_eq_ok.mp h
    exact (walk_makeWritable trivial (hok ⟨u, rfl⟩) ha h₂).1

/-- What any request of a disciplined client does, in steps. -/
theorem Operation.walk (ha : Account.Kept ⟨s, F, 0, none⟩) (hd : ∀ v ∈ op.passed, F.Covers v)
    (h : s.perform op = .ok (outcome, s')) :
    Path (Effect.Within op F s'.level outcome) ⟨s, F, 0, none⟩
      ⟨s', op.settle F outcome, 0, none⟩ := by
  -- The values that are passed, by how many the operation takes.
  have hone : ∀ v, op.passed = [v] → F.Covers v := fun v hp => hd v (by rw [hp]; simp)
  have htwo : ∀ v w, op.passed = [v, w] → F.Covers v ∧ F.Covers w := fun v w hp =>
    ⟨hd v (by rw [hp]; simp), hd w (by rw [hp]; simp)⟩
  have hthree : ∀ u v w, op.passed = [u, v, w] → F.Covers u ∧ F.Covers v ∧ F.Covers w :=
    fun u v w hp => ⟨hd u (by rw [hp]; simp), hd v (by rw [hp]; simp), hd w (by rw [hp]; simp)⟩
  have hvalue : ∀ {op : Operation}, (∀ v, op.settle F (.ok (.value v)) = {v} + F) →
      (∀ e, op.settle F (.error e) = F) →
        ∀ r : Except Refusal Value, op.settle F (r.map .value) = earned r + F := by
    intro op hok herr r
    cases r with
    | error e => exact (herr e).trans (zero_add F).symm
    | ok v => exact hok v
  -- Each operation goes the path of its function, and has effects of its own if it is not refused.
  cases op with
  | createDataspace n =>
    obtain ⟨ds, s₁, h₁, h⟩ := ClientM.lift_bind_eq_ok.mp h
    obtain ⟨rfl, rfl⟩ := ClientM.pure_eq_ok.mp h
    cases StoreM.modifyGet_eq_ok.mp h₁
    exact .single (e := .add) ⟨⟨_, rfl⟩, rfl⟩ (.creation (.dataspace n))
  | createArray ds n =>
    refine walk_handing (hvalue (fun _ => rfl) fun _ => rfl) (fun {r} h₁ hc => ?_) h
    exact walk_createArray trivial (hc rfl) ha h₁
  | createMapping ds n =>
    refine walk_handing (hvalue (fun _ => rfl) fun _ => rfl) (fun {r} h₁ hc => ?_) h
    exact walk_createMapping trivial (hc rfl) ha h₁
  | createRecord ds cls n =>
    refine walk_handing (hvalue (fun _ => rfl) fun _ => rfl) (fun {r} h₁ hc => ?_) h
    exact walk_createRecord trivial (hc rfl) ha h₁
  | createArrayOf ds vs =>
    refine walk_handing (hvalue (fun _ => rfl) fun _ => rfl) (fun {r} h₁ hc => ?_) h
    exact walk_createArrayOf trivial (hc rfl) ha hd h₁
  | createString text =>
    obtain ⟨v, s₁, h₁, h⟩ := ClientM.lift_bind_eq_ok.mp h
    obtain ⟨rfl, rfl⟩ := ClientM.pure_eq_ok.mp h
    cases StoreM.modifyGet_eq_ok.mp h₁
    exact .single (e := .add) ⟨⟨_, rfl⟩, rfl⟩ (.creation (.string text))
  | restore ds kind tag vs =>
    refine walk_handing (hvalue (fun _ => rfl) fun _ => rfl) (fun {r} h₁ hc => ?_) h
    exact walk_restore trivial (hc rfl) ha hd h₁
  | retain v =>
    obtain ⟨u, s₁, h₁, h⟩ := ClientM.lift_bind_eq_ok.mp h
    obtain ⟨rfl, rfl⟩ := ClientM.pure_eq_ok.mp h
    exact walk_retain trivial (ha.fits_of_covers (hone v rfl)) h₁
  | release v =>
    obtain ⟨u, s₁, h₁, h⟩ := ClientM.lift_bind_eq_ok.mp h
    obtain ⟨rfl, rfl⟩ := ClientM.pure_eq_ok.mp h
    exact walk_releaseOwned trivial (hone v rfl) h₁
  | copyValues vs =>
    obtain ⟨copied, s₁, h₁, h⟩ := ClientM.lift_bind_eq_ok.mp h
    obtain ⟨rfl, rfl⟩ := ClientM.pure_eq_ok.mp h
    exact (walk_copies trivial (fun v hv => ha.fits_of_covers (hd v hv)) h₁).1
  | indexGet v w =>
    refine walk_handing (hvalue (fun _ => rfl) fun _ => rfl) (fun {r} h₁ _ => ?_) h
    exact walk_indexGet trivial (fun _ => rfl) ha (htwo v w rfl).1 h₁
  | assign u v w =>
    refine walk_keeping (fun r => by cases r <;> rfl) (fun {r} h₁ hok => ?_) h
    exact walk_assign trivial hok (fun hr _ _ hed => ⟨hok hr, _, _, _, rfl, hed⟩) ha
      (hthree u v w rfl).1 (hthree u v w rfl).2.1
      (hthree u v w rfl).2.2 h₁
  | mapGet v w =>
    refine walk_handing (hvalue (fun _ => rfl) fun _ => rfl) (fun {r} h₁ _ => ?_) h
    exact walk_mapGetHanding ha (htwo v w rfl).1 trivial h₁
  | mapContains v w =>
    refine walk_keeping (fun r => by cases r <;> rfl) (fun {r} h₁ hok => ?_) h
    exact mapContains_eq_ok trivial h₁
  | mapMerge v compact =>
    refine walk_keeping (fun r => by cases r <;> rfl) (fun {r} h₁ hok => ?_) h
    exact walk_merge trivial (fun _ => rfl) ha (hone v rfl) h₁
  | mapSize v =>
    refine walk_keeping (fun r => by cases r <;> rfl) (fun {r} h₁ hok => ?_) h
    exact walk_mapSize trivial (fun _ => rfl) ha (hone v rfl) h₁
  | range v lo hi =>
    refine walk_handing (hvalue (fun _ => rfl) fun _ => rfl) (fun {r} h₁ hc => ?_) h
    exact walk_seqRange trivial (fun _ => rfl) (hc rfl) ha (hone v rfl) h₁
  | concat v w =>
    refine walk_handing (hvalue (fun _ => rfl) fun _ => rfl) (fun {r} h₁ hc => ?_) h
    exact walk_seqConcat trivial (fun _ => rfl) (hc rfl) ha (htwo v w rfl).1 (htwo v w rfl).2 h₁
  | subtract v w | intersect v w =>
    refine walk_handing (hvalue (fun _ => rfl) fun _ => rfl) (fun {r} h₁ hc => ?_) h
    exact walk_seqRestrict trivial (fun _ => rfl) (hc rfl) ha (htwo v w rfl).1 (htwo v w rfl).2 h₁
  | union v w =>
    refine walk_handing (hvalue (fun _ => rfl) fun _ => rfl) (fun {r} h₁ hc => ?_) h
    exact walk_seqUnion trivial (fun _ => rfl) (hc rfl) ha (htwo v w rfl).1 (htwo v w rfl).2 h₁
  | symmetricDifference v w =>
    refine walk_handing (hvalue (fun _ => rfl) fun _ => rfl) (fun {r} h₁ hc => ?_) h
    exact walk_symmetricDifference trivial (fun _ => rfl) (hc rfl) ha (htwo v w rfl).1
      (htwo v w rfl).2 h₁
  | mapIndices v =>
    refine walk_handing (hvalue (fun _ => rfl) fun _ => rfl) (fun {r} h₁ hc => ?_) h
    exact walk_mapIndices trivial (fun _ => rfl) (hc rfl) ha (hone v rfl) h₁
  | mapValues v =>
    refine walk_handing (hvalue (fun _ => rfl) fun _ => rfl) (fun {r} h₁ hc => ?_) h
    exact walk_mapValues trivial (fun _ => rfl) (hc rfl) ha (hone v rfl) h₁
  | mapRange u v w =>
    refine walk_handing (hvalue (fun _ => rfl) fun _ => rfl) (fun {r} h₁ hc => ?_) h
    exact walk_mapRange trivial (fun _ => rfl) (hc rfl) ha (hthree u v w rfl).1 h₁
  | mapConcat v w =>
    refine walk_handing (hvalue (fun _ => rfl) fun _ => rfl) (fun {r} h₁ hc => ?_) h
    exact walk_mapConcat trivial (fun _ => rfl) (hc rfl) ha (htwo v w rfl).1 (htwo v w rfl).2 h₁
  | mapSubtract v w | mapIntersect v w =>
    refine walk_handing (hvalue (fun _ => rfl) fun _ => rfl) (fun {r} h₁ hc => ?_) h
    exact walk_mapRestrict trivial (fun _ => rfl) (hc rfl) ha (htwo v w rfl).1 (htwo v w rfl).2 h₁
  | size v =>
    refine walk_keeping (fun r => by cases r <;> rfl) (fun {r} h₁ hok => ?_) h
    exact walk_size trivial (fun _ => rfl) ha (hone v rfl) h₁
  | elements v =>
    refine walk_keeping (fun r => by cases r <;> rfl) (fun {r} h₁ hok => ?_) h
    exact walk_elements trivial (fun _ => rfl) ha (hone v rfl) h₁
  | deepEqual v w =>
    refine walk_keeping (fun r => by cases r <;> rfl) (fun {r} h₁ hok => ?_) h
    obtain ⟨b, -, h₁⟩ := ClientM.lift_eq_ok.mp h₁
    have hpath := (walk_deepEqual ha (htwo v w rfl).1 (htwo v w rfl).2 h₁).1
    exact (hpath.mono Effect.Compares.tends).mono (Effect.within_of_tends rfl)
  | refcount v | sweepList ds =>
    refine walk_looking (fun r => by cases r <;> rfl) (fun {r} h₁ => ?_) h
    exact (askM_eq_ok h₁).1
  | isLive v | importCount ds v | stats | level | reuse i | isDestroyed obj | epoch =>
    refine walk_looking (fun r => by cases r <;> rfl) (fun {r} h₁ => ?_) h
    exact (ask_eq_ok h₁).1
  | stringText v =>
    refine walk_looking (fun r => by cases r <;> rfl) (fun {r} h₁ => ?_) h
    exact stringText_eq_ok h₁
  | tag v | home v | owner v =>
    refine walk_looking (fun r => by cases r <;> rfl) (fun {r} h₁ => ?_) h
    exact inspect_eq_ok h₁
  | recordClass v =>
    refine walk_looking (fun r => by cases r <;> rfl) (fun {r} h₁ => ?_) h
    exact recordClass_eq_ok h₁
  | dataspaceInfo ds =>
    refine walk_looking (fun r => by cases r <;> rfl) (fun {r} h₁ => ?_) h
    exact dataspaceInfo_eq_ok h₁
  | readVariable ref =>
    refine walk_handing (hvalue (fun _ => rfl) fun _ => rfl) (fun {r} h₁ _ => ?_) h
    exact walk_variableValue trivial ha h₁
  | assignVariable ref v =>
    refine walk_keeping (fun r => by cases r <;> rfl) (fun {r} h₁ hok => ?_) h
    exact walk_assignVariable trivial hok ha (hone v rfl) h₁
  | addCall ds due v =>
    refine walk_keeping (fun r => by cases r <;> rfl) (fun {r} h₁ hok => ?_) h
    exact walk_addCall trivial (fun hr _ _ => hok hr) ha (hone v rfl) h₁
  | removeCall call =>
    refine walk_keeping (fun r => by cases r <;> rfl) (fun {r} h₁ hok => ?_) h
    exact walk_removeCall trivial (fun hr _ => hok hr) h₁
  | replaceCall call due v =>
    refine walk_keeping (fun r => by cases r <;> rfl) (fun {r} h₁ hok => ?_) h
    exact walk_replaceCall trivial (fun hr _ => hok hr) ha (hone v rfl) h₁
  | call call =>
    refine walk_looking (fun r => by cases r <;> rfl) (fun {r} h₁ => ?_) h
    exact (requireCall_eq_ok h₁).1
  | calls ds =>
    refine walk_looking (fun r => by cases r <;> rfl) (fun {r} h₁ => ?_) h
    exact calls_eq_ok h₁
  | evict v =>
    refine walk_keeping (fun r => by cases r <;> rfl) (fun {r} h₁ hok => ?_) h
    exact walk_evictContainer trivial (fun hr _ => ⟨hok hr, rfl⟩) ha h₁
  | evictDataspace ds =>
    refine walk_keeping (fun r => by cases r <;> rfl) (fun {r} h₁ hok => ?_) h
    exact walk_evictDataspace trivial (fun hr _ => ⟨hok hr, rfl⟩) (fun hr _ => ⟨hok hr, rfl⟩) ha h₁
  | enter =>
    refine walk_keeping (fun r => by cases r <;> rfl) (fun {r} h₁ hok => ?_) h
    exact walk_enter hok h₁
  | commit n =>
    refine walk_keeping (fun r => by cases r <;> rfl) (fun {r} h₁ hok => ?_) h
    exact walk_commitWithin ha hok h₁
  | discard n =>
    refine walk_keeping (fun r => by cases r <;> rfl) (fun {r} h₁ hok => ?_) h
    exact walk_discardWithin rfl ha hok h₁
  | discardTo n =>
    refine walk_keeping (fun r => by cases r <;> rfl) (fun {r} h₁ hok => ?_) h
    exact walk_discardToWithin rfl ha hok h₁
  | backUp v =>
    refine walk_keeping (fun r => by cases r <;> rfl) (fun {r} h₁ hok => ?_) h
    exact walk_prepare ha hok h₁
  | spawn =>
    refine walk_keeping (fun r => by cases r <;> rfl) (fun {r} h₁ hok => ?_) h
    cases h₁
    exact .single (e := .objects) ⟨_, rfl⟩ (.creation .spawn)
  | destroy obj =>
    refine walk_keeping (fun r => by cases r <;> rfl) (fun {r} h₁ hok => ?_) h
    cases h₁
    exact .single (e := .objects) ⟨_, rfl⟩ (.creation (.destroy obj))

end

/-! ## Accounts between two requests -/

namespace Client

variable {limits : Limits} {c c' : Client}

theorem Requests.path (h : c.Requests op outcome c') (ha : c.account.Kept) :
    Path (Effect.Within op c.owned c'.store.level outcome) c.account c'.account := by
  have hpath := Operation.walk ha h.covered h.performed
  rwa [← h.settled] at hpath

/-- Nothing is in an empty store, and nothing is wrong with it. -/
theorem kept_start (limits : Limits) : (⟨{ limits }, 0⟩ : Client).account.Kept where
  accounted :=
    { balanced :=
        { containers := Slab.sound_empty
          strings := Slab.sound_empty
          count := fun t => by cases t <;> rfl
          pos := fun t => by cases t <;> nofun
          fits := nofun }
      stored := ⟨nofun, nofun, nofun, nofun⟩
      overlays := nofun
      backups := nofun }
  numbered :=
    { pending := nofun
      patched := by
        rintro call patch (⟨cl, hcl, -⟩ | ⟨p, hp, -⟩)
        · cases hcl
        · cases hp }
  chained := ⟨fun _ => trivial, List.nodup_nil⟩
  tabled := ⟨nofun, nofun⟩
  fresh := ⟨nofun, nofun⟩
  seasoned := ⟨nofun, nofun⟩
  listed := ⟨nofun, nofun, nofun, nofun, nofun, nofun⟩
  imported := ⟨nofun, nofun⟩
  disciplined :=
    { trail := nofun
      free := fun _ _ hx => by cases hx
      closing := nofun
      sized := nofun }
  saved :=
    { stored := fun h => by cases h
      once := nofun }

/-- Whatever a disciplined client does, all that steps keep is kept. -/
theorem Reachable.kept (h : Reachable limits c) : c.account.Kept := by
  induction h with
  | start => exact kept_start limits
  | next h hop ih => exact (hop.path ih).kept ih

/-!
## Scripts

The runs of scripts are computed with `cbv`, by the equations of all functions that occur in them.
Equations of functions that are not of this library are spread over Mathlib, which is imported whole
for their sake.
-/

instance (F : Refs) (v : Value) : Decidable (F.Covers v) :=
  inferInstanceAs (Decidable (v.isCounted = true → v ∈ F))

/-- Carries out a request if the client owns what it passes. -/
def request? (c : Client) (op : Operation) : Option (Outcome × Client) :=
  if ∀ v ∈ op.passed, c.owned.Covers v then
    match c.store.perform op with
    | .ok (outcome, s) => some (outcome, ⟨s, op.settle c.owned outcome⟩)
    | .error _ => none
  else none

/-- Where a list of requests leads, as long as the client owns what it passes. -/
def visit? (c : Client) : List Operation → Option Client
  | [] => some c
  | op :: ops => (c.request? op).bind fun x => x.2.visit? ops

theorem request?_eq_some : c.request? op = some (outcome, c') ↔ c.Requests op outcome c' := by
  unfold request?
  constructor
  · intro h
    split at h
    · next hcovered =>
      split at h
      · next r s hp =>
        obtain ⟨rfl, rfl⟩ := Prod.mk.inj (Option.some.inj h)
        exact ⟨hcovered, hp, rfl⟩
      · cases h
    · cases h
  · rintro ⟨hcovered, hp, hsettled⟩
    obtain ⟨s, owned⟩ := c'
    obtain rfl := hsettled
    rw [if_pos hcovered, hp]

theorem Reachable.visit {ops : List Operation} (h : Reachable limits c)
    (hv : c.visit? ops = some c') : Reachable limits c' := by
  induction ops generalizing c with
  | nil => exact Option.some.inj hv ▸ h
  | cons op ops ih =>
    obtain ⟨⟨outcome, c₁⟩, h₁, hv⟩ := Option.bind_eq_some_iff.mp hv
    exact ih (h.next (request?_eq_some.mp h₁)) hv

/-- Whatever can be computed of the client after a script, there is such a client. -/
theorem exists_visit_within {α : Type} (limits : Limits) (ops : List Operation) (f : Client → α)
    {a : α} (h : ((⟨{ limits }, 0⟩ : Client).visit? ops).map f = some a) :
    ∃ c, Reachable limits c ∧ f c = a := by
  obtain ⟨c, hc, hf⟩ := Option.map_eq_some_iff.mp h
  exact ⟨c, Reachable.start.visit hc, hf⟩

theorem exists_visit {α : Type} (ops : List Operation) (f : Client → α) {a : α}
    (h : ((⟨{}, 0⟩ : Client).visit? ops).map f = some a) : ∃ c, Reachable {} c ∧ f c = a :=
  exists_visit_within {} ops f h

/--
Requests after which a client owns a text, an array and a mapping. The array is the value of a
pending write of the mapping, which another dataspace owns. In an atomic region that is still open
it was backed up, stored in a variable, and made the payload of a deferred call.
-/
def sample : List Operation :=
  [.createDataspace 1, .createDataspace 1, .createString "name", .createArray ⟨0⟩ 2,
    .createMapping ⟨1⟩ 0, .assign (.container .mapping ⟨1⟩) (.string ⟨0⟩) (.container .array ⟨0⟩),
    .enter, .assignVariable ⟨⟨1⟩, 0⟩ (.container .array ⟨0⟩), .backUp (.container .array ⟨0⟩),
    .addCall ⟨0⟩ 5 (.container .array ⟨0⟩)]

/-- Whatever can be computed of the client after the sample, there is such a client. -/
theorem exists_sample {α : Type} (f : Client → α) {a : α}
    (h : ((⟨{}, 0⟩ : Client).visit? sample).map f = some a) : ∃ c, Reachable {} c ∧ f c = a :=
  exists_visit sample f h

end Client

end PlaneStore
