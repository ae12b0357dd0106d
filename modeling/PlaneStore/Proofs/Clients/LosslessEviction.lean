import PlaneStore.Proofs.Contents.ContainerAnswers
import PlaneStore.Proofs.Eviction.BufferCustody
import PlaneStore.Proofs.Clients.FiniteMappings

/-!
# Eviction loses nothing

Between two requests of a disciplined client the swap has the elements of the evicted containers,
each under a ticket of its own, and nothing else. A container that is evicted before it is read
answers what it would have answered anyway.
-/

namespace PlaneStore

open Store

/-- The effects of evicting single containers. -/
def Effect.Parks (e : Effect) : Prop := e = .still ∨ ∃ id, e = .evict id

theorem Effect.Parks.minds : ∀ e : Effect, e.Parks → e.Minds
  | _, .inl rfl | _, .inr ⟨_, rfl⟩ => trivial

theorem Effect.Parks.leaves {id : ContainerId} : ∀ e : Effect, e.Parks → e.Leaves id
  | _, .inl rfl | _, .inr ⟨_, rfl⟩ => trivial

theorem Effect.Keeps.minds {id : ContainerId} : ∀ e : Effect, e.Keeps id → e.Minds
  | _, .inl rfl | _, .inr rfl => trivial

theorem Effect.Keeps.leaves {id other : ContainerId} (hne : id ≠ other) :
    ∀ e : Effect, e.Keeps id → e.Leaves other
  | _, .inl rfl => trivial
  | _, .inr rfl => hne

/-! ## Reading after an eviction -/

section

variable {a a₁ a₂ a₃ : Account} {id : ContainerId}

/-- A container may be evicted before it is scrubbed. -/
theorem agrees_of_scrubbed (hp : Path Effect.Parks a a₁) (h₂ : Path (Effect.Keeps id) a₁ a₂)
    (h₃ : Path (Effect.Keeps id) a a₃) (ha : a.Kept) (hr₂ : a₂.store.Recent id)
    (hr₃ : a₃.store.Recent id) : Agrees a₂.store a₃.store := by
  have hpath : Path (fun e => e.Parks ∨ e.Keeps id) a a₂ :=
    (hp.mono fun _ => .inl).trans (h₂.mono fun _ => .inr)
  refine hpath.agrees h₃ ha ?_ Effect.Keeps.minds fun other => ?_
  · rintro e (he | he)
    · exact he.minds
    · exact he.minds
  · by_cases hne : id = other
    · subst hne
      exact .inr ⟨hr₂, hr₃⟩
    · refine .inl ?_
      rintro e ((he | he) | he)
      · exact he.leaves
      · exact he.leaves hne
      · exact he.leaves hne

/-- A container may be evicted before it is looked at as it is. -/
theorem agrees_of_still (hp : Path Effect.Parks a a₁) (h₂ : Path (· = .still) a₁ a₂)
    (h₃ : Path (· = .still) a a₃) (ha : a.Kept) : Agrees a₂.store a₃.store := by
  have hpath : Path Effect.Parks a a₂ := hp.trans (h₂.mono fun _ => .inl)
  refine hpath.agrees h₃ ha Effect.Parks.minds ?_ fun other => .inl ?_
  · rintro e rfl
    trivial
  · rintro e (he | rfl)
    · exact he.leaves
    · trivial

end

section

variable {s s₁ s₂ s₃ : Store} {F : Refs} {id : ContainerId} {shape : Shape} {key : Value}

/-- A lookup finds in an evicted mapping what it would have found. -/
theorem mapGet_evicted {r₂ r₃ : Except Refusal Value} (ha : Account.Kept ⟨s, F, 0, none⟩)
    (hp : Path Effect.Parks ⟨s, F, 0, none⟩ ⟨s₁, F, 0, none⟩)
    (hm : F.Covers (.container .mapping id)) (hkey : F.Covers key)
    (h₂ : Mapping.get (.container .mapping id) key s₁ = .ok (r₂, s₂))
    (h₃ : Mapping.get (.container .mapping id) key s = .ok (r₃, s₃)) :
    r₂ = r₃ ∧ Agrees s₂ s₃ := by
  have ha₁ := hp.kept ha
  have hcalm : ∀ e : Effect, e.Parks → e.Calm := fun e he => he.minds.calm
  obtain ⟨rfl, -⟩ := mapGet_answers ha₁ hm hkey h₂
  obtain ⟨rfl, -⟩ := mapGet_answers ha hm hkey h₃
  constructor
  · have hidentity := (hp.stands ha hcalm (Refs.Covers.of_flight hkey)).identity
    have hentry := hp.entryAt? ha Effect.Parks.leaves hm (k := s.heap.identity key)
    rw [hidentity, hentry]
    cases hv : s.entryAt? id (s.heap.identity key) with
    | none => simp
    | some v =>
      rw [← hentry] at hv
      rw [Option.getD_some, hp.seen ha hcalm (ha₁.covers_entry hm hv)]
  · obtain ⟨-, -, -, t₂, -, hbefore₂, -, -, -, hafter₂⟩ := walk_mapGet ha₁ hm h₂
    obtain ⟨-, -, -, t₃, -, hbefore₃, -, -, -, hafter₃⟩ := walk_mapGet ha hm h₃
    exact agrees_of_still hp (hbefore₂.trans hafter₂) (hbefore₃.trans hafter₃) ha

/-- Whether a key is contained does not depend on whether the mapping was evicted. -/
theorem mapContains_evicted {r₂ r₃ : Except Refusal Bool} (ha : Account.Kept ⟨s, F, 0, none⟩)
    (hp : Path Effect.Parks ⟨s, F, 0, none⟩ ⟨s₁, F, 0, none⟩)
    (hm : F.Covers (.container .mapping id)) (hkey : F.Covers key)
    (h₂ : Mapping.contains (.container .mapping id) key s₁ = .ok (r₂, s₂))
    (h₃ : Mapping.contains (.container .mapping id) key s = .ok (r₃, s₃)) :
    r₂ = r₃ ∧ Agrees s₂ s₃ := by
  have hcalm : ∀ e : Effect, e.Parks → e.Calm := fun e he => he.minds.calm
  obtain ⟨rfl, -⟩ := mapContains_answers (hp.kept ha) hm hkey h₂
  obtain ⟨rfl, -⟩ := mapContains_answers ha hm hkey h₃
  constructor
  · rw [(hp.stands ha hcalm (Refs.Covers.of_flight hkey)).identity,
      hp.entryAt? ha Effect.Parks.leaves hm]
  · exact agrees_of_still hp (mapContains_eq_ok rfl h₂) (mapContains_eq_ok rfl h₃) ha

/-- The size of a mapping is the same after it was evicted. -/
theorem mapSize_evicted {r₂ r₃ : Except Refusal Nat} (ha : Account.Kept ⟨s, F, 0, none⟩)
    (hp : Path Effect.Parks ⟨s, F, 0, none⟩ ⟨s₁, F, 0, none⟩)
    (hm : F.Covers (.container .mapping id))
    (h₂ : Mapping.size (.container .mapping id) s₁ = .ok (r₂, s₂))
    (h₃ : Mapping.size (.container .mapping id) s = .ok (r₃, s₃)) :
    r₂ = r₃ ∧ Agrees s₂ s₃ := by
  have ha₁ := hp.kept ha
  obtain ⟨hpath₂, -, ps₂, hlisting₂, rfl⟩ := mapSize_answers ha₁ hm h₂
  obtain ⟨hpath₃, -, ps₃, hlisting₃, rfl⟩ := mapSize_answers ha hm h₃
  have hkeeps : ∀ e : Effect, e.Merges id true → e.Keeps id := fun e he => he.imp_right And.right
  have hagrees := agrees_of_scrubbed hp (hpath₂.mono hkeeps) (hpath₃.mono hkeeps) ha
    (recent_size ha₁ hm h₂) (recent_size ha hm h₃)
  refine ⟨?_, hagrees⟩
  obtain ⟨x₂, hx₂, hk₂⟩ := (hpath₂.kept ha₁).mapping hm
  obtain ⟨x₃, hx₃, -⟩ := (hpath₃.kept ha).mapping hm
  refine congrArg Except.ok (hlisting₃.length_eq hlisting₂ fun k => ?_)
  rw [entryAt?_of_content hx₂, entryAt?_of_content hx₃, (hagrees.content hx₂ hx₃).entries hk₂]

/-- An element of an evicted array or record is what it would have been. -/
theorem indexGet_evicted {r₂ r₃ : Except Refusal Value} (ha : Account.Kept ⟨s, F, 0, none⟩)
    (hp : Path Effect.Parks ⟨s, F, 0, none⟩ ⟨s₁, F, 0, none⟩)
    (hv : F.Covers (.container shape id)) (hs : shape ≠ .mapping)
    (h₂ : Sequence.indexGet (.container shape id) key s₁ = .ok (r₂, s₂))
    (h₃ : Sequence.indexGet (.container shape id) key s = .ok (r₃, s₃)) :
    r₂ = r₃ ∧ Agrees s₂ s₃ := by
  obtain ⟨hpath₂, hrecent₂, x₂, hx₂, hk₂, rfl⟩ := indexGet_answers (hp.kept ha) hv hs h₂
  obtain ⟨hpath₃, hrecent₃, x₃, hx₃, -, rfl⟩ := indexGet_answers ha hv hs h₃
  have hagrees : Agrees s₂ s₃ := agrees_of_scrubbed hp hpath₂ hpath₃ ha hrecent₂ hrecent₃
  rw [(hagrees.content hx₂ hx₃).elements hk₂]
  exact ⟨rfl, hagrees⟩

/-- The elements of an array or record are the same after it was evicted. -/
theorem sequence_evicted {r₂ r₃ : Except Refusal (Array Value)}
    (ha : Account.Kept ⟨s, F, 0, none⟩)
    (hp : Path Effect.Parks ⟨s, F, 0, none⟩ ⟨s₁, F, 0, none⟩)
    (hv : F.Covers (.container shape id)) (hs : shape ≠ .mapping)
    (h₂ : elements (.container shape id) s₁ = .ok (r₂, s₂))
    (h₃ : elements (.container shape id) s = .ok (r₃, s₃)) :
    r₂ = r₃ ∧ Agrees s₂ s₃ := by
  obtain ⟨hpath₂, hrecent₂, x₂, hx₂, hk₂, rfl⟩ := elements_answers (hp.kept ha) hv hs h₂
  obtain ⟨hpath₃, hrecent₃, x₃, hx₃, -, rfl⟩ := elements_answers ha hv hs h₃
  have hagrees : Agrees s₂ s₃ := agrees_of_scrubbed hp hpath₂ hpath₃ ha hrecent₂ hrecent₃
  rw [(hagrees.content hx₂ hx₃).elements hk₂]
  exact ⟨rfl, hagrees⟩

/-- The size of an array or record is the same after it was evicted. -/
theorem size_evicted {r₂ r₃ : Except Refusal Nat} (ha : Account.Kept ⟨s, F, 0, none⟩)
    (hp : Path Effect.Parks ⟨s, F, 0, none⟩ ⟨s₁, F, 0, none⟩)
    (hv : F.Covers (.container shape id)) (hs : shape ≠ .mapping)
    (h₂ : size (.container shape id) s₁ = .ok (r₂, s₂))
    (h₃ : size (.container shape id) s = .ok (r₃, s₃)) : r₂ = r₃ ∧ Agrees s₂ s₃ := by
  obtain ⟨rfl, x₂, hx₂, hk₂, rfl⟩ := size_answers (hp.kept ha) hv hs h₂
  obtain ⟨rfl, x₃, hx₃, -, rfl⟩ := size_answers ha hv hs h₃
  have hagrees := agrees_of_still hp (.refl _) (.refl _) ha
  rw [(hagrees.content hx₂ hx₃).elements hk₂]
  exact ⟨rfl, hagrees⟩

/-- What an evicted mapping lists is what it would have listed. -/
theorem mapElements_evicted {b : Bool} {r₂ r₃ : Except Refusal (Array Value)}
    (ha : Account.Kept ⟨s, F, 0, none⟩)
    (hp : Path Effect.Parks ⟨s, F, 0, none⟩ ⟨s₁, F, 0, none⟩)
    (hm : F.Covers (.container .mapping id)) (h₁ : evictOne id s = .ok (b, s₁))
    (h₂ : elements (.container .mapping id) s₁ = .ok (r₂, s₂))
    (h₃ : elements (.container .mapping id) s = .ok (r₃, s₃)) : r₂ = r₃ ∧ Agrees s₂ s₃ := by
  have hstill : ∀ e : Effect, e.Merges id false → e = .still := fun e he =>
    he.resolve_right fun h => absurd h.1 (by decide)
  have hpath₂ := (mapElements_answers (hp.kept ha) hm h₂).1.mono hstill
  have hpath₃ := (mapElements_answers ha hm h₃).1.mono hstill
  exact ⟨elements_evicted ha h₁ h₂ h₃, agrees_of_still hp hpath₂ hpath₃ ha⟩

/-- What needs a mapping is refused for any other container, evicted or not. -/
theorem refused_evicted {α : Type} {f : ContainerId → ClientM α} {r₂ r₃ : Except Refusal α}
    (ha : Account.Kept ⟨s, F, 0, none⟩)
    (hp : Path Effect.Parks ⟨s, F, 0, none⟩ ⟨s₁, F, 0, none⟩) (hs : shape ≠ .mapping)
    (h₂ : (Mapping.require (.container shape id) >>= f : ClientM α) s₁ = .ok (r₂, s₂))
    (h₃ : (Mapping.require (.container shape id) >>= f : ClientM α) s = .ok (r₃, s₃)) :
    r₂ = r₃ ∧ Agrees s₂ s₃ := by
  have hrefused : ∀ {s s' : Store} {r : Except Refusal α},
      (Mapping.require (.container shape id) >>= f : ClientM α) s = .ok (r, s') →
        r = .error (.expected "mapping" (.container shape id)) ∧ s' = s := by
    intro s s' r h
    cases shape with
    | mapping => exact absurd rfl hs
    | array | record =>
      cases h
      exact ⟨rfl, rfl⟩
  obtain ⟨rfl, rfl⟩ := hrefused h₂
  obtain ⟨rfl, rfl⟩ := hrefused h₃
  exact ⟨rfl, agrees_of_still hp (.refl _) (.refl _) ha⟩

end

/-- The requests that read one container. -/
inductive Operation.Reads (v : Value) : Operation → Prop
  | indexGet (key : Value) : Reads v (.indexGet v key)
  | mapGet (key : Value) : Reads v (.mapGet v key)
  | mapContains (key : Value) : Reads v (.mapContains v key)
  | elements : Reads v (.elements v)
  | size : Reads v (.size v)
  | mapSize : Reads v (.mapSize v)

section

variable {s s₁ s₂ s₃ : Store} {F : Refs} {id : ContainerId} {shape : Shape} {op : Operation}
  {outcome₂ outcome₃ : Outcome}

/-- A request that answers with what came of a reading. -/
theorem answering_evicted {α : Type} {x : ClientM α} {f : α → Answer}
    (h₂ : (x >>= fun a => pure (f a) : ClientM Answer) s₁ = .ok (outcome₂, s₂))
    (h₃ : (x >>= fun a => pure (f a) : ClientM Answer) s = .ok (outcome₃, s₃))
    (hx : ∀ {r₂ r₃ : Except Refusal α}, x s₁ = .ok (r₂, s₂) → x s = .ok (r₃, s₃) →
      r₂ = r₃ ∧ Agrees s₂ s₃) : outcome₂ = outcome₃ ∧ Agrees s₂ s₃ := by
  obtain ⟨r₂, hx₂, rfl⟩ := ClientM.bind_pure_eq_ok.mp h₂
  obtain ⟨r₃, hx₃, rfl⟩ := ClientM.bind_pure_eq_ok.mp h₃
  obtain ⟨rfl, hagrees⟩ := hx hx₂ hx₃
  exact ⟨rfl, hagrees⟩

/-- Reading an evicted array or record. -/
theorem Operation.Reads.evicted_sequence (hop : op.Reads (.container shape id))
    (hs : shape ≠ .mapping) (ha : Account.Kept ⟨s, F, 0, none⟩)
    (hp : Path Effect.Parks ⟨s, F, 0, none⟩ ⟨s₁, F, 0, none⟩)
    (hv : F.Covers (.container shape id)) (h₂ : s₁.perform op = .ok (outcome₂, s₂))
    (h₃ : s.perform op = .ok (outcome₃, s₃)) : outcome₂ = outcome₃ ∧ Agrees s₂ s₃ := by
  cases hop with
  | indexGet key => exact answering_evicted h₂ h₃ (indexGet_evicted ha hp hv hs)
  | elements => exact answering_evicted h₂ h₃ (sequence_evicted ha hp hv hs)
  | size => exact answering_evicted h₂ h₃ (size_evicted ha hp hv hs)
  | mapGet | mapContains | mapSize => exact answering_evicted h₂ h₃ (refused_evicted ha hp hs)

/-- Reading an evicted mapping. -/
theorem Operation.Reads.evicted_mapping {b : Bool} (hop : op.Reads (.container .mapping id))
    (ha : Account.Kept ⟨s, F, 0, none⟩)
    (hp : Path Effect.Parks ⟨s, F, 0, none⟩ ⟨s₁, F, 0, none⟩) (hd : ∀ v ∈ op.passed, F.Covers v)
    (h₁ : evictOne id s = .ok (b, s₁)) (h₂ : s₁.perform op = .ok (outcome₂, s₂))
    (h₃ : s.perform op = .ok (outcome₃, s₃)) : outcome₂ = outcome₃ ∧ Agrees s₂ s₃ := by
  cases hop with
  | indexGet key | mapGet key =>
    exact answering_evicted h₂ h₃ (mapGet_evicted ha hp (hd _ (.head _)) (hd _ (.tail _ (.head _))))
  | mapContains key =>
    exact answering_evicted h₂ h₃
      (mapContains_evicted ha hp (hd _ (.head _)) (hd _ (.tail _ (.head _))))
  | elements => exact answering_evicted h₂ h₃ (mapElements_evicted ha hp (hd _ (.head _)) h₁)
  | size | mapSize => exact answering_evicted h₂ h₃ (mapSize_evicted ha hp (hd _ (.head _)))

/-- A container that is evicted before it is read answers what it would have answered. -/
theorem Operation.Reads.evicted {v : Value} {r : Except Refusal Bool} (hop : op.Reads v)
    (ha : Account.Kept ⟨s, F, 0, none⟩) (hd : ∀ v ∈ op.passed, F.Covers v)
    (h₁ : evictContainer v s = .ok (r, s₁)) (h₂ : s₁.perform op = .ok (outcome₂, s₂))
    (h₃ : s.perform op = .ok (outcome₃, s₃)) : outcome₂ = outcome₃ ∧ Agrees s₂ s₃ := by
  have hp : Path Effect.Parks ⟨s, F, 0, none⟩ ⟨s₁, F, 0, none⟩ :=
    walk_evictContainer (.inl rfl) (fun _ id => .inr ⟨id, rfl⟩) ha h₁
  rcases evictContainer_eq_ok h₁ with ⟨-, rfl⟩ | ⟨shape, id, b, rfl, -, -, hevict⟩
  · obtain ⟨rfl, rfl⟩ := Prod.mk.inj (Except.ok.inj (h₂.symm.trans h₃))
    exact ⟨rfl, .refl _⟩
  · have hv : F.Covers (.container shape id) := by
      cases hop <;> exact hd _ (.head _)
    by_cases hs : shape = .mapping
    · subst hs
      exact hop.evicted_mapping ha hp hd hevict h₂ h₃
    · exact hop.evicted_sequence hs ha hp hv h₂ h₃

end

/-! ## What is in the swap -/

/-- The swap has the elements of the evicted containers, each under a ticket of its own. -/
structure Store.Deposited (s : Store) : Prop where
  evicted : ∀ {id x ticket n}, s.container? id = some x → x.elements = .evicted ticket n →
    x.overlay = none ∧ ∃ values, s.swap.buffers[ticket]? = some values ∧ values.size = n
  apart : ∀ {id id' x x' ticket n n'}, s.container? id = some x → s.container? id' = some x' →
    x.elements = .evicted ticket n → x'.elements = .evicted ticket n' → id = id'
  awaited : ∀ {ticket values}, s.swap.buffers[ticket]? = some values →
    ∃ id x, s.container? id = some x ∧ x.elements = .evicted ticket values.size

theorem Store.Stored.deposited {s : Store} (hs : s.Stored) (hc : s.Custody) : s.Deposited where
  evicted {id x ticket n} hx he := by
    have hclaim : s.claim? id = some (ticket, x.overlay) := by
      rw [claim?_of_container hx]
      simp only [Container.claim?, he]
    exact ⟨hc.clean hclaim, hs.length hx he⟩
  apart := hs.apart
  awaited hv := by
    obtain ⟨id, ht⟩ := hc.claimed hv
    obtain ⟨x, n, hx, he⟩ := ticket?_eq_some.mp ht
    obtain ⟨values, hv', rfl⟩ := hs.length hx he
    obtain rfl := Option.some.inj (hv.symm.trans hv')
    exact ⟨id, x, hx, he⟩

/-- The last reference to an evicted container is given up: its buffer leaves the swap. -/
theorem release_evicted {s : Store} {F : Refs} {v : Value} {shape : Shape} {id : ContainerId}
    {x : Container} {ticket : SwapTicket} {n : Nat} (hv : v = .container shape id)
    (ha : Account.Kept ⟨s, {v} + F, 0, none⟩) (hc : s.Custody) (hx : s.container? id = some x)
    (hone : x.refcount = 1) (he : x.elements = .evicted ticket n) :
    ∃ values t, s.swap.buffers[ticket]? = some values ∧ t.container? id = none ∧
      t.swap.buffers = s.swap.buffers.erase ticket ∧ release v s = releaseAll values.toList t := by
  subst hv
  obtain ⟨ho, values, hvalues, -⟩ := (ha.accounted.stored.deposited hc).evicted hx he
  obtain ⟨children, t, hdrop⟩ := succeeds_dropReference ha
  refine ⟨values, t, hvalues, ?_⟩
  have hdropped := dropReference_eq_ok hdrop
  have hall : release (.container shape id) s = releaseAll children t := by
    rw [release_eq]
    show drain [.container shape id] s = drain children.reverse t
    rw [drain_of_dropped hdrop, List.append_nil]
  rw [hall]
  cases hdropped with
  | scalar huncounted => cases huncounted
  | shared hx' hmany =>
    obtain rfl := Option.some.inj (hx.symm.trans hx')
    omega
  | @freed _ _ x' _ hx' _ hal =>
    obtain rfl := Option.some.inj (hx.symm.trans hx')
    refine ⟨?_, ?_, ?_⟩
    · have hbare := hal.container id
      rw [container?_without_self] at hbare
      exact Option.map_eq_none_iff.mp hbare
    · rw [hal.swap]
      simp only [Store.without, he]
      rfl
    · -- No overlay goes into the swap, so the buffer is all that the container held.
      rw [x.buffer_of_evicted _ he, Std.TreeMap.getD_eq_getD_getElem?, hvalues]
      simp [Container.overlayValues, ho]

namespace Client

variable {limits : Limits} {c c' : Client} {op : Operation} {outcome : Outcome} {id : ContainerId}
  {ticket : SwapTicket}

/-- Where requests of a disciplined client lead. -/
def Leads : Client → Client → Prop :=
  Relation.ReflTransGen fun c c' => ∃ op outcome, c.Requests op outcome c'

theorem custody_start (limits : Limits) : (⟨{ limits }, 0⟩ : Client).store.Custody where
  claimed hv := by simp at hv
  clean hclaim := by cases hclaim

theorem Reachable.custody (h : Reachable limits c) : c.store.Custody := by
  induction h with
  | start => exact custody_start limits
  | next h hop ih => exact (hop.path h.kept).custody h.kept ih

theorem Reachable.deposited (h : Reachable limits c) : c.store.Deposited :=
  Stored.deposited h.kept.accounted.stored h.custody

/-- An eviction leaves the elements of all containers alone. -/
theorem Requests.evicts_holdsSame (hr : c.Requests op outcome c') (ha : c.account.Kept)
    (hop : op.evicts = true) (id : ContainerId) : HoldsSame c.store c'.store id := by
  have hpath : Path (Effect.Leaves id) c.account ⟨c'.store, c.owned, 0, none⟩ := by
    cases op with
    | evict v =>
      obtain ⟨r, h, -⟩ := ClientM.bind_pure_eq_ok.mp hr.performed
      exact walk_evictContainer trivial (fun _ _ => trivial) ha h
    | evictDataspace ds =>
      obtain ⟨r, h, -⟩ := ClientM.bind_pure_eq_ok.mp hr.performed
      exact walk_evictDataspace trivial (fun _ _ => trivial) (fun _ _ => trivial) ha h
    | _ => cases hop
  exact hpath.holdsSame ha fun _ he => he

/--
An evicted container was evicted by a request at some time, when it held what it held before, and
the swap has had its elements since.
-/
theorem Reachable.evicted_at (h : Reachable limits c) (ht : c.store.ticket? id = some ticket) :
    ∃ c₀ op outcome c₁, Reachable limits c₀ ∧ op.evicts = true ∧ c₀.Requests op outcome c₁ ∧
      Leads c₁ c ∧ c₀.store.ticket? id ≠ some ticket ∧ c₁.store.ticket? id = some ticket ∧
      HoldsSame c₀.store c₁.store id ∧
      c.store.swap.buffers[ticket]? = c₁.store.swap.buffers[ticket]? := by
  induction h with
  | start => cases ht
  | @next c c' op outcome h hop ih =>
    rcases (hop.path h.kept).held h.kept h.custody ht with ⟨hheld, hsame⟩ | ⟨⟨-, hevicts⟩, hle⟩
    · obtain ⟨c₀, op₀, outcome₀, c₁, h₀, hevicts, hr, hleads, hbefore, hafter, hholds, hbuffer⟩ :=
        ih hheld
      exact ⟨c₀, op₀, outcome₀, c₁, h₀, hevicts, hr, hleads.tail ⟨op, outcome, hop⟩, hbefore,
        hafter, hholds, hsame.trans hbuffer⟩
    · refine ⟨c, op, outcome, c', h, hevicts, hop, .refl, fun hheld => ?_, ht,
        hop.evicts_holdsSame h.kept hevicts id, rfl⟩
      have hlt := h.kept.accounted.stored.ticket_lt hheld
      exact absurd hlt (Nat.not_lt.mpr hle)

/-- A ticket that its container no longer holds has no buffer. -/
theorem Requests.withdrawn (h : Reachable limits c) (hr : c.Requests op outcome c')
    (ht : c.store.ticket? id = some ticket) (ht' : c'.store.ticket? id ≠ some ticket) :
    c'.store.swap.buffers[ticket]? = none := by
  cases hv : c'.store.swap.buffers[ticket]? with
  | none => rfl
  | some values =>
    obtain ⟨other, hother⟩ := (h.next hr).custody.claimed hv
    have hs := h.kept.accounted.stored
    rcases (hr.path h.kept).held h.kept h.custody hother with ⟨hheld, -⟩ | ⟨-, hle⟩
    · obtain rfl := hs.ticket_inj hheld ht
      exact absurd hother ht'
    · exact absurd (hs.ticket_lt ht) (Nat.not_lt.mpr hle)

/--
Eviction loses nothing. The swap has one buffer for each evicted container, of the recorded length,
under a ticket that no other container holds, and no other buffers; nothing is pending for evicted
containers. The buffer has the elements that the container held when it was evicted. It leaves the
swap as soon as its container is resident or freed, and what a freed container held is released. So
no request finds a buffer of another length than was recorded, and a container that is evicted
before it is read answers, and leaves behind, what it would have answered and left behind anyway.
-/
theorem Reachable.eviction_loses_nothing (h : Reachable limits c) :
    c.store.Deposited ∧
    (∀ id x ticket n, c.store.container? id = some x → x.elements = .evicted ticket n →
      ∃ c₀ op outcome c₁ y, Reachable limits c₀ ∧ op.evicts = true ∧ c₀.Requests op outcome c₁ ∧
        Leads c₁ c ∧ c₀.store.ticket? id ≠ some ticket ∧ c₁.store.ticket? id = some ticket ∧
        c₁.store.content? id = some y ∧ y.overlay = none ∧ HoldsSame c₀.store c₁.store id ∧
        c.store.swap.buffers[ticket]? = some y.buffer) ∧
    (∀ op outcome c', c.Requests op outcome c' → ∀ id ticket,
      c.store.ticket? id = some ticket → c'.store.ticket? id ≠ some ticket →
      c'.store.swap.buffers[ticket]? = none) ∧
    (∀ v shape id x ticket n, v = .container shape id → v ∈ c.owned →
      c.store.container? id = some x → x.refcount = 1 → x.elements = .evicted ticket n →
      ∃ values t c', c.store.swap.buffers[ticket]? = some values ∧ t.container? id = none ∧
        t.swap.buffers = c.store.swap.buffers.erase ticket ∧
        c.Requests (.release v) (.ok .done) c' ∧ releaseAll values.toList t = .ok ((), c'.store)) ∧
    (∀ op : Operation, (∀ v ∈ op.passed, c.owned.Covers v) → ∀ id n expected,
      c.store.perform op ≠ .error (.swappedSize id n expected)) ∧
    ∀ (v : Value) (op : Operation), op.Reads v → (∀ w ∈ op.passed, c.owned.Covers w) →
      ∃ evicted outcome c₁ c₂ c₃, c.Requests (.evict v) evicted c₁ ∧
        c₁.Requests op outcome c₂ ∧ c.Requests op outcome c₃ ∧ c₂.owned = c₃.owned ∧
        Agrees c₂.store c₃.store := by
  refine ⟨h.deposited, fun id x ticket n hx he => ?_,
    fun op outcome c' hr id ticket ht ht' => hr.withdrawn h ht ht', ?_,
    fun op hop id n expected hf => ?_, fun v op hop hd => ?_⟩
  · obtain ⟨c₀, op, outcome, c₁, h₀, hevicts, hr, hleads, hbefore, hafter, hholds, hbuffer⟩ :=
      h.evicted_at (ticket?_eq_some.mpr ⟨x, n, hx, he⟩)
    obtain ⟨x₁, n₁, hx₁, he₁⟩ := ticket?_eq_some.mp hafter
    obtain ⟨ho, values, hvalues, -⟩ := (h₀.next hr).deposited.evicted hx₁ he₁
    refine ⟨c₀, op, outcome, c₁, _, h₀, hevicts, hr, hleads, hbefore, hafter,
      content?_of_container hx₁, ?_, hholds, ?_⟩
    · exact ho
    · show c.store.swap.buffers[ticket]? = some (x₁.buffer c₁.store.swap).toArray
      rw [hbuffer, hvalues, x₁.buffer_of_evicted _ he₁, Std.TreeMap.getD_eq_getD_getElem?, hvalues]
      simp
  · intro v shape id x ticket n hv hmem hx hone he
    have hcovers : ∀ w ∈ (Operation.release v).passed, c.owned.Covers w := fun w hw =>
      List.mem_singleton.mp hw ▸ Refs.covers_of_mem hmem
    obtain ⟨outcome, c', hr⟩ := h.request (.release v) hcovers nofun
    have ha := h.kept
    unfold Client.account at ha
    rw [← Multiset.cons_erase hmem, ← Multiset.singleton_add] at ha
    obtain ⟨values, t, hvalues, hgone, hbuffers, hrelease⟩ :=
      release_evicted hv ha h.custody hx hone he
    obtain ⟨u, s₁, hdone, hp⟩ := ClientM.lift_bind_eq_ok.mp hr.performed
    obtain ⟨rfl, rfl⟩ := ClientM.pure_eq_ok.mp hp
    exact ⟨values, t, c', hvalues, hgone, hbuffers, hr, hrelease ▸ hdone⟩
  · obtain ⟨⟨_, hdangling⟩, -⟩ := h.dangling hop hf
    cases hdangling
  · have hv : ∀ w ∈ (Operation.evict v).passed, c.owned.Covers w := by
      intro w hw
      obtain rfl := List.mem_singleton.mp hw
      cases hop <;> exact hd _ (.head _)
    have hne : ∀ ds, op ≠ .evictDataspace ds := by
      rintro ds rfl
      cases hop
    obtain ⟨evicted, c₁, hevict⟩ := h.request (.evict v) hv nofun
    obtain ⟨r, hs, rfl⟩ := ClientM.bind_pure_eq_ok.mp hevict.performed
    have howned : c₁.owned = c.owned := by
      rw [hevict.settled]
      cases r <;> rfl
    -- The request is made twice, once after the eviction and once in its place.
    obtain ⟨outcome₂, c₂, h₂⟩ := (h.next hevict).request op (howned ▸ hd) hne
    obtain ⟨outcome₃, c₃, h₃⟩ := h.request op hd hne
    obtain ⟨rfl, hagrees⟩ := hop.evicted h.kept hd hs h₂.performed h₃.performed
    refine ⟨_, outcome₂, c₁, c₂, c₃, hevict, h₂, h₃, ?_, hagrees⟩
    rw [h₂.settled, h₃.settled, howned]

/-- Requests after which a mapping with a pending write and an array are evicted. -/
def evicting : List Operation :=
  [.createDataspace 0, .createArray ⟨0⟩ 2, .createMapping ⟨0⟩ 0,
    .assign (.container .mapping ⟨1⟩) (.int 1) (.container .array ⟨0⟩),
    .evict (.container .mapping ⟨1⟩)]

/-- A mapping that is evicted, and listed with and without that. -/
theorem eviction_loses_nothing_evicting : ∃ c x ticket n, Reachable {} c ∧
    c.store.container? ⟨1⟩ = some x ∧ x.elements = .evicted ticket n ∧ x.overlay = none ∧
    (∃ values, c.store.swap.buffers[ticket]? = some values ∧ values.size = n) ∧
    ∃ evicted outcome c₁ c₂ c₃, c.Requests (.evict (.container .mapping ⟨1⟩)) evicted c₁ ∧
      c₁.Requests (.elements (.container .mapping ⟨1⟩)) outcome c₂ ∧
      c.Requests (.elements (.container .mapping ⟨1⟩)) outcome c₃ ∧
      c₂.owned = c₃.owned ∧ Agrees c₂.store c₃.store := by
  obtain ⟨c, hc, hf⟩ := exists_visit evicting
    (fun c => ((c.store.container? ⟨1⟩).map (·.isResident),
      decide (c.owned.Covers (.container .mapping ⟨1⟩))))
    (a := (some false, true)) (by cbv)
  obtain ⟨hresident, howned⟩ := Prod.mk.inj hf
  obtain ⟨x, hx, hresident⟩ := Option.map_eq_some_iff.mp hresident
  obtain ⟨ticket, n, he⟩ : ∃ ticket n, x.elements = .evicted ticket n := by
    unfold Container.isResident at hresident
    cases he : x.elements with
    | resident values => simp [he] at hresident
    | evicted ticket n => exact ⟨ticket, n, rfl⟩
  obtain ⟨hdeposited, -, -, -, -, hreads⟩ := Reachable.eviction_loses_nothing hc
  obtain ⟨ho, hbuffer⟩ := hdeposited.evicted hx he
  refine ⟨c, x, ticket, n, hc, hx, he, ho, hbuffer, hreads _ _ .elements fun w hw => ?_⟩
  exact List.mem_singleton.mp hw ▸ of_decide_eq_true howned

end Client

end PlaneStore
