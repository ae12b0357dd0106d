import PlaneStore.Proofs.Inversion.Basic
import Mathlib.Data.List.Forall2

/-!
# What the functions of the store did

One lemma for each function that several proofs look into: if the function succeeded, these are the
steps that it took, down to those that have lemmas of their own. Tests are decided, elementary
changes are spelled out, and branches that end in a fault are gone. What is proved of a function
starts from its lemma and does not open the function again.
-/

namespace PlaneStore

open Store StoreM

namespace Store

variable {s s' : Store} {id : ContainerId} {ds : DataspaceId} {u : Unit}

/-! ## References -/

theorem drain_of_dropped {v : Value} {children rest : List Value}
    (h : dropReference v s = .ok (children, s')) :
    drain (v :: rest) s = drain (children.reverse ++ rest) s' := by
  rw [drain]
  split
  · next he => cases h.symm.trans he
  · next hd =>
    cases h.symm.trans hd
    rfl

/-- The references on a stack are given up one by one, and what that sets free comes on top. -/
inductive Drains : List Value → Store → Store → Prop
  | done (s : Store) : Drains [] s s
  | drop {v : Value} {children rest : List Value} {s t s' : Store}
      (hd : dropReference v s = .ok (children, t)) (h : Drains (children.reverse ++ rest) t s') :
      Drains (v :: rest) s s'

theorem drain_eq_ok {work : List Value} (h : drain work s = .ok (u, s')) : Drains work s s' := by
  induction work, s using drain.induct with
  | case1 s =>
    rw [drain] at h
    cases h
    exact .done _
  | case2 s v rest e he =>
    rw [drain] at h
    split at h
    · cases h
    · next hd => cases he.symm.trans hd
  | case3 s v rest children t hd ih =>
    rw [drain_of_dropped hd] at h
    exact .drop hd (ih h)

/-! ## Sweep lists -/

/-- A container is linked in front of the list of its new owner. -/
theorem link_eq_ok (h : link ds id s = .ok (u, s')) :
    ∃ d c s₁ s₂, s.dataspace? ds = some d ∧ setNext ds none (some id) s = .ok ((), s₁) ∧
      s₁.container? id = some c ∧
      setPrev (some id) d.head
        (s₁.withContainer id { c with owner := ds, prev := none, next := d.head }) = .ok ((), s₂) ∧
      recount ds (· + 1) s₂ = .ok ((), s') := by
  obtain ⟨t, s₁, h₁, h⟩ := bind_eq_ok.mp h
  obtain ⟨rfl, rfl⟩ := get_eq_ok.mp h₁
  cases hd : s.dataspace? ds with
  | none =>
    simp only [hd] at h
    exact absurd h fault_ne_ok
  | some d =>
    simp only [hd] at h
    obtain ⟨_, s₂, h₂, h⟩ := bind_eq_ok.mp h
    obtain ⟨_, s₃, h₃, h⟩ := bind_eq_ok.mp h
    obtain ⟨_, s₄, h₄, h₅⟩ := bind_eq_ok.mp h
    obtain ⟨c, hc, rfl⟩ := modifyContainer_eq_ok.mp h₃
    exact ⟨d, c, s₂, s₄, rfl, h₂, hc, h₄, h₅⟩

theorem unlink_eq_ok (h : unlink id s = .ok (u, s')) :
    ∃ c s₁ s₂, s.container? id = some c ∧
      setNext c.owner c.prev c.next (s.withContainer id { c with prev := none, next := none }) =
        .ok ((), s₁) ∧
      setPrev c.prev c.next s₁ = .ok ((), s₂) ∧ recount c.owner (· - 1) s₂ = .ok ((), s') := by
  obtain ⟨c, s₁, h₁, h⟩ := bind_eq_ok.mp h
  obtain ⟨hc, rfl⟩ := container_eq_ok.mp h₁
  obtain ⟨_, s₂, h₂, h⟩ := bind_eq_ok.mp h
  obtain ⟨_, s₃, h₃, h⟩ := bind_eq_ok.mp h
  obtain ⟨_, s₄, h₄, h₅⟩ := bind_eq_ok.mp h
  obtain ⟨c', hc', rfl⟩ := modifyContainer_eq_ok.mp h₂
  obtain rfl := Option.some.inj (hc.symm.trans hc')
  exact ⟨c, s₃, s₄, hc, h₃, h₄, h₅⟩

/-! ## Residency -/

/-- Elements that are not resident come from the swap, as many as are expected. -/
theorem faultIn_eq_ok (h : faultIn id s = .ok (u, s')) :
    ∃ c, s.container? id = some c ∧
      ((∃ values, c.elements = .resident values ∧ s' = s) ∨
        ∃ ticket, c.elements = .evicted ticket (s.swap.load ticket).1.size ∧
          s' = { s with swap := (s.swap.load ticket).2 }.withContainer id
            { c with elements := .resident (s.swap.load ticket).1 }) := by
  obtain ⟨c, s₁, h₁, h⟩ := bind_eq_ok.mp h
  obtain ⟨hc, rfl⟩ := container_eq_ok.mp h₁
  refine ⟨c, hc, ?_⟩
  cases he : c.elements with
  | resident values =>
    simp only [he] at h
    obtain ⟨-, rfl⟩ := pure_eq_ok.mp h
    exact .inl ⟨values, rfl, rfl⟩
  | evicted ticket expected =>
    simp only [he] at h
    obtain ⟨values, s₂, h₂, h⟩ := bind_eq_ok.mp h
    obtain ⟨rfl, rfl⟩ := Prod.mk.inj (Except.ok.inj h₂)
    split at h
    · next hn =>
      obtain ⟨c', hc', rfl⟩ := modifyContainer_eq_ok.mp h
      obtain rfl := Option.some.inj (hc.symm.trans hc')
      exact .inr ⟨ticket, congrArg (Elements.evicted ticket) hn.symm, rfl⟩
    · exact absurd h fault_ne_ok

/-- Looking at values changes nothing. -/
theorem mapM_scrub_eq_ok {vs ws : List Value} (h : vs.mapM scrub s = .ok (ws, s')) :
    s = s' ∧ List.Forall₂ (fun v w => s.scrubbed v = .ok w) vs ws := by
  induction vs generalizing ws with
  | nil =>
    obtain ⟨rfl, rfl⟩ := mapM_nil_eq_ok.mp h
    exact ⟨rfl, .nil⟩
  | cons v vs ih =>
    obtain ⟨w, s₁, ws₁, h₁, h₂, rfl⟩ := mapM_cons_eq_ok.mp h
    obtain ⟨hw, rfl⟩ := scrub_eq_ok.mp h₁
    obtain ⟨rfl, hws⟩ := ih h₂
    exact ⟨rfl, .cons hw hws⟩

/-- A scrub loads the elements and, once in an epoch, gives up what is lost of them. -/
theorem scrubElements_eq_ok (h : scrubElements id s = .ok (u, s')) :
    ∃ t c, faultIn id s = .ok ((), t) ∧ t.container? id = some c ∧
      (c.scrubEpoch = t.objects.epoch ∧ s' = t ∨
        c.scrubEpoch ≠ t.objects.epoch ∧ ∃ values seen, c.elements = .resident values ∧
          List.Forall₂ (fun v w => t.scrubbed v = .ok w) values.toList seen ∧
          relinquish c.owner
              ((values.toList.zip seen).filterMap fun (v, w) => if w ≠ v then some v else none)
              (t.withContainer id
                { c with scrubEpoch := t.objects.epoch, elements := .resident seen.toArray }) =
            .ok ((), s')) := by
  obtain ⟨_, t, h₁, h⟩ := bind_eq_ok.mp h
  obtain ⟨c, s₂, h₂, h⟩ := bind_eq_ok.mp h
  obtain ⟨hc, rfl⟩ := container_eq_ok.mp h₂
  obtain ⟨_, s₂, h₂, h⟩ := bind_eq_ok.mp h
  obtain ⟨rfl, rfl⟩ := get_eq_ok.mp h₂
  refine ⟨t, c, h₁, hc, ?_⟩
  split at h
  · next hstale =>
    obtain ⟨values, s₃, h₃, h⟩ := bind_eq_ok.mp h
    obtain ⟨⟨c', hc', he⟩, rfl⟩ := residentValues_eq_ok.mp h₃
    obtain rfl := Option.some.inj (hc.symm.trans hc')
    obtain ⟨seen, s₃, h₃, h⟩ := bind_eq_ok.mp h
    obtain ⟨rfl, hseen⟩ := mapM_scrub_eq_ok h₃
    obtain ⟨_, s₃, h₃, h⟩ := bind_eq_ok.mp h
    obtain ⟨c', hc', rfl⟩ := modifyContainer_eq_ok.mp h₃
    obtain rfl := Option.some.inj (hc.symm.trans hc')
    exact .inr ⟨of_decide_eq_true hstale, values, seen, he, hseen, h⟩
  · next hfresh =>
    obtain ⟨-, rfl⟩ := pure_eq_ok.mp h
    exact .inl ⟨of_not_not fun hne => hfresh (decide_eq_true hne), rfl⟩

/-! ## Creation -/

/-- No limit stands against a container of a size. -/
def Room (s : Store) (n : Nat) : Prop :=
  n ≤ s.limits.containerSize ∧ s.heap.liveContainers < s.limits.containers

theorem requireDataspace_eq_ok {r : Except Refusal Dataspace}
    (h : requireDataspace ds s = .ok (r, s')) :
    s = s' ∧ ∀ d, r = .ok d → s.dataspace? ds = some d := by
  have h := ClientM.get_bind_eq_ok.mp h
  cases hd : s.dataspace? ds with
  | none =>
    simp only [hd] at h
    obtain ⟨rfl, rfl⟩ := ClientM.refuse_eq_ok.mp h
    exact ⟨rfl, nofun⟩
  | some d =>
    simp only [hd] at h
    obtain ⟨rfl, rfl⟩ := ClientM.pure_eq_ok.mp h
    exact ⟨rfl, fun d' hd' => congrArg some (Except.ok.inj hd')⟩

theorem requireRoom_eq_ok {n : Nat} {r : Except Refusal Unit}
    (h : requireRoom n s = .ok (r, s')) : s = s' ∧ (r = .ok () → s.Room n) := by
  have h := ClientM.get_bind_eq_ok.mp h
  split at h
  · obtain ⟨rfl, rfl⟩ := ClientM.refuse_eq_ok.mp h
    exact ⟨rfl, nofun⟩
  next hsize =>
  split at h
  · obtain ⟨rfl, rfl⟩ := ClientM.refuse_eq_ok.mp h
    exact ⟨rfl, nofun⟩
  next hlive =>
  exact ⟨(ClientM.pure_eq_ok.mp h).2, fun _ => ⟨Nat.not_lt.mp hsize, Nat.not_le.mp hlive⟩⟩

section

variable {α : Type} {r : Except Refusal α}

/-- A request that names a dataspace goes on if that is there. -/
theorem requireDataspace_bind_eq_ok {g : Dataspace → ClientM α}
    (h : (requireDataspace ds >>= g) s = .ok (r, s')) :
    (s.dataspace? ds = none ∧ r = .error (.unknownDataspace ds) ∧ s' = s) ∨
      ∃ d, s.dataspace? ds = some d ∧ g d s = .ok (r, s') := by
  rcases ClientM.bind_eq_ok.mp h with ⟨e, h₁, rfl⟩ | ⟨d, s₁, h₁, h⟩
  · have h₁ := ClientM.get_bind_eq_ok.mp h₁
    cases hd : s.dataspace? ds with
    | none =>
      simp only [hd] at h₁
      obtain ⟨he, rfl⟩ := ClientM.refuse_eq_ok.mp h₁
      exact .inl ⟨rfl, by rw [Except.error.inj he], rfl⟩
    | some d =>
      simp only [hd] at h₁
      cases (ClientM.pure_eq_ok.mp h₁).1
  · obtain ⟨rfl, hd⟩ := requireDataspace_eq_ok h₁
    exact .inr ⟨d, hd d rfl, h⟩

/-- A request that makes a container goes on if no limit stands against it. -/
theorem requireRoom_bind_eq_ok {n : Nat} {g : Unit → ClientM α}
    (h : (requireRoom n >>= g) s = .ok (r, s')) :
    (s.limits.containerSize < n ∧ r = .error (.containerTooLarge n s.limits.containerSize) ∧
      s' = s) ∨
    (n ≤ s.limits.containerSize ∧ s.limits.containers ≤ s.heap.liveContainers ∧
      r = .error (.tooManyContainers s.limits.containers) ∧ s' = s) ∨
    s.Room n ∧ g () s = .ok (r, s') := by
  rcases ClientM.bind_eq_ok.mp h with ⟨e, h₁, rfl⟩ | ⟨_, s₁, h₁, h⟩
  · have h₁ := ClientM.get_bind_eq_ok.mp h₁
    split at h₁
    · next hlt =>
      obtain ⟨he, rfl⟩ := ClientM.refuse_eq_ok.mp h₁
      exact .inl ⟨hlt, by rw [Except.error.inj he], rfl⟩
    next hle =>
    split at h₁
    · next hmany =>
      obtain ⟨he, rfl⟩ := ClientM.refuse_eq_ok.mp h₁
      exact .inr (.inl ⟨Nat.not_lt.mp hle, hmany, by rw [Except.error.inj he], rfl⟩)
    · cases (ClientM.pure_eq_ok.mp h₁).1
  · obtain ⟨rfl, hroom⟩ := requireRoom_eq_ok h₁
    exact .inr (.inr ⟨hroom rfl, h⟩)

end

/--
An allocation imports the elements, installs the container, links it and lists it on the plane.
-/
theorem allocate_eq_ok {owner : DataspaceId} {kind : Kind} {values : List Value}
    (h : allocate owner kind values s = .ok (id, s')) :
    ∃ s₁ s₂ s₃, values.forM (addImport owner) s = .ok (PUnit.unit, s₁) ∧
      install owner kind values s₁ = .ok (id, s₂) ∧ link owner id s₂ = .ok ((), s₃) ∧
      s' = s₃.withPlane fun p => { p with census := p.census.insert id .fresh } := by
  obtain ⟨_, s₁, h₁, h⟩ := bind_eq_ok.mp h
  obtain ⟨id', s₂, h₂, h⟩ := bind_eq_ok.mp h
  obtain ⟨_, s₃, h₃, h⟩ := bind_eq_ok.mp h
  obtain ⟨_, s₄, h₄, h⟩ := bind_eq_ok.mp h
  obtain ⟨rfl, rfl⟩ := pure_eq_ok.mp h
  exact ⟨s₁, s₂, s₃, h₁, h₂, h₃, modifyPlane_eq_ok.mp h₄⟩

/-- A container from storage is allocated, and then gets the tag that it had. -/
theorem allocate_retag_eq_ok {owner : DataspaceId} {kind : Kind} {tag : Nat} {values : List Value}
    {r : Except Refusal Value} (h : (do
      let id ← allocate owner kind values
      modifyContainer id fun c => { c with tag }
      updateHeap fun h => .ok (h.observeTag tag)
      return .ofContainer kind id : ClientM Value) s = .ok (r, s')) :
    ∃ id t c, allocate owner kind values s = .ok (id, t) ∧ t.container? id = some c ∧
      r = .ok (.ofContainer kind id) ∧
      s' = { t.withContainer id { c with tag } with
        heap := (t.withContainer id { c with tag }).heap.observeTag tag } := by
  obtain ⟨id, t, h₁, h⟩ := ClientM.lift_bind_eq_ok.mp h
  obtain ⟨_, s₂, h₂, h⟩ := ClientM.lift_bind_eq_ok.mp h
  obtain ⟨_, s₃, h₃, h⟩ := ClientM.lift_bind_eq_ok.mp h
  obtain ⟨rfl, rfl⟩ := ClientM.pure_eq_ok.mp h
  obtain ⟨c, hc, rfl⟩ := modifyContainer_eq_ok.mp h₂
  obtain ⟨heap, hheap, rfl⟩ := updateHeap_eq_ok.mp h₃
  obtain rfl := Except.ok.inj hheap
  exact ⟨id, t, c, h₁, hc, rfl, rfl⟩

/--
A container is refused if the dataspace is not there, a key has no value, or there is no room.
-/
theorem restore_eq_ok {kind : Kind} {tag : Nat} {elements : List Value} {r : Except Refusal Value}
    (h : restore ds kind tag elements s = .ok (r, s')) :
    ((s.dataspace? ds = none ∨ (kind = .mapping ∧ elements.length % 2 ≠ 0) ∨
        ¬ s.Room (kind.entries elements.length)) ∧ (∃ e, r = .error e) ∧ s' = s) ∨
    s.Room (kind.entries elements.length) ∧
      ∃ values s₁ copied s₂ id t c, restoredElements kind elements s = .ok (values, s₁) ∧
        copies values s₁ = .ok (copied, s₂) ∧ allocate ds kind copied s₂ = .ok (id, t) ∧
        t.container? id = some c ∧ r = .ok (.ofContainer kind id) ∧
        s' = { t.withContainer id { c with tag } with
          heap := (t.withContainer id { c with tag }).heap.observeTag tag } := by
  rcases requireDataspace_bind_eq_ok h with ⟨hd, rfl, rfl⟩ | ⟨d, -, h⟩
  · exact .inl ⟨.inl hd, ⟨_, rfl⟩, rfl⟩
  split at h
  · next hodd =>
    obtain ⟨rfl, rfl⟩ := ClientM.refuse_eq_ok.mp h
    exact .inl ⟨.inr (.inl hodd), ⟨_, rfl⟩, rfl⟩
  rcases requireRoom_bind_eq_ok h with ⟨hlarge, rfl, rfl⟩ | ⟨-, hmany, rfl, rfl⟩ | ⟨hroom, h⟩
  · exact .inl ⟨.inr (.inr fun hroom => Nat.not_lt.mpr hroom.1 hlarge), ⟨_, rfl⟩, rfl⟩
  · exact .inl ⟨.inr (.inr fun hroom => Nat.not_le.mpr hroom.2 hmany), ⟨_, rfl⟩, rfl⟩
  obtain ⟨values, s₁, h₁, h⟩ := ClientM.lift_bind_eq_ok.mp h
  obtain ⟨copied, s₂, h₂, h⟩ := ClientM.lift_bind_eq_ok.mp h
  obtain ⟨id, t, c, h₃, hc, rfl, rfl⟩ := allocate_retag_eq_ok h
  exact .inr ⟨hroom, values, s₁, copied, s₂, id, t, c, h₁, h₂, h₃, hc, rfl, rfl⟩

/-! ## Addresses -/

/-- A container is granted by its handle. -/
theorem requireContainer_eq_ok {v : Value} {expected : String} {r : Except Refusal ContainerId}
    (h : requireContainer v expected s = .ok (r, s')) :
    s = s' ∧ ∀ id, r = .ok id → ∃ shape, v = .container shape id := by
  cases v with
  | container shape x =>
    obtain ⟨rfl, rfl⟩ := ClientM.pure_eq_ok.mp h
    exact ⟨rfl, fun id hid => ⟨shape, by rw [Except.ok.inj hid]⟩⟩
  | _ =>
    obtain ⟨rfl, rfl⟩ := ClientM.refuse_eq_ok.mp h
    exact ⟨rfl, nofun⟩

/-- A request for a container goes on with the slot of the value. -/
theorem requireContainer_bind_eq_ok {α : Type} {v : Value} {expected : String}
    {g : ContainerId → ClientM α} {r : Except Refusal α}
    (h : (requireContainer v expected >>= g) s = .ok (r, s')) :
    ((∃ e, r = .error e) ∧ s = s') ∨
      ∃ shape id, v = .container shape id ∧ g id s = .ok (r, s') := by
  rcases ClientM.bind_eq_ok.mp h with ⟨e, h₁, rfl⟩ | ⟨id, s₁, h₁, h⟩
  · exact .inl ⟨⟨e, rfl⟩, (requireContainer_eq_ok h₁).1⟩
  · obtain ⟨rfl, hid⟩ := requireContainer_eq_ok h₁
    obtain ⟨shape, hv⟩ := hid id rfl
    exact .inr ⟨shape, id, hv, h⟩

end Store

namespace Mapping

variable {s s' : Store} {id : ContainerId} {u : Unit}

theorem require_eq_ok {v : Value} {r : Except Refusal ContainerId}
    (h : Mapping.require v s = .ok (r, s')) :
    s = s' ∧ ∀ id, r = .ok id → v = .container .mapping id := by
  unfold Mapping.require at h
  split at h
  · obtain ⟨rfl, rfl⟩ := ClientM.pure_eq_ok.mp h
    exact ⟨rfl, fun id hid => by rw [Except.ok.inj hid]⟩
  · obtain ⟨rfl, rfl⟩ := ClientM.refuse_eq_ok.mp h
    exact ⟨rfl, fun id hid => by cases hid⟩

/-- A request for a mapping is refused to all else. -/
theorem require_bind_eq_ok {α : Type} {v : Value} {g : ContainerId → ClientM α}
    {r : Except Refusal α} (h : (Mapping.require v >>= g) s = .ok (r, s')) :
    ((∀ id, v ≠ .container .mapping id) ∧ r = .error (.expected "mapping" v) ∧ s = s') ∨
      ∃ id, v = .container .mapping id ∧ g id s = .ok (r, s') := by
  by_cases hmap : ∃ id, v = .container .mapping id
  · obtain ⟨id, rfl⟩ := hmap
    exact .inr ⟨id, rfl, h⟩
  have hm := not_exists.mp hmap
  have hrefuse : Mapping.require v = ClientM.refuse (.expected "mapping" v) := by
    unfold Mapping.require
    split
    · exact absurd rfl (hm _)
    · rfl
  rw [hrefuse] at h
  rcases ClientM.bind_eq_ok.mp h with ⟨e, h₁, rfl⟩ | ⟨id, s₁, h₁, -⟩
  · obtain ⟨he, rfl⟩ := ClientM.refuse_eq_ok.mp h₁
    exact .inl ⟨hm, by rw [Except.error.inj he], rfl⟩
  · cases (ClientM.refuse_eq_ok.mp h₁).1

/-! ## Mappings -/

theorem Merge.step_eq_ok {h : Heap} {m m' : Merge} {e : OverlayEntry}
    (hs : Merge.step h id m e = .ok m') :
    (e.added = true ∧ m' = { m with added := m.added ++ [(e.key, e.value)] }) ∨
      ∃ i, e.added = false ∧ h.findSorted m.values 2 e.key = .ok (.at i) ∧
        m' = { m with
          values := m.values.setIfInBounds (2 * i + 1) e.value
          released := m.released ++ [m.values.getD (2 * i + 1) .nil, e.key] } := by
  unfold Merge.step at hs
  split at hs
  · next hadd => exact .inl ⟨hadd, (Fallible.pure_eq_ok.mp hs).symm⟩
  · next hadd =>
    obtain ⟨f, hf, hs⟩ := Fallible.bind_eq_ok.mp hs
    cases f with
    | absent => cases hs
    | «at» i => exact .inr ⟨i, eq_false_of_ne_true hadd, hf, (Fallible.pure_eq_ok.mp hs).symm⟩

/-- A merge takes the updates first and merges the sorted additions with the pairs then. -/
theorem merged_eq_ok {h : Heap} {overlay : Overlay} {values values' : Array Value}
    {released : List Value} (hm : merged h id overlay values = .ok (values', released)) :
    ∃ m sorted pairs, overlay.toList.foldlM (Merge.step h id) { values } = .ok m ∧
      h.sortPairs m.added = .ok sorted ∧
      h.mergePairs (Pair.ofBuffer m.values) sorted = .ok pairs ∧
      values' = Pair.toBuffer pairs ∧ released = m.released := by
  obtain ⟨m, hfold, hm⟩ := Fallible.bind_eq_ok.mp hm
  obtain ⟨sorted, hsort, hm⟩ := Fallible.bind_eq_ok.mp hm
  obtain ⟨pairs, hpairs, hm⟩ := Fallible.bind_eq_ok.mp hm
  obtain ⟨rfl, rfl⟩ := Prod.mk.inj (Fallible.pure_eq_ok.mp hm)
  exact ⟨m, sorted, pairs, hfold, hsort, hpairs, rfl, rfl⟩

/-- The pairs take the overlay in, if there is one. -/
theorem absorbOverlay_eq_ok {released : List Value}
    (h : absorbOverlay id s = .ok (released, s')) :
    ∃ c, s.container? id = some c ∧
      ((c.overlay = none ∧ released = [] ∧ s' = s) ∨
        ∃ overlay values values', c.overlay = some overlay ∧ c.elements = .resident values ∧
          merged s.heap id overlay values = .ok (values', released) ∧
          s' = s.withContainer id { c with overlay := none, elements := .resident values' }) := by
  obtain ⟨c, s₁, h₁, h⟩ := bind_eq_ok.mp h
  obtain ⟨hc, rfl⟩ := container_eq_ok.mp h₁
  refine ⟨c, hc, ?_⟩
  cases ho : c.overlay with
  | none =>
    simp only [ho] at h
    obtain ⟨rfl, rfl⟩ := pure_eq_ok.mp h
    exact .inl ⟨rfl, rfl, rfl⟩
  | some overlay =>
    simp only [ho] at h
    obtain ⟨⟨values', out⟩, s₂, h₂, h⟩ := bind_eq_ok.mp h
    obtain ⟨hm, rfl⟩ := readHeap_eq_ok.mp h₂
    obtain ⟨values, hv, hm⟩ := Fallible.bind_eq_ok.mp hm
    obtain ⟨_, s₃, h₃, h⟩ := bind_eq_ok.mp h
    obtain ⟨c', hc', rfl⟩ := modifyContainer_eq_ok.mp h₃
    obtain rfl := Option.some.inj (hc.symm.trans hc')
    obtain ⟨rfl, rfl⟩ := pure_eq_ok.mp h
    exact .inr ⟨overlay, values, values', rfl, values_eq_ok.mp hv, hm, rfl⟩

/-- A merge gives up what it dropped when both of its halves are done. -/
theorem mergeOverlay_eq_ok {compact : Bool} (h : mergeOverlay id compact s = .ok (u, s')) :
    ∃ s₁ c superseded s₂ dropped s₃, faultIn id s = .ok ((), s₁) ∧ s₁.container? id = some c ∧
      absorbOverlay id s₁ = .ok (superseded, s₂) ∧
      (if compact then dropDeadPairs id s₂ = .ok (dropped, s₃) else dropped = [] ∧ s₃ = s₂) ∧
      relinquish c.owner (superseded ++ dropped) s₃ = .ok ((), s') := by
  obtain ⟨_, s₁, h₁, h⟩ := bind_eq_ok.mp h
  obtain ⟨c, s₂, h₂, h⟩ := bind_eq_ok.mp h
  obtain ⟨hc, rfl⟩ := container_eq_ok.mp h₂
  obtain ⟨superseded, s₃, h₃, h⟩ := bind_eq_ok.mp h
  obtain ⟨dropped, s₄, h₄, h⟩ := bind_eq_ok.mp h
  refine ⟨s₁, c, superseded, s₃, dropped, s₄, h₁, hc, h₃, ?_, h⟩
  cases compact with
  | true => exact h₄
  | false =>
    obtain ⟨rfl, rfl⟩ := pure_eq_ok.mp h₄
    exact ⟨rfl, rfl⟩

end Mapping

end PlaneStore
