import PlaneStore.Proofs.Walk.Upkeep
import PlaneStore.Proofs.Totality.Comparing

/-!
# No faults: references

Where an account is in order, taking references and giving them up does not fail: slots that are
referred to are in use, each counts the references to it, and each import that is dropped was
counted.
-/

namespace PlaneStore

open Store

/-! ## Steps that succeed -/

/-- The step, or request, does not end in a fault. -/
def Succeeds {α : Type} (x : Store → Except Fault (α × Store)) (s : Store) : Prop :=
  ∃ a s', x s = .ok (a, s')

namespace Succeeds

variable {α β : Type} {s : Store}

theorem pure (a : α) : Succeeds (Pure.pure a : StoreM α) s := ⟨a, s, rfl⟩

/-- A step that succeeds can be followed by one that succeeds wherever the first leads. -/
theorem bind {x : StoreM α} {f : α → StoreM β} (hx : Succeeds x s)
    (hf : ∀ a s', x s = .ok (a, s') → Succeeds (f a) s') : Succeeds (x >>= f : StoreM β) s := by
  obtain ⟨a, s₁, h₁⟩ := hx
  obtain ⟨b, s₂, h₂⟩ := hf a s₁ h₁
  exact ⟨b, s₂, StoreM.bind_eq_ok.mpr ⟨a, s₁, h₁, h₂⟩⟩

theorem get_bind {f : Store → StoreM β} (hf : Succeeds (f s) s) :
    Succeeds (MonadState.get >>= f : StoreM β) s := hf

/-- Steps over a list succeed if each does, from where the one before it ended. -/
theorem forM {f : α → StoreM PUnit} {P : List α → Store → Prop} {xs : List α} (hxs : P xs s)
    (hf : ∀ x xs s, P (x :: xs) s → Succeeds (f x) s ∧ ∀ u s', f x s = .ok (u, s') → P xs s') :
    Succeeds (xs.forM f : StoreM PUnit) s := by
  induction xs generalizing s with
  | nil => exact pure _
  | cons x xs ih =>
    obtain ⟨hx, hnext⟩ := hf x xs s hxs
    exact bind hx fun u s' h => ih (hnext u s' h)

/-- A test that only looks at the store is made of all. -/
theorem filterM {f : α → StoreM Bool} {xs : List α} (hf : ∀ x ∈ xs, Succeeds (f x) s)
    (hs : ∀ x b s', f x s = .ok (b, s') → s = s') :
    Succeeds (xs.filterM f : StoreM (List α)) s := by
  have haux : ∀ ys acc : List α, (∀ y ∈ ys, Succeeds (f y) s) →
      Succeeds (ys.filterAuxM f acc : StoreM (List α)) s := by
    intro ys
    induction ys with
    | nil =>
      intro acc _
      exact pure _
    | cons y ys ih =>
      intro acc hys
      obtain ⟨hy, hys⟩ := List.forall_mem_cons.mp hys
      refine bind hy fun b s' h => ?_
      obtain rfl := hs y b s' h
      exact ih _ hys
  exact bind (haux xs [] hf) fun ys s' _ => pure _

theorem modifyContainer {id : ContainerId} {f : Container → Container} {c : Container}
    (hc : s.container? id = some c) : Succeeds (Store.modifyContainer id f) s :=
  ⟨(), _, StoreM.modifyContainer_eq_ok.mpr ⟨c, hc, rfl⟩⟩

theorem update (f : Store → Store) : Succeeds (modify f : StoreM PUnit) s :=
  ⟨(), f s, StoreM.modify_eq_ok.mpr rfl⟩

theorem modifyDataspace (ds : DataspaceId) (f : Dataspace → Dataspace) :
    Succeeds (Store.modifyDataspace ds f) s := ⟨(), _, StoreM.modifyDataspace_eq_ok.mpr rfl⟩

theorem modifyPlane (f : Plane → Plane) : Succeeds (Store.modifyPlane f) s :=
  ⟨(), _, StoreM.modifyPlane_eq_ok.mpr rfl⟩

/-- A change of the heap succeeds if the new heap can be computed. -/
theorem updateHeap {f : Heap → Except Fault Heap} (hf : Faultless (f s.heap)) :
    Succeeds (Store.updateHeap f) s := by
  obtain ⟨h, hf⟩ := hf
  exact ⟨(), _, StoreM.updateHeap_eq_ok.mpr ⟨h, hf, rfl⟩⟩

theorem readHeap {f : Heap → Except Fault α} (hf : Faultless (f s.heap)) :
    Succeeds (Store.readHeap f) s := by
  obtain ⟨a, ha⟩ := hf
  exact ⟨a, s, StoreM.readHeap_eq_ok.mpr ⟨ha, rfl⟩⟩

theorem reading {x : Except Fault α} (hx : Faultless x) :
    Succeeds (monadLift x : StoreM α) s := by
  obtain ⟨a, ha⟩ := hx
  exact ⟨a, s, StoreM.lift_eq_ok.mpr ⟨ha, rfl⟩⟩

theorem container {id : ContainerId} {c : Container} (hc : s.container? id = some c) :
    Succeeds (Store.container id) s :=
  ⟨c, s, StoreM.container_eq_ok.mpr ⟨hc, rfl⟩⟩

/-! ### Requests -/

/-- A request may end with a refusal, and only an answer is passed on. -/
theorem requestBind {x : ClientM α} {f : α → ClientM β} (hx : Succeeds x s)
    (hf : ∀ a s', x s = .ok (.ok a, s') → Succeeds (f a) s') :
    Succeeds (x >>= f : ClientM β) s := by
  obtain ⟨r, s₁, h₁⟩ := hx
  cases r with
  | error e => exact ⟨.error e, s₁, ClientM.bind_eq_ok.mpr (.inl ⟨e, h₁, rfl⟩)⟩
  | ok a =>
    obtain ⟨r, s₂, h₂⟩ := hf a s₁ h₁
    exact ⟨r, s₂, ClientM.bind_eq_ok.mpr (.inr ⟨a, s₁, h₁, h₂⟩)⟩

theorem lift {x : StoreM α} (hx : Succeeds x s) : Succeeds (monadLift x : ClientM α) s := by
  obtain ⟨a, s', h⟩ := hx
  exact ⟨.ok a, s', ClientM.lift_eq_ok.mpr ⟨a, rfl, h⟩⟩

/-- A step within a request is never refused. -/
theorem liftBind {x : StoreM α} {f : α → ClientM β} (hx : Succeeds x s)
    (hf : ∀ a s', x s = .ok (a, s') → Succeeds (f a) s') :
    Succeeds ((monadLift x : ClientM α) >>= f : ClientM β) s := by
  obtain ⟨a, s₁, h₁⟩ := hx
  obtain ⟨r, s₂, h₂⟩ := hf a s₁ h₁
  exact ⟨r, s₂, ClientM.lift_bind_eq_ok.mpr ⟨a, s₁, h₁, h₂⟩⟩

theorem requestGetBind {f : Store → ClientM β} (hf : Succeeds (f s) s) :
    Succeeds (MonadState.get >>= f : ClientM β) s := hf

theorem answer (a : α) : Succeeds (Pure.pure a : ClientM α) s := ⟨.ok a, s, rfl⟩

theorem refuse (e : Refusal) : Succeeds (ClientM.refuse e : ClientM α) s := ⟨.error e, s, rfl⟩

end Succeeds

/-! ## Slots in use -/

/-- The slot that a value refers to, if any, is in use. -/
def Store.There (s : Store) (v : Value) : Prop := s.heap.Has v

/-- A value that is there leads to its container. -/
theorem Store.There.exists_container {s : Store} {shape : Shape} {id : ContainerId}
    (hv : s.There (.container shape id)) : ∃ c, s.container? id = some c := hv.1 shape id rfl

/-- Whatever an account refers to is there. -/
theorem Account.Kept.there {a : Account} (ha : a.Kept) {v : Value} (hv : a.refs.Covers v) :
    a.store.There v := by
  constructor
  · rintro shape id rfl
    obtain ⟨c, hc, -⟩ := ha.accounted.balanced.exists_container (hv rfl)
    exact ⟨c, hc⟩
  · rintro id rfl
    exact ha.accounted.balanced.exists_string (hv rfl)

section

variable {s s' : Store} {F : Refs} {C : Charges} {q : Option Closing} {v : Value}

/-- What is in flight is there. -/
theorem Account.Kept.there_of_flight (ha : Account.Kept ⟨s, F, C, q⟩) (hv : F.Covers v) :
    s.There v := ha.there (Refs.Covers.of_flight (a := ⟨s, F, C, q⟩) hv)

theorem Refs.covers_of_mem (hv : v ∈ F) : F.Covers v := fun _ => hv

/-! ## Taking references -/

theorem succeeds_scrub (hv : s.There v) : Succeeds (scrub v) s := by
  obtain ⟨w, hw⟩ := exists_scrubbed hv.1
  exact ⟨w, s, StoreM.scrub_eq_ok.mpr ⟨hw, rfl⟩⟩

/-- A reference can be taken to what is there. -/
theorem succeeds_retain (hv : s.There v) : Succeeds (retain v) s := by
  cases v with
  | string id =>
    obtain ⟨e, he⟩ := hv.2 id rfl
    have hretain : ∃ h, s.heap.retainString id = .ok h :=
      ⟨_, Heap.retainString_eq_ok.mpr ⟨e, he, rfl⟩⟩
    exact Succeeds.updateHeap (f := (·.retainString id)) hretain
  | container shape id =>
    obtain ⟨c, hc⟩ := hv.exists_container
    exact .modifyContainer hc
  | _ => exact .pure _

theorem succeeds_addImport {ds : DataspaceId} (hv : s.There v) : Succeeds (addImport ds v) s := by
  unfold addImport
  cases v with
  | container shape id =>
    obtain ⟨c, hc⟩ := hv.exists_container
    refine Succeeds.bind (.container hc) fun d t h => ?_
    split
    · exact .pure _
    · exact .modifyDataspace _ _
  | _ => exact .pure _

/-- What is covered can be taken a reference to and charged to a dataspace. -/
theorem succeeds_acquire {ds : DataspaceId} (ha : Account.Kept ⟨s, F, C, q⟩) (hv : F.Covers v) :
    Succeeds (acquire ds v) s := by
  refine Succeeds.bind (succeeds_retain (ha.there_of_flight hv)) fun u t h => succeeds_addImport ?_
  have hpath := walk_retain (E := (· = .still)) (F := F) (C := C) (q := q) rfl
    (ha.fits_of_covers hv) h
  exact (hpath.kept ha).there_of_flight (Refs.covers_of_mem (by simp))

/-- Taking a reference frees nothing. -/
theorem Store.There.retained {w : Value} (hv : s.There v) (h : Retained s w s') : s'.There v := by
  cases h with
  | scalar => exact hv
  | @text id e he =>
    refine ⟨hv.1, fun other hother => ?_⟩
    by_cases hid : id.slot = other.slot
    · rw [← hid]
      exact ⟨_, Slab.get?_set_self he⟩
    · obtain ⟨e', he'⟩ := hv.2 other hother
      exact ⟨e', (Slab.get?_set_of_ne hid).trans he'⟩
  | @container shape id c hc =>
    refine ⟨fun shape' other hother => ?_, hv.2⟩
    by_cases hid : id = other
    · subst hid
      exact ⟨_, container?_withContainer_self hc⟩
    · obtain ⟨c', hc'⟩ := hv.1 shape' other hother
      exact ⟨c', (container?_withContainer_of_ne hid).trans hc'⟩

/-- What concerns sweep lists and imports alone takes nothing away. -/
theorem Store.There.alike (hv : s.There v) (h : Alike s s') : s'.There v := by
  constructor
  · intro shape id hid
    obtain ⟨c, hc⟩ := hv.1 shape id hid
    obtain ⟨c', hc', -⟩ := h.exists_container hc
    exact ⟨c', hc'⟩
  · intro id hid
    rw [h.strings]
    exact hv.2 id hid

/-- What does not refer to a container is there without it. -/
theorem Store.There.without {id : ContainerId} {c : Container} (hv : s.There v)
    (hne : v.target? ≠ some (.container id)) : (s.without id c).There v := by
  refine ⟨fun shape other hother => ?_, hv.2⟩
  obtain ⟨d, hd⟩ := hv.1 shape other hother
  refine ⟨d, (container?_without_of_ne fun he => hne ?_).trans hd⟩
  rw [hother, he]
  rfl

theorem succeeds_retains {vs : List Value} (hvs : ∀ v ∈ vs, s.There v) :
    Succeeds (vs.forM retain : StoreM PUnit) s := by
  refine .forM (P := fun vs s => ∀ v ∈ vs, s.There v) hvs fun v vs s hvs => ?_
  obtain ⟨hv, hvs⟩ := List.forall_mem_cons.mp hvs
  exact ⟨succeeds_retain hv, fun u s' h w hw => (hvs w hw).retained (retain_eq_ok h)⟩

theorem succeeds_addImports {ds : DataspaceId} {vs : List Value} (hvs : ∀ v ∈ vs, s.There v) :
    Succeeds (vs.forM (addImport ds) : StoreM PUnit) s := by
  refine .forM (P := fun vs s => ∀ v ∈ vs, s.There v) hvs fun v vs s hvs => ?_
  obtain ⟨hv, hvs⟩ := List.forall_mem_cons.mp hvs
  exact ⟨succeeds_addImport hv, fun u s' h w hw => (hvs w hw).alike (alike_addImport h)⟩

theorem succeeds_mapM_scrub {vs : List Value} (hvs : ∀ v ∈ vs, s.There v) :
    Succeeds (vs.mapM scrub : StoreM (List Value)) s := by
  induction vs with
  | nil => exact .pure _
  | cons v vs ih =>
    obtain ⟨hv, hvs⟩ := List.forall_mem_cons.mp hvs
    rw [List.mapM_cons]
    refine Succeeds.bind (succeeds_scrub hv) fun w t h => ?_
    obtain ⟨-, rfl⟩ := StoreM.scrub_eq_ok.mp h
    exact .bind (ih hvs) fun ws t _ => .pure _

/-- A value as it is seen is there if the value is. -/
theorem Store.There.seen (hv : s.There v) : s.There (s.seen v) := by
  unfold Store.seen
  split
  · exact ⟨nofun, nofun⟩
  · exact hv

/-- Values that are there can be copied. -/
theorem succeeds_copies {vs : List Value} (hvs : ∀ v ∈ vs, s.There v) :
    Succeeds (copies vs) s := by
  refine Succeeds.bind (succeeds_mapM_scrub hvs) fun seen t h => ?_
  obtain ⟨rfl, hseen⟩ := mapM_scrub_eq_ok h
  refine Succeeds.bind (succeeds_retains fun w hw => ?_) fun u t _ => .pure _
  obtain ⟨v, hv, hvw⟩ := Content.exists_of_forall₂ hseen hw
  rw [scrubbed_eq hvw]
  exact (hvs v hv).seen

/-! ## Giving references up -/

/-- An import that is counted can be dropped. -/
theorem succeeds_dropImport {ds : DataspaceId} {T : DataspaceId → Refs} (hv : s.There v)
    (hi : s.Imports fun x => T x + (Charges.of ds [v]).at x) : Succeeds (dropImport ds v) s := by
  unfold dropImport
  cases v with
  | container shape id =>
    obtain ⟨c, hc⟩ := hv.exists_container
    refine Succeeds.bind (.container hc) fun c' t h => ?_
    obtain ⟨hc', rfl⟩ := StoreM.container_eq_ok.mp h
    obtain rfl := Option.some.inj (hc.symm.trans hc')
    split
    · exact .pure _
    next howner =>
    refine Succeeds.get_bind ?_
    cases hd : s.dataspace? ds with
    | none => exact .pure _
    | some d =>
      -- The reference that is dropped was counted, so the import is recorded.
      have hcount := hi.count id hd
      have hforeign : s.isForeign ds id = true := by simp [isForeign, hc, howner]
      rw [hforeign, if_pos rfl, Refs.tally_add, Charges.at_of, if_pos rfl] at hcount
      cases hdrop : d.dropImport? id with
      | none =>
        rw [Std.TreeMap.getD_eq_getD_getElem?, Dataspace.dropImport?_eq_none.mp hdrop] at hcount
        simp [Refs.tally_singleton, Value.target?] at hcount
      | some d' =>
        simp only [hdrop]
        exact .modifyDataspace _ _
  | _ => exact .pure _

/-- Imports that were charged can be dropped again. -/
theorem succeeds_dropImports {ds : DataspaceId} {vs : List Value} {T : DataspaceId → Refs}
    (hvs : ∀ v ∈ vs, s.There v) (hi : s.Imports fun x => T x + (Charges.of ds vs).at x) :
    Succeeds (vs.forM (dropImport ds) : StoreM PUnit) s := by
  refine .forM (P := fun vs s => (∀ v ∈ vs, s.There v) ∧
    s.Imports fun x => T x + (Charges.of ds vs).at x) ⟨hvs, hi⟩ fun v vs s ⟨hvs, hi⟩ => ?_
  obtain ⟨hv, hvs⟩ := List.forall_mem_cons.mp hvs
  have hhead : s.Imports fun x => T x + (Charges.of ds vs).at x + (Charges.of ds [v]).at x := by
    refine hi.of_tally fun x id => ?_
    rw [Charges.of_cons ds v vs, Charges.at_add]
    simp only [Refs.tally_add]
    omega
  exact ⟨succeeds_dropImport hv hhead, fun u s' h =>
    ⟨fun w hw => (hvs w hw).alike (alike_dropImport h), hhead.dropImport h⟩⟩

/-- The neighbours of a container on its sweep list are there. -/
theorem succeeds_unlink {id : ContainerId} {c : Container} (hl : s.Listed)
    (hc : s.container? id = some c) : Succeeds (unlink id) s := by
  have hthere : ∀ {x : ContainerId} {m : Links} {d : Container}, s.links? x = some m →
      ∃ e, (s.withContainer id d).container? x = some e := fun {x m d} hm => by
    obtain ⟨e, he, -⟩ := Option.map_eq_some_iff.mp hm
    by_cases hid : id = x
    · subst hid
      exact ⟨d, container?_withContainer_self hc⟩
    · exact ⟨e, (container?_withContainer_of_ne hid).trans he⟩
  refine Succeeds.bind (.container hc) fun c' t h => ?_
  obtain ⟨hc', rfl⟩ := StoreM.container_eq_ok.mp h
  obtain rfl := Option.some.inj (hc.symm.trans hc')
  refine Succeeds.bind (.modifyContainer hc) fun u t h => ?_
  obtain ⟨c', -, rfl⟩ := StoreM.modifyContainer_eq_ok.mp h
  refine Succeeds.bind ?_ fun u t h => ?_
  · unfold setNext
    cases hp : c.prev with
    | none => exact .modifyDataspace _ _
    | some p =>
      obtain ⟨m, hm, -⟩ := hl.prev (links?_of_container hc) hp
      obtain ⟨e, he⟩ := hthere hm
      exact .modifyContainer he
  refine Succeeds.bind ?_ fun u t h => .modifyDataspace _ _
  · unfold setPrev
    cases hn : c.next with
    | none => exact .pure _
    | some n =>
      obtain ⟨m, hm, -⟩ := hl.next (links?_of_container hc) hn
      obtain ⟨e, he⟩ := hthere hm
      obtain ⟨e', he', -⟩ := (alike_setNext h).exists_container he
      exact .modifyContainer he'

/-- A container can be freed if the imports of what it holds are counted. -/
theorem succeeds_freeContainer {id : ContainerId} {c : Container} (hl : s.Listed)
    (hc : s.container? id = some c)
    (hvacated : ∀ t, Vacated s id c t → (∀ v ∈ c.buffer s.swap ++ c.overlayValues, t.There v) ∧
      ∃ T : DataspaceId → Refs, t.Imports fun ds =>
        T ds + (Charges.of c.owner (c.buffer s.swap ++ c.overlayValues)).at ds) :
    Succeeds (freeContainer id) s := by
  refine Succeeds.bind (succeeds_unlink hl hc) fun u s₁ h₁ => ?_
  refine Succeeds.bind (.update _) fun u' s₂ h₂ => ?_
  refine Succeeds.bind ?_ fun d s₃ h₃ => ?_
  · obtain ⟨d, hd, -⟩ := (alike_unlink h₁).exists_container hc
    have hget : s₂.heap.containers.get? id.slot = some d := by
      rw [StoreM.modify_eq_ok.mp h₂]
      exact hd
    unfold vacate Heap.remove
    rw [Succeeds, hget]
    exact ⟨_, _, rfl⟩
  refine Succeeds.bind ?_ fun elements s₄ h₄ => ?_
  · unfold takeElements
    split
    · exact .pure _
    · exact Succeeds.bind ⟨_, _, rfl⟩ fun values t _ => .pure _
  obtain ⟨hd, hbare, rfl, rfl⟩ := vacated_eq hc h₁ h₂ h₃ h₄
  obtain ⟨hthere, T, himports⟩ := hvacated _ (vacated_of_unlink hc h₁ hbare)
  rw [overlayValues_of_bare hbare,
    show d.owner = c.owner from show d.bare.owner = c.bare.owner by rw [hbare]]
  exact Succeeds.bind (succeeds_dropImports hthere himports) fun u t _ => .pure _

/-- A reference in flight can be given up. -/
theorem succeeds_dropReference (ha : Account.Kept ⟨s, {v} + F, C, q⟩) :
    Succeeds (dropReference v) s := by
  have hthere := ha.there_of_flight (Refs.covers_of_mem (v := v) (by simp))
  cases v with
  | string id =>
    obtain ⟨e, he⟩ := hthere.2 id rfl
    have hrelease : ∃ h, s.heap.releaseString id = .ok h :=
      ⟨_, Heap.releaseString_eq_ok.mpr ⟨e, he, rfl⟩⟩
    exact Succeeds.bind (.updateHeap hrelease) fun u t _ => .pure _
  | container shape id =>
    obtain ⟨c, hc⟩ := hthere.exists_container
    refine Succeeds.bind (.container hc) fun c' t h => ?_
    obtain ⟨hc', rfl⟩ := StoreM.container_eq_ok.mp h
    obtain rfl := Option.some.inj (hc.symm.trans hc')
    split
    · next hzero =>
      refine absurd ?_ (ha.accounted.balanced.pos (.container id))
      rw [← hzero]
      exact congrArg (Option.map Container.refcount) hc
    refine Succeeds.bind (.modifyContainer hc) fun u t h => ?_
    obtain ⟨c', hc', rfl⟩ := StoreM.modifyContainer_eq_ok.mp h
    obtain rfl := Option.some.inj (hc.symm.trans hc')
    split
    · next hone =>
      have hsites := sites_withContainer (d := { c with refcount := c.refcount - 1 }) hc rfl
      refine succeeds_freeContainer (ha.listed.of_sites hsites) (container?_withContainer_self hc)
        fun t ht => ⟨fun w hw => ?_, _, (ht.of_recounted hc).imported ha.accounted
          ha.imported hc hone⟩
      -- What it holds is there, and is not the container itself, to which this was the last.
      have hheld : w ∈ s.refs := mem_refs_of_held hc (Multiset.mem_coe.mpr hw)
      have hother : w.target? ≠ some (.container id) := fun htarget => by
        have hcount := ha.accounted.balanced.count (.container id)
        have hpos := Refs.tally_pos hheld htarget
        rw [count_of_container hc, hone] at hcount
        simp only [Account.refs, Refs.tally_add, Refs.tally_singleton, Value.target?, if_true]
          at hcount
        omega
      exact ((ha.there fun _ => Account.mem_refs_of_store hheld).without hother).alike
        (ht.of_recounted hc).alike
    · exact .pure _
  | _ => exact .pure _

/-- A cascade of releases meets only containers and strings that are there. -/
theorem succeeds_drain {work : List Value} (ha : Account.Kept ⟨s, ↑work + F, C, q⟩) :
    Succeeds (drain work) s := by
  induction work, s using drain.induct with
  | case1 s =>
    rw [Succeeds, drain]
    exact ⟨_, _, rfl⟩
  | case2 s v rest e he =>
    rw [Refs.cons_add] at ha
    obtain ⟨children, t, h⟩ := succeeds_dropReference ha
    rw [h] at he
    cases he
  | case3 s v rest children t h ih =>
    rw [Refs.cons_add] at ha
    rw [Succeeds, drain]
    rw [h]
    refine ih ?_
    have hstep : Step .still ⟨s, {v} + (↑rest + F), C, q⟩ ⟨t, ↑children + (↑rest + F), C, q⟩ :=
      .traffic (.drop h)
    have hkept := hstep.kept ha
    rwa [← add_assoc, ← Multiset.coe_reverse children, Multiset.coe_add] at hkept

/-- References in flight can be given up. -/
theorem succeeds_releaseAll {vs : List Value} (ha : Account.Kept ⟨s, ↑vs + F, C, q⟩) :
    Succeeds (releaseAll vs) s := by
  rw [← Multiset.coe_reverse] at ha
  exact succeeds_drain ha

theorem succeeds_release (ha : Account.Kept ⟨s, {v} + F, C, q⟩) : Succeeds (release v) s := by
  rw [release_eq]
  exact @succeeds_releaseAll _ _ _ _ [v] ha

/-- A client may give up any value that it holds, counted or not. -/
theorem succeeds_release_of_covers (ha : Account.Kept ⟨s, F, C, q⟩) (hv : F.Covers v) :
    Succeeds (release v) s := by
  by_cases hmem : v ∈ F
  · rw [← Multiset.cons_erase hmem, ← Multiset.singleton_add] at ha
    exact succeeds_release ha
  · have huncounted : v.isCounted = false := Bool.eq_false_iff.mpr fun hc => hmem (hv hc)
    unfold release
    rw [huncounted]
    exact .pure _

/-- References that are charged can be given up. -/
theorem succeeds_relinquish {ds : DataspaceId} {vs : List Value}
    (ha : Account.Kept ⟨s, F, .of ds vs + C, q⟩) : Succeeds (relinquish ds vs) s := by
  have himports : s.Imports fun x => (s.slots x + C.at x) + (Charges.of ds vs).at x := by
    refine Imports.of_tally ha.imported fun x id => ?_
    simp only [Charges.at_add, Refs.tally_add]
    omega
  have hthere : ∀ v ∈ vs, s.There v := fun v hv => ha.there fun _ => by
    refine Account.mem_refs_of_charged ?_
    rw [Charges.refs_add, Charges.refs_of]
    exact Multiset.mem_add.mpr (.inl hv)
  refine Succeeds.bind (succeeds_dropImports hthere himports) fun u t h => ?_
  exact succeeds_releaseAll ((walk_dropImports (E := (· = .still)) rfl h).kept ha)

end

end PlaneStore
