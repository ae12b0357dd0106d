import PlaneStore.Proofs.Clients.DisciplinedClients
import PlaneStore.Proofs.Totality.Deriving
import PlaneStore.Proofs.Totality.Regions

/-!
# No faults: requests

Every request of a client that owns what it passes is carried out or refused, except that evicting a
whole dataspace may meet a handle that dangles.
-/

namespace PlaneStore

open Store

/-! ## Answers -/

namespace Succeeds

variable {α β : Type} {s : Store}

/-- A request that answers with what came of a request. -/
theorem answering {x : ClientM α} {f : α → Answer} (hx : Succeeds x s) :
    Succeeds (x >>= fun a => Pure.pure (f a) : ClientM Answer) s :=
  hx.requestBind fun _ _ _ => .answer _

theorem done {x : ClientM α} (hx : Succeeds x s) :
    Succeeds (x >>= fun _ => Pure.pure Answer.done : ClientM Answer) s :=
  hx.requestBind fun _ _ _ => .answer _

theorem modifyGet (f : Store → α × Store) :
    Succeeds (MonadStateOf.modifyGet f : StoreM α) s := ⟨(f s).1, (f s).2, rfl⟩

theorem ask (f : Store → α) : Succeeds (Store.ask f) s := requestGetBind (.answer _)

/-- A question is answered if the answer can be computed. -/
theorem askM {f : Store → Except Fault α} (hf : Faultless (f s)) : Succeeds (Store.askM f) s := by
  obtain ⟨a, ha⟩ := hf
  refine .lift ⟨a, s, ?_⟩
  exact Fallible.bind_eq_ok.mpr ⟨a, ha, rfl⟩

end Succeeds

section

variable {s : Store} {F : Refs} {v : Value}

/-! ## Looking -/

/-- Neighbours on a sweep list are there, so it can be walked from any container on it. -/
theorem Store.Listed.faultless_walk (hl : s.Listed) {n : Nat} {cursor : Option ContainerId}
    (hc : ∀ id, cursor = some id → ∃ l, s.links? id = some l) :
    Faultless (walk s.heap n cursor) := by
  induction n generalizing cursor with
  | zero => exact .pure _
  | succ n ih =>
    cases cursor with
    | none => exact .pure _
    | some id =>
      obtain ⟨l, hlinks⟩ := hc id rfl
      obtain ⟨c, hcont, rfl⟩ := Option.map_eq_some_iff.mp hlinks
      refine .bind ⟨c, Heap.get_eq_ok.mpr hcont⟩ fun c' h => ?_
      obtain rfl := Option.some.inj (hcont.symm.trans (Heap.get_eq_ok.mp h))
      refine .bind (ih fun next hnext => ?_) fun _ _ => .pure _
      obtain ⟨m, hm, -⟩ := hl.next hlinks hnext
      exact ⟨m, hm⟩

/-- A sweep list can be walked to its end. -/
theorem Store.Listed.faultless_sweepList (hl : s.Listed) (ds : DataspaceId) :
    Faultless (s.sweepList ds) := by
  refine hl.faultless_walk fun id hid => ?_
  obtain ⟨d, hd, hhead⟩ := Option.bind_eq_some_iff.mp hid
  obtain ⟨l, hlinks, -⟩ := hl.head (by
    unfold head?
    rw [hd]
    exact congrArg some hhead)
  exact ⟨l, hlinks⟩

/-- References can be counted to what is there. -/
theorem faultless_refcount (hv : s.There v) : Faultless (s.refcount v) := by
  cases v with
  | string id => exact .bind (Heap.faultless_stringEntry hv) fun _ _ => .pure _
  | container shape id => exact .bind (Heap.faultless_get hv) fun _ _ => .pure _
  | _ => exact .pure _

theorem succeeds_stringText (hv : s.There v) : Succeeds (stringText v) s := by
  cases v with
  | string id =>
    exact .lift (.readHeap (.bind (Heap.faultless_stringEntry hv) fun _ _ => .pure _))
  | _ => exact .refuse _

theorem succeeds_inspect (hv : s.There v) : Succeeds (inspect v) s := by
  refine succeeds_requiring fun shape id he => ?_
  obtain ⟨c, hc⟩ := (he ▸ hv : s.There (.container shape id)).exists_container
  exact .lift (.container hc)

theorem succeeds_recordClass (hv : s.There v) : Succeeds (recordClass v) s := by
  refine succeeds_requiring fun shape id he => ?_
  obtain ⟨c, hc⟩ := (he ▸ hv : s.There (.container shape id)).exists_container
  refine Succeeds.liftBind (.container hc) fun c t _ => ?_
  cases c.kind with
  | record cls => exact .answer _
  | array | mapping => exact .refuse _

/-- A container can be made ready for a direct change, or the request is refused. -/
theorem succeeds_prepare (ha : Account.Kept ⟨s, F, 0, none⟩) (hv : F.Covers v) :
    Succeeds (prepare v) s :=
  succeeds_requiring fun _ _ he => .lift (succeeds_makeWritable ha (he ▸ hv))

/-! ## All requests -/

/-- A request of a client that owns what it passes is carried out or refused. -/
theorem Operation.succeeds {op : Operation} (ha : Account.Kept ⟨s, F, 0, none⟩)
    (hd : ∀ v ∈ op.passed, F.Covers v) (hop : ∀ ds, op ≠ .evictDataspace ds) :
    Succeeds op.perform s := by
  have hone : ∀ v, op.passed = [v] → F.Covers v := fun v hp => hd v (by rw [hp]; simp)
  have htwo : ∀ v w, op.passed = [v, w] → F.Covers v ∧ F.Covers w := fun v w hp =>
    ⟨hd v (by rw [hp]; simp), hd w (by rw [hp]; simp)⟩
  have hthree : ∀ u v w, op.passed = [u, v, w] → F.Covers u ∧ F.Covers v ∧ F.Covers w :=
    fun u v w hp => ⟨hd u (by rw [hp]; simp), hd v (by rw [hp]; simp), hd w (by rw [hp]; simp)⟩
  have hthere : ∀ v, op.passed = [v] → s.There v := fun v hp => ha.there_of_flight (hone v hp)
  cases op with
  | createDataspace n => exact .answering (.lift (.modifyGet _))
  | createArray ds n => exact .answering (succeeds_blank ha)
  | createMapping ds n => exact .answering (succeeds_blank (m := 0) ha)
  | createRecord ds cls n => exact .answering (succeeds_blank ha)
  | createArrayOf ds vs => exact .answering (succeeds_createArrayOf ha hd)
  | createString text => exact .answering (.lift (.modifyGet _))
  | restore ds kind tag vs => exact .answering (succeeds_restore ha hd)
  | retain v => exact .done (.lift (succeeds_retain (hthere v rfl)))
  | release v => exact .done (.lift (succeeds_release_of_covers ha (hone v rfl)))
  | copyValues vs =>
    exact .answering (.lift (succeeds_copies fun v hv => ha.there_of_flight (hd v hv)))
  | indexGet v w => exact .answering (succeeds_indexGet ha (htwo v w rfl).1 (htwo v w rfl).2)
  | assign u v w =>
    exact .done (succeeds_assign ha (hthree u v w rfl).1 (hthree u v w rfl).2.1
      (hthree u v w rfl).2.2)
  | mapGet v w => exact .answering (succeeds_mapGet ha (htwo v w rfl).1 (htwo v w rfl).2)
  | mapContains v w => exact .answering (succeeds_mapContains ha (htwo v w rfl).1 (htwo v w rfl).2)
  | mapMerge v compact => exact .done (succeeds_merge ha (hone v rfl))
  | mapSize v => exact .answering (succeeds_mapSize ha (hone v rfl))
  | range v lo hi => exact .answering (succeeds_seqRange ha (hone v rfl))
  | concat v w => exact .answering (succeeds_seqConcat ha (htwo v w rfl).1 (htwo v w rfl).2)
  | subtract v w => exact .answering (succeeds_seqRestrict ha (htwo v w rfl).1 (htwo v w rfl).2)
  | intersect v w => exact .answering (succeeds_seqRestrict ha (htwo v w rfl).1 (htwo v w rfl).2)
  | union v w => exact .answering (succeeds_seqUnion ha (htwo v w rfl).1 (htwo v w rfl).2)
  | symmetricDifference v w =>
    exact .answering (succeeds_symmetricDifference ha (htwo v w rfl).1 (htwo v w rfl).2)
  | mapIndices v => exact .answering (succeeds_mapIndices ha (hone v rfl))
  | mapValues v => exact .answering (succeeds_mapValues ha (hone v rfl))
  | mapRange u v w =>
    exact .answering
      (succeeds_mapRange ha (hthree u v w rfl).1 (hthree u v w rfl).2.1 (hthree u v w rfl).2.2)
  | mapConcat v w => exact .answering (succeeds_mapConcat ha (htwo v w rfl).1 (htwo v w rfl).2)
  | mapSubtract v w => exact .answering (succeeds_mapRestrict ha (htwo v w rfl).1 (htwo v w rfl).2)
  | mapIntersect v w => exact .answering (succeeds_mapRestrict ha (htwo v w rfl).1 (htwo v w rfl).2)
  | size v => exact .answering (succeeds_size ha (hone v rfl))
  | elements v => exact .answering (succeeds_elements ha (hone v rfl))
  | deepEqual v w =>
    obtain ⟨b, s', h, -⟩ := exists_deepEqual ha (htwo v w rfl).1 (htwo v w rfl).2
    exact .answering (.lift ⟨b, s', h⟩)
  | refcount v => exact .answering (.askM (faultless_refcount (hthere v rfl)))
  | stringText v => exact .answering (succeeds_stringText (hthere v rfl))
  | tag v | home v | owner v =>
    exact .answering (succeeds_inspect (hthere v rfl))
  | recordClass v => exact .answering (succeeds_recordClass (hthere v rfl))
  | dataspaceInfo ds =>
    exact .answering ((succeeds_requireDataspace ds).requestBind fun _ _ _ =>
      .answer _)
  | sweepList ds => exact .answering (.askM (ha.listed.faultless_sweepList ds))
  | isLive _ | importCount _ _ | stats | level | reuse _ | isDestroyed _ | epoch =>
    exact .answering (.ask _)
  | readVariable ref => exact .answering (succeeds_variableValue ha ref)
  | assignVariable ref v => exact .done (succeeds_assignVariable ha (hone v rfl))
  | addCall ds due v => exact .answering (succeeds_addCall ha (hone v rfl))
  | removeCall call => exact .answering (succeeds_removeCall ha)
  | replaceCall call due v => exact .done (succeeds_replaceCall ha (hone v rfl))
  | call call => exact .answering (succeeds_requireCall call)
  | calls ds =>
    exact .answering ((succeeds_requireDataspace ds).requestBind fun _ _ _ => .answer _)
  | evict v => exact .answering (succeeds_evictContainer ha (hone v rfl))
  | evictDataspace ds => exact absurd rfl (hop ds)
  | enter => exact .answering succeeds_enter
  | commit n => exact .done (succeeds_commit n ha)
  | discard n => exact .done (succeeds_discard n ha)
  | discardTo n => exact .done (succeeds_discardTo n ha)
  | backUp v => exact .done (succeeds_prepare ha (hone v rfl))
  | spawn => exact .answering (.lift (.modifyGet _))
  | destroy obj => exact .done (.lift (.modifyGet _))

end

end PlaneStore
