import PlaneStore.Proofs.Clients.NoFaults
import PlaneStore.Proofs.Eviction.SweepWalk

/-!
# Evicting a dataspace as clients see it

An eviction that is carried out leaves nothing of its dataspace resident. It is carried out whenever
pending writes only add keys. If a pending write is an update, merging it may free the container
that the walk comes to next, and then the walk runs into a dangling handle.
-/

namespace PlaneStore

open Store

namespace Client

variable {limits : Limits} {c : Client} {ds : DataspaceId}

/--
Outside of regions the eviction of a dataspace that exists is not refused, and afterwards all that
the dataspace owns is evicted. The one fault it may meet is that of a dangling handle, and it meets
none if every pending write adds a key.
-/
theorem Reachable.dataspace_evicted (h : Reachable limits c) {d : Dataspace}
    (hd : c.store.dataspace? ds = some d) (hp : c.store.planes = []) :
    (∀ outcome c', c.Requests (.evictDataspace ds) outcome c' →
      (∃ report, outcome = .ok (.eviction report)) ∧
        ∀ id x, c'.store.container? id = some x → x.owner = ds → x.isResident = false) ∧
    (∀ f, c.store.perform (.evictDataspace ds) = .error f → f.Dangling) ∧
    (c.store.Appending → ∃ outcome c', c.Requests (.evictDataspace ds) outcome c') := by
  refine ⟨fun outcome c' hr => ?_, fun f hf => ?_, fun happ => ?_⟩
  · obtain ⟨r, hs, rfl⟩ := ClientM.bind_pure_eq_ok.mp hr.performed
    obtain ⟨⟨report, rfl⟩, hall⟩ := evictDataspace_evicts hd hp h.kept hs
    exact ⟨⟨report, rfl⟩, hall⟩
  · exact (h.dangling (fun v hv => absurd hv List.not_mem_nil) hf).1
  · obtain ⟨r, s', hs⟩ := succeeds_evictDataspace hd h.kept happ
    refine ⟨r.map .eviction, ⟨s', _⟩, fun v hv => absurd hv List.not_mem_nil, ?_, rfl⟩
    exact ClientM.bind_pure_eq_ok.mpr ⟨r, hs, rfl⟩

/-- Requests after which a mapping that owns an array is to be written. -/
def appending : List Operation :=
  [.createDataspace 0, .createArray ⟨0⟩ 2, .createMapping ⟨0⟩ 0,
    .assign (.container .mapping ⟨1⟩) (.int 1) (.container .array ⟨0⟩)]

/-- A dataspace whose one mapping has a pending addition. -/
theorem dataspace_evicted_appending : ∃ c outcome c', Reachable {} c ∧
    c.Requests (.evictDataspace ⟨0⟩) outcome c' ∧
    ∀ id x, c'.store.container? id = some x → x.owner = ⟨0⟩ → x.isResident = false := by
  obtain ⟨c, hc, hf⟩ := exists_visit appending
    (fun c => ((c.store.dataspace? ⟨0⟩).isSome, c.store.planes.isEmpty,
      (c.request? (.evictDataspace ⟨0⟩)).isSome))
    (a := (true, true, true)) (by cbv)
  obtain ⟨hd, hp, hr⟩ : _ ∧ _ ∧ _ := by simpa only [Prod.mk.injEq] using hf
  obtain ⟨d, hd⟩ := Option.isSome_iff_exists.mp hd
  obtain ⟨⟨outcome, c'⟩, hr⟩ := Option.isSome_iff_exists.mp hr
  have hr := request?_eq_some.mp hr
  exact ⟨c, outcome, c', hc, hr,
    ((Reachable.dataspace_evicted hc hd (List.isEmpty_iff.mp hp)).1 outcome c' hr).2⟩

/-! ## A walk that loses its way -/

/-- Two containers of a dataspace, the mapping in front of the array. -/
def pairOf (array : Option Container) (free : List Nat) (mapping : Container) : Store where
  heap :=
    { containers := { cells := #[array, some mapping], free, live := array.elim 1 fun _ => 2 }
      nextTag := 3 }
  dataspaces := #[{ head := some ⟨1⟩, containers := array.elim 1 fun _ => 2 }]

/-- An array to which the mapping alone refers. -/
def superseded : Container where
  kind := .array
  elements := .resident #[]
  tag := 1
  home := 0
  owner := ⟨0⟩
  prev := some ⟨1⟩
  scrubEpoch := 0

/-- A mapping with an addition and an update pending; the update supersedes the array. -/
def updating : Container where
  kind := .mapping
  elements := .resident #[.int 1, .container .array ⟨0⟩]
  tag := 2
  home := 0
  owner := ⟨0⟩
  next := some ⟨0⟩
  overlay := some
    { buckets := (Array.replicate 16 none).set! 1 (some 1) |>.set! 2 (some 0)
      links := #[none, none]
      entries :=
        { cells := #[some ⟨2, true, .int 2, .int 7⟩, some ⟨1, false, .int 1, .int 5⟩], live := 2 }
      addedCount := 1 }
  scrubEpoch := 0

/-- The mapping when the writes are merged. -/
def updated : Container :=
  { updating with elements := .resident #[.int 1, .int 5, .int 2, .int 7], overlay := none }

/-- How a client gets to the store whose eviction meets a freed container. -/
theorem visit_updating : (⟨{}, 0⟩ : Client).visit?
    [.createDataspace 0, .createArray ⟨0⟩ 0,
      .restore ⟨0⟩ .mapping 2 [.int 1, .container .array ⟨0⟩], .release (.container .array ⟨0⟩),
      .assign (.container .mapping ⟨1⟩) (.int 2) (.int 7),
      .assign (.container .mapping ⟨1⟩) (.int 1) (.int 5)] =
    some ⟨pairOf superseded [] updating, {.container .mapping ⟨1⟩}⟩ := by
  cbv

/-- Merging the update frees the array. -/
theorem mergeOverlay_updating : Mapping.mergeOverlay ⟨1⟩ false (pairOf superseded [] updating) =
    .ok ((), pairOf none [0] { updated with next := none }) := by
  have habsorb : Mapping.absorbOverlay ⟨1⟩ (pairOf superseded [] updating) =
      .ok ([.container .array ⟨0⟩, .int 1], pairOf superseded [] updated) := by cbv
  have hdrop : dropReference (.container .array ⟨0⟩) (pairOf superseded [] updated) =
      .ok ([], pairOf none [0] { updated with next := none }) := rfl
  have hdrain : drain [.int 1, .container .array ⟨0⟩] (pairOf superseded [] updated) =
      .ok ((), pairOf none [0] { updated with next := none }) := by
    rw [drain_of_dropped (v := .int 1) rfl, List.reverse_nil, List.nil_append,
      drain_of_dropped hdrop, List.reverse_nil, List.nil_append, drain]
  refine StoreM.bind_eq_ok.mpr ⟨(), _, rfl, StoreM.bind_eq_ok.mpr ⟨updating, _, rfl, ?_⟩⟩
  refine StoreM.bind_eq_ok.mpr ⟨_, _, habsorb, StoreM.bind_eq_ok.mpr ⟨[], _, rfl, ?_⟩⟩
  exact StoreM.bind_eq_ok.mpr ⟨(), _, rfl, hdrain⟩

/-- After the mapping is evicted the array is gone. -/
theorem evictOne_updating {b : Bool} {s : Store}
    (h : evictOne ⟨1⟩ (pairOf superseded [] updating) = .ok (b, s)) : s.container? ⟨0⟩ = none := by
  have hc : (pairOf superseded [] updating).container? ⟨1⟩ = some updating := rfl
  obtain ⟨c, s₁, h₁, h⟩ := StoreM.bind_eq_ok.mp h
  obtain ⟨hc', rfl⟩ := StoreM.container_eq_ok.mp h₁
  obtain rfl := Option.some.inj (hc.symm.trans hc')
  obtain ⟨_, s₁, h₁, h⟩ := StoreM.bind_eq_ok.mp
    (show (Mapping.mergeOverlay ⟨1⟩ false >>= fun _ => _) _ = .ok (b, s) from h)
  obtain ⟨-, rfl⟩ := Prod.mk.inj (Except.ok.inj (mergeOverlay_updating.symm.trans h₁))
  obtain ⟨c, s₂, h₂, h⟩ := StoreM.bind_eq_ok.mp h
  obtain ⟨hc, rfl⟩ := StoreM.container_eq_ok.mp h₂
  obtain ⟨values, s₂, h₂, h⟩ := StoreM.bind_eq_ok.mp h
  obtain ⟨-, rfl⟩ := StoreM.residentValues_eq_ok.mp h₂
  obtain ⟨ticket, s₂, h₂, h⟩ := StoreM.bind_eq_ok.mp h
  obtain ⟨rfl, rfl⟩ := Prod.mk.inj (StoreM.modifyGet_eq_ok.mp h₂)
  obtain ⟨_, s₃, h₃, h⟩ := StoreM.bind_eq_ok.mp h
  obtain ⟨-, rfl⟩ := StoreM.pure_eq_ok.mp h
  obtain ⟨c', -, rfl⟩ := StoreM.modifyContainer_eq_ok.mp h₃
  exact container?_withContainer_of_ne (by decide)

/-- An eviction in a disciplined run, outside of regions, that ends in a fault. -/
theorem eviction_dangles : ∃ c f, Reachable {} c ∧ c.store.planes = [] ∧
    (∃ d, c.store.dataspace? ⟨0⟩ = some d) ∧
    c.store.perform (.evictDataspace ⟨0⟩) = .error f := by
  have hc : Reachable {} ⟨pairOf superseded [] updating, {.container .mapping ⟨1⟩}⟩ :=
    Reachable.start.visit visit_updating
  have hd : (pairOf superseded [] updating).dataspace? ⟨0⟩ =
      some { head := some ⟨1⟩, containers := 2 } := rfl
  cases hr : (pairOf superseded [] updating).perform (.evictDataspace ⟨0⟩) with
  | error f => exact ⟨_, f, hc, rfl, ⟨_, hd⟩, hr⟩
  | ok p =>
    obtain ⟨r, h, -⟩ := ClientM.bind_pure_eq_ok.mp (show _ = Except.ok (p.1, p.2) from hr)
    obtain ⟨rehomed, evicted, s₁, -, h₁, h⟩ := evictDataspace_stages hd rfl h
    have hnone : transferExclusive ⟨0⟩ 3 (pairOf superseded [] updating) =
        .ok (0, pairOf superseded [] updating) := by cbv
    obtain ⟨-, rfl⟩ := Prod.mk.inj (Except.ok.inj (hnone.symm.trans h₁))
    obtain ⟨x, b, s₂, k, hx, h₂, h₃, -⟩ := evictList_some_eq_ok
      (show evictList 2 (some ⟨1⟩) (pairOf superseded [] updating) = .ok (evicted, p.2) from h)
    obtain rfl := Option.some.inj (show some updating = some x from hx)
    -- The walk goes on to the array, which the merge has freed.
    obtain ⟨x, _, _, _, hx, -⟩ := evictList_some_eq_ok
      (show evictList 1 (some ⟨0⟩) s₂ = .ok (k, p.2) from h₃)
    cases (evictOne_updating h₂).symm.trans hx

end Client

end PlaneStore
