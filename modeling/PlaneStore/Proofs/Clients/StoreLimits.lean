import PlaneStore.Proofs.Mapping.AssignmentSize
import PlaneStore.Proofs.Clients.NoFaults

/-!
# Limits as clients see them

Whatever a disciplined client does, it has no more containers, planes and elements of one container
than the store is configured for. A mapping that is full may still change what it holds under the
keys that it has.
-/

namespace PlaneStore

open Store

namespace Client

variable {limits : Limits} {c c' : Client} {id : ContainerId} {key value : Value}
  {outcome : Outcome}

theorem Reachable.limits_eq (h : Reachable limits c) : c.store.limits = limits := by
  induction h with
  | start => rfl
  | next h hr ih => exact ((hr.path h.kept).limits h.kept).trans ih

/-- Nothing is in an empty store, so no limit is exceeded. -/
theorem bounded_start (limits : Limits) : (⟨{ limits }, 0⟩ : Client).account.Bounded where
  containers := Nat.zero_le _
  planes := Nat.zero_le _
  content := nofun
  backup := nofun

theorem Reachable.bounded (h : Reachable limits c) : c.account.Bounded := by
  induction h with
  | start => exact bounded_start limits
  | next h hr ih => exact (hr.path h.kept).bounded h.kept ih

/-- An assignment to a key that is there is not refused for want of room. -/
theorem Requests.assign_present (ha : c.account.Kept)
    (hr : c.Requests (.assign (.container .mapping id) key value) outcome c')
    (hkey : c.store.entryAt? id (c.store.heap.identity key) ≠ none) (n max : Nat) :
    outcome ≠ .error (.containerTooLarge n max) := by
  obtain ⟨r, h, rfl⟩ := ClientM.bind_pure_eq_ok.mp hr.performed
  obtain ⟨ks, -, -, rfl⟩ := mapAssign_answers ha (hr.covered _ (.head _))
    (hr.covered _ (.tail _ (.head _))) (hr.covered _ (.tail _ (.tail _ (.head _)))) h
  unfold Mapping.verdict
  rw [if_neg (c := _ ∧ _) fun hfull => hkey hfull.1]
  split <;> nofun

/--
No limit is ever exceeded: not by the number of containers, not by that of planes, and not by the
size of any container, which for a mapping is the number of its keys. A key that a mapping has can
be written or deleted whether the mapping is full or not.
-/
theorem Reachable.within_limits (h : Reachable limits c) :
    c.store.heap.liveContainers ≤ limits.containers ∧ c.store.level ≤ limits.planes ∧
    (∀ id x, c.store.container? id = some x → x.size ≤ limits.containerSize ∧
      (x.kind = .mapping → ∃ ks : List Identity, ks.Nodup ∧ ks.length = x.size ∧
        ∀ k, k ∈ ks ↔ c.store.entryAt? id k ≠ none)) ∧
    ∀ id key value outcome c',
      c.Requests (.assign (.container .mapping id) key value) outcome c' →
      c.store.entryAt? id (c.store.heap.identity key) ≠ none →
      ∀ n max, outcome ≠ .error (.containerTooLarge n max) := by
  have hbounded := h.bounded
  have hlimits : c.account.store.limits = limits := h.limits_eq
  refine ⟨hlimits ▸ hbounded.containers, hlimits ▸ hbounded.planes,
    fun id x hx => ⟨?_, fun hk => ?_⟩,
    fun id key value outcome c' hr hkey => hr.assign_present h.kept hkey⟩
  · rw [← h.kept.accounted.size_content hx, ← hlimits]
    exact hbounded.content (content?_of_container hx)
  · exact h.kept.exists_keys hx hk

/-- Limits that a mapping with one key reaches, in an atomic region. -/
def narrow : Limits := { containerSize := 1, containers := 1, planes := 1 }

/-- Requests after which these limits are reached. -/
def filling : List Operation :=
  [.createDataspace 0, .createMapping ⟨0⟩ 0, .assign (.container .mapping ⟨0⟩) (.int 1) (.int 2),
    .enter]

/-- A store at all of its limits, in which a key that is there is still assigned. -/
theorem within_limits_filling : ∃ c x, ∃ ks : List Identity, ∃ outcome c', Reachable narrow c ∧
    c.store.heap.liveContainers = 1 ∧ c.store.level = 1 ∧
    c.store.container? ⟨0⟩ = some x ∧ x.size = 1 ∧
    (c.store.heap.liveContainers ≤ narrow.containers ∧ c.store.level ≤ narrow.planes ∧
      x.size ≤ narrow.containerSize ∧ ks.length = x.size ∧
      ∀ k, k ∈ ks ↔ c.store.entryAt? ⟨0⟩ k ≠ none) ∧
    c.Requests (.assign (.container .mapping ⟨0⟩) (.int 1) (.int 3)) outcome c' ∧
    ∀ n max, outcome ≠ .error (.containerTooLarge n max) := by
  obtain ⟨c, hc, hf⟩ := exists_visit_within narrow filling
    (fun c => (c.store.heap.liveContainers, c.store.level,
      (c.store.container? ⟨0⟩).map fun x => (x.kind, x.size),
      decide (c.owned.Covers (.container .mapping ⟨0⟩)),
      (c.store.entryAt? ⟨0⟩ (c.store.heap.identity (.int 1))).isSome))
    (a := (1, 1, some (.mapping, 1), true, true)) (by decide +kernel)
  obtain ⟨hlive, hlevel, hx, hm, hkey⟩ : _ ∧ _ ∧ _ ∧ _ ∧ _ := by simpa using hf
  obtain ⟨x, hx, hk, hsize⟩ := hx
  obtain ⟨hcontainers, hplanes, hsizes, hassign⟩ := Reachable.within_limits hc
  obtain ⟨hle, hkeys⟩ := hsizes ⟨0⟩ x hx
  obtain ⟨ks, -, hlength, hmem⟩ := hkeys hk
  obtain ⟨outcome, c', hr⟩ := hc.request
    (.assign (.container .mapping ⟨0⟩) (.int 1) (.int 3))
    (List.forall_mem_cons.mpr ⟨hm, List.forall_mem_cons.mpr ⟨nofun,
      List.forall_mem_singleton.mpr nofun⟩⟩) nofun
  refine ⟨c, x, ks, outcome, c', hc, hlive, hlevel, hx, hsize,
    ⟨hcontainers, hplanes, hle, hlength, hmem⟩, hr, hassign _ _ _ _ _ hr ?_⟩
  exact Option.ne_none_iff_isSome.mpr hkey

end Client

end PlaneStore
