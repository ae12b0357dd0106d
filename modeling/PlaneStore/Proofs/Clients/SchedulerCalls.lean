import PlaneStore.Proofs.Callouts.CommitEvents
import PlaneStore.Proofs.Clients.RegionCommits

/-!
# What the scheduler hears of in a run

A run is any sequence of requests, by a disciplined client or not, that adds fewer than `2 ^ 32`
calls to each dataspace: handles are words of 32 bits and are not used again. Outside of regions the
queue is what the callout tables say. From entering a region to its end the scheduler hears nothing,
unless that end is the commit of its outermost plane, which tells it what became of each call.
-/

namespace PlaneStore

open Store

/-- No dataspace has run out of handles of 32 bits. -/
def Store.FewCalls (s : Store) : Prop := ∀ ds, s.numbered ds < 2 ^ 32

/-- A store that a client got to, whatever it asked for, before a dataspace ran out of handles. -/
inductive Reached (limits : Limits) : Store → Prop
  | start : Reached limits { limits }
  | next {s s' : Store} {op : Operation} {outcome : Outcome} (h : Reached limits s)
    (hop : s.perform op = .ok (outcome, s')) (hfew : s'.FewCalls) : Reached limits s'

/--
The outermost region was entered from a store and is still open. With it goes which calls its planes
replaced, unless that was discarded.
-/
inductive Inside (s₀ : Store) : List (List CallRef) → Store → Prop
  | enter {s : Store} {r : Answer} (h₀ : s₀.planes = [])
    (hop : s₀.perform .enter = .ok (.ok r, s)) : Inside s₀ [[]] s
  | next {s s' : Store} {touched : List (List CallRef)} {op : Operation} {outcome : Outcome}
    (h : Inside s₀ touched s) (hop : s.perform op = .ok (outcome, s')) (hopen : s'.planes ≠ [])
    (hfew : s'.FewCalls) : Inside s₀ (op.touch touched outcome) s'

section

variable {limits : Limits} {s₀ s s' : Store} {touched : List (List CallRef)} {op : Operation}
  {outcome : Outcome}

theorem Reached.sound (h : Reached limits s) : ∃ touched, s.agenda.Sound touched := by
  induction h with
  | start => exact ⟨[], .start limits⟩
  | next h hop hfew ih =>
    obtain ⟨touched, hs⟩ := ih
    exact ⟨_, hs.answers (Store.perform_answers hs hop)⟩

theorem Reached.few (h : Reached limits s) : s.FewCalls := by
  cases h with
  | start => exact fun _ => Nat.two_pow_pos 32
  | next h hop hfew => exact hfew

/-- A call that is pending has a handle of 32 bits. -/
theorem Reached.handle_lt (h : Reached limits s) {call : CallRef} (hcall : s.call? call ≠ none) :
    call.handle.number < 2 ^ 32 := by
  obtain ⟨touched, hs⟩ := h.sound
  have hissued := (Agenda.issued_agenda _ _).mpr (issued_of_pending hs hcall)
  have hlt := Agenda.issued_iff.mp hissued
  rw [Agenda.numbered_agenda] at hlt
  exact hlt.trans (h.few _)

/-- A store with planes is inside of a region that was entered outside of all. -/
theorem Reached.inside (h : Reached limits s) (hp : s.planes ≠ []) :
    ∃ s₀ touched, Reached limits s₀ ∧ Inside s₀ touched s := by
  induction h with
  | start => exact absurd rfl hp
  | @next s s' op outcome h hop hfew ih =>
    by_cases hs : s.planes = []
    · obtain ⟨touched, hsound⟩ := h.sound
      obtain ⟨rfl, r, rfl⟩ :=
        (perform_answers hsound hop).opens (congrArg (List.map Plane.patches) hs)
        fun hnil => hp (List.map_eq_nil_iff.mp hnil)
      exact ⟨s, _, h, .enter hs hop⟩
    · obtain ⟨s₀, touched, h₀, hin⟩ := ih hs
      exact ⟨s₀, _, h₀, hin.next hop hp hfew⟩

theorem Inside.open (h : Inside s₀ touched s) : s.agenda.patches ≠ [] := by
  cases h with
  | enter hp hop =>
    obtain ⟨r, h₁, hr⟩ := ClientM.bind_pure_eq_ok.mp hop
    cases r with
    | error e => cases hr
    | ok n =>
      rw [show s.agenda = _ from enter_agenda h₁]
      nofun
  | next h hop hopen => exact fun hnil => hopen (List.map_eq_nil_iff.mp hnil)

theorem Inside.outside (h : Inside s₀ touched s) : s₀.planes = [] := by
  induction h with
  | enter hp => exact hp
  | next h hop hopen hfew ih => exact ih

/-- A request after which the region is still open has not committed its outermost plane. -/
theorem refused_of_open (ha : s.agenda.Sound touched) (hop : s.perform op = .ok (outcome, s'))
    (hopen : s'.planes ≠ []) : op = .commit 1 → ∃ e, outcome = .error e := by
  rintro rfl
  cases outcome with
  | error e => exact ⟨e, rfl⟩
  | ok r =>
    exfalso
    rcases (perform_answers ha hop).commit_cases with ⟨q', rest, hn, -⟩ | ⟨p, -, -, hs'⟩
    · omega
    · exact hopen (List.map_eq_nil_iff.mp (congrArg Agenda.patches hs'))

/-- Inside of a region the agenda is sound, and the scheduler is as it was on entry. -/
theorem Inside.sound (h : Inside s₀ touched s) (h₀ : s₀.agenda.Sound []) :
    s.agenda.Sound touched ∧ s.scheduler = s₀.scheduler := by
  induction h with
  | enter hp hop =>
    obtain ⟨r, h₁, hr⟩ := ClientM.bind_pure_eq_ok.mp hop
    cases r with
    | error e => cases hr
    | ok n =>
      refine ⟨h₀.answers (perform_answers h₀ hop), ?_⟩
      exact congrArg Agenda.scheduler (enter_agenda h₁)
  | next h hop hopen hfew ih =>
    obtain ⟨hsound, hsched⟩ := ih
    have hanswers := perform_answers hsound hop
    refine ⟨hsound.answers hanswers, ?_⟩
    exact (hanswers.scheduler h.open (refused_of_open hsound hop hopen)).trans hsched

/-- Outside of regions the calls that are pending are those that are queued. -/
theorem Agenda.Sound.mem_queue (h : s.agenda.Sound touched) (hp : s.planes = []) (call : CallRef) :
    call ∈ s.scheduler.queue ↔ s.call? call ≠ none := by
  rw [Std.TreeMap.mem_iff_isSome_getElem?, h.queue hp, Option.isSome_map, Option.isSome_iff_ne_none]

/--
The commit of the outermost plane leaves the region, and tells the scheduler of each call that is
other than it was on entry.
-/
theorem Inside.commit_tells (hin : Inside s₀ touched s) (h₀ : s₀.agenda.Sound []) {r : Answer}
    (hop : s.perform (.commit 1) = .ok (.ok r, s')) :
    s'.planes = [] ∧ ∃ calls : List CallRef, calls.Pairwise (compare · · = .lt) ∧
      (∀ call, call ∈ calls ↔ s₀.call? call ≠ none ∨ s'.call? call ≠ none) ∧
      s'.scheduler.events = s₀.scheduler.events ++ (calls.flatMap fun call =>
        SchedulerEvent.ofChange call (decide (call ∈ touched.flatten)) (s₀.call? call)
          (s'.call? call)).toArray := by
  obtain ⟨hsound, hsched⟩ := hin.sound h₀
  have hanswers := perform_answers hsound hop
  rcases hanswers.commit_cases with ⟨q', rest, hn, -⟩ | ⟨p, -, hp, hs'⟩
  · omega
  have hclosed : s'.planes = [] := List.map_eq_nil_iff.mp (congrArg Agenda.patches hs')
  refine ⟨hclosed, ?_⟩
  obtain ⟨u, rfl⟩ : ∃ u, touched = [u] := List.length_eq_one_iff.mp (by rw [hsound.depth, hp]; rfl)
  have hcalls : ∀ call, call ∈ (s₀.scheduler.queue ∪ s'.scheduler.queue).keys ↔
      s₀.call? call ≠ none ∨ s'.call? call ≠ none := fun call => by
    rw [Std.TreeMap.mem_keys, Std.TreeMap.mem_union_iff, h₀.mem_queue hin.outside,
      (hsound.answers hanswers).mem_queue hclosed]
  have hcall : ∀ call, s'.call? call = s.agenda.call? call := fun call => by
    rw [← Agenda.call?_agenda, hs']
    rfl
  refine ⟨_, Std.TreeMap.ordered_keys, hcalls, ?_⟩
  have hevents := hsound.events_told hp (fun call => by rw [← h₀.queue hin.outside, ← hsched]; rfl)
    (Std.TreeMap.ordered_keys (t := s₀.scheduler.queue ∪ s'.scheduler.queue))
    fun call => by rw [hcalls, hcall]
  have htold : s'.scheduler.events = (s.agenda.tellAll p.toList s.agenda.scheduler).events :=
    congrArg (fun a => a.scheduler.events) hs'
  simp only [hcall, List.flatten_singleton]
  rw [htold, hevents, show s.agenda.scheduler = s₀.scheduler from hsched]

/-- A disciplined client can always commit the only plane. -/
theorem Client.Reachable.commits_only {c : Client} (h : Client.Reachable limits c)
    (hlevel : c.store.level = 1) : ∃ s', c.store.perform (.commit 1) = .ok (.ok .done, s') := by
  obtain ⟨c', hr, -⟩ := h.committed (by omega)
  rw [hlevel] at hr
  exact ⟨c'.store, hr.performed⟩

end

/-! ## Computed runs -/

section

variable {limits : Limits} {s₀ s s' : Store} {touched touched' : List (List CallRef)}
  {ops : List Operation} {outcomes : List Outcome}

/-- A request adds no more than one call. -/
theorem numbered_perform_le {op : Operation} {outcome : Outcome} (ha : s.agenda.Sound touched)
    (hop : s.perform op = .ok (outcome, s')) (ds : DataspaceId) :
    s'.numbered ds ≤ s.numbered ds + 1 := by
  have hnumbered := (perform_answers ha hop).numbered ds
  have hone := op.newCalls_le_one outcome ds
  rw [Agenda.numbered_agenda, Agenda.numbered_agenda] at hnumbered
  omega

/-- Requests add no more calls than there are requests. -/
theorem numbered_performAll_le (ha : s.agenda.Sound touched)
    (hrun : s.performAll ops = .ok (outcomes, s')) (ds : DataspaceId) :
    s'.numbered ds ≤ s.numbered ds + ops.length := by
  rw [numbered_performAll ha hrun]
  exact Nat.add_le_add_left (Operation.sum_newCalls_le ops outcomes ds) _

/-- A request takes up the room for one call at most. -/
theorem room_of_perform {op : Operation} {outcome : Outcome} (ha : s.agenda.Sound touched)
    (hop : s.perform op = .ok (outcome, s'))
    (hroom : ∀ ds, s.numbered ds + (op :: ops).length < 2 ^ 32) (ds : DataspaceId) :
    s'.numbered ds + ops.length < 2 ^ 32 := by
  have hle := numbered_perform_le ha hop ds
  have hbefore := hroom ds
  rw [List.length_cons] at hbefore
  omega

/-- With room for as many calls as there are requests, no dataspace runs out of handles. -/
theorem Reached.run (h : Reached limits s) (hrun : s.performAll ops = .ok (outcomes, s'))
    (hroom : ∀ ds, s.numbered ds + ops.length < 2 ^ 32) : Reached limits s' := by
  induction ops generalizing s outcomes with
  | nil =>
    cases hrun
    exact h
  | cons op ops ih =>
    obtain ⟨⟨outcome, t⟩, hop, hrun⟩ := Fallible.bind_eq_ok.mp hrun
    obtain ⟨⟨outcomes, u⟩, hops, hrun⟩ := Fallible.bind_eq_ok.mp hrun
    cases hrun
    obtain ⟨touched, hs⟩ := h.sound
    have hroom' := room_of_perform hs hop hroom
    exact ih (h.next hop fun ds => (Nat.le_add_right _ _).trans_lt (hroom' ds)) hops hroom'

/--
Carries out requests as long as the region stays open, and keeps account of what they replaced.
-/
def Store.stay? (s : Store) (touched : List (List CallRef)) :
    List Operation → Option (List (List CallRef) × Store)
  | [] => some (touched, s)
  | op :: ops =>
    match s.perform op with
    | .ok (outcome, s') =>
      if s'.planes.isEmpty then none else s'.stay? (op.touch touched outcome) ops
    | .error _ => none

/-- Whatever is asked for in a region, it is still open if it was never left. -/
theorem Inside.stay (h : Inside s₀ touched s) (h₀ : s₀.agenda.Sound [])
    (hrun : s.stay? touched ops = some (touched', s'))
    (hroom : ∀ ds, s.numbered ds + ops.length < 2 ^ 32) : Inside s₀ touched' s' := by
  induction ops generalizing s touched with
  | nil =>
    cases hrun
    exact h
  | cons op ops ih =>
    unfold Store.stay? at hrun
    split at hrun
    · next outcome t hop =>
      split at hrun
      · cases hrun
      · next hopen =>
        have hroom' := room_of_perform (h.sound h₀).1 hop hroom
        exact ih (h.next hop (by simpa using hopen) fun ds =>
          (Nat.le_add_right _ _).trans_lt (hroom' ds)) hrun hroom'
    · cases hrun

end

/-! ## The scheduler and the callout tables -/

/--
The scheduler hears of committed calls only. Outside of regions its queue holds the pending calls
with their due times. Inside of a region, which every state with a plane is, it is as it was when
the outermost region was entered, and it stays so whatever is requested, but for the commit of the
outermost plane. That commit is carried out if the client is disciplined. It leaves no plane, and
tells the scheduler of each call that is other than it was, in the order of the calls.
-/
theorem Reached.scheduler_hears {limits : Limits} {s₀ : Store} (h : Reached limits s₀) :
    (∀ call, s₀.call? call ≠ none → call.handle.number < 2 ^ 32) ∧
    (s₀.planes = [] → ∀ call, s₀.scheduler.queue[call]? = (s₀.call? call).map DeferredCall.due) ∧
    (s₀.planes ≠ [] → ∃ s₁ touched, Reached limits s₁ ∧ Inside s₁ touched s₀) ∧
    ∀ touched s, Inside s₀ touched s →
      s.scheduler = s₀.scheduler ∧
      (∀ op outcome s', s.perform op = .ok (outcome, s') →
        (op = .commit 1 → ∃ e, outcome = .error e) → s'.scheduler = s₀.scheduler) ∧
      (s.level = 1 → ∀ c, Client.Reachable limits c → c.store = s →
        ∃ s', s.perform (.commit 1) = .ok (.ok .done, s')) ∧
      ∀ r s', s.perform (.commit 1) = .ok (.ok r, s') →
        s'.planes = [] ∧ ∃ calls : List CallRef, calls.Pairwise (compare · · = .lt) ∧
          (∀ call, call ∈ calls ↔ s₀.call? call ≠ none ∨ s'.call? call ≠ none) ∧
          s'.scheduler.events = s₀.scheduler.events ++ (calls.flatMap fun call =>
            SchedulerEvent.ofChange call (decide (call ∈ touched.flatten)) (s₀.call? call)
              (s'.call? call)).toArray := by
  obtain ⟨touched₀, h₀⟩ := h.sound
  refine ⟨fun call => h.handle_lt, h₀.queue, h.inside, fun touched s hin => ?_⟩
  obtain rfl : touched₀ = [] := h₀.touched_nil (congrArg (List.map Plane.patches) hin.outside)
  obtain ⟨hsound, hsched⟩ := hin.sound h₀
  refine ⟨hsched, fun op outcome s' hop hother => ?_, ?_, fun r s' => hin.commit_tells h₀⟩
  · exact ((perform_answers hsound hop).scheduler hin.open hother).trans hsched
  · rintro hlevel c hc rfl
    exact hc.commits_only hlevel

/-- Requests that leave three calls pending. -/
def threeCalls : List Operation :=
  [.createDataspace 0, .addCall ⟨0⟩ 5 .nil, .addCall ⟨0⟩ 6 .nil, .addCall ⟨0⟩ 7 .nil]

/--
Requests inside of a region. The first call is replaced. A nested region that is committed adds two
calls, one of which it replaces, and removes the second; the other call that it added is removed
afterwards. A nested region that is discarded removes the third call and replaces the first once
more.
-/
def revisedCalls : List Operation :=
  [.replaceCall ⟨⟨0⟩, ⟨0⟩⟩ 8 .nil,
    .enter, .addCall ⟨0⟩ 9 .nil, .addCall ⟨0⟩ 10 .nil, .removeCall ⟨⟨0⟩, ⟨1⟩⟩,
    .replaceCall ⟨⟨0⟩, ⟨3⟩⟩ 11 .nil, .commit 2, .removeCall ⟨⟨0⟩, ⟨4⟩⟩,
    .enter, .removeCall ⟨⟨0⟩, ⟨2⟩⟩, .replaceCall ⟨⟨0⟩, ⟨0⟩⟩ 12 .nil, .discard 2]

/--
The commit reschedules the first call, cancels the second, passes over the third, which is what it
was, schedules the fourth as it was replaced, and says nothing of the fifth, which came and went.
-/
theorem Reached.scheduler_hears_folded : ∃ s₀ s s', Reached {} s₀ ∧
    Inside s₀ [[⟨⟨0⟩, ⟨3⟩⟩, ⟨⟨0⟩, ⟨0⟩⟩]] s ∧ s.scheduler = s₀.scheduler ∧
    s.perform (.commit 1) = .ok (.ok .done, s') ∧ s'.planes = [] ∧
    s'.scheduler.events = s₀.scheduler.events ++
      #[.cancel ⟨⟨0⟩, ⟨0⟩⟩, .schedule ⟨⟨0⟩, ⟨0⟩⟩ 8, .cancel ⟨⟨0⟩, ⟨1⟩⟩,
        .schedule ⟨⟨0⟩, ⟨3⟩⟩ 11] := by
  let calls : List CallRef := [⟨⟨0⟩, ⟨0⟩⟩, ⟨⟨0⟩, ⟨1⟩⟩, ⟨⟨0⟩, ⟨2⟩⟩, ⟨⟨0⟩, ⟨3⟩⟩]
  have hcomputed : ((({} : Store).performAll threeCalls).toOption.bind fun q =>
      (q.2.perform .enter).toOption.bind fun r =>
        (r.2.stay? [[]] revisedCalls).bind fun t =>
          (t.2.perform (.commit 1)).toOption.map fun u =>
            (q.2.planes.length, r.1, t.1, u.1, q.2.scheduler.queue.keys, u.2.scheduler.queue.keys,
              calls.map q.2.call?, calls.map u.2.call?)) =
      some (0, .ok (.number 1), [[⟨⟨0⟩, ⟨3⟩⟩, ⟨⟨0⟩, ⟨0⟩⟩]], .ok .done,
        [⟨⟨0⟩, ⟨0⟩⟩, ⟨⟨0⟩, ⟨1⟩⟩, ⟨⟨0⟩, ⟨2⟩⟩], [⟨⟨0⟩, ⟨0⟩⟩, ⟨⟨0⟩, ⟨2⟩⟩, ⟨⟨0⟩, ⟨3⟩⟩],
        [some ⟨5, .nil⟩, some ⟨6, .nil⟩, some ⟨7, .nil⟩, none],
        [some ⟨8, .nil⟩, none, some ⟨7, .nil⟩, some ⟨11, .nil⟩]) := by
    cbv
  obtain ⟨⟨outcomes, s₀⟩, hrun, hcomputed⟩ := Option.bind_eq_some_iff.mp hcomputed
  obtain ⟨⟨entered, t⟩, henter, hcomputed⟩ := Option.bind_eq_some_iff.mp hcomputed
  obtain ⟨⟨touched, s⟩, hstay, hcomputed⟩ := Option.bind_eq_some_iff.mp hcomputed
  obtain ⟨⟨outcome, s'⟩, hcommit, hcomputed⟩ := Option.map_eq_some_iff.mp hcomputed
  simp only [Prod.mk.injEq] at hcomputed
  obtain ⟨hlength, rfl, rfl, rfl, hbefore, hafter, hold, hnew⟩ := hcomputed
  have hcommit := Fallible.toOption_eq_some.mp hcommit
  have henter := Fallible.toOption_eq_some.mp henter
  have hout : s₀.planes = [] := List.length_eq_zero_iff.mp hlength
  have hrun := Fallible.toOption_eq_some.mp hrun
  have hnone : ∀ ds, ({} : Store).numbered ds = 0 := fun _ => rfl
  have hreached : Reached {} s₀ := Reached.start.run hrun fun ds => by
    rw [hnone]
    decide
  obtain ⟨touched₀, h₀⟩ := hreached.sound
  obtain rfl : touched₀ = [] := h₀.touched_nil (congrArg (List.map Plane.patches) hout)
  have hin : Inside s₀ [[⟨⟨0⟩, ⟨3⟩⟩, ⟨⟨0⟩, ⟨0⟩⟩]] s :=
    (Inside.enter hout henter).stay h₀ hstay fun ds => by
      have hle := numbered_performAll_le (.start {}) hrun ds
      have hle' := numbered_perform_le h₀ henter ds
      rw [hnone] at hle
      simp only [threeCalls, revisedCalls, List.length_cons, List.length_nil] at hle ⊢
      omega
  obtain ⟨-, -, -, hheard⟩ := Reached.scheduler_hears hreached
  obtain ⟨hsched, -, -, htold⟩ := hheard _ s hin
  obtain ⟨hclosed, told, hordered, hmem, hevents⟩ := htold _ s' hcommit
  obtain ⟨hsound, -⟩ := hin.sound h₀
  -- The calls that were pending before or are pending now are the first four.
  obtain rfl : told = calls := by
    refine Agenda.eq_of_ordered hordered (by decide) fun call => ?_
    rw [hmem, ← h₀.mem_queue hout, ← (hsound.answers (perform_answers hsound hcommit)).mem_queue
      hclosed, ← Std.TreeMap.mem_keys, ← Std.TreeMap.mem_keys, hbefore, hafter]
    simp only [calls, List.mem_cons, List.not_mem_nil, or_false]
    tauto
  simp only [calls, List.map_cons, List.map_nil, List.cons.injEq, and_true] at hold hnew
  refine ⟨s₀, s, s', hreached, hin, hsched, hcommit, hclosed, hevents.trans ?_⟩
  simp only [calls, List.flatMap_cons, List.flatMap_nil, hold, hnew]
  rfl

end PlaneStore
