import PlaneStore.Proofs.Callouts.CommitEvents
import PlaneStore.Proofs.Clients.DiscardedRegions
import PlaneStore.Proofs.Clients.NoFaults
import PlaneStore.Proofs.Clients.MergedMirrors

/-!
# A committed region does what its requests do

Everyday requests are answered the same in a region and outside of all. Neither entering a region
nor committing it changes anything that can be come upon, so a store that was left by a region
mirrors the one that the requests leave by themselves. What is pending then is all that the two
differ in.
-/

namespace PlaneStore

open Store

theorem Operation.length_touch_of_everyday {op : Operation} (hop : op.everyday = true) (o : Outcome)
    (touched : List (List CallRef)) : (op.touch touched o).length = touched.length := by
  cases op with
  | replaceCall call due v =>
    cases o with
    | error e => rfl
    | ok r => cases touched <;> rfl
  | assign _ _ _ | assignVariable _ _ | addCall _ _ _ | removeCall _ | mapMerge _ _ | indexGet _ _
  | mapGet _ _ | readVariable _ | retain _ | release _ => rfl
  | _ => cases hop

theorem Operation.not_evictDataspace_of_everyday {op : Operation} (hop : op.everyday = true)
    (ds : DataspaceId) : op ≠ .evictDataspace ds := by
  rintro rfl
  cases hop

theorem Effect.turns_enter {subject : Option ContainerId} : Effect.enter.Turns subject :=
  ⟨trivial, nofun, fun _ _ => trivial⟩

theorem Effect.Folds.turns {level : Nat} {subject : Option ContainerId} :
    ∀ e : Effect, e.Folds level → e.Turns subject
  | _, .still => turns_still
  | _, .nest | _, .leave | _, .left => ⟨trivial, nofun, fun _ _ => trivial⟩
  | _, .record call patch => turns_record call patch

/-- A commit writes to no callout table. -/
theorem Store.tables_of_commit {s s' : Store} {n : Nat} (h : commit n s = .ok (.ok (), s')) :
    s'.agenda.tables = s.agenda.tables := by
  rcases (commit_answers h).commit_cases with ⟨q', rest, -, hs'⟩ | ⟨p, -, -, hs'⟩
  · rw [hs']
  · rw [hs']

namespace Client

variable {limits : Limits} {c c' d d' e : Client} {op : Operation} {ops : List Operation}
  {o : Outcome} {outcomes outcomes' : List Outcome} {n : Nat}

/-! ## Several requests -/

/-- Requests, one after the other, for each of which the client owns what it passes. -/
inductive Runs : Client → List Operation → List Outcome → Client → Prop
  | done (c : Client) : Runs c [] [] c
  | next {c c₁ c' : Client} {op : Operation} {o : Outcome} {ops : List Operation}
    {outcomes : List Outcome} (hr : c.Requests op o c₁) (h : Runs c₁ ops outcomes c') :
    Runs c (op :: ops) (o :: outcomes) c'

/-- Carries out requests as long as the client owns what they pass. -/
def run? (c : Client) : List Operation → Option (List Outcome × Client)
  | [] => some ([], c)
  | op :: ops => (c.request? op).bind fun r => (r.2.run? ops).map fun t => (r.1 :: t.1, t.2)

theorem run?_eq_some : c.run? ops = some (outcomes, c') ↔ c.Runs ops outcomes c' := by
  constructor
  · intro h
    induction ops generalizing c outcomes with
    | nil =>
      obtain ⟨rfl, rfl⟩ := Prod.mk.inj (Option.some.inj h)
      exact .done c
    | cons op ops ih =>
      obtain ⟨⟨o, c₁⟩, hr, h⟩ := Option.bind_eq_some_iff.mp h
      obtain ⟨⟨os, c₂⟩, hrun, heq⟩ := Option.map_eq_some_iff.mp h
      obtain ⟨rfl, rfl⟩ := Prod.mk.inj heq
      exact .next (request?_eq_some.mp hr) (ih hrun)
  · intro h
    induction h with
    | done => rfl
    | next hr h ih =>
      refine Option.bind_eq_some_iff.mpr ⟨_, request?_eq_some.mpr hr, ?_⟩
      exact Option.map_eq_some_iff.mpr ⟨_, ih, rfl⟩

theorem Runs.reachable (h : c.Runs ops outcomes c') (hc : Reachable limits c) :
    Reachable limits c' := by
  induction h with
  | done => exact hc
  | next hr h ih => exact ih (hc.next hr)

/-- Whatever a disciplined client requests, the agenda of its store is sound. -/
theorem Reachable.sound (h : Reachable limits c) : ∃ touched, c.store.agenda.Sound touched := by
  induction h with
  | start => exact ⟨[], .start limits⟩
  | next h hr ih =>
    obtain ⟨touched, hs⟩ := ih
    exact ⟨_, hs.answers (perform_answers hs hr.performed)⟩

/-- Outside of all regions the scheduler has in its queue what the callout tables say. -/
theorem Reachable.queued (h : Reachable limits c) (hp : c.store.planes = []) (call : CallRef) :
    c.store.scheduler.queue[call]? = (c.store.call? call).map DeferredCall.due := by
  obtain ⟨touched, hs⟩ := h.sound
  exact hs.queue hp call

/-- Everyday requests neither enter a region nor leave one. -/
theorem Requests.level (hr : c.Requests op o c') (hop : op.everyday = true)
    (h : Reachable limits c) :
    c'.store.level = c.store.level := by
  obtain ⟨touched, hs⟩ := h.sound
  have hs' := hs.answers (perform_answers hs hr.performed)
  rw [← length_patches_agenda, ← length_patches_agenda, ← hs'.depth, ← hs.depth]
  exact Operation.length_touch_of_everyday hop o touched

theorem Runs.level (h : c.Runs ops outcomes c') (hops : ∀ op ∈ ops, op.everyday = true)
    (hc : Reachable limits c) : c'.store.level = c.store.level := by
  induction h with
  | done => rfl
  | next hr h ih =>
    have hop := hops _ (.head _)
    exact (ih (fun op hmem => hops op (.tail _ hmem)) (hc.next hr)).trans (hr.level hop hc)

theorem planes_of_level {s : Store} (h : s.level = 0) : s.planes = [] :=
  List.eq_nil_of_length_eq_zero h

namespace Mirrors

/-- Requests to a mirror end the same way, and leave a mirror. -/
theorem runs (h : c.Mirrors d) (hc : Reachable limits c) (hd : Reachable limits d)
    (hops : ∀ op ∈ ops, op.everyday = true) (hrun : c.Runs ops outcomes c')
    (hrun' : d.Runs ops outcomes' d') : outcomes' = outcomes ∧ c'.Mirrors d' := by
  induction hrun generalizing d outcomes' with
  | done =>
    cases hrun'
    exact ⟨rfl, h⟩
  | next hr hrun ih =>
    cases hrun' with
    | next hr' hrun' =>
      obtain ⟨rfl, h₁⟩ := h.request hc.kept hd.kept (hops _ (.head _)) hr hr'
      obtain ⟨rfl, h'⟩ :=
        ih h₁ (hc.next hr) (hd.next hr') (fun op hmem => hops op (.tail _ hmem)) hrun'
      exact ⟨rfl, h'⟩

/-- Requests to a mirror are carried out. -/
theorem exists_runs (h : c.Mirrors d) (hc : Reachable limits c) (hd : Reachable limits d)
    (hops : ∀ op ∈ ops, op.everyday = true) (hrun : c.Runs ops outcomes c') :
    ∃ d', d.Runs ops outcomes d' := by
  induction hrun generalizing d with
  | done => exact ⟨d, .done d⟩
  | next hr hrun ih =>
    have hop := hops _ (.head _)
    obtain ⟨o, d₁, hr'⟩ := hd.request _ (fun v hv => h.covers (hr.covered v hv))
      (Operation.not_evictDataspace_of_everyday hop)
    obtain ⟨rfl, h₁⟩ := h.request hc.kept hd.kept hop hr hr'
    obtain ⟨d', hrun'⟩ :=
      ih h₁ (hc.next hr) (hd.next hr') fun op hmem => hops op (.tail _ hmem)
    exact ⟨d', .next hr' hrun'⟩

/-! ## Entering and committing -/

/-- A region that was entered looks like what is outside of it. -/
theorem enter (ha : c.account.Kept) (hr : c.Requests .enter (.ok (.number n)) e) : c.Mirrors e := by
  obtain ⟨-, heq, henter⟩ := hr.entered
  have howned : e.owned = c.owned := by rw [heq]
  have hp : Path (· = .enter) c.account e.account :=
    (account_eq howned).symm ▸ walk_enter (fun _ => rfl) henter
  have hstill : Path (· = .still) c.account c.account := .refl _
  have hturns : ∀ e : Effect, e = .enter → e.Turns none := by
    rintro e rfl
    exact Effect.turns_enter
  refine (Mirrors.refl c).turn hstill hp ha ha ?_ hturns howned ?_ ?_ ?_ nofun
  · rintro _ rfl
    exact Effect.turns_still
  · intro ref
    rw [heq]
    rfl
  · rw [heq]
    rfl
  · intro id hroot
    exact hroot.lasts

/-- A region that was committed looks like it did before. -/
theorem commit (h : c.Mirrors d) (ha : c.account.Kept) (hb : d.account.Kept)
    (hr : d.Requests (.commit n) (.ok .done) d') : c.Mirrors d' := by
  obtain ⟨howned, r, hcommit, hok⟩ := hr.commit_result
  cases r with
  | error e => cases hok
  | ok u =>
    obtain ⟨-, -, hpath⟩ := walk_commit hb hcommit
    have hq : Path (Effect.Folds n) d.account d'.account := (account_eq howned).symm ▸ hpath
    obtain ⟨hvars, -⟩ := commit_keeps hb hcommit
    have hstill : Path (· = .still) c.account c.account := .refl _
    have hturns : ∀ e : Effect, e.Folds n → e.Turns none := Effect.Folds.turns
    refine h.turn hstill hq ha hb ?_ hturns ?_ ?_ ?_ ?_ nofun
    · rintro _ rfl
      exact Effect.turns_still
    · rw [howned, h.owned]
    · intro ref
      rw [hvars, h.variableAt?]
    · rw [tables_of_commit hcommit, h.tables]
    · intro id hroot
      exact hroot.lasts

end Mirrors

/-! ## The region and the requests by themselves -/

/--
All that is pending can be merged for both of two clients, and in whatever order that is done, they
own the same then and their stores coincide.
-/
def Agrees (c d : Client) : Prop :=
  (∃ c' d', c.Merges c' ∧ c'.store.Merged ∧ d.Merges d' ∧ d'.store.Merged) ∧
  ∀ c' d', c.Merges c' → c'.store.Merged → d.Merges d' → d'.store.Merged →
    d'.owned = c'.owned ∧ c'.store.Coincides d'.store

/-- Outside of all regions, clients agree that cannot tell their stores apart. -/
theorem Mirrors.agrees (h : c.Mirrors d) (hc : Reachable limits c) (hd : Reachable limits d)
    (hp : c.store.planes = []) (hp' : d.store.planes = []) : c.Agrees d := by
  have hqueue : ∀ {a b : Client}, Reachable limits a → a.store.planes = [] → a.Merges b →
      ∀ call : CallRef,
        b.store.scheduler.queue[call]? = (b.store.call? call).map DeferredCall.due := by
    intro a b ha hplanes hmerges call
    have hsteady := hmerges.steady ha.kept
    rw [hsteady.scheduler, call?_of_tables hsteady.tables]
    exact ha.queued hplanes call
  constructor
  · obtain ⟨c', hm, hmerged⟩ := Merges.exists_merged hc.kept
    obtain ⟨d', hm', hmerged'⟩ := Merges.exists_merged hd.kept
    exact ⟨c', d', hm, hmerged, hm', hmerged'⟩
  · intro c' d' hm hmerged hm' hmerged'
    have h' := h.merges hc.kept hd.kept hm hm'
    refine ⟨h'.owned, ?_⟩
    exact h'.coincides ((hm.path hc.kept).kept hc.kept) ((hm'.path hd.kept).kept hd.kept)
      (hm.planes hc.kept hp) (hm'.planes hd.kept hp') hmerged hmerged' (hqueue hc hp hm)
      (hqueue hd hp' hm')

/--
Outside of all regions, everyday requests can as well be made in a region that is then committed:
each of them is answered the same, the commit is carried out, and once all that is pending is
merged, both clients own the same and their stores coincide.
-/
theorem Reachable.commits_directly (h : Reachable limits c) (hp : c.store.planes = [])
    (hops : ∀ op ∈ ops, op.everyday = true) (hrun : c.Runs ops outcomes c')
    (henter : c.Requests .enter (.ok (.number n)) e) :
    (∃ d d', e.Runs ops outcomes d ∧ d.Requests (.commit n) (.ok .done) d') ∧
    ∀ outcomes' d d', e.Runs ops outcomes' d → d.Requests (.commit n) (.ok .done) d' →
      outcomes' = outcomes ∧ c'.Agrees d' := by
  have he := h.next henter
  have hmirrors := Mirrors.enter h.kept henter
  have hlevel : c.store.level = 0 := congrArg List.length hp
  have hone : e.store.level = 1 := by
    rw [Store.level, henter.entered_planes.1, hp]
    rfl
  have hn : n = 1 := henter.entered_planes.2.trans hone
  constructor
  · obtain ⟨d, hrun'⟩ := hmirrors.exists_runs h he hops hrun
    have hd : d.store.level = 1 := (hrun'.level hops he).trans hone
    obtain ⟨d', hcommit, -⟩ := (hrun'.reachable he).committed (by omega)
    refine ⟨d, d', hrun', ?_⟩
    rwa [hn, ← hd]
  · intro outcomes' d d' hrun' hcommit
    -- Entering is not seen by the two runs, so they go in step up to the commit.
    obtain ⟨hsame, hruns⟩ := hmirrors.runs h he hops hrun hrun'
    have hc' := hrun.reachable h
    have hd := hrun'.reachable he
    have hout : c'.store.planes = [] :=
      planes_of_level ((hrun.level hops h).trans hlevel)
    have hdlevel : d.store.level = 1 := (hrun'.level hops he).trans hone
    have hout' : d'.store.planes = [] := by
      obtain ⟨-, r, hs, hok⟩ := hcommit.commit_result
      cases r with
      | error e => cases hok
      | ok u =>
        obtain ⟨-, hlower, -⟩ := walk_commit hd.kept hs
        exact planes_of_level (by omega)
    exact ⟨hsame, (hruns.commit hc'.kept hd.kept hcommit).agrees hc' (hd.next hcommit) hout hout'⟩

/-- Requests after which an array is the value of a pending write. -/
def awaiting : List Operation :=
  [.createDataspace 1, .createArray ⟨0⟩ 2, .createMapping ⟨0⟩ 0,
    .assign (.container .mapping ⟨1⟩) (.int 1) (.container .array ⟨0⟩)]

/--
Requests that replace the pending write, write the array to a variable and to a deferred call, have
another payload put in its place, ask for a call that is not there, and give the array back.
-/
def errands : List Operation :=
  [.assign (.container .mapping ⟨1⟩) (.int 1) (.int 7),
    .assign (.container .array ⟨0⟩) (.int 0) (.container .mapping ⟨1⟩),
    .assignVariable ⟨⟨0⟩, 0⟩ (.container .array ⟨0⟩), .addCall ⟨0⟩ 5 (.container .array ⟨0⟩),
    .replaceCall ⟨⟨0⟩, ⟨0⟩⟩ 8 (.int 3), .removeCall ⟨⟨0⟩, ⟨1⟩⟩,
    .mapGet (.container .mapping ⟨1⟩) (.int 1), .release (.container .array ⟨0⟩)]

/-- The session `errands`, made directly and in a region that is then committed. -/
theorem commits_errands : ∃ c c' e d d' outcomes, Reachable {} c ∧ c.store.planes = [] ∧
    c.Runs errands outcomes c' ∧ outcomes[6]? = some (.ok (.value (.int 7))) ∧
    c.Requests .enter (.ok (.number 1)) e ∧ e.Runs errands outcomes d ∧
    d.Requests (.commit 1) (.ok .done) d' ∧ c'.Agrees d' := by
  obtain ⟨c, hc, hf⟩ := exists_visit awaiting
    (fun c => (c.store.level, (c.request? .enter).map Prod.fst, (c.run? errands).map Prod.fst))
    (a := (0, some (.ok (.number 1)), some [.ok .done, .ok .done, .ok .done, .ok (.number 0),
      .ok .done, .error (.unknownCall ⟨⟨0⟩, ⟨1⟩⟩), .ok (.value (.int 7)), .ok .done])) (by cbv)
  obtain ⟨hlevel, henter, hrun⟩ : _ ∧ _ ∧ _ := by simpa only [Prod.mk.injEq] using hf
  obtain ⟨⟨o, e⟩, henter, rfl⟩ := Option.map_eq_some_iff.mp henter
  obtain ⟨⟨outcomes, c'⟩, hrun, rfl⟩ := Option.map_eq_some_iff.mp hrun
  have henter := request?_eq_some.mp henter
  have hrun := run?_eq_some.mp hrun
  have hp : c.store.planes = [] := planes_of_level hlevel
  have hops : ∀ op ∈ errands, op.everyday = true := by decide
  obtain ⟨⟨d, d', hd, hcommit⟩, hall⟩ := Reachable.commits_directly hc hp hops hrun henter
  exact ⟨c, c', e, d, d', _, hc, hp, hrun, rfl, henter, hd, hcommit, (hall _ d d' hd hcommit).2⟩

end Client

end PlaneStore
