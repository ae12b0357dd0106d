import PlaneStore.Proofs.Inversion.Regions
import PlaneStore.Proofs.Accounts.RespectedRelations
import PlaneStore.Proofs.Callouts.PatchChains

/-!
# The scheduler hears of committed calls only

Outside of atomic regions the queue of the scheduler is what the callout tables say. Inside of a
region the scheduler hears nothing, and the patches of the planes lead from the queue to the callout
tables. So when the outermost region is committed, its patches tell the scheduler just what has
changed.

Which calls a region touched by a replacement that survived is kept beside the planes, as one list
for each.
-/

namespace PlaneStore

open Store

/-! ## The patches of one call -/

namespace CallPatch

/-- A patch, if any, is put on top of what a plane has for the call. -/
inductive Merged : Option CallPatch → Option CallPatch → Option CallPatch → Prop
  | nothing {earlier : Option CallPatch} : Merged none earlier earlier
  | filed {patch : CallPatch} : Merged (some patch) none (some patch)
  | folded {patch earlier : CallPatch} {fold : Fold} (h : earlier.fold? patch = some fold) :
    Merged (some patch) (some earlier) fold.patch

/-- Whether a patch says that the call was replaced. -/
def replaces : CallPatch → Bool
  | .replaced _ => true
  | _ => false

theorem Merged.eq_of_none {earlier after : Option CallPatch} (h : Merged none earlier after) :
    after = earlier := by
  cases h
  rfl

theorem Merged.ne_none {patch earlier after : Option CallPatch} (h : Merged patch earlier after)
    (hafter : after ≠ none) : patch ≠ none ∨ earlier ≠ none := by
  cases h with
  | nothing => exact .inr hafter
  | filed | folded => exact .inl nofun

/--
The patches that planes have for a call, the innermost in front, lead from what the call was outside
of all regions to what it is now. With each patch goes whether the plane replaced the call.
-/
inductive Line (base : Option DeferredCall) :
    List (Option CallPatch × Bool) → Option DeferredCall → Prop
  | root : Line base [] base
  | absent {rest : List (Option CallPatch × Bool)} {now : Option DeferredCall} {touched : Bool}
    (h : Line base rest now) (ht : touched = true → now = none) :
    Line base ((none, touched) :: rest) now
  /-- A call is added once, so no plane further out has a patch for it. -/
  | added {rest : List (Option CallPatch × Bool)} {new : DeferredCall} {touched : Bool}
    (h : Line base rest none) (hrest : ∀ x ∈ rest, x.1 = none) :
    Line base ((some .added, touched) :: rest) (some new)
  | removed {rest : List (Option CallPatch × Bool)} {old : DeferredCall} {touched : Bool}
    (h : Line base rest (some old)) :
    Line base ((some (.removed old), touched) :: rest) none
  | replaced {rest : List (Option CallPatch × Bool)} {old new : DeferredCall}
    (h : Line base rest (some old)) :
    Line base ((some (.replaced old), true) :: rest) (some new)

namespace Line

variable {base now : Option DeferredCall} {rest : List (Option CallPatch × Bool)}
  {patch earlier after : Option CallPatch} {touched touched' : Bool}

/-- The patches of a plane go on top of those of the plane below. -/
theorem merged (h : Line base ((patch, touched) :: (earlier, touched') :: rest) now)
    (hm : Merged patch earlier after) :
    Line base ((after, touched || touched') :: rest) now := by
  cases h with
  | absent h ht =>
    cases hm
    cases h with
    | absent h ht' => exact .absent h fun hor => (Bool.or_eq_true _ _ ▸ hor).elim ht ht'
    | added h hrest => exact .added h hrest
    | removed h => exact .removed h
    | replaced h =>
      rw [Bool.or_true]
      exact .replaced h
  | added h hrest =>
    -- A callout that is added now was unknown to every plane below.
    obtain rfl : earlier = none := hrest _ List.mem_cons_self
    cases hm
    cases h with
    | absent h => exact .added h fun x hx => hrest x (List.mem_cons_of_mem _ hx)
  | removed h =>
    cases h with
    | absent h =>
      cases hm
      exact .removed h
    | added h =>
      cases hm with
      | folded hf =>
        cases hf
        exact .absent h fun _ => rfl
    | replaced h =>
      cases hm with
      | folded hf =>
        cases hf
        exact .removed h
  | replaced h =>
    rw [Bool.true_or]
    cases h with
    | absent h =>
      cases hm
      exact .replaced h
    | added h hrest =>
      cases hm with
      | folded hf =>
        cases hf
        exact .added h hrest
    | replaced h =>
      cases hm with
      | folded hf =>
        cases hf
        exact .replaced h

/-- A change of a call leads on from what the call was. -/
theorem topped {lines : List (Option CallPatch × Bool)} {patch : CallPatch}
    {now' : Option DeferredCall} (h : Line base lines now) (hfit : patch.Fits now now')
    (hnew : patch = .added → ∀ x ∈ lines, x.1 = none) :
    Line base ((some patch, patch.replaces) :: lines) now' := by
  cases hfit with
  | added new => exact .added h (hnew rfl)
  | removed old => exact .removed h
  | replaced old new => exact .replaced h

/-- Without its innermost plane, a line leads to what the call was before that plane's patch. -/
theorem undone (h : Line base ((patch, touched) :: rest) now) :
    Line base rest (patch.elim now CallPatch.before) := by
  cases h with
  | absent h | added h | removed h | replaced h => exact h

end Line

/-- The patch of an only plane says all that happened to a call. -/
theorem Line.alone {base now : Option DeferredCall} {patch : CallPatch} {touched : Bool}
    (h : Line base [(some patch, touched)] now) :
    patch.Fits base now ∧ (patch.replaces = true → touched = true) := by
  cases h with
  | added h =>
    cases h
    exact ⟨.added _, nofun⟩
  | removed h =>
    cases h
    exact ⟨.removed _, nofun⟩
  | replaced h =>
    cases h
    exact ⟨.replaced _ _, fun _ => rfl⟩

/-- Without a patch on the only plane, a call is what it was. -/
theorem Line.alone_none {base now : Option DeferredCall} {touched : Bool}
    (h : Line base [(none, touched)] now) : now = base ∧ (touched = true → base = none) := by
  cases h with
  | absent h ht =>
    cases h
    exact ⟨rfl, ht⟩

/-- A patch is only of a call that was there or is there. -/
theorem Fits.present {patch : CallPatch} {before now : Option DeferredCall}
    (h : patch.Fits before now) : before.isSome = true ∨ now.isSome = true := by
  cases h with
  | added => exact .inr rfl
  | removed | replaced => exact .inl rfl

/-- A patch says of a call what it was before, unless there is none. -/
theorem Line.head_fits {base now : Option DeferredCall} {rest : List (Option CallPatch × Bool)}
    {patch : CallPatch} {touched : Bool} (h : Line base ((some patch, touched) :: rest) now) :
    patch.Fits patch.before now := by
  cases h with
  | added => exact .added _
  | removed => exact .removed _
  | replaced => exact .replaced _ _

end CallPatch

/-! ## Agendas -/

namespace Agenda

open CallPatch

/-- A call as the current plane sees it. -/
def call? (a : Agenda) (call : CallRef) : Option DeferredCall :=
  (a.tables call.dataspace).bind (·.1[call.handle]?)

/-- The handle of a call has been handed out. -/
def Issued (a : Agenda) (call : CallRef) : Prop :=
  ∃ t, a.tables call.dataspace = some t ∧ call.handle.number < t.2

/-- How many calls have been added to a dataspace. -/
def numbered (a : Agenda) (ds : DataspaceId) : Nat := ((a.tables ds).map Prod.snd).getD 0

/-- What planes have for a call, the innermost in front, and whether they replaced it. -/
def lines (a : Agenda) (touched : List (List CallRef)) (call : CallRef) :
    List (Option CallPatch × Bool) :=
  a.patches.zipWith (fun p t => (p[call]?, decide (call ∈ t))) touched

/--
The patches of each call lead from what the scheduler has in its queue to what the callout tables
say, and no handle is used that has not been handed out.
-/
structure Sound (a : Agenda) (touched : List (List CallRef)) : Prop where
  depth : touched.length = a.patches.length
  line : ∀ call, ∃ base, Line base (a.lines touched call) (a.call? call) ∧
    a.scheduler.queue[call]? = base.map DeferredCall.due
  pending : ∀ {call}, a.call? call ≠ none → a.Issued call
  patched : ∀ {call}, (∃ x ∈ a.lines touched call, x.1 ≠ none) → a.Issued call

theorem call?_agenda (s : Store) (call : CallRef) : s.agenda.call? call = s.call? call := by
  show ((s.dataspace? call.dataspace).map Dataspace.table).bind _ = _
  unfold Store.call?
  cases s.dataspace? call.dataspace <;> rfl

theorem issued_agenda (s : Store) (call : CallRef) : s.agenda.Issued call ↔ s.Issued call := by
  show (∃ t, (s.dataspace? call.dataspace).map Dataspace.table = some t ∧ _) ↔ _
  unfold Store.Issued
  cases s.dataspace? call.dataspace with
  | none => simp
  | some d => simp [Dataspace.table]

theorem numbered_agenda (s : Store) (ds : DataspaceId) : s.agenda.numbered ds = s.numbered ds := by
  show (((s.dataspace? ds).map Dataspace.table).map Prod.snd).getD 0 = _
  rw [Option.map_map]
  rfl

/-- Handles are numbered in the order in which they are handed out. -/
theorem issued_iff {a : Agenda} {call : CallRef} :
    a.Issued call ↔ call.handle.number < a.numbered call.dataspace := by
  unfold Issued numbered
  cases a.tables call.dataspace <;> simp

theorem Issued.of_numbered {a b : Agenda} {call : CallRef} (h : a.Issued call)
    (hn : a.numbered call.dataspace ≤ b.numbered call.dataspace) : b.Issued call :=
  issued_iff.mpr (Nat.lt_of_lt_of_le (issued_iff.mp h) hn)

theorem lines_congr {a b : Agenda} (h : b.patches = a.patches) (touched : List (List CallRef))
    (call : CallRef) : b.lines touched call = a.lines touched call := by
  unfold lines
  rw [h]

theorem lines_of_nil {a : Agenda} (hp : a.patches = []) (touched : List (List CallRef))
    (call : CallRef) : a.lines touched call = [] := by
  unfold lines
  rw [hp]
  rfl

/-- The line of a call begins with what the innermost plane has on record. -/
theorem lines_cons {a : Agenda} {p : Std.TreeMap CallRef CallPatch}
    {rest : List (Std.TreeMap CallRef CallPatch)} (hp : a.patches = p :: rest) (t : List CallRef)
    (ts : List (List CallRef)) (call : CallRef) :
    a.lines (t :: ts) call =
      (p[call]?, decide (call ∈ t)) :: { a with patches := rest }.lines ts call := by
  unfold lines
  rw [hp]
  rfl

theorem Sound.touched_nil {a : Agenda} {touched : List (List CallRef)} (ha : a.Sound touched)
    (hp : a.patches = []) : touched = [] :=
  List.length_eq_zero_iff.mp (ha.depth.trans (congrArg List.length hp))

theorem Sound.touched_cons {a : Agenda} {touched : List (List CallRef)}
    {p : Std.TreeMap CallRef CallPatch} {rest : List (Std.TreeMap CallRef CallPatch)}
    (ha : a.Sound touched) (hp : a.patches = p :: rest) :
    ∃ u us, touched = u :: us ∧ us.length = rest.length := by
  have hdepth := ha.depth.trans (congrArg List.length hp)
  cases touched with
  | nil => cases hdepth
  | cons u us => exact ⟨u, us, rfl, Nat.succ_inj.mp hdepth⟩

/-- A patch is told to the scheduler, or goes on top of what the innermost plane has. -/
inductive Records (call : CallRef) (patch : CallPatch) (a : Agenda) : Agenda → Prop
  | told (hp : a.patches = []) (hfit : patch.Fits patch.before (a.call? call)) :
    Records call patch a
      { a with scheduler :=
          patch.tell call (((a.call? call).map DeferredCall.due).getD 0) a.scheduler }
  | merged {p p' : Std.TreeMap CallRef CallPatch} {rest : List (Std.TreeMap CallRef CallPatch)}
    (hp : a.patches = p :: rest) (hother : ∀ other ≠ call, p'[other]? = p[other]?)
    (hcall : Merged (some patch) p[call]? p'[call]?) :
    Records call patch a { a with patches := p' :: rest }

end Agenda

/-! ### Recording a change -/

namespace Agenda

open CallPatch

/-- The calls that the innermost plane replaced, with one more. -/
def touchTop (call : CallRef) : List (List CallRef) → List (List CallRef)
  | [] => []
  | t :: ts => (call :: t) :: ts

variable {a b t : Agenda} {touched : List (List CallRef)} {call : CallRef} {patch : CallPatch}

/-- Told of a change, the scheduler has the call as it is now. -/
theorem getElem?_queue_tell {q : Scheduler} {now : Option DeferredCall}
    (hfit : patch.Fits patch.before now) :
    (patch.tell call ((now.map DeferredCall.due).getD 0) q).queue[call]? =
      now.map DeferredCall.due := by
  cases hfit <;> simp [CallPatch.tell, Scheduler.schedule, Scheduler.cancel, Scheduler.reschedule]

theorem getElem?_queue_tell_of_ne {q : Scheduler} {due : Nat} {other : CallRef}
    (h : other ≠ call) : (patch.tell call due q).queue[other]? = q.queue[other]? := by
  have hne : compare call other ≠ .eq := fun he => h (Std.LawfulEqOrd.eq_of_compare he).symm
  cases patch <;>
    simp [CallPatch.tell, Scheduler.schedule, Scheduler.cancel, Scheduler.reschedule,
      Std.TreeMap.getElem?_insert, Std.TreeMap.getElem?_erase, hne]

/-- What the innermost plane replaced, once a patch was recorded. -/
theorem exists_touchTop (call : CallRef) (replaces : Bool) (u : List CallRef)
    (us : List (List CallRef)) :
    ∃ u', (if replaces then touchTop call (u :: us) else u :: us) = u' :: us ∧
      ∀ c, decide (c ∈ u') = ((decide (c = call) && replaces) || decide (c ∈ u)) := by
  cases replaces with
  | true => exact ⟨call :: u, rfl, fun c => by simp⟩
  | false => exact ⟨u, rfl, fun c => by simp⟩

/-- A call is changed, and the change is recorded. -/
structure Changed (call : CallRef) (patch : CallPatch) (a t b : Agenda) : Prop where
  patches : t.patches = a.patches
  scheduler : t.scheduler = a.scheduler
  other : ∀ other ≠ call, t.call? other = a.call? other
  numbered : ∀ ds, t.numbered ds =
    a.numbered ds + if patch = .added ∧ ds = call.dataspace then 1 else 0
  known : t.Issued call
  fits : patch.Fits (a.call? call) (t.call? call)
  fresh : patch = .added → ¬ a.Issued call
  records : t.Records call patch b

theorem Changed.issued (h : Changed call patch a t b) (c : CallRef) (hc : a.Issued c) :
    t.Issued c :=
  hc.of_numbered ((Nat.le_add_right _ _).trans (h.numbered c.dataspace).ge)

theorem Changed.pending {c : CallRef} (h : Changed call patch a t b) (ha : a.Sound touched)
    (hc : t.call? c ≠ none) : t.Issued c := by
  by_cases he : c = call
  · exact he ▸ h.known
  · exact h.issued c (ha.pending (h.other c he ▸ hc))

/--
Outside of regions the scheduler hears of a change, and its queue is again what the tables say.
-/
theorem Changed.told (h : Changed call patch a t b) (ha : a.Sound []) (hp : a.patches = []) :
    ({ t with scheduler :=
        patch.tell call (((t.call? call).map DeferredCall.due).getD 0) t.scheduler } :
      Agenda).Sound [] := by
  have hlines : ∀ (q : Scheduler) (c : CallRef),
      ({ t with scheduler := q } : Agenda).lines [] c = [] :=
    fun q => lines_of_nil (h.patches.trans hp) []
  refine ⟨congrArg List.length (h.patches.trans hp).symm, fun c => ⟨t.call? c, ?_, ?_⟩,
    h.pending ha, fun ⟨x, hx, _⟩ => ?_⟩
  · rw [hlines]
    exact .root
  · by_cases he : c = call
    · subst he
      exact getElem?_queue_tell (h.fits.eq_before ▸ h.fits)
    · obtain ⟨base, hline, hqueue⟩ := ha.line c
      rw [lines_of_nil hp] at hline
      cases hline
      rw [h.other c he, ← hqueue, ← h.scheduler]
      exact getElem?_queue_tell_of_ne he
  · rw [hlines] at hx
    cases hx

/-- In a region the patch goes on top of what the innermost plane has for the call. -/
theorem Changed.merged {p p' : Std.TreeMap CallRef CallPatch}
    {rest : List (Std.TreeMap CallRef CallPatch)} {u u' : List CallRef} {us : List (List CallRef)}
    (h : Changed call patch a t b) (ha : a.Sound (u :: us)) (hp : a.patches = p :: rest)
    (hother : ∀ other ≠ call, p'[other]? = p[other]?)
    (hmerged : Merged (some patch) p[call]? p'[call]?)
    (hmem : ∀ c, decide (c ∈ u') = ((decide (c = call) && patch.replaces) || decide (c ∈ u))) :
    ({ t with patches := p' :: rest } : Agenda).Sound (u' :: us) := by
  have hlines : ∀ c, ({ t with patches := p' :: rest } : Agenda).lines (u' :: us) c =
      (p'[c]?, (decide (c = call) && patch.replaces) || decide (c ∈ u)) ::
        ({ a with patches := rest } : Agenda).lines us c := fun c => by
    rw [lines_cons rfl, hmem]
    rfl
  have hsame : ∀ c ≠ call, ({ t with patches := p' :: rest } : Agenda).lines (u' :: us) c =
      a.lines (u :: us) c := fun c he => by
    rw [hlines, lines_cons hp, decide_eq_false he, Bool.false_and, Bool.false_or, hother c he]
  have hdepth := ha.depth.trans (congrArg List.length hp)
  refine ⟨hdepth, fun c => ?_, h.pending ha, fun {c} ⟨x, hx, hne⟩ => ?_⟩
  · obtain ⟨base, hline, hqueue⟩ := ha.line c
    refine ⟨base, ?_, by rw [← hqueue, ← h.scheduler]⟩
    show Line base _ (t.call? c)
    by_cases he : c = call
    · subst he
      rw [lines_cons hp] at hline
      have htop := hline.topped h.fits fun hadded x hx => by
        by_contra hne
        exact h.fresh hadded (ha.patched ⟨x, by rw [lines_cons hp]; exact hx, hne⟩)
      rw [hlines, decide_eq_true rfl, Bool.true_and]
      exact htop.merged hmerged
    · rw [hsame c he, h.other c he]
      exact hline
  · by_cases he : c = call
    · exact he ▸ h.known
    · rw [hsame c he] at hx
      exact h.issued c (ha.patched ⟨x, hx, hne⟩)

/-- A change of a call is recorded. -/
theorem Sound.changed (ha : a.Sound touched) (h : Changed call patch a t b) :
    b.Sound (if patch.replaces then touchTop call touched else touched) := by
  have hrecords := h.records
  cases hrecords with
  | told hp =>
    rw [h.patches] at hp
    obtain rfl := ha.touched_nil hp
    rw [show (if patch.replaces then touchTop call [] else []) = [] by split <;> rfl]
    exact h.told ha hp
  | merged hp hother hmerged =>
    rw [h.patches] at hp
    obtain ⟨u, us, rfl, -⟩ := ha.touched_cons hp
    obtain ⟨u', hu', hmem⟩ := exists_touchTop call patch.replaces u us
    rw [hu']
    exact h.merged ha hp hother hmerged hmem

/-- When a call is due, if it is pending. -/
def due (a : Agenda) (call : CallRef) : Nat := ((a.call? call).map DeferredCall.due).getD 0

/-- The scheduler is told of patches, one after the other. -/
def tellAll (a : Agenda) (patches : List (CallRef × CallPatch)) (q : Scheduler) : Scheduler :=
  patches.foldl (fun q x => x.2.tell x.1 (a.due x.1) q) q

/-- Calls that were patched are what they were before, and other calls are as they are. -/
structure Unwound (a : Agenda) (undone : CallRef → Option CallPatch) (b : Agenda) : Prop where
  patches : b.patches = a.patches
  scheduler : b.scheduler = a.scheduler
  call : ∀ call, b.call? call = (undone call).elim (a.call? call) before
  numbered : ∀ ds, b.numbered ds = a.numbered ds

theorem Unwound.issued {undone : CallRef → Option CallPatch} (h : a.Unwound undone b)
    (call : CallRef) (hc : a.Issued call) : b.Issued call :=
  hc.of_numbered (h.numbered call.dataspace).ge

end Agenda

/-- A change to the innermost plane replaces its patches on the agenda. -/
theorem Store.agenda_withPlane {s : Store} {p : Plane} {rest : List Plane}
    (hp : s.planes = p :: rest) (f : Plane → Plane) :
    (s.withPlane f).agenda =
      { s.agenda with patches := (f p).patches :: rest.map Plane.patches } := by
  unfold withPlane
  rw [hp]
  rfl

theorem Store.journal_agenda {s s' : Store} {call : CallRef} {patch : CallPatch} {u : Unit}
    (h : journal call patch s = .ok (u, s')) : s.agenda.Records call patch s'.agenda := by
  obtain ⟨out, t, hrec, hrel⟩ := journal_eq_ok h
  rw [Quiet.eq hrel]
  have hinsert : ∀ (m : Std.TreeMap CallRef CallPatch) (x : CallPatch), ∀ other ≠ call,
      (m.insert call x)[other]? = m[other]? := fun m x other ho => by
    have hne : compare call other ≠ .eq := fun he => ho (Std.LawfulEqOrd.eq_of_compare he).symm
    simp [Std.TreeMap.getElem?_insert, hne]
  cases hrec with
  | told hp hfit =>
    rw [← Agenda.call?_agenda] at hfit ⊢
    exact .told (congrArg (List.map Plane.patches) hp) hfit
  | filed p rest hp hnone =>
    rw [agenda_withPlane hp]
    refine .merged (congrArg (List.map Plane.patches) hp) (hinsert _ _) ?_
    rw [hnone, Std.TreeMap.getElem?_insert_self]
    exact .filed
  | folded p rest earlier later out hp hsome hfold =>
    rw [agenda_withPlane hp]
    refine .merged (congrArg (List.map Plane.patches) hp) (hinsert _ _) ?_
    rw [hsome, Std.TreeMap.getElem?_insert_self]
    exact .folded hfold
  | cancelled p rest earlier out hp hsome hfold =>
    rw [agenda_withPlane hp]
    refine .merged (congrArg (List.map Plane.patches) hp) (fun other ho => ?_) ?_
    · have hne : compare call other ≠ .eq := fun he => ho (Std.LawfulEqOrd.eq_of_compare he).symm
      simp [Std.TreeMap.getElem?_erase, hne]
    · rw [hsome, Std.TreeMap.getElem?_erase_self]
      exact .folded hfold

/-! ### Folding down and taking back -/

namespace Store

variable {s s' : Store} {patches : List (CallRef × CallPatch)} {u : PUnit}

/-- Patches that are folded down go on top of what the plane below has. -/
theorem journals_agenda_of_cons {p : Std.TreeMap CallRef CallPatch}
    {rest : List (Std.TreeMap CallRef CallPatch)} (hn : (patches.map Prod.fst).Nodup)
    (hp : s.agenda.patches = p :: rest)
    (h : (patches.forM fun (call, patch) => journal call patch : StoreM PUnit) s = .ok (u, s')) :
    ∃ p', s'.agenda = { s.agenda with patches := p' :: rest } ∧
      ∀ call, CallPatch.Merged (patches.lookup call) p[call]? p'[call]? := by
  induction patches generalizing s p with
  | nil =>
    obtain rfl := StoreM.forM_nil_eq_ok.mp h
    exact ⟨p, by rw [← hp], fun call => .nothing⟩
  | cons x patches ih =>
    obtain ⟨call, patch⟩ := x
    obtain ⟨hnot, hn⟩ := List.nodup_cons.mp hn
    obtain ⟨_, s₁, h₁, h⟩ := StoreM.forM_cons_eq_ok.mp h
    generalize ha₁ : s₁.agenda = a₁ at ih
    have hrec := journal_agenda h₁
    rw [ha₁] at hrec
    cases hrec with
    | told hnil =>
      rw [hp] at hnil
      cases hnil
    | @merged q q' rest' hp' hother hcall =>
      obtain ⟨rfl, rfl⟩ := List.cons.inj (hp.symm.trans hp')
      obtain ⟨p', hs', hmerged⟩ := ih hn (congrArg Agenda.patches ha₁) h
      refine ⟨p', by rw [hs', ha₁], fun other => ?_⟩
      have hm := hmerged other
      -- Each callout is journaled once, so the rest of the list leaves this one alone.
      by_cases ho : other = call
      · subst ho
        rw [lookup_of_notMem hnot] at hm
        rw [List.lookup_cons_self, hm.eq_of_none]
        exact hcall
      · rw [lookup_cons_of_ne (Ne.symm ho), ← hother other ho]
        exact hm

/-- Outside of regions the scheduler is told of patches one by one. -/
theorem journals_agenda_of_nil (hp : s.agenda.patches = [])
    (h : (patches.forM fun (call, patch) => journal call patch : StoreM PUnit) s = .ok (u, s')) :
    s'.agenda = { s.agenda with scheduler := s.agenda.tellAll patches s.agenda.scheduler } := by
  induction patches generalizing s with
  | nil =>
    obtain rfl := StoreM.forM_nil_eq_ok.mp h
    rfl
  | cons x patches ih =>
    obtain ⟨call, patch⟩ := x
    obtain ⟨_, s₁, h₁, h⟩ := StoreM.forM_cons_eq_ok.mp h
    generalize ha₁ : s₁.agenda = a₁ at ih
    have hrec := journal_agenda h₁
    rw [ha₁] at hrec
    cases hrec with
    | told =>
      rw [ih ((congrArg Agenda.patches ha₁).trans hp) h, ha₁]
      rfl
    | merged hcons =>
      rw [hp] at hcons
      cases hcons

/-- Taking a change back makes of a call what it was before. -/
theorem unwind_agenda {call : CallRef} {patch : CallPatch} (h : unwind call patch s = .ok (u, s')) :
    s.agenda.Unwound (fun c => if c = call then some patch else none) s'.agenda := by
  have hchanged : ∀ {f : Std.TreeMap CallHandle DeferredCall → Std.TreeMap CallHandle DeferredCall},
      s'.agenda = (s.withCallouts call.dataspace f).agenda →
        (∀ c, (s.withCallouts call.dataspace f).call? c =
          if c = call then patch.before else s.call? c) →
        s.agenda.Unwound (fun c => if c = call then some patch else none) s'.agenda := by
    intro f heq hcall
    rw [heq]
    refine ⟨rfl, rfl, fun c => ?_, fun ds => ?_⟩
    · rw [Agenda.call?_agenda, Agenda.call?_agenda]
      refine (hcall c).trans ?_
      split <;> rfl
    · rw [Agenda.numbered_agenda, Agenda.numbered_agenda, numbered_withCallouts]
  rcases unwind_eq_ok h with
    ⟨rfl, c, -, h⟩ | ⟨old, d, rfl, hd, h⟩ | ⟨old, new, s₁, rfl, hnew, himport, h⟩
  · exact hchanged (Quiet.eq h) fun c => call?_withCallouts_erase
  · exact hchanged (Quiet.eq h) fun c => call?_withCallouts_insert hd
  · obtain ⟨d, hd, -⟩ := Option.bind_eq_some_iff.mp hnew
    exact hchanged ((Quiet.eq h).trans (Quiet.eq himport)) fun c => call?_withCallouts_insert hd

/-- A list with one patch for each call is taken back as a whole. -/
theorem unwinds_agenda (hn : (patches.map Prod.fst).Nodup)
    (h : (patches.forM fun (call, patch) => unwind call patch : StoreM PUnit) s = .ok (u, s')) :
    s.agenda.Unwound (fun call => patches.lookup call) s'.agenda := by
  induction patches generalizing s with
  | nil =>
    obtain rfl := StoreM.forM_nil_eq_ok.mp h
    exact ⟨rfl, rfl, fun _ => rfl, fun _ => rfl⟩
  | cons x patches ih =>
    obtain ⟨call, patch⟩ := x
    obtain ⟨hnot, hn⟩ := List.nodup_cons.mp hn
    obtain ⟨_, s₁, h₁, h⟩ := StoreM.forM_cons_eq_ok.mp h
    have hhead := unwind_agenda h₁
    have hrest := ih hn h
    refine ⟨hrest.patches.trans hhead.patches, hrest.scheduler.trans hhead.scheduler,
      fun other => ?_, fun ds => (hrest.numbered ds).trans (hhead.numbered ds)⟩
    rw [hrest.call, hhead.call]
    by_cases ho : other = call
    · subst ho
      rw [List.lookup_cons_self, lookup_of_notMem hnot, if_pos rfl]
      rfl
    · rw [lookup_cons_of_ne (Ne.symm ho), if_neg ho]
      rfl

end Store

/-! ### Planes that come and go -/

namespace Agenda.Sound

open CallPatch

variable {a b : Agenda} {touched us : List (List CallRef)} {u v : List CallRef}
  {p q q' : Std.TreeMap CallRef CallPatch} {rest : List (Std.TreeMap CallRef CallPatch)}

theorem entered (ha : a.Sound touched) :
    ({ a with patches := ∅ :: a.patches } : Agenda).Sound ([] :: touched) := by
  have hlines : ∀ call, ({ a with patches := ∅ :: a.patches } : Agenda).lines ([] :: touched) call =
      (none, false) :: a.lines touched call := fun call => by
    rw [lines_cons rfl]
    simp
  refine ⟨congrArg (· + 1) ha.depth, fun call => ?_, ha.pending, fun {call} ⟨x, hx, hne⟩ => ?_⟩
  · obtain ⟨base, hline, hqueue⟩ := ha.line call
    refine ⟨base, ?_, hqueue⟩
    rw [hlines]
    exact .absent hline nofun
  · rw [hlines] at hx
    rcases List.mem_cons.mp hx with rfl | hx
    · exact absurd rfl hne
    · exact ha.patched ⟨x, hx, hne⟩

/-- The patches of a plane go on top of those of the plane below. -/
theorem folded (ha : a.Sound (u :: v :: us)) (hp : a.patches = p :: q :: rest)
    (hm : ∀ call : CallRef, Merged p[call]? q[call]? q'[call]?) :
    ({ a with patches := q' :: rest } : Agenda).Sound ((u ++ v) :: us) := by
  -- Two entries of each line, those of the two planes, become one.
  have hbefore : ∀ call, a.lines (u :: v :: us) call = (p[call]?, decide (call ∈ u)) ::
      (q[call]?, decide (call ∈ v)) :: ({ a with patches := rest } : Agenda).lines us call :=
    fun call => by rw [lines_cons hp, lines_cons rfl]
  have hafter : ∀ call, ({ a with patches := q' :: rest } : Agenda).lines ((u ++ v) :: us) call =
      (q'[call]?, decide (call ∈ u) || decide (call ∈ v)) ::
        ({ a with patches := rest } : Agenda).lines us call := fun call => by
    rw [lines_cons rfl]
    simp
  refine ⟨?_, fun call => ?_, ha.pending, fun {call} ⟨x, hx, hne⟩ => ?_⟩
  · exact Nat.succ_inj.mp (ha.depth.trans (congrArg List.length hp))
  · obtain ⟨base, hline, hqueue⟩ := ha.line call
    refine ⟨base, ?_, hqueue⟩
    rw [hbefore] at hline
    rw [hafter]
    exact hline.merged (hm call)
  · refine ha.patched ?_
    rw [hbefore]
    rw [hafter] at hx
    rcases List.mem_cons.mp hx with rfl | hx
    · rcases (hm call).ne_none hne with hne | hne
      · exact ⟨_, List.mem_cons_self, hne⟩
      · exact ⟨_, List.mem_cons_of_mem _ List.mem_cons_self, hne⟩
    · exact ⟨x, List.mem_cons_of_mem _ (List.mem_cons_of_mem _ hx), hne⟩

/-- What the queue is after the scheduler was told of patches. -/
theorem queue_tellAll {patches : List (CallRef × CallPatch)} (hn : (patches.map Prod.fst).Nodup)
    (hfit : ∀ x ∈ patches, x.2.Fits x.2.before (a.call? x.1)) (s : Scheduler) (call : CallRef) :
    (a.tellAll patches s).queue[call]? =
      if patches.lookup call = none then s.queue[call]?
      else (a.call? call).map DeferredCall.due := by
  induction patches generalizing s with
  | nil => rfl
  | cons x patches ih =>
    obtain ⟨other, patch⟩ := x
    obtain ⟨hnot, hn⟩ := List.nodup_cons.mp hn
    obtain ⟨hhead, hrest⟩ := List.forall_mem_cons.mp hfit
    refine (ih hn hrest _).trans ?_
    by_cases ho : call = other
    · subst ho
      rw [lookup_of_notMem hnot, if_pos rfl, List.lookup_cons_self, if_neg nofun]
      exact getElem?_queue_tell hhead
    · rw [lookup_cons_of_ne (Ne.symm ho)]
      split
      · exact getElem?_queue_tell_of_ne ho
      · rfl

/-- The outermost plane tells the scheduler of its patches. -/
theorem told (ha : a.Sound [u]) (hp : a.patches = [p]) :
    ({ a with patches := [], scheduler := a.tellAll p.toList a.scheduler } : Agenda).Sound [] := by
  have hlines : ∀ call, a.lines [u] call = [(p[call]?, decide (call ∈ u))] := fun call => by
    rw [lines_cons hp]
    rfl
  have hfit : ∀ x ∈ p.toList, x.2.Fits x.2.before (a.call? x.1) := fun ⟨call, patch⟩ hx => by
    obtain ⟨base, hline, -⟩ := ha.line call
    rw [hlines, Std.TreeMap.mem_toList_iff_getElem?_eq_some.mp hx] at hline
    exact hline.head_fits
  refine ⟨rfl, fun call => ⟨a.call? call, .root, ?_⟩, ha.pending, fun ⟨x, hx, _⟩ => by cases hx⟩
  obtain ⟨base, hline, hqueue⟩ := ha.line call
  rw [hlines] at hline
  refine (queue_tellAll (nodup_toList p) hfit _ _).trans ?_
  rw [lookup_toList]
  split
  · next hnone =>
    rw [hnone] at hline
    cases hline with
    | absent h =>
      cases h
      exact hqueue
  · rfl

/-- A plane takes back what it has patched. -/
theorem undone (ha : a.Sound (u :: us)) (hp : a.patches = p :: rest)
    (h : ({ a with patches := rest } : Agenda).Unwound (fun call => p[call]?) b) : b.Sound us := by
  have hbefore : ∀ call, a.lines (u :: us) call =
      (p[call]?, decide (call ∈ u)) :: b.lines us call := fun call => by
    rw [lines_cons hp, lines_congr h.patches]
  refine ⟨?_, fun call => ?_, fun {call} hne => h.issued call ?_,
    fun {call} ⟨x, hx, hne⟩ => h.issued call ?_⟩
  · rw [h.patches]
    exact Nat.succ_inj.mp (ha.depth.trans (congrArg List.length hp))
  · obtain ⟨base, hline, hqueue⟩ := ha.line call
    rw [hbefore] at hline
    refine ⟨base, ?_, by rw [h.scheduler, ← hqueue]⟩
    rw [h.call]
    exact hline.undone
  · rw [h.call] at hne
    cases hget : p[call]? with
    | none =>
      rw [hget] at hne
      exact ha.pending hne
    | some patch =>
      exact ha.patched ⟨_, hbefore call ▸ List.mem_cons_self, by rw [hget]; nofun⟩
  · exact ha.patched ⟨x, hbefore call ▸ List.mem_cons_of_mem _ hx, hne⟩

end Agenda.Sound

end PlaneStore
