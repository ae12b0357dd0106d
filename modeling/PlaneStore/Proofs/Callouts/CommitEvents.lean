import PlaneStore.Proofs.Callouts.SoundAgendas
import PlaneStore.Proofs.Walk.Regions

/-!
# What a commit tells the scheduler

Every request keeps agendas sound, so outside of regions the queue is what the callout tables say.
While a region is open the scheduler hears nothing, and the commit of the outermost region tells it
of each call that came, went, or was replaced, in the order of the calls.
-/

namespace PlaneStore

open Store

/-! ## Requests -/

/--
The calls that each active plane replaced, the innermost in front, after a request. A commit hands
them to the plane below, a discard forgets them.
-/
def Operation.touch (touched : List (List CallRef)) : Operation → Outcome → List (List CallRef)
  | .enter, .ok _ => [] :: touched
  | .replaceCall ref _ _, .ok _ => Agenda.touchTop ref touched
  | .commit _, .ok _ =>
    match touched with
    | u :: v :: us => (u ++ v) :: us
    | _ => []
  | .discard _, .ok _ => touched.tail
  | .discardTo n, .ok _ => touched.drop (touched.length + 1 - n)
  | _, _ => touched

/-- How many calls a request has added to a dataspace. -/
def Operation.newCalls (ds : DataspaceId) : Operation → Outcome → Nat
  | .addCall other _ _, .ok _ => if ds = other then 1 else 0
  | _, _ => 0

theorem Operation.newCalls_le_one (op : Operation) (outcome : Outcome) (ds : DataspaceId) :
    op.newCalls ds outcome ≤ 1 := by
  unfold newCalls
  split
  · split <;> omega
  · omega

theorem Operation.sum_newCalls_le (ops : List Operation) (outcomes : List Outcome)
    (ds : DataspaceId) : (ops.zipWith (Operation.newCalls ds) outcomes).sum ≤ ops.length := by
  induction ops generalizing outcomes with
  | nil => exact Nat.le_refl _
  | cons op ops ih =>
    cases outcomes with
    | nil => exact Nat.zero_le _
    | cons outcome outcomes =>
      have hhead := op.newCalls_le_one outcome ds
      have hrest := ih outcomes
      rw [List.zipWith_cons_cons, List.sum_cons, List.length_cons]
      omega

namespace Agenda

open CallPatch

/-- The innermost planes take back what they have patched. -/
inductive Discarded : Nat → Agenda → Agenda → Prop
  | refl (a : Agenda) : Discarded 0 a a
  | head {n : Nat} {a b c : Agenda} {p : Std.TreeMap CallRef CallPatch}
    {rest : List (Std.TreeMap CallRef CallPatch)} (hp : a.patches = p :: rest)
    (h : ({ a with patches := rest } : Agenda).Unwound (fun call => p[call]?) b)
    (h' : Discarded n b c) : Discarded (n + 1) a c

/-- What requests make of an agenda. -/
inductive Answers (a : Agenda) : Operation → Outcome → Agenda → Prop
  | kept {op : Operation} {outcome : Outcome} {b : Agenda} (hp : b.patches = a.patches)
    (hs : b.scheduler = a.scheduler) (hc : ∀ call, b.call? call = a.call? call)
    (hn : ∀ ds, b.numbered ds = a.numbered ds) (hnew : ∀ ds, op.newCalls ds outcome = 0)
    (ht : ∀ touched, op.touch touched outcome = touched) : Answers a op outcome b
  | changed {op : Operation} {outcome : Outcome} {call : CallRef} {patch : CallPatch}
    {t b : Agenda} (h : Changed call patch a t b)
    (hnew : ∀ ds, op.newCalls ds outcome = if patch = .added ∧ ds = call.dataspace then 1 else 0)
    (ht : ∀ touched, op.touch touched outcome =
      if patch.replaces then touchTop call touched else touched) : Answers a op outcome b
  | entered (r : Answer) : Answers a .enter (.ok r) { a with patches := ∅ :: a.patches }
  | folded {p q q' : Std.TreeMap CallRef CallPatch} {rest : List (Std.TreeMap CallRef CallPatch)}
    (n : Nat) (r : Answer) (hp : a.patches = p :: q :: rest) (hn : n = a.patches.length)
    (hm : ∀ call : CallRef, Merged p[call]? q[call]? q'[call]?) :
    Answers a (.commit n) (.ok r) { a with patches := q' :: rest }
  | told {p : Std.TreeMap CallRef CallPatch} (r : Answer) (hp : a.patches = [p]) :
    Answers a (.commit 1) (.ok r)
      { a with patches := [], scheduler := a.tellAll p.toList a.scheduler }
  | discarded {op : Operation} {outcome : Outcome} {n : Nat} {b : Agenda} (h : Discarded n a b)
    (hop : ∀ n, op ≠ .commit n) (hnew : ∀ ds, op.newCalls ds outcome = 0)
    (ht : ∀ touched : List (List CallRef), touched.length = a.patches.length →
      op.touch touched outcome = touched.drop n) : Answers a op outcome b

/-- What leaves the agenda as it is, and adds or replaces no call, answers any agenda rightly. -/
theorem Answers.same {a : Agenda} {op : Operation} {outcome : Outcome}
    (hnew : ∀ ds, op.newCalls ds outcome = 0) (ht : ∀ touched, op.touch touched outcome = touched) :
    Answers a op outcome a :=
  .kept rfl rfl (fun _ => rfl) (fun _ => rfl) hnew ht

theorem Discarded.numbered {n : Nat} {a b : Agenda} (h : Discarded n a b) (ds : DataspaceId) :
    b.numbered ds = a.numbered ds := by
  induction h with
  | refl => rfl
  | head hp h h' ih => exact ih.trans (h.numbered ds)

/-- Requests count the calls that they add. -/
theorem Answers.numbered {a b : Agenda} {op : Operation} {outcome : Outcome}
    (h : Answers a op outcome b) (ds : DataspaceId) :
    b.numbered ds = a.numbered ds + op.newCalls ds outcome := by
  cases h with
  | kept hp hs hc hn hnew => rw [hn, hnew, Nat.add_zero]
  | changed h hnew =>
    rw [hnew, ← h.numbered]
    cases h.records <;> rfl
  | entered | folded | told => rfl
  | discarded h hop hnew => rw [h.numbered, hnew, Nat.add_zero]

theorem Sound.discarded {n : Nat} {a b : Agenda} {touched : List (List CallRef)}
    (ha : a.Sound touched) (h : Discarded n a b) : b.Sound (touched.drop n) := by
  induction h generalizing touched with
  | refl => exact ha
  | @head n a b c p rest hp h h' ih =>
    obtain ⟨u, us, rfl, -⟩ := ha.touched_cons hp
    exact ih (ha.undone hp h)

/-- Requests keep agendas sound. -/
theorem Sound.answers {a b : Agenda} {touched : List (List CallRef)} {op : Operation}
    {outcome : Outcome} (ha : a.Sound touched) (h : Answers a op outcome b) :
    b.Sound (op.touch touched outcome) := by
  cases h with
  | kept hp hs hc hn hnew ht =>
    have hi : ∀ call, a.Issued call → b.Issued call := fun call hcall =>
      hcall.of_numbered (hn call.dataspace).ge
    rw [ht]
    refine ⟨hp ▸ ha.depth, fun call => ?_, fun {call} hne => hi call (ha.pending (hc call ▸ hne)),
      fun {call} hx => hi call (ha.patched (lines_congr hp touched call ▸ hx))⟩
    obtain ⟨base, hline, hqueue⟩ := ha.line call
    exact ⟨base, by rw [lines_congr hp, hc]; exact hline, by rw [hs]; exact hqueue⟩
  | changed h hnew ht =>
    rw [ht]
    exact ha.changed h
  | entered r => exact ha.entered
  | @folded p q q' rest n r hp hn hm =>
    obtain ⟨u, us, rfl, hlen⟩ := ha.touched_cons hp
    obtain ⟨v, us, rfl⟩ := List.exists_cons_of_length_eq_add_one hlen
    exact ha.folded hp hm
  | @told p r hp =>
    obtain ⟨u, us, rfl, hlen⟩ := ha.touched_cons hp
    obtain rfl := List.length_eq_zero_iff.mp hlen
    exact ha.told hp
  | discarded h hop hnew ht =>
    rw [ht _ ha.depth]
    exact ha.discarded h

end Agenda

namespace Store

variable {s s' : Store}

theorem length_patches_agenda (s : Store) : s.agenda.patches.length = s.level := by
  unfold agenda level
  rw [List.length_map]

theorem enter_agenda {r : Except Refusal Nat} (h : enter s = .ok (r, s')) :
    match r with
    | .error _ => s'.agenda = s.agenda
    | .ok _ => s'.agenda = { s.agenda with patches := ∅ :: s.agenda.patches } := by
  rcases enter_eq_ok h with ⟨-, rfl, rfl⟩ | ⟨-, rfl, rfl⟩ <;> rfl

/-- Of folding a plane down, only its patches have to do with calls. -/
theorem foldDown_agenda {level : Nat} {p : Plane} {u : Unit}
    (h : foldDown level p s = .ok (u, s')) :
    ∃ s₁ s₂ u, s₁.agenda = s.agenda ∧ s'.agenda = s₂.agenda ∧
      (p.patches.toList.forM fun (call, patch) => journal call patch : StoreM PUnit) s₁ =
        .ok (u, s₂) := by
  obtain ⟨backups, saved, s₁, s₂, s₃, s₄, h₁, h₂, h₃, h₄, h⟩ := foldDown_eq_ok h
  exact ⟨s₃, s₄, _, by rw [Quiet.eq h₃, Quiet.eq h₂, Quiet.eq h₁], Quiet.eq h, h₄⟩

/-- Of undoing a plane, only taking back its patches has to do with calls. -/
theorem undo_agenda {level : Nat} {p : Plane} {u : Unit} (h : undo level p s = .ok (u, s')) :
    s.agenda.Unwound (fun call => p.patches[call]?) s'.agenda := by
  obtain ⟨s₁, s₂, s₃, h₁, h₂, h₃, h⟩ := undo_eq_ok h
  have hunwound := unwinds_agenda (nodup_toList p.patches) h₃
  rw [Quiet.eq h₂, Quiet.eq h₁] at hunwound
  rw [Quiet.eq h]
  simpa only [lookup_toList] using hunwound

theorem commit_answers {level : Nat} {r : Except Refusal Unit} (h : commit level s = .ok (r, s')) :
    s.agenda.Answers (.commit level) (r.map fun _ => .done) s'.agenda := by
  rcases commit_eq_ok h with ⟨rfl, ⟨e, rfl⟩, -⟩ | ⟨p, rest, hp, hlevel, rfl, h₂⟩
  · exact .same (fun _ => rfl) fun _ => rfl
  obtain ⟨s₁, s₂, u, hs₁, hs₂, hjournals⟩ := foldDown_agenda h₂
  rw [hs₂]
  have hpatches : s.agenda.patches = p.patches :: rest.map Plane.patches :=
    congrArg (List.map Plane.patches) hp
  cases rest with
  | nil =>
    rw [journals_agenda_of_nil (congrArg Agenda.patches hs₁) hjournals, hs₁]
    obtain rfl : level = 1 := hlevel.trans (congrArg List.length hp)
    exact .told .done hpatches
  | cons parent rest =>
    obtain ⟨q', hq', hmerged⟩ := journals_agenda_of_cons (nodup_toList p.patches)
      (congrArg Agenda.patches hs₁) hjournals
    rw [hq', hs₁]
    exact .folded level .done hpatches (hlevel.trans (length_patches_agenda s).symm) fun call =>
      lookup_toList p.patches call ▸ hmerged call

theorem discard_agenda {level : Nat} {r : Except Refusal Unit} (h : discard level s = .ok (r, s')) :
    match r with
    | .error _ => s = s' ∧ (s.planes = [] ∨ level ≠ s.level)
    | .ok _ => s.agenda.Discarded 1 s'.agenda := by
  rcases discard_eq_ok h with ⟨rfl, ⟨e, rfl⟩, hno⟩ | ⟨p, rest, hp, -, rfl, h₂⟩
  · exact ⟨rfl, hno⟩
  · exact .head (congrArg (List.map Plane.patches) hp) (undo_agenda h₂) (.refl _)

theorem discardMany_agenda {n : Nat} {r : Except Refusal Unit} (hn : n ≤ s.level)
    (h : discardMany n s = .ok (r, s')) : r = .ok () ∧ s.agenda.Discarded n s'.agenda := by
  induction n generalizing s with
  | zero =>
    obtain ⟨rfl, rfl⟩ := ClientM.pure_eq_ok.mp h
    exact ⟨rfl, .refl _⟩
  | succ n ih =>
    obtain ⟨s₁, h₁, h⟩ := discardMany_succ_eq_ok hn h
    cases discard_agenda h₁ with
    | @head _ _ _ _ p rest hp hunwound htail =>
      cases htail
      have hlevel : s.level = rest.length + 1 := by
        rw [← length_patches_agenda, hp]
        rfl
      have hlevel₁ : s₁.level = rest.length := by
        rw [← length_patches_agenda, hunwound.patches]
      obtain ⟨rfl, hrest⟩ := ih (by omega) h
      exact ⟨rfl, .head hp hunwound hrest⟩

end Store

/-! ## Calls that a request changes -/

namespace Store

variable {s s' t : Store} {call : CallRef}

/-- A change of a callout table, seen in the agenda. -/
theorem changed_agenda {patch : CallPatch} {now : Option DeferredCall}
    (ht : t.agenda.patches = s.agenda.patches) (hsched : t.agenda.scheduler = s.agenda.scheduler)
    (hcall : ∀ other, t.call? other = if other = call then now else s.call? other)
    (hnumbered : ∀ ds, t.numbered ds =
      s.numbered ds + if patch = .added ∧ ds = call.dataspace then 1 else 0)
    (hknown : t.Issued call)
    (hfit : patch.Fits (s.call? call) now) (hfresh : patch = .added → ¬ s.Issued call) {u : Unit}
    (h : journal call patch t = .ok (u, s')) :
    s.agenda.Changed call patch t.agenda s'.agenda where
  patches := ht
  scheduler := hsched
  other other ho := by
    rw [Agenda.call?_agenda, Agenda.call?_agenda, hcall, if_neg ho]
  numbered ds := by
    rw [Agenda.numbered_agenda, Agenda.numbered_agenda, hnumbered]
  known := (Agenda.issued_agenda _ _).mpr hknown
  fits := by
    rw [Agenda.call?_agenda, Agenda.call?_agenda, hcall, if_pos rfl]
    exact hfit
  fresh he := fun hc => hfresh he ((Agenda.issued_agenda _ _).mp hc)
  records := journal_agenda h

theorem call?_of_agenda {s t : Store} (h : t.agenda = s.agenda) (call : CallRef) :
    t.call? call = s.call? call := by
  rw [← Agenda.call?_agenda, h, Agenda.call?_agenda]

theorem Issued.of_agenda {s t : Store} {call : CallRef} (hc : s.Issued call)
    (h : t.agenda = s.agenda) : t.Issued call := by
  rw [← Agenda.issued_agenda, h, Agenda.issued_agenda]
  exact hc

theorem numbered_of_agenda {s t : Store} (h : t.agenda = s.agenda) (ds : DataspaceId) :
    t.numbered ds = s.numbered ds := by
  rw [← Agenda.numbered_agenda, h, Agenda.numbered_agenda]

variable {touched : List (List CallRef)}

/-- The handle of a call that is pending was given out. -/
theorem issued_of_pending (ha : s.agenda.Sound touched) (hcall : s.call? call ≠ none) :
    s.Issued call := by
  rw [← Agenda.call?_agenda] at hcall
  exact (Agenda.issued_agenda _ _).mp (ha.pending hcall)

/--
A call that is added is the next of its dataspace, and the innermost plane or the scheduler hears of
it.
-/
theorem addCall_answers {ds : DataspaceId} {due : Nat} {v : Value} {r : Except Refusal CallHandle}
    (ha : s.agenda.Sound touched) (h : addCall ds due v s = .ok (r, s')) :
    s.agenda.Answers (.addCall ds due v) (r.map fun c => .number c.number) s'.agenda := by
  rcases addCall_eq_ok h with ⟨-, rfl, rfl⟩ | ⟨d, w, s₁, hd, hw, rfl, h₁, h₄⟩
  · exact .same (fun _ => rfl) fun _ => rfl
  have heq : s₁.agenda = s.agenda := Quiet.eq h₁
  obtain ⟨d₁, hd₁, htable⟩ : ∃ d₁, s₁.dataspace? ds = some d₁ ∧ d₁.table = d.table := by
    have htables : (s₁.dataspace? ds).map Dataspace.table = (s.dataspace? ds).map Dataspace.table :=
      congrFun (congrArg Agenda.tables heq) ds
    rw [hd] at htables
    exact Option.map_eq_some_iff.mp htables
  have hnext : d₁.nextHandle = d.nextHandle := congrArg Prod.snd htable
  have hbumped : (s₁.withDataspace ds fun d => { d with nextHandle := d.nextHandle + 1 }).dataspace?
      ds = some { d₁ with nextHandle := d₁.nextHandle + 1 } := by
    rw [dataspace?_withDataspace_self, hd₁]
    rfl
  have hfresh : ¬ s.Issued ⟨ds, ⟨d.nextHandle⟩⟩ := by
    rintro ⟨d', hd', hlt⟩
    obtain rfl := Option.some.inj (hd.symm.trans hd')
    exact Nat.lt_irrefl _ hlt
  have hchanged := @changed_agenda s _ ((s₁.withDataspace ds fun d =>
      { d with nextHandle := d.nextHandle + 1 }).withCallouts ds
        (·.insert ⟨d.nextHandle⟩ { due, payload := w })) ⟨ds, ⟨d.nextHandle⟩⟩ .added
    (some { due, payload := w }) (congrArg Agenda.patches heq :) (congrArg Agenda.scheduler heq :)
    (fun other => ?_) (fun other => ?_) ?_ ?_ (fun _ => hfresh) _ h₄
  · refine .changed hchanged (fun other => ?_) fun _ => rfl
    rw [if_congr (and_iff_right rfl) rfl rfl]
    rfl
  · rw [@call?_withCallouts_insert _ ⟨ds, ⟨d.nextHandle⟩⟩ _ _ _ hbumped, call?_bump,
      call?_of_agenda heq]
  · rw [numbered_withCallouts, numbered_bump hd₁, numbered_of_agenda heq]
    simp
  · exact Issued.withCallouts ⟨_, hbumped, by rw [hnext]; exact Nat.lt_succ_self _⟩ _ _
  · have hnone : s.call? ⟨ds, ⟨d.nextHandle⟩⟩ = none := by
      by_contra hne
      exact hfresh (issued_of_pending ha hne)
    rw [hnone]
    exact .added _

/-- A call that is removed was pending, or the request is refused and nothing has changed. -/
theorem removeCall_answers {r : Except Refusal Nat} (ha : s.agenda.Sound touched)
    (h : removeCall call s = .ok (r, s')) :
    s.agenda.Answers (.removeCall call) (r.map .number) s'.agenda := by
  rcases removeCall_eq_ok h with ⟨e, -, rfl, rfl⟩ | ⟨old, s₂, hask, rfl, h₂, h₃⟩
  · exact .same (fun _ => rfl) fun _ => rfl
  have heq : s₂.agenda = (s.withCallouts call.dataspace (·.erase call.handle)).agenda := Quiet.eq h₂
  have hcall := askCall_eq_ok.mp hask
  have hchanged := @changed_agenda s _ _ call (.removed old) none (congrArg Agenda.patches heq :)
    (congrArg Agenda.scheduler heq :) (fun other => ?_) (fun ds => ?_) ?_ ?_ nofun _ h₃
  · exact .changed hchanged (fun _ => rfl) fun _ => rfl
  · rw [call?_of_agenda heq, call?_withCallouts_erase]
  · rw [numbered_of_agenda heq, numbered_withCallouts]
    rfl
  · have hissued := issued_of_pending ha fun hnone => by cases hcall.symm.trans hnone
    exact (hissued.withCallouts _ _).of_agenda heq
  · rw [hcall]
    exact .removed old

/-- A call that is replaced was pending, or the request is refused and nothing has changed. -/
theorem replaceCall_answers {due : Nat} {v : Value} {r : Except Refusal Unit}
    (ha : s.agenda.Sound touched) (h : replaceCall call due v s = .ok (r, s')) :
    s.agenda.Answers (.replaceCall call due v) (r.map fun _ => .done) s'.agenda := by
  rcases replaceCall_eq_ok h with
    ⟨e, -, rfl, rfl⟩ | ⟨old, w, s₁, s₃, u, hask, hw, rfl, h₁, h₃, h₄⟩
  · exact .same (fun _ => rfl) fun _ => rfl
  have heq₁ : s₁.agenda = s.agenda := Quiet.eq h₁
  have heq : s₃.agenda = (s₁.withCallouts call.dataspace
      (·.insert call.handle { due, payload := w })).agenda := Quiet.eq h₃
  have hcall := askCall_eq_ok.mp hask
  obtain ⟨d, hd, -⟩ := Option.bind_eq_some_iff.mp ((call?_of_agenda heq₁ call).trans hcall)
  have hchanged := @changed_agenda s s' _ call (.replaced old) (some { due, payload := w })
    ((congrArg Agenda.patches heq :).trans (congrArg Agenda.patches heq₁ :))
    ((congrArg Agenda.scheduler heq :).trans (congrArg Agenda.scheduler heq₁ :)) (fun other => ?_)
    (fun ds => ?_) ?_ ?_ nofun _ h₄
  · exact .changed hchanged (fun _ => rfl) fun _ => rfl
  · rw [call?_of_agenda heq, call?_withCallouts_insert hd, call?_of_agenda heq₁]
  · rw [numbered_of_agenda heq, numbered_withCallouts, numbered_of_agenda heq₁]
    rfl
  · have hissued := issued_of_pending ha fun hnone => by cases hcall.symm.trans hnone
    exact ((hissued.of_agenda heq₁).withCallouts _ _).of_agenda heq
  · rw [hcall]
    exact .replaced old _

theorem createDataspace_answers {n : Nat} {ds : DataspaceId}
    (h : createDataspace n s = .ok (ds, s'))
    (a : Answer) : s.agenda.Answers (.createDataspace n) (.ok a) s'.agenda := by
  cases StoreM.modifyGet_eq_ok.mp h
  refine .kept rfl rfl (fun call => ?_) (fun ds => ?_) (fun _ => rfl) fun _ => rfl
  · rw [Agenda.call?_agenda, Agenda.call?_agenda, call?_founded]
  · rw [Agenda.numbered_agenda, Agenda.numbered_agenda, numbered_founded]

/-- What is discarded down to a level is undone plane by plane. -/
theorem discardTo_answers {level : Nat} {r : Except Refusal Unit}
    (h : discardTo level s = .ok (r, s')) :
    s.agenda.Answers (.discardTo level) (r.map fun _ => .done) s'.agenda := by
  rcases discardTo_eq_ok h with ⟨rfl, ⟨e, rfl⟩, -⟩ | ⟨hpos, hle, h⟩
  · exact .same (fun _ => rfl) fun _ => rfl
  · obtain ⟨rfl, hdiscarded⟩ := discardMany_agenda (by omega) h
    refine .discarded hdiscarded nofun (fun _ => rfl) fun touched hlen => ?_
    rw [length_patches_agenda] at hlen
    rw [← hlen]
    rfl

/-- What any request makes of the agenda. -/
theorem perform_answers {op : Operation} {outcome : Outcome} (ha : s.agenda.Sound touched)
    (h : s.perform op = .ok (outcome, s')) : s.agenda.Answers op outcome s'.agenda := by
  have hquiet : ∀ {op : Operation}, Quiet (op.perform : StoreM Outcome) →
      s.perform op = .ok (outcome, s') → (∀ ds, op.newCalls ds outcome = 0) →
        (∀ touched, op.touch touched outcome = touched) →
          s.agenda.Answers op outcome s'.agenda := fun hq h hnew ht => by
    rw [hq.eq h]
    exact .same hnew ht
  cases op with
  | createDataspace n =>
    obtain ⟨ds, s₁, h₁, h⟩ := ClientM.lift_bind_eq_ok.mp h
    obtain ⟨rfl, rfl⟩ := ClientM.pure_eq_ok.mp h
    exact createDataspace_answers h₁ _
  | addCall ds due v =>
    obtain ⟨r, h₁, rfl⟩ := ClientM.bind_pure_eq_ok.mp h
    exact addCall_answers ha h₁
  | removeCall call =>
    obtain ⟨r, h₁, rfl⟩ := ClientM.bind_pure_eq_ok.mp h
    exact removeCall_answers ha h₁
  | replaceCall call due v =>
    obtain ⟨r, h₁, rfl⟩ := ClientM.bind_pure_eq_ok.mp h
    exact replaceCall_answers ha h₁
  | enter =>
    obtain ⟨r, h₁, rfl⟩ := ClientM.bind_pure_eq_ok.mp h
    have heq := enter_agenda h₁
    cases r with
    | error e =>
      rw [show s'.agenda = s.agenda from heq]
      exact .same (fun _ => rfl) fun _ => rfl
    | ok n =>
      rw [show s'.agenda = _ from heq]
      exact .entered _
  | commit n =>
    obtain ⟨r, h₁, rfl⟩ := ClientM.bind_pure_eq_ok.mp h
    exact commit_answers h₁
  | discard n =>
    obtain ⟨r, h₁, rfl⟩ := ClientM.bind_pure_eq_ok.mp h
    have hagenda := discard_agenda h₁
    cases r with
    | error e =>
      rw [hagenda.1]
      exact .same (fun _ => rfl) fun _ => rfl
    | ok u =>
      exact .discarded hagenda nofun (fun _ => rfl) fun touched _ => (List.drop_one).symm
  | discardTo n =>
    obtain ⟨r, h₁, rfl⟩ := ClientM.bind_pure_eq_ok.mp h
    exact discardTo_answers h₁
  | _ =>
    refine hquiet ?_ h (fun _ => rfl) fun _ => rfl
    simp only [Operation.perform]
    infer_instance

end Store

/-! ## What the scheduler is told -/

/--
What the scheduler is told of a call on the commit of an outermost region, by what the call was
before the region and what it is after it.
-/
def SchedulerEvent.ofChange (call : CallRef) (touched : Bool) :
    Option DeferredCall → Option DeferredCall → List SchedulerEvent
  | none, none => []
  | none, some new => [.schedule call new.due]
  | some _, none => [.cancel call]
  | some _, some new => if touched then [.cancel call, .schedule call new.due] else []

namespace Agenda

open CallPatch SchedulerEvent

variable {a b : Agenda} {op : Operation} {outcome : Outcome} {u : List CallRef}
  {p : Std.TreeMap CallRef CallPatch}

theorem Discarded.scheduler {n : Nat} (h : Discarded n a b) : b.scheduler = a.scheduler := by
  induction h with
  | refl => rfl
  | head hp h h' ih => exact ih.trans h.scheduler

/-- Inside of a region only the commit of its outermost plane tells the scheduler anything. -/
theorem Answers.scheduler (h : Answers a op outcome b) (ha : a.patches ≠ [])
    (hop : op = .commit 1 → ∃ e, outcome = .error e) : b.scheduler = a.scheduler := by
  cases h with
  | kept _ hs => exact hs
  | changed h =>
    have hpatches := h.patches
    have hsched := h.scheduler
    cases h.records with
    | told hnil => exact absurd (hpatches.symm.trans hnil) ha
    | merged => exact hsched
  | entered | folded => rfl
  | told =>
    obtain ⟨e, he⟩ := hop rfl
    cases he
  | discarded h => exact h.scheduler

/-- A commit folds the innermost plane into the one below, or tells the scheduler of its patches. -/
theorem Answers.commit_cases {n : Nat} {r : Answer} (h : Answers a (.commit n) (.ok r) b) :
    (∃ q' rest, n = rest.length + 2 ∧ b = { a with patches := q' :: rest }) ∨
      ∃ p, n = 1 ∧ a.patches = [p] ∧
        b = { a with patches := [], scheduler := a.tellAll p.toList a.scheduler } := by
  cases h with
  -- Unlike other requests, a commit forgets which calls were replaced.
  | kept _ _ _ _ _ ht => cases ht [[]]
  | changed _ _ ht =>
    have hnil := ht [[]]
    split at hnil <;> cases hnil
  | folded n r hp hn => exact .inl ⟨_, _, by rw [hn, hp, List.length_cons, List.length_cons], rfl⟩
  | told r hp => exact .inr ⟨_, rfl, hp, rfl⟩
  | discarded _ hop => exact absurd rfl (hop n)

/-- Only entering opens a plane where there was none. -/
theorem Answers.opens (h : Answers a op outcome b) (ha : a.patches = []) (hb : b.patches ≠ []) :
    op = .enter ∧ ∃ r, outcome = .ok r := by
  cases h with
  | kept hp => exact absurd (hp.trans ha) hb
  | changed h =>
    have hpatches := h.patches.trans ha
    cases h.records with
    | told hnil => exact absurd hnil hb
    | merged hp => cases hp.symm.trans hpatches
  | entered r => exact ⟨rfl, r, rfl⟩
  | folded n r hp => cases hp.symm.trans ha
  | told => exact absurd rfl hb
  | discarded h =>
    cases h with
    | refl => exact absurd ha hb
    | head hp => cases hp.symm.trans ha

/-- Whether a call was replaced matters only if it was there before and is there after. -/
theorem events_tell {call : CallRef} {patch : CallPatch} {before now : Option DeferredCall}
    {touched : Bool} {q : Scheduler} (hfit : patch.Fits before now)
    (ht : patch.replaces = true → touched = true) :
    (patch.tell call ((now.map DeferredCall.due).getD 0) q).events =
      q.events ++ (ofChange call touched before now).toArray := by
  cases hfit with
  | added | removed => rfl
  | replaced old new =>
    rw [ht rfl]
    exact Array.toList_inj.mp (by simp [CallPatch.tell, Scheduler.reschedule,
      Scheduler.schedule, Scheduler.cancel, ofChange])

/--
The scheduler is told of the changes one by one, and each is what it makes of the call in the end.
-/
theorem events_tellAll {before : CallRef → Option DeferredCall}
    {patches : List (CallRef × CallPatch)}
    (hfit : ∀ x ∈ patches, x.2.Fits (before x.1) (a.call? x.1))
    (ht : ∀ x ∈ patches, x.2.replaces = true → x.1 ∈ u) (q : Scheduler) :
    (a.tellAll patches q).events = q.events ++
      (patches.flatMap fun x => ofChange x.1 (decide (x.1 ∈ u)) (before x.1)
        (a.call? x.1)).toArray := by
  induction patches generalizing q with
  | nil => simp [tellAll]
  | cons x patches ih =>
    obtain ⟨hhead, hrest⟩ := List.forall_mem_cons.mp hfit
    obtain ⟨thead, trest⟩ := List.forall_mem_cons.mp ht
    have htell := @events_tell x.1 _ _ _ _ q hhead fun h => decide_eq_true (thead h)
    refine (ih hrest trest _).trans ?_
    rw [show (x.2.tell x.1 (a.due x.1) q).events = _ from htell]
    simp

/-- Lists in order with the same calls are the same. -/
theorem eq_of_ordered {xs ys : List CallRef} (hx : xs.Pairwise (compare · · = .lt))
    (hy : ys.Pairwise (compare · · = .lt)) (h : ∀ call, call ∈ xs ↔ call ∈ ys) : xs = ys := by
  have hnodup : ∀ {zs : List CallRef}, zs.Pairwise (compare · · = .lt) → zs.Nodup := fun hz =>
    hz.imp fun {x y} hlt he => by
      have hself : compare y y = .eq := Std.ReflCmp.compare_self
      rw [he, hself] at hlt
      cases hlt
  refine List.Perm.eq_of_pairwise (fun x y _ _ hxy hyx => ?_) hx hy
    ((List.perm_ext_iff_of_nodup (hnodup hx) (hnodup hy)).mpr h)
  have hswap : compare x y = (compare y x).swap := Std.OrientedCmp.eq_swap
  rw [hswap, hyx] at hxy
  cases hxy

/-- What is told of a change does not depend on when the call was due before. -/
theorem ofChange_congr {call : CallRef} {touched : Bool} {before before' now : Option DeferredCall}
    (h : before.isSome = before'.isSome) :
    ofChange call touched before now = ofChange call touched before' now := by
  cases before with
  | none => cases before' with
    | none => rfl
    | some => cases h
  | some => cases before' with
    | none => cases h
    | some => cases now <;> rfl

/--
The commit of the outermost plane tells the scheduler, call by call, of what has changed since the
region was entered.
-/
theorem Sound.events_told (ha : a.Sound [u]) (hp : a.patches = [p])
    {before : CallRef → Option DeferredCall}
    (hbefore : ∀ call, a.scheduler.queue[call]? = (before call).map DeferredCall.due)
    {calls : List CallRef} (hordered : calls.Pairwise (compare · · = .lt))
    (hcalls : ∀ call, call ∈ calls ↔ before call ≠ none ∨ a.call? call ≠ none) :
    (a.tellAll p.toList a.scheduler).events = a.scheduler.events ++
      (calls.flatMap fun call =>
        ofChange call (decide (call ∈ u)) (before call) (a.call? call)).toArray := by
  choose base hline hqueue using ha.line
  have hline : ∀ call, Line (base call) [(p[call]?, decide (call ∈ u))] (a.call? call) := by
    intro call
    have h := hline call
    rwa [lines_cons hp] at h
  have hsome : ∀ call, (before call).isSome = (base call).isSome := fun call => by
    rw [← Option.isSome_map (f := DeferredCall.due), ← hbefore, hqueue, Option.isSome_map]
  have hpatched : ∀ x ∈ p.toList, Line (base x.1) [(some x.2, decide (x.1 ∈ u))] (a.call? x.1) :=
    fun x hx => Std.TreeMap.mem_toList_iff_getElem?_eq_some.mp hx ▸ hline x.1
  have hquiet : ∀ call, call ∉ p →
      ofChange call (decide (call ∈ u)) (before call) (a.call? call) = [] := fun call hnot => by
    have hnone := hline call
    rw [Std.TreeMap.getElem?_eq_none hnot] at hnone
    rw [ofChange_congr (hsome call), hnone.alone_none.1]
    cases hb : base call with
    | none => rfl
    | some c => exact if_neg fun hmem => by cases hb.symm.trans (hnone.alone_none.2 hmem)
  have hkeys : p.toList.map Prod.fst = calls.filter (p.contains ·) := by
    rw [Std.TreeMap.map_fst_toList_eq_keys]
    refine eq_of_ordered Std.TreeMap.ordered_keys (hordered.filter _) fun call => ?_
    rw [Std.TreeMap.mem_keys, List.mem_filter, Std.TreeMap.contains_iff_mem, iff_and_self, hcalls]
    intro hmem
    have hpatch := hline call
    rw [Std.TreeMap.getElem?_eq_some_getElem hmem] at hpatch
    rw [← Option.isSome_iff_ne_none, ← Option.isSome_iff_ne_none, hsome]
    exact hpatch.alone.1.present
  have hflat : (calls.flatMap fun call =>
      ofChange call (decide (call ∈ u)) (before call) (a.call? call)) =
        (calls.filter (p.contains ·)).flatMap fun call =>
          ofChange call (decide (call ∈ u)) (before call) (a.call? call) := by
    clear hordered hcalls hkeys
    induction calls with
    | nil => rfl
    | cons call calls ih =>
      rw [List.flatMap_cons, ih, List.filter_cons]
      split
      · rw [List.flatMap_cons]
      · next hnot =>
        rw [hquiet call (by rwa [Std.TreeMap.contains_iff_mem] at hnot), List.nil_append]
  rw [events_tellAll (u := u) (fun x hx => (hpatched x hx).alone.1)
    (fun x hx h => of_decide_eq_true ((hpatched x hx).alone.2 h)), hflat, ← hkeys, List.flatMap_map]
  simp only [ofChange_congr (hsome _)]

end Agenda

/-! ## Runs -/

/-- No call is pending in a new store, and none is queued. -/
theorem Agenda.Sound.start (limits : Limits) : ({ limits } : Store).agenda.Sound [] where
  depth := rfl
  line call := ⟨none, .root, rfl⟩
  pending h := absurd rfl h
  patched := fun ⟨x, hx, _⟩ => by cases hx

/-- Outside of regions the queue is what the callout tables say. -/
theorem Agenda.Sound.queue {s : Store} {touched : List (List CallRef)} (h : s.agenda.Sound touched)
    (hp : s.planes = []) (call : CallRef) :
    s.scheduler.queue[call]? = (s.call? call).map DeferredCall.due := by
  obtain ⟨base, hline, hqueue⟩ := h.line call
  rw [Agenda.lines_of_nil (congrArg (List.map Plane.patches) hp)] at hline
  cases hline
  rwa [Agenda.call?_agenda] at hqueue

/-- A dataspace has numbered as many calls as requests have added to it. -/
theorem Store.numbered_performAll {s s' : Store} {touched : List (List CallRef)}
    {ops : List Operation} {outcomes : List Outcome} (ha : s.agenda.Sound touched)
    (h : s.performAll ops = .ok (outcomes, s')) (ds : DataspaceId) :
    s'.numbered ds = s.numbered ds + (ops.zipWith (Operation.newCalls ds) outcomes).sum := by
  induction ops generalizing s outcomes touched with
  | nil =>
    cases h
    rfl
  | cons op ops ih =>
    obtain ⟨⟨outcome, t⟩, hop, h⟩ := Fallible.bind_eq_ok.mp h
    obtain ⟨⟨outcomes, u⟩, hops, h⟩ := Fallible.bind_eq_ok.mp h
    cases h
    have hanswers := perform_answers ha hop
    have hhead := hanswers.numbered ds
    rw [Agenda.numbered_agenda, Agenda.numbered_agenda] at hhead
    rw [ih (ha.answers hanswers) hops, hhead, List.zipWith_cons_cons, List.sum_cons, Nat.add_assoc]

end PlaneStore
