import PlaneStore.Proofs.Inversion.Regions
import PlaneStore.Proofs.Walk.Writing

/-!
# Walks: atomic regions

Opening a region, folding it down and undoing it as chains of elementary steps. While a plane is
folded down or undone the account lists what is left of it, and the lists get shorter with every
step.
-/

namespace PlaneStore

open Store

section

variable {E : Effect → Prop} {s s' : Store} {F : Refs} {C : Charges} {cl : Closing}

/-! ## Entering and leaving -/

/-- To enter a region is one step. -/
theorem walk_enter {r : Except Refusal Nat} (enter : (∃ n, r = .ok n) → E .enter)
    (h : Store.enter s = .ok (r, s')) : Path E ⟨s, F, C, none⟩ ⟨s', F, C, none⟩ := by
  rcases enter_eq_ok h with ⟨-, -, rfl⟩ | ⟨hroom, rfl, rfl⟩
  · exact .refl _
  · exact .single (enter ⟨_, rfl⟩) (.nesting (.enter hroom))

/-! ## Homes -/

theorem walk_settle {id : ContainerId} {census : List ContainerId} {u : Unit} (nest : E .nest)
    (hl : cl.census = id :: census) (hledger : cl.ledger = [])
    (h : settle cl.level id s = .ok (u, s')) :
    Path E ⟨s, F, C, some cl⟩ ⟨s', F, C, some { cl with census }⟩ := by
  rcases settle_eq_ok h with ⟨hnone, rfl⟩ | ⟨c, hc, rfl⟩
  · exact .single nest (.nesting (.skip hl hledger hnone))
  · exact .single nest (.nesting (.settle hl hledger hc))

/-- To settle each container of the census is to nest it. -/
theorem walk_settles {ids : List ContainerId} {u : PUnit} (nest : E .nest)
    (hl : cl.census = ids) (hledger : cl.ledger = [])
    (h : ids.forM (settle cl.level) s = .ok (u, s')) :
    Path E ⟨s, F, C, some cl⟩ ⟨s', F, C, some { cl with census := [] }⟩ := by
  induction ids generalizing s cl with
  | nil =>
    obtain rfl := StoreM.forM_nil_eq_ok.mp h
    rw [← hl]
    exact .refl _
  | cons id ids ih =>
    obtain ⟨_, s₁, h₁, h⟩ := StoreM.forM_cons_eq_ok.mp h
    exact (walk_settle nest hl hledger h₁).trans
      (ih (show ({ cl with census := ids } : Closing).census = ids from rfl) hledger h)

/-! ## Folding a plane down -/

theorem walk_refile {b : Backup} {ledger : List Backup} {out : List Value} (nest : E .nest)
    (hl : cl.ledger = b :: ledger) (hf : cl.folds = true)
    (h : refile (cl.level - 1) b s = .ok (out, s')) :
    Path E ⟨s, F, C, some cl⟩ ⟨s', ↑out + F, C, some { cl with ledger }⟩ := by
  rcases refile_eq_ok h with ⟨rfl, rfl, hkept⟩ | ⟨p, rest, hp, hhome, hbacked, rfl, rfl⟩
  · exact .single nest (.nesting (.forget hl hf hkept))
  · rw [Multiset.coe_nil, zero_add]
    exact .single nest (.nesting (.refile hl hf hp hhome hbacked))

/-- To hand backups down empties the ledger, and puts what the plane below had in flight. -/
theorem walk_refiles {bs : List Backup} {outs : List (List Value)} (nest : E .nest)
    (hl : cl.ledger = bs) (hf : cl.folds = true)
    (h : bs.mapM (refile (cl.level - 1)) s = .ok (outs, s')) :
    Path E ⟨s, F, C, some cl⟩ ⟨s', ↑outs.flatten + F, C, some { cl with ledger := [] }⟩ := by
  induction bs generalizing s cl outs F with
  | nil =>
    obtain ⟨rfl, rfl⟩ := StoreM.mapM_nil_eq_ok.mp h
    rw [← hl, List.flatten_nil, Multiset.coe_nil, zero_add]
    exact .refl _
  | cons b bs ih =>
    obtain ⟨out, s₁, outs, h₁, h₂, rfl⟩ := StoreM.mapM_cons_eq_ok.mp h
    have hrest :=
      ih (F := ↑out + F) (show ({ cl with ledger := bs } : Closing).ledger = bs from rfl)
      hf h₂
    rw [List.flatten_cons, ← Multiset.coe_add, add_comm (↑out : Refs), add_assoc]
    exact (walk_refile nest hl hf h₁).trans hrest

theorem walk_resave {ref : VariableRef} {v : Value} {saved : List (VariableRef × Value)}
    {out : List Value} (nest : E .nest) (hl : cl.saved = (ref, v) :: saved) (hf : cl.folds = true)
    (h : resave ref v s = .ok (out, s')) :
    Path E ⟨s, F, C, some cl⟩ ⟨s', ↑out + F, C, some { cl with saved }⟩ := by
  rcases resave_eq_ok h with ⟨rfl, rfl, hsaved⟩ | ⟨p, rest, hp, hnew, rfl, rfl⟩
  · exact .single nest (.nesting (.unsave hl hf hsaved))
  · rw [Multiset.coe_nil, zero_add]
    exact .single nest (.nesting (.resave hl hf hp hnew))

/-- To hand saved variables down puts what the plane below had in flight. -/
theorem walk_resaves {saved : List (VariableRef × Value)} {outs : List (List Value)}
    (nest : E .nest) (hl : cl.saved = saved) (hf : cl.folds = true)
    (h : (saved.mapM fun (ref, v) => resave ref v : StoreM (List (List Value))) s =
      .ok (outs, s')) :
    Path E ⟨s, F, C, some cl⟩ ⟨s', ↑outs.flatten + F, C, some { cl with saved := [] }⟩ := by
  induction saved generalizing s cl outs F with
  | nil =>
    obtain ⟨rfl, rfl⟩ := StoreM.mapM_nil_eq_ok.mp h
    rw [← hl, List.flatten_nil, Multiset.coe_nil, zero_add]
    exact .refl _
  | cons p saved ih =>
    obtain ⟨out, s₁, outs, h₁, h₂, rfl⟩ := StoreM.mapM_cons_eq_ok.mp h
    have hrest := ih (F := ↑out + F) (show ({ cl with saved } : Closing).saved = saved from rfl)
      hf h₂
    rw [List.flatten_cons, ← Multiset.coe_add, add_comm (↑out : Refs), add_assoc]
    exact (walk_resave nest hl hf h₁).trans hrest

/-- To record the patches of a plane by the plane below empties them. -/
theorem walk_journals {patches : List (CallRef × CallPatch)} {u : PUnit} (still : E .still)
    (record : ∀ call patch, E (.record call patch)) (hl : cl.patches = patches)
    (hf : cl.folds = true)
    (h : (patches.forM fun (call, patch) => journal call patch : StoreM PUnit) s =
      .ok (u, s')) :
    Path E ⟨s, F, C, some cl⟩ ⟨s', F, C, some { cl with patches := [] }⟩ := by
  induction patches generalizing s cl with
  | nil =>
    obtain rfl := StoreM.forM_nil_eq_ok.mp h
    rw [← hl]
    exact .refl _
  | cons p patches ih =>
    obtain ⟨_, s₁, h₁, h⟩ := StoreM.forM_cons_eq_ok.mp h
    have hrest := ih (show ({ cl with patches } : Closing).patches = patches from rfl) hf h
    refine Path.trans ?_ hrest
    exact walk_journal still
      (fun hrecorded => .single (record _ _) (.nesting (.record hl hf hrecorded))) h₁

/-- A plane with nothing left. -/
def Closing.emptied (cl : Closing) : Closing :=
  { cl with ledger := [], saved := [], patches := [], census := [] }

/-- A plane off the stack is folded into the one below it, and nothing is left of it. -/
theorem walk_foldDown {p : Plane} {level : Nat} {u : Unit} (still : E .still) (nest : E .nest)
    (left : E (.left level)) (record : ∀ call patch, E (.record call patch))
    (h : foldDown level p s = .ok (u, s')) :
    Path E ⟨s, F, C, some (.ofPlane true level p)⟩ ⟨s', F, C, none⟩ := by
  obtain ⟨backups, saved, s₁, s₂, s₃, s₄, h₁, h₂, h₃, h₄, h⟩ := foldDown_eq_ok h
  have hledger := walk_refiles (E := E) (F := F) (C := C) nest
    (show (Closing.ofPlane true level p).ledger = p.ledger.reverse from rfl) rfl h₁
  have hcensus := hledger.trans (walk_settles nest rfl rfl h₂)
  have hsaved := hcensus.trans (walk_resaves nest rfl rfl h₃)
  have hpatches := hsaved.trans (walk_journals still record rfl rfl h₄)
  have hdone := @Nesting.finish s₄ (↑saved.flatten + (↑backups.flatten + F)) C
    (Closing.ofPlane true level p).emptied ⟨rfl, rfl, rfl, rfl⟩
  have hfinish := hpatches.tail left (.nesting hdone)
  rw [← add_assoc, Multiset.coe_add] at hfinish
  refine hfinish.trans ?_
  have hrelease := walk_releaseAll (E := E) (F := F) (C := C) (q := none) still h
  rwa [Multiset.coe_eq_coe.mpr List.perm_append_comm] at hrelease

/-- The effects of folding a plane down. -/
inductive Effect.Folds (level : Nat) : Effect → Prop
  | still : Folds level .still
  | nest : Folds level .nest
  | leave : Folds level (.leave true level)
  | left : Folds level (.left level)
  | record (call : CallRef) (patch : CallPatch) : Folds level (.record call patch)

theorem walk_commit {level : Nat} {r : Except Refusal Unit} (ha : Account.Kept ⟨s, F, C, none⟩)
    (h : commit level s = .ok (r, s')) :
    match r with
    | .error _ => s = s' ∧ (s.planes = [] ∨ level ≠ s.level)
    | .ok _ => level = s.level ∧ s.level = s'.level + 1 ∧
        Path (Effect.Folds level) ⟨s, F, C, none⟩ ⟨s', F, C, none⟩ := by
  rcases commit_eq_ok h with ⟨rfl, ⟨e, rfl⟩, hno⟩ | ⟨p, rest, hp, rfl, rfl, h₂⟩
  · exact ⟨rfl, hno⟩
  have hpop : Step (.leave true s.level) ⟨s, F, C, none⟩ _ := .nesting (.pop true hp)
  have hfold := walk_foldDown
    (E := fun e => e.Readies ∨ e = .left s.level ∨ ∃ call patch, e = .record call patch) (F := F)
    (C := C) (.inl .still) (.inl .nest) (.inr (.inl rfl))
    (fun call patch => .inr (.inr ⟨call, patch, rfl⟩)) h₂
  have hlevel : s'.level = rest.length := hfold.level (hpop.kept ha) (by
    rintro e ((_ | _) | rfl | ⟨call, patch, rfl⟩) <;> exact ⟨nofun, nofun⟩)
  have hs : s.level = rest.length + 1 := congrArg List.length hp
  refine ⟨rfl, by omega, (Path.single .leave hpop).trans (hfold.mono ?_)⟩
  rintro e ((_ | _) | rfl | ⟨call, patch, rfl⟩)
  · exact .still
  · exact .nest
  · exact .left
  · exact .record call patch

/-! ## Undoing a plane -/

theorem walk_restoreBackup {b : Backup} {ledger : List Backup} {u : Unit} (still : E .still)
    (restore : E (.restore b.container)) (hl : cl.ledger = b :: ledger) (hf : cl.folds = false)
    (h : restoreBackup b s = .ok (u, s')) :
    Path E ⟨s, F, C, some cl⟩ ⟨s', F, C, some { cl with ledger }⟩ := by
  obtain ⟨_, s₁, h₁, h⟩ := StoreM.bind_eq_ok.mp h
  obtain ⟨hload, c₀, values, hc₀, hc⟩ := walk_faultIn (F := F) (C := C) (q := some cl) still h₁
  obtain ⟨c, s₂, h₂, h⟩ := StoreM.bind_eq_ok.mp h
  obtain ⟨hc', rfl⟩ := StoreM.container_eq_ok.mp h₂
  obtain rfl := Option.some.inj (hc.symm.trans hc')
  obtain ⟨values', s₂, h₂, h⟩ := StoreM.bind_eq_ok.mp h
  obtain ⟨hvalues, rfl⟩ := StoreM.lift_eq_ok.mp h₂
  obtain rfl := Elements.resident.inj (StoreM.values_eq_ok.mp hvalues)
  split at h
  · exact absurd h StoreM.fault_ne_ok
  obtain ⟨_, s₂, h₂, h⟩ := StoreM.bind_eq_ok.mp h
  obtain ⟨c', hc', rfl⟩ := StoreM.modifyContainer_eq_ok.mp h₂
  obtain ⟨_, s₃, h₃, h⟩ := StoreM.bind_eq_ok.mp h
  obtain ⟨_, s₄, h₄, h⟩ := StoreM.bind_eq_ok.mp h
  obtain ⟨_, s₅, h₅, h⟩ := StoreM.bind_eq_ok.mp h
  have hrestore := hload.tail restore (.nesting (.restore hl hf hc rfl h₃))
  have hdrop := hrestore.trans (walk_relinquish still h₄)
  exact (hdrop.trans (walk_report still h₅)).trans (walk_release still h)

/-- To put containers back empties the ledger. -/
theorem walk_restoreBackups {bs : List Backup} {u : PUnit} (still : E .still)
    (restore : ∀ b ∈ bs, E (.restore b.container)) (hl : cl.ledger = bs) (hf : cl.folds = false)
    (h : bs.forM restoreBackup s = .ok (u, s')) :
    Path E ⟨s, F, C, some cl⟩ ⟨s', F, C, some { cl with ledger := [] }⟩ := by
  induction bs generalizing s cl with
  | nil =>
    obtain rfl := StoreM.forM_nil_eq_ok.mp h
    rw [← hl]
    exact .refl _
  | cons b bs ih =>
    obtain ⟨_, s₁, h₁, h⟩ := StoreM.forM_cons_eq_ok.mp h
    exact (walk_restoreBackup still (restore b List.mem_cons_self) hl hf h₁).trans
      (ih (fun b hb => restore b (List.mem_cons_of_mem _ hb))
        (show ({ cl with ledger := bs } : Closing).ledger = bs from rfl) hf h)

/-- To put a variable back is to write what was saved. -/
theorem walk_restoreVariable {ref : VariableRef} {v : Value} {saved : List (VariableRef × Value)}
    {u : Unit} (still : E .still) (nest : E .nest) (hl : cl.saved = (ref, v) :: saved)
    (hf : cl.folds = false)
    (h : restoreVariable ref v s = .ok (u, s')) :
    Path E ⟨s, F, C, some cl⟩ ⟨s', F, C, some { cl with saved }⟩ := by
  obtain ⟨_, s₁, h₁, h⟩ := StoreM.bind_eq_ok.mp h
  obtain ⟨t, s₂, h₂, h⟩ := StoreM.bind_eq_ok.mp h
  obtain ⟨rfl, rfl⟩ := StoreM.get_eq_ok.mp h₂
  cases hcur : (s₁.dataspace? ref.dataspace).bind (·.vars[ref.slot]?) with
  | none =>
    simp only [hcur] at h
    exact absurd h StoreM.fault_ne_ok
  | some current =>
    simp only [hcur] at h
    obtain ⟨_, s₂, h₂, h⟩ := StoreM.bind_eq_ok.mp h
    obtain rfl := StoreM.modifyDataspace_eq_ok.mp h₂
    exact (Path.single nest (.nesting (.restoreVariable hl hf h₁ hcur))).trans
      (walk_relinquish still h)

theorem walk_restoreVariables {saved : List (VariableRef × Value)} {u : PUnit} (still : E .still)
    (nest : E .nest)
    (hl : cl.saved = saved) (hf : cl.folds = false)
    (h : (saved.forM fun (ref, v) => restoreVariable ref v : StoreM PUnit) s = .ok (u, s')) :
    Path E ⟨s, F, C, some cl⟩ ⟨s', F, C, some { cl with saved := [] }⟩ := by
  induction saved generalizing s cl with
  | nil =>
    obtain rfl := StoreM.forM_nil_eq_ok.mp h
    rw [← hl]
    exact .refl _
  | cons p saved ih =>
    obtain ⟨_, s₁, h₁, h⟩ := StoreM.forM_cons_eq_ok.mp h
    exact (walk_restoreVariable still nest hl hf h₁).trans
      (ih (show ({ cl with saved } : Closing).saved = saved from rfl) hf h)

theorem walk_unwind {call : CallRef} {patch : CallPatch} {patches : List (CallRef × CallPatch)}
    {u : Unit} (still : E .still) (nest : E .nest) (hl : cl.patches = (call, patch) :: patches)
    (hf : cl.folds = false) (h : unwind call patch s = .ok (u, s')) :
    Path E ⟨s, F, C, some cl⟩ ⟨s', F, C, some { cl with patches }⟩ := by
  rcases unwind_eq_ok h with
    ⟨rfl, c, hc, h⟩ | ⟨old, d, rfl, hd, h⟩ | ⟨old, new, s₁, rfl, hnew, himport, h⟩
  · exact (Path.single nest (.nesting (.unwindAdded hl hf hc))).trans (walk_relinquish still h)
  · exact .single nest (.nesting (.unwindRemoved hl hf hd h))
  · exact (Path.single nest (.nesting (.unwindReplaced hl hf hnew himport))).trans
      (walk_relinquish still h)

/-- To put calls back empties the patches. -/
theorem walk_unwinds {patches : List (CallRef × CallPatch)} {u : PUnit} (still : E .still)
    (nest : E .nest)
    (hl : cl.patches = patches) (hf : cl.folds = false)
    (h : (patches.forM fun (call, patch) => unwind call patch : StoreM PUnit) s = .ok (u, s')) :
    Path E ⟨s, F, C, some cl⟩ ⟨s', F, C, some { cl with patches := [] }⟩ := by
  induction patches generalizing s cl with
  | nil =>
    obtain rfl := StoreM.forM_nil_eq_ok.mp h
    rw [← hl]
    exact .refl _
  | cons p patches ih =>
    obtain ⟨_, s₁, h₁, h⟩ := StoreM.forM_cons_eq_ok.mp h
    exact (walk_unwind still nest hl hf h₁).trans
      (ih (show ({ cl with patches } : Closing).patches = patches from rfl) hf h)

/-- A plane off the stack is undone until nothing is left of it. -/
theorem walk_undo {p : Plane} {level : Nat} {u : Unit} (still : E .still) (nest : E .nest)
    (restore : ∀ id, E (.restore id)) (h : undo level p s = .ok (u, s')) :
    Path E ⟨s, F, C, some (.ofPlane false level p)⟩
      ⟨s', F, C, some (Closing.ofPlane false level p).emptied⟩ := by
  obtain ⟨s₁, s₂, s₃, h₁, h₂, h₃, h⟩ := undo_eq_ok h
  have hledger := walk_restoreBackups (E := E) (F := F) (C := C) still
    (fun b _ => restore b.container)
    (show (Closing.ofPlane false level p).ledger = p.ledger from rfl) rfl h₁
  have hsaved := hledger.trans (walk_restoreVariables still nest rfl rfl h₂)
  have hpatches := hsaved.trans (walk_unwinds still nest rfl rfl h₃)
  exact hpatches.trans (walk_settles nest rfl rfl h)

/-- The effects of throwing planes away down to a level, whose plane is the last to go. -/
inductive Effect.Undoes (level : Nat) : Effect → Prop
  | still : Undoes level .still
  | nest : Undoes level .nest
  | leave {n : Nat} (h : level ≤ n) : Undoes level (.leave false n)
  | left {n : Nat} (h : level < n) : Undoes level (.left n)
  | restore (id : ContainerId) : Undoes level (.restore id)

/-- What happens while planes are undone may happen while more of them are. -/
theorem Effect.Undoes.mono {m n : Nat} (h : m ≤ n) : ∀ e : Effect, e.Undoes n → e.Undoes m
  | _, .still => .still
  | _, .nest => .nest
  | _, .leave hn => .leave (h.trans hn)
  | _, .left hn => .left (h.trans_lt hn)
  | _, .restore id => .restore id

/-- A plane that was emptied can be closed. -/
theorem Path.finished {a : Account} {level : Nat}
    (h : Path (Effect.Undoes cl.level) a ⟨s, F, C, some cl.emptied⟩) (hlt : level < cl.level) :
    Path (Effect.Undoes level) a ⟨s, F, C, none⟩ := by
  have hdone := @Nesting.finish s F C cl.emptied ⟨rfl, rfl, rfl, rfl⟩
  exact (h.mono (Effect.Undoes.mono hlt.le)).tail (.left hlt) (.nesting hdone)

/-- How a plane is thrown away: it goes off the stack and is undone until nothing is left of it. -/
theorem walk_discard {level : Nat} {r : Except Refusal Unit} (ha : Account.Kept ⟨s, F, C, none⟩)
    (h : discard level s = .ok (r, s')) :
    match r with
    | .error _ => s = s' ∧ (s.planes = [] ∨ level ≠ s.level)
    | .ok _ => level = s'.level + 1 ∧ s.level = s'.level + 1 ∧ ∃ p,
        Path (Effect.Undoes level) ⟨s, F, C, none⟩
          ⟨s', F, C, some (Closing.ofPlane false level p).emptied⟩ := by
  rcases discard_eq_ok h with ⟨rfl, ⟨e, rfl⟩, hno⟩ | ⟨p, rest, hp, rfl, rfl, h₂⟩
  · exact ⟨rfl, hno⟩
  have hpop : Step (.leave false s.level) ⟨s, F, C, none⟩ _ := .nesting (.pop false hp)
  have hundo := walk_undo (E := fun e => e.Readies ∨ ∃ id, e = .restore id) (F := F) (C := C)
    (Or.inl .still) (Or.inl .nest) (fun id => Or.inr ⟨id, rfl⟩) h₂
  have hlevel : s'.level = rest.length := hundo.level (hpop.kept ha) (by
    rintro e ((_ | _) | ⟨id, rfl⟩) <;> exact ⟨nofun, nofun⟩)
  have hs : s.level = rest.length + 1 := congrArg List.length hp
  refine ⟨by omega, by omega, p, (Path.single (.leave le_rfl) hpop).trans (hundo.mono ?_)⟩
  rintro e ((_ | _) | ⟨id, rfl⟩)
  · exact .still
  · exact .nest
  · exact .restore id

theorem walk_discardMany {n : Nat} {r : Except Refusal Unit} (ha : Account.Kept ⟨s, F, C, none⟩)
    (hn : n ≤ s.level) (h : discardMany n s = .ok (r, s')) :
    r = .ok () ∧ s'.level + n = s.level ∧
      Path (Effect.Undoes s'.level) ⟨s, F, C, none⟩ ⟨s', F, C, none⟩ ∧
        (0 < n → ∃ p, Path (Effect.Undoes (s'.level + 1)) ⟨s, F, C, none⟩
          ⟨s', F, C, some (Closing.ofPlane false (s'.level + 1) p).emptied⟩) := by
  induction n generalizing s with
  | zero =>
    obtain ⟨rfl, rfl⟩ := ClientM.pure_eq_ok.mp h
    exact ⟨rfl, rfl, .refl _, fun hlt => absurd hlt (Nat.lt_irrefl 0)⟩
  | succ n ih =>
    obtain ⟨s₁, h₁, h⟩ := discardMany_succ_eq_ok hn h
    obtain ⟨hlevel, hdepth, p, hpath⟩ := walk_discard ha h₁
    have hfinished : ∀ level, level < s.level →
        Path (Effect.Undoes level) ⟨s, F, C, none⟩ ⟨s₁, F, C, none⟩ := fun _ =>
      @Path.finished s₁ F C (Closing.ofPlane false s.level p) _ _ hpath
    obtain ⟨hr, hdepth', hrest, hlast⟩ := ih ((hfinished 0 (by omega)).kept ha) (by omega) h
    refine ⟨hr, by omega, (hfinished _ (by omega)).trans hrest, fun _ => ?_⟩
    rcases Nat.eq_zero_or_pos n with rfl | hpos
    · obtain ⟨-, rfl⟩ := ClientM.pure_eq_ok.mp h
      exact ⟨p, hlevel ▸ hpath⟩
    · obtain ⟨p', hpath'⟩ := hlast hpos
      exact ⟨p', (hfinished _ (by omega)).trans hpath'⟩

theorem walk_discardTo {level : Nat} {r : Except Refusal Unit} (ha : Account.Kept ⟨s, F, C, none⟩)
    (h : discardTo level s = .ok (r, s')) :
    match r with
    | .error _ => s = s' ∧ (level = 0 ∨ s.level < level)
    | .ok _ => level = s'.level + 1 ∧ level ≤ s.level ∧ ∃ p,
        Path (Effect.Undoes level) ⟨s, F, C, none⟩
          ⟨s', F, C, some (Closing.ofPlane false level p).emptied⟩ := by
  rcases discardTo_eq_ok h with ⟨rfl, ⟨e, rfl⟩, hno⟩ | ⟨hpos, hle, h⟩
  · exact ⟨rfl, hno⟩
  · obtain ⟨rfl, hdepth, -, hlast⟩ := walk_discardMany ha (by omega) h
    obtain ⟨p, hpath⟩ := hlast (by omega)
    have hlevel : level = s'.level + 1 := by omega
    exact ⟨hlevel, hle, p, hlevel ▸ hpath⟩

end

end PlaneStore
