import PlaneStore.Proofs.Totality.Eviction
import PlaneStore.Proofs.Totality.Writing
import PlaneStore.Proofs.Walk.Regions

/-!
# No faults: atomic regions

Every patch of a plane follows what the plane below has for the call, so a plane can be folded down.
What a backup records fits the container, and what was saved of a variable or a call has a place to
return to, so a plane can be undone.
-/

namespace PlaneStore

open Store

namespace Succeeds

variable {α β : Type} {s : Store}

/-- Steps over a list succeed if each does in every store. -/
theorem mapM_of_forall {f : α → StoreM β} {xs : List α} (hf : ∀ x s, Succeeds (f x) s) :
    Succeeds (xs.mapM f : StoreM (List β)) s := by
  induction xs generalizing s with
  | nil => exact ⟨[], s, StoreM.mapM_nil_eq_ok.mpr ⟨rfl, rfl⟩⟩
  | cons x xs ih =>
    obtain ⟨b, s₁, h₁⟩ := hf x s
    obtain ⟨bs, s₂, h₂⟩ := ih (s := s₁)
    exact ⟨b :: bs, s₂, StoreM.mapM_cons_eq_ok.mpr ⟨b, s₁, bs, h₁, h₂, rfl⟩⟩

end Succeeds

section

variable {s s' : Store} {F : Refs} {C : Charges} {cl : Closing}

/-! ## Entering and leaving -/

theorem succeeds_enter : Succeeds Store.enter s := by
  refine Succeeds.requestGetBind ?_
  split
  · exact .refuse _
  · exact Succeeds.requestBind (.lift (.update _)) fun u t _ => .answer _

theorem succeeds_pop (level : Nat) : Succeeds (pop level) s := by
  refine Succeeds.requestGetBind ?_
  cases s.planes with
  | nil => exact .refuse _
  | cons p rest =>
    dsimp only
    split
    · exact .refuse _
    · exact Succeeds.requestBind (.lift (.update _)) fun u t _ => .answer _

/-! ## Homes -/

/-- A container of the census can be settled, be it still there or not. -/
theorem succeeds_settle (level : Nat) (id : ContainerId) : Succeeds (settle level id) s := by
  refine Succeeds.get_bind ?_
  split
  · next hc =>
    obtain ⟨c, hc⟩ := Option.isSome_iff_exists.mp (show (s.container? id).isSome = true from hc)
    exact Succeeds.bind (.modifyContainer hc) fun u t _ => .modifyPlane _
  · exact .pure _

theorem succeeds_settles (level : Nat) (ids : List ContainerId) :
    Succeeds (ids.forM (settle level) : StoreM PUnit) s :=
  Succeeds.forM (P := fun _ _ => True) trivial fun id _ _ _ =>
    ⟨succeeds_settle level id, fun _ _ _ => trivial⟩

/-! ## Folding a plane down -/

/-- A backup can be handed down to the plane below. -/
theorem succeeds_refile (level : Nat) (b : Backup) (s : Store) : Succeeds (refile level b) s := by
  refine Succeeds.get_bind ?_
  cases s.planes with
  | nil => exact .pure _
  | cons p rest =>
    dsimp only
    split
    · exact Succeeds.bind (.modifyPlane _) fun u t _ => .pure _
    · exact .pure _

/-- What was saved of a variable can be handed down to the plane below. -/
theorem succeeds_resave (x : VariableRef × Value) (s : Store) :
    Succeeds (resave x.1 x.2) s := by
  refine Succeeds.get_bind ?_
  cases s.planes with
  | nil => exact .pure _
  | cons p rest =>
    dsimp only
    split
    · exact .pure _
    · exact Succeeds.bind (.modifyPlane _) fun u t _ => .pure _

/-- A patch that a closing plane has left is the only one, and comes before those further out. -/
theorem Account.Chained.head {call : CallRef} {patch : CallPatch}
    {patches : List (CallRef × CallPatch)} (ha : Account.Chained ⟨s, F, C, some cl⟩)
    (hl : cl.patches = (call, patch) :: patches) :
    CallPatch.Chain (patch :: patchesOn s.planes call) (s.call? call) := by
  have hchain := ha.chain call
  have honce : (cl.patches.map Prod.fst).Nodup := ha.once
  have hof : Account.patchesOf ⟨s, F, C, some cl⟩ call = patch :: patchesOn s.planes call := by
    show patchesIn cl.patches call ++ patchesOn s.planes call = _
    rw [patchesIn_of_mem honce (hl ▸ List.mem_cons_self)]
    rfl
  rwa [hof] at hchain

/-- Every patch of a plane can be recorded by the plane below. -/
theorem succeeds_journals {patches : List (CallRef × CallPatch)}
    (ha : Account.Kept ⟨s, F, C, some cl⟩) (hl : cl.patches = patches) (hf : cl.folds = true) :
    Succeeds (patches.forM fun (call, patch) => journal call patch : StoreM PUnit) s := by
  induction patches generalizing s cl with
  | nil => exact .pure _
  | cons x patches ih =>
    obtain ⟨call, patch⟩ := x
    have hstep : ∀ {out : List Value} {t : Store}, Recorded call patch s out t →
        Step (.record call patch) ⟨s, F, C, some cl⟩ ⟨t, ↑out + F, C, some { cl with patches }⟩ :=
      fun hr => .nesting (.record hl hf hr)
    refine Succeeds.bind (succeeds_journal (ha.chained.head hl) fun out t hr => ?_) fun u t h => ?_
    · exact succeeds_releaseAll ((hstep hr).kept ha)
    · have hpath :=
        walk_journal (E := fun _ => True) trivial (fun hr => .single trivial (hstep hr)) h
      exact ih (hpath.kept ha) rfl hf

/-- A plane can be folded into the plane below. -/
theorem succeeds_foldDown {p : Plane} {level : Nat}
    (ha : Account.Kept ⟨s, F, C, some (.ofPlane true level p)⟩) :
    Succeeds (foldDown level p) s := by
  refine Succeeds.bind (.mapM_of_forall (succeeds_refile _)) fun backups s₁ h₁ => ?_
  have hledger := walk_refiles (E := fun _ => True) (F := F) (C := C) trivial
    (show (Closing.ofPlane true level p).ledger = p.ledger.reverse from rfl) rfl h₁
  refine Succeeds.bind (succeeds_settles _ _) fun _ s₂ h₂ => ?_
  have hcensus := hledger.trans (walk_settles trivial rfl rfl h₂)
  refine Succeeds.bind (.mapM_of_forall succeeds_resave) fun saved s₃ h₃ => ?_
  have hsaved := hcensus.trans (walk_resaves trivial rfl rfl h₃)
  refine Succeeds.bind (succeeds_journals (hsaved.kept ha) rfl rfl) fun _ s₄ h₄ => ?_
  have hpatches := hsaved.trans (walk_journals trivial (fun _ _ => trivial) rfl rfl h₄)
  have hdone := @Nesting.finish s₄ (↑saved.flatten + (↑backups.flatten + F)) C
    (Closing.ofPlane true level p).emptied ⟨rfl, rfl, rfl, rfl⟩
  have hfinish := hpatches.tail trivial (.nesting hdone)
  have hkept := hfinish.kept ha
  rw [← add_assoc, Multiset.coe_add, Multiset.coe_eq_coe.mpr List.perm_append_comm] at hkept
  exact succeeds_releaseAll hkept

/-- A commit is carried out or refused. -/
theorem succeeds_commit (level : Nat) (ha : Account.Kept ⟨s, F, C, none⟩) :
    Succeeds (commit level) s := by
  refine Succeeds.requestBind (succeeds_pop level) fun p t h => ?_
  obtain ⟨rest, hp, rfl, rfl⟩ := pop_eq_ok h
  have hpop : Step (.leave true s.level) ⟨s, F, C, none⟩ _ := .nesting (.pop true hp)
  exact .lift (succeeds_foldDown (hpop.kept ha))

/-! ## Undoing a plane -/

/-- What a closing plane has left refers to slots in use. -/
theorem Account.Kept.there_of_closing {v : Value} (ha : Account.Kept ⟨s, F, C, some cl⟩)
    (hv : v ∈ cl.held) : s.There v :=
  ha.there fun _ => Multiset.mem_add.mpr (Or.inr hv)

/-- What a backup holds is held by the plane that is closed. -/
theorem Closing.mem_held_of_backup {b : Backup} {v : Value} (hb : b ∈ cl.ledger) (hv : v ∈ b.held) :
    v ∈ cl.held :=
  Multiset.mem_add.mpr (Or.inl (Multiset.mem_add.mpr (Or.inl
    (Refs.mem_sum.mpr ⟨_, List.mem_map_of_mem hb, hv⟩))))

/-- A container in the state that a backup recorded has the size that it recorded. -/
theorem Backup.Sized.restored {b : Backup} {c : Container} (hb : b.Sized)
    (hk : c.kind.shape = b.kind.shape) : (b.restored c).size = b.size := by
  have hsize : (b.restored c).size = c.kind.entries b.elements.size :=
    Container.size_of_resident rfl fun _ => rfl
  rw [hsize, hb]
  cases hc : c.kind <;> cases hb : b.kind <;> rw [hc, hb] at hk <;> first | rfl | cases hk

/-- A container can be put back as the backup has it. -/
theorem succeeds_restoreBackup {b : Backup} {ledger : List Backup}
    (ha : Account.Kept ⟨s, F, C, some cl⟩) (hl : cl.ledger = b :: ledger) (hf : cl.folds = false) :
    Succeeds (restoreBackup b) s := by
  have hheld : ∀ v ∈ backupReferences b, v ∈ cl.held := fun v hv =>
    Closing.mem_held_of_backup (hl ▸ List.mem_cons_self) (Multiset.mem_coe.mpr hv)
  have hself : Value.ofContainer b.kind b.container ∈ cl.held := hheld _ List.mem_cons_self
  have hsized : b.Sized := ha.disciplined.sized_head hl
  obtain ⟨c, hc⟩ := (ha.there_of_closing hself).exists_container
  refine Succeeds.bind (succeeds_faultIn ha.accounted.stored hc) fun u s₁ h₁ => ?_
  obtain ⟨hload, c₀, values, -, hc₁⟩ :=
    walk_faultIn (E := fun _ => True) (F := F) (C := C) (q := some cl) trivial h₁
  have ha₁ := hload.kept ha
  refine Succeeds.bind (.container hc₁) fun c₂ s₂ h₂ => ?_
  obtain ⟨hc₂, rfl⟩ := StoreM.container_eq_ok.mp h₂
  obtain rfl := Option.some.inj (hc₁.symm.trans hc₂)
  refine Succeeds.bind (.reading ⟨values, rfl⟩) fun values' s₂ h₂ => ?_
  obtain ⟨hvalues, rfl⟩ := StoreM.lift_eq_ok.mp h₂
  obtain rfl := Elements.resident.inj (StoreM.values_eq_ok.mp hvalues)
  generalize hd : ({ c₀ with elements := .resident values } : Container) = d at hc₁ ⊢
  have he : d.elements = .resident values := by rw [← hd]
  have hshape : d.kind.shape = b.kind.shape := ha₁.fits
    (Multiset.mem_add.mpr (Or.inr hself)) b.kind.shape b.container _ rfl hc₁
  dsimp only
  split
  · next hne => exact absurd (hsized.restored hshape) hne
  refine Succeeds.bind (.modifyContainer hc₁) fun u s₂ h₂ => ?_
  obtain ⟨_, hc', rfl⟩ := StoreM.modifyContainer_eq_ok.mp h₂
  refine Succeeds.bind (succeeds_addImports fun v hv => ?_) fun u s₂ h₂ => ?_
  · exact (ha₁.there_of_closing (hheld v (List.mem_cons_of_mem _ hv))).withContainer hc₁
  have ha₂ := (Step.nesting (.restore (F := F) (C := C) hl hf hc₁ he h₂)).kept ha₁
  refine Succeeds.bind (succeeds_relinquish ha₂) fun u s₃ h₃ => ?_
  have ha₃ := (walk_relinquish (E := fun _ => True) trivial h₃).kept ha₂
  obtain ⟨c₃, hc₃⟩ := (ha₃.there_of_flight
    (Refs.covers_of_mem
      (Multiset.mem_add.mpr (Or.inl (Multiset.mem_singleton_self _))))).exists_container
  refine Succeeds.bind (succeeds_report hc₃) fun u s₄ h₄ => ?_
  exact succeeds_release ((walk_report (E := fun _ => True) trivial h₄).kept ha₃)

theorem succeeds_restoreBackups {bs : List Backup} (ha : Account.Kept ⟨s, F, C, some cl⟩)
    (hl : cl.ledger = bs) (hf : cl.folds = false) :
    Succeeds (bs.forM restoreBackup : StoreM PUnit) s := by
  induction bs generalizing s cl with
  | nil => exact .pure _
  | cons b bs ih =>
    refine Succeeds.bind (succeeds_restoreBackup ha hl hf) fun u t h => ?_
    have hpath := walk_restoreBackup (E := fun _ => True) (F := F) (C := C) trivial trivial hl hf h
    exact ih (hpath.kept ha) rfl hf

/-- What was saved of a variable goes back to its slot. -/
theorem succeeds_restoreVariable {ref : VariableRef} {v : Value}
    {saved : List (VariableRef × Value)} (ha : Account.Kept ⟨s, F, C, some cl⟩)
    (hl : cl.saved = (ref, v) :: saved) (hf : cl.folds = false) :
    Succeeds (restoreVariable ref v) s := by
  have hheld : v ∈ cl.held := by
    refine Multiset.mem_add.mpr (Or.inl (Multiset.mem_add.mpr (Or.inr ?_)))
    exact Refs.mem_sum.mpr ⟨{v}, List.mem_map.mpr ⟨(ref, v), hl ▸ List.mem_cons_self, rfl⟩,
      Multiset.mem_singleton_self v⟩
  obtain ⟨w, hw⟩ := ha.saved.stored (by
    show some v ∈ cl.saved.lookup ref :: _
    rw [hl, List.lookup_cons_self]
    exact List.mem_cons_self)
  refine Succeeds.bind (succeeds_addImport (ha.there_of_closing hheld)) fun u s₁ h₁ => ?_
  have hcur : s₁.variableAt? ref = some w := ((alike_addImport h₁).wanes.variableAt? ref).trans hw
  refine Succeeds.get_bind ?_
  have hread : (s₁.dataspace? ref.dataspace).bind (·.vars[ref.slot]?) = some w := hcur
  rw [hread]
  refine Succeeds.bind (.modifyDataspace _ _) fun u t h => ?_
  obtain rfl := StoreM.modifyDataspace_eq_ok.mp h
  exact succeeds_relinquish
    ((Step.nesting (.restoreVariable (F := F) (C := C) hl hf h₁ hcur)).kept ha)

/-- Each variable can be put back as it was saved. -/
theorem succeeds_restoreVariables {saved : List (VariableRef × Value)}
    (ha : Account.Kept ⟨s, F, C, some cl⟩) (hl : cl.saved = saved) (hf : cl.folds = false) :
    Succeeds (saved.forM fun (ref, v) => restoreVariable ref v : StoreM PUnit) s := by
  induction saved generalizing s cl with
  | nil => exact .pure _
  | cons x saved ih =>
    refine Succeeds.bind (succeeds_restoreVariable ha hl hf) fun u t h => ?_
    have hpath := walk_restoreVariable (E := fun _ => True) (F := F) (C := C) trivial
      trivial hl hf h
    exact ih (hpath.kept ha) rfl hf

/-- What a patch says was done to a call can be taken back. -/
theorem succeeds_unwind {call : CallRef} {patch : CallPatch}
    {patches : List (CallRef × CallPatch)} (ha : Account.Kept ⟨s, F, C, some cl⟩)
    (hl : cl.patches = (call, patch) :: patches) (hf : cl.folds = false) :
    Succeeds (unwind call patch) s := by
  obtain ⟨hfits, -⟩ := ha.chained.head hl
  obtain ⟨d, hd, -⟩ := ha.numbered.patched
    (Or.inl ⟨cl, rfl, hl ▸ List.mem_cons_self⟩)
  have hcall := call?_of_dataspace hd
  have hheld : ∀ v ∈ patch.held, s.There v := fun v hv => by
    refine ha.there_of_closing (Multiset.mem_add.mpr (Or.inr ?_))
    exact Refs.mem_sum.mpr ⟨_, List.mem_map.mpr ⟨(call, patch), hl ▸ List.mem_cons_self, rfl⟩, hv⟩
  refine Succeeds.get_bind ?_
  rw [hd]
  dsimp only
  cases patch with
  | added =>
    obtain ⟨new, hnew⟩ : ∃ new, s.call? call = some new := by
      generalize s.call? call = now at hfits
      cases hfits with
      | added new => exact ⟨new, rfl⟩
    rw [hcall] at hnew
    rw [hnew]
    refine Succeeds.bind (.modifyDataspace _ _) fun u t h => ?_
    obtain rfl := modifyCallouts_eq_ok.mp h
    exact succeeds_relinquish
      ((Step.nesting (.unwindAdded (F := F) (C := C) hl hf (hcall.trans hnew))).kept ha)
  | removed old =>
    have hput : Succeeds (do
        modifyCallouts call.dataspace (·.insert call.handle old)
        addImport call.dataspace old.payload : StoreM Unit) s := by
      refine Succeeds.bind (.modifyDataspace _ _) fun u t h => ?_
      obtain rfl := modifyCallouts_eq_ok.mp h
      exact succeeds_addImport (hheld _ (Multiset.mem_singleton_self _))
    cases d.callouts[call.handle]? <;> exact hput
  | replaced old =>
    obtain ⟨new, hnew⟩ : ∃ new, s.call? call = some new := by
      generalize s.call? call = now at hfits
      cases hfits with
      | replaced _ new => exact ⟨new, rfl⟩
    rw [hcall] at hnew
    rw [hnew]
    refine Succeeds.bind (.modifyDataspace _ _) fun u t h => ?_
    obtain rfl := modifyCallouts_eq_ok.mp h
    refine Succeeds.bind (succeeds_addImport (hheld _ (Multiset.mem_singleton_self _)))
      fun u t h => ?_
    exact succeeds_relinquish
      ((Step.nesting (.unwindReplaced (F := F) (C := C) hl hf (hcall.trans hnew) h)).kept ha)

/-- Each call can be put back as it was before the plane. -/
theorem succeeds_unwinds {patches : List (CallRef × CallPatch)}
    (ha : Account.Kept ⟨s, F, C, some cl⟩) (hl : cl.patches = patches) (hf : cl.folds = false) :
    Succeeds (patches.forM fun (call, patch) => unwind call patch : StoreM PUnit) s := by
  induction patches generalizing s cl with
  | nil => exact .pure _
  | cons x patches ih =>
    refine Succeeds.bind (succeeds_unwind ha hl hf) fun u t h => ?_
    have hpath := walk_unwind (E := fun _ => True) (F := F) (C := C) trivial trivial hl hf h
    exact ih (hpath.kept ha) rfl hf

/-- All that was done on a plane can be undone. -/
theorem succeeds_undo {p : Plane} {level : Nat}
    (ha : Account.Kept ⟨s, F, C, some (.ofPlane false level p)⟩) : Succeeds (undo level p) s := by
  refine Succeeds.bind (succeeds_restoreBackups ha rfl rfl) fun _ s₁ h₁ => ?_
  have hledger := walk_restoreBackups (E := fun _ => True) (F := F) (C := C) trivial
    (fun _ _ => trivial)
    (show (Closing.ofPlane false level p).ledger = p.ledger from rfl) rfl h₁
  refine Succeeds.bind (succeeds_restoreVariables (hledger.kept ha) rfl rfl) fun _ s₂ h₂ => ?_
  have hsaved := hledger.trans (walk_restoreVariables trivial trivial rfl rfl h₂)
  refine Succeeds.bind (succeeds_unwinds (hsaved.kept ha) rfl rfl) fun _ s₃ h₃ => ?_
  have hsettles :=
    succeeds_settles (s := s₃) level ((p.census.toList.filter (·.2 = .fresh)).map Prod.fst)
  rwa [List.forM_eq_forM, List.forM_map] at hsettles

theorem succeeds_discard (level : Nat) (ha : Account.Kept ⟨s, F, C, none⟩) :
    Succeeds (discard level) s := by
  refine Succeeds.requestBind (succeeds_pop level) fun p t h => ?_
  obtain ⟨rest, hp, rfl, rfl⟩ := pop_eq_ok h
  have hpop : Step (.leave false s.level) ⟨s, F, C, none⟩ _ := .nesting (.pop false hp)
  exact .lift (succeeds_undo (hpop.kept ha))

theorem succeeds_discardMany (n : Nat) (ha : Account.Kept ⟨s, F, C, none⟩) :
    Succeeds (discardMany n) s := by
  induction n generalizing s with
  | zero => exact .answer _
  | succ n ih =>
    refine Succeeds.requestGetBind (Succeeds.requestBind (succeeds_discard _ ha) fun u t h => ?_)
    obtain ⟨-, hlevel, p, hpath⟩ := walk_discard ha h
    have hfinished : Path (Effect.Undoes 0) ⟨s, F, C, none⟩ ⟨t, F, C, none⟩ :=
      @Path.finished t F C (Closing.ofPlane false s.level p) _ 0 hpath (by
        show 0 < s.level
        omega)
    exact ih (hfinished.kept ha)

/-- A discard down to a level is carried out or refused. -/
theorem succeeds_discardTo (level : Nat) (ha : Account.Kept ⟨s, F, C, none⟩) :
    Succeeds (discardTo level) s := by
  refine Succeeds.requestGetBind ?_
  dsimp only
  split
  · exact .refuse _
  · exact succeeds_discardMany _ ha

end

end PlaneStore
