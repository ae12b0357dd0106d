import PlaneStore.Proofs.Planes.PlaneTrails

/-!
# What planes remember can be taken back

Of a variable or a deferred call every plane remembers at most one thing: what it was when the plane
was entered, if it was touched since. Taking all of this back from the innermost plane to that of a
level gives what the variable or call was when that plane was entered; and no step changes that,
save one that folds down the plane itself.
-/

namespace PlaneStore

open Store

/-! ## Memories -/

section

variable {μ ν : Type} (back : μ → ν)

/--
What a thing was before all that is remembered of it, the latest memory in front; `none` is a plane
that remembers nothing, and `back` says what was before a memory.
-/
def rewind : List (Option μ) → ν → ν
  | [], now => now
  | none :: ms, now => rewind ms now
  | some m :: ms, _ => rewind ms (back m)

/-- What a thing was when the plane of a level was entered. -/
def rewindTo (level : Nat) (ms : List (Option μ)) (now : ν) : ν :=
  rewind back (ms.take (ms.length + 1 - level)) now

/--
What a step makes of a thing and of what is remembered of it. Steps that fold down the innermost
plane are told from others.
-/
inductive Turn : Bool → List (Option μ) → ν → List (Option μ) → ν → Prop
  | keep {folds : Bool} {ms : List (Option μ)} {now : ν} : Turn folds ms now ms now
  | enter {ms : List (Option μ)} {now : ν} : Turn false ms now (none :: ms) now
  | left {folds : Bool} {ms : List (Option μ)} {now : ν} : Turn folds (none :: ms) now ms now
  /-- Outside of regions nothing is remembered. -/
  | change {folds : Bool} {now now' : ν} : Turn folds [] now [] now'
  | first {folds : Bool} {m : μ} {ms : List (Option μ)} {now now' : ν} (h : back m = now) :
    Turn folds (none :: ms) now (some m :: ms) now'
  | again {folds : Bool} {m m' : μ} {ms : List (Option μ)} {now now' : ν} (h : back m' = back m) :
    Turn folds (some m :: ms) now (some m' :: ms) now'
  | undo {folds : Bool} {m : μ} {ms : List (Option μ)} {now now' : ν} (h : back m = now') :
    Turn folds (some m :: ms) now (none :: ms) now'
  /-- The outermost plane hands what it remembers to no one. -/
  | forget {m : μ} {now : ν} : Turn true [some m] now [none] now
  | hand {m : μ} {ms : List (Option μ)} {now : ν} :
    Turn true (some m :: none :: ms) now (none :: some m :: ms) now
  | fold {m m' m'' : μ} {ms : List (Option μ)} {now : ν} (h : back m'' = back m') :
    Turn true (some m :: some m' :: ms) now (none :: some m'' :: ms) now
  | cancel {m m' : μ} {ms : List (Option μ)} {now : ν} (h : back m' = now) :
    Turn true (some m :: some m' :: ms) now (none :: none :: ms) now

variable {back}

/-- To go back to a level is to go back through the planes above it. -/
theorem rewindTo_cons {m : Option μ} {ms : List (Option μ)} {now : ν} {level : Nat}
    (hle : level ≤ ms.length + 1) :
    rewindTo back level (m :: ms) now = rewind back (m :: ms.take (ms.length + 1 - level)) now := by
  unfold rewindTo
  rw [List.length_cons, Nat.sub_add_comm hle, List.take_succ_cons]

theorem rewindTo_cons_cons {m m' : Option μ} {ms : List (Option μ)} {now : ν} {level : Nat}
    (hle : level ≤ ms.length + 1) :
    rewindTo back level (m :: m' :: ms) now =
      rewind back (m :: m' :: ms.take (ms.length + 1 - level)) now := by
  rw [rewindTo_cons (Nat.le_succ_of_le hle), List.length_cons, Nat.sub_add_comm hle,
    List.take_succ_cons]

/-- What a thing was when a plane was entered does not change until that plane is folded down. -/
theorem Turn.rewindTo_eq {folds : Bool} {ms ms' : List (Option μ)} {now now' : ν} {level : Nat}
    (h : Turn back folds ms now ms' now') (hpos : 0 < level) (hle : level ≤ ms.length)
    (hf : folds = true → level < ms.length) :
    rewindTo back level ms' now' = rewindTo back level ms now := by
  cases h with
  | keep => rfl
  | enter => exact rewindTo_cons (Nat.le_succ_of_le hle)
  | left =>
    rw [rewindTo_cons hle]
    rfl
  | change => exact absurd (Nat.lt_of_lt_of_le hpos hle) (Nat.lt_irrefl 0)
  | first hm | again hm | undo hm =>
    rw [rewindTo_cons hle, rewindTo_cons hle]
    simp only [rewind, hm]
  | forget => exact absurd hpos (Nat.not_lt.mpr (Nat.le_of_lt_succ (hf rfl)))
  -- Folding down the innermost plane merges two memories, which the level is too low to tell apart.
  | hand =>
    have hlow := Nat.le_of_lt_succ (hf rfl)
    rw [rewindTo_cons_cons hlow, rewindTo_cons_cons hlow]
    rfl
  | fold hm | cancel hm =>
    have hlow := Nat.le_of_lt_succ (hf rfl)
    rw [rewindTo_cons_cons hlow, rewindTo_cons_cons hlow]
    simp only [rewind, hm]

end

namespace Account

/-- What planes remember of a call, that of a closing plane in front. -/
def patches (a : Account) (call : CallRef) : List (Option CallPatch) :=
  (a.closing.map fun cl => cl.patches.lookup call).toList ++
    a.store.planes.map fun p => p.patches[call]?

/-- What planes remember of a variable, that of a closing plane in front. -/
def saves (a : Account) (ref : VariableRef) : List (Option Value) :=
  (a.closing.map fun cl => cl.saved.lookup ref).toList ++
    a.store.planes.map fun p => p.savedVars[ref]?

/-- Whether a plane is being folded down. -/
def folding (a : Account) : Bool := a.closing.any Closing.folds

/-- The number of planes, one that is closing included. -/
def depth (a : Account) : Nat := a.store.level + a.closing.toList.length

theorem depth_of_open {a : Account} (hq : a.closing = none) : a.depth = a.store.level := by
  unfold depth
  rw [hq]
  rfl

theorem depth_of_closing {a : Account} {cl : Closing} (hq : a.closing = some cl) :
    a.depth = a.store.level + 1 := by
  unfold depth
  rw [hq]
  rfl

theorem length_patches (a : Account) (call : CallRef) : (a.patches call).length = a.depth := by
  unfold patches depth level
  rw [List.length_append, List.length_map, Nat.add_comm]
  cases a.closing <;> rfl

theorem length_saves (a : Account) (ref : VariableRef) : (a.saves ref).length = a.depth := by
  unfold saves depth level
  rw [List.length_append, List.length_map, Nat.add_comm]
  cases a.closing <;> rfl

end Account

/-! ## What steps do to variables and calls -/

/-- What a plane remembers of variables and calls. -/
def Plane.notes (p : Plane) : Std.TreeMap VariableRef Value × Std.TreeMap CallRef CallPatch :=
  (p.savedVars, p.patches)

/-- What a closing plane still remembers of variables and calls. -/
def Closing.notes (cl : Closing) : List (VariableRef × Value) × List (CallRef × CallPatch) :=
  (cl.saved, cl.patches)

namespace Account

/-- Each variable and each call takes a turn, and no variable is gone. -/
structure Turns (a b : Account) : Prop where
  call : ∀ call, Turn CallPatch.before a.folding (a.patches call) (a.store.call? call)
    (b.patches call) (b.store.call? call)
  var : ∀ ref, Turn some a.folding (a.saves ref) (a.store.variableAt? ref) (b.saves ref)
      (b.store.variableAt? ref) ∨ a.store.variableAt? ref = none ∧ b.saves ref = a.saves ref
  exist : ∀ {ref v}, a.store.variableAt? ref = some v → ∃ w, b.store.variableAt? ref = some w

variable {a b : Account}

/-- The patches of a call depend on the notes of the planes. -/
theorem patches_congr
    (hp : b.store.planes.map Plane.notes = a.store.planes.map Plane.notes)
    (hq : b.closing.map Closing.notes = a.closing.map Closing.notes) (call : CallRef) :
    b.patches call = a.patches call := by
  have hplanes := congrArg (List.map fun n => n.2[call]?) hp
  have hclosing := congrArg (Option.map fun n => n.2.lookup call) hq
  rw [List.map_map, List.map_map] at hplanes
  rw [Option.map_map, Option.map_map] at hclosing
  unfold patches
  exact congrArg₂ (· ++ ·) (congrArg Option.toList hclosing) hplanes

/-- The saved values of a variable depend on the notes of the planes. -/
theorem saves_congr
    (hp : b.store.planes.map Plane.notes = a.store.planes.map Plane.notes)
    (hq : b.closing.map Closing.notes = a.closing.map Closing.notes) (ref : VariableRef) :
    b.saves ref = a.saves ref := by
  have hplanes := congrArg (List.map fun n => n.1[ref]?) hp
  have hclosing := congrArg (Option.map fun n => n.1.lookup ref) hq
  rw [List.map_map, List.map_map] at hplanes
  rw [Option.map_map, Option.map_map] at hclosing
  unfold saves
  exact congrArg₂ (· ++ ·) (congrArg Option.toList hclosing) hplanes

/-- Nothing is written to a dataspace, and nothing is noted. -/
theorem Turns.of_bare
    (hd : ∀ ds, (b.store.dataspace? ds).map Dataspace.bare =
      (a.store.dataspace? ds).map Dataspace.bare)
    (hp : b.store.planes.map Plane.notes = a.store.planes.map Plane.notes)
    (hq : b.closing.map Closing.notes = a.closing.map Closing.notes) : a.Turns b where
  call call := by
    rw [patches_congr hp hq, call?_of_bare (hd _)]
    exact .keep
  var ref := by
    rw [saves_congr hp hq, variableAt?_of_bare (hd _)]
    exact .inl .keep
  exist {ref v} h := ⟨v, (variableAt?_of_bare (hd _)).trans h⟩

end Account

theorem Traffic.turns {a b : Account} (h : Traffic a b) (hs : a.store.Stored) : a.Turns b := by
  have hw := h.wanes hs
  have hp := congrArg (List.map Plane.notes) hw.planes
  have hbare : Plane.notes ∘ Plane.bare = Plane.notes := rfl
  rw [List.map_map, List.map_map, hbare] at hp
  refine .of_bare hw.dataspace hp ?_
  cases h <;> rfl

theorem Creation.turns {e : Effect} {a b : Account} (h : Creation e a b)
    (hs : a.store.heap.containers.Sound) : a.Turns b := by
  cases h with
  | @container t s F C owner kind values u hv hm h =>
    have hal := alike_link_new hs rfl h
    refine .of_bare (fun ds => ?_) ?_ rfl
    · show ((t.withPlane _).dataspace? ds).map _ = _
      rw [dataspace?_withPlane]
      exact hal.dataspace ds
    · refine (planes_map_withPlane t ?_).trans ?_
      · exact fun p => rfl
      · rw [hal.planes]
        rfl
  | retag | string | spawn | destroy => exact .of_bare (fun _ => rfl) rfl rfl
  | @dataspace s F n =>
    have hvar : ∀ {ref v}, s.variableAt? ref = some v →
        ({ s with dataspaces := s.dataspaces.push { vars := Array.replicate n .nil } } :
          Store).variableAt? ref = some v := by
      intro ref v hv
      obtain ⟨d, hd, hget⟩ := Option.bind_eq_some_iff.mp hv
      exact Option.bind_eq_some_iff.mpr ⟨d, dataspace?_founded_of_some n hd, hget⟩
    refine ⟨fun call => ?_, fun ref => ?_, fun hv => ⟨_, hvar hv⟩⟩
    · rw [Account.patches_congr (a := ⟨s, F, 0, none⟩) rfl rfl, call?_founded]
      exact .keep
    · cases hv : s.variableAt? ref with
      | none => exact .inr ⟨rfl, rfl⟩
      | some v =>
        rw [hvar hv]
        exact .inl .keep

/-! ### Recording a patch -/

/-- A fold takes a call back as far as the earlier of the two patches. -/
theorem CallPatch.before_fold? {earlier patch later : CallPatch} {out : Option Value}
    (h : earlier.fold? patch = some ⟨some later, out⟩) : later.before = earlier.before := by
  cases earlier <;> cases patch <;> cases h <;> rfl

/-- Two patches that leave nothing to remember leave the call as it was before both. -/
theorem CallPatch.before_of_cancelled {earlier patch : CallPatch} {out : Option Value}
    {now : Option DeferredCall} (h : earlier.fold? patch = some ⟨none, out⟩)
    (hfit : patch.Fits patch.before now) : earlier.before = now := by
  cases earlier <;> cases patch <;> cases h
  cases hfit
  rfl

namespace Store.Recorded

variable {s s' : Store} {call : CallRef} {patch : CallPatch} {out : List Value}

/-- What the planes remember of other calls stays. -/
theorem patches_of_ne (h : Recorded call patch s out s') {other : CallRef} (ho : other ≠ call) :
    s'.planes.map (fun p => p.patches[other]?) = s.planes.map fun p => p.patches[other]? := by
  rcases h.planes_cases with ⟨h₁, h₂⟩ | ⟨p, rest, p', h₁, h₂, hother, -⟩
  · rw [h₁, h₂]
  · rw [h₁, h₂, List.map_cons, List.map_cons, hother other ho]

/-- The patch is told, noted, or folded into what the innermost plane remembers. -/
theorem patches_self (h : Recorded call patch s out s') :
    (s.planes = [] ∧ s'.planes = []) ∨ ∃ ms : List (Option CallPatch),
      (s.planes.map (fun p => p.patches[call]?) = none :: ms ∧
        s'.planes.map (fun p => p.patches[call]?) = some patch :: ms) ∨
      ∃ earlier fold, s.planes.map (fun p => p.patches[call]?) = some earlier :: ms ∧
        earlier.fold? patch = some fold ∧
          s'.planes.map (fun p => p.patches[call]?) = fold.patch :: ms := by
  rcases h.planes_cases with h | ⟨p, rest, p', h₁, h₂, -, hcall⟩
  · exact .inl h
  · refine .inr ⟨rest.map fun p => p.patches[call]?, ?_⟩
    rw [h₁, h₂, List.map_cons, List.map_cons]
    rcases hcall with ⟨hnone, hsome⟩ | ⟨earlier, fold, hsome, hfold, hafter⟩
    · exact .inl ⟨by rw [hnone], by rw [hsome]⟩
    · exact .inr ⟨earlier, fold, by rw [hsome], hfold, by rw [hafter]⟩

variable {t : Store} {F F' : Refs} {C C' : Charges}

/-- A change of a call that was made outside of closing planes. -/
theorem turn (h : Recorded call patch t out s') (hp : t.planes = s.planes)
    (hfit : patch.Fits patch.before (t.call? call)) (hbefore : s.call? call = patch.before)
    (hother : ∀ other ≠ call, t.call? other = s.call? other) (other : CallRef) :
    Turn CallPatch.before false (Account.patches ⟨s, F, C, none⟩ other) (s.call? other)
      (Account.patches ⟨s', F', C', none⟩ other) (s'.call? other) := by
  show Turn _ _ (s.planes.map fun p => p.patches[other]?) _
    (s'.planes.map fun p => p.patches[other]?) _
  rw [h.call?_eq, ← hp]
  by_cases ho : other = call
  · subst ho
    rcases h.patches_self with ⟨h₁, h₂⟩ | ⟨ms, ⟨h₁, h₂⟩ | ⟨earlier, ⟨r, o⟩, h₁, hfold, h₂⟩⟩
    · rw [h₁, h₂]
      exact .change
    · rw [h₁, h₂, hbefore]
      exact .first rfl
    · rw [h₁, h₂]
      cases r with
      | none => exact .undo (CallPatch.before_of_cancelled hfold hfit)
      | some later => exact .again (CallPatch.before_fold? hfold)
  · rw [h.patches_of_ne ho, hother other ho]
    exact .keep

/-- A patch of a closing plane goes to the plane below. -/
theorem turn_fold {cl : Closing} {patches : List (CallRef × CallPatch)}
    (h : Recorded call patch s out s') (hl : cl.patches = (call, patch) :: patches)
    (hnot : call ∉ patches.map Prod.fst) (hfit : patch.Fits patch.before (s.call? call))
    (other : CallRef) :
    Turn CallPatch.before true (Account.patches ⟨s, F, C, some cl⟩ other) (s.call? other)
      (Account.patches ⟨s', F', C', some { cl with patches }⟩ other) (s'.call? other) := by
  show Turn _ _ (cl.patches.lookup other :: s.planes.map fun p => p.patches[other]?) _
    (patches.lookup other :: s'.planes.map fun p => p.patches[other]?) _
  rw [h.call?_eq, hl]
  by_cases ho : other = call
  · subst ho
    rw [List.lookup_cons_self, lookup_of_notMem hnot]
    rcases h.patches_self with ⟨h₁, h₂⟩ | ⟨ms, ⟨h₁, h₂⟩ | ⟨earlier, ⟨r, o⟩, h₁, hfold, h₂⟩⟩
    · rw [h₁, h₂]
      exact .forget
    · rw [h₁, h₂]
      exact .hand
    · rw [h₁, h₂]
      cases r with
      | none => exact .cancel (CallPatch.before_of_cancelled hfold hfit)
      | some later => exact .fold (CallPatch.before_fold? hfold)
  · rw [lookup_cons_of_ne (Ne.symm ho), h.patches_of_ne ho]
    exact .keep

end Store.Recorded

/-- What a step that concerns no variable makes of variables. -/
theorem Account.Turns.of_calls {a b : Account}
    (hcall : ∀ call, Turn CallPatch.before a.folding (a.patches call) (a.store.call? call)
      (b.patches call) (b.store.call? call))
    (hvar : ∀ ref, b.store.variableAt? ref = a.store.variableAt? ref)
    (hp : b.store.planes.map Plane.savedVars = a.store.planes.map Plane.savedVars)
    (hq : b.closing.map Closing.saved = a.closing.map Closing.saved) : a.Turns b where
  call := hcall
  var ref := by
    have hsaves : b.saves ref = a.saves ref := by
      have hplanes := congrArg (List.map fun n : Std.TreeMap VariableRef Value => n[ref]?) hp
      have hclosing := congrArg (Option.map (List.lookup ref)) hq
      rw [List.map_map, List.map_map] at hplanes
      rw [Option.map_map, Option.map_map] at hclosing
      unfold saves
      exact congrArg₂ (· ++ ·) (congrArg Option.toList hclosing) hplanes
    rw [hsaves, hvar]
    exact .inl .keep
  exist {ref v} h := ⟨v, (hvar ref).trans h⟩

/-- What a step that concerns no call makes of calls. -/
theorem Account.Turns.of_vars {a b : Account}
    (hvar : ∀ ref, Turn some a.folding (a.saves ref) (a.store.variableAt? ref) (b.saves ref)
      (b.store.variableAt? ref))
    (hexist : ∀ {ref v}, a.store.variableAt? ref = some v →
      ∃ w, b.store.variableAt? ref = some w)
    (hcall : ∀ call, b.store.call? call = a.store.call? call)
    (hp : b.store.planes.map Plane.patches = a.store.planes.map Plane.patches)
    (hq : b.closing.map Closing.patches = a.closing.map Closing.patches) : a.Turns b where
  call call := by
    have hpatches : b.patches call = a.patches call := by
      have hplanes := congrArg (List.map fun n : Std.TreeMap CallRef CallPatch => n[call]?) hp
      have hclosing := congrArg (Option.map (List.lookup call)) hq
      rw [List.map_map, List.map_map] at hplanes
      rw [Option.map_map, Option.map_map] at hclosing
      unfold patches
      exact congrArg₂ (· ++ ·) (congrArg Option.toList hclosing) hplanes
    rw [hpatches, hcall]
    exact .keep
  var ref := .inl (hvar ref)
  exist := hexist

/-! ### Writing -/

namespace Store

variable {s : Store} {ref : VariableRef} {v old : Value}

/-- A variable that was written to has the new value. -/
theorem variableAt?_withVariable_self (hold : s.variableAt? ref = some old) :
    (s.withVariable ref v).variableAt? ref = some v := by
  obtain ⟨d, hd, hget⟩ := Option.bind_eq_some_iff.mp hold
  have hlt := (Array.getElem?_eq_some_iff.mp hget).1
  unfold withVariable variableAt?
  rw [dataspace?_withDataspace_of_some hd]
  simp [hlt]

/-- A write to one variable is none to another. -/
theorem variableAt?_withVariable_of_ne {other : VariableRef} (h : other ≠ ref) :
    (s.withVariable ref v).variableAt? other = s.variableAt? other := by
  unfold withVariable variableAt?
  by_cases hds : ref.dataspace = other.dataspace
  · have hslot : ref.slot ≠ other.slot := by
      intro he
      cases ref
      cases other
      simp only at hds he
      exact h (by rw [hds, he])
    rw [hds, dataspace?_withDataspace_self]
    cases s.dataspace? other.dataspace with
    | none => rfl
    | some d => exact Array.getElem?_setIfInBounds_ne hslot
  · rw [dataspace?_withDataspace_of_ne hds]

/-- A variable that is there stays there when one is written. -/
theorem exists_variableAt?_withVariable {other : VariableRef} {w : Value}
    (hold : s.variableAt? ref = some old) (hw : s.variableAt? other = some w) :
    ∃ w, (s.withVariable ref v).variableAt? other = some w := by
  by_cases ho : other = ref
  · subst ho
    exact ⟨v, variableAt?_withVariable_self hold⟩
  · exact ⟨w, (variableAt?_withVariable_of_ne ho).trans hw⟩

theorem variableAt?_withDataspace {ds : DataspaceId} {f : Dataspace → Dataspace}
    (hf : ∀ d, (f d).vars = d.vars) (ref : VariableRef) :
    (s.withDataspace ds f).variableAt? ref = s.variableAt? ref := by
  have hmap : ((s.withDataspace ds f).dataspace? ref.dataspace).map Dataspace.vars =
      (s.dataspace? ref.dataspace).map Dataspace.vars :=
    map_dataspace?_withDataspace hf ref.dataspace
  have h := congrArg (Option.bind · (·[ref.slot]?)) hmap
  rwa [Option.bind_map, Option.bind_map] at h

/-- A change of a callout table touches no variable. -/
theorem variableAt?_withCallouts (s : Store) (ds : DataspaceId) (ref : VariableRef)
    (f : Std.TreeMap CallHandle DeferredCall → Std.TreeMap CallHandle DeferredCall) :
    (s.withCallouts ds f).variableAt? ref = s.variableAt? ref :=
  variableAt?_withDataspace (by exact fun _ => rfl) ref

theorem variableAt?_bump (s : Store) (ds : DataspaceId) (ref : VariableRef) :
    (s.withDataspace ds fun d => { d with nextHandle := d.nextHandle + 1 }).variableAt? ref =
      s.variableAt? ref :=
  variableAt?_withDataspace (by exact fun _ => rfl) ref

theorem variableAt?_withPlane (s : Store) (f : Plane → Plane) (ref : VariableRef) :
    (s.withPlane f).variableAt? ref = s.variableAt? ref := by
  unfold variableAt?
  rw [dataspace?_withPlane]

/-- To record a patch writes to no variable. -/
theorem Recorded.variableAt? {s s' : Store} {call : CallRef} {patch : CallPatch}
    {out : List Value} (h : Recorded call patch s out s') (ref : VariableRef) :
    s'.variableAt? ref = s.variableAt? ref := by
  unfold Store.variableAt? dataspace?
  rw [h.fields.2.2.1]

/-- To record a patch saves no variable. -/
theorem Recorded.savedVars {s s' : Store} {call : CallRef} {patch : CallPatch}
    {out : List Value} (h : Recorded call patch s out s') :
    s'.planes.map Plane.savedVars = s.planes.map Plane.savedVars :=
  h.planes_map _ fun _ _ => rfl

end Store

theorem Plane.savedVars_insert_self (p : Plane) (ref : VariableRef) (v : Value) :
    (p.savedVars.insert ref v)[ref]? = some v := Std.TreeMap.getElem?_insert_self

theorem Plane.savedVars_insert_of_ne (p : Plane) {ref other : VariableRef} (v : Value)
    (h : other ≠ ref) : (p.savedVars.insert ref v)[other]? = p.savedVars[other]? := by
  have hne : compare ref other ≠ .eq := fun he => h (Std.LawfulEqOrd.eq_of_compare he).symm
  simp [Std.TreeMap.getElem?_insert, hne]

theorem Plane.savedVars_of_contains {p : Plane} {ref : VariableRef}
    (h : p.savedVars.contains ref = true) : ∃ w, p.savedVars[ref]? = some w := by
  rw [Std.TreeMap.contains_eq_isSome_getElem?] at h
  exact Option.isSome_iff_exists.mp h

theorem Plane.savedVars_of_not_contains {p : Plane} {ref : VariableRef}
    (h : p.savedVars.contains ref = false) : p.savedVars[ref]? = none := by
  rw [Std.TreeMap.contains_eq_isSome_getElem?] at h
  exact Option.isSome_eq_false_iff.mp h |> Option.isNone_iff_eq_none.mp

theorem Writing.turns {e : Effect} {a b : Account} (h : Writing e a b) (hn : a.Numbered) :
    a.Turns b := by
  cases h with
  | @write s F C ref v old hold hv hp =>
    refine .of_vars (fun other => ?_) (exists_variableAt?_withVariable hold)
      (fun _ => call?_withVariable) rfl rfl
    show Turn _ _ (s.planes.map fun p => p.savedVars[other]?) _
      (s.planes.map fun p => p.savedVars[other]?) ((s.withVariable ref v).variableAt? other)
    by_cases ho : other = ref
    · subst ho
      -- Without a plane there is nothing to go back to; with one, the first value is saved already.
      cases hplanes : s.planes with
      | nil => exact .change
      | cons p rest =>
        obtain ⟨w, hw⟩ := Plane.savedVars_of_contains (hp p (by rw [hplanes]; rfl))
        rw [List.map_cons, hw]
        exact .again rfl
    · rw [variableAt?_withVariable_of_ne ho]
      exact .keep
  | @firstWrite t s F C ref v old p rest u hold hv hp hnew h =>
    have hal := alike_dropImport h
    have htp : t.planes = p :: rest := hal.planes.trans hp
    have hvar : ∀ other, (t.withPlane fun p =>
        { p with savedVars := p.savedVars.insert ref old }).variableAt? other =
          (s.withVariable ref v).variableAt? other := fun other =>
      (variableAt?_withPlane _ _ _).trans (variableAt?_of_bare (hal.dataspace _))
    refine .of_vars (fun other => ?_) (fun {other w} hw => ?_) (fun call => ?_) ?_ rfl
    · show Turn _ _ (s.planes.map fun p => p.savedVars[other]?) (s.variableAt? other)
        ((t.withPlane _).planes.map fun p => p.savedVars[other]?)
          ((t.withPlane _).variableAt? other)
      rw [hvar, planes_withPlane htp, hp, List.map_cons, List.map_cons]
      by_cases ho : other = ref
      · subst ho
        rw [Plane.savedVars_insert_self, Plane.savedVars_of_not_contains hnew, hold]
        exact .first rfl
      · rw [Plane.savedVars_insert_of_ne p old ho, variableAt?_withVariable_of_ne ho]
        exact .keep
    · obtain ⟨w', hw'⟩ := exists_variableAt?_withVariable (v := v) hold hw
      exact ⟨w', (hvar _).trans hw'⟩
    · show (t.withPlane _).call? call = _
      rw [call?_withPlane, call?_of_bare (hal.dataspace _), call?_withVariable]
    · refine (planes_map_withPlane t (by exact fun _ => rfl)).trans ?_
      rw [hal.planes]
      rfl
  | @addCall s' s F C ds d due payload out hd hv h =>
    have hcalls := call?_added (c := { due, payload }) hd
    refine .of_calls (h.turn rfl ?_ (hn.call?_next hd) fun other ho => ?_) (fun ref => ?_)
      h.savedVars rfl
    · rw [hcalls, if_pos rfl]
      exact .added _
    · rw [hcalls, if_neg ho]
    · exact (h.variableAt? ref).trans
        ((variableAt?_withCallouts _ _ _ _).trans (variableAt?_bump _ _ _))
  | @removeCall t s' s F C call old out u hold h₁ h₂ =>
    have hal := alike_dropImport h₁
    have hcall : ∀ other, t.call? other = if other = call then none else s.call? other :=
      fun other => (call?_of_bare (hal.dataspace _)).trans call?_withCallouts_erase
    refine .of_calls (h₂.turn hal.planes ?_ hold fun other ho => ?_) (fun ref => ?_)
      (h₂.savedVars.trans (by rw [hal.planes]; rfl)) rfl
    · rw [hcall, if_pos rfl]
      exact .removed old
    · rw [hcall, if_neg ho]
    · exact (h₂.variableAt? ref).trans ((variableAt?_of_bare (hal.dataspace _)).trans
        (variableAt?_withCallouts _ _ _ _))
  | @replaceCall t s' s F C call old new out u hold hv h₁ h₂ =>
    have hal := alike_dropImport h₁
    obtain ⟨d, hd, -⟩ := Option.bind_eq_some_iff.mp hold
    have hcall : ∀ other, t.call? other = if other = call then some new else s.call? other :=
      fun other => (call?_of_bare (hal.dataspace _)).trans (call?_withCallouts_insert hd)
    refine .of_calls (h₂.turn hal.planes ?_ hold fun other ho => ?_) (fun ref => ?_)
      (h₂.savedVars.trans (by rw [hal.planes]; rfl)) rfl
    · rw [hcall, if_pos rfl]
      exact .replaced old new
    · rw [hcall, if_neg ho]
    · exact (h₂.variableAt? ref).trans ((variableAt?_of_bare (hal.dataspace _)).trans
        (variableAt?_withCallouts _ _ _ _))

/-! ### Between planes -/

namespace Account.Turns

variable {s s' : Store} {F F' : Refs} {C C' : Charges} {cl : Closing} {call : CallRef}
  {patch : CallPatch} {patches : List (CallRef × CallPatch)} {ref : VariableRef} {v : Value}
  {saved : List (VariableRef × Value)}

/-- A closing plane takes back what it remembers of a call. -/
theorem of_unwound (ha : Chained ⟨s, F, C, some cl⟩) (hl : cl.patches = (call, patch) :: patches)
    (hp : s'.planes = s.planes) (hcall : s'.call? call = patch.before)
    (hother : ∀ other ≠ call, s'.call? other = s.call? other)
    (hvar : ∀ ref, s'.variableAt? ref = s.variableAt? ref) :
    Turns ⟨s, F, C, some cl⟩ ⟨s', F', C', some { cl with patches }⟩ := by
  have honce : (((call, patch) :: patches).map Prod.fst).Nodup := hl ▸ ha.once
  refine .of_calls (fun other => ?_) hvar (congrArg (List.map Plane.savedVars) hp) rfl
  show Turn _ _ (cl.patches.lookup other :: s.planes.map fun p => p.patches[other]?) _
    (patches.lookup other :: s'.planes.map fun p => p.patches[other]?) _
  rw [hl, hp]
  by_cases ho : other = call
  · subst ho
    rw [List.lookup_cons_self, lookup_of_notMem (List.nodup_cons.mp honce).1]
    exact .undo hcall.symm
  · rw [lookup_cons_of_ne (Ne.symm ho)]
    show Turn _ _ _ (s.call? other) _ (s'.call? other)
    rw [hother other ho]
    exact .keep

/-- A closing plane takes back what it remembers of a variable. -/
theorem of_restored (honce : (cl.saved.map Prod.fst).Nodup) (hl : cl.saved = (ref, v) :: saved)
    (hp : s'.planes = s.planes) (hself : s'.variableAt? ref = some v)
    (hother : ∀ other ≠ ref, s'.variableAt? other = s.variableAt? other)
    (hexist : ∃ w, s.variableAt? ref = some w)
    (hcall : ∀ call, s'.call? call = s.call? call) :
    Turns ⟨s, F, C, some cl⟩ ⟨s', F', C', some { cl with saved }⟩ := by
  rw [hl] at honce
  refine .of_vars (fun other => ?_) (fun {other w} hw => ?_) hcall
    (congrArg (List.map Plane.patches) hp) rfl
  · show Turn _ _ (cl.saved.lookup other :: s.planes.map fun p => p.savedVars[other]?)
      (s.variableAt? other) (saved.lookup other :: s'.planes.map fun p => p.savedVars[other]?)
      (s'.variableAt? other)
    rw [hl, hp]
    by_cases ho : other = ref
    · subst ho
      rw [List.lookup_cons_self, lookup_of_notMem (List.nodup_cons.mp honce).1]
      exact .undo hself.symm
    · rw [lookup_cons_of_ne (Ne.symm ho), hother other ho]
      exact .keep
  · by_cases ho : other = ref
    · subst ho
      exact ⟨v, hself⟩
    · exact ⟨w, (hother other ho).trans hw⟩

/-- A plane that is folded down hands what it saved of a variable to the one below, or to no one. -/
theorem of_handed (honce : (cl.saved.map Prod.fst).Nodup) (hl : cl.saved = (ref, v) :: saved)
    (hd : ∀ ds, s'.dataspace? ds = s.dataspace? ds)
    (hp : s'.planes.map Plane.patches = s.planes.map Plane.patches)
    (hother : ∀ other ≠ ref, s'.planes.map (fun p => p.savedVars[other]?) =
      s.planes.map fun p => p.savedVars[other]?)
    (hself : Turn some cl.folds (some v :: s.planes.map fun p => p.savedVars[ref]?)
      (s.variableAt? ref) (none :: s'.planes.map fun p => p.savedVars[ref]?)
      (s.variableAt? ref)) :
    Turns ⟨s, F, C, some cl⟩ ⟨s', F', C', some { cl with saved }⟩ := by
  rw [hl] at honce
  have hvar : ∀ other, s'.variableAt? other = s.variableAt? other := fun other =>
    congrArg (Option.bind · _) (hd other.dataspace)
  refine .of_vars (fun other => ?_) (fun {other w} hw => ⟨w, (hvar other).trans hw⟩)
    (fun call => congrArg (Option.bind · _) (hd call.dataspace)) hp rfl
  show Turn _ cl.folds (cl.saved.lookup other :: s.planes.map fun p => p.savedVars[other]?)
    (s.variableAt? other) (saved.lookup other :: s'.planes.map fun p => p.savedVars[other]?)
    (s'.variableAt? other)
  rw [hl, hvar]
  by_cases ho : other = ref
  · subst ho
    rw [List.lookup_cons_self, lookup_of_notMem (List.nodup_cons.mp honce).1]
    exact hself
  · rw [lookup_cons_of_ne (Ne.symm ho), hother other ho]
    exact .keep

end Account.Turns

/-- Notes move between planes or are taken back, and what they would restore is the same. -/
theorem Nesting.turns {e : Effect} {a b : Account} (h : Nesting e a b) (ha : a.Chained)
    (honce : ∀ cl ∈ a.closing, (cl.saved.map Prod.fst).Nodup) : a.Turns b := by
  cases h with
  | backUp | settle | refile =>
    exact .of_bare (fun ds => congrArg (Option.map Dataspace.bare) (dataspace?_withPlane _ _ ds))
      (planes_map_withPlane _ (by exact fun _ => rfl)) rfl
  | forget | skip => exact .of_bare (fun _ => rfl) rfl rfl
  | enter => exact ⟨fun call => .enter, fun ref => .inl .enter, fun {ref v} hv => ⟨v, hv⟩⟩
  | @pop s F C p rest folds hp =>
    refine ⟨fun call => ?_, fun ref => .inl ?_, fun {ref v} hv => ⟨v, hv⟩⟩
    · show Turn _ false (s.planes.map fun p => p.patches[call]?) _
        (p.patches.toList.lookup call :: rest.map fun p => p.patches[call]?) _
      rw [lookup_toList, hp]
      exact .keep
    · show Turn _ false (s.planes.map fun p => p.savedVars[ref]?) _
        (p.savedVars.toList.lookup ref :: rest.map fun p => p.savedVars[ref]?) _
      rw [lookup_toList, hp]
      exact .keep
  | @resave s F C cl ref v saved p rest hl hf hp hnew =>
    refine .of_handed (honce cl rfl) hl (fun ds => dataspace?_withPlane _ _ ds)
      (planes_map_withPlane _ (by exact fun _ => rfl)) (fun other ho => ?_) ?_
    · rw [planes_withPlane hp, hp, List.map_cons, List.map_cons,
        Plane.savedVars_insert_of_ne p v ho]
    · rw [planes_withPlane hp, hp, List.map_cons, List.map_cons, Plane.savedVars_insert_self,
        Plane.savedVars_of_not_contains hnew, hf]
      exact .hand
  | @unsave s F C cl ref v saved hl hf hno =>
    refine .of_handed (honce cl rfl) hl (fun _ => rfl) rfl (fun _ _ => rfl) ?_
    rw [hf]
    cases hp : s.planes with
    | nil => exact .forget
    | cons p rest =>
      obtain ⟨w, hw⟩ := Plane.savedVars_of_contains (hno p (by rw [hp]; rfl))
      rw [List.map_cons, hw]
      exact .fold rfl
  | @record s s' F C cl call patch patches out hl hf h =>
    -- The closing plane has one patch for each callout, so this is its only one.
    have hnodup : (((call, patch) :: patches).map Prod.fst).Nodup := hl ▸ ha.once
    obtain ⟨hnot, -⟩ := List.nodup_cons.mp hnodup
    have hchain : CallPatch.Chain (patchesIn cl.patches call ++ patchesOn s.planes call)
      (s.call? call) := ha.chain call
    rw [hl, patchesIn_cons_self, patchesIn_eq_nil hnot] at hchain
    refine .of_calls (fun other => ?_) (fun ref => h.variableAt? ref) h.savedVars rfl
    rw [show Account.folding ⟨s, F, C, some cl⟩ = true from hf]
    exact h.turn_fold hl hnot hchain.1 other
  | @restore s' s F C cl b ledger c values u hl hf hc he h =>
    have hal := alike_addImports h
    exact .of_bare hal.dataspace (by rw [hal.planes]; rfl) rfl
  | @restoreVariable s t F C cl ref v current saved u hl hf h hcur =>
    have hal := alike_addImport h
    have hvar : ∀ other, t.variableAt? other = s.variableAt? other := fun other =>
      variableAt?_of_bare (hal.dataspace _)
    refine .of_restored (honce cl rfl) hl hal.planes (variableAt?_withVariable_self hcur)
      (fun other ho => (variableAt?_withVariable_of_ne ho).trans (hvar other))
      ⟨current, (hvar ref).symm.trans hcur⟩ fun call => ?_
    exact call?_withVariable.trans (call?_of_bare (hal.dataspace _))
  | @unwindAdded s F C cl call added patches hl hf hcur =>
    refine .of_unwound ha hl rfl ?_ (fun other ho => ?_) fun ref => variableAt?_withCallouts _ _ _ _
    · rw [call?_withCallouts_erase, if_pos rfl]
      rfl
    · rw [call?_withCallouts_erase, if_neg ho]
  | @unwindRemoved s' s F C cl call old d patches u hl hf hd h =>
    have hal := alike_addImport h
    refine .of_unwound ha hl hal.planes ?_ (fun other ho => ?_) fun ref =>
      (variableAt?_of_bare (hal.dataspace _)).trans (variableAt?_withCallouts _ _ _ _)
    · rw [call?_of_bare (hal.dataspace _), call?_withCallouts_insert hd, if_pos rfl]
      rfl
    · rw [call?_of_bare (hal.dataspace _), call?_withCallouts_insert hd, if_neg ho]
  | @unwindReplaced s' s F C cl call old new patches u hl hf hcur h =>
    have hal := alike_addImport h
    obtain ⟨d, hd, -⟩ := Option.bind_eq_some_iff.mp hcur
    refine .of_unwound ha hl hal.planes ?_ (fun other ho => ?_) fun ref =>
      (variableAt?_of_bare (hal.dataspace _)).trans (variableAt?_withCallouts _ _ _ _)
    · rw [call?_of_bare (hal.dataspace _), call?_withCallouts_insert hd, if_pos rfl]
      rfl
    · rw [call?_of_bare (hal.dataspace _), call?_withCallouts_insert hd, if_neg ho]
  | @finish s F C cl hl =>
    refine ⟨fun call => ?_, fun ref => .inl ?_, fun {ref v} hv => ⟨v, hv⟩⟩
    · show Turn _ _ (cl.patches.lookup call :: s.planes.map fun p => p.patches[call]?) _
        (s.planes.map fun p => p.patches[call]?) _
      rw [hl.2.2.1]
      exact .left
    · show Turn _ _ (cl.saved.lookup ref :: s.planes.map fun p => p.savedVars[ref]?) _
        (s.planes.map fun p => p.savedVars[ref]?) _
      rw [hl.2.1]
      exact .left

/-! ## Every step -/

/-- What planes saved of variables is of variables that are there, and each is saved once. -/
structure Account.Saved (a : Account) : Prop where
  stored : ∀ {ref v}, some v ∈ a.saves ref → ∃ w, a.store.variableAt? ref = some w
  once : ∀ cl ∈ a.closing, (cl.saved.map Prod.fst).Nodup

/-- Whatever a step does, the notes take it back. -/
theorem Step.turns {e : Effect} {a b : Account} (h : Step e a b) (hacc : a.Accounted)
    (hn : a.Numbered) (hc : a.Chained) (ha : a.Saved) : a.Turns b := by
  cases h with
  | traffic h => exact h.turns hacc.stored
  | upkeep h => cases h <;> exact .of_bare (fun _ => rfl) rfl rfl
  | change h => cases h <;> exact .of_bare (fun _ => rfl) rfl rfl
  | creation h => exact h.turns hacc.balanced.containers
  | writing h => exact h.turns hn
  | nesting h => exact h.turns hc ha.once
  | transfer h =>
    obtain ⟨c, -, hal⟩ := h.alike
    refine .of_bare hal.dataspace (by rw [hal.planes]; rfl) ?_
    cases h
    rfl

/-- What is remembered after a step was remembered before, or is what was there. -/
theorem Turn.remembers {μ ν : Type} {back : μ → ν} {folds : Bool} {ms ms' : List (Option μ)}
    {now now' : ν} {m : μ} (h : Turn back folds ms now ms' now') (hm : some m ∈ ms') :
    (∃ m', some m' ∈ ms) ∨ back m = now := by
  cases h with
  | keep => exact .inl ⟨m, hm⟩
  | change => cases hm
  | first h =>
    rcases List.mem_cons.mp hm with he | hm
    · cases he
      exact .inr h
    · exact .inl ⟨m, List.mem_cons_of_mem _ hm⟩
  | left => exact .inl ⟨m, List.mem_cons_of_mem _ hm⟩
  | enter => exact .inl ⟨m, (List.mem_cons.mp hm).resolve_left nofun⟩
  | forget | hand | fold | cancel | undo | again => exact .inl ⟨_, List.mem_cons_self⟩

/-- A step that folds down or undoes takes its notes off the closing plane. -/
theorem Step.saved_once {e : Effect} {a b : Account} (h : Step e a b)
    (ha : ∀ cl ∈ a.closing, (cl.saved.map Prod.fst).Nodup) :
    ∀ cl ∈ b.closing, (cl.saved.map Prod.fst).Nodup := by
  cases h with
  | traffic h => cases h <;> exact ha
  | upkeep h => cases h <;> exact ha
  | change h => cases h <;> exact ha
  | creation h => cases h <;> exact ha
  | writing h => cases h <;> exact ha
  | transfer h => cases h; exact ha
  | nesting h =>
    cases h with
    | backUp | enter | finish => nofun
    | @pop s F C p rest folds hp =>
      rintro cl ⟨⟩
      exact nodup_toList p.savedVars
    | refile | forget | settle | skip | record | restore | unwindAdded | unwindRemoved
      | unwindReplaced =>
      rintro cl ⟨⟩
      have hn := ha _ rfl
      exact hn
    | resave hl | unsave hl | restoreVariable hl =>
      rintro cl ⟨⟩
      have hn := ha _ rfl
      rw [hl] at hn
      exact (List.nodup_cons.mp hn).2

/-- Every step leaves a plane with one saved value for each variable. -/
theorem Step.saved {e : Effect} {a b : Account} (h : Step e a b) (hacc : a.Accounted)
    (hn : a.Numbered) (hc : a.Chained) (ha : a.Saved) : b.Saved where
  stored {ref v} hv := by
    have ht := h.turns hacc hn hc ha
    have hstored : ∃ w, a.store.variableAt? ref = some w := by
      rcases ht.var ref with hturn | ⟨-, hsame⟩
      · rcases hturn.remembers hv with ⟨w, hw⟩ | hnow
        · exact ha.stored hw
        · exact ⟨v, hnow.symm⟩
      · exact ha.stored (hsame ▸ hv)
    obtain ⟨w, hw⟩ := hstored
    exact ht.exist hw
  once := h.saved_once ha.once

/-! ## What planes remember is what was -/

/-- The effects of steps that do not fold down the plane of a level and leave it on the stack. -/
def Effect.Spares (level : Nat) : Effect → Prop
  | .leave folds n => level ≤ n ∧ (folds = true → level < n)
  | .left n => level < n
  | _ => True

/-- The plane of a level is there, and it is not the one that is folded down. -/
structure Account.Reaches (a : Account) (level : Nat) : Prop where
  pos : 0 < level
  le : level ≤ a.depth
  lt : a.folding = true → level < a.depth

/-- Whether a plane is closing, and how. -/
theorem Step.folds {e : Effect} {a b : Account} (h : Step e a b)
    (he : (∀ folds n, e ≠ .leave folds n) ∧ ∀ n, e ≠ .left n) :
    b.closing.map Closing.folds = a.closing.map Closing.folds := by
  cases h with
  | traffic h => cases h <;> rfl
  | upkeep h => cases h <;> rfl
  | change h => cases h <;> rfl
  | creation h => cases h <;> rfl
  | writing h => cases h <;> rfl
  | transfer h => cases h; rfl
  | nesting h =>
    cases h with
    | pop folds => exact absurd rfl (he.1 folds _)
    | finish => exact absurd rfl (he.2 _)
    | _ => rfl

/-- What is reached depends on the level alone. -/
theorem Account.Reaches.congr {a b : Account} {level : Nat} (ha : a.Reaches level)
    (hlevel : b.store.level = a.store.level)
    (hq : b.closing.map Closing.folds = a.closing.map Closing.folds) : b.Reaches level := by
  have hdepth : b.depth = a.depth := by
    have hlen := congrArg (fun o : Option Bool => o.toList.length) hq
    simp only [Option.length_toList, Option.isSome_map] at hlen
    unfold depth
    rw [hlevel, Option.length_toList, Option.length_toList, hlen]
  have hfold : b.folding = a.folding := by
    have hany := congrArg (Option.any id) hq
    rw [Option.any_map, Option.any_map] at hany
    exact hany
  exact ⟨ha.pos, hdepth ▸ ha.le, fun hf => hdepth ▸ ha.lt (hfold ▸ hf)⟩

/-- A step that spares a level does not leave it. -/
theorem Step.reaches {e : Effect} {a b : Account} {level : Nat} (h : Step e a b)
    (hacc : a.Accounted) (hd : a.Disciplined) (he : e.Spares level) (ha : a.Reaches level) :
    b.Reaches level := by
  have hother : (e ≠ .enter ∧ ∀ folds n, e ≠ .leave folds n) → (∀ n, e ≠ .left n) →
      b.Reaches level := fun h₁ h₂ => ha.congr (h.level hacc h₁) (h.folds ⟨h₁.2, h₂⟩)
  have hnesting : Nesting e a b ∨ (e ≠ .enter ∧ ∀ folds n, e ≠ .leave folds n) ∧
      ∀ n, e ≠ .left n := by
    cases h with
    | nesting h => exact .inl h
    | traffic => exact .inr ⟨⟨nofun, nofun⟩, nofun⟩
    | upkeep h => cases h <;> exact .inr ⟨⟨nofun, nofun⟩, nofun⟩
    | change => exact .inr ⟨⟨nofun, nofun⟩, nofun⟩
    | creation h => cases h <;> exact .inr ⟨⟨nofun, nofun⟩, nofun⟩
    | writing h => cases h <;> exact .inr ⟨⟨nofun, nofun⟩, nofun⟩
    | transfer => exact .inr ⟨⟨nofun, nofun⟩, nofun⟩
  rcases hnesting with h | ⟨h₁, h₂⟩
  · cases h with
    | @enter s F C hroom =>
      have hle : level ≤ s.level + 0 := ha.le
      refine ⟨ha.pos, ?_, nofun⟩
      show level ≤ (s.level + 1) + 0
      omega
    | @pop s F C p rest folds hp =>
      have hle : level ≤ s.level + 0 := ha.le
      have hlen : s.level = rest.length + 1 := by
        unfold Store.level
        rw [hp]
        rfl
      refine ⟨ha.pos, ?_, fun hf => ?_⟩
      · show level ≤ rest.length + 1
        omega
      · have hlt := he.2 hf
        show level < rest.length + 1
        omega
    | @finish s F C cl hl =>
      have hlevel : cl.level = s.level + 1 := (hd.closing cl rfl).1
      have hlt : level < cl.level := he
      refine ⟨ha.pos, ?_, nofun⟩
      show level ≤ s.level + 0
      omega
    | _ => exact hother ⟨nofun, nofun⟩ nofun
  · exact hother h₁ h₂

variable {e : Effect} {a b : Account} {level : Nat}

/-- What a call was when the plane of a level was entered. -/
def Account.callAt (a : Account) (level : Nat) (call : CallRef) : Option DeferredCall :=
  rewindTo CallPatch.before level (a.patches call) (a.store.call? call)

/-- What a variable was when the plane of a level was entered. -/
def Account.variableAt (a : Account) (level : Nat) (ref : VariableRef) : Option Value :=
  rewindTo some level (a.saves ref) (a.store.variableAt? ref)

/-- A step that spares a level changes nothing in the calls that it would restore. -/
theorem Step.callAt (h : Step e a b) (hacc : a.Accounted) (hn : a.Numbered) (hc : a.Chained)
    (hs : a.Saved) (ha : a.Reaches level) (call : CallRef) :
    b.callAt level call = a.callAt level call :=
  ((h.turns hacc hn hc hs).call call).rewindTo_eq ha.pos
  (by rw [Account.length_patches]; exact ha.le)
    fun hf => by rw [Account.length_patches]; exact ha.lt hf

/-- A step that spares a level changes nothing in the variables that it would restore. -/
theorem Step.variableAt (h : Step e a b) (hacc : a.Accounted) (hn : a.Numbered) (hc : a.Chained)
    (hs : a.Saved) (ha : a.Reaches level) {ref : VariableRef} {v : Value}
    (hv : a.store.variableAt? ref = some v) : b.variableAt level ref = a.variableAt level ref := by
  rcases (h.turns hacc hn hc hs).var ref with hturn | ⟨hnone, -⟩
  · exact hturn.rewindTo_eq ha.pos (by rw [Account.length_saves]; exact ha.le)
      fun hf => by rw [Account.length_saves]; exact ha.lt hf
  · rw [hnone] at hv
    cases hv

end PlaneStore
