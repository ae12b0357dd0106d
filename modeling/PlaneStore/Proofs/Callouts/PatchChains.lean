import PlaneStore.Proofs.Callouts.CallNumbers

/-!
# Patches chain up

The patches that planes have for one call follow each other: each says of the call what it was when
the one above it was begun, and the innermost what it is now. That is why any two that meet can be
folded, and why a call can be put back where a patch says it was removed.
-/

namespace PlaneStore

open Store

namespace CallPatch

/-- The patches of a call, the latest in front, follow each other up to what the call is now. -/
def Chain : List CallPatch → Option DeferredCall → Prop
  | [], _ => True
  | p :: ps, now => p.Fits p.before now ∧ Chain ps p.before

/-- What a call was before all of its patches. -/
def rewind : List CallPatch → Option DeferredCall → Option DeferredCall
  | [], now => now
  | p :: ps, _ => rewind ps p.before

theorem Fits.eq_before {p : CallPatch} {x now : Option DeferredCall} (h : p.Fits x now) :
    x = p.before := by
  cases h <;> rfl

/-- Where two patches follow each other, the fold takes their place. -/
theorem Chain.fold {e p : CallPatch} {fold : Fold} {ps : List CallPatch}
    {now : Option DeferredCall} (h : Chain (p :: e :: ps) now) (hf : e.fold? p = some fold) :
    Chain (fold.patch.toList ++ ps) now ∧
      rewind (fold.patch.toList ++ ps) now = rewind (p :: e :: ps) now := by
  obtain ⟨hp, he, hps⟩ := h
  obtain ⟨fold', hf', hsaid⟩ := he.fold? hp
  obtain rfl := Option.some.inj (hf.symm.trans hf')
  cases hr : fold.patch with
  | none =>
    rw [hr] at hsaid
    obtain ⟨hbefore, hnow⟩ := hsaid
    have hsame : now = e.before := hnow.trans hbefore.symm
    simp only [Option.toList_none, List.nil_append, rewind, hsame]
    exact ⟨hps, trivial⟩
  | some r =>
    rw [hr] at hsaid
    have hbefore : r.before = e.before := hsaid.eq_before.symm
    simp only [Option.toList_some, List.singleton_append, Chain, rewind, hbefore]
    exact ⟨⟨hsaid, hps⟩, trivial⟩

end CallPatch

/-! ## The patches of one call -/

/-- The patches of a call on a stack of planes, the innermost in front. -/
def patchesOn (planes : List Plane) (call : CallRef) : List CallPatch :=
  planes.filterMap (·.patches[call]?)

/-- The patches of a call in a list. -/
def patchesIn (patches : List (CallRef × CallPatch)) (call : CallRef) : List CallPatch :=
  patches.filterMap fun x => if x.1 = call then some x.2 else none

theorem patchesOn_cons (p : Plane) (planes : List Plane) (call : CallRef) :
    patchesOn (p :: planes) call = p.patches[call]?.toList ++ patchesOn planes call := by
  unfold patchesOn
  rw [List.filterMap_cons]
  cases p.patches[call]? <;> rfl

/-- The patches of a call depend on the patches of the planes alone. -/
theorem patchesOn_congr {planes planes' : List Plane}
    (h : planes'.map Plane.patches = planes.map Plane.patches) (call : CallRef) :
    patchesOn planes' call = patchesOn planes call := by
  have hmap : ∀ ps : List Plane, patchesOn ps call =
      (ps.map Plane.patches).filterMap (·[call]?) := fun ps => by
    rw [List.filterMap_map]
    rfl
  rw [hmap, hmap, h]

theorem patchesIn_cons_self (call : CallRef) (patch : CallPatch)
    (patches : List (CallRef × CallPatch)) :
    patchesIn ((call, patch) :: patches) call = patch :: patchesIn patches call := by
  simp [patchesIn]

theorem patchesIn_cons_of_ne {call other : CallRef} (h : call ≠ other) (patch : CallPatch)
    (patches : List (CallRef × CallPatch)) :
    patchesIn ((call, patch) :: patches) other = patchesIn patches other := by
  simp [patchesIn, h]

theorem patchesIn_eq_nil {patches : List (CallRef × CallPatch)} {call : CallRef}
    (h : call ∉ patches.map Prod.fst) : patchesIn patches call = [] := by
  refine List.filterMap_eq_nil_iff.mpr fun x hx => if_neg ?_
  rintro rfl
  exact h (List.mem_map_of_mem hx)

/-- Of distinct calls each has one patch at most. -/
theorem patchesIn_of_mem {patches : List (CallRef × CallPatch)} {call : CallRef}
    {patch : CallPatch} (hn : (patches.map Prod.fst).Nodup) (h : (call, patch) ∈ patches) :
    patchesIn patches call = [patch] := by
  induction patches with
  | nil => cases h
  | cons x rest ih =>
    obtain ⟨c, p⟩ := x
    obtain ⟨hnot, hrest⟩ := List.nodup_cons.mp hn
    rcases List.mem_cons.mp h with he | hmem
    · obtain ⟨rfl, rfl⟩ := Prod.mk.inj he
      rw [patchesIn_cons_self, patchesIn_eq_nil hnot]
    · have hne : c ≠ call := by
        rintro rfl
        exact hnot (List.mem_map.mpr ⟨_, hmem, rfl⟩)
      rw [patchesIn_cons_of_ne hne]
      exact ih hrest hmem

theorem Plane.patches_nodup (p : Plane) : (p.patches.toList.map Prod.fst).Nodup := by
  have h := Std.TreeMap.distinct_keys_toList (t := p.patches)
  refine List.pairwise_map.mpr (h.imp fun hne he => hne ?_)
  rw [he]
  exact Std.ReflCmp.compare_self

theorem patchesIn_toList (p : Plane) (call : CallRef) :
    patchesIn p.patches.toList call = p.patches[call]?.toList := by
  cases h : p.patches[call]? with
  | some patch =>
    exact patchesIn_of_mem p.patches_nodup (Std.TreeMap.mem_toList_iff_getElem?_eq_some.mpr h)
  | none =>
    refine patchesIn_eq_nil fun hmem => ?_
    obtain ⟨⟨c, patch⟩, hx, rfl⟩ := List.mem_map.mp hmem
    rw [Std.TreeMap.mem_toList_iff_getElem?_eq_some.mp hx] at h
    cases h

namespace Account

/-- The patches that a closing plane has left. -/
def closingPatches (q : Option Closing) : List (CallRef × CallPatch) :=
  (q.map Closing.patches).getD []

/-- All patches of a call, the latest in front. -/
def patchesOf (a : Account) (call : CallRef) : List CallPatch :=
  patchesIn (closingPatches a.closing) call ++ patchesOn a.store.planes call

/-- The patches of every call follow each other. -/
structure Chained (a : Account) : Prop where
  chain : ∀ call, CallPatch.Chain (a.patchesOf call) (a.store.call? call)
  once : ((closingPatches a.closing).map Prod.fst).Nodup

end Account

/-! ## Recording keeps the chain -/

namespace Store.Recorded

variable {s s' : Store} {call : CallRef} {patch : CallPatch} {out : List Value}

/-- What a recorded patch does to the stack of planes. -/
theorem planes_cases (h : Recorded call patch s out s') :
    (s.planes = [] ∧ s'.planes = []) ∨
      ∃ p rest p', s.planes = p :: rest ∧ s'.planes = p' :: rest ∧
        (∀ other ≠ call, p'.patches[other]? = p.patches[other]?) ∧
        ((p.patches[call]? = none ∧ p'.patches[call]? = some patch) ∨
          ∃ earlier fold, p.patches[call]? = some earlier ∧ earlier.fold? patch = some fold ∧
            p'.patches[call]? = fold.patch) := by
  have hne : ∀ other, other ≠ call → compare call other ≠ .eq :=
    fun other h he => h (Std.LawfulEqOrd.eq_of_compare he).symm
  cases h with
  | told hp => exact Or.inl ⟨hp, hp⟩
  | filed p rest hp hnone =>
    refine Or.inr ⟨p, rest, _, hp, planes_withPlane hp _, fun other ho => ?_, Or.inl ⟨hnone, ?_⟩⟩
    · rw [Std.TreeMap.getElem?_insert, if_neg (hne other ho)]
    · rw [Std.TreeMap.getElem?_insert_self]
  | folded p rest earlier later o hp hsome hfold =>
    refine Or.inr ⟨p, rest, _, hp, planes_withPlane hp _, fun other ho => ?_,
      Or.inr ⟨earlier, _, hsome, hfold, ?_⟩⟩
    · rw [Std.TreeMap.getElem?_insert, if_neg (hne other ho)]
    · rw [Std.TreeMap.getElem?_insert_self]
  | cancelled p rest earlier o hp hsome hfold =>
    refine Or.inr ⟨p, rest, _, hp, planes_withPlane hp _, fun other ho => ?_,
      Or.inr ⟨earlier, _, hsome, hfold, ?_⟩⟩
    · rw [Std.TreeMap.getElem?_erase, if_neg (hne other ho)]
    · rw [Std.TreeMap.getElem?_erase_self]

/-- The patches of other calls stay where they are. -/
theorem patchesOn_of_ne (h : Recorded call patch s out s') {other : CallRef} (ho : other ≠ call) :
    patchesOn s'.planes other = patchesOn s.planes other := by
  rcases h.planes_cases with ⟨h₁, h₂⟩ | ⟨p, rest, p', h₁, h₂, hother, -⟩
  · rw [h₁, h₂]
  · rw [h₁, h₂, patchesOn_cons, patchesOn_cons, hother other ho]

/-- The patch joins the chain of its call. -/
theorem chain (h : Recorded call patch s out s') {now : Option DeferredCall}
    (hc : CallPatch.Chain (patch :: patchesOn s.planes call) now) :
    CallPatch.Chain (patchesOn s'.planes call) now := by
  rcases h.planes_cases with ⟨-, h₂⟩ | ⟨p, rest, p', h₁, h₂, -, hcall⟩
  · rw [h₂]
    trivial
  · rw [h₁, patchesOn_cons] at hc
    rw [h₂, patchesOn_cons]
    rcases hcall with ⟨hnone, hsome⟩ | ⟨earlier, fold, hsome, hfold, hafter⟩
    · rw [hnone] at hc
      rw [hsome]
      exact hc
    · rw [hsome] at hc
      rw [hafter]
      exact (hc.fold hfold).1

theorem call?_eq (h : Recorded call patch s out s') (other : CallRef) :
    s'.call? other = s.call? other :=
  call?_of_bare (by rw [show s'.dataspace? other.dataspace = s.dataspace? other.dataspace by
    unfold dataspace?
    rw [h.fields.2.2.1]])

end Store.Recorded

/-! ## Every step keeps the chains -/

namespace Account.Chained

variable {a b : Account}

/-- Nothing changes where calls and patches stay. -/
theorem of_same (ha : a.Chained) (hc : ∀ call, b.store.call? call = a.store.call? call)
    (hp : b.store.planes.map Plane.patches = a.store.planes.map Plane.patches)
    (hq : Account.closingPatches b.closing = Account.closingPatches a.closing) : b.Chained where
  chain call := by
    rw [hc, patchesOf, hq, patchesOn_congr hp]
    exact ha.chain call
  once := by
    rw [hq]
    exact ha.once

/-- Chains depend on callout tables and patches alone. -/
theorem of_bare (ha : a.Chained)
    (hd : ∀ ds, (b.store.dataspace? ds).map Dataspace.bare =
      (a.store.dataspace? ds).map Dataspace.bare)
    (hp : b.store.planes.map Plane.patches = a.store.planes.map Plane.patches)
    (hq : Account.closingPatches b.closing = Account.closingPatches a.closing) : b.Chained :=
  ha.of_same (fun _ => call?_of_bare (hd _)) hp hq

/-- A change of one call goes on its chain. -/
theorem recorded {s t s' : Store} {F F' : Refs} {C C' : Charges} {q q' : Option Closing}
    {call : CallRef} {patch : CallPatch} {out : List Value} (ha : Account.Chained ⟨s, F, C, q⟩)
    (h : Recorded call patch t out s') (hp : t.planes = s.planes)
    (hother : ∀ other ≠ call, t.call? other = s.call? other ∧
      patchesIn (Account.closingPatches q') other = patchesIn (Account.closingPatches q) other)
    (hcall : CallPatch.Chain (patch :: patchesOn s.planes call) (t.call? call))
    (hnone : patchesIn (Account.closingPatches q') call = [])
    (honce : ((Account.closingPatches q').map Prod.fst).Nodup) :
    Account.Chained ⟨s', F', C', q'⟩ where
  chain other := by
    show CallPatch.Chain (_ ++ patchesOn s'.planes other) (s'.call? other)
    rw [h.call?_eq]
    by_cases ho : other = call
    · subst ho
      rw [hnone, List.nil_append]
      exact h.chain (by rw [hp]; exact hcall)
    · rw [h.patchesOn_of_ne ho, hp, (hother other ho).1, (hother other ho).2]
      exact ha.chain other
  once := honce

end Account.Chained

theorem Traffic.chained {a b : Account} (h : Traffic a b) (hs : a.store.Stored)
    (ha : a.Chained) : b.Chained := by
  have hw := h.wanes hs
  have hclosing : b.closing = a.closing := by
    cases h <;> rfl
  have hp := congrArg (List.map Plane.patches) hw.planes
  have hbare : Plane.patches ∘ Plane.bare = Plane.patches := rfl
  rw [List.map_map, List.map_map, hbare] at hp
  exact ha.of_bare hw.dataspace hp (by rw [hclosing])

theorem Creation.chained {e : Effect} {a b : Account} (h : Creation e a b)
    (hs : a.store.heap.containers.Sound) (ha : a.Chained) : b.Chained := by
  cases h with
  | @container t s F C owner kind values u hv hm h =>
    have hal := alike_link_new hs rfl h
    refine ha.of_bare (fun ds => ?_) ?_ rfl
    · show ((t.withPlane _).dataspace? ds).map _ = _
      rw [dataspace?_withPlane]
      exact hal.dataspace ds
    · refine (planes_map_withPlane t ?_).trans ?_
      · exact fun p => rfl
      · rw [hal.planes]
        rfl
  | retag | string | spawn | destroy => exact ha.of_bare (fun _ => rfl) rfl rfl
  | @dataspace s F n => exact ha.of_same (call?_founded s n) rfl rfl

namespace Account.Chained

variable {s : Store} {F : Refs} {C : Charges} {call : CallRef} {old : DeferredCall}

/-- The number of a call that is added is on no plane, so its chain starts here. -/
theorem added {ds : DataspaceId} {d : Dataspace} (ha : Account.Chained ⟨s, F, C, none⟩)
    (hn : Account.Numbered ⟨s, F, C, none⟩) (hd : s.dataspace? ds = some d) (new : DeferredCall) :
    CallPatch.Chain (.added :: patchesOn s.planes ⟨ds, ⟨d.nextHandle⟩⟩) (some new) := by
  refine ⟨.added new, ?_⟩
  have hc := ha.chain ⟨ds, ⟨d.nextHandle⟩⟩
  rw [hn.call?_next hd] at hc
  exact hc

theorem removed (ha : Account.Chained ⟨s, F, C, none⟩) (hold : s.call? call = some old) :
    CallPatch.Chain (.removed old :: patchesOn s.planes call) none := by
  refine ⟨.removed old, ?_⟩
  have hc := ha.chain call
  rwa [show (Account.mk s F C none).store.call? call = some old from hold] at hc

/-- A call that is replaced was pending, and is pending afterwards. -/
theorem replaced (ha : Account.Chained ⟨s, F, C, none⟩) (hold : s.call? call = some old)
    (new : DeferredCall) :
    CallPatch.Chain (.replaced old :: patchesOn s.planes call) (some new) := by
  refine ⟨.replaced old new, ?_⟩
  have hc := ha.chain call
  rwa [show (Account.mk s F C none).store.call? call = some old from hold] at hc

end Account.Chained

theorem Writing.chained {e : Effect} {a b : Account} (h : Writing e a b) (hn : a.Numbered)
    (ha : a.Chained) :
    b.Chained := by
  cases h with
  | write => exact ha.of_same (fun _ => call?_withVariable) rfl rfl
  | @firstWrite t s F C ref v old p rest u hold hv hp hnew h =>
    have hal := alike_dropImport h
    refine ha.of_same (fun call => ?_) ?_ rfl
    · show (t.withPlane _).call? call = _
      rw [call?_withPlane, call?_of_bare (hal.dataspace _), call?_withVariable]
    · refine (planes_map_withPlane t (by exact fun _ => rfl)).trans ?_
      rw [hal.planes]
      rfl
  | @addCall s' s F C ds d due payload out hd hv h =>
    refine ha.recorded h rfl (fun other ho => ⟨?_, rfl⟩) ?_ rfl List.nodup_nil
    · rw [call?_added hd, if_neg ho]
    · rw [call?_added hd, if_pos rfl]
      exact ha.added hn hd _
  | @removeCall t s' s F C call old out u hold h₁ h₂ =>
    have hal := alike_dropImport h₁
    refine ha.recorded h₂ hal.planes (fun other ho => ⟨?_, rfl⟩) ?_ rfl List.nodup_nil
    · rw [call?_of_bare (hal.dataspace _), call?_withCallouts_erase, if_neg ho]
    · rw [call?_of_bare (hal.dataspace _), call?_withCallouts_erase, if_pos rfl]
      exact ha.removed hold
  | @replaceCall t s' s F C call old new out u hold hv h₁ h₂ =>
    have hal := alike_dropImport h₁
    obtain ⟨d, hd, -⟩ := Option.bind_eq_some_iff.mp hold
    refine ha.recorded h₂ hal.planes (fun other ho => ⟨?_, rfl⟩) ?_ rfl List.nodup_nil
    · rw [call?_of_bare (hal.dataspace _), call?_withCallouts_insert hd, if_neg ho]
    · rw [call?_of_bare (hal.dataspace _), call?_withCallouts_insert hd, if_pos rfl]
      exact ha.replaced hold new

/-- A call that a closing plane puts back is not pending. -/
theorem Account.Chained.unwound_removed {s : Store} {F : Refs} {C : Charges} {cl : Closing}
    {call : CallRef} {old : DeferredCall} {patches : List (CallRef × CallPatch)}
    (ha : Account.Chained ⟨s, F, C, some cl⟩) (hl : cl.patches = (call, .removed old) :: patches) :
    s.call? call = none := by
  have hc := ha.chain call
  unfold Account.patchesOf at hc
  rw [show Account.closingPatches (some cl) = (call, .removed old) :: patches from hl,
    patchesIn_cons_self] at hc
  obtain ⟨hfits, -⟩ := hc
  cases hnow : s.call? call with
  | none => rfl
  | some c =>
    rw [show (Account.mk s F C (some cl)).store.call? call = some c from hnow] at hfits
    cases hfits

/-- What is left of the patches once one is taken off. -/
theorem Account.Chained.unwound {s s' : Store} {F F' : Refs} {C C' : Charges} {cl : Closing}
    {call : CallRef} {patch : CallPatch} {patches : List (CallRef × CallPatch)}
    (ha : Account.Chained ⟨s, F, C, some cl⟩) (hl : cl.patches = (call, patch) :: patches)
    (hp : s'.planes = s.planes) (hcall : s'.call? call = patch.before)
    (hother : ∀ other ≠ call, s'.call? other = s.call? other) :
    Account.Chained ⟨s', F', C', some { cl with patches }⟩ := by
  have honce := ha.once
  rw [show Account.closingPatches (some cl) = (call, patch) :: patches from hl] at honce
  obtain ⟨hnot, hrest⟩ := List.nodup_cons.mp honce
  refine ⟨fun other => ?_, hrest⟩
  have hc := ha.chain other
  unfold Account.patchesOf at hc ⊢
  rw [show Account.closingPatches (some cl) = (call, patch) :: patches from hl] at hc
  show CallPatch.Chain (patchesIn patches other ++ patchesOn s'.planes other) (s'.call? other)
  rw [hp]
  by_cases ho : other = call
  · subst ho
    rw [patchesIn_cons_self, patchesIn_eq_nil hnot] at hc
    rw [patchesIn_eq_nil hnot, hcall]
    exact hc.2
  · rw [patchesIn_cons_of_ne (Ne.symm ho)] at hc
    rw [hother other ho]
    exact hc

theorem Nesting.chained {e : Effect} {a b : Account} (h : Nesting e a b) (ha : a.Chained) :
    b.Chained := by
  -- Only planes and callout tables matter: patches move between planes, or one is taken back.
  cases h with
  | backUp | settle | refile | resave =>
    exact ha.of_bare (fun ds => congrArg (Option.map Dataspace.bare) (dataspace?_withPlane _ _ ds))
      (planes_map_withPlane _ (by exact fun _ => rfl)) rfl
  | @enter s F C hroom =>
    refine ⟨fun call => ?_, List.nodup_nil⟩
    have hc := ha.chain call
    unfold Account.patchesOf at hc ⊢
    rw [show (Account.mk { s with planes := {} :: s.planes } F C none).store.planes =
      {} :: s.planes from rfl, patchesOn_cons]
    exact hc
  | @pop s F C p rest folds hp =>
    refine ⟨fun call => ?_, p.patches_nodup⟩
    have hc := ha.chain call
    unfold Account.patchesOf at hc ⊢
    rw [show (Account.mk s F C none).store.planes = p :: rest from hp, patchesOn_cons,
      ← patchesIn_toList] at hc
    exact hc
  | forget | skip | unsave => exact ha.of_bare (fun _ => rfl) rfl rfl
  | @record s s' F C cl call patch patches out hl hf h =>
    have hpatches : Account.closingPatches (some cl) = (call, patch) :: patches := hl
    have honce := ha.once
    rw [show Account.closingPatches (Account.mk s F C (some cl)).closing = _ from hl] at honce
    obtain ⟨hnot, hrest⟩ := List.nodup_cons.mp honce
    refine ha.recorded h rfl (fun other ho => ⟨rfl, ?_⟩) ?_ (patchesIn_eq_nil hnot) hrest
    · rw [hpatches, patchesIn_cons_of_ne (Ne.symm ho)]
      rfl
    · have hc := ha.chain call
      unfold Account.patchesOf at hc
      rw [hpatches, patchesIn_cons_self, patchesIn_eq_nil hnot] at hc
      exact hc
  | @restore s' s F C cl b ledger c values u hl hf hc he h =>
    have hal := alike_addImports h
    exact ha.of_bare hal.dataspace (by rw [hal.planes]; rfl) rfl
  | @restoreVariable s t F C cl ref v current saved u hl hf h hcur =>
    have hal := alike_addImport h
    refine ha.of_same (fun call => ?_) ?_ rfl
    · exact call?_withVariable.trans (call?_of_bare (hal.dataspace _))
    · show t.planes.map _ = _
      rw [hal.planes]
  | @unwindAdded s F C cl call added patches hl hf hcur =>
    refine ha.unwound hl rfl ?_ fun other ho => ?_
    · rw [call?_withCallouts_erase, if_pos rfl]
      rfl
    · rw [call?_withCallouts_erase, if_neg ho]
  | @unwindRemoved s' s F C cl call old d patches u hl hf hd h =>
    have hal := alike_addImport h
    refine ha.unwound hl hal.planes ?_ fun other ho => ?_
    · rw [call?_of_bare (hal.dataspace _), call?_withCallouts_insert hd, if_pos rfl]
      rfl
    · rw [call?_of_bare (hal.dataspace _), call?_withCallouts_insert hd, if_neg ho]
  | @unwindReplaced s' s F C cl call old new patches u hl hf hcur h =>
    have hal := alike_addImport h
    obtain ⟨d, hd, -⟩ := Option.bind_eq_some_iff.mp hcur
    refine ha.unwound hl hal.planes ?_ fun other ho => ?_
    · rw [call?_of_bare (hal.dataspace _), call?_withCallouts_insert hd, if_pos rfl]
      rfl
    · rw [call?_of_bare (hal.dataspace _), call?_withCallouts_insert hd, if_neg ho]
  | @finish s F C cl hl => exact ha.of_same (fun _ => rfl) rfl hl.2.2.1.symm

theorem Step.chained {e : Effect} {a b : Account} (h : Step e a b) (hs : a.Accounted)
    (hn : a.Numbered) (ha : a.Chained) : b.Chained := by
  cases h with
  | traffic h => exact h.chained hs.stored ha
  | upkeep h => cases h <;> exact ha.of_bare (fun _ => rfl) rfl rfl
  | change h => cases h <;> exact ha.of_bare (fun _ => rfl) rfl rfl
  | creation h => exact h.chained hs.balanced.containers ha
  | writing h => exact h.chained hn ha
  | nesting h => exact h.chained ha
  | transfer h =>
    obtain ⟨c, -, hal⟩ := h.alike
    refine ha.of_bare hal.dataspace (by rw [hal.planes]; rfl) ?_
    cases h
    rfl

end PlaneStore
