import PlaneStore.Proofs.Accounts.BalancedTraffic
import PlaneStore.Proofs.References.NewSlots

/-!
# Handles of deferred calls

Handles count up and are not used again: all that are pending, or that a plane has a patch for, are
below the next one. So a new call never takes the place of another.
-/

namespace PlaneStore

open Store

/-- All patches, on planes that are active and on the one that is closing. -/
def Account.Patched (a : Account) (call : CallRef) (patch : CallPatch) : Prop :=
  (∃ cl, a.closing = some cl ∧ (call, patch) ∈ cl.patches) ∨
    ∃ p ∈ a.store.planes, p.patches[call]? = some patch

/-- The handle of a call has been handed out. -/
def Store.Issued (s : Store) (call : CallRef) : Prop :=
  ∃ d, s.dataspace? call.dataspace = some d ∧ call.handle.number < d.nextHandle

/-- How many calls have been added to a dataspace. -/
def Store.numbered (s : Store) (ds : DataspaceId) : Nat :=
  ((s.dataspace? ds).map Dataspace.nextHandle).getD 0

/-- No handle is used that has not been handed out. -/
structure Account.Numbered (a : Account) : Prop where
  pending : ∀ {call : CallRef} {c : DeferredCall}, a.store.call? call = some c → a.store.Issued call
  patched : ∀ {call : CallRef} {patch : CallPatch}, a.Patched call patch → a.store.Issued call

namespace Store

variable {s s' : Store}

/-- Dataspaces that differ in sweep lists and imports only have the same calls. -/
theorem call?_of_bare {call : CallRef}
    (h : (s'.dataspace? call.dataspace).map Dataspace.bare =
      (s.dataspace? call.dataspace).map Dataspace.bare) : s'.call? call = s.call? call := by
  have hc := congrArg (fun o : Option Dataspace => o.bind (·.callouts[call.handle]?)) h
  simp only [Option.bind_map] at hc
  exact hc

/-- Which handles were given out does not depend on imports and sweep lists. -/
theorem Issued.of_bare {call : CallRef} (hi : s.Issued call)
    (h : (s'.dataspace? call.dataspace).map Dataspace.bare =
      (s.dataspace? call.dataspace).map Dataspace.bare) : s'.Issued call := by
  obtain ⟨d, hd, hlt⟩ := hi
  rw [hd] at h
  obtain ⟨d', hd', hbare⟩ := Option.map_eq_some_iff.mp h
  refine ⟨d', hd', ?_⟩
  rw [show d'.nextHandle = d.nextHandle from show d'.bare.nextHandle =
    d.bare.nextHandle by rw [hbare]]
  exact hlt

theorem variableAt?_of_bare {ref : VariableRef}
    (h : (s'.dataspace? ref.dataspace).map Dataspace.bare =
      (s.dataspace? ref.dataspace).map Dataspace.bare) :
    s'.variableAt? ref = s.variableAt? ref := by
  have hc := congrArg (fun o : Option Dataspace => o.bind (·.vars[ref.slot]?)) h
  simp only [Option.bind_map] at hc
  exact hc

theorem call?_withCallouts_self {ds : DataspaceId} {h : CallHandle}
    {f : Std.TreeMap CallHandle DeferredCall → Std.TreeMap CallHandle DeferredCall} :
    (s.withCallouts ds f).call? ⟨ds, h⟩ = (s.dataspace? ds).bind fun d => (f d.callouts)[h]? := by
  unfold call? withCallouts
  rw [dataspace?_withDataspace_self, Option.bind_map]
  rfl

theorem call?_withDataspace_of_ne {ds : DataspaceId} {f : Dataspace → Dataspace} {call : CallRef}
    (h : ds ≠ call.dataspace) : (s.withDataspace ds f).call? call = s.call? call := by
  unfold call?
  rw [dataspace?_withDataspace_of_ne h]

/-- A change that does not touch callout tables touches no calls. -/
theorem call?_withDataspace {ds : DataspaceId} {f : Dataspace → Dataspace}
    (hf : ∀ d, (f d).callouts = d.callouts) (call : CallRef) :
    (s.withDataspace ds f).call? call = s.call? call := by
  have hmap : ((s.withDataspace ds f).dataspace? call.dataspace).map Dataspace.callouts =
      (s.dataspace? call.dataspace).map Dataspace.callouts :=
    map_dataspace?_withDataspace hf call.dataspace
  have h := congrArg (Option.bind · (·[call.handle]?)) hmap
  rwa [Option.bind_map, Option.bind_map] at h

/-- A change of one entry of a callout table leaves other calls alone. -/
theorem call?_withCallouts_of_ne {call other : CallRef}
    {f : Std.TreeMap CallHandle DeferredCall → Std.TreeMap CallHandle DeferredCall}
    (hne : other ≠ call) (hf : ∀ t h, h ≠ call.handle → (f t)[h]? = t[h]?) :
    (s.withCallouts call.dataspace f).call? other = s.call? other := by
  by_cases hds : call.dataspace = other.dataspace
  · obtain ⟨ds, h⟩ := other
    obtain rfl : call.dataspace = ds := hds
    have hh : h ≠ call.handle := fun he => hne (by rw [he])
    rw [call?_withCallouts_self]
    unfold call?
    cases s.dataspace? call.dataspace with
    | none => rfl
    | some d => exact hf d.callouts h hh
  · exact call?_withDataspace_of_ne hds

/-- A pending call after one of its dataspace was scheduled. -/
theorem call?_withCallouts_insert {call other : CallRef} {c : DeferredCall} {d : Dataspace}
    (hd : s.dataspace? call.dataspace = some d) :
    (s.withCallouts call.dataspace (·.insert call.handle c)).call? other =
      if other = call then some c else s.call? other := by
  by_cases ho : other = call
  · subst ho
    rw [if_pos rfl]
    refine call?_withCallouts_self.trans ?_
    rw [hd, Option.bind_some, Std.TreeMap.getElem?_insert_self]
  · rw [if_neg ho, call?_withCallouts_of_ne ho]
    intro t h hh
    have hne : compare call.handle h ≠ .eq := fun he => hh (Std.LawfulEqOrd.eq_of_compare he).symm
    rw [Std.TreeMap.getElem?_insert, if_neg hne]

/-- A pending call after one of its dataspace was removed. -/
theorem call?_withCallouts_erase {call other : CallRef} :
    (s.withCallouts call.dataspace (·.erase call.handle)).call? other =
      if other = call then none else s.call? other := by
  by_cases ho : other = call
  · subst ho
    rw [if_pos rfl]
    refine call?_withCallouts_self.trans ?_
    cases s.dataspace? other.dataspace with
    | none => rfl
    | some d => exact Std.TreeMap.getElem?_erase_self
  · rw [if_neg ho, call?_withCallouts_of_ne ho]
    intro t h hh
    have hne : compare call.handle h ≠ .eq := fun he => hh (Std.LawfulEqOrd.eq_of_compare he).symm
    rw [Std.TreeMap.getElem?_erase, if_neg hne]

/-- Writing a variable touches no calls. -/
theorem call?_withVariable {ref : VariableRef} {v : Value} {call : CallRef} :
    (s.withVariable ref v).call? call = s.call? call :=
  call?_withDataspace (by exact fun _ => rfl) call

/-- A dataspace that keeps its counter has the same handles handed out. -/
theorem issued_withDataspace {ds : DataspaceId} {f : Dataspace → Dataspace} {call : CallRef}
    (hi : s.Issued call) (hf : ∀ d, d.nextHandle ≤ (f d).nextHandle) :
    (s.withDataspace ds f).Issued call := by
  obtain ⟨d, hd, hlt⟩ := hi
  by_cases h : ds = call.dataspace
  · subst h
    exact ⟨f d, dataspace?_withDataspace_of_some hd f, Nat.lt_of_lt_of_le hlt (hf d)⟩
  · exact ⟨d, (dataspace?_withDataspace_of_ne h).trans hd, hlt⟩

/-- A handle stays given out when its call is removed. -/
theorem Issued.withCallouts {call : CallRef} (hi : s.Issued call) (ds : DataspaceId)
    (f : Std.TreeMap CallHandle DeferredCall → Std.TreeMap CallHandle DeferredCall) :
    (s.withCallouts ds f).Issued call :=
  issued_withDataspace hi fun _ => Nat.le_refl _

/-- What is done to a callout table hands out no handle. -/
theorem numbered_withCallouts (ds other : DataspaceId)
    (f : Std.TreeMap CallHandle DeferredCall → Std.TreeMap CallHandle DeferredCall) :
    (s.withCallouts ds f).numbered other = s.numbered other :=
  congrArg (Option.getD · 0) (map_dataspace?_withDataspace (by exact fun _ => rfl) other)

/-- Handing out a handle counts in its own dataspace. -/
theorem numbered_bump {ds : DataspaceId} {d : Dataspace} (hd : s.dataspace? ds = some d)
    (other : DataspaceId) :
    (s.withDataspace ds fun d => { d with nextHandle := d.nextHandle + 1 }).numbered other =
      s.numbered other + if other = ds then 1 else 0 := by
  unfold numbered
  by_cases h : other = ds
  · subst h
    rw [dataspace?_withDataspace_of_some hd, hd, if_pos rfl]
    rfl
  · rw [dataspace?_withDataspace_of_ne (Ne.symm h), if_neg h]
    rfl

/-- A dataspace that is new has no calls yet. -/
theorem numbered_founded (s : Store) (n : Nat) (ds : DataspaceId) :
    ({ s with dataspaces := s.dataspaces.push { vars := Array.replicate n .nil } } : Store).numbered
      ds = s.numbered ds := by
  unfold numbered
  rw [dataspace?_founded]
  split
  · next hnew =>
    rw [show s.dataspace? ds = none from Array.getElem?_eq_none hnew.ge]
    rfl
  · rfl

theorem Issued.withPlane {call : CallRef} (hi : s.Issued call) (f : Plane → Plane) :
    (s.withPlane f).Issued call := by
  obtain ⟨d, hd, hlt⟩ := hi
  exact ⟨d, (dataspace?_withPlane s f _).trans hd, hlt⟩

theorem call?_withPlane (s : Store) (f : Plane → Plane) (call : CallRef) :
    (s.withPlane f).call? call = s.call? call := by
  unfold call?
  rw [dataspace?_withPlane]

/-- Handing out a handle touches no calls. -/
theorem call?_bump {ds : DataspaceId} {call : CallRef} :
    (s.withDataspace ds fun d => { d with nextHandle := d.nextHandle + 1 }).call? call =
      s.call? call :=
  call?_withDataspace (by exact fun _ => rfl) call

/-- A pending call after one was added to its dataspace. -/
theorem call?_added {ds : DataspaceId} {d : Dataspace} {c : DeferredCall}
    (hd : s.dataspace? ds = some d) (other : CallRef) :
    ((s.withDataspace ds fun d => { d with nextHandle := d.nextHandle + 1 }).withCallouts ds
      (·.insert ⟨d.nextHandle⟩ c)).call? other =
        if other = ⟨ds, ⟨d.nextHandle⟩⟩ then some c else s.call? other := by
  rw [@call?_withCallouts_insert _ ⟨ds, ⟨d.nextHandle⟩⟩ _ _ _
    (dataspace?_withDataspace_of_some hd _), call?_bump]

end Store

/-! ## Recording touches nothing else -/

namespace Store.Recorded

variable {s s' : Store} {call : CallRef} {patch : CallPatch} {out : List Value}

theorem fields (h : Recorded call patch s out s') :
    s'.heap = s.heap ∧ s'.swap = s.swap ∧ s'.dataspaces = s.dataspaces ∧
      s'.objects = s.objects := by
  cases h with
  | told => exact ⟨rfl, rfl, rfl, rfl⟩
  | filed | folded | cancelled => exact withPlane_fields _ _

/-- A recorded patch leaves all of the planes but their patches alone. -/
theorem planes_map {β : Type} (h : Recorded call patch s out s') (g : Plane → β)
    (hg : ∀ (p : Plane) patches, g { p with patches } = g p) :
    s'.planes.map g = s.planes.map g := by
  cases h with
  | told => rfl
  | filed | folded | cancelled => exact planes_map_withPlane s fun p => hg p _

/-- The patches of other calls stay. -/
theorem patched (h : Recorded call patch s out s') {p : Plane} (hp : p ∈ s'.planes)
    {other : CallRef} {x : CallPatch} (hx : p.patches[other]? = some x) :
    other = call ∨ ∃ p' ∈ s.planes, p'.patches[other]? = some x := by
  have hinsert : ∀ (r : Plane) (rest : List Plane) (y : CallPatch), s.planes = r :: rest →
      p ∈ { r with patches := r.patches.insert call y } :: rest →
        other = call ∨ ∃ p' ∈ s.planes, p'.patches[other]? = some x := by
    intro r rest y hr hmem
    rcases List.mem_cons.mp hmem with rfl | hmem
    · by_cases he : other = call
      · exact Or.inl he
      · have hne : compare call other ≠ .eq :=
          fun hc => he (Std.LawfulEqOrd.eq_of_compare hc).symm
        refine Or.inr ⟨r, by rw [hr]; exact List.mem_cons_self, ?_⟩
        simpa [Std.TreeMap.getElem?_insert, hne] using hx
    · exact Or.inr ⟨p, by rw [hr]; exact List.mem_cons_of_mem _ hmem, hx⟩
  cases h with
  | told => exact Or.inr ⟨p, hp, hx⟩
  | filed r rest hr =>
    rw [planes_withPlane hr] at hp
    exact hinsert r rest _ hr hp
  | folded r rest earlier later o hr =>
    rw [planes_withPlane hr] at hp
    exact hinsert r rest _ hr hp
  | cancelled r rest earlier o hr =>
    rw [planes_withPlane hr] at hp
    rcases List.mem_cons.mp hp with rfl | hp
    · refine Or.inr ⟨r, by rw [hr]; exact List.mem_cons_self, ?_⟩
      simp only [Std.TreeMap.getElem?_erase] at hx
      split at hx
      · cases hx
      · exact hx
    · exact Or.inr ⟨p, by rw [hr]; exact List.mem_cons_of_mem _ hp, hx⟩

end Store.Recorded

/-! ## Every step keeps to the numbers -/

namespace Account.Numbered

variable {a b : Account}

/-- What is pending or patched after a step was so before, or its handle has been handed out. -/
theorem of_each (ha : a.Numbered)
    (hi : ∀ call, a.store.Issued call → b.store.Issued call)
    (hc : ∀ call c, b.store.call? call = some c →
      (∃ c', a.store.call? call = some c') ∨ b.store.Issued call)
    (hp : ∀ call x, b.Patched call x → (∃ y, a.Patched call y) ∨ b.store.Issued call) :
    b.Numbered where
  pending {call c} h := by
    rcases hc call c h with ⟨c', h'⟩ | h'
    · exact hi call (ha.pending h')
    · exact h'
  patched {call x} h := by
    rcases hp call x h with ⟨y, h'⟩ | h'
    · exact hi call (ha.patched h')
    · exact h'

/-- Nothing changes where the calls and the patches stay. -/
theorem of_same (ha : a.Numbered)
    (hd : ∀ ds, (b.store.dataspace? ds).map Dataspace.bare =
      (a.store.dataspace? ds).map Dataspace.bare)
    (hp : b.store.planes.map Plane.patches = a.store.planes.map Plane.patches)
    (hq : ∀ cl, b.closing = some cl → ∃ cl', a.closing = some cl' ∧ cl.patches ⊆ cl'.patches) :
    b.Numbered := by
  refine ha.of_each (fun call hi => hi.of_bare (hd _)) (fun call c hc => Or.inl ⟨c, ?_⟩)
    fun call x hx => Or.inl ⟨x, ?_⟩
  · rw [← call?_of_bare (hd _)]
    exact hc
  · rcases hx with ⟨cl, hcl, hmem⟩ | ⟨p, hmem, hget⟩
    · obtain ⟨cl', hcl', hsub⟩ := hq cl hcl
      exact Or.inl ⟨cl', hcl', hsub hmem⟩
    · have hmem' : p.patches ∈ a.store.planes.map Plane.patches := by
        rw [← hp]
        exact List.mem_map_of_mem hmem
      obtain ⟨p', hp', he⟩ := List.mem_map.mp hmem'
      exact Or.inr ⟨p', hp', by rw [he]; exact hget⟩

/-- The next call of a dataspace is not pending yet. -/
theorem call?_next (ha : a.Numbered) {ds : DataspaceId} {d : Dataspace}
    (hd : a.store.dataspace? ds = some d) : a.store.call? ⟨ds, ⟨d.nextHandle⟩⟩ = none := by
  cases hget : a.store.call? ⟨ds, ⟨d.nextHandle⟩⟩ with
  | none => rfl
  | some c =>
    obtain ⟨d', hd', hlt⟩ := ha.pending hget
    obtain rfl := Option.some.inj (hd.symm.trans hd')
    exact absurd hlt (Nat.lt_irrefl _)

end Account.Numbered

theorem Traffic.numbered {a b : Account} (h : Traffic a b) (hs : a.store.Stored)
    (ha : a.Numbered) : b.Numbered := by
  have hw := h.wanes hs
  have hclosing : b.closing = a.closing := by
    cases h <;> rfl
  refine ha.of_same hw.dataspace ?_ fun cl hcl => ⟨cl, hclosing ▸ hcl, List.Subset.refl _⟩
  have hp := congrArg (List.map Plane.patches) hw.planes
  have hbare : Plane.patches ∘ Plane.bare = Plane.patches := rfl
  rwa [List.map_map, List.map_map, hbare] at hp

theorem Upkeep.numbered {id : ContainerId} {e : Effect} {a b : Account} (h : Upkeep id e a b)
    (ha : a.Numbered) : b.Numbered := by
  cases h <;>
    exact ha.of_same (fun _ => rfl) rfl fun cl hcl => ⟨cl, hcl, List.Subset.refl _⟩

theorem Change.numbered {id : ContainerId} {e : Edit} {a b : Account} (h : Change id e a b)
    (ha : a.Numbered) : b.Numbered := by
  cases h <;>
    exact ha.of_same (fun _ => rfl) rfl fun cl hcl => ⟨cl, hcl, List.Subset.refl _⟩

theorem Creation.numbered {e : Effect} {a b : Account} (h : Creation e a b)
    (hs : a.store.heap.containers.Sound) (ha : a.Numbered) : b.Numbered := by
  cases h with
  | @container t s F C owner kind values u hv hm h =>
    have hal := alike_link_new hs rfl h
    refine ha.of_same (fun ds => ?_) ?_ fun cl hcl => ⟨cl, hcl, List.Subset.refl _⟩
    · show ((t.withPlane _).dataspace? ds).map _ = _
      rw [dataspace?_withPlane]
      exact hal.dataspace ds
    · refine (planes_map_withPlane t ?_).trans ?_
      · exact fun p => rfl
      · rw [hal.planes]
        rfl
  | retag | string | spawn | destroy =>
    exact ha.of_same (fun _ => rfl) rfl fun cl hcl => ⟨cl, hcl, List.Subset.refl _⟩
  | @dataspace s F n =>
    refine ha.of_each (fun call hi => ?_)
      (fun call c hc => Or.inl ⟨c, (call?_founded s n call).symm.trans hc⟩) fun call x hx =>
        Or.inl ⟨x, hx⟩
    obtain ⟨d, hd, hlt⟩ := hi
    exact ⟨d, dataspace?_founded_of_some n hd, hlt⟩

/-- A recorded patch is on a call that is known. -/
theorem Account.Numbered.recorded {s t s' : Store} {F F' : Refs} {C C' : Charges}
    {q q' : Option Closing} {call : CallRef} {patch : CallPatch} {out : List Value}
    (ha : Account.Numbered ⟨s, F, C, q⟩) (h : Recorded call patch t out s')
    (hi : ∀ c, s.Issued c → t.Issued c)
    (hc : ∀ c x, t.call? c = some x → (∃ y, s.call? c = some y) ∨ t.Issued c)
    (hp : t.planes = s.planes) (hcall : t.Issued call)
    (hq : ∀ cl, q' = some cl → ∃ cl', q = some cl' ∧ cl.patches ⊆ cl'.patches) :
    Account.Numbered ⟨s', F', C', q'⟩ := by
  have hd : ∀ ds, s'.dataspace? ds = t.dataspace? ds := by
    intro ds
    unfold dataspace?
    rw [h.fields.2.2.1]
  have hissued : ∀ c, t.Issued c → s'.Issued c := by
    rintro c ⟨d, hd', hlt⟩
    exact ⟨d, (hd _).trans hd', hlt⟩
  refine ha.of_each (fun c hc => hissued c (hi c hc)) (fun c x hx => ?_) fun c x hx => ?_
  · have hx' : t.call? c = some x := by
      unfold call? at hx ⊢
      rw [← hd]
      exact hx
    rcases hc c x hx' with ⟨y, hy⟩ | hi'
    · exact Or.inl ⟨y, hy⟩
    · exact Or.inr (hissued c hi')
  · rcases hx with ⟨cl, hcl, hmem⟩ | ⟨p, hmem, hget⟩
    · obtain ⟨cl', hcl', hsub⟩ := hq cl hcl
      exact Or.inl ⟨x, Or.inl ⟨cl', hcl', hsub hmem⟩⟩
    · rcases h.patched hmem hget with rfl | ⟨p', hp', hget'⟩
      · exact Or.inr (hissued _ hcall)
      · exact Or.inl ⟨x, Or.inr ⟨p', hp ▸ hp', hget'⟩⟩

/-- A call that is put back is known. -/
theorem Account.Numbered.unwound {s s' : Store} {F F' : Refs} {C C' : Charges} {cl : Closing}
    {call : CallRef} {patch : CallPatch} {patches : List (CallRef × CallPatch)} {old : DeferredCall}
    {d : Dataspace} (ha : Account.Numbered ⟨s, F, C, some cl⟩)
    (hl : cl.patches = (call, patch) :: patches) (hd : s.dataspace? call.dataspace = some d)
    (hal : Alike (s.withCallouts call.dataspace (·.insert call.handle old)) s') :
    Account.Numbered ⟨s', F', C', some { cl with patches }⟩ := by
  refine ha.of_each (fun c hi => (hi.withCallouts _ _).of_bare (hal.dataspace _)) (fun c x hx => ?_)
    fun c x hx => Or.inl ⟨x, ?_⟩
  · have hx' : s'.call? c = some x := hx
    rw [call?_of_bare (hal.dataspace _), call?_withCallouts_insert hd] at hx'
    split at hx'
    · next he =>
      have hissued : s.Issued call :=
        ha.patched (Or.inl ⟨cl, rfl, by rw [hl]; exact List.mem_cons_self⟩)
      exact Or.inr (he ▸ (hissued.withCallouts _ _).of_bare (hal.dataspace _))
    · exact Or.inl ⟨x, hx'⟩
  · rcases hx with ⟨cl', hcl', hmem⟩ | ⟨r, hmem, hget⟩
    · cases hcl'
      exact Or.inl ⟨cl, rfl, by rw [hl]; exact List.mem_cons_of_mem _ hmem⟩
    · exact Or.inr ⟨r, hal.planes ▸ hmem, hget⟩

theorem Writing.numbered {e : Effect} {a b : Account} (h : Writing e a b) (ha : a.Numbered) :
    b.Numbered := by
  cases h with
  | @write s F C ref v old hold hv hp =>
    refine ha.of_each (fun call hi => issued_withDataspace hi fun _ => Nat.le_refl _)
      (fun call c hc => Or.inl ⟨c, ?_⟩) fun call x hx => Or.inl ⟨x, hx⟩
    rw [← call?_withVariable]
    exact hc
  | @firstWrite t s F C ref v old p rest u hold hv hp hnew h =>
    have hal := alike_dropImport h
    refine ha.of_each (fun call hi => ?_) (fun call c hc => Or.inl ⟨c, ?_⟩) fun call x hx =>
      Or.inl ⟨x, ?_⟩
    · have hi' : (s.withVariable ref v).Issued call :=
        issued_withDataspace hi fun _ => Nat.le_refl _
      exact (hi'.of_bare (hal.dataspace _)).withPlane _
    · have hc' : (t.withPlane _).call? call = some c := hc
      rw [call?_withPlane, call?_of_bare (hal.dataspace _), call?_withVariable] at hc'
      exact hc'
    · rcases hx with hx | ⟨r, hr, hget⟩
      · exact Or.inl hx
      · have hr' : r.patches ∈ (t.withPlane _).planes.map Plane.patches := List.mem_map_of_mem hr
        rw [planes_map_withPlane t (g := Plane.patches) (by exact fun _ => rfl), hal.planes] at hr'
        obtain ⟨r', hr', he⟩ := List.mem_map.mp hr'
        exact Or.inr ⟨r', hr', by rw [he]; exact hget⟩
  | @addCall s' s F C ds d due payload out hd hv h =>
    have hbump : ∀ c, s.Issued c →
        (s.withDataspace ds fun d => { d with nextHandle := d.nextHandle + 1 }).Issued c :=
      fun c hi => issued_withDataspace hi fun _ => Nat.le_succ _
    have hnew : (s.withDataspace ds fun d => { d with nextHandle := d.nextHandle + 1 }).Issued
        ⟨ds, ⟨d.nextHandle⟩⟩ :=
      ⟨{ d with nextHandle := d.nextHandle + 1 }, dataspace?_withDataspace_of_some hd _,
        Nat.lt_succ_self _⟩
    refine ha.recorded h (fun c hi => (hbump c hi).withCallouts _ _) (fun c x hx => ?_) rfl
      (hnew.withCallouts _ _) fun cl hcl => ⟨cl, hcl, List.Subset.refl _⟩
    rw [call?_added hd] at hx
    split at hx
    · next he => exact Or.inr (he ▸ hnew.withCallouts _ _)
    · exact Or.inl ⟨x, hx⟩
  | @removeCall t s' s F C call old out u hold h₁ h₂ =>
    have hal := alike_dropImport h₁
    refine ha.recorded h₂ (fun c hi => (hi.withCallouts _ _).of_bare (hal.dataspace _))
      (fun c x hx => Or.inl ?_) (hal.planes) ((ha.pending hold).withCallouts _ _ |>.of_bare
        (hal.dataspace _)) fun cl hcl => ⟨cl, hcl, List.Subset.refl _⟩
    rw [call?_of_bare (hal.dataspace _), call?_withCallouts_erase] at hx
    split at hx
    · cases hx
    · exact ⟨x, hx⟩
  | @replaceCall t s' s F C call old new out u hold hv h₁ h₂ =>
    have hal := alike_dropImport h₁
    obtain ⟨d, hd, -⟩ := Option.bind_eq_some_iff.mp hold
    refine ha.recorded h₂ (fun c hi => (hi.withCallouts _ _).of_bare (hal.dataspace _))
      (fun c x hx => Or.inl ?_) (hal.planes) ((ha.pending hold).withCallouts _ _ |>.of_bare
        (hal.dataspace _)) fun cl hcl => ⟨cl, hcl, List.Subset.refl _⟩
    rw [call?_of_bare (hal.dataspace _), call?_withCallouts_insert hd] at hx
    split at hx
    · next he => exact ⟨old, he ▸ hold⟩
    · exact ⟨x, hx⟩

theorem Nesting.numbered {e : Effect} {a b : Account} (h : Nesting e a b) (ha : a.Numbered) :
    b.Numbered := by
  cases h with
  | backUp | settle | refile | resave =>
    refine ha.of_same (fun ds => ?_) (planes_map_withPlane _ (by exact fun _ => rfl))
      fun cl hcl => ?_
    · exact congrArg _ (dataspace?_withPlane _ _ ds)
    · first
      | exact ⟨cl, hcl, List.Subset.refl _⟩
      | exact ⟨_, rfl, by cases hcl; exact List.Subset.refl _⟩
  | forget | skip | unsave =>
    refine ha.of_same (fun _ => rfl) rfl fun cl hcl => ⟨_, rfl, ?_⟩
    cases hcl
    exact List.Subset.refl _
  | finish => exact ha.of_same (fun _ => rfl) rfl fun cl hcl => by cases hcl
  | enter =>
    refine ha.of_each (fun _ hi => hi) (fun call c hc => Or.inl ⟨c, hc⟩) fun call x hx =>
      Or.inl ⟨x, ?_⟩
    rcases hx with ⟨cl, hcl, -⟩ | ⟨p, hmem, hget⟩
    · cases hcl
    · rcases List.mem_cons.mp hmem with rfl | hmem
      · simp at hget
      · exact Or.inr ⟨p, hmem, hget⟩
  | @pop s F C p rest folds hp =>
    refine ha.of_each (fun _ hi => hi) (fun call c hc => Or.inl ⟨c, hc⟩) fun call x hx =>
      Or.inl ⟨x, ?_⟩
    have hin : ∀ r, r = p ∨ r ∈ rest → r ∈ s.planes := by
      intro r hr
      rw [hp]
      exact List.mem_cons.mpr hr
    rcases hx with ⟨cl, hcl, hmem⟩ | ⟨r, hmem, hget⟩
    · cases hcl
      exact Or.inr ⟨p, hin p (Or.inl rfl), Std.TreeMap.mem_toList_iff_getElem?_eq_some.mp hmem⟩
    · exact Or.inr ⟨r, hin r (Or.inr hmem), hget⟩
  | @record s s' F C cl call patch patches out hl hf h =>
    refine ha.recorded h (fun _ hi => hi) (fun c x hx => Or.inl ⟨x, hx⟩) rfl
      (ha.patched (Or.inl ⟨cl, rfl, by rw [hl]; exact List.mem_cons_self⟩)) fun cl' hcl' => ?_
    cases hcl'
    exact ⟨cl, rfl, by rw [hl]; exact List.subset_cons_self _ _⟩
  | restore hl hf hc he h =>
    have hal := alike_addImports h
    refine ha.of_same hal.dataspace (congrArg _ hal.planes) fun cl' hcl' => ?_
    cases hcl'
    exact ⟨_, rfl, List.Subset.refl _⟩
  | @restoreVariable s t F C cl ref v current saved u hl hf h hcur =>
    have hal := alike_addImport h
    refine ha.of_each (fun call hi => issued_withDataspace (hi.of_bare (hal.dataspace _))
      fun _ => Nat.le_refl _) (fun call c hc => Or.inl ⟨c, ?_⟩) fun call x hx => Or.inl ⟨x, ?_⟩
    · have hc' : (t.withVariable ref v).call? call = some c := hc
      rw [call?_withVariable, call?_of_bare (hal.dataspace _)] at hc'
      exact hc'
    · rcases hx with ⟨cl', hcl', hmem⟩ | ⟨r, hmem, hget⟩
      · cases hcl'
        exact Or.inl ⟨cl, rfl, hmem⟩
      · exact Or.inr ⟨r, hal.planes ▸ hmem, hget⟩
  | @unwindAdded s F C cl call added patches hl hf hcur =>
    refine ha.of_each (fun c hi => hi.withCallouts _ _) (fun c x hx => Or.inl ?_) fun c x hx =>
      Or.inl ⟨x, ?_⟩
    · have hx' : (s.withCallouts call.dataspace (·.erase call.handle)).call? c = some x := hx
      rw [call?_withCallouts_erase] at hx'
      split at hx'
      · cases hx'
      · exact ⟨x, hx'⟩
    · rcases hx with ⟨cl', hcl', hmem⟩ | hx
      · cases hcl'
        exact Or.inl ⟨cl, rfl, by rw [hl]; exact List.mem_cons_of_mem _ hmem⟩
      · exact Or.inr hx
  | @unwindRemoved s' s F C cl call old d patches u hl hf hd h =>
    exact ha.unwound hl hd (alike_addImport h)
  | @unwindReplaced s' s F C cl call old new patches u hl hf hcur h =>
    obtain ⟨d, hd, -⟩ := Option.bind_eq_some_iff.mp hcur
    exact ha.unwound hl hd (alike_addImport h)

theorem Transfer.numbered {ds : DataspaceId} {id : ContainerId} {a b : Account}
    (h : Transfer ds id a b) (ha : a.Numbered) : b.Numbered := by
  obtain ⟨c, hc, hal⟩ := h.alike
  cases h
  exact ha.of_same hal.dataspace (congrArg _ hal.planes) fun cl hcl => by cases hcl

/-- Every step keeps to the handles that were handed out. -/
theorem Step.numbered {e : Effect} {a b : Account} (h : Step e a b) (hs : a.Accounted)
    (ha : a.Numbered) : b.Numbered := by
  cases h with
  | traffic h => exact h.numbered hs.stored ha
  | upkeep h => exact h.numbered ha
  | change h => exact h.numbered ha
  | creation h => exact h.numbered hs.balanced.containers ha
  | writing h => exact h.numbered ha
  | nesting h => exact h.numbered ha
  | transfer h => exact h.numbered ha

end PlaneStore
