import PlaneStore.Proofs.Callouts.PatchChains

/-!
# Accounts stay balanced between planes

The rest of the steps: what comes into being, what is written to variables and callout tables, and
what moves between planes. Here references leave the dataspaces for the planes and come back; a
plane that is closing holds what is left of it.
-/

namespace PlaneStore

open Store

namespace Account.Accounted

variable {a b : Account}

/-- The account is in order still if the heap is alike and references have been moved about. -/
theorem alike (ha : a.Accounted) (hal : Alike a.store b.store)
    (hr : b.refs.counted = a.refs.counted) (hb : ∀ x ∈ b.backups, x ∈ a.backups) : b.Accounted :=
  ha.moved (sameCounts_of_alike hal) hr (ha.stored.alike hal) (ha.overlays_of_wanes hal.wanes) hb

/-- The account is in order still if the store is alike. -/
theorem of_alike {s s' : Store} {F : Refs} {C : Charges} {q : Option Closing}
    (ha : Accounted ⟨s, F, C, q⟩) (hal : Alike s s') : Accounted ⟨s', F, C, q⟩ := by
  refine ha.alike hal (congrArg _ ?_) fun x hx => mem_backups_of_planes hal.planes hx
  simp only [Account.refs, hal.refs]

/-- The account is in order still if heap and swap are the same. -/
theorem same (ha : a.Accounted) (hh : b.store.heap = a.store.heap)
    (hs : b.store.swap = a.store.swap) (hr : b.refs.counted = a.refs.counted)
    (hb : ∀ x ∈ b.backups, x ∈ a.backups ∨ (x.kind = .mapping → x.elements.size % 2 = 0)) :
    b.Accounted where
  balanced := by
    rw [hh]
    exact ha.balanced.congr_refs hr
  stored := by
    refine ha.stored.of_elements (by rw [hs]) (by rw [hs]) fun id c hc => ⟨c, ?_, rfl, rfl⟩
    unfold container? at hc ⊢
    rwa [hh] at hc
  overlays {id c o} hc ho := by
    have hc' : a.store.container? id = some c := by
      unfold container? at hc ⊢
      rwa [hh] at hc
    exact ha.overlays hc' ho
  backups x hx := by
    rcases hb x hx with hx | hx
    · exact ha.backups x hx
    · exact hx

end Account.Accounted

/-! ## What comes into being -/

/-- The census of a plane holds no references. -/
theorem refs_withPlane_census (s : Store) (f : Plane → Plane) (hf : ∀ p, (f p).bare = p.bare) :
    (s.withPlane f).refs = s.refs := by
  have hheld : (s.withPlane f).planes.map Plane.held = s.planes.map Plane.held := by
    refine planes_map_withPlane s fun p => ?_
    show (f p).bare.held = p.bare.held
    rw [hf p]
  obtain ⟨hh, hs, hd, -⟩ := withPlane_fields s f
  unfold refs
  rw [hheld, hh, hs, hd]

theorem ledgers_withPlane (s : Store) {f : Plane → Plane} (hf : ∀ p, (f p).ledger = p.ledger) :
    (s.withPlane f).planes.flatMap Plane.ledger = s.planes.flatMap Plane.ledger := by
  have h := congrArg List.flatten (planes_map_withPlane s (g := Plane.ledger) hf)
  simpa only [List.flatMap] using h

/-- Backups stay where they are when only the rest of the planes changes. -/
theorem Store.mem_backups_withPlane {s : Store} {f : Plane → Plane} {q : Option Closing}
    (hf : ∀ p, (f p).ledger = p.ledger) {x : Backup} (hx : x ∈ (s.withPlane f).backups q) :
    x ∈ s.backups q := by
  unfold Store.backups at hx ⊢
  rwa [ledgers_withPlane s hf] at hx

/-- New dataspaces hold nothing that is counted. -/
theorem counted_nils (n : Nat) : Refs.counted ↑(List.replicate n Value.nil) = 0 := by
  induction n with
  | zero => rfl
  | succ n ih =>
    rw [List.replicate_succ, ← Multiset.cons_coe, ← Multiset.singleton_add, Refs.counted_add, ih,
      Refs.counted_singleton rfl, add_zero]

/--
What is made takes over the references that it is given, or comes with the one that is handed out.
-/
theorem Creation.accounted {e : Effect} {a b : Account} (h : Creation e a b) (ha : a.Accounted) :
    b.Accounted := by
  cases h with
  | @container t s F C owner kind values u hv hm h =>
    have hs := ha.balanced.containers
    have hal := alike_link_new hs rfl h
    have hrefs : Account.refs ⟨s.withNew (s.newContainer owner kind values),
        {.ofContainer kind s.heap.nextId} + F, C, none⟩ =
        {.ofContainer kind s.heap.nextId} + Account.refs ⟨s, F, .of owner values + C, none⟩ := by
      simp only [Account.refs, Charges.refs_add, Charges.refs_of, refs_withNew hs]
      rw [show (s.newContainer owner kind values).held s.swap = ↑values by
        rw [Container.held_eq, Container.buffer_of_resident _ rfl,
          Container.overlayValues_of_none rfl]
        simp]
      abel
    have hnew : Account.Accounted ⟨s.withNew (s.newContainer owner kind values),
        {.ofContainer kind s.heap.nextId} + F, C, none⟩ := by
      refine ⟨?_, ha.stored.withNew hs rfl fun hk => (hm hk).1,
        fun {id c o} hc ho => ?_, ha.backups⟩
      · rw [hrefs]
        exact balanced_withNew ha.balanced rfl
      · rcases container?_withNew_cases hs hc with ⟨-, rfl⟩ | ⟨-, hc⟩
        · cases ho
        · exact ha.overlays hc ho
    obtain ⟨hh, hsw, -, -⟩ := withPlane_fields t
      fun p => { p with census := p.census.insert s.heap.nextId .fresh }
    refine (hnew.of_alike hal).same hh hsw (congrArg _ ?_) fun x hx => Or.inl ?_
    · unfold Account.refs
      rw [refs_withPlane_census t _ (by exact fun _ => rfl)]
    · exact mem_backups_withPlane (by exact fun _ => rfl) hx
  | @retag s F C q id c tag hc hone =>
    have hset : Account.Accounted
        ⟨s.withContainer id { c with tag }, {.ofContainer c.kind id} + F, C, q⟩ := by
      refine ha.replaced hc rfl rfl rfl rfl (congrArg _ ?_) (ha.stored.withContainer hc rfl rfl)
        fun o ho => ha.overlays hc ho
      unfold Account.refs
      rw [refs_withContainer_of_eq hc]
      · rfl
      · rfl
    refine hset.moved ⟨fun h => h, fun h => h, fun t => ?_, fun _ => rfl⟩ rfl ?_ hset.overlays
      fun x hx => hx
    · cases t <;> rfl
    · exact hset.stored.of_elements rfl rfl fun _ d hd => ⟨d, hd, rfl, rfl⟩
  | @string s F C q text =>
    refine ⟨?_, ha.stored.of_elements rfl rfl fun _ d hd => ⟨d, hd, rfl, rfl⟩, ha.overlays,
      ha.backups⟩
    have hb := balanced_allocString ha.balanced text
    refine hb.congr_refs (congrArg _ ?_)
    simp only [Account.refs]
    rw [show ({ s with heap := (s.heap.allocString text).2 } : Store).refs = s.refs from rfl]
    abel
  | @dataspace s F n =>
    refine ha.same rfl rfl ?_ fun x hx => Or.inl hx
    have hrefs : ({ s with dataspaces := s.dataspaces.push { vars := Array.replicate n .nil } } :
        Store).refs = s.refs + ↑(List.replicate n Value.nil) := by
      unfold refs
      simp only [Array.toList_push, List.map_append, List.sum_append, List.map_cons, List.map_nil,
        List.sum_cons, List.sum_nil]
      rw [show Dataspace.held { vars := Array.replicate n .nil } =
        (↑(List.replicate n Value.nil) : Refs) by simp [Dataspace.held]]
      abel
    simp only [Account.refs, hrefs, Refs.counted_add, counted_nils, add_zero]
  | spawn => exact ha.same rfl rfl rfl fun x hx => Or.inl hx
  | destroy => exact ha.same rfl rfl rfl fun x hx => Or.inl hx

/-! ## What is written to dataspaces -/

/-- What a patch holds is on the plane, given up, or folded away. -/
theorem Store.Recorded.refs {s s' : Store} {call : CallRef} {patch : CallPatch} {out : List Value}
    (h : Recorded call patch s out s') : s'.refs + ↑out = s.refs + patch.held := by
  cases h with
  | told =>
    rw [CallPatch.held_eq_payloads]
    rfl
  | filed p rest hp hnone =>
    refine refs_withPlane hp ?_
    simp only [Plane.held, TreeTotal.total_insert_of_none hnone, Multiset.coe_nil]
    abel
  | folded p rest earlier later out hp hsome hfold =>
    refine refs_withPlane hp ?_
    have hpatches := TreeTotal.total_insert_of_some (f := CallPatch.held) (v := later) hsome
    have hheld : later.held + ↑out.toList = earlier.held + patch.held := CallPatch.held_fold? hfold
    simp only [Plane.held]
    rw [add_assoc, Refs.exchange hpatches hheld, ← add_assoc]
  | cancelled p rest earlier out hp hsome hfold =>
    refine refs_withPlane hp ?_
    have hpatches := TreeTotal.total_erase (f := CallPatch.held) hsome
    have hheld : 0 + ↑out.toList = earlier.held + patch.held := CallPatch.held_fold? hfold
    rw [zero_add] at hheld
    simp only [Plane.held, hheld, ← hpatches]
    abel

namespace Dataspace

variable {d : Dataspace}

/-- A variable gets another value. -/
theorem held_setVariable {i : Nat} {v old : Value} (h : d.vars[i]? = some old) :
    Dataspace.held { d with vars := d.vars.setIfInBounds i v } + {old} = d.held + {v} := by
  simp only [Dataspace.held]
  rw [add_right_comm, add_right_comm (↑d.vars.toList : Refs), Refs.coe_setIfInBounds h]

variable {handle : CallHandle} {c old : DeferredCall}

/-- A call that was not pending is. -/
theorem held_insert_of_none (h : d.callouts[handle]? = none) :
    Dataspace.held { d with callouts := d.callouts.insert handle c } = d.held + {c.payload} := by
  simp only [Dataspace.held, TreeTotal.total_insert_of_none h]
  abel

/-- A pending call is replaced. -/
theorem held_insert_of_some (h : d.callouts[handle]? = some old) :
    Dataspace.held { d with callouts := d.callouts.insert handle c } + {old.payload} =
      d.held + {c.payload} := by
  have htotal := TreeTotal.total_insert_of_some
    (f := fun c : DeferredCall => ({c.payload} : Refs)) (v := c) h
  simp only [Dataspace.held]
  rw [add_assoc, add_assoc, htotal]

/-- A pending call is taken out. -/
theorem held_erase (h : d.callouts[handle]? = some old) :
    Dataspace.held { d with callouts := d.callouts.erase handle } + {old.payload} = d.held := by
  have htotal := TreeTotal.total_erase (f := fun c : DeferredCall => ({c.payload} : Refs)) h
  simp only [Dataspace.held]
  rw [add_assoc, htotal]

end Dataspace

/-- A write to a variable puts the new reference in place of the old one. -/
theorem refs_withVariable {s : Store} {ref : VariableRef} {v old : Value}
    (hold : s.variableAt? ref = some old) : (s.withVariable ref v).refs + {old} = s.refs + {v} := by
  obtain ⟨d, hd, hget⟩ := Option.bind_eq_some_iff.mp hold
  exact refs_withDataspace hd (Dataspace.held_setVariable hget)

theorem refs_withCallouts_insert_of_none {s : Store} {call : CallRef} {d : Dataspace}
    {c : DeferredCall} (hd : s.dataspace? call.dataspace = some d)
    (hnone : d.callouts[call.handle]? = none) :
    (s.withCallouts call.dataspace (·.insert call.handle c)).refs = s.refs + {c.payload} :=
  refs_withDataspace_gain hd (Dataspace.held_insert_of_none hnone)

theorem refs_withCallouts_insert_of_some {s : Store} {call : CallRef} {c old : DeferredCall}
    (hold : s.call? call = some old) :
    (s.withCallouts call.dataspace (·.insert call.handle c)).refs + {old.payload} =
      s.refs + {c.payload} := by
  obtain ⟨d, hd, hget⟩ := Option.bind_eq_some_iff.mp hold
  exact refs_withDataspace hd (Dataspace.held_insert_of_some hget)

/-- A call that is taken off its table gives up the reference to its payload. -/
theorem refs_withCallouts_erase {s : Store} {call : CallRef} {old : DeferredCall}
    (hold : s.call? call = some old) :
    (s.withCallouts call.dataspace (·.erase call.handle)).refs + {old.payload} = s.refs := by
  obtain ⟨d, hd, hget⟩ := Option.bind_eq_some_iff.mp hold
  exact refs_withDataspace_loss hd (Dataspace.held_erase hget)

/-- The ledgers are as they were after a patch was recorded. -/
theorem Store.Recorded.backups {s s' : Store} {call : CallRef} {patch : CallPatch}
    {out : List Value} (h : Recorded call patch s out s') :
    s'.planes.flatMap Plane.ledger = s.planes.flatMap Plane.ledger := by
  have := congrArg List.flatten (h.planes_map Plane.ledger fun _ _ => rfl)
  simpa only [List.flatMap] using this

/-- The account after a change of dataspaces and a recorded patch. -/
theorem Account.Accounted.recorded {s r t s' : Store} {F F' : Refs} {C C' : Charges}
    {q q' : Option Closing} {call : CallRef} {patch : CallPatch} {out : List Value}
    (ha : Account.Accounted ⟨s, F, C, q⟩) (hal : Alike r t) (h : Recorded call patch t out s')
    (hh : r.heap = s.heap) (hs : r.swap = s.swap) (hp : r.planes = s.planes)
    (hr : Account.refs ⟨s', F', C', q'⟩ = Account.refs ⟨s, F, C, q⟩)
    (hq : (q'.map Closing.ledger).getD [] = (q.map Closing.ledger).getD []) :
    Account.Accounted ⟨s', F', C', q'⟩ := by
  obtain ⟨hh', hs', -, -⟩ := h.fields
  have hcounts : Heap.SameCounts s.heap s'.heap := by
    rw [hh', ← hh]
    exact sameCounts_of_alike hal
  have hget : ∀ id c', s'.container? id = some c' →
      ∃ c, s.container? id = some c ∧ c'.bare = c.bare := by
    intro id c' hc'
    have ht : t.container? id = some c' := by
      unfold container? at hc' ⊢
      rwa [hh'] at hc'
    obtain ⟨c, hc, hbare⟩ := hal.symm.exists_container ht
    refine ⟨c, ?_, hbare.symm⟩
    unfold container? at hc ⊢
    rwa [hh] at hc
  refine ha.moved hcounts (congrArg _ hr) ?_ (fun {id c' o} hc' ho => ?_) fun x hx => ?_
  · refine ha.stored.of_elements ?_ ?_ fun id c' hc' => ?_
    · rw [hs', hal.swap, hs]
    · rw [hs', hal.swap, hs]
    · obtain ⟨c, hc, hbare⟩ := hget id c' hc'
      exact ⟨c, hc, show c'.bare.kind = c.bare.kind by rw [hbare],
        show c'.bare.elements = c.bare.elements by rw [hbare]⟩
  · obtain ⟨c, hc, hbare⟩ := hget id c' hc'
    rw [show c'.kind = c.kind from show c'.bare.kind = c.bare.kind by rw [hbare]]
    refine ha.overlays hc ?_
    rw [← ho]
    exact show c.bare.overlay = c'.bare.overlay by rw [hbare]
  · have hx' : x ∈ s'.backups q' := hx
    unfold Store.backups at hx'
    rw [hq, h.backups, hal.planes, hp] at hx'
    exact hx'

/-- A plane takes over a reference with the first write of a variable. -/
theorem refs_withPlane_save {s : Store} {p : Plane} {rest : List Plane} {ref : VariableRef}
    {v : Value} (hp : s.planes = p :: rest) (hnew : p.savedVars.contains ref = false) :
    (s.withPlane fun p => { p with savedVars := p.savedVars.insert ref v }).refs =
      s.refs + {v} := by
  have hnone : p.savedVars[ref]? = none :=
    Std.TreeMap.getElem?_eq_none_of_contains_eq_false hnew
  refine refs_withPlane_gain hp ?_
  simp only [Plane.held, TreeTotal.total_insert_of_none hnone]
  abel

/-- Writes to variables and callout tables move references between dataspaces, planes and flight. -/
theorem Writing.accounted {e : Effect} {a b : Account} (h : Writing e a b) (hn : a.Numbered)
    (ha : a.Accounted) :
    b.Accounted := by
  cases h with
  | @write s F C ref v old hold hv hp =>
    refine ha.same rfl rfl ?_ fun x hx => Or.inl hx
    exact Account.counted_refs_charged F C none (congrArg _ (refs_withVariable hold))
      (Charges.refs_of _ _) (Charges.refs_of _ _)
  | @firstWrite t s F C ref v old p rest u hold hv hp hnew h =>
    have hal := alike_dropImport h
    have hw : Account.Accounted ⟨s.withVariable ref v, {old} + F, C, none⟩ := by
      refine ha.same rfl rfl (congrArg _ ?_) fun x hx => Or.inl hx
      simp only [Account.refs, Charges.refs_add, Charges.refs_of, Multiset.coe_singleton]
      exact Refs.shift (F + C.refs + Account.closingRefs none) (refs_withVariable hold) (by abel)
        (by abel)
    have hpt : t.planes = p :: rest := hal.planes.trans hp
    obtain ⟨hh, hsw, -, -⟩ := withPlane_fields t
      fun p => { p with savedVars := p.savedVars.insert ref old }
    refine (hw.of_alike hal).same hh hsw (congrArg _ ?_) fun x hx => Or.inl ?_
    · simp only [Account.refs, refs_withPlane_save hpt hnew]
      abel
    · exact mem_backups_withPlane (by exact fun _ => rfl) hx
  | @addCall s' s F C ds d due payload out hd hv h =>
    refine ha.recorded (Alike.refl _) h rfl rfl rfl ?_ rfl
    have hbump : (s.withDataspace ds fun d => { d with nextHandle := d.nextHandle + 1 }).refs =
        s.refs := refs_withDataspace_of_eq hd rfl
    have hdb :=
      dataspace?_withDataspace_of_some hd fun d => { d with nextHandle := d.nextHandle + 1 }
    -- The next number was never handed out, so there is no call of that number.
    have hnone : d.callouts[(⟨d.nextHandle⟩ : CallHandle)]? = none := by
      have h := hn.call?_next (a := ⟨s, F, .of ds [payload] + C, none⟩) hd
      rwa [call?_of_dataspace hd] at h
    have hins :=
      @refs_withCallouts_insert_of_none _ ⟨ds, ⟨d.nextHandle⟩⟩ _ { due, payload } hdb hnone
    rw [hbump] at hins
    have hrec := h.refs
    rw [CallPatch.held_added, add_zero, hins] at hrec
    simp only [Account.refs, Charges.refs_add, Charges.refs_of, Multiset.coe_singleton]
    calc s'.refs + (↑out + F) + C.refs + Account.closingRefs none
        = (s'.refs + ↑out) + F + C.refs + Account.closingRefs none := by abel
      _ = _ := by rw [hrec]; abel
  | @removeCall t s' s F C call old out u hold h₁ h₂ =>
    have hal := alike_dropImport h₁
    refine ha.recorded hal h₂ rfl rfl rfl ?_ rfl
    have hrec := h₂.refs
    rw [hal.refs, CallPatch.held_removed, refs_withCallouts_erase hold] at hrec
    simp only [Account.refs, ← hrec]
    abel
  | @replaceCall t s' s F C call old new out u hold hv h₁ h₂ =>
    have hal := alike_dropImport h₁
    refine ha.recorded hal h₂ rfl rfl rfl ?_ rfl
    have hrec := h₂.refs
    rw [hal.refs, CallPatch.held_replaced, refs_withCallouts_insert_of_some hold] at hrec
    simp only [Account.refs, Charges.refs_add, Charges.refs_of, Multiset.coe_singleton]
    calc s'.refs + (↑out + F) + C.refs + Account.closingRefs none
        = (s'.refs + ↑out) + F + C.refs + Account.closingRefs none := by abel
      _ = _ := by rw [hrec]; abel

/-! ## What moves between planes -/

theorem Kind.shape_eq_mapping {k : Kind} : k.shape = .mapping ↔ k = .mapping := by
  cases k <;> simp [Kind.shape]

theorem Account.closingRefs_some (cl : Closing) : Account.closingRefs (some cl) = cl.held := rfl

theorem Account.closingRefs_none : Account.closingRefs none = 0 := rfl

theorem Closing.held_ledger {cl : Closing} {b : Backup} {ledger : List Backup}
    (hl : cl.ledger = b :: ledger) : cl.held = b.held + ({ cl with ledger } : Closing).held := by
  simp only [held, hl, List.map_cons, List.sum_cons]
  abel

theorem Closing.held_saved {cl : Closing} {ref : VariableRef} {v : Value}
    {saved : List (VariableRef × Value)} (hl : cl.saved = (ref, v) :: saved) :
    cl.held = {v} + ({ cl with saved } : Closing).held := by
  simp only [held, hl, List.map_cons, List.sum_cons]
  abel

theorem Closing.held_patches {cl : Closing} {call : CallRef} {patch : CallPatch}
    {patches : List (CallRef × CallPatch)} (hl : cl.patches = (call, patch) :: patches) :
    cl.held = patch.held + ({ cl with patches } : Closing).held := by
  simp only [held, hl, List.map_cons, List.sum_cons]
  abel

/-- The plane that gets a backup holds what the backup holds. -/
theorem refs_withPlane_file {s : Store} {p : Plane} {rest : List Plane} (hp : s.planes = p :: rest)
    (b : Backup) : (s.withPlane (·.file b)).refs = s.refs + b.held := by
  refine refs_withPlane_gain hp ?_
  simp only [Plane.held, Plane.file, List.map_cons, List.sum_cons]
  abel

/-- The innermost plane may change together with the home of a container. -/
theorem Account.Accounted.rehomed {s : Store} {F F' : Refs} {C : Charges} {q q' : Option Closing}
    {id : ContainerId} {c : Container} (home : Nat) {f : Plane → Plane}
    (ha : Account.Accounted ⟨s, F, C, q⟩) (hc : s.container? id = some c)
    (hr : Account.refs ⟨s.withPlane f, F', C, q'⟩ = Account.refs ⟨s, F, C, q⟩)
    (hb : ∀ x ∈ Account.backups ⟨s.withPlane f, F', C, q'⟩,
      x ∈ Account.backups ⟨s, F, C, q⟩ ∨ (x.kind = .mapping → x.elements.size % 2 = 0)) :
    Account.Accounted ⟨(s.withContainer id { c with home }).withPlane f, F', C, q'⟩ := by
  obtain ⟨hh, hs, -, -⟩ := withPlane_fields s f
  have hplane : Account.Accounted ⟨s.withPlane f, F', C, q'⟩ := ha.same hh hs (congrArg _ hr) hb
  have hc' : (s.withPlane f).container? id = some c := (container?_withPlane s f id).trans hc
  rw [withPlane_withContainer]
  refine hplane.replaced hc' rfl rfl rfl rfl (congrArg _ ?_)
    (hplane.stored.withContainer hc' rfl rfl)
    fun o ho => hplane.overlays hc' ho
  unfold Account.refs
  rw [refs_withContainer_of_eq hc']
  · rfl
  · rfl

theorem Store.mem_backups_of_ledger {s : Store} {cl : Closing} {b x : Backup}
    {ledger : List Backup} (hl : cl.ledger = b :: ledger)
    (hx : x ∈ s.backups (some { cl with ledger })) : x ∈ s.backups (some cl) := by
  rcases List.mem_append.mp hx with hx | hx
  · refine List.mem_append.mpr (Or.inl ?_)
    show x ∈ cl.ledger
    rw [hl]
    exact List.mem_cons_of_mem _ hx
  · exact List.mem_append.mpr (Or.inr hx)

/-- The backup that a closing plane deals with next is one of those that there are. -/
theorem Store.mem_backups_head {s : Store} {cl : Closing} {b : Backup} {ledger : List Backup}
    (hl : cl.ledger = b :: ledger) : b ∈ s.backups (some cl) := by
  refine List.mem_append.mpr (Or.inl ?_)
  show b ∈ cl.ledger
  rw [hl]
  exact List.mem_cons_self

/-- A plane that is taken off the stack keeps its backups. -/
theorem Store.mem_backups_pop {s : Store} {p : Plane} {rest : List Plane} {folds : Bool}
    {level : Nat} {x : Backup} (hp : s.planes = p :: rest)
    (hx : x ∈ ({ s with planes := rest } : Store).backups (some (.ofPlane folds level p))) :
    x ∈ s.backups none := by
  refine List.mem_append.mpr (Or.inr ?_)
  rw [hp, List.flatMap_cons]
  refine List.mem_append.mpr ((List.mem_append.mp hx).imp_left fun hx => ?_)
  cases folds with
  | true => exact List.mem_reverse.mp hx
  | false => exact hx

theorem Store.mem_backups_file {s : Store} {q : Option Closing} {p : Plane} {rest : List Plane}
    {b x : Backup} (hp : s.planes = p :: rest) (hx : x ∈ (s.withPlane (·.file b)).backups q) :
    x = b ∨ x ∈ s.backups q := by
  rcases List.mem_append.mp hx with hx | hx
  · exact Or.inr (List.mem_append.mpr (Or.inl hx))
  · rw [planes_withPlane hp, List.flatMap_cons] at hx
    rcases List.mem_append.mp hx with hx | hx
    · rcases List.mem_cons.mp hx with rfl | hx
      · exact Or.inl rfl
      · refine Or.inr (List.mem_append.mpr (Or.inr ?_))
        rw [hp, List.flatMap_cons]
        exact List.mem_append.mpr (Or.inl hx)
    · refine Or.inr (List.mem_append.mpr (Or.inr ?_))
      rw [hp, List.flatMap_cons]
      exact List.mem_append.mpr (Or.inr hx)

/-- A backup refers to its container, so both are mappings or neither is. -/
theorem Account.Accounted.kind_of_backup {s : Store} {F : Refs} {C : Charges} {cl : Closing}
    {b : Backup} {ledger : List Backup} {c : Container} (ha : Account.Accounted ⟨s, F, C, some cl⟩)
    (hl : cl.ledger = b :: ledger) (hc : s.container? b.container = some c)
    (hk : c.kind = .mapping) :
    b.kind = .mapping := by
  have hmem : Value.ofContainer b.kind b.container ∈ Account.refs ⟨s, F, C, some cl⟩ := by
    simp only [Account.refs, Account.closingRefs_some, Closing.held_ledger hl, Backup.held_eq,
      Multiset.mem_add, Multiset.mem_singleton, true_or, or_true]
  obtain ⟨c', hc', hshape⟩ := ha.balanced.exists_container hmem
  obtain rfl := Option.some.inj (hc.symm.trans hc')
  exact Kind.shape_eq_mapping.mp (hshape ▸ Kind.shape_eq_mapping.mpr hk)

/-- A container takes over what its backup holds, and what it held is left over. -/
theorem Account.Accounted.restored {s : Store} {F : Refs} {C : Charges} {cl : Closing} {b : Backup}
    {ledger : List Backup} {c : Container} {values : Array Value}
    (ha : Account.Accounted ⟨s, F, C, some cl⟩) (hl : cl.ledger = b :: ledger)
    (hc : s.container? b.container = some c) (he : c.elements = .resident values) :
    Account.Accounted ⟨s.withContainer b.container (b.restored c),
      {.ofContainer b.kind b.container} + F, .of c.owner (values.toList ++ c.overlayValues) + C,
      some { cl with ledger }⟩ := by
  have hrest : Account.Accounted ⟨s, b.held + F, C, some { cl with ledger }⟩ := by
    refine ha.same rfl rfl (congrArg _ ?_) fun x hx => Or.inl (mem_backups_of_ledger hl hx)
    simp only [Account.refs, Account.closingRefs_some, Closing.held_ledger hl]
    abel
  have heven : c.kind = .mapping → b.elements.size % 2 = 0 := fun hk =>
    ha.backups b (mem_backups_head hl) (ha.kind_of_backup hl hc hk)
  refine hrest.replaced (C := C) hc rfl rfl rfl rfl (congrArg _ ?_)
    (ha.stored.withValues hc rfl heven) fun o ho => by cases ho
  have hx := refs_withContainer_exchange (d := b.restored c) hc
  rw [Container.held_eq, Container.held_eq, c.buffer_of_resident _ he,
    (b.restored c).buffer_of_resident _ rfl,
    Container.overlayValues_of_none (c := b.restored c) rfl, Multiset.coe_nil, add_zero] at hx
  simp only [Account.refs, Charges.refs_add, Charges.refs_of, Backup.held_eq, ← Multiset.coe_add]
  exact Refs.shift ({.ofContainer b.kind b.container} + F + C.refs +
    Account.closingRefs (some { cl with ledger })) hx (by abel) (by abel)

/-- Entering and ending a region, references only go from a plane to where they are put. -/
theorem Nesting.accounted {e : Effect} {a b : Account} (h : Nesting e a b) (hch : a.Chained)
    (ha : a.Accounted) : b.Accounted := by
  -- What was saved goes from plane to plane or back to where it was: references only change places.
  cases h with
  | @backUp s F C id c values p rest hc he hm hh hp hnew =>
    refine ha.rehomed _ hc ?_ fun x hx => ?_
    · simp only [Account.refs, refs_withPlane_file hp, Backup.held_eq, ← Multiset.singleton_add,
        ← Multiset.cons_coe]
      abel
    · rcases mem_backups_file hp hx with rfl | hx
      · exact Or.inr fun hk => ha.even_of_resident hc he hk
      · exact Or.inl hx
  | @enter s F C hroom =>
    refine ha.same rfl rfl (congrArg _ ?_) fun x hx => Or.inl hx
    simp only [Account.refs]
    rw [show ({ s with planes := {} :: s.planes } : Store).refs = s.refs from by
      simp only [refs, List.map_cons, List.sum_cons]
      rw [show Plane.held {} = 0 from rfl, zero_add]]
  | @pop s F C p rest folds hp =>
    refine ha.same rfl rfl (congrArg _ ?_) fun x hx => Or.inl (mem_backups_pop hp hx)
    simp only [Account.refs, Account.closingRefs_some, Account.closingRefs_none,
      Closing.held_ofPlane, refs, hp, List.map_cons, List.sum_cons]
    abel
  | @refile s F C cl b ledger p rest hl hf hp hhome hnew =>
    obtain ⟨hh, hs, -, -⟩ := withPlane_fields s (·.file b)
    refine ha.same hh hs (congrArg _ ?_) fun x hx => Or.inl ?_
    · simp only [Account.refs, refs_withPlane_file hp, Account.closingRefs_some,
        Closing.held_ledger hl]
      abel
    · rcases mem_backups_file hp hx with rfl | hx
      · exact mem_backups_head hl
      · exact mem_backups_of_ledger hl hx
  | @forget s F C cl b ledger hl hf hno =>
    refine ha.same rfl rfl (congrArg _ ?_) fun x hx => Or.inl (mem_backups_of_ledger hl hx)
    simp only [Account.refs, Account.closingRefs_some, Closing.held_ledger hl]
    abel
  | @settle s F C cl id c census hl hledger hc =>
    have hheld : ({ cl with census } : Closing).held = cl.held := rfl
    have hplane : ∀ home, Account.Accounted
        ⟨(s.withContainer id { c with home }).withPlane (·.adopt id), F, C,
          some { cl with census }⟩ := by
      intro home
      refine ha.rehomed home hc ?_ fun x hx =>
        Or.inl (mem_backups_withPlane (by exact fun _ => rfl) hx)
      unfold Account.refs
      rw [refs_withPlane_census s _ (by exact fun _ => rfl)]
      rfl
    split
    · exact hplane _
    · exact hplane c.home
  | skip hl hc => exact ha.same rfl rfl rfl fun x hx => Or.inl hx
  | @resave s F C cl ref v saved p rest hl hf hp hnew =>
    obtain ⟨hh, hs, -, -⟩ := withPlane_fields s
      fun p => { p with savedVars := p.savedVars.insert ref v }
    refine ha.same hh hs (congrArg _ ?_) fun x hx =>
        Or.inl (mem_backups_withPlane (by exact fun _ => rfl) hx)
    simp only [Account.refs, refs_withPlane_save hp hnew, Account.closingRefs_some,
      Closing.held_saved hl]
    abel
  | @unsave s F C cl ref v saved hl hf hno =>
    refine ha.same rfl rfl (congrArg _ ?_) fun x hx => Or.inl hx
    simp only [Account.refs, Account.closingRefs_some, Closing.held_saved hl]
    abel
  | @record s s' F C cl call patch patches out hl hf h =>
    refine ha.recorded (Alike.refl _) h rfl rfl rfl ?_ rfl
    simp only [Account.refs, Account.closingRefs_some, Closing.held_patches hl]
    calc s'.refs + (↑out + F) + C.refs + ({ cl with patches } : Closing).held
        = (s'.refs + ↑out) + F + C.refs + ({ cl with patches } : Closing).held := by abel
      _ = _ := by rw [h.refs]; abel
  | @restore s' s F C cl b ledger c values u hl hf hc he h =>
    exact (ha.restored hl hc he).of_alike (alike_addImports h)
  | @restoreVariable s t F C cl ref v current saved u hl hf h hcur =>
    have hal := alike_addImport h
    have ht : Account.Accounted ⟨t, {v} + F, C, some { cl with saved }⟩ := by
      refine ha.alike hal (congrArg _ ?_) fun x hx => mem_backups_of_planes hal.planes hx
      simp only [Account.refs, hal.refs, Account.closingRefs_some, Closing.held_saved hl]
      abel
    refine ht.same rfl rfl (congrArg _ ?_) fun x hx => Or.inl hx
    simp only [Account.refs, Charges.refs_add, Charges.refs_of, Multiset.coe_singleton]
    exact Refs.shift (F + C.refs + Account.closingRefs (some { cl with saved }))
      (refs_withVariable hcur) (by abel) (by abel)
  | @unwindAdded s F C cl call added patches hl hf hcur =>
    refine ha.same rfl rfl (congrArg _ ?_) fun x hx => Or.inl hx
    simp only [Account.refs, Charges.refs_add, Charges.refs_of, Multiset.coe_singleton,
      Account.closingRefs_some, Closing.held_patches hl, ← refs_withCallouts_erase hcur,
      CallPatch.held_added]
    abel
  | @unwindRemoved s' s F C cl call old d patches u hl hf hd h =>
    have hnone : d.callouts[call.handle]? = none :=
      (call?_of_dataspace hd).symm.trans (hch.unwound_removed hl)
    have ht : Account.Accounted ⟨s.withCallouts call.dataspace (·.insert call.handle old), F, C,
        some { cl with patches }⟩ := by
      refine ha.same rfl rfl (congrArg _ ?_) fun x hx => Or.inl hx
      simp only [Account.refs, Account.closingRefs_some, Closing.held_patches hl,
        refs_withCallouts_insert_of_none hd hnone, CallPatch.held_removed]
      abel
    exact ht.of_alike (alike_addImport h)
  | @unwindReplaced s' s F C cl call old new patches u hl hf hcur h =>
    have ht : Account.Accounted ⟨s.withCallouts call.dataspace (·.insert call.handle old), F,
        .of call.dataspace [new.payload] + C, some { cl with patches }⟩ := by
      refine ha.same rfl rfl (congrArg _ ?_) fun x hx => Or.inl hx
      simp only [Account.refs, Charges.refs_add, Charges.refs_of, Multiset.coe_singleton,
        Account.closingRefs_some, Closing.held_patches hl, CallPatch.held_replaced]
      exact Refs.shift (F + C.refs + ({ cl with patches } : Closing).held)
        (refs_withCallouts_insert_of_some hcur) (by abel) (by abel)
    exact ht.of_alike (alike_addImport h)
  | @finish s F C cl hl =>
    obtain ⟨h₁, h₂, h₃, -⟩ := hl
    refine ha.same rfl rfl (congrArg _ ?_) fun x hx => Or.inl ?_
    · have hheld : cl.held = 0 := by
        unfold Closing.held
        rw [h₁, h₂, h₃]
        rfl
      simp only [Account.refs, Account.closingRefs_some, Account.closingRefs_none, hheld]
    · exact List.mem_append.mpr (Or.inr hx)

/-! ## Every step -/

/-- A transfer moves no references, but the new owner of the container forgets its imports of it. -/
theorem Transfer.accounted {ds : DataspaceId} {id : ContainerId} {a b : Account}
    (h : Transfer ds id a b) (ha : a.Accounted) : b.Accounted := by
  obtain ⟨c, hc, hal⟩ := h.alike
  cases h with
  | @mk s F =>
    have howned : Account.Accounted ⟨s.withContainer id { c with owner := ds }, F, 0, none⟩ := by
      refine ha.replaced hc rfl rfl rfl rfl (congrArg _ ?_) (ha.stored.withContainer hc rfl rfl)
        fun o ho => ha.overlays hc ho
      unfold Account.refs
      rw [refs_withContainer_of_eq hc]
      · rfl
      · rfl
    exact howned.of_alike hal

end PlaneStore
