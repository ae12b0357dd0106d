import PlaneStore.Proofs.Contents.Remnants

/-!
# Looking after containers

Requests that are refused, and those that only read, look after containers: they make elements
resident, merge pending writes, scrub what is destroyed, and take and give up references. Nothing
comes into being by that. Variables, deferred calls and planes stay as they are, and so does what
each container is; of what it holds that is left of which nothing is destroyed.
-/

namespace PlaneStore

open Store

/-- The effects of looking after containers, whether their elements stay in the heap or not. -/
def Effect.Minds : Effect → Prop
  | .still | .scrub _ | .evict _ => True
  | _ => False

theorem Effect.minds_of_tends : ∀ e : Effect, e.Tends → e.Minds
  | _, .still => trivial
  | _, .scrub _ => trivial

theorem Effect.Minds.calm : ∀ e : Effect, e.Minds → e.Calm
  | .still, _ | .scrub _, _ | .evict _, _ => trivial

theorem Effect.Minds.rests : ∀ e : Effect, e.Minds → e.Rests
  | .still, _ | .scrub _, _ | .evict _, _ => trivial

namespace Store

/--
The second store is the first one, but for what containers hold, where their elements are, and what
is gone.
-/
structure Steady (s s' : Store) : Prop where
  limits : s'.limits = s.limits
  container : ∀ id c', s'.container? id = some c' →
    ∃ c, s.container? id = some c ∧ c'.label = c.label
  string : ∀ i e', s'.heap.strings.get? i = some e' →
    ∃ e, s.heap.strings.get? i = some e ∧ e'.text = e.text
  dataspace : ∀ ds, (s'.dataspace? ds).map Dataspace.bare = (s.dataspace? ds).map Dataspace.bare
  planes : s'.planes.map Plane.bare = s.planes.map Plane.bare
  objects : s'.objects = s.objects
  scheduler : s'.scheduler = s.scheduler

variable {s s' s'' : Store}

theorem Wanes.steady (h : Wanes s s') : Steady s s' where
  limits := h.limits
  container id c' hc' := by
    obtain ⟨c, hc, hcore⟩ := h.container id c' hc'
    exact ⟨c, hc, Container.label_of_core hcore⟩
  string := h.string
  dataspace := h.dataspace
  planes := h.planes
  objects := h.objects
  scheduler := h.scheduler

/-- A container is replaced that stays what it is, and the swap with it. -/
theorem steady_replaced {id : ContainerId} {c d : Container} {swap : Swap}
    (hc : s.container? id = some c) (hd : d.label = c.label) :
    Steady s (({ s with swap } : Store).withContainer id d) where
  limits := rfl
  container other c' hc' := by
    rcases container?_withContainer_cases (s := { s with swap }) hc hc' with ⟨rfl, rfl⟩ | ⟨-, hold⟩
    · exact ⟨c, hc, hd⟩
    · exact ⟨c', hold, rfl⟩
  string _ e he := ⟨e, he, rfl⟩
  dataspace _ := rfl
  planes := rfl
  objects := rfl
  scheduler := rfl

namespace Steady

protected theorem refl (s : Store) : Steady s s := (Wanes.refl s).steady

protected theorem trans (h : Steady s s') (h' : Steady s' s'') : Steady s s'' where
  limits := h'.limits.trans h.limits
  container id c'' hc'' := by
    obtain ⟨c', hc', he'⟩ := h'.container id c'' hc''
    obtain ⟨c, hc, he⟩ := h.container id c' hc'
    exact ⟨c, hc, he'.trans he⟩
  string i e'' he'' := by
    obtain ⟨e', he', ht'⟩ := h'.string i e'' he''
    obtain ⟨e, he, ht⟩ := h.string i e' he'
    exact ⟨e, he, ht'.trans ht⟩
  dataspace ds := (h'.dataspace ds).trans (h.dataspace ds)
  planes := h'.planes.trans h.planes
  objects := h'.objects.trans h.objects
  scheduler := h'.scheduler.trans h.scheduler

theorem variableAt? (h : Steady s s') (ref : VariableRef) :
    s'.variableAt? ref = s.variableAt? ref := by
  have hv := congrArg (fun o : Option Dataspace => o.bind (·.vars[ref.slot]?))
    (h.dataspace ref.dataspace)
  simp only [Option.bind_map] at hv
  exact hv

theorem call? (h : Steady s s') (call : CallRef) : s'.call? call = s.call? call :=
  call?_of_bare (h.dataspace call.dataspace)

theorem level (h : Steady s s') : s'.level = s.level := by
  have hlength := congrArg List.length h.planes
  rwa [List.length_map, List.length_map] at hlength

/-- Dataspaces neither come nor go. -/
theorem size (h : Steady s s') : s'.dataspaces.size = s.dataspaces.size := by
  have hnone : ∀ i, s'.dataspaces.size ≤ i ↔ s.dataspaces.size ≤ i := fun i => by
    rw [← Array.getElem?_eq_none_iff, ← Array.getElem?_eq_none_iff]
    have hi := congrArg Option.isNone (h.dataspace ⟨i⟩)
    rw [Option.isNone_map, Option.isNone_map] at hi
    rw [← Option.isNone_iff_eq_none, ← Option.isNone_iff_eq_none]
    exact iff_of_eq (congrArg (· = true) hi)
  exact Nat.le_antisymm ((hnone _).mpr (Nat.le_refl _)) ((hnone _).mp (Nat.le_refl _))

end Steady

end Store

/-! ## What is left while no object is destroyed -/

section

variable {s s' : Store} {v w : Value} {k : Identity} {o : Option Value}

/-- A value is left, unless it is lost already. -/
theorem Value.Fades.left (h : v.Fades s s' w) (ho : s'.objects = s.objects) :
    w = v ∨ s.lost v = true ∧ w = .nil := by
  cases h with
  | kept => exact .inl rfl
  | lost h hd =>
    refine .inr ⟨?_, rfl⟩
    rw [lost_eq_subject, h]
    exact ho ▸ hd.destroyed

/-- An entry is left, unless one half of it is lost already. -/
theorem Value.FadesUnder.left (h : v.FadesUnder s s' k o) (ho : s'.objects = s.objects) :
    o = some v ∨ o = none ∧ s.spares k v = false := by
  cases h with
  | kept => exact .inl rfl
  | @lost obj h hd =>
    have hgone : s.objects.isDestroyed obj = true := ho ▸ hd.destroyed
    refine .inr ⟨rfl, ?_⟩
    unfold Store.spares
    rw [gone_eq_keySubject, lost_eq_subject]
    rcases h with h | h
    · rw [h, Option.any_some, hgone]
      rfl
    · rw [h, Option.any_some, hgone]
      exact Bool.and_false _

end

/-! ## Along a chain of steps -/

section

variable {E : Effect → Prop} {e : Effect} {a b : Account} {id : ContainerId} {x' : Content}

theorem Upkeep.holdsSteady {id : ContainerId} (h : Upkeep id e a b) : Steady a.store b.store := by
  cases h with
  | load hc | evict hc | scrub hc | absorb hc =>
    refine steady_replaced hc ?_
    rfl
  | @compact s F C q c values live told w hc =>
    exact @steady_replaced s id c _ w hc (by exact rfl)
  | @report s F C q c hc =>
    have hlabel : ({ c with sizeReported := true } : Container).label = c.label := rfl
    have hsteady := @steady_replaced s id c _ (s.swap.markSizeChanged id) hc hlabel
    exact hsteady

theorem Step.holdsSteady (h : Step e a b) (ha : a.Accounted) (he : e.Minds) :
    Steady a.store b.store := by
  cases h with
  | traffic h => exact (h.wanes ha.stored).steady
  | upkeep h => exact h.holdsSteady
  | change => exact he.elim
  | creation h => cases h <;> exact he.elim
  | writing h => cases h <;> exact he.elim
  | nesting h => cases h <;> exact he.elim
  | transfer => exact he.elim

theorem Path.holdsSteady (h : Path E a b) (ha : a.Kept) (hE : ∀ e, E e → e.Minds) :
    Steady a.store b.store := by
  induction h with
  | refl => exact .refl _
  | tail h he hs ih => exact ih.trans (hs.holdsSteady (h.kept ha).accounted (hE _ he))

/-- What was left of a container is left of it after a step. -/
theorem Step.fading (h : Step e a b) (ha : a.Kept) (he : e.Minds)
    (hx' : b.store.content? id = some x') :
    ∃ x, a.store.content? id = some x ∧
      ∀ {s : Store} {x₀ : Content}, x₀.Fades s a.store x → x₀.Fades s b.store x' := by
  have hb := h.kept ha
  have hstands : ∀ {s : Store} {x₀ : Content}, x₀.Fades s a.store x' → x₀.Fades s b.store x' :=
    fun hf => hf.of_stands (h.precedes ha.accounted)
      (fun v hv => Content.stands h ha.accounted hb.accounted hx' hv) (hb.tabled.content hx')
  cases h.content ha.accounted hx' with
  | kept hx => exact ⟨x', hx, hstands⟩
  | @becomes x _ hx hbec =>
    have hsame : x'.owner = x.owner ∧ x'.home = x.home := by
      cases hbec with
      | scrub | absorb | compact => exact ⟨rfl, rfl⟩
      | _ => exact he.elim
    exact ⟨x, hx, fun hf => hstands (hf.tended hbec (Effect.Minds.rests e he) hsame.1 hsame.2
      (ha.seasoned.content hx) (Content.whole ha.accounted hx) (ha.tabled.content hx))⟩
  | made hcreate => exact (hcreate ▸ he).elim

/-- On such a path a content fades, and nothing is added to it. -/
theorem Path.fading (h : Path E a b) (ha : a.Kept) (hE : ∀ e, E e → e.Minds)
    (hx' : b.store.content? id = some x') :
    ∃ x, a.store.content? id = some x ∧ x.Fades a.store b.store x' := by
  have hall : ∃ x, a.store.content? id = some x ∧
      ∀ {s : Store} {x₀ : Content}, x₀.Fades s a.store x → x₀.Fades s b.store x' := by
    induction h generalizing x' with
    | refl => exact ⟨x', hx', fun hf => hf⟩
    | tail h he hs ih =>
      obtain ⟨y, hy, hstep⟩ := hs.fading (h.kept ha) (hE _ he) hx'
      obtain ⟨x, hx, hbefore⟩ := ih hy
      exact ⟨x, hx, fun hf => hstep (hbefore hf)⟩
  obtain ⟨x, hx, hf⟩ := hall
  exact ⟨x, hx, hf (.refl _ _)⟩

end

end PlaneStore
