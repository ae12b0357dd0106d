import PlaneStore.Proofs.Clients.DisciplinedClients
import PlaneStore.Proofs.Contents.UpkeepEffects

/-!
# Refused requests

A request that is refused has looked at containers at most. All that clients can tell by it is that
references to destroyed objects have become nil, or their pairs have gone; and that they would have
seen anyway.
-/

namespace PlaneStore

open Store

/-- Nothing has come of a request but that containers were looked at. -/
structure Store.Untouched (s s' : Store) : Prop where
  vars : ∀ ref, s'.variableAt? ref = s.variableAt? ref
  callouts : ∀ ds, (s'.dataspace? ds).map Dataspace.callouts =
    (s.dataspace? ds).map Dataspace.callouts
  planes : s'.planes.map Plane.bare = s.planes.map Plane.bare
  scheduler : s'.scheduler = s.scheduler
  dataspaces : s'.dataspaces.size = s.dataspaces.size
  /-- No container has come into being, and those that are left are what they were. -/
  containers : ∀ id x', s'.container? id = some x' →
    ∃ x, s.container? id = some x ∧
      x'.home = x.home ∧ x'.owner = x.owner ∧ x'.tag = x.tag ∧ x'.kind = x.kind
  strings : ∀ i e', s'.heap.strings.get? i = some e' →
    ∃ e, s.heap.strings.get? i = some e ∧ e'.text = e.text
  elements : ∀ id x x', s.content? id = some x → s'.content? id = some x' → x.kind ≠ .mapping →
    List.Forall₂ (fun v w => w = v ∨ s.lost v = true ∧ w = .nil) x.buffer.toList x'.buffer.toList
  entries : ∀ id x x', s.content? id = some x → s'.content? id = some x' → x.kind = .mapping →
    ∀ k, s'.entryAt? id k = s.entryAt? id k ∨
      s'.entryAt? id k = none ∧ ∃ v, s.entryAt? id k = some v ∧ s.spares k v = false

/-- Looking after containers touches nothing. -/
theorem Path.untouched {a b : Account} (h : Path Effect.Tends a b) (ha : a.Kept) :
    Untouched a.store b.store := by
  have hsteady := h.holdsSteady ha Effect.minds_of_tends
  have hfades : ∀ {id x x'}, a.store.content? id = some x → b.store.content? id = some x' →
      x.Fades a.store b.store x' := fun hx hx' => by
    obtain ⟨y, hy, hf⟩ := h.fading ha Effect.minds_of_tends hx'
    obtain rfl := Option.some.inj (hx.symm.trans hy)
    exact hf
  refine
    { vars := hsteady.variableAt?
      callouts := fun ds => ?_
      planes := hsteady.planes
      scheduler := hsteady.scheduler
      dataspaces := hsteady.size
      containers := fun id x' hx' => ?_
      strings := hsteady.string
      elements := fun id x x' hx hx' hk => ?_
      entries := fun id x x' hx hx' hk k => ?_ }
  · have hd := congrArg (Option.map Dataspace.callouts) (hsteady.dataspace ds)
    rw [Option.map_map, Option.map_map] at hd
    exact hd
  · obtain ⟨x, hx, hlabel⟩ := hsteady.container id x' hx'
    simp only [Container.label, Prod.mk.injEq] at hlabel
    exact ⟨x, hx, hlabel.2.2.2, hlabel.2.2.1, hlabel.2.1, hlabel.1⟩
  · exact ((hfades hx hx').elements hk).imp fun v w hvw => hvw.left hsteady.objects
  · rw [entryAt?_of_content hx, entryAt?_of_content hx']
    cases hv : x.find a.store.heap k with
    | none => exact .inl ((hfades hx hx').absent hk k hv)
    | some v =>
      rcases ((hfades hx hx').entries hk hv).left hsteady.objects with hkept | ⟨hnone, hlost⟩
      · exact .inl hkept
      · exact .inr ⟨hnone, v, rfl, hlost⟩

namespace Client

variable {limits : Limits} {c c' : Client} {op : Operation} {refusal : Refusal}

/-- Whatever was asked for, with whatever arguments: if it is refused, nothing has changed. -/
theorem Reachable.refused_untouched (h : Reachable limits c)
    (hr : c.Requests op (.error refusal) c') : c.store.Untouched c'.store := by
  have htends : ∀ e : Effect, Effect.Within op c.owned c'.store.level (.error refusal) e →
      e.Tends := by
    intro e he
    cases e with
    | still => exact .still
    | scrub id => exact .scrub id
    | leave folds n | left n => obtain ⟨⟨a, ha⟩, -⟩ := he; cases ha
    | create id F => obtain ⟨-, -, kind, ha⟩ := he; cases ha
    | evict id | transfer ds id | add => obtain ⟨⟨a, ha⟩, -⟩ := he; cases ha
    | change | restore =>
      obtain ⟨⟨a, ha⟩, -⟩ := he
      cases ha
    | write | nest | enter | record | objects =>
      obtain ⟨a, ha⟩ := he
      cases ha
  exact Path.untouched ((hr.path h.kept).mono htends) h.kept

/-- Requests after which an array holds an object that is destroyed. -/
def bereaved : List Operation :=
  [.createDataspace 1, .spawn, .createArrayOf ⟨0⟩ [.object ⟨0, 0⟩, .int 7], .destroy ⟨0, 0⟩]

/-- A range is refused for its bounds when the array has been scrubbed. -/
theorem refused_untouched_bereaved : ∃ c c', Reachable {} c ∧
    c.Requests (.range (.container .array ⟨0⟩) 1 5) (.error (.badRange 1 5 2)) c' ∧
    (c.store.content? ⟨0⟩).map Content.buffer = some #[.object ⟨0, 0⟩, .int 7] ∧
    (c'.store.content? ⟨0⟩).map Content.buffer = some #[.nil, .int 7] ∧
    c.store.Untouched c'.store := by
  obtain ⟨c, hc, hf⟩ := exists_visit bereaved
    (fun c => ((c.store.content? ⟨0⟩).map Content.buffer,
      (c.request? (.range (.container .array ⟨0⟩) 1 5)).map fun x =>
        (x.1, (x.2.store.content? ⟨0⟩).map Content.buffer)))
    (a := (some #[.object ⟨0, 0⟩, .int 7],
      some (.error (.badRange 1 5 2), some #[.nil, .int 7]))) (by cbv)
  obtain ⟨hbefore, hf⟩ := Prod.mk.inj hf
  obtain ⟨⟨outcome, c'⟩, hr, hx⟩ := Option.map_eq_some_iff.mp hf
  obtain ⟨rfl, hafter⟩ := Prod.mk.inj hx
  have hr := request?_eq_some.mp hr
  exact ⟨c, c', hc, hr, hbefore, hafter, Reachable.refused_untouched hc hr⟩

end Client

end PlaneStore
