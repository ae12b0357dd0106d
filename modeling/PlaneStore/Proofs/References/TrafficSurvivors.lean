import PlaneStore.Proofs.Eviction.EvictedBuffers

/-!
# What survives the traffic of references

When references are taken and given up, containers and strings may go, but none comes, and those
that stay are as they were but for their counts and their places on sweep lists. `Wanes` says so of
two stores; it is what the code relies on where it releases something in the middle of a change.
-/

namespace PlaneStore

/-- A container without its count and its place on a sweep list. -/
def Container.core (c : Container) : Container :=
  { c with refcount := 0, prev := none, next := none }

/-- What a container is, whatever it holds. -/
def Container.label (c : Container) : Kind × Nat × DataspaceId × Nat :=
  (c.kind, c.tag, c.owner, c.home)

namespace Container

theorem core_of_bare {c d : Container} (h : d.bare = c.bare) : d.core = c.core := by
  have := congrArg (fun e : Container => { e with refcount := 0 }) h
  exact this

variable {c d : Container} (h : d.core = c.core)

include h

theorem kind_of_core : d.kind = c.kind := show d.core.kind = c.core.kind by rw [h]

theorem elements_of_core : d.elements = c.elements :=
  show d.core.elements = c.core.elements by rw [h]

theorem overlay_of_core : d.overlay = c.overlay := show d.core.overlay = c.core.overlay by rw [h]

theorem home_of_core : d.home = c.home := show d.core.home = c.core.home by rw [h]

theorem owner_of_core : d.owner = c.owner := show d.core.owner = c.core.owner by rw [h]

theorem tag_of_core : d.tag = c.tag := show d.core.tag = c.core.tag by rw [h]

theorem label_of_core : d.label = c.label := show d.core.label = c.core.label by rw [h]

theorem scrubEpoch_of_core : d.scrubEpoch = c.scrubEpoch :=
  show d.core.scrubEpoch = c.core.scrubEpoch by rw [h]

end Container

/-- A plane without its census. -/
def Plane.bare (p : Plane) : Plane := { p with census := ∅ }

namespace Store

/-- What is in the second store was in the first, where it may have been more. -/
structure Wanes (s s' : Store) : Prop where
  limits : s'.limits = s.limits
  container : ∀ id c', s'.container? id = some c' →
    ∃ c, s.container? id = some c ∧ c'.core = c.core
  string : ∀ i e', s'.heap.strings.get? i = some e' →
    ∃ e, s.heap.strings.get? i = some e ∧ e'.text = e.text
  buffer : ∀ id c', s'.container? id = some c' → c'.buffer s'.swap = c'.buffer s.swap
  dataspace : ∀ ds, (s'.dataspace? ds).map Dataspace.bare = (s.dataspace? ds).map Dataspace.bare
  planes : s'.planes.map Plane.bare = s.planes.map Plane.bare
  objects : s'.objects = s.objects
  scheduler : s'.scheduler = s.scheduler

namespace Wanes

variable {s s' s'' : Store}

protected theorem refl (s : Store) : Wanes s s :=
  ⟨rfl, fun _ c hc => ⟨c, hc, rfl⟩, fun _ e he => ⟨e, he, rfl⟩, fun _ _ _ => rfl, fun _ => rfl,
    rfl, rfl, rfl⟩

protected theorem trans (h : Wanes s s') (h' : Wanes s' s'') : Wanes s s'' where
  limits := h'.limits.trans h.limits
  container id c'' hc'' := by
    obtain ⟨c', hc', he'⟩ := h'.container id c'' hc''
    obtain ⟨c, hc, he⟩ := h.container id c' hc'
    exact ⟨c, hc, he'.trans he⟩
  string i e'' he'' := by
    obtain ⟨e', he', ht'⟩ := h'.string i e'' he''
    obtain ⟨e, he, ht⟩ := h.string i e' he'
    exact ⟨e, he, ht'.trans ht⟩
  buffer id c'' hc'' := by
    obtain ⟨c', hc', he'⟩ := h'.container id c'' hc''
    rw [h'.buffer id c'' hc'', Container.buffer_congr (Container.elements_of_core he'),
      h.buffer id c' hc', Container.buffer_congr (Container.elements_of_core he')]
  dataspace ds := (h'.dataspace ds).trans (h.dataspace ds)
  planes := h'.planes.trans h.planes
  objects := h'.objects.trans h.objects
  scheduler := h'.scheduler.trans h.scheduler

theorem level (h : Wanes s s') : s'.level = s.level := by
  have := congrArg List.length h.planes
  simpa [Store.level] using this

end Wanes

variable {s s' : Store}

theorem Alike.wanes (h : Alike s s') : Wanes s s' where
  limits := h.limits
  container id c' hc' := by
    obtain ⟨c, hc, hbare⟩ := h.symm.exists_container hc'
    exact ⟨c, hc, (Container.core_of_bare hbare).symm⟩
  string i e' he' := ⟨e', h.strings ▸ he', rfl⟩
  buffer id c' _ := by rw [h.swap]
  dataspace := h.dataspace
  planes := by rw [h.planes]
  objects := h.objects
  scheduler := h.scheduler

/-- What a reader sees is seen as it is. -/
theorem alive_of_scrubbed {v w : Value} (h : s.scrubbed v = .ok w) : s.Alive w := by
  rcases scrubbed_cases h with rfl | rfl
  · exact h
  · rfl

theorem Alive.lost_eq {v : Value} (h : s.Alive v) : s.lost v = false := by
  have hv := scrubbed_eq h
  cases hl : s.lost v with
  | false => rfl
  | true =>
    rw [seen, hl, if_pos rfl] at hv
    subst hv
    cases hl

theorem Dead.lost_eq {v : Value} (h : s.Dead v) : s.lost v = true := by
  obtain ⟨w, hw, hne⟩ := h
  rw [scrubbed_eq hw] at hne
  cases hl : s.lost v with
  | true => rfl
  | false =>
    rw [seen, hl] at hne
    exact absurd rfl hne

/-- What is not lost, and there if it is a container, is alive. -/
theorem alive_of_lost_eq {v : Value} (hl : s.lost v = false)
    (hv : ∀ shape id, v = .container shape id → ∃ c, s.container? id = some c) : s.Alive v := by
  obtain ⟨w, hw⟩ := exists_scrubbed hv
  have he := scrubbed_eq hw
  rw [seen, hl, if_neg Bool.false_ne_true] at he
  subst he
  exact hw

/-- Only the count of a container changes. -/
theorem wanes_withContainer {id : ContainerId} {c d : Container} (hc : s.container? id = some c)
    (hd : d.core = c.core) : Wanes s (s.withContainer id d) where
  limits := rfl
  container other c' hc' := by
    rcases container?_withContainer_cases hc hc' with ⟨rfl, rfl⟩ | ⟨-, hold⟩
    · exact ⟨c, hc, hd⟩
    · exact ⟨c', hold, rfl⟩
  string i e he := ⟨e, he, rfl⟩
  buffer _ _ _ := rfl
  dataspace _ := rfl
  planes := rfl
  objects := rfl
  scheduler := rfl

theorem Retained.wanes {v : Value} (h : Retained s v s') : Wanes s s' := by
  cases h with
  | scalar => exact .refl _
  | @text id e he =>
    refine { Wanes.refl s with string := fun i e' he' => ?_ }
    by_cases hi : id.slot = i
    · subst hi
      rw [show (s.withString id _).heap.strings.get? id.slot = some _ from
        Slab.get?_set_self he] at he'
      cases he'
      exact ⟨e, he, rfl⟩
    · exact ⟨e', (Slab.get?_set_of_ne hi).symm.trans he', rfl⟩
  | container hc => exact wanes_withContainer hc rfl

/-- Taking a reference frees nothing. -/
theorem Retained.exists_container {v : Value} (h : Retained s v s') {id : ContainerId}
    {c : Container} (hc : s.container? id = some c) :
    ∃ c', s'.container? id = some c' ∧ c'.core = c.core := by
  cases h with
  | scalar | text => exact ⟨c, hc, rfl⟩
  | @container shape other d hd =>
    by_cases ho : other = id
    · subst ho
      obtain rfl := Option.some.inj (hd.symm.trans hc)
      exact ⟨_, container?_withContainer_self hd, rfl⟩
    · exact ⟨c, (container?_withContainer_of_ne ho).trans hc, rfl⟩

theorem Retained.planes {v : Value} (h : Retained s v s') : s'.planes = s.planes := by
  cases h <;> rfl

/-- All but the freed container is left. -/
theorem wanes_without (hs : s.Stored) {id : ContainerId} {c : Container}
    (hc : s.container? id = some c) : Wanes s (s.without id c) where
  limits := rfl
  container other c' hc' := by
    by_cases h : id = other
    · rw [← h, container?_without_self] at hc'
      cases hc'
    · rw [container?_without_of_ne h] at hc'
      exact ⟨c', hc', rfl⟩
  string i e he := ⟨e, he, rfl⟩
  buffer other c' hc' := by
    have h : id ≠ other := by
      rintro rfl
      rw [container?_without_self] at hc'
      cases hc'
    rw [container?_without_of_ne h] at hc'
    cases he : c.elements with
    | resident values => simp only [Store.without, he]
    | evicted ticket n =>
      simp only [Store.without, he]
      exact hs.buffer_load hc he hc' h
  dataspace _ := rfl
  planes := by
    simp only [Store.without, List.map_map]
    rfl
  objects := rfl
  scheduler := rfl

/-- Where a reference is dropped, no more than one container goes. -/
theorem Dropped.wanes {v : Value} {children : List Value} (h : Dropped s v children s')
    (hs : s.Stored) : Wanes s s' := by
  cases h with
  | scalar => exact .refl _
  | @text id e he =>
    refine { Wanes.refl s with string := fun i e' he' => ?_ }
    by_cases hi : id.slot = i
    · subst hi
      rw [show (s.withString id _).heap.strings.get? id.slot = some _ from
        Slab.get?_set_self he] at he'
      cases he'
      exact ⟨e, he, rfl⟩
    · exact ⟨e', (Slab.get?_set_of_ne hi).symm.trans he', rfl⟩
  | @lastText id e he =>
    refine { Wanes.refl s with string := fun i e' he' => ?_ }
    by_cases hi : id.slot = i
    · subst hi
      rw [show (s.withoutString id).heap.strings.get? id.slot = none from
        Slab.get?_erase_self] at he'
      cases he'
    · exact ⟨e', (Slab.get?_erase_of_ne hi).symm.trans he', rfl⟩
  | shared hc => exact wanes_withContainer hc rfl
  | freed hc _ ha => exact (wanes_without hs hc).trans ha.wanes

/-- A dropped reference leaves the elements of the other containers stored. -/
theorem Dropped.stored {v : Value} {children : List Value} (h : Dropped s v children s')
    (hs : s.Stored) : s'.Stored := by
  cases h with
  | scalar => exact hs
  | text | lastText => exact hs.of_elements rfl rfl fun _ c hc => ⟨c, hc, rfl, rfl⟩
  | shared hc => exact hs.withContainer hc rfl rfl
  | freed hc _ ha => exact (hs.without hc).alike ha

theorem Retained.stored {v : Value} (h : Retained s v s') (hs : s.Stored) : s'.Stored := by
  cases h with
  | scalar => exact hs
  | text => exact hs.of_elements rfl rfl fun _ c hc => ⟨c, hc, rfl, rfl⟩
  | container hc => exact hs.withContainer hc rfl rfl

theorem Retained.refs {v : Value} (h : Retained s v s') : s'.refs = s.refs := by
  cases h with
  | scalar | text => rfl
  | container hc =>
    refine refs_withContainer_of_eq hc ?_ ?_
    · rfl
    · rfl

end Store

/-- Up to sweep lists and imports, a transfer only changes the owner. -/
theorem Transfer.alike {ds : DataspaceId} {id : ContainerId} {a b : Account}
    (h : Transfer ds id a b) : ∃ c, a.store.container? id = some c ∧
      Store.Alike (a.store.withContainer id { c with owner := ds }) b.store := by
  cases h with
  | @mk _ _ c d values s₁ s₂ s₃ s₄ u u₃ u₁ u₂ hp hc he howner hd hall h₁ h₂ h₃ h₄ =>
    have hs₂ := (Store.alike_dropImports h₁).trans (Store.alike_unlink h₂)
    obtain ⟨c₂, hc₂, hbare⟩ := hs₂.exists_container hc
    have howner : ({ c₂ with owner := ds } : Container).bare =
        ({ c with owner := ds } : Container).bare :=
      congrArg (fun d : Container => { d with owner := ds }) hbare
    have hs₃ := (hs₂.withContainer hc hc₂ howner).trans (Store.alike_link hc₂ h₃)
    exact ⟨c, hc, (hs₃.trans (Store.alike_withDataspace (by exact fun _ _ => rfl))).trans
      (Store.alike_addImports h₄)⟩

end PlaneStore
