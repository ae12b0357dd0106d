import PlaneStore.Proofs.Contents.StepContents

/-!
# Values keep their standing

A value that a store holds stands for the same thing from step to step: it keeps its place in
the order of values, and the object on which it depends stays the same. So keys stay sorted and told
apart, and what a reader sees in the place of a value changes only when an object goes.
-/

namespace PlaneStore

open Store

namespace Store

variable {s s' s'' : Store} {v : Value}

/-- The object whose end would make a reader see nil in the place of a value. -/
def subject (s : Store) : Value → Option ObjectRef
  | .object obj => some obj
  | .container .record id =>
    match (s.container? id).map Container.kind with
    | some (.record cls) => some cls
    | _ => none
  | _ => none

/-- A value is lost if its subject is. -/
theorem lost_eq_subject (s : Store) (v : Value) :
    s.lost v = (s.subject v).any s.objects.isDestroyed := by
  unfold lost subject
  cases v with
  | container shape id =>
    cases shape with
    | record =>
      cases hk : (s.container? id).map Container.kind with
      | none => simp only [hk, Option.any_none]
      | some k => cases k <;> simp only [hk, Option.any_none, Option.any_some]
    | _ => rfl
  | _ => rfl

/-- A value stands in the second store for what it stood for in the first. -/
structure Stands (s s' : Store) (v : Value) : Prop where
  place : s'.heap.place v = s.heap.place v
  text : ∀ id, v = .string id → ∃ e, s'.heap.strings.get? id.slot = some e
  container : ∀ shape id, v = .container shape id → ∃ c, s'.container? id = some c
  subject : s'.subject v = s.subject v

namespace Stands

theorem identity (h : Stands s s' v) : s'.heap.identity v = s.heap.identity v :=
  Heap.identity_eq_of_place h.place

theorem lost (h : Stands s s' v) (ho : s'.objects = s.objects) : s'.lost v = s.lost v := by
  rw [lost_eq_subject, lost_eq_subject, h.subject, ho]

theorem alive (h : Stands s s' v) (ho : s'.objects = s.objects) (ha : s.Alive v) : s'.Alive v :=
  alive_of_lost_eq ((h.lost ho).trans ha.lost_eq) h.container

/-- What a value stands for is a matter of the slot that it addresses. -/
theorem of_slots
    (hc : ∀ shape id, v = .container shape id → ∃ c c', s.container? id = some c ∧
      s'.container? id = some c' ∧ c'.tag = c.tag ∧ c'.kind = c.kind)
    (hs : ∀ id, v = .string id → ∃ e e', s.heap.strings.get? id.slot = some e ∧
      s'.heap.strings.get? id.slot = some e' ∧ e'.text = e.text) : Stands s s' v where
  place := by
    cases v with
    | container shape id =>
      obtain ⟨c, c', hc, hc', ht, -⟩ := hc shape id rfl
      unfold Heap.place
      simp only [show s'.heap.containers.get? id.slot = some c' from hc',
        show s.heap.containers.get? id.slot = some c from hc, Option.map_some, ht]
    | string id =>
      obtain ⟨e, e', he, he', ht⟩ := hs id rfl
      unfold Heap.place
      simp only [he, he', Option.map_some, ht]
    | _ => rfl
  text id he := by
    obtain ⟨e, e', -, he', -⟩ := hs id he
    exact ⟨e', he'⟩
  container shape id he := by
    obtain ⟨c, c', -, hc', -⟩ := hc shape id he
    exact ⟨c', hc'⟩
  subject := by
    cases v with
    | container shape id =>
      obtain ⟨c, c', hbefore, hafter, -, hk⟩ := hc shape id rfl
      cases shape with
      | record => simp only [Store.subject, hbefore, hafter, Option.map_some, hk]
      | _ => rfl
    | _ => rfl

end Stands

/-- What is in a slot of the second store was there in the first, with the same tag or text. -/
structure Marks (s s' : Store) : Prop where
  container : ∀ id c', s'.container? id = some c' →
    ∃ c, s.container? id = some c ∧ c'.tag = c.tag ∧ c'.kind = c.kind
  string : ∀ i e', s'.heap.strings.get? i = some e' →
    ∃ e, s.heap.strings.get? i = some e ∧ e'.text = e.text
  objects : s'.objects = s.objects

namespace Marks

protected theorem refl (s : Store) : Marks s s :=
  ⟨fun _ c hc => ⟨c, hc, rfl, rfl⟩, fun _ e he => ⟨e, he, rfl⟩, rfl⟩

protected theorem trans (h : Marks s s') (h' : Marks s' s'') : Marks s s'' where
  container id c'' hc'' := by
    obtain ⟨c', hc', ht', hk'⟩ := h'.container id c'' hc''
    obtain ⟨c, hc, ht, hk⟩ := h.container id c' hc'
    exact ⟨c, hc, ht'.trans ht, hk'.trans hk⟩
  string i e'' he'' := by
    obtain ⟨e', he', ht'⟩ := h'.string i e'' he''
    obtain ⟨e, he, ht⟩ := h.string i e' he'
    exact ⟨e, he, ht'.trans ht⟩
  objects := h'.objects.trans h.objects

/-- A value that is referred to afterwards stands for what it did. -/
theorem stands (hm : Marks s s') {R : Refs} (hb : s'.heap.Balanced R)
    (hv : v.isCounted = true → v ∈ R) : Stands s s' v := by
  refine .of_slots (fun shape id he => ?_) fun id he => ?_
  · subst he
    obtain ⟨c', hc', -⟩ := hb.exists_container (hv rfl)
    obtain ⟨c, hc, ht, hk⟩ := hm.container id c' hc'
    exact ⟨c, c', hc, hc', ht, hk⟩
  · subst he
    obtain ⟨e', he'⟩ := hb.exists_string (hv rfl)
    obtain ⟨e, he, ht⟩ := hm.string id.slot e' he'
    exact ⟨e, e', he, he', ht⟩

end Marks

/-- Tables stay tables as long as what is in them stands. -/
theorem table_of_stands {ps : List Pair} (ht : s.heap.Table ps)
    (h : ∀ p ∈ ps, Stands s s' p.1) : s'.heap.Table ps :=
  ht.congr fun p hp => (h p hp).place

/-- Pending writes belong to their pairs as long as the keys stand for the same things. -/
theorem pending_of_stands {ps : List Pair} {o : Overlay} (hp : s.heap.Pending ps o)
    (h : ∀ p ∈ ps, Stands s s' p.1)
    (ho : ∀ i e, o.entries.get? i = some e → Stands s s' e.key) : s'.heap.Pending ps o :=
  hp.congr (fun i e hi => ⟨(ho i e hi).place, (ho i e hi).text⟩) fun p hp' => (h p hp').place

end Store

/-! ## Every step -/

variable {a b : Account} {e : Effect} {v : Value}

theorem Account.mem_refs_of_placed (hv : v ∈ a.placed) : v ∈ a.refs := by
  rcases Multiset.mem_add.mp hv with hv | hv
  · rcases Multiset.mem_add.mp hv with hv | hv
    · exact a.mem_refs_of_store hv
    · exact a.mem_refs_of_charged hv
  · exact Multiset.mem_add.mpr (Or.inr hv)

/-- Where the container of a slot comes from that is there after a step. -/
theorem Step.container (h : Step e a b) (ha : a.Accounted) {id : ContainerId} {c' : Container}
    (hc' : b.store.container? id = some c') :
    ((∃ F, e = .create id F) ∧ ∀ v ∈ a.placed, v.target? ≠ some (.container id)) ∨
      ∃ c, a.store.container? id = some c ∧ c'.tag = c.tag ∧ c'.kind = c.kind := by
  generalize hx' : c'.content b.store.swap = x'
  have hafter : b.store.content? id = some x' :=
    (content?_of_container hc').trans (congrArg some hx')
  suffices hsame : ((∃ F, e = .create id F) ∧ ∀ v ∈ a.placed, v.target? ≠ some (.container id)) ∨
      ∃ c, a.store.container? id = some c ∧ x'.tag = c.tag ∧ x'.kind = c.kind by
    rw [← hx'] at hsame
    exact hsame
  cases h.content ha hafter with
  | kept hx =>
    obtain ⟨c, hc, rfl⟩ := content?_eq_some.mp hx
    exact Or.inr ⟨c, hc, rfl, rfl⟩
  | made he hid =>
    refine Or.inl ⟨⟨_, he⟩, fun v hv ht => ?_⟩
    have hfree : a.store.heap.count? (.container id) = none := by
      rw [hid]
      exact congrArg (Option.map _) (container?_nextId ha.balanced.containers)
    exact Refs.tally_eq_zero.mp (ha.balanced.free_iff.mp hfree) v
      (Account.mem_refs_of_placed hv) ht
  | becomes hx hbec =>
    obtain ⟨c, hc, rfl⟩ := content?_eq_some.mp hx
    cases hbec with
    | retag tag hfree => exact Or.inl ⟨⟨_, rfl⟩, hfree⟩
    | _ => exact Or.inr ⟨c, hc, rfl, rfl⟩

/-- A text is never changed, and only a request for a text adds one. -/
theorem Step.string (h : Step e a b) (ha : a.Accounted) {i : Nat} {x' : StringEntry}
    (hx' : b.store.heap.strings.get? i = some x') :
    (e = .add ∧ a.store.heap.strings.get? i = none) ∨
      ∃ x, a.store.heap.strings.get? i = some x ∧ x'.text = x.text := by
  have of_eq : b.store.heap.strings = a.store.heap.strings →
      ∃ x, a.store.heap.strings.get? i = some x ∧ x'.text = x.text :=
    fun he => ⟨x', by rw [← he]; exact hx', rfl⟩
  have hplane : ∀ (s : Store) (f : Plane → Plane),
      (s.withPlane f).heap.strings = s.heap.strings := fun s f => by
    rw [(withPlane_fields s f).1]
  cases h with
  | traffic h => exact Or.inr ((h.wanes ha.stored).string i x' hx')
  | upkeep h => cases h <;> exact Or.inr (of_eq rfl)
  | change h => cases h <;> exact Or.inr (of_eq rfl)
  | creation h =>
    cases h with
    | container hv hm h =>
      have hal := alike_link_new ha.balanced.containers rfl h
      exact Or.inr (of_eq ((hplane _ _).trans hal.strings))
    | @string s F C q text =>
      by_cases hi : s.heap.strings.nextCell = i
      · subst hi
        exact Or.inl ⟨rfl, Slab.get?_nextCell ha.balanced.strings⟩
      · refine Or.inr ⟨x', ?_, rfl⟩
        exact (Slab.get?_insert_of_ne hi).symm.trans hx'
    | _ => exact Or.inr (of_eq rfl)
  | writing h =>
    refine Or.inr (of_eq ?_)
    cases h with
    | write => rfl
    | firstWrite hold hv hp hnew h => exact (hplane _ _).trans (alike_dropImport h).strings
    | addCall hd hv h => exact congrArg Heap.strings h.fields.1
    | removeCall hold h₁ h₂ | replaceCall hold hv h₁ h₂ =>
      exact (congrArg Heap.strings h₂.fields.1).trans (alike_dropImport h₁).strings
  | nesting h =>
    refine Or.inr (of_eq ?_)
    cases h with
    | backUp | settle | refile | resave => exact hplane _ _
    | enter | pop | forget | skip | unsave | finish | unwindAdded => rfl
    | record hl hf h => exact congrArg Heap.strings h.fields.1
    | restore hl hf hc he h => exact (alike_addImports h).strings
    | restoreVariable hl hf h => exact (alike_addImport h).strings
    | unwindRemoved hl hf hd h | unwindReplaced hl hf hcur h => exact (alike_addImport h).strings
  | transfer h =>
    obtain ⟨c, hc, hal⟩ := h.alike
    exact Or.inr (of_eq hal.strings)

/-- A value in its place before a step and still referred to after it stands for the same thing. -/
theorem Step.stands (h : Step e a b) (ha : a.Accounted) (hb : b.Accounted) (hv : v ∈ a.placed)
    (hv' : v ∈ b.refs) : Stands a.store b.store v := by
  refine .of_slots (fun shape id he => ?_) fun id he => ?_
  · subst he
    obtain ⟨c', hc', -⟩ := hb.balanced.exists_container hv'
    rcases h.container ha hc' with ⟨-, hfree⟩ | ⟨c, hc, ht, hk⟩
    · exact absurd rfl (hfree _ hv)
    · exact ⟨c, c', hc, hc', ht, hk⟩
  · subst he
    obtain ⟨x, hx⟩ := ha.balanced.exists_string (Account.mem_refs_of_placed hv)
    obtain ⟨x', hx'⟩ := hb.balanced.exists_string hv'
    rcases h.string ha hx' with ⟨-, hnone⟩ | ⟨y, hy, ht⟩
    · rw [hx] at hnone
      cases hnone
    · exact ⟨y, x', hy, hx', ht⟩

theorem Step.objects {a b : Account} {e : Effect} (h : Step e a b) (ha : a.Accounted) :
    b.store.objects = a.store.objects ∨ e = .objects := by
  cases h with
  | traffic h => exact Or.inl (h.wanes ha.stored).objects
  | upkeep h => cases h <;> exact Or.inl rfl
  | change h => cases h <;> exact Or.inl rfl
  | creation h =>
    cases h with
    | container hv hm h =>
      exact Or.inl (((withPlane_fields _ _).2.2.2).trans
        (alike_link_new ha.balanced.containers rfl h).objects)
    | retag | string | dataspace => exact Or.inl rfl
    | spawn | destroy => exact Or.inr rfl
  | writing h =>
    cases h with
    | write => exact Or.inl rfl
    | firstWrite hold hv hp hnew h =>
      exact Or.inl (((withPlane_fields _ _).2.2.2).trans (alike_dropImport h).objects)
    | addCall hd hv h => exact Or.inl h.fields.2.2.2
    | removeCall hold h₁ h₂ | replaceCall hold hv h₁ h₂ =>
      exact Or.inl (h₂.fields.2.2.2.trans (alike_dropImport h₁).objects)
  | nesting h =>
    refine Or.inl ?_
    cases h with
    | backUp | settle | refile | resave => exact (withPlane_fields _ _).2.2.2
    | enter | pop | forget | skip | unsave | finish | unwindAdded => rfl
    | record hl hf h => exact h.fields.2.2.2
    | restore hl hf hc he h => exact (alike_addImports h).objects
    | restoreVariable hl hf h => exact (alike_addImport h).objects
    | unwindRemoved hl hf hd h | unwindReplaced hl hf hcur h => exact (alike_addImport h).objects
  | transfer h =>
    obtain ⟨c, hc, hal⟩ := h.alike
    exact Or.inl hal.objects

theorem Store.level_withPlane (s : Store) (f : Plane → Plane) :
    (s.withPlane f).level = s.level := by
  have h := congrArg List.length (planes_map_withPlane s (f := f) (g := fun _ => ()) fun _ => rfl)
  rwa [List.length_map, List.length_map] at h

/-- To record a patch enters and leaves no region. -/
theorem Store.Recorded.level {s s' : Store} {call : CallRef} {patch : CallPatch} {out : List Value}
    (h : Recorded call patch s out s') : s'.level = s.level := by
  cases h with
  | told => rfl
  | filed | folded | cancelled => exact level_withPlane _ _

/-- Only a plane that is opened or left changes the level. -/
theorem Step.level {a b : Account} {e : Effect} (h : Step e a b) (ha : a.Accounted)
    (he : e ≠ .enter ∧ ∀ folds level, e ≠ .leave folds level) : b.store.level = a.store.level := by
  cases h with
  | traffic h => exact (h.wanes ha.stored).level
  | upkeep h => cases h <;> rfl
  | change h => cases h <;> rfl
  | creation h =>
    cases h with
    | container hv hm h =>
      exact (level_withPlane _ _).trans
        (congrArg List.length (alike_link_new ha.balanced.containers rfl h).planes)
    | retag | string | dataspace | spawn | destroy => rfl
  | writing h =>
    cases h with
    | write => rfl
    | firstWrite hold hv hp hnew h =>
      exact (level_withPlane _ _).trans (congrArg List.length (alike_dropImport h).planes)
    | addCall hd hv h => exact h.level
    | removeCall hold h₁ h₂ | replaceCall hold hv h₁ h₂ =>
      exact h₂.level.trans (congrArg List.length (alike_dropImport h₁).planes)
  | nesting h =>
    cases h with
    | backUp | settle | refile | resave => exact level_withPlane _ _
    | enter => exact absurd rfl he.1
    | pop => exact absurd rfl (he.2 _ _)
    | forget | skip | unsave | finish | unwindAdded => rfl
    | record hl hf h => exact h.level
    | restore hl hf hc he h => exact congrArg List.length (alike_addImports h).planes
    | restoreVariable hl hf h => exact congrArg List.length (alike_addImport h).planes
    | unwindRemoved hl hf hd h | unwindReplaced hl hf hcur h =>
      exact congrArg List.length (alike_addImport h).planes
  | transfer h =>
    obtain ⟨c, hc, hal⟩ := h.alike
    exact congrArg List.length hal.planes

/-- A calm step leaves the slots marked as they were. -/
theorem Step.marks (h : Step e a b) (ha : a.Accounted) (he : e.Calm) : Marks a.store b.store where
  container id c' hc' := by
    rcases h.container ha hc' with ⟨⟨_, rfl⟩, -⟩ | hc
    · exact he.elim
    · exact hc
  string i x' hx' := by
    rcases h.string ha hx' with ⟨rfl, -⟩ | hx
    · exact he.elim
    · exact hx
  objects := by
    rcases h.objects ha with ho | rfl
    · exact ho
    · exact he.elim

/-! ## What containers and backups hold -/

theorem Account.mem_placed_of_content {id : ContainerId} {x : Content}
    (hx : a.store.content? id = some x) (hv : v ∈ x.held) : v ∈ a.placed :=
  Multiset.mem_add.mpr (Or.inl (Multiset.mem_add.mpr (Or.inl (Content.mem_refs hx hv))))

theorem Account.mem_placed_of_charged (hv : v ∈ a.charged.refs) : v ∈ a.placed :=
  Multiset.mem_add.mpr (Or.inl (Multiset.mem_add.mpr (Or.inr hv)))

theorem Backup.mem_held {y : Backup} (hv : v ∈ y.elements) : v ∈ y.held :=
  Multiset.mem_coe.mpr (List.mem_cons_of_mem _ (Array.mem_toList_iff.mpr hv))

theorem Refs.mem_sum {Rs : List Refs} : v ∈ Rs.sum ↔ ∃ R ∈ Rs, v ∈ R := by
  induction Rs with
  | nil => simp
  | cons R Rs ih => simp [ih]

/-- What a backup holds is on a plane, or on the one that is closing. -/
theorem Account.mem_placed_of_backup {y : Backup} (hy : y ∈ a.backups) (hv : v ∈ y.held) :
    v ∈ a.placed := by
  have hsum : ∀ {ledger : List Backup}, y ∈ ledger → v ∈ (ledger.map Backup.held).sum :=
    fun hy => Refs.mem_sum.mpr ⟨_, List.mem_map_of_mem hy, hv⟩
  rcases List.mem_append.mp hy with hy | hy
  · refine Multiset.mem_add.mpr (Or.inr ?_)
    cases hq : a.closing with
    | none =>
      rw [hq] at hy
      cases hy
    | some cl =>
      rw [hq] at hy
      exact Multiset.mem_add.mpr (Or.inl (Multiset.mem_add.mpr (Or.inl (hsum hy))))
  · obtain ⟨p, hp, hy⟩ := List.mem_flatMap.mp hy
    have hplane : v ∈ p.held :=
      Multiset.mem_add.mpr (Or.inl (Multiset.mem_add.mpr (Or.inl (hsum hy))))
    have hplanes : v ∈ (a.store.planes.map Plane.held).sum :=
      Refs.mem_sum.mpr ⟨_, List.mem_map_of_mem hp, hplane⟩
    refine Multiset.mem_add.mpr (Or.inl (Multiset.mem_add.mpr (Or.inl ?_)))
    exact Multiset.mem_add.mpr (Or.inr hplanes)

end PlaneStore
