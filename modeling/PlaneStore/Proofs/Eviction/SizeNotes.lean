import PlaneStore.Proofs.Contents.LimitBounds
import PlaneStore.Proofs.Walk.Assignment

/-!
# Reports of sizes

A container remembers how large it was when it was evicted, and whether the swap was told since that
it has another size. `Step.notes` lists what a step can do about this. It is an invariant between
requests that as long as nothing was told, all sizes that the container has, or gets back in a
discard, are the size that it remembers; so a discard has nothing to tell, and compacting tells of a
smaller size.
-/

namespace PlaneStore

open Store

/--
What a container remembers of its evicted image: the size, and whether another one was reported.
-/
def Container.note (c : Container) : Option Nat × Bool := (c.savedSize, c.sizeReported)

theorem Container.note_of_core {c d : Container} (h : d.core = c.core) : d.note = c.note :=
  show d.core.note = c.core.note by rw [h]

/-- A size diverges that was noted, not reported, and is another now. -/
theorem Container.diverges_iff {c : Container} :
    c.Diverges ↔ ∃ n, c.note = (some n, false) ∧ c.size ≠ n := by
  simp only [Container.Diverges, Container.note, Prod.mk.injEq]
  constructor
  · rintro ⟨hquiet, n, hn, hne⟩
    exact ⟨n, ⟨hn, hquiet⟩, hne.symm⟩
  · rintro ⟨n, ⟨hn, hquiet⟩, hne⟩
    exact ⟨hquiet, n, hn, hne.symm⟩

namespace Store

variable {s s' s'' : Store} {id : ContainerId} {c d : Container}

/-- How often another size was reported of a container. -/
def reports (s : Store) (id : ContainerId) : Nat := s.swap.sizeChanges.toList.count id

/-- What containers remember stays, and nothing is reported. -/
structure Mute (s s' : Store) : Prop where
  note : ∀ {id : ContainerId} {c' : Container}, s'.container? id = some c' →
    ∃ c, s.container? id = some c ∧ c'.note = c.note
  changes : s'.swap.sizeChanges = s.swap.sizeChanges

namespace Mute

protected theorem refl (s : Store) : Mute s s := ⟨fun hc => ⟨_, hc, rfl⟩, rfl⟩

protected theorem trans (h : Mute s s') (h' : Mute s' s'') : Mute s s'' where
  note hc := by
    obtain ⟨c', hc', hnote'⟩ := h'.note hc
    obtain ⟨c, hc, hnote⟩ := h.note hc'
    exact ⟨c, hc, hnote'.trans hnote⟩
  changes := h'.changes.trans h.changes

theorem same (hh : s'.heap = s.heap) (hs : s'.swap.sizeChanges = s.swap.sizeChanges) :
    Mute s s' where
  note {id c'} hc := ⟨c', by rwa [container?, hh] at hc, rfl⟩
  changes := hs

theorem of_alike (h : Alike s s') : Mute s s' where
  note {id c'} hc := by
    have hbare := h.container id
    rw [hc, Option.map_some] at hbare
    obtain ⟨c, hc, hsame⟩ := Option.map_eq_some_iff.mp hbare.symm
    exact ⟨c, hc, Container.note_of_core (Container.core_of_bare hsame.symm)⟩
  changes := by rw [h.swap]

theorem withContainer (hc : s.container? id = some c) (hd : d.note = c.note) :
    Mute s (s.withContainer id d) where
  note {other c'} hc' := by
    rcases container?_withContainer_cases hc hc' with ⟨rfl, rfl⟩ | ⟨-, hold⟩
    · exact ⟨c, hc, hd⟩
    · exact ⟨c', hold, rfl⟩
  changes := rfl

theorem withPlane (s : Store) (f : Plane → Plane) : Mute s (s.withPlane f) where
  note {id c'} hc' := ⟨c', by rwa [container?_withPlane] at hc', rfl⟩
  changes := by rw [(withPlane_fields s f).2.1]

end Mute

/-- To record a patch is mute. -/
theorem Recorded.mute {call : CallRef} {patch : CallPatch} {out : List Value}
    (h : Recorded call patch s out s') : Mute s s' := by
  cases h with
  | told => exact .same rfl rfl
  | filed | folded | cancelled => exact .withPlane _ _

theorem Retained.mute {v : Value} (h : Retained s v s') : Mute s s' := by
  cases h with
  | scalar => exact .refl s
  | text => exact ⟨fun hc => ⟨_, hc, rfl⟩, rfl⟩
  | container hc => exact .withContainer hc rfl

theorem Dropped.mute {v : Value} {children : List Value} (h : Dropped s v children s') :
    Mute s s' := by
  cases h with
  | scalar => exact .refl s
  | text | lastText => exact ⟨fun hc => ⟨_, hc, rfl⟩, rfl⟩
  | shared hc => exact .withContainer hc rfl
  | @freed _ id c _ hc hone hal =>
    refine Mute.trans ⟨fun {other c'} hc' => ?_, ?_⟩ (.of_alike hal)
    · by_cases hid : id = other
      · subst hid
        rw [container?_without_self] at hc'
        cases hc'
      · exact ⟨c', (container?_without_of_ne hid).symm.trans hc', rfl⟩
    · unfold Store.without
      cases c.elements <;> rfl

theorem reports_congr (h : s'.swap.sizeChanges = s.swap.sizeChanges) :
    s'.reports id = s.reports id := by
  unfold reports
  rw [h]

/-- Each report is of one container. -/
theorem reports_push {other : ContainerId}
    (h : s'.swap.sizeChanges = s.swap.sizeChanges.push other) :
    s'.reports id = s.reports id + if other = id then 1 else 0 := by
  unfold reports
  rw [h, Array.toList_push, List.count_append, List.count_singleton]
  simp only [beq_iff_eq]

end Store

/-! ## What a step does -/

section

variable {a b : Account} {e : Effect} {id : ContainerId} {c' : Container} {k : Nat}

/--
What a step makes of what a container remembers and of the number of reports. Nothing goes untold:
where compaction leaves something to be told, it found it so.
-/
inductive Store.Notes (s : Store) (id : ContainerId) (c' : Container) (k : Nat) : Effect → Prop
  | kept {e : Effect} {c : Container} (hc : s.container? id = some c) (h : c'.note = c.note)
      (hk : k = s.reports id) (hsize : e = .scrub id → c'.Diverges → c'.size = c.size) :
      Notes s id c' k e
  | made {F : Refs} (h : c'.note = (none, false)) (hk : k = s.reports id) :
      Notes s id c' k (.create id F)
  | evicted {c : Container} (hc : s.container? id = some c) (h : c'.note = (some c.size, false))
      (hk : k = s.reports id) : Notes s id c' k (.evict id)
  | told {e : Effect} {c : Container} {n : Nat} (he : e.Tends) (hc : s.container? id = some c)
      (h : c.note = (some n, false)) (h' : c'.note = (some n, true)) (hsize : c'.size ≠ n)
      (hk : k = s.reports id + 1) : Notes s id c' k e

/-- What is mute keeps the note. -/
theorem Store.Mute.notes {s s' : Store} (h : Mute s s') (hc' : s'.container? id = some c')
    (he : ∀ other, e ≠ .scrub other) : s.Notes id c' (s'.reports id) e := by
  obtain ⟨c, hc, hnote⟩ := h.note hc'
  exact .kept hc hnote (reports_congr h.changes) fun hscrub => absurd hscrub (he id)

/--
Upkeep may report a size or note one, and a compaction reports if there is something to report.
-/
theorem Upkeep.notes {other : ContainerId} (h : Upkeep other e a b)
    (hc' : b.store.container? id = some c') : a.store.Notes id c' (b.store.reports id) e := by
  by_cases hid : other = id
  · subst hid
    have hself : ∀ {s : Store} {c d : Container}, s.container? other = some c →
        (s.withContainer other d).container? other = some c' → d = c' := fun hc hc' =>
      Option.some.inj ((container?_withContainer_self hc).symm.trans hc')
    cases h with
    | @load s F C q c ticket n hc =>
      obtain rfl := hself (s := { s with swap := _ }) hc hc'
      exact .kept hc rfl (reports_congr rfl) fun hscrub => by cases hscrub
    | @evict s F C q c values hc =>
      obtain rfl := hself (s := { s with swap := _ }) hc hc'
      exact .evicted hc rfl (reports_congr rfl)
    | @report s F C q c hc hd =>
      obtain rfl := hself hc hc'
      obtain ⟨n, hnote, hsize⟩ := Container.diverges_iff.mp hd
      refine .told .still hc hnote ?_ hsize ((reports_push rfl).trans (by rw [if_pos rfl]))
      rw [← (Prod.mk.inj hnote).1]
      rfl
    | @scrub s F C q c values seen hc he hk hseen =>
      obtain rfl := hself hc hc'
      refine .kept hc rfl (reports_congr rfl) fun _ _ => ?_
      have hlength : seen.toArray.size = values.size := by
        rw [List.size_toArray, ← hseen.length_eq, Array.length_toList]
      unfold Container.size
      rw [he]
      simp only [Elements.length, hlength]
    | absorb hc =>
      obtain rfl := hself hc hc'
      exact .kept hc rfl (reports_congr rfl) fun hscrub => by cases hscrub
    | @compact s F C q c values live told swap hc he ho hk hlive htold =>
      obtain rfl := hself hc hc'
      cases htold with
      | silent hquiet => exact .kept hc rfl (reports_congr rfl) fun _ hd => hquiet hd
      | told hd =>
        obtain ⟨n, hnote, hsize⟩ := Container.diverges_iff.mp hd
        refine .told (.scrub other) hc hnote ?_ hsize
          ((reports_push rfl).trans (by rw [if_pos rfl]))
        rw [← (Prod.mk.inj hnote).1]
        rfl
  · have hold : ∀ {s : Store} {d : Container}, (s.withContainer other d).container? id = some c' →
        s.container? id = some c' := fun hc' => (container?_withContainer_of_ne hid).symm.trans hc'
    have hpush : ∀ {s s' : Store}, s'.swap.sizeChanges = s.swap.sizeChanges.push other →
        s'.reports id = s.reports id := fun hs => (reports_push hs).trans (by rw [if_neg hid]; rfl)
    cases h with
    | @load s F C q c ticket n hc | @evict s F C q c values hc =>
      exact .kept (hold (s := { s with swap := _ }) hc') rfl (reports_congr rfl) fun _ _ => rfl
    | report hc => exact .kept (hold hc') rfl (hpush rfl) fun _ _ => rfl
    | scrub | absorb => exact .kept (hold hc') rfl (reports_congr rfl) fun _ _ => rfl
    | compact hc he ho hk hlive htold =>
      refine .kept (hold hc') rfl ?_ fun _ _ => rfl
      cases htold with
      | silent => exact reports_congr rfl
      | told => exact hpush rfl

theorem Change.mute {ed : Edit} (h : Change id ed a b) : Mute a.store b.store := by
  cases h with
  | overwrite hc | overwriteValue hc | overwritePending hc | park hc | unpark hc | deletePair hc =>
    exact .withContainer hc rfl

theorem Creation.changes (h : Creation e a b) (ha : a.Accounted) :
    b.store.swap.sizeChanges = a.store.swap.sizeChanges := by
  cases h with
  | @container t s F C owner kind values u hv hm h =>
    exact ((Mute.of_alike (alike_link_new ha.balanced.containers rfl h)).trans
      (.withPlane t fun p => { p with census := p.census.insert s.heap.nextId .fresh })).changes
  | retag | string | dataspace | spawn | destroy => rfl

/-- A new container has nothing noted. -/
theorem Creation.notes (h : Creation e a b) (ha : a.Accounted)
    (hc' : b.store.container? id = some c') : a.store.Notes id c' (b.store.reports id) e := by
  cases h with
  | @container t s F C owner kind values u hv hm h =>
    have hs := ha.balanced.containers
    have hlinked := (Mute.of_alike (alike_link_new hs rfl h)).trans
      (.withPlane t fun p => { p with census := p.census.insert s.heap.nextId .fresh })
    obtain ⟨c, hc, hnote⟩ := hlinked.note hc'
    have hk := @reports_congr s _ id (hlinked.changes.trans rfl)
    by_cases hid : s.heap.nextId = id
    · subst hid
      obtain rfl := Option.some.inj ((container?_withNew_self hs).symm.trans hc)
      exact .made hnote hk
    · rw [container?_withNew_of_ne hid] at hc
      exact .kept hc hnote hk nofun
  | @retag s F C q other c tag hc hone =>
    exact ((Mute.withContainer (d := { c with tag }) hc rfl).trans
      ⟨fun hc => ⟨_, hc, rfl⟩, rfl⟩).notes hc' nofun
  | string | dataspace | spawn | destroy =>
    exact Mute.notes ⟨fun hc => ⟨_, hc, rfl⟩, rfl⟩ hc' nofun

theorem Writing.mute (h : Writing e a b) : Mute a.store b.store := by
  cases h with
  | write => exact .same rfl rfl
  | firstWrite _ _ _ _ h =>
    refine Mute.trans ?_ ((Mute.of_alike (alike_dropImport h)).trans (.withPlane _ _))
    exact .same rfl rfl
  | addCall _ _ h =>
    refine Mute.trans ?_ h.mute
    exact .same rfl rfl
  | removeCall _ h₁ h₂ | replaceCall _ _ h₁ h₂ =>
    refine Mute.trans ?_ ((Mute.of_alike (alike_dropImport h₁)).trans h₂.mute)
    exact .same rfl rfl

theorem Nesting.mute (h : Nesting e a b) : Mute a.store b.store := by
  cases h with
  | @backUp s F C id c values p rest hc =>
    exact (Mute.withContainer (d := { c with home := s.level }) hc rfl).trans (.withPlane _ _)
  | enter | pop | forget | skip | unsave | finish | unwindAdded => exact .same rfl rfl
  | refile | resave => exact .withPlane _ _
  | settle _ _ hc =>
    refine (Mute.withContainer hc ?_).trans (.withPlane _ _)
    split <;> rfl
  | record _ _ h => exact h.mute
  | restore _ _ hc he h =>
    exact (Mute.withContainer hc (by exact rfl)).trans (.of_alike (alike_addImports h))
  | restoreVariable _ _ h => exact (Mute.of_alike (alike_addImport h)).trans (.same rfl rfl)
  | unwindRemoved _ _ _ h | unwindReplaced _ _ _ h =>
    refine Mute.trans ?_ (.of_alike (alike_addImport h))
    exact .same rfl rfl

/-- What every step makes of a note and of the reports. -/
theorem Step.notes (h : Step e a b) (ha : a.Accounted) (hc' : b.store.container? id = some c') :
    a.store.Notes id c' (b.store.reports id) e := by
  cases h with
  | traffic h =>
    refine Mute.notes ?_ hc' nofun
    cases h with
    | retain _ h => exact (retain_eq_ok h).mute
    | drop h => exact (dropReference_eq_ok h).mute
    | charge h => exact .of_alike (alike_addImport h)
    | discharge h => exact .of_alike (alike_dropImport h)
  | upkeep h => exact h.notes hc'
  | change h => exact h.mute.notes hc' nofun
  | creation h => exact h.notes ha hc'
  | writing h =>
    have hmute := h.mute
    cases h <;> exact hmute.notes hc' nofun
  | nesting h =>
    have hmute := h.mute
    cases h <;> exact hmute.notes hc' nofun
  | transfer h =>
    obtain ⟨c, hc, hal⟩ := h.alike
    exact ((Mute.withContainer hc (by exact rfl)).trans (.of_alike hal)).notes hc' nofun

end

/-! ## What is never evicted -/

section

variable {E : Effect → Prop} {a b : Account} {e : Effect} {id : ContainerId}

/-- A report is of a container that had a size noted and not reported. -/
theorem Upkeep.reports {other : ContainerId} (h : Upkeep other e a b) :
    b.store.reports id = a.store.reports id ∨
      ∃ c n, a.store.container? id = some c ∧ c.note = (some n, false) := by
  have hpush : ∀ {s s' : Store} {c d : Container}, s.container? other = some c → d.Diverges →
      d.note = c.note → s'.swap.sizeChanges = s.swap.sizeChanges.push other →
      s'.reports id = s.reports id ∨
        ∃ c n, s.container? id = some c ∧ c.note = (some n, false) := by
    intro s s' c d hc hd hnote hs
    by_cases hid : other = id
    · subst hid
      obtain ⟨n, hn, -⟩ := Container.diverges_iff.mp hd
      exact .inr ⟨c, n, hc, hnote.symm.trans hn⟩
    · exact .inl ((reports_push hs).trans (by rw [if_neg hid]; rfl))
  cases h with
  | load | evict | scrub | absorb => exact .inl (reports_congr rfl)
  | report hc hd => exact hpush hc hd rfl rfl
  | compact hc he ho hk hlive htold =>
    cases htold with
    | silent => exact .inl (reports_congr rfl)
    | told hd => exact hpush hc hd rfl rfl

/-- Only of what was evicted, and of which nothing was reported since, something is reported. -/
theorem Step.reports (h : Step e a b) (ha : a.Accounted) :
    b.store.reports id = a.store.reports id ∨
      ∃ c n, a.store.container? id = some c ∧ c.note = (some n, false) := by
  cases h with
  | traffic h =>
    cases h with
    | retain _ h => exact .inl (reports_congr (retain_eq_ok h).mute.changes)
    | drop h => exact .inl (reports_congr (dropReference_eq_ok h).mute.changes)
    | charge h => exact .inl (reports_congr (Mute.of_alike (alike_addImport h)).changes)
    | discharge h => exact .inl (reports_congr (Mute.of_alike (alike_dropImport h)).changes)
  | upkeep h => exact h.reports
  | change h => exact .inl (reports_congr h.mute.changes)
  | creation h => exact .inl (reports_congr (h.changes ha))
  | writing h => exact .inl (reports_congr h.mute.changes)
  | nesting h => exact .inl (reports_congr h.mute.changes)
  | transfer h =>
    obtain ⟨c, hc, hal⟩ := h.alike
    exact .inl (reports_congr
      ((Mute.withContainer hc (by exact rfl)).trans (.of_alike hal)).changes)

/-- As long as nothing in a slot is evicted, nothing is reported of it. -/
theorem Path.untold (h : Path E a b) (ha : a.Kept) (hE : ∀ e, E e → e ≠ .evict id)
    (hnew : ∀ c, a.store.container? id = some c → c.note = (none, false)) :
    b.store.reports id = a.store.reports id ∧
      ∀ c, b.store.container? id = some c → c.note = (none, false) := by
  induction h with
  | refl => exact ⟨rfl, hnew⟩
  | tail h he hs ih =>
    obtain ⟨hk, hmid⟩ := ih
    have hb := (h.kept ha).accounted
    refine ⟨(Or.resolve_right (hs.reports hb) ?_).trans hk, fun c' hc' => ?_⟩
    · rintro ⟨c, n, hc, hnote⟩
      cases (hmid c hc).symm.trans hnote
    · cases hs.notes hb hc' with
      | kept hc hnote => exact hnote.trans (hmid _ hc)
      | made hnote => exact hnote
      | evicted => exact absurd rfl (hE _ he)
      | told _ hc hnote => cases (hmid _ hc).symm.trans hnote

end

/-! ## Sizes that a container has or gets back -/

/-- A size that a container has, or gets back in a discard. -/
def Account.Offers (a : Account) (id : ContainerId) (m : Nat) : Prop :=
  (∃ x ∈ a.store.content? id, x.size = m) ∨ ∃ y ∈ a.backups, y.container = id ∧ y.entries = m

/-- As long as nothing was reported, there is nothing to report. -/
def Account.Informed (a : Account) (id : ContainerId) : Prop :=
  ∀ c n, a.store.container? id = some c → c.note = (some n, false) → ∀ m, a.Offers id m → m = n

/-- The effects that may give a container another size than it had, or gets back in a discard. -/
def Effect.Resizes (id : ContainerId) : Effect → Prop
  | .scrub other | .change other (.entry _ _) | .create other _ => other = id
  | _ => False

/-- The effects that make a container no larger, apart from what a discard brings back. -/
def Effect.Eases (id : ContainerId) : Effect → Prop
  | .change other (.entry _ _) | .create other _ | .evict other => other ≠ id
  | _ => True

section

variable {a b : Account} {e : Effect} {id : ContainerId} {c c' : Container} {m : Nat}

theorem Account.offers_size (ha : a.Accounted) (hc : a.store.container? id = some c) :
    a.Offers id c.size :=
  .inl ⟨_, content?_of_container hc, ha.size_content hc⟩

/-- Replacing an element of an array or record does not change its size. -/
theorem Content.Becomes.size_element {x x' : Content} {i : Nat} {v : Value}
    (h : Content.Becomes a id (.change id (.element i v)) x x') : x'.size = x.size := by
  cases h with
  | overwrite =>
    unfold Content.size
    rw [Array.size_setIfInBounds]

/-- A new size is had first. -/
theorem Step.offers (h : Step e a b) (ha : a.Kept) (hm : b.Offers id m) :
    a.Offers id m ∨ e.Resizes id ∧ ∃ x ∈ b.store.content? id, x.size = m := by
  rcases hm with ⟨x', hx', rfl⟩ | ⟨y, hy, rfl, rfl⟩
  · by_cases hleaves : e.Leaves id
    · obtain ⟨x, hx, -, hsize⟩ := (Path.single (E := (· = e)) rfl h).size ha
        (by rintro _ rfl; exact hleaves) hx'
      exact .inl (.inl ⟨x, hx, hsize.symm⟩)
    by_cases hresizes : e.Resizes id
    · exact .inr ⟨hresizes, x', hx', rfl⟩
    cases h.content ha.accounted hx' with
    | kept hx => exact .inl (.inl ⟨x', hx, rfl⟩)
    | @becomes x _ hx hbec =>
      cases e with
      | change other ed =>
        obtain rfl : other = id := not_ne_iff.mp hleaves
        cases ed with
        | element i v => exact .inl (.inl ⟨x, hx, hbec.size_element.symm⟩)
        | entry k r => exact absurd rfl hresizes
      | restore other =>
        cases hbec with
        | @restore _ cl y ledger hq hl hf hy =>
          have hmem := Account.mem_backups_of_closing hq hl
          refine .inl (.inr ⟨y, hmem, hy, ?_⟩)
          exact (Content.size_restore (ha.accounted.backup_kind hmem (hy ▸ hx))).symm
      | scrub other | create other F =>
        exact absurd (not_ne_iff.mp hleaves) hresizes
      | _ => exact absurd trivial hleaves
    | made he hid => exact absurd (by rw [he]; exact rfl) hresizes
  · rcases h.backups ha.accounted hy with hold | ⟨x, hx, hrec, hclean, -⟩
    · exact .inl (.inr ⟨y, hold, rfl, rfl⟩)
    · refine .inl (.inl ⟨x, hx, ?_⟩)
      have ho : x.overlay = none := by
        by_cases hk : x.kind = .mapping
        · exact hclean hk
        · exact (Content.whole ha.accounted hx).overlay_eq_none hk
      unfold Content.size Backup.entries
      rw [ho, hrec.kind, hrec.elements]
      rfl

/-- Where nothing is brought back, a container gets no larger but by a key. -/
theorem Step.size_eases (h : Step e a b) (ha : a.Kept) (he : e.Eases id) (hr : e ≠ .restore id)
    (hc : a.store.container? id = some c) (hc' : b.store.container? id = some c') :
    c'.size ≤ c.size := by
  have hb := (h.kept ha).accounted
  rw [← ha.accounted.size_content hc, ← hb.size_content hc']
  have hx' := content?_of_container hc'
  generalize c'.content b.store.swap = x' at hx' ⊢
  -- What leaves the elements alone leaves the size; the other steps that ease only shrink.
  by_cases hleaves : e.Leaves id
  · obtain ⟨x, hx, -, hsize⟩ := (Path.single (E := (· = e)) rfl h).size ha
      (by rintro _ rfl; exact hleaves) hx'
    obtain rfl := Option.some.inj ((content?_of_container hc).symm.trans hx)
    exact hsize.le
  cases h.content ha.accounted hx' with
  | kept hx =>
    rw [Option.some.inj ((content?_of_container hc).symm.trans hx)]
  | @becomes x _ hx hbec =>
    obtain rfl := Option.some.inj ((content?_of_container hc).symm.trans hx)
    cases e with
    | scrub other =>
      obtain rfl : other = id := not_ne_iff.mp hleaves
      exact hbec.size_scrub.1
    | change other ed =>
      obtain rfl : other = id := not_ne_iff.mp hleaves
      cases ed with
      | element i v => exact hbec.size_element.le
      | entry k r => exact absurd rfl he
    | restore other => exact absurd (congrArg _ (not_ne_iff.mp hleaves)) hr
    | create other F => exact absurd (not_ne_iff.mp hleaves) he
    | _ => exact absurd trivial hleaves
  | made he' hid =>
    subst he'
    exact absurd rfl he

end

/-! ## What is told along the way -/

/--
What becomes of what a container remembers and of the number of reports: nothing, or a size is
reported that is not the remembered one.
-/
inductive Container.Tells (c c' : Container) (k k' : Nat) : Prop
  | quiet (h : c'.note = c.note) (hk : k' = k)
  | told {n : Nat} (h : c.note = (some n, false)) (h' : c'.note = (some n, true))
      (hsize : c'.size ≠ n) (hk : k' = k + 1)

/-- From `a` to `b` a container is there all the time, and its size in `b` is reported if any. -/
def Account.Tells (id : ContainerId) (a b : Account) : Prop :=
  ∀ c', b.store.container? id = some c' → ∃ c, a.store.container? id = some c ∧
    c.Tells c' (a.store.reports id) (b.store.reports id)

/-- From `a` to `b` a container is there all the time, and nothing is reported of it. -/
def Account.Hushes (id : ContainerId) (a b : Account) : Prop :=
  ∀ c', b.store.container? id = some c' → ∃ c, a.store.container? id = some c ∧
    c'.note = c.note ∧ b.store.reports id = a.store.reports id

section

variable {E : Effect → Prop} {a b d : Account} {e : Effect} {id : ContainerId}

theorem Account.Hushes.trans (h : Hushes id a b) (h' : Hushes id b d) : Hushes id a d := by
  intro c'' hc''
  obtain ⟨c', hc', hnote', hk'⟩ := h' c'' hc''
  obtain ⟨c, hc, hnote, hk⟩ := h c' hc'
  exact ⟨c, hc, hnote'.trans hnote, hk'.trans hk⟩

theorem Account.Hushes.tells (h : Hushes id a b) : Tells id a b := by
  intro c' hc'
  obtain ⟨c, hc, hnote, hk⟩ := h c' hc'
  exact ⟨c, hc, .quiet hnote hk⟩

theorem Account.Hushes.trans_tells (h : Hushes id a b) (h' : Tells id b d) : Tells id a d := by
  intro c'' hc''
  obtain ⟨c', hc', htells⟩ := h' c'' hc''
  obtain ⟨c, hc, hnote, hk⟩ := h c' hc'
  refine ⟨c, hc, ?_⟩
  rw [hk] at htells
  cases htells with
  | quiet h hk => exact .quiet (h.trans hnote) hk
  | told h h' hsize hk => exact .told (hnote.symm.trans h) h' hsize hk

/-- As long as nothing was reported only compaction reports anything, and then a smaller size. -/
theorem Step.tells (h : Step e a b) (ha : a.Kept) (hinf : a.Informed id) (he : e.Eases id) :
    b.Informed id ∧ ∀ c', b.store.container? id = some c' → ∃ c, a.store.container? id = some c ∧
      (c'.note = c.note ∧ b.store.reports id = a.store.reports id ∨
        e = .scrub id ∧ ∃ n, c.note = (some n, false) ∧ c'.note = (some n, true) ∧ c'.size < n ∧
          b.store.reports id = a.store.reports id + 1) := by
  have hb := h.kept ha
  have hresizes : e.Resizes id → e = .scrub id := by
    intro hr
    cases e with
    | scrub other => exact congrArg _ hr
    | change other ed =>
      cases ed with
      | element => exact hr.elim
      | entry => exact absurd hr he
    | create => exact absurd hr he
    | _ => exact hr.elim
  constructor
  · intro c' n hc' hnote' m hm
    cases h.notes ha.accounted hc' with
    | @kept _ c hc hnote hk hsize =>
      have hold := hinf c n hc (hnote ▸ hnote')
      rcases h.offers ha hm with hm | ⟨hr, x, hx, rfl⟩
      · exact hold m hm
      · obtain rfl := Option.some.inj ((content?_of_container hc').symm.trans hx)
        rw [hb.accounted.size_content hc']
        by_contra hne
        have hsame := hsize (hresizes hr) (Container.diverges_iff.mpr ⟨n, hnote', hne⟩)
        exact hne (hsame.trans (hold _ (Account.offers_size ha.accounted hc)))
    | made hnote => cases hnote.symm.trans hnote'
    | evicted => exact absurd rfl he
    | told _ _ _ hnote => cases hnote.symm.trans hnote'
  · intro c' hc'
    cases h.notes ha.accounted hc' with
    | kept hc hnote hk => exact ⟨_, hc, .inl ⟨hnote, hk⟩⟩
    | made => exact absurd rfl he
    | evicted => exact absurd rfl he
    | @told _ c n htends hc hnote hnote' hsize hk =>
      have hold := hinf c n hc hnote
      have hscrub : e = .scrub id := by
        rcases h.offers ha (Account.offers_size hb.accounted hc') with hm | ⟨hr, -⟩
        · exact absurd (hold _ hm) hsize
        · exact hresizes hr
      have hle := h.size_eases ha he (by rw [hscrub]; nofun) hc hc'
      rw [hold _ (Account.offers_size ha.accounted hc)] at hle
      exact ⟨c, hc, .inr ⟨hscrub, n, hnote, hnote', Nat.lt_of_le_of_ne hle hsize, hk⟩⟩

/-- Where nothing is compacted nothing is reported, even if sizes are brought back. -/
theorem Path.hushes (h : Path E a b) (ha : a.Kept) (hinf : a.Informed id)
    (hE : ∀ e, E e → e.Eases id ∧ e ≠ .scrub id) : b.Informed id ∧ Account.Hushes id a b := by
  induction h with
  | refl => exact ⟨hinf, fun c' hc' => ⟨c', hc', rfl, rfl⟩⟩
  | tail h he hs ih =>
    obtain ⟨hmid, hhushes⟩ := ih
    obtain ⟨heases, hscrub⟩ := hE _ he
    obtain ⟨hlast, htells⟩ := hs.tells (h.kept ha) hmid heases
    refine ⟨hlast, hhushes.trans fun c' hc' => ?_⟩
    obtain ⟨c, hc, ⟨hnote, hk⟩ | ⟨rfl, -⟩⟩ := htells c' hc'
    · exact ⟨c, hc, hnote, hk⟩
    · exact absurd rfl hscrub

/-- Where no sizes are brought back, what was reported is not made up for. -/
theorem Path.tells (h : Path E a b) (ha : a.Kept) (hinf : a.Informed id)
    (hE : ∀ e, E e → e.Eases id ∧ e ≠ .restore id) : b.Informed id ∧ Account.Tells id a b := by
  -- Sizes only shrink, so once a smaller size was told it never comes back to the old one.
  have hmain : b.Informed id ∧ ∀ c', b.store.container? id = some c' →
      ∃ c, a.store.container? id = some c ∧
        (c'.note = c.note ∧ b.store.reports id = a.store.reports id ∨
          ∃ n, c.note = (some n, false) ∧ c'.note = (some n, true) ∧ c'.size < n ∧
            b.store.reports id = a.store.reports id + 1) := by
    induction h with
    | refl => exact ⟨hinf, fun c' hc' => ⟨c', hc', .inl ⟨rfl, rfl⟩⟩⟩
    | tail h he hs ih =>
      obtain ⟨hmid, hsofar⟩ := ih
      have hb := h.kept ha
      obtain ⟨heases, hrestore⟩ := hE _ he
      obtain ⟨hlast, htells⟩ := hs.tells hb hmid heases
      refine ⟨hlast, fun c'' hc'' => ?_⟩
      obtain ⟨c', hc', hstep⟩ := htells c'' hc''
      obtain ⟨c, hc, ⟨hnote, hk⟩ | ⟨n, hnote, hnote', hlt, hk⟩⟩ := hsofar c' hc'
      · refine ⟨c, hc, ?_⟩
        rw [← hnote, ← hk]
        exact hstep.imp_right And.right
      · obtain ⟨hsame, hk'⟩ | ⟨-, n', hfresh, -⟩ := hstep
        · have hle := hs.size_eases hb heases hrestore hc' hc''
          exact ⟨c, hc, .inr ⟨n, hnote, hsame.trans hnote', hle.trans_lt hlt, hk'.trans hk⟩⟩
        · cases hnote'.symm.trans hfresh
  refine ⟨hmain.1, fun c' hc' => ?_⟩
  obtain ⟨c, hc, ⟨hnote, hk⟩ | ⟨n, hnote, hnote', hlt, hk⟩⟩ := hmain.2 c' hc'
  · exact ⟨c, hc, .quiet hnote hk⟩
  · exact ⟨c, hc, .told hnote hnote' hlt.ne hk⟩

/-- Where a container is left alone, it is only its own size that may be reported. -/
theorem Path.tells_of_leaves (h : Path E a b) (ha : a.Kept)
    (hE : ∀ e, E e → e.Leaves id ∧ e ≠ .evict id) :
    (∀ m, b.Offers id m → a.Offers id m) ∧ ∀ c', b.store.container? id = some c' →
      ∃ c, a.store.container? id = some c ∧ c'.size = c.size ∧
        c.Tells c' (a.store.reports id) (b.store.reports id) := by
  induction h with
  | refl => exact ⟨fun _ hm => hm, fun c' hc' => ⟨c', hc', rfl, .quiet rfl rfl⟩⟩
  | @tail b' d' e h he hs ih =>
    obtain ⟨hoffers, hsofar⟩ := ih
    obtain ⟨hleaves, hevict⟩ := hE _ he
    have hb := h.kept ha
    have hnoresize : ¬ e.Resizes id := by
      intro hr
      cases e with
      | scrub | create => exact hleaves hr
      | change other ed =>
        cases ed with
        | element => exact hr
        | entry => exact hleaves hr
      | _ => exact hr
    refine ⟨fun m hm => hoffers m ((hs.offers hb hm).resolve_right fun hr => hnoresize hr.1),
      fun c'' hc'' => ?_⟩
    obtain ⟨x, hx, -, hsize⟩ := (Path.single (E := (· = e)) rfl hs).size hb
      (by rintro _ rfl; exact hleaves) (content?_of_container hc'')
    rw [(hs.kept hb).accounted.size_content hc''] at hsize
    have hback : ∀ {c'}, b'.store.container? id = some c' → c''.size = c'.size := by
      intro c' hc'
      obtain rfl := Option.some.inj ((content?_of_container hc').symm.trans hx)
      exact hsize.trans (hb.accounted.size_content hc')
    cases hs.notes hb.accounted hc'' with
    | kept hc' hnote hk =>
      obtain ⟨c, hc, hsame, htells⟩ := hsofar _ hc'
      refine ⟨c, hc, (hback hc').trans hsame, ?_⟩
      cases htells with
      | quiet h hk' => exact .quiet (hnote.trans h) (hk.trans hk')
      | told h h' hne hk' => exact .told h (hnote.trans h') (hback hc' ▸ hne) (hk.trans hk')
    | made => exact absurd rfl hleaves
    | evicted => exact absurd rfl hevict
    | told _ hc' hnote hnote' hne hk =>
      obtain ⟨c, hc, hsame, htells⟩ := hsofar _ hc'
      refine ⟨c, hc, (hback hc').trans hsame, ?_⟩
      cases htells with
      | quiet h hk' => exact .told (h ▸ hnote) hnote' hne (hk' ▸ hk)
      | told h h' => cases h'.symm.trans hnote

end

/-! ## Assignments -/

section

variable {a b : Account} {id : ContainerId} {k : Identity} {r : Option Value}

theorem Effect.Readies.eases : ∀ e : Effect, e.Readies → e.Eases id ∧ e ≠ .scrub id
  | _, .still => ⟨trivial, nofun⟩
  | _, .nest => ⟨trivial, nofun⟩

theorem Effect.Readies.lets : ∀ e : Effect, e.Readies → e.Leaves id ∧ e ≠ .evict id
  | _, .still => ⟨trivial, nofun⟩
  | _, .nest => ⟨trivial, nofun⟩

/--
One change of a mapping leaves nothing untold that was told before if its new size was reported, or
is the old one.
-/
theorem Makes.tells (h : Makes id (.entry k r) a b) (ha : a.Kept) (hinf : a.Informed id)
    (hb : b.store.Noted id ∨ Account.SameSize id a b) :
    b.Informed id ∧ Account.Tells id a b ∧ (Account.SameSize id a b → Account.Hushes id a b) := by
  obtain ⟨p, q, hbefore, hchange, hafter⟩ := h
  have hp := hbefore.kept ha
  have hstep := Step.change hchange
  have hq := hstep.kept hp
  have hbkept := hafter.kept hq
  obtain ⟨hpinf, hphushes⟩ := hbefore.hushes ha hinf Effect.Readies.eases
  obtain ⟨hoffers, htells⟩ := hafter.tells_of_leaves hq Effect.Readies.lets
  have hback : ∀ c', b.store.container? id = some c' → ∃ c cp cq,
      a.store.container? id = some c ∧ p.store.container? id = some cp ∧
      q.store.container? id = some cq ∧ c'.size = cq.size ∧ cp.note = c.note ∧ cq.note = c.note ∧
      c.Tells c' (a.store.reports id) (b.store.reports id) := by
    intro c' hc'
    obtain ⟨cq, hcq, hsize, hlast⟩ := htells c' hc'
    obtain ⟨cp, hcp, hnoteq⟩ := hchange.mute.note hcq
    obtain ⟨c, hc, hnotep, hk⟩ := hphushes cp hcp
    have hnote := hnoteq.trans hnotep
    refine ⟨c, cp, cq, hc, hcp, hcq, hsize, hnotep, hnote, ?_⟩
    rw [reports_congr hchange.mute.changes, hk] at hlast
    cases hlast with
    | quiet h hk => exact .quiet (h.trans hnote) hk
    | told h h' hne hk => exact .told (hnote.symm.trans h) h' hne hk
  have hsame : Account.SameSize id a b → ∀ c c', a.store.container? id = some c →
      b.store.container? id = some c' → c'.size = c.size := by
    intro hsame c c' hc hc'
    obtain ⟨x, hx, hsize⟩ := hsame _ (content?_of_container hc')
    obtain rfl := Option.some.inj ((content?_of_container hc).symm.trans hx)
    rw [hbkept.accounted.size_content hc', ha.accounted.size_content hc] at hsize
    exact hsize
  refine ⟨fun c' n hc' hnote' m hm => ?_, fun c' hc' => ?_, fun hsize c' hc' => ?_⟩
  · obtain ⟨c, cp, cq, hc, hcp, hcq, hsizeq, hnotep, -, hlast⟩ := hback c' hc'
    have hnote : c.note = (some n, false) := by
      cases hlast with
      | quiet h => exact h.symm.trans hnote'
      | told _ h' => cases h'.symm.trans hnote'
    rcases hstep.offers hp (hoffers m hm) with hm | ⟨-, x, hx, rfl⟩
    · exact hpinf cp n hcp (hnotep.trans hnote) m hm
    obtain rfl := Option.some.inj ((content?_of_container hcq).symm.trans hx)
    rw [hq.accounted.size_content hcq, ← hsizeq]
    rcases hb with hb | hb
    · by_contra hne
      exact hb c' hc' (Container.diverges_iff.mpr ⟨n, hnote', hne⟩)
    · rw [hsame hb c c' hc hc']
      exact hinf c n hc hnote _ (Account.offers_size ha.accounted hc)
  · obtain ⟨c, -, -, hc, -, -, -, -, -, hlast⟩ := hback c' hc'
    exact ⟨c, hc, hlast⟩
  · obtain ⟨c, -, -, hc, -, -, -, -, -, hlast⟩ := hback c' hc'
    cases hlast with
    | quiet h hk => exact ⟨c, hc, h, hk⟩
    | told h h' hne =>
      refine absurd ?_ hne
      rw [hsame hsize c c' hc hc']
      exact hinf c _ hc h _ (Account.offers_size ha.accounted hc)

/-- An assignment reports the size that a mapping has afterwards, if any. -/
theorem Mapping.Assigned.tells {w : Value} (h : Mapping.Assigned id k w a b) (ha : a.Kept)
    (hinf : a.Informed id) : b.Informed id ∧ Account.Tells id a b := by
  cases h with
  | written hw h hnoted =>
    obtain ⟨hb, htells, -⟩ := h.tells ha hinf (.inl hnoted)
    exact ⟨hb, htells⟩
  | @deleted _ m _ h hsize h' hextended hnoted =>
    have hm : m.Kept ∧ m.Informed id ∧ Account.Hushes id a m := by
      rcases h with h | ⟨r, h⟩
      · exact ⟨h.kept ha, h.hushes ha hinf Effect.Readies.eases⟩
      · obtain ⟨hm, -, hhushes⟩ := h.tells ha hinf (.inr hsize)
        exact ⟨(h.path (E := fun _ => True) trivial trivial trivial).kept ha, hm, hhushes hsize⟩
    obtain ⟨hmkept, hminf, hhushes⟩ := hm
    obtain ⟨hb, htells, -⟩ := h'.tells hmkept hminf (.inl hnoted)
    exact ⟨hb, hhushes.trans_tells htells⟩
  | absent h =>
    obtain ⟨hb, hhushes⟩ := h.hushes ha hinf (by rintro _ rfl; exact ⟨trivial, nofun⟩)
    exact ⟨hb, hhushes.tells⟩

end

end PlaneStore
