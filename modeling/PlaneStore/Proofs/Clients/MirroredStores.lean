import PlaneStore.Proofs.Clients.DisciplinedClients
import PlaneStore.Proofs.Callouts.DataspaceWrites
import PlaneStore.Proofs.Contents.TwinContainers

/-!
# Clients that cannot tell their stores apart

Two clients own the same references, to stores which a reader cannot tell apart. The stores need not
hold the same containers: one of them may keep what the other has let go, for the sake of a sorted
value that is out of date, or of what a plane remembers. Such a container cannot be come upon. What
can be is either referred to by the client, a variable or a deferred call, or shown by a container
of which the same is true. Containers that show each other in a circle are among these, since
neither store lets go of them.

The stores mirror each other after a request if they did so before, the request did the same in
both, and it brought nothing in sight that could not be come upon before.
-/

namespace PlaneStore

open Store

namespace Client

/-! ## What can be come upon -/

/-- The client, a variable or a deferred call refers to the container in a slot. -/
def Rooted (c : Client) (id : ContainerId) : Prop :=
  ∃ v, v.target? = some (.container id) ∧ (v ∈ c.owned ∨ (∃ ref, c.store.variableAt? ref = some v) ∨
    ∃ call d, c.store.call? call = some d ∧ d.payload = v)

/-- The container in a slot is one of some that are each rooted or shown by one of them. -/
def Lasts (c : Client) (id : ContainerId) : Prop :=
  ∃ S : ContainerId → Prop, S id ∧ ∀ other, S other → c.Rooted other ∨ ∃ k, S k ∧
    c.store.Shows k other

section

variable {c : Client} {id other : ContainerId} {v : Value}

theorem Rooted.of_owned (hv : v ∈ c.owned) (ht : v.target? = some (.container id)) : c.Rooted id :=
  ⟨v, ht, .inl hv⟩

theorem Rooted.of_variable {ref : VariableRef} (hv : c.store.variableAt? ref = some v)
    (ht : v.target? = some (.container id)) : c.Rooted id :=
  ⟨v, ht, .inr (.inl ⟨ref, hv⟩)⟩

theorem Rooted.of_call {call : CallRef} {d : DeferredCall} (hd : c.store.call? call = some d)
    (ht : d.payload.target? = some (.container id)) : c.Rooted id :=
  ⟨_, ht, .inr (.inr ⟨call, d, hd, rfl⟩)⟩

theorem Rooted.lasts (h : c.Rooted id) : c.Lasts id :=
  ⟨(· = id), rfl, fun _ hother => .inl (hother ▸ h)⟩

theorem Lasts.cases (h : c.Lasts id) : c.Rooted id ∨ ∃ k, c.Lasts k ∧ c.store.Shows k id := by
  obtain ⟨S, hid, hS⟩ := h
  rcases hS id hid with hroot | ⟨k, hk, hshows⟩
  · exact .inl hroot
  · exact .inr ⟨k, ⟨S, hk, hS⟩, hshows⟩

/-- Of containers that are each rooted, lasting or shown by one of them, all last. -/
theorem Lasts.of_closed {S : ContainerId → Prop} (hid : S id)
    (hS : ∀ other, S other → c.Lasts other ∨ ∃ k, S k ∧ c.store.Shows k other) : c.Lasts id := by
  refine ⟨fun other => S other ∨ c.Lasts other, .inl hid, ?_⟩
  have hlasts : ∀ other, c.Lasts other →
      c.Rooted other ∨ ∃ k, (S k ∨ c.Lasts k) ∧ c.store.Shows k other := fun other h =>
    h.cases.imp_right fun ⟨k, hk, hshows⟩ => ⟨k, .inr hk, hshows⟩
  rintro other (hother | hother)
  · rcases hS other hother with h | ⟨k, hk, hshows⟩
    · exact hlasts other h
    · exact .inr ⟨k, .inl hk, hshows⟩
  · exact hlasts other hother

theorem Lasts.shown (h : c.Lasts id) (hshows : c.store.Shows id other) : c.Lasts other :=
  Lasts.of_closed (S := fun k => k = other) rfl fun k hk => by
    refine .inl ⟨fun k => k = other ∨ c.Lasts k, .inl hk, ?_⟩
    rintro k (rfl | hk)
    · exact .inr ⟨id, .inr h, hshows⟩
    · exact hk.cases.imp_right fun ⟨j, hj, hshows⟩ => ⟨j, .inr hj, hshows⟩

theorem Lasts.live (ha : c.account.Kept) (h : c.Lasts id) : c.store.container? id ≠ none := by
  rcases h.cases with ⟨v, ht, hv⟩ | ⟨k, -, hshows⟩
  · have hmem : v ∈ c.account.refs := by
      rcases hv with hv | ⟨ref, hv⟩ | ⟨call, d, hd, rfl⟩
      · exact Account.mem_refs_of_flight hv
      · exact Account.mem_refs_of_store (mem_refs_of_variable hv)
      · exact Account.mem_refs_of_store (mem_refs_of_call hd)
    exact fun hnone => ha.accounted.balanced.ne_free hmem ht (Option.map_eq_none_iff.mpr hnone)
  · exact ha.live_of_shows hshows

end

/-! ## Mirrors -/

/-- A reader cannot tell the stores of two clients apart, which own the same references. -/
structure Mirrors (c d : Client) : Prop where
  owned : d.owned = c.owned
  limits : d.store.limits = c.store.limits
  objects : d.store.objects = c.store.objects
  variableAt? : ∀ ref, d.store.variableAt? ref = c.store.variableAt? ref
  tables : d.store.agenda.tables = c.store.agenda.tables
  text : ∀ {i e e'}, c.store.heap.strings.get? i = some e → d.store.heap.strings.get? i = some e' →
    e'.text = e.text
  content : ∀ {id x y}, c.store.content? id = some x → d.store.content? id = some y →
    x.Twin c.store d.store y
  lasts : ∀ id, d.Lasts id ↔ c.Lasts id

namespace Mirrors

variable {c d c' d' : Client}

protected theorem refl (c : Client) : c.Mirrors c where
  owned := rfl
  limits := rfl
  objects := rfl
  variableAt? _ := rfl
  tables := rfl
  text he he' := congrArg StringEntry.text (Option.some.inj (he'.symm.trans he))
  content hx hy := Option.some.inj (hx.symm.trans hy) ▸ .refl _ _
  lasts _ := Iff.rfl

protected theorem symm (h : c.Mirrors d) : d.Mirrors c where
  owned := h.owned.symm
  limits := h.limits.symm
  objects := h.objects.symm
  variableAt? ref := (h.variableAt? ref).symm
  tables := h.tables.symm
  text he he' := (h.text he' he).symm
  content hx hy := (h.content hy hx).symm
  lasts id := (h.lasts id).symm

theorem call? (h : c.Mirrors d) (call : CallRef) : d.store.call? call = c.store.call? call :=
  call?_of_tables h.tables call

section

variable (h : c.Mirrors d) (ha : c.account.Kept) (hb : d.account.Kept) {v : Value}
  (hv : c.account.refs.Covers v) (hw : d.account.refs.Covers v)
include h ha hb hv hw

/-- What is referred to in both stores stands for the same thing. -/
theorem stands : Stands c.store d.store v := by
  refine .of_slots (fun shape id hid => ?_) fun id hid => ?_
  · subst hid
    obtain ⟨x, hx, -⟩ := ha.accounted.balanced.exists_container (hv rfl)
    obtain ⟨y, hy, -⟩ := hb.accounted.balanced.exists_container (hw rfl)
    have htwin := h.content (content?_of_container hx) (content?_of_container hy)
    exact ⟨x, y, hx, hy, htwin.tag, htwin.kind⟩
  · subst hid
    obtain ⟨e, he⟩ := ha.accounted.balanced.exists_string (hv rfl)
    obtain ⟨e', he'⟩ := hb.accounted.balanced.exists_string (hw rfl)
    exact ⟨e, e', he, he', h.text he he'⟩

theorem identity : d.store.heap.identity v = c.store.heap.identity v :=
  (h.stands ha hb hv hw).identity

theorem lost : d.store.lost v = c.store.lost v := (h.stands ha hb hv hw).lost h.objects

theorem seen : d.store.seen v = c.store.seen v := by
  unfold Store.seen
  rw [h.lost ha hb hv hw]

end

end Mirrors

/-! ## One more request -/

section

variable {c d c' d' : Client} {E E' : Effect → Prop} {subject : Option ContainerId}
  {id other : ContainerId}

/--
What lasts after a chain of steps lasted before, if that is so of what is rooted and of what the
container shows that was turned to.
-/
theorem Lasts.before (hp : Path E c.account c'.account) (ha : c.account.Kept)
    (hE : ∀ e, E e → e.Turns subject) (hroots : ∀ id, c'.Rooted id → c.Lasts id)
    (hshown : ∀ id other, subject = some id → c'.store.Shows id other → c.Lasts other)
    (h : c'.Lasts id) : c.Lasts id := by
  obtain ⟨S, hid, hS⟩ := h
  refine Lasts.of_closed hid fun other hother => ?_
  rcases hS other hother with hroot | ⟨k, hk, hshows⟩
  · exact .inl (hroots other hroot)
  · by_cases hsub : subject = some k
    · exact .inl (hshown k other hsub hshows)
    · obtain ⟨x', hx', v, hv, ht⟩ := hshows
      obtain ⟨x, hx, htwin⟩ := hp.twin ha hE hsub hx'
      exact .inr ⟨k, hk, x, hx, v, (htwin.shows v).mp hv, ht⟩

/--
What lasts after a chain of steps is there after a chain of steps that does the same to a mirror.
-/
theorem Lasts.across (h : c.Mirrors d) (hp : Path E c.account c'.account)
    (hq : Path E' d.account d'.account) (ha : c.account.Kept) (hb : d.account.Kept)
    (hE : ∀ e, E e → e.Turns subject) (hE' : ∀ e, E' e → e.Turns subject)
    (hrooted : ∀ id, d'.Rooted id ↔ c'.Rooted id)
    (htwin : ∀ {id x y}, c'.store.content? id = some x → d'.store.content? id = some y →
      x.Twin c'.store d'.store y)
    (hsub : ∀ id, subject = some id → d'.store.container? id ≠ none)
    (hbefore : ∀ id, c'.Lasts id → c.Lasts id) (hid : c'.Lasts id) : d'.Lasts id := by
  have ha' := hp.kept ha
  have hb' := hq.kept hb
  obtain ⟨S, hid, hS⟩ := hid
  have hlasts : ∀ id, S id → c'.Lasts id := fun id hid => ⟨S, hid, hS⟩
  -- Those that are gone would have shown each other in a circle.
  have hlive : ∀ id, S id → d'.store.container? id ≠ none := by
    intro id hid hgone
    let Z : ContainerId → Prop := fun k => S k ∧ d'.store.container? k = none
    have hZ : ∀ k, Z k → subject ≠ some k := fun k hk hsame => hsub k hsame hk.2
    have hshown : ∀ k, Z k → ∃ j, Z j ∧ d.store.Shows j k := by
      rintro k ⟨hk, hnone⟩
      have hnoroot : ¬c'.Rooted k := fun hroot =>
        ((hrooted k).mpr hroot).lasts.live hb' hnone
      obtain ⟨j, hj, x', hx', v, hv, ht⟩ := (hS k hk).resolve_left hnoroot
      have hjgone : d'.store.container? j = none := by
        by_contra hj'
        obtain ⟨y, hy⟩ := Option.ne_none_iff_exists'.mp hj'
        have hy' := content?_of_container hy
        exact hb'.live_of_shows ⟨_, hy', v, ((htwin hx' hy').shows v).mpr hv, ht⟩ hnone
      obtain ⟨x, hx, hself⟩ := hp.twin ha hE (hZ j ⟨hj, hjgone⟩) hx'
      obtain ⟨y, hy⟩ := Option.ne_none_iff_exists'.mp
        (((h.lasts j).mpr (hbefore j (hlasts j hj))).live hb)
      have hy' := content?_of_container hy
      exact ⟨j, ⟨hj, hjgone⟩, _, hy', v,
        ((h.content hx hy').shows v).mpr ((hself.shows v).mp hv), ht⟩
    obtain ⟨j, -, hshows⟩ := hq.circle hb hE' hZ hshown id ⟨hid, hgone⟩
    exact hb'.live_of_shows hshows hgone
  refine ⟨S, hid, fun other hother => ?_⟩
  rcases hS other hother with hroot | ⟨k, hk, x, hx, v, hv, ht⟩
  · exact .inl ((hrooted other).mpr hroot)
  · obtain ⟨y, hy⟩ := Option.ne_none_iff_exists'.mp (hlive k hk)
    have hy' := content?_of_container hy
    exact .inr ⟨k, hk, _, hy', v, ((htwin hx hy').shows v).mpr hv, ht⟩

/--
Mirrors stay mirrors if both turn to the same container, which then are twins, and if nothing comes
in sight.
-/
theorem Mirrors.turn (h : c.Mirrors d) (hp : Path E c.account c'.account)
    (hq : Path E' d.account d'.account) (ha : c.account.Kept) (hb : d.account.Kept)
    (hE : ∀ e, E e → e.Turns subject) (hE' : ∀ e, E' e → e.Turns subject)
    (howned : d'.owned = c'.owned)
    (hvars : ∀ ref, d'.store.variableAt? ref = c'.store.variableAt? ref)
    (htables : d'.store.agenda.tables = c'.store.agenda.tables)
    (hroots : ∀ id, c'.Rooted id → c.Lasts id)
    (hsub : ∀ id, subject = some id → ∃ x y, c'.store.content? id = some x ∧
      d'.store.content? id = some y ∧ x.Twin c'.store d'.store y ∧
        ∀ other, c'.store.Shows id other → c.Lasts other) : c'.Mirrors d' := by
  have hmarks := hp.marks ha fun e he => (hE e he).calm
  have hmarks' := hq.marks hb fun e he => (hE' e he).calm
  have hrooted : ∀ id, d'.Rooted id ↔ c'.Rooted id := fun id => by
    unfold Rooted
    simp only [howned, hvars, call?_of_tables htables]
  have htwin : ∀ {id x y}, c'.store.content? id = some x → d'.store.content? id = some y →
      x.Twin c'.store d'.store y := by
    intro id x' y' hx' hy'
    -- Only the subject may have turned; any other container is its own twin on each side.
    by_cases hid : subject = some id
    · obtain ⟨x, y, hx, hy, htwin, -⟩ := hsub id hid
      rwa [Option.some.inj (hx.symm.trans hx'), Option.some.inj (hy.symm.trans hy')] at htwin
    · obtain ⟨x, hx, hself⟩ := hp.twin ha hE hid hx'
      obtain ⟨y, hy, hself'⟩ := hq.twin hb hE' hid hy'
      exact (hself.symm.trans (h.content hx hy)).trans hself'
  have hshown : ∀ id other, subject = some id → c'.store.Shows id other → c.Lasts other :=
    fun id other hid => by
      obtain ⟨-, -, -, -, -, hlasts⟩ := hsub id hid
      exact hlasts other
  have hbefore : ∀ id, c'.Lasts id → c.Lasts id := fun id => Lasts.before hp ha hE hroots hshown
  have hbefore' : ∀ id, d'.Lasts id → d.Lasts id := fun id => by
    refine Lasts.before hq hb hE' (fun id hid => ?_) fun id other hid hshows => ?_
    · exact (h.lasts id).mpr (hroots id ((hrooted id).mp hid))
    · obtain ⟨x, y, hx, hy, hsame, hlasts⟩ := hsub id hid
      obtain ⟨y', hy', v, hv, ht⟩ := hshows
      rw [← Option.some.inj (hy.symm.trans hy')] at hv
      exact (h.lasts other).mpr (hlasts other ⟨x, hx, v, (hsame.shows v).mp hv, ht⟩)
  have hlive : ∀ id, subject = some id →
      c'.store.container? id ≠ none ∧ d'.store.container? id ≠ none := fun id hid => by
    obtain ⟨x, y, hx, hy, -⟩ := hsub id hid
    obtain ⟨x₀, hx₀, -⟩ := content?_eq_some.mp hx
    obtain ⟨y₀, hy₀, -⟩ := content?_eq_some.mp hy
    exact ⟨hx₀ ▸ Option.some_ne_none x₀, hy₀ ▸ Option.some_ne_none y₀⟩
  exact {
    owned := howned
    limits := (hq.limits hb).trans (h.limits.trans (hp.limits ha).symm)
    objects := hmarks'.objects.trans (h.objects.trans hmarks.objects.symm)
    variableAt? := hvars
    tables := htables
    text := fun he he' => by
      obtain ⟨e₀, he₀, ht⟩ := hmarks.string _ _ he
      obtain ⟨e₁, he₁, ht'⟩ := hmarks'.string _ _ he'
      exact ht'.trans ((h.text he₀ he₁).trans ht.symm)
    content := htwin
    lasts := fun id =>
      ⟨Lasts.across h.symm hq hp hb ha hE' hE (fun id => (hrooted id).symm)
          (fun hx hy => (htwin hy hx).symm) (fun id hid => (hlive id hid).1) hbefore',
        Lasts.across h hp hq ha hb hE hE' hrooted htwin (fun id hid => (hlive id hid).2) hbefore⟩ }

/--
Mirrors stay mirrors if both look after the same container, which then are twins, and if all that is
owned could be come upon.
-/
theorem Mirrors.mind (h : c.Mirrors d) (hp : Path E c.account c'.account)
    (hq : Path E' d.account d'.account) (ha : c.account.Kept) (hb : d.account.Kept)
    (hE : ∀ e, E e → e.Minds ∧ e.Turns subject) (hE' : ∀ e, E' e → e.Minds ∧ e.Turns subject)
    (howned : d'.owned = c'.owned)
    (hroots : ∀ v ∈ c'.owned, ∀ id, v.target? = some (.container id) → c.Lasts id)
    (hsub : ∀ id, subject = some id → c.Lasts id ∧ ∃ x y, c'.store.content? id = some x ∧
      d'.store.content? id = some y ∧ x.Twin c'.store d'.store y) : c'.Mirrors d' := by
  have hsteady := hp.holdsSteady ha fun e he => (hE e he).1
  have hsteady' := hq.holdsSteady hb fun e he => (hE' e he).1
  have hvars : ∀ ref, c'.store.variableAt? ref = c.store.variableAt? ref := hsteady.variableAt?
  have hvars' : ∀ ref, d'.store.variableAt? ref = d.store.variableAt? ref := hsteady'.variableAt?
  have htables : c'.store.agenda.tables = c.store.agenda.tables := hsteady.tables
  have htables' : d'.store.agenda.tables = d.store.agenda.tables := hsteady'.tables
  refine h.turn hp hq ha hb (fun e he => (hE e he).2) (fun e he => (hE' e he).2) howned
    (fun ref => ?_) ?_ (fun id hid => ?_) fun id hid => ?_
  · rw [hvars', h.variableAt?, hvars]
  · rw [htables', h.tables, htables]
  · obtain ⟨v, ht, hv | ⟨ref, hv⟩ | ⟨call, t, hcall, hv⟩⟩ := hid
    · exact hroots v hv id ht
    · exact (Rooted.of_variable (hvars ref ▸ hv) ht).lasts
    · rw [call?_of_tables htables] at hcall
      exact (Rooted.of_call hcall (hv.symm ▸ ht)).lasts
  · obtain ⟨hlasts, x, y, hx, hy, htwin⟩ := hsub id hid
    exact ⟨x, y, hx, hy, htwin, fun other hshows =>
      hlasts.shown (hp.shows_of_minds ha (fun e he => (hE e he).1) hshows)⟩

end

end Client

end PlaneStore
