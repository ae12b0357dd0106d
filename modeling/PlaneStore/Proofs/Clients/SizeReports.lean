import PlaneStore.Proofs.Eviction.SavedSizes
import PlaneStore.Proofs.Clients.LosslessEviction
import PlaneStore.Proofs.Clients.DiscardedRegions
import PlaneStore.Proofs.Clients.ScrubbedReads

/-!
# Reports of sizes as clients see them

After a container was evicted, the swap is told once that the container has another size, if it ever
has another one after a request. Until it is evicted again nothing more is told of it, and nothing
at all if its size is always that of the eviction, or if it never was evicted.
-/

namespace PlaneStore

open Store

namespace Client

variable {limits : Limits} {c c' c₁ : Client} {id : ContainerId} {op : Operation}
  {outcome : Outcome} {bs : List Client}

/-- In a request the swap was given what a container holds. -/
def Evicted (id : ContainerId) (c c' : Client) : Prop :=
  ∃ ticket, c'.store.ticket? id = some ticket ∧ c.store.swap.next ≤ ticket.number

/--
What a client comes to, at the boundaries of its requests, while no request makes a container in a
slot and none evicts the one that is there.
-/
inductive Since (id : ContainerId) (c : Client) : List Client → Client → Prop
  | start : Since id c [c] c
  | next {bs : List Client} {c' c'' : Client} {op : Operation} {outcome : Outcome}
    (h : Since id c bs c') (hr : c'.Requests op outcome c'') (hmade : ¬Makes id (op, outcome))
    (hevicted : ¬Evicted id c' c'') : Since id c (bs ++ [c'']) c''

theorem not_evicts_of_creates {op : Operation} (hop : op.creates = true) : op.evicts = false := by
  cases op <;> first | rfl | cases hop

/-! ## One request -/

/-- A request other than an eviction gives nothing to the swap. -/
theorem Requests.not_evicted (hr : c.Requests op outcome c') (ha : c.account.Kept)
    (hc : c.store.Custody) (hop : op.evicts = false) : ¬Evicted id c c' := by
  rintro ⟨ticket, ht, hn⟩
  rcases (hr.path ha).held ha hc ht with ⟨hold, -⟩ | ⟨he, -⟩
  · exact absurd hn (Nat.not_le.mpr (ha.accounted.stored.ticket_lt hold))
  · exact absurd hop (by rw [he.2]; decide)

/-- A request that evicts leaves a container where it is, or parks it. -/
theorem Requests.parks (hr : c.Requests op outcome c') (ha : c.account.Kept)
    (hc : c.store.Custody) (hop : op.evicts = true) :
    Path Effect.Moves c.account c'.account ∧
      (Path (fun e => e.Moves ∧ e ≠ .evict id) c.account c'.account ∨
        c.store.planes = [] ∧ c'.store.Parked c.store.swap.next id) := by
  have hflight : op.settle c.owned outcome = c.owned → c'.account = ⟨c'.store, c.owned, 0, none⟩ :=
    fun h => by rw [account, hr.settled, h]
  cases op with
  | evict v =>
    obtain ⟨r, h, rfl⟩ := ClientM.bind_pure_eq_ok.mp hr.performed
    rw [hflight (by cases r <;> rfl)]
    exact ⟨walk_evictContainer .still (fun _ => .evict) ha h, evictContainer_parks ha hc h⟩
  | evictDataspace ds =>
    obtain ⟨r, h, rfl⟩ := ClientM.bind_pure_eq_ok.mp hr.performed
    rw [hflight (by cases r <;> rfl)]
    exact ⟨walk_evictDataspace .still (fun _ => .evict) (fun _ => .transfer ds) ha h,
      evictDataspace_parks ha hc h⟩
  | _ => cases hop

/-- An eviction is of a container, or leaves it as it is. -/
theorem Requests.evicting (hr : c.Requests op outcome c') (ha : c.account.Kept)
    (hc : c.store.Custody) (hinf : c.account.Informed id) (hop : op.evicts = true) :
    c'.account.Informed id ∧
      (¬Evicted id c c' ∧ Account.Hushes id c.account c'.account ∨
        c'.store.Parked c.store.swap.next id ∧ ∀ x', c'.store.container? id = some x' →
          c'.store.reports id = c.store.reports id) := by
  obtain ⟨hmoves, hpath | ⟨hp, hparked⟩⟩ := @Requests.parks _ _ id _ _ hr ha hc hop
  · have heases : ∀ e : Effect, e.Moves ∧ e ≠ .evict id → e.Eases id ∧ e ≠ .scrub id
      | _, ⟨.still, _⟩ => ⟨trivial, nofun⟩
      | _, ⟨.transfer _ _, _⟩ => ⟨trivial, nofun⟩
      | _, ⟨.evict other, hne⟩ => ⟨fun hid => hne (congrArg _ hid), nofun⟩
    obtain ⟨hinf', hhushes⟩ := hpath.hushes ha hinf heases
    refine ⟨hinf', .inl ⟨?_, hhushes⟩⟩
    rintro ⟨ticket, ht, hn⟩
    rcases hpath.held ha hc ht with ⟨hold, -⟩ | ⟨he, -⟩
    · exact absurd hn (Nat.not_le.mpr (ha.accounted.stored.ticket_lt hold))
    · exact he.2 rfl
  · have hlevel : c.account.store.level = 0 := congrArg List.length hp
    -- Without planes there is no backup to restore.
    have hnone : c.account.backups = [] := by
      show [] ++ c.store.planes.flatMap Plane.ledger = []
      rw [hp]
      rfl
    obtain ⟨-, hinf', hreports⟩ := hmoves.moved ha hlevel hnone hinf
    refine ⟨hinf', .inr ⟨hparked, fun x' hx' => ?_⟩⟩
    obtain ⟨-, -, hk⟩ := hreports x' hx'
    exact hk

/-- What a request has made was never evicted. -/
theorem Requests.making (hr : c.Requests op outcome c') (hmakes : Makes id (op, outcome)) :
    ∀ x, c'.store.container? id = some x → x.note = (none, false) := by
  obtain ⟨hop, kind, rfl⟩ := hmakes
  obtain ⟨shape, id', hv, hpristine⟩ := Operation.yields_of_creates ofNew_made hop hr.performed
  obtain rfl : id = id' := (Value.container.inj hv).2
  exact fun x hx => (hpristine x hx).2

/-- Other requests report the size that a container has in the end, if they report any. -/
theorem Requests.telling (hr : c.Requests op outcome c') (ha : c.account.Kept)
    (hinf : c.account.Informed id) (hop : op.evicts = false) (hmade : ¬Makes id (op, outcome)) :
    c'.account.Informed id ∧ Account.Tells id c.account c'.account := by
  have hpath := hr.path ha
  by_cases hassigns : ∃ key value, op = .assign (.container .mapping id) key value
  · obtain ⟨key, value, rfl⟩ := hassigns
    obtain ⟨r, h, -⟩ := ClientM.bind_pure_eq_ok.mp hr.performed
    have hsettles := walk_mapAssign ha (hr.covered _ (.head _)) (hr.covered _ (.tail _ (.head _)))
      (hr.covered _ (.tail _ (.tail _ (.head _))))
      (show Mapping.assign id key value c.store = .ok (r, c'.store) from h)
    cases r with
    | error e =>
      obtain ⟨hinf', hhushes⟩ := hsettles.hushes ha hinf (by rintro _ rfl; exact ⟨trivial, nofun⟩)
      exact ⟨hinf', hhushes.tells⟩
    | ok u => exact hsettles.tells ha hinf
  have heases : ∀ e : Effect, e.Within op c.owned c'.store.level outcome → e.Eases id := by
    intro e he
    cases e with
    | evict other => exact absurd hop (by rw [he.2]; decide)
    | create other F =>
      rintro rfl
      exact hmade ⟨he.1, he.2.2⟩
    | change other ed =>
      cases ed with
      | element => trivial
      | entry k r =>
        rintro rfl
        obtain ⟨-, v, key, value, rfl, hedits⟩ := he
        cases hedits
        exact hassigns ⟨key, value, rfl⟩
    | _ => trivial
  cases hundoes : op.undoes with
  | true =>
    -- Sizes may be brought back, but nothing is compacted.
    obtain ⟨hinf', hhushes⟩ := hpath.hushes ha hinf fun e he => ⟨heases e he, by
      rintro rfl
      cases hundoes.symm.trans he⟩
    exact ⟨hinf', hhushes.tells⟩
  | false =>
    refine hpath.tells ha hinf fun e he => ⟨heases e he, ?_⟩
    rintro rfl
    cases hundoes.symm.trans he.2

/-- After each request nothing is left untold. -/
theorem Requests.informed (hr : c.Requests op outcome c') (ha : c.account.Kept)
    (hc : c.store.Custody) (hinf : c.account.Informed id) : c'.account.Informed id := by
  cases hop : op.evicts with
  | true => exact (hr.evicting ha hc hinf hop).1
  | false =>
    by_cases hmakes : Makes id (op, outcome)
    · intro x n hx hnote
      cases (hr.making hmakes x hx).symm.trans hnote
    · exact (hr.telling ha hinf hop hmakes).1

theorem Reachable.informed (h : Reachable limits c) (id : ContainerId) : c.account.Informed id := by
  induction h with
  | start => exact fun _ _ hc => by cases hc
  | next h hr ih => exact hr.informed h.kept h.custody ih

/-- A request that neither makes a container nor evicts it reports its new size, if any. -/
theorem Reachable.tells (h : Reachable limits c) (hr : c.Requests op outcome c')
    (hmade : ¬Makes id (op, outcome)) (hevicted : ¬Evicted id c c') :
    Account.Tells id c.account c'.account := by
  cases hop : op.evicts with
  | false => exact (hr.telling h.kept (h.informed id) hop hmade).2
  | true =>
    rcases (hr.evicting h.kept h.custody (h.informed id) hop).2 with ⟨-, hhushes⟩ | ⟨hparked, -⟩
    · exact hhushes.tells
    · intro x' hx'
      exact absurd (hparked.ticket hx') hevicted

/-! ## Many requests -/

namespace Since

theorem reachable (h : Since id c₁ bs c') (h₁ : Reachable limits c₁) : Reachable limits c' := by
  induction h with
  | start => exact h₁
  | next h hr hmade hevicted ih => exact ih.next hr

/-- What was never evicted is not reported. -/
theorem untold (h : Since id c₁ bs c') (h₁ : Reachable limits c₁)
    (hnew : ∀ x, c₁.store.container? id = some x → x.note = (none, false)) :
    ∀ x', c'.store.container? id = some x' →
      x'.note = (none, false) ∧ c'.store.reports id = c₁.store.reports id := by
  induction h with
  | start => exact fun x hx => ⟨hnew x hx, rfl⟩
  | next h hr hmade hevicted ih =>
    intro x'' hx''
    obtain ⟨x', hx', htells⟩ := (h.reachable h₁).tells hr hmade hevicted x'' hx''
    obtain ⟨hnote, hk⟩ := ih x' hx'
    cases htells with
    | quiet hquiet hk' => exact ⟨hquiet.trans hnote, hk'.trans hk⟩
    | told htold => cases hnote.symm.trans htold

/-- What was evicted is not reported while it has its size, and once as soon as it had another. -/
theorem told {n : Nat} (h : Since id c₁ bs c') (h₁ : Reachable limits c₁)
    (hnew : ∀ x, c₁.store.container? id = some x → x.note = (some n, false) ∧ x.size = n) :
    ∀ x', c'.store.container? id = some x' →
      (x'.note = (some n, false) ∧ c'.store.reports id = c₁.store.reports id ∧
          ∀ b ∈ bs, ∀ x, b.store.container? id = some x → x.size = n) ∨
        x'.note = (some n, true) ∧ c'.store.reports id = c₁.store.reports id + 1 ∧
          ∃ b ∈ bs, ∃ x, b.store.container? id = some x ∧ x.size ≠ n := by
  induction h with
  | start =>
    refine fun x hx => .inl ⟨(hnew x hx).1, rfl, fun b hb y hy => ?_⟩
    obtain rfl := List.mem_singleton.mp hb
    exact (hnew y hy).2
  | @next bs c' c'' op outcome h hr hmade hevicted ih =>
    intro x'' hx''
    have hc' := h.reachable h₁
    obtain ⟨x', hx', htells⟩ := hc'.tells hr hmade hevicted x'' hx''
    rcases ih x' hx' with ⟨hnote, hk, hsizes⟩ | ⟨hnote, hk, b, hb, hsize⟩
    · cases htells with
      | quiet hquiet hk' =>
        have hnote'' := hquiet.trans hnote
        refine .inl ⟨hnote'', hk'.trans hk, fun b hb y hy => ?_⟩
        rcases List.mem_append.mp hb with hb | hb
        · exact hsizes b hb y hy
        obtain rfl := List.mem_singleton.mp hb
        obtain rfl := Option.some.inj (hx''.symm.trans hy)
        exact (hc'.next hr).informed id x'' n hx'' hnote'' _
          (Account.offers_size (hc'.next hr).kept.accounted hx'')
      | told htold htold' hsize hk' =>
        obtain rfl : n = _ := Option.some.inj (Prod.mk.inj (hnote.symm.trans htold)).1
        exact .inr ⟨htold', hk'.trans (congrArg (· + 1) hk), c'', by simp, x'', hx'', hsize⟩
    · cases htells with
      | quiet hquiet hk' =>
        exact .inr ⟨hquiet.trans hnote, hk'.trans hk, b, List.mem_append_left _ hb, hsize⟩
      | told htold => cases hnote.symm.trans htold

end Since

/-- What is in a slot was made there, and whether it was evicted since or not. -/
theorem Reachable.exists_since (h : Reachable limits c') (hlive : c'.store.container? id ≠ none) :
    ∃ c op outcome c₁ bs, Reachable limits c ∧ c.Requests op outcome c₁ ∧ Since id c₁ bs c' ∧
      (Makes id (op, outcome) ∨ Evicted id c c₁) := by
  induction h with
  | start => exact absurd rfl hlive
  | @next c c' op outcome h hr ih =>
    by_cases hmade : Makes id (op, outcome)
    · exact ⟨c, op, outcome, c', _, h, hr, .start, .inl hmade⟩
    by_cases hevicted : Evicted id c c'
    · exact ⟨c, op, outcome, c', _, h, hr, .start, .inr hevicted⟩
    obtain ⟨x', hx'⟩ := Option.ne_none_iff_exists'.mp hlive
    obtain ⟨x, hx, -⟩ := h.tells hr hmade hevicted x' hx'
    obtain ⟨c₀, op₀, outcome₀, c₁, bs, h₀, hr₀, hs, hlast⟩ := ih (by
      rw [show c.store.container? id = some x from hx]
      nofun)
    exact ⟨c₀, op₀, outcome₀, c₁, _, h₀, hr₀, hs.next hr hmade hevicted, hlast⟩

/--
Whatever container there is after some requests, it was evicted last by one of them, or one made it
and none evicted it since. If it was evicted last by a request then that reported nothing of it;
since then the swap was told nothing of it if it always had the size of that eviction, and was told
once if after any request it had another size. If it was never evicted, nothing was told of it since
it was made.
-/
theorem Reachable.reported_once (h : Reachable limits c')
    (hlive : c'.store.container? id ≠ none) :
    (∃ c op outcome c₁ bs, Reachable limits c ∧ c.Requests op outcome c₁ ∧ Since id c₁ bs c' ∧
      (Makes id (op, outcome) ∨ Evicted id c c₁)) ∧
    (∀ c op outcome c₁ bs x₁, Reachable limits c → c.Requests op outcome c₁ → Since id c₁ bs c' →
      c₁.store.container? id = some x₁ → Evicted id c c₁ →
        c₁.store.reports id = c.store.reports id ∧
        ((∀ b ∈ bs, ∀ x, b.store.container? id = some x → x.size = x₁.size) →
          c'.store.reports id = c₁.store.reports id) ∧
        ((∃ b ∈ bs, ∃ x, b.store.container? id = some x ∧ x.size ≠ x₁.size) →
          c'.store.reports id = c₁.store.reports id + 1)) ∧
    ∀ c op outcome c₁ bs, Reachable limits c → c.Requests op outcome c₁ → Since id c₁ bs c' →
      Makes id (op, outcome) → c'.store.reports id = c₁.store.reports id ∧
        (c.store.container? id = none → c₁.store.reports id = c.store.reports id) := by
  obtain ⟨x', hx'⟩ := Option.ne_none_iff_exists'.mp hlive
  refine ⟨h.exists_since hlive, fun c op outcome c₁ bs x₁ hc hr hs hx₁ hevicted => ?_,
    fun c op outcome c₁ bs hc hr hs hmade => ?_⟩
  · have hop : op.evicts = true := by
      by_contra hop
      exact hr.not_evicted hc.kept hc.custody (by simpa using hop) hevicted
    obtain ⟨hparked, hsame⟩ := (hr.evicting hc.kept hc.custody (hc.informed id) hop).2.resolve_left
      fun hstays => hstays.1 hevicted
    have hnote := (hparked x₁ hx₁).1
    -- Since the eviction it was reported as soon as its size was another, and never again.
    have htold := hs.told (hc.next hr) (n := x₁.size) (fun x hx => by
      obtain rfl := Option.some.inj (hx₁.symm.trans hx)
      exact ⟨hnote, rfl⟩) x' hx'
    refine ⟨hsame x₁ hx₁, fun hall => ?_, fun ⟨b, hb, x, hx, hne⟩ => ?_⟩
    · rcases htold with ⟨-, hk, -⟩ | ⟨-, -, b, hb, x, hx, hne⟩
      · exact hk
      · exact absurd (hall b hb x hx) hne
    · rcases htold with ⟨-, -, hall⟩ | ⟨-, hk, -⟩
      · exact absurd (hall b hb x hx) hne
      · exact hk
  · refine ⟨(hs.untold (hc.next hr) (hr.making hmade) x' hx').2, fun hfree => ?_⟩
    refine ((hr.path hc.kept).untold hc.kept ?_ fun x hx => ?_).1
    · rintro _ he rfl
      cases (not_evicts_of_creates hmade.1).symm.trans he.2
    · cases hfree.symm.trans hx

/-- A mapping is evicted, gets a second pair and loses it again: that is reported once. -/
theorem reported_once_wavering : ∃ c c₁ c₂ c₃, Reachable {} c ∧
    c.Requests (.evict (.container .mapping ⟨0⟩)) (.ok (.bool true)) c₁ ∧
    c₁.Requests (.assign (.container .mapping ⟨0⟩) (.int 2) (.int 6)) (.ok .done) c₂ ∧
    c₂.Requests (.assign (.container .mapping ⟨0⟩) (.int 2) .nil) (.ok .done) c₃ ∧
    Evicted ⟨0⟩ c c₁ ∧ (c₁.store.container? ⟨0⟩).map Container.size = some 1 ∧
    (c₂.store.container? ⟨0⟩).map Container.size = some 2 ∧
    (c₃.store.container? ⟨0⟩).map Container.size = some 1 ∧
    c₃.store.reports ⟨0⟩ = c.store.reports ⟨0⟩ + 1 := by
  obtain ⟨c, hc, hf⟩ := exists_visit
    [.createDataspace 0, .restore ⟨0⟩ .mapping 2 [.int 1, .int 5]]
    (fun c => (c.request? (.evict (.container .mapping ⟨0⟩))).bind fun q =>
      (q.2.request? (.assign (.container .mapping ⟨0⟩) (.int 2) (.int 6))).bind fun r =>
        (r.2.request? (.assign (.container .mapping ⟨0⟩) (.int 2) .nil)).map fun t =>
          ((c.store.swap.next, q.1, r.1, t.1), (q.2.store.ticket? ⟨0⟩, r.2.store.ticket? ⟨0⟩,
            t.2.store.ticket? ⟨0⟩), (q.2.store.container? ⟨0⟩).map Container.size,
            (r.2.store.container? ⟨0⟩).map Container.size,
            (t.2.store.container? ⟨0⟩).map Container.size))
    (a := some ((0, .ok (.bool true), .ok .done, .ok .done), (some ⟨0⟩, none, none), some 1, some 2,
      some 1)) (by cbv)
  obtain ⟨⟨outcome₁, c₁⟩, hq, hrun⟩ := Option.bind_eq_some_iff.mp hf
  obtain ⟨⟨outcome₂, c₂⟩, hr, hrun⟩ := Option.bind_eq_some_iff.mp hrun
  obtain ⟨⟨outcome₃, c₃⟩, ht, he⟩ := Option.map_eq_some_iff.mp hrun
  simp only [Prod.mk.injEq] at he
  obtain ⟨⟨hnext, rfl, rfl, rfl⟩, ⟨hq₁, hr₁, ht₁⟩, hsize₁, hsize₂, hsize₃⟩ := he
  have hq := request?_eq_some.mp hq
  have hr := request?_eq_some.mp hr
  have ht := request?_eq_some.mp ht
  have hevicted : Evicted ⟨0⟩ c c₁ := ⟨⟨0⟩, hq₁, Nat.le_of_eq hnext⟩
  have hs : Since ⟨0⟩ c₁ [c₁, c₂, c₃] c₃ := by
    refine (Since.start.next hr ?_ ?_).next ht ?_ ?_
    · intro hm
      cases hm.1
    · rintro ⟨_, hticket, -⟩
      cases hr₁.symm.trans hticket
    · intro hm
      cases hm.1
    · rintro ⟨_, hticket, -⟩
      cases ht₁.symm.trans hticket
  obtain ⟨x₁, hx₁, hn₁⟩ := Option.map_eq_some_iff.mp hsize₁
  obtain ⟨x₂, hx₂, hn₂⟩ := Option.map_eq_some_iff.mp hsize₂
  obtain ⟨x₃, hx₃, -⟩ := Option.map_eq_some_iff.mp hsize₃
  have hlive : c₃.store.container? ⟨0⟩ ≠ none := by
    rw [hx₃]
    exact Option.some_ne_none x₃
  obtain ⟨-, hall, -⟩ := Reachable.reported_once (((hc.next hq).next hr).next ht) hlive
  obtain ⟨hsame, -, honce⟩ := hall _ _ _ _ _ _ hc hq hs hx₁ hevicted
  refine ⟨c, c₁, c₂, c₃, hc, hq, hr, ht, hevicted, hsize₁, hsize₂, hsize₃, ?_⟩
  rw [honce ⟨c₂, by simp, x₂, hx₂, by rw [hn₁, hn₂]; decide⟩, hsame]

end Client

end PlaneStore
