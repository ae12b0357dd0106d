import PlaneStore.Proofs.Clients.RegionCommits

/-!
# Throwing a region away

Whatever a client does after it has entered a region, as long as it stays in it: throwing the region
away brings back every variable, every callout table and every container that is still there, but
for what has been destroyed in between.
-/

namespace PlaneStore

open Store

namespace Client

variable {limits : Limits} {c c' c₁ c₂ d : Client} {op : Operation} {outcome : Outcome}
  {level : Nat} {id : ContainerId} {rs : List (Operation × Outcome)}

/-! ## Requests inside of a region -/

/-- Requests, each with its outcome, after none of which the plane of a level is gone. -/
inductive Session (level : Nat) (c : Client) : List (Operation × Outcome) → Client → Prop
  | start : Session level c [] c
  | next {rs : List (Operation × Outcome)} {c' c'' : Client} {op : Operation} {outcome : Outcome}
    (h : Session level c rs c') (hr : c'.Requests op outcome c'') (hl : level ≤ c''.store.level) :
    Session level c (rs ++ [(op, outcome)]) c''

/-- A request that was answered with a new container in a slot. -/
def Makes (id : ContainerId) (r : Operation × Outcome) : Prop :=
  r.1.creates = true ∧ ∃ kind, r.2 = .ok (.value (.ofContainer kind id))

/-- The effects of such requests: the plane stays, and what they make is answered. -/
def SessionEffect (level : Nat) (rs : List (Operation × Outcome)) (e : Effect) : Prop :=
  e.Spares level ∧ ∀ id F, e = .create id F → ∃ r ∈ rs, Makes id r

theorem sessionEffect_mono {rs' : List (Operation × Outcome)} (h : ∀ r ∈ rs, r ∈ rs') :
    ∀ e, SessionEffect level rs e → SessionEffect level rs' e :=
  fun _ he => ⟨he.1, fun id F hc => (he.2 id F hc).imp fun r hr => ⟨h r hr.1, hr.2⟩⟩

theorem sessionEffect_of_undoes : ∀ e : Effect, e.Undoes level → SessionEffect level rs e :=
  fun e he => ⟨Effect.Undoes.spares e he, by rintro id F rfl; cases he⟩

theorem spares_of_within {owned : Refs} {n : Nat} (hl : level ≤ n) :
    ∀ e, Effect.Within op owned n outcome e → e.Spares level := by
  intro e he
  cases e with
  | leave folds m => exact ⟨hl.trans he.2.le, fun _ => hl.trans_lt he.2⟩
  | left m => exact hl.trans_lt he.2
  | _ => trivial

theorem sessionEffect_of_within {owned : Refs} {n : Nat} (hl : level ≤ n)
    (hmem : (op, outcome) ∈ rs) : ∀ e, Effect.Within op owned n outcome e →
      SessionEffect level rs e := by
  refine fun e he => ⟨spares_of_within hl e he, ?_⟩
  rintro id F rfl
  exact ⟨_, hmem, he.1, he.2.2⟩

namespace Session

theorem reachable (h : Session level c rs c') (hc : Reachable limits c) : Reachable limits c' := by
  induction h with
  | start => exact hc
  | next h hr hl ih => exact ih.next hr

theorem le_level (h : Session level c rs c') (hc : level ≤ c.store.level) :
    level ≤ c'.store.level := by
  cases h with
  | start => exact hc
  | next h hr hl => exact hl

theorem path (h : Session level c rs c') (hc : Reachable limits c) :
    Path (SessionEffect level rs) c.account c'.account := by
  induction h with
  | start => exact .refl _
  | @next rs c' c'' op outcome h hr hl ih =>
    have hlast : Path (SessionEffect level (rs ++ [(op, outcome)])) c'.account c''.account :=
      (hr.path (h.reachable hc).kept).mono (sessionEffect_of_within hl (by simp))
    exact (ih.mono (sessionEffect_mono fun r hr => List.mem_append_left _ hr)).trans hlast

end Session

/-! ## The end of the region -/

/-- A region that is entered. -/
theorem Requests.entered (hr : c.Requests .enter (.ok (.number level)) c₁) :
    level = c.store.level + 1 ∧ c₁ = ⟨{ c.store with planes := {} :: c.store.planes }, c.owned⟩ ∧
      Store.enter c.store = .ok (.ok level, c₁.store) := by
  obtain ⟨r, hs, hn⟩ := ClientM.bind_pure_eq_ok.mp hr.performed
  obtain ⟨s₁, owned⟩ := c₁
  obtain rfl : owned = c.owned := hr.settled
  cases r with
  | error e => cases hn
  | ok n =>
    obtain rfl : level = n := Answer.number.inj (Except.ok.inj hn)
    have h := ClientM.get_bind_eq_ok.mp hs
    split at h
    · cases (ClientM.refuse_eq_ok.mp h).1
    · rcases ClientM.bind_eq_ok.mp h with ⟨e, h₁, he⟩ | ⟨_, s₂, h₁, h⟩
      · cases he
      · obtain ⟨he, rfl⟩ := ClientM.pure_eq_ok.mp h
        cases h₁
        exact ⟨Except.ok.inj he, rfl, hs⟩

theorem Requests.entered_planes (hr : c.Requests .enter (.ok (.number level)) c₁) :
    c₁.store.planes = {} :: c.store.planes ∧ level = c₁.store.level := by
  obtain ⟨rfl, rfl, -⟩ := hr.entered
  exact ⟨rfl, rfl⟩

/-- What was there when the region was entered. -/
theorem Requests.entered_content (hr : c.Requests .enter (.ok (.number level)) c₁) {x : Content}
    (hx : c.store.content? id = some x) :
    c₁.store.content? id = some x ∧ x.Fades c.store c₁.store (c₁.account.contentAt level id x) := by
  obtain ⟨hp, rfl⟩ := hr.entered_planes
  rw [account, Account.contentAt_entered hp]
  obtain ⟨-, rfl, -⟩ := hr.entered
  refine ⟨hx, rfl, rfl, rfl, rfl, fun _ => List.forall₂_same.mpr fun _ _ => .kept rfl,
    fun _ _ h => h,
    fun _ {k v} h => ?_⟩
  show Value.FadesUnder _ _ k v (x.find c.store.heap k)
  rw [h]
  exact .kept rfl rfl

/-- When a region is entered, it would restore what there is. -/
theorem Requests.entered_notes (hr : c.Requests .enter (.ok (.number level)) c₁) :
    (∀ ref, c₁.account.variableAt level ref = c.store.variableAt? ref) ∧
      ∀ call, c₁.account.callAt level call = c.store.call? call := by
  obtain ⟨hp, rfl⟩ := hr.entered_planes
  rw [account]
  refine ⟨fun ref => (Account.variableAt_entered hp ref).trans ?_, fun call =>
    (Account.callAt_entered hp call).trans ?_⟩
  · rw [hr.entered.2.1]
    rfl
  · rw [hr.entered.2.1]
    rfl

/-- A region whose body failed, or left planes open, is thrown away. -/
theorem conclude_discards {α : Type} {r : Except Refusal α} {s s' : Store}
    (hle : level ≤ s.level) (hr : (∃ e, r = .error e) ∨ level < s.level)
    (h : discardTo level s = .ok (.ok (), s')) :
    ∃ e, conclude level r s = .ok (.error e, s') := by
  have hundo : ∀ e : Refusal, (discardTo level >>= fun _ => ClientM.refuse e : ClientM α) s =
      .ok (.error e, s') := fun e =>
    ClientM.bind_eq_ok.mpr (.inr ⟨(), s', h, ClientM.refuse_eq_ok.mpr ⟨rfl, rfl⟩⟩)
  have hget : ∀ r' s', Store.conclude level r s = .ok (r', s') ↔ _ := fun r' s' =>
    ClientM.get_bind_eq_ok
  simp only [hget]
  rw [if_neg (Nat.not_lt.mpr hle)]
  cases r with
  | error e => exact ⟨e, hundo e⟩
  | ok a =>
    have hlt : level < s.level := hr.resolve_left fun ⟨e, he⟩ => by cases he
    dsimp only
    rw [if_neg (Nat.ne_of_gt hlt)]
    exact ⟨_, hundo _⟩

/-- Planes that are there can be thrown away, and nothing is left of the last one. -/
theorem Reachable.undone (h : Reachable limits c) (hpos : 0 < level) (hle : level ≤ c.store.level) :
    ∃ d p, c.Requests (.discardTo level) (.ok .done) d ∧
      discardTo level c.store = .ok (.ok (), d.store) ∧ level = d.store.level + 1 ∧
      Path (Effect.Undoes level) c.account
        (Account.undone d.store c.owned 0 (d.store.level + 1) p) := by
  obtain ⟨outcome, d, hd⟩ := h.request (.discardTo level) nofun nofun
  obtain ⟨r, hdiscard, rfl⟩ := ClientM.bind_pure_eq_ok.mp hd.performed
  have hwalk := walk_discardTo h.kept hdiscard
  cases r with
  | error e =>
    rcases hwalk.2 with rfl | hlt
    · exact absurd hpos (Nat.lt_irrefl 0)
    · exact absurd hle (Nat.not_le.mpr hlt)
  | ok u =>
    obtain ⟨rfl, -, p, hundo⟩ := hwalk
    exact ⟨d, p, hd, hdiscard, rfl, hundo⟩

/--
Throwing a region away brings back what there was when it was entered, whatever a client did in it
that did not take its plane off the stack: requests that were carried out and such that were
refused, further regions that were committed or thrown away, references that were given up and
objects that were destroyed. Every variable and every deferred call is what it was. Every container
that is there, and to whose slot no request gave a new container, is what it was, belongs to whom it
did and is at home where it was; it holds what it held, but that references to what has been
destroyed since read as nil. A region with a body ends the same way if the body fails or leaves
planes open.
-/
theorem Reachable.discard_restores (h : Reachable limits c)
    (hr : c.Requests .enter (.ok (.number level)) c₁) (hs : Session level c₁ rs c₂) :
    ∃ d, c₂.Requests (.discardTo level) (.ok .done) d ∧
      (∀ ref v, c.store.variableAt? ref = some v → d.store.variableAt? ref = some v) ∧
      (∀ call, d.store.call? call = c.store.call? call) ∧
      (∀ id x x', c.store.content? id = some x → d.store.content? id = some x' →
        (∀ r ∈ rs, ¬Makes id r) → x'.label = x.label ∧
          (x.kind ≠ .mapping → x'.buffer.toList.map d.store.seen =
            x.buffer.toList.map (c.store.withObjects d.store.objects).seen) ∧
          (x.kind = .mapping → ∀ k, (x'.find d.store.heap k).filter (d.store.spares k) =
            (x.find c.store.heap k).filter ((c.store.withObjects d.store.objects).spares k))) ∧
      ∀ {α : Type} (body : ClientM α) (r : Except Refusal α),
        body c₁.store = .ok (r, c₂.store) → ((∃ e, r = .error e) ∨ level < c₂.store.level) →
          ∃ e, atomic body c.store = .ok (.error e, d.store) := by
  have h₁ := h.next hr
  have h₂ := hs.reachable h₁
  obtain ⟨hlevel, hc₁, henter⟩ := hr.entered
  have hle₁ : level ≤ c₁.store.level := by rw [hc₁, hlevel]; exact Nat.le_refl _
  have hle₂ := hs.le_level hle₁
  have hpos : 0 < level := by omega
  have hreach : c₁.account.Reaches level := ⟨hpos, hle₁, nofun⟩
  obtain ⟨d, p, hd, hdiscard, hdepth, hundo⟩ := h₂.undone hpos hle₂
  -- The session and the undoing of it are one path from the entered plane on.
  have hpath : Path (SessionEffect level rs) c₁.account
      (Account.undone d.store c₂.owned 0 (d.store.level + 1) p) :=
    (hs.path h₁).trans (hundo.mono sessionEffect_of_undoes)
  have hspares : ∀ e, SessionEffect level rs e → e.Spares level := fun _ he => he.1
  obtain ⟨hvar, hcall⟩ := hr.entered_notes
  subst hdepth
  refine ⟨d, hd, fun ref v hv => ?_, fun call => ?_, fun id x x' hx hx' hmade => ?_,
    fun {α} body r hbody hends => ?_⟩
  · have hv₁ : c₁.store.variableAt? ref = some v := by
      rw [hc₁]
      exact hv
    rw [← Account.variableAt_undone d.store c₂.owned 0 p,
      (hpath.variableAt h₁.kept hspares hreach hv₁).1, hvar, hv]
  · rw [← Account.callAt_undone d.store c₂.owned 0 p,
      hpath.callAt h₁.kept hspares hreach call, hcall]
  · obtain ⟨hx₁, hfades⟩ := hr.entered_content hx
    obtain ⟨c₀, hc₀, rfl⟩ := content?_eq_some.mp hx
    have hold : c₀.home < d.store.level + 1 := hlevel ▸ Nat.lt_succ_of_le (h.kept.home_le hc₀)
    have hleft := hpath.fades h₁.kept hspares hreach
      (fun F he => by
        obtain ⟨r, hr, hmakes⟩ := he.2 id F rfl
        exact hmade r hr hmakes)
      hold (fun {y} hy => by rwa [Option.some.inj (hy.symm.trans hx₁)]) hx'
    rw [Account.contentAt_undone] at hleft
    refine ⟨?_, hleft.seen_eq, hleft.filter_eq⟩
    unfold Content.label
    rw [hleft.kind, hleft.tag, hleft.owner, hleft.home]
  · obtain ⟨e, he⟩ := conclude_discards hle₂ hends hdiscard
    have hrest :
      ((monadLift (body.run : StoreM (Except Refusal α)) : ClientM (Except Refusal α)) >>=
        Store.conclude (d.store.level + 1)) c₁.store = .ok (.error e, d.store) :=
      ClientM.lift_bind_eq_ok.mpr ⟨r, c₂.store, hbody, he⟩
    exact ⟨e, ClientM.bind_eq_ok.mpr (.inr ⟨_, _, henter, hrest⟩)⟩

/-- In a region a variable is written and a further region entered; both are thrown away. -/
theorem discard_restores_nested : ∃ c c₁ c₂ d rs, Reachable {} c ∧
    c.Requests .enter (.ok (.number 1)) c₁ ∧ Session 1 c₁ rs c₂ ∧ rs.length = 2 ∧
    c₂.Requests (.discardTo 1) (.ok .done) d ∧
    c₂.store.variableAt? ⟨⟨0⟩, 0⟩ = some (.int 7) ∧ d.store.variableAt? ⟨⟨0⟩, 0⟩ = some .nil := by
  obtain ⟨c, hc, hf⟩ := exists_visit [.createDataspace 1]
    (fun c => (c.store.variableAt? ⟨⟨0⟩, 0⟩, (c.request? .enter).bind fun q =>
      (q.2.request? (.assignVariable ⟨⟨0⟩, 0⟩ (.int 7))).bind fun r =>
        (r.2.request? .enter).map fun t =>
          (q.1, r.2.store.level, t.2.store.level, t.2.store.variableAt? ⟨⟨0⟩, 0⟩)))
    (a := (some .nil, some (.ok (.number 1), 1, 2, some (.int 7)))) (by cbv)
  obtain ⟨hold, hrun⟩ := Prod.mk.inj hf
  obtain ⟨⟨outcome, c₁⟩, hq, hrun⟩ := Option.bind_eq_some_iff.mp hrun
  obtain ⟨⟨outcome', c'⟩, hr, hrun⟩ := Option.bind_eq_some_iff.mp hrun
  obtain ⟨⟨outcome'', c₂⟩, ht, he⟩ := Option.map_eq_some_iff.mp hrun
  obtain ⟨rfl, hl, hl', hnow⟩ : _ ∧ _ ∧ _ ∧ _ := by simpa only [Prod.mk.injEq] using he
  have hq := request?_eq_some.mp hq
  have hs := (Session.start.next (request?_eq_some.mp hr) (Nat.le_of_eq hl.symm)).next
    (request?_eq_some.mp ht) (show 1 ≤ c₂.store.level by omega)
  obtain ⟨d, hd, hvar, -⟩ := Reachable.discard_restores hc hq hs
  exact ⟨c, c₁, c₂, d, _, hc, hq, hs, rfl, hd, hnow, hvar _ _ hold⟩

end Client

end PlaneStore
