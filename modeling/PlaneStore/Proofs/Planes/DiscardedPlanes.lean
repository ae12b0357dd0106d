import PlaneStore.Proofs.Contents.UpkeepConfluence
import PlaneStore.Proofs.Planes.FoldedPlanes

/-!
# What comes back when planes are thrown away

Throwing planes away down to that of a level gives every variable, every deferred call and every
container back what it was when that plane was entered, and nothing else happens to them on the way:
nothing is scrubbed, and no object is destroyed. A container that came to be later stays what it is
and belongs to the plane below.
-/

namespace PlaneStore

open Store

/-- A container as it is when the plane of a level is gone. -/
def Content.below (level : Nat) (x : Content) : Content :=
  { x with home := min x.home (level - 1) }

theorem Content.below_of_le {level : Nat} {x : Content} (h : x.home ≤ level - 1) :
    x.below level = x := by
  unfold below
  rw [Nat.min_eq_left h]

theorem Content.Same.below {s s' : Store} {x y : Content} (level : Nat) (h : x.Same s s' y) :
    (x.below level).Same s s' (y.below level) :=
  ⟨h.kind, h.tag, h.owner, congrArg (min · (level - 1)) h.home, h.elements, h.entries⟩

/-- A plane that remembers nothing, and whose level is asked for: things were what they are. -/
theorem rewindTo_empty {μ ν : Type} (back : μ → ν) (ms : List (Option μ)) (now : ν) :
    rewindTo back (ms.length + 1) (none :: ms) now = now := by
  rw [rewindTo_cons (Nat.le_refl _), Nat.sub_self]
  rfl

namespace Effect

variable {level n : Nat}

theorem Undoes.spares : ∀ e : Effect, e.Undoes level → e.Spares level
  | _, .still | _, .nest | _, .restore _ => trivial
  | _, .leave h => ⟨h, nofun⟩
  | _, .left h => h

theorem Undoes.calm : ∀ e : Effect, e.Undoes level → e.Calm
  | _, .still | _, .nest | _, .leave _ | _, .left _ | _, .restore _ => trivial

theorem Folds.spares (h : level < n) : ∀ e : Effect, e.Folds n → e.Spares level
  | _, .still | _, .nest | _, .record _ _ => trivial
  | _, .leave => ⟨h.le, fun _ => h⟩
  | _, .left => h

theorem Folds.calm : ∀ e : Effect, e.Folds n → e.Calm
  | _, .still | _, .nest | _, .record _ _ | _, .leave | _, .left => trivial

theorem Folds.leaves {id : ContainerId} : ∀ e : Effect, e.Folds n → e.Leaves id
  | _, .still | _, .nest | _, .record _ _ | _, .leave | _, .left => trivial

end Effect

section

variable {e : Effect} {a b : Account} {id : ContainerId} {x x' : Content} {level : Nat}

/-- While planes are thrown away none is folded down. -/
theorem Step.folding (h : Step e a b) (he : e.Undoes level) (ha : a.folding = false) :
    b.folding = false := by
  cases h with
  | traffic h => cases h <;> exact ha
  | upkeep h => cases h <;> exact ha
  | change h => cases h <;> exact ha
  | creation h => cases h <;> exact ha
  | writing h => cases h <;> exact ha
  | transfer h => cases h; exact ha
  | nesting h =>
    cases h with
    | pop folds => cases he; rfl
    | finish => rfl
    | _ => exact ha

/-- What was before does not change while planes are thrown away, wherever a container ends up. -/
theorem Content.Turned.returns (h : Turned a b id e x x') (ha : a.Kept) (hr : a.Reaches level)
    (he : e.Undoes level) (hf : a.folding = false) (hx : a.store.content? id = some x) :
    ((a.contentAt level id x).below level).Same a.store a.store
      ((b.contentAt level id x').below level) := by
  unfold Account.contentAt
  cases h with
  | turn hlabel hturn =>
    rw [Content.recalled_congr hlabel.1 hlabel.2.1 hlabel.2.2, hturn.rewindTo_eq hr.pos]
    · exact .refl _ _
    · rw [Account.length_copies]
      exact hr.le
    · intro hfold
      rw [hf] at hfold
      cases hfold
  | tended hs hbec htends hhome =>
    rw [hs]
    -- Of what an undo may do, a merge alone touches the elements, and it shows nothing new.
    have hsame : x.Same a.store a.store x' := by
      cases hbec with
      | absorb ho hm =>
        have hk : x.kind = .mapping := ((Content.whole ha.accounted hx).overlay ho).1
        refine ⟨rfl, rfl, rfl, rfl, fun hnot => absurd hk hnot, fun _ k => ?_⟩
        exact (show Becomes a id _ _ _ from .absorb ho hm).find_leaves trivial
          (ha.tabled.content hx hk)
      | backUp | settle => exact ⟨rfl, rfl, rfl, hhome, fun _ => rfl, fun _ _ => rfl⟩
      | restore hq =>
        rcases htends with hrests | hopen
        · exact hrests.elim
        · cases hopen.symm.trans hq
      | _ => cases he
    rw [Content.recalled_congr hsame.kind hsame.tag hsame.owner]
    rcases a.contentAt_cases level id with ⟨y, -, -, hat⟩ | hat
    · rw [hat, hat]
      exact .refl _ _
    · rw [hat, hat]
      exact hsame.below level
  | @settled cl hq hh hs =>
    rw [hs]
    rcases a.contentAt_cases level id with ⟨y, -, -, hat⟩ | hat
    · rw [hat]
      exact (hat _ _).symm ▸ .refl _ _
    · have hhome : min (cl.level - 1) (level - 1) = min x.home (level - 1) := by
        have hlevel := (ha.disciplined.closing cl hq).1
        have hle := hr.le
        rw [Account.depth_of_closing hq] at hle
        omega
      rw [hat, hat]
      exact ⟨rfl, rfl, rfl, hhome, fun _ => rfl, fun _ _ => rfl⟩
  | forgot hfold =>
    rw [hf] at hfold
    cases hfold

/-- A step of an undo changes nothing in what the level would restore. -/
theorem Step.returns (h : Step e a b) (ha : a.Kept) (hr : a.Reaches level)
    (he : e.Undoes level) (hf : a.folding = false) (hx' : b.store.content? id = some x') :
    ∃ x, a.store.content? id = some x ∧
      ((a.contentAt level id x).below level).Same a.store b.store
        ((b.contentAt level id x').below level) := by
  have hcreate : ∀ F, e ≠ .create id F := by
    rintro F rfl
    cases he
  obtain ⟨x, hx, hturned⟩ := h.turned ha (Nat.lt_of_lt_of_le hr.pos hr.le) hcreate hx'
  refine ⟨x, hx, (hturned.returns ha hr he hf hx).trans ?_⟩
  exact .of_stands (h.stands_contentAt ha hx' level)

end

section

variable {a b : Account} {id : ContainerId} {x' : Content} {level : Nat}

/-- An undo leads to what the level would have restored all along. -/
theorem Path.returns (h : Path (Effect.Undoes level) a b) (ha : a.Kept) (hr : a.Reaches level)
    (hf : a.folding = false) (hx' : b.store.content? id = some x') :
    ∃ x, a.store.content? id = some x ∧
      ((a.contentAt level id x).below level).Same a.store b.store
        ((b.contentAt level id x').below level) := by
  have hfolding : ∀ {c : Account}, Path (Effect.Undoes level) a c → c.folding = false := by
    intro c h
    induction h with
    | refl => exact hf
    | tail h he hs ih => exact hs.folding he ih
  induction h generalizing x' with
  | refl => exact ⟨x', hx', .refl _ _⟩
  | tail h he hs ih =>
    obtain ⟨y, hy, hstep⟩ := hs.returns (h.kept ha) (h.reaches ha Effect.Undoes.spares hr) he
      (hfolding h) hx'
    obtain ⟨x, hx, hbefore⟩ := ih hy
    exact ⟨x, hx, hbefore.trans hstep⟩

end

/-! ## What there is when a plane is entered -/

section

variable {s : Store} {F : Refs} {C : Charges} {rest : List Plane}

namespace Account

theorem callAt_entered (hp : s.planes = {} :: rest) (call : CallRef) :
    callAt ⟨s, F, C, none⟩ s.level call = s.call? call := by
  have htop := rewindTo_empty CallPatch.before (rest.map fun p => p.patches[call]?) (s.call? call)
  rw [List.length_map] at htop
  unfold callAt patches Store.level
  rw [hp]
  exact htop

/-- A plane that was just entered would restore the variables as they are. -/
theorem variableAt_entered (hp : s.planes = {} :: rest) (ref : VariableRef) :
    variableAt ⟨s, F, C, none⟩ s.level ref = s.variableAt? ref := by
  have htop := rewindTo_empty some (rest.map fun p => p.savedVars[ref]?) (s.variableAt? ref)
  rw [List.length_map] at htop
  unfold variableAt saves Store.level
  rw [hp]
  exact htop

/-- A plane that was just entered would restore the contents as they are. -/
theorem contentAt_entered (hp : s.planes = {} :: rest) (id : ContainerId) (x : Content) :
    contentAt ⟨s, F, C, none⟩ s.level id x = x := by
  have htop := rewindTo_empty x.recalled (rest.map fun p => Backup.latest? id p.ledger) x
  rw [List.length_map] at htop
  unfold contentAt copies Store.level
  rw [hp]
  exact htop

end Account

end

/-! ## Planes thrown away down to a level -/

section

variable {s s' : Store} {F : Refs} {C : Charges} {level : Nat} {p : Plane}

namespace Account

/-- What is left of the last plane that is thrown away. -/
def undone (s : Store) (F : Refs) (C : Charges) (level : Nat) (p : Plane) : Account :=
  ⟨s, F, C, some (Closing.ofPlane false level p).emptied⟩

/-- Of a plane that was undone nothing is left to restore in the calls. -/
theorem callAt_undone (s : Store) (F : Refs) (C : Charges) (p : Plane) (call : CallRef) :
    (undone s F C (s.level + 1) p).callAt (s.level + 1) call = s.call? call := by
  have htop := rewindTo_empty CallPatch.before (s.planes.map fun p => p.patches[call]?)
    (s.call? call)
  rwa [List.length_map] at htop

/-- Of a plane that was undone nothing is left to restore in the variables. -/
theorem variableAt_undone (s : Store) (F : Refs) (C : Charges) (p : Plane) (ref : VariableRef) :
    (undone s F C (s.level + 1) p).variableAt (s.level + 1) ref = s.variableAt? ref := by
  have htop := rewindTo_empty some (s.planes.map fun p => p.savedVars[ref]?) (s.variableAt? ref)
  rwa [List.length_map] at htop

/-- Of a plane that was undone nothing is left to restore in the contents. -/
theorem contentAt_undone (s : Store) (F : Refs) (C : Charges) (p : Plane) (id : ContainerId)
    (x : Content) : (undone s F C (s.level + 1) p).contentAt (s.level + 1) id x = x := by
  have htop := rewindTo_empty x.recalled (s.planes.map fun p => Backup.latest? id p.ledger) x
  rwa [List.length_map] at htop

end Account

/--
Throwing planes away down to a level gives back what there was when the plane of that level was
entered.
-/
theorem discardTo_returns {r : Except Refusal Unit} (ha : Account.Kept ⟨s, F, C, none⟩)
    (hpos : 0 < level) (hle : level ≤ s.level) (h : discardTo level s = .ok (r, s')) :
    r = .ok () ∧ level = s'.level + 1 ∧
      (∀ ref v, s.variableAt? ref = some v →
        s'.variableAt? ref = Account.variableAt ⟨s, F, C, none⟩ level ref) ∧
      (∀ call, s'.call? call = Account.callAt ⟨s, F, C, none⟩ level call) ∧
      ∀ id x', s'.content? id = some x' → ∃ x, s.content? id = some x ∧
        ((Account.contentAt ⟨s, F, C, none⟩ level id x).below level).Same s s' x' := by
  have hwalk := walk_discardTo ha h
  cases r with
  | error e =>
    rcases hwalk.2 with rfl | hlt
    · exact absurd hpos (Nat.lt_irrefl 0)
    · exact absurd hle (Nat.not_le.mpr hlt)
  | ok u =>
    obtain ⟨rfl, -, p, hpath⟩ := hwalk
    have hpath : Path (Effect.Undoes (s'.level + 1)) ⟨s, F, C, none⟩
      (Account.undone s' F C (s'.level + 1) p) := hpath
    have hr : Account.Reaches ⟨s, F, C, none⟩ (s'.level + 1) := ⟨hpos, hle, nofun⟩
    have hdone := (@Path.finished s' F C (Closing.ofPlane false (s'.level + 1) p) _ 0 hpath
      (Nat.succ_pos _)).kept ha
    refine ⟨rfl, rfl, fun ref v hv => ?_, fun call => ?_, fun id x' hx' => ?_⟩
    · rw [← Account.variableAt_undone s' F C p]
      exact (hpath.variableAt ha Effect.Undoes.spares hr hv).1
    · rw [← Account.callAt_undone s' F C p]
      exact hpath.callAt ha Effect.Undoes.spares hr call
    · obtain ⟨x, hx, hsame⟩ := hpath.returns ha hr rfl hx'
      have hbelow : x'.below (s'.level + 1) = x' := by
        obtain ⟨c', hc', rfl⟩ := content?_eq_some.mp hx'
        exact Content.below_of_le (hdone.home_le hc')
      rw [Account.contentAt_undone, hbelow] at hsame
      exact ⟨x, hx, hsame⟩

end

/-! ## What a commit leaves to come back -/

/-- What one plane remembers for two comes to the same. -/
theorem rewindTo_merged {μ ν : Type} (back : μ → ν) {m m' : Option μ} {ms : List (Option μ)}
    {level : Nat} (hle : level ≤ ms.length + 1) (now : ν) :
    rewindTo back level (m'.or m :: ms) now = rewindTo back level (m :: m' :: ms) now := by
  rw [rewindTo_cons hle, rewindTo_cons_cons hle]
  cases m <;> cases m' <;> rfl

/-- Without records there is nothing to go back to. -/
theorem rewind_of_empty {μ ν : Type} (back : μ → ν) {ms : List (Option μ)} (h : ∀ m ∈ ms, m = none)
    (now : ν) : rewind back ms now = now := by
  induction ms with
  | nil => rfl
  | cons m ms ih =>
    obtain rfl := h m List.mem_cons_self
    exact ih fun m hm => h m (List.mem_cons_of_mem _ hm)

/--
A container that came to be on the plane below the innermost one, and was backed up on the innermost
one.
-/
def Store.Young (s : Store) (id : ContainerId) : Prop :=
  ∃ top parent rest, s.planes = top :: parent :: rest ∧ top.isBacked id = true ∧
    parent.census[id]? = some .fresh

theorem latest?_eq_stay (p : Plane) (id : ContainerId) :
    Backup.latest? id p.ledger = (p.stay id).2.head? := rfl

section

variable {top parent : Plane} {rest : List Plane} {id : ContainerId} {home : Nat}

/--
The plane below remembers what it or the innermost plane remembered, the older of the two, unless
the container came to be on it.
-/
theorem latest?_inherit
    (h : Trail (top.stay id :: parent.stay id :: rest.map (·.stay id)) home)
    (hold : ¬(top.isBacked id = true ∧ parent.census[id]? = some .fresh)) :
    Backup.latest? id (parent.inherit (rest.length + 1) top).ledger =
      (Backup.latest? id parent.ledger).or (Backup.latest? id top.ledger) := by
  rw [latest?_eq_stay, latest?_eq_stay, latest?_eq_stay]
  have hcensus : parent.census[id]? = (parent.stay id).1 := rfl
  rw [hcensus, Plane.isBacked_eq_stay] at hold
  -- What the two planes know of the container is told by the trail.
  generalize hx : top.stay id = x at h hold ⊢
  cases h with
  | absent | fresh =>
    rw [Plane.stay_inherit_of_none (by rw [hx])]
    exact Option.or_none.symm
  | @backed _ b htrail =>
    have hmem : b ∈ (top.stay id).2 := by rw [hx]; exact List.mem_singleton_self b
    obtain rfl : b.container = id := of_decide_eq_true (List.mem_filter.mp hmem).2
    rw [Plane.stay_inherit_of_one (by rw [hx])]
    unfold Plane.offer
    rw [Plane.isBacked_eq_stay]
    generalize hy : parent.stay b.container = y at htrail hold ⊢
    generalize hb : b.home = n at htrail ⊢
    cases htrail with
    | absent hrest =>
      have hle := hrest.home_le
      rw [List.length_map] at hle
      rw [if_pos ⟨by omega, rfl⟩, Plane.stay_file_self]
      rfl
    | fresh => exact absurd ⟨rfl, rfl⟩ hold
    | backed b' =>
      rw [if_neg (by simp), hy]
      rfl

/-- Of a container that came to be on the plane below nothing is remembered after a commit. -/
theorem latest?_young
    (h : Trail (top.stay id :: parent.stay id :: rest.map (·.stay id)) home)
    (hbacked : top.isBacked id = true) (hfresh : parent.census[id]? = some .fresh) :
    home = rest.length + 2 ∧
      Backup.latest? id (parent.inherit (rest.length + 1) top).ledger = none ∧
      (∃ b, Backup.latest? id top.ledger = some b ∧ b.home = rest.length + 1) ∧
      Backup.latest? id parent.ledger = none ∧ ∀ p ∈ rest, Backup.latest? id p.ledger = none := by
  rw [latest?_eq_stay, latest?_eq_stay, latest?_eq_stay]
  have hcensus : (parent.stay id).1 = some .fresh := hfresh
  rw [Plane.isBacked_eq_stay] at hbacked
  generalize hx : top.stay id = x at h hbacked ⊢
  cases h with
  | absent | fresh => cases hbacked
  | @backed _ b htrail =>
    have hone : (parent.inherit (rest.length + 1) top).stay id =
        (parent.offer (rest.length + 1) b).stay id := Plane.stay_inherit_of_one (by rw [hx])
    generalize hy : parent.stay id = y at htrail hcensus hone ⊢
    generalize hb : b.home = n at htrail
    cases htrail with
    | absent => cases hcensus
    | backed => cases hcensus
    | fresh hclear =>
      rw [List.length_map] at hb
      rw [List.length_cons, List.length_map]
      have hkept : parent.offer (rest.length + 1) b = parent := if_neg fun hand => hand.1 hb
      rw [hone, hkept, hy]
      refine ⟨rfl, rfl, ⟨b, rfl, hb⟩, rfl, fun p hp => ?_⟩
      rw [latest?_eq_stay, hclear _ (List.mem_map_of_mem hp)]
      rfl

end

/-- What a container is, whatever it holds. -/
def Content.label (x : Content) : Kind × Nat × DataspaceId × Nat := (x.kind, x.tag, x.owner, x.home)

theorem Content.Same.label_eq {s s' : Store} {x x' : Content} (h : x.Same s s' x') :
    x'.label = x.label := by
  unfold label
  rw [h.kind, h.tag, h.owner, h.home]

section

variable {s s' : Store} {F : Refs} {C : Charges} {n level : Nat} {u : Unit} {id : ContainerId}
  {x x' : Content}

/-- A commit changes no variable, no call and no container, but that those of the plane move. -/
theorem commit_keeps (ha : Account.Kept ⟨s, F, C, none⟩) (h : commit n s = .ok (.ok u, s')) :
    (∀ ref, s'.variableAt? ref = s.variableAt? ref) ∧ (∀ call, s'.call? call = s.call? call) ∧
      ∀ id x', s'.content? id = some x' → ∃ x, s.content? id = some x ∧
        ({ x with home := if x.home = n then n - 1 else x.home } : Content).Same s s' x' := by
  obtain ⟨-, -, hpath⟩ := walk_commit ha h
  obtain ⟨top, rest, hp, rfl, hfollows⟩ := commit_follows ha h
  refine ⟨fun ref => (hfollows.variableAt? ref).trans (variableAt?_withPlane _ _ ref),
    fun call => (hfollows.call? call).trans (call?_withPlane _ _ call), fun id x' hx' => ?_⟩
  obtain ⟨c', hc', rfl⟩ := content?_eq_some.mp hx'
  obtain ⟨c, hc, hlabel⟩ := hfollows.label id c' hc'
  rw [container?_withPlane] at hc
  have hc : s.container? id = some c := hc
  have hx := content?_of_container hc
  obtain ⟨hkind, htag, howner, hhome⟩ : _ ∧ _ ∧ _ ∧ _ := by
    simpa only [Container.label, Prod.mk.injEq] using hlabel
  -- A container that is at home on the top plane is listed there, so the commit moves it down.
  have hlisted : c.home = s.level → id ∈ top.census := fun he => by
    have htrail : Trail (s.stays id) c.home := ha.trail hc
    have hlevel : s.level = rest.length + 1 := congrArg List.length hp
    rw [stays_cons hp, he, hlevel] at htrail
    generalize hhome : rest.length + 1 = home at htrail
    rw [Plane.mem_census_iff]
    intro hnone
    generalize top.stay id = y at htrail hnone
    cases htrail with
    | absent hrest =>
      have hle := hrest.home_le
      rw [List.length_map] at hle
      omega
    | fresh | backed => cases hnone
  refine ⟨_, hx, hkind, htag, howner, ?_, fun hk => ?_, fun hk k => ?_⟩
  · show c'.home = if c.home = s.level then s.level - 1 else c.home
    rw [hhome]
    by_cases he : c.home = s.level
    · rw [if_pos he, if_pos ⟨he, hlisted he⟩]
    · rw [if_neg he, if_neg fun hand => he hand.1]
  · have hk' : c'.kind ≠ .mapping := hkind ▸ hk
    obtain ⟨y, hy, -, hbuffer⟩ := hpath.buffer ha Effect.Folds.leaves hx' hk'
    obtain rfl := Option.some.inj (hx.symm.trans hy)
    exact hbuffer.symm
  · have hk' : c'.kind = .mapping := hkind.trans hk
    obtain ⟨y, hy, -, hfind⟩ := hpath.find ha Effect.Folds.leaves hx' hk'
    obtain rfl := Option.some.inj (hx.symm.trans hy)
    exact hfind k

/-- What is remembered of a container before a commit and after it. -/
theorem commit_copies (ha : Account.Kept ⟨s, F, C, none⟩) (h : commit n s = .ok (.ok u, s'))
    (hdeep : 1 < n) (id : ContainerId) : ∃ top parent rest, s.planes = top :: parent :: rest ∧
      n = rest.length + 2 ∧
      Account.copies ⟨s', F, C, none⟩ id =
        Backup.latest? id (parent.inherit (rest.length + 1) top).ledger ::
          rest.map fun p => Backup.latest? id p.ledger := by
  obtain ⟨top, rest, hp, rfl, hfollows⟩ := commit_follows ha h
  have hlevel : s.level = rest.length + 1 := congrArg List.length hp
  cases rest with
  | nil => exact absurd hdeep (by rw [hlevel]; exact Nat.lt_irrefl 1)
  | cons parent rest =>
    refine ⟨top, parent, rest, hp, hlevel, ?_⟩
    have hledgers := congrArg (List.map (Backup.latest? id)) hfollows.ledgers
    rw [planes_withPlane rfl, List.map_map, List.map_map, hlevel, Nat.add_sub_cancel] at hledgers
    exact hledgers

/-- The copies of a container, from the innermost plane down. -/
theorem copies_of_planes {top parent : Plane} {rest : List Plane}
    (hp : s.planes = top :: parent :: rest) (id : ContainerId) :
    Account.copies ⟨s, F, C, none⟩ id = Backup.latest? id top.ledger ::
      Backup.latest? id parent.ledger :: rest.map fun p => Backup.latest? id p.ledger := by
  rw [Account.copies_cons hp, List.map_cons]

/--
What a container will be when planes are thrown away is the same before a commit and after it.
-/
theorem commit_contentAt (ha : Account.Kept ⟨s, F, C, none⟩) (h : commit n s = .ok (.ok u, s'))
    (hpos : 0 < level) (hlt : level < n) (hx : s.content? id = some x)
    (hx' : s'.content? id = some x') (hold : ¬s.Young id) :
    ((Account.contentAt ⟨s, F, C, none⟩ level id x).below level).Same s s'
      ((Account.contentAt ⟨s', F, C, none⟩ level id x').below level) := by
  obtain ⟨-, -, hkeeps⟩ := commit_keeps ha h
  obtain ⟨y, hy, hsame⟩ := hkeeps id x' hx'
  obtain rfl := Option.some.inj (hx.symm.trans hy)
  obtain ⟨-, -, hpath⟩ := walk_commit ha h
  obtain ⟨top, parent, rest, hp, rfl, hcopies⟩ := commit_copies ha h (by omega) id
  have htrail := ha.disciplined.trail_of_content hx
  rw [stays_cons hp] at htrail
  have hback := Content.recalled_congr hsame.kind hsame.tag hsame.owner
  -- The plane below takes over the copies that it lacks, so any lower level finds the same one.
  have hmerged : ∀ now : Content,
      rewindTo x.recalled level (Account.copies ⟨s, F, C, none⟩ id) now =
        rewindTo x.recalled level (Account.copies ⟨s', F, C, none⟩ id) now := fun now => by
    rw [copies_of_planes hp, hcopies,
      latest?_inherit htrail fun hand => hold ⟨top, parent, rest, hp, hand⟩]
    refine (rewindTo_merged _ ?_ now).symm
    rw [List.length_map]
    omega
  unfold Account.contentAt
  rw [hmerged, hback]
  rcases Account.contentAt_cases ⟨s', F, C, none⟩ level id with ⟨y, hy, -, hat⟩ | hat
  · rw [hat, hat]
    refine (Content.Same.of_stands fun v hv => ?_).below level
    refine hpath.stands ha Effect.Folds.calm fun _ => Account.mem_refs_of_placed ?_
    rcases Content.mem_held.mp hv with hmem | ⟨o, i, d, ho, -⟩
    · exact Account.mem_placed_of_backup hy (Backup.mem_held hmem)
    · cases ho
  · rw [hat, hat]
    refine ⟨hsame.kind, hsame.tag, hsame.owner, ?_, hsame.elements, hsame.entries⟩
    show min x'.home (level - 1) = min x.home (level - 1)
    rw [hsame.home]
    show min (if x.home = rest.length + 2 then rest.length + 2 - 1 else x.home) (level - 1) = _
    split <;> omega

/--
A container that came to be on the plane below the innermost one stays what it is after a commit,
and where it ends up is the same as before.
-/
theorem commit_contentAt_young (ha : Account.Kept ⟨s, F, C, none⟩)
    (h : commit n s = .ok (.ok u, s')) (hpos : 0 < level) (hlt : level < n)
    (hx : s.content? id = some x) (hx' : s'.content? id = some x') (hyoung : s.Young id) :
    Account.contentAt ⟨s', F, C, none⟩ level id x' = x' ∧
      (x'.below level).label =
        ((Account.contentAt ⟨s, F, C, none⟩ level id x).below level).label := by
  obtain ⟨-, -, hkeeps⟩ := commit_keeps ha h
  obtain ⟨y, hy, hsame⟩ := hkeeps id x' hx'
  obtain rfl := Option.some.inj (hx.symm.trans hy)
  obtain ⟨top, parent, rest, hp, rfl, hcopies⟩ := commit_copies ha h (by omega) id
  obtain ⟨t, q, r, he, hbacked, hfresh⟩ := hyoung
  obtain ⟨rfl, hrest⟩ := List.cons.inj (hp.symm.trans he)
  obtain ⟨rfl, rfl⟩ := List.cons.inj hrest
  have htrail := ha.disciplined.trail_of_content hx
  rw [stays_cons hp] at htrail
  obtain ⟨hhome, hnone, ⟨b, hb, hbhome⟩, hparent, hrest⟩ := latest?_young htrail hbacked hfresh
  have hempty : ∀ m ∈ rest.map fun p => Backup.latest? id p.ledger, m = none := by
    intro m hm
    obtain ⟨p, hp, rfl⟩ := List.mem_map.mp hm
    exact hrest p hp
  have hafter : Account.contentAt ⟨s', F, C, none⟩ level id x' = x' := by
    unfold Account.contentAt rewindTo
    rw [hcopies, hnone]
    refine rewind_of_empty _ (fun m hm => ?_) _
    rcases List.mem_cons.mp (List.mem_of_mem_take hm) with rfl | hm
    · rfl
    · exact hempty m hm
  have hbefore : Account.contentAt ⟨s, F, C, none⟩ level id x = x.recalled b := by
    unfold Account.contentAt
    rw [copies_of_planes hp, hb, hparent, rewindTo_cons_cons (by rw [List.length_map]; omega)]
    exact rewind_of_empty _ (fun m hm => hempty m (List.mem_of_mem_take hm)) _
  have hhome' : x'.home = rest.length + 1 := by
    rw [hsame.home]
    exact if_pos hhome
  refine ⟨hafter, ?_⟩
  rw [hbefore]
  show (x'.kind, x'.tag, x'.owner, min x'.home (level - 1)) =
    (x.kind, x.tag, x.owner, min b.home (level - 1))
  rw [hsame.kind, hsame.tag, hsame.owner, hhome', hbhome]

end

end PlaneStore
