import PlaneStore.Proofs.Planes.RecalledContents
import PlaneStore.Proofs.Contents.UpkeepEffects
import PlaneStore.Proofs.Walk.Regions

/-!
# What a plane leaves behind when it is folded down

Folding a plane down writes to no variable, no callout table and no container. Containers that
belong to the plane move to the one below, and that one is offered the backups: it takes those that
lead further out than to itself, of containers that it has not backed up before. So of every
container the planes together remember the same, with one exception: a backup is dropped of what
came to be on the plane below.
-/

namespace PlaneStore

open Store

/-! ## The backups that the plane below takes -/

namespace Plane

/-- Offers the plane of a level a backup of the plane above. -/
def offer (level : Nat) (p : Plane) (b : Backup) : Plane :=
  if b.home ≠ level ∧ p.isBacked b.container = false then p.file b else p

/-- Offers the plane of a level all backups of the plane above, the oldest first. -/
def inherit (level : Nat) (p top : Plane) : Plane := top.ledger.reverse.foldl (offer level) p

variable {p q : Plane} {b : Backup} {id : ContainerId} {level : Nat} {bs : List Backup}

theorem isBacked_eq_stay (p : Plane) (id : ContainerId) :
    p.isBacked id = ((p.stay id).1 == some .backed) := rfl

theorem stay_offer_of_ne (h : b.container ≠ id) : (p.offer level b).stay id = p.stay id := by
  unfold offer
  split
  · exact stay_file_of_ne h
  · rfl

/-- What becomes of an offer is a matter of what the plane has on record of the container. -/
theorem stay_offer_congr (h : q.stay b.container = p.stay b.container) :
    (q.offer level b).stay b.container = (p.offer level b).stay b.container := by
  unfold offer
  rw [isBacked_eq_stay, isBacked_eq_stay, h]
  split
  · rw [stay_file_self, stay_file_self, h]
  · exact h

theorem stay_offers_of_none (h : bs.filter (·.container = id) = []) :
    (bs.foldl (offer level) p).stay id = p.stay id := by
  induction bs generalizing p with
  | nil => rfl
  | cons b bs ih =>
    have hne : b.container ≠ id := by simpa using List.filter_eq_nil_iff.mp h b List.mem_cons_self
    rw [List.filter_cons_of_neg (by simpa using hne)] at h
    exact (ih h).trans (stay_offer_of_ne hne)

/-- The one backup of a container that is offered decides. -/
theorem stay_offers_of_one (h : bs.filter (·.container = b.container) = [b]) :
    (bs.foldl (offer level) p).stay b.container = (p.offer level b).stay b.container := by
  induction bs generalizing p with
  | nil => cases h
  | cons b' bs ih =>
    by_cases hid : b'.container = b.container
    · rw [List.filter_cons_of_pos (by simpa using hid)] at h
      obtain ⟨rfl, h⟩ := List.cons.inj h
      exact stay_offers_of_none h
    · rw [List.filter_cons_of_neg (by simpa using hid)] at h
      exact (ih h).trans (stay_offer_congr (stay_offer_of_ne hid))

theorem stay_inherit_of_none {top : Plane} (h : (top.stay id).2 = []) :
    (p.inherit level top).stay id = p.stay id := by
  have hfilter : top.ledger.reverse.filter (·.container = id) = (top.stay id).2.reverse :=
    List.filter_reverse
  rw [h] at hfilter
  exact stay_offers_of_none hfilter

/-- A plane is offered the one backup that the upper plane has. -/
theorem stay_inherit_of_one {top : Plane} (h : (top.stay id).2 = [b]) :
    (p.inherit level top).stay id = (p.offer level b).stay id := by
  have hfilter : top.ledger.reverse.filter (·.container = id) = (top.stay id).2.reverse :=
    List.filter_reverse
  have hmem : b ∈ (top.stay id).2 := h ▸ List.mem_singleton_self b
  obtain rfl : b.container = id := of_decide_eq_true (List.mem_filter.mp hmem).2
  rw [h] at hfilter
  exact stay_offers_of_one hfilter

end Plane

/-! ## What folding down leaves alone -/

namespace Store

/--
Variables, deferred calls and backups are the same, and what is there was there before; containers
may belong to another plane.
-/
structure Follows (rehome : ContainerId → Nat → Nat) (s s' : Store) : Prop where
  variableAt? : ∀ ref, s'.variableAt? ref = s.variableAt? ref
  call? : ∀ call, s'.call? call = s.call? call
  ledgers : s'.planes.map Plane.ledger = s.planes.map Plane.ledger
  label : ∀ id c', s'.container? id = some c' →
    ∃ c, s.container? id = some c ∧ c'.label = (c.kind, c.tag, c.owner, rehome id c.home)

variable {rehome rehome' : ContainerId → Nat → Nat} {s s' s'' : Store}

namespace Follows

protected theorem refl (s : Store) : Follows (fun _ home => home) s s :=
  ⟨fun _ => rfl, fun _ => rfl, rfl, fun _ c hc => ⟨c, hc, rfl⟩⟩

protected theorem trans (h : Follows rehome s s') (h' : Follows rehome' s' s'') :
    Follows (fun id home => rehome' id (rehome id home)) s s'' where
  variableAt? ref := (h'.variableAt? ref).trans (h.variableAt? ref)
  call? call := (h'.call? call).trans (h.call? call)
  ledgers := h'.ledgers.trans h.ledgers
  label id c'' hc'' := by
    obtain ⟨c', hc', he'⟩ := h'.label id c'' hc''
    obtain ⟨c, hc, he⟩ := h.label id c' hc'
    obtain ⟨hkind, htag, howner, hhome⟩ : _ ∧ _ ∧ _ ∧ _ := by
      simpa only [Container.label, Prod.mk.injEq] using he
    exact ⟨c, hc, by rw [he', hkind, htag, howner, hhome]⟩

theorem congr (h : Follows rehome s s') (he : ∀ id home, rehome' id home = rehome id home) :
    Follows rehome' s s' := by
  obtain rfl : rehome' = rehome := funext fun id => funext (he id)
  exact h

end Follows

theorem Steady.follows (h : Steady s s') : Follows (fun _ home => home) s s' where
  variableAt? := h.variableAt?
  call? := h.call?
  ledgers := by
    have hp := congrArg (List.map Plane.ledger) h.planes
    rw [List.map_map, List.map_map] at hp
    exact hp
  label := h.container

/-- To record a patch moves no container. -/
theorem Recorded.follows {call : CallRef} {patch : CallPatch} {out : List Value}
    (h : Recorded call patch s out s') : Follows (fun _ home => home) s s' where
  variableAt? := h.variableAt?
  call? := h.call?_eq
  ledgers := h.ledgers
  label id c' hc' := by
    refine ⟨c', ?_, rfl⟩
    unfold container? at hc' ⊢
    rwa [h.fields.1] at hc'

/-- The notes that a plane makes of variables are nothing to containers and calls. -/
theorem follows_withPlane {f : Plane → Plane} (hf : ∀ p, (f p).ledger = p.ledger) :
    Follows (fun _ home => home) s (s.withPlane f) where
  variableAt? := variableAt?_withPlane s f
  call? := call?_withPlane s f
  ledgers := ledgers_same hf
  label id c' hc' := ⟨c', (container?_withPlane s f id).symm.trans hc', rfl⟩

end Store

section

variable {s s' : Store} {F : Refs} {C : Charges} {q : Option Closing} {cl : Closing}
  {level : Nat} {u : Unit}

/-! ### Backups -/

theorem Store.withPlane_of_nil (hp : s.planes = []) (f : Plane → Plane) : s.withPlane f = s := by
  unfold withPlane
  rw [hp]

theorem Store.withPlane_of_cons {p : Plane} {rest : List Plane} (hp : s.planes = p :: rest)
    (f : Plane → Plane) : s.withPlane f = { s with planes := f p :: rest } := by
  unfold withPlane
  rw [hp]

/-- To refile a backup is to offer it to the plane below. -/
theorem offer_of_refile {b : Backup} {out : List Value} (h : refile level b s = .ok (out, s')) :
    s' = s.withPlane (·.offer level b) := by
  rcases refile_eq_ok h with ⟨-, rfl, hkept⟩ | ⟨p, rest, hp, hhome, hbacked, -, rfl⟩
  · cases hp : s'.planes with
    | nil => exact (withPlane_of_nil hp _).symm
    | cons p rest =>
      have hrefused : ¬ (b.home ≠ level ∧ p.isBacked b.container = false) := by
        rintro ⟨hhome, hbacked⟩
        rcases hkept p (congrArg List.head? hp) with he | he
        · exact hhome he
        · exact Bool.false_ne_true (hbacked.symm.trans he)
      rw [withPlane_of_cons hp, Plane.offer, if_neg hrefused, ← hp]
  · rw [withPlane_of_cons hp, withPlane_of_cons hp, Plane.offer, if_pos ⟨hhome, hbacked⟩]

theorem offers_of_refiles {bs : List Backup} {outs : List (List Value)}
    (h : bs.mapM (refile level) s = .ok (outs, s')) :
    s' = s.withPlane fun p => bs.foldl (Plane.offer level) p := by
  induction bs generalizing s outs with
  | nil =>
    obtain ⟨-, rfl⟩ := StoreM.mapM_nil_eq_ok.mp h
    cases hp : s.planes with
    | nil => exact (withPlane_of_nil hp _).symm
    | cons p rest => exact ((withPlane_of_cons hp _).trans (by rw [List.foldl_nil, ← hp])).symm
  | cons b bs ih =>
    obtain ⟨out, s₁, outs, h₁, h₂, -⟩ := StoreM.mapM_cons_eq_ok.mp h
    obtain rfl := offer_of_refile h₁
    rw [ih h₂]
    cases hp : s.planes with
    | nil => rw [withPlane_of_nil hp, withPlane_of_nil hp, withPlane_of_nil hp]
    | cons p rest =>
      rw [withPlane_of_cons (planes_withPlane hp _), withPlane_of_cons hp, withPlane_of_cons hp]
      rfl

/-! ### Homes -/

/-- A container settles one level below, if it was at home here. -/
theorem follows_settle {id : ContainerId} (h : settle level id s = .ok (u, s')) :
    Follows (fun other home => if home = level ∧ other = id then level - 1 else home) s s' := by
  rcases settle_eq_ok h with ⟨hnone, rfl⟩ | ⟨c, hc, rfl⟩
  · refine ⟨fun _ => rfl, fun _ => rfl, rfl, fun other c hc => ⟨c, hc, ?_⟩⟩
    rw [if_neg]
    · rfl
    · rintro ⟨-, rfl⟩
      cases hnone.symm.trans hc
  · refine ⟨variableAt?_withPlane _ _, call?_withPlane _ _, ledgers_same fun _ => rfl,
      fun other c' hc' => ?_⟩
    rw [container?_withPlane] at hc'
    rcases container?_withContainer_cases hc hc' with ⟨rfl, rfl⟩ | ⟨hne, hold⟩
    · refine ⟨c, hc, ?_⟩
      by_cases hh : c.home = level
      · rw [if_pos hh, if_pos ⟨hh, rfl⟩]
        rfl
      · rw [if_neg hh, if_neg fun hand => hh hand.1]
        rfl
    · exact ⟨c', hold, by rw [if_neg fun hand => hne hand.2]; rfl⟩

/-- All that was at home here settles one level below. -/
theorem follows_settles {ids : List ContainerId} {u : PUnit}
    (h : ids.forM (settle level) s = .ok (u, s')) :
    Follows (fun id home => if home = level ∧ id ∈ ids then level - 1 else home) s s' := by
  induction ids generalizing s with
  | nil =>
    obtain rfl := StoreM.forM_nil_eq_ok.mp h
    exact (Follows.refl s).congr fun _ _ => if_neg fun hand => by cases hand.2
  | cons id ids ih =>
    obtain ⟨_, s₁, h₁, h⟩ := StoreM.forM_cons_eq_ok.mp h
    refine ((follows_settle h₁).trans (ih h)).congr fun other home => ?_
    simp only [List.mem_cons]
    split_ifs <;> grind

/-! ### Notes -/

theorem follows_resave {ref : VariableRef} {v : Value} {out : List Value}
    (h : resave ref v s = .ok (out, s')) : Follows (fun _ home => home) s s' := by
  rcases resave_eq_ok h with ⟨-, rfl, -⟩ | ⟨p, rest, -, -, -, rfl⟩
  · exact .refl _
  · exact follows_withPlane fun _ => rfl

theorem follows_resaves {saved : List (VariableRef × Value)} {outs : List (List Value)}
    (h : (saved.mapM fun (ref, v) => resave ref v : StoreM (List (List Value))) s =
      .ok (outs, s')) : Follows (fun _ home => home) s s' := by
  induction saved generalizing s outs with
  | nil =>
    obtain ⟨-, rfl⟩ := StoreM.mapM_nil_eq_ok.mp h
    exact .refl s
  | cons p saved ih =>
    obtain ⟨out, s₁, outs, h₁, h₂, -⟩ := StoreM.mapM_cons_eq_ok.mp h
    exact (follows_resave h₁).trans (ih h₂)

/-- To release what was given up moves nothing that is left. -/
theorem follows_releaseAll {vs : List Value} (ha : Account.Kept ⟨s, ↑vs + F, C, q⟩)
    (h : releaseAll vs s = .ok (u, s')) :
    Follows (fun _ home => home) s s' ∧ Account.Kept ⟨s', F, C, q⟩ := by
  have hpath := walk_releaseAll (E := (· = .still)) (F := F) (C := C) (q := q) rfl h
  refine ⟨(hpath.holdsSteady ha ?_).follows, hpath.kept ha⟩
  rintro e rfl
  exact trivial

theorem follows_journals {patches : List (CallRef × CallPatch)} {u : PUnit}
    (ha : Account.Kept ⟨s, F, C, some cl⟩) (hl : cl.patches = patches) (hf : cl.folds = true)
    (h : (patches.forM fun (call, patch) => journal call patch : StoreM PUnit) s =
      .ok (u, s')) :
    Follows (fun _ home => home) s s' ∧
      Account.Kept ⟨s', F, C, some { cl with patches := [] }⟩ := by
  induction patches generalizing s cl with
  | nil =>
    obtain rfl := StoreM.forM_nil_eq_ok.mp h
    rw [← hl]
    exact ⟨.refl _, ha⟩
  | cons p patches ih =>
    obtain ⟨_, s₁, h₁, h⟩ := StoreM.forM_cons_eq_ok.mp h
    obtain ⟨out, t, hrecorded, hrelease⟩ := journal_eq_ok h₁
    have hstep : Step (.record p.1 p.2) ⟨s, F, C, some cl⟩ _ :=
      .nesting (.record hl hf hrecorded)
    obtain ⟨hreleased, hkept⟩ := follows_releaseAll (hstep.kept ha) hrelease
    obtain ⟨hrest, hdone⟩ := ih hkept
      (show ({ cl with patches } : Closing).patches = patches from rfl) hf h
    exact ⟨(hrecorded.follows.trans hreleased).trans hrest, hdone⟩

end

/-! ## A commit -/

section

variable {s s' : Store} {F : Refs} {C : Charges} {n : Nat} {u : Unit}

/--
After a plane is folded down everything is as it was, but that its containers belong to the plane
below, which was offered its backups.
-/
theorem foldDown_follows {top : Plane} (ha : Account.Kept ⟨s, F, C, some (.ofPlane true n top)⟩)
    (h : foldDown n top s = .ok (u, s')) :
    Follows (fun id home => if home = n ∧ id ∈ top.census then n - 1 else home)
      (s.withPlane (·.inherit (n - 1) top)) s' := by
  obtain ⟨backups, saved, s₁, s₂, s₃, s₄, h₁, h₂, h₃, h₄, h⟩ := foldDown_eq_ok h
  have hledger := walk_refiles (E := (· = .nest)) (F := F) (C := C) rfl
    (show (Closing.ofPlane true n top).ledger = top.ledger.reverse from rfl) rfl h₁
  have hcensus := hledger.trans (walk_settles rfl rfl rfl h₂)
  have hsaved := hcensus.trans (walk_resaves rfl rfl rfl h₃)
  obtain ⟨hjournals, hkept⟩ := follows_journals (hsaved.kept ha) rfl rfl h₄
  have hdone := @Nesting.finish s₄ (↑saved.flatten + (↑backups.flatten + F)) C
    (Closing.ofPlane true n top).emptied ⟨rfl, rfl, rfl, rfl⟩
  have hfinished := (Step.nesting hdone).kept hkept
  rw [← add_assoc, Multiset.coe_add, Multiset.coe_eq_coe.mpr List.perm_append_comm] at hfinished
  obtain ⟨hreleased, -⟩ := follows_releaseAll hfinished h
  rw [offers_of_refiles h₁] at h₂
  refine ((follows_settles h₂).trans ((follows_resaves h₃).trans
    (hjournals.trans hreleased))).congr fun id home => ?_
  simp only [Std.TreeMap.mem_keys]

/-- A commit hands the records down and moves one level below what was at home on the plane. -/
theorem commit_follows (ha : Account.Kept ⟨s, F, C, none⟩) (h : commit n s = .ok (.ok u, s')) :
    ∃ top rest, s.planes = top :: rest ∧ n = s.level ∧
      Follows (fun id home => if home = n ∧ id ∈ top.census then n - 1 else home)
        (({ s with planes := rest } : Store).withPlane (·.inherit (n - 1) top)) s' := by
  obtain ⟨top, rest, hp, rfl, -, h₂⟩ := (commit_eq_ok h).resolve_left fun ⟨_, ⟨_, he⟩, _⟩ => by
    cases he
  have hpop : Step (.leave true s.level) ⟨s, F, C, none⟩ _ := .nesting (.pop true hp)
  exact ⟨top, rest, hp, rfl, foldDown_follows (hpop.kept ha) h₂⟩

end

end PlaneStore
