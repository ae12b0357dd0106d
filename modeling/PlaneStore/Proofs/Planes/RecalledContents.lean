import PlaneStore.Proofs.Contents.Remnants

/-!
# What containers were when a plane was entered

Planes keep backups of containers as they keep notes of variables and calls: taking them back from
the innermost plane to that of a level gives what a container was when that plane was entered.
Unlike variables, containers are tended to without a backup: pending writes are merged, and what is
lost is scrubbed. So the content that comes back is the old one but for what has been destroyed
since.
-/

namespace PlaneStore

open Store

/-- What a thing was is what the earliest memory says; if there is none, it is what the thing is. -/
theorem rewind_cases {μ : Type} (ms : List (Option μ)) :
    (∃ m, some m ∈ ms ∧ ∀ {ν : Type} (back : μ → ν) (now : ν), rewind back ms now = back m) ∨
      ∀ {ν : Type} (back : μ → ν) (now : ν), rewind back ms now = now := by
  induction ms with
  | nil => exact .inr fun _ _ => rfl
  | cons o ms ih =>
    cases o with
    | none => exact ih.imp_left fun ⟨m, hm, h⟩ => ⟨m, List.mem_cons_of_mem _ hm, h⟩
    | some m =>
      refine .inl ?_
      rcases ih with ⟨m', hm', h⟩ | h
      · exact ⟨m', List.mem_cons_of_mem _ hm', fun back _ => h back _⟩
      · exact ⟨m, List.mem_cons_self, fun back _ => h back _⟩

/-- Going back ends at one of the records, or stays where it is. -/
theorem rewindTo_cases {μ : Type} (level : Nat) (ms : List (Option μ)) :
    (∃ m, some m ∈ ms ∧
      ∀ {ν : Type} (back : μ → ν) (now : ν), rewindTo back level ms now = back m) ∨
      ∀ {ν : Type} (back : μ → ν) (now : ν), rewindTo back level ms now = now :=
  (rewind_cases (ms.take (ms.length + 1 - level))).imp_left fun ⟨m, hm, h⟩ =>
    ⟨m, List.mem_of_mem_take hm, h⟩

/-! ## What planes remember of containers -/

/-- The latest backup of a container in a ledger. -/
def Backup.latest? (id : ContainerId) (ledger : List Backup) : Option Backup :=
  (ledger.filter (·.container = id)).head?

namespace Backup

variable {b : Backup} {id : ContainerId} {ledger : List Backup}

theorem latest?_self (b : Backup) (ledger : List Backup) :
    latest? b.container (b :: ledger) = some b := by
  simp [latest?]

theorem latest?_of_ne (h : b.container ≠ id) : latest? id (b :: ledger) = latest? id ledger := by
  simp [latest?, h]

theorem latest?_of_filter (h : ledger.filter (·.container = id) = []) :
    latest? id ledger = none := by
  rw [latest?, h, List.head?_nil]

theorem mem_of_latest? (h : latest? id ledger = some b) : b ∈ ledger ∧ b.container = id := by
  obtain ⟨hmem, hid⟩ := List.mem_filter.mp (List.mem_of_head? h)
  exact ⟨hmem, of_decide_eq_true hid⟩

end Backup

/-- A content in the state that a backup recorded. -/
def Content.recalled (x : Content) (b : Backup) : Content :=
  { x with
    buffer := b.elements, overlay := none, home := b.home, scrubEpoch := b.scrubEpoch }

theorem Content.recalled_congr {x x' : Content} (hkind : x'.kind = x.kind) (htag : x'.tag = x.tag)
    (howner : x'.owner = x.owner) : x'.recalled = x.recalled := by
  funext y
  unfold Content.recalled
  rw [hkind, htag, howner]

/-- A backup that was just taken brings back what is there. -/
theorem Backup.Records.recalled {y : Backup} {x : Content} (h : y.Records x)
    (ho : x.overlay = none) :
    x.recalled y = x := by
  unfold Content.recalled
  rw [h.elements, h.home, h.scrubEpoch, ← ho]

namespace Account

/-- What planes remember of a container, that of a closing plane in front. -/
def copies (a : Account) (id : ContainerId) : List (Option Backup) :=
  (a.closing.map fun cl => Backup.latest? id cl.ledger).toList ++
    a.store.planes.map fun p => Backup.latest? id p.ledger

/-- What a container was when the plane of a level was entered, given what it is now. -/
def contentAt (a : Account) (level : Nat) (id : ContainerId) (x : Content) : Content :=
  rewindTo x.recalled level (a.copies id) x

variable {a b : Account} {id : ContainerId}

theorem length_copies (a : Account) (id : ContainerId) : (a.copies id).length = a.depth := by
  unfold copies depth level
  rw [List.length_append, List.length_map, Nat.add_comm]
  cases a.closing <;> rfl

/-- Copies depend on the ledgers alone. -/
theorem copies_congr (hp : b.store.planes.map Plane.ledger = a.store.planes.map Plane.ledger)
    (hq : b.closing.map Closing.ledger = a.closing.map Closing.ledger) (id : ContainerId) :
    b.copies id = a.copies id := by
  have hplanes := congrArg (List.map (Backup.latest? id)) hp
  have hclosing := congrArg (Option.map (Backup.latest? id)) hq
  rw [List.map_map, List.map_map] at hplanes
  rw [Option.map_map, Option.map_map] at hclosing
  unfold copies
  exact congrArg₂ (· ++ ·) (congrArg Option.toList hclosing) hplanes

theorem mem_backups_of_copies {y : Backup} (h : some y ∈ a.copies id) :
    y ∈ a.backups ∧ y.container = id := by
  unfold copies at h
  rcases List.mem_append.mp h with h | h
  · cases hq : a.closing with
    | none =>
      rw [hq] at h
      cases h
    | some cl =>
      rw [hq] at h
      obtain ⟨hmem, hid⟩ := Backup.mem_of_latest? (List.mem_singleton.mp h).symm
      refine ⟨List.mem_append.mpr (.inl ?_), hid⟩
      rw [hq]
      exact hmem
  · obtain ⟨p, hp, hy⟩ := List.mem_map.mp h
    obtain ⟨hmem, hid⟩ := Backup.mem_of_latest? hy
    exact ⟨List.mem_append.mpr (.inr (List.mem_flatMap.mpr ⟨p, hp, hmem⟩)), hid⟩

/--
What a container was is what the earliest backup says; if there is none, it is what it is now.
-/
theorem contentAt_cases (a : Account) (level : Nat) (id : ContainerId) :
    (∃ y ∈ a.backups, y.container = id ∧ ∀ x now : Content,
      rewindTo x.recalled level (a.copies id) now = x.recalled y) ∨
      ∀ x now : Content, rewindTo x.recalled level (a.copies id) now = now := by
  rcases rewindTo_cases level (a.copies id) with ⟨y, hy, h⟩ | h
  · obtain ⟨hmem, hid⟩ := mem_backups_of_copies hy
    exact .inl ⟨y, hmem, hid, fun x now => h _ _⟩
  · exact .inr fun x now => h _ _

end Account

/-! ### What steps do to them -/

theorem Store.ledgers_same {s : Store} {f : Plane → Plane} (hf : ∀ p, (f p).ledger = p.ledger) :
    (s.withPlane f).planes.map Plane.ledger = s.planes.map Plane.ledger :=
  planes_map_withPlane s hf

theorem Store.Recorded.ledgers {s s' : Store} {call : CallRef} {patch : CallPatch}
    {out : List Value} (h : Recorded call patch s out s') :
    s'.planes.map Plane.ledger = s.planes.map Plane.ledger := by
  cases h with
  | told => rfl
  | filed | folded | cancelled => exact ledgers_same fun _ => rfl

section

variable {e : Effect} {a b : Account}

/-- Traffic touches no ledger. -/
theorem Traffic.ledgers (h : Traffic a b) (hs : a.store.Stored) :
    b.store.planes.map Plane.ledger = a.store.planes.map Plane.ledger := by
  have hp := congrArg (List.map Plane.ledger) (h.wanes hs).planes
  rw [List.map_map, List.map_map] at hp
  exact hp

/-- To make something touches no ledger. -/
theorem Creation.ledgers (h : Creation e a b) (hs : a.store.heap.containers.Sound) :
    b.store.planes.map Plane.ledger = a.store.planes.map Plane.ledger := by
  cases h with
  | @container t s F C owner kind values u hv hm h =>
    refine (ledgers_same (s := t) (by exact fun _ => rfl)).trans ?_
    rw [(alike_link_new hs rfl h).planes]
    rfl
  | retag | string | dataspace | spawn | destroy => rfl

theorem Writing.ledgers (h : Writing e a b) :
    b.store.planes.map Plane.ledger = a.store.planes.map Plane.ledger := by
  cases h with
  | write => rfl
  | @firstWrite t s F C ref v old p rest u hold hv hp hnew h =>
    refine (ledgers_same (s := t) (by exact fun _ => rfl)).trans ?_
    rw [(alike_dropImport h).planes]
    rfl
  | addCall hd hv h => exact h.ledgers
  | removeCall hold h₁ h₂ | replaceCall hold hv h₁ h₂ =>
    refine h₂.ledgers.trans ?_
    rw [(alike_dropImport h₁).planes]
    rfl

end

namespace Account

variable {s s' : Store} {F F' : Refs} {C C' : Charges} {cl cl' : Closing} {id : ContainerId}

theorem copies_open (s : Store) (F : Refs) (C : Charges) (id : ContainerId) :
    copies ⟨s, F, C, none⟩ id = s.planes.map fun p => Backup.latest? id p.ledger := rfl

theorem copies_cons {p : Plane} {rest : List Plane} (hp : s.planes = p :: rest) (F : Refs)
    (C : Charges) (id : ContainerId) : copies ⟨s, F, C, none⟩ id =
      Backup.latest? id p.ledger :: rest.map fun p => Backup.latest? id p.ledger := by
  rw [copies_open, hp, List.map_cons]

theorem copies_closing (s : Store) (F : Refs) (C : Charges) (cl : Closing) (id : ContainerId) :
    copies ⟨s, F, C, some cl⟩ id = Backup.latest? id cl.ledger :: copies ⟨s, F, C, none⟩ id := rfl

/-- A plane that gets a backup remembers it. -/
theorem copies_file_self {p : Plane} {rest : List Plane} (hp : s.planes = p :: rest) (F : Refs)
    (C : Charges) (y : Backup) : copies ⟨s.withPlane (·.file y), F, C, none⟩ y.container =
      some y :: rest.map fun p => Backup.latest? y.container p.ledger := by
  rw [copies_cons (planes_withPlane hp _)]
  exact congrArg (· :: _) (Backup.latest?_self y p.ledger)

theorem copies_file_of_ne {p : Plane} {rest : List Plane} (hp : s.planes = p :: rest) (F : Refs)
    (C : Charges) {y : Backup} (hne : y.container ≠ id) :
    copies ⟨s.withPlane (·.file y), F, C, none⟩ id = copies ⟨s, F, C, none⟩ id := by
  rw [copies_cons (planes_withPlane hp _), copies_cons hp]
  exact congrArg (· :: _) (Backup.latest?_of_ne hne)

end Account

/--
What a step does to a container and to what is remembered of it: it takes a turn as variables do; or
nothing changes of what is remembered; or a backup is forgotten that a plane took of a container
which belonged to the plane below, and which that one does not remember.
-/
inductive Content.Turned (a b : Account) (id : ContainerId) (e : Effect) : Content → Content → Prop
  | turn {x x' : Content} (hlabel : x'.kind = x.kind ∧ x'.tag = x.tag ∧ x'.owner = x.owner)
    (h : Turn x.recalled a.folding (a.copies id) x (b.copies id) x') : Turned a b id e x x'
  | tended {x x' : Content} (hs : b.copies id = a.copies id) (h : Becomes a id e x x')
    (he : e.Rests ∨ a.closing = none) (hhome : x'.home = x.home) :
    Turned a b id e x x'
  | settled {x : Content} {cl : Closing} (hq : a.closing = some cl) (hh : x.home = cl.level)
    (hs : b.copies id = a.copies id) : Turned a b id e x { x with home := cl.level - 1 }
  | forgot {x : Content} {y : Backup} {ms : List (Option Backup)} (hf : a.folding = true)
    (hhome : y.home = a.store.level) (hs : a.copies id = some y :: none :: ms)
    (hs' : b.copies id = none :: none :: ms) : Turned a b id e x x

section

variable {e : Effect} {a b : Account} {id : ContainerId} {x' : Content}

theorem Content.Turned.kept (hs : b.copies id = a.copies id) (hx : a.store.content? id = some x') :
    ∃ x, a.store.content? id = some x ∧ Content.Turned a b id e x x' := by
  refine ⟨x', hx, .turn ⟨rfl, rfl, rfl⟩ ?_⟩
  rw [hs]
  exact .keep

/-- On the plane on top, and on one that is closing, there is at most one backup of a container. -/
theorem Trail.latest?_reverse {p : Plane} {stays : List Stay} {home : Nat}
    (h : Trail (p.stay id :: stays) home) :
    Backup.latest? id p.ledger.reverse = Backup.latest? id p.ledger := by
  unfold Backup.latest?
  rw [List.filter_reverse]
  generalize hx : p.stay id = x at h
  rw [show p.ledger.filter (·.container = id) = x.2 from congrArg Prod.snd hx]
  cases h <;> rfl

/-- A plane has no backup of a container that is at home further out. -/
theorem Trail.latest?_eq_none {s : Store} {p : Plane} {rest : List Plane} {home : Nat}
    (h : Trail (s.stays id) home) (hp : s.planes = p :: rest) (hlt : home < s.level) :
    Backup.latest? id p.ledger = none := by
  rw [← Store.length_stays s id] at hlt
  rw [stays_cons hp] at h hlt
  obtain ⟨hstay, -⟩ := h.untouched (Nat.lt_succ_iff.mp hlt)
  exact Backup.latest?_of_filter (congrArg Prod.snd hstay)

/-- The trail of a container that is there leads to its home. -/
theorem Account.Disciplined.trail_of_content {s : Store} {F : Refs} {C : Charges} {x : Content}
    (hd : Disciplined ⟨s, F, C, none⟩) (hx : s.content? id = some x) :
    Trail (s.stays id) x.home := by
  obtain ⟨c, hc, rfl⟩ := content?_eq_some.mp hx
  exact hd.trail (home?_of_container hc)

section Closing

variable {s : Store} {F F' : Refs} {C C' : Charges} {cl : Closing} {y : Backup}
  {ledger : List Backup}
  {x : Content}

/-- A closing plane has no second backup of a container, and those below lead to its old home. -/
theorem Account.Disciplined.head_of_content (hd : Disciplined ⟨s, F, C, some cl⟩)
    (hl : cl.ledger = y :: ledger) (hx : s.content? y.container = some x) :
    ledger.filter (·.container = y.container) = [] ∧ Trail (s.stays y.container) y.home := by
  obtain ⟨c, hc, -⟩ := content?_eq_some.mp hx
  obtain ⟨hrest, -, -, htrail⟩ := hd.head hl (home?_of_container hc)
  exact ⟨hrest, htrail⟩

/-- A backup is handed down to a plane that has none of the container. -/
theorem Content.Turned.refile {p : Plane} {rest : List Plane}
    (hd : Account.Disciplined ⟨s, F, C, some cl⟩) (hl : cl.ledger = y :: ledger)
    (hf : cl.folds = true) (hp : s.planes = p :: rest) (hhome : y.home ≠ cl.level - 1)
    (hx : s.content? y.container = some x) :
    Turned ⟨s, F, C, some cl⟩ ⟨s.withPlane (·.file y), F', C', some { cl with ledger }⟩
      y.container e x x := by
  obtain ⟨hrest, htrail⟩ := hd.head_of_content hl hx
  have hlt : y.home < s.level := by
    have hle := htrail.home_le
    have hlevel := hd.length_stays y.container
    rw [Store.length_stays] at hle hlevel
    omega
  refine .turn ⟨rfl, rfl, rfl⟩ ?_
  rw [Account.copies_closing, Account.copies_closing, Account.copies_file_self hp,
    Account.copies_cons hp, hl, htrail.latest?_eq_none hp hlt, Backup.latest?_self,
    Backup.latest?_of_filter hrest, show Account.folding ⟨s, F, C, some cl⟩ = true from hf]
  exact .hand

/-- A backup that the plane below does not need is forgotten. -/
theorem Content.Turned.forget (hd : Account.Disciplined ⟨s, F, C, some cl⟩)
    (hl : cl.ledger = y :: ledger) (hf : cl.folds = true)
    (hno : ∀ p ∈ s.planes.head?, y.home = cl.level - 1 ∨ p.isBacked y.container = true)
    (hx : s.content? y.container = some x) :
    Turned ⟨s, F, C, some cl⟩ ⟨s, F', C', some { cl with ledger }⟩ y.container e x x := by
  obtain ⟨hrest, htrail⟩ := hd.head_of_content hl hx
  have hfolding : Account.folding ⟨s, F, C, some cl⟩ = true := hf
  have hbefore : Account.copies ⟨s, F, C, some cl⟩ y.container =
      some y :: s.planes.map fun p => Backup.latest? y.container p.ledger := by
    rw [Account.copies_closing, hl, Backup.latest?_self, Account.copies_open]
  have hafter : Account.copies ⟨s, F', C', some { cl with ledger }⟩ y.container =
      none :: s.planes.map fun p => Backup.latest? y.container p.ledger := by
    rw [Account.copies_closing, Backup.latest?_of_filter hrest, Account.copies_open]
  cases hp : s.planes with
  | nil =>
    refine .turn ⟨rfl, rfl, rfl⟩ ?_
    rw [hbefore, hafter, hp, hfolding]
    exact .forget
  | cons p rest =>
    rw [hp, List.map_cons] at hbefore hafter
    cases hb : Backup.latest? y.container p.ledger with
    | some y' =>
      refine .turn ⟨rfl, rfl, rfl⟩ ?_
      rw [hbefore, hafter, hb, hfolding]
      exact .fold rfl
    | none =>
      -- The plane below did not back it up, so the container belonged to that plane.
      have hhome : y.home = cl.level - 1 := by
        refine (hno p (by rw [hp]; rfl)).resolve_right fun h => ?_
        rw [stays_cons hp] at htrail
        obtain ⟨-, y', hy'⟩ := htrail.of_backed (Plane.isBacked_iff.mp h)
        unfold Backup.latest? at hb
        rw [show p.ledger.filter (·.container = y.container) = [y'] from hy'] at hb
        cases hb
      rw [hb] at hbefore hafter
      refine .forgot hf ?_ hbefore hafter
      rw [hhome, (hd.closing cl rfl).1]
      rfl

end Closing

/-- What becomes of a content and of its copies where regions are entered and left. -/
theorem Nesting.turned (h : Nesting e a b) (ha : a.Accounted) (hd : a.Disciplined)
    (hx' : b.store.content? id = some x') :
    ∃ x, a.store.content? id = some x ∧ Content.Turned a b id e x x' := by
  cases h with
  | @backUp s F C other c values p rest hc he hm hh hp hnew =>
    have hplanes : (s.withContainer other { c with home := s.level }).planes = p :: rest := hp
    rw [content?_withPlane] at hx'
    rcases content?_withContainer_cases hc hx' with ⟨rfl, rfl⟩ | ⟨hne, hx⟩
    · have hx := content?_of_container hc
      -- A mapping is merged before it is backed up, so the copy is all there is.
      have ho : (c.content s.swap).overlay = none := by
        cases ho : (c.content s.swap).overlay with
        | none => rfl
        | some o => exact ho.symm.trans (hm ((Content.whole ha hx).overlay ho).1)
      refine ⟨_, hx, .turn ⟨rfl, rfl, rfl⟩ ?_⟩
      rw [Account.copies_cons hp, (hd.trail_of_content hx).latest?_eq_none hp hh]
      rw [show Account.copies _ id = some _ :: _ from Account.copies_file_self hplanes F C _]
      exact .first (Backup.Records.recalled ⟨rfl, (Container.content_buffer he _).symm,
        rfl, rfl⟩ ho)
    · exact Content.Turned.kept (Account.copies_file_of_ne hplanes F C (Ne.symm hne)) hx
  | enter =>
    refine ⟨x', hx', .turn ⟨rfl, rfl, rfl⟩ ?_⟩
    exact .enter
  | @pop s F C p rest folds hp =>
    refine Content.Turned.kept ?_ hx'
    rw [Account.copies_closing, Account.copies_cons hp]
    cases folds with
    | false => rfl
    | true =>
      -- A fold hands the copy down to the plane below, which keeps its own if it has one.
      have htrail := hd.trail_of_content hx'
      rw [stays_cons hp] at htrail
      exact congrArg (· :: _) htrail.latest?_reverse
  | @refile s F C cl y ledger p rest hl hf hp hhome hnew =>
    rw [content?_withPlane] at hx'
    by_cases hid : y.container = id
    · subst hid
      exact ⟨x', hx', .refile hd hl hf hp hhome hx'⟩
    · refine Content.Turned.kept ?_ hx'
      rw [Account.copies_closing, Account.copies_closing, Account.copies_file_of_ne hp F C hid, hl,
        Backup.latest?_of_ne hid]
  | @forget s F C cl y ledger hl hf hno =>
    by_cases hid : y.container = id
    · subst hid
      exact ⟨x', hx', .forget hd hl hf hno hx'⟩
    · refine Content.Turned.kept ?_ hx'
      rw [Account.copies_closing, Account.copies_closing, hl, Backup.latest?_of_ne hid]
      rfl
  | @settle s F C cl other c census hl hledger hc =>
    have hs : Account.copies ⟨(s.withContainer other
        (if c.home = cl.level then { c with home := cl.level - 1 } else c)).withPlane
          (·.adopt other),
          F, C, some { cl with census }⟩ id = Account.copies ⟨s, F, C, some cl⟩ id := by
      refine Account.copies_congr ?_ (by rfl) id
      exact ledgers_same (by exact fun _ => rfl)
    rw [content?_withPlane] at hx'
    rcases content?_withContainer_cases hc hx' with ⟨rfl, rfl⟩ | ⟨-, hx⟩
    · by_cases hh : c.home = cl.level
      · rw [if_pos hh] at hs ⊢
        exact ⟨_, content?_of_container hc, .settled rfl hh hs⟩
      · rw [if_neg hh] at hs ⊢
        exact Content.Turned.kept hs (content?_of_container hc)
    · exact Content.Turned.kept hs hx
  | resave =>
    refine Content.Turned.kept (Account.copies_congr ?_ (by rfl) id)
      ((content?_withPlane _ _ id).symm.trans hx')
    exact ledgers_same (by exact fun _ => rfl)
  | skip | unsave | unwindAdded => exact Content.Turned.kept rfl hx'
  | record hl hf h =>
    exact Content.Turned.kept (Account.copies_congr h.ledgers (by rfl) id)
      ((Content.Recorded.content? h id).symm.trans hx')
  | @restore s' s F C cl y ledger c values u hl hf hc he h =>
    have hal := alike_addImports h
    have hafter : Account.copies ⟨s', {.ofContainer y.kind y.container} + F,
        .of c.owner (values.toList ++ c.overlayValues) + C, some { cl with ledger }⟩ id =
        Backup.latest? id ledger :: Account.copies ⟨s, F, C, none⟩ id := by
      rw [Account.copies_closing, Account.copies_open, hal.planes]
      rfl
    rw [hal.content? id] at hx'
    rcases content?_withContainer_cases hc hx' with ⟨rfl, rfl⟩ | ⟨hne, hx⟩
    · have hx := content?_of_container hc
      obtain ⟨hrest, -⟩ := hd.head_of_content hl hx
      refine ⟨_, hx, .turn ⟨rfl, rfl, rfl⟩ ?_⟩
      rw [hafter, Account.copies_closing, hl, Backup.latest?_self, Backup.latest?_of_filter hrest,
        show Account.folding ⟨s, F, C, some cl⟩ = false from hf]
      refine .undo ?_
      exact (Container.content_values
        { c with overlay := none, home := y.home, scrubEpoch := y.scrubEpoch } _ _).symm
    · refine Content.Turned.kept ?_ hx
      rw [hafter, Account.copies_closing, hl, Backup.latest?_of_ne (Ne.symm hne)]
  | restoreVariable hl hf h | unwindRemoved hl hf hd h | unwindReplaced hl hf hcur h =>
    have hal := alike_addImport h
    refine Content.Turned.kept (Account.copies_congr ?_ (by rfl) id)
      ((hal.content? id).symm.trans hx')
    exact congrArg (List.map Plane.ledger) hal.planes
  | @finish s F C cl hl =>
    refine ⟨x', hx', .turn ⟨rfl, rfl, rfl⟩ ?_⟩
    rw [Account.copies_closing, hl.1]
    exact .left

/-- What is not the new container was there before. -/
theorem Creation.content_kept (h : Creation e a b) (ha : a.Accounted) (he : ∀ F, e ≠ .create id F)
    (hx' : b.store.content? id = some x') : a.store.content? id = some x' := by
  cases h with
  | @container t s F C owner kind values u hv hm h =>
    have hs := ha.balanced.containers
    have hal := alike_link_new hs rfl h
    have hx : (s.withNew (s.newContainer owner kind values)).content? id = some x' := by
      rw [← hal.content? id, ← content?_withPlane t _ id]
      exact hx'
    obtain ⟨c', hc', rfl⟩ := content?_eq_some.mp hx
    rcases container?_withNew_cases hs hc' with ⟨rfl, rfl⟩ | ⟨-, hold⟩
    · exact absurd rfl (he _)
    · exact content?_of_container hold
  | @retag s F C q other c tag hc hone =>
    rcases content?_withContainer_cases hc hx' with ⟨rfl, rfl⟩ | ⟨-, hx⟩
    · exact absurd rfl (he _)
    · exact hx
  | string | dataspace | spawn | destroy => exact hx'

/-- Upkeep moves no container. -/
theorem Upkeep.home? {other : ContainerId} (h : Upkeep other e a b) (id : ContainerId) :
    b.store.home? id = a.store.home? id := by
  cases h with
  | @load s F C q c ticket n hc =>
    refine home?_withContainer_of_eq (s := { s with swap := (s.swap.load ticket).2 }) hc ?_ id
    rfl
  | @evict s F C q c values hc =>
    refine home?_withContainer_of_eq (s := { s with swap := (s.swap.store values).2 }) hc ?_ id
    rfl
  | report hc | scrub hc | absorb hc | compact hc =>
    exact home?_withContainer_of_eq hc (by exact rfl) id

/-- An edit moves no container. -/
theorem Change.home? {other : ContainerId} {ed : Edit} (h : Change other ed a b)
    (id : ContainerId) :
    b.store.home? id = a.store.home? id := by
  cases h with
  | overwrite hc | overwriteValue hc | overwritePending hc | park hc | unpark hc | deletePair hc =>
    refine home?_withContainer_of_eq hc ?_ id
    rfl

theorem Store.home?_eq_content (s : Store) (id : ContainerId) :
    s.home? id = (s.content? id).map Content.home := by
  unfold Store.home? Store.content?
  rw [Option.map_map]
  rfl

theorem Content.Turned.tends {x : Content} (hs : b.copies id = a.copies id)
    (hh : b.store.home? id = a.store.home? id) (hx : a.store.content? id = some x)
    (hx' : b.store.content? id = some x') (hbec : Content.Becomes a id e x x')
    (he : e.Rests ∨ a.closing = none) : Content.Turned a b id e x x' := by
  refine .tended hs hbec he ?_
  rw [home?_eq_content, home?_eq_content, hx, hx'] at hh
  exact Option.some.inj hh

/-- What a step does to a container and its backups, while a plane is open. -/
theorem Step.turned (h : Step e a b) (ha : a.Kept) (hopen : 0 < a.depth)
    (he : ∀ F, e ≠ .create id F) (hx' : b.store.content? id = some x') :
    ∃ x, a.store.content? id = some x ∧ Content.Turned a b id e x x' := by
  have hacc := ha.accounted
  cases h with
  | traffic h =>
    refine Content.Turned.kept (Account.copies_congr (h.ledgers hacc.stored) ?_ id)
      ((h.wanes hacc.stored).content? hx')
    cases h <;> rfl
  | upkeep h =>
    have hs : b.copies id = a.copies id := by cases h <;> rfl
    have htends : e.Rests := by cases h <;> trivial
    cases Content.upkeep_arises h hacc hx' with
    | kept hx => exact Content.Turned.kept hs hx
    | becomes hx hbec => exact ⟨_, hx, .tends hs (h.home? id) hx hx' hbec (.inl htends)⟩
    | made hcreate => exact absurd hcreate (he _)
  | change h =>
    have hs : b.copies id = a.copies id := by cases h <;> rfl
    have hq : a.closing = none := by cases h <;> rfl
    cases Content.change_arises h hx' with
    | kept hx => exact Content.Turned.kept hs hx
    | becomes hx hbec => exact ⟨_, hx, .tends hs (h.home? id) hx hx' hbec (.inr hq)⟩
    | made hcreate => exact absurd hcreate (he _)
  | creation h =>
    refine Content.Turned.kept (Account.copies_congr (h.ledgers hacc.balanced.containers) ?_ id)
      (h.content_kept hacc he hx')
    cases h <;> rfl
  | writing h =>
    refine Content.Turned.kept (Account.copies_congr h.ledgers ?_ id)
      ((Content.writing_content h id).symm.trans hx')
    cases h <;> rfl
  | nesting h => exact h.turned hacc ha.disciplined hx'
  | transfer h =>
    cases h with
    | mk hp =>
      rw [Account.depth_of_open rfl, Store.level, hp] at hopen
      exact absurd hopen (Nat.lt_irrefl 0)

/-! ### What is left of what a container was -/

/-- Outside of closing planes only a container of the innermost plane is changed. -/
theorem Content.Becomes.tends_or_home {x : Content} (h : Content.Becomes a id e x x')
    (he : ∀ F, e ≠ .create id F) (hq : e.Rests ∨ a.closing = none) :
    e.Rests ∨ a.closing = none ∧ x.home = a.store.level := by
  cases h with
  | overwrite hh | overwriteValue hh | overwritePending hh | park hh | unpark hh | deletePair hh =>
    exact hq.imp_right fun hopen => ⟨hopen, hh⟩
  | restore hclosing =>
    rcases hq with htends | hopen
    · exact htends.elim
    · cases hopen.symm.trans hclosing
  | retag => exact absurd rfl (he _)
  | absorb | backUp | settle | transfer | scrub | compact => exact .inl trivial

/-- While a plane is open, what a container comes to be has the same label. -/
theorem Content.Becomes.label {x : Content} (h : Content.Becomes a id e x x') (hopen : 0 < a.depth)
    (he : ∀ F, e ≠ .create id F) : x'.kind = x.kind ∧ x'.tag = x.tag ∧ x'.owner = x.owner := by
  cases h with
  | transfer ds hp hq =>
    rw [Account.depth_of_open hq, Store.level, hp] at hopen
    exact absurd hopen (Nat.lt_irrefl 0)
  | retag => exact absurd rfl (he _)
  | _ => exact ⟨rfl, rfl, rfl⟩

/-- What a container was stands for what it did. -/
theorem Step.stands_contentAt (h : Step e a b) (ha : a.Kept) (hx' : b.store.content? id = some x')
    (level : Nat) : ∀ v ∈ (b.contentAt level id x').held, Stands a.store b.store v := by
  have hb := h.accounted ha
  intro v hv
  unfold Account.contentAt at hv
  rcases b.contentAt_cases level id with ⟨y, hy, rfl, hat⟩ | hat
  · rw [hat] at hv
    rcases Content.mem_held.mp hv with hmem | ⟨o, i, d, ho, -⟩
    · exact Content.stands_backup h ha.accounted hb hy hmem
    · cases ho
  · rw [hat] at hv
    exact Content.stands h ha.accounted hb hx' hv

/-- A mapping was a table. -/
theorem Account.Kept.tabled_contentAt (ha : a.Kept) {x : Content}
    (hx : a.store.content? id = some x) (level : Nat)
    (hk : (a.contentAt level id x).kind = .mapping) :
    (a.contentAt level id x).Tabled a.store.heap := by
  unfold Account.contentAt at hk ⊢
  rcases a.contentAt_cases level id with ⟨y, hy, rfl, hat⟩ | hat
  · rw [hat] at hk ⊢
    exact ⟨ha.tabled.backup hy ((ha.accounted.backup_kind hy hx).mpr hk), fun ho => by cases ho⟩
  · rw [hat] at hk ⊢
    exact ha.tabled.content hx hk

variable {x₀ x : Content} {s : Store} {level : Nat}

/--
What a container was when a plane was entered: a step does not change it, unless the container is
still what it was; then the step may tend to it.
-/
theorem Content.Turned.contentAt_cases (h : Content.Turned a b id e x x') (ha : a.Kept)
    (hr : a.Reaches level) (he : ∀ F, e ≠ .create id F)
    (hold : (a.contentAt level id x).home < level) :
    b.contentAt level id x' = a.contentAt level id x ∨
      a.contentAt level id x = x ∧ b.contentAt level id x' = x' ∧ Content.Becomes a id e x x' ∧
        e.Rests ∧ x'.owner = x.owner ∧ x'.home = x.home := by
  have hle := hr.le
  unfold Account.contentAt at hold ⊢
  cases h with
  | turn hlabel hturn =>
    rw [Content.recalled_congr hlabel.1 hlabel.2.1 hlabel.2.2, hturn.rewindTo_eq hr.pos]
    · exact .inl rfl
    · rw [Account.length_copies]
      exact hle
    · intro hfold
      rw [Account.length_copies]
      exact hr.lt hfold
  | tended hs hbec htends hhome =>
    obtain ⟨hkind, htag, howner⟩ := hbec.label (Nat.lt_of_lt_of_le hr.pos hle) he
    rw [hs]
    rcases a.contentAt_cases level id with ⟨y, -, -, hat⟩ | hat
    · rw [hat, hat, Content.recalled_congr hkind htag howner]
      exact .inl rfl
    · rw [hat] at hold
      rw [hat, hat]
      rcases hbec.tends_or_home he htends with htends | ⟨hopen, hh⟩
      · exact .inr ⟨rfl, rfl, hbec, htends, howner, hhome⟩
      · rw [Account.depth_of_open hopen] at hle
        omega
  | @settled cl hq hh hs =>
    rw [hs]
    rcases a.contentAt_cases level id with ⟨y, -, -, hat⟩ | hat
    · rw [hat, hat]
      exact .inl rfl
    · rw [hat] at hold
      have hlevel := (ha.disciplined.closing cl hq).1
      rw [Account.depth_of_closing hq] at hle
      omega
  | @forgot y ms hfold hhome hs hs' =>
    have hlt := hr.lt hfold
    -- The forgotten copy is the newest of two, and the level is old enough not to need it.
    have hlen := a.length_copies id
    rw [hs] at hlen hold ⊢
    simp only [List.length_cons] at hlen
    have hlow : level ≤ ms.length + 1 := by omega
    rw [rewindTo_cons_cons hlow] at hold
    rw [hs', rewindTo_cons_cons hlow, rewindTo_cons_cons hlow]
    simp only [rewind] at hold ⊢
    rcases rewind_cases (ms.take (ms.length + 1 - level)) with ⟨y', -, hat⟩ | hat
    · rw [hat, hat]
      exact .inl rfl
    · rw [hat] at hold
      have hhome' : y.home < level := hold
      unfold Account.depth at hlt
      have hone : a.closing.toList.length ≤ 1 := by cases a.closing <;> simp
      omega

/-- What is left of what a container was when a plane was entered is left of it after a step. -/
theorem Content.Turned.fades (h : Content.Turned a b id e x x') (ha : a.Kept) (hr : a.Reaches level)
    (he : ∀ F, e ≠ .create id F) (hx : a.store.content? id = some x) (hold : x₀.home < level)
    (hf : x₀.Fades s a.store (a.contentAt level id x)) :
    x₀.Fades s a.store (b.contentAt level id x') := by
  rcases h.contentAt_cases ha hr he (by rw [hf.home]; exact hold) with
    hsame | ⟨hnow, hnow', hbec, hrests, howner, hhome⟩
  · rw [hsame]
    exact hf
  · rw [hnow] at hf
    rw [hnow']
    exact hf.tended hbec hrests howner hhome (ha.seasoned.content hx)
      (Content.whole ha.accounted hx)
      (ha.tabled.content hx)

/-- What a level would restore of an old container fades, if it changes at all. -/
theorem Step.fades (h : Step e a b) (ha : a.Kept) (hr : a.Reaches level)
    (he : ∀ F, e ≠ .create id F) (hold : x₀.home < level)
    (hf : ∀ {x}, a.store.content? id = some x → x₀.Fades s a.store (a.contentAt level id x))
    (hx' : b.store.content? id = some x') : x₀.Fades s b.store (b.contentAt level id x') := by
  obtain ⟨x, hx, hturned⟩ := h.turned ha (Nat.lt_of_lt_of_le hr.pos hr.le) he hx'
  exact (hturned.fades ha hr he hx hold (hf hx)).of_stands (h.precedes ha.accounted)
    (h.stands_contentAt ha hx' level) ((h.kept ha).tabled_contentAt hx' level)

end

/-! ## Along a chain of steps -/

section

variable {E : Effect → Prop} {a b : Account} {id : ContainerId} {x₀ x' : Content} {s : Store}
  {level : Nat}

/-- A path that spares a level does not leave it. -/
theorem Path.reaches (h : Path E a b) (ha : a.Kept) (hE : ∀ e, E e → e.Spares level)
    (hr : a.Reaches level) : b.Reaches level := by
  induction h with
  | refl => exact hr
  | tail h he hs ih =>
    have hkept := h.kept ha
    exact hs.reaches hkept.accounted hkept.disciplined (hE _ he) ih

/-- What a level would restore of the calls stays as long as it is spared. -/
theorem Path.callAt (h : Path E a b) (ha : a.Kept) (hE : ∀ e, E e → e.Spares level)
    (hr : a.Reaches level) (call : CallRef) : b.callAt level call = a.callAt level call := by
  induction h with
  | refl => rfl
  | tail h he hs ih =>
    have hkept := h.kept ha
    exact (hs.callAt hkept.accounted hkept.numbered hkept.chained hkept.saved
      (h.reaches ha hE hr) call).trans ih

/-- What a level would restore of a variable stays as long as it is spared. -/
theorem Path.variableAt (h : Path E a b) (ha : a.Kept) (hE : ∀ e, E e → e.Spares level)
    (hr : a.Reaches level) {ref : VariableRef} {v : Value} (hv : a.store.variableAt? ref = some v) :
    b.variableAt level ref = a.variableAt level ref ∧ ∃ w, b.store.variableAt? ref = some w := by
  induction h with
  | refl => exact ⟨rfl, v, hv⟩
  | tail h he hs ih =>
    have hkept := h.kept ha
    obtain ⟨hsame, w, hw⟩ := ih
    refine ⟨(hs.variableAt hkept.accounted hkept.numbered hkept.chained hkept.saved
      (h.reaches ha hE hr) hw).trans hsame, ?_⟩
    exact (hs.turns hkept.accounted hkept.numbered hkept.chained hkept.saved).exist hw

/-- What is left of what a container was, unless it was made on the way. -/
theorem Path.fades (h : Path E a b) (ha : a.Kept) (hE : ∀ e, E e → e.Spares level)
    (hr : a.Reaches level) (hnew : ∀ F, ¬E (.create id F)) (hold : x₀.home < level)
    (hf : ∀ {x}, a.store.content? id = some x → x₀.Fades s a.store (a.contentAt level id x))
    (hx' : b.store.content? id = some x') : x₀.Fades s b.store (b.contentAt level id x') := by
  induction h generalizing x' with
  | refl => exact hf hx'
  | tail h he hs ih =>
    refine hs.fades (h.kept ha) (h.reaches ha hE hr) ?_ hold ih hx'
    rintro F rfl
    exact hnew F he

end

end PlaneStore
