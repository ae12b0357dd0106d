import PlaneStore.Proofs.Mapping.TablesPreserved

/-!
# Plane discipline

What the planes have on record of a container fits its home: the plane that is its home lists it,
and so does every plane that backed it up; a backup leads from the home on its plane to the home
that the container had before, further out. `Trail` says this of one container, plane by plane.
While a plane is closing, what is left of it stands in front of the trail.
-/

namespace PlaneStore

open Store

/-- How a plane lists a container, and the backups that it holds of it. -/
abbrev Stay := Option Residence × List Backup

def Plane.stay (p : Plane) (id : ContainerId) : Stay :=
  (p.census[id]?, p.ledger.filter (·.container = id))

/-- What the planes have on record of a container, the innermost in front. -/
def Store.stays (s : Store) (id : ContainerId) : List Stay := s.planes.map (·.stay id)

/-- No plane knows the container. -/
def Clear (stays : List Stay) : Prop := ∀ x ∈ stays, x = (none, [])

/-- What the planes have on record of a container fits its home. -/
inductive Trail : List Stay → Nat → Prop
  | root : Trail [] 0
  | absent {stays : List Stay} {home : Nat} (h : Trail stays home) :
    Trail ((none, []) :: stays) home
  | fresh {stays : List Stay} (h : Clear stays) :
    Trail ((some .fresh, []) :: stays) (stays.length + 1)
  | backed {stays : List Stay} (b : Backup) (h : Trail stays b.home) :
    Trail ((some .backed, [b]) :: stays) (stays.length + 1)

namespace Trail

variable {stays : List Stay} {home : Nat}

theorem home_le (h : Trail stays home) : home ≤ stays.length := by
  induction h with
  | root => exact le_rfl
  | absent _ ih => exact Nat.le_succ_of_le ih
  | fresh => exact le_rfl
  | backed => exact le_rfl

/-- A container that is at home further out was not touched on the innermost plane. -/
theorem untouched {x : Stay} (h : Trail (x :: stays) home) (hlt : home ≤ stays.length) :
    x = (none, []) ∧ Trail stays home := by
  cases h with
  | absent h => exact ⟨rfl, h⟩
  | fresh => exact absurd hlt (Nat.not_succ_le_self _)
  | backed => exact absurd hlt (Nat.not_succ_le_self _)

/-- A container that the innermost plane has backed up is at home there, and has one backup. -/
theorem of_backed {x : Stay} (h : Trail (x :: stays) home) (hx : x.1 = some .backed) :
    home = stays.length + 1 ∧ ∃ b, x.2 = [b] := by
  cases h with
  | absent | fresh => cases hx
  | backed b => exact ⟨rfl, b, rfl⟩

end Trail

/-- A trail begins where a plane adopts a container that those below do not know. -/
theorem Trail.of_clear_adopted {stays : List Stay} {x : Stay} (h : Clear (x :: stays)) :
    Trail ((x.1.or (some .fresh), x.2) :: stays) (stays.length + 1) := by
  obtain rfl := h x List.mem_cons_self
  exact .fresh fun y hy => h y (List.mem_cons_of_mem _ hy)

namespace Closing

/-- What is left of a closing plane, and what the other planes have on record, fits the home. -/
inductive Trail (cl : Closing) (id : ContainerId) (stays : List Stay) : Nat → Prop
  | backed {b : Backup} (hl : cl.ledger.filter (·.container = id) = [b])
      (hc : id ∈ cl.census ↔ cl.folds = true) (h : PlaneStore.Trail stays b.home) :
      cl.Trail id stays cl.level
  | listed (hl : cl.ledger.filter (·.container = id) = []) (hc : id ∈ cl.census)
      (h : Clear stays ∨ PlaneStore.Trail stays (cl.level - 1)) : cl.Trail id stays cl.level
  | settled {home : Nat} (hl : cl.ledger.filter (·.container = id) = []) (hc : id ∉ cl.census)
      (h : PlaneStore.Trail stays home) : cl.Trail id stays home

variable {cl cl' : Closing} {id : ContainerId} {stays : List Stay} {home : Nat}

/-- The trail is a matter of backups and homes that are still to be settled. -/
theorem Trail.congr (h : cl.Trail id stays home) (hf : cl'.folds = cl.folds)
    (hlevel : cl'.level = cl.level)
    (hl : cl'.ledger.filter (·.container = id) = cl.ledger.filter (·.container = id))
    (hc : id ∈ cl'.census ↔ id ∈ cl.census) : cl'.Trail id stays home := by
  cases h with
  | backed hb hcensus h =>
    rw [← hlevel]
    exact .backed (hl.trans hb) (by rw [hc, hf, hcensus]) h
  | listed hb hcensus h =>
    rw [← hlevel] at h ⊢
    exact .listed (hl.trans hb) (hc.mpr hcensus) h
  | settled hb hcensus h => exact .settled (hl.trans hb) (fun hin => hcensus (hc.mp hin)) h

/-- A backup that comes next leads to where the container was before. -/
theorem Trail.head {b : Backup} {ledger : List Backup} (h : cl.Trail b.container stays home)
    (hl : cl.ledger = b :: ledger) :
    ledger.filter (·.container = b.container) = [] ∧ home = cl.level ∧
      (b.container ∈ cl.census ↔ cl.folds = true) ∧ PlaneStore.Trail stays b.home := by
  have hfilter : cl.ledger.filter (·.container = b.container) =
      b :: ledger.filter (·.container = b.container) := by
    rw [hl, List.filter_cons_of_pos (by simp)]
  cases h with
  | backed hb hc h =>
    obtain ⟨rfl, hrest⟩ := List.cons.inj (hfilter.symm.trans hb)
    exact ⟨hrest, rfl, hc, h⟩
  | listed hb => exact absurd (hfilter.symm.trans hb) (List.cons_ne_nil _ _)
  | settled hb => exact absurd (hfilter.symm.trans hb) (List.cons_ne_nil _ _)

/-- The backup that comes next is of no other container. -/
theorem Trail.tail {b : Backup} {ledger : List Backup} (h : cl.Trail id stays home)
    (hl : cl.ledger = b :: ledger) (hne : b.container ≠ id) :
    ({ cl with ledger } : Closing).Trail id stays home := by
  refine h.congr rfl rfl ?_ Iff.rfl
  rw [hl, List.filter_cons_of_neg (by simpa using hne)]

/-- A plane that is taken off the stack leaves its part of the trail. -/
theorem Trail.of_pop {p : Plane} {folds : Bool} (h : PlaneStore.Trail (p.stay id :: stays) home) :
    (ofPlane folds (stays.length + 1) p).Trail id stays home := by
  have hfilter : (ofPlane folds (stays.length + 1) p).ledger.filter (·.container = id) =
      if folds then (p.ledger.filter (·.container = id)).reverse
      else p.ledger.filter (·.container = id) := by
    unfold ofPlane
    cases folds with
    | true => exact List.filter_reverse
    | false => rfl
  have hcensus : id ∈ (ofPlane folds (stays.length + 1) p).census ↔
      if folds then p.census[id]? ≠ none else p.census[id]? = some .fresh := by
    unfold ofPlane
    cases folds with
    | true =>
      show id ∈ p.census.keys ↔ _
      rw [Std.TreeMap.mem_keys, Std.TreeMap.mem_iff_isSome_getElem?, Option.isSome_iff_ne_none]
      rfl
    | false =>
      show id ∈ (p.census.toList.filter (·.2 = .fresh)).map Prod.fst ↔ _
      simp only [List.mem_map, List.mem_filter, Prod.exists, exists_and_right, exists_eq_right,
        decide_eq_true_eq, Std.TreeMap.mem_toList_iff_getElem?_eq_some]
      simp
  generalize hx : p.stay id = x at h
  obtain ⟨hc, hl⟩ := Prod.mk.inj hx
  cases h with
  | absent h =>
    exact .settled (by rw [hfilter, hl]; simp) (by rw [hcensus, hc]; simp) h
  | fresh h =>
    exact .listed (by rw [hfilter, hl]; simp) (by rw [hcensus, hc]; simp) (.inl h)
  | backed b h =>
    refine .backed (b := b) (by rw [hfilter, hl]; simp) ?_ h
    rw [hcensus, hc, show (Closing.ofPlane folds (stays.length + 1) p).folds = folds from rfl]
    cases folds <;> simp

end Closing

/-! ## What a plane has on record -/

namespace Plane

variable {p : Plane} {id other : ContainerId} {b : Backup}

theorem stay_empty (id : ContainerId) : ({} : Plane).stay id = (none, []) := by
  simp [stay]

theorem mem_census_iff : id ∈ p.census ↔ (p.stay id).1 ≠ none := by
  rw [Std.TreeMap.mem_iff_isSome_getElem?, Option.isSome_iff_ne_none]
  rfl

/-- A backup that is filed is in front of the others, and its container is listed for it. -/
theorem stay_file_self (p : Plane) (b : Backup) :
    (p.file b).stay b.container = (some .backed, b :: (p.stay b.container).2) := by
  simp [stay, file]

theorem stay_file_of_ne (h : b.container ≠ id) : (p.file b).stay id = p.stay id := by
  have hne : compare b.container id ≠ .eq := fun he => h (Std.LawfulEqOrd.eq_of_compare he)
  simp [stay, file, Std.TreeMap.getElem?_insert, hne, h]

theorem stay_insert_self (p : Plane) (id : ContainerId) :
    ({ p with census := p.census.insert id .fresh } : Plane).stay id =
      (some .fresh, (p.stay id).2) := by
  simp [stay]

theorem stay_insert_of_ne (h : id ≠ other) :
    ({ p with census := p.census.insert id .fresh } : Plane).stay other = p.stay other := by
  have hne : compare id other ≠ .eq := fun he => h (Std.LawfulEqOrd.eq_of_compare he)
  simp [stay, Std.TreeMap.getElem?_insert, hne]

/-- A container is adopted as fresh, unless it is listed already. -/
theorem stay_adopt_self (p : Plane) (id : ContainerId) :
    (p.adopt id).stay id = ((p.stay id).1.or (some .fresh), (p.stay id).2) := by
  simp only [stay, adopt, Std.TreeMap.getElem?_insertIfNew]
  cases hc : p.census[id]? with
  | none => simp [Std.TreeMap.mem_iff_isSome_getElem?, hc]
  | some r => simp [Std.TreeMap.mem_iff_isSome_getElem?, hc]

theorem stay_adopt_of_ne (h : id ≠ other) : (p.adopt id).stay other = p.stay other := by
  have hne : compare id other ≠ .eq := fun he => h (Std.LawfulEqOrd.eq_of_compare he)
  simp [stay, adopt, Std.TreeMap.getElem?_insertIfNew, hne]

theorem stay_strike_self (p : Plane) (id : ContainerId) :
    ({ p with census := p.census.erase id } : Plane).stay id = (none, (p.stay id).2) := by
  simp [stay]

theorem stay_strike_of_ne (h : id ≠ other) :
    ({ p with census := p.census.erase id } : Plane).stay other = p.stay other := by
  have hne : compare id other ≠ .eq := fun he => h (Std.LawfulEqOrd.eq_of_compare he)
  simp [stay, Std.TreeMap.getElem?_erase, hne]

end Plane

namespace Store

variable {s s' : Store}

theorem stays_of_planes (h : s'.planes = s.planes) (id : ContainerId) :
    s'.stays id = s.stays id := by
  unfold stays
  rw [h]

/-- What is on record begins with the innermost plane. -/
theorem stays_cons {p : Plane} {rest : List Plane} (hp : s.planes = p :: rest) (id : ContainerId) :
    s.stays id = p.stay id :: rest.map (·.stay id) := by
  rw [stays, hp, List.map_cons]

theorem length_stays (s : Store) (id : ContainerId) : (s.stays id).length = s.level :=
  List.length_map ..

theorem stays_withPlane {f : Plane → Plane} {id : ContainerId}
    (hf : ∀ p, (f p).stay id = p.stay id) : (s.withPlane f).stays id = s.stays id :=
  planes_map_withPlane s hf

theorem stays_withPlane_cons {p : Plane} {rest : List Plane} (hp : s.planes = p :: rest)
    (f : Plane → Plane) (id : ContainerId) :
    (s.withPlane f).stays id = (f p).stay id :: rest.map (·.stay id) :=
  stays_cons (planes_withPlane hp f) id

/-- The level of the plane that a container belongs to. -/
def home? (s : Store) (id : ContainerId) : Option Nat := (s.container? id).map Container.home

end Store

/-! ## Discipline -/

/-- A backup records the size of what it holds. -/
def Backup.Sized (b : Backup) : Prop := b.size = b.kind.entries b.elements.size

/--
What is on record of a container, on a plane that is closing and on all others, fits its home.
-/
def Account.Trails (a : Account) (id : ContainerId) (home : Nat) : Prop :=
  match a.closing with
  | none => Trail (a.store.stays id) home
  | some cl => cl.Trail id (a.store.stays id) home

/-- The planes know each container that is there by its home, and no other. -/
structure Account.Disciplined (a : Account) : Prop where
  trail : ∀ {id home}, a.store.home? id = some home → a.Trails id home
  free : ∀ {id}, a.store.home? id = none → Clear (a.store.stays id)
  closing : ∀ cl ∈ a.closing, cl.level = a.store.level + 1 ∧ cl.census.Nodup
  sized : ∀ b ∈ a.backups, b.Sized

namespace Account.Disciplined

variable {s s' : Store} {F F' : Refs} {C C' : Charges} {q q' : Option Closing}

/-- Homes and records are all that discipline is about. -/
theorem same (ha : Disciplined ⟨s, F, C, q⟩) (hh : ∀ id, s'.home? id = s.home? id)
    (hs : ∀ id, s'.stays id = s.stays id) (hlevel : s'.level = s.level)
    (hb : ∀ b ∈ s'.backups q, b ∈ s.backups q) : Disciplined ⟨s', F', C', q⟩ where
  trail {id home} hhome := by
    have h := ha.trail ((hh id).symm.trans hhome)
    unfold Trails at h ⊢
    rwa [hs]
  free {id} hnone := by
    have h := ha.free ((hh id).symm.trans hnone)
    rwa [hs]
  closing cl hcl := by
    rw [hlevel]
    exact ha.closing cl hcl
  sized b hmem := ha.sized b (hb b hmem)

/-- Discipline is about homes and planes, and not about references. -/
theorem of_planes (ha : Disciplined ⟨s, F, C, q⟩) (hh : ∀ id, s'.home? id = s.home? id)
    (hp : s'.planes = s.planes) : Disciplined ⟨s', F', C', q⟩ :=
  ha.same hh (stays_of_planes hp) (congrArg List.length hp) fun _ hb => mem_backups_of_planes hp hb

theorem alike (ha : Disciplined ⟨s, F, C, q⟩) (hal : Alike s s') : Disciplined ⟨s', F', C', q⟩ := by
  refine ha.of_planes (fun id => ?_) hal.planes
  have h := congrArg (Option.map Container.home) (hal.container id)
  rw [Option.map_map, Option.map_map] at h
  exact h

/-- Saved variables and patches have no say in the discipline. -/
theorem withPlane (ha : Disciplined ⟨s, F, C, q⟩) {f : Plane → Plane}
    (hf : ∀ p, (f p).census = p.census ∧ (f p).ledger = p.ledger) :
    Disciplined ⟨s.withPlane f, F', C', q⟩ := by
  refine ha.same (fun id => congrArg _ (container?_withPlane s f id)) (fun id => ?_)
    (level_withPlane s f) fun b hb => mem_backups_withPlane (fun p => (hf p).2) hb
  exact stays_withPlane fun p => by rw [Plane.stay, Plane.stay, (hf p).1, (hf p).2]

/-- What is known of a closing plane but for its backups and homes makes no difference. -/
theorem of_closing {cl cl' : Closing} (ha : Disciplined ⟨s, F, C, some cl⟩)
    (hf : cl'.folds = cl.folds) (hlevel : cl'.level = cl.level) (hl : cl'.ledger = cl.ledger)
    (hc : cl'.census = cl.census) : Disciplined ⟨s, F', C', some cl'⟩ where
  trail hhome := (ha.trail hhome).congr hf hlevel (by rw [hl]) (by rw [hc])
  free hnone := ha.free hnone
  closing cl₂ hcl := by
    cases hcl
    rw [hlevel, hc]
    exact ha.closing cl rfl
  sized b hb := by
    refine ha.sized b ?_
    unfold Account.backups Store.backups at hb ⊢
    simp only [Option.map_some, Option.getD_some, hl] at hb ⊢
    exact hb

/-- One container comes to a home; of all others the planes know what they knew. -/
theorem placed {a b : Account} {id : ContainerId} {home : Nat} (ha : a.Disciplined)
    (hhome : ∀ other, b.store.home? other = if id = other then some home else a.store.home? other)
    (hself : b.Trails id home)
    (hother : ∀ other, id ≠ other → b.store.stays other = a.store.stays other)
    (htrails : ∀ other h, id ≠ other → a.Trails other h → b.Trails other h)
    (hclosing : ∀ cl ∈ b.closing, cl.level = b.store.level + 1 ∧ cl.census.Nodup)
    (hsized : ∀ x ∈ b.backups, x.Sized) : b.Disciplined where
  trail {other h} hh := by
    rw [hhome] at hh
    split at hh
    · next he =>
      obtain rfl := Option.some.inj hh
      rwa [← he]
    · next hne => exact htrails other h hne (ha.trail hh)
  free {other} hnone := by
    rw [hhome] at hnone
    split at hnone
    · cases hnone
    · next hne =>
      rw [hother other hne]
      exact ha.free hnone
  closing := hclosing
  sized := hsized

end Account.Disciplined

namespace Store

variable {s s' : Store} {id : ContainerId} {c d : Container}

theorem home?_of_container (hc : s.container? id = some c) : s.home? id = some c.home :=
  congrArg (Option.map Container.home) hc

theorem home?_withContainer (hc : s.container? id = some c) (d : Container) (other : ContainerId) :
    (s.withContainer id d).home? other = if id = other then some d.home else s.home? other := by
  unfold home?
  split
  · next h => rw [← h, container?_withContainer_self hc]; rfl
  · next h => rw [container?_withContainer_of_ne h]

theorem home?_withContainer_of_eq (hc : s.container? id = some c) (h : d.home = c.home)
    (other : ContainerId) : (s.withContainer id d).home? other = s.home? other := by
  rw [home?_withContainer hc]
  split
  · next he => rw [h, ← he, home?_of_container hc]
  · rfl

end Store

/-! ### Traffic and changes -/

theorem Trade.disciplined {id : ContainerId} {a b : Account} (h : Trade id a b)
    (ha : a.Disciplined) : b.Disciplined := by
  cases h with
  | @mk F q s w c d came gone A B C hc hframe =>
    exact ha.of_planes (home?_withContainer_of_eq (s := { s with swap := w }) hc
      (congrArg (·.home) hframe)) rfl

/-- To be retained moves no container. -/
theorem Store.Retained.home_eq {s s' : Store} {v : Value} (h : Retained s v s') (id : ContainerId) :
    s'.home? id = s.home? id := by
  cases h with
  | scalar | text => rfl
  | @container shape target c hc =>
    exact home?_withContainer_of_eq (d := { c with refcount := c.refcount + 1 }) hc rfl id

/-- Every backup refers to its container, so there is none of a container that is gone. -/
theorem Account.Accounted.not_backed {a : Account} (ha : a.Accounted) {id : ContainerId}
    (hnone : a.store.container? id = none) {b : Backup} (hb : b ∈ a.backups) :
    b.container ≠ id := by
  rintro rfl
  have hself : Value.ofContainer b.kind b.container ∈ b.held :=
    Multiset.mem_coe.mpr List.mem_cons_self
  obtain ⟨c, hc, -⟩ := ha.balanced.exists_container
    (Account.mem_refs_of_placed (Account.mem_placed_of_backup hb hself))
  exact Option.some_ne_none c (hc.symm.trans hnone)

theorem Store.home?_without {s : Store} {id : ContainerId} {c : Container} (other : ContainerId) :
    (s.without id c).home? other = if id = other then none else s.home? other := by
  unfold home?
  split
  · next h => rw [← h, container?_without_self]; rfl
  · next h => rw [container?_without_of_ne h]

/-- A container that is freed is struck from every census. -/
theorem Account.Disciplined.freed {s s' : Store} {F F' : Refs} {C C' : Charges} {q : Option Closing}
    {id : ContainerId} {c : Container} (ha : Disciplined ⟨s, F, C, q⟩)
    (hacc : Accounted ⟨s', F', C', q⟩) (hal : Alike (s.without id c) s') :
    Disciplined ⟨s', F', C', q⟩ := by
  have hhome : ∀ other, s'.home? other = if id = other then none else s.home? other := by
    intro other
    have h := congrArg (Option.map Container.home) (hal.container other)
    rw [Option.map_map, Option.map_map] at h
    exact Eq.trans h (home?_without other)
  have hplanes : s'.planes = s.planes.map fun p => { p with census := p.census.erase id } :=
    hal.planes
  have hledger : s'.planes.flatMap Plane.ledger = s.planes.flatMap Plane.ledger := by
    rw [hplanes, List.flatMap_map]
  have hstays : ∀ other, id ≠ other → s'.stays other = s.stays other := by
    intro other hne
    unfold stays
    rw [hplanes, List.map_map]
    exact List.map_congr_left fun p _ => Plane.stay_strike_of_ne hne
  have hlevel : s'.level = s.level := by
    unfold level
    rw [hplanes, List.length_map]
  have hbackups : s'.backups q = s.backups q := congrArg _ hledger
  refine ⟨fun {other home} hh => ?_, fun {other} hnone => ?_, fun cl hcl => ?_, fun b hb => ?_⟩
  · rw [hhome] at hh
    split at hh
    · cases hh
    · next hne =>
      have h := ha.trail hh
      unfold Trails at h ⊢
      rwa [hstays other hne]
  · by_cases hne : id = other
    · subst hne
      intro x hx
      obtain ⟨p, hp, rfl⟩ := List.mem_map.mp hx
      have hmem := hp
      rw [hplanes] at hmem
      obtain ⟨p', hp', rfl⟩ := List.mem_map.mp hmem
      rw [Plane.stay_strike_self]
      refine Prod.ext rfl (List.filter_eq_nil_iff.mpr fun b hb => ?_)
      refine (decide_eq_true_iff.not).mpr ?_
      refine hacc.not_backed (Option.map_eq_none_iff.mp hnone) ?_
      exact List.mem_append.mpr (.inr (List.mem_flatMap.mpr ⟨_, hp, hb⟩))
    · have h := ha.free (by rw [← hnone, hhome, if_neg hne])
      rwa [hstays other hne]
  · rw [hlevel]
    exact ha.closing cl hcl
  · refine ha.sized b ?_
    show b ∈ s.backups q
    rw [← hbackups]
    exact hb

theorem Traffic.disciplined {a b : Account} (h : Traffic a b) (hacc : b.Accounted)
    (ha : a.Disciplined) : b.Disciplined := by
  cases h with
  | retain hv h =>
    have hr := retain_eq_ok h
    exact ha.of_planes hr.home_eq hr.planes
  | drop h =>
    cases dropReference_eq_ok h with
    | scalar | text | lastText => exact ha.of_planes (fun _ => rfl) rfl
    | @shared shape id c hc hlt =>
      exact ha.of_planes
        (home?_withContainer_of_eq (d := { c with refcount := c.refcount - 1 }) hc rfl) rfl
    | freed hc hone hal => exact ha.freed hacc hal
  | charge h => exact ha.alike (alike_addImport h)
  | discharge h => exact ha.alike (alike_dropImport h)

/-! ### What comes into being, and what is written to dataspaces -/

/-- A new container is at home on the innermost plane, which lists it as fresh. -/
theorem Creation.disciplined {e : Effect} {a b : Account} (h : Creation e a b)
    (hacc : a.Accounted) (ha : a.Disciplined) : b.Disciplined := by
  cases h with
  | @container t s F C owner kind values u hv hm h =>
    have hs := hacc.balanced.containers
    have hal := alike_link_new hs rfl h
    have hfree : s.container? s.heap.nextId = none := container?_nextId hs
    -- A free slot leaves no trail, so that of the new container starts here.
    have hclear : Clear (s.stays s.heap.nextId) :=
      ha.free (Option.map_eq_none_iff.mpr hfree)
    have hhome : ∀ id, (t.withPlane fun p =>
        { p with census := p.census.insert s.heap.nextId .fresh }).home? id =
          if s.heap.nextId = id then some s.level else s.home? id := by
      intro id
      have hh := congrArg (Option.map Container.home) (hal.container id)
      rw [Option.map_map, Option.map_map] at hh
      refine (congrArg _ (container?_withPlane t _ id)).trans (Eq.trans hh ?_)
      split
      · next hid => rw [← hid, container?_withNew_self hs]; rfl
      · next hid => rw [container?_withNew_of_ne hid]; rfl
    have hother : ∀ id, s.heap.nextId ≠ id → (t.withPlane fun p =>
        { p with census := p.census.insert s.heap.nextId .fresh }).stays id =
          s.stays id := fun id hid =>
      (stays_withPlane fun p => Plane.stay_insert_of_ne hid).trans (stays_of_planes hal.planes id)
    have hself : Trail ((t.withPlane fun p =>
        { p with census := p.census.insert s.heap.nextId .fresh }).stays s.heap.nextId)
          s.level := by
      have htp : t.planes = s.planes := hal.planes
      cases hp : s.planes with
      | nil =>
        unfold withPlane stays level
        rw [htp, hp]
        simp only [htp, hp]
        exact .root
      | cons p rest =>
        rw [stays_withPlane_cons (htp.trans hp), Plane.stay_insert_self, level, hp]
        rw [stays_cons hp] at hclear
        rw [show (p.stay s.heap.nextId).2 = [] from
          congrArg Prod.snd (hclear _ List.mem_cons_self), List.length_cons]
        have hfresh := Trail.fresh fun x hx => hclear x (List.mem_cons_of_mem _ hx)
        rwa [List.length_map] at hfresh
    refine ha.placed hhome hself hother (fun id _ hid h => ?_) (fun _ hq => by cases hq)
      fun b hb => ha.sized b ?_
    · show Trail _ _
      rw [hother id hid]
      exact h
    · have hmem := mem_backups_withPlane (by exact fun _ => rfl) hb
      exact mem_backups_of_planes hal.planes hmem
  | @retag s F C q id c tag hc hone =>
    exact ha.of_planes (home?_withContainer_of_eq (d := { c with tag }) hc rfl) rfl
  | string | dataspace | spawn | destroy => exact ha.of_planes (fun _ => rfl) rfl

/-- Recording a patch changes no home and no record of one. -/
theorem Store.Recorded.disciplined {s s' : Store} {call : CallRef} {patch : CallPatch}
    {out : List Value} {F F' : Refs} {C C' : Charges} {q : Option Closing}
    (h : Recorded call patch s out s') (ha : Account.Disciplined ⟨s, F, C, q⟩) :
    Account.Disciplined ⟨s', F', C', q⟩ := by
  cases h with
  | told => exact ha.of_planes (fun _ => rfl) rfl
  | filed | folded | cancelled => exact ha.withPlane fun _ => ⟨rfl, rfl⟩

theorem Writing.disciplined {e : Effect} {a b : Account} (h : Writing e a b)
    (ha : a.Disciplined) : b.Disciplined := by
  cases h with
  | @write s F C ref v old hold hv hp => exact ha.of_planes (fun _ => rfl) rfl
  | @firstWrite t s F C ref v old p rest u hold hv hp hnew h =>
    have hw : Account.Disciplined ⟨s.withVariable ref v, F, C, none⟩ :=
      ha.of_planes (fun _ => rfl) rfl
    have ht : Account.Disciplined ⟨t, F, C, none⟩ := hw.alike (alike_dropImport h)
    exact ht.withPlane fun _ => ⟨rfl, rfl⟩
  | @addCall s' s F C ds d due payload out hd hv h =>
    exact h.disciplined (F := F) (C := C) (ha.of_planes (fun _ => rfl) rfl)
  | @removeCall t s' s F C call old out u hold h₁ h₂ =>
    have hw : Account.Disciplined
        ⟨s.withCallouts call.dataspace (·.erase call.handle), F, C, none⟩ :=
      ha.of_planes (fun _ => rfl) rfl
    have ht : Account.Disciplined ⟨t, F, C, none⟩ := hw.alike (alike_dropImport h₁)
    exact h₂.disciplined ht
  | @replaceCall t s' s F C call old new out u hold hv h₁ h₂ =>
    have hw : Account.Disciplined
        ⟨s.withCallouts call.dataspace (·.insert call.handle new), F, C, none⟩ :=
      ha.of_planes (fun _ => rfl) rfl
    have ht : Account.Disciplined ⟨t, F, C, none⟩ := hw.alike (alike_dropImport h₁)
    exact h₂.disciplined ht

/-! ### Between planes -/

/-- The size of a container without pending writes is told by its elements. -/
theorem Container.size_of_resident {c : Container} {values : Array Value}
    (he : c.elements = .resident values) (ho : c.kind = .mapping → c.overlay = none) :
    c.size = c.kind.entries values.size := by
  unfold size Kind.entries
  rw [he]
  cases hk : c.kind with
  | mapping => simp [ho hk, Elements.length]
  | array | record => rfl

/-- A container that is backed up is at home on the innermost plane from then on. -/
theorem Account.Disciplined.backedUp {s : Store} {F F' : Refs} {C : Charges} {id : ContainerId}
    {c : Container} {b : Backup} {p : Plane} {rest : List Plane} (ha : Disciplined ⟨s, F, C, none⟩)
    (hc : s.container? id = some c) (hh : c.home < s.level) (hp : s.planes = p :: rest)
    (hid : b.container = id) (hhome : b.home = c.home) (hsize : b.Sized) :
    Disciplined
      ⟨(s.withContainer id { c with home := s.level }).withPlane (·.file b), F', C, none⟩ := by
  have hlevel : s.level = (rest.map (·.stay id)).length + 1 := by
    rw [← length_stays s id, stays_cons hp, List.length_cons]
  have hbefore : Trail (s.stays id) c.home := ha.trail (home?_of_container hc)
  rw [stays_cons hp] at hbefore
  obtain ⟨hstay, hrest⟩ := hbefore.untouched (by omega)
  have hhomes : ∀ other,
      ((s.withContainer id { c with home := s.level }).withPlane (·.file b)).home? other =
        if id = other then some s.level else s.home? other := fun other =>
    (congrArg _ (container?_withPlane _ _ _)).trans
      (home?_withContainer hc { c with home := s.level } other)
  have hstays : ∀ other,
      ((s.withContainer id { c with home := s.level }).withPlane (·.file b)).stays other =
        (p.file b).stay other :: rest.map (·.stay other) :=
    stays_withPlane_cons (s := s.withContainer id { c with home := s.level }) hp _
  have hother : ∀ other, id ≠ other → ((s.withContainer id { c with home := s.level }).withPlane
      (·.file b)).stays other = s.stays other := by
    intro other hne
    rw [hstays, Plane.stay_file_of_ne (hid ▸ hne), stays_cons hp]
  refine ha.placed hhomes ?_ hother (fun other _ hne h => ?_) nofun fun x hx => ?_
  · show Trail (((s.withContainer id { c with home := s.level }).withPlane (·.file b)).stays id) _
    have hself := Plane.stay_file_self p b
    rw [hid, hstay] at hself
    rw [hstays, hself, hlevel]
    exact .backed b (hhome ▸ hrest)
  · show Trail
      (((s.withContainer id { c with home := s.level }).withPlane (·.file b)).stays other) _
    rw [hother other hne]
    exact h
  · rcases mem_backups_file (s := s.withContainer id { c with home := s.level }) hp hx with rfl | hx
    · exact hsize
    · exact ha.sized x hx

/-- A plane that is entered has nothing on record. -/
theorem Account.Disciplined.entered {s : Store} {F : Refs} {C : Charges}
    (ha : Disciplined ⟨s, F, C, none⟩) :
    Disciplined ⟨{ s with planes := {} :: s.planes }, F, C, none⟩ := by
  have hstays : ∀ id, ({ s with planes := {} :: s.planes } : Store).stays id =
      (none, []) :: s.stays id := by
    intro id
    unfold stays
    rw [List.map_cons, Plane.stay_empty]
  refine ⟨fun {id home} hh => ?_, fun {id} hnone => ?_, (fun cl hcl => by cases hcl), ha.sized⟩
  · show Trail _ home
    rw [hstays]
    exact .absent (ha.trail hh)
  · rw [hstays]
    intro x hx
    rcases List.mem_cons.mp hx with rfl | hx
    · rfl
    · exact ha.free hnone x hx

/-- A plane that begins to close takes its records along. -/
theorem Account.Disciplined.popped {s : Store} {F : Refs} {C : Charges} {p : Plane}
    {rest : List Plane} (folds : Bool) (ha : Disciplined ⟨s, F, C, none⟩)
    (hp : s.planes = p :: rest) :
    Disciplined ⟨{ s with planes := rest }, F, C, some (.ofPlane folds s.level p)⟩ := by
  have hstays : ∀ id, s.stays id = p.stay id :: ({ s with planes := rest } : Store).stays id :=
    stays_cons hp
  refine ⟨fun {id home} hh => ?_, fun {id} hnone => ?_, fun cl hcl => ?_, fun b hb => ?_⟩
  · have h := ha.trail hh
    unfold Trails at h ⊢
    rw [hstays] at h
    have hpop := @Closing.Trail.of_pop id _ _ _ folds h
    rwa [← List.length_cons, ← hstays, length_stays] at hpop
  · have h := ha.free hnone
    rw [hstays] at h
    exact fun x hx => h x (List.mem_cons_of_mem _ hx)
  · obtain rfl := Option.some.inj hcl
    refine ⟨by simp [Closing.ofPlane, level, hp], ?_⟩
    unfold Closing.ofPlane
    have hkeys : p.census.keys.Nodup := p.census.nodup_keys
    cases folds with
    | true => exact hkeys
    | false =>
      refine List.Nodup.sublist (List.Sublist.map _ List.filter_sublist) ?_
      rwa [Std.TreeMap.map_fst_toList_eq_keys]
  · exact ha.sized b (mem_backups_pop hp hb)

section

variable {s s' : Store} {F F' : Refs} {C C' : Charges} {cl : Closing} {b : Backup}
  {ledger : List Backup}

/-- The number of planes below one that is closing. -/
theorem Account.Disciplined.length_stays (ha : Disciplined ⟨s, F, C, some cl⟩) (id : ContainerId) :
    (s.stays id).length + 1 = cl.level := by
  rw [(ha.closing cl rfl).1, Store.length_stays]

/-- The container of a backup that comes next is at home on the closing plane. -/
theorem Account.Disciplined.head (ha : Disciplined ⟨s, F, C, some cl⟩)
    (hl : cl.ledger = b :: ledger)
    {home : Nat} (hh : s.home? b.container = some home) :
    ledger.filter (·.container = b.container) = [] ∧ home = cl.level ∧
      (b.container ∈ cl.census ↔ cl.folds = true) ∧ Trail (s.stays b.container) b.home :=
  Closing.Trail.head (ha.trail hh) hl

theorem Account.Disciplined.sized_head (ha : Disciplined ⟨s, F, C, some cl⟩)
    (hl : cl.ledger = b :: ledger) : b.Sized :=
  ha.sized b (mem_backups_head hl)

/-- The plane below takes a backup that it lacks. -/
theorem Account.Disciplined.refiled {p : Plane} {rest : List Plane}
    (ha : Disciplined ⟨s, F, C, some cl⟩) (hl : cl.ledger = b :: ledger) (hf : cl.folds = true)
    (hp : s.planes = p :: rest) (hhome : b.home ≠ cl.level - 1)
    (hnew : p.isBacked b.container = false) (hlive : s.home? b.container ≠ none) :
    Disciplined ⟨s.withPlane (·.file b), F, C, some { cl with ledger }⟩ := by
  have hhomes : ∀ id, (s.withPlane (·.file b)).home? id = s.home? id := fun id =>
    congrArg _ (container?_withPlane s _ id)
  have hstays : ∀ id, (s.withPlane (·.file b)).stays id =
      (p.file b).stay id :: rest.map (·.stay id) := stays_withPlane_cons hp _
  have hold : ∀ id, s.stays id = p.stay id :: rest.map (·.stay id) := stays_cons hp
  have hother : ∀ id, b.container ≠ id → (s.withPlane (·.file b)).stays id = s.stays id := by
    intro id hne
    rw [hstays, hold, Plane.stay_file_of_ne hne]
  refine ⟨fun {id home} hh => ?_, fun {id} hnone => ?_, fun cl' hcl => ?_, fun x hx => ?_⟩
  · rw [hhomes] at hh
    show ({ cl with ledger } : Closing).Trail id ((s.withPlane (·.file b)).stays id) home
    by_cases hid : b.container = id
    · subst hid
      -- The trail of the container goes on below the closing plane with its older home.
      obtain ⟨hrest, rfl, hc, htrail⟩ := ha.head hl hh
      refine .listed hrest (hc.mpr hf) (.inr ?_)
      have hlevel := ha.length_stays b.container
      rw [hold, List.length_cons] at hlevel
      rw [hold] at htrail
      have hle := htrail.home_le
      rw [List.length_cons] at hle
      obtain ⟨hstay, hbelow⟩ := htrail.untouched (by omega)
      rw [hstays, Plane.stay_file_self, hstay]
      show Trail _ (cl.level - 1)
      rw [show cl.level - 1 = (rest.map (·.stay b.container)).length + 1 by omega]
      exact .backed b hbelow
    · rw [hother id hid]
      exact Closing.Trail.tail (ha.trail hh) hl hid
  · rw [hhomes] at hnone
    have hid : b.container ≠ id := fun h => hlive (h ▸ hnone)
    rw [hother id hid]
    exact ha.free hnone
  · obtain rfl := Option.some.inj hcl
    rw [level_withPlane]
    exact ha.closing cl rfl
  · rcases mem_backups_file hp hx with rfl | hx
    · exact ha.sized_head hl
    · exact ha.sized x (mem_backups_of_ledger hl hx)

/-- A backup can be forgotten if the plane below has an older one, or needs none. -/
theorem Account.Disciplined.forgot (ha : Disciplined ⟨s, F, C, some cl⟩)
    (hl : cl.ledger = b :: ledger) (hf : cl.folds = true)
    (hno : ∀ p ∈ s.planes.head?, b.home = cl.level - 1 ∨ p.isBacked b.container = true) :
    Disciplined ⟨s, F', C, some { cl with ledger }⟩ := by
  refine ⟨fun {id home} hh => ?_, ha.free, fun cl' hcl => ?_,
    fun x hx => ha.sized x (mem_backups_of_ledger hl hx)⟩
  · show ({ cl with ledger } : Closing).Trail id (s.stays id) home
    by_cases hid : b.container = id
    · subst hid
      obtain ⟨hrest, rfl, hc, htrail⟩ := ha.head hl hh
      refine .listed hrest (hc.mpr hf) (.inr ?_)
      have hhome : b.home = cl.level - 1 := by
        have hlevel := ha.length_stays b.container
        cases hp : s.planes with
        | nil =>
          have hle := htrail.home_le
          have hlength : (s.stays b.container).length = 0 := by rw [stays, hp]; rfl
          omega
        | cons p rest =>
          rcases hno p (by rw [hp]; rfl) with h | h
          · exact h
          · rw [stays_cons hp] at htrail hlevel
            obtain ⟨hhome, -⟩ := htrail.of_backed (Plane.isBacked_iff.mp h)
            rw [List.length_cons] at hlevel
            omega
      rwa [← hhome]
    · exact Closing.Trail.tail (ha.trail hh) hl hid
  · obtain rfl := Option.some.inj hcl
    exact ha.closing cl rfl

/-- A container settles on the plane below, which adopts it. -/
theorem Account.Disciplined.settled {id : ContainerId} {c : Container} {census : List ContainerId}
    (ha : Disciplined ⟨s, F, C, some cl⟩) (hl : cl.census = id :: census) (hledger : cl.ledger = [])
    (hc : s.container? id = some c) :
    Disciplined ⟨(s.withContainer id
      (if c.home = cl.level then { c with home := cl.level - 1 } else c)).withPlane (·.adopt id),
        F, C, some { cl with census }⟩ := by
  have hnodup := (ha.closing cl rfl).2
  rw [hl] at hnodup
  obtain ⟨hid, hnodup⟩ := List.nodup_cons.mp hnodup
  -- The container was at home on the closing plane, and the plane below has or gets to know it.
  have htrail : cl.Trail id (s.stays id) c.home := ha.trail (home?_of_container hc)
  have hhome : c.home = cl.level ∧ (Clear (s.stays id) ∨ Trail (s.stays id) (cl.level - 1)) := by
    generalize c.home = home at htrail
    cases htrail with
    | backed hb =>
      rw [hledger] at hb
      cases hb
    | listed _ _ h => exact ⟨rfl, h⟩
    | settled _ hc => exact absurd (hl ▸ List.mem_cons_self) hc
  rw [if_pos hhome.1]
  have hhomes : ∀ other, ((s.withContainer id { c with home := cl.level - 1 }).withPlane
      (·.adopt id)).home? other = if id = other then some (cl.level - 1) else s.home? other :=
    fun other => (congrArg _ (container?_withPlane _ _ _)).trans
      (home?_withContainer hc { c with home := cl.level - 1 } other)
  have hother : ∀ other, id ≠ other →
    ((s.withContainer id { c with home := cl.level - 1 }).withPlane
      (·.adopt id)).stays other = s.stays other := fun other hne =>
    (stays_withPlane fun p => Plane.stay_adopt_of_ne hne).trans rfl
  have hself : Trail (((s.withContainer id { c with home := cl.level - 1 }).withPlane
      (·.adopt id)).stays id) (cl.level - 1) := by
    have hlevel := ha.length_stays id
    cases hp : s.planes with
    | nil =>
      have hnil : s.stays id = [] := by rw [stays, hp, List.map_nil]
      have hsame : ((s.withContainer id { c with home := cl.level - 1 }).withPlane
          (·.adopt id)).stays id = [] := by
        unfold Store.withPlane stays withContainer
        simp only [hp, List.map_nil]
      rw [hnil, List.length_nil] at hlevel
      rw [hsame, ← hlevel]
      exact .root
    | cons p rest =>
      have hstays := stays_cons hp id
      rw [hstays, List.length_cons] at hlevel
      rw [stays_withPlane_cons (s := s.withContainer id { c with home := cl.level - 1 }) hp,
        Plane.stay_adopt_self, ← hlevel]
      obtain hclear | htrail := hhome.2
      · rw [hstays] at hclear
        exact .of_clear_adopted hclear
      · rw [hstays, ← hlevel] at htrail
        generalize p.stay id = x at htrail
        cases htrail with
        | absent h => exact absurd h.home_le (by omega)
        | fresh h => exact .fresh h
        | backed b h => exact .backed b h
  refine ha.placed hhomes ?_ hother (fun other _ hne h => ?_) (fun cl' hcl => ?_) fun x hx => ?_
  · exact Closing.Trail.settled (by rw [hledger]; rfl) hid hself
  · show ({ cl with census } : Closing).Trail other _ _
    rw [hother other hne]
    refine Closing.Trail.congr h rfl rfl rfl ?_
    show other ∈ census ↔ other ∈ cl.census
    rw [hl, List.mem_cons]
    exact ⟨.inr, fun h => h.resolve_left (Ne.symm hne)⟩
  · obtain rfl := Option.some.inj hcl
    rw [level_withPlane]
    exact ⟨(ha.closing cl rfl).1, hnodup⟩
  · exact ha.sized x
      (mem_backups_withPlane (s := s.withContainer id { c with home := cl.level - 1 })
      (by exact fun _ => rfl) hx)

/-- What is listed and gone can be passed over. -/
theorem Account.Disciplined.skipped {id : ContainerId} {census : List ContainerId}
    (ha : Disciplined ⟨s, F, C, some cl⟩) (hl : cl.census = id :: census)
    (hc : s.container? id = none) : Disciplined ⟨s, F, C, some { cl with census }⟩ := by
  have hnodup := (ha.closing cl rfl).2
  rw [hl] at hnodup
  refine ⟨fun {other home} hh => ?_, ha.free, fun cl' hcl => ?_, ha.sized⟩
  · have hne : id ≠ other := by
      rintro rfl
      rw [home?, show s.container? id = none from hc] at hh
      cases hh
    refine Closing.Trail.congr (ha.trail hh) rfl rfl rfl ?_
    show other ∈ census ↔ other ∈ cl.census
    rw [hl, List.mem_cons]
    exact ⟨.inr, fun h => h.resolve_left (Ne.symm hne)⟩
  · obtain rfl := Option.some.inj hcl
    exact ⟨(ha.closing cl rfl).1, (List.nodup_cons.mp hnodup).2⟩

/-- A container that is restored goes back to the home that its backup tells. -/
theorem Account.Disciplined.restored {c : Container} (ha : Disciplined ⟨s, F, C, some cl⟩)
    (hl : cl.ledger = b :: ledger) (hf : cl.folds = false)
    (hc : s.container? b.container = some c) :
    Disciplined ⟨s.withContainer b.container (b.restored c), F', C', some { cl with ledger }⟩ := by
  obtain ⟨hrest, -, hcensus, htrail⟩ := ha.head hl (home?_of_container hc)
  refine ⟨fun {id home} hh => ?_, fun {id} hnone => ?_, fun cl' hcl => ?_,
    fun x hx => ha.sized x (mem_backups_of_ledger hl hx)⟩
  · rw [home?_withContainer hc] at hh
    show ({ cl with ledger } : Closing).Trail id (s.stays id) home
    split at hh
    · next hid =>
      obtain rfl := Option.some.inj hh
      subst hid
      exact .settled hrest (fun h => by simp [hcensus.mp h] at hf) htrail
    · next hid => exact Closing.Trail.tail (ha.trail hh) hl hid
  · rw [home?_withContainer hc] at hnone
    split at hnone
    · cases hnone
    · exact ha.free hnone
  · obtain rfl := Option.some.inj hcl
    exact ha.closing cl rfl

/-- A plane has closed when its ledger and its census are empty. -/
theorem Account.Disciplined.finished (ha : Disciplined ⟨s, F, C, some cl⟩) (hl : cl.ledger = [])
    (hc : cl.census = []) : Disciplined ⟨s, F, C, none⟩ := by
  refine ⟨fun {id home} hh => ?_, ha.free, (fun cl' hcl => by cases hcl), fun x hx => ?_⟩
  · have h : cl.Trail id (s.stays id) home := ha.trail hh
    cases h with
    | backed hb =>
      rw [hl] at hb
      cases hb
    | listed _ hin =>
      rw [hc] at hin
      cases hin
    | settled _ _ h => exact h
  · exact ha.sized x (List.mem_append.mpr (.inr hx))

end

/-- Homes and records stay in step as regions are entered and left. -/
theorem Nesting.disciplined {e : Effect} {a b : Account} (h : Nesting e a b) (hacc : a.Accounted)
    (ha : a.Disciplined) : b.Disciplined := by
  -- Each step has its lemma; those about variables and calls leave homes and trails alone.
  cases h with
  | @backUp s F C id c values p rest hc he hm hh hp hnew =>
    exact ha.backedUp hc hh hp rfl rfl (Container.size_of_resident he hm)
  | enter hroom => exact ha.entered
  | pop folds hp => exact ha.popped folds hp
  | @refile s F C cl b ledger p rest hl hf hp hhome hnew =>
    refine ha.refiled hl hf hp hhome hnew fun hnone => ?_
    exact hacc.not_backed (Option.map_eq_none_iff.mp hnone) (mem_backups_head hl) rfl
  | forget hl hf hno => exact ha.forgot hl hf hno
  | settle hl hledger hc => exact ha.settled hl hledger hc
  | skip hl hledger hc => exact ha.skipped hl hc
  | @resave s F C cl ref v saved p rest hl hf hp hnew =>
    have hs : Account.Disciplined ⟨s, F, C, some { cl with saved }⟩ :=
      ha.of_closing rfl rfl rfl rfl
    exact hs.withPlane fun _ => ⟨rfl, rfl⟩
  | unsave hl hf hno => exact ha.of_closing rfl rfl rfl rfl
  | @record s' s F C cl call patch patches out hl hf h =>
    exact h.disciplined (F := F) (C := C) (ha.of_closing rfl rfl rfl rfl)
  | @restore s' s F C cl b ledger c values u hl hf hc he h =>
    have hs : Account.Disciplined ⟨s.withContainer b.container (b.restored c), F, C,
        some { cl with ledger }⟩ := ha.restored hl hf hc
    exact hs.alike (alike_addImports h)
  | @restoreVariable s t F C cl ref v current saved u hl hf h hcur =>
    have hs : Account.Disciplined ⟨s, F, C, some { cl with saved }⟩ :=
      ha.of_closing rfl rfl rfl rfl
    have ht : Account.Disciplined ⟨t, F, C, some { cl with saved }⟩ := hs.alike (alike_addImport h)
    exact ht.of_planes (fun _ => rfl) rfl
  | @unwindAdded s F C cl call added patches hl hf hcur =>
    have hs : Account.Disciplined ⟨s, F, C, some { cl with patches }⟩ :=
      ha.of_closing rfl rfl rfl rfl
    exact hs.of_planes (fun _ => rfl) rfl
  | @unwindRemoved s' s F C cl call old d patches u hl hf hd h =>
    have hs : Account.Disciplined ⟨s, F, C, some { cl with patches }⟩ :=
      ha.of_closing rfl rfl rfl rfl
    have hw : Account.Disciplined ⟨s.withCallouts call.dataspace (·.insert call.handle old), F, C,
        some { cl with patches }⟩ := hs.of_planes (fun _ => rfl) rfl
    exact hw.alike (alike_addImport h)
  | @unwindReplaced s' s F C cl call old new patches u hl hf hcur h =>
    have hs : Account.Disciplined ⟨s, F, C, some { cl with patches }⟩ :=
      ha.of_closing rfl rfl rfl rfl
    have hw : Account.Disciplined ⟨s.withCallouts call.dataspace (·.insert call.handle old), F, C,
        some { cl with patches }⟩ := hs.of_planes (fun _ => rfl) rfl
    exact hw.alike (alike_addImport h)
  | finish hl => exact ha.finished hl.1 hl.2.2.2

/-- A transfer moves no container to another plane. -/
theorem Transfer.disciplined {ds : DataspaceId} {id : ContainerId} {a b : Account}
    (h : Transfer ds id a b) (ha : a.Disciplined) : b.Disciplined := by
  obtain ⟨c, hc, hal⟩ := h.alike
  cases h with
  | @mk s F c' d values s₁ s₂ s₃ s₄ =>
    have hs : Account.Disciplined ⟨s.withContainer id { c with owner := ds }, F, 0, none⟩ :=
      ha.of_planes (home?_withContainer_of_eq (d := { c with owner := ds }) hc rfl) rfl
    exact hs.alike hal

/-- Planes keep to their discipline. -/
theorem Step.disciplined {e : Effect} {a b : Account} (h : Step e a b) (hacc : a.Accounted)
    (hacc' : b.Accounted) (ha : a.Disciplined) : b.Disciplined := by
  cases h with
  | traffic h => exact h.disciplined hacc' ha
  | upkeep h => exact (h.trade hacc).disciplined ha
  | change h => exact (h.trade hacc).disciplined ha
  | creation h => exact h.disciplined hacc ha
  | writing h => exact h.disciplined ha
  | nesting h => exact h.disciplined hacc ha
  | transfer h => exact h.disciplined ha

end PlaneStore
