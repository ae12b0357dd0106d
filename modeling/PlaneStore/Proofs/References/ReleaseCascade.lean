import PlaneStore.Proofs.Eviction.ExclusiveTakeover

/-!
# What a release frees

Giving up a reference takes one off a count. If it was the last, the slot is freed, and what was in
it gives up the references that it held; and so on. Whatever the order in which that happens, in the
end the slots that are free are those of the least set with the property that a slot belongs to it
if all references to it are given up or held within the set. So everything can be said of a release
by this set: `Store.Cascade`.
-/

namespace PlaneStore

open Store

theorem Refs.tally_singleton_of_ne {v : Value} {t : Target} (h : v.target? ≠ some t) :
    Refs.tally {v} t = 0 := by
  rw [tally_singleton, if_neg h]

namespace Store

/-! ## Sets of slots -/

/-- The content of the container that a slot counts references to. -/
def contentAt? (s : Store) : Target → Option Content
  | .container id => s.content? id
  | .string _ => none

/-- What the containers of some slots come to. -/
def sumOver (s : Store) (f : Content → Refs) (T : Finset Target) : Refs :=
  ∑ t ∈ T, ((s.contentAt? t).map f).getD 0

/-- The references that the containers of some slots hold: elements, and keys and values pending. -/
def heldIn (s : Store) (T : Finset Target) : Refs := s.sumOver (fun x => ↑x.held) T

/-- Those that they hold in slots of a dataspace. -/
def heldFor (s : Store) (ds : DataspaceId) (T : Finset Target) : Refs :=
  s.sumOver (fun x => if x.owner = ds then ↑x.held else 0) T

/-- All references to a slot are among those of `R` and those that the slots of a set hold. -/
def Bereft (s : Store) (R : Refs) (T : Finset Target) (t : Target) : Prop :=
  s.heap.count? t = some ((R + s.heldIn T).tally t)

section

variable {s s' : Store} {R : Refs} {T U : Finset Target} {t : Target} {id other : ContainerId}
  {c : Container}

/-- What is free has no content. -/
theorem contentAt?_eq_none (ht : s.heap.count? t = none) : s.contentAt? t = none := by
  cases t with
  | container id => exact Option.map_eq_none_iff.mpr (Option.map_eq_none_iff.mp ht)
  | string id => rfl

theorem held_content (swap : Swap) (c : Container) :
    (↑(c.content swap).held : Refs) = c.held swap := by
  simp only [Content.held, Container.content, Container.held, Container.overlayValues]
  cases c.overlay <;> rfl

theorem content?_without_of_ne (hs : s.Stored) (hc : s.container? id = some c) (h : id ≠ other) :
    (s.without id c).content? other = s.content? other := by
  cases hd : s.container? other with
  | none =>
    rw [content?, container?_without_of_ne h, hd, content?, hd]
    rfl
  | some d =>
    have hd' : (s.without id c).container? other = some d := (container?_without_of_ne h).trans hd
    rw [content?_of_container hd', content?_of_container hd,
      content_of_core rfl ((wanes_without hs hc).buffer other d hd')]

@[simp] theorem sumOver_empty (s : Store) (f : Content → Refs) : s.sumOver f ∅ = 0 :=
  Finset.sum_empty

theorem sumOver_insert (s : Store) (f : Content → Refs) (ht : t ∉ T) :
    s.sumOver f (insert t T) = ((s.contentAt? t).map f).getD 0 + s.sumOver f T :=
  Finset.sum_insert ht

/-- Sums over two sets without common elements add up. -/
theorem sumOver_union (s : Store) (f : Content → Refs) (h : Disjoint T U) :
    s.sumOver f (T ∪ U) = s.sumOver f T + s.sumOver f U :=
  Finset.sum_union h

/-- What slots come to is a matter of their contents. -/
theorem sumOver_congr (f : Content → Refs) (h : ∀ t ∈ T, s'.contentAt? t = s.contentAt? t) :
    s'.sumOver f T = s.sumOver f T :=
  Finset.sum_congr rfl fun t ht => by rw [h t ht]

/-- A slot that is still in use has its content. -/
theorem Wanes.contentAt? (hw : Wanes s s') (ht : s'.heap.count? t ≠ none) :
    s'.contentAt? t = s.contentAt? t := by
  cases t with
  | string id => rfl
  | container id =>
    have hlive : s'.content? id ≠ none := fun hnone =>
      ht (Option.map_eq_none_iff.mpr (Option.map_eq_none_iff.mp hnone))
    obtain ⟨x, hx⟩ := Option.ne_none_iff_exists'.mp hlive
    exact hx.trans (hw.content? hx).symm

/-- What is left has its content. -/
theorem Wanes.sumOver (hw : Wanes s s') (f : Content → Refs)
    (hT : ∀ t ∈ T, s'.heap.count? t ≠ none) : s'.sumOver f T = s.sumOver f T :=
  sumOver_congr f fun t ht => hw.contentAt? (hT t ht)

/-- What one of the containers holds is among what all of them do. -/
theorem mem_heldIn {x : Content} {v : Value} (hid : .container id ∈ T)
    (hx : s.content? id = some x) (hv : v ∈ x.held) : v ∈ s.heldIn T := by
  refine Multiset.mem_sum.mpr ⟨_, hid, ?_⟩
  rw [show s.contentAt? (.container id) = some x from hx]
  exact Multiset.mem_coe.mpr hv

/-- Whichever slots are taken, they hold no more than the whole store. -/
theorem heldIn_le_refs (hs : s.Stored) (T : Finset Target) : s.heldIn T ≤ s.refs := by
  induction T using Finset.induction_on generalizing s with
  | empty => exact (sumOver_empty s _).trans_le (Multiset.zero_le _)
  | insert t T ht ih =>
    rw [heldIn, sumOver_insert _ _ ht]
    cases hx : s.contentAt? t with
    | none =>
      rw [Option.map_none, Option.getD_none, zero_add]
      exact ih hs
    | some x =>
      obtain ⟨id, rfl⟩ : ∃ id, t = .container id := by
        cases t with
        | container id => exact ⟨id, rfl⟩
        | string id => cases hx
      obtain ⟨c, hc, rfl⟩ := content?_eq_some.mp hx
      -- Without this container the others hold what they held, and the induction is over those.
      have hrest : (s.without id c).heldIn T = s.heldIn T := by
        refine sumOver_congr _ fun t' ht' => ?_
        cases t' with
        | string other => rfl
        | container other =>
          refine content?_without_of_ne hs hc fun he => ht ?_
          rwa [he]
      rw [Option.map_some, Option.getD_some, held_content, ← refs_without hs hc, add_comm]
      refine add_le_add_left ?_ _
      exact hrest.symm.trans_le (ih (hs.without hc))

end

/-! ## One reference -/

/--
What a store is once some slots are free. Slots of dataspaces lose what these held, and sweep lists
and the planes the containers.
-/
structure Sheds (s : Store) (T : Finset Target) (s' : Store) : Prop where
  slots : ∀ ds, s'.slots ds + s.heldFor ds T = s.slots ds
  census : List.Forall₂ (fun p p' => ∀ id : ContainerId,
    p'.census[id]? = if .container id ∈ T then none else p.census[id]?) s.planes s'.planes
  strand : ∀ {ds head ids}, s.head? ds = some head → Strand s.links? head ids →
    ∃ head', s'.head? ds = some head' ∧
      Strand s'.links? head' (ids.filter (Target.container · ∉ T))

/-- What is set free when a reference to `v` is given up, and which slots are freed. -/
inductive Yields (s : Store) (v : Value) (s' : Store) : List Value → Finset Target → Prop
  | kept (hcount : ∀ t, s'.heap.count? t = (s.heap.count? t).map (· - Refs.tally {v} t)) :
      Yields s v s' [] ∅
  | freed {t : Target} {children : List Value} (hv : v.target? = some t)
      (hone : s.heap.count? t = some 1)
      (hcount : ∀ x, s'.heap.count? x = if x = t then none else s.heap.count? x)
      (hheld : (↑children : Refs) = s.heldIn {t}) : Yields s v s' children {t}

section

variable {s s' s'' : Store} {v : Value} {children : List Value} {T U : Finset Target}

theorem contentAt?_of_container {id : ContainerId} {c : Container} (hc : s.container? id = some c) :
    s.contentAt? (.container id) = some (c.content s.swap) :=
  content?_of_container hc

theorem sumOver_singleton (s : Store) (f : Content → Refs) (t : Target) :
    s.sumOver f {t} = ((s.contentAt? t).map f).getD 0 :=
  Finset.sum_singleton _ t

theorem heldIn_singleton {id : ContainerId} {c : Container} (hc : s.container? id = some c) :
    s.heldIn {.container id} = c.held s.swap := by
  rw [heldIn, sumOver_singleton, contentAt?_of_container hc]
  exact held_content s.swap c

theorem heldFor_singleton {id : ContainerId} {c : Container} (hc : s.container? id = some c)
    (ds : DataspaceId) : s.heldFor ds {.container id} = share s.swap ds c := by
  rw [heldFor, sumOver_singleton, contentAt?_of_container hc]
  show (if c.owner = ds then (↑(c.content s.swap).held : Refs) else 0) = _
  rw [held_content]
  rfl

/-- Where only texts go, and neither lists nor planes are touched. -/
theorem Sheds.of_same (hslots : ∀ ds, s'.slots ds = s.slots ds) (hsites : s'.sites = s.sites)
    (hp : s'.planes = s.planes) (hT : ∀ id, .container id ∉ T) : Sheds s T s' where
  slots ds := by
    have hnone : s.heldFor ds T = 0 := Finset.sum_eq_zero fun t ht => by
      cases t with
      | container id => exact absurd ht (hT id)
      | string id => rfl
    rw [hnone, add_zero, hslots]
  census := by
    rw [hp]
    refine List.forall₂_same.mpr fun p _ id => ?_
    rw [if_neg (hT id)]
  strand {ds head ids} hhead hids := by
    refine ⟨head, (head?_of_sites hsites ds).trans hhead, ?_⟩
    rw [List.filter_eq_self.mpr fun id _ => by simpa using hT id]
    exact hids.congr fun x _ => by rw [links?_of_sites hsites]

/-- What two halves of a cascade free, they free together. -/
protected theorem Sheds.trans (h : Sheds s T s') (h' : Sheds s' U s'') (hw : Wanes s s')
    (hT : ∀ t ∈ T, s'.heap.count? t = none) (hU : ∀ t ∈ U, s'.heap.count? t ≠ none) :
    Sheds s (T ∪ U) s'' where
  slots ds := by
    -- What the first half frees is gone before the second half begins.
    have hdisjoint : Disjoint T U := Finset.disjoint_left.mpr fun t ht hu => hU t hu (hT t ht)
    have hrest : s'.heldFor ds U = s.heldFor ds U := hw.sumOver _ hU
    rw [heldFor, sumOver_union _ _ hdisjoint, ← h.slots ds, ← h'.slots ds, hrest]
    simp only [heldFor, add_left_comm, add_comm]
  census := by
    refine List.forall₂_iff_get.mpr ⟨h.census.length_eq.trans h'.census.length_eq, ?_⟩
    intro i hi hi'' id
    have hi' : i < s'.planes.length := h.census.length_eq ▸ hi
    rw [(List.forall₂_iff_get.mp h'.census).2 i hi' hi'' id,
      (List.forall₂_iff_get.mp h.census).2 i hi hi' id]
    simp only [Finset.mem_union]
    split <;> rename_i hu
    · rw [if_pos (.inr hu)]
    · simp only [hu, or_false]
  strand hhead hids := by
    obtain ⟨head', hhead', hids'⟩ := h.strand hhead hids
    obtain ⟨head'', hhead'', hids''⟩ := h'.strand hhead' hids'
    refine ⟨head'', hhead'', ?_⟩
    rw [List.filter_filter] at hids''
    convert hids'' using 2
    funext id
    simp [Finset.mem_union, not_or, Bool.and_comm]

/-- A container that is taken off its list is passed by no walk over it any more. -/
theorem Vacated.strand {id : ContainerId} {c : Container} {t : Store} (h : Vacated s id c t)
    (hc : s.container? id = some c) (hs : s.Listed) {ds : DataspaceId}
    {head : Option ContainerId} {ids : List ContainerId} (hhead : s.head? ds = some head)
    (hids : Strand s.links? head ids) :
    ∃ head', t.head? ds = some head' ∧ Strand t.links? head' (ids.filter (· ≠ id)) :=
  Linked.strand_remove hs (links?_of_container hc) h.links h.head hhead hids

/-- A container that is gone was taken off its list. -/
theorem Released.vacated {shape : Shape} {id : ContainerId} {c : Container}
    (h : Released s (.container shape id) children s') (hc : s.container? id = some c)
    (hgone : s'.container? id = none) : ∃ t, Vacated s id c t ∧ s'.sites = t.sites := by
  cases h with
  | kept hsites hdataspaces hswap hcore =>
    have hnone := hcore id
    rw [hgone, hc] at hnone
    cases hnone
  | freed hc' _ ht himports =>
    obtain rfl := Option.some.inj (hc.symm.trans hc')
    exact ⟨_, ht, sites_dropImports himports⟩

/-- What giving up a reference frees, as counts, slots, lists and planes show it. -/
theorem dropReference_yields {R : Refs} (hs : s.Stored) (hl : s.Listed)
    (hb : s.heap.Balanced ({v} + R)) (h : dropReference v s = .ok (children, s')) :
    ∃ T, Yields s v s' children T ∧ Sheds s T s' := by
  have hempty : ∀ id, Target.container id ∉ (∅ : Finset Target) := fun _ => Finset.notMem_empty _
  cases hd : dropReference_eq_ok h with
  | scalar hv =>
    refine ⟨∅, .kept fun t => ?_, .of_same (fun _ => rfl) rfl rfl hempty⟩
    have hnone : v.target? ≠ some t := fun ht => by
      rw [Value.isCounted_iff.mpr ⟨t, ht⟩] at hv
      cases hv
    simp [Refs.tally_singleton_of_ne hnone]
  | @text id e he hlt =>
    refine ⟨∅, .kept fun t => ?_, .of_same (fun _ => rfl) rfl rfl hempty⟩
    rw [count?_withString he]
    by_cases ht : t = .string id
    · subst ht
      simp [Heap.count?, he, Refs.tally_singleton, Value.target?]
    · rw [if_neg ht, Refs.tally_singleton_of_ne (v := .string id) fun hx =>
        ht (Option.some.inj hx).symm]
      simp
  | @lastText id e he hle =>
    have hone : s.heap.count? (.string id) = some 1 := by
      have hcount : s.heap.count? (.string id) = some e.refcount := by simp [Heap.count?, he]
      have hpos := hb.count_pos hcount
      rw [hcount, show e.refcount = 1 by omega]
    refine ⟨{.string id}, .freed rfl hone (fun x => count?_withoutString x) ?_,
      .of_same (fun _ => rfl) rfl rfl fun other => ?_⟩
    · rw [heldIn, sumOver_singleton]
      rfl
    · rw [Finset.mem_singleton]
      intro heq
      cases heq
  | @shared shape id c hc hlt =>
    refine ⟨∅, .kept fun t => ?_, .of_same (fun ds => ?_) ?_ rfl hempty⟩
    · rw [count?_withContainer hc]
      by_cases ht : t = .container id
      · subst ht
        have hcount : s.heap.count? (.container id) = some c.refcount :=
          congrArg (Option.map Container.refcount) hc
        simp [hcount, Refs.tally_singleton, Value.target?]
      · rw [if_neg ht, Refs.tally_singleton_of_ne (v := .container shape id) fun hx =>
          ht (Option.some.inj hx).symm]
        simp
    · exact slots_withContainer_of_eq (d := { c with refcount := c.refcount - 1 }) hc rfl rfl rfl ds
    · exact sites_withContainer hc rfl
  | @freed shape id c s' hc hone halike =>
    have hgone : s'.container? id = none := by
      have hnone := halike.container id
      rw [container?_without_self] at hnone
      exact Option.map_eq_none_iff.mp hnone
    refine ⟨{.container id}, .freed rfl ?_ (fun x => ?_) ?_, fun ds => ?_, ?_, fun hhead hids => ?_⟩
    · rw [← hone]
      exact congrArg (Option.map Container.refcount) hc
    · rw [(sameCounts_of_alike halike).count]
      exact count?_without x
    · exact (heldIn_singleton hc).symm
    · rw [halike.slots, heldFor_singleton hc]
      exact slots_without hs hc ds
    · rw [halike.planes]
      refine List.forall₂_map_right_iff.mpr (List.forall₂_same.mpr fun p _ other => ?_)
      rw [Std.TreeMap.getElem?_erase]
      simp only [Finset.mem_singleton, Target.container.injEq, Std.LawfulEqOrd.compare_eq_iff_eq]
      simp only [eq_comm]
    · obtain ⟨t, ht, hsites⟩ := (dropReference_released h).vacated hc hgone
      obtain ⟨head', hhead', hids'⟩ := ht.strand hc hl hhead hids
      refine ⟨head', (head?_of_sites hsites _).trans hhead', ?_⟩
      simp only [Finset.mem_singleton, Target.container.injEq]
      exact hids'.congr fun x _ => by rw [links?_of_sites hsites]

end

/-! ## The cascade -/

/-- The slots of `T` are freed when the references of `R` are given up, and no others. -/
structure Cascade (s : Store) (R : Refs) (T : Finset Target) (s' : Store) : Prop where
  live : ∀ t ∈ T, s.heap.count? t ≠ none
  least : ∀ U : Finset Target, (∀ t, s.Bereft R U t → t ∈ U) → T ⊆ U
  count : ∀ t, s'.heap.count? t =
    if t ∈ T then none else (s.heap.count? t).map (· - (R + s.heldIn T).tally t)
  sheds : Sheds s T s'

section

variable {s s' s₁ : Store} {v : Value} {children rest : List Value} {R : Refs}
  {T T₀ U : Finset Target} {t : Target}

/-- The last slot to be freed leaves none to which all references are gone. -/
theorem Cascade.closed (h : Cascade s R T s') (hpos : ∀ t, s'.heap.count? t ≠ some 0)
    (ht : s.Bereft R T t) : t ∈ T := by
  by_contra hnot
  refine hpos t ?_
  rw [h.count, if_neg hnot, show s.heap.count? t = _ from ht, Option.map_some, Nat.sub_self]

/-- References that are not counted free nothing. -/
protected theorem Cascade.refl (s : Store) (hR : ∀ t, R.tally t = 0) : Cascade s R ∅ s where
  live := nofun
  least U _ := Finset.empty_subset U
  count t := by
    rw [if_neg (Finset.notMem_empty t), heldIn, sumOver_empty, Refs.tally_add, hR]
    simp
  sheds := .of_same (fun _ => rfl) rfl rfl fun _ => Finset.notMem_empty _

/-- Slots that hold what they held hold the same together. -/
theorem heldIn_eq (hw : Wanes s s₁)
    (hlive : ∀ t ∈ U, s.heap.count? t ≠ none → s₁.heap.count? t ≠ none) :
    s₁.heldIn U = s.heldIn U :=
  sumOver_congr _ fun t ht => by
    by_cases hnone : s₁.heap.count? t = none
    · have hnone' : s.heap.count? t = none := by
        by_contra hne
        exact hlive t ht hne hnone
      rw [contentAt?_eq_none hnone, contentAt?_eq_none hnone']
    · exact hw.contentAt? hnone

/-- No count is smaller than the number of references of `R` and in any set of slots. -/
def Bounds (s : Store) (R : Refs) : Prop :=
  ∀ (U : Finset Target) (t : Target) (n : Nat),
    s.heap.count? t = some n → (R + s.heldIn U).tally t ≤ n

/-- In balance, no set holds more references to a container than are counted. -/
theorem Bounds.of_balanced {F : Refs} (hs : s.Stored)
    (hb : s.heap.Balanced (s.refs + (R + F))) : s.Bounds R := fun U t n ht => by
  have hle := Refs.tally_le (heldIn_le_refs hs U) t
  have hn := hb.count_eq ht
  simp only [Refs.tally_add] at hn ⊢
  omega

/-- A reference is given up, and the slot stays in use. -/
theorem Cascade.kept (h : Cascade s₁ R T s') (hsheds : Sheds s ∅ s₁) (hw : Wanes s s₁)
    (hbounds : s.Bounds ({v} + R))
    (hcount : ∀ t, s₁.heap.count? t = (s.heap.count? t).map (· - Refs.tally {v} t)) :
    Cascade s ({v} + R) T s' := by
  have hlive : ∀ t, s₁.heap.count? t = none ↔ s.heap.count? t = none := fun t => by
    rw [hcount, Option.map_eq_none_iff]
  have hheld : ∀ U, s₁.heldIn U = s.heldIn U := fun U =>
    heldIn_eq hw fun t _ hne hnone => hne ((hlive t).mp hnone)
  refine ⟨fun t ht hnone => h.live t ht ((hlive t).mpr hnone), fun U hU => h.least U fun t ht => ?_,
    fun t => ?_, ?_⟩
  · refine hU t ?_
    unfold Bereft at ht ⊢
    rw [hheld, hcount] at ht
    obtain ⟨n, hn, hsub⟩ := Option.map_eq_some_iff.mp ht
    -- The count bounds what is in flight and what is held, so the subtraction is exact.
    have hle := hbounds U t n hn
    rw [hn]
    simp only [Refs.tally_add] at hle hsub ⊢
    exact congrArg some (by omega)
  · rw [h.count, hcount, hheld, Option.map_map]
    congr 2
    funext n
    simp only [Refs.tally_add, Function.comp_apply]
    omega
  · have hall := hsheds.trans h.sheds hw (fun _ ht => absurd ht (Finset.notMem_empty _)) h.live
    rwa [Finset.empty_union] at hall

section Freed

variable {t₀ : Target} (hv : v.target? = some t₀)
  (hcount : ∀ x, s₁.heap.count? x = if x = t₀ then none else s.heap.count? x)

include hcount

theorem count?_freed_of_ne (ht : t ≠ t₀) : s₁.heap.count? t = s.heap.count? t := by
  rw [hcount, if_neg ht]

include hv

/-- What the freed slot held is given up next: of other slots the same references are gone. -/
theorem tally_freed (hw : Wanes s s₁) (hU : t₀ ∉ U) (ht : t ≠ t₀) :
    (s.heldIn {t₀} + R + s₁.heldIn U).tally t = ({v} + R + s.heldIn ({t₀} ∪ U)).tally t := by
  have hheld : s₁.heldIn U = s.heldIn U := heldIn_eq hw fun x hx hne => by
    rwa [count?_freed_of_ne hcount fun he => hU (he ▸ hx)]
  have hunion : s.heldIn ({t₀} ∪ U) = s.heldIn {t₀} + s.heldIn U :=
    sumOver_union _ _ (Finset.disjoint_singleton_left.mpr hU)
  have hother : Refs.tally {v} t = 0 := Refs.tally_singleton_of_ne fun he =>
    ht (Option.some.inj (he.symm.trans hv))
  simp only [hheld, hunion, Refs.tally_add, hother]
  omega

/-- The last reference to a slot is given up, and what the slot held comes next. -/
theorem Cascade.freed (h : Cascade s₁ (s.heldIn {t₀} + R) T s') (hsheds : Sheds s {t₀} s₁)
    (hw : Wanes s s₁) (hbounds : s.Bounds ({v} + R)) (hone : s.heap.count? t₀ = some 1) :
    Cascade s ({v} + R) ({t₀} ∪ T) s' := by
  have hfree : s₁.heap.count? t₀ = none := by rw [hcount, if_pos rfl]
  have hnot : t₀ ∉ T := fun ht => h.live t₀ ht hfree
  refine ⟨fun t ht => ?_, fun U hU => ?_, fun t => ?_, ?_⟩
  · rcases Finset.mem_union.mp ht with ht | ht
    · rw [Finset.mem_singleton.mp ht, hone]
      nofun
    · rw [← count?_freed_of_ne hcount fun he => hnot (he ▸ ht)]
      exact h.live t ht
  · have hmem : t₀ ∈ U := by
      refine hU t₀ ?_
      have hle := hbounds U t₀ 1 hone
      unfold Bereft
      rw [hone]
      simp only [Refs.tally_add, Refs.tally_singleton, hv, if_true] at hle ⊢
      exact congrArg some (by omega)
    refine Finset.union_subset (Finset.singleton_subset_iff.mpr hmem) ?_
    refine (h.least (U.erase t₀) fun t ht => ?_).trans (Finset.erase_subset _ _)
    have hne : t ≠ t₀ := by
      rintro rfl
      rw [Bereft, hfree] at ht
      cases ht
    refine Finset.mem_erase.mpr ⟨hne, hU t ?_⟩
    unfold Bereft at ht ⊢
    rw [← count?_freed_of_ne hcount hne, ht, tally_freed hv hcount hw (Finset.notMem_erase _ _) hne,
      ← Finset.insert_eq, Finset.insert_erase hmem]
  · rw [h.count]
    by_cases he : t = t₀
    · subst he
      rw [if_neg hnot, hfree, if_pos (Finset.mem_union_left _ (Finset.mem_singleton_self t))]
      rfl
    · rw [count?_freed_of_ne hcount he, tally_freed hv hcount hw hnot he]
      simp only [Finset.mem_union, Finset.mem_singleton, he, false_or]
  · refine hsheds.trans h.sheds hw (fun t ht => ?_) h.live
    rw [Finset.mem_singleton.mp ht, hfree]

end Freed

end

end Store

section

variable {s s' : Store} {F : Refs} {C : Charges} {q : Option Closing} {work : List Value}

/-- Draining a stack of references frees the least set that belongs to them. -/
theorem cascade_drain {u : Unit} (ha : Account.Kept ⟨s, ↑work + F, 0, none⟩)
    (h : drain work s = .ok (u, s')) : ∃ T, Cascade s ↑work T s' := by
  replace h := drain_eq_ok h
  induction h with
  | done s => exact ⟨∅, .refl s Refs.tally_zero⟩
  | @drop v children rest s s₁ s' hd _ ih =>
    rw [Refs.cons_add] at ha
    have hstep : Step .still ⟨s, {v} + (↑rest + F), 0, none⟩
        ⟨s₁, ↑children + (↑rest + F), 0, none⟩ :=
      .traffic (.drop hd)
    have hkept := hstep.kept ha
    have hwork : (↑(children.reverse ++ rest) : Refs) = ↑children + ↑rest := by
      rw [← Multiset.coe_add, Multiset.coe_reverse]
    rw [← add_assoc, ← hwork] at hkept
    obtain ⟨T, hT⟩ := ih hkept
    rw [hwork] at hT
    have hs := ha.accounted.stored
    have hb := ha.accounted.balanced
    rw [Account.refs_between] at hb
    have hbounds : s.Bounds ({v} + ↑rest) := .of_balanced hs (by rwa [← add_assoc] at hb)
    have hw := (dropReference_eq_ok hd).wanes hs
    rw [← Multiset.cons_coe, ← Multiset.singleton_add]
    obtain ⟨T₀, hyields, hsheds⟩ := dropReference_yields hs ha.listed
      (by rwa [add_left_comm s.refs] at hb) hd
    cases hyields with
    | kept hcount =>
      rw [Multiset.coe_nil, zero_add] at hT
      exact ⟨T, hT.kept hsheds hw hbounds hcount⟩
    | freed hv hone hcount hheld =>
      rw [hheld] at hT
      exact ⟨_, Cascade.freed hv hcount hT hsheds hw hbounds hone⟩

/-- Giving up a reference in hand frees the least set that belongs to it. -/
theorem cascade_release {v : Value} {u : Unit} (ha : Account.Kept ⟨s, F, 0, none⟩)
    (hv : F.Covers v) (h : release v s = .ok (u, s')) :
    Wanes s s' ∧ ∃ T, Cascade s {v} T s' := by
  by_cases hc : v.isCounted = true
  · have hF : F = ↑[v] + F.erase v := by
      rw [Multiset.coe_singleton, Multiset.singleton_add, Multiset.cons_erase (hv hc)]
    rw [release_eq] at h
    rw [hF] at ha
    exact ⟨wanes_releaseAll ha.accounted.stored h, cascade_drain ha h⟩
  · unfold release at h
    rw [if_neg hc] at h
    obtain ⟨-, rfl⟩ := StoreM.pure_eq_ok.mp h
    refine ⟨.refl s, ∅, .refl s fun t => Refs.tally_singleton_of_ne fun ht => hc ?_⟩
    exact Value.isCounted_iff.mpr ⟨t, ht⟩

/-! ## Lists and imports -/

variable {R : Refs} {T : Finset Target} {id : ContainerId}

/-- A slot is in use afterwards if it was and is not freed. -/
theorem Store.Cascade.count?_eq_none (h : Cascade s R T s') {t : Target} :
    s'.heap.count? t = none ↔ t ∈ T ∨ s.heap.count? t = none := by
  rw [h.count]
  by_cases ht : t ∈ T
  · simp [ht]
  · simp [ht, Option.map_eq_none_iff]

/-- What is not freed has its content. -/
theorem Store.Cascade.content? (h : Cascade s R T s') (hw : Wanes s s')
    (hid : .container id ∉ T) : s'.content? id = s.content? id := by
  by_cases hnone : s'.heap.count? (.container id) = none
  · have hold := (h.count?_eq_none.mp hnone).resolve_left hid
    exact (contentAt?_eq_none hnone).trans (contentAt?_eq_none hold).symm
  · exact hw.contentAt? hnone

/-- What is freed leaves the sweep lists. -/
theorem Store.Cascade.sweepList (h : Cascade s R T s') (hw : Wanes s s')
    (ha : Account.Kept ⟨s, F, C, q⟩) {F' : Refs} {C' : Charges} {q' : Option Closing}
    (ha' : Account.Kept ⟨s', F', C', q'⟩) (ds : DataspaceId) :
    ∃ vs, s.sweepList ds = .ok vs ∧
      s'.sweepList ds = .ok (vs.filter fun v => ∀ t ∈ T, v.target? ≠ some t) := by
  have hbare := hw.dataspace ds
  cases hd : s.dataspace? ds with
  | none =>
    rw [hd] at hbare
    have hd' := Option.map_eq_none_iff.mp hbare
    refine ⟨[], ?_, ?_⟩
    · unfold Store.sweepList
      rw [hd]
      cases s.heap.containers.cells.size <;> rfl
    · unfold Store.sweepList
      rw [hd']
      cases s'.heap.containers.cells.size <;> rfl
  | some d =>
    obtain ⟨ids, hids, -⟩ := exists_strand ha hd
    obtain ⟨head', hhead', hids'⟩ := h.sheds.strand (congrArg (Option.map Dataspace.head) hd) hids
    obtain ⟨d', hd', rfl⟩ := Option.map_eq_some_iff.mp hhead'
    refine ⟨_, sweepList_eq ha hd hids, ?_⟩
    rw [sweepList_eq ha' hd' hids', List.filter_map]
    refine congrArg Except.ok ?_
    have hfilter : ids.filter (Target.container · ∉ T) =
        ids.filter ((fun v => decide (∀ t ∈ T, v.target? ≠ some t)) ∘ s.handleAt) := by
      refine List.filter_congr fun x hx => ?_
      obtain ⟨l, hl⟩ := hids.linked x hx
      obtain ⟨c, hc, -⟩ := Option.map_eq_some_iff.mp hl
      have htarget : (Value.ofContainer c.kind x).target? = some (.container x) := rfl
      simp only [Function.comp_apply, handleAt_of_container hc, htarget, decide_eq_decide, ne_eq,
        Option.some.injEq]
      exact ⟨fun hnot t ht he => hnot (he ▸ ht), fun hall hx => hall _ hx rfl⟩
    rw [← hfilter]
    refine List.map_congr_left fun x hx => ?_
    obtain ⟨l, hl⟩ := hids'.linked x hx
    obtain ⟨c', hc', -⟩ := Option.map_eq_some_iff.mp hl
    obtain ⟨c, hc, hcore⟩ := hw.container x c' hc'
    rw [handleAt_of_container hc', handleAt_of_container hc, Container.kind_of_core hcore]

theorem Store.isForeign_eq_content (s : Store) (ds : DataspaceId) (id : ContainerId) :
    s.isForeign ds id = (s.content? id).any fun x => x.owner ≠ ds := by
  unfold isForeign Store.content?
  cases s.container? id <;> rfl

/-- What does not exist owns nothing. -/
theorem Store.heldFor_of_none (hl : s.Listed) {ds : DataspaceId} (hd : s.dataspace? ds = none)
    (T : Finset Target) : s.heldFor ds T = 0 := by
  refine Finset.sum_eq_zero fun t _ => ?_
  cases hx : s.contentAt? t with
  | none => rfl
  | some x =>
    cases t with
    | string id => cases hx
    | container id =>
      obtain ⟨c, hc, rfl⟩ := content?_eq_some.mp hx
      have hne : c.owner ≠ ds := by
        rintro rfl
        obtain ⟨head, hhead⟩ := hl.owner (links?_of_container hc)
        have hhead : (s.dataspace? c.owner).map Dataspace.head = some head := hhead
        rw [hd] at hhead
        cases hhead
      exact if_neg hne

/-- To what is free no slot refers. -/
theorem Account.Kept.tally_slots_of_free (ha : Account.Kept ⟨s, F, C, q⟩)
    (hid : s.heap.count? (.container id) = none) (ds : DataspaceId) :
    (s.slots ds).tally (.container id) = 0 := by
  have hall := ha.accounted.balanced.free_iff.mp hid
  have hle := Account.tally_slots_le ⟨s, F, C, q⟩ ds (.container id)
  rw [hall, Refs.tally_add] at hle
  dsimp only at hle
  omega

/-- Imports go down by what the freed containers held for their owner. -/
theorem Store.Cascade.importCount (h : Cascade s R T s') (hw : Wanes s s')
    (ha : Account.Kept ⟨s, F, 0, none⟩) {F' : Refs} (ha' : Account.Kept ⟨s', F', 0, none⟩)
    (ds : DataspaceId) (shape : Shape) (id : ContainerId) :
    s.importCount ds (.container shape id) = s'.importCount ds (.container shape id) +
      if s.isForeign ds id then (s.heldFor ds T).tally (.container id) else 0 := by
  have hbare := hw.dataspace ds
  have hslots := Refs.tally_eq (h.sheds.slots ds) (.container id)
  rw [Refs.tally_add] at hslots
  unfold Store.importCount
  cases hd : s.dataspace? ds with
  | none =>
    rw [hd] at hbare
    rw [Option.map_eq_none_iff.mp hbare, heldFor_of_none ha.listed hd]
    simp [Value.containerId?]
  | some d =>
    rw [hd] at hbare
    obtain ⟨d', hd', -⟩ := Option.map_eq_some_iff.mp hbare
    have hcount := ha.imported.count id hd
    have hcount' := ha'.imported.count id hd'
    simp only [Charges.at_zero, add_zero] at hcount hcount'
    rw [hd']
    show d.imports.getD id 0 = d'.imports.getD id 0 + _
    rw [hcount, hcount']
    by_cases hid : .container id ∈ T
    · have hfree := h.count?_eq_none.mpr (.inl hid)
      have hgone : s'.isForeign ds id = false := by
        have hnone : s'.container? id = none := Option.map_eq_none_iff.mp hfree
        rw [isForeign, hnone]
        rfl
      rw [hgone, ← hslots, ha'.tally_slots_of_free hfree ds]
      simp
    · have hsame : s'.isForeign ds id = s.isForeign ds id := by
        rw [isForeign_eq_content, isForeign_eq_content, h.content? hw hid]
      rw [hsame]
      split
      · exact hslots.symm
      · rfl

end

end PlaneStore
