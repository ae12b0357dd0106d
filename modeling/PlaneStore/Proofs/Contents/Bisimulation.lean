import Mathlib.Data.Finset.Prod
import Mathlib.Data.List.Forall2
import Mathlib.Logic.Relation
import PlaneStore.Proofs.Contents.ListedElements

/-!
# Deep equality is bisimilarity

Two values are bisimilar if some relation between them goes by elements: what it relates are the
same values, or containers of one kind whose elements it relates one by one. A deep comparison
decides this. It takes pairs of containers for equal that it has met before, so the pairs that it
has met are a relation that goes by elements in the end; and as there are no more pairs than pairs
of slots, it comes to an end.
-/

namespace PlaneStore

open Store

/-! ## Relations that go by elements -/

/-- Values that are the same, or containers of one kind whose elements a relation relates. -/
inductive Store.Matches (s : Store) (R : Value → Value → Prop) : Value → Value → Prop
  | plain {u v : Value} (hu : u.containerId? = none) (hv : v.containerId? = none)
      (h : s.heap.identity u = s.heap.identity v) : Matches s R u v
  | slot (shape shape' : Shape) (id : ContainerId) :
      Matches s R (.container shape id) (.container shape' id)
  | elements {shape shape' : Shape} {x y : ContainerId} {c d : Container} {xs ys : List Value}
      (hc : s.container? x = some c) (hd : s.container? y = some d) (hkind : c.kind = d.kind)
      (hxs : s.listing? x = some xs) (hys : s.listing? y = some ys) (h : List.Forall₂ R xs ys) :
      Matches s R (.container shape x) (.container shape' y)

/-- A relation that goes by elements. -/
def Store.Bisimulates (s : Store) (R : Value → Value → Prop) : Prop :=
  ∀ u v, R u v → s.Matches R u v

/-- Values that some relation relates which goes by elements. -/
def Store.Bisimilar (s : Store) (u v : Value) : Prop := ∃ R, s.Bisimulates R ∧ R u v

namespace Store

variable {s : Store} {R R' : Value → Value → Prop} {u v w : Value}

theorem Matches.mono (h : s.Matches R u v) (hR : ∀ u v, R u v → R' u v) : s.Matches R' u v := by
  cases h with
  | plain hu hv h => exact .plain hu hv h
  | slot shape shape' id => exact .slot shape shape' id
  | elements hc hd hkind hxs hys h => exact .elements hc hd hkind hxs hys (h.imp hR)

theorem Bisimilar.matches (h : s.Bisimilar u v) : s.Matches s.Bisimilar u v := by
  obtain ⟨R, hR, huv⟩ := h
  refine (hR u v huv).mono ?_
  intro u v huv
  exact ⟨R, hR, huv⟩

theorem Matches.refl (v : Value) : s.Matches R v v := by
  cases v with
  | container shape id => exact .slot shape shape id
  | _ => exact .plain rfl rfl rfl

theorem Matches.plain_iff (h : s.Matches R u v) :
    u.containerId? = none ↔ v.containerId? = none := by
  cases h with
  | plain hu hv h => exact ⟨fun _ => hv, fun _ => hu⟩
  | slot | elements => exact ⟨nofun, nofun⟩

/-- Containers in different slots match by their elements. -/
theorem Matches.elements_of_ne {shape shape' : Shape} {x y : ContainerId} {c d : Container}
    {xs ys : List Value} (h : s.Matches R (.container shape x) (.container shape' y)) (hne : x ≠ y)
    (hc : s.container? x = some c) (hd : s.container? y = some d) (hxs : s.listing? x = some xs)
    (hys : s.listing? y = some ys) : c.kind = d.kind ∧ List.Forall₂ R xs ys := by
  cases h with
  | plain hu => cases hu
  | slot => exact absurd rfl hne
  | elements hc' hd' hkind hxs' hys' h =>
    obtain rfl := Option.some.inj (hc.symm.trans hc')
    obtain rfl := Option.some.inj (hd.symm.trans hd')
    obtain rfl := Option.some.inj (hxs.symm.trans hxs')
    obtain rfl := Option.some.inj (hys.symm.trans hys')
    exact ⟨hkind, h⟩

theorem Matches.swap (h : s.Matches R u v) : s.Matches (fun u v => R v u) v u := by
  cases h with
  | plain hu hv h => exact .plain hv hu h.symm
  | slot shape shape' id => exact .slot shape' shape id
  | elements hc hd hkind hxs hys h => exact .elements hd hc hkind.symm hys hxs h.flip

theorem forall₂_comp {us vs ws : List Value} (h : List.Forall₂ R us vs)
    (h' : List.Forall₂ R' vs ws) :
    List.Forall₂ (Relation.Comp R R') us ws := by
  induction h generalizing ws with
  | nil =>
    cases h'
    exact .nil
  | cons huv _ ih =>
    cases h' with
    | cons hvw h' => exact .cons ⟨_, huv, hvw⟩ (ih h')

/-- Matching is transitive, and so is what elements are related by. -/
theorem Matches.trans (h : s.Matches R u v) (h' : s.Matches R' v w) (hR : ∀ v, R v v)
    (hR' : ∀ v, R' v v) : s.Matches (Relation.Comp R R') u w := by
  cases h with
  | plain hu hv h =>
    cases h' with
    | plain _ hw h' => exact .plain hu hw (h.trans h')
    | slot | elements => cases hv
  | slot shape shape' id =>
    cases h' with
    | plain hv => cases hv
    | slot => exact .slot _ _ _
    | elements hc hd hkind hxs hys h =>
      refine .elements hc hd hkind hxs hys (h.imp ?_)
      intro u v huv
      exact ⟨u, hR u, huv⟩
  | elements hc hd hkind hxs hys h =>
    cases h' with
    | plain hv => cases hv
    | slot =>
      refine .elements hc hd hkind hxs hys (h.imp ?_)
      intro u v huv
      exact ⟨v, huv, hR' v⟩
    | elements hd' he hkind' hys' hzs h' =>
      obtain rfl := Option.some.inj (hd.symm.trans hd')
      obtain rfl := Option.some.inj (hys.symm.trans hys')
      refine .elements hc he (hkind.trans hkind') hxs hzs ?_
      exact forall₂_comp h h'

/-- Bisimilarity is an equivalence. -/
theorem bisimilar_equivalence (s : Store) : Equivalence s.Bisimilar := by
  have hrefl : ∀ v, s.Bisimilar v v := by
    intro v
    refine ⟨Eq, ?_, rfl⟩
    rintro u v rfl
    exact .refl u
  constructor
  · exact hrefl
  · rintro u v ⟨R, hR, huv⟩
    refine ⟨fun u v => R v u, ?_, huv⟩
    intro u v hvu
    exact (hR v u hvu).swap
  · intro u v w huv hvw
    refine ⟨Relation.Comp s.Bisimilar s.Bisimilar, ?_, v, huv, hvw⟩
    rintro u w ⟨v, huv, hvw⟩
    exact huv.matches.trans hvw.matches hrefl hrefl

/-! ## Deciding it -/

/--
Deciding whether all pairs of a list are bisimilar, by what a store lists. Pairs of containers that
were met before count as equal.
-/
inductive Decides (s : Store) :
    List (ContainerId × ContainerId) → List (Value × Value) → Bool → Prop
  | done (seen : List (ContainerId × ContainerId)) : Decides s seen [] true
  | same {seen : List (ContainerId × ContainerId)} {work : List (Value × Value)} {u v : Value}
      {b : Bool} (hu : u.containerId? = none) (hv : v.containerId? = none)
      (h : s.heap.identity u = s.heap.identity v) (hrest : Decides s seen work b) :
      Decides s seen ((u, v) :: work) b
  | met {seen : List (ContainerId × ContainerId)} {work : List (Value × Value)} {b : Bool}
      {shape shape' : Shape} {x y : ContainerId} (h : x = y ∨ (x, y) ∈ seen)
      (hrest : Decides s seen work b) :
      Decides s seen ((.container shape x, .container shape' y) :: work) b
  | into {seen : List (ContainerId × ContainerId)} {work : List (Value × Value)} {b : Bool}
      {shape shape' : Shape} {x y : ContainerId} {c d : Container} {xs ys : List Value}
      (hne : x ≠ y) (hc : s.container? x = some c) (hd : s.container? y = some d)
      (hkind : c.kind = d.kind) (hxs : s.listing? x = some xs) (hys : s.listing? y = some ys)
      (hlength : xs.length = ys.length)
      (hrest : Decides s ((x, y) :: seen) ((xs.zip ys).reverse ++ work) b) :
      Decides s seen ((.container shape x, .container shape' y) :: work) b
  | apart {seen : List (ContainerId × ContainerId)} {work : List (Value × Value)} {u v : Value}
      (h : ¬s.Matches (fun _ _ => True) u v) : Decides s seen ((u, v) :: work) false

variable {seen seen' : List (ContainerId × ContainerId)} {work : List (Value × Value)} {b : Bool}

/-- If a relation goes by elements, it relates no pairs that are told apart. -/
theorem Decides.complete (h : s.Decides seen work b) (hR : s.Bisimulates R)
    (hwork : ∀ p ∈ work, R p.1 p.2) : b = true := by
  induction h with
  | done => rfl
  | same hu hv h hrest ih => exact ih (List.forall_mem_cons.mp hwork).2
  | met h hrest ih => exact ih (List.forall_mem_cons.mp hwork).2
  | into hne hc hd hkind hxs hys hlength hrest ih =>
    obtain ⟨hxy, hwork⟩ := List.forall_mem_cons.mp hwork
    refine ih fun p hp => ?_
    rcases List.mem_append.mp hp with hp | hp
    · obtain ⟨-, h⟩ := (hR _ _ hxy).elements_of_ne hne hc hd hxs hys
      exact (List.forall₂_iff_zip.mp h).2 (List.mem_reverse.mp hp)
    · exact hwork p hp
  | apart h =>
    have hmatches := hR _ _ (List.forall_mem_cons.mp hwork).1
    exact absurd (hmatches.mono fun _ _ _ => trivial) h

/-- What counts as equal, given pairs of containers that do. -/
inductive Assumes (s : Store) (seen : List (ContainerId × ContainerId)) : Value → Value → Prop
  | plain {u v : Value} (hu : u.containerId? = none) (hv : v.containerId? = none)
      (h : s.heap.identity u = s.heap.identity v) : Assumes s seen u v
  | met {shape shape' : Shape} {x y : ContainerId} (h : x = y ∨ (x, y) ∈ seen) :
      Assumes s seen (.container shape x) (.container shape' y)

/-- Pairs that are not told apart are equal, given all pairs of containers that are met. -/
theorem Decides.sound (h : s.Decides seen work b) (hb : b = true) :
    ∃ seen', seen ⊆ seen' ∧ (∀ p ∈ work, s.Assumes seen' p.1 p.2) ∧
      ∀ x y, (x, y) ∈ seen' → (x, y) ∈ seen ∨ ∀ shape shape',
        s.Matches (s.Assumes seen') (.container shape x) (.container shape' y) := by
  induction h with
  | done seen => exact ⟨seen, List.Subset.refl _, nofun, fun x y h => .inl h⟩
  | same hu hv h hrest ih =>
    obtain ⟨seen', hsub, hwork, hmet⟩ := ih hb
    exact ⟨seen', hsub, List.forall_mem_cons.mpr ⟨.plain hu hv h, hwork⟩, hmet⟩
  | met h hrest ih =>
    obtain ⟨seen', hsub, hwork, hmet⟩ := ih hb
    refine ⟨seen', hsub, List.forall_mem_cons.mpr ⟨.met ?_, hwork⟩, hmet⟩
    exact h.imp_right fun h => hsub h
  | @into seen work b shape shape' x y c d xs ys hne hc hd hkind hxs hys hlength hrest ih =>
    obtain ⟨seen', hsub, hwork, hmet⟩ := ih hb
    obtain ⟨hxy, hsub⟩ := List.cons_subset.mp hsub
    refine ⟨seen', hsub, List.forall_mem_cons.mpr ⟨.met (.inr hxy), fun p hp => ?_⟩,
      fun x' y' h => ?_⟩
    · exact hwork p (List.mem_append_right _ hp)
    · rcases hmet x' y' h with h | h
      · rcases List.mem_cons.mp h with heq | h
        · -- The elements of the pair that was looked into were to be compared next.
          obtain ⟨rfl, rfl⟩ := Prod.mk.inj heq
          refine .inr fun _ _ => .elements hc hd hkind hxs hys ?_
          refine List.forall₂_iff_zip.mpr ⟨hlength, fun hp => ?_⟩
          exact hwork _ (List.mem_append_left _ (List.mem_reverse.mpr hp))
        · exact .inl h
      · exact .inr h
  | apart => cases hb

/-- Whatever is decided, the values are bisimilar or they are not. -/
theorem Decides.iff (h : s.Decides [] [(u, v)] b) : b = true ↔ s.Bisimilar u v := by
  constructor
  · intro hb
    obtain ⟨seen, -, hwork, hmet⟩ := h.sound hb
    refine ⟨s.Assumes seen, ?_, hwork _ (.head _)⟩
    intro u v huv
    cases huv with
    | plain hu hv h => exact .plain hu hv h
    | met h =>
      rcases h with rfl | h
      · exact .slot _ _ _
      · exact (hmet _ _ h).resolve_left List.not_mem_nil _ _
  · rintro ⟨R, hR, huv⟩
    refine h.complete hR fun p hp => ?_
    obtain rfl := List.mem_singleton.mp hp
    exact huv

end Store

/-! ## Comparing -/

section

variable {s₀ s s' : Store} {F : Refs} {C : Charges} {q : Option Closing} {n : Nat}
  {seen : List (ContainerId × ContainerId)} {work : List (Value × Value)} {u v : Value}
  {x y : ContainerId} {c d : Container} {shape shape' : Shape}

/-- There are no more pairs than pairs of slots. -/
theorem length_le_pairs {k : Nat} (hn : seen.Nodup)
    (hlt : ∀ p ∈ seen, p.1.slot < k ∧ p.2.slot < k) : seen.length ≤ k * k := by
  have hinj : Function.Injective fun p : ContainerId × ContainerId => (p.1.slot, p.2.slot) := by
    rintro ⟨⟨i⟩, ⟨j⟩⟩ ⟨⟨i'⟩, ⟨j'⟩⟩ h
    obtain ⟨rfl, rfl⟩ := Prod.mk.inj h
    rfl
  have hsub : (seen.map fun p => (p.1.slot, p.2.slot)).toFinset ⊆
      Finset.range k ×ˢ Finset.range k := by
    intro r hr
    obtain ⟨p, hp, rfl⟩ := List.mem_map.mp (List.mem_toFinset.mp hr)
    obtain ⟨h₁, h₂⟩ := hlt p hp
    exact Finset.mem_product.mpr ⟨Finset.mem_range.mpr h₁, Finset.mem_range.mpr h₂⟩
  have hcard := Finset.card_le_card hsub
  rwa [List.toFinset_card_of_nodup (hn.map hinj), List.length_map, Finset.card_product,
    Finset.card_range] at hcard

/-- How many more pairs of containers may be looked into after those that were met. -/
structure Store.Allows (s : Store) (n : Nat) (seen : List (ContainerId × ContainerId)) : Prop where
  total : n + seen.length = s.heap.containers.cells.size * s.heap.containers.cells.size
  nodup : seen.Nodup
  slots : ∀ p ∈ seen,
    p.1.slot < s.heap.containers.cells.size ∧ p.2.slot < s.heap.containers.cells.size

/-- There is always room for one more pair. -/
theorem Store.Allows.next (h : s.Allows n seen) (hc : s.container? x = some c)
    (hd : s.container? y = some d) (hnew : (x, y) ∉ seen) :
    ∃ m, n = m + 1 ∧ s.Allows m ((x, y) :: seen) := by
  have hnodup : ((x, y) :: seen).Nodup := List.nodup_cons.mpr ⟨hnew, h.nodup⟩
  have hslots : ∀ p ∈ (x, y) :: seen,
      p.1.slot < s.heap.containers.cells.size ∧ p.2.slot < s.heap.containers.cells.size := by
    refine List.forall_mem_cons.mpr ⟨⟨?_, ?_⟩, h.slots⟩
    · exact (Slab.get?_eq_some.mp hc).1
    · exact (Slab.get?_eq_some.mp hd).1
  have hle := length_le_pairs hnodup hslots
  have htotal := h.total
  rw [List.length_cons] at hle
  refine ⟨n - 1, by omega, ?_, hnodup, hslots⟩
  rw [List.length_cons]
  omega

/-! ### What is compared -/

/-- What a value addresses whose turn comes is there, and is of the kind that it was of. -/
theorem Store.Holds.exists_container (h : s.Holds (Effect.Compares s₀) F (.container shape x))
    (ha : Account.Kept ⟨s, F, C, q⟩) (hm : Marks s₀ s) :
    ∃ c c', s₀.container? x = some c ∧ s.container? x = some c' ∧ c'.kind = c.kind ∧
      c.kind.shape = shape := by
  obtain ⟨c', hc'⟩ := (h.there ha).exists_container
  obtain ⟨c, hc, -, hkind⟩ := hm.container x c' hc'
  exact ⟨c, c', hc, hc', hkind, hkind ▸ h.fits ha shape x c' rfl hc'⟩

/--
When the turn of a container comes it can be listed, and its elements are those that it had when the
comparison began.
-/
theorem exists_elementsOf (ha₀ : Account.Kept ⟨s₀, F, C, q⟩)
    (hpath : Path (Effect.Compares s₀) ⟨s₀, F, C, q⟩ ⟨s, F, C, q⟩)
    (hx : s.Holds (Effect.Compares s₀) F (.container shape x)) :
    ∃ values s', elementsOf shape x s = .ok (values, s') ∧
      Path (Effect.Compares s₀) ⟨s, F, C, q⟩ ⟨s', F, C, q⟩ ∧
      s₀.listing? x = some values.toList ∧
      ∀ v ∈ values, s'.Holds (Effect.Compares s₀) F v := by
  have ha := hpath.kept ha₀
  have hm := hpath.marks ha₀ Effect.Compares.calm
  obtain ⟨c, c', hc, hc', hkind, rfl⟩ := hx.exists_container ha hm
  have hscrub : c.kind.shape ≠ .mapping → (Effect.scrub x).Compares s₀ := by
    intro hs d hd hk
    obtain rfl := Option.some.inj (hc.symm.trans hd)
    exact hs (by rw [hk]; rfl)
  have hmerge : c.kind.shape = .mapping → ¬(Effect.scrub x).Compares s₀ := by
    intro hs hcompares
    exact hcompares c hc (hkind ▸ (hs ▸ hx.fits ha).mapping hc')
  obtain ⟨values, s', h, hpath', hvalues⟩ :=
    succeeds_elementsOf ha Effect.Compares.tends trivial hscrub hmerge hx
  refine ⟨values, s', h, hpath', ?_, hvalues⟩
  rw [← hpath.listing ha₀ (.refl s₀) (content?_of_container hc')]
  exact elementsOf_lists ha (hx.fits ha) h

/-! ### One pair after the other -/

/-- A pair that was met before, or of one container with itself, is passed over. -/
theorem allEqual_met (h : x = y ∨ (x, y) ∈ seen) :
    allEqual n seen ((.container shape x, .container shape' y) :: work) = allEqual n seen work := by
  rw [allEqual.eq_def]
  exact if_pos h

/-- Two values that are no containers are compared by identity. -/
theorem allEqual_plain (hu : u.containerId? = none) (hv : v.containerId? = none) :
    allEqual n seen ((u, v) :: work) = (do
      if ← readHeap (·.same u v) then allEqual n seen work else return false) := by
  rw [allEqual.eq_def]
  cases u with
  | container => cases hu
  | _ =>
    cases v with
    | container => cases hv
    | _ => rfl

theorem allEqual_left (hv : v.containerId? = none) :
    allEqual n seen ((.container shape x, v) :: work) = pure false := by
  rw [allEqual.eq_def]
  cases v with
  | container => cases hv
  | _ => rfl

theorem allEqual_right (hu : u.containerId? = none) :
    allEqual n seen ((u, .container shape' y) :: work) = pure false := by
  rw [allEqual.eq_def]
  cases u with
  | container => cases hu
  | _ => rfl

/-- Containers are of the same kind if they say so. -/
theorem sameKind_of_container (hc : s.container? x = some c) (hd : s.container? y = some d) :
    sameKind x y s = .ok (decide (c.kind = d.kind), s) := by
  refine StoreM.readHeap_eq_ok.mpr ⟨?_, rfl⟩
  exact Fallible.bind_eq_ok.mpr ⟨c, Heap.get_eq_ok.mpr hc,
    Fallible.bind_eq_ok.mpr ⟨d, Heap.get_eq_ok.mpr hd, rfl⟩⟩

/-- Containers that differ in kind are told apart at once. -/
theorem allEqual_unlike (hnew : ¬(x = y ∨ (x, y) ∈ seen)) (hc : s.container? x = some c)
    (hd : s.container? y = some d) (hkind : c.kind ≠ d.kind) :
    allEqual n seen ((.container shape x, .container shape' y) :: work) s = .ok (false, s) := by
  rw [allEqual.eq_def]
  dsimp only
  rw [if_neg hnew]
  split
  · rfl
  · refine StoreM.bind_eq_ok.mpr ⟨false, s, ?_, rfl⟩
    rw [sameKind_of_container hc hd, decide_eq_false hkind]

/-- The elements of containers of one kind come next, if they are as many. -/
theorem allEqual_into {xs ys : Array Value} {s₁ s₂ : Store} {b : Bool}
    (hnew : ¬(x = y ∨ (x, y) ∈ seen)) (hc : s.container? x = some c)
    (hd : s.container? y = some d) (hkind : c.kind = d.kind)
    (hxs : elementsOf shape x s = .ok (xs, s₁)) (hys : elementsOf shape y s₁ = .ok (ys, s₂))
    (h : (if xs.size ≠ ys.size then return false
      else allEqual n ((x, y) :: seen) ((xs.toList.zip ys.toList).reverse ++ work) : StoreM Bool) s₂
      = .ok (b, s')) :
    allEqual (n + 1) seen ((.container shape x, .container shape y) :: work) s = .ok (b, s') := by
  rw [allEqual.eq_def]
  dsimp only
  rw [if_neg hnew, if_neg (not_not.mpr rfl)]
  refine StoreM.bind_eq_ok.mpr ⟨true, s, ?_, ?_⟩
  · rw [sameKind_of_container hc hd, decide_eq_true hkind]
  · exact StoreM.bind_eq_ok.mpr ⟨xs, s₁, hxs, StoreM.bind_eq_ok.mpr ⟨ys, s₂, hys, h⟩⟩

/-! ### All of them -/

/--
A comparison that comes to an end, and decides the pairs of a list by what a store listed when it
began.
-/
def Store.Settles (s₀ : Store) (F : Refs) (C : Charges) (q : Option Closing) (n : Nat)
    (seen : List (ContainerId × ContainerId)) (work : List (Value × Value)) (s : Store) : Prop :=
  ∃ b s', allEqual n seen work s = .ok (b, s') ∧
    Path (Effect.Compares s₀) ⟨s₀, F, C, q⟩ ⟨s', F, C, q⟩ ∧ s₀.Decides seen work b

namespace Store.Settles

/-- Values that differ end it. -/
theorem apart (hpath : Path (Effect.Compares s₀) ⟨s₀, F, C, q⟩ ⟨s, F, C, q⟩)
    (hfalse : allEqual n seen ((u, v) :: work) s = .ok (false, s))
    (h : ¬s₀.Matches (fun _ _ => True) u v) : s₀.Settles F C q n seen ((u, v) :: work) s :=
  ⟨false, s, hfalse, hpath, .apart h⟩

/-- The comparison settles two values that are no containers by their identity. -/
theorem plain (ha₀ : Account.Kept ⟨s₀, F, C, q⟩)
    (hpath : Path (Effect.Compares s₀) ⟨s₀, F, C, q⟩ ⟨s, F, C, q⟩)
    (hu : s.Holds (Effect.Compares s₀) F u) (hv : s.Holds (Effect.Compares s₀) F v)
    (hcu : u.containerId? = none) (hcv : v.containerId? = none)
    (hrest : s₀.Settles F C q n seen work s) : s₀.Settles F C q n seen ((u, v) :: work) s := by
  have ha := hpath.kept ha₀
  -- The walk changes no identity, so the comparison reads what the first store would have said.
  have hidentity : ∀ w, s.Holds (Effect.Compares s₀) F w →
      s.heap.identity w = s₀.heap.identity w := by
    intro w hw
    exact (hpath.stands ha₀ Effect.Compares.calm hw.covers).identity
  obtain ⟨r, hr⟩ := Heap.faultless_same (hu.there ha) (hv.there ha)
  have hread : readHeap (·.same u v) s = .ok (r, s) := StoreM.readHeap_eq_ok.mpr ⟨hr, rfl⟩
  have hsame := Heap.same_eq_ok hr
  rw [hidentity u hu, hidentity v hv] at hsame
  cases r with
  | true =>
    obtain ⟨b, s', h, hpath', hdecides⟩ := hrest
    refine ⟨b, s', ?_, hpath', .same hcu hcv (of_decide_eq_true hsame.symm) hdecides⟩
    rw [allEqual_plain hcu hcv]
    exact StoreM.bind_eq_ok.mpr ⟨true, s, hread, h⟩
  | false =>
    refine .apart hpath ?_ ?_
    · rw [allEqual_plain hcu hcv]
      exact StoreM.bind_eq_ok.mpr ⟨false, s, hread, rfl⟩
    · intro hmatches
      cases hmatches with
      | plain _ _ h => exact of_decide_eq_false hsame.symm h
      | slot | elements => cases hcu

/-- The comparison settles what it passes over, for that was or is being compared. -/
theorem met (h : x = y ∨ (x, y) ∈ seen) (hrest : s₀.Settles F C q n seen work s) :
    s₀.Settles F C q n seen ((.container shape x, .container shape' y) :: work) s := by
  obtain ⟨b, s', hb, hpath, hdecides⟩ := hrest
  refine ⟨b, s', ?_, hpath, .met h hdecides⟩
  rwa [allEqual_met h]

/--
A new pair of containers settles, if all pairs that are left do once their elements are among them.
-/
theorem into (ha₀ : Account.Kept ⟨s₀, F, C, q⟩)
    (hpath : Path (Effect.Compares s₀) ⟨s₀, F, C, q⟩ ⟨s, F, C, q⟩) (hroom : s₀.Allows n seen)
    (hx : s.Holds (Effect.Compares s₀) F (.container shape x))
    (hy : s.Holds (Effect.Compares s₀) F (.container shape' y)) (hnew : ¬(x = y ∨ (x, y) ∈ seen))
    (hrest : ∀ m s' (xs ys : Array Value), m < n → s₀.Allows m ((x, y) :: seen) →
      Path (Effect.Compares s₀) ⟨s, F, C, q⟩ ⟨s', F, C, q⟩ →
      (∀ v ∈ xs, s'.Holds (Effect.Compares s₀) F v) →
      (∀ v ∈ ys, s'.Holds (Effect.Compares s₀) F v) →
      s₀.Settles F C q m ((x, y) :: seen) ((xs.toList.zip ys.toList).reverse ++ work) s') :
    s₀.Settles F C q n seen ((.container shape x, .container shape' y) :: work) s := by
  have ha := hpath.kept ha₀
  have hm := hpath.marks ha₀ Effect.Compares.calm
  obtain ⟨hne, hunmet⟩ := not_or.mp hnew
  obtain ⟨c, c', hc, hc', hkindc, rfl⟩ := hx.exists_container ha hm
  obtain ⟨d, d', hd, hd', hkindd, rfl⟩ := hy.exists_container ha hm
  by_cases hkind : c.kind = d.kind
  · obtain ⟨xs, s₁, hxs, hpath₁, hlistx, hholdx⟩ := exists_elementsOf ha₀ hpath hx
    have ha₁ := hpath₁.kept ha
    have hy₁ := hy.path ha Effect.Compares.tends hpath₁
    obtain ⟨ys, s₂, hys, hpath₂, hlisty, hholdy⟩ := exists_elementsOf ha₀ (hpath.trans hpath₁) hy₁
    obtain ⟨m, rfl, hroom'⟩ := hroom.next hc hd hunmet
    rw [← hkind] at hys ⊢
    have hkind' : c'.kind = d'.kind := by rw [hkindc, hkindd, hkind]
    by_cases hsize : xs.size = ys.size
    · obtain ⟨b, s', h, hpath', hdecides⟩ := hrest m s₂ xs ys (Nat.lt_succ_self m) hroom'
        (hpath₁.trans hpath₂)
        (fun v hv => (hholdx v hv).path ha₁ Effect.Compares.tends hpath₂) hholdy
      refine ⟨b, s', ?_, hpath', .into hne hc hd hkind hlistx hlisty ?_ hdecides⟩
      · refine allEqual_into hnew hc' hd' hkind' hxs hys ?_
        rwa [if_neg (not_not.mpr hsize)]
      · rwa [Array.length_toList, Array.length_toList]
    · refine ⟨false, s₂, ?_, (hpath.trans hpath₁).trans hpath₂, .apart fun hmatches => ?_⟩
      · refine allEqual_into hnew hc' hd' hkind' hxs hys ?_
        rw [if_pos hsize]
        rfl
      · obtain ⟨-, h⟩ := hmatches.elements_of_ne hne hc hd hlistx hlisty
        exact hsize (by simpa using h.length_eq)
  · refine .apart hpath (allEqual_unlike hnew hc' hd' ?_) ?_
    · rwa [hkindc, hkindd]
    · intro hmatches
      cases hmatches with
      | plain hu => cases hu
      | slot => exact hne rfl
      | elements hc₁ hd₁ hsame =>
        obtain rfl := Option.some.inj (hc.symm.trans hc₁)
        obtain rfl := Option.some.inj (hd.symm.trans hd₁)
        exact hkind hsame

end Store.Settles

/--
All pairs of a list are decided, by what was listed when the comparison began. The values of a pair
are still there when their turn comes.
-/
theorem allEqual_settles (ha₀ : Account.Kept ⟨s₀, F, C, q⟩)
    (hpath : Path (Effect.Compares s₀) ⟨s₀, F, C, q⟩ ⟨s, F, C, q⟩) (hroom : s₀.Allows n seen)
    (hwork : ∀ p ∈ work, s.Holds (Effect.Compares s₀) F p.1 ∧ s.Holds (Effect.Compares s₀) F p.2) :
    s₀.Settles F C q n seen work s := by
  -- The bound falls with each pair that is met for the first time, the work with any other.
  induction n using Nat.strongRecOn generalizing s seen work with
  | ind n ihn =>
    induction work with
    | nil =>
      refine ⟨true, s, ?_, hpath, .done seen⟩
      rw [allEqual]
      rfl
    | cons p work ih =>
      obtain ⟨u, v⟩ := p
      obtain ⟨⟨hu, hv⟩, hrest⟩ := List.forall_mem_cons.mp hwork
      cases u with
      | container shape x =>
        cases v with
        | container shape' y =>
          by_cases hnew : x = y ∨ (x, y) ∈ seen
          · exact .met hnew (ih hrest)
          · refine .into ha₀ hpath hroom hu hv hnew fun m s' xs ys hlt hroom' hpath' hxs hys => ?_
            refine ihn m hlt (hpath.trans hpath') hroom' fun p hp => ?_
            rcases List.mem_append.mp hp with hp | hp
            · obtain ⟨hp₁, hp₂⟩ := List.of_mem_zip (List.mem_reverse.mp hp)
              exact ⟨hxs _ (Array.mem_toList_iff.mp hp₁), hys _ (Array.mem_toList_iff.mp hp₂)⟩
            · have ha := hpath.kept ha₀
              exact ⟨(hrest p hp).1.path ha Effect.Compares.tends hpath',
                (hrest p hp).2.path ha Effect.Compares.tends hpath'⟩
        | _ =>
          refine .apart hpath (by rw [allEqual_left rfl]; rfl) fun h => ?_
          cases h.plain_iff.mpr rfl
      | _ =>
        cases v with
        | container shape' y =>
          refine .apart hpath (by rw [allEqual_right rfl]; rfl) fun h => ?_
          cases h.plain_iff.mp rfl
        | _ => exact .plain ha₀ hpath hu hv rfl rfl (ih hrest)

/-- A deep comparison comes to an end, and tells whether values are bisimilar. -/
theorem exists_deepEqual (ha : Account.Kept ⟨s, F, C, q⟩) (hu : F.Covers u) (hv : F.Covers v) :
    ∃ b s', deepEqual u v s = .ok (b, s') ∧ Path (Effect.Compares s) ⟨s, F, C, q⟩ ⟨s', F, C, q⟩ ∧
      (b = true ↔ s.Bisimilar u v) := by
  have hroom : s.Allows (s.heap.containers.cells.size * s.heap.containers.cells.size) [] :=
    ⟨rfl, List.nodup_nil, nofun⟩
  have hholds : ∀ p ∈ [(u, v)],
      s.Holds (Effect.Compares s) F p.1 ∧ s.Holds (Effect.Compares s) F p.2 := by
    intro p hp
    obtain rfl := List.mem_singleton.mp hp
    exact ⟨.owned hu, .owned hv⟩
  obtain ⟨b, s', h, hpath, hdecides⟩ := allEqual_settles ha (.refl _) hroom hholds
  refine ⟨b, s', ?_, hpath, hdecides.iff⟩
  exact StoreM.bind_eq_ok.mpr ⟨s, s, StoreM.get_eq_ok.mpr ⟨rfl, rfl⟩, h⟩

/-- A deep comparison only tends to containers, and answers whether the values are bisimilar. -/
theorem walk_deepEqual {b : Bool} (ha : Account.Kept ⟨s, F, C, q⟩) (hu : F.Covers u)
    (hv : F.Covers v) (h : deepEqual u v s = .ok (b, s')) :
    Path (Effect.Compares s) ⟨s, F, C, q⟩ ⟨s', F, C, q⟩ ∧ (b = true ↔ s.Bisimilar u v) := by
  obtain ⟨b', t, h', hpath, hb⟩ := exists_deepEqual ha hu hv
  obtain ⟨rfl, rfl⟩ := Prod.mk.inj (Except.ok.inj (h.symm.trans h'))
  exact ⟨hpath, hb⟩

end

end PlaneStore
