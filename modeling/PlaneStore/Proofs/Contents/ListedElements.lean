import PlaneStore.Proofs.Contents.ContainerAnswers
import PlaneStore.Proofs.Mapping.EntryMap

/-!
# What the elements of a container are

Listing a container may load, merge or scrub it, yet what is listed can be told from what it holds
before: the elements of an array or record as a reader sees them, and the pairs of a mapping with
everything that is pending. It stays the same while containers are looked after, as long as no
mapping is compacted: a merge goes by the places of keys, and these do not change.
-/

namespace PlaneStore

open Store

/-! ## A merge goes by places -/

namespace Heap

variable {h h' : Heap}

/-- To sort pairs takes no more than the places of their keys. -/
theorem sortPairs_transport {ps qs qs' : List Pair} (hkeys : ∀ p ∈ ps, h'.place p.1 = h.place p.1)
    (hs : h.sortPairs ps = .ok qs) (hs' : h'.sortPairs ps = .ok qs') : qs' = qs := by
  obtain ⟨-, rfl⟩ := sortOn_eq_ok.mp hs
  obtain ⟨-, rfl⟩ := sortOn_eq_ok.mp hs'
  have hsame : ∀ p ∈ ps, ∀ q ∈ ps, h'.le p.1 q.1 = h.le (id p).1 (id q).1 := by
    intro p hp q hq
    exact le_congr (hkeys p hp) (hkeys q hq)
  have hmap := List.map_mergeSort (s := fun (p q : Pair) => h.le p.1 q.1) hsame
  rwa [List.map_id, List.map_id] at hmap

/-- To merge pairs takes no more than the places of their keys. -/
theorem mergePairs_transport {left right ps ps' : List Pair}
    (hl : ∀ p ∈ left, h'.place p.1 = h.place p.1) (hr : ∀ p ∈ right, h'.place p.1 = h.place p.1)
    (hm : h.mergePairs left right = .ok ps) (hm' : h'.mergePairs left right = .ok ps') :
    ps' = ps := by
  induction left, right using mergePairs.induct generalizing ps ps' with
  | case1 right =>
    rw [mergePairs] at hm hm'
    rw [← Fallible.pure_eq_ok.mp hm, ← Fallible.pure_eq_ok.mp hm']
  | case2 left hne =>
    rw [mergePairs.eq_2 _ _ hne] at hm hm'
    rw [← Fallible.pure_eq_ok.mp hm, ← Fallible.pure_eq_ok.mp hm']
  | case3 l left r right ih₁ ih₂ =>
    rw [mergePairs] at hm hm'
    obtain ⟨o, ho, hm⟩ := Fallible.bind_eq_ok.mp hm
    obtain ⟨o', ho', hm'⟩ := Fallible.bind_eq_ok.mp hm'
    obtain ⟨hl₁, hl₂⟩ := List.forall_mem_cons.mp hl
    obtain ⟨hr₁, hr₂⟩ := List.forall_mem_cons.mp hr
    have hsame : o' = o := by
      rw [(compare_eq_ok.mp ho).2, (compare_eq_ok.mp ho').2]
      unfold order
      rw [hl₁, hr₁]
    subst hsame
    by_cases hlt : o' = .lt
    · rw [if_pos hlt] at hm hm'
      obtain ⟨rest, hrest, hm⟩ := Fallible.bind_eq_ok.mp hm
      obtain ⟨rest', hrest', hm'⟩ := Fallible.bind_eq_ok.mp hm'
      rw [← Fallible.pure_eq_ok.mp hm, ← Fallible.pure_eq_ok.mp hm', ih₁ hl hr₂ hrest hrest']
    · rw [if_neg hlt] at hm hm'
      obtain ⟨rest, hrest, hm⟩ := Fallible.bind_eq_ok.mp hm
      obtain ⟨rest', hrest', hm'⟩ := Fallible.bind_eq_ok.mp hm'
      rw [← Fallible.pure_eq_ok.mp hm, ← Fallible.pure_eq_ok.mp hm', ih₂ hl₂ hr hrest hrest']

/-- A key is found at one place only. -/
theorem findSorted_transport {values : Array Value} {key : Value} {i j : Nat}
    (ht : h.Table (Pair.ofBuffer values))
    (hkeys : ∀ p ∈ Pair.ofBuffer values, h'.place p.1 = h.place p.1)
    (hkey : h'.place key = h.place key) (hf : h.findSorted values 2 key = .ok (.at i))
    (hf' : h'.findSorted values 2 key = .ok (.at j)) : j = i := by
  obtain ⟨hi, hid, -⟩ := ht.find_of_at hf
  obtain ⟨hj, hsame⟩ := findSorted_at hf'
  have hj' : 2 * j + 1 < values.size := by omega
  have hpair := Pair.getElem?_ofBuffer hi
  have hpair' := Pair.getElem?_ofBuffer hj'
  have hid' : h.identity (values.getD (2 * j) .nil) = h.identity key := by
    rw [Nat.mul_comm] at hsame
    have hsame := identity_of_same hsame
    rwa [identity_eq_of_place hkey,
      identity_eq_of_place (hkeys _ (List.mem_of_getElem? hpair'))] at hsame
  have hnodup : ((Pair.ofBuffer values).map fun p => h.identity p.1).Nodup := ht.distinct
  have hat : ((Pair.ofBuffer values).map fun p => h.identity p.1)[i]? = some (h.identity key) := by
    rw [List.getElem?_map, hpair, Option.map_some, hid]
  have hat' : ((Pair.ofBuffer values).map fun p => h.identity p.1)[j]? = some (h.identity key) := by
    rw [List.getElem?_map, hpair', Option.map_some, hid']
  obtain ⟨hlt, -⟩ := List.getElem?_eq_some_iff.mp hat
  exact ((List.getElem?_inj hlt hnodup).mp (hat.trans hat'.symm)).symm

end Heap

namespace Mapping

variable {h h' : Heap} {id : ContainerId}

theorem step_transport {m n n' : Merge} {e : OverlayEntry} {es : List OverlayEntry}
    (hr : m.Ready h (e :: es))
    (hkeys : ∀ p ∈ Pair.ofBuffer m.values, h'.place p.1 = h.place p.1)
    (hkey : h'.place e.key = h.place e.key) (hs : Merge.step h id m e = .ok n)
    (hs' : Merge.step h' id m e = .ok n') :
    n' = n ∧ ∀ p ∈ Pair.ofBuffer n.values, h'.place p.1 = h.place p.1 := by
  unfold Merge.step at hs hs'
  by_cases hadded : e.added = true
  · rw [if_pos hadded] at hs hs'
    obtain rfl := Fallible.pure_eq_ok.mp hs
    obtain rfl := Fallible.pure_eq_ok.mp hs'
    exact ⟨rfl, hkeys⟩
  · rw [if_neg hadded] at hs hs'
    obtain ⟨f, hf, hs⟩ := Fallible.bind_eq_ok.mp hs
    obtain ⟨f', hf', hs'⟩ := Fallible.bind_eq_ok.mp hs'
    cases f with
    | absent => cases hs
    | «at» i =>
      cases f' with
      | absent => cases hs'
      | «at» j =>
        obtain rfl := Heap.findSorted_transport hr.table hkeys hkey hf hf'
        obtain rfl := Fallible.pure_eq_ok.mp hs
        obtain rfl := Fallible.pure_eq_ok.mp hs'
        obtain ⟨hlt, -⟩ := hr.table.find_of_at hf
        refine ⟨rfl, fun p hp => ?_⟩
        have hp : p ∈ Pair.ofBuffer (m.values.setIfInBounds (2 * j + 1) e.value) := hp
        have hmem : p.1 ∈ (Pair.ofBuffer m.values).map Prod.fst := by
          rw [← Heap.map_fst_set (v := e.value) (Pair.getElem?_ofBuffer hlt),
            ← Pair.ofBuffer_set hlt]
          exact List.mem_map_of_mem hp
        obtain ⟨q, hq, hsame⟩ := List.mem_map.mp hmem
        rw [← hsame]
        exact hkeys q hq

/-- The pending writes of a mapping are merged alike wherever its keys have the same places. -/
theorem foldlM_transport {m n n' : Merge} {es : List OverlayEntry} (hr : m.Ready h es)
    (hkeys : ∀ p ∈ Pair.ofBuffer m.values, h'.place p.1 = h.place p.1)
    (hes : ∀ e ∈ es, h'.place e.key = h.place e.key)
    (hs : es.foldlM (Merge.step h id) m = .ok n) (hs' : es.foldlM (Merge.step h' id) m = .ok n') :
    n' = n ∧ ∀ p ∈ Pair.ofBuffer n.values, h'.place p.1 = h.place p.1 := by
  induction es generalizing m with
  | nil =>
    obtain rfl := Fallible.pure_eq_ok.mp hs
    obtain rfl := Fallible.pure_eq_ok.mp hs'
    exact ⟨rfl, hkeys⟩
  | cons e es ih =>
    rw [List.foldlM_cons] at hs hs'
    obtain ⟨m₁, h₁, hs⟩ := Fallible.bind_eq_ok.mp hs
    obtain ⟨m₂, h₂, hs'⟩ := Fallible.bind_eq_ok.mp hs'
    obtain ⟨hkey, hes⟩ := List.forall_mem_cons.mp hes
    obtain ⟨rfl, hkeys₁⟩ := step_transport hr hkeys hkey h₁ h₂
    exact ih (hr.step h₁).1 hkeys₁ hes hs hs'

/-- The pairs to be added are entries of the overlay. -/
theorem added_of_foldlM {m n : Merge} {es : List OverlayEntry}
    (hs : es.foldlM (Merge.step h id) m = .ok n) :
    ∀ p ∈ n.added, p ∈ m.added ∨ ∃ e ∈ es, p = (e.key, e.value) := by
  induction es generalizing m with
  | nil =>
    obtain rfl := Fallible.pure_eq_ok.mp hs
    intro p hp
    exact .inl hp
  | cons e es ih =>
    rw [List.foldlM_cons] at hs
    obtain ⟨m₁, h₁, hs⟩ := Fallible.bind_eq_ok.mp hs
    -- A step adds the pair of its entry or, if it replaces a value, none.
    have hadded : ∀ p ∈ m₁.added, p ∈ m.added ∨ p = (e.key, e.value) := by
      intro p hp
      unfold Merge.step at h₁
      split at h₁
      · obtain rfl := Fallible.pure_eq_ok.mp h₁
        simpa using hp
      · obtain ⟨f, -, h₁⟩ := Fallible.bind_eq_ok.mp h₁
        cases f with
        | absent => cases h₁
        | «at» i =>
          obtain rfl := Fallible.pure_eq_ok.mp h₁
          exact .inl hp
    intro p hp
    rcases ih hs p hp with hp | ⟨e', he', rfl⟩
    · rcases hadded p hp with hp | rfl
      · exact .inl hp
      · exact .inr ⟨e, List.mem_cons_self, rfl⟩
    · exact .inr ⟨e', List.mem_cons_of_mem _ he', rfl⟩

/-- A merge comes to the same in two heaps in which its keys have the same places. -/
theorem merged_transport {o : Overlay} {values : Array Value} {r r' : Array Value × List Value}
    (ht : h.Table (Pair.ofBuffer values)) (hp : h.Pending (Pair.ofBuffer values) o)
    (hkeys : ∀ p ∈ Pair.ofBuffer values, h'.place p.1 = h.place p.1)
    (hes : ∀ e ∈ o.toList, h'.place e.key = h.place e.key)
    (hr : merged h id o values = .ok r) (hr' : merged h' id o values = .ok r') : r' = r := by
  obtain ⟨m, hm, hr⟩ := Fallible.bind_eq_ok.mp hr
  obtain ⟨m', hm', hr'⟩ := Fallible.bind_eq_ok.mp hr'
  obtain ⟨rfl, hkept⟩ := foldlM_transport (.start ht hp) hkeys hes hm hm'
  have hadded : ∀ p ∈ m'.added, h'.place p.1 = h.place p.1 := by
    intro p hp
    rcases added_of_foldlM hm p hp with hp | ⟨e, he, rfl⟩
    · exact absurd hp List.not_mem_nil
    · exact hes e he
  obtain ⟨sorted, hsorted, hr⟩ := Fallible.bind_eq_ok.mp hr
  obtain ⟨sorted', hsorted', hr'⟩ := Fallible.bind_eq_ok.mp hr'
  obtain rfl := Heap.sortPairs_transport hadded hsorted hsorted'
  obtain ⟨ps, hps, hr⟩ := Fallible.bind_eq_ok.mp hr
  obtain ⟨ps', hps', hr'⟩ := Fallible.bind_eq_ok.mp hr'
  have hright : ∀ p ∈ sorted', h'.place p.1 = h.place p.1 := by
    intro p hp
    exact hadded p ((Heap.sortOn_perm hsorted).mem_iff.mp hp)
  obtain rfl := Heap.mergePairs_transport hkept hright hps hps'
  rw [← Fallible.pure_eq_ok.mp hr, ← Fallible.pure_eq_ok.mp hr']

end Mapping

/-! ## What is listed -/

/--
The elements that a container has for readers: those of an array or record, where what is lost reads
as nil, and the keys and values of a mapping in the order of the keys, with what is pending.
-/
def Store.listing? (s : Store) (id : ContainerId) : Option (List Value) :=
  (s.content? id).bind fun x =>
    match x.kind, x.overlay with
    | .mapping, none => some x.buffer.toList
    | .mapping, some o => (Mapping.merged s.heap id o x.buffer).toOption.map fun r => r.1.toList
    | _, _ => some (x.buffer.toList.map s.seen)

section

variable {s : Store} {id : ContainerId} {x : Content} {o : Overlay}

theorem listing?_of_sequence (hx : s.content? id = some x) (hk : x.kind ≠ .mapping) :
    s.listing? id = some (x.buffer.toList.map s.seen) := by
  unfold Store.listing?
  rw [hx, Option.bind_some]
  split
  · next hm _ => exact absurd hm hk
  · next hm _ => exact absurd hm hk
  · rfl

/-- A mapping without pending writes lists its pairs. -/
theorem listing?_of_clean (hx : s.content? id = some x) (hk : x.kind = .mapping)
    (ho : x.overlay = none) : s.listing? id = some x.buffer.toList := by
  unfold Store.listing?
  rw [hx, Option.bind_some]
  simp only [hk, ho]

/-- A mapping with pending writes lists what the merge makes of them. -/
theorem listing?_of_merged {r : Array Value × List Value} (hx : s.content? id = some x)
    (hk : x.kind = .mapping) (ho : x.overlay = some o)
    (hr : Mapping.merged s.heap id o x.buffer = .ok r) : s.listing? id = some r.1.toList := by
  unfold Store.listing?
  rw [hx, Option.bind_some]
  simp only [hk, ho, hr, Except.toOption, Option.map_some]

end

/-! ## It stays the same -/

section

variable {E : Effect → Prop} {a b : Account} {e : Effect} {id : ContainerId} {x x' : Content}

/-- What is pending for a mapping can be merged. -/
theorem Account.Kept.exists_merged (ha : a.Kept) (hx : a.store.content? id = some x)
    (hk : x.kind = .mapping) {o : Overlay} (ho : x.overlay = some o) :
    ∃ r, Mapping.merged a.store.heap id o x.buffer = .ok r := by
  have ht := ha.tabled.content hx hk
  have hthere : ∀ v ∈ x.held, a.store.heap.Has v := by
    intro v hv
    exact ha.there (Account.covers_of_held hx hv)
  refine Mapping.faultless_merged ht.table (ht.pending ho) ?_ ?_
  · intro v hv
    exact hthere v (Content.mem_held_of_buffer hv)
  · intro i e hi
    obtain ⟨hkey, hvalue⟩ := Content.mem_held_of_entry ho hi
    exact ⟨hthere _ hkey, hthere _ hvalue⟩

/-- A container is listed as before if it holds what it did. -/
theorem Path.listing_kept (h : Path E a b) (ha : a.Kept) (hE : ∀ e, E e → e.Calm)
    (hx : a.store.content? id = some x) (hx' : b.store.content? id = some x) :
    b.store.listing? id = a.store.listing? id := by
  have hcovers : ∀ v ∈ x.held, b.refs.Covers v := by
    intro v hv
    exact Account.covers_of_held hx' hv
  by_cases hk : x.kind = .mapping
  · cases ho : x.overlay with
    | none => rw [listing?_of_clean hx hk ho, listing?_of_clean hx' hk ho]
    | some o =>
      obtain ⟨r, hr⟩ := ha.exists_merged hx hk ho
      obtain ⟨r', hr'⟩ := (h.kept ha).exists_merged hx' hk ho
      have ht := ha.tabled.content hx hk
      -- Merging reads places alone, and those of what is held stay.
      have hplace : ∀ v ∈ x.held, b.store.heap.place v = a.store.heap.place v := by
        intro v hv
        exact (h.stands ha hE (hcovers v hv)).place
      have hsame : r' = r := by
        refine Mapping.merged_transport ht.table (ht.pending ho) ?_ ?_ hr hr'
        · intro p hp
          exact hplace _ (Content.mem_held_of_pair hp).1
        · intro e he
          obtain ⟨i, hi⟩ := Slab.mem_toList.mp he
          exact hplace _ (Content.mem_held_of_entry ho hi).1
      rw [listing?_of_merged hx hk ho hr, listing?_of_merged hx' hk ho hr', hsame]
  · rw [listing?_of_sequence hx hk, listing?_of_sequence hx' hk]
    refine congrArg some (List.map_congr_left fun v hv => ?_)
    have hheld := Content.mem_held_of_buffer (Array.mem_toList_iff.mp hv)
    exact h.seen ha hE (hcovers v hheld)

/-- What a reader sees once a value is scrubbed is what is seen then. -/
theorem Store.seen_seen (s : Store) (v : Value) : s.seen (s.seen v) = s.seen v := by
  cases h : s.lost v with
  | true =>
    rw [seen_of_lost h]
    exact seen_of_kept rfl
  | false => rw [seen_of_kept h, seen_of_kept h]

/-- Merging a mapping, or scrubbing an array or record, does not change what is listed. -/
theorem Step.listing (h : Step e a b) (ha : a.Kept) (he : e.Tends)
    (hscrub : e = .scrub id → ∀ x, a.store.content? id = some x → x.kind ≠ .mapping)
    (hx' : b.store.content? id = some x') :
    b.store.listing? id = a.store.listing? id ∧ ∃ x, a.store.content? id = some x := by
  have hpath : Path Effect.Tends a b := .single he h
  cases h.content ha.accounted hx' with
  | kept hx => exact ⟨hpath.listing_kept ha Effect.Tends.calm hx hx', _, hx⟩
  | @becomes x _ hx hbec =>
    refine ⟨?_, x, hx⟩
    cases hbec with
    | scrub hk hseen =>
      have hseen := map_seen_of_forall₂ hseen
      subst hseen
      rw [listing?_of_sequence hx hk, listing?_of_sequence hx' hk, List.toList_toArray,
        List.map_map]
      refine congrArg some (List.map_congr_left fun v hv => ?_)
      -- A listing shows values as seen, so to scrub them for good changes nothing in it.
      have hheld : a.store.seen v ∈ Content.held { x with
          scrubEpoch := a.store.objects.epoch
          buffer := (x.buffer.toList.map a.store.seen).toArray } :=
        Content.mem_held_of_buffer (List.mem_toArray.mpr (List.mem_map_of_mem hv))
      exact (hpath.seen ha Effect.Tends.calm (Account.covers_of_held hx' hheld)).trans
        (a.store.seen_seen v)
    | absorb ho hr =>
      have hk := ((Content.whole ha.accounted hx).overlay ho).1
      rw [listing?_of_merged hx hk ho hr, listing?_of_clean hx' hk rfl]
    | compact hk => exact absurd hk (hscrub rfl x hx)
    | _ => cases he
  | made he' =>
    subst he'
    cases he

/-- The effects of comparing what a store holds: mappings are merged, but not compacted. -/
def Effect.Compares (s : Store) : Effect → Prop
  | .still => True
  | .scrub id => ∀ c, s.container? id = some c → c.kind ≠ .mapping
  | _ => False

theorem Effect.Compares.tends {s : Store} : ∀ e : Effect, e.Compares s → e.Tends
  | .still, _ => .still
  | .scrub id, _ => .scrub id

theorem Effect.Compares.calm {s : Store} : ∀ e : Effect, e.Compares s → e.Calm :=
  fun e he => Effect.Tends.calm e (Effect.Compares.tends e he)

/-- What is listed stays the same while containers are compared. -/
theorem Path.listing {s₀ : Store} (h : Path (Effect.Compares s₀) a b) (ha : a.Kept)
    (hm : Marks s₀ a.store) (hx' : b.store.content? id = some x') :
    b.store.listing? id = a.store.listing? id := by
  induction h generalizing x' with
  | refl => rfl
  | tail h he hs ih =>
    have hmid := hm.trans (h.marks ha Effect.Compares.calm)
    obtain ⟨hlast, x, hx⟩ := hs.listing (h.kept ha) (Effect.Compares.tends _ he)
      (fun hscrub x hx => by
      subst hscrub
      obtain ⟨c, hc, rfl⟩ := content?_eq_some.mp hx
      obtain ⟨c₀, hc₀, -, hkind⟩ := hmid.container _ c hc
      show c.kind ≠ .mapping
      rw [hkind]
      exact he c₀ hc₀) hx'
    exact hlast.trans (ih hx)

end

/-! ## What is listed is there -/

/-- What can be reached from what is owned, going by elements. -/
inductive Store.Reaches (s : Store) (F : Refs) : Value → Prop
  | owned {v : Value} (hv : F.Covers v) : Reaches s F v
  | element {shape : Shape} {id : ContainerId} {vs : List Value} {v : Value}
    (hid : Reaches s F (.container shape id)) (hvs : s.listing? id = some vs) (hv : v ∈ vs) :
    Reaches s F v

section

variable {a : Account} {s s' : Store} {F : Refs} {C : Charges} {q : Option Closing}
  {id : ContainerId} {vs : List Value} {v : Value}

/-- What a container lists it holds, or it is nil. -/
theorem Account.Kept.covers_of_listing (ha : a.Kept) (hl : a.store.listing? id = some vs)
    (hv : v ∈ vs) : a.refs.Covers v := by
  obtain ⟨x, hx, -⟩ := Option.bind_eq_some_iff.mp hl
  by_cases hk : x.kind = .mapping
  · refine Account.covers_of_held hx ?_
    cases ho : x.overlay with
    | none =>
      obtain rfl := Option.some.inj (hl.symm.trans (listing?_of_clean hx hk ho))
      exact Content.mem_held_of_buffer (Array.mem_toList_iff.mp hv)
    | some o =>
      obtain ⟨r, hr⟩ := ha.exists_merged hx hk ho
      obtain rfl := Option.some.inj (hl.symm.trans (listing?_of_merged hx hk ho hr))
      exact (Content.whole ha.accounted hx).mem_held_of_merged ho hr (Array.mem_toList_iff.mp hv)
  · obtain rfl := Option.some.inj (hl.symm.trans (listing?_of_sequence hx hk))
    obtain ⟨w, hw, rfl⟩ := List.mem_map.mp hv
    have hheld := Content.mem_held_of_buffer (Array.mem_toList_iff.mp hw)
    unfold Store.seen
    split
    · exact nofun
    · exact Account.covers_of_held hx hheld

/-- What was reached stays while containers are compared. -/
theorem Store.Reaches.covers {s₀ : Store} (h : s₀.Reaches F v) (ha : Account.Kept ⟨s₀, F, C, q⟩)
    (hpath : Path (Effect.Compares s₀) ⟨s₀, F, C, q⟩ ⟨s, F, C, q⟩) :
    (Account.mk s F C q).refs.Covers v := by
  have ha' := hpath.kept ha
  induction h with
  | owned hv => exact Refs.Covers.of_flight (a := ⟨s, F, C, q⟩) hv
  | @element shape id vs v hid hvs hv ih =>
    obtain ⟨c, hc⟩ := (ha'.there ih).exists_container
    have hl : s.listing? id = s₀.listing? id :=
      hpath.listing ha (.refl s₀) (content?_of_container hc)
    exact ha'.covers_of_listing (hl.trans hvs) hv

end

/-! ## It is what is listed -/

section

variable {s s' : Store} {F : Refs} {C : Charges} {q : Option Closing} {id : ContainerId}

/-- The list that is answered is the one that there was. -/
theorem elementsOf_lists {shape : Shape} {values : Array Value} (ha : Account.Kept ⟨s, F, C, q⟩)
    (hv : s.heap.Fits (.container shape id)) (h : elementsOf shape id s = .ok (values, s')) :
    s.listing? id = some values.toList := by
  have hscrub : shape ≠ .mapping → (Effect.scrub id).Compares s := by
    intro hs c hc
    exact hv.not_mapping hc hs
  obtain ⟨hpath, c, hc, he⟩ := walk_elementsOf (E := Effect.Compares s) (F := F) (C := C) (q := q)
    trivial hscrub ha hv h
  have ha' := hpath.kept ha
  have hx := content?_of_container hc
  rw [← hpath.listing ha (.refl s) hx]
  obtain ⟨u, s₁, h₁, h₂⟩ := StoreM.bind_eq_ok.mp h
  obtain ⟨-, rfl⟩ := StoreM.residentValues_eq_ok.mp h₂
  obtain ⟨-, -, ho, hepoch⟩ := refresh_post ha hv h₁ c hc
  have hbuffer : (c.content s₁.swap).buffer = values := Container.content_buffer he _
  have hfits := hpath.fits ha Effect.Compares.calm hv
  by_cases hs : shape = .mapping
  · subst hs
    rw [listing?_of_clean hx (hfits.mapping hc) ho, hbuffer]
  · rw [listing?_of_sequence hx (hfits.not_mapping hc hs), hbuffer]
    have halive := (ha'.fresh.content hx).alive (hepoch hs)
    rw [map_seen_of_alive]
    intro v hv
    refine halive v (Content.mem_held_of_buffer ?_)
    rw [hbuffer]
    exact Array.mem_toList_iff.mp hv

end

end PlaneStore
