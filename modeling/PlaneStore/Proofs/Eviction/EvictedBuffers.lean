import PlaneStore.Proofs.References.CountChanges

/-!
# Evicted elements

Every evicted container has a buffer of its own in the swap, of the length that it remembers. So
loading one buffer leaves the elements of all other containers where they are.

The buffer of a mapping holds whole pairs, wherever it is.
-/

namespace PlaneStore

namespace Store

/-- The swap has what evicted containers need, and buffers of mappings hold whole pairs. -/
structure Stored (s : Store) : Prop where
  length : ∀ {id : ContainerId} {c : Container} {ticket : SwapTicket} {n : Nat},
    s.container? id = some c → c.elements = .evicted ticket n →
    ∃ values : Array Value, s.swap.buffers[ticket]? = some values ∧ values.size = n
  apart : ∀ {id id' : ContainerId} {c c' : Container} {ticket : SwapTicket} {n n' : Nat},
    s.container? id = some c → s.container? id' = some c' → c.elements = .evicted ticket n →
      c'.elements = .evicted ticket n' → id = id'
  next : ∀ {ticket : SwapTicket} {values : Array Value},
    s.swap.buffers[ticket]? = some values → ticket.number < s.swap.next
  even : ∀ {id : ContainerId} {c : Container}, s.container? id = some c → c.kind = .mapping →
    (c.buffer s.swap).length % 2 = 0

end Store

namespace Container

/-- The elements of an evicted container are what the swap has under its ticket. -/
theorem buffer_of_evicted {c : Container} {ticket : SwapTicket} {n : Nat} (swap : Swap)
    (h : c.elements = .evicted ticket n) :
    c.buffer swap = (swap.buffers.getD ticket #[]).toList := by
  unfold buffer
  rw [h]

theorem buffer_congr {c d : Container} {swap : Swap} (h : c.elements = d.elements) :
    c.buffer swap = d.buffer swap := by
  unfold buffer
  rw [h]

/-- Only the buffers of the swap matter. -/
theorem buffer_of_buffers {swap swap' : Swap} (h : swap'.buffers = swap.buffers) (c : Container) :
    c.buffer swap' = c.buffer swap := by
  unfold buffer
  rw [h]

end Container

namespace Swap

theorem getD_load_of_ne {s : Swap} {ticket other : SwapTicket} (h : ticket ≠ other) :
    (s.load ticket).2.buffers.getD other #[] = s.buffers.getD other #[] := by
  have hne : compare ticket other ≠ .eq := fun he => h (Std.LawfulEqOrd.eq_of_compare he)
  simp [load, Std.TreeMap.getD_erase, hne]

/-- To load one buffer leaves the others with the swap. -/
theorem getElem?_load_of_ne {s : Swap} {ticket other : SwapTicket} (h : ticket ≠ other) :
    (s.load ticket).2.buffers[other]? = s.buffers[other]? := by
  have hne : compare ticket other ≠ .eq := fun he => h (Std.LawfulEqOrd.eq_of_compare he)
  simp [load, Std.TreeMap.getElem?_erase, hne]

/-- To store one buffer leaves the others as they are. -/
theorem getElem?_store_of_ne {s : Swap} {values : Array Value} {other : SwapTicket}
    (h : (s.store values).1 ≠ other) :
    (s.store values).2.buffers[other]? = s.buffers[other]? := by
  have hne : compare (⟨s.next⟩ : SwapTicket) other ≠ .eq :=
    fun he => h (Std.LawfulEqOrd.eq_of_compare he)
  simp [store, Std.TreeMap.getElem?_insert, hne]

/-- A buffer that was stored is there under its ticket. -/
theorem getElem?_store_self {s : Swap} {values : Array Value} :
    (s.store values).2.buffers[(s.store values).1]? = some values := by
  simp [store]

/-- To load brings no buffer in. -/
theorem getElem?_of_load {s : Swap} {ticket other : SwapTicket} {values : Array Value}
    (h : (s.load ticket).2.buffers[other]? = some values) : s.buffers[other]? = some values := by
  simp only [load, Std.TreeMap.getElem?_erase] at h
  split at h
  · cases h
  · exact h

end Swap

namespace Store

variable {s s' : Store}

/-- Loading the buffer of one container leaves the elements of others alone. -/
theorem Stored.buffer_load (hs : s.Stored) {id other : ContainerId} {c c' : Container}
    {ticket : SwapTicket} {n : Nat} (hc : s.container? id = some c)
    (he : c.elements = .evicted ticket n) (hc' : s.container? other = some c') (h : id ≠ other) :
    c'.buffer (s.swap.load ticket).2 = c'.buffer s.swap := by
  cases he' : c'.elements with
  | resident values => rw [c'.buffer_of_resident _ he', c'.buffer_of_resident _ he']
  | evicted ticket' n' =>
    have hne : ticket ≠ ticket' := by
      rintro rfl
      exact h (hs.apart hc hc' he he')
    rw [c'.buffer_of_evicted _ he', c'.buffer_of_evicted _ he', Swap.getD_load_of_ne hne]

/-- Storing another buffer leaves the elements of all containers alone. -/
theorem Stored.buffer_store (hs : s.Stored) {id : ContainerId} {c : Container}
    (hc : s.container? id = some c) (values : Array Value) :
    c.buffer (s.swap.store values).2 = c.buffer s.swap := by
  cases he : c.elements with
  | resident values => rw [c.buffer_of_resident _ he, c.buffer_of_resident _ he]
  | evicted ticket n =>
    obtain ⟨values', hb, -⟩ := hs.length hc he
    have hne : (s.swap.store values).1 ≠ ticket := by
      rintro rfl
      exact absurd (hs.next hb) (Nat.lt_irrefl _)
    rw [c.buffer_of_evicted _ he, c.buffer_of_evicted _ he, Std.TreeMap.getD_eq_getD_getElem?,
      Std.TreeMap.getD_eq_getD_getElem?, Swap.getElem?_store_of_ne hne]

/-! ## The swap keeps up -/

/--
The swap still has what is needed if every container is resident with whole pairs, or is as before
with its buffer still there.
-/
theorem Stored.of_each (hs : s.Stored)
    (hswap : ∀ (ticket : SwapTicket) (values : Array Value),
      s'.swap.buffers[ticket]? = some values → ticket.number < s'.swap.next)
    (h : ∀ id c', s'.container? id = some c' →
      (∃ values, c'.elements = .resident values ∧ (c'.kind = .mapping → values.size % 2 = 0)) ∨
        ∃ c, s.container? id = some c ∧ c'.kind = c.kind ∧ c'.elements = c.elements ∧
          ∀ ticket n, c.elements = .evicted ticket n →
            s'.swap.buffers[ticket]? = s.swap.buffers[ticket]?) : s'.Stored where
  length {id c' ticket n} hc' he' := by
    rcases h id c' hc' with ⟨values, he, -⟩ | ⟨c, hc, -, he, hb⟩
    · rw [he] at he'
      cases he'
    · rw [he] at he'
      obtain ⟨values, hv, hn⟩ := hs.length hc he'
      exact ⟨values, (hb ticket n he').trans hv, hn⟩
  apart {id id' c c' ticket n n'} hc hc' he he' := by
    rcases h id c hc with ⟨values, hr, -⟩ | ⟨d, hd, -, hde, -⟩
    · rw [hr] at he
      cases he
    rcases h id' c' hc' with ⟨values, hr, -⟩ | ⟨d', hd', -, hde', -⟩
    · rw [hr] at he'
      cases he'
    exact hs.apart hd hd' (hde ▸ he) (hde' ▸ he')
  next {ticket values} hb := hswap ticket values hb
  even {id c'} hc' hk := by
    rcases h id c' hc' with ⟨values, hr, hm⟩ | ⟨c, hc, hkind, he, hb⟩
    · rw [c'.buffer_of_resident _ hr]
      exact hm hk
    · have hbuffer : c'.buffer s'.swap = c.buffer s.swap := by
        rw [Container.buffer_congr he]
        cases hce : c.elements with
        | resident values => rw [c.buffer_of_resident _ hce, c.buffer_of_resident _ hce]
        | evicted ticket n =>
          rw [c.buffer_of_evicted _ hce, c.buffer_of_evicted _ hce,
            Std.TreeMap.getD_eq_getD_getElem?, Std.TreeMap.getD_eq_getD_getElem?, hb ticket n hce]
      rw [hbuffer]
      exact hs.even hc (hkind ▸ hk)

/-- Nothing changes for the swap if all containers keep their elements. -/
theorem Stored.of_elements (hs : s.Stored) (hb : s'.swap.buffers = s.swap.buffers)
    (hn : s'.swap.next = s.swap.next)
    (h : ∀ id c', s'.container? id = some c' →
      ∃ c, s.container? id = some c ∧ c'.kind = c.kind ∧ c'.elements = c.elements) :
    s'.Stored := by
  refine hs.of_each (fun ticket values => ?_) fun id c' hc' => ?_
  · rw [hb, hn]
    exact hs.next
  · obtain ⟨c, hc, hk, he⟩ := h id c' hc'
    exact Or.inr ⟨c, hc, hk, he, fun _ _ _ => by rw [hb]⟩

theorem Stored.alike (hs : s.Stored) (h : Alike s s') : s'.Stored := by
  refine hs.of_elements (by rw [h.swap]) (by rw [h.swap]) fun id c' hc' => ?_
  obtain ⟨c, hc, hbare⟩ := h.symm.exists_container hc'
  exact ⟨c, hc, show c'.bare.kind = c.bare.kind by rw [hbare],
    show c'.bare.elements = c.bare.elements by rw [hbare]⟩

/-- What is in the slots after one of them was replaced. -/
theorem container?_withContainer_cases {id other : ContainerId} {c d e : Container}
    (hc : s.container? id = some c) (he : (s.withContainer id d).container? other = some e) :
    other = id ∧ e = d ∨ other ≠ id ∧ s.container? other = some e := by
  by_cases h : id = other
  · subst h
    rw [container?_withContainer_self hc] at he
    exact Or.inl ⟨rfl, (Option.some.inj he).symm⟩
  · rw [container?_withContainer_of_ne h] at he
    exact Or.inr ⟨Ne.symm h, he⟩

theorem Stored.withContainer (hs : s.Stored) {id : ContainerId} {c d : Container}
    (hc : s.container? id = some c) (hk : d.kind = c.kind) (he : d.elements = c.elements) :
    (s.withContainer id d).Stored := by
  refine hs.of_elements rfl rfl fun other c' hc' => ?_
  rcases container?_withContainer_cases hc hc' with ⟨rfl, rfl⟩ | ⟨-, hc'⟩
  · exact ⟨c, hc, hk, he⟩
  · exact ⟨c', hc', rfl, rfl⟩

/-- The elements of a resident container may be replaced. -/
theorem Stored.withValues (hs : s.Stored) {id : ContainerId} {c d : Container}
    (hc : s.container? id = some c) {values : Array Value} (he : d.elements = .resident values)
    (hm : d.kind = .mapping → values.size % 2 = 0) : (s.withContainer id d).Stored := by
  refine hs.of_each (fun _ _ => hs.next) fun other c' hc' => ?_
  rcases container?_withContainer_cases hc hc' with ⟨rfl, rfl⟩ | ⟨-, hc'⟩
  · exact Or.inl ⟨values, he, hm⟩
  · exact Or.inr ⟨c', hc', rfl, rfl, fun _ _ _ => rfl⟩

/-- The buffer of a freed container goes with it. -/
theorem Stored.without (hs : s.Stored) {id : ContainerId} {c : Container}
    (hc : s.container? id = some c) : (s.without id c).Stored := by
  have hkeep : ∀ other c', (s.without id c).container? other = some c' →
      id ≠ other ∧ s.container? other = some c' := by
    intro other c' hc'
    have hne : id ≠ other := by
      rintro rfl
      rw [container?_without_self] at hc'
      cases hc'
    exact ⟨hne, container?_without_of_ne hne ▸ hc'⟩
  cases he : c.elements with
  | resident values =>
    refine hs.of_elements (by simp only [Store.without, he]) (by simp only [Store.without, he])
      fun other c' hc' => ⟨c', (hkeep other c' hc').2, rfl, rfl⟩
  | evicted ticket n =>
    have hswap : (s.without id c).swap = (s.swap.load ticket).2 := by simp only [Store.without, he]
    refine hs.of_each (fun t values hv => ?_) fun other c' hc' => ?_
    · rw [hswap] at hv ⊢
      exact hs.next (Swap.getElem?_of_load hv)
    · obtain ⟨hne, hc'⟩ := hkeep other c' hc'
      refine Or.inr ⟨c', hc', rfl, rfl, fun ticket' n' he' => ?_⟩
      rw [hswap, Swap.getElem?_load_of_ne]
      rintro rfl
      exact hne (hs.apart hc hc' he he')

/-- The store after the elements of a container have come back. -/
theorem Stored.load (hs : s.Stored) {id : ContainerId} {c : Container} {ticket : SwapTicket}
    {n : Nat} (hc : s.container? id = some c) (he : c.elements = .evicted ticket n) :
    (({ s with swap := (s.swap.load ticket).2 }).withContainer id
      { c with elements := .resident (s.swap.load ticket).1 }).Stored := by
  refine hs.of_each (fun t values hv => hs.next (Swap.getElem?_of_load hv)) fun other c' hc' => ?_
  have hc₁ : ({ s with swap := (s.swap.load ticket).2 } : Store).container? id = some c := hc
  rcases container?_withContainer_cases hc₁ hc' with ⟨rfl, rfl⟩ | ⟨hne, hc'⟩
  · refine Or.inl ⟨_, rfl, fun hk => ?_⟩
    have heven := hs.even hc hk
    rw [c.buffer_of_evicted _ he, Array.length_toList] at heven
    exact heven
  · have hget : s.container? other = some c' := hc'
    refine Or.inr ⟨c', hget, rfl, rfl, fun ticket' n' he' => Swap.getElem?_load_of_ne ?_⟩
    rintro rfl
    exact hne (hs.apart hget hc he' he)

/-- The store after the elements of a container have gone. -/
theorem Stored.evict (hs : s.Stored) {id : ContainerId} {c d : Container} {values : Array Value}
    (hc : s.container? id = some c) (he : c.elements = .resident values) (hk : d.kind = c.kind)
    (hd : d.elements = .evicted (s.swap.store values).1 values.size) :
    (({ s with swap := (s.swap.store values).2 }).withContainer id d).Stored := by
  have hc₁ : ({ s with swap := (s.swap.store values).2 } : Store).container? id = some c := hc
  -- Tickets are given out in order, so none that is held is the new one.
  have hfresh : ∀ {other : ContainerId} {c' : Container} {ticket : SwapTicket} {n : Nat},
      s.container? other = some c' → c'.elements = .evicted ticket n →
        (s.swap.store values).1 ≠ ticket := by
    rintro other c' _ n hc' he' rfl
    obtain ⟨values', hv, -⟩ := hs.length hc' he'
    exact absurd (hs.next hv) (Nat.lt_irrefl _)
  refine ⟨?_, ?_, ?_, ?_⟩
  · intro other c' ticket n hc' he'
    rcases container?_withContainer_cases hc₁ hc' with ⟨rfl, rfl⟩ | ⟨-, hc'⟩
    · rw [hd] at he'
      obtain ⟨rfl, rfl⟩ := Elements.evicted.inj he'
      exact ⟨values, Swap.getElem?_store_self, rfl⟩
    · obtain ⟨values', hv, hn⟩ := hs.length hc' he'
      exact ⟨values', (Swap.getElem?_store_of_ne (hfresh hc' he')).trans hv, hn⟩
  · intro id₁ id₂ c₁ c₂ ticket n₁ n₂ h₁ h₂ he₁ he₂
    rcases container?_withContainer_cases hc₁ h₁ with ⟨rfl, rfl⟩ | ⟨-, hold₁⟩
    · rw [hd] at he₁
      obtain ⟨rfl, rfl⟩ := Elements.evicted.inj he₁
      rcases container?_withContainer_cases hc₁ h₂ with ⟨rfl, -⟩ | ⟨-, hold₂⟩
      · rfl
      · exact absurd rfl (hfresh hold₂ he₂)
    · rcases container?_withContainer_cases hc₁ h₂ with ⟨rfl, rfl⟩ | ⟨-, hold₂⟩
      · rw [hd] at he₂
        obtain ⟨rfl, rfl⟩ := Elements.evicted.inj he₂
        exact absurd rfl (hfresh hold₁ he₁)
      · exact hs.apart hold₁ hold₂ he₁ he₂
  · intro ticket values' hv
    by_cases ht : (s.swap.store values).1 = ticket
    · subst ht
      exact Nat.lt_succ_self _
    · have hold : s.swap.buffers[ticket]? = some values' :=
        (Swap.getElem?_store_of_ne ht).symm.trans hv
      exact Nat.lt_succ_of_lt (hs.next hold)
  · intro other c' hc' hm
    rcases container?_withContainer_cases hc₁ hc' with ⟨rfl, rfl⟩ | ⟨-, hc'⟩
    · have heven := hs.even hc (hk ▸ hm)
      rw [c.buffer_of_resident _ he] at heven
      rw [c'.buffer_of_evicted _ hd]
      have hget : (s.swap.store values).2.buffers.getD (s.swap.store values).1 #[] = values := by
        rw [Std.TreeMap.getD_eq_getD_getElem?, Swap.getElem?_store_self]
        rfl
      show
        (((s.swap.store values).2.buffers.getD (s.swap.store values).1 #[]).toList).length % 2 = 0
      rw [hget]
      exact heven
    · show (c'.buffer (s.swap.store values).2).length % 2 = 0
      rw [hs.buffer_store hc' values]
      exact hs.even hc' hm

/-! ## What is held -/

/-- The inventory is a matter of what containers, dataspaces and planes hold, wherever that is. -/
theorem refs_congr
    (hc : ∀ id, (s'.container? id).map (Container.held s'.swap) =
      (s.container? id).map (Container.held s.swap))
    (hd : ∀ ds, (s'.dataspace? ds).map Dataspace.held = (s.dataspace? ds).map Dataspace.held)
    (hp : s'.planes.map Plane.held = s.planes.map Plane.held) : s'.refs = s.refs := by
  have hdataspaces : s'.dataspaces.toList.map Dataspace.held =
      s.dataspaces.toList.map Dataspace.held := by
    refine List.ext_getElem? fun i => ?_
    rw [List.getElem?_map, List.getElem?_map, Array.getElem?_toList, Array.getElem?_toList]
    exact hd ⟨i⟩
  unfold refs
  rw [hdataspaces, hp, show s'.heap.refs s'.swap = s.heap.refs s.swap from
    Slab.total_congr _ fun i => hc ⟨i⟩]

/-- A container is replaced while its elements move between heap and swap. -/
theorem refs_moved {id : ContainerId} {c d : Container} {swap : Swap}
    (hc : s.container? id = some c)
    (hother : ∀ other e, id ≠ other → s.container? other = some e →
      e.buffer swap = e.buffer s.swap) :
    (({ s with swap } : Store).withContainer id d).refs + c.held s.swap =
      s.refs + d.held swap := by
  refine Refs.first (Slab.total_replace (f := Container.held s.swap) hc fun i e hne he => ?_)
  exact congrArg (fun vs => (↑(vs ++ e.overlayValues) : Refs))
    (hother ⟨i⟩ e (fun h => hne (congrArg ContainerId.slot h)) he)

/-- What a container held is what its freeing takes out of the store. -/
theorem refs_without (hs : s.Stored) {id : ContainerId} {c : Container}
    (hc : s.container? id = some c) : (s.without id c).refs + c.held s.swap = s.refs := by
  have hheap : (s.without id c).heap.refs (s.without id c).swap + c.held s.swap =
      s.heap.refs s.swap := by
    -- The ticket of what is removed goes with it, and no other container reads that buffer.
    have hcongr : (s.without id c).heap.refs (s.without id c).swap =
        (s.without id c).heap.refs s.swap := by
      refine Heap.refs_congr fun i d hd => ?_
      have hne : id ≠ ⟨i⟩ := by
        rintro rfl
        rw [show (s.without ⟨i⟩ c).heap.containers.get? i = none from Slab.get?_erase_self] at hd
        cases hd
      have hd' : s.container? ⟨i⟩ = some d := by
        rw [← container?_without_of_ne (c := c) hne]
        exact hd
      cases he : c.elements with
      | resident values => simp only [Store.without, he]
      | evicted ticket n =>
        simp only [Store.without, he]
        exact hs.buffer_load hc he hd' hne
    rw [hcongr]
    exact Slab.total_erase _ hc
  have hplanes : (s.without id c).planes.map Plane.held = s.planes.map Plane.held := by
    simp only [Store.without, List.map_map]
    rfl
  unfold refs
  rw [hplanes, ← hheap]
  show _ + (s.dataspaces.toList.map Dataspace.held).sum + _ + _ = _
  abel

/-- The references that a drop sets free were in the store before. -/
theorem Dropped.refs {v : Value} {children : List Value} (h : Dropped s v children s')
    (hs : s.Stored) : s'.refs + ↑children = s.refs := by
  cases h with
  | scalar | text | lastText => exact add_zero _
  | shared hc _ =>
    refine (add_zero _).trans (refs_withContainer_of_eq hc ?_ ?_)
    · rfl
    · rfl
  | freed hc _ ha =>
    rw [ha.refs]
    exact refs_without hs hc

end Store

end PlaneStore
