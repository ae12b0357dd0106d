import PlaneStore.Proofs.Accounts.StepInvariants

/-!
# What a mapping holds under a key

A mapping holds under an identity the pending write if there is one, else the sorted value. Loading,
evicting and merging leave this alone, as does all that is done to other containers; an edit changes
what is held under one key, and compacting leaves out the pairs of which a half is lost.
-/

namespace PlaneStore

open Store

/-! ## Lost keys -/

/-- Whether a value of an identity is lost. -/
def Store.gone (s : Store) : Identity → Bool
  | .container shape id => s.lost (.container shape id)
  | .object obj => s.lost (.object obj)
  | .plain _ => false

theorem Store.gone_identity (s : Store) (v : Value) : s.gone (s.heap.identity v) = s.lost v := by
  cases v <;> rfl

namespace Heap

variable {h : Heap} {ps : List Pair} {k : Identity}

/-- Of a filtered table only the values are found whose pairs pass the test. -/
theorem find_filter (hd : h.Distinct ps) {test : Pair → Bool} (byKey : Identity → Bool)
    (byValue : Value → Bool) (ht : ∀ p, test p = (byKey (h.identity p.1) && byValue p.2)) :
    h.find (ps.filter test) k = (h.find ps k).filter fun v => byKey k && byValue v := by
  have hd' : h.Distinct (ps.filter test) := hd.sublist (List.filter_sublist.map _)
  refine Option.ext fun v => ?_
  rw [find_eq_some hd', Option.filter_eq_some_iff, find_eq_some hd]
  constructor
  · rintro ⟨p, hp, rfl, rfl⟩
    obtain ⟨hp, htest⟩ := List.mem_filter.mp hp
    exact ⟨⟨p, hp, rfl, rfl⟩, by rw [← ht]; exact htest⟩
  · rintro ⟨⟨p, hp, rfl, rfl⟩, htest⟩
    exact ⟨p, List.mem_filter.mpr ⟨hp, by rw [ht]; exact htest⟩, rfl, rfl⟩

end Heap

/-- A step that may move the elements of a container but changes nothing of what it holds. -/
def Effect.Leaves (id : ContainerId) : Effect → Prop
  | .scrub other | .change other _ | .restore other | .create other _ => other ≠ id
  | _ => True

theorem Effect.leaves_of_still {id : ContainerId} : ∀ e : Effect, e = .still → e.Leaves id := by
  rintro e rfl
  trivial

theorem Effect.Readies.leaves {id : ContainerId} : ∀ e : Effect, e.Readies → e.Leaves id
  | _, .still => trivial
  | _, .nest => trivial

namespace Content

variable {h h' : Heap} {x x' : Content} {k : Identity} {a b : Account} {id : ContainerId}

/-- What a mapping holds under a key. -/
def find (h : Heap) (x : Content) (k : Identity) : Option Value := h.seek x.pairs x.overlay k

theorem find_of_none (ho : x.overlay = none) : x.find h k = h.find x.pairs k := by
  rw [find, ho, Heap.seek_none]

theorem find_eq : x.find h k = (h.find x.pending k).or (h.find x.pairs k) := by
  unfold find Heap.seek pending
  cases h.find ((x.overlay.map Overlay.pairs).getD []) k <;> rfl

theorem find_of_some {o : Overlay} (ho : x.overlay = some o) :
    x.find h k = (h.find o.pairs k).or (h.find x.pairs k) := by
  rw [find_eq]
  unfold pending
  rw [ho, Option.map_some, Option.getD_some]

theorem find_congr (hx : ∀ v ∈ x.held, h'.identity v = h.identity v) :
    x.find h' k = x.find h k := by
  have hpairs : h'.find x.pairs k = h.find x.pairs k :=
    Heap.find_congr fun p hp => hx _ (mem_held_of_pair hp).1
  cases ho : x.overlay with
  | none => rw [find_of_none ho, find_of_none ho, hpairs]
  | some o =>
    rw [find_of_some ho, find_of_some ho, hpairs, Heap.find_congr fun p hp => ?_]
    obtain ⟨i, e, hi, rfl⟩ := Overlay.mem_pairs.mp hp
    exact hx _ (mem_held_of_entry ho hi).1

/-- What a resident mapping holds under a key. -/
theorem find_of_resident {c : Container} {values : Array Value}
    (he : c.elements = .resident values) (swap : Swap) :
    (c.content swap).find h k = h.seek (Pair.ofBuffer values) c.overlay k := by
  unfold find pairs
  rw [Container.content_buffer he]
  rfl

/-- The key of what is found in a mapping is held by it. -/
theorem Tabled.exists_key {v : Value} (ht : x.Tabled h) (hv : x.find h k = some v) :
    ∃ w ∈ x.held, h.identity w = k := by
  rw [find_eq, Option.or_eq_some_iff] at hv
  rcases hv with hv | ⟨-, hv⟩
  · cases ho : x.overlay with
    | none =>
      unfold Content.pending at hv
      rw [ho] at hv
      cases hv
    | some o =>
      unfold Content.pending at hv
      rw [ho] at hv
      obtain ⟨i, e, hi, he, -⟩ := (ht.pending ho).find_pairs.mp hv
      exact ⟨e.key, (mem_held_of_entry ho hi).1, he⟩
  · obtain ⟨p, hp, he, -⟩ := (Heap.find_eq_some ht.table.distinct).mp hv
    exact ⟨p.1, (mem_held_of_pair hp).1, he⟩

/-! ## One step -/

theorem Becomes.find_leaves {e : Effect} (hbec : Becomes a id e x x') (he : e.Leaves id)
    (ht : x.Tabled a.store.heap) : x'.find a.store.heap k = x.find a.store.heap k := by
  cases hbec with
  | @absorb _ o values' released ho hm =>
    have hmerged := (Mapping.table_merged ht.table (ht.pending ho) hm).2 k
    rw [Heap.find_append] at hmerged
    rw [find_of_none rfl, find_of_some ho]
    exact hmerged
  | backUp | settle | transfer => rfl
  | scrub | compact | overwrite | overwriteValue | overwritePending | park | unpark | deletePair
  | restore | retag => exact absurd rfl he

/-- An edit changes what is held under one key. -/
theorem Becomes.find_change {k' : Identity} {r : Option Value}
    (hbec : Becomes a id (.change id (.entry k' r)) x x') (hw : x.Whole)
    (ht : x.Tabled a.store.heap) (ht' : x'.Tabled a.store.heap) :
    x'.find a.store.heap k = if k' = k then r else x.find a.store.heap k := by
  cases hbec with
  | @overwriteValue _ i v old hh hk ho hi hv hn hC =>
    have hlt := (Array.getElem?_eq_some_iff.mp hi).1
    have ho' : ({ x with buffer := x.buffer.setIfInBounds (2 * i + 1) v } : Content).overlay =
      none := ho
    rw [find_of_none ho', find_of_none ho]
    unfold pairs
    rw [Pair.ofBuffer_set hlt]
    exact Heap.find_set ht.table.distinct (Pair.getElem?_ofBuffer hlt)
  | @overwritePending _ o e i v hh ho hi hv hn hC =>
    rw [find_of_some rfl, find_of_some ho, (ht.pending ho).find_set hi hn]
    split <;> rfl
  | @park _ buckets e hh hk hkey hv hn hhash hnew hadd hC =>
    obtain ⟨hp, hsound⟩ := ht.pending_getD hw buckets
    have hold : x.find a.store.heap k =
        (a.store.heap.find (x.overlay.getD (.ofBuckets buckets)).pairs k).or
          (a.store.heap.find x.pairs k) := by
      cases ho : x.overlay with
      | none =>
        have hempty : a.store.heap.find (Overlay.ofBuckets buckets).pairs k = none :=
          Heap.Pending.find_pairs_none.mpr fun i d hi => absurd hi get?_ofBuckets_ne
        rw [find_of_none ho, Option.getD_none, hempty, Option.none_or]
      | some o => rw [find_of_some ho, Option.getD_some]
    rw [hold, find_of_some rfl, hp.find_insert hsound (ht'.pending rfl)]
    split <;> rfl
  | @unpark _ o e i hh ho hi =>
    rw [find_of_some rfl, find_of_some ho, (ht.pending ho).find_without hi]
    split
    · next hk =>
      rw [Option.none_or, hk]
      rfl
    · rfl
  | @deletePair _ i hh hk hi hno =>
    have hpairs : ({ x with
        buffer := x.buffer.extract 0 (2 * i) ++ x.buffer.extract (2 * i + 2) x.buffer.size } :
          Content).pairs = x.pairs.eraseIdx i := Pair.ofBuffer_cut hi
    have hcut := Heap.find_eraseIdx (k := k) ht.table.distinct (Pair.getElem?_ofBuffer hi)
    rw [find_eq, find_eq, hpairs, hcut]
    split
    · next hkey =>
      have hnone : a.store.heap.find x.pending k = none := by
        unfold pending
        cases ho : x.overlay with
        | none => rfl
        | some o => exact hkey ▸ Heap.Pending.find_pairs_none.mpr (hno o ho)
      rw [Option.or_none]
      exact hnone
    · rfl

/-- Compacting leaves out the pairs of which a half is lost. -/
theorem Becomes.find_scrub (hbec : Becomes a id (.scrub id) x x') (hk : x.kind = .mapping)
    (ht : x.Tabled a.store.heap) :
    x'.find a.store.heap k =
      (x.find a.store.heap k).filter fun v => !a.store.gone k && !a.store.lost v := by
  cases hbec with
  | scrub hnot => exact absurd hk hnot
  | @compact _ live _ ho hlive =>
    have hpairs : ({ x with
        scrubEpoch := a.store.objects.epoch
        buffer := Pair.toBuffer (Pair.kept x.pairs live) } : Content).pairs =
          x.pairs.filter fun p => !a.store.lost p.1 && !a.store.lost p.2 :=
      (Pair.ofBuffer_toBuffer _).trans (kept_eq_filter hlive)
    have ho' : ({ x with
        scrubEpoch := a.store.objects.epoch
        buffer := Pair.toBuffer (Pair.kept x.pairs live) } : Content).overlay = none := ho
    rw [find_of_none ho', find_of_none ho, hpairs]
    exact Heap.find_filter ht.table.distinct (fun k => !a.store.gone k) (fun v => !a.store.lost v)
      fun p => by rw [a.store.gone_identity]

end Content

/-! ## Along chains of steps -/

section

variable {a b : Account} {e : Effect} {id : ContainerId} {x' : Content}

/-- What a mapping holds after a step that leaves it alone it held before. -/
theorem Step.find (h : Step e a b) (ha : a.Kept) (he : e.Leaves id)
    (hx' : b.store.content? id = some x') (hk : x'.kind = .mapping) :
    ∃ x, a.store.content? id = some x ∧ x.kind = .mapping ∧
      ∀ k, x'.find b.store.heap k = x.find a.store.heap k := by
  have hstands : ∀ v ∈ x'.held, b.store.heap.identity v = a.store.heap.identity v := fun v hv =>
    (Content.stands h ha.accounted (h.accounted ha) hx' hv).identity
  cases h.content ha.accounted hx' with
  | kept hx => exact ⟨x', hx, hk, fun k => Content.find_congr hstands⟩
  | @becomes x _ hx hbec =>
    have hkx : x.kind = .mapping := by
      cases hbec <;> exact hk
    exact ⟨x, hx, hkx, fun k => (Content.find_congr hstands).trans
      (hbec.find_leaves he (ha.tabled.content hx hkx))⟩
  | made hcreate =>
    rw [hcreate] at he
    exact absurd rfl he

/-- What is found in a mapping on a path that leaves it alone. -/
theorem Path.find {E : Effect → Prop} (h : Path E a b) (ha : a.Kept) (hE : ∀ e, E e → e.Leaves id)
    (hx' : b.store.content? id = some x') (hk : x'.kind = .mapping) :
    ∃ x, a.store.content? id = some x ∧ x.kind = .mapping ∧
      ∀ k, x'.find b.store.heap k = x.find a.store.heap k := by
  induction h generalizing x' with
  | refl => exact ⟨x', hx', hk, fun _ => rfl⟩
  | tail h he hs ih =>
    obtain ⟨y, hy, hky, hfind⟩ := hs.find (h.kept ha) (hE _ he) hx' hk
    obtain ⟨x, hx, hkx, hfind'⟩ := ih hy hky
    exact ⟨x, hx, hkx, fun k => (hfind k).trans (hfind' k)⟩

/-- Arrays and records keep their elements in steps that leave them alone. -/
theorem Step.buffer (h : Step e a b) (ha : a.Kept) (he : e.Leaves id)
    (hx' : b.store.content? id = some x') (hk : x'.kind ≠ .mapping) :
    ∃ x, a.store.content? id = some x ∧ x.kind = x'.kind ∧ x.buffer = x'.buffer := by
  cases h.content ha.accounted hx' with
  | kept hx => exact ⟨x', hx, rfl, rfl⟩
  | @becomes x _ hx hbec =>
    refine ⟨x, hx, ?_⟩
    cases hbec with
    | absorb ho => exact absurd ((Content.whole ha.accounted hx).overlay ho).1 hk
    | backUp | settle | transfer => exact ⟨rfl, rfl⟩
    | scrub | compact | overwrite | overwriteValue | overwritePending | park | unpark | deletePair
    | restore | retag => exact absurd rfl he
  | made hcreate =>
    rw [hcreate] at he
    exact absurd rfl he

/-- What an array or record holds on a path that leaves it alone. -/
theorem Path.buffer {E : Effect → Prop} (h : Path E a b) (ha : a.Kept)
    (hE : ∀ e, E e → e.Leaves id) (hx' : b.store.content? id = some x') (hk : x'.kind ≠ .mapping) :
    ∃ x, a.store.content? id = some x ∧ x.kind = x'.kind ∧ x.buffer = x'.buffer := by
  induction h generalizing x' with
  | refl => exact ⟨x', hx', rfl, rfl⟩
  | tail h he hs ih =>
    obtain ⟨y, hy, hky, hbuffer⟩ := hs.buffer (h.kept ha) (hE _ he) hx' hk
    obtain ⟨x, hx, hkx, hbuffer'⟩ := ih hy (hky ▸ hk)
    exact ⟨x, hx, hkx.trans hky, hbuffer'.trans hbuffer⟩

end

end PlaneStore
