import PlaneStore.Proofs.Mapping.ValuesUnderKeys
import PlaneStore.Proofs.Totality.References
import PlaneStore.Proofs.Walk.Assignment
import PlaneStore.Proofs.Walk.Eviction

/-!
# The entries of a mapping

A mapping is a finite map from identities to values: the pending write of a key if there is one,
else its sorted value. What requests answer and change is told here in terms of this map.
-/

namespace PlaneStore

open Store

namespace Store

/-- What the mapping in a slot holds under an identity. -/
def entryAt? (s : Store) (id : ContainerId) (k : Identity) : Option Value :=
  (s.content? id).bind (·.find s.heap k)

/-- Whether a compacting merge leaves a pair alone. -/
def spares (s : Store) (k : Identity) (v : Value) : Bool := !s.gone k && !s.lost v

/-- Pairs that list the entries of a mapping in the order of its keys. -/
structure Listing (s : Store) (id : ContainerId) (ps : List Pair) : Prop where
  sorted : (ps.map Prod.fst).Pairwise fun a b => s.heap.le a b = true
  distinct : s.heap.Distinct ps
  find : ∀ k, s.heap.find ps k = s.entryAt? id k

variable {s : Store} {id : ContainerId} {x : Content}

@[simp] theorem seen_nil : s.seen .nil = .nil := ite_self _

theorem seen_of_lost {v : Value} (h : s.lost v = true) : s.seen v = .nil := if_pos h

theorem seen_of_kept {v : Value} (h : s.lost v = false) : s.seen v = v :=
  if_neg (Bool.not_eq_true _ ▸ h)

theorem spares_identity (v u : Value) :
    s.spares (s.heap.identity v) u = (!s.lost v && !s.lost u) := by
  unfold spares
  rw [gone_identity]

theorem entryAt?_of_content (hx : s.content? id = some x) (k : Identity) :
    s.entryAt? id k = x.find s.heap k := by
  unfold entryAt?
  rw [hx]
  rfl

theorem entryAt?_of_resident {c : Container} {values : Array Value}
    (hc : s.container? id = some c) (he : c.elements = .resident values) (k : Identity) :
    s.entryAt? id k = s.heap.seek (Pair.ofBuffer values) c.overlay k := by
  rw [entryAt?_of_content (content?_of_container hc)]
  exact Content.find_of_resident he s.swap

/-- A key that is listed has an entry, and the other way round. -/
theorem Listing.mem_keys {ps : List Pair} (h : s.Listing id ps) (k : Identity) :
    k ∈ ps.map (fun p => s.heap.identity p.1) ↔ s.entryAt? id k ≠ none := by
  rw [← h.find, ne_eq, Heap.find_eq_none, List.mem_map]
  push Not
  rfl

/-- Lists of the same entries are of one length. -/
theorem Listing.length_eq {s' : Store} {id' : ContainerId} {ps ps' : List Pair}
    (h : s.Listing id ps) (h' : s'.Listing id' ps')
    (hsame : ∀ k, s'.entryAt? id' k = s.entryAt? id k) : ps'.length = ps.length := by
  have hperm := (List.perm_ext_iff_of_nodup h'.distinct h.distinct).mpr fun k => by
    rw [h'.mem_keys, h.mem_keys, hsame]
  simpa using hperm.length_eq

end Store

/-! ## Mappings in hand -/

section

variable {E : Effect → Prop} {a b : Account} {e : Effect} {id : ContainerId} {x x' : Content}
  {k : Identity} {v : Value}

/-- A reference to a mapping leads to the content of one. -/
theorem Account.Kept.mapping (ha : a.Kept) (hm : a.flight.Covers (.container .mapping id)) :
    ∃ x, a.store.content? id = some x ∧ x.kind = .mapping := by
  obtain ⟨c, hc⟩ := (ha.there_of_flight hm).exists_container
  exact ⟨_, content?_of_container hc, (ha.fits_of_covers hm).mapping hc⟩

/-- What is found in a mapping is held by it. -/
theorem Account.Kept.held_of_find (ha : a.Kept) (hx : a.store.content? id = some x)
    (hk : x.kind = .mapping) (hv : x.find a.store.heap k = some v) : v ∈ x.held :=
  Content.mem_held_of_seek (ha.tabled.content hx hk) hv

theorem Account.covers_of_held (hx : a.store.content? id = some x) (hv : v ∈ x.held) :
    a.refs.Covers v := fun _ => Account.mem_refs_of_store (Content.mem_refs hx hv)

/-- The key of what is found in a mapping is held by it as well. -/
theorem Account.Kept.key_of_find (ha : a.Kept) (hx : a.store.content? id = some x)
    (hk : x.kind = .mapping) (hv : x.find a.store.heap k = some v) :
    ∃ w ∈ x.held, a.store.heap.identity w = k :=
  (ha.tabled.content hx hk).exists_key hv

theorem Account.Kept.covers_entry (ha : a.Kept) (hm : a.flight.Covers (.container .mapping id))
    (hv : a.store.entryAt? id k = some v) : a.refs.Covers v := by
  obtain ⟨x, hx, hk⟩ := ha.mapping hm
  rw [entryAt?_of_content hx] at hv
  exact Account.covers_of_held hx (ha.held_of_find hx hk hv)

theorem Refs.Covers.add_left {F : Refs} (G : Refs) (h : F.Covers v) : (G + F).Covers v :=
  fun hc => Multiset.mem_add.mpr (.inr (h hc))

theorem Path.entryAt? (h : Path E a b) (ha : a.Kept) (hE : ∀ e, E e → e.Leaves id)
    (hm : b.flight.Covers (.container .mapping id)) :
    b.store.entryAt? id k = a.store.entryAt? id k := by
  obtain ⟨x', hx', hk⟩ := (h.kept ha).mapping hm
  obtain ⟨x, hx, -, hfind⟩ := h.find ha hE hx' hk
  rw [entryAt?_of_content hx', entryAt?_of_content hx, hfind]

/-! ## Edits -/

theorem Content.Becomes.kind (h : Becomes a id e x x') : x'.kind = x.kind := by
  cases h <;> rfl

/-- An edit changes what is found under one key. -/
theorem Step.find_change {r : Option Value} (h : Change id (.entry k r) a b) (ha : a.Kept)
    (hx' : b.store.content? id = some x') (hk : x'.kind = .mapping) :
    ∃ x, a.store.content? id = some x ∧ x.kind = .mapping ∧
      ∀ k', x'.find b.store.heap k' = if k = k' then r else x.find a.store.heap k' := by
  have hstep := Step.change h
  have hstands : ∀ v ∈ x'.held, b.store.heap.identity v = a.store.heap.identity v := fun v hv =>
    (Content.stands hstep ha.accounted (hstep.accounted ha) hx' hv).identity
  obtain ⟨c, d, hc, hb, hbec⟩ := Content.change_becomes h
  have hx := content?_of_container hc
  rw [hb] at hx'
  obtain ⟨-, rfl⟩ := (content?_withContainer_cases hc hx').resolve_right fun hne => hne.1 rfl
  have hkx := hbec.kind.symm.trans hk
  have ht := ha.tabled.content hx hkx
  have hw := Content.whole ha.accounted hx
  have ht' := hbec.tabled hw ht (fun {cl y ledger} hq hl hy => by
    have hmem := Account.mem_backups_of_closing hq hl
    exact ha.tabled.backup hmem ((ha.accounted.backup_kind hmem (hy ▸ hx)).mpr hkx)) hk
  exact ⟨_, hx, hkx, fun k' => (Content.find_congr hstands).trans (hbec.find_change hw ht ht')⟩

/-- An assignment that was made changes the entry of one key. -/
theorem Makes.find {r : Option Value} (h : Makes id (.entry k r) a b) (ha : a.Kept)
    (hx' : b.store.content? id = some x') (hk : x'.kind = .mapping) :
    ∃ x, a.store.content? id = some x ∧ x.kind = .mapping ∧
      ∀ k', x'.find b.store.heap k' = if k = k' then r else x.find a.store.heap k' := by
  obtain ⟨c, d, hbefore, hchange, hafter⟩ := h
  have hc := hbefore.kept ha
  have hd := (Step.change hchange).kept hc
  obtain ⟨y, hy, hky, hfind⟩ := hafter.find hd Effect.Readies.leaves hx' hk
  obtain ⟨z, hz, hkz, hchanged⟩ := Step.find_change hchange hc hy hky
  obtain ⟨x, hx, hkx, hfind'⟩ := hbefore.find ha Effect.Readies.leaves hz hkz
  exact ⟨x, hx, hkx, fun k' => by rw [hfind, hchanged, hfind']⟩

/-- An assignment puts a value under its key, or takes the key out if the value is nil. -/
theorem Mapping.Assigned.entryAt? {w : Value} (h : Mapping.Assigned id k w a b) (ha : a.Kept)
    (hm : b.flight.Covers (.container .mapping id)) (k' : Identity) :
    b.store.entryAt? id k' =
      if k = k' then (if w = .nil then none else some w) else a.store.entryAt? id k' := by
  have hb : b.Kept := (h.path (E := fun _ => True) trivial trivial fun _ _ => trivial).kept ha
  obtain ⟨x', hx', hk⟩ := hb.mapping hm
  rw [entryAt?_of_content hx']
  cases h with
  | written hw h =>
    obtain ⟨x, hx, -, hfind⟩ := h.find ha hx' hk
    rw [hfind, entryAt?_of_content hx, if_neg hw]
  | @deleted _ c _ h _ h' =>
    -- What was done to the key before it was taken out leaves other keys alone.
    have hc : c.Kept := by
      rcases h with h | ⟨r, h⟩
      · exact h.kept ha
      · exact (h.path (E := fun _ => True) trivial trivial trivial).kept ha
    obtain ⟨y, hy, hky, hfind⟩ := h'.find hc hx' hk
    rw [hfind, if_pos rfl]
    split
    · rfl
    · next hne =>
      rcases h with h | ⟨r, h⟩
      · obtain ⟨x, hx, -, hfind'⟩ := h.find ha Effect.Readies.leaves hy hky
        rw [hfind', entryAt?_of_content hx]
      · obtain ⟨x, hx, -, hfind'⟩ := h.find ha hy hky
        rw [hfind', entryAt?_of_content hx, if_neg hne]
  | absent h habsent =>
    obtain ⟨x, hx, -, hfind⟩ := h.find ha Effect.leaves_of_still hx' hk
    obtain ⟨c, values, hc, he, hnone⟩ := habsent
    rw [if_pos rfl]
    split
    · next heq =>
      rw [← heq, ← entryAt?_of_content hx', entryAt?_of_resident hc he, hnone]
    · rw [hfind, entryAt?_of_content hx]

/-! ## Compacting -/

/-- The effects of looking after one container. -/
def Effect.Keeps (id : ContainerId) (e : Effect) : Prop := e = .still ∨ e = .scrub id

theorem Effect.Keeps.calm : ∀ e : Effect, e.Keeps id → e.Calm
  | _, .inl rfl => trivial
  | _, .inr rfl => trivial

/-- What stands for the same thing is spared in both stores or in none. -/
theorem Path.spares (h : Path E a b) (ha : a.Kept) (hE : ∀ e, E e → e.Calm)
    (hx : b.store.content? id = some x) (hk : x.kind = .mapping)
    (hv : x.find b.store.heap k = some v) : b.store.spares k v = a.store.spares k v := by
  have hb := h.kept ha
  have hobjects := (h.marks ha hE).objects
  obtain ⟨w, hw, rfl⟩ := hb.key_of_find hx hk hv
  have hstandsKey := h.stands ha hE (Account.covers_of_held hx hw)
  have hstands := h.stands ha hE (Account.covers_of_held hx (hb.held_of_find hx hk hv))
  unfold Store.spares
  rw [gone_identity, hstandsKey.identity, gone_identity, hstandsKey.lost hobjects,
    hstands.lost hobjects]

/-- What tends to a mapping leaves an entry or takes it away if it is lost. -/
theorem Step.sifted (h : Step e a b) (ha : a.Kept) (he : e.Tends)
    (hx' : b.store.content? id = some x') (hk : x'.kind = .mapping) :
    ∃ x, a.store.content? id = some x ∧ x.kind = .mapping ∧
      ∀ k, x'.find b.store.heap k = x.find a.store.heap k ∨
        x'.find b.store.heap k = (x.find a.store.heap k).filter (a.store.spares k) := by
  by_cases hleaves : e.Leaves id
  · obtain ⟨x, hx, hkx, hfind⟩ := h.find ha hleaves hx' hk
    exact ⟨x, hx, hkx, fun k => .inl (hfind k)⟩
  obtain rfl : e = .scrub id := by
    cases he with
    | still => exact absurd trivial hleaves
    | scrub other => exact congrArg Effect.scrub (not_ne_iff.mp hleaves)
  have hstands : ∀ v ∈ x'.held, b.store.heap.identity v = a.store.heap.identity v := fun v hv =>
    (Content.stands h ha.accounted (h.accounted ha) hx' hv).identity
  cases h.content ha.accounted hx' with
  | kept hx => exact ⟨x', hx, hk, fun k => .inl (Content.find_congr hstands)⟩
  | @becomes x _ hx hbec =>
    have hkx := hbec.kind.symm.trans hk
    exact ⟨x, hx, hkx, fun k => .inr ((Content.find_congr hstands).trans
      (hbec.find_scrub hkx (ha.tabled.content hx hkx)))⟩
  | made hcreate => cases hcreate

/-- Along upkeep a mapping keeps its entries, or those of them that are spared. -/
theorem Path.sifted (h : Path Effect.Tends a b) (ha : a.Kept)
    (hx' : b.store.content? id = some x') (hk : x'.kind = .mapping) :
    ∃ x, a.store.content? id = some x ∧ x.kind = .mapping ∧
      ∀ k, x'.find b.store.heap k = x.find a.store.heap k ∨
        x'.find b.store.heap k = (x.find a.store.heap k).filter (a.store.spares k) := by
  induction h generalizing x' with
  | refl => exact ⟨x', hx', hk, fun _ => .inl rfl⟩
  | @tail b c e h he hs ih =>
    obtain ⟨y, hy, hky, hstep⟩ := hs.sifted (h.kept ha) he hx' hk
    obtain ⟨x, hx, hkx, hbefore⟩ := ih hy hky
    refine ⟨x, hx, hkx, fun k => ?_⟩
    rcases hstep k with hstep | hstep
    · rw [hstep]
      exact hbefore k
    -- No object is destroyed on the way, so what is spared now is what was spared at first.
    have hsame : (y.find b.store.heap k).filter (b.store.spares k) =
        (y.find b.store.heap k).filter (a.store.spares k) := by
      cases hv : y.find b.store.heap k with
      | none => rfl
      | some v =>
        rw [Option.filter_some, Option.filter_some, h.spares ha Effect.Tends.calm hy hky hv]
    right
    rw [hstep, hsame]
    rcases hbefore k with hbefore | hbefore
    · rw [hbefore]
    · rw [hbefore, Option.filter_filter]
      simp only [Bool.and_self]

/-- A mapping that was just scrubbed has all of its entries spared. -/
theorem Account.Kept.spares_of_fresh (ha : a.Kept) (hx : a.store.content? id = some x)
    (hk : x.kind = .mapping) (hfresh : x.scrubEpoch = a.store.objects.epoch)
    (hv : x.find a.store.heap k = some v) : a.store.spares k v = true := by
  have halive := (ha.fresh.content hx).alive hfresh
  obtain ⟨w, hw, rfl⟩ := ha.key_of_find hx hk hv
  unfold Store.spares
  rw [gone_identity, halive w hw, halive v (ha.held_of_find hx hk hv)]
  rfl

/-- Of a mapping that was scrubbed along the way the entries are left that are spared. -/
theorem Path.compacted (h : Path Effect.Tends a b) (ha : a.Kept)
    (hx' : b.store.content? id = some x') (hk : x'.kind = .mapping)
    (hfresh : x'.scrubEpoch = b.store.objects.epoch) (k : Identity) :
    b.store.entryAt? id k = (a.store.entryAt? id k).filter (a.store.spares k) := by
  obtain ⟨x, hx, hkx, hsifted⟩ := h.sifted ha hx' hk
  rw [entryAt?_of_content hx', entryAt?_of_content hx]
  rcases hsifted k with hall | hspared
  · rw [← hall]
    cases hv : x'.find b.store.heap k with
    | none => rfl
    | some v =>
      have hspares := (h.kept ha).spares_of_fresh hx' hk hfresh hv
      rw [h.spares ha Effect.Tends.calm hx' hk hv] at hspares
      rw [Option.filter_some, if_pos hspares]
  · exact hspared

end

/-! ## What requests answer and leave -/

section

variable {s s' : Store} {F : Refs} {C : Charges} {q : Option Closing} {id : ContainerId}
  {key : Value} {k : Identity}

/-- The sorted pairs of a mapping without pending writes list its entries. -/
theorem Account.Kept.listing {a : Account} {c : Container} {values : Array Value} (ha : a.Kept)
    (hc : a.store.container? id = some c) (hk : c.kind = .mapping)
    (he : c.elements = .resident values) (ho : c.overlay = none) :
    a.store.Listing id (Pair.ofBuffer values) := by
  obtain ⟨ht, -⟩ := ha.tables hc hk he
  refine ⟨ht.sorted, ht.distinct, fun k => ?_⟩
  rw [entryAt?_of_resident hc he, ho, Heap.seek_none]

/-- Without pending writes the size of a mapping is the number of its pairs. -/
theorem Container.size_of_clean {c : Container} {values : Array Value} (hk : c.kind = .mapping)
    (he : c.elements = .resident values) (ho : c.overlay = none) :
    c.size = (Pair.ofBuffer values).length := by
  rw [Pair.length_ofBuffer]
  unfold Container.size
  rw [hk, he, ho]
  rfl

/-- A lookup answers with the entry as it is seen, or nil. -/
theorem mapGet_answers {r : Except Refusal Value} (ha : Account.Kept ⟨s, F, C, q⟩)
    (hm : F.Covers (.container .mapping id)) (hkey : F.Covers key)
    (h : Mapping.get (.container .mapping id) key s = .ok (r, s')) :
    r = .ok (s.seen ((s.entryAt? id (s.heap.identity key)).getD .nil)) ∧
      ∀ k, s'.entryAt? id k = s.entryAt? id k := by
  have hwalk := walk_mapGet ha hm h
  cases r with
  | error e => exact absurd rfl (hwalk.1 id)
  | ok w =>
    obtain ⟨id', c, values, t, hid, hpath, hc, he, rfl, hpath'⟩ := hwalk
    obtain ⟨-, rfl⟩ := Value.container.inj hid
    have ht := hpath.kept ha
    have hidentity := (hpath.stands ha Effect.calm_of_still (Refs.Covers.of_flight hkey)).identity
    rw [← entryAt?_of_resident hc he, hidentity]
    have hentry : ∀ k, t.entryAt? id k = s.entryAt? id k := fun k =>
      hpath.entryAt? ha Effect.leaves_of_still hm
    refine ⟨?_, fun k => ?_⟩
    · rw [hentry]
      cases hv : s.entryAt? id (s.heap.identity key) with
      | none => rfl
      | some v =>
        rw [← hentry] at hv
        rw [Option.getD_some, hpath.seen ha Effect.calm_of_still (ht.covers_entry hm hv)]
    · exact (hpath'.entryAt? ht Effect.leaves_of_still (hm.add_left _)).trans (hentry k)

/-- Loading a mapping changes none of its entries. -/
theorem faultIn_entryAt? {u : Unit} (ha : Account.Kept ⟨s, F, C, q⟩)
    (hm : F.Covers (.container .mapping id)) (h : faultIn id s = .ok (u, s')) (k : Identity) :
    s'.entryAt? id k = s.entryAt? id k :=
  (walk_faultIn (E := (· = .still)) (F := F) (C := C) (q := q) rfl h).1.entryAt? ha
    Effect.leaves_of_still hm

/-- A key is contained if it has an entry. -/
theorem mapContains_answers {r : Except Refusal Bool} (ha : Account.Kept ⟨s, F, C, q⟩)
    (hm : F.Covers (.container .mapping id)) (hkey : F.Covers key)
    (h : Mapping.contains (.container .mapping id) key s = .ok (r, s')) :
    r = .ok (s.entryAt? id (s.heap.identity key)).isSome ∧
      ∀ k, s'.entryAt? id k = s.entryAt? id k := by
  obtain ⟨u, t, h₁, h⟩ := ClientM.lift_bind_eq_ok.mp h
  obtain ⟨found, s₂, h₂, h⟩ := ClientM.lift_bind_eq_ok.mp h
  obtain ⟨hpath, c₀, values, -, hc⟩ :=
    walk_faultIn (E := (· = .still)) (F := F) (C := C) (q := q) rfl h₁
  have ht := hpath.kept ha
  have hk := (ht.fits_of_covers hm).mapping hc
  obtain ⟨htable, hpending⟩ := ht.tables hc hk rfl
  obtain ⟨rfl, hfound⟩ := Mapping.lookup_eq_ok hc rfl htable hpending h₂
  obtain ⟨rfl, rfl⟩ := ClientM.pure_eq_ok.mp h
  have hentry := faultIn_entryAt? ha hm h₁
  have hidentity := (hpath.stands ha Effect.calm_of_still (Refs.Covers.of_flight hkey)).identity
  refine ⟨?_, hentry⟩
  rw [hfound, ← hentry, ← hidentity, entryAt?_of_resident hc rfl]
  cases hv : t.heap.seek (Pair.ofBuffer values) c₀.overlay (t.heap.identity key) with
  | none => rfl
  | some v =>
    -- An entry is never nil, so to have one is to find something other than nil.
    have hne : v.isNil = false := by
      rw [Bool.eq_false_iff, ne_eq, Value.isNil_iff]
      rintro rfl
      exact Heap.seek_ne_nil htable hpending hv
    rw [Option.getD_some, hne]
    rfl

/-- The effects of a merge. -/
def Effect.Merges (id : ContainerId) (compact : Bool) (e : Effect) : Prop :=
  e = .still ∨ compact = true ∧ e = .scrub id

theorem Effect.Merges.tends {compact : Bool} : ∀ e : Effect, e.Merges id compact → e.Tends
  | _, .inl rfl => .still
  | _, .inr ⟨_, rfl⟩ => .scrub id

/-- A merge leaves a mapping without pending writes; if it compacts, what it spares stays. -/
theorem mergeOverlay_clean {compact : Bool} {u : Unit} (ha : Account.Kept ⟨s, F, C, q⟩)
    (hm : F.Covers (.container .mapping id))
    (h : Mapping.mergeOverlay id compact s = .ok (u, s')) :
    Path (Effect.Merges id compact) ⟨s, F, C, q⟩ ⟨s', F, C, q⟩ ∧
      (∀ k, s'.entryAt? id k =
        if compact then (s.entryAt? id k).filter (s.spares k) else s.entryAt? id k) ∧
      ∃ c values, s'.container? id = some c ∧ c.kind = .mapping ∧ c.elements = .resident values ∧
        c.overlay = none ∧ s'.Listing id (Pair.ofBuffer values) := by
  obtain ⟨hpath, hpost⟩ := walk_mergeOverlay (E := Effect.Merges id compact) (.inl rfl)
    (fun hc => .inr ⟨hc, rfl⟩) ha (fun _ c hc => (ha.fits_of_covers hm).mapping hc) h
  have ha' := hpath.kept ha
  obtain ⟨x, hx, hk⟩ := ha'.mapping hm
  obtain ⟨c, hc, rfl⟩ := content?_eq_some.mp hx
  obtain ⟨c₀, values, -, he, ho, -, hepoch⟩ := hpost c hc
  refine ⟨hpath, fun k => ?_, c, values, hc, hk, he, ho, ha'.listing hc hk he ho⟩
  cases compact with
  | true =>
    exact (hpath.mono Effect.Merges.tends).compacted ha hx hk (hepoch rfl) k
  | false =>
    refine hpath.entryAt? ha (fun e he => ?_) hm
    rcases he with rfl | ⟨hf, -⟩
    · trivial
    · cases hf

/-- The size of a mapping is the number of its entries that compacting spares. -/
theorem mapSize_answers {r : Except Refusal Nat} (ha : Account.Kept ⟨s, F, C, q⟩)
    (hm : F.Covers (.container .mapping id))
    (h : Mapping.size (.container .mapping id) s = .ok (r, s')) :
    Path (Effect.Merges id true) ⟨s, F, C, q⟩ ⟨s', F, C, q⟩ ∧
      (∀ k, s'.entryAt? id k = (s.entryAt? id k).filter (s.spares k)) ∧
      ∃ ps, s'.Listing id ps ∧ r = .ok ps.length := by
  obtain ⟨u, s₁, h₁, h⟩ := ClientM.lift_bind_eq_ok.mp h
  obtain ⟨c, s₂, h₂, h⟩ := ClientM.lift_bind_eq_ok.mp h
  obtain ⟨hc, rfl⟩ := StoreM.container_eq_ok.mp h₂
  obtain ⟨rfl, rfl⟩ := ClientM.pure_eq_ok.mp h
  obtain ⟨hpath, hentries, c', values, hc', hk, he, ho, hlisting⟩ := mergeOverlay_clean ha hm h₁
  obtain rfl := Option.some.inj (hc'.symm.trans hc)
  refine ⟨hpath, hentries, _, hlisting, ?_⟩
  rw [Container.size_of_clean hk he ho]

/-- The elements of a mapping are its entries. -/
theorem mapElements_answers {r : Except Refusal (Array Value)} (ha : Account.Kept ⟨s, F, C, q⟩)
    (hm : F.Covers (.container .mapping id))
    (h : Store.elements (.container .mapping id) s = .ok (r, s')) :
    Path (Effect.Merges id false) ⟨s, F, C, q⟩ ⟨s', F, C, q⟩ ∧
      (∀ k, s'.entryAt? id k = s.entryAt? id k) ∧
      ∃ ps, s'.Listing id ps ∧ r = .ok (Pair.toBuffer ps) := by
  obtain ⟨values, rfl, h₁⟩ := ClientM.lift_eq_ok.mp h
  obtain ⟨u, s₁, hmerge, h₂⟩ := StoreM.bind_eq_ok.mp h₁
  obtain ⟨⟨c, hc, he⟩, rfl⟩ := StoreM.residentValues_eq_ok.mp h₂
  obtain ⟨hpath, hentries, c', values', hc', hk, he', ho, hlisting⟩ :=
    mergeOverlay_clean ha hm hmerge
  obtain rfl := Option.some.inj (hc'.symm.trans hc)
  obtain rfl := Elements.resident.inj (he'.symm.trans he)
  refine ⟨hpath, hentries, _, hlisting, ?_⟩
  have heven := (Content.whole (hpath.kept ha).accounted (content?_of_container hc)).even hk
  rw [Container.content_buffer he] at heven
  rw [Pair.toBuffer_ofBuffer heven]

end

end PlaneStore
