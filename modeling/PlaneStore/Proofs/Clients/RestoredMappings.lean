import PlaneStore.Proofs.Mapping.RestoredPairs
import PlaneStore.Proofs.Clients.StoreLimits
import PlaneStore.Proofs.Clients.FiniteMappings

/-!
# Mappings from storage as clients see them

A mapping that comes from storage holds what a new mapping holds after its pairs have been assigned
one after the other, where those whose key is nil or destroyed are refused and passed over.
-/

namespace PlaneStore

open Store

namespace Client

variable {limits : Limits} {c c' : Client} {id : ContainerId} {key value : Value}

/-! ## Pair by pair -/

/--
The pairs are assigned one after the other. A pair is refused if a reader sees its key as nil, and
for no other reason.
-/
inductive Assigns (m : Value) : Client → List Pair → Client → Prop
  | nil (c : Client) : Assigns m c [] c
  | cons {c c₁ c₂ : Client} {p : Pair} {ps : List Pair} {outcome : Outcome}
    (h : c.Requests (.assign m p.1 p.2) outcome c₁)
    (houtcome : outcome =
      if c.store.seen p.1 = .nil then .error (.expected "live key" p.1) else .ok .done)
    (hrest : Assigns m c₁ ps c₂) : Assigns m c (p :: ps) c₂

/-- Assigning a pair to a mapping with room for it. -/
theorem Reachable.assigns_pair {p : Pair} {K : List Identity} (h : Reachable limits c)
    (hm : c.owned.Covers (.container .mapping id)) (hkey : c.owned.Covers p.1)
    (hvalue : c.owned.Covers p.2) (hK : ∀ k, c.store.entryAt? id k ≠ none → k ∈ K)
    (hroom : K.length < limits.containerSize) : ∃ outcome c₁,
      c.Requests (.assign (.container .mapping id) p.1 p.2) outcome c₁ ∧
      outcome = (if c.store.seen p.1 = .nil then .error (.expected "live key" p.1) else .ok .done) ∧
      c₁.store.entryAt? id =
        c.store.heap.overwrite (c.store.entryAt? id) (c.store.seen p.1, c.store.seen p.2) := by
  obtain ⟨outcome, c₁, hr⟩ := h.request (.assign (.container .mapping id) p.1 p.2)
    (List.forall_mem_cons.mpr ⟨hm, List.forall_mem_cons.mpr
      ⟨hkey, List.forall_mem_singleton.mpr hvalue⟩⟩) nofun
  obtain ⟨r, hassign, rfl⟩ := ClientM.bind_pure_eq_ok.mp hr.performed
  obtain ⟨ks, hnodup, hks, hverdict⟩ := mapAssign_answers h.kept hm hkey hvalue hassign
  unfold Mapping.verdict at hverdict
  split_ifs at hverdict with hnil hfull
  · subst hverdict
    refine ⟨_, c₁, hr, (if_pos hnil).symm, funext fun k => ?_⟩
    have hstill : Path (· = .still) c.account ⟨c₁.store, c.owned, 0, none⟩ :=
      walk_mapAssign h.kept hm hkey hvalue hassign
    rw [hstill.entryAt? h.kept Effect.leaves_of_still hm, hnil]
    rfl
  · -- A new key would find room, for all keys of the mapping are among those that are counted.
    have hle := (List.subperm_of_subset hnodup fun k hk => hK k ((hks k).mp hk)).length_le
    have hlt := hfull.2.2
    rw [h.limits_eq] at hlt
    omega
  · subst hverdict
    refine ⟨_, c₁, hr, (if_neg hnil).symm, funext fun k => ?_⟩
    have hsolid : c.store.lost p.1 = false :=
      Bool.eq_false_iff.mpr fun hl => hnil (seen_of_lost hl)
    rw [seen_of_kept hsolid] at hnil ⊢
    rw [hr.assign_entries h.kept k]
    unfold Heap.overwrite
    rw [if_neg fun hn => hnil (Value.isNil_iff.mp hn), Function.update_apply]
    refine if_congr eq_comm ?_ rfl
    unfold Store.seen
    by_cases hl : c.store.lost p.2 = true
    · simp [hl, Value.isNil]
    · simp [hl, Value.isNil_iff]

/-- Assigning pairs leaves what writing them in turn does. -/
theorem Reachable.assigns {ps : List Pair} {K : List Identity} (h : Reachable limits c)
    (hm : c.owned.Covers (.container .mapping id))
    (hps : ∀ p ∈ ps, c.owned.Covers p.1 ∧ c.owned.Covers p.2)
    (hK : ∀ k, c.store.entryAt? id k ≠ none → k ∈ K)
    (hroom : K.length + ps.length ≤ limits.containerSize) :
    ∃ c', c.Assigns (.container .mapping id) ps c' ∧ c'.store.entryAt? id =
      (c.store.seenPairs ps).foldl c.store.heap.overwrite (c.store.entryAt? id) := by
  induction ps generalizing c K with
  | nil => exact ⟨c, .nil c, rfl⟩
  | cons p ps ih =>
    obtain ⟨⟨hkey, hvalue⟩, hrest⟩ := List.forall_mem_cons.mp hps
    rw [List.length_cons] at hroom
    obtain ⟨outcome, c₁, hr, houtcome, hentries⟩ := h.assigns_pair hm hkey hvalue hK (by omega)
    obtain ⟨howned, hpath⟩ :=
      hr.assign_path (E := Effect.Touches id) trivial trivial (fun _ => rfl) h.kept
    have hseen : ∀ v : Value, c.owned.Covers v → c₁.store.seen v = c.store.seen v := fun v hv =>
      hpath.seen h.kept Effect.Touches.calm (howned ▸ hv).of_flight
    have hK₁ : ∀ k, c₁.store.entryAt? id k ≠ none →
        k ∈ c.store.heap.identity (c.store.seen p.1) :: K := fun k hk => by
      rw [hentries, Heap.overwrite] at hk
      by_cases hkp : k = c.store.heap.identity (c.store.seen p.1)
      · exact hkp ▸ List.mem_cons_self
      · refine List.mem_cons_of_mem _ (hK k ?_)
        split at hk
        · exact hk
        · rwa [Function.update_of_ne hkp] at hk
    obtain ⟨c', hassigns, hall⟩ := ih (h.next hr) (howned ▸ hm) (howned ▸ hrest) hK₁ (by
      rw [List.length_cons]
      omega)
    refine ⟨c', .cons hr houtcome hassigns, ?_⟩
    have hpairs : c₁.store.seenPairs ps = c.store.seenPairs ps := List.map_congr_left fun q hq =>
      Prod.ext (hseen _ (hrest q hq).1) (hseen _ (hrest q hq).2)
    rw [hall, hentries, hpairs]
    -- The assignment changes no identity, so the rest is folded in the same way from either store.
    refine List.foldl_ext _ _ _ fun M q hq => ?_
    obtain ⟨r, hr, rfl⟩ := List.mem_map.mp hq
    have hcovers : c₁.owned.Covers (c.store.seen r.1) := howned ▸ (hrest r hr).1.seen
    have hidentity : c₁.store.heap.identity (c.store.seen r.1) =
        c.store.heap.identity (c.store.seen r.1) :=
      (hpath.stands h.kept Effect.Touches.calm hcovers.of_flight).identity
    simp only [Heap.overwrite, hidentity]

/-! ## All at once -/

/-- A new mapping is empty. -/
theorem Reachable.creates {ds : DataspaceId} {d : Dataspace} {n : Nat} (h : Reachable limits c)
    (hd : c.store.dataspace? ds = some d) (hn : n ≤ limits.containerSize)
    (hroom : c.store.heap.liveContainers < limits.containers) : ∃ m c₁,
      c.Requests (.createMapping ds n) (.ok (.value (.container .mapping m))) c₁ ∧
      Bears c.store 0 m (.new c.store ds .mapping []) c₁.store := by
  obtain ⟨outcome, c₁, hr⟩ := h.request (.createMapping ds n) nofun nofun
  obtain ⟨r, hcreate, rfl⟩ := ClientM.bind_pure_eq_ok.mp hr.performed
  have hlimits := h.limits_eq
  obtain ⟨m, rfl, hbears⟩ := createMapping_bears h.kept.accounted.balanced.containers hd
    (hlimits ▸ hn) (hlimits ▸ hroom) hcreate
  exact ⟨m, c₁, hr, hbears⟩

/-- What was owned before a container is made is read as before. -/
theorem Reachable.seenPairs_of_bears {ps : List Pair} {R : Refs} {x : Content}
    (h : Reachable limits c)
    (hb : Bears c.store R id x c'.store)
    (hps : ∀ p ∈ ps, c.owned.Covers p.1 ∧ c.owned.Covers p.2) :
    c'.store.seenPairs ps = c.store.seenPairs ps := by
  have hseen : ∀ v : Value, c.owned.Covers v → c'.store.seen v = c.store.seen v := fun v hv => by
    unfold Store.seen
    rw [hb.lost fun shape other hvo => ?_]
    rintro rfl
    obtain ⟨d, hd⟩ := (h.kept.there_of_flight (hvo ▸ hv)).exists_container
    cases (content?_of_container hd).symm.trans hb.free
  exact List.map_congr_left fun p hp => Prod.ext (hseen _ (hps p hp).1) (hseen _ (hps p hp).2)

/--
A mapping that comes from storage is sorted by key, has each key once and neither nil keys nor nil
values; it has its tag, and one reference. Counts go up by what it holds, and so not at all for what
was dropped or superseded. It holds under each key what a new mapping does after its pairs have been
assigned in turn.
-/
theorem Reachable.restores {ds : DataspaceId} {d : Dataspace} {vs : List Value}
    (h : Reachable limits c) (tag : Nat) (hvs : ∀ v ∈ vs, c.owned.Covers v)
    (hd : c.store.dataspace? ds = some d) (heven : vs.length % 2 = 0)
    (hsize : vs.length / 2 ≤ limits.containerSize)
    (hroom : c.store.heap.liveContainers < limits.containers) :
    ∃ (id : ContainerId) (c' : Client) (x : Content),
      c.Requests (.restore ds .mapping tag vs) (.ok (.value (.container .mapping id))) c' ∧
      c.store.content? id = none ∧ c'.store.content? id = some x ∧
      x.kind = .mapping ∧ x.tag = tag ∧ x.owner = ds ∧ x.home = c.store.level ∧ x.overlay = none ∧
      x.buffer.size % 2 = 0 ∧ c'.store.heap.Table (Pair.ofBuffer x.buffer) ∧
      (∀ t, c'.store.heap.count? t = if t = .container id then some 1
        else (c.store.heap.count? t).map (· + Refs.tally ↑x.buffer.toList t)) ∧
      (∀ other, other ≠ id → c'.store.content? other = c.store.content? other) ∧
      ∀ n ≤ limits.containerSize, ∃ (m : ContainerId) (c₁ c₂ : Client),
        c.Requests (.createMapping ds n) (.ok (.value (.container .mapping m))) c₁ ∧
        c₁.Assigns (.container .mapping m) (Pair.ofFlat vs) c₂ ∧
        ∀ k, c'.store.entryAt? id k = c₂.store.entryAt? m k := by
  obtain ⟨outcome, c', hr⟩ := h.request (.restore ds .mapping tag vs) hvs nofun
  obtain ⟨r, hrestore, rfl⟩ := ClientM.bind_pure_eq_ok.mp hr.performed
  have hs := h.kept.accounted.balanced.containers
  have hlimits := h.limits_eq
  obtain ⟨id, ps, rfl, hfind, hbears⟩ := restore_bears hs hd heven (hlimits ▸ hsize)
    (hlimits ▸ hroom) hrestore
  have hkept := (h.next hr).kept
  obtain ⟨htable, hnew⟩ := hbears.find_new rfl rfl rfl hkept
  have hentries : ∀ k, c'.store.entryAt? id k =
      c.store.heap.writes (c.store.seenPairs (Pair.ofFlat vs)) k := fun k =>
    (hnew k).trans (hfind k)
  rw [← Pair.ofBuffer_toBuffer ps] at htable
  refine ⟨id, c', _, hr, hbears.free, hbears.made, rfl, rfl, rfl, rfl, rfl,
    (Content.whole hkept.accounted hbears.made).even rfl, htable, hbears.count, hbears.others,
      fun n hn => ?_⟩
  -- The mapping to compare with is made empty, and the pairs are assigned to it one by one.
  obtain ⟨m, c₁, hr₁, hbears₁⟩ := h.creates hd hn hroom
  have howned : ∀ v, c.owned.Covers v → c₁.owned.Covers v := fun v hv => by
    rw [hr₁.settled]
    exact hv.add_left _
  have hps : ∀ p ∈ Pair.ofFlat vs, c.owned.Covers p.1 ∧ c.owned.Covers p.2 := fun p hp =>
    ⟨hvs _ (Pair.mem_of_ofFlat hp).1, hvs _ (Pair.mem_of_ofFlat hp).2⟩
  have hempty : c₁.store.entryAt? m = fun _ => none := funext fun k => by
    rw [entryAt?_of_content hbears₁.made]
    rfl
  have hm : c₁.owned.Covers (.container .mapping m) := by
    rw [hr₁.settled]
    exact fun _ => Multiset.mem_add.mpr (.inl (Multiset.mem_singleton_self _))
  obtain ⟨c₂, hassigns, hall⟩ := (h.next hr₁).assigns (K := []) hm
    (fun p hp => ⟨howned _ (hps p hp).1, howned _ (hps p hp).2⟩)
    (fun k hk => absurd (congrFun hempty k) hk)
    (by rw [Pair.length_ofFlat, List.length_nil, Nat.zero_add]; exact hsize)
  refine ⟨m, c₁, c₂, hr₁, hassigns, fun k => ?_⟩
  have hidentity : c₁.store.heap.overwrite = c.store.heap.overwrite := by
    funext M p
    unfold Heap.overwrite
    rw [hbears₁.texts.identity]
  rw [hentries, hall, hempty, h.seenPairs_of_bears hbears₁ hps, hidentity]
  rfl

/--
Requests after which a client owns equal texts in different slots and knows a destroyed object.
-/
def strayKeys : List Operation :=
  [.createDataspace 0, .createString "name", .createString "name", .spawn, .destroy ⟨0, 0⟩]

/-- Pairs of which one text is deleted under its other slot, and two have no key. -/
def strayPairs : List Value :=
  [.string ⟨0⟩, .int 1, .int 7, .int 2, .nil, .int 3, .object ⟨0, 0⟩, .int 4, .string ⟨1⟩, .nil,
    .int 7, .string ⟨1⟩]

/-- A repeated key, a nil key and a nil value among the pairs that are restored. -/
theorem restores_strayPairs : ∃ (c c' c₁ c₂ : Client) (id m : ContainerId) (x : Content),
    Reachable {} c ∧
    c.Requests (.restore ⟨0⟩ .mapping 5 strayPairs) (.ok (.value (.container .mapping id))) c' ∧
    c'.store.content? id = some x ∧ c'.store.heap.Table (Pair.ofBuffer x.buffer) ∧
    c₁.Assigns (.container .mapping m) (Pair.ofFlat strayPairs) c₂ ∧
    ∀ k, c'.store.entryAt? id k = c₂.store.entryAt? m k := by
  obtain ⟨c, hc, hf⟩ := exists_visit strayKeys
    (fun c => (decide (∀ v ∈ strayPairs, c.owned.Covers v), (c.store.dataspace? ⟨0⟩).isSome,
      c.store.heap.liveContainers)) (a := (true, true, 0)) (by decide +kernel)
  obtain ⟨howned, hd, hlive⟩ : _ ∧ _ ∧ _ := by simpa only [Prod.mk.injEq] using hf
  obtain ⟨d, hd⟩ := Option.isSome_iff_exists.mp hd
  obtain ⟨id, c', x, hr, -, hx, -, -, -, -, -, -, htable, -, -, hall⟩ := Reachable.restores hc 5
    (of_decide_eq_true howned) hd (by decide) (by decide) (by rw [hlive]; decide)
  obtain ⟨m, c₁, c₂, -, hassigns, hentries⟩ := hall 0 (by decide)
  exact ⟨c, c', c₁, c₂, id, m, x, hc, hr, hx, htable, hassigns, hentries⟩

end Client

end PlaneStore
