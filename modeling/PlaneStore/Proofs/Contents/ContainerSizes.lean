import PlaneStore.Proofs.Mapping.ValuesUnderKeys
import PlaneStore.Proofs.Heap.SlabTotals

/-!
# Sizes

How large a container is can be told from what it holds, wherever that is. The size of a mapping is
the number of its keys, be they among the sorted pairs, in the overlay or in both; so it stays as it
is wherever the mapping holds the same under each key, as when an overlay is merged.
-/

namespace PlaneStore

open Store

/-! ## Limits stay -/

theorem limits_withPlane (s : Store) (f : Plane → Plane) : (s.withPlane f).limits = s.limits := by
  unfold Store.withPlane
  split <;> rfl

theorem Store.Recorded.limits {call : CallRef} {patch : CallPatch} {s s' : Store} {out : List Value}
    (h : Recorded call patch s out s') : s'.limits = s.limits := by
  cases h with
  | told => rfl
  | filed | folded | cancelled => exact limits_withPlane s _

/-- No step changes the limits. -/
theorem Step.limits {a b : Account} {e : Effect} (h : Step e a b) (ha : a.Accounted) :
    b.store.limits = a.store.limits := by
  cases h with
  | traffic h => exact (h.wanes ha.stored).limits
  | upkeep h => cases h <;> rfl
  | change h => cases h <;> rfl
  | creation h =>
    cases h with
    | container hv hm h =>
      exact (limits_withPlane _ _).trans (alike_link_new ha.balanced.containers rfl h).limits
    | _ => rfl
  | writing h =>
    cases h with
    | write => rfl
    | firstWrite hold hv hp hnew h => exact (limits_withPlane _ _).trans (alike_dropImport h).limits
    | addCall hd hv h => exact h.limits
    | removeCall hold h₁ h₂ | replaceCall hold hv h₁ h₂ =>
      exact h₂.limits.trans (alike_dropImport h₁).limits
  | nesting h =>
    cases h with
    | backUp | refile | settle | resave => exact limits_withPlane _ _
    | record hl hf h => exact h.limits
    | restore hl hf hc he h => exact (alike_addImports h).limits
    | restoreVariable hl hf h => exact (alike_addImport h).limits
    | unwindRemoved hl hf hd h | unwindReplaced hl hf hcur h => exact (alike_addImport h).limits
    | _ => rfl
  | transfer h =>
    obtain ⟨hp, hc, he, howner, hd, hall, h₁, h₂, h₃, h₄⟩ := h
    have hbefore := (alike_dropImports h₁).trans (alike_unlink h₂)
    obtain ⟨c, hc, -⟩ := hbefore.exists_container hc
    exact (alike_addImports h₄).limits.trans ((alike_link hc h₃).limits.trans hbefore.limits)

theorem Path.limits {E : Effect → Prop} {a b : Account} (h : Path E a b) (ha : a.Kept) :
    b.store.limits = a.store.limits := by
  induction h with
  | refl => rfl
  | tail h he hs ih => exact (hs.limits (h.kept ha).accounted).trans ih

/-! ## The keys of a mapping -/

/-- The keys of a mapping: those of the sorted pairs, and those that the overlay adds to them. -/
theorem Heap.exists_keys {h : Heap} {ps : List Pair} {overlay : Option Overlay} (ht : h.Table ps)
    (hp : ∀ o ∈ overlay, h.Pending ps o) : ∃ ks : List Identity, ks.Nodup ∧
      ks.length = ps.length + (overlay.map Overlay.addedCount).getD 0 ∧
      ∀ k, k ∈ ks ↔ h.seek ps overlay k ≠ none := by
  have hsorted : ∀ k, k ∈ ps.map (fun p => h.identity p.1) ↔ h.find ps k ≠ none := fun k => by
    rw [ne_eq, find_eq_none, List.mem_map]
    push Not
    rfl
  cases overlay with
  | none => exact ⟨_, ht.distinct, by simp, hsorted⟩
  | some o =>
    have hp := hp o rfl
    have hadded : ∀ k, k ∈ (o.toList.filter OverlayEntry.added).map (fun e => h.identity e.key) ↔
        ∃ i e, o.entries.get? i = some e ∧ e.added = true ∧ h.identity e.key = k := fun k => by
      simp only [List.mem_map, List.mem_filter, Overlay.toList, Slab.mem_toList]
      grind
    refine ⟨ps.map (fun p => h.identity p.1) ++
      (o.toList.filter OverlayEntry.added).map (fun e => h.identity e.key), ?_, ?_, fun k => ?_⟩
    · refine List.nodup_append'.mpr ⟨ht.distinct, ?_, fun k hk hk' => ?_⟩
      · exact (o.entries.nodup_toList _ fun _ _ _ _ => hp.distinct).sublist
          (List.filter_sublist.map _)
      · obtain ⟨i, e, he, hadd, rfl⟩ := (hadded k).mp hk'
        exact (hsorted _).mp hk ((hp.added he).mp hadd)
    · simp [hp.filed.addedCount_eq_countP, List.countP_eq_length_filter]
    · have hseek : h.seek ps (some o) k ≠ none ↔ h.find o.pairs k ≠ none ∨ h.find ps k ≠ none := by
        unfold seek
        rw [Option.map_some, Option.getD_some]
        cases h.find o.pairs k <;> simp
      have hpending : h.find o.pairs k ≠ none ↔
          ∃ i e, o.entries.get? i = some e ∧ h.identity e.key = k := by
        rw [ne_eq, Pending.find_pairs_none]
        push Not
        rfl
      rw [hseek, hpending, List.mem_append, hsorted, hadded]
      constructor
      · rintro (hk | ⟨i, e, he, -, hk⟩)
        · exact .inr hk
        · exact .inl ⟨i, e, he, hk⟩
      · rintro (⟨i, e, he, rfl⟩ | hk)
        · -- An entry that adds no key replaces a sorted pair, whose key is counted there.
          by_cases hadd : e.added = true
          · exact .inr ⟨i, e, he, hadd, rfl⟩
          · exact .inl fun hnone => hadd ((hp.added he).mpr hnone)
        · exact .inl hk

/-! ## The size of what a container holds -/

/-- A buffer has as many elements as its container says, wherever it is. -/
theorem Store.Stored.length_eq {s : Store} {id : ContainerId} {c : Container} (hs : s.Stored)
    (hc : s.container? id = some c) : c.elements.length = (c.content s.swap).buffer.size := by
  cases he : c.elements with
  | resident values =>
    rw [Container.content_buffer he]
    rfl
  | evicted ticket n =>
    obtain ⟨values, hv, rfl⟩ := hs.length hc he
    unfold Container.content
    simp [c.buffer_of_evicted _ he, Std.TreeMap.getD_eq_getD_getElem?, hv, Elements.length]

namespace Content

variable {h h' : Heap} {x x' : Content}

theorem Whole.overlay_eq_none (hw : x.Whole) (hk : x.kind ≠ .mapping) : x.overlay = none := by
  cases ho : x.overlay with
  | none => rfl
  | some o => exact absurd (hw.overlay ho).1 hk

theorem Whole.size_eq (hw : x.Whole) (hk : x.kind ≠ .mapping) : x.size = x.buffer.size := by
  unfold size
  rw [hw.overlay_eq_none hk]
  cases hx : x.kind with
  | mapping => exact absurd hx hk
  | array | record => rfl

theorem size_eq_of_mapping (hk : x.kind = .mapping) :
    x.size = x.pairs.length + (x.overlay.map Overlay.addedCount).getD 0 := by
  unfold size pairs
  rw [hk, Pair.length_ofBuffer]
  rfl

/-- The size of a mapping is the number of its keys. -/
theorem Tabled.exists_keys (ht : x.Tabled h) (hk : x.kind = .mapping) :
    ∃ ks : List Identity, ks.Nodup ∧ ks.length = x.size ∧ ∀ k, k ∈ ks ↔ x.find h k ≠ none := by
  rw [size_eq_of_mapping hk]
  exact Heap.exists_keys ht.table fun o ho => ht.pending ho

/-- A mapping is as large as another at least if it has all of its keys. -/
theorem Tabled.size_le (ht : x.Tabled h) (ht' : x'.Tabled h') (hk : x.kind = .mapping)
    (hk' : x'.kind = .mapping) (hsub : ∀ k, x'.find h' k ≠ none → x.find h k ≠ none) :
    x'.size ≤ x.size := by
  obtain ⟨ks, -, hlength, hmem⟩ := ht.exists_keys hk
  obtain ⟨ks', hnodup', hlength', hmem'⟩ := ht'.exists_keys hk'
  rw [← hlength, ← hlength']
  exact (hnodup'.subperm fun k hk => (hmem k).mpr (hsub k ((hmem' k).mp hk))).length_le

/-- Mappings with the same entries have the same size. -/
theorem Tabled.size_eq (ht : x.Tabled h) (ht' : x'.Tabled h') (hk : x.kind = .mapping)
    (hk' : x'.kind = .mapping) (hsame : ∀ k, x'.find h' k = x.find h k) : x'.size = x.size :=
  Nat.le_antisymm (ht.size_le ht' hk hk' fun k => by rw [hsame]; exact id)
    (ht'.size_le ht hk' hk fun k => by rw [hsame]; exact id)

variable {a : Account} {id : ContainerId} {e : Effect}

/-- Tending to a container makes it no larger, and leaves the size of an array or record alone. -/
theorem Becomes.size_scrub (h : Becomes a id (.scrub id) x x') :
    x'.size ≤ x.size ∧ (x.kind ≠ .mapping → x'.size = x.size) := by
  cases h with
  | @scrub _ seen hk hseen =>
    have hsame : ({ x with
        scrubEpoch := a.store.objects.epoch, buffer := seen.toArray } : Content).size = x.size := by
      unfold size
      rw [List.size_toArray, ← hseen.length_eq, Array.length_toList]
    exact ⟨Nat.le_of_eq hsame, fun _ => hsame⟩
  | @compact _ live hk ho hlive =>
    refine ⟨?_, fun hne => absurd hk hne⟩
    rw [size_eq_of_mapping (by exact hk), size_eq_of_mapping hk]
    unfold pairs
    rw [Pair.ofBuffer_toBuffer]
    exact Nat.add_le_add_right (Pair.kept_sublist _ _).length_le _

/-- An edit makes a container larger only where there is room. -/
theorem Becomes.size_change {ed : Edit} (h : Becomes a id (.change id ed) x x') :
    x'.size ≤ x.size ∨ x'.size ≤ a.store.limits.containerSize := by
  have le_of_buffer : ∀ {y : Content}, y.kind = x.kind → y.overlay = x.overlay →
      y.buffer.size ≤ x.buffer.size → y.size ≤ x.size := fun {y} hk ho hle => by
    unfold size
    rw [hk, ho]
    refine Nat.add_le_add_right ?_ _
    cases x.kind with
    | mapping => exact Nat.div_le_div_right hle
    | array | record => exact hle
  cases h with
  | overwrite | overwriteValue =>
    refine .inl (le_of_buffer rfl rfl ?_)
    rw [Array.size_setIfInBounds]
  | overwritePending hh ho hi =>
    left
    unfold size
    rw [ho, Option.map_some, Option.map_some, Overlay.addedCount_set]
  | @park _ buckets e hh hk hkey hv hn hhash hnew hadd hC hopen hroom =>
    have hold : (x.overlay.map Overlay.addedCount).getD 0 =
        (x.overlay.getD (.ofBuckets buckets)).addedCount := by
      cases x.overlay with
      | none => exact (Overlay.addedCount_ofBuckets buckets).symm
      | some o => rfl
    have hsize : ({ x with
        overlay := some ((x.overlay.getD (.ofBuckets buckets)).insert e) } : Content).size =
          Overlay.additions e + x.size := by
      unfold size
      rw [Option.map_some, Option.getD_some, Overlay.addedCount_insert, hold]
      exact Nat.add_left_comm _ _ _
    rw [hsize]
    -- A key that is added was granted room; an entry for a sorted pair takes none.
    cases hadded : e.added with
    | true =>
      refine .inr (Nat.le_trans (Nat.le_of_eq ?_) (hroom hadded))
      rw [Overlay.additions, hadded, if_pos rfl, Nat.add_comm]
    | false =>
      left
      rw [Overlay.additions, hadded]
      exact Nat.le_of_eq (Nat.zero_add _)
  | unpark hh ho hi =>
    left
    unfold size
    rw [ho, Option.map_some, Option.map_some]
    exact Nat.add_le_add_left (Overlay.addedCount_without_le ..) _
  | deletePair =>
    refine .inl (le_of_buffer rfl rfl ?_)
    simp only [Array.size_append, Array.size_extract]
    omega

/-! ## What an overlay is for -/

/-- An overlay is there only while it adds a key to those of the sorted pairs. -/
def Extended (x : Content) : Prop := ∀ o ∈ x.overlay, o.addedCount ≠ 0

/--
An addition is taken back only where a key goes. An overlay that is opened adds a key, and one that
is written to afterwards adds no fewer.
-/
theorem Becomes.extended (h : Becomes a id e x x') (hw : x.Whole)
    (ht : x.kind = .mapping → x.Tabled a.store.heap) (hx : x.Extended)
    (he : ∀ k, e ≠ .change id (.entry k none)) : x'.Extended := by
  cases h with
  | absorb | restore => exact nofun
  | overwritePending hh ho hi =>
    rintro o ⟨⟩
    rw [Overlay.addedCount_set]
    exact hx _ ho
  | @park _ buckets e hh hk hkey hv hn hhash hnew hadd hC hopen =>
    rintro o ⟨⟩
    cases ho : x.overlay with
    | none =>
      rw [Option.getD_none, Overlay.addedCount_insert, Overlay.additions, hopen ho,
        if_pos rfl]
      omega
    | some o =>
      have hcount := hx o ho
      rw [Option.getD_some, Overlay.addedCount_insert]
      omega
  | @unpark _ overlay e i hh ho hi =>
    rintro o ⟨⟩
    have hsorted : a.store.heap.find x.pairs (a.store.heap.identity e.key) ≠ none := by
      intro hnone
      exact he _ (by rw [hnone])
    have hadded : e.added = false :=
      Bool.eq_false_iff.mpr fun hadd =>
        hsorted ((((ht (hw.overlay ho).1).pending ho).added hi).mp hadd)
    have hcount : (overlay.without i e).addedCount = overlay.addedCount := by
      show overlay.addedCount - Overlay.additions e = overlay.addedCount
      rw [Overlay.additions, hadded, if_neg Bool.false_ne_true, Nat.sub_zero]
    rw [hcount]
    exact hx overlay ho
  | deletePair => exact absurd rfl (he _)
  | scrub | compact | overwrite | overwriteValue | backUp | settle | transfer | retag => exact hx

end Content

section

variable {a b : Account} {id : ContainerId} {c : Container} {x' : Content}

/-- The size of a container is that of its content. -/
theorem Account.Accounted.size_content (ha : a.Accounted) (hc : a.store.container? id = some c) :
    (c.content a.store.swap).size = c.size := by
  have hlength := ha.stored.length_eq hc
  by_cases hk : c.kind = .mapping
  · unfold Content.size Container.size
    rw [← hlength, show (c.content a.store.swap).kind = .mapping from hk, hk]
    rfl
  · have hsize := (Content.whole ha (content?_of_container hc)).size_eq hk
    rw [hsize, ← hlength]
    unfold Container.size
    split
    · next h => exact absurd h hk
    · rfl

/-- A container is as large as it was, if it is still there. -/
def Account.SameSize (id : ContainerId) (a b : Account) : Prop :=
  ∀ x', b.store.content? id = some x' → ∃ x, a.store.content? id = some x ∧ x'.size = x.size

/-- A mapping has an overlay only while that adds a key. -/
def Store.Extended (s : Store) (id : ContainerId) : Prop := ∀ x ∈ s.content? id, x.Extended

theorem Store.extended_withContainer {s : Store} {d : Container} (hc : s.container? id = some c)
    (hd : ∀ o ∈ d.overlay, o.addedCount ≠ 0) : (s.withContainer id d).Extended id := by
  intro x hx
  obtain ⟨d', hd', rfl⟩ := content?_eq_some.mp hx
  obtain rfl := Option.some.inj ((container?_withContainer_self hc).symm.trans hd')
  exact hd

/-- Only where a key goes may an overlay be left that adds none. -/
theorem Step.extended {e : Effect} (h : Step e a b) (ha : a.Kept)
    (he : ∀ k, e ≠ .change id (.entry k none)) (hx : a.store.Extended id) :
    b.store.Extended id := by
  intro x' hx'
  cases h.content ha.accounted hx' with
  | kept hold => exact hx x' hold
  | becomes hold hbec =>
    exact hbec.extended (Content.whole ha.accounted hold) (ha.tabled.content hold) (hx _ hold) he
  | made => exact nofun

/-- An overlay stays one that adds a key, unless an entry is deleted. -/
theorem Path.extended {E : Effect → Prop} (h : Path E a b) (ha : a.Kept)
    (hE : ∀ e, E e → ∀ k, e ≠ .change id (.entry k none)) (hx : a.store.Extended id) :
    b.store.Extended id := by
  induction h with
  | refl => exact hx
  | tail h he hs ih => exact hs.extended (h.kept ha) (hE _ he) ih

theorem Account.SameSize.trans {a b c : Account} (h : SameSize id a b) (h' : SameSize id b c) :
    SameSize id a c := by
  intro z hz
  obtain ⟨y, hy, hzy⟩ := h' z hz
  obtain ⟨x, hx, hyx⟩ := h y hy
  exact ⟨x, hx, hzy.trans hyx⟩

/-- Where a container is left alone it keeps its size. -/
theorem Path.size {E : Effect → Prop} (h : Path E a b) (ha : a.Kept)
    (hE : ∀ e, E e → e.Leaves id) (hx' : b.store.content? id = some x') :
    ∃ x, a.store.content? id = some x ∧ x.kind = x'.kind ∧ x'.size = x.size := by
  have hb := h.kept ha
  by_cases hk : x'.kind = .mapping
  · obtain ⟨x, hx, hkx, hfind⟩ := h.find ha hE hx' hk
    exact ⟨x, hx, hkx.trans hk.symm,
      (ha.tabled.content hx hkx).size_eq (hb.tabled.content hx' hk) hkx hk hfind⟩
  · obtain ⟨x, hx, hkx, hbuffer⟩ := h.buffer ha hE hx' hk
    refine ⟨x, hx, hkx, ?_⟩
    rw [(Content.whole ha.accounted hx).size_eq (hkx ▸ hk),
      (Content.whole hb.accounted hx').size_eq hk, hbuffer]

theorem Path.sameSize {E : Effect → Prop} (h : Path E a b) (ha : a.Kept)
    (hE : ∀ e, E e → e.Leaves id) : Account.SameSize id a b := fun _ hx' =>
  (h.size ha hE hx').imp fun _ hx => ⟨hx.1, hx.2.2⟩

end

end PlaneStore
