import PlaneStore.Proofs.Mapping.AssignmentSize
import PlaneStore.Proofs.Clients.LosslessEviction

/-!
# How mappings are represented

The pairs of a mapping are sorted and have distinct keys. An overlay is there only while it adds a
key to them, and an entry is an addition exactly if its key is not among them. Merging an overlay
and deleting a key rely on this: an entry that is no addition has a sorted pair to update, and a key
that is found is in one of the two places.
-/

namespace PlaneStore

open Store

/-- An overlay in a form that goes with the sorted pairs of its mapping. -/
structure Overlay.Represents (h : Heap) (ps : List Pair) (o : Overlay) : Prop where
  adds : ∃ e ∈ o.toList, e.added = true
  distinct : (o.toList.map fun e => h.identity e.key).Nodup
  hashed : ∀ e ∈ o.toList, h.hash e.key = .ok e.hash
  solid : ∀ e ∈ o.toList, e.key ≠ .nil ∧ e.value ≠ .nil
  added : ∀ e ∈ o.toList, e.added = true ↔ ∀ p ∈ ps, h.identity p.1 ≠ h.identity e.key

/-- A mapping in the form that its operations rely on. -/
structure Store.Represents (s : Store) (c : Container) : Prop where
  even : (c.buffer s.swap).length % 2 = 0
  sorted : ((c.content s.swap).pairs.map Prod.fst).Pairwise fun v w => s.heap.le v w = true
  distinct : ((c.content s.swap).pairs.map fun p => s.heap.identity p.1).Nodup
  solid : ∀ p ∈ (c.content s.swap).pairs, p.1 ≠ .nil ∧ p.2 ≠ .nil
  resident : c.overlay ≠ none → c.isResident = true
  overlay : ∀ o ∈ c.overlay, o.Represents s.heap (c.content s.swap).pairs
  size : c.size = (((c.content s.swap).pairs.map fun p => s.heap.identity p.1) ++
    ((c.overlay.map Overlay.toList).getD []).map fun e => s.heap.identity e.key).dedup.length

section

variable {h : Heap} {ps : List Pair} {o : Overlay}

/-- An overlay that goes with a table and adds a key to it is in the right form. -/
theorem Heap.Pending.represented (hp : h.Pending ps o) (hadds : o.addedCount ≠ 0) :
    o.Represents h ps := by
  have hentry : ∀ e ∈ o.toList, ∃ i, o.entries.get? i = some e := fun e he =>
    Slab.mem_toList.mp he
  constructor
  · rw [hp.filed.addedCount_eq_countP] at hadds
    obtain ⟨e, he, hadded⟩ := List.countP_pos_iff.mp (Nat.pos_of_ne_zero hadds)
    exact ⟨e, he, hadded⟩
  · exact o.entries.nodup_toList _ fun _ _ _ _ => hp.distinct
  · intro e he
    obtain ⟨i, hi⟩ := hentry e he
    exact hp.hash hi
  · intro e he
    obtain ⟨i, hi⟩ := hentry e he
    exact hp.solid hi
  · intro e he
    obtain ⟨i, hi⟩ := hentry e he
    rw [hp.added hi, Heap.find_eq_none]

/-- The keys of a mapping are those of its sorted pairs and those of its overlay. -/
theorem Heap.seek_ne_none (overlay : Option Overlay) (k : Identity) :
    h.seek ps overlay k ≠ none ↔ k ∈ (ps.map fun p => h.identity p.1) ++
      ((overlay.map Overlay.toList).getD []).map fun e => h.identity e.key := by
  have hsorted : h.find ps k ≠ none ↔ k ∈ ps.map fun p => h.identity p.1 := by
    rw [ne_eq, Heap.find_eq_none, List.mem_map]
    push Not
    rfl
  cases overlay with
  | none =>
    simpa [Heap.seek] using hsorted
  | some o =>
    have hpending : h.find o.pairs k ≠ none ↔ k ∈ o.toList.map fun e => h.identity e.key := by
      rw [ne_eq, Heap.find_eq_none, Overlay.pairs, List.forall_mem_map, List.mem_map]
      push Not
      rfl
    rw [List.mem_append, Option.map_some, Option.getD_some, ← hsorted, ← hpending]
    unfold Heap.seek
    rw [Option.map_some, Option.getD_some]
    cases h.find o.pairs k <;> simp

end

/-! ## One request -/

/-- After an assignment an overlay still adds a key. -/
theorem Mapping.Assigned.extended {id : ContainerId} {k : Identity} {w : Value} {a b : Account}
    (h : Mapping.Assigned id k w a b) (ha : a.Kept) (hx : a.store.Extended id) :
    b.store.Extended id := by
  cases h with
  | written hw h =>
    refine (h.path (E := fun e => ∀ k, e ≠ .change id (.entry k none)) ?_ ?_ ?_).extended ha
      (fun _ he => he) hx
    all_goals intro k; nofun
  | deleted h hsize h' hextended => exact hextended hx
  | absent h => exact h.extended ha (by rintro _ rfl k; nofun) hx

namespace Client

variable {limits : Limits} {c c' : Client} {id : ContainerId} {op : Operation} {outcome : Outcome}

/-- Only the deletion of a key may leave an overlay that adds none, and then it is merged. -/
theorem Requests.extended (hr : c.Requests op outcome c') (ha : c.account.Kept)
    (hx : c.store.Extended id) : c'.store.Extended id := by
  have hpath := hr.path ha
  by_cases hop : ∃ key value, op = .assign (.container .mapping id) key value
  · obtain ⟨key, value, rfl⟩ := hop
    obtain ⟨r, h, -⟩ := ClientM.bind_pure_eq_ok.mp hr.performed
    have hsettles := walk_mapAssign ha (hr.covered _ (.head _)) (hr.covered _ (.tail _ (.head _)))
      (hr.covered _ (.tail _ (.tail _ (.head _))))
      (show Mapping.assign id key value c.store = .ok (r, c'.store) from h)
    cases r with
    | error e => exact hsettles.extended ha (by rintro _ rfl k; nofun) hx
    | ok u => exact hsettles.extended ha hx
  · refine hpath.extended ha ?_ hx
    rintro _ he k rfl
    obtain ⟨-, v, key, value, rfl, hedits⟩ := he
    cases hedits
    exact hop ⟨key, value, rfl⟩

theorem Reachable.extended (h : Reachable limits c) (id : ContainerId) : c.store.Extended id := by
  induction h with
  | start => exact nofun
  | next h hr ih => exact hr.extended h.kept ih

/-! ## All requests -/

/--
Whatever a disciplined client has done, every mapping has sorted pairs with distinct keys, an
overlay that goes with them if it has one, and as many elements as keys. So no request finds a
pending update without a sorted pair, or a key to be deleted that is nowhere.
-/
theorem Reachable.represents (h : Reachable limits c) :
    (∀ id x, c.store.container? id = some x → x.kind = .mapping → c.store.Represents x) ∧
    ∀ op : Operation, (∀ v ∈ op.passed, c.owned.Covers v) → ∀ id,
      c.store.perform op ≠ .error (.updateWithoutKey id) ∧
      c.store.perform op ≠ .error (.deletedKeyAbsent id) := by
  have ha := h.kept
  constructor
  · intro id x hx hk
    have hcontent := content?_of_container hx
    have hw := Content.whole ha.accounted hcontent
    have ht := ha.tabled.content hcontent hk
    constructor
    · have heven := hw.even hk
      rwa [show (x.content c.store.swap).buffer.size = (x.buffer c.store.swap).length from
        List.size_toArray] at heven
    · exact ht.table.sorted
    · exact ht.table.distinct
    · exact ht.table.solid
    · intro hne
      obtain ⟨o, ho⟩ := Option.ne_none_iff_exists'.mp hne
      obtain ⟨values, he⟩ := h.custody.resident hx ho
      unfold Container.isResident
      rw [he]
    · intro o ho
      exact (ht.pending ho).represented (h.extended id _ hcontent o ho)
    · obtain ⟨ks, hnodup, hlength, hmem⟩ := ht.exists_keys hk
      rw [← ha.accounted.size_content hx]
      refine hlength.symm.trans (List.Perm.length_eq ?_)
      refine (List.perm_ext_iff_of_nodup hnodup (List.nodup_dedup _)).mpr fun k => ?_
      rw [List.mem_dedup, hmem]
      exact Heap.seek_ne_none _ k
  · intro op hd id
    constructor <;> intro hf <;> obtain ⟨⟨other, hother⟩, -⟩ := h.dangling hd hf <;> cases hother

/--
Requests after which a mapping has two sorted pairs, an update of one of them and an addition.
-/
def dirtying : List Operation :=
  [.createDataspace 0, .restore ⟨0⟩ .mapping 2 [.int 1, .int 5, .int 3, .int 7],
    .assign (.container .mapping ⟨0⟩) (.int 2) (.int 6),
    .assign (.container .mapping ⟨0⟩) (.int 1) (.int 8)]

/-- A mapping with an addition and an update pending, from which the updated key is deleted. -/
theorem represents_dirtying : ∃ c x o, Reachable {} c ∧ c.store.container? ⟨0⟩ = some x ∧
    x.overlay = some o ∧ o.toList = [⟨2, true, .int 2, .int 6⟩, ⟨1, false, .int 1, .int 8⟩] ∧
    x.size = 3 ∧ c.store.Represents x ∧
    c.store.perform (.assign (.container .mapping ⟨0⟩) (.int 1) .nil) ≠
      .error (.deletedKeyAbsent ⟨0⟩) := by
  obtain ⟨c, hc, hf⟩ := exists_visit dirtying
    (fun c => ((c.store.container? ⟨0⟩).map fun x => (x.kind, x.size, x.overlay.map Overlay.toList),
      decide (c.owned.Covers (.container .mapping ⟨0⟩))))
    (a := (some (.mapping, 3, some [⟨2, true, .int 2, .int 6⟩, ⟨1, false, .int 1, .int 8⟩]), true))
    (by cbv)
  obtain ⟨hx, hm⟩ : _ ∧ _ := by simpa using hf
  obtain ⟨x, hx, hk, hsize, o, ho, hentries⟩ := hx
  obtain ⟨hall, hfaults⟩ := Reachable.represents hc
  have hint : c.owned.Covers (.int 1) := by
    intro hcounted
    cases hcounted
  have hnil : c.owned.Covers .nil := by
    intro hcounted
    cases hcounted
  refine ⟨c, x, o, hc, hx, ho, hentries, hsize, hall _ x hx hk, (hfaults _ ?_ ⟨0⟩).2⟩
  exact List.forall_mem_cons.mpr ⟨hm, List.forall_mem_cons.mpr ⟨hint,
    List.forall_mem_singleton.mpr hnil⟩⟩

end Client

end PlaneStore
