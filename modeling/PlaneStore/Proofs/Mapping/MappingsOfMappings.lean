import PlaneStore.Proofs.Mapping.EntryMap
import PlaneStore.Proofs.Contents.ArraysOfArrays

/-!
# Containers made of mappings

The operations that make a container of a mapping compact their operands first, and select from the
sorted pairs, or merge them, by search. What comes of it is told by the finite maps that the
operands are, where entries of which a half is destroyed do not count.
-/

namespace PlaneStore

open Store

/-! ## Keys and values in turn -/

theorem Pair.flatten_ofBuffer {values : Array Value} (h : values.size % 2 = 0) :
    flatten (ofBuffer values) = values.toList := congrArg Array.toList (toBuffer_ofBuffer h)

namespace Mapping

theorem everySecond_flatten (ps : List Pair) : everySecond (Pair.flatten ps) = ps.map Prod.fst := by
  induction ps with
  | nil => rfl
  | cons p ps ih => exact congrArg (p.1 :: ·) ih

theorem everySecond_cons_flatten (v : Value) (ps : List Pair) :
    everySecond (v :: Pair.flatten ps) = v :: ps.map Prod.snd := by
  induction ps generalizing v with
  | nil => rfl
  | cons p ps ih => exact congrArg (v :: ·) (ih p.2)

theorem everySecond_tail_flatten (ps : List Pair) :
    everySecond (Pair.flatten ps).tail = ps.map Prod.snd := by
  cases ps with
  | nil => rfl
  | cons p ps => exact everySecond_cons_flatten p.2 ps

end Mapping

/-! ## Ranges of keys -/

namespace Heap

variable {h h' : Heap} {ps : List Pair} {k : Identity} {lo hi : Value}

/-- The place of the values of an identity. -/
def placeOf (h : Heap) : Identity → Place
  | .container shape id => h.place (.container shape id)
  | .object obj => h.place (.object obj)
  | .plain place => place

@[simp] theorem placeOf_identity (h : Heap) (v : Value) : h.placeOf (h.identity v) = h.place v := by
  cases v <;> rfl

/--
Whether keys of an identity are not below one bound and not above another; nil bounds are open.
-/
def within (h : Heap) (lo hi : Value) (k : Identity) : Bool :=
  (lo.isNil || Ord.compare (h.placeOf k) (h.place lo) ≠ .lt) &&
    (hi.isNil || Ord.compare (h.placeOf k) (h.place hi) ≠ .gt)

theorem within_identity (h : Heap) (lo hi v : Value) : h.within lo hi (h.identity v) =
    ((lo.isNil || h.order v lo ≠ .lt) && (hi.isNil || h.order v hi ≠ .gt)) := by
  unfold within
  rw [placeOf_identity]
  rfl

/-- Whether a key is within bounds depends on places alone. -/
theorem within_congr {v : Value} (hv : h'.place v = h.place v) (hlo : h'.place lo = h.place lo)
    (hhi : h'.place hi = h.place hi) :
    h'.within lo hi (h'.identity v) = h.within lo hi (h.identity v) := by
  rw [within_identity, within_identity]
  unfold order
  rw [hv, hlo, hhi]

theorem inRange_eq_ok {key : Value} {b : Bool} (hb : Mapping.inRange h lo hi key = .ok b) :
    b = h.within lo hi (h.identity key) := by
  rw [within_identity]
  obtain ⟨below, hlow, hb⟩ := Fallible.bind_eq_ok.mp hb
  have hlow : below = (lo.isNil || h.order key lo ≠ .lt) := by
    unfold Mapping.notBelow at hlow
    cases hn : lo.isNil with
    | true =>
      rw [hn, if_pos rfl] at hlow
      exact (Fallible.pure_eq_ok.mp hlow).symm
    | false =>
      rw [hn, if_neg nofun] at hlow
      obtain ⟨o, ho, hlow⟩ := Fallible.bind_eq_ok.mp hlow
      obtain ⟨-, rfl⟩ := compare_eq_ok.mp ho
      exact (Fallible.pure_eq_ok.mp hlow).symm
  rw [← hlow]
  cases below with
  | false => exact (Fallible.pure_eq_ok.mp hb).symm
  | true =>
    rw [if_pos rfl] at hb
    unfold Mapping.notAbove at hb
    cases hn : hi.isNil with
    | true =>
      rw [hn, if_pos rfl] at hb
      exact (Fallible.pure_eq_ok.mp hb).symm
    | false =>
      rw [hn, if_neg nofun] at hb
      obtain ⟨o, ho, hb⟩ := Fallible.bind_eq_ok.mp hb
      obtain ⟨-, rfl⟩ := compare_eq_ok.mp ho
      exact (Fallible.pure_eq_ok.mp hb).symm

/-! ## Selections and unions -/

/-- Of pairs that are selected by key the selected entries are found. -/
theorem find_select (hd : h.Distinct ps) (keep : Identity → Bool) :
    h.find (ps.filter fun p => keep (h.identity p.1)) k = if keep k then h.find ps k else none := by
  rw [find_filter hd keep (fun _ => true) fun p => (Bool.and_true _).symm]
  cases h.find ps k <;> cases keep k <;> simp

/-- The pairs of one table override those of another. -/
theorem find_override {left right : Array Value} {rest merged : List Pair}
    (hl : h.Table (Pair.ofBuffer left)) (hr : h.Table (Pair.ofBuffer right))
    (hf : (Pair.ofBuffer left).filterM
      (fun p => do return !(← h.findSorted right 2 p.1).isHit) = .ok rest)
    (hs : h.sortPairs (rest ++ Pair.ofBuffer right) = .ok merged) :
    h.find merged k = (h.find (Pair.ofBuffer right) k).or (h.find (Pair.ofBuffer left) k) := by
  have hrest : rest = (Pair.ofBuffer left).filter fun p =>
      (h.find (Pair.ofBuffer right) (h.identity p.1)).isNone := by
    refine Fallible.filterM_eq_filter (fun p _ b hb => ?_) hf
    obtain ⟨f, hfound, hb⟩ := Fallible.bind_eq_ok.mp hb
    obtain rfl := Fallible.pure_eq_ok.mp hb
    cases f with
    | «at» i =>
      rw [(hr.find_of_at hfound).2.2]
      rfl
    | absent i =>
      rw [hr.find_of_absent hfound]
      rfl
  rw [find_perm (distinct_override hl hr hf) (sortOn_perm hs), find_append, hrest,
    find_select hl.distinct fun k => (h.find (Pair.ofBuffer right) k).isNone]
  cases h.find (Pair.ofBuffer right) k <;> cases h.find (Pair.ofBuffer left) k <;> rfl

end Heap

namespace Mapping

variable {s s' : Store} {buffer keys sorted : Array Value} {values : List Value}

/-- A selection by key does not depend on more than the identity of the key. -/
theorem selectPairs_eq_filter {test : Heap → Value → Except Fault Bool} (keep : Identity → Bool)
    (htest : ∀ v b, test s.heap v = .ok b → b = keep (s.heap.identity v))
    (h : selectPairs buffer test s = .ok (values, s')) : s = s' ∧ values =
      Pair.flatten ((Pair.ofBuffer buffer).filter fun p => keep (s.heap.identity p.1)) := by
  obtain ⟨hf, rfl⟩ := StoreM.readHeap_eq_ok.mp h
  obtain ⟨selected, hselected, hf⟩ := Fallible.bind_eq_ok.mp hf
  obtain rfl := Fallible.pure_eq_ok.mp hf
  exact ⟨rfl, congrArg Pair.flatten
    (Fallible.filterM_eq_filter (fun p _ b hb => htest p.1 b hb) hselected)⟩

/-- A search among sorted keys tells whether a key is one of them. -/
theorem isHit_eq_mem {key : Value} {keep b : Bool} (hs : s.heap.sort keys = .ok sorted)
    (hb : (do return (← s.heap.findSorted sorted 1 key).isHit == keep : Except Fault Bool) =
      .ok b) :
    b = (decide (s.heap.identity key ∈ keys.toList.map s.heap.identity) == keep) := by
  obtain ⟨f, hfound, hb⟩ := Fallible.bind_eq_ok.mp hb
  obtain ⟨hperm, hsorted⟩ := Heap.sort_eq_ok hs
  have hhit : f.isHit = true ↔ s.heap.identity key ∈ keys.toList.map s.heap.identity := by
    rw [Heap.isHit_iff hsorted hfound, Heap.In.of_perm hperm, List.mem_map]
    rfl
  rw [← Fallible.pure_eq_ok.mp hb, Bool.eq_iff_iff.mpr (hhit.trans decide_eq_true_iff.symm)]

/-- Nothing is searched for if there are no keys or no pairs. -/
theorem filter_of_empty {h : Heap} {keep : Bool} (hs : h.sort keys = .ok sorted)
    (heven : buffer.size % 2 = 0) (hempty : (sorted.isEmpty || buffer.isEmpty) = true) :
    Pair.flatten ((Pair.ofBuffer buffer).filter fun p =>
      decide (h.identity p.1 ∈ keys.toList.map h.identity) == keep) =
        if keep then [] else buffer.toList := by
  rcases Bool.or_eq_true_iff.mp hempty with hempty | hempty
  · have hperm := (Heap.sort_eq_ok hs).1
    rw [Array.isEmpty_iff.mp hempty] at hperm
    rw [hperm.symm.eq_nil]
    cases keep with
    | true => simp [Pair.flatten]
    | false => simp [Pair.flatten_ofBuffer heven]
  · rw [Array.isEmpty_iff.mp hempty]
    exact (ite_self []).symm

/-- Two sorted tables are joined into one, in which the right one wins. -/
theorem overridden_eq_ok {left right : Array Value} (hl : s.heap.Table (Pair.ofBuffer left))
    (hr : s.heap.Table (Pair.ofBuffer right))
    (h : overridden left right s = .ok (values, s')) : s = s' ∧ ∃ ps, values = Pair.flatten ps ∧
      s.heap.Table ps ∧ (∀ p ∈ ps, p ∈ Pair.ofBuffer left ∨ p ∈ Pair.ofBuffer right) ∧
      ∀ k, s.heap.find ps k =
        (s.heap.find (Pair.ofBuffer right) k).or (s.heap.find (Pair.ofBuffer left) k) := by
  obtain ⟨hf, rfl⟩ := StoreM.readHeap_eq_ok.mp h
  obtain ⟨rest, hrest, hf⟩ := Fallible.bind_eq_ok.mp hf
  obtain ⟨merged, hmerged, hf⟩ := Fallible.bind_eq_ok.mp hf
  obtain rfl := Fallible.pure_eq_ok.mp hf
  refine ⟨rfl, merged, rfl, Heap.table_override hl hr hrest hmerged, fun p hp => ?_,
    fun k => Heap.find_override hl hr hrest hmerged⟩
  rcases List.mem_append.mp ((Heap.sortOn_perm hmerged).mem_iff.mp hp) with hp | hp
  · exact .inl ((Heap.filterM_eq_ok hrest).1.subset hp)
  · exact .inr hp

end Mapping

/-! ## Compacted operands -/

namespace Store

/-- What a mapping holds under an identity; entries of which a half is destroyed do not count. -/
def spared? (s : Store) (id : ContainerId) (k : Identity) : Option Value :=
  (s.entryAt? id k).filter (s.spares k)

/-- The identities of what a reader sees in an array. -/
def members (s : Store) (id : ContainerId) : List Identity :=
  ((s.view? id).map fun x => x.elements.map s.heap.identity).getD []

end Store

section

variable {a b : Account} {id : ContainerId} {x : Content} {buffer values : Array Value}
  {k : Identity}
  (h : Path Effect.Tends a b) (ha : a.Kept) (hx : b.store.content? id = some x)
include h ha hx

/-- What a clean mapping holds is what was spared of it. -/
theorem Path.find_of_clean (hc : x.Clean b.store.objects.epoch buffer) :
    b.store.heap.find (Pair.ofBuffer buffer) k = a.store.spared? id k := by
  have hentries := h.compacted ha hx hc.kind hc.epoch k
  rw [entryAt?_of_content hx, Content.find_of_none hc.overlay, Content.pairs, hc.buffer] at hentries
  exact hentries

/-- What is read of a swept array are its members. -/
theorem Path.members_of_swept (hs : x.Swept b.store.objects.epoch values) :
    values.toList.map b.store.heap.identity = a.store.members id := by
  have hview := (h.kept ha).view?_of_swept hx hs
  rw [h.view? ha Effect.minds_of_tends hx hs.kind] at hview
  unfold members
  rw [hview]
  refine List.map_congr_left fun v hv => ?_
  exact h.identity_of_swept hx hs ha Effect.Tends.calm (Array.mem_toList_iff.mp hv)

/-- Keys of a clean mapping keep their places. -/
theorem Path.place_of_clean {p : Pair} (hc : x.Clean b.store.objects.epoch buffer)
    (hp : p ∈ Pair.ofBuffer buffer) : b.store.heap.place p.1 = a.store.heap.place p.1 := by
  have hheld : p.1 ∈ x.held :=
    Content.mem_held_of_buffer (hc.buffer ▸ (Pair.mem_of_ofBuffer hp).1)
  exact (h.stands ha Effect.Tends.calm (Account.covers_of_held hx hheld)).place

end

/-! ## Operations -/

namespace Mapping

/-- The operations that make a container of a mapping, with what they take besides. -/
inductive Combinator
  | indices
  | values
  | range (lo hi : Value)
  | concat (right : ContainerId)
  | subtract (keys : ContainerId)
  | intersect (keys : ContainerId)

namespace Combinator

/-- The request for the operation on a mapping. -/
def request (v : Value) : Combinator → Operation
  | .indices => .mapIndices v
  | .values => .mapValues v
  | .range lo hi => .mapRange v lo hi
  | .concat right => .mapConcat v (.container .mapping right)
  | .subtract keys => .mapSubtract v (.container .array keys)
  | .intersect keys => .mapIntersect v (.container .array keys)

def run (v : Value) : Combinator → ClientM Value
  | .indices => Mapping.indices v
  | .values => Mapping.values v
  | .range lo hi => Mapping.range v lo hi
  | .concat right => Mapping.concat v (.container .mapping right)
  | .subtract keys => Mapping.subtract v (.container .array keys)
  | .intersect keys => Mapping.intersect v (.container .array keys)

theorem perform_request (op : Combinator) (v : Value) :
    (op.request v).perform = do return .value (← op.run v) := by
  cases op <;> rfl

/-- The requests that the operation starts with: operands are looked after and read. -/
def prepares (v : Value) : Combinator → List Operation
  | .indices | .values | .range _ _ => [.mapMerge v true]
  | .concat right => [.mapMerge v true, .mapMerge (.container .mapping right) true]
  | .subtract keys | .intersect keys => [.mapMerge v true, .elements (.container .array keys)]

/-- The mappings that are operands besides the first. -/
def maps : Combinator → List ContainerId
  | .concat right => [right]
  | _ => []

/-- The arrays that are operands. -/
def arrays : Combinator → List ContainerId
  | .subtract keys | .intersect keys => [keys]
  | _ => []

/-- The kind of what is made. -/
def kind : Combinator → Kind
  | .indices | .values => .array
  | _ => .mapping

/-- The elements of what is made of pairs. -/
def list (ps : List Pair) : Combinator → List Value
  | .indices => ps.map Prod.fst
  | .values => ps.map Prod.snd
  | _ => Pair.flatten ps

theorem list_of_mapping (op : Combinator) {ps : List Pair} (h : op.kind = .mapping) :
    op.list ps = Pair.flatten ps := by
  cases op with
  | indices | values => cases h
  | _ => rfl

theorem mem_of_list (op : Combinator) {ps : List Pair} {v : Value} (hv : v ∈ op.list ps) :
    ∃ p ∈ ps, v = p.1 ∨ v = p.2 := by
  cases op with
  | indices =>
    obtain ⟨p, hp, rfl⟩ := List.mem_map.mp hv
    exact ⟨p, hp, .inl rfl⟩
  | values =>
    obtain ⟨p, hp, rfl⟩ := List.mem_map.mp hv
    exact ⟨p, hp, .inr rfl⟩
  | _ => exact Pair.mem_of_flatten hv

/-- The entries of what is made: those of the mapping in a slot, by what the operation is for. -/
def lookup? (s : Store) (id : ContainerId) (k : Identity) : Combinator → Option Value
  | .indices | .values => s.spared? id k
  | .range lo hi => if s.heap.within lo hi k then s.spared? id k else none
  | .concat right => (s.spared? right k).or (s.spared? id k)
  | .subtract keys => if k ∈ s.members keys then none else s.spared? id k
  | .intersect keys => if k ∈ s.members keys then s.spared? id k else none

end Combinator

end Mapping

end PlaneStore
