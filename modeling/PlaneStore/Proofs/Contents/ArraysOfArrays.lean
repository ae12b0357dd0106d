import PlaneStore.Client
import PlaneStore.Proofs.Contents.UpkeepConfluence
import PlaneStore.Proofs.Contents.ContainerAnswers
import PlaneStore.Proofs.Contents.NewContainers
import PlaneStore.Proofs.Order.MembershipSearch

/-!
# Arrays made of two others

Each of the operations that make an array of two others reads both, selects what is to be in the
result, and makes the array. So there is one list function for each of them, and what is read is
what a client that looks at the operands would be told.
-/

namespace PlaneStore

open Store

/-! ## What a reader sees of an array or record -/

/-- An array or record with its elements as a reader sees them. -/
structure View where
  owner : DataspaceId
  home : Nat
  elements : List Value

namespace Store

/-- What a reader sees of the array or record in a slot. -/
def view? (s : Store) (id : ContainerId) : Option View :=
  (s.content? id).map fun x => ⟨x.owner, x.home, x.buffer.toList.map s.seen⟩

variable {s : Store} {id : ContainerId} {x : Content}

theorem view?_of_content (hx : s.content? id = some x) :
    s.view? id = some ⟨x.owner, x.home, x.buffer.toList.map s.seen⟩ := by
  unfold view?
  rw [hx]
  rfl

end Store

section

variable {E : Effect → Prop} {a b : Account} {id : ContainerId} {x : Content}

/-- Looking after containers does not change what a reader sees of an array or record. -/
theorem Path.view? (h : Path E a b) (ha : a.Kept) (hE : ∀ e, E e → e.Minds)
    (hx : b.store.content? id = some x) (hk : x.kind ≠ .mapping) :
    b.store.view? id = a.store.view? id := by
  obtain ⟨y, hy, hfades⟩ := h.fading ha hE hx
  have hobjects := (h.marks ha fun e he => (hE e he).calm).objects
  rw [view?_of_content hx, view?_of_content hy, hfades.owner, hfades.home,
    hfades.seen_eq (hfades.kind ▸ hk), hobjects]
  rfl

end

/-! ## Operands -/

/-- An array or record in which nothing is destroyed. -/
structure Content.Swept (x : Content) (epoch : Nat) (values : Array Value) : Prop where
  kind : x.kind ≠ .mapping
  buffer : x.buffer = values
  overlay : x.overlay = none
  epoch : x.scrubEpoch = epoch

section

variable {a b : Account} {id : ContainerId} {x x' : Content} {values : Array Value}
  (hx : a.store.content? id = some x) (hs : x.Swept a.store.objects.epoch values)
include hx hs

theorem Account.Kept.alive_of_swept (ha : a.Kept) : ∀ v ∈ values, a.store.lost v = false := by
  have hbuffer := hs.buffer
  subst hbuffer
  exact fun v hv => (ha.fresh.content hx).alive hs.epoch v (Content.mem_held_of_buffer hv)

theorem Account.Kept.view?_of_swept (ha : a.Kept) :
    a.store.view? id = some ⟨x.owner, x.home, values.toList⟩ := by
  rw [view?_of_content hx, hs.buffer, map_seen_of_alive fun v hv => ?_]
  exact ha.alive_of_swept hx hs v (Array.mem_toList_iff.mp hv)

theorem Path.swept (h : Path Effect.Tends a b) (ha : a.Kept)
    (hx' : b.store.content? id = some x') : x'.Swept b.store.objects.epoch values := by
  obtain ⟨hkind, hbuffer, hoverlay, hepoch⟩ :=
    h.steady ha (fun _ he => he) hx hs.overlay (fun _ => hs.epoch) hx'
  rw [(h.marks ha Effect.Tends.calm).objects]
  exact ⟨hkind ▸ hs.kind, hbuffer.trans hs.buffer, hoverlay, hepoch.trans hs.epoch⟩

/-- Values that were read are the same as before as long as their container is only looked after. -/
theorem Path.identity_of_swept {E : Effect → Prop} {v : Value} (h : Path E b a) (hb : b.Kept)
    (hE : ∀ e, E e → e.Calm) (hv : v ∈ values) :
    a.store.heap.identity v = b.store.heap.identity v := by
  have hbuffer := hs.buffer
  subst hbuffer
  exact (h.stands hb hE (Account.covers_of_held hx (Content.mem_held_of_buffer hv))).identity

end

theorem Effect.Keeps.tends {id : ContainerId} : ∀ e : Effect, e.Keeps id → e.Tends
  | _, .inl rfl => .still
  | _, .inr rfl => .scrub id

/-- An array or record that was read is swept. -/
theorem swept_elements {s s' : Store} {F : Refs} {C : Charges} {q : Option Closing}
    {shape : Shape} {id : ContainerId} {values : Array Value} (ha : Account.Kept ⟨s, F, C, q⟩)
    (hv : F.Covers (.container shape id)) (hs : shape ≠ .mapping)
    (h : elements (.container shape id) s = .ok (.ok values, s')) :
    Path Effect.Tends ⟨s, F, C, q⟩ ⟨s', F, C, q⟩ ∧
      ∃ x, s'.content? id = some x ∧ x.Swept s'.objects.epoch values := by
  obtain ⟨hpath, hrecent, x, hx, hk, hr⟩ := elements_answers ha hv hs h
  obtain rfl := Except.ok.inj hr
  refine ⟨hpath.mono Effect.Keeps.tends, x, hx, hk, rfl, ?_, hrecent.content hx⟩
  cases ho : x.overlay with
  | none => rfl
  | some o =>
    obtain ⟨c, hc, rfl⟩ := content?_eq_some.mp hx
    exact absurd ((hpath.kept ha).accounted.overlays hc ho).1 hk

/-! ## Counts while an array or record is read -/

/-- Nothing is lost of the elements in a slot. -/
def Store.Intact (s : Store) (id : ContainerId) : Prop :=
  ∀ x, s.content? id = some x → ∀ v ∈ x.buffer, s.lost v = false

/-- What is intact stays so while containers are looked after. -/
theorem Path.intact {E : Effect → Prop} {a b : Account} {id : ContainerId} (h : Path E a b)
    (ha : a.Kept) (hE : ∀ e, E e → e.Minds) (hi : a.store.Intact id)
    (hk : ∀ x, b.store.content? id = some x → x.kind ≠ .mapping) : b.store.Intact id := by
  intro y hy v hv
  have hcalm : ∀ e, E e → e.Calm := fun e he => (hE e he).calm
  have hcovers := Account.covers_of_held hy (Content.mem_held_of_buffer hv)
  have hobjects := (h.marks ha hcalm).objects
  obtain ⟨x, hx, hfades⟩ := h.fading ha hE hy
  obtain ⟨w, hw, hwv⟩ := Content.exists_of_forall₂ (hfades.elements (hfades.kind ▸ hk y hy))
    (Array.mem_toList_iff.mpr hv)
  have hlost := hi x hx w (Array.mem_toList_iff.mp hw)
  rcases hwv.left hobjects with rfl | ⟨hgone, -⟩
  · rw [(h.stands ha hcalm hcovers).lost hobjects]
    exact hlost
  · cases hlost.symm.trans hgone

section

variable {s s' : Store} {F : Refs} {C : Charges} {q : Option Closing} {shape : Shape}
  {id : ContainerId} {u : Unit}

theorem sameCounts_faultIn (h : faultIn id s = .ok (u, s')) : s.heap.SameCounts s'.heap := by
  obtain ⟨c, hc, ⟨-, -, rfl⟩ | ⟨ticket, -, rfl⟩⟩ := faultIn_eq_ok h
  · exact .refl _
  · exact sameCounts_withContainer (s := { s with swap := _ }) hc rfl rfl

theorem filterMap_zip_self (vs : List Value) :
    (vs.zip vs).filterMap (fun (v, w) => if w ≠ v then some v else none) = [] := by
  rw [List.filterMap_eq_nil_iff]
  intro p hp
  obtain ⟨i, hi, rfl⟩ := List.getElem_of_mem hp
  simp

/-- Scrubbing gives no reference up if nothing is lost. -/
theorem sameCounts_scrubElements {c : Container} (ha : Account.Kept ⟨s, F, C, q⟩)
    (hc : s.container? id = some c) (hi : s.Intact id) (h : scrubElements id s = .ok (u, s')) :
    s.heap.SameCounts s'.heap := by
  obtain ⟨s₁, c₁, h₁, hc₁, hscrubbed⟩ := scrubElements_eq_ok h
  have hcounts := sameCounts_faultIn h₁
  obtain rfl := Option.some.inj ((faultIn_values hc h₁).symm.trans hc₁)
  rcases hscrubbed with ⟨-, rfl⟩ | ⟨-, values, seen, he, hseen, hdrop⟩
  · exact hcounts
  · obtain rfl := Elements.resident.inj he
    have hpath := (walk_faultIn (E := Effect.Tends) (F := F) (C := C) (q := q) .still h₁).1
    have hsame : seen = (c.buffer s.swap).toArray.toList := by
      rw [map_seen_of_forall₂ hseen]
      refine map_seen_of_alive fun v hv => ?_
      have hbuffer := Container.content_buffer he s₁.swap
      have hcovers := Account.covers_of_held (a := ⟨s₁, F, C, q⟩) (content?_of_container hc₁)
        (Content.mem_held_of_buffer (hbuffer ▸ Array.mem_toList_iff.mp hv))
      rw [(hpath.stands ha Effect.Tends.calm hcovers).lost
        (hpath.marks ha Effect.Tends.calm).objects]
      exact hi _ (content?_of_container hc) v (Array.mem_toList_iff.mp hv)
    rw [hsame, filterMap_zip_self] at hdrop
    rw [relinquish_nil hdrop]
    exact hcounts.trans (sameCounts_withContainer hc₁ rfl rfl)

/-- Listing an array of which nothing is lost changes no count. -/
theorem sameCounts_elements {r : Except Refusal (Array Value)} (ha : Account.Kept ⟨s, F, C, q⟩)
    (hv : F.Covers (.container shape id)) (hs : shape ≠ .mapping) (hi : s.Intact id)
    (h : elements (.container shape id) s = .ok (r, s')) : s.heap.SameCounts s'.heap := by
  obtain ⟨values, rfl, hlisted⟩ := ClientM.lift_eq_ok.mp h
  obtain ⟨_, s₁, h₁, h₂⟩ := StoreM.bind_eq_ok.mp hlisted
  obtain ⟨-, rfl⟩ := StoreM.residentValues_eq_ok.mp h₂
  have h₁ : scrubElements id s = .ok ((), s₁) := by
    cases shape with
    | mapping => exact absurd rfl hs
    | array | record => exact h₁
  obtain ⟨c, hc⟩ := (ha.there_of_flight hv).exists_container
  exact sameCounts_scrubElements ha hc hi h₁

end

/-! ## Lists -/

namespace Sequence

/-- The ways to make an array of two others. -/
inductive Combinator where
  | concat
  | subtract
  | intersect
  | union
  | symmetricDifference
  deriving DecidableEq

/-- The request for a combination. -/
def Combinator.request : Combinator → Value → Value → Operation
  | .concat => .concat
  | .subtract => .subtract
  | .intersect => .intersect
  | .union => .union
  | .symmetricDifference => .symmetricDifference

/-- The elements of a combination. -/
def Combinator.combine (h : Heap) : Combinator → List Value → List Value → List Value
  | .concat, A, B => A ++ B
  | .subtract, A, B => A.filter fun v => ¬h.In B v
  | .intersect, A, B => A.filter fun v => h.In B v
  | .union, A, B => A ++ h.firsts (A.map h.identity) B
  | .symmetricDifference, A, B => A.filter (fun v => ¬h.In B v) ++ B.filter fun v => ¬h.In A v

end Sequence

namespace Heap

variable {h h' : Heap} {L M : List Value} {met : List Identity} {v : Value}

theorem In.congr (hv : h'.identity v = h.identity v)
    (hL : ∀ w ∈ L, h'.identity w = h.identity w) : h'.In L v ↔ h.In L v := by
  unfold In
  rw [hv]
  exact exists_congr fun w => and_congr_right fun hw => by rw [hL w hw]

theorem firsts_congr (hM : ∀ w ∈ M, h'.identity w = h.identity w) :
    h'.firsts met M = h.firsts met M := by
  induction M generalizing met with
  | nil => rfl
  | cons v rest ih =>
    obtain ⟨hv, hrest⟩ := List.forall_mem_cons.mp hM
    simp only [firsts, hv, ih hrest]

/-- First occurrences are among the values. -/
theorem mem_of_firsts (hv : v ∈ h.firsts met M) : v ∈ M := by
  induction M generalizing met with
  | nil => exact hv
  | cons w rest ih =>
    unfold firsts at hv
    split at hv
    · exact List.mem_cons_of_mem _ (ih hv)
    · rcases List.mem_cons.mp hv with rfl | hv
      · exact List.mem_cons_self
      · exact List.mem_cons_of_mem _ (ih hv)

end Heap

namespace Sequence

variable {h h' : Heap} {A B : List Value} {v : Value}

theorem Combinator.mem_of_combine (op : Combinator) (hv : v ∈ op.combine h A B) :
    v ∈ A ∨ v ∈ B := by
  cases op with
  | concat => exact List.mem_append.mp hv
  | subtract | intersect => exact .inl (List.mem_filter.mp hv).1
  | union => exact (List.mem_append.mp hv).imp_right Heap.mem_of_firsts
  | symmetricDifference =>
    exact (List.mem_append.mp hv).imp (fun hv => (List.mem_filter.mp hv).1)
      fun hv => (List.mem_filter.mp hv).1

/-- Two heaps in which the elements are the same values combine them in the same way. -/
theorem Combinator.combine_congr (op : Combinator) (hA : ∀ v ∈ A, h'.identity v = h.identity v)
    (hB : ∀ v ∈ B, h'.identity v = h.identity v) : op.combine h' A B = op.combine h A B := by
  have hselect : ∀ {L M : List Value}, (∀ v ∈ L, h'.identity v = h.identity v) →
      (∀ v ∈ M, h'.identity v = h.identity v) →
      (L.filter fun v => h'.In M v) = (L.filter fun v => h.In M v) ∧
      (L.filter fun v => ¬h'.In M v) = L.filter fun v => ¬h.In M v := by
    intro L M hL hM
    constructor <;>
    · refine List.filter_congr fun v hv => ?_
      simp only [Heap.In.congr (hL v hv) hM]
  cases op with
  | concat => rfl
  | subtract => exact (hselect hA hB).2
  | intersect => exact (hselect hA hB).1
  | union =>
    show A ++ h'.firsts (A.map h'.identity) B = A ++ h.firsts (A.map h.identity) B
    rw [List.map_congr_left hA, Heap.firsts_congr hB]
  | symmetricDifference => exact congrArg₂ _ (hselect hA hB).2 (hselect hB hA).2

/-! ## Operands -/

variable {s s' : Store} {id : ContainerId} {values : Array Value}

/-- What an operand is read as is what looking at it answers. -/
theorem operand_eq_ok {r : Except Refusal (ContainerId × Array Value)}
    (ho : operand (.container .array id) s = .ok (r, s')) :
    ∃ values, r = .ok (id, values) ∧
      elements (.container .array id) s = .ok (.ok values, s') := by
  obtain ⟨_, s₁, h₁, ho⟩ := ClientM.lift_bind_eq_ok.mp ho
  obtain ⟨values, s₂, h₂, ho⟩ := ClientM.lift_bind_eq_ok.mp ho
  obtain ⟨rfl, rfl⟩ := ClientM.pure_eq_ok.mp ho
  exact ⟨values, rfl, ClientM.lift_eq_ok.mpr ⟨_, rfl, StoreM.bind_eq_ok.mpr ⟨_, s₁, h₁, h₂⟩⟩⟩

variable {α : Type} {r : Except Refusal α}

/-- The first operand is read, and the combinator goes on with its elements. -/
theorem operand_bind_eq_ok {f : ContainerId × Array Value → ClientM α}
    (ho : (operand (.container .array id) >>= f) s = .ok (r, s')) :
    ∃ values t, elements (.container .array id) s = .ok (.ok values, t) ∧
      f (id, values) t = .ok (r, s') := by
  rcases ClientM.bind_eq_ok.mp ho with ⟨e, h₁, -⟩ | ⟨p, t, h₁, ho⟩
  · obtain ⟨_, hr, -⟩ := operand_eq_ok h₁
    cases hr
  · obtain ⟨values, hr, he⟩ := operand_eq_ok h₁
    obtain rfl := Except.ok.inj hr
    exact ⟨values, t, he, ho⟩

/-- The second operand is read and sorted, and the combinator goes on with that. -/
theorem sortedOperand_bind_eq_ok {f : Array Value → ClientM α}
    (ho : (sortedOperand (.container .array id) >>= f) s = .ok (r, s')) :
    ∃ values sorted t, elements (.container .array id) s = .ok (.ok values, t) ∧
      t.heap.sort values = .ok sorted ∧ f sorted t = .ok (r, s') := by
  rcases ClientM.bind_eq_ok.mp ho with ⟨e, h₁, -⟩ | ⟨sorted, t, h₁, ho⟩
  · obtain ⟨values, u, -, h₁⟩ := operand_bind_eq_ok h₁
    obtain ⟨_, hr, -⟩ := ClientM.lift_eq_ok.mp h₁
    cases hr
  · obtain ⟨values, u, he, h₁⟩ := operand_bind_eq_ok h₁
    obtain ⟨_, hr, h₁⟩ := ClientM.lift_eq_ok.mp h₁
    obtain rfl := Except.ok.inj hr
    obtain ⟨rfl, hs⟩ := sorted_spec h₁
    exact ⟨values, sorted, u, he, hs, ho⟩

/-! ## Combinations -/

/-- The operation of a combination. -/
def Combinator.run : Combinator → Value → Value → ClientM Value
  | .concat => Sequence.concat
  | .subtract => Sequence.subtract
  | .intersect => Sequence.intersect
  | .union => Sequence.union
  | .symmetricDifference => Sequence.symmetricDifference

theorem Combinator.perform_request (op : Combinator) (a b : Value) :
    (op.request a b).perform = do return .value (← op.run a b) := by
  cases op <;> rfl

section

variable {ida idb : ContainerId} {r : Except Refusal Value}

/-- The operands were read, one after the other, and an array was made of values. -/
def Reads (ida idb : ContainerId) (values : Heap → List Value → List Value → List Value)
    (s : Store) (r : Except Refusal Value) (s' : Store) : Prop :=
  ∃ left s₁ right s₂, elements (.container .array ida) s = .ok (.ok left, s₁) ∧
    elements (.container .array idb) s₁ = .ok (.ok right, s₂) ∧
    derive ida .array (values s₂.heap left.toList right.toList) s₂ = .ok (r, s')

/--
Intersection and difference search the sorted elements of the second array for those of the first.
-/
theorem restrict_reads {keep : Bool}
    (h : restrict (.container .array ida) (.container .array idb) keep s = .ok (r, s')) :
    Reads ida idb (fun h A B => A.filter fun v => decide (h.In B v) == keep) s r s' := by
  obtain ⟨left, s₁, hleft, h⟩ := operand_bind_eq_ok h
  obtain ⟨right, sorted, s₂, hright, hs, h⟩ := sortedOperand_bind_eq_ok h
  obtain ⟨kept, s₃, h₃, h⟩ := ClientM.lift_bind_eq_ok.mp h
  obtain ⟨rfl, rfl⟩ := members_eq_filter hs h₃
  exact ⟨left, s₁, right, s₂, hleft, hright, h⟩

/-- Concatenation puts the second array behind the first. -/
theorem concat_reads
    (h : Sequence.concat (.container .array ida) (.container .array idb) s = .ok (r, s')) :
    Reads ida idb (fun _ A B => A ++ B) s r s' := by
  obtain ⟨left, s₁, hleft, h⟩ := operand_bind_eq_ok h
  obtain ⟨right, s₂, hright, h⟩ := operand_bind_eq_ok h
  refine ⟨left, s₁, right, s₂, hleft, hright, ?_⟩
  show derive ida .array (left.toList ++ right.toList) s₂ = _
  rw [← Array.toList_append]
  exact h

/-- A union adds those elements of the second array that the first lacks, each once. -/
theorem union_reads
    (h : union (.container .array ida) (.container .array idb) s = .ok (r, s')) :
    Reads ida idb (fun h A B => A ++ h.firsts (A.map h.identity) B) s r s' := by
  obtain ⟨left, s₁, hleft, h⟩ := operand_bind_eq_ok h
  obtain ⟨right, s₂, hright, h⟩ := operand_bind_eq_ok h
  refine ⟨left, s₁, right, s₂, hleft, hright, ?_⟩
  dsimp only at h
  split at h
  · next hempty =>
    obtain rfl := Array.isEmpty_iff.mp hempty
    exact h
  · obtain ⟨extra, s₃, h₃, h⟩ := ClientM.lift_bind_eq_ok.mp h
    obtain ⟨rfl, rfl⟩ := missing_eq_firsts h₃
    exact h

/-- A symmetric difference is a difference in both directions. -/
theorem symmetricDifference_reads
    (h : symmetricDifference (.container .array ida) (.container .array idb) s = .ok (r, s')) :
    Reads ida idb (fun h A B => (A.filter fun v => decide (h.In B v) == false) ++
      B.filter fun v => decide (h.In A v) == false) s r s' := by
  obtain ⟨left, s₁, hleft, h⟩ := operand_bind_eq_ok h
  obtain ⟨right, s₂, hright, h⟩ := operand_bind_eq_ok h
  refine ⟨left, s₁, right, s₂, hleft, hright, ?_⟩
  obtain ⟨sortedLeft, s₃, h₃, h⟩ := ClientM.lift_bind_eq_ok.mp h
  obtain ⟨rfl, hsortedLeft⟩ := sorted_spec h₃
  obtain ⟨sortedRight, s₃, h₃, h⟩ := ClientM.lift_bind_eq_ok.mp h
  obtain ⟨rfl, hsortedRight⟩ := sorted_spec h₃
  obtain ⟨here, s₃, h₃, h⟩ := ClientM.lift_bind_eq_ok.mp h
  obtain ⟨rfl, rfl⟩ := members_eq_filter hsortedRight h₃
  obtain ⟨there, s₃, h₃, h⟩ := ClientM.lift_bind_eq_ok.mp h
  obtain ⟨rfl, rfl⟩ := members_eq_filter hsortedLeft h₃
  exact h

/-- A combination reads its operands, and makes an array of what there is to be in it. -/
theorem Combinator.run_reads (op : Combinator)
    (h : op.run (.container .array ida) (.container .array idb) s = .ok (r, s')) :
    Reads ida idb (fun h A B => op.combine h A B) s r s' := by
  cases op with
  | concat => exact concat_reads h
  | subtract => simpa only [combine, beq_false, decide_not] using restrict_reads h
  | intersect => simpa only [combine, beq_true] using restrict_reads h
  | union => exact union_reads h
  | symmetricDifference =>
    simpa only [combine, beq_false, decide_not] using symmetricDifference_reads h

end

end Sequence

/-! ## What is derived -/

namespace Store

variable {s t : Store} {owner : DataspaceId} {kind : Kind} {values : List Value}
  {r : Except Refusal Value} {F G : Refs} {id : ContainerId} {x : Content} {read : Array Value}

/-- Making a container does not change what was read of another one. -/
theorem Derives.view? (h : Derives s owner kind values r t) (ha : Account.Kept ⟨s, F, 0, none⟩)
    (ht : Account.Kept ⟨t, G, 0, none⟩) (hx : s.content? id = some x)
    (hs : x.Swept s.objects.epoch read) : t.view? id = s.view? id := by
  have hs' : x.Swept t.objects.epoch read := h.objects ▸ hs
  exact (ht.view?_of_swept (h.content? hx) hs').trans (ha.view?_of_swept hx hs).symm

end Store

section

variable {s s' : Store} {F : Refs} {ida idb : ContainerId} {r : Except Refusal Value}

/--
A combination tends to its operands, and then makes an array of those elements that a reader saw in
them before.
-/
theorem Sequence.Combinator.derives (op : Combinator) (ha : Account.Kept ⟨s, F, 0, none⟩)
    (hida : F.Covers (.container .array ida)) (hidb : F.Covers (.container .array idb))
    (h : op.run (.container .array ida) (.container .array idb) s = .ok (r, s')) :
    ∃ A B s₁ s₂ x y, s.view? ida = some ⟨x.owner, x.home, A⟩ ∧
      s.view? idb = some ⟨y.owner, y.home, B⟩ ∧
      elements (.container .array ida) s = .ok (.ok A.toArray, s₁) ∧
      elements (.container .array idb) s₁ = .ok (.ok B.toArray, s₂) ∧
      Path Effect.Tends ⟨s, F, 0, none⟩ ⟨s₂, F, 0, none⟩ ∧
      (s.Intact ida → s.Intact idb → s.heap.SameCounts s₂.heap) ∧
      s₂.content? ida = some x ∧ x.Swept s₂.objects.epoch A.toArray ∧
      s₂.content? idb = some y ∧ y.Swept s₂.objects.epoch B.toArray ∧
      s₂.Derives x.owner .array (op.combine s.heap A B) r s' := by
  obtain ⟨left, s₁, right, s₂, hleft, hright, hderive⟩ := op.run_reads h
  obtain ⟨hpath₁, x₁, hx₁, hsx₁⟩ := swept_elements ha hida (by decide) hleft
  have ha₁ := hpath₁.kept ha
  obtain ⟨hpath₂, y, hy, hsy⟩ := swept_elements ha₁ hidb (by decide) hright
  have ha₂ := hpath₂.kept ha₁
  have hpath := hpath₁.trans hpath₂
  obtain ⟨c, hc⟩ := (ha₂.there_of_flight hida).exists_container
  have hx := content?_of_container hc
  have hsx := hpath₂.swept hx₁ hsx₁ ha₁ hx
  have hview := hpath.view? ha Effect.minds_of_tends hx hsx.kind
  have hview' := hpath.view? ha Effect.minds_of_tends hy hsy.kind
  have hsame : op.combine s₂.heap left.toList right.toList =
      op.combine s.heap left.toList right.toList :=
    op.combine_congr
      (fun v hv => hpath.identity_of_swept hx hsx ha Effect.Tends.calm (Array.mem_toList_iff.mp hv))
      (fun v hv => hpath.identity_of_swept hy hsy ha Effect.Tends.calm (Array.mem_toList_iff.mp hv))
  have hseen : (op.combine s.heap left.toList right.toList).map s₂.seen =
      op.combine s.heap left.toList right.toList := by
    refine map_seen_of_alive fun v hv => ?_
    rcases op.mem_of_combine hv with hv | hv
    · exact ha₂.alive_of_swept hx hsx v (Array.mem_toList_iff.mp hv)
    · exact ha₂.alive_of_swept hy hsy v (Array.mem_toList_iff.mp hv)
  beta_reduce at hderive
  rw [hsame] at hderive
  have hall := derive_derives ha₂.accounted.balanced.containers hx hderive
  rw [hseen] at hall
  refine ⟨left.toList, right.toList, s₁, s₂, _, y, hview.symm.trans (ha₂.view?_of_swept hx hsx),
    hview'.symm.trans (ha₂.view?_of_swept hy hsy), hleft, hright, hpath, fun hia hib => ?_,
    hx, hsx, hy, hsy, hall⟩
  have hkind : ∀ z, s₁.content? idb = some z → z.kind ≠ .mapping := fun z hz => by
    obtain ⟨d, hd, rfl⟩ := content?_eq_some.mp hz
    exact (ha₁.fits_of_covers hidb).not_mapping hd (by decide)
  exact (sameCounts_elements ha hida (by decide) hia hleft).trans
    (sameCounts_elements ha₁ hidb (by decide)
      (hpath₁.intact ha Effect.minds_of_tends hib hkind) hright)

end

end PlaneStore
