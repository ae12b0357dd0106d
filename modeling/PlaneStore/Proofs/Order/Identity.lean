import PlaneStore.Proofs.Order.SortedSearch
import Mathlib.Tactic.Common

/-!
# Identities

Sameness of values is equality of something: containers and objects are told apart by their handles,
all other values by their place in the order. Values of one identity have one hash, so a key is
found under the hash that it was filed under.
-/

namespace PlaneStore

/-- What makes a value the one it is. -/
inductive Identity where
  | container (shape : Shape) (id : ContainerId)
  | object (obj : ObjectRef)
  | plain (place : Place)
  deriving DecidableEq

theorem Binary64.isNegative_iff {x : Binary64} :
    x.isNegative = true ↔ 0x8000000000000000 ≤ x.bits.toNat := by
  unfold isNegative
  rw [decide_eq_true_iff, ge_iff_le, UInt64.le_iff_toNat_le]
  rfl

/-- The order of floats tells all bit patterns apart. -/
theorem Binary64.orderKey_inj {x y : Binary64} (h : x.orderKey = y.orderKey) : x = y := by
  have hx := x.bits.toNat_lt
  have hy := y.bits.toNat_lt
  have hxn := x.isNegative_iff
  have hyn := y.isNegative_iff
  have hbits : x.bits.toNat = y.bits.toNat := by
    unfold orderKey at h
    -- The key turns negative numbers around and puts them below the others, so the signs agree.
    cases hnx : x.isNegative with
    | true =>
      cases hny : y.isNegative with
      | true =>
        simp only [hnx, hny, if_true, true_iff] at h hxn hyn
        omega
      | false =>
        simp only [hnx, hny, if_true, Bool.false_eq_true, if_false, true_iff, false_iff]
          at h hxn hyn
        omega
    | false =>
      cases hny : y.isNegative with
      | true =>
        simp only [hnx, hny, if_true, Bool.false_eq_true, if_false, true_iff, false_iff]
          at h hxn hyn
        omega
      | false =>
        simp only [hnx, hny, Bool.false_eq_true, if_false] at h
        omega
  cases x; cases y
  exact congrArg Binary64.mk (UInt64.toNat_inj.mp hbits)

namespace Heap

variable {h h' : Heap} {a b : Value}

def identity (h : Heap) : Value → Identity
  | .container shape id => .container shape id
  | .object obj => .object obj
  | v => .plain (h.place v)

theorem rank_place (h : Heap) (v : Value) : (h.place v).rank = v.type.rank := by
  cases v <;> rfl

theorem type_eq_of_place (hp : h.place a = h'.place b) : a.type = b.type := by
  rw [← ValueType.rank_inj, ← rank_place h a, ← rank_place h' b, hp]

theorem place_eq_of_order (ho : h.order a b = .eq) : h.place a = h.place b :=
  Std.LawfulEqOrd.eq_of_compare ho

/-- The test for sameness tells whether two values are of one identity. -/
theorem same_eq_ok {r : Bool} (hs : h.same a b = .ok r) :
    r = decide (h.identity a = h.identity b) := by
  unfold same at hs
  split at hs
  · rw [← Fallible.pure_eq_ok.mp hs]
    simp [identity, and_comm]
  · next hb =>
    rw [← Fallible.pure_eq_ok.mp hs]
    cases b with
    | container t y => exact (hb t y rfl).elim
    | _ => simp [identity]
  · next ha =>
    rw [← Fallible.pure_eq_ok.mp hs]
    cases a with
    | container s x => exact (ha s x rfl).elim
    | _ => simp [identity]
  · rw [← Fallible.pure_eq_ok.mp hs]
    simp [identity]
  · next hca hcb _ hobjects =>
    obtain ⟨o, ho, hs⟩ := Fallible.bind_eq_ok.mp hs
    obtain ⟨-, rfl⟩ := compare_eq_ok.mp ho
    rw [← Fallible.pure_eq_ok.mp hs]
    have hplace : h.order a b = .eq ↔ h.place a = h.place b :=
      ⟨place_eq_of_order, fun hp => by
        unfold order
        rw [hp]
        exact Std.ReflCmp.compare_self⟩
    have hdiffer : a.type ≠ b.type → h.identity a ≠ h.identity b →
        decide (h.order a b = .eq) = decide (h.identity a = h.identity b) := by
      intro ht hi
      have hne : h.order a b ≠ .eq := fun ho => ht (type_eq_of_place (hplace.mp ho))
      rw [decide_eq_false hne, decide_eq_false hi]
    cases a with
    | container s x => exact (hca s x rfl).elim
    | object x =>
      cases b with
      | container t y => exact (hcb t y rfl).elim
      | object y => exact (hobjects x y rfl rfl).elim
      | _ => exact hdiffer (by simp [Value.type]) (by simp [identity])
    | _ =>
      cases b with
      | container t y => exact (hcb t y rfl).elim
      | object y => exact hdiffer (by simp [Value.type]) (by simp [identity])
      | _ => simp only [hplace, identity, Identity.plain.injEq]

theorem place_eq_of_identity (hi : h.identity a = h.identity b) : h.place a = h.place b := by
  cases a with
  | container s x =>
    cases b with
    | container t y =>
      obtain ⟨rfl, rfl⟩ := Identity.container.inj hi
      rfl
    | _ => cases hi
  | object x =>
    cases b with
    | object y =>
      obtain rfl := Identity.object.inj hi
      rfl
    | _ => cases hi
  | _ =>
    cases b with
    | container | object => cases hi
    | _ => exact Identity.plain.inj hi

theorem identity_eq_of_place {v : Value} (hp : h'.place v = h.place v) :
    h'.identity v = h.identity v := by
  cases v with
  | container | object => rfl
  | _ => exact congrArg Identity.plain hp

/-- Values in the same place are in the same order. -/
theorem le_congr (ha : h'.place a = h.place a) (hb : h'.place b = h.place b) :
    h'.le a b = h.le a b := by
  unfold le order
  rw [ha, hb]

theorem text_eq_ok {id : StringId} {text : String} :
    h.text id = .ok text ↔ ∃ e, h.strings.get? id.slot = some e ∧ e.text = text := by
  unfold Heap.text
  rw [Fallible.bind_eq_ok]
  simp only [stringEntry_eq_ok, Fallible.pure_eq_ok]

/-- Two values in one place that are not told apart otherwise have one hash. -/
theorem hash_eq_of_place {x y : UInt32} (hp : h.place a = h'.place b)
    (hi : h.identity a = h'.identity b) (ha : h.hash a = .ok x) (hb : h'.hash b = .ok y) :
    x = y := by
  have htype := type_eq_of_place hp
  cases a with
  | nil =>
    cases b with
    | nil => exact Except.ok.inj (ha.symm.trans hb)
    | _ => cases htype
  | int n =>
    cases b with
    | int m =>
      obtain rfl := Int64.toInt_inj.mp (congrArg Place.number hp)
      exact Except.ok.inj (ha.symm.trans hb)
    | _ => cases htype
  | float z =>
    cases b with
    | float w =>
      have hkey : (z.orderKey : Int) = w.orderKey := congrArg Place.number hp
      obtain rfl := Binary64.orderKey_inj (Int.ofNat_inj.mp hkey)
      exact Except.ok.inj (ha.symm.trans hb)
    | _ => cases htype
  | string id =>
    cases b with
    | string id' =>
      obtain ⟨text, htext, ha⟩ := Fallible.bind_eq_ok.mp ha
      obtain ⟨text', htext', hb⟩ := Fallible.bind_eq_ok.mp hb
      obtain ⟨e, he, rfl⟩ := text_eq_ok.mp htext
      obtain ⟨e', he', rfl⟩ := text_eq_ok.mp htext'
      have heq : e.text = e'.text := by
        have := congrArg Place.text hp
        simpa [place, he, he'] using this
      rw [heq] at ha
      exact Except.ok.inj (ha.symm.trans hb)
    | _ => cases htype
  | object obj =>
    cases b with
    | object obj' =>
      obtain rfl := Identity.object.inj hi
      exact Except.ok.inj (ha.symm.trans hb)
    | _ => cases htype
  | container s id =>
    cases b with
    | container s' id' =>
      obtain ⟨-, rfl⟩ := Identity.container.inj hi
      exact Except.ok.inj (ha.symm.trans hb)
    | _ => cases hi

/-- Values of one identity have one hash. -/
theorem hash_eq_of_identity {x y : UInt32} (hi : h.identity a = h.identity b)
    (ha : h.hash a = .ok x) (hb : h.hash b = .ok y) : x = y :=
  hash_eq_of_place (place_eq_of_identity hi) hi ha hb

/-- A value that is in the same place keeps its hash. -/
theorem hash_congr {v : Value} {x : UInt32} (hp : h'.place v = h.place v)
    (hlive : ∀ id, v = .string id → ∃ e, h'.strings.get? id.slot = some e)
    (hv : h.hash v = .ok x) : h'.hash v = .ok x := by
  have hsome : ∃ y, h'.hash v = .ok y := by
    cases v with
    | string id =>
      obtain ⟨e, he⟩ := hlive id rfl
      refine ⟨_, Fallible.bind_eq_ok.mpr ⟨e.text, text_eq_ok.mpr ⟨e, he, rfl⟩, rfl⟩⟩
    | _ => exact ⟨_, rfl⟩
  obtain ⟨y, hy⟩ := hsome
  rw [hy, hash_eq_of_place hp (identity_eq_of_place hp) hy hv]

/-! ## A search that misses -/

theorem order_eq_of_identity (hi : h.identity a = h.identity b) : h.order a b = .eq := by
  unfold order
  rw [place_eq_of_identity hi]
  exact Std.ReflCmp.compare_self

/-- Of a hit the identity is that of the key. -/
theorem identity_of_same {key v : Value} (hs : h.same key v = .ok true) :
    h.identity v = h.identity key :=
  (of_decide_eq_true (same_eq_ok hs).symm).symm

theorem identity_ne_of_not_same {key v : Value} (hs : h.same key v = .ok false) :
    h.identity v ≠ h.identity key :=
  fun hi => of_decide_eq_false (same_eq_ok hs).symm hi.symm

section

variable {key : Value} {probe : Nat → Value} {n : Nat}
  (sorted : ∀ i j, i ≤ j → j < n → h.le (probe i) (probe j) = true)

include sorted

/-- Keys before one that is below the key are below it. -/
theorem below_of_below {i j : Nat} (hij : i ≤ j) (hj : j < n) (hlt : h.order key (probe j) = .gt) :
    h.order key (probe i) = .gt :=
  Std.OrientedCmp.gt_of_lt
    (Std.TransCmp.lt_of_isLE_of_lt (sorted i j hij hj) (Std.OrientedCmp.lt_of_gt hlt))

/-- Keys behind one that is above the key are above it. -/
theorem above_of_above {i j : Nat} (hij : i ≤ j) (hj : j < n) (hlt : h.order key (probe i) = .lt) :
    h.order key (probe j) = .lt :=
  Std.TransCmp.lt_of_lt_of_isLE hlt (sorted i j hij hj)

/-- If a probe down finds nothing, the key is nowhere below. -/
theorem probeDown_none {mid i : Nat} (hmid : mid < n) (hi : i ≤ mid)
    (heq : h.order key (probe mid) = .eq) (hd : h.probeDown key probe i = .ok none) :
    ∀ j < i, h.identity (probe j) ≠ h.identity key := by
  induction i with
  | zero => exact fun j hj => absurd hj (Nat.not_lt_zero j)
  | succ i ih =>
    unfold probeDown at hd
    obtain ⟨o, ho, hd⟩ := Fallible.bind_eq_ok.mp hd
    obtain ⟨-, rfl⟩ := compare_eq_ok.mp ho
    intro j hj
    split at hd
    · next hne =>
      -- The run has ended: this key is below, and so are those before it.
      have hle : (h.order (probe i) key).isLE :=
        Std.TransCmp.isLE_trans (sorted i mid (by omega) hmid)
          (by rw [Std.OrientedCmp.eq_comm.mp heq]; rfl)
      have hgt : h.order key (probe i) = .gt := by
        rw [h.order_swap] at hne ⊢
        cases ho : h.order (probe i) key with
        | lt => rfl
        | eq => rw [ho] at hne; exact absurd rfl hne
        | gt => rw [ho] at hle; cases hle
      intro hid
      have hj' := below_of_below sorted (Nat.le_of_lt_succ hj) (by omega) hgt
      rw [order_eq_of_identity hid.symm] at hj'
      cases hj'
    · obtain ⟨b, hb, hd⟩ := Fallible.bind_eq_ok.mp hd
      cases b with
      | true => cases hd
      | false =>
        rcases Nat.lt_succ_iff_lt_or_eq.mp hj with hlt | rfl
        · exact ih (by omega) hd j hlt
        · exact identity_ne_of_not_same hb

/-- If a probe up finds nothing, the key is nowhere above. -/
theorem probeUp_none {mid i : Nat} (hi : mid ≤ i) (heq : h.order key (probe mid) = .eq)
    (hu : h.probeUp key probe n i = .ok none) :
    ∀ j, i ≤ j → j < n → h.identity (probe j) ≠ h.identity key := by
  induction i using probeUp.induct (n := n) with
  | case1 i hlt ih =>
    unfold probeUp at hu
    rw [if_pos hlt] at hu
    obtain ⟨o, ho, hu⟩ := Fallible.bind_eq_ok.mp hu
    obtain ⟨-, rfl⟩ := compare_eq_ok.mp ho
    intro j hij hj
    split at hu
    · next hne =>
      have hle : (h.order key (probe i)).isLE :=
        Std.TransCmp.isLE_trans (by rw [heq]; rfl) (sorted mid i hi hlt)
      have habove : h.order key (probe i) = .lt := by
        cases ho : h.order key (probe i) with
        | lt => rfl
        | eq => rw [ho] at hne; exact absurd rfl hne
        | gt => rw [ho] at hle; cases hle
      intro hid
      have hj' := above_of_above sorted hij hj habove
      rw [order_eq_of_identity hid.symm] at hj'
      cases hj'
    · obtain ⟨b, hb, hu⟩ := Fallible.bind_eq_ok.mp hu
      cases b with
      | true => cases hu
      | false =>
        rcases Nat.lt_or_eq_of_le hij with hlt' | rfl
        · exact ih (by omega) hu j hlt' hj
        · exact identity_ne_of_not_same hb
  | case2 i hge => exact fun j hij hj => absurd hj (by omega)

/-- If the run of equals lacks the key, so does all that is searched. -/
theorem probeRun_absent {mid i : Nat} (hmid : mid < n) (heq : h.order key (probe mid) = .eq)
    (hr : h.probeRun key probe n mid = .ok (.absent i)) :
    ∀ j < n, h.identity (probe j) ≠ h.identity key := by
  unfold probeRun at hr
  obtain ⟨b, hb, hr⟩ := Fallible.bind_eq_ok.mp hr
  cases b with
  | true => cases Fallible.pure_eq_ok.mp hr
  | false =>
    obtain ⟨down, hd, hr⟩ := Fallible.bind_eq_ok.mp hr
    cases down with
    | some j => cases Fallible.pure_eq_ok.mp hr
    | none =>
      obtain ⟨up, hu, hr⟩ := Fallible.bind_eq_ok.mp hr
      cases up with
      | some j => cases Fallible.pure_eq_ok.mp hr
      | none =>
        intro j hj
        rcases Nat.lt_trichotomy j mid with hlt | rfl | hgt
        · exact probeDown_none sorted hmid (Nat.le_refl _) heq hd j hlt
        · exact identity_ne_of_not_same hb
        · exact probeUp_none sorted (Nat.le_succ mid) heq hu j hgt hj

/-- If the search ends without the key, no index has it. -/
theorem bisect_absent {lo hi i : Nat} (hn : hi ≤ n)
    (hlo : ∀ j < lo, h.order key (probe j) = .gt)
    (hhi : ∀ j, hi ≤ j → j < n → h.order key (probe j) = .lt)
    (hb : h.bisect key probe n lo hi = .ok (.absent i)) :
    ∀ j < n, h.identity (probe j) ≠ h.identity key := by
  induction lo, hi using bisect.induct with
  | case1 lo hi hlt mid ihlt ihgt =>
    unfold bisect at hb
    rw [if_pos hlt] at hb
    obtain ⟨o, ho, hb⟩ := Fallible.bind_eq_ok.mp hb
    obtain ⟨-, rfl⟩ := compare_eq_ok.mp ho
    have hmid : mid < n := by omega
    cases ho : h.order key (probe mid) with
    | lt =>
      rw [ho] at hb
      exact ihlt (by omega) hlo (fun j hj hjn => above_of_above sorted hj hjn ho) hb
    | gt =>
      rw [ho] at hb
      exact ihgt hn (fun j hj => below_of_below sorted (Nat.le_of_lt_succ hj) hmid ho) hhi hb
    | eq =>
      -- Equal places need not be equal values, so the whole run around the middle is searched.
      rw [ho] at hb
      exact probeRun_absent sorted hmid ho hb
  | case2 lo hi hge =>
    intro j hj hid
    have ho := order_eq_of_identity hid.symm
    rcases Nat.lt_or_ge j lo with hlt | hge'
    · rw [hlo j hlt] at ho
      cases ho
    · rw [hhi j (by omega) hj] at ho
      cases ho

end

/-- A miss means that no key of a sorted sequence has the identity looked for. -/
theorem findSorted_absent {elements : Array Value} {stride i : Nat} {key : Value}
    (sorted : ∀ i j, i ≤ j → j < elements.size / stride →
      h.le (elements.getD (i * stride) .nil) (elements.getD (j * stride) .nil) = true)
    (hf : h.findSorted elements stride key = .ok (.absent i)) :
    ∀ j < elements.size / stride,
      h.identity (elements.getD (j * stride) .nil) ≠ h.identity key :=
  bisect_absent sorted (Nat.le_refl _) (fun j hj => absurd hj (Nat.not_lt_zero j))
    (fun _ hj hjn => absurd hjn (Nat.not_lt_of_le hj)) hf

end Heap

end PlaneStore
