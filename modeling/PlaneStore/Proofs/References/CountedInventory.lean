import PlaneStore.Proofs.SweepLists.Bookkeeping
import Mathlib.Data.Multiset.Count

/-!
# Balance

A heap is balanced against an inventory of references if every slot in use counts the references to
it, and there is at least one. Then a slot is free exactly if nothing refers to it.

Only references to strings and containers are counted; other values may be in an inventory or not.
-/

namespace PlaneStore

/-! ## What a value refers to -/

/-- A slot that counts its references. -/
inductive Target where
  | container (id : ContainerId)
  | string (id : StringId)
  deriving DecidableEq

/-- The slot that a value refers to, if any. -/
def Value.target? : Value → Option Target
  | .container _ id => some (.container id)
  | .string id => some (.string id)
  | _ => none

/-- Strings and containers are counted, and nothing else. -/
theorem Value.isCounted_iff {v : Value} : v.isCounted = true ↔ ∃ t, v.target? = some t := by
  cases v <;> simp [isCounted, target?]

namespace Refs

/-- The number of references to a slot. -/
def tally (R : Refs) (t : Target) : Nat := R.countP fun v => v.target? = some t

@[simp] theorem tally_zero (t : Target) : Refs.tally 0 t = 0 := rfl

@[simp] theorem tally_add (R S : Refs) (t : Target) :
    Refs.tally (R + S) t = R.tally t + S.tally t :=
  Multiset.countP_add _ _ _

theorem tally_singleton (v : Value) (t : Target) :
    Refs.tally {v} t = if v.target? = some t then 1 else 0 := by
  unfold tally
  rw [← Multiset.cons_zero, Multiset.countP_cons]
  simp

/-- What nothing refers to has a tally of zero. -/
theorem tally_eq_zero {R : Refs} {t : Target} : R.tally t = 0 ↔ ∀ v ∈ R, v.target? ≠ some t :=
  Multiset.countP_eq_zero

/-- What something refers to has a tally above zero. -/
theorem tally_pos {R : Refs} {v : Value} {t : Target} (hv : v ∈ R) (ht : v.target? = some t) :
    0 < R.tally t :=
  Multiset.countP_pos.mpr ⟨v, hv, ht⟩

/-- The references to strings and containers. -/
def counted (R : Refs) : Refs := R.filter (·.isCounted)

@[simp] theorem counted_add (R S : Refs) : counted (R + S) = R.counted + S.counted :=
  Multiset.filter_add _ _ _

@[simp] theorem counted_zero : counted 0 = 0 := rfl

theorem mem_counted {R : Refs} {v : Value} : v ∈ R.counted ↔ v ∈ R ∧ v.isCounted = true :=
  Multiset.mem_filter

theorem tally_counted (R : Refs) (t : Target) : R.counted.tally t = R.tally t := by
  unfold tally counted
  rw [Multiset.countP_filter]
  refine Multiset.countP_congr rfl fun v _ => propext ?_
  exact ⟨fun h => h.1, fun h => ⟨h, Value.isCounted_iff.mpr ⟨t, h⟩⟩⟩

/-- The tally is one of counted references. -/
theorem tally_congr {R S : Refs} (h : R.counted = S.counted) (t : Target) :
    R.tally t = S.tally t := by
  rw [← tally_counted, h, tally_counted]

theorem counted_singleton {v : Value} (h : v.isCounted = false) : counted {v} = 0 := by
  simp [counted, Multiset.filter_singleton, h]

end Refs

/-! ## Counts of a heap -/

namespace Heap

/-- The number of references that a slot in use counts. -/
def count? (h : Heap) : Target → Option Nat
  | .container id => (h.containers.get? id.slot).map (·.refcount)
  | .string id => (h.strings.get? id.slot).map (·.refcount)

/-- The number of references that a slot counts; none if it is free. -/
def count (h : Heap) (t : Target) : Nat := (h.count? t).getD 0

/-- Whether a value that addresses a container has the shape of what is in the slot. -/
def Fits (h : Heap) (v : Value) : Prop :=
  ∀ shape id c, v = .container shape id → h.containers.get? id.slot = some c → c.kind.shape = shape

/-- What is not counted need not be there. -/
theorem fits_of_not_counted {h : Heap} {v : Value} (hv : v.isCounted = false) : h.Fits v := by
  rintro shape id c rfl
  cases hv

/-- The values that addressed the right shape before do so later, if no slot changed its shape. -/
theorem Fits.mono {h h' : Heap} {v : Value} (hf : h.Fits v)
    (hk : ∀ i c', h'.containers.get? i = some c' →
      ∃ c, h.containers.get? i = some c ∧ c.kind = c'.kind) : h'.Fits v := by
  rintro shape id c' rfl hc'
  obtain ⟨c, hc, he⟩ := hk id.slot c' hc'
  rw [← he]
  exact hf shape id c rfl hc

/-- Every slot in use counts the references to it, of which there is at least one. -/
structure Balanced (h : Heap) (R : Refs) : Prop where
  containers : h.containers.Sound
  strings : h.strings.Sound
  count : ∀ t, h.count t = R.tally t
  pos : ∀ t, h.count? t ≠ some 0
  fits : ∀ v ∈ R, h.Fits v

namespace Balanced

variable {h h' : Heap} {R R' : Refs}

/-- A count is the number of references. -/
theorem count_eq (hb : h.Balanced R) {t : Target} {n : Nat} (ht : h.count? t = some n) :
    n = R.tally t := by
  have := hb.count t
  rw [Heap.count, ht] at this
  exact this

/-- Nothing that is there has a count of zero. -/
theorem count_pos (hb : h.Balanced R) {t : Target} {n : Nat} (ht : h.count? t = some n) :
    0 < n := by
  have := hb.pos t
  rw [ht] at this
  exact Nat.pos_of_ne_zero fun hn => this (congrArg some hn)

/-- A slot is free exactly if nothing refers to it. -/
theorem free_iff (hb : h.Balanced R) {t : Target} : h.count? t = none ↔ R.tally t = 0 := by
  rw [← hb.count t]
  cases ht : h.count? t with
  | none => simp [Heap.count, ht]
  | some n =>
    have := hb.count_pos ht
    simp only [Heap.count, ht, Option.getD_some, reduceCtorEq, false_iff]
    omega

/-- What is referred to is there. -/
theorem ne_free (hb : h.Balanced R) {v : Value} {t : Target} (hv : v ∈ R)
    (ht : v.target? = some t) : h.count? t ≠ none := fun hfree =>
  Refs.tally_eq_zero.mp (hb.free_iff.mp hfree) v hv ht

/-- What is in use is referred to. -/
theorem exists_mem (hb : h.Balanced R) {t : Target} {n : Nat} (ht : h.count? t = some n) :
    ∃ v ∈ R, v.target? = some t := by
  have hpos := hb.count_pos ht
  rw [hb.count_eq ht] at hpos
  exact Multiset.countP_pos.mp hpos

/-- A reference to a container is to one that is there, and of the kind that it says. -/
theorem exists_container (hb : h.Balanced R) {shape : Shape} {id : ContainerId}
    (hv : .container shape id ∈ R) :
    ∃ c, h.containers.get? id.slot = some c ∧ c.kind.shape = shape := by
  cases hc : h.containers.get? id.slot with
  | none =>
    exact absurd (congrArg (Option.map Container.refcount) hc)
      (hb.ne_free (t := .container id) hv rfl)
  | some c => exact ⟨c, rfl, hb.fits _ hv shape id c rfl hc⟩

/-- A reference to a text is to one that is there. -/
theorem exists_string (hb : h.Balanced R) {id : StringId} (hv : .string id ∈ R) :
    ∃ e, h.strings.get? id.slot = some e := by
  cases he : h.strings.get? id.slot with
  | none =>
    exact absurd (congrArg (Option.map StringEntry.refcount) he)
      (hb.ne_free (t := .string id) hv rfl)
  | some e => exact ⟨e, rfl⟩

/-- Values that count no references may be added to an inventory or left out. -/
theorem congr_refs (hb : h.Balanced R) (hR : R'.counted = R.counted) : h.Balanced R' where
  containers := hb.containers
  strings := hb.strings
  count t := by rw [hb.count t, Refs.tally_congr hR]
  pos := hb.pos
  fits v hv := by
    cases hc : v.isCounted with
    | false => exact fits_of_not_counted hc
    | true =>
      have : v ∈ R.counted := hR ▸ Refs.mem_counted.mpr ⟨hv, hc⟩
      exact hb.fits v (Refs.mem_counted.mp this).1

/--
A heap whose slots keep their shapes is balanced again if the counts moved with the inventory.
-/
theorem move (hb : h.Balanced R) (hcs : h'.containers.Sound) (hss : h'.strings.Sound)
    (hcount : ∀ t, h'.count t + R.tally t = h.count t + R'.tally t)
    (hpos : ∀ t, h'.count? t ≠ some 0)
    (hk : ∀ i c', h'.containers.get? i = some c' →
      ∃ c, h.containers.get? i = some c ∧ c.kind = c'.kind)
    (hfits : ∀ v ∈ R', v ∉ R → h'.Fits v) : h'.Balanced R' where
  containers := hcs
  strings := hss
  count t := by
    have h₁ := hcount t
    have h₂ := hb.count t
    omega
  pos := hpos
  fits v hv := by
    by_cases hR : v ∈ R
    · exact (hb.fits v hR).mono hk
    · exact hfits v hv hR

/-- Another reference was taken, and one more is counted. -/
theorem raise (hb : h.Balanced R) {v : Value} {t₀ : Target} (hv : v.target? = some t₀)
    (hcs : h'.containers.Sound) (hss : h'.strings.Sound)
    (hself : h'.count? t₀ = some (h.count t₀ + 1)) (hother : ∀ t ≠ t₀, h'.count? t = h.count? t)
    (hk : ∀ i c', h'.containers.get? i = some c' →
      ∃ c, h.containers.get? i = some c ∧ c.kind = c'.kind)
    (hfits : h.Fits v) : h'.Balanced ({v} + R) := by
  refine hb.move hcs hss (fun t => ?_) (fun t => ?_) hk fun w hw hn => ?_
  · rw [Refs.tally_add, Refs.tally_singleton, hv]
    by_cases ht : t = t₀
    · subst ht
      rw [Heap.count, hself, if_pos rfl]
      simp only [Option.getD_some]
      omega
    · have hne : ¬ some t₀ = some t := fun he => ht (Option.some.inj he).symm
      rw [Heap.count, hother t ht, if_neg hne]
      simp only [Heap.count]
      omega
  · by_cases ht : t = t₀
    · subst ht
      rw [hself]
      simp
    · rw [hother t ht]
      exact hb.pos t
  · rcases Multiset.mem_add.mp hw with hw | hw
    · rw [Multiset.mem_singleton.mp hw]
      exact hfits.mono hk
    · exact absurd hw hn

/-- A free slot was taken, with one reference to it. -/
theorem add (hb : h.Balanced R) {v : Value} {t₀ : Target} (hv : v.target? = some t₀)
    (hfree : h.count? t₀ = none) (hcs : h'.containers.Sound) (hss : h'.strings.Sound)
    (hcount : ∀ t, h'.count? t = if t = t₀ then some 1 else h.count? t)
    (hfits : h'.Fits v) (hold : ∀ w ∈ R, h'.Fits w) : h'.Balanced ({v} + R) where
  containers := hcs
  strings := hss
  count t := by
    rw [Heap.count, hcount, Refs.tally_add, Refs.tally_singleton, hv]
    by_cases ht : t = t₀
    · subst ht
      rw [if_pos rfl, if_pos rfl, hb.free_iff.mp hfree]
      rfl
    · rw [if_neg ht, if_neg fun he => ht (Option.some.inj he).symm, zero_add]
      exact hb.count t
  pos t := by
    rw [hcount]
    split
    · simp
    · exact hb.pos t
  fits w hw := by
    rcases Multiset.mem_add.mp hw with hw | hw
    · rw [Multiset.mem_singleton.mp hw]
      exact hfits
    · exact hold w hw

/-- A reference was given up, and one less is counted. -/
theorem lower {v : Value} {t₀ : Target} (hb : h.Balanced ({v} + R)) (hv : v.target? = some t₀)
    (hcs : h'.containers.Sound) (hss : h'.strings.Sound) (hself : h'.count t₀ + 1 = h.count t₀)
    (hpos : h'.count? t₀ ≠ some 0) (hother : ∀ t ≠ t₀, h'.count? t = h.count? t)
    (hk : ∀ i c', h'.containers.get? i = some c' →
      ∃ c, h.containers.get? i = some c ∧ c.kind = c'.kind) : h'.Balanced R := by
  refine hb.move hcs hss (fun t => ?_) (fun t => ?_) hk fun w hw hn => ?_
  · rw [Refs.tally_add, Refs.tally_singleton, hv]
    by_cases ht : t = t₀
    · subst ht
      rw [if_pos rfl]
      omega
    · have hne : ¬ some t₀ = some t := fun he => ht (Option.some.inj he).symm
      rw [Heap.count, hother t ht, if_neg hne]
      simp only [Heap.count]
      omega
  · by_cases ht : t = t₀
    · subst ht
      exact hpos
    · rw [hother t ht]
      exact hb.pos t
  · exact absurd (Multiset.mem_add.mpr (Or.inr hw)) hn

end Balanced

end Heap

end PlaneStore
