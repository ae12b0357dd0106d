import PlaneStore.Proofs.Contents.ContainerSizes
import PlaneStore.Proofs.Heap.SlabTotals

/-!
# Limits hold

No step brings a store over its limits that was within them. A container is only made, and a key
only added to a mapping, where there is room; all else leaves a container as large as it was or
makes it smaller, but for a discard, which brings a size back that a backup recorded.
-/

namespace PlaneStore

open Store

/-! ## How many containers there are -/

section

variable {a b : Account} {e : Effect}

/-- A container that is there after a step was there before, or was made in the next free slot. -/
theorem Step.there (h : Step e a b) (ha : a.Accounted) (id : ContainerId)
    (hid : b.store.container? id ≠ none) : a.store.container? id ≠ none ∨
      id = a.store.heap.nextId ∧ (∃ F, e = .create id F) ∧
        a.store.heap.liveContainers < a.store.limits.containers := by
  obtain ⟨x, hx⟩ : ∃ x, b.store.content? id = some x := by
    obtain ⟨c, hc⟩ := Option.ne_none_iff_exists'.mp hid
    exact ⟨_, content?_of_container hc⟩
  cases h.content ha hx with
  | kept hx | becomes hx =>
    obtain ⟨d, hd, -⟩ := content?_eq_some.mp hx
    exact .inl (by rw [hd]; nofun)
  | made he hnext _ _ _ hroom => exact .inr ⟨hnext, ⟨_, he⟩, hroom⟩

/-- Only steps that make containers make them more. -/
theorem Step.live_le (h : Step e a b) (ha : a.Kept) (he : ∀ id F, e ≠ .create id F) :
    b.store.heap.liveContainers ≤ a.store.heap.liveContainers :=
  Slab.live_le ha.accounted.balanced.containers (h.accounted ha).balanced.containers fun i hi =>
    (h.there ha.accounted ⟨i⟩ hi).resolve_right
    fun ⟨_, ⟨_, hcreate⟩, _⟩ => he _ _ hcreate

/-- There are no more containers than before, unless one is made. -/
theorem Path.live_le {E : Effect → Prop} (h : Path E a b) (ha : a.Kept)
    (hE : ∀ e, E e → ∀ id F, e ≠ .create id F) :
    b.store.heap.liveContainers ≤ a.store.heap.liveContainers := by
  induction h with
  | refl => exact Nat.le_refl _
  | tail h he hs ih => exact Nat.le_trans (hs.live_le (h.kept ha) (hE _ he)) ih

/-- There are no more containers than are allowed after a step, if there were not before. -/
theorem Step.live_le_limit (h : Step e a b) (ha : a.Kept)
    (hlive : a.store.heap.liveContainers ≤ a.store.limits.containers) :
    b.store.heap.liveContainers ≤ a.store.limits.containers := by
  have hs := ha.accounted.balanced.containers
  have hs' := (h.accounted ha).balanced.containers
  by_cases hnew : ∀ id, b.store.container? id ≠ none → a.store.container? id ≠ none
  · exact Nat.le_trans (Slab.live_le hs hs' fun i hi => hnew ⟨i⟩ hi) hlive
  · obtain ⟨id, hid, hnone⟩ : ∃ id, b.store.container? id ≠ none ∧
      ¬ a.store.container? id ≠ none := by
      simpa only [not_forall, exists_prop] using hnew
    obtain ⟨-, -, hroom⟩ := (h.there ha.accounted _ hid).resolve_left hnone
    have hle : b.store.heap.liveContainers ≤ a.store.heap.liveContainers + 1 :=
      Slab.live_le_succ hs hs' fun i hi hthere => (h.there ha.accounted ⟨i⟩ hthere).resolve_right
        fun ⟨hnext, _⟩ => hi (congrArg ContainerId.slot hnext)
    exact Nat.le_trans hle hroom

/-! ## All limits -/

/-- A backup is as large as what it restores. -/
def Backup.entries (y : Backup) : Nat := y.kind.entries y.elements.size

/-- No limit is exceeded, and none would be by a discard. -/
structure Account.Bounded (a : Account) : Prop where
  containers : a.store.heap.liveContainers ≤ a.store.limits.containers
  planes : a.store.level ≤ a.store.limits.planes
  content : ∀ {id : ContainerId} {x : Content}, a.store.content? id = some x →
    x.size ≤ a.store.limits.containerSize
  backup : ∀ {y : Backup}, y ∈ a.backups → y.entries ≤ a.store.limits.containerSize

theorem Kind.entries_congr {k k' : Kind} (h : k = .mapping ↔ k' = .mapping) (n : Nat) :
    k.entries n = k'.entries n := by
  cases k with
  | mapping => rw [h.mp rfl]
  | array | record =>
    cases k' with
    | mapping => cases h.mpr rfl
    | array | record => rfl

/-- A discard brings back the size that the backup recorded. -/
theorem Content.size_restore {x : Content} {y : Backup}
    (h : y.kind = .mapping ↔ x.kind = .mapping) :
    ({ x with
      buffer := y.elements, overlay := none, home := y.home, scrubEpoch := y.scrubEpoch } :
        Content).size = y.entries := by
  unfold Content.size Backup.entries
  rw [Kind.entries_congr h]
  rfl

/-- A plane is only entered within the limit. -/
theorem Step.planes_le (h : Step e a b) (ha : a.Accounted)
    (hlevel : a.store.level ≤ a.store.limits.planes) : b.store.level ≤ a.store.limits.planes := by
  by_cases hcalm : e ≠ .enter ∧ ∀ folds level, e ≠ .leave folds level
  · rw [h.level ha hcalm]
    exact hlevel
  cases h with
  | nesting h =>
    cases h with
    | enter hroom => exact hroom
    | @pop s F C p rest folds hp =>
      have hrest : rest.length ≤ s.level := by
        unfold Store.level
        rw [hp]
        exact Nat.le_succ _
      exact Nat.le_trans hrest hlevel
    | _ => exact absurd ⟨nofun, nofun⟩ hcalm
  | upkeep h => cases h <;> exact absurd ⟨nofun, nofun⟩ hcalm
  | creation h => cases h <;> exact absurd ⟨nofun, nofun⟩ hcalm
  | writing h => cases h <;> exact absurd ⟨nofun, nofun⟩ hcalm
  | _ => exact absurd ⟨nofun, nofun⟩ hcalm

/-- What a container holds after a step is no larger than allowed. -/
theorem Step.size_le (h : Step e a b) (ha : a.Kept) (hbounded : a.Bounded) {id : ContainerId}
    {x' : Content} (hx' : b.store.content? id = some x') :
    x'.size ≤ a.store.limits.containerSize := by
  by_cases hleaves : e.Leaves id
  · obtain ⟨x, hx, -, hsize⟩ := (Path.single (E := (· = e)) rfl h).size ha
      (by rintro e rfl; exact hleaves) hx'
    rw [hsize]
    exact hbounded.content hx
  -- Of the steps that do not leave the container alone, only additions make it larger.
  cases h.content ha.accounted hx' with
  | kept hx => exact hbounded.content hx
  | @becomes x _ hx hbec =>
    have hle := hbounded.content hx
    cases e with
    | scrub other =>
      obtain rfl : other = id := not_ne_iff.mp hleaves
      exact Nat.le_trans hbec.size_scrub.1 hle
    | change other ed =>
      obtain rfl : other = id := not_ne_iff.mp hleaves
      exact hbec.size_change.elim (Nat.le_trans · hle) id
    | restore other =>
      cases hbec with
      | restore hq hl hf hy =>
        have hmem := Account.mem_backups_of_closing hq hl
        rw [Content.size_restore (ha.accounted.backup_kind hmem (hy ▸ hx))]
        exact hbounded.backup hmem
    | create other F =>
      cases hbec with
      | retag => exact hle
    | _ => exact absurd trivial hleaves
  | made he hid hv hC hm hroom hsize =>
    unfold Content.size Content.new
    rw [List.size_toArray]
    exact hsize

theorem Step.bounded (h : Step e a b) (ha : a.Kept) (hbounded : a.Bounded) : b.Bounded where
  containers := h.limits ha.accounted ▸ h.live_le_limit ha hbounded.containers
  planes := h.limits ha.accounted ▸ h.planes_le ha.accounted hbounded.planes
  content hx' := h.limits ha.accounted ▸ h.size_le ha hbounded hx'
  backup {y} hy := by
    rw [h.limits ha.accounted]
    rcases h.backups ha.accounted hy with hold | ⟨x, hx, hrec, hclean, -⟩
    · exact hbounded.backup hold
    · have hsize : y.entries = x.kind.entries x.buffer.size := by
        unfold Backup.entries
        rw [hrec.kind, hrec.elements]
      rw [hsize]
      exact Nat.le_trans (Nat.le_add_right _ _) (hbounded.content hx)

/-- A chain of steps stays within the limits. -/
theorem Path.bounded {E : Effect → Prop} (h : Path E a b) (ha : a.Kept) (hbounded : a.Bounded) :
    b.Bounded := by
  induction h with
  | refl => exact hbounded
  | tail h _ hs ih => exact hs.bounded (h.kept ha) ih

end

end PlaneStore
