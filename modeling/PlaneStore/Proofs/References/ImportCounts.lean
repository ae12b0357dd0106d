import PlaneStore.Proofs.SweepLists.Links
import Mathlib.Algebra.Order.BigOperators.Group.List

/-!
# Imports are counted exactly

The slots of a dataspace are its variables, the payloads of its deferred calls, and the elements and
pending writes of the containers that it owns. A dataspace has an import for a container exactly if
another one owns it and a slot of its own holds it, and then the import is the number of such slots.
What planes keep in backups, saved variables and patches is not counted.

Charges count as slots: they are what a dataspace counts already, or still.
-/

namespace PlaneStore

open Store

/-! ## Slots -/

/-- The references that are charged to a dataspace. -/
def Charges.at (C : Charges) (ds : DataspaceId) : Refs := (C.filter (·.1 = ds)).map Prod.snd

namespace Charges

variable (C D : Charges) (ds x : DataspaceId)

@[simp] theorem at_zero : Charges.at 0 ds = 0 := rfl

@[simp] theorem at_add : (C + D).at ds = C.at ds + D.at ds := by
  simp [Charges.at, Multiset.filter_add]

theorem at_of (vs : List Value) : (Charges.of ds vs).at x = if x = ds then ↑vs else 0 := by
  unfold Charges.at Charges.of
  split
  · next h =>
    rw [Multiset.filter_eq_self.mpr, Multiset.map_coe, List.map_map]
    · simp
    · intro p hp
      obtain ⟨v, -, rfl⟩ := List.mem_map.mp hp
      exact h.symm
  · next h =>
    rw [Multiset.filter_eq_nil.mpr]
    · rfl
    · intro p hp
      obtain ⟨v, -, rfl⟩ := List.mem_map.mp hp
      exact Ne.symm h

theorem at_le : C.at ds ≤ C.refs := Multiset.map_le_map (Multiset.filter_le _ _)

end Charges

theorem Refs.tally_container_at (x ds : DataspaceId) (v : Value) (id : ContainerId) :
    Refs.tally (if x = ds then ↑[v] else 0) (.container id) =
      if x = ds ∧ v.containerId? = some id then 1 else 0 := by
  by_cases hx : x = ds
  · rw [if_pos hx, Multiset.coe_singleton, Refs.tally_singleton]
    cases v <;> simp [hx, Value.target?, Value.containerId?]
  · rw [if_neg hx, if_neg fun h => hx h.1, Refs.tally_zero]

/-- Two places of a list hold no more than all of it. -/
theorem List.getElem?_add_getElem?_le_sum {l : List Refs} {i j : Nat} (hne : i ≠ j) :
    l[i]?.getD 0 + l[j]?.getD 0 ≤ l.sum := by
  have hone : ∀ (l : List Refs) (i : Nat), l[i]?.getD 0 ≤ l.sum := by
    intro l
    induction l with
    | nil => exact fun i => le_rfl
    | cons a l ih =>
      intro i
      cases i with
      | zero => exact Multiset.le_add_right _ _
      | succ i => exact (ih i).trans (Multiset.le_add_left _ _)
  induction l generalizing i j with
  | nil => exact le_rfl
  | cons a l ih =>
    cases i with
    | zero =>
      cases j with
      | zero => exact absurd rfl hne
      | succ j => exact add_le_add_right (hone l j) a
    | succ i =>
      cases j with
      | zero =>
        rw [add_comm]
        exact add_le_add_right (hone l i) a
      | succ j =>
        exact (ih fun h => hne (congrArg _ h)).trans (Multiset.le_add_left _ _)

namespace Dataspace

variable {d d' : Dataspace} {id other : ContainerId}

/-- To drop one import leaves all others. -/
theorem imports_dropImport?_of_ne (h : d.dropImport? id = some d') (hne : id ≠ other) :
    d'.imports[other]? = d.imports[other]? := by
  have hcmp : compare id other ≠ .eq := fun he => hne (Std.LawfulEqOrd.eq_of_compare he)
  unfold dropImport? at h
  split at h
  · cases h
  · cases h
    split
    · simp [Std.TreeMap.getElem?_insert, hcmp]
    · simp [Std.TreeMap.getElem?_erase, hcmp]

/-- An import of which nothing is left is struck. -/
theorem imports_dropImport?_pos (h : d.dropImport? id = some d')
    (hpos : ∀ id : ContainerId, d.imports[id]? ≠ some 0) (other : ContainerId) :
    d'.imports[other]? ≠ some 0 := by
  by_cases hne : id = other
  · subst hne
    unfold dropImport? at h
    split at h
    · cases h
    · cases h
      split
      · next n _ hlt =>
        have hn : n - 1 ≠ 0 := by omega
        simp [hn]
      · simp
  · rw [imports_dropImport?_of_ne h hne]
    exact hpos other

end Dataspace

namespace Store

/-- What a container holds, for its owner. -/
def share (swap : Swap) (ds : DataspaceId) (c : Container) : Refs :=
  if c.owner = ds then c.held swap else 0

/-- The references in slots of a dataspace. -/
def slots (s : Store) (ds : DataspaceId) : Refs :=
  ((s.dataspace? ds).map Dataspace.held).getD 0 + s.heap.containers.total (share s.swap ds)

/-- Whether a container is there and belongs to another dataspace. -/
def isForeign (s : Store) (ds : DataspaceId) (id : ContainerId) : Bool :=
  (s.container? id).any fun c => c.owner ≠ ds

/-- Every dataspace has an import for each foreign container that it refers to, and no other. -/
structure Imports (s : Store) (T : DataspaceId → Refs) : Prop where
  count : ∀ {ds d} (id : ContainerId), s.dataspace? ds = some d →
    d.imports.getD id 0 = if s.isForeign ds id then (T ds).tally (.container id) else 0
  pos : ∀ {ds d} (id : ContainerId), s.dataspace? ds = some d → d.imports[id]? ≠ some 0

variable {s s' : Store} {T T' : DataspaceId → Refs}

theorem isForeign_eq_links (s : Store) (ds : DataspaceId) (id : ContainerId) :
    s.isForeign ds id = (s.links? id).any fun l => l.owner ≠ ds := by
  unfold isForeign links?
  cases s.container? id <;> rfl

/-- A container that another is put in front of stays with its dataspace. -/
theorem isForeign_of_follow {id other : ContainerId} {first : Option ContainerId}
    (h : s'.links? other = (s.links? other).map (Linked.follow id first other)) (ds : DataspaceId) :
    s'.isForeign ds other = s.isForeign ds other := by
  rw [isForeign_eq_links, isForeign_eq_links, h]
  cases s.links? other with
  | none => rfl
  | some l => rw [Option.map_some, Option.any_some, Option.any_some, Linked.follow_owner]

namespace Imports

/-- What is counted is a matter of tables, owners and numbers of references. -/
theorem congr (h : s.Imports T) (hi : ∀ ds, s'.imports? ds = s.imports? ds)
    (hf : ∀ ds id, s'.isForeign ds id = s.isForeign ds id)
    (hT : ∀ ds id, (T' ds).tally (.container id) = (T ds).tally (.container id)) :
    s'.Imports T' := by
  have hold : ∀ {ds d'}, s'.dataspace? ds = some d' →
      ∃ d, s.dataspace? ds = some d ∧ d.imports = d'.imports := by
    intro ds d' hd'
    have himports := hi ds
    unfold imports? at himports
    rw [hd'] at himports
    exact Option.map_eq_some_iff.mp himports.symm
  constructor
  · intro ds d' id hd'
    obtain ⟨d, hd, he⟩ := hold hd'
    rw [← he, h.count id hd, hf, hT]
  · intro ds d' id hd'
    obtain ⟨d, hd, he⟩ := hold hd'
    rw [← he]
    exact h.pos id hd

theorem of_tally (h : s.Imports T)
    (hT : ∀ ds id, (T' ds).tally (.container id) = (T ds).tally (.container id)) :
    s.Imports T' := h.congr (fun _ => rfl) (fun _ _ => rfl) hT

/-- Imports are exact as long as tables and owners stay. -/
theorem of_sites (h : s.Imports T) (hi : ∀ ds, s'.imports? ds = s.imports? ds)
    (hs : s'.sites = s.sites) : s'.Imports T := by
  refine h.congr hi (fun ds id => ?_) fun _ _ => rfl
  rw [isForeign_eq_links, isForeign_eq_links, links?_of_sites hs]

/-- One more reference is counted. -/
theorem addImport (h : s.Imports T) {ds : DataspaceId} {v : Value} {u : Unit}
    (hadd : addImport ds v s = .ok (u, s')) :
    s'.Imports fun x => T x + (Charges.of ds [v]).at x := by
  have hsites := sites_addImport hadd
  have htally : ∀ x id, Refs.tally (T x + (Charges.of ds [v]).at x) (.container id) =
      (T x).tally (.container id) +
        if x = ds ∧ v.containerId? = some id then 1 else 0 := by
    intro x id
    rw [Refs.tally_add, Charges.at_of, Refs.tally_container_at]
  rcases addImport_eq_ok hadd with ⟨rfl, hown⟩ | ⟨id₀, c, hv, hc, howner, rfl⟩
  · refine ⟨fun {x d} id hd => ?_, h.pos⟩
    rw [h.count id hd, htally]
    by_cases hx : x = ds ∧ v.containerId? = some id
    · obtain ⟨c, hc, howner⟩ := hown id hx.2
      have hnot : s'.isForeign x id = false := by
        simp [isForeign, hc, howner, hx.1]
      simp [hnot]
    · rw [if_neg hx, Nat.add_zero]
  · have hf := fun x id => show (s.withDataspace ds (·.addImport id₀)).isForeign x id =
      s.isForeign x id from rfl
    refine ⟨fun {x d'} id hd' => ?_, fun {x d'} id hd' => ?_⟩
    · rw [dataspace?_withDataspace] at hd'
      rw [hf, htally, hv]
      split at hd'
      · next hx =>
        subst hx
        obtain ⟨d, hd, rfl⟩ := Option.map_eq_some_iff.mp hd'
        have hcount := h.count id hd
        by_cases hid : id₀ = id
        · subst hid
          have hforeign : s.isForeign x id₀ = true := by simp [isForeign, hc, howner]
          rw [hforeign, if_pos rfl] at hcount ⊢
          rw [if_pos ⟨rfl, rfl⟩, Std.TreeMap.getD_eq_getD_getElem?,
            Dataspace.imports_addImport_self,
            hcount]
          rfl
        · have hno : ¬(x = x ∧ some id₀ = some id) := fun he => hid (Option.some.inj he.2)
          rw [if_neg hno, Nat.add_zero, Std.TreeMap.getD_eq_getD_getElem?,
            Dataspace.imports_addImport_of_ne hid, ← Std.TreeMap.getD_eq_getD_getElem?]
          exact hcount
      · next hx =>
        have hno : ¬(x = ds ∧ some id₀ = some id) := fun he => hx he.1
        rw [if_neg hno, Nat.add_zero]
        exact h.count id hd'
    · rw [dataspace?_withDataspace] at hd'
      split at hd'
      · obtain ⟨d, hd, rfl⟩ := Option.map_eq_some_iff.mp hd'
        by_cases hid : id₀ = id
        · subst hid
          rw [Dataspace.imports_addImport_self]
          exact fun he => Nat.succ_ne_zero _ (Option.some.inj he)
        · rw [Dataspace.imports_addImport_of_ne hid]
          exact h.pos id hd
      · exact h.pos id hd'

/-- One reference less is counted. -/
theorem dropImport {ds : DataspaceId} {v : Value} {u : Unit}
    (h : s.Imports fun x => T x + (Charges.of ds [v]).at x)
    (hdrop : dropImport ds v s = .ok (u, s')) : s'.Imports T := by
  have htally : ∀ x id, Refs.tally (T x + (Charges.of ds [v]).at x) (.container id) =
      (T x).tally (.container id) +
        if x = ds ∧ v.containerId? = some id then 1 else 0 := by
    intro x id
    rw [Refs.tally_add, Charges.at_of, Refs.tally_container_at]
  rcases dropImport_eq_ok hdrop with ⟨rfl, hown⟩ | ⟨id₀, c, d, d₁, hv, hc, howner, hd, hd₁, rfl⟩
  · refine ⟨fun {x d} id hd => ?_, h.pos⟩
    rw [h.count id hd, htally]
    by_cases hx : x = ds ∧ v.containerId? = some id
    · rcases hown id hx.2 with hnone | ⟨c, hc, howner⟩
      · rw [hx.1, hnone] at hd
        cases hd
      · have hnot : s'.isForeign x id = false := by
          simp [isForeign, hc, howner, hx.1]
        simp [hnot]
    · rw [if_neg hx, Nat.add_zero]
  · have hf := fun x id => show (s.withDataspace ds fun _ => d₁).isForeign x id =
      s.isForeign x id from rfl
    refine ⟨fun {x d'} id hd' => ?_, fun {x d'} id hd' => ?_⟩
    · rw [dataspace?_withDataspace] at hd'
      rw [hf]
      split at hd'
      · next hx =>
        subst hx
        rw [hd] at hd'
        obtain rfl := Option.some.inj hd'
        have hcount := h.count id hd
        rw [htally, hv] at hcount
        by_cases hid : id₀ = id
        · subst hid
          have hforeign : s.isForeign x id₀ = true := by simp [isForeign, hc, howner]
          rw [hforeign, if_pos rfl] at hcount ⊢
          rw [if_pos ⟨rfl, rfl⟩] at hcount
          rw [Dataspace.getD_imports_dropImport? hd₁, hcount]
          rfl
        · have hno : ¬(x = x ∧ some id₀ = some id) := fun he => hid (Option.some.inj he.2)
          rw [if_neg hno, Nat.add_zero] at hcount
          rw [Std.TreeMap.getD_eq_getD_getElem?, Dataspace.imports_dropImport?_of_ne hd₁ hid,
            ← Std.TreeMap.getD_eq_getD_getElem?]
          exact hcount
      · next hx =>
        have hcount := h.count id hd'
        have hno : ¬(x = ds ∧ v.containerId? = some id) := fun he => hx he.1
        rwa [htally, if_neg hno, Nat.add_zero] at hcount
    · rw [dataspace?_withDataspace] at hd'
      split at hd'
      · next hx =>
        rw [hx, hd] at hd'
        obtain rfl := Option.some.inj hd'
        exact Dataspace.imports_dropImport?_pos hd₁ (fun id => h.pos id hd) id
      · exact h.pos id hd'

/-- To import values counts each of them once more. -/
theorem addImports (h : s.Imports T) {ds : DataspaceId} {vs : List Value} {u : PUnit}
    (hadd : vs.forM (Store.addImport ds) s = .ok (u, s')) :
    s'.Imports fun x => T x + (Charges.of ds vs).at x := by
  induction vs generalizing s T with
  | nil =>
    obtain rfl := StoreM.forM_nil_eq_ok.mp hadd
    exact h.of_tally fun x id => by rw [Charges.of_nil]; simp
  | cons v vs ih =>
    obtain ⟨_, s₁, h₁, h₂⟩ := StoreM.forM_cons_eq_ok.mp hadd
    refine (ih (h.addImport h₁) h₂).of_tally fun x id => ?_
    rw [Charges.of_cons ds v vs]
    simp only [Charges.at_add, Refs.tally_add]
    omega

/-- To drop imports counts each of the values once less. -/
theorem dropImports {ds : DataspaceId} {vs : List Value} {u : PUnit}
    (h : s.Imports fun x => T x + (Charges.of ds vs).at x)
    (hdrop : vs.forM (Store.dropImport ds) s = .ok (u, s')) : s'.Imports T := by
  induction vs generalizing s T with
  | nil =>
    obtain rfl := StoreM.forM_nil_eq_ok.mp hdrop
    exact h.of_tally fun x id => by rw [Charges.of_nil]; simp
  | cons v vs ih =>
    obtain ⟨_, s₁, h₁, h₂⟩ := StoreM.forM_cons_eq_ok.mp hdrop
    refine ih (Imports.dropImport (h.of_tally fun x id => ?_) h₁) h₂
    rw [Charges.of_cons ds v vs]
    simp only [Charges.at_add, Refs.tally_add]
    omega

/-- What becomes of a container that no slot holds makes no difference. -/
theorem of_unheld (h : s.Imports T) {id : ContainerId}
    (hi : ∀ ds, s'.imports? ds = s.imports? ds)
    (hf : ∀ ds other, id ≠ other → s'.isForeign ds other = s.isForeign ds other)
    (hid : ∀ ds, (T ds).tally (.container id) = 0) : s'.Imports T := by
  have hold : ∀ {ds d'}, s'.dataspace? ds = some d' →
      ∃ d, s.dataspace? ds = some d ∧ d.imports = d'.imports := by
    intro ds d' hd'
    have himports := hi ds
    unfold imports? at himports
    rw [hd'] at himports
    exact Option.map_eq_some_iff.mp himports.symm
  refine ⟨fun {ds d'} other hd' => ?_, fun {ds d'} other hd' => ?_⟩
  · obtain ⟨d, hd, he⟩ := hold hd'
    rw [← he, h.count other hd]
    by_cases hne : id = other
    · subst hne
      rw [hid, ite_self, ite_self]
    · rw [hf ds other hne]
  · obtain ⟨d, hd, he⟩ := hold hd'
    rw [← he]
    exact h.pos other hd

/-- A container that only its new owner refers to is no import any more. -/
theorem transferred (h : s.Imports T) (x : DataspaceId) (id : ContainerId)
    (hi : ∀ ds, s'.imports? ds =
      if ds = x then (s.imports? ds).map (·.erase id) else s.imports? ds)
    (hf : ∀ ds other, id ≠ other → s'.isForeign ds other = s.isForeign ds other)
    (hself : s'.isForeign x id = false)
    (hid : ∀ ds, ds ≠ x → (T ds).tally (.container id) = 0) : s'.Imports T := by
  have hold : ∀ {ds d'}, s'.dataspace? ds = some d' →
      ∃ d, s.dataspace? ds = some d ∧
        d'.imports = if ds = x then d.imports.erase id else d.imports := by
    intro ds d' hd'
    have himports := hi ds
    unfold imports? at himports
    rw [hd'] at himports
    split at himports
    · next hds =>
      rw [Option.map_map] at himports
      obtain ⟨d, hd, he⟩ := Option.map_eq_some_iff.mp himports.symm
      exact ⟨d, hd, by rw [if_pos hds]; exact he.symm⟩
    · next hds =>
      obtain ⟨d, hd, he⟩ := Option.map_eq_some_iff.mp himports.symm
      exact ⟨d, hd, by rw [if_neg hds]; exact he.symm⟩
  refine ⟨fun {ds d'} other hd' => ?_, fun {ds d'} other hd' => ?_⟩
  · obtain ⟨d, hd, he⟩ := hold hd'
    have hcount := h.count other hd
    rw [he]
    by_cases hne : id = other
    · subst hne
      -- To its new owner the container is not foreign; no other dataspace has a slot for it.
      by_cases hds : ds = x
      · rw [if_pos hds, hds, hself]
        simp
      · rw [hid ds hds, ite_self] at hcount ⊢
        rw [if_neg hds, hcount]
    · have hcmp : compare id other ≠ .eq := fun he => hne (Std.LawfulEqOrd.eq_of_compare he)
      rw [hf ds other hne, ← hcount]
      split
      · simp [Std.TreeMap.getD_erase, hcmp]
      · rfl
  · obtain ⟨d, hd, he⟩ := hold hd'
    have hpos := h.pos other hd
    rw [he]
    split
    · rw [Std.TreeMap.getElem?_erase]
      split
      · exact nofun
      · exact hpos
    · exact hpos

end Imports

/-! ## How slots move -/

section Slots

variable {id : ContainerId} {c d : Container} {w : Swap} {ds : DataspaceId}

/-- What a container holds, as charges of its owner. -/
theorem share_eq (w : Swap) (ds : DataspaceId) (c : Container) :
    share w ds c = (Charges.of c.owner (c.buffer w ++ c.overlayValues)).at ds := by
  rw [Charges.at_of]
  unfold share
  by_cases h : c.owner = ds
  · rw [if_pos h, if_pos h.symm, Container.held]
  · rw [if_neg h, if_neg (Ne.symm h)]

theorem share_resident {values : Array Value} (he : d.elements = .resident values) (w : Swap)
    (ds : DataspaceId) :
    share w ds d = (Charges.of d.owner (values.toList ++ d.overlayValues)).at ds := by
  rw [share_eq, d.buffer_of_resident _ he]

/-- The share of a container depends on its elements, its overlay and its owner. -/
theorem share_congr (he : d.elements = c.elements) (ho : d.overlay = c.overlay)
    (howner : d.owner = c.owner) (w : Swap) (ds : DataspaceId) : share w ds d = share w ds c := by
  unfold share
  rw [Container.held_congr he ho, howner]

/-- Slots are a matter of what containers hold for their owners. -/
theorem slots_congr (hd : s'.dataspaces = s.dataspaces)
    (hc : ∀ id, (s'.container? id).map (share s'.swap ds) =
      (s.container? id).map (share s.swap ds)) : s'.slots ds = s.slots ds := by
  unfold slots dataspace?
  rw [hd, Slab.total_congr _ fun i => hc ⟨i⟩]

/-- A container is replaced, while elements move between heap and swap. -/
theorem slots_moved (hc : s.container? id = some c)
    (hothers : ∀ other e, id ≠ other → s.container? other = some e →
      e.buffer w = e.buffer s.swap) (d : Container) (ds : DataspaceId) :
    (({ s with swap := w } : Store).withContainer id d).slots ds + share s.swap ds c =
      s.slots ds + share w ds d := by
  have htotal := Slab.total_replace (f := share s.swap ds) (g := share w ds) (a := d) hc
    fun i e hne he => by
      have hb := hothers ⟨i⟩ e (fun h => hne (congrArg ContainerId.slot h)) he
      unfold share Container.held
      rw [hb]
  unfold slots
  rw [add_assoc, add_assoc]
  exact congrArg (_ + ·) htotal

theorem slots_withContainer (hc : s.container? id = some c) (d : Container) (ds : DataspaceId) :
    (s.withContainer id d).slots ds + share s.swap ds c = s.slots ds + share s.swap ds d :=
  slots_moved (w := s.swap) hc (fun _ _ _ _ => rfl) d ds

/-- A write that moves no element leaves the slots of all dataspaces. -/
theorem slots_withContainer_of_eq (hc : s.container? id = some c) (he : d.elements = c.elements)
    (ho : d.overlay = c.overlay) (howner : d.owner = c.owner) (ds : DataspaceId) :
    (s.withContainer id d).slots ds = s.slots ds := by
  have h := slots_withContainer hc d ds
  rw [share_congr he ho howner] at h
  exact add_right_cancel h

theorem slots_withDataspace {x : DataspaceId} {e : Dataspace} {f : Dataspace → Dataspace}
    (he : s.dataspace? x = some e) (ds : DataspaceId) :
    (s.withDataspace x f).slots ds + (if ds = x then e.held else 0) =
      s.slots ds + if ds = x then (f e).held else 0 := by
  unfold slots
  rw [dataspace?_withDataspace]
  split
  · next h =>
    subst h
    rw [he]
    show (f e).held + _ + e.held = e.held + _ + (f e).held
    rw [add_right_comm, add_comm (f e).held, add_right_comm]
    rfl
  · rw [add_zero, add_zero]
    rfl

theorem slots_withPlane (s : Store) (f : Plane → Plane) (ds : DataspaceId) :
    (s.withPlane f).slots ds = s.slots ds := by
  obtain ⟨hheap, hswap, hdataspaces, -⟩ := withPlane_fields s f
  unfold slots dataspace?
  rw [hheap, hswap, hdataspaces]

/-- Sweep lists and imports are no slots. -/
theorem Alike.slots (h : Alike s s') (ds : DataspaceId) : s'.slots ds = s.slots ds := by
  have hheld : ((s'.dataspace? ds).map Dataspace.held).getD 0 =
      ((s.dataspace? ds).map Dataspace.held).getD 0 := by
    have hd := congrArg (Option.map Dataspace.held) (h.dataspace ds)
    rw [Option.map_map, Option.map_map] at hd
    exact congrArg (Option.getD · 0) hd
  have htotal : s'.heap.containers.total (share s'.swap ds) =
      s.heap.containers.total (share s.swap ds) := by
    rw [h.swap]
    refine Slab.total_congr _ fun i => ?_
    have hc := congrArg (Option.map (share s.swap ds)) (h.container ⟨i⟩)
    rw [Option.map_map, Option.map_map] at hc
    exact hc
  unfold Store.slots
  rw [hheld, htotal]

/-- Sweep lists and imports do not tell who owns what. -/
theorem Alike.isForeign (h : Alike s s') (ds : DataspaceId) (id : ContainerId) :
    s'.isForeign ds id = s.isForeign ds id := by
  have hc := congrArg (Option.map Container.owner) (h.container id)
  rw [Option.map_map, Option.map_map] at hc
  have howner : ∀ t : Store, t.isForeign ds id =
      ((t.container? id).map (Container.owner ∘ Container.bare)).any (· ≠ ds) := by
    intro t
    unfold Store.isForeign
    cases t.container? id <;> rfl
  rw [howner, howner, hc]

/-- A freed container's share leaves the slots of its owner. -/
theorem slots_without (hs : s.Stored) (hc : s.container? id = some c) (ds : DataspaceId) :
    (s.without id c).slots ds + share s.swap ds c = s.slots ds := by
  have hcongr : (s.without id c).heap.containers.total (share (s.without id c).swap ds) =
      (s.without id c).heap.containers.total (share s.swap ds) := by
    refine Slab.total_congr _ fun i => ?_
    cases hd : (s.without id c).heap.containers.get? i with
    | none => rfl
    | some d =>
      have hw := (wanes_without hs hc).buffer ⟨i⟩ d hd
      simp only [Option.map_some, share, Container.held, hw]
  unfold slots
  rw [hcongr, add_assoc]
  exact congrArg (_ + ·) (Slab.total_erase _ hc)

theorem slots_withNew (hs : s.heap.containers.Sound) (c : Container) (ds : DataspaceId) :
    (s.withNew c).slots ds = share s.swap ds c + s.slots ds := by
  unfold slots
  rw [show (s.withNew c).heap.containers.total (share (s.withNew c).swap ds) =
    share s.swap ds c + s.heap.containers.total (share s.swap ds) from Slab.total_insert _ hs]
  exact add_left_comm _ _ _

end Slots

/-- What two dataspaces hold is in the store. -/
theorem slots_add_slots_le {x y : DataspaceId} (hne : x ≠ y) : s.slots x + s.slots y ≤ s.refs := by
  have hdataspaces : ((s.dataspace? x).map Dataspace.held).getD 0 +
      ((s.dataspace? y).map Dataspace.held).getD 0 ≤
        (s.dataspaces.toList.map Dataspace.held).sum := by
    have hi : x.index ≠ y.index := fun h => hne (by cases x; cases y; exact congrArg _ h)
    have := List.getElem?_add_getElem?_le_sum (l := s.dataspaces.toList.map Dataspace.held) hi
    simpa [dataspace?, List.getElem?_map] using this
  have hheap : s.heap.containers.total (share s.swap x) + s.heap.containers.total (share s.swap y) ≤
      s.heap.refs s.swap := by
    unfold Heap.refs Slab.total
    rw [← List.sum_map_add]
    refine List.sum_le_sum fun c _ => ?_
    unfold share
    by_cases hx : c.owner = x
    · rw [if_pos hx, if_neg fun hy => hne (hx.symm.trans hy), add_zero]
    · rw [if_neg hx, zero_add]
      split
      · exact le_rfl
      · exact Multiset.zero_le _
  unfold slots refs
  rw [add_add_add_comm, add_comm]
  exact (add_le_add hheap hdataspaces).trans (Multiset.le_add_right _ _)

/-- What is charged or in a slot of a dataspace is referred to. -/
theorem slots_le_refs (s : Store) (x : DataspaceId) : s.slots x ≤ s.refs :=
  (Multiset.le_add_right _ _).trans
    (slots_add_slots_le (y := ⟨x.index + 1⟩) fun h => by
      have := congrArg DataspaceId.index h
      exact absurd this (Nat.succ_ne_self _).symm)

end Store

/-! ## Every step counts imports -/

/-- Imports are those of slots and of charges. -/
def Account.Imported (a : Account) : Prop :=
  a.store.Imports fun ds => a.store.slots ds + a.charged.at ds

/-- More references, higher tallies. -/
theorem Refs.tally_le {R S : Refs} (h : R ≤ S) (t : Target) : R.tally t ≤ S.tally t :=
  Multiset.countP_le_of_le _ h

/-- A reference that is not in flight, nor left of a closing plane, is in a slot or charged. -/
theorem Account.tally_slots_le (a : Account) (ds : DataspaceId) (t : Target) :
    (a.store.slots ds + a.charged.at ds).tally t + a.flight.tally t ≤ a.refs.tally t := by
  have hslots := Refs.tally_le (a.store.slots_le_refs ds) t
  have hcharged := Refs.tally_le (a.charged.at_le ds) t
  simp only [Account.refs, Refs.tally_add]
  omega

/-- An equation between references, for one target. -/
theorem Refs.tally_eq {R S : Refs} (h : R = S) (t : Target) : R.tally t = S.tally t :=
  congrArg (tally · t) h

namespace Account.Imported

variable {s s' : Store} {F F' : Refs} {C C' : Charges} {q q' : Option Closing}

/-- Nothing changes where imports, owners, slots and charges stay. -/
theorem of_same (ha : Account.Imported ⟨s, F, C, q⟩) (hi : ∀ ds, s'.imports? ds = s.imports? ds)
    (hs : s'.sites = s.sites) (hslots : ∀ ds, s'.slots ds = s.slots ds) :
    Account.Imported ⟨s', F', C, q'⟩ := by
  refine (Imports.of_sites ha hi hs).of_tally fun ds id => ?_
  show Refs.tally (s'.slots ds + C.at ds) _ = _
  rw [hslots]

/-- Imports are right if what left the slots is charged, and what came was. -/
theorem of_moved (ha : Account.Imported ⟨s, F, C, q⟩) (hi : ∀ ds, s'.imports? ds = s.imports? ds)
    (hs : s'.sites = s.sites)
    (hslots : ∀ ds id, (s'.slots ds + C'.at ds).tally (.container id) =
      (s.slots ds + C.at ds).tally (.container id)) : Account.Imported ⟨s', F', C', q'⟩ :=
  (Imports.of_sites ha hi hs).of_tally hslots

end Account.Imported

/-- What goes in or out of a container is charged to its owner. -/
theorem Trade.imported {id : ContainerId} {a b : Account} (h : Trade id a b)
    (ha : a.Imported) : b.Imported := by
  have hsites := h.sites
  cases h with
  | @mk F q s w c d came gone A B C hc hframe hA hB hheld hothers =>
    refine ha.of_moved (fun _ => rfl) hsites fun ds x => ?_
    have hmoved := Refs.tally_eq (slots_moved hc hothers d ds) (.container x)
    have howner : d.owner = c.owner := congrArg (·.owner) hframe
    have hheld := Refs.tally_congr hheld (.container x)
    simp only [hA, hB, Charges.at_add, Charges.at_of, Refs.tally_add, share, howner]
      at hmoved hheld ⊢
    by_cases hds : c.owner = ds
    · simp only [if_pos hds, if_pos hds.symm] at hmoved ⊢
      omega
    · simp only [if_neg hds, if_neg (Ne.symm hds), Refs.tally_zero] at hmoved ⊢
      omega

/-- To be retained puts nothing in a slot. -/
theorem Store.Retained.slots {s s' : Store} {v : Value} (h : Retained s v s')
    (ds : DataspaceId) : s'.slots ds = s.slots ds := by
  cases h with
  | scalar => rfl
  | text => rfl
  | container hc => exact slots_withContainer_of_eq hc (by rfl) (by rfl) (by rfl) ds

/-- Nobody counts a container as an import to which there is only a reference in flight. -/
theorem Account.Accounted.unheld {s : Store} {shape : Shape} {id : ContainerId} {c : Container}
    {F : Refs} {C : Charges} {q : Option Closing}
    (hacc : Account.Accounted ⟨s, {.container shape id} + F, C, q⟩) (hc : s.container? id = some c)
    (hone : c.refcount = 1) (ds : DataspaceId) :
    (s.slots ds + C.at ds).tally (.container id) = 0 := by
  have hle := Account.tally_slots_le ⟨s, {.container shape id} + F, C, q⟩ ds (.container id)
  have hcount := hacc.balanced.count (.container id)
  rw [count_of_container hc, hone] at hcount
  rw [← hcount] at hle
  simp only [Refs.tally_add, Refs.tally_singleton, Value.target?, if_true] at hle ⊢
  omega

/-- When a slot is emptied, what was in it is counted beside the slots. -/
theorem Store.Vacated.imported {s t : Store} {shape : Shape} {id : ContainerId} {c : Container}
    {F : Refs} {C : Charges} {q : Option Closing} (ht : Vacated s id c t)
    (hacc : Account.Accounted ⟨s, {.container shape id} + F, C, q⟩)
    (ha : Account.Imported ⟨s, {.container shape id} + F, C, q⟩) (hc : s.container? id = some c)
    (hone : c.refcount = 1) :
    t.Imports fun ds => (t.slots ds + C.at ds) +
      (Charges.of c.owner (c.buffer s.swap ++ c.overlayValues)).at ds := by
  have hvacated : t.Imports fun ds => s.slots ds + C.at ds := by
    refine Imports.of_unheld ha ht.imports (fun ds other hne => ?_) (hacc.unheld hc hone)
    rw [isForeign_eq_links, isForeign_eq_links, ht.links other hne]
    cases s.links? other <;> rfl
  refine hvacated.of_tally fun ds x => ?_
  have hslots := Refs.tally_eq (slots_without hacc.stored hc ds) (.container x)
  rw [← ht.alike.slots] at hslots
  simp only [Refs.tally_add, Charges.at_of, share] at hslots ⊢
  by_cases hds : c.owner = ds
  · rw [if_pos hds, Container.held] at hslots
    rw [if_pos hds.symm]
    omega
  · rw [if_neg hds, Refs.tally_zero] at hslots
    rw [if_neg (Ne.symm hds), Refs.tally_zero]
    omega

/-- What is freed gives up the imports of what it held; nobody counted it as an import itself. -/
theorem Store.Released.imported {s s' : Store} {v : Value} {children : List Value} {F : Refs}
    {C : Charges} {q : Option Closing} (h : Released s v children s')
    (hacc : Account.Accounted ⟨s, {v} + F, C, q⟩) (ha : Account.Imported ⟨s, {v} + F, C, q⟩) :
    Account.Imported ⟨s', ↑children + F, C, q⟩ := by
  cases h with
  | kept hsites hdataspaces hswap hcore =>
    refine ha.of_same (fun ds => ?_) hsites fun ds => ?_
    · unfold imports? dataspace?
      rw [hdataspaces]
    · refine slots_congr hdataspaces fun id => ?_
      have hshare : share s.swap ds ∘ Container.core = share s.swap ds := rfl
      rw [hswap, ← hshare, ← Option.map_map, ← Option.map_map, hcore]
  | freed hc hone ht h =>
    have hvacated := ht.imported hacc ha hc hone
    simp only [← (alike_dropImports h).slots] at hvacated
    exact Imports.dropImports hvacated h

/-- A container that goes takes its share of the slots and of the imports along. -/
theorem Traffic.imported {a b : Account} (h : Traffic a b) (hacc : a.Accounted)
    (ha : a.Imported) : b.Imported := by
  cases h with
  | retain hv h =>
    have hr := retain_eq_ok h
    refine ha.of_same (fun ds => ?_) hr.sites hr.slots
    cases hr <;> rfl
  | drop h => exact (dropReference_released h).imported hacc ha
  | @charge s s' F C q ds v u h =>
    refine (Imports.addImport ha h).of_tally fun x id => ?_
    show Refs.tally (s'.slots x + (.of ds [v] + C : Charges).at x) _ = _
    rw [(alike_addImport h).slots]
    simp only [Charges.at_add, Refs.tally_add]
    omega
  | @discharge s s' F C q ds v u h =>
    refine Imports.dropImport (Imports.of_tally ha fun x id => ?_) h
    show Refs.tally (s'.slots x + C.at x + _) _ =
      Refs.tally (s.slots x + (.of ds [v] + C : Charges).at x) _
    rw [(alike_dropImport h).slots]
    simp only [Charges.at_add, Refs.tally_add]
    omega

/-! ### What comes into being -/

/-- No container belongs to a dataspace that is not there. -/
theorem Store.total_share_eq_zero {s : Store} {ds : DataspaceId} (hl : s.Listed)
    (hnone : s.dataspace? ds = none) : s.heap.containers.total (share s.swap ds) = 0 := by
  refine List.sum_eq_zero fun x hx => ?_
  obtain ⟨c, hc, rfl⟩ := List.mem_map.mp hx
  obtain ⟨i, hi⟩ := Slab.mem_toList.mp hc
  refine if_neg fun howner => ?_
  obtain ⟨h, hh⟩ := hl.owner (links?_of_container hi)
  rw [show c.links.owner = ds from howner, head?, hnone] at hh
  cases hh

theorem Refs.tally_nils (n : Nat) (t : Target) :
    Refs.tally (↑(List.replicate n Value.nil)) t = 0 := by
  rw [Refs.tally_eq_zero]
  intro v hv
  rw [List.eq_of_mem_replicate (Multiset.mem_coe.mp hv)]
  nofun

/-- A dataspace that comes into being counts nothing, and its variables are nil. -/
theorem Account.Imported.pushed {s : Store} {F : Refs} {n : Nat}
    (ha : Account.Imported ⟨s, F, 0, none⟩) (hl : s.Listed) :
    Account.Imported ⟨{ s with dataspaces := s.dataspaces.push { vars := Array.replicate n .nil } },
      F, 0, none⟩ := by
  let t : Store := { s with dataspaces := s.dataspaces.push { vars := Array.replicate n .nil } }
  have hget : ∀ ds : DataspaceId, t.dataspace? ds = _ := dataspace?_founded s n
  refine ⟨fun {ds d} id hd => ?_, fun {ds d} id hd => ?_⟩
  · rw [show Store.dataspace? _ ds = _ from hget ds] at hd
    show _ = if _ then Refs.tally (t.slots ds + 0) _ else 0
    rw [add_zero]
    split at hd
    · next hnew =>
      cases hd
      have hnone : s.dataspace? ds = none := Array.getElem?_eq_none hnew.ge
      -- Nothing belongs to a dataspace that is not there yet, so its slots are its nil variables.
      have hslots : t.slots ds = ↑(List.replicate n Value.nil) := by
        rw [Store.slots, hget, if_pos hnew]
        show Dataspace.held _ + s.heap.containers.total (share s.swap ds) = _
        rw [Store.total_share_eq_zero hl hnone]
        simp [Dataspace.held]
      rw [hslots, Refs.tally_nils, ite_self]
      rfl
    · next hold =>
      have hslots : t.slots ds = s.slots ds := by
        rw [Store.slots, hget, if_neg hold]
        rfl
      rw [hslots, ← add_zero (s.slots ds)]
      exact ha.count id hd
  · rw [show Store.dataspace? _ ds = _ from hget ds] at hd
    split at hd
    · cases hd
      simp
    · exact ha.pos id hd

/--
The elements of a new container were charged to its owner, and a new dataspace has nothing but nil.
-/
theorem Creation.imported {e : Effect} {a b : Account} (h : Creation e a b) (hacc : a.Accounted)
    (hl : a.store.Listed) (ha : a.Imported) : b.Imported := by
  cases h with
  | @container t s F C owner kind values u hv hm h =>
    have hs := hacc.balanced.containers
    obtain ⟨first, -, -, hother, -, himports⟩ := link_links h
    have hal := alike_link_new hs rfl h
    have hfree : s.container? s.heap.nextId = none := Slab.get?_nextCell hs
    refine (Imports.of_unheld ha (fun ds => ?_)
      (fun ds other (hne : s.heap.nextId ≠ other) => ?_) fun ds => ?_).of_tally fun ds x => ?_
    · unfold imports?
      rw [dataspace?_withPlane]
      exact himports ds
    · have hold : (s.withNew (s.newContainer owner kind values)).links? other = s.links? other :=
        congrArg (Option.map _) (container?_withNew_of_ne hne)
      refine @isForeign_of_follow s _ s.heap.nextId other first ?_ ds
      rw [← hold, ← hother other hne, links?, container?_withPlane]
      rfl
    · have hle := Account.tally_slots_le ⟨s, F, .of owner values + C, none⟩ ds
        (.container s.heap.nextId)
      have hcount : s.heap.count? (.container s.heap.nextId) = none :=
        congrArg (Option.map Container.refcount) hfree
      have hnone := hacc.balanced.free_iff.mp hcount
      omega
    · show Refs.tally ((t.withPlane _).slots ds + C.at ds) _ =
        Refs.tally (s.slots ds + (.of owner values + C : Charges).at ds) _
      have hshare : share s.swap ds (s.newContainer owner kind values) =
          (Charges.of owner values).at ds := by
        rw [share_resident rfl, Container.overlayValues_of_none rfl, List.append_nil]
        rfl
      rw [slots_withPlane, hal.slots, slots_withNew hs, hshare]
      simp only [Charges.at_add, Refs.tally_add]
      omega
  | @retag s F C q id c tag hc hone =>
    exact ha.of_same (fun _ => rfl) (sites_withContainer hc rfl)
      fun ds => slots_withContainer_of_eq (d := { c with tag }) hc rfl rfl rfl ds
  | string | spawn | destroy => exact ha.of_same (fun _ => rfl) rfl fun _ => rfl
  | @dataspace s F n => exact ha.pushed hl

/-! ### What is written to dataspaces, and restored -/

/-- What is taken out of a dataspace and put into it, as charges. -/
theorem Store.slots_exchange {s : Store} {x : DataspaceId} {d : Dataspace}
    {f : Dataspace → Dataspace} {gone came : List Value} (hd : s.dataspace? x = some d)
    (hf : (f d).held + ↑gone = d.held + ↑came) (ds : DataspaceId) :
    (s.withDataspace x f).slots ds + (Charges.of x gone).at ds =
      s.slots ds + (Charges.of x came).at ds := by
  have hslots := slots_withDataspace (f := f) hd ds
  rw [Charges.at_of, Charges.at_of]
  by_cases hds : ds = x
  · simp only [if_pos hds] at hslots ⊢
    exact Refs.exchange hslots hf
  · simpa only [if_neg hds] using hslots

/-- A write to a variable puts the new value into its slot. -/
theorem Store.slots_withVariable {s : Store} {ref : VariableRef} {v old : Value}
    (hold : s.variableAt? ref = some old) (ds : DataspaceId) :
    (s.withVariable ref v).slots ds + (Charges.of ref.dataspace [old]).at ds =
      s.slots ds + (Charges.of ref.dataspace [v]).at ds := by
  obtain ⟨d, hd, hget⟩ := Option.bind_eq_some_iff.mp hold
  have hheld : Dataspace.held { d with vars := d.vars.setIfInBounds ref.slot v } + ↑[old] =
      d.held + ↑[v] := Dataspace.held_setVariable hget
  exact slots_exchange hd (f := fun d => { d with vars := d.vars.setIfInBounds ref.slot v })
    hheld ds

theorem Store.slots_insert_of_none {s : Store} {call : CallRef} {d : Dataspace} {c : DeferredCall}
    (hd : s.dataspace? call.dataspace = some d) (hnone : d.callouts[call.handle]? = none)
    (ds : DataspaceId) :
    (s.withCallouts call.dataspace (·.insert call.handle c)).slots ds =
      s.slots ds + (Charges.of call.dataspace [c.payload]).at ds := by
  have h := slots_exchange hd
    (f := fun d => { d with callouts := d.callouts.insert call.handle c })
    ((add_zero _).trans (Dataspace.held_insert_of_none hnone)) ds
  rwa [Charges.of_nil, Charges.at_zero, add_zero] at h

theorem Store.slots_insert_of_some {s : Store} {call : CallRef} {c old : DeferredCall}
    (hold : s.call? call = some old) (ds : DataspaceId) :
    (s.withCallouts call.dataspace (·.insert call.handle c)).slots ds +
      (Charges.of call.dataspace [old.payload]).at ds =
        s.slots ds + (Charges.of call.dataspace [c.payload]).at ds := by
  obtain ⟨d, hd, hget⟩ := Option.bind_eq_some_iff.mp hold
  have hheld : Dataspace.held { d with callouts := d.callouts.insert call.handle c } +
      ↑[old.payload] = d.held + ↑[c.payload] := Dataspace.held_insert_of_some hget
  exact slots_exchange hd (f := fun d => { d with callouts := d.callouts.insert call.handle c })
    hheld ds

/-- A call that is taken off its table leaves its slot. -/
theorem Store.slots_erase {s : Store} {call : CallRef} {old : DeferredCall}
    (hold : s.call? call = some old) (ds : DataspaceId) :
    (s.withCallouts call.dataspace (·.erase call.handle)).slots ds +
      (Charges.of call.dataspace [old.payload]).at ds = s.slots ds := by
  obtain ⟨d, hd, hget⟩ := Option.bind_eq_some_iff.mp hold
  have h := slots_exchange hd
    (f := fun d => { d with callouts := d.callouts.erase call.handle })
    ((Dataspace.held_erase hget).trans (add_zero _).symm) ds
  rwa [Charges.of_nil, Charges.at_zero, add_zero] at h

namespace Store

variable {s s' : Store}

theorem imports_withVariable (s : Store) (ref : VariableRef) (v : Value) (ds : DataspaceId) :
    (s.withVariable ref v).imports? ds = s.imports? ds :=
  map_dataspace?_withDataspace (by exact fun _ => rfl) ds

theorem imports_withCallouts (s : Store) (x ds : DataspaceId)
    (f : Std.TreeMap CallHandle DeferredCall → Std.TreeMap CallHandle DeferredCall) :
    (s.withCallouts x f).imports? ds = s.imports? ds :=
  map_dataspace?_withDataspace (by exact fun _ => rfl) ds

theorem imports_withPlane (s : Store) (f : Plane → Plane) (ds : DataspaceId) :
    (s.withPlane f).imports? ds = s.imports? ds :=
  congrArg (Option.map _) (dataspace?_withPlane s f ds)

theorem Imports.withVariable {T : DataspaceId → Refs} (h : s.Imports T) (ref : VariableRef)
    (v : Value) : (s.withVariable ref v).Imports T :=
  h.of_sites (imports_withVariable s ref v) (sites_withVariable s ref v)

theorem Imports.withCallouts {T : DataspaceId → Refs} (h : s.Imports T) (x : DataspaceId)
    (f : Std.TreeMap CallHandle DeferredCall → Std.TreeMap CallHandle DeferredCall) :
    (s.withCallouts x f).Imports T :=
  h.of_sites (fun ds => imports_withCallouts s x ds f) (sites_withCallouts s x f)

/-- Recording a patch moves nothing in or out of slots. -/
theorem Recorded.imported {T : DataspaceId → Refs} {call : CallRef} {patch : CallPatch}
    {out : List Value} (h : Recorded call patch s out s') (hT : s.Imports T) : s'.Imports T := by
  refine hT.of_sites (fun ds => ?_) h.sites
  cases h with
  | told => rfl
  | filed | folded | cancelled => exact imports_withPlane _ _ _

/-- What planes hold is in no slot. -/
theorem Recorded.slots {call : CallRef} {patch : CallPatch} {out : List Value}
    (h : Recorded call patch s out s') (ds : DataspaceId) : s'.slots ds = s.slots ds := by
  cases h with
  | told => rfl
  | filed | folded | cancelled => exact slots_withPlane _ _ _

end Store

/-- Tallies of equal sums. -/
theorem Refs.tally_exchange {a b x y : Refs} (h : a + x = b + y) (t : Target) :
    a.tally t + x.tally t = b.tally t + y.tally t := by
  simpa only [tally_add] using tally_eq h t

/-! #### What leaves its slot is counted until it is dropped -/

namespace Account.Imported

variable {s : Store} {F : Refs} {C : Charges} {q : Option Closing}

/-- The old value of a variable is charged, until its import is dropped. -/
theorem written {ref : VariableRef} {v old : Value}
    (ha : Account.Imported ⟨s, F, .of ref.dataspace [v] + C, q⟩)
    (hold : s.variableAt? ref = some old) : (s.withVariable ref v).Imports fun ds =>
      (s.withVariable ref v).slots ds + C.at ds + (Charges.of ref.dataspace [old]).at ds := by
  refine (Imports.withVariable ha ref v).of_tally fun ds id => ?_
  have hslots := Refs.tally_exchange (slots_withVariable (v := v) hold ds) (.container id)
  simp only [Charges.at_add, Refs.tally_add]
  omega

/-- The payload of a call that was removed is charged, until its import is dropped. -/
theorem removed {call : CallRef} {old : DeferredCall} (ha : Account.Imported ⟨s, F, C, q⟩)
    (hold : s.call? call = some old) :
    (s.withCallouts call.dataspace (·.erase call.handle)).Imports fun ds =>
      (s.withCallouts call.dataspace (·.erase call.handle)).slots ds + C.at ds +
        (Charges.of call.dataspace [old.payload]).at ds := by
  refine (Imports.withCallouts ha _ _).of_tally fun ds id => ?_
  have hslots := Refs.tally_eq (slots_erase hold ds) (.container id)
  simp only [Refs.tally_add] at hslots ⊢
  omega

/-- The payload of a call that was replaced is charged, until its import is dropped. -/
theorem replaced {call : CallRef} {old new : DeferredCall}
    (ha : Account.Imported ⟨s, F, .of call.dataspace [new.payload] + C, q⟩)
    (hold : s.call? call = some old) :
    (s.withCallouts call.dataspace (·.insert call.handle new)).Imports fun ds =>
      (s.withCallouts call.dataspace (·.insert call.handle new)).slots ds + C.at ds +
        (Charges.of call.dataspace [old.payload]).at ds := by
  refine (Imports.withCallouts ha _ _).of_tally fun ds id => ?_
  have hslots := Refs.tally_exchange (slots_insert_of_some (c := new) hold ds) (.container id)
  simp only [Charges.at_add, Refs.tally_add]
  omega

end Account.Imported

/--
What is written to a variable or a call is imported, and what was there before is not any more.
-/
theorem Writing.imported {e : Effect} {a b : Account} (h : Writing e a b) (hn : a.Numbered)
    (ha : a.Imported) : b.Imported := by
  cases h with
  | @write s F C ref v old hold hv hp =>
    refine ha.of_moved (imports_withVariable _ _ _) (sites_withVariable _ _ _) fun ds id => ?_
    have hslots := Refs.tally_exchange (slots_withVariable (v := v) hold ds) (.container id)
    simp only [Charges.at_add, Refs.tally_add]
    omega
  | @firstWrite t s F C ref v old p rest u hold hv hp hnew h =>
    refine (((ha.written hold).dropImport h).of_sites (imports_withPlane _ _)
      (sites_withPlane _ _)).of_tally fun ds id => ?_
    show Refs.tally ((t.withPlane _).slots ds + _) _ = _
    rw [slots_withPlane, (alike_dropImport h).slots]
  | @addCall s' s F C ds d due payload out hd hv h =>
    have hdb :=
      dataspace?_withDataspace_of_some hd fun d => { d with nextHandle := d.nextHandle + 1 }
    have hnone : d.callouts[(⟨d.nextHandle⟩ : CallHandle)]? = none := by
      have h := hn.call?_next (a := ⟨s, F, .of ds [payload] + C, none⟩) hd
      rwa [call?_of_dataspace hd] at h
    have hbump : ∀ x, (s.withDataspace ds fun d => { d with nextHandle := d.nextHandle + 1 }).slots
        x = s.slots x := fun x => add_right_cancel (slots_withDataspace hd x)
    have himports : ∀ x,
      (s.withDataspace ds fun d => { d with nextHandle := d.nextHandle + 1 }).imports?
        x = s.imports? x := map_dataspace?_withDataspace (by exact fun _ => rfl)
    refine h.imported
      ((Imports.of_sites ha (fun x => (imports_withCallouts _ _ x _).trans (himports x))
      ((sites_withCallouts _ _ _).trans (sites_withDataspace fun _ => rfl))).of_tally
        fun x id => ?_)
    have hinsert := @slots_insert_of_none _ ⟨ds, ⟨d.nextHandle⟩⟩ _ { due, payload } hdb
      hnone x
    rw [hbump] at hinsert
    have hslots := Refs.tally_eq hinsert (.container id)
    show Refs.tally (s'.slots x + C.at x) _ =
      Refs.tally (s.slots x + (.of ds [payload] + C : Charges).at x) _
    rw [h.slots]
    simp only [Charges.at_add, Refs.tally_add] at hslots ⊢
    omega
  | @removeCall t s' s F C call old out u hold h₁ h₂ =>
    refine h₂.imported (((ha.removed hold).dropImport h₁).of_tally fun ds id => ?_)
    show Refs.tally (s'.slots ds + C.at ds) _ = _
    rw [h₂.slots, (alike_dropImport h₁).slots]
  | @replaceCall t s' s F C call old new out u hold hv h₁ h₂ =>
    refine h₂.imported (((ha.replaced hold).dropImport h₁).of_tally fun ds id => ?_)
    show Refs.tally (s'.slots ds + C.at ds) _ = _
    rw [h₂.slots, (alike_dropImport h₁).slots]

/-- What comes back from a plane is imported, and what it takes the place of is not any more. -/
theorem Nesting.imported {e : Effect} {a b : Account} (h : Nesting e a b) (hch : a.Chained)
    (ha : a.Imported) : b.Imported := by
  have hsites := h.sites
  cases h with
  | @backUp s F C id c values p rest hc he hm hh hp hnew =>
    refine ha.of_same (imports_withPlane _ _) hsites fun ds => ?_
    exact (slots_withPlane _ _ _).trans
      (slots_withContainer_of_eq (d := { c with home := s.level }) hc rfl rfl rfl ds)
  | enter | pop | forget | skip | unsave | finish =>
    exact ha.of_same (fun _ => rfl) rfl fun _ => rfl
  | refile | resave => exact ha.of_same (imports_withPlane _ _) hsites (slots_withPlane _ _)
  | @settle s F C cl id c census hl hledger hc =>
    refine ha.of_same (imports_withPlane _ _) hsites fun ds => ?_
    refine (slots_withPlane _ _ _).trans (slots_withContainer_of_eq hc ?_ ?_ ?_ ds) <;>
      (split <;> rfl)
  | @record s' s F C cl call patch patches out hl hf h =>
    refine (h.imported ha).of_tally fun ds id => ?_
    show Refs.tally (Store.slots _ ds + _) _ = _
    rw [h.slots]
  | @restore s' s F C cl b ledger c values u hl hf hc he h =>
    -- First the values change places with those of the backup, then the latter are imported.
    have hbase : (s.withContainer b.container (b.restored c)).Imports fun ds =>
        s.slots ds + C.at ds :=
      Imports.of_sites ha (fun _ => rfl) (sites_withContainer hc rfl)
    refine (hbase.addImports h).of_tally fun ds id => ?_
    have hslots := Refs.tally_exchange (slots_withContainer hc (b.restored c) ds) (.container id)
    show Refs.tally
      (s'.slots ds + (.of c.owner (values.toList ++ c.overlayValues) + C : Charges).at ds) _ = _
    rw [(alike_addImports h).slots]
    rw [share_resident he, share_resident (d := b.restored c) rfl,
      Container.overlayValues_of_none (c := b.restored c) rfl, List.append_nil,
      show (b.restored c).owner = c.owner from rfl] at hslots
    simp only [Charges.at_add, Refs.tally_add]
    omega
  | @restoreVariable t s F C cl ref v current saved u hl hf h hcur =>
    refine (Imports.withVariable (Imports.addImport ha h) ref v).of_tally fun ds id => ?_
    have hslots := Refs.tally_exchange (slots_withVariable (v := v) hcur ds) (.container id)
    rw [(alike_addImport h).slots] at hslots
    simp only [Charges.at_add, Refs.tally_add]
    omega
  | @unwindAdded s F C cl call added patches hl hf hcur =>
    refine Imports.of_tally (s := s.withCallouts call.dataspace (·.erase call.handle))
      (Imports.withCallouts ha _ _) fun ds id => ?_
    have hslots := Refs.tally_eq (slots_erase hcur ds) (.container id)
    simp only [Charges.at_add, Refs.tally_add] at hslots ⊢
    omega
  | @unwindRemoved s' s F C cl call old d patches u hl hf hd h =>
    have hnone : d.callouts[call.handle]? = none :=
      (call?_of_dataspace hd).symm.trans (hch.unwound_removed hl)
    refine (Imports.addImport (Imports.withCallouts ha _ _) h).of_tally fun ds id => ?_
    have hslots := Refs.tally_eq (slots_insert_of_none (c := old) hd hnone ds) (.container id)
    show Refs.tally (s'.slots ds + C.at ds) _ = _
    rw [(alike_addImport h).slots]
    simp only [Refs.tally_add] at hslots ⊢
    omega
  | @unwindReplaced s' s F C cl call old new patches u hl hf hcur h =>
    refine (Imports.addImport (Imports.withCallouts ha _ _) h).of_tally fun ds id => ?_
    have hslots := Refs.tally_exchange (slots_insert_of_some (c := old) hcur ds) (.container id)
    show Refs.tally (s'.slots ds + (.of call.dataspace [new.payload] + C : Charges).at ds) _ = _
    rw [(alike_addImport h).slots]
    simp only [Charges.at_add, Refs.tally_add]
    omega

/-! ### Containers that change hands -/

/-- A container without its elements and pending writes. -/
def Container.emptied (c : Container) : Container :=
  { c with elements := .resident #[], overlay := none }

namespace Store

variable {s : Store} {id : ContainerId} {c d : Container} {values : Array Value}

/-- What slots hold besides what one container does. -/
theorem slots_emptied (hc : s.container? id = some c) (he : c.elements = .resident values)
    (x : DataspaceId) : s.slots x = (s.withContainer id c.emptied).slots x +
      (Charges.of c.owner (values.toList ++ c.overlayValues)).at x := by
  have h := slots_withContainer hc c.emptied x
  rw [share_resident he, show share s.swap x c.emptied = 0 by
    unfold share
    split <;> rfl, add_zero] at h
  exact h.symm

end Store

/--
The container that is transferred is no import of its new owner, and all others still import it.
-/
theorem Transfer.imported {ds : DataspaceId} {id : ContainerId} {a b : Account}
    (h : Transfer ds id a b) (hacc : a.Accounted) (ha : a.Imported) : b.Imported := by
  cases h with
  | @mk s F c d values s₁ s₂ s₃ s₄ u u₃ u₁ u₂ hp hc he howner hd hall h₁ h₂ h₃ h₄ =>
    obtain ⟨c', hc', halike⟩ := Transfer.alike
      (Transfer.mk (F := F) hp hc he howner hd hall h₁ h₂ h₃ h₄)
    obtain rfl := Option.some.inj (hc.symm.trans hc')
    let T := (s.withContainer id c.emptied).slots
    let children := values.toList ++ c.overlayValues
    have hbefore : ∀ x, s.slots x = T x + (Charges.of c.owner children).at x := slots_emptied hc he
    have hafter : ∀ x, s₄.slots x = T x + (Charges.of ds children).at x := by
      intro x
      have h := slots_withContainer hc { c with owner := ds } x
      rw [← halike.slots, share_resident he, share_resident (d := { c with owner := ds })
        he, hbefore,
        add_right_comm] at h
      exact add_right_cancel h
    have hforeign : s.isForeign ds id = true := by simp [isForeign, hc, howner]
    have hexclusive : ∀ x, x ≠ ds → (T x).tally (.container id) = 0 := by
      intro x hne
      have hcount := Imports.count ha id hd
      rw [Std.TreeMap.getD_eq_getD_getElem?, hall, hforeign, if_pos rfl] at hcount
      have htotal := hacc.balanced.count (.container id)
      rw [count_of_container hc] at htotal
      have hle := Refs.tally_le (s.slots_add_slots_le hne) (.container id)
      have hx := Refs.tally_eq (hbefore x) (.container id)
      simp only [Account.refs, Refs.tally_add, Option.getD_some, Charges.at_zero,
        Refs.tally_zero] at hcount htotal hle hx
      omega
    have hs₁ : s₁.Imports T := by
      refine Imports.dropImports (Imports.of_tally ha fun x y => ?_) h₁
      show _ = Refs.tally (s.slots x + 0) _
      rw [hbefore, add_zero]
    obtain ⟨c₁, hc₁, -⟩ := (alike_dropImports h₁).exists_container hc
    have hs₂ : s₂.Imports T :=
      hs₁.congr (unlink_links hc₁ h₂).2.2 (alike_unlink h₂).isForeign fun _ _ => rfl
    obtain ⟨first, -, hself, hothers, -, himports⟩ := link_links h₃
    have hs₃ :
        (s₃.withDataspace ds fun d => { d with imports := d.imports.erase id }).Imports T := by
      refine hs₂.transferred ds id (fun x => ?_) (fun x other hne => ?_) ?_ (fun x hne => ?_)
      · unfold imports?
        rw [dataspace?_withDataspace]
        split
        · next hx =>
          rw [hx, Option.map_map]
          show _ = Option.map _ (s₂.imports? ds)
          rw [← himports, imports?, Option.map_map]
          rfl
        · exact himports x
      · exact isForeign_of_follow (hothers other hne) x
      · rw [isForeign_eq_links]
        show (s₃.links? id).any _ = _
        rw [hself]
        split <;> simp
      · exact hexclusive x hne
    refine (hs₃.addImports h₄).of_tally fun x y => ?_
    show Refs.tally (s₄.slots x + 0) _ = _
    rw [hafter, add_zero]

/-- Imports are counted exactly after a step if they were before. -/
theorem Step.imported {e : Effect} {a b : Account} (h : Step e a b) (hacc : a.Accounted)
    (hn : a.Numbered) (hch : a.Chained) (hl : a.store.Listed) (ha : a.Imported) : b.Imported := by
  cases h with
  | traffic h => exact h.imported hacc ha
  | upkeep h => exact (h.trade hacc).imported ha
  | change h => exact (h.trade hacc).imported ha
  | creation h => exact h.imported hacc hl ha
  | writing h => exact h.imported hn ha
  | nesting h => exact h.imported hch ha
  | transfer h => exact h.imported hacc ha

end PlaneStore
