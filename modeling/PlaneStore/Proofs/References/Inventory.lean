import PlaneStore.Proofs.Inversion.Basic
import PlaneStore.Proofs.Heap.SlabTotals
import Mathlib.Algebra.Order.Group.Multiset
import Mathlib.Tactic.Abel

/-!
# The inventory of references

`Store.refs` lists every reference that a store holds, with multiplicity: those in the elements of
containers, resident or swapped out, in overlays, variables and deferred calls, and those that
planes keep in backups, saved variables and patches.

A change of one place of the store moves the inventory by what that place held before and what it
holds now. All such lemmas have the form

```text
inventory after + what went = inventory before + what came
```
-/

namespace PlaneStore

/-- References, with multiplicity. -/
abbrev Refs := Multiset Value

/-! ## What one place holds -/

namespace Container

/-- The elements of a container, wherever they are. -/
def buffer (swap : Swap) (c : Container) : List Value :=
  match c.elements with
  | .resident values => values.toList
  | .evicted ticket _ => (swap.buffers.getD ticket #[]).toList

/-- The references that a container holds. -/
def held (swap : Swap) (c : Container) : Refs := ↑(c.buffer swap ++ c.overlayValues)

theorem buffer_of_resident {c : Container} {values : Array Value} (swap : Swap)
    (h : c.elements = .resident values) : c.buffer swap = values.toList := by
  unfold buffer
  rw [h]

/-- What a container holds is a matter of its elements and its overlay. -/
theorem held_congr {c d : Container} {swap : Swap} (he : c.elements = d.elements)
    (ho : c.overlay = d.overlay) : c.held swap = d.held swap := by
  unfold held buffer overlayValues
  rw [he, ho]

end Container

def Dataspace.held (d : Dataspace) : Refs :=
  ↑d.vars.toList + TreeTotal.total (fun c => {c.payload}) d.callouts

def Backup.held (b : Backup) : Refs := ↑(Store.backupReferences b)

/-- A backup holds its container and the elements. -/
theorem Backup.held_eq (b : Backup) :
    b.held = {.ofContainer b.kind b.container} + ↑b.elements.toList := rfl

def CallPatch.held : CallPatch → Refs
  | .added => 0
  | .removed call | .replaced call => {call.payload}

@[simp] theorem CallPatch.held_added : CallPatch.added.held = 0 := rfl

@[simp] theorem CallPatch.held_removed (call : DeferredCall) :
    (CallPatch.removed call).held = {call.payload} := rfl

@[simp] theorem CallPatch.held_replaced (call : DeferredCall) :
    (CallPatch.replaced call).held = {call.payload} := rfl

def Plane.held (p : Plane) : Refs :=
  (p.ledger.map Backup.held).sum + TreeTotal.total (fun v => {v}) p.savedVars +
    TreeTotal.total CallPatch.held p.patches

/-- The references that the containers of a heap hold. -/
def Heap.refs (h : Heap) (swap : Swap) : Refs := h.containers.total (Container.held swap)

/-- Every reference that a store holds. -/
def Store.refs (s : Store) : Refs :=
  s.heap.refs s.swap + (s.dataspaces.toList.map Dataspace.held).sum + (s.planes.map Plane.held).sum

/-! ## How the inventory moves -/

/-- Two equations between totals that differ in one summand each. -/
theorem Refs.exchange {a b x y gone came : Refs} (h : a + x = b + y) (hxy : y + gone = x + came) :
    a + gone = b + came := by
  have hsum : a + gone + x = b + came + x := by
    calc a + gone + x = (a + x) + gone := by abel
      _ = b + (y + gone) := by rw [h]; abel
      _ = b + came + x := by rw [hxy]; abel
  exact add_right_cancel hsum

theorem Refs.first {a b x y gone came : Refs} (h : a + gone = b + came) :
    a + x + y + gone = b + x + y + came := by
  calc a + x + y + gone = a + gone + x + y := by abel
    _ = b + x + y + came := by rw [h]; abel

theorem Refs.second {a b x y gone came : Refs} (h : a + gone = b + came) :
    x + a + y + gone = x + b + y + came := by
  rw [add_comm x a, add_comm x b]
  exact Refs.first h

theorem List.sum_map_modify {α M : Type} [AddCommMonoid M] (f : α → M) (g : α → α) {l : List α}
    {i : Nat} {a : α} (h : l[i]? = some a) :
    ((l.modify i g).map f).sum + f a = (l.map f).sum + f (g a) := by
  induction l generalizing i with
  | nil => cases h
  | cons b l ih =>
    cases i with
    | zero =>
      cases h
      simp only [List.modify_zero_cons, List.map_cons, List.sum_cons]
      abel
    | succ i =>
      simp only [List.modify_succ_cons, List.map_cons, List.sum_cons]
      rw [add_assoc, ih h, add_assoc]

namespace Heap

theorem refs_set {h : Heap} (swap : Swap) {i : Nat} {c d : Container}
    (hc : h.containers.get? i = some c) :
    (h.containers.set i d).total (Container.held swap) + c.held swap =
      h.refs swap + d.held swap :=
  Slab.total_set _ hc

/-- The inventory does not depend on buffers that no container refers to. -/
theorem refs_congr {h : Heap} {swap swap' : Swap}
    (hb : ∀ i c, h.containers.get? i = some c → c.buffer swap' = c.buffer swap) :
    h.refs swap' = h.refs swap := by
  unfold refs Slab.total
  refine congrArg List.sum (List.map_congr_left fun c hc => ?_)
  obtain ⟨i, hi⟩ := Slab.mem_toList.mp hc
  unfold Container.held
  rw [hb i c hi]

end Heap

namespace Store

variable {s : Store} {gone came : Refs}

/-- What a container gives and takes is given and taken by the store. -/
theorem refs_withContainer {id : ContainerId} {c d : Container} (hc : s.container? id = some c)
    (hcd : d.held s.swap + gone = c.held s.swap + came) :
    (s.withContainer id d).refs + gone = s.refs + came := by
  exact Refs.first (Refs.exchange (Heap.refs_set s.swap (d := d) hc) hcd)

/-- What the old container held is replaced by what the new one holds. -/
theorem refs_withContainer_exchange {id : ContainerId} {c d : Container}
    (hc : s.container? id = some c) :
    (s.withContainer id d).refs + c.held s.swap = s.refs + d.held s.swap :=
  refs_withContainer hc (add_comm _ _)

/-- A write that moves no element moves no reference. -/
theorem refs_withContainer_of_eq {id : ContainerId} {c d : Container}
    (hc : s.container? id = some c) (he : d.elements = c.elements) (ho : d.overlay = c.overlay) :
    (s.withContainer id d).refs = s.refs := by
  have h := refs_withContainer_exchange (d := d) hc
  rw [Container.held_congr he ho] at h
  exact add_right_cancel h

/-- What a container holds is in the store. -/
theorem mem_refs_of_held {id : ContainerId} {c : Container} {v : Value}
    (hc : s.container? id = some c) (hv : v ∈ c.held s.swap) : v ∈ s.refs := by
  have hheap : v ∈ s.heap.refs s.swap := by
    have htotal := Slab.total_erase (Container.held s.swap) hc
    unfold Heap.refs
    rw [← htotal]
    exact Multiset.mem_add.mpr (Or.inr hv)
  exact Multiset.mem_add.mpr (Or.inl (Multiset.mem_add.mpr (Or.inl hheap)))

/-- What a dataspace gives and takes is given and taken by the store. -/
theorem refs_withDataspace {ds : DataspaceId} {d : Dataspace} {f : Dataspace → Dataspace}
    (hd : s.dataspace? ds = some d) (hf : (f d).held + gone = d.held + came) :
    (s.withDataspace ds f).refs + gone = s.refs + came := by
  have hget : s.dataspaces.toList[ds.index]? = some d := by simpa [dataspace?] using hd
  have h := Refs.exchange (List.sum_map_modify Dataspace.held f hget) hf
  have htoList : (s.dataspaces.modify ds.index f).toList = s.dataspaces.toList.modify ds.index f :=
    Array.toList_modify
  rw [← htoList] at h
  exact Refs.second h

/-- What a plane gives and takes is given and taken by the store. -/
theorem refs_withPlane {p : Plane} {rest : List Plane} {f : Plane → Plane}
    (hp : s.planes = p :: rest) (hf : (f p).held + gone = p.held + came) :
    (s.withPlane f).refs + gone = s.refs + came := by
  unfold withPlane refs
  rw [hp]
  simp only [List.map_cons, List.sum_cons]
  calc _ = s.heap.refs s.swap + (s.dataspaces.toList.map Dataspace.held).sum +
        ((f p).held + gone) + (rest.map Plane.held).sum := by abel
    _ = _ := by rw [hf]; abel

theorem refs_withDataspace_of_eq {ds : DataspaceId} {d : Dataspace} {f : Dataspace → Dataspace}
    (hd : s.dataspace? ds = some d) (hf : (f d).held = d.held) :
    (s.withDataspace ds f).refs = s.refs :=
  add_right_cancel (refs_withDataspace hd (congrArg (· + (0 : Refs)) hf))

/-- A dataspace gains references. -/
theorem refs_withDataspace_gain {ds : DataspaceId} {d : Dataspace} {f : Dataspace → Dataspace}
    (hd : s.dataspace? ds = some d) (hf : (f d).held = d.held + came) :
    (s.withDataspace ds f).refs = s.refs + came := by
  rw [← add_zero (s.withDataspace ds f).refs]
  exact refs_withDataspace hd (by rw [hf, add_zero])

/-- A dataspace gives references up. -/
theorem refs_withDataspace_loss {ds : DataspaceId} {d : Dataspace} {f : Dataspace → Dataspace}
    (hd : s.dataspace? ds = some d) (hf : (f d).held + gone = d.held) :
    (s.withDataspace ds f).refs + gone = s.refs := by
  rw [← add_zero s.refs]
  exact refs_withDataspace hd (by rw [hf, add_zero])

/-- The innermost plane gains references. -/
theorem refs_withPlane_gain {p : Plane} {rest : List Plane} {f : Plane → Plane}
    (hp : s.planes = p :: rest) (hf : (f p).held = p.held + came) :
    (s.withPlane f).refs = s.refs + came := by
  rw [← add_zero (s.withPlane f).refs]
  exact refs_withPlane hp (by rw [hf, add_zero])

end Store

end PlaneStore
