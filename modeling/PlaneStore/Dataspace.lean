import PlaneStore.Callout
import Std.Data.TreeMap.Lemmas

/-!
# Dataspaces

A dataspace is the part of the store that belongs to one object: its variables, the sweep list of
the containers it owns, its deferred calls, and its imports, the number of references from its slots
to each container owned elsewhere.
-/

namespace PlaneStore

structure Dataspace where
  vars : Array Value := #[]
  /-- The container linked last. -/
  head : Option ContainerId := none
  /-- The number of containers on the sweep list. -/
  containers : Nat := 0
  imports : Std.TreeMap ContainerId Nat := ∅
  callouts : Std.TreeMap CallHandle DeferredCall := ∅
  /--
  The number of the next deferred call, so the number of all that were added. A handle has 32 bits:
  a run adds fewer than `2 ^ 32` calls to a dataspace.
  -/
  nextHandle : Nat := 0

instance : Inhabited Dataspace := ⟨{}⟩

namespace Dataspace

/-- Counts one more reference to a foreign container. -/
def addImport (d : Dataspace) (id : ContainerId) : Dataspace :=
  { d with imports := d.imports.insert id (d.imports.getD id 0 + 1) }

/-- Counts one reference less; `none` if there was none. -/
def dropImport? (d : Dataspace) (id : ContainerId) : Option Dataspace :=
  match d.imports[id]? with
  | none => none
  | some n =>
    some { d with imports := if 1 < n then d.imports.insert id (n - 1) else d.imports.erase id }

/-! ## Counting up and down -/

/-- One more reference is counted. -/
theorem imports_addImport_self (d : Dataspace) (id : ContainerId) :
    (d.addImport id).imports[id]? = some (d.imports.getD id 0 + 1) := by
  simp [addImport]

theorem imports_addImport_of_ne {d : Dataspace} {id other : ContainerId} (h : id ≠ other) :
    (d.addImport id).imports[other]? = d.imports[other]? := by
  have hne : compare id other ≠ .eq := fun he => h (Std.LawfulEqOrd.eq_of_compare he)
  simp [addImport, Std.TreeMap.getElem?_insert, hne]

/-- An import that was counted can be dropped. -/
theorem dropImport?_eq_none {d : Dataspace} {id : ContainerId} :
    d.dropImport? id = none ↔ d.imports[id]? = none := by
  unfold dropImport?
  split
  · next h => simp [h]
  · next h => simp [h]

/-- One reference less is counted. -/
theorem getD_imports_dropImport? {d d' : Dataspace} {id : ContainerId}
    (h : d.dropImport? id = some d') : d'.imports.getD id 0 = d.imports.getD id 0 - 1 := by
  unfold dropImport? at h
  split at h
  · cases h
  · next n hn =>
    cases h
    have hd : d.imports.getD id 0 = n := by
      rw [Std.TreeMap.getD_eq_getD_getElem?, hn]
      rfl
    rw [hd]
    show Std.TreeMap.getD (if 1 < n then _ else _) id 0 = n - 1
    split
    · simp
    · next hle =>
      have hn1 : n - 1 = 0 := by omega
      rw [hn1]
      simp

end Dataspace

end PlaneStore
