import PlaneStore.Callout
import Std.Data.TreeMap.Lemmas

/-!
# Planes

A plane is one nesting level of atomic execution. It remembers what the store looked like when it
was entered: a backup of every container changed since, the first value of every variable written
and one patch for every deferred call touched.

The census of a plane lists the containers that came to be on it or were backed up on it. It decides
what happens to their home level when the plane ends. There is no such list of strings: a string has
no home, it lives as long as it is referred to, and no answer tells on which plane it was made.
-/

namespace PlaneStore

/-- How a container came to be in a census. -/
inductive Residence where
  /-- Created on the plane, or left behind by a plane above it. -/
  | fresh
  /-- Backed up on the plane. -/
  | backed
  deriving DecidableEq, Repr

/-- A container as it was before its first change on a plane. -/
structure Backup where
  container : ContainerId
  kind : Kind
  /-- The backup holds one reference to each, which is no import of the owner. -/
  elements : Array Value
  size : Nat
  home : Nat
  scrubEpoch : Nat
  deriving Inhabited

structure Plane where
  census : Std.TreeMap ContainerId Residence := ∅
  /-- The backups, the newest in front. -/
  ledger : List Backup := []
  /-- The values of variables before their first write; references, but no imports. -/
  savedVars : Std.TreeMap VariableRef Value := ∅
  patches : Std.TreeMap CallRef CallPatch := ∅

instance : Inhabited Plane := ⟨{}⟩

/-- Whether the plane holds a backup of the container. -/
def Plane.isBacked (p : Plane) (id : ContainerId) : Bool :=
  p.census[id]? == some .backed

/-- Lists a container, unless the census has it already. -/
def Plane.adopt (p : Plane) (id : ContainerId) : Plane :=
  { p with census := p.census.insertIfNew id .fresh }

/-- Files a backup. -/
def Plane.file (p : Plane) (b : Backup) : Plane :=
  { p with census := p.census.insert b.container .backed, ledger := b :: p.ledger }

/-! ## What the census says -/

namespace Plane

theorem isBacked_iff {p : Plane} {id : ContainerId} :
    p.isBacked id = true ↔ p.census[id]? = some .backed := by
  simp [isBacked]

/-- A container whose backup is filed is backed. -/
theorem isBacked_file_self (p : Plane) (b : Backup) : (p.file b).isBacked b.container = true := by
  rw [isBacked_iff]
  simp [file]

/-- The backup of one container is not that of another. -/
theorem isBacked_file_of_ne {p : Plane} {b : Backup} {id : ContainerId} (h : b.container ≠ id) :
    (p.file b).isBacked id = p.isBacked id := by
  have hne : compare b.container id ≠ .eq := fun he => h (Std.LawfulEqOrd.eq_of_compare he)
  simp [isBacked, file, Std.TreeMap.getElem?_insert, hne]

/-- What is listed as fresh is not backed up by it. -/
theorem isBacked_adopt (p : Plane) (id other : ContainerId) :
    (p.adopt id).isBacked other = p.isBacked other := by
  simp only [isBacked, adopt, Std.TreeMap.getElem?_insertIfNew]
  split
  · next h =>
    have hnone : p.census[other]? = none := by
      have he : id = other := Std.LawfulEqOrd.eq_of_compare h.1
      rw [← he]
      simpa using h.2
    rw [hnone]
    rfl
  · rfl

end Plane

end PlaneStore
