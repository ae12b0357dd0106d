import PlaneStore.Value.Basic

/-!
# The object table

The table knows the current generation of every object slot. Destroying an object ends its
generation, so every reference to it is from then on recognised as dead.
-/

namespace PlaneStore

structure Objects where
  generations : Array Nat := #[]
  /-- The number of objects destroyed so far. -/
  epoch : Nat := 0
  deriving Repr, Inhabited

namespace Objects

/-- Creates an object in a new slot. -/
def spawn (o : Objects) : ObjectRef × Objects :=
  (⟨o.generations.size, 0⟩, { o with generations := o.generations.push 0 })

/-- Whether the object that the reference was taken from is gone, or never was. -/
def isDestroyed (o : Objects) (obj : ObjectRef) : Bool :=
  o.generations[obj.index]? != some obj.generation

/-- Destroys an object; a reference that is dead already changes nothing. -/
def destroy (o : Objects) (obj : ObjectRef) : Objects :=
  if o.isDestroyed obj then o
  else
    { generations := o.generations.setIfInBounds obj.index (obj.generation + 1)
      epoch := o.epoch + 1 }

/-- The object that lives in a slot now, if there is such a slot. -/
def reuse (o : Objects) (index : Nat) : Option ObjectRef :=
  o.generations[index]?.map (ObjectRef.mk index ·)

/-! ## Destroyed objects stay destroyed -/

/-- An object is alive as long as its slot is of its generation. -/
theorem isDestroyed_eq_false {o : Objects} {obj : ObjectRef} :
    o.isDestroyed obj = false ↔ o.generations[obj.index]? = some obj.generation := by
  simp [isDestroyed]

/-- What was destroyed is destroyed, also if it was before. -/
theorem isDestroyed_destroy_self (o : Objects) (obj : ObjectRef) :
    (o.destroy obj).isDestroyed obj = true := by
  unfold destroy
  split
  · assumption
  · next h =>
    have hget := isDestroyed_eq_false.mp (Bool.eq_false_iff.mpr h)
    obtain ⟨hlt, -⟩ := Array.getElem?_eq_some_iff.mp hget
    simp [isDestroyed, hlt]

/-- Destroying one object leaves the references to others as they were. -/
theorem isDestroyed_destroy_of_ne {o : Objects} {obj other : ObjectRef}
    (h : obj.index ≠ other.index) : (o.destroy obj).isDestroyed other = o.isDestroyed other := by
  unfold destroy
  split
  · rfl
  · simp [isDestroyed, Array.getElem?_setIfInBounds_ne h]

/-- A new object is alive. -/
theorem isDestroyed_spawn (o : Objects) : o.spawn.2.isDestroyed o.spawn.1 = false := by
  rw [isDestroyed_eq_false]
  simp [spawn]

/-- A destruction that changes anything counts as one. -/
theorem epoch_destroy (o : Objects) (obj : ObjectRef) :
    (o.destroy obj).epoch = if o.isDestroyed obj then o.epoch else o.epoch + 1 := by
  unfold destroy
  split <;> simp_all

end Objects

end PlaneStore
