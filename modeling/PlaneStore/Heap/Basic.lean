import PlaneStore.Heap.Container

/-!
# The heap

The table of containers and the table of strings, both slabs, and the counter of identity tags. The
heap only stores; when references are taken and given up is decided in `PlaneStore.Store`.

Reading or writing an empty slot is a fault.
-/

namespace PlaneStore

/-- An immutable text and the number of references to it. -/
structure StringEntry where
  text : String
  refcount : Nat := 1
  deriving DecidableEq, Repr, Inhabited

structure Heap where
  containers : Slab Container := {}
  strings : Slab StringEntry := {}
  /-- The next identity tag; it has 64 bits, so a run stays below `2 ^ 64`. -/
  nextTag : Nat := 1

instance : Inhabited Heap := ⟨{}⟩

namespace Heap

/-! ## Identity tags -/

/-- The largest identity tag. -/
def maxTag : Nat := 0xFFFFFFFFFFFFFFFF

/--
Hands out the next identity tag. After `maxTag` there is none: a run that takes it is not one of the
heap that is meant, whose counter would overflow, and no run of fewer than `2 ^ 63` tags does.
-/
def takeTag (h : Heap) : Nat × Heap :=
  (h.nextTag, { h with nextTag := h.nextTag + 1 })

/--
Makes later tags larger than `tag`, as far as there are larger ones: once `maxTag` was seen, it is
also the next tag, and the last.
-/
def observeTag (h : Heap) (tag : Nat) : Heap :=
  { h with nextTag := max h.nextTag (min (tag + 1) maxTag) }

/-! ## Containers -/

def get (h : Heap) (id : ContainerId) : Except Fault Container :=
  match h.containers.get? id.slot with
  | some c => .ok c
  | none => .error (.danglingContainer id)

def contains (h : Heap) (id : ContainerId) : Bool := h.containers.contains id.slot

/-- The number of live containers. -/
def liveContainers (h : Heap) : Nat := h.containers.live

/-- The slot that the next container goes to. -/
def nextId (h : Heap) : ContainerId := ⟨h.containers.nextCell⟩

def insert (h : Heap) (c : Container) : Heap :=
  { h with containers := h.containers.insert c }

/-- Changes a live container by a step that may find it broken. -/
def modifyM (h : Heap) (id : ContainerId) (f : Container → Except Fault Container) :
    Except Fault Heap := do
  let c ← f (← h.get id)
  return { h with containers := h.containers.set id.slot c }

/-- Changes a live container. -/
def modify (h : Heap) (id : ContainerId) (f : Container → Container) : Except Fault Heap :=
  h.modifyM id fun c => .ok (f c)

/-- Frees a slot. -/
def remove (h : Heap) (id : ContainerId) : Except Fault (Container × Heap) :=
  match h.containers.get? id.slot with
  | some c => .ok (c, { h with containers := h.containers.erase id.slot })
  | none => .error (.freeingEmptySlot id)

/-! ## Strings -/

def stringEntry (h : Heap) (id : StringId) : Except Fault StringEntry :=
  match h.strings.get? id.slot with
  | some e => .ok e
  | none => .error (.danglingString id)

def containsString (h : Heap) (id : StringId) : Bool := h.strings.contains id.slot

def liveStrings (h : Heap) : Nat := h.strings.live

def text (h : Heap) (id : StringId) : Except Fault String := do
  return (← h.stringEntry id).text

/-- Stores a text with one reference to it. -/
def allocString (h : Heap) (text : String) : StringId × Heap :=
  (⟨h.strings.nextCell⟩, { h with strings := h.strings.insert { text } })

def retainString (h : Heap) (id : StringId) : Except Fault Heap := do
  let e ← h.stringEntry id
  return { h with strings := h.strings.set id.slot { e with refcount := e.refcount + 1 } }

/-- Gives up one reference; with the last one the slot is freed. -/
def releaseString (h : Heap) (id : StringId) : Except Fault Heap := do
  let e ← h.stringEntry id
  if 1 < e.refcount then
    return { h with strings := h.strings.set id.slot { e with refcount := e.refcount - 1 } }
  else
    return { h with strings := h.strings.erase id.slot }

/-! ## What the operations do to the table of containers -/

/-- A handle can be followed if its slot is in use. -/
theorem get_eq_ok {h : Heap} {id : ContainerId} {c : Container} :
    h.get id = .ok c ↔ h.containers.get? id.slot = some c := by
  unfold get
  split <;> simp_all

/-- A change that may fail writes what it ends with. -/
theorem modifyM_eq_ok {h h' : Heap} {id : ContainerId} {f : Container → Except Fault Container} :
    h.modifyM id f = .ok h' ↔
      ∃ c c', h.get id = .ok c ∧ f c = .ok c' ∧
        h' = { h with containers := h.containers.set id.slot c' } := by
  unfold modifyM
  cases hc : h.get id with
  | error e => simp [bind, Except.bind]
  | ok c =>
    cases hf : f c with
    | error e => simp [bind, Except.bind, hf]
    | ok c' => simp [bind, Except.bind, pure, Except.pure, hf, eq_comm]

theorem occupied_modifyM {h h' : Heap} {id : ContainerId} {f : Container → Except Fault Container}
    (hm : h.modifyM id f = .ok h') : h'.containers.occupied = h.containers.occupied := by
  obtain ⟨c, c', hc, -, rfl⟩ := modifyM_eq_ok.mp hm
  exact Slab.occupied_set (get_eq_ok.mp hc)

theorem occupied_modify {h h' : Heap} {id : ContainerId} {f : Container → Container}
    (hm : h.modify id f = .ok h') : h'.containers.occupied = h.containers.occupied :=
  occupied_modifyM hm

/-- What is removed leaves its slot free. -/
theorem remove_eq_ok {h h' : Heap} {id : ContainerId} {c : Container} :
    h.remove id = .ok (c, h') ↔ h.containers.get? id.slot = some c ∧
      h' = { h with containers := h.containers.erase id.slot } := by
  unfold remove
  cases hc : h.containers.get? id.slot with
  | none => simp
  | some d => simp [eq_comm]

/-- One container less is there. -/
theorem occupied_remove {h h' : Heap} {id : ContainerId} {c : Container}
    (hr : h.remove id = .ok (c, h')) :
    h'.containers.occupied + 1 = h.containers.occupied := by
  obtain ⟨hc, rfl⟩ := remove_eq_ok.mp hr
  exact Slab.occupied_erase hc

/-- To release a text frees no container. -/
theorem occupied_releaseString {h h' : Heap} {id : StringId} (hr : h.releaseString id = .ok h') :
    h'.containers.occupied = h.containers.occupied := by
  unfold releaseString at hr
  cases he : h.stringEntry id with
  | error e => simp [he, bind, Except.bind] at hr
  | ok e =>
    simp only [he, bind, Except.bind, pure, Except.pure] at hr
    split at hr <;> rw [← Except.ok.inj hr]

end Heap

end PlaneStore
