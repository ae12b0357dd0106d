import PlaneStore.Store.SweepList

/-!
# References and imports

Every slot that holds a string or container owns one reference to it. References held by a slot of a
dataspace to a container of another are counted once more, as imports of that dataspace; this is how
eviction tells containers that only one dataspace can reach from shared ones.

Giving up the last reference to a container frees it and gives up what it held, and so on.

## Termination

The cascade keeps a list of references still to be given up. A step either frees a container, so
that fewer are live, or it frees none and leaves the list shorter.
-/

namespace PlaneStore.Store

open StoreM

/-! ## Taking references -/

/-- Takes one more reference to a string or container. -/
def retain : Value → StoreM Unit
  | .string id => updateHeap (·.retainString id)
  | .container _ id => modifyContainer id fun c => { c with refcount := c.refcount + 1 }
  | _ => return

/-- Counts a reference held by a slot of `ds`, if it is to a foreign container. -/
def addImport (ds : DataspaceId) (v : Value) : StoreM Unit :=
  match v.containerId? with
  | none => return
  | some id => do
    if (← container id).owner = ds then return
    else modifyDataspace ds (·.addImport id)

/-- Takes a reference on behalf of a slot of `ds`. -/
def acquire (ds : DataspaceId) (v : Value) : StoreM Unit := do
  retain v
  addImport ds v

/-- Copies of values as a reader sees them, with a reference to each. -/
def copies (values : List Value) : StoreM (List Value) := do
  let seen ← values.mapM scrub
  seen.forM retain
  return seen

/-! ## Giving references up -/

/-- Undoes `addImport`. -/
def dropImport (ds : DataspaceId) (v : Value) : StoreM Unit :=
  match v.containerId? with
  | none => return
  | some id => do
    if (← container id).owner = ds then return
    else
      match (← get).dataspace? ds with
      | none => return
      | some d =>
        match d.dropImport? id with
        | none => fault (.importUnderflow id ds)
        | some d' => modifyDataspace ds fun _ => d'

/-- Loads a buffer from the swap. -/
def loadSwapped (ticket : SwapTicket) : StoreM (Array Value) := fun s =>
  let (values, swap) := s.swap.load ticket
  .ok (values, { s with swap })

/-- The elements of a container that is being freed; evicted ones come back from the swap. -/
def takeElements (c : Container) : StoreM (List Value) :=
  match c.elements with
  | .resident values => return values.toList
  | .evicted ticket _ => return (← loadSwapped ticket).toList

/-- Strikes a container from the census of every plane. -/
def strike (id : ContainerId) : StoreM Unit :=
  modify fun s =>
    { s with planes := s.planes.map fun p => { p with census := p.census.erase id } }

/-- Empties the slot of a container. -/
def vacate (id : ContainerId) : StoreM Container := fun s => do
  let (c, heap) ← s.heap.remove id
  return (c, { s with heap })

/--
Frees a container and returns what it held: its elements, then the keys and values of its overlay.
The references to these are the caller's from then on.
-/
def freeContainer (id : ContainerId) : StoreM (List Value) := do
  unlink id
  strike id
  let c ← vacate id
  let children := (← takeElements c) ++ c.overlayValues
  children.forM (dropImport c.owner)
  return children

/-- Gives up one reference and returns what that set free, if it was the last. -/
def dropReference : Value → StoreM (List Value)
  | .string id => do
    updateHeap (·.releaseString id)
    return []
  | .container _ id => do
    let c ← container id
    if c.refcount = 0 then fault (.unreferenced id)
    else do
      modifyContainer id fun c => { c with refcount := c.refcount - 1 }
      if c.refcount = 1 then freeContainer id else return []
  | _ => return []

/-! ## The cascade ends -/

theorem dropImport_keeps_occupied (ds : DataspaceId) (v : Value) :
    Keeps occupied (dropImport ds v) := by
  unfold dropImport
  cases v.containerId? with
  | none => exact Keeps.pure _
  | some id =>
    refine Keeps.bind Keeps.readHeap fun c => Keeps.ite (Keeps.pure _) ?_
    refine Keeps.bind Keeps.get fun s => ?_
    split
    · exact Keeps.pure _
    · split
      · exact Keeps.fault _
      · exact modifyDataspace_keeps_occupied _ _

theorem loadSwapped_keeps_occupied (ticket : SwapTicket) :
    Keeps occupied (loadSwapped ticket) := by
  intro s s' a h
  cases h
  rfl

/-- To take the elements of a container frees none. -/
theorem takeElements_keeps_occupied (c : Container) : Keeps occupied (takeElements c) := by
  unfold takeElements
  split
  · exact Keeps.pure _
  · exact Keeps.bind (loadSwapped_keeps_occupied _) fun _ => Keeps.pure _

/-- To vacate a slot leaves one container less. -/
theorem occupied_vacate {id : ContainerId} {s s' : Store} {c : Container}
    (h : vacate id s = .ok (c, s')) : s'.occupied + 1 = s.occupied := by
  unfold vacate at h
  cases hr : s.heap.remove id with
  | error e => simp [hr, bind, Except.bind] at h
  | ok p =>
    simp only [hr, bind, Except.bind, pure, Except.pure, Except.ok.injEq, Prod.mk.injEq] at h
    rw [← h.2]
    exact Heap.occupied_remove hr

/-- Freeing a container leaves one live container less. -/
theorem occupied_freeContainer {id : ContainerId} {s s' : Store} {children : List Value}
    (h : freeContainer id s = .ok (children, s')) :
    s'.occupied + 1 = s.occupied := by
  obtain ⟨_, s₁, h₁, h⟩ := bind_eq_ok.mp h
  obtain ⟨_, s₂, h₂, h⟩ := bind_eq_ok.mp h
  obtain ⟨c, s₃, h₃, h⟩ := bind_eq_ok.mp h
  obtain ⟨elements, s₄, h₄, h⟩ := bind_eq_ok.mp h
  obtain ⟨_, s₅, h₅, h⟩ := bind_eq_ok.mp h
  rw [← (pure_eq_ok.mp h).2, Keeps.forM (fun v => dropImport_keeps_occupied c.owner v) _ h₅,
    takeElements_keeps_occupied c h₄, occupied_vacate h₃,
    (Keeps.modify fun _ => rfl : Keeps occupied (strike id)) h₂, unlink_keeps_occupied id h₁]

/-- Giving up a reference frees a container, or sets nothing free. -/
theorem dropReference_decreases {v : Value} {s s' : Store} {children : List Value}
    (h : dropReference v s = .ok (children, s')) :
    s'.occupied < s.occupied ∨
      s'.occupied = s.occupied ∧ children = [] := by
  cases v with
  | string id =>
    right
    obtain ⟨_, s₁, h₁, h₂⟩ := bind_eq_ok.mp h
    obtain ⟨hc, rfl⟩ := pure_eq_ok.mp h₂
    exact ⟨Keeps.updateHeap (f := occupied)
      (fun _ _ hh => Heap.occupied_releaseString hh) h₁, hc.symm⟩
  | container shape id =>
    obtain ⟨c, s₁, h₁, h₂⟩ := bind_eq_ok.mp h
    have hs₁ : s₁.occupied = s.occupied := Keeps.readHeap h₁
    split at h₂
    · exact absurd h₂ fault_ne_ok
    · obtain ⟨_, s₂, h₃, h₄⟩ := bind_eq_ok.mp h₂
      have hs₂ : s₂.occupied = s₁.occupied := modifyContainer_keeps_occupied _ _ h₃
      split at h₄
      · left
        have := occupied_freeContainer h₄
        omega
      · right
        obtain ⟨hc, rfl⟩ := pure_eq_ok.mp h₄
        exact ⟨by omega, hc.symm⟩
  | _ =>
    right
    obtain ⟨hc, rfl⟩ := pure_eq_ok.mp h
    exact ⟨rfl, hc.symm⟩

/-- Gives up the references on a stack, the last child of a freed container first. -/
def drain (work : List Value) (s : Store) : Except Fault (Unit × Store) :=
  match work with
  | [] => .ok ((), s)
  | v :: rest =>
    match _h : dropReference v s with
    | .error e => .error e
    | .ok (children, s') => drain (children.reverse ++ rest) s'
termination_by (s.occupied, work.length)
decreasing_by
  rcases dropReference_decreases _h with hlt | ⟨heq, rfl⟩
  · exact Prod.Lex.left _ _ hlt
  · simp only [heq, List.reverse_nil, List.nil_append, List.length_cons]
    exact Prod.Lex.right _ (Nat.lt_succ_self _)

/-- Gives up one reference to each value, the last value first. -/
def releaseAll (values : List Value) : StoreM Unit := drain values.reverse

/-- Gives up one reference. -/
def release (v : Value) : StoreM Unit :=
  if v.isCounted then releaseAll [v] else return

/-- Gives up references held by slots of `ds`. -/
def relinquish (ds : DataspaceId) (values : List Value) : StoreM Unit := do
  values.forM (dropImport ds)
  releaseAll values

/-- The number of references that slots of `ds` hold to a foreign container. -/
def importCount (s : Store) (ds : DataspaceId) (v : Value) : Nat :=
  match v.containerId?, s.dataspace? ds with
  | some id, some d => d.imports.getD id 0
  | _, _ => 0

end PlaneStore.Store
