import PlaneStore.Proofs.Contents.ScrubEpochs

/-!
# Whatever values depend on has lived

What a container or a backup holds was looked at by a reader before it was written. So the object on
which it depends was there at that time, and if it is gone now it will not come back.
-/

namespace PlaneStore

open Store

namespace Objects

variable {o o' : Objects} {obj : ObjectRef}

/-- The object is there, or it was there once. -/
def Knows (o : Objects) (obj : ObjectRef) : Prop :=
  ∃ g, o.generations[obj.index]? = some g ∧ obj.generation ≤ g

/-- The object was there once, and it is gone. -/
def Outlived (o : Objects) (obj : ObjectRef) : Prop :=
  ∃ g, o.generations[obj.index]? = some g ∧ obj.generation < g

theorem knows_of_alive (h : o.isDestroyed obj = false) : o.Knows obj :=
  ⟨_, isDestroyed_eq_false.mp h, Nat.le_refl _⟩

theorem Knows.outlived (h : o.Knows obj) (hd : o.isDestroyed obj = true) : o.Outlived obj := by
  obtain ⟨g, hg, hle⟩ := h
  refine ⟨g, hg, Nat.lt_of_le_of_ne hle fun he => ?_⟩
  have halive : o.isDestroyed obj = false := isDestroyed_eq_false.mpr (he ▸ hg)
  rw [halive] at hd
  cases hd

theorem Outlived.destroyed (h : o.Outlived obj) : o.isDestroyed obj = true := by
  obtain ⟨g, hg, hlt⟩ := h
  refine Bool.of_not_eq_false fun halive => ?_
  obtain rfl := Option.some.inj (hg.symm.trans (isDestroyed_eq_false.mp halive))
  exact Nat.lt_irrefl _ hlt

/-- Slots are not given up, and their generations only go up. -/
def Precedes (o o' : Objects) : Prop :=
  ∀ {i g : Nat}, o.generations[i]? = some g → ∃ g', o'.generations[i]? = some g' ∧ g ≤ g'

theorem Precedes.knows (h : o.Precedes o') (hk : o.Knows obj) : o'.Knows obj := by
  obtain ⟨g, hg, hle⟩ := hk
  obtain ⟨g', hg', hle'⟩ := h hg
  exact ⟨g', hg', hle.trans hle'⟩

theorem Precedes.outlived (h : o.Precedes o') (hk : o.Outlived obj) : o'.Outlived obj := by
  obtain ⟨g, hg, hlt⟩ := hk
  obtain ⟨g', hg', hle⟩ := h hg
  exact ⟨g', hg', hlt.trans_le hle⟩

protected theorem Precedes.refl (o : Objects) : o.Precedes o := fun h => ⟨_, h, Nat.le_refl _⟩

protected theorem Precedes.trans {o'' : Objects} (h : o.Precedes o') (h' : o'.Precedes o'') :
    o.Precedes o'' := by
  intro i g hg
  obtain ⟨g', hg', hle⟩ := h hg
  obtain ⟨g'', hg'', hle'⟩ := h' hg'
  exact ⟨g'', hg'', hle.trans hle'⟩

theorem precedes_spawn (o : Objects) : o.Precedes o.spawn.2 := by
  intro i g hg
  have hlt := (Array.getElem?_eq_some_iff.mp hg).1
  refine ⟨g, ?_, Nat.le_refl _⟩
  show (o.generations.push 0)[i]? = _
  rw [Array.getElem?_push, if_neg (by omega), hg]

theorem precedes_destroy (o : Objects) (obj : ObjectRef) : o.Precedes (o.destroy obj) := by
  unfold destroy
  split
  · exact Precedes.refl o
  · next hd =>
    have hlive := isDestroyed_eq_false.mp (Bool.eq_false_iff.mpr hd)
    intro i g hg
    show ∃ g', (o.generations.setIfInBounds obj.index (obj.generation + 1))[i]? = some g' ∧ g ≤ g'
    by_cases hi : obj.index = i
    · subst hi
      obtain rfl := Option.some.inj (hlive.symm.trans hg)
      have hlt := (Array.getElem?_eq_some_iff.mp hg).1
      exact ⟨_, by simp [hlt], Nat.le_succ _⟩
    · exact ⟨g, by rw [Array.getElem?_setIfInBounds_ne hi, hg], Nat.le_refl _⟩

end Objects

/-- The object table of a later account goes on from that of an earlier one. -/
theorem Step.precedes {a b : Account} {e : Effect} (h : Step e a b) (ha : a.Accounted) :
    a.store.objects.Precedes b.store.objects := by
  rcases h.objects ha with he | rfl
  · rw [he]
    exact Objects.Precedes.refl _
  · cases h with
    | creation h =>
      cases h with
      | @spawn s F C q => exact s.objects.precedes_spawn
      | @destroy s F C q obj => exact s.objects.precedes_destroy obj
    | upkeep h | writing h | nesting h => cases h

/-! ## Every step -/

/-- The object on which a value depends, if there is one, is there or was there once. -/
def Store.Knows (s : Store) (v : Value) : Prop := ∀ obj ∈ s.subject v, s.objects.Knows obj

structure Account.Seasoned (a : Account) : Prop where
  content : ∀ {id : ContainerId} {x : Content}, a.store.content? id = some x →
    ∀ v ∈ x.held, a.store.Knows v
  backup : ∀ {y : Backup}, y ∈ a.backups → ∀ v ∈ y.elements, a.store.Knows v

namespace Store

variable {s s' : Store} {v : Value}

theorem Alive.knows (h : s.Alive v) : s.Knows v := by
  intro obj hobj
  have hlost := h.lost_eq
  rw [lost_eq_subject, hobj] at hlost
  exact Objects.knows_of_alive hlost

theorem Knows.of_stands (h : s.Knows v) (hs : s.objects.Precedes s'.objects)
    (hv : Stands s s' v) : s'.Knows v := by
  intro obj hobj
  rw [hv.subject] at hobj
  exact hs.knows (h obj hobj)

/-- What is lost was there once. -/
theorem Knows.outlived (h : s.Knows v) (hl : s.lost v = true) :
    ∃ obj, s.subject v = some obj ∧ s.objects.Outlived obj := by
  rw [lost_eq_subject] at hl
  obtain ⟨obj, hobj, hd⟩ := (Option.any_eq_true _ _).mp hl
  exact ⟨obj, hobj, (h obj hobj).outlived hd⟩

end Store

/-- No step brings in a value about an object that was never there. -/
theorem Step.seasoned {a b : Account} {e : Effect} (h : Step e a b) (hacc : a.Accounted)
    (hb : b.Accounted) (ha : a.Seasoned) : b.Seasoned where
  content {id x'} hx' v hv := by
    refine Knows.of_stands ?_ (h.precedes hacc) (Content.stands h hacc hb hx' hv)
    cases h.content hacc hx' with
    | kept hx => exact ha.content hx v hv
    | @becomes x _ hx hbec =>
      rcases hbec.held (Content.whole hacc hx) hv with ⟨hmem, -⟩ | ⟨halive, -⟩ |
        ⟨y, hy, -, hmem, -⟩
      · exact ha.content hx v hmem
      · exact halive.knows
      · exact ha.backup hy v hmem
    | made he hid hnew =>
      rcases Content.mem_held.mp hv with hmem | ⟨o, i, d, ho, -⟩
      · exact (hnew v (List.mem_toArray.mp hmem)).knows
      · cases ho
  backup {y} hy v hv := by
    refine Knows.of_stands ?_ (h.precedes hacc) (Content.stands_backup h hacc hb hy hv)
    rcases h.backups hacc hy with hold | ⟨x, hx, hrec, -, -⟩
    · exact ha.backup hold v hv
    · exact ha.content hx v (Content.mem_held_of_buffer (hrec.elements ▸ hv))

end PlaneStore
