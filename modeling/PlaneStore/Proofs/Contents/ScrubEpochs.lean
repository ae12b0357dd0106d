import PlaneStore.Proofs.Mapping.TablesPreserved

/-!
# Containers that were scrubbed once stay clean

A container, or the backup of one, that was scrubbed in the current destruction epoch holds nothing
that a reader would see as nil: what is written has been looked at, and no object goes without the
epoch moving on.
-/

namespace PlaneStore

open Store

/-- Values recorded at an epoch are alive as long as no object has gone since. -/
structure Store.FreshAt (s : Store) (epoch : Nat) (vs : List Value) : Prop where
  past : epoch ≤ s.objects.epoch
  alive : epoch = s.objects.epoch → ∀ v ∈ vs, s.lost v = false

structure Account.Fresh (a : Account) : Prop where
  content : ∀ {id : ContainerId} {x : Content}, a.store.content? id = some x →
    a.store.FreshAt x.scrubEpoch x.held
  backup : ∀ {y : Backup}, y ∈ a.backups → a.store.FreshAt y.scrubEpoch y.elements.toList

/-! ## The object table -/

namespace Objects

theorem isDestroyed_spawn_of_alive {o : Objects} {obj : ObjectRef} (h : o.isDestroyed obj = false) :
    o.spawn.2.isDestroyed obj = false := by
  rw [isDestroyed_eq_false] at h ⊢
  have hlt := (Array.getElem?_eq_some_iff.mp h).1
  show (o.generations.push 0)[obj.index]? = _
  rw [Array.getElem?_push, if_neg (by omega), h]

theorem destroy_eq_or (o : Objects) (obj : ObjectRef) :
    o.destroy obj = o ∨ (o.destroy obj).epoch = o.epoch + 1 := by
  unfold destroy
  split
  · exact Or.inl rfl
  · exact Or.inr rfl

end Objects

/-- The epoch never goes back, and as long as it stays no value is lost. -/
structure Objects.Ages (o o' : Objects) : Prop where
  epoch : o.epoch ≤ o'.epoch
  alive : o'.epoch = o.epoch → ∀ obj, o.isDestroyed obj = false → o'.isDestroyed obj = false

theorem Objects.Ages.refl (o : Objects) : o.Ages o := ⟨Nat.le_refl _, fun _ _ h => h⟩

theorem Step.ages {a b : Account} {e : Effect} (h : Step e a b) (ha : a.Accounted) :
    a.store.objects.Ages b.store.objects := by
  rcases h.objects ha with he | rfl
  · rw [he]
    exact .refl _
  · cases h with
    | creation h =>
      cases h with
      | spawn => exact ⟨Nat.le_refl _, fun _ _ => Objects.isDestroyed_spawn_of_alive⟩
      | @destroy s F C q obj =>
        rcases s.objects.destroy_eq_or obj with hsame | hepoch
        · show s.objects.Ages (s.objects.destroy obj)
          rw [hsame]
          exact .refl _
        · refine ⟨?_, fun hsame => ?_⟩
          · show s.objects.epoch ≤ (s.objects.destroy obj).epoch
            omega
          · have hsame : (s.objects.destroy obj).epoch = s.objects.epoch := hsame
            omega
    | upkeep h | writing h | nesting h => cases h

namespace Store

variable {s s' : Store} {n : Nat} {vs : List Value}

/-- What is fresh stays so as long as the values stand. -/
theorem FreshAt.of_stands (h : s.FreshAt n vs) (hages : s.objects.Ages s'.objects)
    (hvs : ∀ v ∈ vs, Stands s s' v) : s'.FreshAt n vs where
  past := Nat.le_trans h.past hages.epoch
  alive hn v hv := by
    have hle := h.past
    have hle' := hages.epoch
    have hlost := h.alive (by omega) v hv
    rw [lost_eq_subject] at hlost ⊢
    rw [(hvs v hv).subject]
    cases hs : s.subject v with
    | none => rfl
    | some obj =>
      rw [hs] at hlost
      exact hages.alive (by omega) obj hlost

end Store

theorem Step.fresh {a b : Account} {e : Effect} (h : Step e a b) (hacc : a.Accounted)
    (hb : b.Accounted) (ha : a.Fresh) : b.Fresh where
  content {id x'} hx' := by
    refine FreshAt.of_stands ?_ (h.ages hacc) fun v hv => Content.stands h hacc hb hx' hv
    cases h.content hacc hx' with
    | kept hx => exact ha.content hx
    | @becomes x _ hx hbec =>
      have hx₀ := ha.content hx
      have hpast : x'.scrubEpoch ≤ a.store.objects.epoch := by
        cases hbec with
        | scrub | compact => exact Nat.le_refl _
        | restore hq hl hf hy => exact (ha.backup (Account.mem_backups_of_closing hq hl)).past
        | _ => exact hx₀.past
      refine ⟨hpast, fun hn v hv => ?_⟩
      rcases hbec.held (Content.whole hacc hx) hv with ⟨hmem, he⟩ | ⟨halive, -⟩ |
        ⟨y, hy, -, hmem, he⟩
      · exact hx₀.alive (he ▸ hn) v hmem
      · exact halive.lost_eq
      · exact (ha.backup hy).alive (he ▸ hn) v (Array.mem_toList_iff.mpr hmem)
    | made he hid hv hC hm =>
      refine ⟨Nat.le_refl _, fun _ v hmem => ?_⟩
      rcases Content.mem_held.mp hmem with hmem | ⟨o, i, d, ho, -⟩
      · exact (hv v (List.mem_toArray.mp hmem)).lost_eq
      · cases ho
  backup {y} hy := by
    refine FreshAt.of_stands ?_ (h.ages hacc) fun v hv =>
      Content.stands_backup h hacc hb hy (Array.mem_toList_iff.mp hv)
    rcases h.backups hacc hy with hold | ⟨x, hx, hrec, -, -⟩
    · exact ha.backup hold
    · rw [hrec.elements, hrec.scrubEpoch]
      have hx₀ := ha.content hx
      exact ⟨hx₀.past, fun hn v hv =>
        hx₀.alive hn v (Content.mem_held_of_buffer (Array.mem_toList_iff.mp hv))⟩

end PlaneStore
