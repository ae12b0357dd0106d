import PlaneStore.Proofs.Mapping.EntryMap

/-!
# What is left of contents

Looking after a container takes from it what has been destroyed: elements become nil, and pairs go
of which a half is lost. `Content.Fades` says that a content is what is left of an earlier one. What
was lost in between may be lost to a reader of the earlier content only now, so it is told by the
objects on which values depend.
-/

namespace PlaneStore

open Store

/-! ## What is left of values -/

namespace Store

variable {s s' : Store} {v : Value} {k : Identity}

/-- The object on which a key of a mapping depends. -/
def keySubject (s : Store) : Identity → Option ObjectRef
  | .container shape id => s.subject (.container shape id)
  | .object obj => s.subject (.object obj)
  | .plain _ => none

theorem keySubject_identity (s : Store) (v : Value) :
    s.keySubject (s.heap.identity v) = s.subject v := by
  cases v <;> rfl

theorem gone_eq_keySubject (s : Store) (k : Identity) :
    s.gone k = (s.keySubject k).any s.objects.isDestroyed := by
  cases k with
  | plain => rfl
  | container shape id => exact s.lost_eq_subject (.container shape id)
  | object obj => exact s.lost_eq_subject (.object obj)

/-- A store in which other objects are destroyed. -/
def withObjects (s : Store) (o : Objects) : Store := { s with objects := o }

theorem lost_withObjects (s : Store) (o : Objects) (v : Value) :
    (s.withObjects o).lost v = (s.subject v).any o.isDestroyed := by
  rw [lost_eq_subject]
  rfl

theorem gone_withObjects (s : Store) (o : Objects) (k : Identity) :
    (s.withObjects o).gone k = (s.keySubject k).any o.isDestroyed := by
  rw [gone_eq_keySubject]
  rfl

end Store

/-- What is left of a value: all of it, or nothing if the object on which it depended is gone. -/
inductive Value.Fades (s s' : Store) (v : Value) : Value → Prop
  | kept (h : s'.subject v = s.subject v) : Value.Fades s s' v v
  | lost {obj : ObjectRef} (h : s.subject v = some obj) (hd : s'.objects.Outlived obj) :
    Value.Fades s s' v .nil

/-- What is left of a value under a key, which may go with either of the two. -/
inductive Value.FadesUnder (s s' : Store) (k : Identity) (v : Value) : Option Value → Prop
  | kept (hk : s'.keySubject k = s.keySubject k) (hv : s'.subject v = s.subject v) :
    Value.FadesUnder s s' k v (some v)
  | lost {obj : ObjectRef} (h : s.keySubject k = some obj ∨ s.subject v = some obj)
    (hd : s'.objects.Outlived obj) : Value.FadesUnder s s' k v none

/-- What is left of a content. -/
structure Content.Fades (s s' : Store) (x y : Content) : Prop where
  kind : y.kind = x.kind
  tag : y.tag = x.tag
  owner : y.owner = x.owner
  home : y.home = x.home
  elements : x.kind ≠ .mapping → List.Forall₂ (Value.Fades s s') x.buffer.toList y.buffer.toList
  absent : x.kind = .mapping → ∀ k, x.find s.heap k = none → y.find s'.heap k = none
  entries : x.kind = .mapping → ∀ {k v}, x.find s.heap k = some v →
    Value.FadesUnder s s' k v (y.find s'.heap k)

namespace Value

variable {s s₁ s₂ : Store} {v w : Value} {k : Identity}

theorem Fades.of_stands (h : v.Fades s s₁ w) (ho : s₁.objects.Precedes s₂.objects)
    (hw : Stands s₁ s₂ w) : v.Fades s s₂ w := by
  cases h with
  | kept h => exact .kept (hw.subject.trans h)
  | lost h hd => exact .lost h (ho.outlived hd)

/-- What is left of a value reads as the value would if the same objects were gone. -/
theorem Fades.seen_eq (h : v.Fades s s₁ w) : s₁.seen w = (s.withObjects s₁.objects).seen v := by
  cases h with
  | kept h =>
    unfold Store.seen
    rw [lost_withObjects, lost_eq_subject, h]
  | lost h hd =>
    rw [seen_nil, seen_of_lost]
    rw [lost_withObjects, h]
    exact hd.destroyed

/-- An entry that fades is dropped by a compaction if it is lost by then. -/
theorem FadesUnder.filter_eq {o : Option Value} (h : v.FadesUnder s s₁ k o) :
    o.filter (s₁.spares k) = (some v).filter ((s.withObjects s₁.objects).spares k) := by
  have hspares : (s.withObjects s₁.objects).spares k v =
      (!(s.keySubject k).any s₁.objects.isDestroyed &&
        !(s.subject v).any s₁.objects.isDestroyed) := by
    unfold Store.spares
    rw [gone_withObjects, lost_withObjects]
  rw [Option.filter_some, hspares]
  cases h with
  | kept hk hv =>
    rw [Option.filter_some]
    unfold Store.spares
    rw [gone_eq_keySubject, lost_eq_subject, hk, hv]
  | lost h hd =>
    rw [Option.filter_none]
    rcases h with h | h
    · simp [h, hd.destroyed]
    · simp [h, hd.destroyed]

/-- What a reader sees of what is left of a value is left of it. -/
theorem Fades.scrubbed {u : Value} (h : v.Fades s s₁ w) (hknown : s₁.Knows w)
    (hu : s₁.scrubbed w = .ok u) : v.Fades s s₁ u := by
  rw [scrubbed_eq hu]
  by_cases hl : s₁.lost w = true
  · rw [seen_of_lost hl]
    cases h with
    | kept h =>
      obtain ⟨obj, hobj, hd⟩ := hknown.outlived hl
      exact .lost (h.symm.trans hobj) hd
    | lost h hd => exact .lost h hd
  · rw [seen_of_kept (Bool.not_eq_true _ ▸ hl)]
    exact h

/-- Of what is left under a key, that is left of which neither half is lost. -/
theorem FadesUnder.filtered {o : Option Value} (h : v.FadesUnder s s₁ k o)
    (hknown : ∀ w, o = some w →
      (s₁.gone k = true → ∃ obj, s₁.keySubject k = some obj ∧ s₁.objects.Outlived obj) ∧
        (s₁.lost w = true → ∃ obj, s₁.subject w = some obj ∧ s₁.objects.Outlived obj)) :
    v.FadesUnder s s₁ k (o.filter fun w => !s₁.gone k && !s₁.lost w) := by
  cases h with
  | lost h hd => exact .lost h hd
  | kept hk hv =>
    rw [Option.filter_some]
    split
    · exact .kept hk hv
    · next hno =>
      obtain ⟨hkey, hval⟩ := hknown v rfl
      simp only [Bool.and_eq_true, Bool.not_eq_true', not_and, Bool.not_eq_false] at hno
      cases hg : s₁.gone k with
      | true =>
        obtain ⟨obj, hobj, hd⟩ := hkey hg
        exact .lost (.inl (hk.symm.trans hobj)) hd
      | false =>
        obtain ⟨obj, hobj, hd⟩ := hval (hno hg)
        exact .lost (.inr (hv.symm.trans hobj)) hd

end Value

/-! ## What is left of contents -/

theorem forall₂_trans {α β γ : Type} {R : α → β → Prop} {S : β → γ → Prop} {T : α → γ → Prop}
    (h : ∀ {a b c}, R a b → S b c → T a c) {as : List α} {bs : List β} {cs : List γ}
    (hR : List.Forall₂ R as bs) (hS : List.Forall₂ S bs cs) : List.Forall₂ T as cs := by
  induction hR generalizing cs with
  | nil => cases hS; exact .nil
  | cons hab _ ih =>
    cases hS with
    | cons hbc hS => exact .cons (h hab hbc) (ih hS)

namespace Content.Fades

variable {s s₁ s₂ : Store} {x y : Content}

protected theorem refl (s : Store) (x : Content) : x.Fades s s x where
  kind := rfl
  tag := rfl
  owner := rfl
  home := rfl
  elements _ := List.forall₂_same.mpr fun _ _ => .kept rfl
  absent _ _ h := h
  entries _ {k v} h := by
    rw [h]
    exact .kept rfl rfl

/-- As long as what is left stands for what it did, it is left. -/
theorem of_stands (h : x.Fades s s₁ y) (ho : s₁.objects.Precedes s₂.objects)
    (hv : ∀ v ∈ y.held, Stands s₁ s₂ v) (ht : y.kind = .mapping → y.Tabled s₂.heap) :
    x.Fades s s₂ y := by
  have hfind : ∀ k, y.find s₂.heap k = y.find s₁.heap k := fun k =>
    find_congr fun v hmem => (hv v hmem).identity
  refine ⟨h.kind, h.tag, h.owner, h.home, fun hk => ?_, fun hk k hnone => ?_,
    fun hk {k v} hsome => ?_⟩
  · have hstands : ∀ w ∈ y.buffer.toList, Stands s₁ s₂ w := fun w hw =>
      hv w (mem_held_of_buffer (Array.mem_toList_iff.mp hw))
    exact ((List.forall₂_and_left _ _).mpr ⟨hstands, (h.elements hk).flip⟩).flip.imp
      fun _ _ hvw => hvw.2.of_stands ho hvw.1
  · rw [hfind]
    exact h.absent hk k hnone
  · have hky := h.kind.trans hk
    have hleft := h.entries hk hsome
    rw [hfind]
    -- An entry that was dropped was lost then, and what is lost stays lost.
    cases hy : y.find s₁.heap k with
    | none =>
      rw [hy] at hleft
      cases hleft with
      | lost hobj hd => exact .lost hobj (ho.outlived hd)
    | some w =>
      rw [hy] at hleft
      cases hleft with
      | kept hkey hval =>
        have hy₂ := (hfind k).trans hy
        obtain ⟨w, hw, rfl⟩ := (ht hky).exists_key hy₂
        have hmem : v ∈ y.held := mem_held_of_seek (ht hky) hy₂
        refine .kept (Eq.trans ?_ hkey) ((hv v hmem).subject.trans hval)
        rw [keySubject_identity, (hv w hw).subject, (hv w hw).identity, keySubject_identity]

/-- What is left of an array or record reads as it would if the same objects were gone. -/
theorem seen_eq (h : x.Fades s s₁ y) (hk : x.kind ≠ .mapping) :
    y.buffer.toList.map s₁.seen = x.buffer.toList.map (s.withObjects s₁.objects).seen := by
  have hall := h.elements hk
  generalize x.buffer.toList = vs at hall
  generalize y.buffer.toList = ws at hall
  induction hall with
  | nil => rfl
  | cons hvw _ ih => rw [List.map_cons, List.map_cons, hvw.seen_eq, ih]

/-- What is left of a mapping has the entries spared that it would if the same objects were gone. -/
theorem filter_eq (h : x.Fades s s₁ y) (hk : x.kind = .mapping) (k : Identity) :
    (y.find s₁.heap k).filter (s₁.spares k) =
      (x.find s.heap k).filter ((s.withObjects s₁.objects).spares k) := by
  cases hx : x.find s.heap k with
  | none => rw [h.absent hk k hx]; rfl
  | some v => exact (h.entries hk hx).filter_eq

variable {a : Account} {id : ContainerId} {e : Effect} {y' : Content}

/-- Tending to a container leaves of its content what is not lost. -/
theorem tended (h : x.Fades s a.store y) (hbec : Becomes a id e y y')
    (he : e.Rests) (howner : y'.owner = y.owner) (hhome : y'.home = y.home)
    (hknown : ∀ v ∈ y.held, a.store.Knows v) (hw : y.Whole)
    (ht : y.kind = .mapping → y.Tabled a.store.heap) : x.Fades s a.store y' := by
  cases hbec with
  | backUp | settle | transfer =>
    exact ⟨h.kind, h.tag, howner.trans h.owner, hhome.trans h.home, h.elements, h.absent, h.entries⟩
  | scrub hk hseen =>
    have hall := (List.forall₂_and_left _ _).mpr ⟨fun v hv => hknown v (mem_held_of_buffer
      (Array.mem_toList_iff.mp hv)), hseen⟩
    have hnot : x.kind ≠ .mapping := h.kind ▸ hk
    refine ⟨h.kind, h.tag, h.owner, h.home, fun _ => ?_, fun hm => absurd hm hnot,
      fun hm => absurd hm hnot⟩
    exact forall₂_trans (fun hvw hw => hvw.scrubbed hw.1 hw.2) (h.elements hnot) hall
  | absorb ho hm =>
    have hk : y.kind = .mapping := (hw.overlay ho).1
    have hfind := fun k =>
      (show Becomes a id _ _ _ from .absorb ho hm).find_leaves (k := k) trivial (ht hk)
    refine ⟨h.kind, h.tag, h.owner, h.home, fun hnot => absurd (h.kind.symm.trans hk) hnot,
      fun hm k hnone => ?_, fun hm {k v} hsome => ?_⟩
    · rw [hfind]
      exact h.absent hm k hnone
    · rw [hfind]
      exact h.entries hm hsome
  | compact hk ho hlive =>
    -- A compaction drops those pairs that stand for nothing.
    have hfind := fun k =>
      (show Becomes a id _ _ _ from .compact hk ho hlive).find_scrub (k := k) hk (ht hk)
    refine ⟨h.kind, h.tag, h.owner, h.home, fun hnot => absurd (h.kind.symm.trans hk) hnot,
      fun hm k hnone => ?_, fun hm {k v} hsome => ?_⟩
    · rw [hfind, h.absent hm k hnone]
      rfl
    · rw [hfind]
      refine (h.entries hm hsome).filtered fun w hy => ?_
      obtain ⟨u, hu, rfl⟩ := (ht hk).exists_key hy
      rw [a.store.gone_identity, keySubject_identity]
      exact ⟨(hknown u hu).outlived, (hknown w (mem_held_of_seek (ht hk) hy)).outlived⟩
  | overwrite | overwriteValue | overwritePending | park | unpark | deletePair | restore | retag =>
    exact he.elim

end Content.Fades

end PlaneStore
