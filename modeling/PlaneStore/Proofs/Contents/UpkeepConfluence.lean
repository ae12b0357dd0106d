import PlaneStore.Proofs.Contents.UpkeepEffects

/-!
# Two ways to look after containers

Two chains of steps that only look after containers, and that start from one account, lead to stores
which clients cannot tell apart by the containers that are in both: what one of them does to a
container is nothing, or the other one finds it scrubbed as well.
-/

namespace PlaneStore

open Store

/-- Two containers that clients cannot tell apart. -/
structure Content.Same (s s' : Store) (x x' : Content) : Prop where
  kind : x'.kind = x.kind
  tag : x'.tag = x.tag
  owner : x'.owner = x.owner
  home : x'.home = x.home
  elements : x.kind ≠ .mapping → x'.buffer = x.buffer
  entries : x.kind = .mapping → ∀ k, x'.find s'.heap k = x.find s.heap k

namespace Content.Same

variable {s s₁ s₂ : Store} {x y z : Content}

protected theorem refl (s : Store) (x : Content) : x.Same s s x :=
  ⟨rfl, rfl, rfl, rfl, fun _ => rfl, fun _ _ => rfl⟩

protected theorem symm (h : x.Same s s₁ y) : y.Same s₁ s x :=
  ⟨h.kind.symm, h.tag.symm, h.owner.symm, h.home.symm, fun hk => (h.elements (h.kind ▸ hk)).symm,
    fun hk k => (h.entries (h.kind ▸ hk) k).symm⟩

protected theorem trans (h : x.Same s s₁ y) (h' : y.Same s₁ s₂ z) : x.Same s s₂ z :=
  ⟨h'.kind.trans h.kind, h'.tag.trans h.tag, h'.owner.trans h.owner, h'.home.trans h.home,
    fun hk => (h'.elements (h.kind.symm ▸ hk)).trans (h.elements hk),
    fun hk k => (h'.entries (h.kind.symm ▸ hk) k).trans (h.entries hk k)⟩

/-- A container is the same while what it holds stands for the same things. -/
theorem of_stands (h : ∀ v ∈ x.held, Stands s s₁ v) : x.Same s s₁ x :=
  ⟨rfl, rfl, rfl, rfl, fun _ => rfl, fun _ _ => Content.find_congr fun v hv => (h v hv).identity⟩

end Content.Same

namespace Store

/-- Variables and deferred calls are the same, and so are the containers that are in both stores. -/
structure Agrees (s s' : Store) : Prop where
  variableAt? : ∀ ref, s'.variableAt? ref = s.variableAt? ref
  call? : ∀ call, s'.call? call = s.call? call
  content : ∀ {id x x'}, s.content? id = some x → s'.content? id = some x' → x.Same s s' x'

/-- A container in a slot was scrubbed in the current epoch. -/
def Recent (s : Store) (id : ContainerId) : Prop :=
  ∀ c, s.container? id = some c → c.scrubEpoch = s.objects.epoch

/-- The epoch of a recent scrub is part of the content. -/
theorem Recent.content {s : Store} {id : ContainerId} {x : Content} (h : s.Recent id)
    (hx : s.content? id = some x) : x.scrubEpoch = s.objects.epoch := by
  obtain ⟨c, hc, rfl⟩ := content?_eq_some.mp hx
  exact h c hc

theorem Agrees.refl (s : Store) : Agrees s s where
  variableAt? _ := rfl
  call? _ := rfl
  content hx hx' := by
    obtain rfl := Option.some.inj (hx.symm.trans hx')
    exact .refl s _

end Store

section

variable {s s' : Store} {a b : Account} {id : ContainerId} {x y : Content} {k : Identity}

/-- What is left of an array or record of which nothing is lost is what a reader saw before. -/
theorem Content.Fades.buffer_eq (h : x.Fades s s' y) (ho : s'.objects = s.objects)
    (hk : x.kind ≠ .mapping) (halive : ∀ v ∈ y.held, s'.lost v = false) :
    y.buffer.toList = x.buffer.toList.map s.seen := by
  have hseen : y.buffer.toList.map s'.seen = y.buffer.toList := by
    refine (List.map_congr_left fun v hv => ?_).trans (List.map_id _)
    exact seen_of_kept (halive v (Content.mem_held_of_buffer (Array.mem_toList_iff.mp hv)))
  have hleft := h.seen_eq hk
  rw [hseen, ho] at hleft
  exact hleft

/-- What is left of a mapping of which nothing is lost is what was spared before. -/
theorem Content.Fades.find_eq (h : x.Fades s b.store y) (hb : b.Kept)
    (ho : b.store.objects = s.objects) (hk : x.kind = .mapping) (hy : b.store.content? id = some y)
    (hfresh : y.scrubEpoch = b.store.objects.epoch) :
    y.find b.store.heap k = (x.find s.heap k).filter (s.spares k) := by
  have hleft := h.filter_eq hk k
  rw [ho] at hleft
  refine Eq.trans ?_ hleft
  cases hv : y.find b.store.heap k with
  | none => rfl
  | some v =>
    have hspares := hb.spares_of_fresh hy (h.kind.trans hk) hfresh hv
    rw [Option.filter_some, if_pos hspares]

end

section

variable {E E' : Effect → Prop} {a b c : Account}

/--
Two ways to look after containers agree on each container that neither touches, and on each that
both have scrubbed.
-/
theorem Path.agrees (h : Path E a b) (h' : Path E' a c) (ha : a.Kept) (hE : ∀ e, E e → e.Minds)
    (hE' : ∀ e, E' e → e.Minds)
    (hid : ∀ id, (∀ e, E e ∨ E' e → e.Leaves id) ∨ b.store.Recent id ∧ c.store.Recent id) :
    Agrees b.store c.store := by
  have hsteady := h.holdsSteady ha hE
  have hsteady' := h'.holdsSteady ha hE'
  have hb := h.kept ha
  have hc := h'.kept ha
  refine ⟨fun ref => ?_, fun call => ?_, fun {id y y'} hy hy' => ?_⟩
  · rw [hsteady.variableAt?, hsteady'.variableAt?]
  · rw [hsteady.call?, hsteady'.call?]
  obtain ⟨x, hx, hfades⟩ := h.fading ha hE hy
  obtain ⟨x', hx', hfades'⟩ := h'.fading ha hE' hy'
  obtain rfl := Option.some.inj (hx.symm.trans hx')
  refine ⟨hfades'.kind.trans hfades.kind.symm, hfades'.tag.trans hfades.tag.symm,
    hfades'.owner.trans hfades.owner.symm, hfades'.home.trans hfades.home.symm,
    fun hk => ?_, fun hk k => ?_⟩
  · -- Either no path turns to the container, or both have brought it up to date.
    rcases hid id with hleaves | ⟨hrecent, hrecent'⟩
    · obtain ⟨z, hz, -, hbuffer⟩ := h.buffer ha (fun e he => hleaves e (.inl he)) hy hk
      obtain ⟨z', hz', -, hbuffer'⟩ := h'.buffer ha (fun e he => hleaves e (.inr he)) hy'
        (hfades'.kind.trans hfades.kind.symm ▸ hk)
      obtain rfl := Option.some.inj (hz.symm.trans hz')
      exact hbuffer'.symm.trans hbuffer
    · have hkx : x.kind ≠ .mapping := hfades.kind ▸ hk
      have hlist := hfades.buffer_eq hsteady.objects hkx
        ((hb.fresh.content hy).alive (hrecent.content hy))
      have hlist' := hfades'.buffer_eq hsteady'.objects hkx
        ((hc.fresh.content hy').alive (hrecent'.content hy'))
      exact Array.toList_inj.mp (hlist'.trans hlist.symm)
  · have hk' : y'.kind = .mapping := (hfades'.kind.trans hfades.kind.symm).trans hk
    rcases hid id with hleaves | ⟨hrecent, hrecent'⟩
    · obtain ⟨z, hz, -, hfind⟩ := h.find ha (fun e he => hleaves e (.inl he)) hy hk
      obtain ⟨z', hz', -, hfind'⟩ := h'.find ha (fun e he => hleaves e (.inr he)) hy' hk'
      obtain rfl := Option.some.inj (hz.symm.trans hz')
      exact (hfind' k).trans (hfind k).symm
    · have hkx : x.kind = .mapping := hfades.kind.symm.trans hk
      rw [hfades'.find_eq hc hsteady'.objects hkx hy' (hrecent'.content hy'),
        hfades.find_eq hb hsteady.objects hkx hy (hrecent.content hy)]

end

end PlaneStore
