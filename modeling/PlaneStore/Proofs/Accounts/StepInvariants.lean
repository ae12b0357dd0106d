import PlaneStore.Proofs.References.ImportCounts
import PlaneStore.Proofs.Mapping.KeyLocation
import PlaneStore.Proofs.Contents.SubjectLifetimes
import PlaneStore.Proofs.Planes.RewoundNotes

/-!
# What every step keeps

All that is known of an account in the middle of a request, and that it stays so along chains of
steps.
-/

namespace PlaneStore

open Store

/-- What every step keeps of an account. -/
structure Account.Kept (a : Account) : Prop where
  accounted : a.Accounted
  numbered : a.Numbered
  chained : a.Chained
  tabled : a.Tabled
  fresh : a.Fresh
  seasoned : a.Seasoned
  listed : a.store.Listed
  imported : a.Imported
  disciplined : a.Disciplined
  saved : a.Saved

theorem Step.accounted {e : Effect} {a b : Account} (h : Step e a b) (ha : a.Kept) :
    b.Accounted := by
  cases h with
  | traffic h => exact h.accounted ha.accounted
  | upkeep h => exact h.accounted ha.accounted
  | change h => exact h.accounted ha.accounted
  | creation h => exact h.accounted ha.accounted
  | writing h => exact h.accounted ha.numbered ha.accounted
  | nesting h => exact h.accounted ha.chained ha.accounted
  | transfer h => exact h.accounted ha.accounted

theorem Step.kept {e : Effect} {a b : Account} (h : Step e a b) (ha : a.Kept) : b.Kept where
  accounted := h.accounted ha
  numbered := h.numbered ha.accounted ha.numbered
  chained := h.chained ha.accounted ha.numbered ha.chained
  tabled := h.tabled ha.accounted (h.accounted ha) ha.tabled
  fresh := h.fresh ha.accounted (h.accounted ha) ha.fresh
  seasoned := h.seasoned ha.accounted (h.accounted ha) ha.seasoned
  listed := h.listed ha.accounted ha.listed
  imported := h.imported ha.accounted ha.numbered ha.chained ha.listed ha.imported
  disciplined := h.disciplined ha.accounted (h.accounted ha) ha.disciplined
  saved := h.saved ha.accounted ha.numbered ha.chained ha.saved

theorem Path.kept {E : Effect → Prop} {a b : Account} (h : Path E a b) (ha : a.Kept) : b.Kept :=
  h.keeps (fun _ _ _ hs => hs.kept) ha

theorem Path.marks {E : Effect → Prop} {a b : Account} (h : Path E a b) (ha : a.Kept)
    (hE : ∀ e, E e → e.Calm) : Marks a.store b.store := by
  induction h with
  | refl => exact .refl _
  | tail h he hs ih => exact ih.trans (hs.marks (h.kept ha).accounted (hE _ he))

/-- Objects are never brought back to life. -/
theorem Path.precedes {E : Effect → Prop} {a b : Account} (h : Path E a b) (ha : a.Kept) :
    a.store.objects.Precedes b.store.objects := by
  induction h with
  | refl => exact Objects.Precedes.refl _
  | tail h he hs ih => exact ih.trans (hs.precedes (h.kept ha).accounted)

/-- The level changes where regions are entered or left, and nowhere else. -/
theorem Path.level {E : Effect → Prop} {a b : Account} (h : Path E a b) (ha : a.Kept)
    (hE : ∀ e, E e → e ≠ .enter ∧ ∀ folds level, e ≠ .leave folds level) :
    b.store.level = a.store.level := by
  induction h with
  | refl => rfl
  | tail h he hs ih => exact (hs.level (h.kept ha).accounted (hE _ he)).trans ih

/-- Whatever an account refers to has the shape that the reference says. -/
theorem Account.Kept.fits {a : Account} (ha : a.Kept) {v : Value} (hv : v ∈ a.refs) :
    a.store.heap.Fits v :=
  ha.accounted.balanced.fits v hv

section

variable {s : Store} {F : Refs} {C : Charges} {id : ContainerId} {c : Container}

/-- What the planes have on record of a container fits its home. -/
theorem Account.Kept.trail (ha : Kept ⟨s, F, C, none⟩) (hc : s.container? id = some c) :
    Trail (s.stays id) c.home :=
  ha.disciplined.trail (home?_of_container hc)

/-- No container is at home above the current plane. -/
theorem Account.Kept.home_le (ha : Kept ⟨s, F, C, none⟩) (hc : s.container? id = some c) :
    c.home ≤ s.level := by
  have hle := (ha.trail hc).home_le
  unfold Store.stays at hle
  rwa [List.length_map] at hle

end

/-! ## What is in hand -/

/-- Whether a value is among the references, if it counts as one at all. -/
def Refs.Covers (F : Refs) (v : Value) : Prop := v.isCounted = true → v ∈ F

theorem Refs.covers_nil (F : Refs) : F.Covers .nil := nofun

/-- Whoever has a reference to a value has one to what it reads as. -/
theorem Refs.Covers.scrubbed {F : Refs} {s : Store} {v w : Value} (hv : F.Covers v)
    (hw : s.scrubbed v = .ok w) : F.Covers w := by
  rcases scrubbed_cases hw with rfl | rfl
  · exact hv
  · exact F.covers_nil

theorem Effect.calm_of_still : ∀ e : Effect, e = .still → e.Calm := by
  rintro e rfl
  exact trivial

section

variable {E : Effect → Prop} {a b : Account} {v : Value}

theorem Refs.Covers.of_flight (hv : a.flight.Covers v) : a.refs.Covers v :=
  fun hc => Account.mem_refs_of_flight (hv hc)

theorem Account.Kept.fits_of_covers (ha : a.Kept) (hv : a.flight.Covers v) :
    a.store.heap.Fits v := by
  cases hc : v.isCounted with
  | false => exact Heap.fits_of_not_counted hc
  | true => exact ha.fits (Account.mem_refs_of_flight (hv hc))

/-- What is still referred to stands for the same thing as long as slots keep their marks. -/
theorem Path.stands (h : Path E a b) (ha : a.Kept) (hE : ∀ e, E e → e.Calm)
    (hv : b.refs.Covers v) : Stands a.store b.store v :=
  (h.marks ha hE).stands (h.kept ha).accounted.balanced hv

/-- A value that is alive stays alive on a calm path. -/
theorem Path.alive (h : Path E a b) (ha : a.Kept) (hE : ∀ e, E e → e.Calm)
    (hv : b.refs.Covers v) (halive : a.store.Alive v) : b.store.Alive v :=
  (h.stands ha hE hv).alive (h.marks ha hE).objects halive

/-- A calm path changes nothing in how a value is seen that is still referred to. -/
theorem Path.seen (h : Path E a b) (ha : a.Kept) (hE : ∀ e, E e → e.Calm)
    (hv : b.refs.Covers v) : b.store.seen v = a.store.seen v := by
  unfold Store.seen
  rw [(h.stands ha hE hv).lost (h.marks ha hE).objects]

/-! ## Mappings in hand -/

variable {id : ContainerId} {c : Container} {values : Array Value}

/-- The pairs of a resident mapping are a table, and its overlay goes with it. -/
theorem Account.Kept.tables (ha : a.Kept) (hc : a.store.container? id = some c)
    (hk : c.kind = .mapping) (he : c.elements = .resident values) :
    a.store.heap.Table (Pair.ofBuffer values) ∧
      ∀ o ∈ c.overlay, a.store.heap.Pending (Pair.ofBuffer values) o := by
  have ht := ha.tabled.content (content?_of_container hc) hk
  have hpairs : (c.content a.store.swap).pairs = Pair.ofBuffer values :=
    congrArg Pair.ofBuffer (Container.content_buffer he _)
  exact ⟨hpairs ▸ ht.table, fun o ho => hpairs ▸ ht.pending ho⟩

/-- Whereabouts in a mapping stay as long as slots keep their marks. -/
theorem Path.located {key : Value} {w : Mapping.Whereabouts} {overlay : Option Overlay}
    (h : Path E a b) (ha : a.Kept) (hE : ∀ e, E e → e.Calm) (hkey : b.refs.Covers key)
    (hc : b.store.container? id = some c) (he : c.elements = .resident values)
    (ho : c.overlay = overlay) (hl : Mapping.Located a.store.heap overlay values key w) :
    Mapping.Located b.store.heap overlay values key w := by
  subst ho
  have hheld : ∀ v ∈ (c.content b.store.swap).held,
      b.store.heap.identity v = a.store.heap.identity v := fun v hv =>
    (h.stands ha hE fun _ => Account.mem_refs_of_store
      (Content.mem_refs (content?_of_container hc) hv)).identity
  have hbuffer := Container.content_buffer he b.store.swap
  refine hl.congr (h.stands ha hE hkey).identity (fun v hv => hheld v ?_) fun o ho j d hd => ?_
  · exact Content.mem_held_of_buffer (hbuffer ▸ hv)
  · exact hheld _ (Content.mem_held_of_entry ho hd).1

end

end PlaneStore
