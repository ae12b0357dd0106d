import PlaneStore.Proofs.Inversion.Basic

/-!
# Handles of a heap

Whatever is asked of a heap that started empty, a handle that is given out was not in use, and is
that of the slot freed last if there is one. Nothing but what was asked for changes. A string counts
the references to it, so it goes with as many releases as it was retained, and one.
-/

namespace PlaneStore

namespace Heap

/-- What can be asked of a heap. -/
inductive Query where
  | insert (c : Container)
  | remove (id : ContainerId)
  /-- Writes to a container. -/
  | write (id : ContainerId) (c : Container)
  | alloc (text : String)
  | retain (id : StringId)
  | release (id : StringId)
  | takeTag
  | observeTag (tag : Nat)

inductive Answer where
  | done
  | container (id : ContainerId)
  | removed (c : Container)
  | string (id : StringId)
  | tag (n : Nat)

/-- The answer of a heap, and what becomes of it. -/
def ask (h : Heap) : Query → Except Fault (Answer × Heap)
  | .insert c => return (.container h.nextId, h.insert c)
  | .remove id => do
    let (c, h) ← h.remove id
    return (.removed c, h)
  | .write id c => return (.done, ← h.modify id fun _ => c)
  | .alloc text => return (.string (h.allocString text).1, (h.allocString text).2)
  | .retain id => return (.done, ← h.retainString id)
  | .release id => return (.done, ← h.releaseString id)
  | .takeTag => return (.tag h.takeTag.1, h.takeTag.2)
  | .observeTag tag => return (.done, h.observeTag tag)

/-- What may be asked: nothing is removed, written to, retained or released that is not there. -/
def Admits (h : Heap) : Query → Prop
  | .remove id | .write id _ => h.contains id = true
  | .retain id | .release id => h.containsString id = true
  | _ => True

/-- What was asked of a heap, and answered, the last in front. -/
abbrev Trace := List (Query × Answer)

/-- A heap that was empty in the beginning, and what was asked of it since. -/
inductive Reached : Trace → Heap → Prop
  | start : Reached [] {}
  | ask {t : Trace} {h h' : Heap} {q : Query} {a : Answer} (ht : Reached t h) (hq : h.Admits q)
    (ha : h.ask q = .ok (a, h')) : Reached ((q, a) :: t) h'

/-- How many requests of a kind there were since a handle was given to a string. -/
def since (id : StringId) (p : Query → Bool) : Trace → Nat
  | [] => 0
  | (q, a) :: t =>
    match a with
    | .string other => if other = id then 0 else since id p t
    | _ => since id p t + if p q then 1 else 0

def Query.retains (id : StringId) : Query → Bool
  | .retain other => other = id
  | _ => false

def Query.releases (id : StringId) : Query → Bool
  | .release other => other = id
  | _ => false

/-- How often a string was retained since it was stored. -/
def retains (id : StringId) (t : Trace) : Nat := since id (Query.retains id) t

/-- How often a string was released since it was stored. -/
def releases (id : StringId) (t : Trace) : Nat := since id (Query.releases id) t

/-- The right answer to a query after others, and the right change of the heap. -/
def Does (h : Heap) (t : Trace) : Query → Answer → Heap → Prop
  | .insert c, .container id, h' =>
    h.containers.Fills id.slot c h'.containers ∧ h'.strings = h.strings
  | .remove id, .removed c, h' =>
    h.containers.Empties id.slot c h'.containers ∧ h'.strings = h.strings
  | .write id c, .done, h' =>
    (∃ old, h.containers.Rewrites id.slot old c h'.containers) ∧ h'.strings = h.strings
  | .alloc text, .string id, h' =>
    h.strings.Fills id.slot { text } h'.strings ∧ h'.containers = h.containers
  | .retain id, .done, h' =>
    (∃ e, h.strings.Rewrites id.slot e { e with refcount := e.refcount + 1 } h'.strings) ∧
      h'.containers = h.containers
  | .release id, .done, h' =>
    (∃ e,
      -- The string goes with the release that makes up for the first reference and all others.
      if releases id t + 1 = 1 + retains id t then h.strings.Empties id.slot e h'.strings
      else h.strings.Rewrites id.slot e { e with refcount := e.refcount - 1 } h'.strings) ∧
      h'.containers = h.containers
  | .takeTag, .tag n, h' =>
    n = h.nextTag ∧ n < h'.nextTag ∧ h'.containers = h.containers ∧ h'.strings = h.strings
  | .observeTag tag, .done, h' => h.nextTag ≤ h'.nextTag ∧ (tag < maxTag → tag < h'.nextTag) ∧
      h'.containers = h.containers ∧ h'.strings = h.strings
  | _, _, _ => False

/-- The next tag after a query: only taking and observing tags touches their counter. -/
def Query.tagAfter (n : Nat) : Query → Nat
  | .takeTag => n + 1
  | .observeTag tag => max n (min (tag + 1) maxTag)
  | _ => n

/-- How many tags were taken. -/
def taken (t : Trace) : Nat :=
  t.countP fun
    | (.takeTag, _) => true
    | _ => false

/-- What a heap is between queries. -/
structure Orderly (t : Trace) (h : Heap) : Prop where
  /-- The free lists hold the empty slots, each once, and the others are counted. -/
  containers : h.containers.Sound
  strings : h.strings.Sound
  refcount : ∀ {id e}, h.strings.get? id.slot = some e →
    0 < e.refcount ∧ e.refcount + releases id t = 1 + retains id t

section

variable {t : Trace} {h h' : Heap} {q : Query} {a : Answer} {id : StringId} {e : StringEntry}

theorem eq_of_slot {a b : StringId} (h : a.slot = b.slot) : a = b := by
  obtain ⟨i⟩ := a
  obtain ⟨j⟩ := b
  exact congrArg StringId.mk h

/-- What has nothing to do with a text does not count as retaining it. -/
theorem retains_other (ha : ∀ other, a ≠ .string other) (hq : q.retains id = false) :
    retains id ((q, a) :: t) = retains id t := by
  cases a with
  | string other => exact absurd rfl (ha other)
  | _ => simp [retains, since, hq]

theorem releases_other (ha : ∀ other, a ≠ .string other) (hq : q.releases id = false) :
    releases id ((q, a) :: t) = releases id t := by
  cases a with
  | string other => exact absurd rfl (ha other)
  | _ => simp [releases, since, hq]

theorem retains_self : retains id ((.retain id, .done) :: t) = retains id t + 1 := by
  simp [retains, since, Query.retains]

theorem releases_self : releases id ((.release id, .done) :: t) = releases id t + 1 := by
  simp [releases, since, Query.releases]

theorem orderly_start : Orderly [] {} where
  containers := Slab.sound_empty
  strings := Slab.sound_empty
  refcount {id e} he := by
    rw [Slab.get?_of_size_le (Nat.zero_le _)] at he
    cases he

namespace Orderly

/-- What has nothing to do with strings leaves their counts as they are. -/
theorem of_strings (ho : h.Orderly t) (hc : h'.containers.Sound) (hs : h'.strings = h.strings)
    (ha : ∀ other, a ≠ .string other) (hretain : ∀ id, q.retains id = false)
    (hrelease : ∀ id, q.releases id = false) : h'.Orderly ((q, a) :: t) where
  containers := hc
  strings := hs ▸ ho.strings
  refcount {id e} he := by
    rw [hs] at he
    rw [retains_other ha (hretain id), releases_other ha (hrelease id)]
    exact ho.refcount he

/-- A text that was stored has one reference and is new. -/
theorem alloc (ho : h.Orderly t) (text : String) :
    (h.allocString text).2.Orderly ((.alloc text, .string (h.allocString text).1) :: t) where
  containers := ho.containers
  strings := ho.strings.insert
  refcount {id e} he := by
    have hget := (Slab.fills_insert ho.strings ({ text } : StringEntry)).get? id.slot
    have he := hget.symm.trans he
    by_cases hid : (h.allocString text).1 = id
    · subst hid
      obtain rfl := Option.some.inj ((if_pos rfl).symm.trans he)
      simp [retains, releases, since]
    · have hslot : h.strings.nextCell ≠ id.slot := fun hs => hid (eq_of_slot hs)
      rw [if_neg hslot] at he
      simp only [retains, releases, since, if_neg hid]
      exact ho.refcount he

/-- To retain a text is counted on both sides. -/
theorem retain (ho : h.Orderly t) (he : h.strings.get? id.slot = some e) :
    Orderly ((.retain id, .done) :: t)
      { h with strings := h.strings.set id.slot { e with refcount := e.refcount + 1 } } where
  containers := ho.containers
  strings := ho.strings.set he
  refcount {other d} hd := by
    have hcount := ho.refcount he
    have hget := (Slab.rewrites_set he { e with refcount := e.refcount + 1 }).get? other.slot
    have hd := hget.symm.trans hd
    have hreleases : releases other ((.retain id, .done) :: t) = releases other t :=
      releases_other nofun rfl
    rw [hreleases]
    by_cases hid : id = other
    · subst hid
      obtain rfl := Option.some.inj ((if_pos rfl).symm.trans hd)
      rw [retains_self]
      constructor
      · simp
      · simp only
        omega
    · have hretains : retains other ((.retain id, .done) :: t) = retains other t :=
        retains_other nofun (decide_eq_false hid)
      rw [if_neg fun hs => hid (eq_of_slot hs)] at hd
      rw [hretains]
      exact ho.refcount hd

/-- With the last reference the string goes, so nothing is left to be counted. -/
theorem release_last (ho : h.Orderly t) (he : h.strings.get? id.slot = some e) :
    Orderly ((.release id, .done) :: t) { h with strings := h.strings.erase id.slot } where
  containers := ho.containers
  strings := ho.strings.erase he
  refcount {other d} hd := by
    have hd := ((Slab.empties_erase he).get? other.slot).symm.trans hd
    split at hd
    · cases hd
    · next hslot =>
      have hid : id ≠ other := fun hs => hslot (by rw [hs])
      have hretains : retains other ((.release id, .done) :: t) = retains other t :=
        retains_other nofun rfl
      have hreleases : releases other ((.release id, .done) :: t) = releases other t :=
        releases_other nofun (decide_eq_false hid)
      rw [hretains, hreleases]
      exact ho.refcount hd

/-- A release before the last is counted on both sides. -/
theorem release (ho : h.Orderly t) (he : h.strings.get? id.slot = some e) (hlast : 1 < e.refcount) :
    Orderly ((.release id, .done) :: t)
      { h with strings := h.strings.set id.slot { e with refcount := e.refcount - 1 } } where
  containers := ho.containers
  strings := ho.strings.set he
  refcount {other d} hd := by
    have hcount := ho.refcount he
    have hget := (Slab.rewrites_set he { e with refcount := e.refcount - 1 }).get? other.slot
    have hd := hget.symm.trans hd
    have hretains : retains other ((.release id, .done) :: t) = retains other t :=
      retains_other nofun rfl
    rw [hretains]
    by_cases hid : id = other
    · subst hid
      obtain rfl := Option.some.inj ((if_pos rfl).symm.trans hd)
      rw [releases_self]
      simp only
      omega
    · have hreleases : releases other ((.release id, .done) :: t) = releases other t :=
        releases_other nofun (decide_eq_false hid)
      rw [if_neg fun hs => hid (eq_of_slot hs)] at hd
      rw [hreleases]
      exact ho.refcount hd

/-- The last reference is given up with as many releases as there were references. -/
theorem last_iff (ho : h.Orderly t) (he : h.strings.get? id.slot = some e) :
    releases id t + 1 = 1 + retains id t ↔ ¬ 1 < e.refcount := by
  have hcount := ho.refcount he
  omega

/-- Whatever may be asked is answered, and rightly. -/
theorem answers (ho : h.Orderly t) (hq : h.Admits q) :
    ∃ a h', h.ask q = .ok (a, h') ∧ h.Does t q a h' ∧ h'.Orderly ((q, a) :: t) := by
  cases q with
  | insert c =>
    refine ⟨.container h.nextId, h.insert c, rfl, ⟨Slab.fills_insert ho.containers c, rfl⟩, ?_⟩
    exact ho.of_strings ho.containers.insert rfl nofun (fun _ => rfl) fun _ => rfl
  | remove id =>
    obtain ⟨c, hc⟩ := Option.isSome_iff_exists.mp hq
    refine ⟨.removed c, _, Fallible.bind_eq_ok.mpr ⟨(c, _), remove_eq_ok.mpr ⟨hc, rfl⟩, rfl⟩,
      ⟨Slab.empties_erase hc, rfl⟩, ?_⟩
    exact ho.of_strings (ho.containers.erase hc) rfl nofun (fun _ => rfl) fun _ => rfl
  | write id c =>
    obtain ⟨old, hc⟩ := Option.isSome_iff_exists.mp hq
    have hwrite : h.modify id (fun _ => c) =
        .ok { h with containers := h.containers.set id.slot c } :=
      modifyM_eq_ok.mpr ⟨old, c, get_eq_ok.mpr hc, rfl, rfl⟩
    refine ⟨.done, _, Fallible.bind_eq_ok.mpr ⟨_, hwrite, rfl⟩,
      ⟨⟨old, Slab.rewrites_set hc c⟩, rfl⟩, ?_⟩
    exact ho.of_strings (ho.containers.set hc) rfl nofun (fun _ => rfl) fun _ => rfl
  | alloc text =>
    exact ⟨.string (h.allocString text).1, (h.allocString text).2, rfl,
      ⟨Slab.fills_insert ho.strings { text }, rfl⟩, ho.alloc text⟩
  | retain id =>
    obtain ⟨e, he⟩ := Option.isSome_iff_exists.mp hq
    exact ⟨.done, _, Fallible.bind_eq_ok.mpr ⟨_, retainString_eq_ok.mpr ⟨e, he, rfl⟩, rfl⟩,
      ⟨⟨e, Slab.rewrites_set he _⟩, rfl⟩, ho.retain he⟩
  | release id =>
    obtain ⟨e, he⟩ := Option.isSome_iff_exists.mp hq
    have hlast := ho.last_iff he
    by_cases hmore : 1 < e.refcount
    · have hrelease := releaseString_eq_ok.mpr ⟨e, he, (if_pos hmore).symm⟩
      refine ⟨.done, _, Fallible.bind_eq_ok.mpr ⟨_, hrelease, rfl⟩, ⟨⟨e, ?_⟩, rfl⟩,
        ho.release he hmore⟩
      rw [if_neg fun hl => hlast.mp hl hmore]
      exact Slab.rewrites_set he _
    · have hrelease := releaseString_eq_ok.mpr ⟨e, he, (if_neg hmore).symm⟩
      refine ⟨.done, _, Fallible.bind_eq_ok.mpr ⟨_, hrelease, rfl⟩, ⟨⟨e, ?_⟩, rfl⟩,
        ho.release_last he⟩
      rw [if_pos (hlast.mpr hmore)]
      exact Slab.empties_erase he
  | takeTag =>
    refine ⟨.tag h.nextTag, h.takeTag.2, rfl, ⟨rfl, Nat.lt_succ_self _, rfl, rfl⟩, ?_⟩
    exact ho.of_strings ho.containers rfl nofun (fun _ => rfl) fun _ => rfl
  | observeTag tag =>
    refine ⟨.done, h.observeTag tag, rfl, ⟨Nat.le_max_left _ _, ?_, rfl, rfl⟩, ?_⟩
    · intro htag
      show tag < max h.nextTag (min (tag + 1) maxTag)
      omega
    · exact ho.of_strings ho.containers rfl nofun (fun _ => rfl) fun _ => rfl

end Orderly

/-- Taking and observing tags moves the counter, and no other query does. -/
theorem nextTag_of_ask (hask : h.ask q = .ok (a, h')) : h'.nextTag = q.tagAfter h.nextTag := by
  cases q with
  | remove id =>
    obtain ⟨⟨c, g⟩, hg, hask⟩ := Fallible.bind_eq_ok.mp hask
    obtain ⟨rfl, rfl⟩ := Prod.mk.inj (Fallible.pure_eq_ok.mp hask)
    obtain ⟨-, rfl⟩ := remove_eq_ok.mp hg
    rfl
  | write id c =>
    obtain ⟨g, hg, hask⟩ := Fallible.bind_eq_ok.mp hask
    obtain ⟨rfl, rfl⟩ := Prod.mk.inj (Fallible.pure_eq_ok.mp hask)
    obtain ⟨old, new, -, -, rfl⟩ := modifyM_eq_ok.mp hg
    rfl
  | retain id =>
    obtain ⟨g, hg, hask⟩ := Fallible.bind_eq_ok.mp hask
    obtain ⟨rfl, rfl⟩ := Prod.mk.inj (Fallible.pure_eq_ok.mp hask)
    obtain ⟨e, -, rfl⟩ := retainString_eq_ok.mp hg
    rfl
  | release id =>
    obtain ⟨g, hg, hask⟩ := Fallible.bind_eq_ok.mp hask
    obtain ⟨rfl, rfl⟩ := Prod.mk.inj (Fallible.pure_eq_ok.mp hask)
    obtain ⟨e, -, rfl⟩ := releaseString_eq_ok.mp hg
    split <;> rfl
  | insert c | alloc text | takeTag | observeTag tag =>
    obtain ⟨-, rfl⟩ := Prod.mk.inj (Fallible.pure_eq_ok.mp hask)
    rfl

/--
Tags do not run out: with observed tags below `m` and `k` tags taken, the next one is at most
`m + k`, or `1 + k`. Below `2 ^ 63` for both, it has 64 bits.
-/
theorem Reached.nextTag_le {m : Nat} (hh : Reached t h)
    (hobserved : ∀ tag a, (.observeTag tag, a) ∈ t → tag < m) :
    h.nextTag ≤ max 1 m + taken t := by
  induction hh with
  | start => exact Nat.le_max_left 1 m
  | @ask t h h' q a hh hq hask ih =>
    have hle := ih fun tag a ha => hobserved tag a (List.mem_cons_of_mem _ ha)
    rw [nextTag_of_ask hask]
    cases q with
    | takeTag =>
      have htaken : taken ((.takeTag, a) :: t) = taken t + 1 := List.countP_cons_of_pos rfl
      simp only [Query.tagAfter]
      omega
    | observeTag tag =>
      have htag := hobserved tag a List.mem_cons_self
      have htaken : taken ((.observeTag tag, a) :: t) = taken t :=
        List.countP_cons_of_neg Bool.false_ne_true
      simp only [Query.tagAfter]
      omega
    | _ => exact hle

theorem Reached.orderly (hh : Reached t h) : h.Orderly t := by
  induction hh with
  | start => exact orderly_start
  | ask hh hq hask ih =>
    obtain ⟨a, h', hask', -, ho⟩ := ih.answers hq
    obtain ⟨rfl, rfl⟩ := Prod.mk.inj (Except.ok.inj (hask'.symm.trans hask))
    exact ho

end

end Heap

end PlaneStore
