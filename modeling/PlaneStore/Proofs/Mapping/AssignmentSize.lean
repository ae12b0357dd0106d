import PlaneStore.Proofs.Mapping.EntryMap

/-!
# How large a mapping is

The size of a mapping is the number of its keys, be they among the sorted pairs, in the overlay or
in both. An assignment is refused if a reader sees the key as nil, or if it would add a key and
there is no room for one more.
-/

namespace PlaneStore

open Store

section

variable {s s' : Store} {F : Refs} {C : Charges} {id : ContainerId} {key value : Value}

/-- The size of a mapping is the number of its keys. -/
theorem Account.Kept.exists_keys {a : Account} {c : Container} (ha : a.Kept)
    (hc : a.store.container? id = some c) (hk : c.kind = .mapping) :
    ∃ ks : List Identity, ks.Nodup ∧ ks.length = c.size ∧
      ∀ k, k ∈ ks ↔ a.store.entryAt? id k ≠ none := by
  have hx := content?_of_container hc
  obtain ⟨ks, hnodup, hlength, hmem⟩ := (ha.tabled.content hx hk).exists_keys hk
  exact ⟨ks, hnodup, hlength.trans (ha.accounted.size_content hc),
    fun k => (entryAt?_of_content hx k).symm ▸ hmem k⟩

/-- How an assignment to a mapping with so many keys ends. -/
def Mapping.verdict (s : Store) (id : ContainerId) (key value : Value) (size : Nat) :
    Except Refusal Unit :=
  if s.seen key = .nil then .error (.expected "live key" key)
  else if s.entryAt? id (s.heap.identity key) = none ∧ s.seen value ≠ .nil ∧
      s.limits.containerSize < size + 1 then
    .error (.containerTooLarge (size + 1) s.limits.containerSize)
  else .ok ()

/-- An assignment is refused for want of a key or, if it adds one, for want of room. -/
theorem mapAssign_answers {r : Except Refusal Unit} (ha : Account.Kept ⟨s, F, C, none⟩)
    (hm : F.Covers (.container .mapping id)) (hkey : F.Covers key) (hvalue : F.Covers value)
    (h : Mapping.assign id key value s = .ok (r, s')) :
    ∃ ks : List Identity, ks.Nodup ∧ (∀ k, k ∈ ks ↔ s.entryAt? id k ≠ none) ∧
      r = Mapping.verdict s id key value ks.length := by
  rcases Mapping.assign_eq_ok h with
    ⟨hx, rfl, rfl⟩ | ⟨hx, hlive, s₁, w, found, h₁, hw, h₂, hassigns⟩
  · obtain ⟨c, hc⟩ := (ha.there_of_flight hm).exists_container
    obtain ⟨ks, hnodup, -, hkeys⟩ := ha.exists_keys hc ((ha.fits_of_covers hm).mapping hc)
    exact ⟨ks, hnodup, hkeys, (if_pos (scrubbed_eq hx).symm).symm⟩
  have hseen : s.seen key ≠ .nil := fun hn => hlive ((scrubbed_eq hx).trans hn)
  obtain ⟨hpath, c, values, -, hc⟩ :=
    walk_faultIn (E := (· = .still)) (F := F) (C := C) (q := none) rfl h₁
  have ha₁ := hpath.kept ha
  obtain rfl : w = s.seen value :=
    (scrubbed_eq hw).trans (hpath.seen ha Effect.calm_of_still hvalue.of_flight)
  have hk := (ha₁.fits_of_covers hm).mapping hc
  obtain ⟨ht, hp⟩ := ha₁.tables hc hk rfl
  obtain ⟨-, hfound⟩ := Mapping.lookup_eq_ok hc rfl ht hp h₂
  obtain ⟨ks, hnodup, hlength, hkeys⟩ := ha₁.exists_keys hc hk
  have hlimits : s₁.limits = s.limits := hpath.limits ha
  have hidentity := (hpath.stands ha Effect.calm_of_still (Refs.Covers.of_flight hkey)).identity
  have habsent : found.isNil = true ↔ s.entryAt? id (s.heap.identity key) = none := by
    rw [hfound, hidentity, ← faultIn_entryAt? ha hm h₁, entryAt?_of_resident hc rfl]
    cases hv : s₁.heap.seek (Pair.ofBuffer values) c.overlay (s.heap.identity key) with
    | none => exact iff_of_true rfl rfl
    | some v =>
      refine iff_of_false (fun hn => ?_) (Option.some_ne_none v)
      obtain rfl := Value.isNil_iff.mp hn
      exact Heap.seek_ne_nil ht hp hv
  refine ⟨ks, hnodup, fun k => by rw [hkeys, faultIn_entryAt? ha hm h₁], ?_⟩
  unfold Mapping.verdict
  rw [if_neg hseen, hlength, ← hlimits]
  cases hassigns with
  | idle hnil => exact (if_neg fun hfull => hfull.2.1 hnil).symm
  | full hsome hgrowth =>
    obtain ⟨hnew, hlt, he⟩ := (Mapping.requireGrowth_eq_ok hc hgrowth).2.resolve_left nofun
    rw [Bool.not_eq_eq_eq_not, Bool.not_false] at hnew
    rw [if_pos ⟨habsent.mp hnew, hsome.resolve_right fun hf => hf (Value.isNil_iff.mp hnew), hlt⟩]
    exact he
  | changed hsome hgrowth =>
    have hroom := ((Mapping.requireGrowth_eq_ok hc hgrowth).2.resolve_right
      fun hfull => by cases hfull.2.2).2
    refine (if_neg fun hfull => ?_).symm
    have hlt := hroom (by rw [habsent.mpr hfull.1]; rfl)
    omega

/-- An assignment that is not refused writes or deletes one entry, and else all stay. -/
theorem mapAssign_entryAt? {r : Except Refusal Unit} (ha : Account.Kept ⟨s, F, C, none⟩)
    (hm : F.Covers (.container .mapping id)) (hkey : F.Covers key) (hvalue : F.Covers value)
    (h : Mapping.assign id key value s = .ok (r, s')) (k : Identity) :
    s'.entryAt? id k =
      if r = .ok () ∧ s.heap.identity key = k then
        if s.seen value = .nil then none else some (s.seen value)
      else s.entryAt? id k := by
  have hwalk := walk_mapAssign ha hm hkey hvalue h
  cases r with
  | error e =>
    have hstill : Path (· = .still) ⟨s, F, C, none⟩ ⟨s', F, C, none⟩ := hwalk
    rw [if_neg fun hok => by cases hok.1]
    exact hstill.entryAt? ha Effect.leaves_of_still hm
  | ok u =>
    have hassigned : Mapping.Assigned id (s.heap.identity key) (s.seen value) ⟨s, F, C, none⟩
        ⟨s', F, C, none⟩ := hwalk
    refine (hassigned.entryAt? ha hm k).trans (if_congr ?_ rfl rfl)
    exact (and_iff_right rfl).symm

end

end PlaneStore
