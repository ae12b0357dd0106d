import PlaneStore.Proofs.Mapping.EntryMap
import PlaneStore.Proofs.Walk.Creation
import PlaneStore.Proofs.Totality.Creation

/-!
# What is made

A container that is made of values takes a reference to each of them, has one reference itself, and
leaves the contents of all others alone. It goes to a slot that was free, belongs to the owner it is
made for, and its home is the current plane. The only thing that can stand against it is a limit.
-/

namespace PlaneStore

open Store

namespace Store

variable {s t u : Store} {R S : Refs} {v : Value}

/-! ## Texts -/

/-- The texts of strings stay as they are. -/
def SameTexts (s t : Store) : Prop := ∀ i : Nat,
  (t.heap.strings.get? i).map StringEntry.text = (s.heap.strings.get? i).map StringEntry.text

theorem SameTexts.identity (h : SameTexts s t) (v : Value) :
    t.heap.identity v = s.heap.identity v := by
  cases v with
  | string id => simp only [Heap.identity, Heap.place, h id.slot]
  | _ => rfl

/-! ## Taking references -/

/-- References were taken, and apart from counts, sweep lists and imports nothing has changed. -/
structure Takes (s : Store) (R : Refs) (t : Store) : Prop where
  sound : s.heap.containers.Sound → t.heap.containers.Sound
  content : ∀ id, t.content? id = s.content? id
  count : ∀ x, t.heap.count? x = (s.heap.count? x).map (· + R.tally x)
  nextId : t.heap.nextId = s.heap.nextId
  nextTag : t.heap.nextTag = s.heap.nextTag
  level : t.level = s.level
  objects : t.objects = s.objects
  texts : SameTexts s t

protected theorem Takes.trans (h : Takes s R t) (h' : Takes t S u) : Takes s (R + S) u where
  sound hs := h'.sound (h.sound hs)
  content id := (h'.content id).trans (h.content id)
  count x := by
    rw [h'.count, h.count, Option.map_map]
    congr 1
    funext n
    simp only [Function.comp_apply, Refs.tally_add, add_assoc]
  nextId := h'.nextId.trans h.nextId
  nextTag := h'.nextTag.trans h.nextTag
  level := h'.level.trans h.level
  objects := h'.objects.trans h.objects
  texts i := (h'.texts i).trans (h.texts i)

theorem Alike.takes (h : Alike s t) : Takes s 0 t where
  sound := (sameCounts_of_alike h).containers
  content := h.content?
  count x := by
    rw [(sameCounts_of_alike h).count]
    simp
  nextId := by
    simp only [Heap.nextId, Slab.nextCell, h.free, h.cells]
  nextTag := h.nextTag
  level := congrArg List.length h.planes
  objects := h.objects
  texts i := by rw [h.strings]

theorem Retained.takes (h : Retained s v t) : Takes s {v} t := by
  cases h with
  | scalar hv =>
    refine ⟨fun hs => hs, fun _ => rfl, fun x => ?_, rfl, rfl, rfl, rfl, fun _ => rfl⟩
    have hnone : v.target? ≠ some x := fun hx => by
      rw [Value.isCounted_iff.mpr ⟨x, hx⟩] at hv
      cases hv
    simp [Refs.tally_singleton, hnone]
  | @text id e he =>
    refine ⟨fun hs => hs, fun _ => rfl, fun x => ?_, rfl, rfl, rfl, rfl, fun i => ?_⟩
    · rw [count?_withString he, Refs.tally_singleton]
      by_cases hx : x = .string id
      · subst hx
        simp [Heap.count?, he, Value.target?]
      · have hne : (Value.string id).target? ≠ some x := fun h => hx (Option.some.inj h).symm
        rw [if_neg hx, if_neg hne]
        simp
    · by_cases hi : id.slot = i
      · subst hi
        rw [he, show (s.withString id _).heap.strings.get? id.slot = _ from Slab.get?_set_self he]
        rfl
      · rw [show (s.withString id _).heap.strings.get? i = _ from Slab.get?_set_of_ne hi]
  | @container shape id c hc =>
    refine ⟨fun hs => hs.set hc, fun other => ?_, fun x => ?_, ?_, rfl, rfl, rfl, fun _ => rfl⟩
    · by_cases h : id = other
      · subst h
        rw [content?_of_container (container?_withContainer_self hc), content?_of_container hc]
        rfl
      · simp only [content?, container?_withContainer_of_ne h]
        rfl
    · rw [count?_withContainer hc, Refs.tally_singleton]
      by_cases hx : x = .container id
      · subst hx
        have hcount : s.heap.count? (.container id) = some c.refcount :=
          congrArg (Option.map Container.refcount) hc
        simp [hcount, Value.target?]
      · have hne : (Value.container shape id).target? ≠ some x := fun h =>
          hx (Option.some.inj h).symm
        rw [if_neg hx, if_neg hne]
        simp
    · simp only [Heap.nextId, Slab.nextCell, withContainer, Slab.set, Array.size_setIfInBounds]

theorem takes_retains {vs : List Value} {r : PUnit} (h : vs.forM retain s = .ok (r, t)) :
    Takes s ↑vs t := by
  induction vs generalizing s with
  | nil =>
    obtain rfl := StoreM.forM_nil_eq_ok.mp h
    exact (Alike.refl s).takes
  | cons v vs ih =>
    obtain ⟨_, s₁, h₁, h⟩ := StoreM.forM_cons_eq_ok.mp h
    have hall := (retain_eq_ok h₁).takes.trans (ih h)
    rwa [Multiset.singleton_add, Multiset.cons_coe] at hall

/-- Copies are what the values are seen as, with one reference taken to each. -/
theorem takes_copies {values copied : List Value} (h : copies values s = .ok (copied, t)) :
    copied = values.map s.seen ∧ Takes s ↑copied t := by
  obtain ⟨seen, s₁, h₁, h⟩ := StoreM.bind_eq_ok.mp h
  obtain ⟨rfl, hseen⟩ := mapM_scrub_eq_ok h₁
  obtain ⟨_, s₂, h₂, h⟩ := StoreM.bind_eq_ok.mp h
  obtain ⟨rfl, rfl⟩ := StoreM.pure_eq_ok.mp h
  exact ⟨map_seen_of_forall₂ hseen, takes_retains h₂⟩

/-! ## New containers -/

/--
A container with content `x` is new, and has one reference. All others have their contents, and
counts went up by the references that were taken.
-/
structure Bears (s : Store) (R : Refs) (id : ContainerId) (x : Content) (t : Store) : Prop where
  free : s.content? id = none
  made : t.content? id = some x
  others : ∀ other, other ≠ id → t.content? other = s.content? other
  count : ∀ y, t.heap.count? y =
    if y = .container id then some 1 else (s.heap.count? y).map (· + R.tally y)
  level : t.level = s.level
  objects : t.objects = s.objects
  texts : SameTexts s t

/-- References that were taken before a container is made belong to it. -/
theorem Takes.bears {id : ContainerId} {x : Content} (h : Takes s R t) (h' : Bears t S id x u) :
    Bears s (R + S) id x u where
  free := (h.content id).symm.trans h'.free
  made := h'.made
  others other hne := (h'.others other hne).trans (h.content other)
  count y := by
    rw [h'.count, h.count, Option.map_map]
    split
    · rfl
    · congr 1
      funext n
      simp only [Function.comp_apply, Refs.tally_add, add_assoc]
  level := h'.level.trans h.level
  objects := h'.objects.trans h.objects
  texts i := (h'.texts i).trans (h.texts i)

/-- What takes no references makes no difference after a container was made. -/
theorem Bears.alike {id : ContainerId} {x : Content} (h : Bears s R id x t) (h' : Alike t u) :
    Bears s R id x u where
  free := h.free
  made := (h'.content? id).trans h.made
  others other hne := (h'.content? other).trans (h.others other hne)
  count y := ((sameCounts_of_alike h').count y).trans (h.count y)
  level := (congrArg List.length h'.planes).trans h.level
  objects := h'.objects.trans h.objects
  texts i := by
    rw [h'.strings]
    exact h.texts i

theorem Bears.withPlane {id : ContainerId} {x : Content} {f : Plane → Plane}
    (h : Bears s R id x t) : Bears s R id x (t.withPlane f) where
  free := h.free
  made := (content?_withPlane t f id).trans h.made
  others other hne := (content?_withPlane t f other).trans (h.others other hne)
  count y := by
    rw [(withPlane_fields t f).1]
    exact h.count y
  level := (level_withPlane t f).trans h.level
  objects := (withPlane_fields t f).2.2.2.trans h.objects
  texts i := by
    rw [(withPlane_fields t f).1]
    exact h.texts i

/-- A container that is put into the next cell. -/
theorem bears_withNew {c : Container} (hs : s.heap.containers.Sound) (hc : c.refcount = 1) :
    Bears s 0 s.heap.nextId (c.content s.swap) (s.withNew c) where
  free := Option.map_eq_none_iff.mpr (container?_nextId hs)
  made := content?_of_container (container?_withNew_self hs)
  others other hne := by
    simp only [content?, container?_withNew_of_ne (Ne.symm hne)]
    rfl
  count y := by
    have hsame : (s.heap.count? y).map (· + Refs.tally 0 y) = s.heap.count? y := by simp
    rw [hsame]
    cases y with
    | string id => rw [if_neg nofun]; rfl
    | container other =>
      by_cases he : other = s.heap.nextId
      · subst he
        rw [if_pos rfl]
        exact (congrArg (Option.map _) (container?_withNew_self hs)).trans (congrArg some hc)
      · rw [if_neg (by simpa using he)]
        exact congrArg (Option.map _) (container?_withNew_of_ne (Ne.symm he))
  level := rfl
  objects := rfl
  texts _ := rfl

/-- A mapping that is made of pairs holds what is found among them. -/
theorem Bears.find_new {id : ContainerId} {x : Content} {ps : List Pair} {F : Refs}
    (h : Bears s R id x t) (hk : x.kind = .mapping) (ho : x.overlay = none)
    (hb : x.buffer = Pair.toBuffer ps) (ht : Account.Kept ⟨t, F, 0, none⟩) :
    t.heap.Table ps ∧ ∀ k, t.entryAt? id k = s.heap.find ps k := by
  have hx := h.made
  have hpairs : x.pairs = ps := by rw [Content.pairs, hb, Pair.ofBuffer_toBuffer]
  refine ⟨hpairs ▸ (ht.tabled.content hx hk).table, fun k => ?_⟩
  rw [entryAt?_of_content hx, Content.find_of_none ho, hpairs]
  exact Heap.find_congr fun p _ => h.texts.identity p.1

/-- A container that is installed has the next slot. -/
theorem install_eq_ok {owner : DataspaceId} {kind : Kind} {values : List Value} {id : ContainerId}
    (h : install owner kind values s = .ok (id, t)) :
    s.heap.nextId = id ∧ t = s.withNew (s.newContainer owner kind values) := by
  obtain ⟨hid, ht⟩ := Prod.mk.inj (StoreM.modifyGet_eq_ok.mp h)
  exact ⟨hid, ht.symm⟩

/-- To allocate makes one container, with the elements that were given. -/
theorem allocate_bears {owner : DataspaceId} {kind : Kind} {values : List Value} {id : ContainerId}
    (hs : s.heap.containers.Sound) (h : allocate owner kind values s = .ok (id, t)) :
    Bears s 0 id (.new s owner kind values) t := by
  obtain ⟨s₁, s₂, s₃, h₁, h₂, h₃, rfl⟩ := allocate_eq_ok h
  obtain ⟨rfl, rfl⟩ := install_eq_ok h₂
  have htakes := (alike_addImports h₁).takes
  have hs₁ := htakes.sound hs
  have hlink : Alike (s₁.withNew (s₁.newContainer owner kind values)) s₃ :=
    alike_link_new hs₁ rfl h₃
  have hcontent : (s₁.newContainer owner kind values).content s₁.swap =
      .new s owner kind values := by
    simp only [Content.new, ← htakes.level, ← htakes.objects, ← htakes.nextTag]
    rfl
  have hnew := bears_withNew (c := s₁.newContainer owner kind values) hs₁ rfl
  rw [hcontent] at hnew
  have hall := (htakes.bears (hnew.alike hlink)).withPlane
    (f := fun p => { p with census := p.census.insert s₁.heap.nextId .fresh })
  rwa [zero_add] at hall

/-- A container of copies of values is made. -/
theorem build_bears {owner : DataspaceId} {kind : Kind} {values copied : List Value}
    {id : ContainerId} (hs : s.heap.containers.Sound) (h₁ : copies values s = .ok (copied, t))
    (h₂ : allocate owner kind copied t = .ok (id, u)) :
    Bears s ↑(values.map s.seen) id (.new s owner kind (values.map s.seen)) u := by
  obtain ⟨rfl, htakes⟩ := takes_copies h₁
  have hall := htakes.bears (allocate_bears (htakes.sound hs) h₂)
  rw [add_zero] at hall
  have hcontent : Content.new t owner kind (values.map s.seen) =
      .new s owner kind (values.map s.seen) := by
    simp only [Content.new, htakes.level, htakes.objects, htakes.nextTag]
  rwa [hcontent] at hall

/-! ## Containers made of others -/

/--
What comes of making a container of values: one of the two limits stands against it, or it is made.
-/
inductive Derives (s : Store) (owner : DataspaceId) (kind : Kind) (values : List Value) :
    Except Refusal Value → Store → Prop
  | tooLarge (h : s.limits.containerSize < kind.entries values.length) :
    Derives s owner kind values
      (.error (.containerTooLarge (kind.entries values.length) s.limits.containerSize)) s
  | tooMany (hsize : kind.entries values.length ≤ s.limits.containerSize)
      (h : s.limits.containers ≤ s.heap.liveContainers) :
    Derives s owner kind values (.error (.tooManyContainers s.limits.containers)) s
  | made {id : ContainerId} {t : Store}
      (hsize : kind.entries values.length ≤ s.limits.containerSize)
      (hroom : s.heap.liveContainers < s.limits.containers)
      (h : Bears s ↑values id (.new s owner kind values) t) :
    Derives s owner kind values (.ok (.ofContainer kind id)) t

/-- Making a container leaves the contents of others alone. -/
theorem Derives.content? {owner : DataspaceId} {kind : Kind} {values : List Value} {x : Content}
    {id : ContainerId} {r : Except Refusal Value} (h : Derives s owner kind values r t)
    (hx : s.content? id = some x) : t.content? id = some x := by
  cases h with
  | tooLarge | tooMany => exact hx
  | made hsize hroom h =>
    refine (h.others id ?_).trans hx
    rintro rfl
    cases hx.symm.trans h.free

/-- What is answered, if it is a container, was made. -/
theorem Derives.bears {owner : DataspaceId} {kind : Kind} {values : List Value} {shape : Shape}
    {id : ContainerId} {r : Except Refusal Value} (h : Derives s owner kind values r t)
    (hr : r = .ok (.container shape id)) :
    kind.shape = shape ∧ Bears s ↑values id (.new s owner kind values) t := by
  cases h with
  | tooLarge | tooMany => cases hr
  | made hsize hroom h =>
    obtain ⟨rfl, rfl⟩ := Value.container.inj (Except.ok.inj hr)
    exact ⟨rfl, h⟩

theorem Derives.sameTexts {owner : DataspaceId} {kind : Kind} {values : List Value}
    {r : Except Refusal Value} (h : Derives s owner kind values r t) : SameTexts s t := by
  cases h with
  | tooLarge | tooMany => exact fun _ => rfl
  | made hsize hroom h => exact h.texts

theorem Derives.objects {owner : DataspaceId} {kind : Kind} {values : List Value}
    {r : Except Refusal Value} (h : Derives s owner kind values r t) : t.objects = s.objects := by
  cases h with
  | tooLarge | tooMany => rfl
  | made hsize hroom h => exact h.objects

/-- What is derived belongs to the owner of its source and has the values as they are seen. -/
theorem derive_derives {source : ContainerId} {kind : Kind} {values : List Value} {x : Content}
    {r : Except Refusal Value} (hs : s.heap.containers.Sound) (hx : s.content? source = some x)
    (h : derive source kind values s = .ok (r, t)) :
    Derives s x.owner kind (values.map s.seen) r t := by
  have hlength : kind.entries values.length = kind.entries (values.map s.seen).length := by
    rw [List.length_map]
  rcases requireRoom_bind_eq_ok h with ⟨hlarge, rfl, rfl⟩ | ⟨hle, hmany, rfl, rfl⟩ | ⟨hroom, h⟩
  · rw [hlength]
    exact .tooLarge (hlength ▸ hlarge)
  · exact .tooMany (hlength ▸ hle) hmany
  · obtain ⟨c, s₁, h₁, h⟩ := ClientM.lift_bind_eq_ok.mp h
    obtain ⟨hc, rfl⟩ := StoreM.container_eq_ok.mp h₁
    obtain ⟨copied, s₁, h₁, h⟩ := ClientM.lift_bind_eq_ok.mp h
    obtain ⟨id, s₂, h₂, h⟩ := ClientM.lift_bind_eq_ok.mp h
    obtain ⟨rfl, rfl⟩ := ClientM.pure_eq_ok.mp h
    obtain rfl := Option.some.inj ((content?_of_container hc).symm.trans hx)
    exact .made (hlength ▸ hroom.1) hroom.2 (build_bears hs h₁ h₂)

end Store

end PlaneStore
