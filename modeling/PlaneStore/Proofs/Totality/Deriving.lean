import PlaneStore.Proofs.Mapping.SelectedTables
import PlaneStore.Proofs.Totality.Reading

/-!
# No faults: containers made of others

What was read of an operand is held while the other operand is looked after, so all of it can be
compared, sorted and copied.
-/

namespace PlaneStore

open Store

/-! ## Selecting -/

section

variable {h : Heap}

/-- Whether a key is among others can be told. -/
theorem Heap.faultless_isHit {stride : Nat} {among : Array Value} {key : Value} {keep : Bool}
    (hkey : h.Has key) (hamong : ∀ v ∈ among, h.Has v) :
    Faultless (do return (← h.findSorted among stride key).isHit == keep : Except Fault Bool) :=
  .bind (Heap.faultless_findSorted hkey hamong) fun _ _ => .pure _

/-- Sorting brings in no values. -/
theorem Heap.mem_of_sort {values sorted : Array Value} {v : Value}
    (hs : h.sort values = .ok sorted) (hv : v ∈ sorted) : v ∈ values := by
  obtain ⟨vs, hvs, hs⟩ := Fallible.bind_eq_ok.mp hs
  obtain rfl := Fallible.pure_eq_ok.mp hs
  exact Array.mem_toList_iff.mp ((Heap.sortOn_perm hvs).mem_iff.mp (List.mem_toArray.mp hv))

/-- A multiset difference compares values of the two operands only. -/
theorem faultless_missingOnce {left right : Array Value} {taken : List Nat} {values : List Value}
    (hl : ∀ v ∈ left, h.Has v) (hr : ∀ v ∈ right, h.Has v) (hvs : ∀ v ∈ values, h.Has v) :
    Faultless (Sequence.missingOnce h left right taken values) := by
  induction values generalizing taken with
  | nil => exact .pure _
  | cons v rest ih =>
    obtain ⟨hv, hrest⟩ := List.forall_mem_cons.mp hvs
    refine .bind (Heap.faultless_findSorted hv hl) fun inLeft _ => ?_
    split
    · exact ih hrest
    refine .bind (Heap.faultless_findSorted hv hr) fun inRight _ => ?_
    cases inRight with
    | absent i => exact ih hrest
    | «at» i =>
      dsimp only
      split
      · exact ih hrest
      · exact .bind (ih hrest) fun _ _ => .pure _

/-- Whether a key is within bounds can be told. -/
theorem faultless_inRange {lo hi key : Value} (hlo : h.Has lo) (hhi : h.Has hi) (hkey : h.Has key) :
    Faultless (Mapping.inRange h lo hi key) := by
  have hbelow : Faultless (Mapping.notBelow h lo key) := by
    unfold Mapping.notBelow
    split
    · exact .pure _
    · exact .bind (Heap.faultless_compare hkey hlo) fun _ _ => .pure _
  have habove : Faultless (Mapping.notAbove h hi key) := by
    unfold Mapping.notAbove
    split
    · exact .pure _
    · exact .bind (Heap.faultless_compare hkey hhi) fun _ _ => .pure _
  refine .bind hbelow fun below _ => ?_
  cases below with
  | true => exact habove
  | false => exact .pure _

end

section

variable {s : Store}

/-- Pairs can be selected by a test that does not fail on what is there. -/
theorem succeeds_selectPairs {buffer : Array Value} {test : Heap → Value → Except Fault Bool}
    (hb : ∀ v ∈ buffer, s.There v) (ht : ∀ v, s.There v → Faultless (test s.heap v)) :
    Succeeds (Mapping.selectPairs buffer test) s :=
  .readHeap (.bind (.filterM fun _ hp => ht _ (hb _ (Pair.mem_of_ofBuffer hp).1))
    fun _ _ => .pure _)

/-- Two tables can be merged, one overriding the other. -/
theorem succeeds_overridden {left right : Array Value} (hl : ∀ v ∈ left, s.There v)
    (hr : ∀ v ∈ right, s.There v) : Succeeds (Mapping.overridden left right) s := by
  refine .readHeap (.bind (.filterM fun p hp => ?_) fun rest hrest => .bind ?_ fun _ _ => .pure _)
  · exact .bind (Heap.faultless_findSorted (hl _ (Pair.mem_of_ofBuffer hp).1) hr) fun _ _ => .pure _
  · refine Heap.faultless_sortOn fun p hp => ?_
    rcases List.mem_append.mp hp with hp | hp
    · exact hl _ (Pair.mem_of_ofBuffer ((Heap.filterM_eq_ok hrest).1.subset hp)).1
    · exact hr _ (Pair.mem_of_ofBuffer hp).1

theorem succeeds_sorted {values : Array Value} (hvs : ∀ v ∈ values, s.There v) :
    Succeeds (Sequence.sorted values) s :=
  .readHeap (Heap.faultless_sort hvs)

theorem there_of_sorted {values sorted : Array Value} {s' : Store}
    (h : Sequence.sorted values s = .ok (sorted, s')) (hvs : ∀ v ∈ values, s.There v) :
    ∀ v ∈ sorted, s.There v := fun v hv =>
  hvs v (Heap.mem_of_sort (StoreM.readHeap_eq_ok.mp h).1 hv)

theorem succeeds_members {values : List Value} {among : Array Value} {keep : Bool}
    (hvs : ∀ v ∈ values, s.There v) (hamong : ∀ v ∈ among, s.There v) :
    Succeeds (Sequence.members values among keep) s :=
  .readHeap (.filterM fun v hv => Heap.faultless_isHit (hvs v hv) hamong)

theorem succeeds_missing {left right : Array Value} (hl : ∀ v ∈ left, s.There v)
    (hr : ∀ v ∈ right, s.There v) : Succeeds (Sequence.missing left right) s := by
  refine .bind (succeeds_sorted hl) fun sortedLeft t h₁ => ?_
  obtain rfl := sorted_eq_ok h₁
  refine .bind (succeeds_sorted hr) fun sortedRight t h₂ => ?_
  obtain rfl := sorted_eq_ok h₂
  exact .readHeap (faultless_missingOnce (there_of_sorted h₁ hl) (there_of_sorted h₂ hr) fun v hv =>
    hr v (Array.mem_toList_iff.mp hv))

end

section

variable {s : Store} {F : Refs} {C : Charges} {v w : Value}

/-! ## Operands -/

/--
A request goes on from what was read of an operand: the operand was looked after, and what was read
is held.
-/
theorem succeeds_withOperand {α : Type} {shape : Shape}
    {operand : Value → ClientM (ContainerId × Array Value)}
    {f : ContainerId × Array Value → ClientM α}
    (hop : ∃ r t, operand v s = .ok (r, t) ∧ Path Effect.Tends ⟨s, F, C, none⟩ ⟨t, F, C, none⟩ ∧
      ∀ id values, r = .ok (id, values) → v = .container shape id ∧
        ∀ w ∈ values, t.Holds Effect.Tends F w)
    (hf : ∀ id values t, Path Effect.Tends ⟨s, F, C, none⟩ ⟨t, F, C, none⟩ →
      v = .container shape id → (∀ w ∈ values, t.Holds Effect.Tends F w) →
      Succeeds (f (id, values)) t) :
    Succeeds (operand v >>= f : ClientM α) s := by
  obtain ⟨r, t, hr, hpath, hread⟩ := hop
  refine Succeeds.requestBind ⟨r, t, hr⟩ fun p t' h => ?_
  obtain ⟨rfl, rfl⟩ := Prod.mk.inj (Except.ok.inj (hr.symm.trans h))
  obtain ⟨hid, hvalues⟩ := hread p.1 p.2 rfl
  exact hf p.1 p.2 t hpath hid hvalues

/-- An array operand is brought up to date, and what was read of it stays held. -/
theorem exists_seqOperand (ha : Account.Kept ⟨s, F, C, none⟩) (hv : F.Covers v) :
    ∃ r t, Sequence.operand v s = .ok (r, t) ∧ Path Effect.Tends ⟨s, F, C, none⟩ ⟨t, F, C, none⟩ ∧
      ∀ id values, r = .ok (id, values) → v = .container .array id ∧
        ∀ w ∈ values, t.Holds Effect.Tends F w := by
  unfold Sequence.operand
  split
  · next id =>
    have hheld : s.Holds Effect.Tends F (.container .array id) := .owned hv
    obtain ⟨values, t, h, hpath, hvalues⟩ :=
      succeeds_elementsOf ha (fun _ he => he) .still (fun _ => .scrub id)
        (fun hs => absurd hs (by decide)) hheld
    obtain ⟨u, s₁, h₁, h₂⟩ := StoreM.bind_eq_ok.mp h
    refine ⟨_, t, ClientM.lift_bind_eq_ok.mpr ⟨u, s₁, h₁, ClientM.lift_bind_eq_ok.mpr
      ⟨values, t, h₂, rfl⟩⟩, hpath, fun id' values' hr => ?_⟩
    obtain ⟨rfl, rfl⟩ := Prod.mk.inj (Except.ok.inj hr)
    exact ⟨rfl, hvalues⟩
  · exact ⟨_, s, rfl, .refl _, fun id values hr => by cases hr⟩

/-- A mapping operand is brought up to date, and what was read of it stays held. -/
theorem exists_mapOperand (ha : Account.Kept ⟨s, F, C, none⟩) (hv : F.Covers v) :
    ∃ r t, Mapping.operand v s = .ok (r, t) ∧ Path Effect.Tends ⟨s, F, C, none⟩ ⟨t, F, C, none⟩ ∧
      ∀ id values, r = .ok (id, values) → v = .container .mapping id ∧
        ∀ w ∈ values, t.Holds Effect.Tends F w := by
  have hsucceeds : Succeeds (Mapping.operand v) s := by
    refine succeeds_requireMapping fun id hid => ?_
    subst hid
    have hk : ∀ c, s.container? id = some c → c.kind = .mapping := fun c hc =>
      (ha.fits_of_covers hv).mapping hc
    obtain ⟨c, hc⟩ := (ha.there_of_flight hv).exists_container
    refine Succeeds.liftBind (succeeds_mergeOverlay ha hc fun _ => hk c hc) fun u s₁ h₁ => ?_
    obtain ⟨-, c₁, values, hc₁, he, -⟩ := exists_merged ha hv (fun _ => hk) h₁
    exact Succeeds.liftBind (succeeds_residentValues hc₁ he) fun values t _ => .answer _
  obtain ⟨r, t, h⟩ := hsucceeds
  obtain ⟨hpath, hread⟩ :=
    walk_mapOperand (E := Effect.Tends) .still (fun id _ => .scrub id) ha hv h
  refine ⟨r, t, h, hpath, fun id values hr => ?_⟩
  obtain ⟨rfl, x, hx, hclean⟩ := hread id values hr
  exact ⟨rfl, fun w hw => .element (.owned hv) hx hclean.overlay (fun _ => hclean.epoch)
    (hclean.buffer ▸ hw)⟩

/-- What is held can be copied into a new container, for the owner of one that is owned. -/
theorem succeeds_deriveHeld {shape : Shape} {id : ContainerId} {kind : Kind}
    {values : List Value} (ha : Account.Kept ⟨s, F, C, none⟩) (hid : F.Covers (.container shape id))
    (hvs : ∀ v ∈ values, s.Holds Effect.Tends F v) : Succeeds (derive id kind values) s := by
  obtain ⟨c, hc⟩ := (ha.there_of_flight hid).exists_container
  exact succeeds_derive ha hc (fun v hv => (hvs v hv).there ha) fun v hv => (hvs v hv).fits ha

/-! ## Sequences -/

/-- A slice of an array is answered or refused. -/
theorem succeeds_seqRange {lo hi : Int} (ha : Account.Kept ⟨s, F, C, none⟩) (hv : F.Covers v) :
    Succeeds (Sequence.range v lo hi) s := by
  refine succeeds_withOperand (exists_seqOperand ha hv) fun id values t hpath hid hvalues => ?_
  subst hid
  dsimp only
  split
  · refine succeeds_deriveHeld (hpath.kept ha) hv fun w hw => hvalues w ?_
    rw [Array.toList_extract] at hw
    exact Array.mem_toList_iff.mp (List.mem_of_mem_drop (List.mem_of_mem_take hw))
  · exact .refuse _

/-- What is read of the first operand is still held when the second was read. -/
theorem succeeds_withTwo {α : Type} {shape : Shape}
    {operand : Value → ClientM (ContainerId × Array Value)}
    {f : ContainerId × Array Value → ContainerId × Array Value → ClientM α}
    (hop : ∀ {s v}, Account.Kept ⟨s, F, C, none⟩ → F.Covers v → ∃ r t, operand v s = .ok (r, t) ∧
      Path Effect.Tends ⟨s, F, C, none⟩ ⟨t, F, C, none⟩ ∧
        ∀ id values, r = .ok (id, values) → v = .container shape id ∧
          ∀ w ∈ values, t.Holds Effect.Tends F w)
    (ha : Account.Kept ⟨s, F, C, none⟩) (hv : F.Covers v) (hw : F.Covers w)
    (hf : ∀ id id' left right t, Account.Kept ⟨t, F, C, none⟩ → v = .container shape id →
      (∀ w ∈ left, t.Holds Effect.Tends F w) → (∀ w ∈ right, t.Holds Effect.Tends F w) →
      Succeeds (f (id, left) (id', right)) t) :
    Succeeds (operand v >>= fun p => operand w >>= f p : ClientM α) s := by
  refine succeeds_withOperand (hop ha hv) fun id left t hpath hid hleft => ?_
  have ha₁ := hpath.kept ha
  refine succeeds_withOperand (hop ha₁ hw) fun id' right t' hpath' _ hright => ?_
  exact hf id id' left right t' (hpath'.kept ha₁) hid
    (fun w hw => (hleft w hw).path ha₁ (fun _ he => he) hpath') hright

section

variable (ha : Account.Kept ⟨s, F, C, none⟩) (hv : F.Covers v) (hw : F.Covers w)

include ha hv hw

theorem succeeds_seqConcat : Succeeds (Sequence.concat v w) s := by
  refine succeeds_withTwo exists_seqOperand ha hv hw
    fun id _ left right t ha₁ hid hleft hright => ?_
  subst hid
  refine succeeds_deriveHeld ha₁ hv fun w hw => ?_
  rw [Array.toList_append] at hw
  rcases List.mem_append.mp hw with hw | hw
  · exact hleft w (Array.mem_toList_iff.mp hw)
  · exact hright w (Array.mem_toList_iff.mp hw)

theorem succeeds_seqUnion : Succeeds (Sequence.union v w) s := by
  refine succeeds_withTwo exists_seqOperand ha hv hw
    fun id _ left right t ha₁ hid hleft hright => ?_
  subst hid
  have hthere : ∀ {extra : List Value}, (∀ w ∈ extra, w ∈ right) →
      Succeeds (derive id .array (left.toList ++ extra)) t := fun hextra =>
    succeeds_deriveHeld ha₁ hv fun w hw => by
      rcases List.mem_append.mp hw with hw | hw
      · exact hleft w (Array.mem_toList_iff.mp hw)
      · exact hright w (hextra w hw)
  dsimp only
  split
  · exact hthere nofun
  · refine Succeeds.liftBind (succeeds_missing (fun w hw => (hleft w hw).there ha₁) fun w hw =>
      (hright w hw).there ha₁) fun extra t' h => ?_
    obtain ⟨rfl, hextra⟩ := missing_eq_ok h
    exact hthere hextra

theorem succeeds_symmetricDifference : Succeeds (Sequence.symmetricDifference v w) s := by
  refine succeeds_withTwo exists_seqOperand ha hv hw
    fun id _ left right t ha₁ hid hleft hright => ?_
  subst hid
  have hl : ∀ w ∈ left, t.There w := fun w hw => (hleft w hw).there ha₁
  have hr : ∀ w ∈ right, t.There w := fun w hw => (hright w hw).there ha₁
  refine Succeeds.liftBind (succeeds_sorted hl) fun sortedLeft t' h₁ => ?_
  obtain rfl := sorted_eq_ok h₁
  refine Succeeds.liftBind (succeeds_sorted hr) fun sortedRight t' h₂ => ?_
  obtain rfl := sorted_eq_ok h₂
  refine Succeeds.liftBind (succeeds_members (fun w hw => hl w (Array.mem_toList_iff.mp hw))
    (there_of_sorted h₂ hr)) fun here t' h₃ => ?_
  obtain ⟨rfl, hhere⟩ := members_eq_ok h₃
  refine Succeeds.liftBind (succeeds_members (fun w hw => hr w (Array.mem_toList_iff.mp hw))
    (there_of_sorted h₁ hl)) fun there t' h₄ => ?_
  obtain ⟨rfl, hthere⟩ := members_eq_ok h₄
  refine succeeds_deriveHeld ha₁ hv fun w hw => ?_
  rcases List.mem_append.mp hw with hw | hw
  · exact hleft w (Array.mem_toList_iff.mp (hhere w hw))
  · exact hright w (Array.mem_toList_iff.mp (hthere w hw))

omit hv in
/-- The elements of the sorted operand were read, and are held as they were. -/
theorem exists_sortedOperand : ∃ r t, Sequence.sortedOperand w s = .ok (r, t) ∧
    Path Effect.Tends ⟨s, F, C, none⟩ ⟨t, F, C, none⟩ ∧
      ∀ values, r = .ok values → ∀ w ∈ values, t.There w := by
  have hsucceeds : ∃ r t, Sequence.sortedOperand w s = .ok (r, t) ∧
      ∀ values, r = .ok values → ∀ w ∈ values, t.There w := by
    obtain ⟨r, t, h, hpath, hread⟩ := exists_seqOperand ha hw
    cases r with
    | error e => exact ⟨.error e, t, ClientM.bind_eq_ok.mpr (.inl ⟨e, h, rfl⟩), nofun⟩
    | ok p =>
      have hthere : ∀ w ∈ p.2, t.There w := fun w hw =>
        ((hread p.1 p.2 rfl).2 w hw).there (hpath.kept ha)
      obtain ⟨values, t', h'⟩ := succeeds_sorted hthere
      obtain rfl := sorted_eq_ok h'
      refine ⟨.ok values, t, ClientM.bind_eq_ok.mpr (.inr ⟨p, t, h,
        ClientM.lift_eq_ok.mpr ⟨values, rfl, h'⟩⟩), fun values' hr => ?_⟩
      obtain rfl := Except.ok.inj hr
      exact there_of_sorted h' hthere
  obtain ⟨r, t, h, hread⟩ := hsucceeds
  exact ⟨r, t, h, walk_sortedOperand .still (fun id _ => .scrub id) ha hw h, hread⟩

theorem succeeds_seqRestrict {keep : Bool} : Succeeds (Sequence.restrict v w keep) s := by
  refine succeeds_withOperand (exists_seqOperand ha hv) fun id left t hpath hid hleft => ?_
  subst hid
  have ha₁ := hpath.kept ha
  obtain ⟨r, t', h, hpath', hread⟩ := exists_sortedOperand ha₁ hw
  refine Succeeds.requestBind ⟨r, t', h⟩ fun right t'' h' => ?_
  obtain ⟨rfl, rfl⟩ := Prod.mk.inj (Except.ok.inj (h.symm.trans h'))
  have ha₂ := hpath'.kept ha₁
  have hleft' : ∀ w ∈ left, t'.Holds Effect.Tends F w := fun w hw =>
    (hleft w hw).path ha₁ (fun _ he => he) hpath'
  refine Succeeds.liftBind (succeeds_members
    (fun w hw => (hleft' w (Array.mem_toList_iff.mp hw)).there ha₂) (hread right rfl))
    fun kept t'' h₃ => ?_
  obtain ⟨rfl, hkept⟩ := members_eq_ok h₃
  exact succeeds_deriveHeld ha₂ hv fun w hw => hleft' w (Array.mem_toList_iff.mp (hkept w hw))

/-! ## Mappings -/

omit hw

theorem succeeds_mapIndices : Succeeds (Mapping.indices v) s := by
  refine succeeds_withOperand (exists_mapOperand ha hv) fun id buffer t hpath hid hbuffer => ?_
  subst hid
  exact succeeds_deriveHeld (hpath.kept ha) hv fun w hw =>
    hbuffer w (Array.mem_toList_iff.mp (mem_of_everySecond hw))

theorem succeeds_mapValues : Succeeds (Mapping.values v) s := by
  refine succeeds_withOperand (exists_mapOperand ha hv) fun id buffer t hpath hid hbuffer => ?_
  subst hid
  exact succeeds_deriveHeld (hpath.kept ha) hv fun w hw =>
    hbuffer w (Array.mem_toList_iff.mp (List.mem_of_mem_tail (mem_of_everySecond hw)))

/-- What was selected of a mapping can be copied into a new one. -/
theorem succeeds_deriveSelected {buffer : Array Value} {test : Heap → Value → Except Fault Bool}
    {id : ContainerId} (hid : v = .container .mapping id)
    (hbuffer : ∀ w ∈ buffer, s.Holds Effect.Tends F w)
    (ht : ∀ v, s.There v → Faultless (test s.heap v)) :
    Succeeds (do derive id .mapping (← Mapping.selectPairs buffer test) : ClientM Value) s := by
  subst hid
  refine Succeeds.liftBind (succeeds_selectPairs (fun w hw => (hbuffer w hw).there ha) ht)
    fun kept t h => ?_
  obtain ⟨rfl, hkept⟩ := mem_of_selectPairs h
  exact succeeds_deriveHeld ha hv fun w hw => hbuffer w (hkept w hw)

/-- The pairs of a mapping within bounds are answered or refused. -/
theorem succeeds_mapRange {lo hi : Value} (hlo : F.Covers lo) (hhi : F.Covers hi) :
    Succeeds (Mapping.range v lo hi) s := by
  refine succeeds_withOperand (exists_mapOperand ha hv) fun id buffer t hpath hid hbuffer => ?_
  have ha₁ := hpath.kept ha
  exact succeeds_deriveSelected ha₁ hv hid hbuffer fun key hkey =>
    faultless_inRange (ha₁.there_of_flight hlo) (ha₁.there_of_flight hhi) hkey

include hw

theorem succeeds_mapConcat : Succeeds (Mapping.concat v w) s := by
  refine succeeds_withTwo exists_mapOperand ha hv hw
    fun id _ left right t ha₁ hid hleft hright => ?_
  subst hid
  dsimp only
  split
  · exact succeeds_deriveHeld ha₁ hv fun w hw => hleft w (Array.mem_toList_iff.mp hw)
  · refine Succeeds.liftBind (succeeds_overridden (fun w hw => (hleft w hw).there ha₁) fun w hw =>
      (hright w hw).there ha₁) fun union t' h => ?_
    obtain ⟨rfl, hunion⟩ := mem_of_overridden h
    refine succeeds_deriveHeld ha₁ hv fun w hw => ?_
    rcases hunion w hw with hw | hw
    · exact hleft w hw
    · exact hright w hw

theorem succeeds_mapRestrict {keep : Bool} : Succeeds (Mapping.restrict v w keep) s := by
  refine succeeds_withOperand (exists_mapOperand ha hv) fun id buffer t hpath hid hbuffer => ?_
  have ha₁ := hpath.kept ha
  obtain ⟨r, t', h, hpath', hread⟩ := exists_sortedOperand ha₁ hw
  refine Succeeds.requestBind ⟨r, t', h⟩ fun keys t'' h' => ?_
  obtain ⟨rfl, rfl⟩ := Prod.mk.inj (Except.ok.inj (h.symm.trans h'))
  have ha₂ := hpath'.kept ha₁
  have hbuffer' : ∀ w ∈ buffer, t'.Holds Effect.Tends F w := fun w hw =>
    (hbuffer w hw).path ha₁ (fun _ he => he) hpath'
  dsimp only
  split
  · subst hid
    refine succeeds_deriveHeld ha₂ hv fun w hw => ?_
    split at hw
    · exact absurd hw List.not_mem_nil
    · exact hbuffer' w (Array.mem_toList_iff.mp hw)
  · exact succeeds_deriveSelected ha₂ hv hid hbuffer' fun key hkey =>
      Heap.faultless_isHit hkey (hread keys rfl)

end

end

end PlaneStore
