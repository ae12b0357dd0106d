import PlaneStore.Proofs.Contents.ContainerAnswers
import PlaneStore.Proofs.Clients.FiniteMappings
import PlaneStore.Proofs.Clients.MirroredStores

/-!
# Requests to mirrors

What a request answers, and what it leaves of what can be come upon, is a matter of what could be
come upon before. So a request to a mirror ends the same way, and leaves a mirror.
-/

namespace PlaneStore

open Store

/-- What a reader sees of a reference is the reference, or nil. -/
theorem Store.target?_of_seen {s : Store} {v : Value} {t : Target}
    (h : (s.seen v).target? = some t) :
    v.target? = some t := by
  unfold seen at h
  split at h
  · cases h
  · exact h

namespace Effect

variable {subject : Option ContainerId} {id : ContainerId} {compact : Bool}

theorem minds_of_still : ∀ e : Effect, e = .still → e.Minds ∧ e.Turns subject := by
  rintro e rfl
  exact ⟨trivial, trivial, nofun, fun _ _ => trivial⟩

theorem turns_still : still.Turns subject := (minds_of_still _ rfl).2

theorem turns_write (ref : VariableRef) : (write ref).Turns subject :=
  ⟨trivial, nofun, fun _ _ => trivial⟩

theorem turns_record (call : CallRef) (patch : CallPatch) : (record call patch).Turns subject :=
  ⟨trivial, nofun, fun _ _ => trivial⟩

theorem Touches.turns (e : Effect) (he : e.Touches id) : e.Turns (some id) where
  calm := he.calm
  stays ds other heq := by
    subst heq
    exact he
  leaves other hne := he.leaves fun heq => hne (congrArg some heq.symm)

theorem Keeps.turns : ∀ e : Effect, e.Keeps id → e.Minds ∧ e.Turns (some id)
  | _, .inl rfl => minds_of_still _ rfl
  | _, .inr rfl => ⟨trivial, Touches.turns _ rfl⟩

theorem Merges.turns (e : Effect) (he : e.Merges id compact) : e.Minds ∧ e.Turns (some id) :=
  ⟨minds_of_tends e he.tends, Touches.turns e he.touches⟩

end Effect

/-- The requests that read and write what there is. -/
def Operation.everyday : Operation → Bool
  | .assign _ _ _ | .assignVariable _ _ | .addCall _ _ _ | .removeCall _ | .replaceCall _ _ _
  | .mapMerge _ _ | .indexGet _ _ | .mapGet _ _ | .readVariable _ | .retain _ | .release _ => true
  | _ => false

/-- The effects of writing to callout tables. -/
inductive Effect.Posts : Effect → Prop
  | still : Posts .still
  | record (call : CallRef) (patch : CallPatch) : Posts (.record call patch)

theorem Effect.Posts.turns : ∀ e : Effect, e.Posts → e.Turns none
  | _, .still => turns_still
  | _, .record call patch => turns_record call patch

theorem Effect.Posts.alters : ∀ e : Effect, e.Posts → e.Alters
  | _, .still => .still
  | _, .record call patch => .record call patch

/-- The effects of writing to one container. -/
inductive Effect.Writes (id : ContainerId) : Effect → Prop
  | still : Writes id .still
  | nest : Writes id .nest
  | change (e : Edit) : Writes id (.change id e)

namespace Effect.Writes

variable {id : ContainerId}

theorem turns : ∀ e : Effect, e.Writes id → e.Turns (some id)
  | _, .still => Touches.turns _ trivial
  | _, .nest => Touches.turns _ trivial
  | _, .change _ => Touches.turns _ rfl

theorem alters : ∀ e : Effect, e.Writes id → e.Alters
  | _, .still => .still
  | _, .nest => .nest
  | _, .change _ => .change _ _

end Effect.Writes

namespace Client

variable {c d c' d' : Client} {E E' : Effect → Prop} {subject : Option ContainerId}
  {id : ContainerId} {v key value : Value} {o o' : Outcome}

/-- What is owned lasts. -/
theorem Lasts.of_owned (hv : c.owned.Covers v) (ht : v.target? = some (.container id)) :
    c.Lasts id :=
  (Rooted.of_owned (hv (Value.isCounted_iff.mpr ⟨_, ht⟩)) ht).lasts

/-- A value as it is written if the client passes it. -/
def Offers (c : Client) (v : Value) : Prop := ∃ w, c.owned.Covers w ∧ v = c.store.seen w

theorem Lasts.of_offered (hv : c.Offers v) (ht : v.target? = some (.container id)) :
    c.Lasts id := by
  obtain ⟨w, hw, rfl⟩ := hv
  exact of_owned hw (target?_of_seen ht)

/-- What a mapping that is owned is read to hold lasts. -/
theorem Lasts.of_entry {k : Identity} {other : ContainerId} (ha : c.account.Kept)
    (hm : c.owned.Covers (.container .mapping id))
    (ht : (c.store.seen ((c.store.entryAt? id k).getD .nil)).target? = some (.container other)) :
    c.Lasts other := by
  obtain ⟨x, hx, hk⟩ := ha.mapping hm
  have hx : c.store.content? id = some x := hx
  have ht := target?_of_seen ht
  rw [entryAt?_of_content hx] at ht
  cases hv : x.find c.store.heap k with
  | none =>
    rw [hv] at ht
    cases ht
  | some v =>
    rw [hv] at ht
    exact (of_owned hm rfl).shown ⟨x, hx, v, .inr ⟨hk, .inr ⟨k, hv⟩⟩, ht⟩

theorem account_eq {F : Refs} (h : c.owned = F) : c.account = ⟨c.store, F, 0, none⟩ := by
  rw [← h]
  rfl

theorem eq_of_same (hs : c'.store = c.store) (ho : c'.owned = c.owned) : c' = c := by
  obtain ⟨s, F⟩ := c
  obtain ⟨s', F'⟩ := c'
  obtain rfl : s' = s := hs
  obtain rfl : F' = F := ho
  rfl

/-- A request that hands a value out. -/
theorem Requests.handed {op : Operation} {x : ClientM Value} (hr : c.Requests op o c')
    (hx : op.perform = x >>= fun v => pure (Answer.value v))
    (hok : ∀ v, op.settle c.owned (.ok (.value v)) = {v} + c.owned)
    (herr : ∀ e, op.settle c.owned (.error e) = c.owned) :
    ∃ r, x c.store = .ok (r, c'.store) ∧ o = r.map .value ∧ c'.owned = earned r + c.owned := by
  have hperformed := hr.performed
  unfold Store.perform at hperformed
  rw [hx] at hperformed
  obtain ⟨r, h₁, rfl⟩ := ClientM.bind_pure_eq_ok.mp hperformed
  refine ⟨r, h₁, rfl, hr.settled.trans ?_⟩
  cases r with
  | error e => exact (herr e).trans (zero_add c.owned).symm
  | ok v => exact hok v

/-- A request that hands no reference out and takes none back. -/
theorem Requests.told {α : Type} {op : Operation} {x : ClientM α} {f : α → Answer}
    (hr : c.Requests op o c') (hx : op.perform = x >>= fun a => pure (f a))
    (hok : ∀ a, op.settle c.owned (.ok (f a)) = c.owned)
    (herr : ∀ e, op.settle c.owned (.error e) = c.owned) :
    ∃ r, x c.store = .ok (r, c'.store) ∧ o = r.map f ∧ c'.owned = c.owned := by
  have hperformed := hr.performed
  unfold Store.perform at hperformed
  rw [hx] at hperformed
  obtain ⟨r, h₁, rfl⟩ := ClientM.bind_pure_eq_ok.mp hperformed
  refine ⟨r, h₁, rfl, hr.settled.trans ?_⟩
  cases r with
  | error e => exact herr e
  | ok a => exact hok a

namespace Mirrors

/-! ## What is passed -/

theorem covers (h : c.Mirrors d) (hv : c.owned.Covers v) : d.owned.Covers v := h.owned.symm ▸ hv

theorem askVariable_eq (h : c.Mirrors d) (ref : VariableRef) :
    d.store.askVariable ref = c.store.askVariable ref := by
  unfold askVariable
  rw [h.tables, h.variableAt?]

theorem askCall_eq (h : c.Mirrors d) (call : CallRef) :
    d.store.askCall call = c.store.askCall call := by
  unfold askCall
  rw [h.tables, h.call?]

section

variable (h : c.Mirrors d) (ha : c.account.Kept) (hb : d.account.Kept)
include h ha hb

theorem owned_identity (hv : c.owned.Covers v) :
    d.store.heap.identity v = c.store.heap.identity v :=
  h.identity ha hb hv.of_flight (Refs.Covers.of_flight (a := d.account) (h.covers hv))

theorem owned_seen (hv : c.owned.Covers v) : d.store.seen v = c.store.seen v :=
  h.seen ha hb hv.of_flight (Refs.Covers.of_flight (a := d.account) (h.covers hv))

theorem exists_twin {shape : Shape} (hv : c.owned.Covers (.container shape id)) :
    ∃ x y, c.store.content? id = some x ∧ d.store.content? id = some y ∧
      x.Twin c.store d.store y := by
  obtain ⟨x, hx⟩ := (ha.there_of_flight hv).exists_container
  obtain ⟨y, hy⟩ := (hb.there_of_flight (h.covers hv)).exists_container
  have hx := content?_of_container hx
  have hy := content?_of_container hy
  exact ⟨_, _, hx, hy, h.content hx hy⟩

theorem entryAt?_eq (hm : c.owned.Covers (.container .mapping id)) (k : Identity) :
    d.store.entryAt? id k = c.store.entryAt? id k := by
  obtain ⟨x, y, hx, hy, htwin⟩ := h.exists_twin ha hb hm
  obtain ⟨z, hz, hk⟩ := ha.mapping hm
  obtain rfl := Option.some.inj (hx.symm.trans hz)
  rw [entryAt?_of_content hx, entryAt?_of_content hy, htwin.entries hk]

/-- What is looked after in both stores, and what is handed out of both, leaves mirrors. -/
theorem hands {r : Except Refusal Value} (hc' : c'.owned = earned r + c.owned)
    (hd' : d'.owned = earned r + d.owned) (hp : Path E c.account c'.account)
    (hq : Path E' d.account d'.account) (hE : ∀ e, E e → e.Minds ∧ e.Turns subject)
    (hE' : ∀ e, E' e → e.Minds ∧ e.Turns subject)
    (hlasts : ∀ v, r = .ok v → ∀ id, v.target? = some (.container id) → c.Lasts id)
    (hsub : ∀ id, subject = some id → c.Lasts id ∧ ∃ x y, c'.store.content? id = some x ∧
      d'.store.content? id = some y ∧ x.Twin c'.store d'.store y) : c'.Mirrors d' := by
  refine h.mind hp hq ha hb hE hE' (by rw [hd', hc', h.owned]) (fun v hv id ht => ?_) hsub
  rw [hc'] at hv
  rcases Multiset.mem_add.mp hv with hv | hv
  · cases r with
    | error e => exact absurd hv (Multiset.notMem_zero v)
    | ok w =>
      obtain rfl := Multiset.mem_singleton.mp hv
      exact hlasts v rfl id ht
  · exact (Rooted.of_owned hv ht).lasts

/-! ## References -/

theorem retain (hr : c.Requests (.retain v) o c') (hr' : d.Requests (.retain v) o' d') :
    o' = o ∧ c'.Mirrors d' := by
  obtain ⟨u, s, h₁, hdone⟩ := ClientM.lift_bind_eq_ok.mp hr.performed
  obtain ⟨rfl, rfl⟩ := ClientM.pure_eq_ok.mp hdone
  obtain ⟨u', t, h₁', hdone'⟩ := ClientM.lift_bind_eq_ok.mp hr'.performed
  obtain ⟨rfl, rfl⟩ := ClientM.pure_eq_ok.mp hdone'
  have hv := hr.covered v (.head _)
  have hp : Path (· = .still) c.account c'.account :=
    (account_eq hr.settled).symm ▸ walk_retain rfl (ha.fits_of_covers hv) h₁
  have hq : Path (· = .still) d.account d'.account :=
    (account_eq hr'.settled).symm ▸
      walk_retain rfl (hb.fits_of_covers (hr'.covered v (.head _))) h₁'
  refine ⟨rfl, h.hands ha hb (r := .ok v) hr.settled hr'.settled hp hq
    (@Effect.minds_of_still none) Effect.minds_of_still (fun w hw id ht => ?_) nofun⟩
  obtain rfl := Except.ok.inj hw
  exact .of_owned hv ht

theorem release (hr : c.Requests (.release v) o c') (hr' : d.Requests (.release v) o' d') :
    o' = o ∧ c'.Mirrors d' := by
  obtain ⟨u, s, h₁, hdone⟩ := ClientM.lift_bind_eq_ok.mp hr.performed
  obtain ⟨rfl, rfl⟩ := ClientM.pure_eq_ok.mp hdone
  obtain ⟨u', t, h₁', hdone'⟩ := ClientM.lift_bind_eq_ok.mp hr'.performed
  obtain ⟨rfl, rfl⟩ := ClientM.pure_eq_ok.mp hdone'
  have hc' : c'.owned = c.owned.erase v := hr.settled
  have hd' : d'.owned = d.owned.erase v := hr'.settled
  have hp : Path (· = .still) c.account c'.account :=
    (account_eq hc').symm ▸ walk_releaseOwned rfl (hr.covered v (.head _)) h₁
  have hq : Path (· = .still) d.account d'.account :=
    (account_eq hd').symm ▸ walk_releaseOwned rfl (hr'.covered v (.head _)) h₁'
  refine ⟨rfl, h.mind hp hq ha hb (@Effect.minds_of_still none) Effect.minds_of_still
    (by rw [hc', hd', h.owned]) (fun w hw id ht => ?_) nofun⟩
  exact (Rooted.of_owned (Multiset.mem_of_mem_erase (hc' ▸ hw)) ht).lasts

theorem readVariable {ref : VariableRef} (hr : c.Requests (.readVariable ref) o c')
    (hr' : d.Requests (.readVariable ref) o' d') : o' = o ∧ c'.Mirrors d' := by
  obtain ⟨r, h₁, rfl, hc'⟩ := hr.handed rfl (fun _ => rfl) fun _ => rfl
  obtain ⟨r', h₁', rfl, hd'⟩ := hr'.handed rfl (fun _ => rfl) fun _ => rfl
  have hanswer := variableValue_answers h₁
  have hanswer' := variableValue_answers h₁'
  rw [h.askVariable_eq ref] at hanswer'
  have hsame : r' = r := by
    rw [hanswer', hanswer]
    cases hv : c.store.askVariable ref with
    | error e => rfl
    | ok v =>
      have hv := askVariable_eq_ok.mp hv
      exact congrArg Except.ok
        (h.seen ha hb (fun _ => Account.mem_refs_of_store (mem_refs_of_variable hv))
          fun _ => Account.mem_refs_of_store (mem_refs_of_variable ((h.variableAt? ref).trans hv)))
  subst hsame
  have hp : Path (· = .still) c.account c'.account :=
    (account_eq hc').symm ▸ walk_variableValue rfl ha h₁
  have hq : Path (· = .still) d.account d'.account :=
    (account_eq hd').symm ▸ walk_variableValue rfl hb h₁'
  refine ⟨rfl, h.hands ha hb hc' hd' hp hq (@Effect.minds_of_still none)
    Effect.minds_of_still (fun w hw id ht => ?_) nofun⟩
  cases hv : c.store.askVariable ref with
  | error e =>
    rw [hanswer, hv] at hw
    cases hw
  | ok u =>
    rw [hanswer, hv] at hw
    obtain rfl := Except.ok.inj hw
    exact (Rooted.of_variable (askVariable_eq_ok.mp hv) (target?_of_seen ht)).lasts

/-! ## Reading containers -/

/-- What is read from mappings does not differ, nor does reading them. -/
theorem mapGet {m : Value} {r r' : Except Refusal Value}
    (hm : c.owned.Covers m) (hkey : c.owned.Covers key)
    (hc' : c'.owned = earned r + c.owned) (hd' : d'.owned = earned r' + d.owned)
    (hr : Mapping.get m key c.store = .ok (r, c'.store))
    (hr' : Mapping.get m key d.store = .ok (r', d'.store)) : r' = r ∧ c'.Mirrors d' := by
  have hp : Path (· = .still) c.account c'.account :=
    (account_eq hc').symm ▸ walk_mapGetHanding ha hm rfl hr
  have hq : Path (· = .still) d.account d'.account :=
    (account_eq hd').symm ▸ walk_mapGetHanding hb (h.covers hm) rfl hr'
  -- Both sides answer with the entry, which depends on identities and not on what is merged.
  have hboth : r' = r ∧ ∀ v, r = .ok v → ∀ id, v.target? = some (.container id) → c.Lasts id := by
    rcases Mapping.require_bind_eq_ok hr with ⟨hnone, rfl, -⟩ | ⟨id, rfl, -⟩
    · obtain ⟨-, rfl, -⟩ := (Mapping.require_bind_eq_ok hr').resolve_right
        fun ⟨id, hid, _⟩ => hnone id hid
      exact ⟨rfl, nofun⟩
    · obtain ⟨rfl, -⟩ := mapGet_answers ha hm hkey hr
      obtain ⟨rfl, -⟩ := mapGet_answers hb (h.covers hm) (h.covers hkey) hr'
      refine ⟨?_, fun v hv other ht => ?_⟩
      · rw [h.owned_identity ha hb hkey, h.entryAt?_eq ha hb hm]
        cases hv : c.store.entryAt? id (c.store.heap.identity key) with
        | none => simp
        | some v =>
          have hv' := (h.entryAt?_eq ha hb hm _).trans hv
          exact congrArg Except.ok (h.seen ha hb (ha.covers_entry hm hv)
            (hb.covers_entry (h.covers hm) hv'))
      · obtain rfl := Except.ok.inj hv
        exact .of_entry ha hm ht
  obtain ⟨rfl, hlasts⟩ := hboth
  exact ⟨rfl, h.hands ha hb hc' hd' hp hq (@Effect.minds_of_still none)
    Effect.minds_of_still hlasts nofun⟩

/--
A mapping that both turn to is its own twin if it has the same entries in both, and if in both no
key came in but one, and that only where nothing was found under its identity.
-/
theorem twin_of_entries {x x' y y' : Content} (hp : Path E c.account c'.account)
    (hq : Path E' d.account d'.account) (hE : ∀ e, E e → e.Turns subject)
    (hE' : ∀ e, E' e → e.Turns subject) (hx : c.store.content? id = some x)
    (hy : d.store.content? id = some y) (hx' : c'.store.content? id = some x')
    (hy' : d'.store.content? id = some y') (hk : x.kind = .mapping) (hkey : c.owned.Covers key)
    (hentries : ∀ k, d'.store.entryAt? id k = c'.store.entryAt? id k)
    (hnew : ∀ w, x'.HasKey w →
      x.HasKey w ∨ w = key ∧ x.find c.store.heap (c.store.heap.identity key) = none)
    (hnew' : ∀ w, y'.HasKey w →
      y.HasKey w ∨ w = key ∧ y.find d.store.heap (d.store.heap.identity key) = none) :
    x'.Twin c'.store d'.store y' := by
  have htwin := h.content hx hy
  have hidentity := h.owned_identity ha hb hkey
  obtain ⟨z, hz, hkind, htag, howner⟩ := hp.identity ha hE hx'
  obtain rfl : x = z := Option.some.inj (hx.symm.trans hz)
  obtain ⟨z, hz, hkind', htag', howner'⟩ := hq.identity hb hE' hy'
  obtain rfl : y = z := Option.some.inj (hy.symm.trans hz)
  have hkx' : x'.kind = .mapping := hkind.trans hk
  have hky' : y'.kind = .mapping := (hkind'.trans htwin.kind).trans hk
  have hfind : ∀ k, y'.find d'.store.heap k = x'.find c'.store.heap k := fun k => by
    rw [← entryAt?_of_content hx', ← entryAt?_of_content hy', hentries]
  have hinj : ∀ w w', x'.HasKey w → y'.HasKey w' →
      d'.store.heap.identity w' = c'.store.heap.identity w → w' = w := fun w w' hw hw' hid => by
    have hbefore : c'.store.heap.identity w = c.store.heap.identity w :=
      hp.identity_held ha (fun e he => (hE e he).calm) hx' hw.mem_held
    have hbefore' : d'.store.heap.identity w' = d.store.heap.identity w' :=
      hq.identity_held hb (fun e he => (hE' e he).calm) hy' hw'.mem_held
    rw [hbefore, hbefore'] at hid
    rcases hnew w hw with hw | ⟨rfl, hnone⟩
    · rcases hnew' w' hw' with hw' | ⟨rfl, hnone⟩
      · have hwx := (htwin.keys hk w').mp hw'
        rw [h.identity ha hb (Account.covers_of_held (a := c.account) hx hwx.mem_held)
          (Account.covers_of_held (a := d.account) hy hw'.mem_held)] at hid
        exact (ha.tabled.content hx hk).hasKey_inj hwx hw hid
      · rw [hid, htwin.entries hk] at hnone
        exact absurd hnone hw.find_ne_none
    · rcases hnew' w' hw' with hw' | ⟨rfl, -⟩
      · rw [← hid, ← htwin.entries hk] at hnone
        exact absurd hnone hw'.find_ne_none
      · rfl
  exact {
    kind := hky'.trans hkx'.symm
    tag := htag'.trans (htwin.tag.trans htag.symm)
    owner := howner'.trans (htwin.owner.trans howner.symm)
    elements := fun hne => absurd hkx' hne
    entries := fun _ => hfind
    keys := fun _ => Content.keys_iff ((hp.kept ha).tabled.content hx' hkx')
      ((hq.kept hb).tabled.content hy' hky') hfind hinj }

/-- An entry is spared in both stores or in none. -/
theorem spares_eq {x y : Content} {k : Identity} (hx : c.store.content? id = some x)
    (hy : d.store.content? id = some y) (hk : x.kind = .mapping)
    (hv : x.find c.store.heap k = some v) : d.store.spares k v = c.store.spares k v := by
  have htwin := h.content hx hy
  obtain ⟨w, hw, rfl⟩ : ∃ w, x.HasKey w ∧ c.store.heap.identity w = k :=
    (ha.tabled.content hx hk).exists_hasKey (hv ▸ Option.some_ne_none v)
  have hw' := (htwin.keys hk w).mpr hw
  have hv' := (htwin.entries hk _).trans hv
  have hcovers : c.account.refs.Covers w := Account.covers_of_held hx hw.mem_held
  have hcovers' : d.account.refs.Covers w := Account.covers_of_held hy hw'.mem_held
  have hlost : d.store.lost v = c.store.lost v :=
    h.lost ha hb (Account.covers_of_held hx (ha.held_of_find hx hk hv))
      (Account.covers_of_held hy (hb.held_of_find hy (htwin.kind.trans hk) hv'))
  rw [spares_identity, ← h.identity ha hb hcovers hcovers', spares_identity, hlost,
    h.lost ha hb hcovers hcovers']

theorem mapMerge {compact : Bool} (hr : c.Requests (.mapMerge v compact) o c')
    (hr' : d.Requests (.mapMerge v compact) o' d') : o' = o ∧ c'.Mirrors d' := by
  obtain ⟨r, h₁, rfl, hc'⟩ := hr.told (f := fun _ => .done) rfl (fun _ => rfl) fun _ => rfl
  obtain ⟨r', h₁', rfl, hd'⟩ := hr'.told (f := fun _ => .done) rfl (fun _ => rfl) fun _ => rfl
  rcases Mapping.require_bind_eq_ok h₁ with ⟨hnone, rfl, hs⟩ | ⟨id, rfl, -⟩
  · obtain ⟨-, rfl, ht⟩ := (Mapping.require_bind_eq_ok h₁').resolve_right
      fun ⟨id, hid, _⟩ => hnone id hid
    rw [eq_of_same hs.symm hc', eq_of_same ht.symm hd']
    exact ⟨rfl, h⟩
  have hm := hr.covered _ (.head _)
  have hm' := hr'.covered _ (.head _)
  obtain ⟨u, rfl, hmerge⟩ := ClientM.lift_eq_ok.mp
    (show (monadLift (Mapping.mergeOverlay id compact) : ClientM Unit) c.store = _ from h₁)
  obtain ⟨u', rfl, hmerge'⟩ := ClientM.lift_eq_ok.mp
    (show (monadLift (Mapping.mergeOverlay id compact) : ClientM Unit) d.store = _ from h₁')
  obtain ⟨hp, hentries, -⟩ := mergeOverlay_clean ha hm hmerge
  obtain ⟨hq, hentries', -⟩ := mergeOverlay_clean hb hm' hmerge'
  have hp : Path _ c.account c'.account := (account_eq hc').symm ▸ hp
  have hq : Path _ d.account d'.account := (account_eq hd').symm ▸ hq
  have howned : d'.owned = c'.owned := by rw [hc', hd', h.owned]
  refine ⟨rfl, h.mind hp hq ha hb Effect.Merges.turns Effect.Merges.turns howned
    (fun v hv id ht => (Rooted.of_owned (hc' ▸ hv) ht).lasts) ?_⟩
  rintro _ ⟨⟩
  obtain ⟨x, y, hx, hy, htwin⟩ := h.exists_twin ha hb hm
  obtain ⟨x', hx', hk'⟩ := (hp.kept ha).mapping (show c'.owned.Covers _ from hc' ▸ hm)
  obtain ⟨y', hy', hky'⟩ := (hq.kept hb).mapping (show d'.owned.Covers _ from hd' ▸ hm')
  obtain ⟨z, hz, hk⟩ := ha.mapping hm
  obtain rfl : x = z := Option.some.inj (hx.symm.trans hz)
  have hkeys : ∀ e : Effect, e.Merges id compact → e.Leaves id ∨ e = .scrub id := fun e he =>
    Effect.Minds.leaves_or e (Effect.Merges.turns e he).1
  refine ⟨.of_owned hm rfl, x', y', hx', hy', h.twin_of_entries ha hb hp hq
    (fun e he => (Effect.Merges.turns e he).2)
    (fun e he => (Effect.Merges.turns e he).2) hx hy hx' hy'
    hk hm (fun k => ?_) (fun w hw => ?_) fun w hw => ?_⟩
  · rw [hentries', hentries]
    cases compact with
    | false => exact h.entryAt?_eq ha hb hm k
    | true =>
      -- A compaction drops what is not spared, and that is the same on both sides.
      rw [if_pos rfl, if_pos rfl]
      refine (congrArg (Option.filter _) (h.entryAt?_eq ha hb hm k)).trans ?_
      cases hv : c.store.entryAt? id k with
      | none => rfl
      | some v =>
        rw [entryAt?_of_content hx] at hv
        exact (Option.filter_some ..).trans ((congrArg (fun b => if b = true then some v else none)
          (h.spares_eq ha hb hx hy hk hv)).trans (Option.filter_some ..).symm)
  · obtain ⟨z, hz, -, hw⟩ := hp.hasKey ha hkeys hx' hk' hw
    exact .inl (Option.some.inj (hx.symm.trans hz) ▸ hw)
  · obtain ⟨z, hz, -, hw⟩ := hq.hasKey hb hkeys hy' hky' hw
    exact .inl (Option.some.inj (hy.symm.trans hz) ▸ hw)

/-- An array or record that both have scrubbed is its own twin. -/
theorem twin_of_recent {x' y' : Content} (hp : Path E c.account c'.account)
    (hq : Path E' d.account d'.account) (hE : ∀ e, E e → e.Minds) (hE' : ∀ e, E' e → e.Minds)
    (hx' : c'.store.content? id = some x') (hy' : d'.store.content? id = some y')
    (hk : x'.kind ≠ .mapping) (hrecent : c'.store.Recent id) (hrecent' : d'.store.Recent id) :
    x'.Twin c'.store d'.store y' := by
  obtain ⟨x, hx, hfades⟩ := hp.fading ha hE hx'
  obtain ⟨y, hy, hfades'⟩ := hq.fading hb hE' hy'
  have htwin := h.content hx hy
  have hkind : y'.kind = x'.kind := hfades'.kind.trans (htwin.kind.trans hfades.kind.symm)
  have hkx : x.kind ≠ .mapping := hfades.kind ▸ hk
  have hbuffer : y.buffer = x.buffer := htwin.elements hkx
  have hlist := hfades.buffer_eq (hp.holdsSteady ha hE).objects hkx
    (((hp.kept ha).fresh.content hx').alive (hrecent.content hx'))
  have hlist' := hfades'.buffer_eq (hq.holdsSteady hb hE').objects (htwin.kind.symm ▸ hkx)
    (((hq.kept hb).fresh.content hy').alive (hrecent'.content hy'))
  refine ⟨hkind, hfades'.tag.trans (htwin.tag.trans hfades.tag.symm),
    hfades'.owner.trans (htwin.owner.trans hfades.owner.symm), fun _ => ?_, fun hm => absurd hm hk,
    fun hm => absurd hm hk⟩
  refine Array.toList_inj.mp (hlist'.trans (Eq.trans ?_ hlist.symm))
  rw [hbuffer]
  refine List.map_congr_left fun v hv => ?_
  have hv := Array.mem_toList_iff.mp hv
  exact h.seen ha hb (Account.covers_of_held hx (Content.mem_held_of_buffer hv))
    (Account.covers_of_held hy (Content.mem_held_of_buffer (hbuffer ▸ hv)))

theorem indexGet (hr : c.Requests (.indexGet v key) o c')
    (hr' : d.Requests (.indexGet v key) o' d') :
    o' = o ∧ c'.Mirrors d' := by
  obtain ⟨r, h₁, rfl, hc'⟩ := hr.handed rfl (fun _ => rfl) fun _ => rfl
  obtain ⟨r', h₁', rfl, hd'⟩ := hr'.handed rfl (fun _ => rfl) fun _ => rfl
  have hv := hr.covered v (.head _)
  have hv' := hr'.covered v (.head _)
  suffices hboth : r' = r ∧ c'.Mirrors d' from ⟨congrArg _ hboth.1, hboth.2⟩
  cases v with
  | container shape id =>
    by_cases hs : shape = .mapping
    · subst hs
      exact h.mapGet ha hb hv (hr.covered key (.tail _ (.head _))) hc' hd' h₁ h₁'
    obtain ⟨hp, hrecent, x', hx', hk, rfl⟩ := indexGet_answers ha hv hs h₁
    obtain ⟨hq, hrecent', y', hy', -, rfl⟩ := indexGet_answers hb hv' hs h₁'
    have hp : Path _ c.account c'.account := (account_eq hc').symm ▸ hp
    have hq : Path _ d.account d'.account := (account_eq hd').symm ▸ hq
    have htwin := h.twin_of_recent ha hb hp hq (fun e he => (Effect.Keeps.turns e he).1)
      (fun e he => (Effect.Keeps.turns e he).1) hx' hy' hk hrecent hrecent'
    rw [htwin.elements hk] at hd' ⊢
    refine ⟨rfl, h.hands ha hb hc' hd' hp hq Effect.Keeps.turns Effect.Keeps.turns
      (fun w hw other ht => ?_) ?_⟩
    · exact (Lasts.of_owned hv rfl).shown (hp.shows_of_minds ha
        (fun e he => (Effect.Keeps.turns e he).1)
        ⟨x', hx', w, .inl ⟨hk, Sequence.mem_of_indexed hw⟩, ht⟩)
    · rintro _ ⟨⟩
      exact ⟨.of_owned hv rfl, x', y', hx', hy', htwin⟩
  | _ =>
    obtain ⟨rfl, hs⟩ := ClientM.refuse_eq_ok.mp h₁
    obtain ⟨rfl, ht⟩ := ClientM.refuse_eq_ok.mp h₁'
    rw [eq_of_same hs.symm (hc'.trans (zero_add _)), eq_of_same ht.symm (hd'.trans (zero_add _))]
    exact ⟨rfl, h⟩

/-! ## Writing to containers -/

/-- Both write to one container, which is its own twin then, and where nothing comes in sight. -/
theorem assigned {shape : Shape}
    (hr : c.Requests (.assign (.container shape id) key value) o c')
    (hr' : d.Requests (.assign (.container shape id) key value) o' d')
    (htwin : ∀ {x' y'}, c'.store.content? id = some x' → d'.store.content? id = some y' →
      x'.Twin c'.store d'.store y')
    (hshown : ∀ other, c'.store.Shows id other → c.Lasts other) : c'.Mirrors d' := by
  obtain ⟨hc', hp⟩ := hr.assign_path Effect.Writes.still .nest .change ha
  obtain ⟨hd', hq⟩ := hr'.assign_path Effect.Writes.still .nest .change hb
  have htables : c'.store.agenda.tables = c.store.agenda.tables := by
    obtain ⟨r, h₁, -⟩ := ClientM.bind_pure_eq_ok.mp hr.performed
    rw [Quiet.eq (x := (Sequence.assign (.container shape id) key value : ClientM Unit)) h₁]
  have htables' : d'.store.agenda.tables = d.store.agenda.tables := by
    obtain ⟨r, h₁, -⟩ := ClientM.bind_pure_eq_ok.mp hr'.performed
    rw [Quiet.eq (x := (Sequence.assign (.container shape id) key value : ClientM Unit)) h₁]
  have hvars : ∀ ref, c'.store.variableAt? ref = c.store.variableAt? ref :=
    hp.variableAt?_of_alters ha rfl Effect.Writes.alters
  have hvars' : ∀ ref, d'.store.variableAt? ref = d.store.variableAt? ref :=
    hq.variableAt?_of_alters hb rfl Effect.Writes.alters
  refine h.turn hp hq ha hb Effect.Writes.turns Effect.Writes.turns (by rw [hc', hd', h.owned])
    (fun ref => by rw [hvars', h.variableAt?, hvars]) (by rw [htables', h.tables, htables]) ?_ ?_
  · -- Owned values, variables and calls are the same, so nothing new is reachable from them.
    rintro other ⟨v, ht, hv | ⟨ref, hv⟩ | ⟨call, t, hcall, rfl⟩⟩
    · exact (Rooted.of_owned (hc' ▸ hv) ht).lasts
    · exact (Rooted.of_variable (hvars ref ▸ hv) ht).lasts
    · rw [call?_of_tables htables] at hcall
      exact (Rooted.of_call hcall ht).lasts
  · rintro _ ⟨⟩
    obtain ⟨x', hx'⟩ := ((hp.kept ha).there_of_flight (F := c'.owned)
      (hc' ▸ hr.covered _ (.head _))).exists_container
    obtain ⟨y', hy'⟩ := ((hq.kept hb).there_of_flight (F := d'.owned)
      (hd' ▸ hr'.covered _ (.head _))).exists_container
    have hx' := content?_of_container hx'
    have hy' := content?_of_container hy'
    exact ⟨_, _, hx', hy', htwin hx' hy', hshown⟩

/-- An element is overwritten alike in two arrays or records that mirror each other. -/
theorem overwrite {shape : Shape} (hs : shape ≠ .mapping)
    (hr : c.Requests (.assign (.container shape id) key value) o c')
    (hr' : d.Requests (.assign (.container shape id) key value) o' d') :
    o' = o ∧ c'.Mirrors d' := by
  have hv := hr.covered _ (.head _)
  have hvalue := hr.covered _ (.tail _ (.tail _ (.head _)))
  obtain ⟨r, h₁, ho⟩ := ClientM.bind_pure_eq_ok.mp hr.performed
  obtain ⟨r', h₁', ho'⟩ := ClientM.bind_pure_eq_ok.mp hr'.performed
  obtain ⟨x, x', hx, hx', hk, rfl, hbuffer⟩ := overwrite_answers ha hv hs hvalue h₁
  obtain ⟨y, y', hy, hy', hk', rfl, hbuffer'⟩ :=
    overwrite_answers hb (h.covers hv) hs (h.covers hvalue) h₁'
  have htwin := h.content hx hy
  have hsame : y.buffer = x.buffer := htwin.elements hk
  obtain ⟨hc', hp⟩ := hr.assign_path Effect.Writes.still .nest .change ha
  obtain ⟨hd', hq⟩ := hr'.assign_path Effect.Writes.still .nest .change hb
  obtain ⟨z, hz, hkind, htag, howner⟩ := hp.identity ha Effect.Writes.turns hx'
  obtain rfl : x = z := Option.some.inj (hx.symm.trans hz)
  obtain ⟨z, hz, hkind', htag', howner'⟩ := hq.identity hb Effect.Writes.turns hy'
  obtain rfl : y = z := Option.some.inj (hy.symm.trans hz)
  refine ⟨by rw [ho, ho', hsame], h.assigned ha hb hr hr' (fun {z z'} hz hz' => ?_) ?_⟩
  · obtain rfl : x' = z := Option.some.inj (hx'.symm.trans hz)
    obtain rfl : y' = z' := Option.some.inj (hy'.symm.trans hz')
    have hne : x'.kind ≠ .mapping := hkind.symm ▸ hk
    refine ⟨hkind'.trans (htwin.kind.trans hkind.symm), htag'.trans (htwin.tag.trans htag.symm),
      howner'.trans (htwin.owner.trans howner.symm), fun _ => ?_, fun hm => absurd hm hne,
      fun hm => absurd hm hne⟩
    rw [hbuffer, hbuffer', hsame, h.owned_seen ha hb hvalue]
  · rintro other ⟨z, hz, w, hw, ht⟩
    obtain rfl : x' = z := Option.some.inj (hx'.symm.trans hz)
    have hne : x'.kind ≠ .mapping := hkind.symm ▸ hk
    rcases hw with ⟨-, hw⟩ | ⟨hm, -⟩
    · rw [hbuffer] at hw
      rcases Sequence.mem_of_overwritten hw with hw | rfl
      · exact (Lasts.of_owned hv rfl).shown ⟨x, hx, w, .inl ⟨hk, hw⟩, ht⟩
      · exact .of_owned hvalue (target?_of_seen ht)
    · exact absurd hm hne

/-- Assignments to a mapping are refused in both stores or in none, and for the same reason. -/
theorem verdict_eq {ks ks' : List Identity} (hm : c.owned.Covers (.container .mapping id))
    (hkey : c.owned.Covers key) (hvalue : c.owned.Covers value) (hnodup : ks.Nodup)
    (hnodup' : ks'.Nodup) (hks : ∀ k, k ∈ ks ↔ c.store.entryAt? id k ≠ none)
    (hks' : ∀ k, k ∈ ks' ↔ d.store.entryAt? id k ≠ none) :
    Mapping.verdict d.store id key value ks'.length =
      Mapping.verdict c.store id key value ks.length := by
  have hperm := (List.perm_ext_iff_of_nodup hnodup' hnodup).mpr fun k => by
    rw [hks, hks', h.entryAt?_eq ha hb hm]
  unfold Mapping.verdict
  rw [h.owned_seen ha hb hkey, h.owned_seen ha hb hvalue, h.owned_identity ha hb hkey,
    h.entryAt?_eq ha hb hm, h.limits, hperm.length_eq]

theorem assignEntry (hr : c.Requests (.assign (.container .mapping id) key value) o c')
    (hr' : d.Requests (.assign (.container .mapping id) key value) o' d') :
    o' = o ∧ c'.Mirrors d' := by
  have hm := hr.covered _ (.head _)
  have hkey := hr.covered _ (.tail _ (.head _))
  have hvalue := hr.covered _ (.tail _ (.tail _ (.head _)))
  have hm' := h.covers hm
  have hkey' := h.covers hkey
  have hvalue' := h.covers hvalue
  obtain ⟨r, h₁, ho⟩ := ClientM.bind_pure_eq_ok.mp hr.performed
  obtain ⟨r', h₁', ho'⟩ := ClientM.bind_pure_eq_ok.mp hr'.performed
  have h₁ : Mapping.assign id key value c.store = .ok (r, c'.store) := h₁
  have h₁' : Mapping.assign id key value d.store = .ok (r', d'.store) := h₁'
  obtain ⟨ks, hnodup, hks, hverdict⟩ := mapAssign_answers ha hm hkey hvalue h₁
  obtain ⟨ks', hnodup', hks', hverdict'⟩ := mapAssign_answers hb hm' hkey' hvalue' h₁'
  have hsame : r' = r := by
    rw [hverdict, hverdict', h.verdict_eq ha hb hm hkey hvalue hnodup hnodup' hks hks']
  have hentry := mapAssign_entryAt? ha hm hkey hvalue h₁
  have hentry' := mapAssign_entryAt? hb hm' hkey' hvalue' h₁'
  obtain ⟨hc', hp⟩ := hr.assign_path Effect.Writes.still .nest .change ha
  obtain ⟨hd', hq⟩ := hr'.assign_path Effect.Writes.still .nest .change hb
  obtain ⟨x, y, hx, hy, -⟩ := h.exists_twin ha hb hm
  obtain ⟨x', hx', hkx'⟩ := (hp.kept ha).mapping (show c'.owned.Covers _ from hc' ▸ hm)
  obtain ⟨y', hy', hky'⟩ := (hq.kept hb).mapping (show d'.owned.Covers _ from hd' ▸ hm')
  have hnew : ∀ w, x'.HasKey w →
      x.HasKey w ∨
        w = key ∧ x.find c.store.heap (c.store.heap.identity key) = none := by
    intro w hw
    obtain ⟨z, hz, -, hw⟩ := mapAssign_hasKey ha hm hkey hvalue h₁ hx' hkx' hw
    rwa [← Option.some.inj (hx.symm.trans hz)] at hw
  have hnew' : ∀ w, y'.HasKey w →
      y.HasKey w ∨
        w = key ∧ y.find d.store.heap (d.store.heap.identity key) = none := by
    intro w hw
    obtain ⟨z, hz, -, hw⟩ := mapAssign_hasKey hb hm' hkey' hvalue' h₁' hy' hky' hw
    rwa [← Option.some.inj (hy.symm.trans hz)] at hw
  obtain ⟨z, hz, hkx⟩ := ha.mapping hm
  obtain rfl : x = z := Option.some.inj (hx.symm.trans hz)
  refine ⟨by rw [ho, ho', hsame], h.assigned ha hb hr hr' (fun {z z'} hz hz' => ?_) ?_⟩
  · refine h.twin_of_entries ha hb hp hq Effect.Writes.turns Effect.Writes.turns hx hy hz
      hz' hkx hkey
      (fun k => ?_) ?_ ?_
    · rw [hentry, hentry', hsame, h.owned_identity ha hb hkey, h.owned_seen ha hb hvalue,
        h.entryAt?_eq ha hb hm]
    · rwa [← Option.some.inj (hx'.symm.trans hz)]
    · rwa [← Option.some.inj (hy'.symm.trans hz')]
  · rintro other ⟨z, hz, w, hw, ht⟩
    rw [← Option.some.inj (hx'.symm.trans hz)] at hw
    rcases hw with ⟨hne, -⟩ | ⟨-, hw | ⟨k, hw⟩⟩
    · exact absurd hkx' hne
    · rcases hnew w hw with hw | ⟨rfl, -⟩
      · exact (Lasts.of_owned hm rfl).shown ⟨x, hx, w, .inr ⟨hkx, .inl hw⟩, ht⟩
      · exact .of_owned hkey ht
    · have hx' : c'.store.content? id = some x' := hx'
      rw [← entryAt?_of_content hx', hentry] at hw
      split at hw
      · split at hw
        · cases hw
        · obtain rfl := Option.some.inj hw
          exact .of_owned hvalue (target?_of_seen ht)
      · rw [entryAt?_of_content hx] at hw
        exact (Lasts.of_owned hm rfl).shown ⟨x, hx, w, .inr ⟨hkx, .inr ⟨k, hw⟩⟩, ht⟩

theorem assign (hr : c.Requests (.assign v key value) o c')
    (hr' : d.Requests (.assign v key value) o' d') : o' = o ∧ c'.Mirrors d' := by
  cases v with
  | container shape id =>
    by_cases hs : shape = .mapping
    · subst hs
      exact h.assignEntry ha hb hr hr'
    · exact h.overwrite ha hb hs hr hr'
  | _ =>
    obtain ⟨r, h₁, rfl, hc'⟩ := hr.told (f := fun _ => .done) rfl (fun _ => rfl) fun _ => rfl
    obtain ⟨r', h₁', rfl, hd'⟩ := hr'.told (f := fun _ => .done) rfl (fun _ => rfl) fun _ => rfl
    obtain ⟨rfl, hs⟩ := ClientM.refuse_eq_ok.mp h₁
    obtain ⟨rfl, ht⟩ := ClientM.refuse_eq_ok.mp h₁'
    rw [eq_of_same hs.symm hc', eq_of_same ht.symm hd']
    exact ⟨rfl, h⟩

/-! ## Writing to dataspaces -/

/-- Both write the same to dataspaces, of which nothing comes in sight. -/
theorem posted (hp : Path E c.account c'.account) (hq : Path E' d.account d'.account)
    (hE : ∀ e, E e → e.Turns none) (hE' : ∀ e, E' e → e.Turns none) (hc' : c'.owned = c.owned)
    (hd' : d'.owned = d.owned)
    (hvars : ∀ ref, d'.store.variableAt? ref = c'.store.variableAt? ref)
    (htables : d'.store.agenda.tables = c'.store.agenda.tables)
    (hvar : ∀ ref v, c'.store.variableAt? ref = some v →
      c.store.variableAt? ref = some v ∨ c.Offers v)
    (hcall : ∀ call t, c'.store.call? call = some t →
      c.store.call? call = some t ∨ c.Offers t.payload) :
    c'.Mirrors d' := by
  refine h.turn hp hq ha hb hE hE' (by rw [hc', hd', h.owned]) hvars htables ?_ nofun
  rintro id ⟨v, ht, hv | ⟨ref, hv⟩ | ⟨call, t, hc, rfl⟩⟩
  · exact (Rooted.of_owned (hc' ▸ hv) ht).lasts
  · rcases hvar ref v hv with hv | hv
    · exact (Rooted.of_variable hv ht).lasts
    · exact .of_offered hv ht
  · rcases hcall call t hc with hc | hc
    · exact (Rooted.of_call hc ht).lasts
    · exact .of_offered hc ht

theorem assignVariable {ref : VariableRef} (hr : c.Requests (.assignVariable ref v) o c')
    (hr' : d.Requests (.assignVariable ref v) o' d') : o' = o ∧ c'.Mirrors d' := by
  obtain ⟨r, h₁, rfl, hc'⟩ := hr.told (f := fun _ => .done) rfl (fun _ => rfl) fun _ => rfl
  obtain ⟨r', h₁', rfl, hd'⟩ := hr'.told (f := fun _ => .done) rfl (fun _ => rfl) fun _ => rfl
  have hv := hr.covered v (.head _)
  have hv' := hr'.covered v (.head _)
  obtain ⟨hanswer, hvars⟩ := assignVariable_answers ha hv h₁
  obtain ⟨hanswer', hvars'⟩ := assignVariable_answers hb hv' h₁'
  have hp : Path (Effect.Turns none) c.account c'.account := (account_eq hc').symm ▸
    walk_assignVariable Effect.turns_still (fun _ => Effect.turns_write ref) ha hv h₁
  have hq : Path (Effect.Turns none) d.account d'.account := (account_eq hd').symm ▸
    walk_assignVariable Effect.turns_still (fun _ => Effect.turns_write ref) hb hv' h₁'
  have htables : c'.store.agenda.tables = c.store.agenda.tables := by
    rw [Quiet.eq (x := (Store.assignVariable ref v : ClientM Unit)) h₁]
  have htables' : d'.store.agenda.tables = d.store.agenda.tables := by
    rw [Quiet.eq (x := (Store.assignVariable ref v : ClientM Unit)) h₁']
  refine ⟨by rw [hanswer, hanswer', h.askVariable_eq], h.posted ha hb hp hq (fun _ he => he)
    (fun _ he => he) hc' hd' (fun other => ?_) (by rw [htables, htables', h.tables])
    (fun other w hw => ?_) fun call t hc => ?_⟩
  · rw [hvars, hvars', h.variableAt?, h.variableAt?, h.owned_seen ha hb hv]
  · rw [hvars] at hw
    split at hw
    · obtain ⟨u, -, rfl⟩ := Option.map_eq_some_iff.mp hw
      exact .inr ⟨v, hv, rfl⟩
    · exact .inl hw
  · exact .inl (call?_of_tables htables call ▸ hc)

/-- Both write the same to the callout tables. -/
theorem filed (hc' : c'.owned = c.owned) (hd' : d'.owned = d.owned)
    (hp : Path Effect.Posts c.account c'.account) (hq : Path Effect.Posts d.account d'.account)
    (htables : d'.store.agenda.tables = c'.store.agenda.tables)
    (hcall : ∀ call t, c'.store.call? call = some t →
      c.store.call? call = some t ∨ c.Offers t.payload) :
    c'.Mirrors d' := by
  have hvars : ∀ ref, c'.store.variableAt? ref = c.store.variableAt? ref :=
    hp.variableAt?_of_alters ha rfl Effect.Posts.alters
  have hvars' : ∀ ref, d'.store.variableAt? ref = d.store.variableAt? ref :=
    hq.variableAt?_of_alters hb rfl Effect.Posts.alters
  exact h.posted ha hb hp hq Effect.Posts.turns Effect.Posts.turns hc' hd'
    (fun ref => by rw [hvars', h.variableAt?, hvars]) htables
    (fun ref v hv => .inl (hvars ref ▸ hv)) hcall

theorem addCall {ds : DataspaceId} {due : Nat} (hr : c.Requests (.addCall ds due v) o c')
    (hr' : d.Requests (.addCall ds due v) o' d') : o' = o ∧ c'.Mirrors d' := by
  obtain ⟨r, h₁, rfl, hc'⟩ :=
    hr.told (f := fun handle : CallHandle => .number handle.number) rfl (fun _ => rfl) fun _ => rfl
  obtain ⟨r', h₁', rfl, hd'⟩ :=
    hr'.told (f := fun handle : CallHandle => .number handle.number) rfl (fun _ => rfl) fun _ => rfl
  have hv := hr.covered v (.head _)
  have hv' := hr'.covered v (.head _)
  obtain ⟨hanswer, htables⟩ := addCall_posts h₁
  obtain ⟨hanswer', htables'⟩ := addCall_posts h₁'
  have hp : Path Effect.Posts c.account c'.account := (account_eq hc').symm ▸
    walk_addCall .still (fun _ => .record) ha hv h₁
  have hq : Path Effect.Posts d.account d'.account := (account_eq hd').symm ▸
    walk_addCall .still (fun _ => .record) hb hv' h₁'
  refine ⟨by rw [hanswer, hanswer', h.tables], h.filed ha hb hc' hd' hp hq ?_ fun call t hc => ?_⟩
  · rw [htables, htables', h.tables, h.owned_seen ha hb hv]
  · refine call?_of_amended (P := fun t => c.Offers t.payload) htables (fun t handle d hd => ?_) hc
    refine (eq_or_of_filed hd).imp_right fun hnew => ?_
    subst hnew
    exact ⟨v, hv, rfl⟩

theorem removeCall {call : CallRef} (hr : c.Requests (.removeCall call) o c')
    (hr' : d.Requests (.removeCall call) o' d') : o' = o ∧ c'.Mirrors d' := by
  obtain ⟨r, h₁, rfl, hc'⟩ := hr.told (f := .number) rfl (fun _ => rfl) fun _ => rfl
  obtain ⟨r', h₁', rfl, hd'⟩ := hr'.told (f := .number) rfl (fun _ => rfl) fun _ => rfl
  obtain ⟨hanswer, htables⟩ := removeCall_posts h₁
  obtain ⟨hanswer', htables'⟩ := removeCall_posts h₁'
  have hp : Path Effect.Posts c.account c'.account := (account_eq hc').symm ▸
    walk_removeCall .still (fun _ => .record call) h₁
  have hq : Path Effect.Posts d.account d'.account := (account_eq hd').symm ▸
    walk_removeCall .still (fun _ => .record call) h₁'
  refine ⟨by rw [hanswer, hanswer', h.askCall_eq],
    h.filed ha hb hc' hd' hp hq ?_ fun other t hc => ?_⟩
  · rw [htables, htables', h.tables, h.call?]
  · split at htables
    · exact .inl (call?_of_tables htables other ▸ hc)
    · refine call?_of_amended (P := fun t => c.Offers t.payload) htables
        (fun t handle d hd => .inl ?_) hc
      rw [Std.TreeMap.getElem?_erase] at hd
      split at hd
      · cases hd
      · exact hd

theorem replaceCall {call : CallRef} {due : Nat} (hr : c.Requests (.replaceCall call due v) o c')
    (hr' : d.Requests (.replaceCall call due v) o' d') : o' = o ∧ c'.Mirrors d' := by
  obtain ⟨r, h₁, rfl, hc'⟩ := hr.told (f := fun _ => .done) rfl (fun _ => rfl) fun _ => rfl
  obtain ⟨r', h₁', rfl, hd'⟩ := hr'.told (f := fun _ => .done) rfl (fun _ => rfl) fun _ => rfl
  have hv := hr.covered v (.head _)
  have hv' := hr'.covered v (.head _)
  obtain ⟨hanswer, htables⟩ := replaceCall_posts h₁
  obtain ⟨hanswer', htables'⟩ := replaceCall_posts h₁'
  have hp : Path Effect.Posts c.account c'.account := (account_eq hc').symm ▸
    walk_replaceCall .still (fun _ => .record call) ha hv h₁
  have hq : Path Effect.Posts d.account d'.account := (account_eq hd').symm ▸
    walk_replaceCall .still (fun _ => .record call) hb hv' h₁'
  refine ⟨by rw [hanswer, hanswer', h.askCall_eq],
    h.filed ha hb hc' hd' hp hq ?_ fun other t hc => ?_⟩
  · rw [htables, htables', h.tables, h.call?, h.owned_seen ha hb hv]
  · split at htables
    · exact .inl (call?_of_tables htables other ▸ hc)
    · refine call?_of_amended (P := fun t => c.Offers t.payload) htables
        (fun t handle d hd => ?_) hc
      refine (eq_or_of_filed hd).imp_right fun hnew => ?_
      subst hnew
      exact ⟨v, hv, rfl⟩

/-- A request to a mirror ends the same way, and leaves a mirror. -/
theorem request {op : Operation} (hop : op.everyday = true) (hr : c.Requests op o c')
    (hr' : d.Requests op o' d') : o' = o ∧ c'.Mirrors d' := by
  cases op with
  | retain v => exact h.retain ha hb hr hr'
  | release v => exact h.release ha hb hr hr'
  | indexGet v key => exact h.indexGet ha hb hr hr'
  | assign v key value => exact h.assign ha hb hr hr'
  | mapMerge v compact => exact h.mapMerge ha hb hr hr'
  | readVariable ref => exact h.readVariable ha hb hr hr'
  | assignVariable ref v => exact h.assignVariable ha hb hr hr'
  | addCall ds due v => exact h.addCall ha hb hr hr'
  | removeCall call => exact h.removeCall ha hb hr hr'
  | replaceCall call due v => exact h.replaceCall ha hb hr hr'
  | mapGet v key =>
    obtain ⟨r, h₁, rfl, hc'⟩ := hr.handed rfl (fun _ => rfl) fun _ => rfl
    obtain ⟨r', h₁', rfl, hd'⟩ := hr'.handed rfl (fun _ => rfl) fun _ => rfl
    obtain ⟨rfl, hmirrors⟩ := h.mapGet ha hb (hr.covered v (.head _))
      (hr.covered key (.tail _ (.head _))) hc' hd' h₁ h₁'
    exact ⟨rfl, hmirrors⟩
  | _ => cases hop

end

end Mirrors

end Client

end PlaneStore
