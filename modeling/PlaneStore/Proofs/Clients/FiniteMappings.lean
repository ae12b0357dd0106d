import PlaneStore.Proofs.Clients.NoFaults
import PlaneStore.Proofs.Mapping.EntryMap

/-!
# Mappings as clients see them

To a disciplined client a mapping is a finite map, wherever its pairs are: in the sorted buffer, in
the overlay or in the swap.
-/

namespace PlaneStore

open Store

/-- A container that is there afterwards was there before, and held the same. -/
def Store.HoldsSame (s s' : Store) (id : ContainerId) : Prop :=
  ∀ x', s'.content? id = some x' → ∃ x, s.content? id = some x ∧ x.kind = x'.kind ∧
    (x.kind ≠ .mapping → x.buffer = x'.buffer) ∧
    (x.kind = .mapping → ∀ k, s.entryAt? id k = s'.entryAt? id k)

theorem Path.holdsSame {E : Effect → Prop} {a b : Account} {id : ContainerId} (h : Path E a b)
    (ha : a.Kept) (hE : ∀ e, E e → e.Leaves id) : HoldsSame a.store b.store id := by
  intro x' hx'
  by_cases hk : x'.kind = .mapping
  · obtain ⟨x, hx, hkx, hfind⟩ := h.find ha hE hx' hk
    refine ⟨x, hx, hkx.trans hk.symm, fun hne => absurd hkx hne, fun _ k => ?_⟩
    rw [entryAt?_of_content hx, entryAt?_of_content hx', hfind]
  · obtain ⟨x, hx, hkx, hbuffer⟩ := h.buffer ha hE hx' hk
    exact ⟨x, hx, hkx, fun _ => hbuffer, fun hkx' => absurd (hkx ▸ hkx') hk⟩

/-- The effects of a request about one container. -/
def Effect.Touches (id : ContainerId) : Effect → Prop
  | .still | .nest | .evict _ => True
  | .scrub other | .change other _ => other = id
  | _ => False

theorem Effect.Touches.leaves {id other : ContainerId} (hne : other ≠ id) :
    ∀ e : Effect, e.Touches id → e.Leaves other
  | .still, _ | .nest, _ | .evict _, _ => trivial
  | .scrub _, rfl | .change _ _, rfl => hne.symm

theorem Effect.Touches.calm {id : ContainerId} : ∀ e : Effect, e.Touches id → e.Calm
  | .still, _ | .nest, _ | .evict _, _ | .scrub _, _ | .change _ _, _ => trivial

theorem Effect.Merges.touches {id : ContainerId} {compact : Bool} :
    ∀ e : Effect, e.Merges id compact → e.Touches id
  | _, .inl rfl => trivial
  | _, .inr ⟨_, rfl⟩ => rfl

namespace Operation

/-- The requests about one mapping, but for those that make new containers of it. -/
inductive About (id : ContainerId) : Operation → Prop
  | assign (key value : Value) : About id (.assign (.container .mapping id) key value)
  | get (key : Value) : About id (.mapGet (.container .mapping id) key)
  | contains (key : Value) : About id (.mapContains (.container .mapping id) key)
  | merge (compact : Bool) : About id (.mapMerge (.container .mapping id) compact)
  | mapSize : About id (.mapSize (.container .mapping id))
  | size : About id (.size (.container .mapping id))
  | elements : About id (.elements (.container .mapping id))
  | evict : About id (.evict (.container .mapping id))
  | backUp : About id (.backUp (.container .mapping id))

/-- A request about one mapping touches no other container. -/
theorem About.path {op : Operation} {outcome : Outcome} {s s' : Store} {F : Refs}
    {id : ContainerId} (hop : op.About id) (ha : Account.Kept ⟨s, F, 0, none⟩)
    (hd : ∀ v ∈ op.passed, F.Covers v) (h : s.perform op = .ok (outcome, s')) :
    ∃ G, Path (Effect.Touches id) ⟨s, F, 0, none⟩ ⟨s', G, 0, none⟩ := by
  cases hop with
  | assign key value =>
    obtain ⟨r, h, -⟩ := ClientM.bind_pure_eq_ok.mp h
    have hsettles := walk_mapAssign ha (hd _ (.head _)) (hd _ (.tail _ (.head _)))
      (hd _ (.tail _ (.tail _ (.head _)))) (show Mapping.assign id key value s = .ok (r, s') from h)
    cases r with
    | error e => exact ⟨F, hsettles.of_still trivial⟩
    | ok u => exact ⟨F, hsettles.path trivial trivial fun _ _ => rfl⟩
  | get key =>
    obtain ⟨r, h, -⟩ := ClientM.bind_pure_eq_ok.mp h
    exact ⟨_, walk_mapGetHanding ha (hd _ (.head _)) trivial h⟩
  | contains key =>
    obtain ⟨r, h, -⟩ := ClientM.bind_pure_eq_ok.mp h
    exact ⟨F, mapContains_eq_ok trivial h⟩
  | merge compact =>
    obtain ⟨r, h, -⟩ := ClientM.bind_pure_eq_ok.mp h
    obtain ⟨u, -, h⟩ := ClientM.lift_eq_ok.mp
      (show (monadLift (Mapping.mergeOverlay id compact) : ClientM Unit) s = .ok (r, s') from h)
    exact ⟨F, (mergeOverlay_clean ha (hd _ (.head _)) h).1.mono Effect.Merges.touches⟩
  | mapSize | size =>
    obtain ⟨r, h, -⟩ := ClientM.bind_pure_eq_ok.mp h
    exact ⟨F, (mapSize_answers ha (hd _ (.head _)) h).1.mono Effect.Merges.touches⟩
  | elements =>
    obtain ⟨r, h, -⟩ := ClientM.bind_pure_eq_ok.mp h
    exact ⟨F, (mapElements_answers ha (hd _ (.head _)) h).1.mono Effect.Merges.touches⟩
  | evict =>
    obtain ⟨r, h, -⟩ := ClientM.bind_pure_eq_ok.mp h
    exact ⟨F, walk_evictContainer trivial (fun _ _ => trivial) ha h⟩
  | backUp =>
    obtain ⟨r, h, -⟩ := ClientM.bind_pure_eq_ok.mp h
    obtain ⟨u, -, h⟩ := ClientM.lift_eq_ok.mp
      (show (monadLift (makeWritable id) : ClientM Unit) s = .ok (r, s') from h)
    exact ⟨F, (walk_makeWritable trivial trivial ha h).1⟩

end Operation

namespace Client

variable {limits : Limits} {c c' : Client} {id : ContainerId} {key value : Value}
  {outcome : Outcome} {op : Operation}

/-! ## Request by request -/

/-- An assignment changes no other container, and hands nothing out. -/
theorem Requests.assign_path {E : Effect → Prop} {shape : Shape} (still : E .still) (nest : E .nest)
    (change : ∀ ed, E (.change id ed)) (ha : c.account.Kept)
    (hr : c.Requests (.assign (.container shape id) key value) outcome c') :
    c'.owned = c.owned ∧ Path E c.account c'.account := by
  obtain ⟨r, h, rfl⟩ := ClientM.bind_pure_eq_ok.mp hr.performed
  have howned : c'.owned = c.owned := by
    cases r <;> exact hr.settled
  refine ⟨howned, ?_⟩
  unfold account
  rw [howned]
  refine walk_assign still (fun _ => nest) (fun _ other ed hed => ?_) ha (hr.covered _ (.head _))
    (hr.covered _ (.tail _ (.head _))) (hr.covered _ (.tail _ (.tail _ (.head _)))) h
  cases hed <;> exact change _

/--
An assignment puts the value under its key, or nothing if it is nil or lost, and no other key is
affected.
-/
theorem Requests.assign_entries {answer : Answer} (ha : c.account.Kept)
    (hr : c.Requests (.assign (.container .mapping id) key value) (.ok answer) c')
    (k : Identity) : c'.store.entryAt? id k =
      if c.store.heap.identity key = k then
        if value = .nil ∨ c.store.lost value then none else some value
      else c.store.entryAt? id k := by
  have hm := hr.covered (.container .mapping id) (.head _)
  obtain ⟨r, h, hok⟩ := ClientM.bind_pure_eq_ok.mp hr.performed
  cases r with
  | error e => cases hok
  | ok u =>
    have hassigned : Mapping.Assigned id (c.store.heap.identity key) (c.store.seen value) c.account
        ⟨c'.store, c.owned, 0, none⟩ :=
      walk_mapAssign ha hm (hr.covered key (.tail _ (.head _)))
        (hr.covered value (.tail _ (.tail _ (.head _)))) h
    rw [hassigned.entryAt? ha hm]
    refine if_congr Iff.rfl ?_ rfl
    unfold Store.seen
    by_cases hl : c.store.lost value = true
    · rw [if_pos hl, if_pos rfl, if_pos (.inr hl)]
    · rw [if_neg hl]
      exact if_congr (or_iff_left hl).symm rfl rfl

/-- A lookup is answered with the entry as it is seen, or nil, and changes no entry. -/
theorem Requests.mapGet_entries (ha : c.account.Kept)
    (hr : c.Requests (.mapGet (.container .mapping id) key) outcome c') :
    outcome = .ok (.value
      (c.store.seen ((c.store.entryAt? id (c.store.heap.identity key)).getD .nil))) ∧
    ∀ k, c'.store.entryAt? id k = c.store.entryAt? id k := by
  obtain ⟨r, h, rfl⟩ := ClientM.bind_pure_eq_ok.mp hr.performed
  obtain ⟨rfl, hentries⟩ := mapGet_answers ha
    (hr.covered (.container .mapping id) (.head _))
    (hr.covered key (.tail _ (.head _))) h
  exact ⟨rfl, hentries⟩

/-- A key is contained if it has an entry, lost or not. -/
theorem Requests.mapContains_entries (ha : c.account.Kept)
    (hr : c.Requests (.mapContains (.container .mapping id) key) outcome c') :
    outcome = .ok (.bool (c.store.entryAt? id (c.store.heap.identity key)).isSome) ∧
    ∀ k, c'.store.entryAt? id k = c.store.entryAt? id k := by
  obtain ⟨r, h, rfl⟩ := ClientM.bind_pure_eq_ok.mp hr.performed
  obtain ⟨rfl, hentries⟩ := mapContains_answers ha
    (hr.covered (.container .mapping id) (.head _))
    (hr.covered key (.tail _ (.head _))) h
  exact ⟨rfl, hentries⟩

/-- A merge changes no entry, and a compaction drops those that are lost. -/
theorem Requests.merge_entries {compact : Bool} (ha : c.account.Kept)
    (hr : c.Requests (.mapMerge (.container .mapping id) compact) outcome c') (k : Identity) :
    c'.store.entryAt? id k =
      if compact then (c.store.entryAt? id k).filter (c.store.spares k)
      else c.store.entryAt? id k := by
  obtain ⟨r, h, -⟩ := ClientM.bind_pure_eq_ok.mp hr.performed
  obtain ⟨u, -, h⟩ := ClientM.lift_eq_ok.mp (show
    (monadLift (Mapping.mergeOverlay id compact) : ClientM Unit) c.store = .ok (r, c'.store) from h)
  exact (mergeOverlay_clean ha
    (hr.covered (.container .mapping id) (.head _)) h).2.1 k

/-- Both ways to ask for the size of a mapping compact it and count what is left. -/
theorem Requests.size_entries (ha : c.account.Kept)
    (hop : op = .mapSize (.container .mapping id) ∨ op = .size (.container .mapping id))
    (hr : c.Requests op outcome c') :
    (∀ k, c'.store.entryAt? id k = (c.store.entryAt? id k).filter (c.store.spares k)) ∧
    ∃ ps, c'.store.Listing id ps ∧ outcome = .ok (.number ps.length) := by
  have hm : c.owned.Covers (.container .mapping id) := by
    rcases hop with rfl | rfl <;> exact hr.covered _ (.head _)
  obtain ⟨r, h, rfl⟩ : ∃ r, Mapping.size (.container .mapping id) c.store = .ok (r, c'.store) ∧
      outcome = r.map .number := by
    rcases hop with rfl | rfl <;> exact ClientM.bind_pure_eq_ok.mp hr.performed
  obtain ⟨-, hentries, ps, hlisting, rfl⟩ := mapSize_answers ha hm h
  exact ⟨hentries, ps, hlisting, rfl⟩

/-- The elements of a mapping are its entries, in the order of the keys. -/
theorem Requests.elements_entries (ha : c.account.Kept)
    (hr : c.Requests (.elements (.container .mapping id)) outcome c') :
    (∀ k, c'.store.entryAt? id k = c.store.entryAt? id k) ∧
    ∃ ps, c'.store.Listing id ps ∧ outcome = .ok (.values (Pair.flatten ps)) := by
  obtain ⟨r, h, rfl⟩ := ClientM.bind_pure_eq_ok.mp hr.performed
  obtain ⟨-, hentries, ps, hlisting, rfl⟩ := mapElements_answers ha
    (hr.covered (.container .mapping id) (.head _)) h
  exact ⟨hentries, ps, hlisting, rfl⟩

/-- Evicting a mapping and backing it up leave its entries alone. -/
theorem Requests.moving_entries (ha : c.account.Kept)
    (hop : op = .evict (.container .mapping id) ∨ op = .backUp (.container .mapping id))
    (hr : c.Requests op outcome c') (k : Identity) :
    c'.store.entryAt? id k = c.store.entryAt? id k := by
  have hm : c.owned.Covers (.container .mapping id) := by
    rcases hop with rfl | rfl <;> exact hr.covered _ (.head _)
  have hpath : Path (Effect.Leaves id) c.account ⟨c'.store, c.owned, 0, none⟩ := by
    rcases hop with rfl | rfl
    · obtain ⟨r, h, -⟩ := ClientM.bind_pure_eq_ok.mp hr.performed
      exact walk_evictContainer trivial (fun _ _ => trivial) ha h
    · obtain ⟨r, h, -⟩ := ClientM.bind_pure_eq_ok.mp hr.performed
      obtain ⟨u, -, h⟩ := ClientM.lift_eq_ok.mp (show
        (monadLift (makeWritable id) : ClientM Unit) c.store = .ok (r, c'.store) from h)
      exact (walk_makeWritable trivial trivial ha h).1
  exact hpath.entryAt? ha (fun _ he => he) hm

/-! ## Mappings are finite maps -/

/--
A mapping is a finite map. An assignment changes it under the key, or takes the key out; a lookup
answers what is under the key; merging, listing, evicting, loading and backing up leave the map
alone; compacting leaves the entries of which nothing is lost, and these the size counts; the
elements list the map in the order of its keys. No other container changes.
-/
theorem Reachable.mapping_is_map (h : Reachable limits c) {m : Value}
    (hid : m = .container .mapping id) (hm : c.owned.Covers m) :
    (∀ key value answer c', c.Requests (.assign m key value) (.ok answer) c' → ∀ k,
      c'.store.entryAt? id k =
        if c.store.heap.identity key = k then
          if value = .nil ∨ c.store.lost value then none else some value
        else c.store.entryAt? id k) ∧
    (∀ key outcome c', c.Requests (.mapGet m key) outcome c' → outcome = .ok (.value
      (c.store.seen ((c.store.entryAt? id (c.store.heap.identity key)).getD .nil)))) ∧
    (∀ op outcome c', (op ∈ [.mapMerge m false, .elements m, .evict m, .backUp m] ∨
      ∃ key, op = .mapGet m key ∨ op = .mapContains m key) → c.Requests op outcome c' →
        ∀ k, c'.store.entryAt? id k = c.store.entryAt? id k) ∧
    (∀ u s', faultIn id c.store = .ok (u, s') → ∀ k, s'.entryAt? id k = c.store.entryAt? id k) ∧
    (∀ op outcome c', op ∈ [.mapMerge m true, .size m, .mapSize m] → c.Requests op outcome c' →
      ∀ k, c'.store.entryAt? id k = (c.store.entryAt? id k).filter (c.store.spares k)) ∧
    (∀ op outcome c', op ∈ [.size m, .mapSize m] → c.Requests op outcome c' →
      ∃ ps, c'.store.Listing id ps ∧ outcome = .ok (.number ps.length)) ∧
    (∀ outcome c', c.Requests (.elements m) outcome c' →
      ∃ ps, c'.store.Listing id ps ∧ outcome = .ok (.values (Pair.flatten ps))) ∧
    ∀ op outcome c', op.About id → c.Requests op outcome c' →
      ∀ other, other ≠ id → HoldsSame c.store c'.store other := by
  subst hid
  have ha := h.kept
  refine ⟨fun key value answer c' hr => hr.assign_entries ha,
    fun key outcome c' hr => (hr.mapGet_entries ha).1, fun op outcome c' hop hr k => ?_,
    fun u s' hs => faultIn_entryAt? ha hm hs, fun op outcome c' hop hr => ?_,
    fun op outcome c' hop hr => ?_, fun outcome c' hr => (hr.elements_entries ha).2,
    fun op outcome c' hop hr other hne => ?_⟩
  · rcases hop with hop | ⟨key, rfl | rfl⟩
    · simp only [List.mem_cons, List.not_mem_nil, or_false] at hop
      rcases hop with rfl | rfl | hop
      · exact hr.merge_entries ha k
      · exact (hr.elements_entries ha).1 k
      · exact hr.moving_entries ha hop k
    · exact (hr.mapGet_entries ha).2 k
    · exact (hr.mapContains_entries ha).2 k
  · simp only [List.mem_cons, List.not_mem_nil, or_false] at hop
    rcases hop with rfl | hop
    · exact hr.merge_entries ha
    · exact (hr.size_entries ha hop.symm).1
  · simp only [List.mem_cons, List.not_mem_nil, or_false] at hop
    exact (hr.size_entries ha hop.symm).2
  · obtain ⟨G, hpath⟩ := hop.path ha hr.covered hr.performed
    exact hpath.holdsSame ha (Effect.Touches.leaves hne)

/-- Requests after which a mapping holds an object that is destroyed. -/
def mournings : List Operation :=
  [.createDataspace 1, .createMapping ⟨0⟩ 0, .spawn,
    .assign (.container .mapping ⟨0⟩) (.int 1) (.object ⟨0, 0⟩), .destroy ⟨0, 0⟩]

/--
A pair that is assigned to a mapping is still found after the mapping was merged and compacted,
which takes the destroyed object out.
-/
theorem mapping_is_map_compacted : ∃ c c₁ c₂ c₃, Reachable {} c ∧
    c.Requests (.assign (.container .mapping ⟨0⟩) (.int 3) (.int 7)) (.ok .done) c₁ ∧
    c₁.Requests (.mapMerge (.container .mapping ⟨0⟩) true) (.ok .done) c₂ ∧
    c₂.Requests (.mapGet (.container .mapping ⟨0⟩) (.int 3)) (.ok (.value (.int 7))) c₃ ∧
    c₁.store.entryAt? ⟨0⟩ (c₁.store.heap.identity (.int 1)) = some (.object ⟨0, 0⟩) ∧
    c₂.store.entryAt? ⟨0⟩ (c₁.store.heap.identity (.int 1)) = none := by
  obtain ⟨c, hc, hf⟩ := exists_visit mournings
    (fun c => (c.request? (.assign (.container .mapping ⟨0⟩) (.int 3) (.int 7))).bind fun q =>
      (q.2.request? (.mapMerge (.container .mapping ⟨0⟩) true)).bind fun r =>
        (r.2.request? (.mapGet (.container .mapping ⟨0⟩) (.int 3))).map fun _ =>
          ((q.1, r.1), c.store.entryAt? ⟨0⟩ (c.store.heap.identity (.int 1)),
            q.2.store.lost (.object ⟨0, 0⟩)))
    (a := some ((.ok .done, .ok .done), some (.object ⟨0, 0⟩), true)) (by cbv)
  obtain ⟨⟨outcome₁, c₁⟩, hq, hrun⟩ := Option.bind_eq_some_iff.mp hf
  obtain ⟨⟨outcome₂, c₂⟩, hr, hrun⟩ := Option.bind_eq_some_iff.mp hrun
  obtain ⟨⟨outcome₃, c₃⟩, ht, he⟩ := Option.map_eq_some_iff.mp hrun
  simp only [Prod.mk.injEq] at he
  obtain ⟨⟨rfl, rfl⟩, hobject, hlost⟩ := he
  have hq := request?_eq_some.mp hq
  have hr := request?_eq_some.mp hr
  have ht := request?_eq_some.mp ht
  have hc₁ := hc.next hq
  have hassigned := (Reachable.mapping_is_map hc rfl (hq.covered _ (.head _))).1 _ _ _ _ hq
  have hcompacted := (Reachable.mapping_is_map hc₁ rfl (hr.covered _ (.head _))).2.2.2.2.1
    _ _ _ (.head _) hr
  have hread := (Reachable.mapping_is_map (hc₁.next hr) rfl (ht.covered _ (.head _))).2.1 _ _ _ ht
  have hold : c₁.store.entryAt? ⟨0⟩ (c₁.store.heap.identity (.int 1)) = some (.object ⟨0, 0⟩) := by
    refine (hassigned _).trans ?_
    rw [if_neg (by intro h; cases h)]
    exact hobject
  have hnew : c₂.store.entryAt? ⟨0⟩ (c₂.store.heap.identity (.int 3)) = some (.int 7) := by
    rw [hcompacted, show c₁.store.entryAt? ⟨0⟩ (c₂.store.heap.identity (.int 3)) = some (.int 7)
      from (hassigned _).trans (if_pos rfl)]
    rfl
  refine ⟨c, c₁, c₂, c₃, hc, hq, hr, ?_, hold, ?_⟩
  · rw [hnew] at hread
    exact hread ▸ ht
  · rw [hcompacted, hold, Option.filter_some, spares, hlost]
    simp

/-! ## Lookups before and after compacting -/

/-- No key of a mapping is stored with a nil. -/
theorem entryAt?_ne_nil (ha : c.account.Kept) (hm : c.owned.Covers (.container .mapping id))
    (k : Identity) : c.store.entryAt? id k ≠ some .nil := by
  obtain ⟨x, hx, hk⟩ := ha.mapping hm
  have ht := ha.tabled.content hx hk
  have hentry : c.store.entryAt? id k = x.find c.store.heap k := entryAt?_of_content hx k
  rw [hentry]
  exact Heap.seek_ne_nil ht.table fun o ho => ht.pending ho

/-- A request that compacts a mapping scrubs it, and what is left are the entries it spares. -/
theorem Requests.compacting (ha : c.account.Kept)
    (hop : op ∈ [.mapMerge (.container .mapping id) true, .size (.container .mapping id),
      .mapSize (.container .mapping id)]) (hr : c.Requests op outcome c') :
    c'.owned = c.owned ∧ Path (Effect.Merges id true) c.account c'.account ∧
      ∀ k, c'.store.entryAt? id k = (c.store.entryAt? id k).filter (c.store.spares k) := by
  simp only [List.mem_cons, List.not_mem_nil, or_false] at hop
  have hm : c.owned.Covers (.container .mapping id) := by
    rcases hop with rfl | rfl | rfl <;> exact hr.covered _ (.head _)
  have howned : c'.owned = c.owned := by
    rcases hop with rfl | rfl | rfl <;>
    · obtain ⟨r, -, rfl⟩ := ClientM.bind_pure_eq_ok.mp hr.performed
      rw [hr.settled]
      cases r <;> rfl
  -- What the entries are afterwards is known of each request; what is left is the path.
  suffices h : Path (Effect.Merges id true) c.account ⟨c'.store, c.owned, 0, none⟩ by
    rw [← howned] at h
    refine ⟨howned, h, ?_⟩
    rcases hop with rfl | hop
    · exact hr.merge_entries ha
    · exact (hr.size_entries ha hop.symm).1
  rcases hop with rfl | rfl | rfl
  · obtain ⟨r, h, -⟩ := ClientM.bind_pure_eq_ok.mp hr.performed
    obtain ⟨u, -, h⟩ := ClientM.lift_eq_ok.mp (show (monadLift (Mapping.mergeOverlay id true) :
      ClientM Unit) c.store = .ok (r, c'.store) from h)
    exact (mergeOverlay_clean ha hm h).1
  · obtain ⟨r, h, -⟩ := ClientM.bind_pure_eq_ok.mp hr.performed
    exact (mapSize_answers ha hm h).1
  · obtain ⟨r, h, -⟩ := ClientM.bind_pure_eq_ok.mp hr.performed
    exact (mapSize_answers ha hm h).1

/-- Both lookups of a key are answered. -/
theorem Reachable.lookups (h : Reachable limits c) (hm : c.owned.Covers (.container .mapping id))
    (hkey : c.owned.Covers key) :
    (∃ g, c.Requests (.mapGet (.container .mapping id) key) (.ok (.value
      (c.store.seen ((c.store.entryAt? id (c.store.heap.identity key)).getD .nil)))) g) ∧
    ∃ g, c.Requests (.mapContains (.container .mapping id) key)
      (.ok (.bool (c.store.entryAt? id (c.store.heap.identity key)).isSome)) g := by
  have ha := h.kept
  constructor
  · obtain ⟨outcome, g, hr⟩ := h.request (.mapGet (.container .mapping id) key)
      (List.forall_mem_cons.mpr ⟨hm, List.forall_mem_singleton.mpr hkey⟩) nofun
    obtain ⟨rfl, -⟩ := hr.mapGet_entries ha
    exact ⟨g, hr⟩
  · obtain ⟨outcome, g, hr⟩ := h.request (.mapContains (.container .mapping id) key)
      (List.forall_mem_cons.mpr ⟨hm, List.forall_mem_singleton.mpr hkey⟩) nofun
    obtain ⟨rfl, -⟩ := hr.mapContains_entries ha
    exact ⟨g, hr⟩

/--
Compacting is invisible to lookups exactly as long as nothing is lost of the entry under the key:
then both lookups answer the same before and after it, and a key is contained if it does not read as
nil. A key that is not lost reads the same in any case, and after compacting the lookups always
agree.
-/
theorem Reachable.compacting_invisible (h : Reachable limits c) {m : Value}
    (hid : m = .container .mapping id) (hm : c.owned.Covers m) (hkey : c.owned.Covers key)
    (hop : op ∈ [.mapMerge m true, .size m, .mapSize m]) (hr : c.Requests op outcome c') :
    ∃ v v' b b', (∃ g, c.Requests (.mapGet m key) (.ok (.value v)) g) ∧
      (∃ g, c'.Requests (.mapGet m key) (.ok (.value v')) g) ∧
      (∃ g, c.Requests (.mapContains m key) (.ok (.bool b)) g) ∧
      (∃ g, c'.Requests (.mapContains m key) (.ok (.bool b')) g) ∧
      (c.store.lost key = false → v' = v) ∧
      (b' = true ↔ v' ≠ .nil) ∧
      ((v' = v ∧ b' = b ∧ (b = true ↔ v ≠ .nil)) ↔
        ∀ u, c.store.entryAt? id (c.store.heap.identity key) = some u →
          c.store.lost key = false ∧ c.store.lost u = false) := by
  subst hid
  have ha := h.kept
  obtain ⟨howned, hpath, hentries⟩ := hr.compacting ha hop
  have hcalm : ∀ e : Effect, e.Merges id true → e.Calm := fun e he =>
    Effect.Keeps.calm e (he.imp_right And.right)
  have h' : Reachable limits c' := h.next hr
  have hkey' : c'.owned.Covers key := howned ▸ hkey
  have hm' : c'.owned.Covers (.container .mapping id) := howned ▸ hm
  obtain ⟨hget, hcontains⟩ := h.lookups hm hkey
  obtain ⟨hget', hcontains'⟩ := h'.lookups hm' hkey'
  refine ⟨_, _, _, _, hget, hget', hcontains, hcontains', ?_⟩
  have hidentity : c'.store.heap.identity key = c.store.heap.identity key :=
    (hpath.stands ha hcalm (Refs.Covers.of_flight hkey')).identity
  -- An entry that stays is seen as before, for no object is destroyed in between.
  have hseen : ∀ u, c'.store.entryAt? id (c.store.heap.identity key) = some u →
      c'.store.seen u = c.store.seen u := fun u hu =>
    hpath.seen ha hcalm (h'.kept.covers_entry hm' hu)
  rw [hidentity]
  rw [hentries] at hseen ⊢
  cases hu : c.store.entryAt? id (c.store.heap.identity key) with
  | none => simp
  | some u =>
    have hne : u ≠ .nil := by
      rintro rfl
      exact entryAt?_ne_nil ha hm _ hu
    rw [hu] at hseen
    simp only [Option.filter_some, spares_identity, Option.getD_some, Option.isSome_some,
      Option.some.injEq, forall_eq'] at hseen ⊢
    cases hlost : c.store.lost u with
    | true => simp [seen_of_lost hlost]
    | false =>
      cases hkeyLost : c.store.lost key with
      | true => simp [seen_of_kept hlost, hne.symm]
      | false =>
        simp only [hlost, hkeyLost, Bool.not_false, Bool.and_self, if_true, Option.getD_some,
          Option.isSome_some] at hseen ⊢
        simp [hseen, seen_of_kept hlost, hne]

/-- A key whose value is alive reads the same before and after a compaction. -/
theorem compacting_invisible_sample : ∃ c c' outcome, Reachable {} c ∧
    c.Requests (.mapSize (.container .mapping ⟨1⟩)) outcome c' ∧
    ∃ v v', (∃ g, c.Requests (.mapGet (.container .mapping ⟨1⟩) (.string ⟨0⟩)) (.ok (.value v)) g) ∧
      (∃ g, c'.Requests (.mapGet (.container .mapping ⟨1⟩) (.string ⟨0⟩)) (.ok (.value v')) g) ∧
      v' = v := by
  obtain ⟨c, hc, hf⟩ := exists_sample
    (fun c => (decide (c.owned.Covers (.container .mapping ⟨1⟩)),
      decide (c.owned.Covers (.string ⟨0⟩)), c.store.lost (.string ⟨0⟩)))
    (a := (true, true, false)) (by decide +kernel)
  obtain ⟨hm, hkey, hlost⟩ : _ ∧ _ ∧ _ := by simpa using hf
  obtain ⟨outcome, c', hr⟩ := hc.request (.mapSize (.container .mapping ⟨1⟩))
    (List.forall_mem_singleton.mpr hm) nofun
  obtain ⟨v, v', b, b', hget, hget', -, -, hlive, -⟩ :=
    Reachable.compacting_invisible hc rfl hm hkey (by simp) hr
  exact ⟨c, c', outcome, hc, hr, v, v', hget, hget', hlive hlost⟩

/-- A key whose value is a destroyed object reads as nil, and is contained nevertheless. -/
theorem contained_though_nil : ∃ c g g', Reachable {} c ∧
    c.Requests (.mapGet (.container .mapping ⟨0⟩) (.int 1)) (.ok (.value .nil)) g ∧
    c.Requests (.mapContains (.container .mapping ⟨0⟩) (.int 1)) (.ok (.bool true)) g' := by
  obtain ⟨c, hc, hf⟩ := exists_visit mournings
    (fun c => ((c.request? (.mapGet (.container .mapping ⟨0⟩) (.int 1))).map Prod.fst,
      (c.request? (.mapContains (.container .mapping ⟨0⟩) (.int 1))).map Prod.fst))
    (a := (some (.ok (.value .nil)), some (.ok (.bool true)))) (by decide +kernel)
  obtain ⟨hget, hcontains⟩ := Prod.mk.inj hf
  obtain ⟨⟨_, g⟩, hget, rfl⟩ := Option.map_eq_some_iff.mp hget
  obtain ⟨⟨_, g'⟩, hcontains, rfl⟩ := Option.map_eq_some_iff.mp hcontains
  exact ⟨c, g, g', hc, request?_eq_some.mp hget, request?_eq_some.mp hcontains⟩

end Client

end PlaneStore
