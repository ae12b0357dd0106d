import PlaneStore.Proofs.Accounts.BalancedPlanes
import PlaneStore.Proofs.Overlay.PendingWrites

/-!
# What containers hold, step by step

`Content` is a container as far as it matters what it is and holds: counts, sweep lists and the
place of its elements, in the heap or in the swap, are left out. Most steps leave the contents of
every container alone. The others are listed in `Content.Becomes`, and `Step.content` says that
these are all.
-/

namespace PlaneStore

open Store

/-- What a container is and holds, wherever its elements are. -/
structure Content where
  kind : Kind
  tag : Nat
  owner : DataspaceId
  home : Nat
  scrubEpoch : Nat
  buffer : Array Value
  overlay : Option Overlay

def Container.content (swap : Swap) (c : Container) : Content where
  kind := c.kind
  tag := c.tag
  owner := c.owner
  home := c.home
  scrubEpoch := c.scrubEpoch
  buffer := (c.buffer swap).toArray
  overlay := c.overlay

/-- The content of the container in a slot. -/
def Store.content? (s : Store) (id : ContainerId) : Option Content :=
  (s.container? id).map (Container.content s.swap)

/-- All references but those in flight. -/
def Account.placed (a : Account) : Refs :=
  a.store.refs + a.charged.refs + Account.closingRefs a.closing

namespace Content

/-- The sorted pairs of a mapping. -/
def pairs (x : Content) : List Pair := Pair.ofBuffer x.buffer

/-- The pairs that are pending. -/
def pending (x : Content) : List Pair := (x.overlay.map Overlay.pairs).getD []

/--
The number of elements; of a mapping the number of entries, those that the overlay adds included.
-/
def size (x : Content) : Nat :=
  x.kind.entries x.buffer.size + (x.overlay.map Overlay.addedCount).getD 0

/-- What a container holds. -/
def held (x : Content) : List Value :=
  x.buffer.toList ++ (x.overlay.map fun o => o.toList.flatMap fun e => [e.key, e.value]).getD []

/-- The content of a new container. -/
def new (s : Store) (owner : DataspaceId) (kind : Kind) (values : List Value) : Content where
  kind
  tag := s.heap.nextTag
  owner
  home := s.level
  scrubEpoch := s.objects.epoch
  buffer := values.toArray
  overlay := none

/-- What a step can make of the content of a container that is there before and after. -/
inductive Becomes (a : Account) (id : ContainerId) : Effect → Content → Content → Prop where
  | scrub {x : Content} {seen : List Value} (hk : x.kind ≠ .mapping)
      (hseen : List.Forall₂ (fun v w => a.store.scrubbed v = .ok w) x.buffer.toList seen) :
      Becomes a id (.scrub id) x
        { x with scrubEpoch := a.store.objects.epoch, buffer := seen.toArray }
  | absorb {x : Content} {overlay : Overlay} {values' : Array Value} {released : List Value}
      (ho : x.overlay = some overlay)
      (h : Mapping.merged a.store.heap id overlay x.buffer = .ok (values', released)) :
      Becomes a id .still x { x with overlay := none, buffer := values' }
  | compact {x : Content} {live : List Bool} (hk : x.kind = .mapping) (ho : x.overlay = none)
      (hlive : List.Forall₂
        (fun p b => if b then a.store.Alive p.1 ∧ a.store.Alive p.2
          else a.store.Dead p.1 ∨ a.store.Dead p.2) x.pairs live) :
      Becomes a id (.scrub id) x
        { x with
          scrubEpoch := a.store.objects.epoch, buffer := Pair.toBuffer (Pair.kept x.pairs live) }
  | overwrite {x : Content} {i : Nat} {v old : Value} (hh : x.home = a.store.level)
      (hk : x.kind ≠ .mapping) (hi : x.buffer[i]? = some old) (hv : a.store.Alive v)
      (hC : v ∈ a.charged.refs) :
      Becomes a id (.change id (.element i v)) x { x with buffer := x.buffer.setIfInBounds i v }
  | overwriteValue {x : Content} {i : Nat} {v old : Value} (hh : x.home = a.store.level)
      (hk : x.kind = .mapping) (ho : x.overlay = none) (hi : x.buffer[2 * i + 1]? = some old)
      (hv : a.store.Alive v) (hn : v ≠ .nil) (hC : v ∈ a.charged.refs) :
      Becomes a id
        (.change id (.entry (a.store.heap.identity (x.buffer.getD (2 * i) .nil)) (some v))) x
        { x with buffer := x.buffer.setIfInBounds (2 * i + 1) v }
  | overwritePending {x : Content} {overlay : Overlay} {e : OverlayEntry} {i : Nat} {v : Value}
      (hh : x.home = a.store.level) (ho : x.overlay = some overlay)
      (hi : overlay.entries.get? i = some e) (hv : a.store.Alive v) (hn : v ≠ .nil)
      (hC : v ∈ a.charged.refs) :
      Becomes a id (.change id (.entry (a.store.heap.identity e.key) (some v))) x
        { x with
          overlay := some { overlay with entries := overlay.entries.set i { e with value := v } } }
  | park {x : Content} {buckets : Nat} {e : OverlayEntry} (hh : x.home = a.store.level)
      (hk : x.kind = .mapping) (hkey : a.store.Alive e.key) (hv : a.store.Alive e.value)
      (hn : e.key ≠ .nil ∧ e.value ≠ .nil) (hhash : a.store.heap.hash e.key = .ok e.hash)
      (hnew : ∀ o ∈ x.overlay, ∀ j d, o.entries.get? j = some d →
        a.store.heap.identity d.key ≠ a.store.heap.identity e.key)
      (hadd : e.added = true ↔ a.store.heap.find x.pairs (a.store.heap.identity e.key) = none)
      (hC : e.key ∈ a.charged.refs ∧ e.value ∈ a.charged.refs)
      (hopen : x.overlay = none → e.added = true)
      (hroom : e.added = true → x.size < a.store.limits.containerSize) :
      Becomes a id (.change id (.entry (a.store.heap.identity e.key) (some e.value))) x
        { x with overlay := some ((x.overlay.getD (.ofBuckets buckets)).insert e) }
  | unpark {x : Content} {overlay : Overlay} {e : OverlayEntry} {i : Nat}
      (hh : x.home = a.store.level) (ho : x.overlay = some overlay)
      (hi : overlay.entries.get? i = some e) :
      Becomes a id
        (.change id
          (.entry (a.store.heap.identity e.key)
            (a.store.heap.find x.pairs (a.store.heap.identity e.key)))) x
        { x with overlay := some (overlay.without i e) }
  | deletePair {x : Content} {i : Nat} (hh : x.home = a.store.level) (hk : x.kind = .mapping)
      (hi : 2 * i + 1 < x.buffer.size)
      (hno : ∀ o ∈ x.overlay, ∀ j e, o.entries.get? j = some e →
        a.store.heap.identity e.key ≠ a.store.heap.identity (x.buffer.getD (2 * i) .nil)) :
      Becomes a id
        (.change id (.entry (a.store.heap.identity (x.buffer.getD (2 * i) .nil)) none)) x
        { x with
          buffer := x.buffer.extract 0 (2 * i) ++ x.buffer.extract (2 * i + 2) x.buffer.size }
  | backUp {x : Content} (hh : x.home < a.store.level) :
      Becomes a id .nest x { x with home := a.store.level }
  | settle {x : Content} {cl : Closing} (hq : a.closing = some cl) (hh : x.home = cl.level) :
      Becomes a id .nest x { x with home := cl.level - 1 }
  | restore {x : Content} {cl : Closing} {b : Backup} {ledger : List Backup}
      (hq : a.closing = some cl) (hl : cl.ledger = b :: ledger) (hf : cl.folds = false)
      (hb : b.container = id) :
      Becomes a id (.restore id) x
        { x with
          buffer := b.elements, overlay := none, home := b.home, scrubEpoch := b.scrubEpoch }
  | transfer {x : Content} (ds : DataspaceId) (hp : a.store.planes = []) (hq : a.closing = none) :
      Becomes a id (.transfer ds id) x { x with owner := ds }
  | retag {x : Content} {F : Refs} (tag : Nat)
      (hfree : ∀ v ∈ a.placed, v.target? ≠ some (.container id)) :
      Becomes a id (.create id F) x { x with tag }

/-- Where the content of a container comes from that is there after a step. -/
inductive Arises (a : Account) (id : ContainerId) (e : Effect) : Content → Prop where
  | kept {x : Content} (hx : a.store.content? id = some x) : Arises a id e x
  | becomes {x x' : Content} (hx : a.store.content? id = some x)
      (h : Becomes a id e x x') : Arises a id e x'
  | made {owner : DataspaceId} {kind : Kind} {values : List Value} {C : Charges} {F : Refs}
      (he : e = .create id F) (hid : id = a.store.heap.nextId)
      (hv : ∀ v ∈ values, a.store.Alive v) (hC : a.charged = .of owner values + C)
      (hm : kind = .mapping →
        values.length % 2 = 0 ∧ a.store.heap.Table (Pair.ofFlat values))
      (hroom : a.store.heap.liveContainers < a.store.limits.containers)
      (hsize : kind.entries values.length ≤ a.store.limits.containerSize) :
      Arises a id e (.new a.store owner kind values)

end Content

/-! ## Contents where nothing happens to them -/

namespace Store

variable {s s' : Store} {id other : ContainerId} {c d : Container} {x : Content}

theorem content?_eq_some :
    s.content? id = some x ↔ ∃ c, s.container? id = some c ∧ c.content s.swap = x :=
  Option.map_eq_some_iff

theorem content?_of_container (hc : s.container? id = some c) :
    s.content? id = some (c.content s.swap) :=
  content?_eq_some.mpr ⟨c, hc, rfl⟩

/-- The content of a container is its core with the buffer that the swap has for it. -/
theorem content_of_core {swap swap' : Swap} (h : d.core = c.core)
    (hb : d.buffer swap' = d.buffer swap) : d.content swap' = c.content swap := by
  unfold Container.content
  rw [Container.kind_of_core h, Container.tag_of_core h, Container.owner_of_core h,
    Container.home_of_core h, Container.scrubEpoch_of_core h, Container.overlay_of_core h, hb,
    Container.buffer_congr (Container.elements_of_core h)]

theorem Wanes.content? (hw : Wanes s s') (hx : s'.content? id = some x) :
    s.content? id = some x := by
  obtain ⟨c', hc', rfl⟩ := content?_eq_some.mp hx
  obtain ⟨c, hc, hcore⟩ := hw.container id c' hc'
  rw [content?_of_container hc, content_of_core hcore (hw.buffer id c' hc')]

theorem Alike.content? (h : Alike s s') (id : ContainerId) : s'.content? id = s.content? id := by
  refine Option.ext fun x => ?_
  exact ⟨h.wanes.content?, h.symm.wanes.content?⟩

theorem content?_withPlane (s : Store) (f : Plane → Plane) (id : ContainerId) :
    (s.withPlane f).content? id = s.content? id := by
  unfold Store.content?
  rw [container?_withPlane, (withPlane_fields s f).2.1]

/-- Of the swap only the buffers matter. -/
theorem content?_of_buffers {swap : Swap} (h : swap.buffers = s.swap.buffers) (id : ContainerId) :
    ({ s with swap } : Store).content? id = s.content? id := by
  refine Option.map_congr fun c _ => ?_
  exact content_of_core rfl (c.buffer_of_buffers h)

/-- What the contents are after one container was replaced. -/
theorem content?_withContainer_cases (hc : s.container? id = some c)
    (hx : (s.withContainer id d).content? other = some x) :
    other = id ∧ x = d.content s.swap ∨ other ≠ id ∧ s.content? other = some x := by
  obtain ⟨c', hc', rfl⟩ := content?_eq_some.mp hx
  rcases container?_withContainer_cases hc hc' with ⟨rfl, rfl⟩ | ⟨hne, hold⟩
  · exact Or.inl ⟨rfl, rfl⟩
  · exact Or.inr ⟨hne, content?_of_container hold⟩

end Store

namespace Container

variable {c : Container} {values : Array Value}

theorem content_buffer (he : c.elements = .resident values) (swap : Swap) :
    (c.content swap).buffer = values := by
  unfold content
  simp only [c.buffer_of_resident _ he, Array.toArray_toList]

/-- The content of a container with other elements. -/
theorem content_values (c : Container) (values : Array Value) (swap : Swap) :
    ({ c with elements := .resident values } : Container).content swap =
      { c.content swap with buffer := values } := by
  unfold content
  rw [Container.buffer_of_resident _ rfl, Array.toArray_toList]

end Container

/-! ## Every step -/

namespace Content

variable {a b : Account} {e : Effect} {id : ContainerId} {x' : Content}

/-- A step that replaces one container makes of its content what it makes, and keeps the others. -/
theorem Arises.replaced {s s' : Store} {F : Refs} {C : Charges} {q : Option Closing}
    {other : ContainerId} {c d : Container} (hc : s.container? id = some c)
    (hs : s'.content? other = (s.withContainer id d).content? other)
    (h : Becomes ⟨s, F, C, q⟩ id e (c.content s.swap) (d.content s.swap))
    (hx : s'.content? other = some x') :
    Arises ⟨s, F, C, q⟩ other e x' := by
  rcases content?_withContainer_cases hc (hs.symm.trans hx) with ⟨rfl, rfl⟩ | ⟨-, hold⟩
  · exact .becomes (content?_of_container hc) h
  · exact .kept hold

/-- A step that replaces one container by another with the same content keeps all contents. -/
theorem Arises.replaced_same {s s' : Store} {F : Refs} {C : Charges} {q : Option Closing}
    {other : ContainerId} {c d : Container} (hc : s.container? id = some c)
    (hs : s'.content? other = (s.withContainer id d).content? other)
    (h : d.content s.swap = c.content s.swap)
    (hx : s'.content? other = some x') :
    Arises ⟨s, F, C, q⟩ other e x' := by
  rcases content?_withContainer_cases hc (hs.symm.trans hx) with ⟨rfl, rfl⟩ | ⟨-, hold⟩
  · exact .kept ((content?_of_container hc).trans (congrArg some h.symm))
  · exact .kept hold

/-- Upkeep leaves every other container alone, and its own is what upkeep makes of it. -/
theorem upkeep_arises {other : ContainerId} (h : Upkeep id e a b) (ha : a.Accounted)
    (hx : b.store.content? other = some x') : Arises a other e x' := by
  -- Loading and evicting move a buffer, and the content is read through the swap: it is kept.
  cases h with
  | @load s F C q c ticket n hc he hn =>
    obtain ⟨c', hc', rfl⟩ := content?_eq_some.mp hx
    have hc₁ : ({ s with swap := (s.swap.load ticket).2 } : Store).container? id = some c := hc
    rcases container?_withContainer_cases hc₁ hc' with ⟨rfl, rfl⟩ | ⟨hne, hold⟩
    · refine .kept ((content?_of_container hc).trans (congrArg some ?_))
      unfold Container.content
      rw [c.buffer_of_evicted _ he, Container.buffer_of_resident _ rfl]
      rfl
    · have hget : s.container? other = some c' := hold
      refine .kept ((content?_of_container hget).trans (congrArg some ?_))
      exact (content_of_core rfl (ha.stored.buffer_load hc he hget (Ne.symm hne))).symm
  | @evict s F C q c values hc he ho hp =>
    obtain ⟨c', hc', rfl⟩ := content?_eq_some.mp hx
    have hc₁ : ({ s with swap := (s.swap.store values).2 } : Store).container? id = some c := hc
    rcases container?_withContainer_cases hc₁ hc' with ⟨rfl, rfl⟩ | ⟨hne, hold⟩
    · refine .kept ((content?_of_container hc).trans (congrArg some ?_))
      unfold Container.content
      rw [c.buffer_of_resident _ he, Container.buffer_of_evicted _ rfl,
        Std.TreeMap.getD_eq_getD_getElem?]
      simp only [Swap.store, Store.withContainer, Std.TreeMap.getElem?_insert_self,
        Option.getD_some]
    · have hget : s.container? other = some c' := hold
      refine .kept ((content?_of_container hget).trans (congrArg some ?_))
      exact (content_of_core rfl (ha.stored.buffer_store hget values)).symm
  | @report s F C q c hc =>
    exact .replaced_same (d := { c with sizeReported := true }) hc rfl rfl hx
  | @scrub s F C q c values seen hc he hk hseen =>
    refine .replaced hc rfl ?_ hx
    rw [show ({ c with scrubEpoch := s.objects.epoch, elements := .resident seen.toArray } :
      Container).content s.swap = { c.content s.swap with
        scrubEpoch := s.objects.epoch, buffer := seen.toArray } from
      Container.content_values { c with scrubEpoch := s.objects.epoch } _ _]
    exact .scrub hk (by rw [Container.content_buffer he]; exact hseen)
  | @absorb s F C q c overlay values values' released hc ho he h =>
    refine .replaced hc rfl ?_ hx
    rw [show ({ c with overlay := none, elements := .resident values' } :
      Container).content s.swap = { c.content s.swap with overlay := none, buffer := values' } from
      Container.content_values { c with overlay := none } _ _]
    have h' : Mapping.merged s.heap id overlay (c.content s.swap).buffer =
        .ok (values', released) := by
      rw [Container.content_buffer he]
      exact h
    exact .absorb ho h'
  | @compact s F C q c values live told w hc he ho hk hlive htold =>
    have hsame d := @content?_of_buffers (s.withContainer id d) w htold.buffers.1 other
    refine .replaced hc (hsame _) ?_ hx
    have hpairs : (c.content s.swap).pairs = Pair.ofBuffer values := by
      unfold pairs
      rw [Container.content_buffer he]
    rw [show ({ c with
        scrubEpoch := s.objects.epoch
        elements := .resident (Pair.toBuffer (Pair.kept (Pair.ofBuffer values) live))
        sizeReported := told } : Container).content s.swap = { c.content s.swap with
        scrubEpoch := s.objects.epoch
        buffer := Pair.toBuffer (Pair.kept (Pair.ofBuffer values) live) } from
      Container.content_values { c with
        scrubEpoch := s.objects.epoch, sizeReported := told } _ _, ← hpairs]
    exact .compact hk ho (by rw [hpairs]; exact hlive)

/-- A change replaces one container. -/
theorem change_becomes {ed : Edit} (h : Change id ed a b) :
    ∃ c d, a.store.container? id = some c ∧ b.store = a.store.withContainer id d ∧
      Becomes a id (.change id ed) (c.content a.store.swap) (d.content a.store.swap) := by
  cases h with
  | @overwrite s F C c values i v old hc hh hk he hi hv =>
    refine ⟨c, _, hc, rfl, ?_⟩
    rw [Container.content_values, ← Container.content_buffer he s.swap]
    exact .overwrite hh hk (by rw [Container.content_buffer he]; exact hi) hv (by simp)
  | @overwriteValue s F C c values i v old hc hh hk he ho hi hv hn =>
    refine ⟨c, _, hc, rfl, ?_⟩
    rw [Container.content_values, ← Container.content_buffer he s.swap]
    exact .overwriteValue hh hk ho (by rw [Container.content_buffer he]; exact hi) hv hn (by simp)
  | @overwritePending s F C c overlay e i v hc hh ho hi hv hn =>
    refine ⟨c, _, hc, rfl, ?_⟩
    exact .overwritePending hh ho hi hv hn (by simp)
  | @park s F C c values buckets e hc hh hk he hkey hv hn hhash hnew hadd hopen hroom =>
    have hpairs : (c.content s.swap).pairs = Pair.ofBuffer values := by
      unfold pairs
      rw [Container.content_buffer he]
    have hsize : (c.content s.swap).size = c.size := by
      unfold size
      rw [Container.content_buffer he]
      unfold Container.size
      rw [hk, he, show (c.content s.swap).kind = .mapping from hk]
      rfl
    rw [← hpairs] at hadd
    rw [← hsize] at hroom
    refine ⟨c, _, hc, rfl, ?_⟩
    exact .park hh hk hkey hv hn hhash hnew hadd (by simp) hopen hroom
  | @unpark s F C c values overlay overlay' e i hc hh he ho h =>
    obtain ⟨hi, rfl⟩ := Overlay.remove_eq_ok.mp h
    refine ⟨c, _, hc, rfl, ?_⟩
    have hpairs : (c.content s.swap).pairs = Pair.ofBuffer values := by
      unfold pairs
      rw [Container.content_buffer he]
    rw [← hpairs]
    exact .unpark hh ho hi
  | @deletePair s F C c values i hc hh hk he hi hno =>
    refine ⟨c, _, hc, rfl, ?_⟩
    rw [Container.content_values, ← Container.content_buffer he s.swap]
    rw [← Container.content_buffer he s.swap] at hi hno
    exact .deletePair hh hk hi hno

/-- An edit leaves every other container alone, and its own is what the edit makes of it. -/
theorem change_arises {other : ContainerId} {ed : Edit} (h : Change id ed a b)
    (hx : b.store.content? other = some x') : Arises a other (.change id ed) x' := by
  obtain ⟨c, d, hc, hb, hbec⟩ := change_becomes h
  exact .replaced hc (by rw [hb]) hbec hx

/-- The content of a container in the slot that the next one goes to. -/
theorem content_new (s : Store) (owner : DataspaceId) (kind : Kind) (values : List Value)
    (swap : Swap) : (s.newContainer owner kind values).content swap = new s owner kind values := by
  unfold Container.content new
  rw [Container.buffer_of_resident _ rfl]
  rfl

theorem creation_arises (h : Creation e a b) (ha : a.Accounted)
    (hx : b.store.content? id = some x') : Arises a id e x' := by
  cases h with
  | @container t s F C owner kind values u hv hm h hroom hsize =>
    have hs := ha.balanced.containers
    have hal := alike_link_new hs rfl h
    have hx : (s.withNew (s.newContainer owner kind values)).content? id = some x' := by
      rw [← hal.content? id, ← content?_withPlane t _ id]
      exact hx
    obtain ⟨c', hc', rfl⟩ := content?_eq_some.mp hx
    rcases container?_withNew_cases hs hc' with ⟨rfl, rfl⟩ | ⟨-, hold⟩
    · rw [content_new]
      exact .made rfl rfl hv rfl hm hroom hsize
    · exact .kept (content?_of_container hold)
  | @retag s F C q other c tag hc hone =>
    have hx : (s.withContainer other { c with tag }).content? id = some x' := hx
    rcases content?_withContainer_cases hc hx with ⟨rfl, rfl⟩ | ⟨-, hold⟩
    · have hcount := ha.balanced.count (.container id)
      rw [count_of_container hc, hone] at hcount
      refine .becomes (content?_of_container hc) (.retag tag (Refs.tally_eq_zero.mp ?_))
      simp only [Account.refs, Refs.tally_add, Refs.tally_singleton, Value.target?,
        Value.ofContainer, if_true] at hcount
      simp only [Account.placed, Refs.tally_add]
      omega
    · exact .kept hold
  | string | dataspace | spawn | destroy => exact .kept hx

theorem Recorded.content? {s s' : Store} {call : CallRef} {patch : CallPatch} {out : List Value}
    (h : Recorded call patch s out s') (id : ContainerId) : s'.content? id = s.content? id := by
  cases h with
  | told => rfl
  | filed | folded | cancelled => exact content?_withPlane _ _ _

/-- What is written to variables and callout tables leaves the contents of containers alone. -/
theorem writing_content (h : Writing e a b) (id : ContainerId) :
    b.store.content? id = a.store.content? id := by
  cases h with
  | write => rfl
  | @firstWrite t s F C ref v old p rest u hold hv hp hnew h =>
    exact (content?_withPlane t _ id).trans ((alike_dropImport h).content? id)
  | addCall hd hv h => exact Recorded.content? h id
  | removeCall hold h₁ h₂ | replaceCall hold hv h₁ h₂ =>
    exact (Recorded.content? h₂ id).trans ((alike_dropImport h₁).content? id)

theorem nesting_arises (h : Nesting e a b) (hx : b.store.content? id = some x') :
    Arises a id e x' := by
  cases h with
  | @backUp s F C other c values p rest hc he hm hh hp hnew =>
    exact .replaced hc (content?_withPlane _ _ id) (.backUp hh) hx
  | enter | pop | forget | skip | unsave | finish => exact .kept hx
  | refile | resave => exact .kept ((content?_withPlane _ _ id).symm.trans hx)
  | @settle s F C cl other c census hl hledger hc =>
    split at hx
    · next hh => exact .replaced hc (content?_withPlane _ _ id) (.settle rfl hh) hx
    · exact .replaced_same hc (content?_withPlane _ _ id) rfl hx
  | record hl hf h => exact .kept ((Recorded.content? h id).symm.trans hx)
  | @restore s' s F C cl b ledger c values u hl hf hc he h =>
    refine .replaced hc ((alike_addImports h).content? id) ?_ hx
    rw [show (b.restored c).content s.swap = { c.content s.swap with
        buffer := b.elements, overlay := none, home := b.home, scrubEpoch := b.scrubEpoch } from
      Container.content_values
        { c with overlay := none, home := b.home, scrubEpoch := b.scrubEpoch } _ _]
    exact .restore rfl hl hf rfl
  | restoreVariable hl hf h hcur =>
    exact .kept (((alike_addImport h).content? id).symm.trans hx)
  | unwindAdded => exact .kept hx
  | unwindRemoved hl hf hd h | unwindReplaced hl hf hcur h =>
    exact .kept (((alike_addImport h).content? id).symm.trans hx)

/-- A transfer changes the owner of one container, and no content. -/
theorem transfer_arises {ds : DataspaceId} {other : ContainerId} (h : Transfer ds other a b)
    (hx : b.store.content? id = some x') : Arises a id (.transfer ds other) x' := by
  obtain ⟨c, hc, hal⟩ := h.alike
  rw [hal.content? id] at hx
  cases h with
  | mk hp => exact .replaced hc rfl (.transfer ds hp rfl) hx

/-- What a container holds is in the store. -/
theorem mem_refs {s : Store} {x : Content} {v : Value} (hx : s.content? id = some x)
    (hv : v ∈ x.held) : v ∈ s.refs := by
  obtain ⟨c, hc, rfl⟩ := content?_eq_some.mp hx
  refine mem_refs_of_held hc ?_
  unfold held Container.content at hv
  unfold Container.held Container.overlayValues
  simp only [Multiset.mem_coe, List.mem_append] at hv ⊢
  cases ho : c.overlay with
  | none => simpa [ho] using hv
  | some o => simpa [ho] using hv

end Content

/-- A backup records the content that a container has. -/
structure Backup.Records (y : Backup) (x : Content) : Prop where
  kind : y.kind = x.kind
  elements : y.elements = x.buffer
  home : y.home = x.home
  scrubEpoch : y.scrubEpoch = x.scrubEpoch

/-- To record a patch makes no backup. -/
theorem Store.Recorded.mem_backups {s s' : Store} {call : CallRef} {patch : CallPatch}
    {out : List Value} (h : Recorded call patch s out s') {q : Option Closing} {y : Backup}
    (hy : y ∈ s'.backups q) : y ∈ s.backups q := by
  cases h with
  | told => exact hy
  | filed | folded | cancelled => exact mem_backups_withPlane (by exact fun _ => rfl) hy

theorem Account.mem_backups_of_closing {a : Account} {cl : Closing} {y : Backup}
    {ledger : List Backup} (hq : a.closing = some cl) (hl : cl.ledger = y :: ledger) :
    y ∈ a.backups := by
  rw [Account.backups, hq]
  exact mem_backups_head hl

/-- A backup that is there after a step was there before, or records what the container held. -/
theorem Step.backups {a b : Account} {e : Effect} (h : Step e a b) (ha : a.Accounted) {y : Backup}
    (hy : y ∈ b.backups) : y ∈ a.backups ∨ ∃ x, a.store.content? y.container = some x ∧
      y.Records x ∧ (x.kind = .mapping → x.overlay = none) ∧ x.home < a.store.level := by
  cases h with
  | traffic h =>
    have hw := h.wanes ha.stored
    cases h <;> exact Or.inl (mem_backups_of_wanes hw hy)
  | upkeep h => cases h <;> exact Or.inl hy
  | change h => cases h <;> exact Or.inl hy
  | creation h =>
    cases h with
    | container hv hm h =>
      refine Or.inl (mem_backups_of_planes (alike_link_new ha.balanced.containers rfl h).planes ?_)
      exact mem_backups_withPlane (by exact fun _ => rfl) hy
    | _ => exact Or.inl hy
  | writing h =>
    cases h with
    | write => exact Or.inl hy
    | firstWrite hold hv hp hnew h =>
      refine Or.inl (mem_backups_of_planes (alike_dropImport h).planes ?_)
      exact mem_backups_withPlane (by exact fun _ => rfl) hy
    | addCall hd hv h => exact Or.inl (h.mem_backups hy)
    | removeCall hold h₁ h₂ | replaceCall hold hv h₁ h₂ =>
      exact Or.inl (mem_backups_of_planes (alike_dropImport h₁).planes (h₂.mem_backups hy))
  | nesting h =>
    cases h with
    | @backUp s F C id c values p rest hc he hm hh hp hnew =>
      have hplanes : (s.withContainer id { c with home := s.level }).planes = p :: rest := hp
      rcases mem_backups_file hplanes hy with rfl | hy
      · exact Or.inr ⟨_, content?_of_container hc,
          ⟨rfl, (Container.content_buffer he _).symm, rfl, rfl⟩, hm, hh⟩
      · exact Or.inl hy
    | enter => exact Or.inl hy
    | pop folds hp => exact Or.inl (mem_backups_pop hp hy)
    | @refile s F C cl b ledger p rest hl hf hp hhome hnew =>
      rcases mem_backups_file hp hy with rfl | hy
      · exact Or.inl (Account.mem_backups_of_closing rfl hl)
      · exact Or.inl (mem_backups_of_ledger hl hy)
    | forget hl => exact Or.inl (mem_backups_of_ledger hl hy)
    | @settle s F C cl id c census hl hledger hc =>
      have hy : y ∈ ((s.withContainer id
        (if c.home = cl.level then { c with home := cl.level - 1 } else c)).withPlane
          (·.adopt id)).backups (some cl) := hy
      have hbefore := mem_backups_withPlane (by exact fun _ => rfl) hy
      exact Or.inl hbefore
    | resave => exact Or.inl (mem_backups_withPlane (by exact fun _ => rfl) hy)
    | skip | unsave | unwindAdded => exact Or.inl hy
    | record hl hf h => exact Or.inl (h.mem_backups hy)
    | restore hl hf hc he h =>
      exact Or.inl (mem_backups_of_ledger hl (mem_backups_of_planes (alike_addImports h).planes hy))
    | restoreVariable hl hf h =>
      exact Or.inl (mem_backups_of_planes (alike_addImport h).planes hy)
    | unwindRemoved hl hf hd h | unwindReplaced hl hf hcur h =>
      exact Or.inl (mem_backups_of_planes (alike_addImport h).planes hy)
    | finish => exact Or.inl (List.mem_append.mpr (Or.inr hy))
  | transfer h =>
    obtain ⟨c, hc, hal⟩ := h.alike
    cases h
    exact Or.inl (mem_backups_of_planes hal.planes hy)

/-- What a container holds after a step arose from what it held before, or the step made it. -/
theorem Step.content {a b : Account} {e : Effect} {id : ContainerId} {x : Content}
    (h : Step e a b) (ha : a.Accounted) (hx : b.store.content? id = some x) :
    Content.Arises a id e x := by
  cases h with
  | traffic h => exact .kept ((h.wanes ha.stored).content? hx)
  | upkeep h => exact Content.upkeep_arises h ha hx
  | change h => exact Content.change_arises h hx
  | creation h => exact Content.creation_arises h ha hx
  | writing h => exact .kept ((Content.writing_content h id).symm.trans hx)
  | nesting h => exact Content.nesting_arises h hx
  | transfer h => exact Content.transfer_arises h hx

end PlaneStore
