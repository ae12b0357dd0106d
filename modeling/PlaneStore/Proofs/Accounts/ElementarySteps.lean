import PlaneStore.Proofs.Accounts.Account
import PlaneStore.Proofs.Mapping.PairTables

/-!
# Elementary steps

Everything that a request does to a store is made of the steps of `Step`. What a step may do is said
here once: an invariant is proved by going through the steps, and a request is shown to be a chain
of them in `PlaneStore.Proofs.Walk`.

A step moves an account. A reference that it takes out of a slot is charged or in flight afterwards,
and one that it puts into a slot was so before.

`Effect` says what a step does to the contents of containers. Most steps leave them as they are,
even where they move elements between the buffer, the overlay and the swap.
-/

namespace PlaneStore

/-- A change of what one container holds. -/
inductive Edit where
  /-- An element of an array or record is replaced. -/
  | element (i : Nat) (v : Value)
  /-- A key of a mapping gets a value, or goes. -/
  | entry (k : Identity) (v : Option Value)
  deriving DecidableEq

/-- What a step does to the contents of containers. -/
inductive Effect where
  /-- References move; all contents stay as they are. -/
  | still
  /-- The elements of one container go to the swap; contents stay as they are. -/
  | evict (id : ContainerId)
  /-- One container gets another owner; contents stay as they are. -/
  | transfer (ds : DataspaceId) (id : ContainerId)
  /-- A variable is written; contents stay as they are. -/
  | write (ref : VariableRef)
  /-- Planes take over what they are to remember, or give it back; contents stay as they are. -/
  | nest
  /-- An atomic region is opened; contents stay as they are. -/
  | enter
  /-- An atomic region is left, to be folded down or undone; contents stay as they are. -/
  | leave (folds : Bool) (level : Nat)
  /-- Nothing is left of an atomic region; contents stay as they are. -/
  | left (level : Nat)
  /-- A change of a deferred call is recorded; contents stay as they are. -/
  | record (call : CallRef) (patch : CallPatch)
  /-- One container may lose references to what is destroyed. -/
  | scrub (id : ContainerId)
  /-- One container is changed. -/
  | change (id : ContainerId) (e : Edit)
  /-- One container gets the elements of a backup. -/
  | restore (id : ContainerId)
  /-- A container comes into being, while other references are in flight. -/
  | create (id : ContainerId) (flight : Refs)
  /-- A text or a dataspace comes into being. -/
  | add
  /-- The object table changes. -/
  | objects
  deriving DecidableEq

/-- Whether no slot is taken into use and no object comes or goes. -/
def Effect.Calm : Effect → Prop
  | .create _ _ | .add | .objects => False
  | _ => True

/-- The effects of looking after containers. -/
inductive Effect.Tends : Effect → Prop
  | still : Tends .still
  | scrub (id : ContainerId) : Tends (.scrub id)

theorem Effect.Tends.calm : ∀ e : Effect, e.Tends → e.Calm
  | _, .still => trivial
  | _, .scrub _ => trivial

/-- The effects of steps that take nothing from a container but what is destroyed. -/
def Effect.Rests : Effect → Prop
  | .change _ _ | .restore _ | .create _ _ => False
  | _ => True

/-- The effects of making containers safe to change. -/
inductive Effect.Readies : Effect → Prop
  | still : Readies .still
  | nest : Readies .nest

theorem Effect.Readies.calm : ∀ e : Effect, e.Readies → e.Calm
  | _, .still => trivial
  | _, .nest => trivial

/-- A container in the state that a backup recorded. -/
def Backup.restored (b : Backup) (c : Container) : Container :=
  { c with
    elements := .resident b.elements, overlay := none, home := b.home
    scrubEpoch := b.scrubEpoch }

namespace Store

/-- A value that a reader sees as it is. -/
def Alive (s : Store) (v : Value) : Prop := s.scrubbed v = .ok v

/-- A value that a reader sees as another, because it refers to something destroyed. -/
def Dead (s : Store) (v : Value) : Prop := ∃ w, s.scrubbed v = .ok w ∧ w ≠ v

/-- The store with a callout table changed. -/
def withCallouts (s : Store) (ds : DataspaceId)
    (f : Std.TreeMap CallHandle DeferredCall → Std.TreeMap CallHandle DeferredCall) : Store :=
  s.withDataspace ds fun d => { d with callouts := f d.callouts }

/-- The store with a variable written. -/
def withVariable (s : Store) (ref : VariableRef) (v : Value) : Store :=
  s.withDataspace ref.dataspace fun d => { d with vars := d.vars.setIfInBounds ref.slot v }

/-- The value of a variable. -/
def variableAt? (s : Store) (ref : VariableRef) : Option Value :=
  (s.dataspace? ref.dataspace).bind (·.vars[ref.slot]?)

/-- The container that `install` makes. -/
def newContainer (s : Store) (owner : DataspaceId) (kind : Kind) (values : List Value) :
    Container :=
  { kind, tag := s.heap.nextTag, owner, elements := .resident values.toArray, home := s.level
    scrubEpoch := s.objects.epoch }

/-- The store with a new container in the next cell, on no sweep list yet. -/
def withNew (s : Store) (c : Container) : Store :=
  { s with heap := s.heap.takeTag.2.insert c }

end Store

/-! ## What is reported of sizes -/

/-- The size of a container differs from that of its evicted image, which was not reported yet. -/
def Container.Diverges (c : Container) : Prop :=
  c.sizeReported = false ∧ ∃ n, c.savedSize = some n ∧ n ≠ c.size

/-- If the size of a container differs from that of its evicted image, this was reported. -/
def Store.Noted (s : Store) (id : ContainerId) : Prop :=
  ∀ c, s.container? id = some c → ¬ c.Diverges

/--
What is told of a container `c` that becomes `d`: that its size diverges, or nothing if it does not,
or did already.
-/
inductive Swap.Told (swap : Swap) (id : ContainerId) (c d : Container) : Bool → Swap → Prop where
  | silent (h : d.Diverges → d.size = c.size) : Told swap id c d d.sizeReported swap
  | told (h : d.Diverges) : Told swap id c d true (swap.markSizeChanged id)

/-- Reporting touches no buffers. -/
theorem Swap.Told.buffers {swap swap' : Swap} {id : ContainerId} {c d : Container} {told : Bool}
    (h : swap.Told id c d told swap') : swap'.buffers = swap.buffers ∧ swap'.next = swap.next := by
  cases h <;> exact ⟨rfl, rfl⟩

open Store

/-! ## The steps -/

/-- Steps that only move references. -/
inductive Traffic : Account → Account → Prop where
  | retain {v : Value} {u : Unit} (hv : s.heap.Fits v) (h : retain v s = .ok (u, s')) :
      Traffic ⟨s, F, C, q⟩ ⟨s', {v} + F, C, q⟩
  | drop {v : Value} {children : List Value} (h : dropReference v s = .ok (children, s')) :
      Traffic ⟨s, {v} + F, C, q⟩ ⟨s', ↑children + F, C, q⟩
  | charge {ds : DataspaceId} {v : Value} {u : Unit} (h : addImport ds v s = .ok (u, s')) :
      Traffic ⟨s, {v} + F, C, q⟩ ⟨s', F, .of ds [v] + C, q⟩
  | discharge {ds : DataspaceId} {v : Value} {u : Unit} (h : dropImport ds v s = .ok (u, s')) :
      Traffic ⟨s, F, .of ds [v] + C, q⟩ ⟨s', {v} + F, C, q⟩

/-- Steps that tend to one container: they keep what it holds, but for what is destroyed. -/
inductive Upkeep (id : ContainerId) : Effect → Account → Account → Prop where
  /-- Evicted elements come back. -/
  | load {c : Container} {ticket : SwapTicket} {n : Nat} (hc : s.container? id = some c)
      (he : c.elements = .evicted ticket n) (hn : (s.swap.load ticket).1.size = n) :
      Upkeep id .still ⟨s, F, C, q⟩
        ⟨({ s with swap := (s.swap.load ticket).2 }).withContainer id
          { c with elements := .resident (s.swap.load ticket).1 }, F, C, q⟩
  /-- Resident elements go. -/
  | evict {c : Container} {values : Array Value} (hc : s.container? id = some c)
      (he : c.elements = .resident values) (ho : c.overlay = none) (hp : s.planes = []) :
      Upkeep id (.evict id) ⟨s, F, C, q⟩
        ⟨({ s with swap := (s.swap.store values).2 }).withContainer id
          { c with
            elements := .evicted (s.swap.store values).1 values.size, savedSize := some c.size
            sizeReported := false }, F, C, q⟩
  /-- A change of size is reported. -/
  | report {c : Container} (hc : s.container? id = some c) (hd : c.Diverges) :
      Upkeep id .still ⟨s, F, C, q⟩
        ⟨{ s.withContainer id { c with sizeReported := true } with
          swap := s.swap.markSizeChanged id }, F, C, q⟩
  /-- Destroyed elements of an array or record become nil. -/
  | scrub {c : Container} {values : Array Value} {seen : List Value}
      (hc : s.container? id = some c) (he : c.elements = .resident values)
      (hk : c.kind ≠ .mapping)
      (hseen : List.Forall₂ (fun v w => s.scrubbed v = .ok w) values.toList seen) :
      Upkeep id (.scrub id) ⟨s, F, C, q⟩
        ⟨s.withContainer id
          { c with scrubEpoch := s.objects.epoch, elements := .resident seen.toArray }, F,
          .of c.owner ((values.toList.zip seen).filterMap fun (v, w) =>
            if w ≠ v then some v else none) + C, q⟩
  /-- The overlay of a mapping becomes part of its sorted pairs. -/
  | absorb {c : Container} {overlay : Overlay} {values values' : Array Value}
      {released : List Value} (hc : s.container? id = some c) (ho : c.overlay = some overlay)
      (he : c.elements = .resident values)
      (h : Mapping.merged s.heap id overlay values = .ok (values', released)) :
      Upkeep id .still ⟨s, F, C, q⟩
        ⟨s.withContainer id { c with overlay := none, elements := .resident values' }, F,
          .of c.owner released + C, q⟩
  /-- Pairs with a destroyed half leave a mapping, and if its size diverges now this is reported. -/
  | compact {c : Container} {values : Array Value} {live : List Bool} {told : Bool} {swap : Swap}
      (hc : s.container? id = some c) (he : c.elements = .resident values)
      (ho : c.overlay = none) (hk : c.kind = .mapping)
      (hlive : List.Forall₂
        (fun p b => if b then s.Alive p.1 ∧ s.Alive p.2 else s.Dead p.1 ∨ s.Dead p.2)
        (Pair.ofBuffer values) live)
      (htold : s.swap.Told id c
        { c with
          scrubEpoch := s.objects.epoch
          elements := .resident (Pair.toBuffer (Pair.kept (Pair.ofBuffer values) live)) }
            told swap) :
      Upkeep id (.scrub id) ⟨s, F, C, q⟩
        ⟨{ s.withContainer id
          { c with
            scrubEpoch := s.objects.epoch
            elements := .resident (Pair.toBuffer (Pair.kept (Pair.ofBuffer values) live))
            sizeReported := told } with swap }, F,
          .of c.owner (Pair.gone (Pair.ofBuffer values) live) + C, q⟩

/--
Steps that change one container, while no plane is closing. Its home is the current plane, and what
comes in has been looked at by a reader.
-/
inductive Change (id : ContainerId) : Edit → Account → Account → Prop where
  /-- An element of an array or record is replaced. -/
  | overwrite {c : Container} {values : Array Value} {i : Nat} {v old : Value}
      (hc : s.container? id = some c) (hh : c.home = s.level) (hk : c.kind ≠ .mapping)
      (he : c.elements = .resident values) (hi : values[i]? = some old) (hv : s.Alive v) :
      Change id (.element i v) ⟨s, F, .of c.owner [v] + C, none⟩
        ⟨s.withContainer id { c with elements := .resident (values.setIfInBounds i v) }, F,
          .of c.owner [old] + C, none⟩
  /-- The value of a sorted pair is replaced. -/
  | overwriteValue {c : Container} {values : Array Value} {i : Nat} {v old : Value}
      (hc : s.container? id = some c) (hh : c.home = s.level) (hk : c.kind = .mapping)
      (he : c.elements = .resident values) (ho : c.overlay = none)
      (hi : values[2 * i + 1]? = some old) (hv : s.Alive v) (hn : v ≠ .nil) :
      Change id (.entry (s.heap.identity (values.getD (2 * i) .nil)) (some v))
        ⟨s, F, .of c.owner [v] + C, none⟩
        ⟨s.withContainer id { c with elements := .resident (values.setIfInBounds (2 * i + 1) v) },
          F,
          .of c.owner [old] + C, none⟩
  /-- The value of a pending write is replaced. -/
  | overwritePending {c : Container} {overlay : Overlay} {e : OverlayEntry} {i : Nat} {v : Value}
      (hc : s.container? id = some c) (hh : c.home = s.level) (ho : c.overlay = some overlay)
      (hi : overlay.entries.get? i = some e) (hv : s.Alive v) (hn : v ≠ .nil) :
      Change id (.entry (s.heap.identity e.key) (some v)) ⟨s, F, .of c.owner [v] + C, none⟩
        ⟨s.withContainer id
          { c with
            overlay := some
              { overlay with entries := overlay.entries.set i { e with value := v } } },
          F, .of c.owner [e.value] + C, none⟩
  /-- A pair is parked in the overlay. -/
  | park {c : Container} {values : Array Value} {buckets : Nat} {e : OverlayEntry}
      (hc : s.container? id = some c) (hh : c.home = s.level) (hk : c.kind = .mapping)
      (he : c.elements = .resident values) (hkey : s.Alive e.key) (hv : s.Alive e.value)
      (hn : e.key ≠ .nil ∧ e.value ≠ .nil) (hhash : s.heap.hash e.key = .ok e.hash)
      (hnew : ∀ o ∈ c.overlay, ∀ j d, o.entries.get? j = some d →
        s.heap.identity d.key ≠ s.heap.identity e.key)
      (hadd : e.added = true ↔
        s.heap.find (Pair.ofBuffer values) (s.heap.identity e.key) = none)
      (hopen : c.overlay = none → e.added = true)
      (hroom : e.added = true → c.size < s.limits.containerSize) :
      Change id (.entry (s.heap.identity e.key) (some e.value))
        ⟨s, F, .of c.owner [e.key, e.value] + C, none⟩
        ⟨s.withContainer id
          { c with overlay := some ((c.overlay.getD (.ofBuckets buckets)).insert e) }, F, C, none⟩
  /-- A pending write is taken back. -/
  | unpark {c : Container} {values : Array Value} {overlay overlay' : Overlay} {e : OverlayEntry}
      {i : Nat} (hc : s.container? id = some c) (hh : c.home = s.level)
      (he : c.elements = .resident values) (ho : c.overlay = some overlay)
      (h : overlay.remove i = .ok (e, overlay')) :
      Change id
        (.entry (s.heap.identity e.key)
          (s.heap.find (Pair.ofBuffer values) (s.heap.identity e.key)))
        ⟨s, F, C, none⟩
        ⟨s.withContainer id { c with overlay := some overlay' }, F,
          .of c.owner [e.key, e.value] + C, none⟩
  /-- A sorted pair is deleted that has no pending write. -/
  | deletePair {c : Container} {values : Array Value} {i : Nat}
      (hc : s.container? id = some c) (hh : c.home = s.level) (hk : c.kind = .mapping)
      (he : c.elements = .resident values) (hi : 2 * i + 1 < values.size)
      (hno : ∀ o ∈ c.overlay, ∀ j e, o.entries.get? j = some e →
        s.heap.identity e.key ≠ s.heap.identity (values.getD (2 * i) .nil)) :
      Change id (.entry (s.heap.identity (values.getD (2 * i) .nil)) none) ⟨s, F, C, none⟩
        ⟨s.withContainer id
          { c with
            elements := .resident
              (values.extract 0 (2 * i) ++ values.extract (2 * i + 2) values.size) }, F,
          .of c.owner (values.extract (2 * i) (2 * i + 2)).toList + C, none⟩

/-- Steps by which something comes into being, or an object goes. -/
inductive Creation : Effect → Account → Account → Prop where
  /-- A container is made of values that were charged to its owner. -/
  | container {t s : Store} {F : Refs} {C : Charges} {owner : DataspaceId} {kind : Kind}
      {values : List Value} {u : Unit}
      (hv : ∀ v ∈ values, s.Alive v)
      (hm : kind = .mapping → values.length % 2 = 0 ∧ s.heap.Table (Pair.ofFlat values))
      (h : link owner s.heap.nextId (s.withNew (s.newContainer owner kind values)) = .ok (u, t))
      (hroom : s.heap.liveContainers < s.limits.containers)
      (hsize : kind.entries values.length ≤ s.limits.containerSize) :
      Creation (.create s.heap.nextId F) ⟨s, F, .of owner values + C, none⟩
        ⟨t.withPlane fun p => { p with census := p.census.insert s.heap.nextId .fresh },
          {.ofContainer kind s.heap.nextId} + F, C, none⟩
  /-- A container to which there is only the one reference in flight gets another tag. -/
  | retag {s : Store} {F : Refs} {C : Charges} {q : Option Closing} {id : ContainerId}
      {c : Container} {tag : Nat} (hc : s.container? id = some c)
      (hone : c.refcount = 1) :
      Creation (.create id F) ⟨s, {.ofContainer c.kind id} + F, C, q⟩
        ⟨{ s.withContainer id { c with tag } with
            heap := (s.withContainer id { c with tag }).heap.observeTag tag },
          {.ofContainer c.kind id} + F, C, q⟩
  | string (text : String) :
      Creation .add ⟨s, F, C, q⟩
        ⟨{ s with heap := (s.heap.allocString text).2 }, {.string (s.heap.allocString text).1} + F,
          C, q⟩
  | dataspace (n : Nat) :
      Creation .add ⟨s, F, 0, none⟩
        ⟨{ s with dataspaces := s.dataspaces.push { vars := Array.replicate n .nil } }, F, 0, none⟩
  | spawn : Creation .objects ⟨s, F, C, q⟩ ⟨{ s with objects := s.objects.spawn.2 }, F, C, q⟩
  | destroy (obj : ObjectRef) :
      Creation .objects ⟨s, F, C, q⟩ ⟨{ s with objects := s.objects.destroy obj }, F, C, q⟩

/-- Steps that write variables and callout tables. -/
inductive Writing : Effect → Account → Account → Prop where
  /-- A variable is written whose old value no plane has to keep. -/
  | write {ref : VariableRef} {v old : Value} (hold : s.variableAt? ref = some old)
      (hv : s.Alive v) (hp : ∀ p ∈ s.planes.head?, p.savedVars.contains ref = true) :
      Writing (.write ref) ⟨s, F, .of ref.dataspace [v] + C, none⟩
        ⟨s.withVariable ref v, F, .of ref.dataspace [old] + C, none⟩
  /-- A variable is written for the first time on the current plane. -/
  | firstWrite {ref : VariableRef} {v old : Value} {p : Plane} {rest : List Plane} {u : Unit}
      (hold : s.variableAt? ref = some old) (hv : s.Alive v) (hp : s.planes = p :: rest)
      (hnew : p.savedVars.contains ref = false)
      (h : dropImport ref.dataspace old (s.withVariable ref v) = .ok (u, t)) :
      Writing (.write ref) ⟨s, F, .of ref.dataspace [v] + C, none⟩
        ⟨t.withPlane fun p => { p with savedVars := p.savedVars.insert ref old }, F, C, none⟩
  | addCall {ds : DataspaceId} {d : Dataspace} {due : Nat} {payload : Value} {out : List Value}
      (hd : s.dataspace? ds = some d) (hv : s.Alive payload)
      (h : Recorded ⟨ds, ⟨d.nextHandle⟩⟩ .added
        ((s.withDataspace ds fun d => { d with nextHandle := d.nextHandle + 1 }).withCallouts ds
          (·.insert ⟨d.nextHandle⟩ { due, payload })) out s') :
      Writing (.record ⟨ds, ⟨d.nextHandle⟩⟩ .added) ⟨s, F, .of ds [payload] + C, none⟩
        ⟨s', ↑out + F, C, none⟩
  | removeCall {call : CallRef} {old : DeferredCall} {out : List Value} {u : Unit}
      (hold : s.call? call = some old)
      (h₁ : dropImport call.dataspace old.payload
        (s.withCallouts call.dataspace (·.erase call.handle)) = .ok (u, t))
      (h₂ : Recorded call (.removed old) t out s') :
      Writing (.record call (.removed old)) ⟨s, F, C, none⟩ ⟨s', ↑out + F, C, none⟩
  | replaceCall {call : CallRef} {old new : DeferredCall} {out : List Value} {u : Unit}
      (hold : s.call? call = some old) (hv : s.Alive new.payload)
      (h₁ : dropImport call.dataspace old.payload
        (s.withCallouts call.dataspace (·.insert call.handle new)) = .ok (u, t))
      (h₂ : Recorded call (.replaced old) t out s') :
      Writing (.record call (.replaced old)) ⟨s, F, .of call.dataspace [new.payload] + C, none⟩
        ⟨s', ↑out + F, C, none⟩

/-- Steps between planes, and steps that restore what a plane remembers. -/
inductive Nesting : Effect → Account → Account → Prop where
  /-- A backup is filed, which takes over a reference to all that it lists. -/
  | backUp {id : ContainerId} {c : Container} {values : Array Value} {p : Plane} {rest : List Plane}
      (hc : s.container? id = some c) (he : c.elements = .resident values)
      (hm : c.kind = .mapping → c.overlay = none) (hh : c.home < s.level)
      (hp : s.planes = p :: rest) (hnew : p.isBacked id = false) :
      Nesting .nest ⟨s, ↑(Value.ofContainer c.kind id :: values.toList) + F, C, none⟩
        ⟨(s.withContainer id { c with home := s.level }).withPlane fun p => p.file
          { container := id, kind := c.kind, elements := values, size := c.size, home := c.home
            scrubEpoch := c.scrubEpoch }, F, C, none⟩
  | enter (hroom : s.level < s.limits.planes) :
      Nesting .enter ⟨s, F, C, none⟩ ⟨{ s with planes := {} :: s.planes }, F, C, none⟩
  /-- The innermost plane goes off the stack. -/
  | pop {p : Plane} {rest : List Plane} (folds : Bool) (hp : s.planes = p :: rest) :
      Nesting (.leave folds s.level) ⟨s, F, C, none⟩
        ⟨{ s with planes := rest }, F, C, some (.ofPlane folds s.level p)⟩
  /-- A backup goes to the plane below. -/
  | refile {b : Backup} {ledger : List Backup} {p : Plane} {rest : List Plane}
      (hl : cl.ledger = b :: ledger) (hf : cl.folds = true) (hp : s.planes = p :: rest)
      (hhome : b.home ≠ cl.level - 1) (hnew : p.isBacked b.container = false) :
      Nesting .nest ⟨s, F, C, some cl⟩
        ⟨s.withPlane (·.file b), F, C, some { cl with ledger }⟩
  /-- A backup is not needed any more. -/
  | forget {b : Backup} {ledger : List Backup} (hl : cl.ledger = b :: ledger)
      (hf : cl.folds = true)
      (hno : ∀ p ∈ s.planes.head?, b.home = cl.level - 1 ∨ p.isBacked b.container = true) :
      Nesting .nest ⟨s, F, C, some cl⟩ ⟨s, b.held + F, C, some { cl with ledger }⟩
  /-- A container moves to the plane below. -/
  | settle {id : ContainerId} {c : Container} {census : List ContainerId}
      (hl : cl.census = id :: census) (hledger : cl.ledger = [])
      (hc : s.container? id = some c) :
      Nesting .nest ⟨s, F, C, some cl⟩
        ⟨(s.withContainer id
          (if c.home = cl.level then { c with home := cl.level - 1 } else c)).withPlane
            (·.adopt id),
          F, C, some { cl with census }⟩
  /-- A container that is gone has nothing to settle. -/
  | skip {id : ContainerId} {census : List ContainerId} (hl : cl.census = id :: census)
      (hledger : cl.ledger = []) (hc : s.container? id = none) :
      Nesting .nest ⟨s, F, C, some cl⟩ ⟨s, F, C, some { cl with census }⟩
  /-- A saved variable goes to the plane below. -/
  | resave {ref : VariableRef} {v : Value} {saved : List (VariableRef × Value)} {p : Plane}
      {rest : List Plane} (hl : cl.saved = (ref, v) :: saved) (hf : cl.folds = true)
      (hp : s.planes = p :: rest) (hnew : p.savedVars.contains ref = false) :
      Nesting .nest ⟨s, F, C, some cl⟩
        ⟨s.withPlane fun p => { p with savedVars := p.savedVars.insert ref v }, F, C,
          some { cl with saved }⟩
  /-- A saved variable is not needed any more. -/
  | unsave {ref : VariableRef} {v : Value} {saved : List (VariableRef × Value)}
      (hl : cl.saved = (ref, v) :: saved) (hf : cl.folds = true)
      (hno : ∀ p ∈ s.planes.head?, p.savedVars.contains ref = true) :
      Nesting .nest ⟨s, F, C, some cl⟩ ⟨s, {v} + F, C, some { cl with saved }⟩
  /-- A patch is folded into the plane below, or told to the scheduler. -/
  | record {call : CallRef} {patch : CallPatch} {patches : List (CallRef × CallPatch)}
      {out : List Value} (hl : cl.patches = (call, patch) :: patches) (hf : cl.folds = true)
      (h : Recorded call patch s out s') :
      Nesting (.record call patch) ⟨s, F, C, some cl⟩
        ⟨s', ↑out + F, C, some { cl with patches }⟩
  /-- A container gets its elements back; those it had go. -/
  | restore {b : Backup} {ledger : List Backup} {c : Container} {values : Array Value} {u : PUnit}
      (hl : cl.ledger = b :: ledger) (hf : cl.folds = false)
      (hc : s.container? b.container = some c) (he : c.elements = .resident values)
      (h : b.elements.toList.forM (addImport c.owner)
        (s.withContainer b.container (b.restored c)) = .ok (u, s')) :
      Nesting (.restore b.container) ⟨s, F, C, some cl⟩
        ⟨s', {.ofContainer b.kind b.container} + F,
          .of c.owner (values.toList ++ c.overlayValues) + C, some { cl with ledger }⟩
  /-- A variable gets its value back. -/
  | restoreVariable {ref : VariableRef} {v current : Value} {saved : List (VariableRef × Value)}
      {u : Unit} (hl : cl.saved = (ref, v) :: saved) (hf : cl.folds = false)
      (h : addImport ref.dataspace v s = .ok (u, t)) (hcur : t.variableAt? ref = some current) :
      Nesting .nest ⟨s, F, C, some cl⟩
        ⟨t.withVariable ref v, F, .of ref.dataspace [current] + C, some { cl with saved }⟩
  /-- An added call is taken back. -/
  | unwindAdded {call : CallRef} {added : DeferredCall} {patches : List (CallRef × CallPatch)}
      (hl : cl.patches = (call, .added) :: patches) (hf : cl.folds = false)
      (hcur : s.call? call = some added) :
      Nesting .nest ⟨s, F, C, some cl⟩
        ⟨s.withCallouts call.dataspace (·.erase call.handle), F,
          .of call.dataspace [added.payload] + C, some { cl with patches }⟩
  /-- A removed call is put back. -/
  | unwindRemoved {call : CallRef} {old : DeferredCall} {d : Dataspace}
      {patches : List (CallRef × CallPatch)} {u : Unit}
      (hl : cl.patches = (call, .removed old) :: patches) (hf : cl.folds = false)
      (hd : s.dataspace? call.dataspace = some d)
      (h : addImport call.dataspace old.payload
        (s.withCallouts call.dataspace (·.insert call.handle old)) = .ok (u, s')) :
      Nesting .nest ⟨s, F, C, some cl⟩ ⟨s', F, C, some { cl with patches }⟩
  /-- A replaced call is put back. -/
  | unwindReplaced {call : CallRef} {old new : DeferredCall}
      {patches : List (CallRef × CallPatch)} {u : Unit}
      (hl : cl.patches = (call, .replaced old) :: patches) (hf : cl.folds = false)
      (hcur : s.call? call = some new)
      (h : addImport call.dataspace old.payload
        (s.withCallouts call.dataspace (·.insert call.handle old)) = .ok (u, s')) :
      Nesting .nest ⟨s, F, C, some cl⟩
        ⟨s', F, .of call.dataspace [new.payload] + C, some { cl with patches }⟩
  /-- Nothing is left of a plane. -/
  | finish (hl : cl.ledger = [] ∧ cl.saved = [] ∧ cl.patches = [] ∧ cl.census = []) :
      Nesting (.left cl.level) ⟨s, F, C, some cl⟩ ⟨s, F, C, none⟩

/-- A foreign container moves to another dataspace, with the imports of what it holds. -/
inductive Transfer (ds : DataspaceId) (id : ContainerId) : Account → Account → Prop where
  | mk {c : Container} {d : Dataspace} {values : Array Value} {s₁ s₂ s₃ s₄ : Store} {u u₃ : PUnit}
      {u₁ u₂ : Unit} (hp : s.planes = []) (hc : s.container? id = some c)
      (he : c.elements = .resident values) (howner : c.owner ≠ ds)
      (hd : s.dataspace? ds = some d) (hall : d.imports[id]? = some c.refcount)
      (h₁ : (values.toList ++ c.overlayValues).forM (dropImport c.owner) s = .ok (u, s₁))
      (h₂ : unlink id s₁ = .ok (u₁, s₂)) (h₃ : link ds id s₂ = .ok (u₂, s₃))
      (h₄ : (values.toList ++ c.overlayValues).forM (addImport ds)
        (s₃.withDataspace ds fun d => { d with imports := d.imports.erase id }) = .ok (u₃, s₄)) :
      Transfer ds id ⟨s, F, 0, none⟩ ⟨s₄, F, 0, none⟩

/-- An elementary step. -/
inductive Step : Effect → Account → Account → Prop where
  | traffic {a b : Account} (h : Traffic a b) : Step .still a b
  | upkeep {a b : Account} {id : ContainerId} {e : Effect} (h : Upkeep id e a b) : Step e a b
  | change {a b : Account} {id : ContainerId} {e : Edit} (h : Change id e a b) :
    Step (.change id e) a b
  | creation {a b : Account} {e : Effect} (h : Creation e a b) : Step e a b
  | writing {a b : Account} {e : Effect} (h : Writing e a b) : Step e a b
  | nesting {a b : Account} {e : Effect} (h : Nesting e a b) : Step e a b
  | transfer {a b : Account} {ds : DataspaceId} {id : ContainerId} (h : Transfer ds id a b) :
    Step (.transfer ds id) a b

/-! ## Chains of steps -/

/-- A chain of steps with certain effects. -/
inductive Path (E : Effect → Prop) : Account → Account → Prop where
  | refl (a : Account) : Path E a a
  | tail {a b c : Account} {e : Effect} (h : Path E a b) (he : E e) (hs : Step e b c) : Path E a c

namespace Path

variable {E E' : Effect → Prop} {a b c : Account}

theorem single {e : Effect} (he : E e) (h : Step e a b) : Path E a b := .tail (.refl a) he h

theorem trans (h : Path E a b) (h' : Path E b c) : Path E a c := by
  induction h' with
  | refl => exact h
  | tail _ he hs ih => exact .tail ih he hs

theorem mono (hE : ∀ e, E e → E' e) (h : Path E a b) : Path E' a b := by
  induction h with
  | refl => exact .refl _
  | tail _ he hs ih => exact .tail ih (hE _ he) hs

theorem of_still (still : E .still) (h : Path (· = .still) a b) : Path E a b :=
  h.mono (by rintro e rfl; exact still)

theorem readies (h : Path (· = .still) a b) : Path Effect.Readies a b := h.of_still .still

/-- What every step keeps, a chain of steps keeps. -/
theorem keeps {P : Account → Prop} (hP : ∀ e a b, Step e a b → P a → P b) (h : Path E a b)
    (ha : P a) : P b := by
  induction h with
  | refl => exact ha
  | tail _ _ hs ih => exact hP _ _ _ hs ih

end Path

end PlaneStore
