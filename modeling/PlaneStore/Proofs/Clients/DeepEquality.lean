import PlaneStore.Proofs.Contents.Bisimulation
import PlaneStore.Proofs.Clients.NoFaults

/-!
# Deep comparisons as clients see them

A deep comparison is answered, whatever the containers refer to, and the answer is whether the two
values are bisimilar by what their containers list. It scrubs arrays and records on its way and
merges mappings, and changes nothing that a reader sees.
-/

namespace PlaneStore

open Store

/-! ## What a comparison leaves -/

/--
A content that is what it was, but that what is lost of an array or record may have become nil.
-/
structure Content.Tidied (s s' : Store) (x y : Content) : Prop where
  kind : y.kind = x.kind
  tag : y.tag = x.tag
  owner : y.owner = x.owner
  home : y.home = x.home
  elements : x.kind ≠ .mapping → List.Forall₂ (fun v w => w = v ∨ s.lost v = true ∧ w = .nil)
    x.buffer.toList y.buffer.toList
  entries : x.kind = .mapping → ∀ k, y.find s'.heap k = x.find s.heap k

section

variable {a b : Account} {id : ContainerId} {x' : Content}

/-- Comparing tidies arrays and records, and no mapping is compacted. -/
theorem Path.tidied (h : Path (Effect.Compares a.store) a b) (ha : a.Kept)
    (hx' : b.store.content? id = some x') :
    ∃ x, a.store.content? id = some x ∧ x.Tidied a.store b.store x' := by
  have hminds : ∀ e : Effect, e.Compares a.store → e.Minds := fun e he =>
    Effect.minds_of_tends e (Effect.Compares.tends e he)
  obtain ⟨x, hx, hfades⟩ := h.fading ha hminds hx'
  have hobjects : b.store.objects = a.store.objects := (h.marks ha Effect.Compares.calm).objects
  refine ⟨x, hx, hfades.kind, hfades.tag, hfades.owner, hfades.home, fun hk => ?_, fun hk k => ?_⟩
  · exact (hfades.elements hk).imp fun v w hvw => hvw.left hobjects
  · have hleaves : ∀ e : Effect, e.Compares a.store → e.Leaves id := by
      intro e he
      cases e with
      | scrub other =>
        intro heq
        obtain ⟨c, hc, rfl⟩ := content?_eq_some.mp hx
        exact he c (heq ▸ hc) hk
      | still => trivial
      | _ => cases he
    obtain ⟨y, hy, -, hfind⟩ := h.find ha hleaves hx' (hfades.kind.trans hk)
    obtain rfl := Option.some.inj (hx.symm.trans hy)
    exact hfind k

end

/-! ## What can be listed -/

section

variable {s : Store} {F : Refs} {C : Charges} {q : Option Closing} {shape : Shape}
  {id : ContainerId}

/-- All containers that can be reached can be listed. -/
theorem Store.Reaches.elements (h : s.Reaches F (.container shape id))
    (ha : Account.Kept ⟨s, F, C, q⟩) :
    ∃ values s', elements (.container shape id) s = .ok (.ok values, s') ∧
      s.listing? id = some values.toList := by
  have hcovers : ∀ {s'}, Path (Effect.Compares s) ⟨s, F, C, q⟩ ⟨s', F, C, q⟩ →
      (Account.mk s' F C q).refs.Covers (.container shape id) := fun hpath => h.covers ha hpath
  have hfits : s.heap.Fits (.container shape id) := ha.fits (hcovers (.refl _) rfl)
  obtain ⟨c, hc⟩ := (ha.there (hcovers (.refl _))).exists_container
  obtain ⟨u, s', hs⟩ := succeeds_refresh ha hfits hc
  have hscrub : shape ≠ .mapping → (Effect.scrub id).Compares s := by
    intro hs d hd
    exact hfits.not_mapping hd hs
  have hpath := walk_refresh (E := Effect.Compares s) trivial hscrub ha hfits hs
  obtain ⟨c', hc'⟩ := ((hpath.kept ha).there (hcovers hpath)).exists_container
  obtain ⟨values, he, -⟩ := refresh_post ha hfits hs c' hc'
  have helements : elementsOf shape id s = .ok (values, s') :=
    StoreM.bind_eq_ok.mpr ⟨u, s', hs, StoreM.residentValues_eq_ok.mpr ⟨⟨c', hc', he⟩, rfl⟩⟩
  exact ⟨values, s', ClientM.lift_eq_ok.mpr ⟨values, rfl, helements⟩,
    elementsOf_lists ha hfits helements⟩

end

namespace Client

variable {limits : Limits} {c c' : Client} {x y : Value}

/-! ## Comparing -/

/--
A deep comparison of what a client owns is answered, without a fault and without a refusal, by
whether the two values are bisimilar, which is an equivalence. The lists by which containers are
compared are those that are answered when the elements of a container are asked for that the client
can reach. After the comparison all of these are there, and all containers list and hold what they
did, but that what is lost of an array or record may have become nil.
-/
theorem Reachable.deep_equal_bisimilar (h : Reachable limits c) (hx : c.owned.Covers x)
    (hy : c.owned.Covers y) :
    (∃ b c', c.Requests (.deepEqual x y) (.ok (.bool b)) c' ∧ (b = true ↔ c.store.Bisimilar x y) ∧
      (∀ v, c.store.Reaches c.owned v → c'.store.There v) ∧
      ∀ id z', c'.store.content? id = some z' → ∃ z, c.store.content? id = some z ∧
        z.Tidied c.store c'.store z' ∧ c'.store.listing? id = c.store.listing? id) ∧
    Equivalence c.store.Bisimilar ∧
    ∀ shape id, c.store.Reaches c.owned (.container shape id) → ∃ values s',
      elements (.container shape id) c.store = .ok (.ok values, s') ∧
      c.store.listing? id = some values.toList := by
  have ha := h.kept
  refine ⟨?_, bisimilar_equivalence _, fun shape id hid => hid.elements ha⟩
  obtain ⟨b, s', hs, hpath, hb⟩ := exists_deepEqual ha hx hy
  refine ⟨b, ⟨s', c.owned⟩, ⟨?_, ?_, rfl⟩, hb, fun v hv => ?_, fun id z' hz' => ?_⟩
  · exact List.forall_mem_cons.mpr ⟨hx, List.forall_mem_singleton.mpr hy⟩
  · exact ClientM.bind_pure_eq_ok.mpr ⟨.ok b, ClientM.lift_eq_ok.mpr ⟨b, rfl, hs⟩, rfl⟩
  · exact (hpath.kept ha).there (hv.covers ha hpath)
  · obtain ⟨z, hz, htidied⟩ := hpath.tidied ha hz'
    exact ⟨z, hz, htidied, hpath.listing ha (.refl _) hz'⟩

/-- Requests after which a client owns two arrays, each of which is its own element. -/
def ouroboroi : List Operation :=
  [.createDataspace 0, .createArray ⟨0⟩ 1, .createArray ⟨0⟩ 1,
    .assign (.container .array ⟨0⟩) (.int 0) (.container .array ⟨0⟩),
    .assign (.container .array ⟨1⟩) (.int 0) (.container .array ⟨1⟩)]

theorem deep_equal_ouroboroi : ∃ c c', Reachable {} c ∧
    c.Requests (.deepEqual (.container .array ⟨0⟩) (.container .array ⟨1⟩))
      (.ok (.bool true)) c' := by
  obtain ⟨c, hc, hf⟩ := exists_visit ouroboroi
    (fun c => (decide (c.owned.Covers (.container .array ⟨0⟩)),
      decide (c.owned.Covers (.container .array ⟨1⟩)),
      (c.store.container? ⟨0⟩).map Container.kind, (c.store.container? ⟨1⟩).map Container.kind,
      c.store.listing? ⟨0⟩, c.store.listing? ⟨1⟩))
    (a := (true, true, some .array, some .array, some [.container .array ⟨0⟩],
      some [.container .array ⟨1⟩])) (by cbv)
  obtain ⟨hx, hy, hkind, hkind', hxs, hys⟩ : _ ∧ _ ∧ _ ∧ _ ∧ _ ∧ _ := by
    simpa only [Prod.mk.injEq] using hf
  obtain ⟨d, hd, hkind⟩ := Option.map_eq_some_iff.mp hkind
  obtain ⟨d', hd', hkind'⟩ := Option.map_eq_some_iff.mp hkind'
  obtain ⟨⟨b, c', hr, hb, -⟩, -⟩ :=
    Reachable.deep_equal_bisimilar hc (of_decide_eq_true hx) (of_decide_eq_true hy)
  have hbisimilar : c.store.Bisimilar (.container .array ⟨0⟩) (.container .array ⟨1⟩) := by
    refine ⟨fun u v => u = .container .array ⟨0⟩ ∧ v = .container .array ⟨1⟩, ?_, rfl, rfl⟩
    rintro u v ⟨rfl, rfl⟩
    exact .elements hd hd' (hkind.trans hkind'.symm) hxs hys (.cons ⟨rfl, rfl⟩ .nil)
  obtain rfl := hb.mpr hbisimilar
  exact ⟨c, c', hc, hr⟩

end Client

end PlaneStore
