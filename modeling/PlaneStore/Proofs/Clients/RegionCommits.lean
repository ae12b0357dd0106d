import PlaneStore.Proofs.Clients.ExactRecords
import PlaneStore.Proofs.Planes.DiscardedPlanes

/-!
# Commits

A commit keeps what a client sees, and what it would see if the remaining planes were thrown away.
The latter has one exception by design: on the plane where a container came to be no backup is taken
of it, so what a further plane recorded of it is dropped when that one is folded down.
-/

namespace PlaneStore

open Store

namespace Client

variable {limits : Limits} {c c' d : Client} {level : Nat}

/-- A commit is answered as the store answers it, and hands out nothing. -/
theorem Requests.commit_result {n : Nat} {outcome : Outcome}
    (hr : c.Requests (.commit n) outcome c') :
    c'.owned = c.owned ∧
      ∃ r, Store.commit n c.store = .ok (r, c'.store) ∧ outcome = r.map fun _ => .done := by
  obtain ⟨r, hs, rfl⟩ := ClientM.bind_pure_eq_ok.mp hr.performed
  refine ⟨?_, r, hs, rfl⟩
  rw [hr.settled]
  cases r <;> rfl

/-- Planes that are there can be thrown away; what comes back is what was there. -/
theorem Reachable.discards (h : Reachable limits c) (hpos : 0 < level)
    (hle : level ≤ c.store.level) :
    ∃ d, c.Requests (.discardTo level) (.ok .done) d ∧
      (∀ ref v, c.store.variableAt? ref = some v →
        d.store.variableAt? ref = c.account.variableAt level ref) ∧
      (∀ call, d.store.call? call = c.account.callAt level call) ∧
      ∀ id x', d.store.content? id = some x' → ∃ x, c.store.content? id = some x ∧
        ((c.account.contentAt level id x).below level).Same c.store d.store x' := by
  obtain ⟨outcome, d, hr⟩ := h.request (.discardTo level) nofun nofun
  obtain ⟨r, hs, rfl⟩ := ClientM.bind_pure_eq_ok.mp hr.performed
  obtain ⟨rfl, -, hvar, hcall, hcontent⟩ := discardTo_returns h.kept hpos hle hs
  exact ⟨d, hr, hvar, hcall, hcontent⟩

/-- The innermost region of a reachable client can always be committed. -/
theorem Reachable.committed (h : Reachable limits c) (hn : 0 < c.store.level) :
    ∃ c', c.Requests (.commit c.store.level) (.ok .done) c' ∧ c'.owned = c.owned ∧
      Store.commit c.store.level c.store = .ok (.ok (), c'.store) := by
  obtain ⟨outcome, c', hr⟩ := h.request (.commit c.store.level) nofun nofun
  obtain ⟨howned, r, hs, rfl⟩ := hr.commit_result
  have hwalk := walk_commit h.kept hs
  cases r with
  | error e =>
    rcases hwalk.2 with hp | hne
    · exact absurd hn (by unfold Store.level; rw [hp]; exact Nat.lt_irrefl 0)
    · exact absurd rfl hne
  | ok u => exact ⟨c', hr, howned, hs⟩

/--
Committing the innermost plane is always carried out. It changes no variable and no callout table,
and of the containers that stay live nothing but the home of those that belong to the plane, which
is the plane below afterwards. Throwing the planes away down to a lower one brings back the same
variables and the same callout tables before the commit and after it, and of each container that is
live then the same content and home; only a container that came to be on the plane below, and of
which the innermost one had a backup, keeps what it holds at the commit. When the last plane is
committed nothing is remembered any more, every container is at home outside of all regions, and
exactly those containers and strings are gone to which there are no references.
-/
theorem Reachable.region_committed (h : Reachable limits c) (hn : 0 < c.store.level) :
    ∃ c', c.Requests (.commit c.store.level) (.ok .done) c' ∧
      (∀ ref, c'.store.variableAt? ref = c.store.variableAt? ref) ∧
      (∀ call, c'.store.call? call = c.store.call? call) ∧
      (∀ id x', c'.store.content? id = some x' → ∃ x, c.store.content? id = some x ∧
        ({ x with home := if x.home = c.store.level then c.store.level - 1 else x.home } :
          Content).Same c.store c'.store x') ∧
      (∀ level, 0 < level → level < c.store.level → ∃ d d',
        c.Requests (.discardTo level) (.ok .done) d ∧
        c'.Requests (.discardTo level) (.ok .done) d' ∧
        (∀ ref v, c.store.variableAt? ref = some v →
          d'.store.variableAt? ref = d.store.variableAt? ref) ∧
        (∀ call, d'.store.call? call = d.store.call? call) ∧
        ∀ id x x', d.store.content? id = some x → d'.store.content? id = some x' →
          x'.label = x.label ∧
          (¬c.store.Young id → x.Same d.store d'.store x') ∧
          (c.store.Young id → ∃ y, c.store.content? id = some y ∧
            ({ y with home := x'.home } : Content).Same c.store d'.store x')) ∧
      (c.store.level = 1 → c'.store.planes = [] ∧
        (∀ id x', c'.store.content? id = some x' → x'.home = 0) ∧
        ∀ t n, c.store.heap.count? t = some n → (c'.store.heap.count? t = none ↔
          c'.store.refs.tally t + c'.owned.tally t = 0)) := by
  obtain ⟨c', hr, howned, hs⟩ := h.committed hn
  have ha : Account.Kept ⟨c.store, c.owned, 0, none⟩ := h.kept
  have h' := h.next hr
  obtain ⟨hvar, hcall, hcontent⟩ := commit_keeps ha hs
  obtain ⟨-, hlevel, hpath⟩ := walk_commit ha hs
  have hpath : Path (Effect.Folds c.store.level) c.account c'.account := by
    unfold account
    rwa [howned]
  refine ⟨c', hr, hvar, hcall, hcontent, fun level hpos hlt => ?_, fun hone => ?_⟩
  · have hspares := fun e => Effect.Folds.spares hlt e
    have hreach : c.account.Reaches level := ⟨hpos, hlt.le, nofun⟩
    obtain ⟨d, hd, hdvar, hdcall, hdcontent⟩ := h.discards hpos hlt.le
    obtain ⟨d', hd', hdvar', hdcall', hdcontent'⟩ :=
      h'.discards hpos (show level ≤ c'.store.level by omega)
    refine ⟨d, d', hd, hd', fun ref v hv => ?_, fun call => ?_, fun id x x' hx hx' => ?_⟩
    · rw [hdvar ref v hv, hdvar' ref v ((hvar ref).trans hv)]
      exact (hpath.variableAt h.kept hspares hreach hv).1
    · rw [hdcall, hdcall']
      exact hpath.callAt h.kept hspares hreach call
    obtain ⟨y, hy, hsame⟩ := hdcontent id x hx
    obtain ⟨y', hy', hsame'⟩ := hdcontent' id x' hx'
    have haccount : c'.account = ⟨c'.store, c.owned, 0, none⟩ := by
      unfold account
      rw [howned]
    rw [haccount] at hsame'
    -- A young container was made above the level; its backups are gone after the commit.
    by_cases hyoung : c.store.Young id
    · obtain ⟨hstays, hlabel⟩ := commit_contentAt_young ha hs hpos hlt hy hy' hyoung
      rw [hstays] at hsame'
      refine ⟨hsame'.label_eq.trans (hlabel.trans hsame.label_eq.symm),
        fun hold => absurd hyoung hold,
        fun _ => ⟨y, hy, ?_⟩⟩
      obtain ⟨z, hz, hkept⟩ := hcontent id y' hy'
      obtain rfl := Option.some.inj (hy.symm.trans hz)
      have hsince : (y'.below level).Same c'.store d'.store x' := hsame'
      refine Content.Same.trans ?_ hsince
      exact ⟨hkept.kind, hkept.tag, hkept.owner, hsince.home.symm, hkept.elements, hkept.entries⟩
    · -- Of any other container the commit keeps the backup that the discard goes back to.
      have hback := commit_contentAt ha hs hpos hlt hy hy' hyoung
      have hall := hsame.symm.trans (hback.trans hsame')
      exact ⟨hall.label_eq, fun _ => hall, fun h => absurd h hyoung⟩
  · have hp : c'.store.planes = [] := List.eq_nil_of_length_eq_zero
      (show c'.store.level = 0 by omega)
    refine ⟨hp, fun id x' hx' => ?_, fun t n _ => ?_⟩
    · obtain ⟨c₁, hc₁, rfl⟩ := content?_eq_some.mp hx'
      have hle := h'.kept.home_le hc₁
      show c₁.home = 0
      omega
    · have hfree : c'.store.heap.count? t = none ↔ c'.account.refs.tally t = 0 :=
        h'.kept.accounted.balanced.free_iff
      rwa [refs_account, Refs.tally_add] at hfree

/--
Requests that lead to a second plane. An array from outside of all regions was changed on both
planes; another one was made on the first plane and changed on the second.
-/
def nested : List Operation :=
  [.createDataspace 1, .createArray ⟨0⟩ 1, .enter,
    .assign (.container .array ⟨0⟩) (.int 0) (.int 1), .createArray ⟨0⟩ 1, .enter,
    .assign (.container .array ⟨0⟩) (.int 0) (.int 2),
    .assign (.container .array ⟨1⟩) (.int 0) (.int 5)]

/-- An inner region committed into an outer one, which is then discarded. -/
theorem region_committed_nested : ∃ c c' d d', Reachable {} c ∧ c.store.level = 2 ∧
    c.Requests (.commit 2) (.ok .done) c' ∧ c.Requests (.discardTo 1) (.ok .done) d ∧
    c'.Requests (.discardTo 1) (.ok .done) d' ∧
    ∀ x x', d.store.content? ⟨0⟩ = some x → d'.store.content? ⟨0⟩ = some x' →
      x'.label = x.label := by
  obtain ⟨c, hc, hlevel⟩ := exists_visit nested (·.store.level) (a := 2) (by cbv)
  obtain ⟨c', hr, -, -, -, hlower, -⟩ := Reachable.region_committed hc (by omega)
  obtain ⟨d, d', hd, hd', -, -, hcontent⟩ := hlower 1 Nat.one_pos (by omega)
  rw [hlevel] at hr
  exact ⟨c, c', d, d', hc, hlevel, hr, hd, hd', fun x x' hx hx' => (hcontent ⟨0⟩ x x' hx hx').1⟩

/--
What throwing away the first plane leaves of an array that was made on it is not the same before and
after a commit of the second plane, on which it was changed.
-/
theorem commit_forgets_young : ∃ c c' d d' x x', Reachable {} c ∧ c.store.level = 2 ∧
    c.Requests (.commit 2) (.ok .done) c' ∧ c.Requests (.discardTo 1) (.ok .done) d ∧
    c'.Requests (.discardTo 1) (.ok .done) d' ∧
    d.store.content? ⟨1⟩ = some x ∧ d'.store.content? ⟨1⟩ = some x' ∧
    x.kind = .array ∧ x'.kind = .array ∧ x.buffer = #[.nil] ∧ x'.buffer = #[.int 5] := by
  have hlook : ∀ {d : Client} {buffer : Array Value},
      (d.store.content? ⟨1⟩).map (fun x => (x.kind, x.buffer)) = some (.array, buffer) →
        ∃ x, d.store.content? ⟨1⟩ = some x ∧ x.kind = .array ∧ x.buffer = buffer := by
    intro d buffer h
    obtain ⟨x, hx, hfields⟩ := Option.map_eq_some_iff.mp h
    obtain ⟨hkind, hbuffer⟩ := Prod.mk.inj hfields
    exact ⟨x, hx, hkind, hbuffer⟩
  obtain ⟨c, hc, hf⟩ := exists_visit nested
    (fun c => (c.store.level,
      (c.request? (.discardTo 1)).map fun r =>
        (r.1, (r.2.store.content? ⟨1⟩).map fun x => (x.kind, x.buffer)),
      (c.request? (.commit 2)).bind fun q => (q.2.request? (.discardTo 1)).map fun r =>
        (q.1, r.1, (r.2.store.content? ⟨1⟩).map fun x => (x.kind, x.buffer))))
    (a := (2, some (.ok .done, some (.array, #[.nil])),
      some (.ok .done, .ok .done, some (.array, #[.int 5])))) (by cbv)
  obtain ⟨hlevel, hdiscard, hcommit⟩ : _ ∧ _ ∧ _ := by simpa only [Prod.mk.injEq] using hf
  obtain ⟨⟨outcome, d⟩, hd, he⟩ := Option.map_eq_some_iff.mp hdiscard
  obtain ⟨rfl, hx⟩ := Prod.mk.inj he
  obtain ⟨⟨outcome, c'⟩, hr, hrest⟩ := Option.bind_eq_some_iff.mp hcommit
  obtain ⟨⟨outcome', d'⟩, hd', he'⟩ := Option.map_eq_some_iff.mp hrest
  obtain ⟨rfl, rfl, hx'⟩ : _ ∧ _ ∧ _ := by simpa only [Prod.mk.injEq] using he'
  obtain ⟨x, hx, hkind, hbuffer⟩ := hlook hx
  obtain ⟨x', hx', hkind', hbuffer'⟩ := hlook hx'
  exact ⟨c, c', d, d', x, x', hc, hlevel, request?_eq_some.mp hr, request?_eq_some.mp hd,
    request?_eq_some.mp hd', hx, hx', hkind, hkind', hbuffer, hbuffer'⟩

end Client

end PlaneStore
