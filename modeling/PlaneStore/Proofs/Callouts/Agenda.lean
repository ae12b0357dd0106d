import PlaneStore.Proofs.Inversion.Journal

/-!
# What a store knows of deferred calls

The callout tables, the patches of the planes and the scheduler make up the agenda of a store. What
else is kept of dataspaces and planes has nothing to do with it.
-/

namespace PlaneStore

open Store

/-- What a store knows of deferred calls. -/
structure Agenda where
  /-- The callout table of each dataspace and the number of its next call. -/
  tables : DataspaceId → Option (Std.TreeMap CallHandle DeferredCall × Nat)
  /-- The patches of the planes, the innermost in front. -/
  patches : List (Std.TreeMap CallRef CallPatch)
  scheduler : Scheduler

/-- The callout table of a dataspace and the number of the next call. -/
def Dataspace.table (d : Dataspace) : Std.TreeMap CallHandle DeferredCall × Nat :=
  (d.callouts, d.nextHandle)

def Store.agenda (s : Store) : Agenda where
  tables ds := (s.dataspace? ds).map Dataspace.table
  patches := s.planes.map Plane.patches
  scheduler := s.scheduler

namespace Store

/-- The agenda knows no more of a dataspace than its callout table. -/
theorem agenda_withDataspace {s : Store} {ds : DataspaceId} {f : Dataspace → Dataspace}
    (hf : ∀ d, s.dataspace? ds = some d → (f d).table = d.table) :
    (s.withDataspace ds f).agenda = s.agenda := by
  refine congrArg (fun t => Agenda.mk t _ _) (funext fun other => ?_)
  by_cases h : ds = other
  · subst h
    rw [dataspace?_withDataspace_self, Option.map_map]
    exact Option.map_congr hf
  · rw [dataspace?_withDataspace_of_ne h]

theorem agenda_changePlane {s : Store} {f : Plane → Plane} (hf : ∀ p, (f p).patches = p.patches) :
    (s.withPlane f).agenda = s.agenda := by
  unfold Store.withPlane
  split
  · rfl
  · next p rest hp =>
    refine congrArg (fun l => Agenda.mk _ l _) ?_
    rw [hp, List.map_cons, List.map_cons, hf]

end Store

/-- Dropping an import takes nothing but the import from a dataspace. -/
theorem table_dropImport? {d d' : Dataspace} {id : ContainerId} (h : d.dropImport? id = some d') :
    d'.table = d.table := by
  unfold Dataspace.dropImport? at h
  split at h
  · cases h
  · cases h
    rfl

end PlaneStore
