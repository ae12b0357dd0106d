import PlaneStore.Client
import PlaneStore.Proofs.Walk.References
import PlaneStore.Proofs.Mapping.SelectedTables
import PlaneStore.Proofs.Walk.Assignment
import PlaneStore.Proofs.Walk.Creation
import PlaneStore.Proofs.Walk.Deriving
import PlaneStore.Proofs.Walk.Eviction
import PlaneStore.Proofs.Walk.Regions
import PlaneStore.Proofs.Callouts.Agenda
import PlaneStore.Proofs.Clients.DisciplinedClients
import PlaneStore.Proofs.Callouts.CommitEvents
import PlaneStore.Proofs.Mapping.ValuesUnderKeys
import PlaneStore.Proofs.Mapping.StoredKeys
import PlaneStore.Proofs.Totality.Assignment
import PlaneStore.Proofs.Totality.Creation
import PlaneStore.Proofs.Totality.Deriving
import PlaneStore.Proofs.Totality.Eviction
import PlaneStore.Proofs.Totality.Writing
import PlaneStore.Proofs.References.ReleaseCascade
import PlaneStore.Proofs.Clients.LosslessEviction
import PlaneStore.Proofs.Clients.DiscardedRegions
import PlaneStore.Proofs.Clients.DataspaceEviction
import PlaneStore.Proofs.Clients.NoFaults
import PlaneStore.Proofs.Clients.ScrubbedReads
import PlaneStore.Proofs.Clients.MappingCombinators
import PlaneStore.Proofs.Clients.NoLeaks
import PlaneStore.Proofs.Clients.ExactRecords
import PlaneStore.Proofs.Clients.RefusedRequests
import PlaneStore.Proofs.Clients.TakenOverContainers
import PlaneStore.Proofs.Clients.ReleasedSlots
import PlaneStore.Proofs.Clients.RestoredMappings
import PlaneStore.Proofs.Clients.ArrayCombinators
import PlaneStore.Proofs.Clients.MirroredStores
import PlaneStore.Proofs.Clients.MappingRepresentation
import PlaneStore.Proofs.Clients.SizeReports
import PlaneStore.Proofs.Clients.DeepEquality
import PlaneStore.Proofs.Clients.MirroredRequests
import PlaneStore.Proofs.Order.OrderLaws
import PlaneStore.Proofs.SweepLists.ListHistory
import PlaneStore.Proofs.Clients.SweepListOrder
import PlaneStore.Proofs.Overlay.FiniteMap
import PlaneStore.Proofs.Heap.IdentityTags
import PlaneStore.Proofs.Clients.NoAliases
import PlaneStore.Proofs.Clients.CommittedRegions
import PlaneStore.Proofs.Clients.SchedulerCalls
