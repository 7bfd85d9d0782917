import RhoTkg.ClockRuns
import RhoTkg.TimelineAgreement
import RhoTkg.NodeRuns
import RhoTkg.AsOfScan
import RhoTkg.ShardedFeed
import RhoTkg.TieredFeed
import RhoTkg.ShardedTx
import RhoTkg.FeedOrder
import RhoTkg.ReplicaAgreement
import RhoTkg.Redelivery
import RhoTkg.GraphTx
import RhoTkg.Adjacency
import RhoTkg.Undo
import RhoTkg.TxWrites
import RhoTkg.Rollback
import RhoTkg.TxDoors
import RhoTkg.TxRecords
import RhoTkg.TxRollback
import RhoTkg.Compaction
import RhoTkg.AsOfCache
import RhoTkg.AsOfCacheRuns
import RhoTkg.Unique
import RhoTkg.UniqueDoors
import RhoTkg.NodeRollback
import RhoTkg.TxNodes
import RhoTkg.UniqueCurrent
import RhoTkg.OwnerIndex
import RhoTkg.OwnerRuns
import RhoTkg.ForeverOwners
import RhoTkg.NodeHistory
import RhoTkg.RollbackCalls
import RhoTkg.ForeverRuns
import RhoTkg.MintRuns
import RhoTkg.WindowFull
import RhoTkg.HashPreimage
import RhoTkg.HashCollision
import RhoTkg.Library.LastWrite
import RhoTkg.StagedFlush
import RhoTkg.StagedRecovery
import RhoTkg.FlushAtomicity
import RhoTkg.Library.Tally
import RhoTkg.RelDegrees
import RhoTkg.RelDegreeRuns
import RhoTkg.DoorChains
import RhoTkg.EndpointRuns
import RhoTkg.Library.Gregorian
import RhoTkg.ShardWindow
import RhoTkg.Library.Stabbing
import RhoTkg.TemporalIndex
import RhoTkg.Library.Faults
import RhoTkg.ShardMove
import RhoTkg.NestedCanonical
import RhoTkg.LabelRestore
import RhoTkg.Allen
import RhoTkg.OwnerKeys
import RhoTkg.BucketIndex
