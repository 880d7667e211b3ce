import AetherGraph.GracePeriod
import AetherGraph.Seqlock
import AetherGraph.TieredCache
import AetherGraph.BatchSampler
import AetherGraph.OrderedDelivery
import AetherGraph.HeteroFaithful
import AetherGraph.BamQueue
import AetherGraph.PersistentProgress
import AetherGraph.BatchStrategies
import AetherGraph.WarpParity
import AetherGraph.IbgdaPoster
import AetherGraph.DecompressParity
import AetherGraph.GraphFile
import AetherGraph.EliasFanoParse
import AetherGraph.StreamVByteParse
import AetherGraph.EdgeBuild
import AetherGraph.ExactRetirement
import AetherGraph.TraversalStack
import AetherGraph.RabbitModularity
import AetherGraph.DirtyMarks
import AetherGraph.Permute
import AetherGraph.PartitionBatches
import AetherGraph.MirroredEdges
import AetherGraph.InducedEdges
import AetherGraph.SieveRuns
import AetherGraph.Receivers
import AetherGraph.WorkerFaults
import AetherGraph.DiskFaithful
import AetherGraph.RejectedRelease
import AetherGraph.DegreeGather
import AetherGraph.HeteroLoad
import AetherGraph.FeatureAccess
import AetherGraph.UringBatch
import AetherGraph.PagerResidency
import AetherGraph.SnapshotOrder
import AetherGraph.SrdShards
import AetherGraph.RebuiltBalance
import AetherGraph.ZoneWal
import AetherGraph.SeedBatches
import AetherGraph.Reservoir
import AetherGraph.HistoricalSampler
import AetherGraph.ValidateGrid
import AetherGraph.XdpRing
import AetherGraph.ColdGathers
import AetherGraph.NvmeGather
import AetherGraph.CompactionExtent
import AetherGraph.Reopen
