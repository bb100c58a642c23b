import NetWalk.ByteBlock
import NetWalk.PartialRun
import NetWalk.RingCursor
import NetWalk.PacketByteRing
import NetWalk.PacketByteRuns
import NetWalk.PacketFrames
import NetWalk.PacketFrameRuns
import NetWalk.PacketLoads
import NetWalk.MatchFieldRing
import NetWalk.MatchFieldRuns
import NetWalk.BitOperations
import NetWalk.PreProcessing
import NetWalk.MatchFieldLayout
import NetWalk.MatchFieldContents
import NetWalk.PreProcessingRuns
import NetWalk.IdlePrepares
import NetWalk.ReaderBounds
import NetWalk.CursorWrites
import NetWalk.PacketIn
import NetWalk.SlotTable
import NetWalk.RowSequence
import NetWalk.PriorityScan
import NetWalk.FlowTables
import NetWalk.FlowSearch
import NetWalk.FlowAdd
import NetWalk.FlowDelete
import NetWalk.FlowRows
import NetWalk.FlowCache
import NetWalk.FlowRuns
import NetWalk.GroupRuns
import NetWalk.MaskRuns
import NetWalk.ModifyEntry
import NetWalk.FieldCopies
import NetWalk.ModifyBranches
import NetWalk.TailBounds
import NetWalk.CacheRuns
import NetWalk.AddOutcomes
import NetWalk.RedundancyChecks
import NetWalk.DeleteOutcomes
import NetWalk.SearchOutcomes
import NetWalk.ModifyOutcomes
import NetWalk.Bookkeeping
import NetWalk.GroupScans
import NetWalk.InsertionOrder
import NetWalk.CacheWindow
import NetWalk.HitCounts
import NetWalk.CachedPairs
import NetWalk.RingPrinting
import NetWalk.BufferPrints
import NetWalk.ManagedRuns
import NetWalk.ActionOutput
import NetWalk.AppliedChanges
import NetWalk.ScanOrder
import NetWalk.InstallOrders
import NetWalk.LiveRows
import NetWalk.FrameFields
import NetWalk.FrameClassification
import NetWalk.FrameActions
import NetWalk.PacketDispatch
import NetWalk.RuleSets
import NetWalk.FrameBatches
import NetWalk.MaskReuse
