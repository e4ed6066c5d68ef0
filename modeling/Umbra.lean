import Umbra.Publication.LogicalEof
import Umbra.Publication.WalOrder
import Umbra.Publication.Uniqueness
import Umbra.Publication.Standby
import Umbra.Map.Exclusion
import Umbra.Reclaim.Unlink
import Umbra.Map.FreeSpaceOrder
import Umbra.Storage.DropRelation
import Umbra.Storage.SkipWal
import Umbra.Storage.AccessPolicy
import Umbra.Storage.RelationCopy
import Umbra.Sync.PendingUnlinks
import Umbra.Wal.RoundTrip
import Umbra.Cache.Checkpoint
import Umbra.Block.CrashSafety
import Umbra.Cache.StateWord
import Umbra.Map.Layout
import Umbra.Cache.Invalidation
import Umbra.Cache.ReadFailure
import Umbra.Storage.Checksum
import Umbra.Recovery.InvalidPages
import Umbra.Abort.Cleanup
import Umbra.Timeline.Incremental
import Umbra.Map.TableRefinement
import Umbra.Map.MaterializeHandlers
import Umbra.Map.MaterializeRace
import Umbra.Storage.FlushBuffer
import Umbra.Map.TruncateTail
import Umbra.Storage.RunReads
import Umbra.Storage.RangeForeground
import Umbra.Wal.RemapSettlement
import Umbra.Wal.Reservation
import Umbra.Recovery.SuperblockRuns
import Umbra.Map.SharedMemory
import Umbra.Storage.SegmentProbe
import Umbra.Timeline.Reconstruction
import Umbra.Map.Preallocate
import Umbra.Timeline.BlockRefEntry
import Umbra.Gin.PostingList
import Umbra.Ipc.Barrier
import Umbra.Common.Pglz
import Umbra.Page.Compaction
import Umbra.Text.Like
import Umbra.Adt.Julian
import Umbra.Bench.Permute
import Umbra.Lib.Knapsack
