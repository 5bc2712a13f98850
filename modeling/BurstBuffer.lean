import BurstBuffer.Guarantees.InodeLifeCycle
import BurstBuffer.Guarantees.BackgroundImages
import BurstBuffer.Guarantees.QueueDelivery
import BurstBuffer.Guarantees.QueueProgress
import BurstBuffer.Guarantees.DurableWrite
import BurstBuffer.Guarantees.CrashRecovery
import BurstBuffer.Guarantees.BlockOwnership
import BurstBuffer.Guarantees.CrashAtomicity
import BurstBuffer.Guarantees.HandOff
import BurstBuffer.Guarantees.OwnershipCrash
import BurstBuffer.Guarantees.CleanDurable
import BurstBuffer.Guarantees.BlockSwap
import BurstBuffer.Guarantees.VolumeScan
import BurstBuffer.Guarantees.BlockResidue
import BurstBuffer.Guarantees.ExclusiveFlush
import BurstBuffer.Guarantees.OneInode
import BurstBuffer.Guarantees.BalloonSafety
import BurstBuffer.Guarantees.CleanEntries
import BurstBuffer.Guarantees.WaitingWriters
import BurstBuffer.Guarantees.WriteRange
import BurstBuffer.Guarantees.FilePositions
import BurstBuffer.Guarantees.FlushCollection
import BurstBuffer.Guarantees.RecoveryCrash
import BurstBuffer.Guarantees.InvalidLists
import BurstBuffer.Guarantees.AvlShape
import BurstBuffer.Guarantees.AvlMap
import BurstBuffer.Guarantees.TreeRebalance
import BurstBuffer.Guarantees.TreeReinsert
import BurstBuffer.Guarantees.FlushBatches
import BurstBuffer.Guarantees.NvmLayout
import BurstBuffer.Guarantees.InodePointers
import BurstBuffer.Guarantees.VolumeLookup
import BurstBuffer.Guarantees.FreeQueues
import BurstBuffer.Guarantees.WriteVariants
import BurstBuffer.Guarantees.LatchFreeList
import BurstBuffer.Guarantees.LfListCalls
import BurstBuffer.Guarantees.LayoutCounts
import BurstBuffer.Guarantees.HashList
import BurstBuffer.Guarantees.QueueObject
import BurstBuffer.Guarantees.BlockStore
import BurstBuffer.Guarantees.WritersProceed
import BurstBuffer.Guarantees.PowerFailures
import BurstBuffer.Guarantees.SyncOption
import BurstBuffer.Guarantees.ConcurrentBlocks
import BurstBuffer.Guarantees.NoDeadlock
import BurstBuffer.Guarantees.InodeCounts
