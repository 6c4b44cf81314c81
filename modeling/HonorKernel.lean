import HonorKernel.BitSlice
import HonorKernel.StoreWrites
import HonorKernel.RedoLog
import HonorKernel.Runs
import HonorKernel.KeyedList
import HonorKernel.DiskFormat
import HonorKernel.Semaphores
import HonorKernel.BlockCache
import HonorKernel.CacheLaws
import HonorKernel.LogCommit
import HonorKernel.CacheRuns
import HonorKernel.CrashAtomicity
import HonorKernel.CacheTransparency
import HonorKernel.LogThreads
import HonorKernel.LogCapacity
import HonorKernel.LogInvariant
import HonorKernel.WriteAhead
import HonorKernel.LogLimit
import HonorKernel.Durability
import HonorKernel.CacheThreads
import HonorKernel.CacheEviction
import HonorKernel.CacheCopies
import HonorKernel.InodeFormat
import HonorKernel.CacheView
import HonorKernel.InodeLayer
import HonorKernel.Ownership
import HonorKernel.BlockOwnership
import HonorKernel.InodeConsistency
import HonorKernel.Overlay
import HonorKernel.FileContents
import HonorKernel.FileRuns
import HonorKernel.Tiling
import HonorKernel.KernelHeap
import HonorKernel.KilledWaits
import HonorKernel.SemaphoreInts
import HonorKernel.ProcessLife
import HonorKernel.RbTree
import HonorKernel.RbTreeErase
import HonorKernel.RbTreeInsert
import HonorKernel.RbTreeRuns
import HonorKernel.Scheduler
import HonorKernel.AddressSpace
import HonorKernel.Console
import HonorKernel.ConsoleDelivery
import HonorKernel.DirectoryScan
import HonorKernel.ForkCopy
import HonorKernel.PageOwnership
import HonorKernel.PageRelease
import HonorKernel.PipeBuffer
import HonorKernel.SectionBudget
import HonorKernel.SectionLayout
import HonorKernel.SpaceRuns
import HonorKernel.SyncCoverage
import HonorKernel.BlockAllocator
import HonorKernel.BlockLookup
import HonorKernel.CacheReplacement
import HonorKernel.ChunkedWrite
import HonorKernel.Copyout
import HonorKernel.DescriptorErrors
import HonorKernel.DirectoryMap
import HonorKernel.Execve
import HonorKernel.ExecveAtomicity
import HonorKernel.ExecveImage
import HonorKernel.HeapForks
import HonorKernel.InodeThreads
import HonorKernel.MmapPlacement
import HonorKernel.PageQueue
import HonorKernel.PathNames
import HonorKernel.PgdirPages
import HonorKernel.PipeThreads
import HonorKernel.UserRanges
import HonorKernel.VectoredWrite
import HonorKernel.VirtioBlk
import HonorKernel.VirtioDelivery
import HonorKernel.ConsoleDevice
import HonorKernel.ConsoleHandler
import HonorKernel.ConsoleIndices
import HonorKernel.CpuTimers
import HonorKernel.HeapRelease
import HonorKernel.HeapSizes
import HonorKernel.KillRace
import HonorKernel.PageCounts
import HonorKernel.SchedulerLoad
import HonorKernel.ListSurgery
import HonorKernel.PageRefs
import HonorKernel.ShellRun
import HonorKernel.MkfsDisk
import HonorKernel.PrivateMemory
import HonorKernel.TreeMount
