import Koharu.Lib.ListStore
import Koharu.List
import Koharu.Lib.Block
import Koharu.Lib.Radix
import Koharu.Lib.Word
import Koharu.Lib.Machine
import Koharu.Lib.Sweep
import Koharu.Lib.Chain
import Koharu.Lib.Bytes
import Koharu.Lib.Packing
import Koharu.Lib.Tally
import Koharu.Lib.Attempt
import Koharu.Misc.Lock
import Koharu.Mm.Pmm
import Koharu.Mm.PmmInvariant
import Koharu.Mm.PmmSafety
import Koharu.Mm.PmmSplit
import Koharu.Mm.Pool
import Koharu.Arch.Pmap
import Koharu.Arch.PmapInvariant
import Koharu.Arch.PmapRefinement
import Koharu.Arch.PmapIsolation
import Koharu.Arch.PmapOwnership
import Koharu.Arch.PmapStores
import Koharu.Arch.PmapCoverage
import Koharu.Arch.PmapFailure
import Koharu.Arch.PmmPages
import Koharu.Task.Ipc
import Koharu.Task.IpcInvariant
import Koharu.Task.IpcHistory
import Koharu.Task.IpcDiscipline
import Koharu.Task.IpcGuarantees
import Koharu.Task.IpcLocks
import Koharu.Task.Sched
import Koharu.Task.RunQueues
import Koharu.Task.SchedInvariant
import Koharu.Task.SchedOrder
import Koharu.Task.Grant
import Koharu.Task.Syscall
import Koharu.Task.MapAuthority
import Koharu.Task.KernelHalf
import Koharu.Task.GrantInvariant
import Koharu.Task.Delegation
import Koharu.Lib.Traced
import Koharu.Task.Futex
import Koharu.Task.System
import Koharu.Task.SystemRuns
import Koharu.Task.ControlAuthority
import Koharu.Task.UserPointers
import Koharu.Task.IpcFrame
import Koharu.Task.IpcAttached
import Koharu.Task.SystemInvariant
import Koharu.Task.FutexQueues
import Koharu.Task.FutexSmp
import Koharu.Task.RangeLoops
import Koharu.Task.MapAtomic
import Koharu.Task.MappedFrames
import Koharu.Task.MapCounts
import Koharu.Task.SyscallReturn
import Koharu.Task.Destroy
import Koharu.Task.Registry
import Koharu.Task.RegistryHistory
import Koharu.Task.ThreadCreate
import Koharu.Task.Framebuffer
import Koharu.Task.Initrd
import Koharu.Task.Elf
import Koharu.Task.LoadMemory
import Koharu.Task.ElfLayout
import Koharu.Task.Write
import Koharu.Boot.Hhdm
import Koharu.Boot.DirectMap
import Koharu.Mm.Tlsf
import Koharu.Mm.Kmalloc
import Koharu.Mm.Kmem
import Koharu.Mm.Krealloc
import Koharu.Mm.PendingFrees
import Koharu.User.Pager
import Koharu.User.Vma
import Koharu.User.VmaSets
import Koharu.User.VmaLookup
import Koharu.User.RootLoader
import Koharu.User.RootMemory
import Koharu.User.LoadersExact
import Koharu.User.RootServer
import Koharu.User.HeapService
import Koharu.User.Merge
import Koharu.User.LoaderBounds
import Koharu.Lib.Newc
import Koharu.User.Cpio
import Koharu.User.CpioArchive
import Koharu.User.CpioBounds
import Koharu.Lib.RankTree
import Koharu.Lib.RankRebalance
import Koharu.Lib.RankSearch
import Koharu.Lib.Calls
import Koharu.User.Tree
import Koharu.User.TreeLayout
import Koharu.User.TreeInsert
import Koharu.User.TreeRemove
import Koharu.User.TreeSearch
import Koharu.User.TreeHolds
import Koharu.User.TreeRuns
import Koharu.User.VmaTree
import Koharu.User.VmaTreeRuns
import Koharu.Lib.Tiling
import Koharu.Lib.WordMemory
import Koharu.Mm.TlsfRuns
