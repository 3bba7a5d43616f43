import Rpos.Base.Ring
import Rpos.Base.Tiling
import Rpos.Base.Loops
import Rpos.Base.Runs
import Rpos.Base.BitField
import Rpos.Memory.BuddyContract
import Rpos.Memory.BuddyCoalescing
import Rpos.Memory.Mmap
import Rpos.Boot.BootTree
import Rpos.Memory.KernelMap
import Rpos.Utils.Trie
import Rpos.Filedescriptors.Pipe
import Rpos.System.Vma
import Rpos.System.CloneProc
import Rpos.Base.ByteMemory
import Rpos.Filesystem.Disk
import Rpos.Filesystem.Elf
import Rpos.Filesystem.Open
import Rpos.Base.Heap
import Rpos.Filedescriptors.Readers
import Rpos.Synchronization.Mutex
import Rpos.Utils.Timer
import Rpos.Memory.BuddyCapacity
import Rpos.Memory.UpdateMapping
import Rpos.Boot.MapLo
import Rpos.Memory.MapRequests
import Rpos.System.LazyMapping
import Rpos.System.OutOfMemory
import Rpos.System.SyscallTable
import Rpos.Filedescriptors.FdAlloc
import Rpos.Filesystem.ProgramHeaders
import Rpos.Memory.PageOwner
import Rpos.System.RoundRobin
import Rpos.Memory.BuddySizes
import Rpos.Memory.Kmalloc
import Rpos.System.KmallocFailure
import Rpos.Memory.PagePool
import Rpos.Filesystem.SegmentPages
import Rpos.Base.RadixCopy
import Rpos.Memory.ClonePages
import Rpos.Memory.ForkPages
import Rpos.Memory.ReapPages
import Rpos.Utils.Clock
import Rpos.Base.Search
import Rpos.Filesystem.Directory
import Rpos.System.MmapRegion
import Rpos.Filesystem.InodeTable
import Rpos.Memory.SlabSlots
import Rpos.Memory.SlabLists
import Rpos.Memory.Kfree
import Rpos.Memory.SlabHeap
import Rpos.Memory.HeapPages
import Rpos.Base.CString
import Rpos.Utils.Strings
import Rpos.Emmc.EmmcClock
import Rpos.Io.Cli
import Rpos.Memory.MemProfiler
import Rpos.Base.Numeral
import Rpos.Io.Kprintf
import Rpos.Filedescriptors.Stdout
import Rpos.Io.Ansi
import Rpos.System.HeapRuns
import Rpos.System.StraySlab
import Rpos.User.Printf
import Rpos.Base.Segments
import Rpos.Utils.Strtok
import Rpos.Base.Exclusive
import Rpos.Synchronization.Spinlock
import Rpos.Base.Aarch64
import Rpos.System.Entry
import Rpos.System.Cpu
import Rpos.System.Processors
import Rpos.Base.Sharing
import Rpos.Base.RadixCount
import Rpos.Memory.PagedKernel
import Rpos.System.AddressSpaces
import Rpos.System.Isolation
import Rpos.Base.Device
import Rpos.Emmc.Emmc
import Rpos.Emmc.AnyController
import Rpos.Emmc.ReadBlocks
import Rpos.Emmc.CardReset
import Rpos.Base.TextPage
import Rpos.Io.Console
import Rpos.Io.Format
import Rpos.User.Output
import Rpos.System.Waitid
import Rpos.User.Jsh
import Rpos.User.ShellInput
