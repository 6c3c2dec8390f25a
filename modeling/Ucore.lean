import Ucore.Foundation.Machine
import Ucore.Foundation.Ring
import Ucore.Foundation.Runs
import Ucore.Libs.List
import Ucore.Mm.Kern
import Ucore.Mm.Mapping
import Ucore.Mm.Mmu
import Ucore.Mm.PageMap
import Ucore.Mm.PageTable
import Ucore.Mm.Walk
import Ucore.Pmm.BestFitPmm
import Ucore.Pmm.Blocks
import Ucore.Pmm.Region
import Ucore.Pmm.DefaultPmm
import Ucore.Pmm.SlubPmm
import Ucore.Libs.SkewHeap
import Ucore.Fs.BlockIo
import Ucore.User.Sh
import Ucore.Foundation.StateMap
import Ucore.Libs.Printfmt
import Ucore.Libs.Vsnprintf
import Ucore.Foundation.Numeral
import Ucore.Libs.NumberField
import Ucore.Mm.Vma
import Ucore.Mm.Range
import Ucore.Mm.Prune
import Ucore.Mm.Vmm
import Ucore.Mm.Fault
import Ucore.Mm.Fork
import Ucore.Mm.Exit
import Ucore.Mm.Procs
import Ucore.Mm.WritePerm
import Ucore.Mm.RefCount
import Ucore.Mm.Dup
import Ucore.Mm.Access
import Ucore.Mm.ForkEquiv
import Ucore.Mm.EagerCount
import Ucore.Mm.Teardown
import Ucore.Process.Pid
import Ucore.Foundation.DList
import Ucore.Process.Proc
import Ucore.Process.Graph
import Ucore.Process.Spec
import Ucore.Process.Trap
import Ucore.Process.System
import Ucore.Process.Wakeup
import Ucore.Foundation.Census
import Ucore.Fs.Sharing
import Ucore.Libs.Buckets
import Ucore.Fs.InodeProtocol
import Ucore.Slob.Integrity
import Ucore.Pmm.BuddyCount
import Ucore.Foundation.DeltaList
import Ucore.Schedule.Timer
import Ucore.Schedule.TimerSpec
import Ucore.Schedule.OnTime
import Ucore.Sync.Counting
import Ucore.Vfs.Counts
import Ucore.Vfs.Tables
import Ucore.Vfs.Lifetime
import Ucore.Vfs.FailedOpen
import Ucore.Vfs.Sound
import Ucore.Vfs.Lookup
import Ucore.Foundation.Tally
import Ucore.Vfs.Balance
import Ucore.Vfs.Accounts
import Ucore.Vfs.TableCounts
import Ucore.Vfs.InodeCounts
import Ucore.Vfs.OpenClose
import Ucore.Foundation.Words
import Ucore.Sfs.Layout
import Ucore.Sfs.Bitmap
import Ucore.Sfs.Mount
import Ucore.Sfs.Mksfs
import Ucore.Sfs.Handout
import Ucore.Sfs.FileTable
import Ucore.Sfs.Walk
import Ucore.Sfs.Image
import Ucore.Sfs.Volume
import Ucore.Foundation.RingBuffer
import Ucore.Fs.Stdin
import Ucore.Sync.Philosophers
import Ucore.Mm.MmMap
import Ucore.Mm.UserCheck
import Ucore.Schedule.RunQueue
import Ucore.Mm.CopyString
import Ucore.Mm.Resolve
import Ucore.Sfs.BlockMap
import Ucore.Sfs.Dirent
import Ucore.Process.Fork
import Ucore.Sfs.Ledger
import Ucore.Sfs.Allocate
import Ucore.Sfs.Resize
import Ucore.Sfs.FileSize
import Ucore.Sfs.Reclaim
import Ucore.Sfs.Sync
import Ucore.Sfs.Listing
import Ucore.Vfs.OpenOps
import Ucore.Vfs.DevList
import Ucore.Foundation.RoundRobin
import Ucore.Process.Fairness
import Ucore.Mm.Plenty
import Ucore.Mm.EagerFork
import Ucore.Sfs.InMemory
import Ucore.Sfs.Namefile
import Ucore.Sfs.Open
import Ucore.Pmm.BuddyOrder
import Ucore.Pmm.BuddyInit
import Ucore.Pmm.BuddyBounds
import Ucore.Mm.SwapClock
import Ucore.Slob.Kmalloc
import Ucore.Slob.KmallocSpec
import Ucore.Slob.KmallocRoom
import Ucore.Fs.SysRead
import Ucore.Fs.SysWrite
import Ucore.Fs.ReadBack
import Ucore.Paging.Policy
import Ucore.Paging.Evict
import Ucore.Paging.SwapErrors
import Ucore.Paging.Fault
import Ucore.Paging.Transparent
import Ucore.Sfs.FreeSet
import Ucore.Foundation.SkewTree
import Ucore.Paging.Fifo
import Ucore.Sfs.Contents
import Ucore.Sfs.Served
import Ucore.Foundation.Counted
import Ucore.Schedule.Turns
import Ucore.Foundation.Budget
import Ucore.Sfs.Capacity
import Ucore.Sfs.Reboot
