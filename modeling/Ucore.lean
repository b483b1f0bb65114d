import Ucore.Lib.Prog
import Ucore.Lib.Bytes
import Ucore.Sfs.Bitmap
import Ucore.Sfs.Format
import Ucore.Sfs.Fs
import Ucore.Sfs.Io
import Ucore.Sfs.BlockMap
import Ucore.Sfs.BlockMapSpec
import Ucore.Sfs.FileIo
import Ucore.Sfs.FileSpec
import Ucore.Sfs.ByteArray
import Ucore.Sfs.Inode
import Ucore.Sfs.Ownership
import Ucore.Sfs.BlockRuns
import Ucore.Sfs.Isolation
import Ucore.Sfs.FileRuns
import Ucore.Sfs.Mount
import Ucore.Sfs.Sync
import Ucore.Sfs.SyncRuns
import Ucore.Lib.CString
import Ucore.Sfs.Dirent
import Ucore.Mksfs.Image
import Ucore.Mksfs.Layout
import Ucore.Mksfs.Append
import Ucore.Lib.DeltaList
import Ucore.Sched.Timer
import Ucore.Proc.Pid
import Ucore.Sync.Sem
import Ucore.Lib.UpdateSum
import Ucore.Sync.Monitor
import Ucore.Lib.WaitQueue
import Ucore.Mksfs.Build
import Ucore.Mksfs.Close
import Ucore.Mksfs.Agree
import Ucore.Lib.SkewHeap
import Ucore.Proc.Kernel
import Ucore.Sched.Schedule
import Ucore.Proc.Process
import Ucore.Proc.Steps
import Ucore.Proc.RunQueue
import Ucore.Proc.SchedRuns
import Ucore.Proc.ForkRuns
import Ucore.Proc.ExitRuns
import Ucore.Lib.Ring
import Ucore.Lib.Extents
import Ucore.Mm.FreeArea
import Ucore.Mm.FreeAreaSpec
import Ucore.Mm.FreeAreaRuns
import Ucore.Mm.AllocPages
import Ucore.Mm.PageTable
import Ucore.Mm.PageTableSpec
import Ucore.Lib.RefCount
import Ucore.Mm.PageRef
import Ucore.Mm.PageRuns
import Ucore.Mm.AddrSpace
import Ucore.Mm.DupMmap
import Ucore.Mm.ExitRange
import Ucore.Lib.Sweep
import Ucore.Mm.Teardown
import Ucore.Lib.SkewOrder
import Ucore.Sched.RoundRobin
import Ucore.Dev.Stdin
import Ucore.Sched.Stride
import Ucore.Sfs.Halts
import Ucore.Sfs.Truncate
import Ucore.Sfs.Limits
import Ucore.Sfs.BlockFaults
import Ucore.Lib.IntervalList
import Ucore.Mm.Vma
import Ucore.Dev.Disk0
import Ucore.Sfs.Listing
import Ucore.Sfs.Counts
import Ucore.Vfs.Lookup
import Ucore.Vfs.Open
import Ucore.Vfs.Walk
import Ucore.Vfs.Getcwd
import Ucore.Vfs.Sysfile
import Ucore.Sync.SemRuns
import Ucore.Sfs.CacheRuns
import Ucore.Proc.ForkTrace
import Ucore.Mm.SwapFifo
import Ucore.Mm.CopyString
import Ucore.Proc.ExecArgs
import Ucore.Mm.BestFit
import Ucore.Sfs.MountFaults
import Ucore.Lib.SkewRemove
import Ucore.Sched.StrideBuilds
import Ucore.Sched.SkewLinks
import Ucore.Mm.PageFault
import Ucore.Sched.CircularScan
import Ucore.Dev.Console
import Ucore.Sfs.BitmapRuns
import Ucore.Mksfs.CacheChains
import Ucore.Mm.PteSlots
import Ucore.User.Shell
import Ucore.Fmt.Printfmt
import Ucore.Fmt.Snprintf
import Ucore.Fmt.Number
import Ucore.Lib.Tally
import Ucore.Mm.Kmalloc
import Ucore.Dev.Fdt
import Ucore.Lib.Siblings
import Ucore.Proc.Kin
import Ucore.Proc.Family
import Ucore.Proc.FamilyRuns
import Ucore.Proc.ProcessTree
import Ucore.Proc.Numbers
import Ucore.Proc.WaitRuns
import Ucore.Proc.LoadIcode
import Ucore.Vfs.DevTable
import Ucore.Sync.Philosophers
import Ucore.Mm.DefaultPages
import Ucore.Mksfs.CacheNames
