import Crabos.Lib.Run
import Crabos.Lib.Linked
import Crabos.Lib.Words
import Crabos.Lib.Lists
import Crabos.Lib.Weave
import Crabos.Lib.Radix
import Crabos.Mem.Phys
import Crabos.Mem.PhysInv
import Crabos.Mem.PhysRun
import Crabos.Mem.Kalloc
import Crabos.Mem.KallocInv
import Crabos.Mem.KallocRun
import Crabos.Alloc.Boxed
import Crabos.Sync.Arc
import Crabos.Btree.Node
import Crabos.Btree.Insert
import Crabos.Btree.Remove
import Crabos.Btree.Map
import Crabos.Interface
import Crabos.Mem.User
import Crabos.PageCalls
import Crabos.Mem.Page
import Crabos.Mem.PageInv
import Crabos.Mem.PageOps
import Crabos.Mem.PageMap
import Crabos.Mem.PageSteps
import Crabos.Mem.PageLookup
import Crabos.Mem.PageCtx
import Crabos.Mem.PageShare
import Crabos.Mem.PageRun
import Crabos.Mem.PageAlloc
import Crabos.Sync.AsyncMutex
import Crabos.Task.Sched
import Crabos.Syscall
import Crabos.Task.Steps
import Crabos.Task.Frames
import Crabos.Task.Contexts
import Crabos.Task.Wakers
import Crabos.Task.Borrows
import Crabos.Mem.Tlb
import Crabos.Mem.TlbFresh
import Crabos.Mem.TlbRun
import Crabos.Lib.Maps
import Crabos.Task.Tables
import Crabos.Task.TablesRun
import Crabos.Sync.MutexRun
import Crabos.Sync.AtomicList
import Crabos.Fs.Disk
import Crabos.Fs.Fat16
import Crabos.Fs.FileRead
import Crabos.Fs.ReadFaults
import Crabos.Loader.Fat
import Crabos.Object
import Crabos.Lib.Utf8
import Crabos.Util
import Crabos.Fs.Walk
import Crabos.Fs.Directory
import Crabos.Fs.WalkEnds
import Crabos.Fs.ClusterArea
import Crabos.Fs.Vfs
import Crabos.Fs.Readable
import Crabos.HandleCalls
import Crabos.Mem.Slices
import Crabos.Mem.PhysInit
import Crabos.Fs.Geometry
import Crabos.Fs.Resolve
import Crabos.Fs.ShortName
import Crabos.Mem.Shared
import Crabos.Mem.Validated
import Crabos.Mem.Overlay
import Crabos.Mem.Borrowed
import Crabos.Mem.Exhausted
import Crabos.Loader.Stage1
import Crabos.Loader.Start
import Crabos.Console.Vga
import Crabos.Task.Fair
import Crabos.Mem.Window
import Crabos.Mem.EachPhys
import Crabos.Mem.RcPages
import Crabos.Btree.Append
import Crabos.Btree.Ordered
import Crabos.Btree.Union
import Crabos.Mem.UserHalf
import Crabos.Mem.Spaces
import Crabos.Mem.SpaceRun
import Crabos.Mem.Isolation
import Crabos.Task.Ready
import Crabos.Abi.Crabapi
import Crabos.Abi.Idt
import Crabos.Device.Ide
import Crabos.Sync.Critical
import Crabos.Loader.Init
import Crabos.Device.Mbr
