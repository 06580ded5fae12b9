import Pintos.ListWords
import Pintos.Lib.String
import Pintos.StateExcept
import Pintos.Transition
import Pintos.Userprog.Process
import Pintos.Userprog.ProcessInvariant
import Pintos.Userprog.FdTable
import Pintos.Userprog.Syscall
import Pintos.Userprog.SyscallSafety
import Pintos.Userprog.Args
import Pintos.Filesys.Filesys
import Pintos.Filesys.Concurrent
import Pintos.Filesys.Locks
import Pintos.Filesys.FreeMap
import Pintos.Census
import Pintos.Filesys.ReadersWriters
import Pintos.Lib.BitmapPacked
import Pintos.Devices.Timer
import Pintos.Userprog.Memory
import Pintos.Lib.List
import Pintos.Lib.Store
import Pintos.Filesys.Directory
import Pintos.Lib.Word
import Pintos.Userprog.Pagedir
import Pintos.Lib.ListLinks
import Pintos.Threads.Malloc
import Pintos.Division
import Pintos.Lib.Arithmetic
import Pintos.StableMerge
import Pintos.Lib.ListSort
import Pintos.Filesys.OpenInodes
import Pintos.ByteMap
import Pintos.Filesys.InodeIO
import Pintos.Filesys.File
import Pintos.Userprog.FileCalls
import Pintos.OctalText
import Pintos.Lib.Ustar
import Pintos.PowerOfTwo
import Pintos.WeakOrderSet
import Pintos.Lib.Hash
import Pintos.Devices.Partition
import Pintos.RingBuffer
import Pintos.Devices.Intq
import Pintos.Strcmp
import Pintos.BinaryHeap
import Pintos.Lib.Stdlib
import Pintos.Positional
import Pintos.Lib.Stdio
import Pintos.Lib.Printf
import Pintos.Threads.Scheduler
import Pintos.Threads.Synch
import Pintos.Threads.Tid
