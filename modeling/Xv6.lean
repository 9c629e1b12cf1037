import Xv6.Lib.TransitionSystem
import Xv6.Lib.ByteBlock
import Xv6.Kernel.Param
import Xv6.Kernel.Log
import Xv6.Kernel.LogDisk
import Xv6.Kernel.LogRecovery
import Xv6.Kernel.LogReservation
import Xv6.Kernel.CopyOnWrite
import Xv6.Kernel.MmapPlacement
import Xv6.Kernel.Munmap
import Xv6.Kernel.Tcp
import Xv6.Kernel.TcpStream
import Xv6.Kernel.Bio
import Xv6.Kernel.BioCache
import Xv6.Kernel.Swap
import Xv6.Kernel.SwapPreservation
import Xv6.Kernel.FreeListPartition
import Xv6.Kernel.PipeFifo
import Xv6.Kernel.BioQueue
import Xv6.Kernel.Fork
import Xv6.Kernel.Net
import Xv6.Kernel.TcpArrival
import Xv6.Kernel.NetRx
import Xv6.Kernel.TcpWakeup
import Xv6.Kernel.Threads
import Xv6.Kernel.Procfs
import Xv6.Kernel.SockTable
import Xv6.Kernel.SockTableRace
import Xv6.Kernel.BioFifo
import Xv6.Kernel.Fault
import Xv6.Kernel.Signal
import Xv6.Kernel.UserCopy
import Xv6.Kernel.Console
import Xv6.Kernel.Directory
import Xv6.Kernel.Dirents
import Xv6.Kernel.Edits
import Xv6.Kernel.Exec
import Xv6.Kernel.FixedMapping
import Xv6.Kernel.Symlink
import Xv6.Kernel.Eviction
import Xv6.Kernel.ExecFailure
import Xv6.Kernel.FaultPages
import Xv6.Kernel.HeapContract
import Xv6.Kernel.ProcfsRead
import Xv6.Kernel.ProtocolIsolation
import Xv6.Kernel.TcpPanic
import Xv6.Kernel.Bmap
import Xv6.Kernel.E1000
import Xv6.Kernel.Mbufq
import Xv6.Kernel.SockCreate
import Xv6.Kernel.SockWrite
import Xv6.Kernel.TcpAccept
import Xv6.Kernel.TcpEof
import Xv6.Kernel.TcpSequence
import Xv6.Kernel.WriteChunk
import Xv6.Mkfs.Agreement
import Xv6.Kernel.ArpCache
import Xv6.Kernel.DebugTable
import Xv6.Kernel.Foreground
import Xv6.Kernel.ForkLocks
import Xv6.Kernel.PartialChecksum
import Xv6.Kernel.Sigkill
import Xv6.Kernel.TcpRcvWnd
import Xv6.Kernel.ArpPending
import Xv6.Kernel.TrapframePages
import Xv6.Lib.Blocks
import Xv6.Lib.BufferProgram
import Xv6.User.Dns
import Xv6.User.DnsBounds
import Xv6.User.DnsMessages
import Xv6.User.DnsReply
import Xv6.User.Umalloc
import Xv6.User.UmallocOrder
import Xv6.User.DnsQname
import Xv6.Kernel.SockClose
import Xv6.Kernel.Translations
import Xv6.Notxv6.Barrier
import Xv6.Notxv6.HashTable
import Xv6.User.ShellHistory
import Xv6.User.TicketLock
import Xv6.User.Grep
import Xv6.Kernel.Truncate
import Xv6.Kernel.Scheduler
import Xv6.Kernel.Uart
