import Monolith.Dev.Disk
import Monolith.Dev.Madt
import Monolith.Dev.Rtc
import Monolith.Dev.RxRing
import Monolith.Dev.Tty
import Monolith.Dev.TxRing
import Monolith.Fs.Fatfs
import Monolith.Fs.Initramfs
import Monolith.Fs.MountEffect
import Monolith.Fs.OpenTable
import Monolith.Fs.PathWalk
import Monolith.Fs.Position
import Monolith.Libk.String
import Monolith.Libk.Vsprintf
import Monolith.Mm.MemoryMap
import Monolith.Mm.Cow
import Monolith.Mm.Refused
import Monolith.Mm.Replace
import Monolith.Mm.SlabSystem
import Monolith.Mm.Unmap
import Monolith.Net.Arp
import Monolith.Net.Datagram
import Monolith.Net.Ipv4
import Monolith.Net.RecvQueue
import Monolith.Net.UdpTable
import Monolith.Proc.FileRuns
import Monolith.Proc.InitialStack
import Monolith.Sched.ProcessTree
import Monolith.Sched.RunQueue
import Monolith.Sched.Sessions
import Monolith.Sched.SleepQueue
import Monolith.Sched.WaitPid
import Monolith.Sys.AllocLimit
import Monolith.Sys.Device
import Monolith.Sys.Irq
import Monolith.Sys.MutexSched
import Monolith.Sys.Spinlock
