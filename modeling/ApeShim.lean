import ApeShim.Epoll.EdgeTriggered
import ApeShim.Epoll.Wakeup
import ApeShim.Epoll.Refinement
import ApeShim.Epoll.PipeWaker
import ApeShim.Epoll.PairNotes
import ApeShim.Epoll.Ownership
import ApeShim.Signal.Trampoline
import ApeShim.Signal.Atomicity
import ApeShim.Signal.Sigwait
import ApeShim.Inotify.Ignored
import ApeShim.Inotify.Identity
import ApeShim.Socket.Recvmsg
import ApeShim.Socket.Deferred
import ApeShim.Nt.Cmdline
import ApeShim.Nt.AtSlash
import ApeShim.Nt.AtVolume
import ApeShim.Inotify.Diff
import ApeShim.Inotify.Delivery
import ApeShim.Inotify.Adding
import ApeShim.Procfs.Coherence
import ApeShim.Procfs.Stamps
import ApeShim.Procfs.NtSockets
import ApeShim.Procfs.XnuSockets
import ApeShim.Poll.Twins
import ApeShim.Poll.Timeout
import ApeShim.Poll.Restored
import ApeShim.Oflags
import ApeShim.Nt.UncRel
import ApeShim.Nt.Reroot
import ApeShim.Nt.ShareWalk
import ApeShim.Nt.Registry
import ApeShim.Dirstream.Laws
import ApeShim.Packet.Runs
import ApeShim.Proc.ExeSearch
import ApeShim.Procfs.Buffer
import ApeShim.Procfs.PidFiles
import ApeShim.Procfs.Maps
import ApeShim.Proc.Harvest
import ApeShim.Timer
import ApeShim.Console.Writes
import ApeShim.Console.Paste
import ApeShim.Console.Coalesce
import ApeShim.Procfs.EnvBlock
import ApeShim.Procfs.ProcArgs
import ApeShim.Procfs.Disguise
import ApeShim.Procfs.Memfd
import ApeShim.Procfs.Tracked
import ApeShim.Procfs.Grammar
import ApeShim.Procfs.Rewrite
import ApeShim.Procfs.SysTree
import ApeShim.Procfs.SysWalks
import ApeShim.Procfs.Slices
import ApeShim.Procfs.Modalias
import ApeShim.Procfs.Topology
import ApeShim.Procfs.XnuDumps
import ApeShim.Termios
import ApeShim.Dladdr
import ApeShim.Ifname
import ApeShim.Locking
import ApeShim.Vm.Pages
import ApeShim.Vm.Reserve
import ApeShim.Vm.Fork
import ApeShim.GenShim.Sound
import ApeShim.Malloc.Gate
import ApeShim.Proc.DescribeFds
import ApeShim.Proc.Worker
import ApeShim.Socket.UnixPair
import ApeShim.Procfs.PidFiles
import ApeShim.Procfs.Maps
import ApeShim.Lib.Lines
import ApeShim.Lib.Resolve
import ApeShim.Nt.Resolving
