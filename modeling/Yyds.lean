import Yyds.Mm.KallocLocks
import Yyds.Kernel.Counts
import Yyds.Kernel.Paging
import Yyds.Kernel.Sbrk
import Yyds.Kernel.FileRefs
import Yyds.Kernel.Capability
import Yyds.Kernel.Login
import Yyds.Kernel.Alarm
import Yyds.Kernel.Flock
import Yyds.Fs.LogCrash
import Yyds.Fs.BgetLocks
import Yyds.Sync.Semaphore
import Yyds.Sync.Sleep
import Yyds.Sync.TableLocks
import Yyds.Sched.Boost
import Yyds.Sched.Budget
import Yyds.Sched.Freezer
import Yyds.Embassy.Depend
import Yyds.Ipc.MsgFifo
import Yyds.Ipc.MqLife
import Yyds.Mm.ShareLife
import Yyds.Ipc.BinderReplies
import Yyds.Sync.FutexRequeue
import Yyds.Sync.FutexWait
import Yyds.Ipc.AbilityOrder
import Yyds.Ipc.AbilityCall
import Yyds.Sched.CgroupTable
import Yyds.Net.Send
import Yyds.Net.TxRing
import Yyds.Net.Sockets
import Yyds.Fs.Listing
import Yyds.Kernel.ConsoleInput
import Yyds.Kernel.FileMode
import Yyds.Kernel.NumberArgs
import Yyds.Kernel.OpenLinks
import Yyds.Kernel.PipeStream
import Yyds.Kernel.Shell
import Yyds.Sched.CgroupDenied
import Yyds.Sched.QosChoice
import Yyds.Sched.Rotation
