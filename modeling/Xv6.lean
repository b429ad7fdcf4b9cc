import Xv6.Log.CrashAtomicity
import Xv6.Vm.Resize
import Xv6.Fs.InodeSharing
import Xv6.Log.LogReservation
import Xv6.Proc.ExitStatus
import Xv6.Log.LoggedBuffers
import Xv6.Io.PipeWakeup
import Xv6.Proc.KillSleep
import Xv6.Proc.FreeSlots
import Xv6.Io.VirtioProtocol
import Xv6.Mkfs.ReadBack
import Xv6.Proc.MappingCalls
import Xv6.Proc.ExecLoad
import Xv6.Log.LruCache
import Xv6.Io.DeliveredInput
import Xv6.Proc.UserCopies
import Xv6.Proc.Growproc
import Xv6.Fs.SharedOffset
import Xv6.Fs.PathWalk
import Xv6.User.Memmove
import Xv6.Proc.InterruptState
import Xv6.Proc.TrapRegisters
import Xv6.Proc.SleepLock
import Xv6.User.Grep
import Xv6.User.ShellScan
