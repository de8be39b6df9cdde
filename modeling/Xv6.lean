import Xv6.Disk.Crash
import Xv6.Disk.Capacity
import Xv6.Process.LwpCount
import Xv6.Process.Join
import Xv6.Process.Groups
import Xv6.Fs.Iput
import Xv6.Fs.Holes
import Xv6.Fs.Dangling
import Xv6.Ipc.Pipe
import Xv6.Ipc.Sleep
import Xv6.Sh.Parsecmd
import Xv6.Process.Overcommit
import Xv6.Process.Kill
import Xv6.Process.StackSlots
import Xv6.Process.ThreadArgs
import Xv6.Ipc.Console
import Xv6.Vm.Dealloc
import Xv6.Disk.Ide
import Xv6.Disk.Bcache
import Xv6.Fs.Naming
import Xv6.Fs.SharedWrite
import Xv6.Vm.LongArgs
import Xv6.Disk.Absorb
import Xv6.ProjShell.Limits
import Xv6.User.Grep
import Xv6.Process.Scheduler
import Xv6.Ipc.SleepLock
import Xv6.Fs.Strings
