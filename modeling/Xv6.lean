import Xv6.Console
import Xv6.Date
import Xv6.File.Exact
import Xv6.File.Filewrite
import Xv6.Grep
import Xv6.Ide
import Xv6.Log.Crash
import Xv6.Log.Reservation
import Xv6.Mkfs.Kernel
import Xv6.Mp
import Xv6.Numbers
import Xv6.Pipe
import Xv6.Proc.Budget
import Xv6.Proc.CpuTime
import Xv6.Proc.Order
import Xv6.Proc.PriorityCalls
import Xv6.Proc.Promotion
import Xv6.Proc.Scan
import Xv6.Proc.Sleeplock
import Xv6.Proc.TimedSleep
import Xv6.Proc.Wakeup
import Xv6.Sh.Accepts
import Xv6.Syscall.Getprocs
import Xv6.Ulib
import Xv6.Umalloc.Requests
import Xv6.Vm.Resize
import Xv6.Vm.Leak
