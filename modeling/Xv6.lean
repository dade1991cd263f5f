import Xv6.Cache.Capacity
import Xv6.Console.Discipline
import Xv6.Disk.Refinement
import Xv6.Fs.Bitmap
import Xv6.Log.Capacity
import Xv6.Memmove
import Xv6.Mkfs.Hole
import Xv6.Mkfs.Lookup
import Xv6.Mp
import Xv6.Pipe.Wakeups
import Xv6.Proc.ExitWait
import Xv6.Proc.Kill
import Xv6.Proc.Nesting
import Xv6.Proc.OneCpu
import Xv6.Proc.Wakeups
import Xv6.Shell.Run
import Xv6.Shell.Words
import Xv6.Syscall.Access
import Xv6.Tree.Blocks
import Xv6.Tree.LinkCounts
import Xv6.Tree.OpenFiles
import Xv6.User.Accounting
import Xv6.User.Match
import Xv6.Vm.Growth
