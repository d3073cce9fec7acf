import Xv6.Bio.Coherence
import Xv6.Console.Lines
import Xv6.Exec.Stray
import Xv6.Fs.Decode
import Xv6.Fs.Race
import Xv6.Grep.Lines
import Xv6.Ide.Driver
import Xv6.Log.Recovery
import Xv6.Log.Reserve
import Xv6.Malloc.Runs
import Xv6.Pipe.Wakeup
import Xv6.Process.Kill
import Xv6.Process.Tree
import Xv6.Process.WaitLoop
import Xv6.Sh.Runcmd
import Xv6.Sh.Tokens
import Xv6.Sleeplock.Holder
import Xv6.Spinlock.Lock
import Xv6.Strings.Memmove
import Xv6.Strings.Print
import Xv6.Syscall.Fetch
import Xv6.Sysfile.FullDir
import Xv6.Trace.Args
import Xv6.Trace.Drain
import Xv6.Trace.ForkOrder
import Xv6.Trace.Lost
import Xv6.Trace.Screen
import Xv6.Vm.Copy
import Xv6.Vm.Exhausted
import Xv6.Vm.Grow
