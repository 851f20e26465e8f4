import Xv6.Lib.GuardedRun
import Xv6.Lib.SlotScan
import Xv6.Lib.RingBuffer
import Xv6.Proc.Basic
import Xv6.Kthread.Cond
import Xv6.Kthread.CondOwnership
import Xv6.Kthread.CondWaiters
import Xv6.Kthread.Dealloc
import Xv6.Kthread.MutexRing
import Xv6.Proc.Parents
import Xv6.Proc.Join
import Xv6.Proc.Kill
import Xv6.Proc.Growth
import Xv6.Proc.ReapOnce
import Xv6.File.CleanFork
import Xv6.Log.CrashAtomic
import Xv6.Kthread.TableBounds
import Xv6.Pipe.Fifo
import Xv6.Pipe.Sleepers
import Xv6.Bio.Cache
import Xv6.Spinlock.Interrupts
import Xv6.Syscall.Confined
import Xv6.Syscall.PathStrings
import Xv6.Fs.Directory
import Xv6.Fs.Transactions
import Xv6.Mkfs.Lookup
import Xv6.Grep.Clean
import Xv6.Proc.Conserved
import Xv6.Proc.ThreadMemory
import Xv6.Exec.Arguments
import Xv6.Console.Stream
import Xv6.Sh.Runcmd
import Xv6.Sh.Terminated
import Xv6.Umalloc.Arithmetic
import Xv6.Uthread.Scheduler
