import Xv6.Param
import Xv6.Lib.Reach
import Xv6.Lib.Ring
import Xv6.Lib.Sleep
import Xv6.Lib.CircList
import Xv6.Lib.Count
import Xv6.Lib.Disk
import Xv6.Lib.Bits
import Xv6.Lib.Store
import Xv6.Lib.Own
import Xv6.Pipe.Model
import Xv6.Pipe.Fifo
import Xv6.Pipe.Wakeup
import Xv6.Bio.Model
import Xv6.Bio.Cache
import Xv6.Log.Header
import Xv6.Log.Crash
import Xv6.Log.Protocol
import Xv6.Log.Admission
import Xv6.Fs.Layout
import Xv6.Fs.Inode
import Xv6.Fs.Dinode
import Xv6.Fs.Free
import Xv6.Vm.Copy
import Xv6.Fs.ReadWrite
import Xv6.Fs.Alloc
import Xv6.File.Offset
import Xv6.Fs.Dir
import Xv6.Fs.Itable
import Xv6.Fs.Namei
import Xv6.Mkfs
import Xv6.Proc.Model
import Xv6.Proc.Trans
import Xv6.Proc.Sched
import Xv6.Proc.Kill
import Xv6.Proc.Tree
import Xv6.Proc.Wait
import Xv6.Console.Model
import Xv6.Console.Line
import Xv6.Console.Stream
import Xv6.User.Xargs
import Xv6.User.Find
import Xv6.Lib.Sieve
import Xv6.User.Primes.Model
import Xv6.User.Primes.Fds
import Xv6.User.Primes.Inv
import Xv6.User.Primes.Step
import Xv6.User.Primes.Pipeline
import Xv6.Vm.Grow
import Xv6.User.Umalloc
import Xv6.Vm.CopyStr
import Xv6.Vm.Walk
import Xv6.Vm.UserCopy
import Xv6.Vm.Uvm
import Xv6.Memmove
import Xv6.User.Printf
import Xv6.Proc.Pid
import Xv6.Bio.Lru
import Xv6.User.Grep.Match
import Xv6.User.Grep.Lines
import Xv6.Virtio.Model
import Xv6.Virtio.Desc
import Xv6.Lib.Scan
import Xv6.User.Sh.Lex
import Xv6.User.Sh.Parse
import Xv6.User.Sh.Grammar
import Xv6.User.Sh.Sound
import Xv6.User.Sh.Complete
import Xv6.Lib.Ends
import Xv6.Exec.Elf
import Xv6.Exec.Model
import Xv6.Exec.Load
import Xv6.Exec.Stack
import Xv6.Exec.Atomic
import Xv6.Exec.Image
import Xv6.Fs.Release
import Xv6.Vm.Fork
import Xv6.File.Calls
import Xv6.Vm.Kalloc
