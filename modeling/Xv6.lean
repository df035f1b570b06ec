import Xv6.Lib.StepSys
import Xv6.Lib.FirstMin
import Xv6.Lib.LEBytes
import Xv6.Lib.CrashWrites
import Xv6.Lib.FoldM
import Xv6.Lib.Ram
import Xv6.Lib.ClassLang
import Xv6.Param
import Xv6.Proc.Basic
import Xv6.Proc.Sched
import Xv6.Proc.Dispatch
import Xv6.Log.Basic
import Xv6.Log.Protocol
import Xv6.Log.Crash
import Xv6.File.Basic
import Xv6.Mmap.Basic
import Xv6.Kernel.Step
import Xv6.Mmap.Table
import Xv6.Mmap.Invariant
import Xv6.Kernel.Mmap
import Xv6.Kernel.Files
import Xv6.Mem.Vm
import Xv6.Mmap.Fault
import Xv6.Bio.Cache
import Xv6.Log.Cache
import Xv6.Fs.Block
import Xv6.Fs.Owner
import Xv6.Fs.Bitmap
import Xv6.Proc.Wakeup
import Xv6.Proc.Tree
import Xv6.Kernel.Procs
import Xv6.Lib.Ring
import Xv6.Lib.Tagged
import Xv6.Pipe
import Xv6.Console
import Xv6.Proc.Pid
import Xv6.Kernel.Fork
import Xv6.Mmap.Pages
import Xv6.Fs.Dir
import Xv6.Fs.Data
import Xv6.Sh.Token
import Xv6.Sh.Parse
import Xv6.Memmove
import Xv6.Mem.Uvm
import Xv6.Exec.Basic
import Xv6.Grep.Match
import Xv6.Grep.Loop
import Xv6.Alloc.Umalloc
