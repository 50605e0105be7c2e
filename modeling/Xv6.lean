import Xv6.Bio.Flat
import Xv6.Inode.Leak
import Xv6.Log.Admission
import Xv6.Log.Crash
import Xv6.Ptable.Kill
import Xv6.Sleep.Lock
import Xv6.Pipe.Asleep
import Xv6.Fs.Fail
import Xv6.Vm.Args
import Xv6.Ide.Refine
import Xv6.Ide.Valid
import Xv6.Fs.Share
import Xv6.Fs.DirMap
import Xv6.Fs.Resolve
import Xv6.Console.Discipline
import Xv6.Spin.Off
import Xv6.Malloc.Limit
import Xv6.Sh.Terminate
import Xv6.Sh.Redirect
import Xv6.Grep.Match
import Xv6.Mem.Move
import Xv6.Mp.Table
import Xv6.Vm.Lookup
import Xv6.Blk.Array
