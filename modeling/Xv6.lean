import Xv6.Log.Reservation
import Xv6.Fs.Pwrites
import Xv6.Fs.SharedOffset
import Xv6.Mkfs.Image
import Xv6.Proc.Space
import Xv6.Xem.Kill
import Xv6.Xem.Exclusion
import Xv6.Syscall.Stores
import Xv6.Proc.Shares
import Xv6.Files.Accounting
import Xv6.Proc.Family
import Xv6.Proc.Holes
import Xv6.Pipe.Stream
import Xv6.Bio.Capacity
import Xv6.Malloc.Kernel
import Xv6.Sh.Grammar
import Xv6.Fs.Positional
import Xv6.Fs.Stable
import Xv6.Grep.Reads
import Xv6.Memmove
import Xv6.Proc.Kill
import Xv6.Dir.Path
import Xv6.Mp
import Xv6.Vm.Copyout
