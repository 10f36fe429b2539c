import HobbyOS.Buddy.Account
import HobbyOS.Disk.Update
import HobbyOS.Elf.Conforms
import HobbyOS.Elf.Descriptors
import HobbyOS.Ext2.Create
import HobbyOS.Fs.Partial
import HobbyOS.Fs.PathCache
import HobbyOS.Fs.Positioned
import HobbyOS.Fs.Users
import HobbyOS.Io.Console
import HobbyOS.Io.Terminal
import HobbyOS.Lib.Recency
import HobbyOS.Process.Argv
import HobbyOS.Process.Eager
import HobbyOS.Process.Fresh
import HobbyOS.Process.Protect
import HobbyOS.Process.Residue
import HobbyOS.Process.Shared
import HobbyOS.Process.Thread
import HobbyOS.Process.Unwind
import HobbyOS.Sched.Group
import HobbyOS.Sched.Mutex
import HobbyOS.Sched.Sleepers
import HobbyOS.Sched.Wait
import HobbyOS.Signal.Fork
import HobbyOS.Signal.Trap
import HobbyOS.Slab.Run
import HobbyOS.Vm.FileMap
import HobbyOS.Vm.Search
