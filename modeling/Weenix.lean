import Weenix.Api.Elf
import Weenix.Drivers.Keyboard
import Weenix.Drivers.Virtterm
import Weenix.Fs.FileRun
import Weenix.Fs.Getdents
import Weenix.Fs.RamfsFile
import Weenix.Fs.VfsNames
import Weenix.Fs.VfsRefs
import Weenix.Fs.VfsTree
import Weenix.Fs.VnodeWait
import Weenix.Mm.PageBitmaps
import Weenix.Mm.PageExhaustion
import Weenix.Mm.PageoutOrder
import Weenix.Mm.Pagetable
import Weenix.Mm.SlabRun
import Weenix.Pageout.BottomObj
import Weenix.Pageout.FaultAccess
import Weenix.Pageout.PrivatePages
import Weenix.Pageout.StaleMappings
import Weenix.Proc.ExitStatusRun
import Weenix.Proc.Ipl
import Weenix.Proc.Kill
import Weenix.Proc.KmutexInv
import Weenix.Proc.SchedRun
import Weenix.S5fs.FileBytes
import Weenix.User.Ldstart
import Weenix.Util.Init
import Weenix.Vm.CowRun
import Weenix.Vm.UserAccess
