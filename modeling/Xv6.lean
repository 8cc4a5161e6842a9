import Xv6.Bio.Sequential
import Xv6.Console
import Xv6.Copies
import Xv6.Ext2.DirMap
import Xv6.Ext2.File
import Xv6.Ext2.Space
import Xv6.Kalloc
import Xv6.Log.Admission
import Xv6.Log.Crash
import Xv6.Log.Devices
import Xv6.Mmap.Fault
import Xv6.Net.Checksum
import Xv6.Net.Conserve
import Xv6.Net.Designware
import Xv6.Net.Endings
import Xv6.Net.Sockets
import Xv6.Net.SysSocket
import Xv6.Net.Window
import Xv6.Path
import Xv6.Pipe
import Xv6.Procs.Wait
import Xv6.Sd
import Xv6.Vm.Counts
