import Xv6Shed.Balance
import Xv6Shed.BlockCalls
import Xv6Shed.Bootmain
import Xv6Shed.ByteArrays
import Xv6Shed.Children
import Xv6Shed.Consistency
import Xv6Shed.Console
import Xv6Shed.Deadlock
import Xv6Shed.DirMap
import Xv6Shed.DiskQueue
import Xv6Shed.ExecSafety
import Xv6Shed.FileRefs
import Xv6Shed.Insiders
import Xv6Shed.Interrupts
import Xv6Shed.Kalloc
import Xv6Shed.MallocSize
import Xv6Shed.Memmove
import Xv6Shed.MkfsVolume
import Xv6Shed.MpTable
import Xv6Shed.PipeCalls
import Xv6Shed.PipeClose
import Xv6Shed.PipeRuns
import Xv6Shed.QueueRefinement
import Xv6Shed.ReadErrors
import Xv6Shed.Regexp
import Xv6Shed.Safety
import Xv6Shed.Sbrk
import Xv6Shed.SharedOffset
import Xv6Shed.Slices
import Xv6Shed.Slots
import Xv6Shed.Tally
import Xv6Shed.Wakeup
