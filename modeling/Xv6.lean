import Xv6.LogReservation
import Xv6.Syscall
import Xv6.ForkTrace
import Xv6.AddressSpace
import Xv6.RefCounts
import Xv6.ByteArrays
import Xv6.SharedFile
import Xv6.PathSpec
import Xv6.Bitmap
import Xv6.InodeCache.Agreement
import Xv6.InodeLocks.Acyclic
import Xv6.InodeLocks.Exhausted
import Xv6.Mkfs.WellFormed
import Xv6.Bio.Exhaustion
import Xv6.Virtio.Agreement
import Xv6.Smp.KillSleep
import Xv6.Smp.ExitWakeup
import Xv6.Smp.PipeWakeup
import Xv6.Smp.PipeFifo
import Xv6.Smp.Progress
import Xv6.Interrupts
import Xv6.Trap
import Xv6.Uart
import Xv6.Numerals
import Xv6.PipeRead
import Xv6.ArgVector
import Xv6.Console
import Xv6.Sh.InPlace
import Xv6.Sh.Redirect
import Xv6.Grep
import Xv6.Memmove
import Xv6.Umalloc.Overflow
import Xv6.Umalloc.Huge
import Xv6.Sv39.UserString
import Xv6.Sv39.Space
