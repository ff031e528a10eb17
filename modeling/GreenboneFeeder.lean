import GreenboneFeeder.Dogfeed.Protocol
import GreenboneFeeder.Dogfeed.Dose
import GreenboneFeeder.Dogfeed.Division
import GreenboneFeeder.Tcp.Receive
import GreenboneFeeder.Net.Chksum
import GreenboneFeeder.Pipes.Fifo
import GreenboneFeeder.Nxffs.SingleWriter
import GreenboneFeeder.Wdog.Runs
import GreenboneFeeder.Mqueue.Priority
import GreenboneFeeder.Gran.Disjoint
import GreenboneFeeder.Pthread.Ownership
import GreenboneFeeder.Iob.Pool
import GreenboneFeeder.Pthread.Barrier
import GreenboneFeeder.Pthread.Wakeups
import GreenboneFeeder.Signal.Kept
import GreenboneFeeder.Rwbuffer.Coherent
import GreenboneFeeder.Dogfeed.Adjust
import GreenboneFeeder.Clock.Timespec
import GreenboneFeeder.Sched.Locked
import GreenboneFeeder.Environ.Map
import GreenboneFeeder.Dhcpd.Leases
import GreenboneFeeder.Iob.Conserved
import GreenboneFeeder.Mm.Blocks
import GreenboneFeeder.Mm.Fit
import GreenboneFeeder.Mm.Growth
import GreenboneFeeder.Sem.Holders
import GreenboneFeeder.Wdog.Tickless
import GreenboneFeeder.Tcp.Timer
import GreenboneFeeder.Fat.Volume
import GreenboneFeeder.Mtd.Ftl
import GreenboneFeeder.Netutils.Urlcode
import GreenboneFeeder.Pcode.Branch
