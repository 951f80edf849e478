import ThinkOS.Sched.Timeshare
import ThinkOS.Sync.GateRun
import ThinkOS.Net.Route
import ThinkOS.Mbuf.Conserve
import ThinkOS.Tcp.Predict
import ThinkOS.Tcp.Finish
import ThinkOS.MicroJS.Language
import ThinkOS.MicroJS.Operators
import ThinkOS.Net.Dhcp
import ThinkOS.Tcp.Segment
import ThinkOS.Net.Udp
import ThinkOS.Tcp.Locking
import ThinkOS.Tcp.Accounting
import ThinkOS.Xmodem.Arrivals
import ThinkOS.Xmodem.Copies
import ThinkOS.Http.Content
import ThinkOS.Sync.EventSet
import ThinkOS.Sync.EventRun
import ThinkOS.Sync.FlagRun
import ThinkOS.Json.Buffer
import ThinkOS.Kernel.Console
import ThinkOS.MicroJS.Reads
import ThinkOS.Bacnet.Ptp
import ThinkOS.Gdb.Packet
import ThinkOS.Audio.Rtp
import ThinkOS.Clock.Format
import ThinkOS.Util.Isqrt
