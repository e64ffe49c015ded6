import Yaooi.Lib.Chain
import Yaooi.Lib.SlotList
import Yaooi.Lib.SlotRuns
import Yaooi.Lib.Transition
import Yaooi.Lib.Drain
import Yaooi.Lib.ArgSplit
import Yaooi.Lib.ArgJoin
import Yaooi.Lib.Mutex
import Yaooi.Lib.Owner
import Yaooi.Lib.ByteOrder
import Yaooi.Lib.Numeral
import Yaooi.Lib.Distinct
import Yaooi.Lib.Resource
import Yaooi.Lib.Episodes
import Yaooi.Queue.Basic
import Yaooi.Queue.Ready
import Yaooi.Queue.Pollish
import Yaooi.Queue.Calls
import Yaooi.Queue.Board
import Yaooi.Queue.Refine
import Yaooi.Queue.Cancel
import Yaooi.Queue.Life
import Yaooi.Queue.Delivery
import Yaooi.Queue.Ownership
import Yaooi.Queue.Order
import Yaooi.Queue.Stack
import Yaooi.Queue.Counters
import Yaooi.Queue.Atomicity
import Yaooi.Queue.Shared
import Yaooi.Queue.Names
import Yaooi.Queue.Detach
import Yaooi.Queue.Onclose
import Yaooi.Threads.Completion
import Yaooi.Threads.Fallback
import Yaooi.Threads.Timewait
import Yaooi.Threads.NotifyPipe
import Yaooi.Pool.Basic
import Yaooi.Pool.Invariant
import Yaooi.Pool.Free
import Yaooi.Pool.Submit
import Yaooi.Pool.Tasks
import Yaooi.Pool.Process
import Yaooi.Pool.Lives
import Yaooi.Pool.Offload
import Yaooi.Pool.Threads
import Yaooi.Pool.Cancel
import Yaooi.Pool.Release
import Yaooi.Pool.Create
import Yaooi.Backend.Time
import Yaooi.Backend.Registration
import Yaooi.Backend.Polling
import Yaooi.Backend.Deadline
import Yaooi.Backend.Timeout
import Yaooi.Backend.Timer
import Yaooi.Backend.Readiness
import Yaooi.Backend.LifeCycle
import Yaooi.Backend.Arithmetic
import Yaooi.Backend.Served
import Yaooi.Backend.PollServed
import Yaooi.Client.Loop
import Yaooi.Backend.PollArray
import Yaooi.Backend.PollList
import Yaooi.Backend.Dlist
import Yaooi.Addr.Basic
import Yaooi.Addr.Parse
import Yaooi.Addr.Ipv6
import Yaooi.Addr.Ipv4
import Yaooi.Addr.Sockaddr
import Yaooi.Addr.Resolve
import Yaooi.Addr.Addrinfo
import Yaooi.Unix.Errno
import Yaooi.Unix.Signal
import Yaooi.Unix.SignalWait
import Yaooi.Unix.SignalMask
import Yaooi.Unix.Spawn
import Yaooi.Unix.Outcome
import Yaooi.Unix.Report
import Yaooi.Unix.Children
import Yaooi.Unix.Inherit
import Yaooi.Unix.Wiring
import Yaooi.Unix.Unwind
import Yaooi.Unix.Socket
import Yaooi.Unix.Readlink
import Yaooi.Unix.Reading
import Yaooi.Ansi.Reading
import Yaooi.Win.Cmdline
import Yaooi.Win.RawCmdline
import Yaooi.Win.Filetime
