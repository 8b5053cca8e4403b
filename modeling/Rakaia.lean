import Rakaia.Basic
import Rakaia.Datagram
import Rakaia.Epoll.Drive
import Rakaia.Epoll.Output
import Rakaia.Epoll.SameRequests
import Rakaia.Grpc.EndToEnd
import Rakaia.Grpc.Messages
import Rakaia.Grpc.Pushed
import Rakaia.Grpc.Refinement
import Rakaia.Grpc.State
import Rakaia.Grpc.Step
import Rakaia.H2.CtrlFrames
import Rakaia.H2.Demux
import Rakaia.H2.Disposal
import Rakaia.H2.FlowControl
import Rakaia.H2.History
import Rakaia.H2.Locality
import Rakaia.H2.Psock
import Rakaia.H2.Quota
import Rakaia.H2.Reassembly
import Rakaia.H2.Recvmsg
import Rakaia.H2.Requests
import Rakaia.H2.State
import Rakaia.H2.WindowUpdates
import Rakaia.Lib.Block
import Rakaia.Lib.Buckets
import Rakaia.Lib.Chain
import Rakaia.Lib.Demux
import Rakaia.Lib.Framing
import Rakaia.Lib.Ledger
import Rakaia.Lib.Machine
import Rakaia.Lib.Owner
import Rakaia.Lib.Progress
import Rakaia.Lib.Scan
import Rakaia.Lib.Simulation
import Rakaia.Lib.Stock
import Rakaia.Lib.Tally
import Rakaia.Lib.Ticket
import Rakaia.Pool.EndOfFile
import Rakaia.Pool.Lifetime
import Rakaia.Pool.Ownership
import Rakaia.Pool.Pending
import Rakaia.Pool.Reads
import Rakaia.Pool.Records
import Rakaia.Pool.References
import Rakaia.Pool.Responses
import Rakaia.Pool.Ring
import Rakaia.Pool.State
import Rakaia.Pool.Step
import Rakaia.Psocks.Attach
import Rakaia.Psocks.Registry
import Rakaia.Sched.Alone
import Rakaia.Sched.ExactlyOnce
import Rakaia.Sched.Invariant
import Rakaia.Sched.Leaving
import Rakaia.Sched.PickBit
import Rakaia.Sched.Refusal
import Rakaia.Sched.State
import Rakaia.Sched.Step
import Rakaia.Sched.WorkConservation
import Rakaia.Seqpacket
import Rakaia.Service
import Rakaia.Silo.Workers
import Rakaia.SkBuff
import Rakaia.Sockets.Coherence
import Rakaia.Sockets.Table
import Rakaia.Strp.Counters
import Rakaia.Strp.CountersNat
import Rakaia.Strp.Http2
import Rakaia.Strp.Length
import Rakaia.Strp.Memcache
import Rakaia.Strp.Recv
import Rakaia.Strp.Segmentation
import Rakaia.Strp.Sound
import Rakaia.Strp.Tls
import Rakaia.Strp.Wake
import Rakaia.Strp.Work
import Rakaia.System.Answers
import Rakaia.System.EndToEnd
import Rakaia.System.Messages
import Rakaia.System.Refinement
import Rakaia.System.State
import Rakaia.System.Step
import Rakaia.TlsTx.Resume
import Rakaia.TlsTx.Threads
import Rakaia.TlsTx.Write
import Rakaia.Tx.Cleanup
import Rakaia.Tx.Pressure
import Rakaia.Tx.Segments
import Rakaia.Tx.Sendmsg
import Rakaia.Tx.State
import Rakaia.Tx.Stream
import Rakaia.Tx.Wakeup
import Rakaia.Tx.Wire
import Rakaia.Worker.Engagement
import Rakaia.Worker.LateBinding
import Rakaia.Worker.Routing
import Rakaia.Worker.State
