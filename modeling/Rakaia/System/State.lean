import Rakaia.Seqpacket
import Rakaia.Strp.Memcache
import Rakaia.Strp.Sound
import Rakaia.Tx.Pressure
import Rakaia.Worker.Routing

/-! # The plain-tcp server as a whole

From the bytes that TCP presents to the bytes that it is given: the parser of every connection, the scheduler,
the threads of the memcache server (`memcached_id_drive_machine` in `common-rakaia.c`) and the transmit path of
every connection, in any interleaving.

A call of `__strp_recv` runs the callback for each message it completes.  Nothing else looks at the parser
meanwhile, so here the call first cuts all messages, which are `pending`, and then hands them over one by one;
the next push of a connection starts when the one before has returned.  `recvmsg` and `sendmsg` are the
functions of `Rakaia.Seqpacket` and `Rakaia.Tx.Sendmsg`, on the buffers of the thread (`MsgCtx`). -/

namespace Rakaia.System

open Lib
open Sched (Ksk)
open Strp.Memcache (headerLen SkRcvbuf)

/-! ### The buffers of a thread -/

/-- `sizeof(msg_ctx.request)`: a header and `BUFSIZE` bytes. -/
def requestSize : ℕ := headerLen + 2048

/-- The response, with the four bytes of its `id`; the other fields are set once by `init_memcached_id_ctx`. -/
def responseWith (id : List UInt8) : List UInt8 :=
  [0x81, 0] ++ id ++ [0, 0, 0, 0, 0, 1] ++ List.replicate 16 0

/-- `struct rakaia_msg_ctx`, the fields that the thread reads and writes. -/
structure MsgCtx where
  request : List UInt8
  response : List UInt8
  length_response : response.length = headerLen

def MsgCtx.init : MsgCtx := ⟨List.replicate requestSize 0, responseWith [0, 0, 0, 0], by decide⟩

/-- The bytes of `id` in a header. -/
def idOf (l : List UInt8) : List UInt8 := (List.range 4).map (fun j => l.getD (2 + j) 0)

theorem length_responseWith (l : List UInt8) : (responseWith (idOf l)).length = headerLen := by
  simp [responseWith, idOf, headerLen]

/-- `memcached_request_len`, with the fields in the byte order of the host. -/
def memcachedRequestLen (headerLen opcode keyLen extraLen bodyLen : ℕ) : ℕ :=
  if opcode = 0x01 then headerLen + bodyLen else headerLen + keyLen + extraLen

/-- The opcodes that the server knows: `CMD_SET`, `CMD_GET` and `CMD_GETK`. -/
def knownOpcode (opcode : ℕ) : Bool := opcode == 0x01 || opcode == 0x00 || opcode == 0x0c

/-- The assertions of `memcached_id_drive_machine` on the result of `recvmsg` and the request. -/
def asserted (ret : ℤ) (l : List UInt8) : Bool :=
  decide ((headerLen : ℤ) ≤ ret) && beAt l 0 1 == 0x80 && knownOpcode (beAt l 1 1) &&
    decide (ret = memcachedRequestLen headerLen (beAt l 1 1) (beAt l 6 2) (beAt l 8 1) (beAt l 12 4))

theorem asserted_iff (ret : ℤ) (l : List UInt8) : asserted ret l = true ↔
    (headerLen : ℤ) ≤ ret ∧ beAt l 0 1 = 0x80 ∧ knownOpcode (beAt l 1 1) = true ∧
      ret = memcachedRequestLen headerLen (beAt l 1 1) (beAt l 6 2) (beAt l 8 1) (beAt l 12 4) := by
  unfold asserted
  rw [Bool.and_eq_true, Bool.and_eq_true, Bool.and_eq_true, decide_eq_true_iff, decide_eq_true_iff, beq_iff_eq,
    and_assoc, and_assoc]

/-! ### The state -/

/-- The control block of a message that the parser hands on; `base` is what else is in it. -/
def cbOf (stm : Strp.Stm Unit) (base : Cb) : Cb :=
  Cb.fullLen.store stm.fullLen (Cb.offset.store stm.offset (Cb.accumLen.store stm.accumLen base))

/-- The parsers with their messages that are not handed over yet, the last push of each connection, the buffers
of the messages, the workers with the scheduler and the transmit paths, and the buffers of the threads. -/
structure State where
  parser : PsockPtr → Strp.State Unit
  pending : PsockPtr → List (Strp.Head Unit)
  pushing : PsockPtr → Option ℕ
  buf : ℕ → SkBuff
  worker : Worker.State
  ctx : Ksk → MsgCtx
  /-- An assertion failed. -/
  aborted : Bool

def State.init (writeSeq : PsockPtr → UInt32) : State where
  parser _ := Strp.State.init
  pending _ := []
  pushing _ := none
  buf _ := .mk 0 0 0 [] [] []
  worker := Worker.State.init writeSeq
  ctx _ := .init
  aborted := false

inductive Event where
  | strp (psock : PsockPtr) (e : Strp.Event Unit)
  /-- The parser of `psock` hands a message to `rakaia_rcv_strparser`. -/
  | handed (psock : PsockPtr) (head : Strp.Head Unit)
  | worker (e : Worker.Event)
  /-- `recvmsg` returns, and the assertions hold. -/
  | returned (ksk : Ksk) (r : Seqpacket.Returned)
  | assertFailed (ksk : Ksk)
  /-- `rakaia_sendmsg` has spliced segments of these bytes for `psock`. -/
  | answered (ksk : Ksk) (psock : PsockPtr) (segments : List (List UInt8))

/-- What `rakaia_sendmsg` finds: the socket, `size_goal` and the results of the kernel's functions. -/
structure SendEnv where
  broken : Bool
  sockError : Option Tx.Sendmsg.Errno
  wmemQueued : ℤ
  pfrag : Tx.Sendmsg.PageFrag
  sizeGoal : Fin (2 ^ 31)
  intact : Bool
  outcomes : List Tx.Sendmsg.Outcome

inductive Act where
  /-- TCP presents bytes of the connection: a call of `__strp_recv`. -/
  | present (psock : PsockPtr) (a : Strp.Act)
  /-- The next message is handed over. -/
  | hand (psock : PsockPtr) (base : Cb) (r1 r2 : UInt8)
  /-- Any other step of the scheduler, of a worker or of a transmit path. -/
  | worker (a : Worker.Act)
  | recvmsg (ksk : Ksk)
  | sendmsg (ksk : Ksk) (env : SendEnv)

namespace State

variable (s : State)

/-- The last push of the connection has returned. -/
def pushed (psock : PsockPtr) : Bool :=
  match s.pushing psock with
  | none => true
  | some p => (s.worker.sched.push p).isIdle

/-- What `rakaia_sendmsg` is called with: the response of the thread. -/
def call (ksk : Ksk) (env : SendEnv) : Tx.Sendmsg.Call :=
  ⟨(s.ctx ksk).response, env.sizeGoal, by rw [(s.ctx ksk).length_response]; decide, env.sizeGoal.isLt⟩

/-- What `rakaia_sendmsg` finds. -/
def sock (ksk : Ksk) (env : SendEnv) : Tx.Sendmsg.Sock :=
  ⟨env.broken, env.sockError,
    if s.worker.lastPsock ksk = 0 then none else some (s.worker.tx (s.worker.lastPsock ksk)),
    env.wmemQueued, env.pfrag⟩

end State

/-- The steps that are not made in another way: the parser starts a push, the thread calls `recvmsg` and
`sendmsg`.  A thread calls `rakaia_pull` on its own socket only. -/
def outer : Worker.Act → Bool
  | .sched (.pushStart ..) | .recvmsg .. | .sendmsg .. => false
  | .sched (.pullStart t ksk) => decide (t = ksk.val)
  | _ => true

/-! ### The functions of the source -/

/-- `rakaia_recvmsg` on the datagram socket of the thread, which receives into `msg_ctx.request`. -/
def rakaiaRecvmsg (m : Seqpacket.Msg) : Seqpacket.Returned :=
  let copied := if m.fullLen < requestSize then m.fullLen else requestSize
  match datagramIter m.offset copied ⟨[], requestSize, requestSize⟩ m.buf with
  | (false, dst) => ⟨Seqpacket.efault, dst.stored, false, false⟩
  | (true, dst) => (Seqpacket.finish true false m copied dst.stored).1

/-- `msg_ctx` after `recvmsg` has returned and `response->id = request->id`. -/
def MsgCtx.receive (ctx : MsgCtx) (stored : List UInt8) : MsgCtx :=
  let request := stored ++ ctx.request.drop stored.length
  ⟨request, responseWith (idOf request), length_responseWith request⟩

/-- `memcached_id_drive_machine` from `recvmsg` to the assertions. -/
def drive (s : State) (ksk : Ksk) : Option (State × List Event) :=
  match s.worker.sched.receiveQ ksk with
  | [] => none
  | skb :: _ =>
      let r := rakaiaRecvmsg ⟨skb.cb, s.buf skb.id⟩
      let ctx := (s.ctx ksk).receive r.stored
      (Worker.step s.worker (.recvmsg ksk (decide (0 ≤ r.ret)))).map fun q =>
        if asserted r.ret ctx.request then
          ({ s with worker := q.1, ctx := Function.update s.ctx ksk ctx }, q.2.map .worker ++ [.returned ksk r])
        else ({ s with worker := q.1, aborted := true }, q.2.map .worker ++ [.assertFailed ksk])

/-- `sendmsg` of `memcached_id_drive_machine`, up to the splice. -/
def respond (s : State) (ksk : Ksk) (env : SendEnv) : Option (State × List Event) :=
  match Tx.Sendmsg.rakaiaSendmsg (s.call ksk env) (s.sock ksk env) env.intact env.outcomes with
  | none => none
  | some (r, _) =>
      match r.ret with
      | .ok _ =>
          (Worker.step s.worker (.sendmsg ksk (some (r.spliced.map Tx.Sendmsg.Seg.seq)))).map fun q =>
            ({ s with worker := q.1 },
              q.2.map .worker ++ [.answered ksk (s.worker.lastPsock ksk) (r.spliced.map Tx.Sendmsg.Seg.bytes)])
      | .error _ =>
          (Worker.step s.worker (.sendmsg ksk none)).map fun q => ({ s with worker := q.1 }, q.2.map .worker)

/-- One step of the server; `rcvbuf` is the `sk_rcvbuf` of each TCP socket. -/
def step (rcvbuf : PsockPtr → SkRcvbuf) (s : State) : Act → Option (State × List Event)
  | .present psock a =>
      if s.pending psock = [] ∧ s.pushed psock = true then
        (Strp.step Strp.Memcache.parser (rcvbuf psock) (s.parser psock) a).map fun r =>
          ({ s with parser := Function.update s.parser psock r.1
                    pending := Function.update s.pending psock (Strp.messages r.2) }, r.2.map (.strp psock))
      else none
  | .hand psock base r1 r2 =>
      match s.pending psock with
      | [] => none
      | head :: rest =>
          if s.pushed psock then
            (Worker.step s.worker (.sched (.pushStart psock (cbOf head.stm base) head.skb.truesize r1 r2))).map
              fun q =>
                ({ s with pending := Function.update s.pending psock rest
                          pushing := Function.update s.pushing psock (some s.worker.sched.nextId)
                          buf := Function.update s.buf s.worker.sched.nextId head.skb
                          worker := q.1 }, .handed psock head :: q.2.map .worker)
          else none
  | .worker a =>
      if outer a then (Worker.step s.worker a).map fun q => ({ s with worker := q.1 }, q.2.map .worker)
      else none
  | .recvmsg ksk => if s.aborted then none else drive s ksk
  | .sendmsg ksk env => if s.aborted then none else respond s ksk env

/-- The server. -/
def machine (rcvbuf : PsockPtr → SkRcvbuf) (writeSeq : PsockPtr → UInt32) : Machine State Act Event :=
  ⟨State.init writeSeq, step rcvbuf⟩

end Rakaia.System
