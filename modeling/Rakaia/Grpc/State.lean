import Rakaia.H2.Demux
import Rakaia.Sched.Leaving
import Rakaia.Strp.Http2
import Rakaia.Strp.Sound

/-! # The receive side of the grpc variant as a whole

From the bytes that TCP presents to what `rakaia_recvmsg` returns: the parser and the stream table of every
connection, and the scheduler with its sockets, in any interleaving.

A call of `__strp_recv` runs `handle_h2_frame` for each frame it completes, and that function pushes the message
that the frame ends.  Nothing else looks at the parser or at the stream table of the connection meanwhile, so
here the call first cuts all frames, which are then handled one by one; the next frame is handled when the push
of the message that the one before has ended has returned. -/

namespace Rakaia.Grpc

open Lib
open Sched (Ksk)
open H2 (streamHashSize)
open Strp.Http2 (FrameInfo)

/-- The buffer that `handle_h2_frame` is called on.  The other fields of its control block hold anything. -/
def skbOf (head : Strp.Head FrameInfo) (psock : PsockPtr) (next : Option ℕ) : H2.Skb :=
  ⟨⟨psock, head.stm.fullLen, head.stm.offset, head.stm.ext.streamId, head.stm.ext.type, head.stm.ext.flag,
    head.stm.accumLen, next⟩, head.skb⟩

/-- The bytes of a message that went up: those of its frames. -/
def bytesOf (s : H2.State) (head : ℕ) : List UInt8 := ((s.chain head).getD []).flatMap (fun a => (s.heap a).content)

/-- The parsers with the frames that are not handled yet, the stream tables with the messages that are not pushed
yet, the last push of each connection, the messages by their numbers, and the scheduler. -/
structure State where
  parser : PsockPtr → Strp.State FrameInfo
  cut : PsockPtr → List (Strp.Head FrameInfo)
  h2 : PsockPtr → H2.State
  raised : PsockPtr → List ℕ
  pushing : PsockPtr → Option ℕ
  /-- The connection and the first frame of a message. -/
  file : ℕ → PsockPtr × ℕ
  sched : Sched.State

def State.init (heap : ℕ → H2.Skb) (psocks : PsockPtr → H2.Psock) : State where
  parser _ := Strp.State.init
  cut _ := []
  h2 psock := H2.State.init heap (psocks psock)
  raised _ := []
  pushing _ := none
  file _ := (0, 0)
  sched := Sched.State.init

inductive Event where
  | strp (psock : PsockPtr) (e : Strp.Event FrameInfo)
  | h2 (psock : PsockPtr) (e : H2.Event)
  /-- `rakaia_rcv_strparser` is called with the message, which has these bytes. -/
  | pushed (psock : PsockPtr) (head : ℕ) (bytes : List UInt8)
  | sched (e : Sched.Event)
  /-- `rakaia_recvmsg` returns. -/
  | returned (ksk : Ksk) (psock : PsockPtr) (r : H2.Returned)

inductive Act where
  /-- TCP presents bytes of the connection: a call of `__strp_recv`. -/
  | present (psock : PsockPtr) (a : Strp.Act)
  /-- `handle_h2_frame` is called on the next frame. -/
  | frame (psock : PsockPtr) (cb : PsockPtr) (next : Option ℕ) (alloc : H2.Alloc)
  /-- The message that went up is pushed. -/
  | push (psock : PsockPtr) (cb : Cb) (truesize : ℕ) (r1 r2 : UInt8)
  /-- Any other step of the scheduler. -/
  | sched (a : Sched.Act)
  | recvmsg (ksk : Ksk) (len mapped : ℕ) (dgram : Bool)

/-- `handle_h2_frame` has returned for the frames before, with their pushes. -/
def State.quiet (s : State) (psock : PsockPtr) : Bool :=
  (s.raised psock).isEmpty &&
    match s.pushing psock with
    | none => true
    | some p => (s.sched.push p).isIdle

/-- The steps of the scheduler that are not made in another way. -/
def outer : Sched.Act → Bool
  | .pushStart .. | .recvmsg .. => false
  | _ => true

/-- What the event says that `rakaia_recvmsg` returns. -/
def returned? : H2.Event → Option H2.Returned
  | .returned _ r => some r
  | _ => none

/-- `rakaia_recvmsg` on a non-empty `sk_receive_queue`. -/
def rakaiaRecvmsg (hash : ℕ → Fin streamHashSize) (s : State) (ksk : Ksk) (len mapped : ℕ) (dgram : Bool) :
    Option (State × List Event) :=
  match s.sched.receiveQ ksk with
  | [] => none
  | skb :: _ =>
      let psock := (s.file skb.id).1
      match Sched.step .grpc s.sched (.recvmsg ksk),
        H2.step hash (s.h2 psock) (.recvmsg (s.file skb.id).2 len mapped dgram) with
      | some (sched, e), some (h2, e') =>
          some ({ s with sched := sched, h2 := Function.update s.h2 psock h2 },
            e.map .sched ++ e'.map (.h2 psock) ++ (e'.filterMap returned?).map (.returned ksk psock))
      | _, _ => none

/-- One step; `rcvbuf` is the `sk_rcvbuf` of each TCP socket. -/
def step (hash : ℕ → Fin streamHashSize) (rcvbuf : PsockPtr → ℕ) (s : State) : Act → Option (State × List Event)
  | .present psock a =>
      if s.cut psock = [] ∧ s.quiet psock = true then
        (Strp.step Strp.Http2.parser (rcvbuf psock) (s.parser psock) a).map fun r =>
          ({ s with parser := Function.update s.parser psock r.1
                    cut := Function.update s.cut psock (Strp.messages r.2) }, r.2.map (.strp psock))
      else none
  | .frame psock cb next alloc =>
      match s.cut psock with
      | [] => none
      | head :: rest =>
          if s.quiet psock then
            (H2.step hash (s.h2 psock) (.frame (skbOf head cb next) alloc)).map fun r =>
              ({ s with cut := Function.update s.cut psock rest
                        h2 := Function.update s.h2 psock r.1
                        raised := Function.update s.raised psock (H2.rcvMsgs r.2) }, r.2.map (.h2 psock))
          else none
  | .push psock cb truesize r1 r2 =>
      match s.raised psock with
      | [] => none
      | head :: rest =>
          (Sched.step .grpc s.sched (.pushStart psock cb truesize r1 r2)).map fun r =>
            ({ s with raised := Function.update s.raised psock rest
                      pushing := Function.update s.pushing psock (some s.sched.nextId)
                      file := Function.update s.file s.sched.nextId (psock, head)
                      sched := r.1 }, .pushed psock head (bytesOf (s.h2 psock) head) :: r.2.map .sched)
  | .sched a =>
      if outer a then (Sched.step .grpc s.sched a).map fun r => ({ s with sched := r.1 }, r.2.map .sched)
      else none
  | .recvmsg ksk len mapped dgram => rakaiaRecvmsg hash s ksk len mapped dgram

/-- The receive side. -/
def machine (hash : ℕ → Fin streamHashSize) (rcvbuf : PsockPtr → ℕ) (heap : ℕ → H2.Skb)
    (psocks : PsockPtr → H2.Psock) : Machine State Act Event := ⟨State.init heap psocks, step hash rcvbuf⟩

end Rakaia.Grpc
