import Mathlib.Data.Fintype.Basic
import Rakaia.Lib.Buckets
import Rakaia.Lib.Chain
import Rakaia.Lib.Machine
import Rakaia.Basic
import Rakaia.Datagram

/-! # HTTP/2 frames in the grpc variant

`__strp_recv` hands every complete frame to `handle_h2_frame`.  The frames of a stream are linked
into a chain through `strp_next`, a pointer kept in `skb->cb`; the head of the chain is stored in
the hash table `stream_storage` until a frame with the END_STREAM flag (or a RST_STREAM frame)
arrives, and then goes up as one message.  `rakaia_recvmsg` copies the frames of the chain to the
user one after the other and frees them.

An `sk_buff` has an address, and the heap gives its contents; addresses are not used twice.  The
hash function of the table is a parameter. -/

namespace Rakaia.H2

open Lib

/-! ### The control block -/

/-- What the grpc variant keeps in `skb->cb`: the pointer of the scheduler, `struct _strp_msg`, and
the pointer to the next frame of the message. -/
structure Cb where
  psock : PsockPtr
  fullLen : ℕ
  offset : ℕ
  streamId : ℕ
  type : UInt8
  flag : UInt8
  accumLen : ℕ
  next : Option ℕ

namespace Cb

/-- Size and alignment of the members of `struct sk_skb_cb`: `data[16]`, `strp`, `tls`, `next`. -/
def skSkbCb : List (ℕ × ℕ) := [(16, 1), (20, 4), (1, 1), (8, 8)]

/-- Size and alignment of the members of `struct _strp_msg`: `full_len`, `offset`, `stream_id`, the
bit fields `type` and `flag`, `accum_len`. -/
def strpMsg : List (ℕ × ℕ) := [(4, 4), (4, 4), (4, 4), (1, 1), (1, 1), (4, 4)]

def strpOff (k : ℕ) : ℕ := (layout 0 skSkbCb).getD 1 0 + (layout 0 strpMsg).getD k 0

/-- Where the members of `Cb` lie in the 48 bytes of `skb->cb`. -/
def fields : List (Field cbLen) :=
  [Rakaia.Cb.psock, ⟨strpOff 0, 4, by decide⟩, ⟨strpOff 1, 4, by decide⟩, ⟨strpOff 2, 4, by decide⟩,
    ⟨strpOff 3, 1, by decide⟩, ⟨strpOff 4, 1, by decide⟩, ⟨strpOff 5, 4, by decide⟩,
    ⟨(layout 0 skSkbCb).getD 3 0, 8, by decide⟩]

/-- The members share no byte, so that they can be modelled by a record. -/
theorem fields_disjoint : fields.Pairwise Field.Disjoint := by decide

end Cb

/-- A frame, or a part of a message. -/
structure Skb where
  cb : Cb
  buf : SkBuff

/-- The types of frames. -/
inductive FrameType where
  | data | headers | priority | rstStream | settings | pushPromise | ping | goaway | windowUpdate
  | continuation | unknown
deriving DecidableEq, Repr

def FrameType.ofByte (b : UInt8) : FrameType :=
  match b.toNat with
  | 0x0 => .data
  | 0x1 => .headers
  | 0x2 => .priority
  | 0x3 => .rstStream
  | 0x4 => .settings
  | 0x5 => .pushPromise
  | 0x6 => .ping
  | 0x7 => .goaway
  | 0x8 => .windowUpdate
  | 0x9 => .continuation
  | _ => .unknown

def Skb.type (skb : Skb) : FrameType := .ofByte skb.cb.type

/-- `FLAG_END_STREAM`, which has the value of `FLAG_ACK`. -/
def Skb.flag1 (skb : Skb) : Bool := skb.cb.flag &&& 0x1 != 0

/-! ### States -/

/-- `struct h2_stream_buffer`. -/
structure StreamBuffer where
  streamId : ℕ
  skb : ℕ
deriving DecidableEq, Repr

/-- A control frame on `tx_wait_queue`, with the byte count in its `tcp_skb_cb`. -/
structure CtrlSkb where
  bytes : List UInt8
  seq : ℕ
deriving DecidableEq, Repr

/-- The fields of `struct rakaia_psock` that frames change. -/
structure Psock where
  addr : PsockPtr
  recvConnWindow : Int32
  unacked : Int32
  sendQuota : Int32
  flowStalled : Bool
  txWaitQueue : List CtrlSkb
  /-- `tx_work` was queued. -/
  txWork : Bool

/-- The number of buckets of `stream_storage`. -/
def streamHashSize : ℕ := 16

instance : NeZero streamHashSize := ⟨by decide⟩

/-- The state of the receive path of one psock. -/
structure State where
  heap : ℕ → Skb
  /-- The first address that is not allocated yet. -/
  brk : ℕ
  streamStorage : Buckets (Fin streamHashSize) StreamBuffer
  psock : Psock
  /-- The messages handed up and not yet returned by `rakaia_recvmsg`. -/
  upper : List ℕ

/-- What `rakaia_recvmsg` returns: its result, the bytes it stored, and two flags. -/
structure Returned where
  ret : ℤ
  stored : List UInt8
  trunc : Bool
  eor : Bool
deriving DecidableEq, Repr

/-- The history of a run. -/
inductive Event where
  /-- A frame is passed to `handle_h2_frame`. -/
  | frame (addr : ℕ) (skb : Skb)
  /-- `rcv_msg` is called. -/
  | rcvMsg (head : ℕ)
  /-- `kfree_skb` is called. -/
  | freed (addr : ℕ)
  /-- `rakaia_recvmsg` returns. -/
  | returned (head : ℕ) (r : Returned)

/-- What the functions called by `handle_h2_frame` get from the kernel: the results of
`kmem_cache_zalloc` and `alloc_skb_fclone`, and the bytes that lie in the local buffer of
`send_pingack`. -/
structure Alloc where
  stream : Bool
  ctrl : Bool
  stack : List UInt8

namespace State

variable (s : State)

/-- `strp_next`. -/
def strpNext (a : ℕ) : Option ℕ := (s.heap a).cb.next

/-- The contents of an address change. -/
def setSkb (a : ℕ) (skb : Skb) : State := { s with heap := Function.update s.heap a skb }

/-- An assignment to `strp_next`. -/
def setNext (a : ℕ) (n : Option ℕ) : State :=
  s.setSkb a { s.heap a with cb := { (s.heap a).cb with next := n } }

end State

/-! ### The stream table -/

section functions

variable (hash : ℕ → Fin streamHashSize)

/-- `add_skbs_to_head`; `none` when the loop does not end. -/
def addSkbsToHead (s : State) (head skb : ℕ) : Option State :=
  match follow s.strpNext (fun _ a => a) s.brk head (s.strpNext head) with
  | none => none
  | some last =>
      let s := (s.setNext last (some skb)).setNext skb none
      some (s.setSkb head { s.heap head with buf := (s.heap head).buf.grow (s.heap skb).buf })

/-- `create_stream_head`; `none` is `-ENOMEM`. -/
def createStreamHead (s : State) (streamId buffer : ℕ) (alloc : Alloc) : Option State :=
  if alloc.stream then
    some { s.setNext buffer none with
      streamStorage := Buckets.add hash StreamBuffer.streamId s.streamStorage ⟨streamId, buffer⟩ }
  else none

/-- `stream_lookup`. -/
def streamLookup (s : State) (streamId : ℕ) : Option StreamBuffer :=
  Buckets.lookup hash StreamBuffer.streamId s.streamStorage streamId

/-- `delete_stream`; `none` is `-ENOENT`. -/
def deleteStream (s : State) (streamId : ℕ) : Option State :=
  match streamLookup hash s streamId with
  | some stream =>
      some { s with streamStorage := Buckets.del hash StreamBuffer.streamId s.streamStorage stream }
  | none => none

/-- `rcv_msg`: the scheduler stores the psock in the head of the message and takes it over. -/
def rcvMsg (s : State) (head : ℕ) : State :=
  { s.setSkb head { s.heap head with cb := { (s.heap head).cb with psock := s.psock.addr } } with
    upper := s.upper ++ [head] }

/-- `flush_stream`. -/
def flushStream (s : State) (streamId : ℕ) : State × List Event :=
  match streamLookup hash s streamId with
  | some stream =>
      let s := rcvMsg s stream.skb
      ((deleteStream hash s streamId).getD s, [.rcvMsg stream.skb])
  | none => (s, [])

/-- The outcome of `add_skb_to_stream`. -/
inductive Added where
  | ok (s : State)
  | enomem
  /-- The loop of `add_skbs_to_head` does not end. -/
  | loops

/-- `add_skb_to_stream`. -/
def addSkbToStream (s : State) (streamId skb : ℕ) (alloc : Alloc) : Added :=
  match streamLookup hash s streamId with
  | some stream =>
      match addSkbsToHead s stream.skb skb with
      | some s' => .ok s'
      | none => .loops
  | none =>
      match createStreamHead hash s streamId skb alloc with
      | some s' => .ok s'
      | none => .enomem

/-! ### Control frames -/

/-- A control frame goes on `tx_wait_queue`, and `tx_work` is queued. -/
def State.queueCtrl (s : State) (bytes : List UInt8) (seq : ℕ) : State :=
  { s with psock := { s.psock with txWaitQueue := s.psock.txWaitQueue ++ [⟨bytes, seq⟩], txWork := true } }

/-- `skb_header_pointer` with the local buffer it may fill: a pointer into the linear area leaves the
buffer as it was.  The result is what the pointer points to, and the buffer. -/
def headerPointerBuf (skb : SkBuff) (offset n : ℕ) (buf : List UInt8) : Option (List UInt8 × List UInt8) :=
  match skb.headerPointer offset n with
  | none => none
  | some p => some (p, if offset + n ≤ skb.headlen then buf else p)

/-- `send_pingack`. -/
def sendPingack (s : State) (a : ℕ) (alloc : Alloc) : State × List Event :=
  let skb := s.heap a
  let p := headerPointerBuf skb.buf (skb.cb.offset + 9) 8 alloc.stack
  let buf := (p.map Prod.snd).getD alloc.stack
  let lost := if p.isNone then [Event.freed a] else []
  if alloc.ctrl then
    (s.queueCtrl ([0, 0, 8, 0x06, 0x01, 0, 0, 0, 0] ++ buf.take 8) 17, lost ++ [.freed a])
  else (s, lost)

/-- `send_window_update`. -/
def sendWindowUpdate (s : State) (inc : Int32) (alloc : Alloc) : State :=
  let u := inc.toUInt32
  if alloc.ctrl then
    s.queueCtrl [0, 0, 4, 0x08, 0x00, 0, 0, 0, 0, ((u >>> 24) &&& 0x7f).toUInt8,
      ((u >>> 16) &&& 0xff).toUInt8, ((u >>> 8) &&& 0xff).toUInt8, (u &&& 0xff).toUInt8] 13
  else s

/-- `send_settings_ack`. -/
def sendSettingsAck (s : State) (alloc : Alloc) : State :=
  if alloc.ctrl then s.queueCtrl [0, 0, 0, 0x04, 0x01, 0, 0, 0, 0] 9 else s

/-- The 31-bit increment in the four bytes of a WINDOW_UPDATE frame. -/
def windowIncrement (p : List UInt8) : Int32 :=
  (((p.getD 0 0).toUInt32 <<< 24 ||| (p.getD 1 0).toUInt32 <<< 16 ||| (p.getD 2 0).toUInt32 <<< 8 |||
    (p.getD 3 0).toUInt32) &&& 0x7fffffff).toInt32

/-- `process_incoming_window_update`. -/
def processIncomingWindowUpdate (s : State) (a : ℕ) : State × List Event :=
  let skb := s.heap a
  if skb.cb.streamId ≠ 0 then (s, [.freed a])
  else
    match skb.buf.headerPointer (skb.cb.offset + 9) 4 with
    | none => (s, [.freed a])
    | some p =>
        if windowIncrement p = 0 then (s, [.freed a])
        else
          let quota := s.psock.sendQuota + windowIncrement p
          let resume := s.psock.flowStalled && decide (0 < quota)
          ({ s with psock := { s.psock with
              sendQuota := quota
              flowStalled := s.psock.flowStalled && !resume
              txWork := s.psock.txWork || resume } }, [.freed a])

/-- The bookkeeping of the connection window for a DATA or RST_STREAM frame. -/
def accountData (s : State) (skb : Skb) (alloc : Alloc) : State :=
  let unacked := s.psock.unacked + (Int32.ofNat skb.cb.fullLen - 9)
  if s.psock.recvConnWindow / 4 ≤ unacked then
    let s := sendWindowUpdate s unacked alloc
    { s with psock := { s.psock with unacked := 0 } }
  else { s with psock := { s.psock with unacked := unacked } }

/-! ### `handle_h2_frame` -/

/-- The frame is one of those that `handle_h2_frame` stores. -/
def Skb.carried (skb : Skb) : Bool :=
  match skb.type with
  | .data | .headers | .continuation | .rstStream => true
  | _ => false

/-- The frame ends the message of its stream. -/
def Skb.ends (skb : Skb) : Bool := skb.flag1 || skb.type == .rstStream

/-- The part of `handle_h2_frame` for the frames it stores. -/
def storeFrame (s : State) (a : ℕ) (alloc : Alloc) : Option (State × List Event) :=
  let skb := s.heap a
  match addSkbToStream hash s skb.cb.streamId a alloc with
  | .loops => none
  | .enomem => some (s, [])
  | .ok s' => some (if skb.ends then flushStream hash s' skb.cb.streamId else (s', []))

/-- `handle_h2_frame`; `none` when it does not return. -/
def handleH2Frame (s : State) (a : ℕ) (alloc : Alloc) : Option (State × List Event) :=
  let skb := s.heap a
  match skb.type with
  | .rstStream | .data => storeFrame hash (accountData s skb alloc) a alloc
  | .headers | .continuation => storeFrame hash s a alloc
  | .ping => some (sendPingack s a alloc)
  | .windowUpdate => some (processIncomingWindowUpdate s a)
  | .settings =>
      some (if skb.cb.streamId = 0 ∧ skb.flag1 = false then sendSettingsAck s alloc else s, [.freed a])
  | .priority | .pushPromise | .goaway | .unknown => some (s, [.freed a])

end functions

/-! ### `rakaia_recvmsg` -/

/-- What `skb_copy_datagram_msg_http2` does with one frame: the result of the copy, the sum of the
lengths, the user's buffer. -/
def copyFrame (s : State) (acc : Bool × Int32 × Iter) (a : ℕ) : Bool × Int32 × Iter :=
  let skb := s.heap a
  let r := datagramIter skb.cb.offset skb.cb.fullLen acc.2.2 skb.buf
  (r.1, acc.2.1 + Int32.ofNat skb.cb.fullLen, r.2)

/-- `skb_copy_datagram_msg_http2`; `none` when the loop does not end. -/
def copyDatagramMsgHttp2 (s : State) (head : ℕ) (dst : Iter) : Option (Bool × Int32 × Iter) :=
  follow s.strpNext (copyFrame s) s.brk (true, 0, dst) (some head)

/-- The result of `rakaia_recvmsg` with a buffer of `len` bytes, on a socket that is `SOCK_DGRAM` or
not, from what `skb_copy_datagram_msg_http2` left. -/
def recvResult (len : ℕ) (dgram : Bool) (r : Bool × Int32 × Iter) : Returned :=
  let copied := r.2.1
  let size := (copied.toInt % 2 ^ 64).toNat
  let short := r.1 && decide (len < size)
  { ret := if copied ≠ 0 then copied.toInt else if r.1 then 0 else -14
    stored := r.2.2.stored
    trunc := short && dgram
    eor := r.1 && (decide (size ≤ len) || dgram) }

/-- The frames of a message, following `strp_next` from its head. -/
def State.chain (s : State) (head : ℕ) : Option (List ℕ) :=
  follow s.strpNext (fun l a => l ++ [a]) s.brk [] (some head)

/-- `rakaia_recvmsg` without `MSG_PEEK` on the message `head`, which it frees. -/
def rakaiaRecvmsg (s : State) (head len mapped : ℕ) (dgram : Bool) : Option (State × List Event) :=
  match copyDatagramMsgHttp2 s head ⟨[], len, mapped⟩, s.chain head with
  | some r, some l =>
      some ({ l.foldl (fun s a => s.setNext a none) s with upper := s.upper.erase head },
        (l.tail.map Event.freed) ++ [.freed head, .returned head (recvResult len dgram r)])
  | _, _ => none

/-! ### Runs -/

/-- One step: a frame arrives in a new buffer, or a message is received. -/
inductive Act where
  | frame (skb : Skb) (alloc : Alloc)
  | recvmsg (head len mapped : ℕ) (dgram : Bool)

/-- A frame in a new buffer. -/
def State.alloc (s : State) (skb : Skb) : State := { s.setSkb s.brk skb with brk := s.brk + 1 }

def step (hash : ℕ → Fin streamHashSize) (s : State) : Act → Option (State × List Event)
  | .frame skb alloc =>
      (handleH2Frame hash (s.alloc skb) s.brk alloc).map (fun r => (r.1, .frame s.brk skb :: r.2))
  | .recvmsg head len mapped dgram =>
      if head ∈ s.upper then rakaiaRecvmsg s head len mapped dgram else none

/-- The state after `rakaia_attach`. -/
def State.init (heap : ℕ → Skb) (psock : Psock) : State where
  heap := heap
  brk := 0
  streamStorage _ := []
  psock := psock
  upper := []

/-- The receive path of a psock. -/
def machine (hash : ℕ → Fin streamHashSize) (heap : ℕ → Skb) (psock : Psock) :
    Machine State Act Event := ⟨State.init heap psock, step hash⟩

end Rakaia.H2
