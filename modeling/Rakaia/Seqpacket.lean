import Rakaia.Basic
import Rakaia.Datagram
import Rakaia.Lib.Machine

/-! # Reading messages (plain-tcp)

`rakaia_recvmsg` takes the first message off `sk_receive_queue`, copies what fits to the user, and releases
the message.  On a `SOCK_SEQPACKET` socket a reader may take a message in pieces (`Reader`): the code
advances `offset` and `full_len` for the next piece, as the reader would, but of a message that its common
exit releases.  So it reads like the reader as long as every message is read in one piece
(`replay_of_reach`), and no longer (`recvmsg_reads_iff`). -/

namespace Rakaia.Seqpacket

open Lib

/-! ### Messages -/

/-- A message on `sk_receive_queue`: the control block and the buffer. -/
structure Msg where
  cb : Cb
  buf : SkBuff

namespace Msg

/-- `strp_msg(skb)->full_len`. -/
def fullLen (m : Msg) : ℕ := Cb.fullLen.load m.cb

/-- `strp_msg(skb)->offset`. -/
def offset (m : Msg) : ℕ := Cb.offset.load m.cb

/-- `*(struct rakaia_psock **)&skb->cb[0]`. -/
def psock (m : Msg) : PsockPtr := BitVec.ofNat 64 (Cb.psock.load m.cb)

/-- `stm->offset += copied; stm->full_len -= copied`. -/
def advance (m : Msg) (copied : ℕ) : Msg :=
  { m with cb := Cb.fullLen.store (m.fullLen - copied) (Cb.offset.store (m.offset + copied) m.cb) }

/-- The bytes of the message. -/
def bytes (m : Msg) : List UInt8 := (m.buf.bytes.drop m.offset).take m.fullLen

/-- A message as the parser hands it up: it lies in its buffer and is not empty, and its end is an `int`. -/
structure Wf (m : Msg) : Prop where
  laid : m.buf.Laid
  inside : m.offset + m.fullLen ≤ m.buf.bytes.length
  pos : 0 < m.fullLen
  int : m.offset + m.fullLen < 2 ^ 31

theorem Wf.length_bytes {m : Msg} (h : m.Wf) : m.bytes.length = m.fullLen := by
  have := h.inside
  rw [bytes, List.length_take, List.length_drop]
  omega

end Msg

/-- A well-formed message. -/
abbrev Message := { m : Msg // m.Wf }

/-! ### `rakaia_recvmsg` -/

/-- What a call gives to the user: the return value, the bytes stored, `MSG_TRUNC` and `MSG_EOR`. -/
structure Returned where
  ret : ℤ
  stored : List UInt8
  trunc : Bool
  eor : Bool
deriving DecidableEq, Repr

/-- `-EAGAIN`, of a call that finds no message and does not block. -/
def eagain : ℤ := -11

/-- `-EFAULT`. -/
def efault : ℤ := -14

/-- A rakaia socket, as far as `rakaia_recvmsg` uses it. -/
structure Sock where
  /-- `sock->type == SOCK_DGRAM`; otherwise the socket is `SOCK_SEQPACKET`. -/
  dgram : Bool
  receiveQueue : List Message
  lastPsock : PsockPtr

/-- The end of the call after a copy without fault: `copied` bytes were copied to `stored`.  The result is
what the user gets, and the message as it is released. -/
def finish (dgram peek : Bool) (m : Msg) (copied : ℕ) (stored : List UInt8) : Returned × Msg :=
  if peek then (⟨copied, stored, false, false⟩, m)
  else if copied < m.fullLen then
    if dgram then (⟨copied, stored, true, true⟩, m)
    else (⟨copied, stored, false, false⟩, m.advance copied)
  else (⟨copied, stored, false, true⟩, m)

/-- `rakaia_recvmsg` with a buffer of `len` bytes of which `mapped` can be written.  The last component is
the message whose reference `skb_free_datagram` drops; with `MSG_PEEK` it stays on the queue. -/
def rakaiaRecvmsg (s : Sock) (len mapped : ℕ) (peek : Bool) : Sock × Returned × Option Msg :=
  match s.receiveQueue with
  | [] => (s, ⟨eagain, [], false, false⟩, none)
  | m :: rest =>
      let s' := { s with receiveQueue := if peek then m :: rest else rest, lastPsock := m.val.psock }
      let copied := if m.val.fullLen < len then m.val.fullLen else len
      match datagramIter m.val.offset copied ⟨[], len, mapped⟩ m.val.buf with
      | (false, dst) => (s', ⟨efault, dst.stored, false, false⟩, some m.val)
      | (true, dst) =>
          let r := finish s.dgram peek m.val copied dst.stored
          (s', r.1, some r.2)

/-- What happens on a socket. -/
inductive Act where
  /-- `rakaia_queue_rcv_skb` appends a message. -/
  | deliver (m : Message)
  /-- `rakaia_recvmsg` without `MSG_PEEK`. -/
  | recvmsg (len mapped : ℕ)

/-- The history of a socket. -/
inductive Event where
  | delivered (bs : List UInt8)
  | returned (len mapped : ℕ) (r : Returned)
  /-- `skb_free_datagram` drops the last reference to the message. -/
  | freed (m : Msg)

def step (s : Sock) : Act → Option (Sock × List Event)
  | .deliver m => some ({ s with receiveQueue := s.receiveQueue ++ [m] }, [.delivered m.val.bytes])
  | .recvmsg len mapped =>
      let r := rakaiaRecvmsg s len mapped false
      some (r.1, .returned len mapped r.2.1 :: (r.2.2.map Event.freed).toList)

/-- A new `SOCK_SEQPACKET` socket. -/
def machine : Machine Sock Act Event := ⟨⟨false, [], 0⟩, step⟩

/-! ### The reader -/

/-- **A reader of messages in pieces**: what a call returns, and what is left to be read.  A call that
faults reads nothing. -/
def Reader.read (len mapped : ℕ) : List (List UInt8) → Returned × List (List UInt8)
  | [] => (⟨eagain, [], false, false⟩, [])
  | bs :: rest =>
      if mapped < min len bs.length then (⟨efault, [], false, false⟩, bs :: rest)
      else if bs.length ≤ len then (⟨bs.length, bs, false, true⟩, rest)
      else (⟨len, bs.take len, false, false⟩, bs.drop len :: rest)

/-- The reader goes along with an event; `none` when it would have returned something else. -/
def Reader.follow (msgs : List (List UInt8)) : Event → Option (List (List UInt8))
  | .delivered bs => some (msgs ++ [bs])
  | .returned len mapped r =>
      if (Reader.read len mapped msgs).1 = r then some (Reader.read len mapped msgs).2 else none
  | .freed _ => some msgs

/-- What is left for the reader after a history. -/
def Reader.replay (es : List Event) : Option (List (List UInt8)) := es.foldlM Reader.follow []

/-- The messages on the queue. -/
def Sock.view (s : Sock) : List (List UInt8) := s.receiveQueue.map (fun m => m.val.bytes)

theorem Reader.replay_append (es e : List Event) :
    Reader.replay (es ++ e) = (Reader.replay es).bind (fun msgs => e.foldlM Reader.follow msgs) :=
  List.foldlM_append

/-- The reader is done with the first message just when it fits. -/
theorem Reader.read_eq_rest_iff (len mapped : ℕ) (bs : List UInt8) (rest : List (List UInt8)) :
    (Reader.read len mapped (bs :: rest)).2 = rest ↔ bs.length ≤ len ∧ bs.length ≤ mapped := by
  have hne : ∀ cs : List UInt8, cs :: rest ≠ rest := fun cs => List.cons_ne_self cs rest
  rw [Reader.read]
  split_ifs with hfault hfit
  · exact iff_of_false (hne bs) (by omega)
  · exact iff_of_true rfl (by omega)
  · exact iff_of_false (hne _) (by omega)

/-! ### The code and the reader -/

variable {s : Sock} {m : Message} {rest : List Message} {len mapped : ℕ}

/-- The call takes the message off the queue, whatever it copies. -/
theorem view_rakaiaRecvmsg (hq : s.receiveQueue = m :: rest) (len mapped : ℕ) :
    (rakaiaRecvmsg s len mapped false).1.view = rest.map (fun m => m.val.bytes) := by
  rw [rakaiaRecvmsg, hq]
  dsimp only
  split <;> rfl

/-- A message that fits is read whole. -/
theorem rakaiaRecvmsg_of_fits (hq : s.receiveQueue = m :: rest) (hlen : m.val.fullLen ≤ len)
    (hmap : m.val.fullLen ≤ mapped) :
    (rakaiaRecvmsg s len mapped false).2.1 = ⟨m.val.bytes.length, m.val.bytes, false, true⟩ := by
  have hcopied : (if m.val.fullLen < len then m.val.fullLen else len) = m.val.fullLen := by
    split_ifs <;> omega
  have hcopy := datagramIter_eq m.prop.laid m.val.offset m.val.fullLen ⟨[], len, mapped⟩ ⟨hlen, hmap⟩
    m.prop.inside
  rw [rakaiaRecvmsg, hq]
  dsimp only
  rw [hcopied, hcopy, m.prop.length_bytes]
  simp [finish, Iter.push, Msg.bytes]

/-- **One call**: the code does what the reader does if and only if the message is read in one piece. -/
theorem recvmsg_reads_iff (hq : s.receiveQueue = m :: rest) (len mapped : ℕ) :
    ((rakaiaRecvmsg s len mapped false).2.1, (rakaiaRecvmsg s len mapped false).1.view) =
      Reader.read len mapped s.view ↔ m.val.fullLen ≤ len ∧ m.val.fullLen ≤ mapped := by
  have hview : s.view = m.val.bytes :: rest.map (fun m => m.val.bytes) := by
    rw [Sock.view, hq, List.map_cons]
  have hiff := Reader.read_eq_rest_iff len mapped m.val.bytes (rest.map (fun m => m.val.bytes))
  rw [m.prop.length_bytes] at hiff
  rw [hview, view_rakaiaRecvmsg hq]
  constructor
  · intro h
    exact hiff.mp (congrArg Prod.snd h).symm
  · intro h
    refine Prod.ext ?_ (hiff.mpr h).symm
    have hlen := m.prop.length_bytes
    rw [rakaiaRecvmsg_of_fits hq h.1 h.2, Reader.read, if_neg (by omega), if_pos (by omega)]

/-- Every call finds a buffer into which the first message fits, all of which can be written. -/
def Fits (s : Sock) : Act → Prop
  | .deliver _ => True
  | .recvmsg len mapped => ∀ m ∈ s.receiveQueue.head?, m.val.fullLen ≤ len ∧ m.val.fullLen ≤ mapped

theorem step_follow {a : Act} {s' : Sock} {e : List Event} (hG : Fits s a) (hs : step s a = some (s', e)) :
    e.foldlM Reader.follow s.view = some s'.view := by
  cases a with
  | deliver m =>
      obtain ⟨rfl, rfl⟩ := Prod.mk.inj (Option.some.inj hs)
      simp [Reader.follow, Sock.view]
  | recvmsg len mapped =>
      obtain ⟨rfl, rfl⟩ := Prod.mk.inj (Option.some.inj hs)
      have hread : ((rakaiaRecvmsg s len mapped false).2.1, (rakaiaRecvmsg s len mapped false).1.view) =
          Reader.read len mapped s.view := by
        cases hq : s.receiveQueue with
        | nil => simp [rakaiaRecvmsg, hq, Sock.view, Reader.read]
        | cons m rest => exact (recvmsg_reads_iff hq len mapped).mpr (hG m (by rw [hq]; rfl))
      rw [List.foldlM_cons, Reader.follow, ← hread, if_pos rfl]
      -- the release is nothing to the reader
      cases (rakaiaRecvmsg s len mapped false).2.2 <;> rfl

/-- **Runs**: as long as all messages are read in one piece, every call returns what the reader returns. -/
theorem replay_of_reach {es : List Event} (h : machine.Reach Fits s es) : Reader.replay es = some s.view := by
  refine h.invariant (P := fun s es => Reader.replay es = some s.view) rfl ?_
  intro s es a s' e _ hP hG hs
  rw [Reader.replay_append, hP]
  exact step_follow hG hs

/-! ### The main result -/

/-- **Reading in pieces.**  In every run of a `SOCK_SEQPACKET` socket in which every call finds a buffer for
the whole first message, the calls return what the reader returns, and the same messages are left.  And in
every state a call does what the reader does only with such a buffer. -/
theorem seqpacket_reads {es : List Event} (h : machine.Reach Fits s es) :
    Reader.replay es = some s.view ∧
    ∀ (s : Sock) (m : Message) (rest : List Message) (len mapped : ℕ), s.receiveQueue = m :: rest →
      (((rakaiaRecvmsg s len mapped false).2.1, (rakaiaRecvmsg s len mapped false).1.view) =
        Reader.read len mapped s.view ↔ m.val.fullLen ≤ len ∧ m.val.fullLen ≤ mapped) :=
  ⟨replay_of_reach h, fun _ _ _ len mapped hq => recvmsg_reads_iff hq len mapped⟩

/-- A message of the given bytes, in the linear area of its buffer. -/
def linearMsg (bs : List UInt8) : Msg :=
  ⟨Cb.fullLen.store bs.length (fun _ => 0), .mk bs.length 0 bs.length bs [] []⟩

theorem linearMsg_wf {bs : List UInt8} (hpos : 0 < bs.length) (hlt : bs.length < 2 ^ 31) : (linearMsg bs).Wf := by
  have hfull : (linearMsg bs).fullLen = bs.length := by
    refine (Field.load_store Cb.fullLen _ _).trans (Nat.mod_eq_of_lt ?_)
    exact lt_trans hlt (by decide)
  have hoff : (linearMsg bs).offset = 0 :=
    (Field.load_store_of_disjoint (f := Cb.fullLen) (g := Cb.offset) (by decide) _ _).trans (by decide)
  refine ⟨.mk rfl nofun nofun, ?_, by omega, by omega⟩
  rw [hfull, hoff]
  simp [linearMsg, SkBuff.bytes, SkBuff.bytesOf]

/-- Messages of three and of two bytes arrive; then there are two calls with the given buffers. -/
def twoReads (len₁ len₂ : ℕ) : List Act :=
  [.deliver ⟨linearMsg [1, 2, 3], linearMsg_wf (by decide) (by decide)⟩,
    .deliver ⟨linearMsg [4, 5], linearMsg_wf (by decide) (by decide)⟩,
    .recvmsg len₁ len₁, .recvmsg len₂ len₂]

/-- What the user has got in a history. -/
def received (es : List Event) : List Returned :=
  es.filterMap (fun e => match e with
    | .returned _ _ r => some r
    | _ => none)

def fits (s : Sock) : Act → Bool
  | .deliver _ => true
  | .recvmsg len mapped => s.receiveQueue.head?.all (fun m => m.val.fullLen ≤ len && m.val.fullLen ≤ mapped)

theorem fits_sound (s : Sock) (a : Act) (h : fits s a = true) : Fits s a := by
  cases a with
  | deliver => trivial
  | recvmsg len mapped =>
      intro m hm
      rw [fits, Option.mem_def.mp hm] at h
      simpa using h

/-- With buffers of ten bytes both messages are read whole. -/
theorem seqpacket_reads_whole : ∃ s es, machine.Reach Fits s es ∧
    received es = [⟨3, [1, 2, 3], false, true⟩, ⟨2, [4, 5], false, true⟩] ∧
    Reader.replay es = some s.view := by
  obtain ⟨s, es, hr, hy⟩ := Machine.Reach.of_exec (M := machine) (G := Fits) (g := fits) (twoReads 10 10)
    (fun s a _ => fits_sound s a) (fun r => received r.2)
    [⟨3, [1, 2, 3], false, true⟩, ⟨2, [4, 5], false, true⟩] (by decide +kernel)
  exact ⟨s, es, hr, hy, (seqpacket_reads hr).1⟩

/-- With a first buffer of two bytes the third byte of the message is never read: the second call returns
the next message. -/
theorem seqpacket_loses : ∃ s es, machine.Reachable s es ∧
    received es = [⟨2, [1, 2], false, false⟩, ⟨2, [4, 5], false, true⟩] ∧ s.view = [] ∧
    Reader.replay es = none := by
  obtain ⟨s, es, hr, hy⟩ := Machine.Reach.of_exec (M := machine) (G := fun _ _ => True)
    (g := fun _ _ => true) (twoReads 2 10) (fun _ _ _ _ => trivial)
    (fun r => (received r.2, r.1.view, Reader.replay r.2))
    ([⟨2, [1, 2], false, false⟩, ⟨2, [4, 5], false, true⟩], [], none) (by decide +kernel)
  simp only [Prod.mk.injEq] at hy
  obtain ⟨hrec, hview, hreplay⟩ := hy
  exact ⟨s, es, hr, hrec, hview, hreplay⟩

end Rakaia.Seqpacket
