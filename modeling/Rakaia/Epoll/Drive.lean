import Rakaia.Pool.Reads

/-! # The epoll server

`common-linux.c` serves each connection with a state machine that a thread drives whenever epoll says that the
connection can be read.  A call goes through the states of one request, `HEADER`, `EXTRA`, `PROC` and
`RESPONSE`; when the socket would block it returns, and the next call continues in the state that was saved in
the connection.  The header is received into the buffer of the connection, never a byte more; the body is
received and thrown away.

The functions `memcached_drive_machine` and `memcached_id_drive_machine` differ in the type of the header
only, which is a parameter here (`Format`).  Each call of `recv` and of `send` is one step, together with the
code up to the next one; a failed assertion is a position of its own.

The main result says what a connection has done with a stream of requests, in whatever pieces it came
(`agrees_of_reach`): the requests processed are the first of the stream, and what was received behind them is the
part of the next request that the state says. -/

namespace Rakaia.Epoll

open Lib
open Pool.Reads (bufSize store validOpcode)
open Pool.Reads.Conn (length_store take_drop_store)

/-! ### Headers -/

/-- The type of a header: its size, and where its status lies.  The magic number and the opcode are the first
two bytes, and the length of the body follows the status. -/
structure Format where
  size : ℕ
  statusAt : ℕ
  fits : 2 ≤ statusAt ∧ statusAt + 6 ≤ size
  /-- The assertion of `recv_header_once`. -/
  size_le : size ≤ bufSize

/-- `binary_header_t`. -/
def binaryHeader : Format := ⟨24, 6, by decide, by decide⟩

/-- `bid_header_t`. -/
def bidHeader : Format := ⟨28, 10, by decide, by decide⟩

def magic (l : List UInt8) : ℕ := beAt l 0 1

def opcode (l : List UInt8) : ℕ := beAt l 1 1

namespace Format

variable (F : Format)

def bodyLen (l : List UInt8) : ℕ := beAt l (F.statusAt + 2) 4

/-- The header as it is sent back: the magic number `0x81`, the status 1 and a body of length 0, in network
order. -/
def respond (l : List UInt8) : List UInt8 := store (store l 0 [0x81]) F.statusAt [0, 1, 0, 0, 0, 0]

end Format

/-! ### The connection -/

/-- `enum conn_state`. -/
inductive ConnState where
  | header | extra | key | value | proc | response
deriving DecidableEq, Repr

/-- `struct conn`; the header is a union, and kept as bytes. -/
structure Conn where
  state : ConnState
  header : List UInt8
  bodyBytesLeft : ℕ
  bufHead : ℤ
  bufTail : ℤ
  buf : List UInt8

namespace Conn

variable (c : Conn)

/-- `avail_bytes`, as a `size_t`. -/
def availBytes : ℕ := ((c.bufTail - c.bufHead) % 2 ^ 64).toNat

/-- The bytes in the buffer are moved to its front, in `recv_header_once`. -/
def compact : Conn :=
  if c.bufHead = 0 then c
  else
    { c with
      buf := store (store c.buf 0 ((c.buf.drop c.bufHead.toNat).take (c.bufTail - c.bufHead).toNat))
        (c.bufTail - c.bufHead).toNat (List.replicate c.bufHead.toNat 0)
      bufHead := 0
      bufTail := c.bufTail - c.bufHead }

/-- The bytes `bs` are received behind the bytes in the buffer. -/
def received (bs : List UInt8) : Conn :=
  { c with buf := store c.buf c.bufTail.toNat bs, bufTail := c.bufTail + bs.length }

/-- The end of `recv_header_once`. -/
def takeHeader (F : Format) : Conn :=
  { c with header := (c.buf.drop c.bufHead.toNat).take F.size, bufHead := c.bufHead + F.size }

end Conn

/-! ### Steps -/

/-- Where the call stands. -/
inductive Pc where
  /-- Not called, or returned. -/
  | idle
  /-- At `recv` in `recv_header_once`. -/
  | recvHeader
  /-- At `recv` in `drain_body_once`. -/
  | recvBody
  /-- At `send` in `send_exactly`, with its local variable. -/
  | send (part : ℕ)
  /-- An assertion failed. -/
  | aborted
deriving DecidableEq, Repr

structure State where
  conn : Conn
  closed : Bool
  pc : Pc

inductive Event where
  /-- Bytes are received. -/
  | received (bs : List UInt8)
  /-- `process_request`, for the request with this header. -/
  | processed (header : List UInt8)
  /-- Bytes of the response from index `part` on are sent. -/
  | sent (part : ℕ) (bs : List UInt8)
deriving DecidableEq, Repr

/-- The error numbers that `handle_ret` distinguishes. -/
inductive Errno where
  | eagain | ebadf | epipe | econnreset | other
deriving DecidableEq, Repr

inductive RecvResult where
  | data (bs : List UInt8)
  | eof
  | failed (errno : Errno)
deriving DecidableEq, Repr

/-- The result of `send`; a result of 0 is treated as the end of the connection. -/
inductive SendResult where
  | sent (n : ℕ)
  | failed (errno : Errno)
deriving DecidableEq, Repr

inductive Act where
  /-- The state machine is called on a connection that is open. -/
  | call
  | recv (r : RecvResult)
  | send (r : SendResult)
deriving DecidableEq, Repr

section step

variable (F : Format)

/-- `STATE_PROC`, up to `send`. -/
def process (c : Conn) : Conn × Pc × List Event :=
  ({ c with state := .response, header := F.respond c.header }, .send 0, [.processed c.header])

/-- `STATE_EXTRA`, up to `recv` in `drain_body_once`, or behind it when there is no body. -/
def drainBody (c : Conn) : Conn × Pc × List Event :=
  if c.bodyBytesLeft = 0 then process F c
  else if bufSize < c.bodyBytesLeft then (c, .aborted, [])
  else (c, .recvBody, [])

/-- What follows `recv_header_once`. -/
def headerRead (c : Conn) : Conn × Pc × List Event :=
  if magic c.header ≠ 0x80 ∨ validOpcode (opcode c.header) = false then (c, .aborted, [])
  else drainBody F { c with bodyBytesLeft := F.bodyLen c.header, state := .extra }

/-- `STATE_HEADER`, up to `recv` in `recv_header_once`, or behind it when a header is there. -/
def readHeader (c : Conn) : Conn × Pc × List Event :=
  if bufSize < F.size then (c, .aborted, [])
  else if c.availBytes < F.size then (c.compact, .recvHeader, [])
  else headerRead F (c.takeHeader F)

/-- What follows `send_exactly`. -/
def responseSent (c : Conn) : Conn × Pc × List Event :=
  let c := { c with state := .header }
  if F.size ≤ c.availBytes then readHeader F c else (c, .idle, [])

/-- The `switch`. -/
def dispatch (c : Conn) : Conn × Pc × List Event :=
  match c.state with
  | .header => readHeader F c
  | .extra => drainBody F c
  | .proc => process F c
  | .response => (c, .send 0, [])
  | .key | .value => (c, .aborted, [])

/-- `handle_ret` for a result of `-1`. -/
def handleErr (s : State) : Errno → State
  | .eagain | .ebadf => { s with pc := .idle }
  | .epipe | .econnreset => { s with closed := true, pc := .idle }
  | .other => { s with pc := .aborted }

/-- The code runs to its next position, behind the events `e`. -/
def goes (s : State) (e : List Event) (r : Conn × Pc × List Event) : State × List Event :=
  ({ s with conn := r.1, pc := r.2.1 }, e ++ r.2.2)

/-- `recv` in `recv_header_once`. -/
def recvHeaderOnce (s : State) : RecvResult → Option (State × List Event)
  | .data bs =>
      if 0 < bs.length ∧ bs.length ≤ (F.size - s.conn.bufTail).toNat then
        let c := s.conn.received bs
        some (goes s [.received bs] (if c.availBytes < F.size then (c, .idle, []) else headerRead F (c.takeHeader F)))
      else none
  | .eof => some ({ s with closed := true, pc := .idle }, [])
  | .failed errno => some (handleErr s errno, [])

/-- `recv` in `drain_body_once`. -/
def drainBodyOnce (s : State) : RecvResult → Option (State × List Event)
  | .data bs =>
      if 0 < bs.length ∧ bs.length ≤ s.conn.bodyBytesLeft then
        let c := { s.conn with bodyBytesLeft := s.conn.bodyBytesLeft - bs.length }
        some (goes s [.received bs] (if c.bodyBytesLeft ≠ 0 then (c, .idle, []) else process F c))
      else none
  | .eof => some ({ s with closed := true, pc := .idle }, [])
  | .failed errno => some (handleErr s errno, [])

/-- `send` in `send_exactly`. -/
def sendExactly (s : State) (part : ℕ) : SendResult → Option (State × List Event)
  | .sent n =>
      if n = 0 then some ({ s with closed := true, pc := .idle }, [])
      else if n ≤ F.size - part then
        some (goes s [.sent part ((s.conn.header.drop part).take n)]
          (if part + n < F.size then (s.conn, .send (part + n), []) else responseSent F s.conn))
      else none
  | .failed errno => some (handleErr s errno, [])

def step (s : State) : Act → Option (State × List Event)
  | .call => if s.pc = .idle ∧ s.closed = false then some (goes s [] (dispatch F s.conn)) else none
  | .recv r =>
      match s.pc with
      | .recvHeader => recvHeaderOnce F s r
      | .recvBody => drainBodyOnce F s r
      | _ => none
  | .send r =>
      match s.pc with
      | .send part => sendExactly F s part r
      | _ => none

/-- A connection that was just accepted. -/
def State.init : State := ⟨⟨.header, List.replicate F.size 0, 0, 0, 0, List.replicate bufSize 0⟩, false, .idle⟩

/-- The state machine of a protocol. -/
def driveMachine : Machine State Act Event := ⟨State.init F, step F⟩

end step

/-- `memcached_drive_machine`. -/
def memcachedDriveMachine : Machine State Act Event := driveMachine binaryHeader

/-- `memcached_id_drive_machine`. -/
def memcachedIdDriveMachine : Machine State Act Event := driveMachine bidHeader

/-! ### What a step can do -/

/-- The steps of a connection: what `step` does, one constructor for each way a system call can return. -/
inductive Step (F : Format) (s : State) : Act → State → List Event → Prop
  /-- The event loop calls the function. -/
  | call : s.pc = .idle → s.closed = false →
      Step F s .call (goes s [] (dispatch F s.conn)).1 (goes s [] (dispatch F s.conn)).2
  /-- A part of the header arrives; the function goes on when it is complete. -/
  | recvHeader {bs : List UInt8} {l : Conn × Pc × List Event} : s.pc = .recvHeader → 0 < bs.length →
      bs.length ≤ (F.size - s.conn.bufTail).toNat →
      l = (if (s.conn.received bs).availBytes < F.size then (s.conn.received bs, .idle, [])
        else headerRead F ((s.conn.received bs).takeHeader F)) →
      Step F s (.recv (.data bs)) (goes s [.received bs] l).1 (goes s [.received bs] l).2
  /-- A part of the body arrives; the function goes on when nothing of it is left. -/
  | recvBody {bs : List UInt8} {c : Conn} {l : Conn × Pc × List Event} : s.pc = .recvBody → 0 < bs.length →
      bs.length ≤ s.conn.bodyBytesLeft → c = { s.conn with bodyBytesLeft := s.conn.bodyBytesLeft - bs.length } →
      l = (if c.bodyBytesLeft ≠ 0 then (c, .idle, []) else process F c) →
      Step F s (.recv (.data bs)) (goes s [.received bs] l).1 (goes s [.received bs] l).2
  /-- The client has closed its end. -/
  | recvEof : s.pc = .recvHeader ∨ s.pc = .recvBody →
      Step F s (.recv .eof) { s with closed := true, pc := .idle } []
  /-- `recv` fails, and `handle_ret` returns, closes the connection or aborts. -/
  | recvFailed {errno : Errno} : s.pc = .recvHeader ∨ s.pc = .recvBody →
      Step F s (.recv (.failed errno)) (handleErr s errno) []
  /-- `send` takes a part of the response; `send_exactly` goes on with the rest. -/
  | sent {part n : ℕ} {e : List Event} {l : Conn × Pc × List Event} : s.pc = .send part → 0 < n →
      n ≤ F.size - part → e = [.sent part ((s.conn.header.drop part).take n)] →
      l = (if part + n < F.size then (s.conn, .send (part + n), []) else responseSent F s.conn) →
      Step F s (.send (.sent n)) (goes s e l).1 (goes s e l).2
  /-- `send` takes nothing, and `handle_ret` closes the connection. -/
  | sentNone {part : ℕ} : s.pc = .send part → Step F s (.send (.sent 0)) { s with closed := true, pc := .idle } []
  /-- `send` fails, and `partial` is lost with the call. -/
  | sendFailed {part : ℕ} {errno : Errno} : s.pc = .send part →
      Step F s (.send (.failed errno)) (handleErr s errno) []

theorem step_cases {F : Format} {s s' : State} {a : Act} {e : List Event} (hs : step F s a = some (s', e)) :
    Step F s a s' e := by
  cases a with
  | call =>
      simp only [step] at hs
      split_ifs at hs with hcall
      obtain ⟨rfl, rfl⟩ := Prod.mk.inj (Option.some.inj hs)
      exact .call hcall.1 hcall.2
  | recv res =>
      simp only [step] at hs
      cases hpc : s.pc with
      | idle | send | aborted => rw [hpc] at hs; cases hs
      | recvHeader =>
          rw [hpc] at hs
          cases res with
          | eof =>
              obtain ⟨rfl, rfl⟩ := Prod.mk.inj (Option.some.inj hs)
              exact .recvEof (.inl hpc)
          | failed errno =>
              obtain ⟨rfl, rfl⟩ := Prod.mk.inj (Option.some.inj hs)
              exact .recvFailed (.inl hpc)
          | data bs =>
              dsimp only [recvHeaderOnce] at hs
              by_cases hbs : 0 < bs.length ∧ bs.length ≤ (F.size - s.conn.bufTail).toNat
              · rw [if_pos hbs] at hs
                obtain ⟨rfl, rfl⟩ := Prod.mk.inj (Option.some.inj hs)
                exact .recvHeader hpc hbs.1 hbs.2 rfl
              · rw [if_neg hbs] at hs
                cases hs
      | recvBody =>
          rw [hpc] at hs
          cases res with
          | eof =>
              obtain ⟨rfl, rfl⟩ := Prod.mk.inj (Option.some.inj hs)
              exact .recvEof (.inr hpc)
          | failed errno =>
              obtain ⟨rfl, rfl⟩ := Prod.mk.inj (Option.some.inj hs)
              exact .recvFailed (.inr hpc)
          | data bs =>
              dsimp only [drainBodyOnce] at hs
              by_cases hbs : 0 < bs.length ∧ bs.length ≤ s.conn.bodyBytesLeft
              · rw [if_pos hbs] at hs
                obtain ⟨rfl, rfl⟩ := Prod.mk.inj (Option.some.inj hs)
                exact .recvBody hpc hbs.1 hbs.2 rfl rfl
              · rw [if_neg hbs] at hs
                cases hs
  | send res =>
      simp only [step] at hs
      cases hpc : s.pc with
      | idle | recvHeader | recvBody | aborted => rw [hpc] at hs; cases hs
      | send part =>
          rw [hpc] at hs
          cases res with
          | failed errno =>
              obtain ⟨rfl, rfl⟩ := Prod.mk.inj (Option.some.inj hs)
              exact .sendFailed hpc
          | sent n =>
              dsimp only [sendExactly] at hs
              by_cases h0 : n = 0
              · rw [if_pos h0] at hs
                obtain ⟨rfl, rfl⟩ := Prod.mk.inj (Option.some.inj hs)
                rw [h0]
                exact .sentNone hpc
              by_cases hn : n ≤ F.size - part
              · rw [if_neg h0, if_pos hn] at hs
                obtain ⟨rfl, rfl⟩ := Prod.mk.inj (Option.some.inj hs)
                exact .sent hpc (Nat.pos_of_ne_zero h0) hn rfl rfl
              · rw [if_neg h0, if_neg hn] at hs
                cases hs

/-! ### The buffer -/

namespace Conn

variable {c c' : Conn}

/-- The buffer, which has the fields that it has in the thread-pool server. -/
def buffer (c : Conn) : Pool.Reads.Conn := ⟨c.bufHead, c.bufTail, c.buf, .header, ⟨0, 0, [], 0, 0, 0⟩, 0⟩

/-- The bytes in the buffer. -/
def content (c : Conn) : List UInt8 := c.buffer.content

/-- The indices are in the buffer. -/
def Wf (c : Conn) : Prop := c.buffer.Wf

theorem Wf.availBytes_eq (h : c.Wf) : c.availBytes = c.content.length := h.bufferedBytes_eq

theorem Wf.received (h : c.Wf) {bs : List UInt8} (hbs : bs.length ≤ (bufSize - c.bufTail).toNat) :
    (c.received bs).Wf ∧ (c.received bs).content = c.content ++ bs :=
  Pool.Reads.Conn.Wf.received h hbs

/-- A header that is there is taken from the buffer. -/
theorem Wf.takeHeader (h : c.Wf) {F : Format} (hlen : c.content.length = F.size) :
    (c.takeHeader F).Wf ∧ (c.takeHeader F).content = [] ∧ (c.takeHeader F).header = c.content := by
  obtain ⟨hw, hc⟩ := h.skip (n := F.size) hlen.ge (c.takeHeader F).buffer rfl rfl rfl
  refine ⟨hw, ?_, ?_⟩
  · rw [content, hc]
    exact List.drop_eq_nil_of_le hlen.le
  · have hl := h.length_content
    rw [Conn.takeHeader, content, Pool.Reads.Conn.content, ← hlen, content, hl]
    rfl

/-- Unlike in the thread-pool server, zeros are written behind the bytes that were moved. -/
theorem Wf.compact (h : c.Wf) : c.compact.Wf ∧ c.compact.content = c.content ∧ c.compact.bufHead = 0 ∧
    c.compact.state = c.state := by
  have h₁ : 0 ≤ c.bufHead := h.head_nonneg
  have h₂ : c.bufHead ≤ c.bufTail := h.head_le
  have h₃ : c.bufTail ≤ bufSize := h.tail_le
  have hlen : c.content.length = (c.bufTail - c.bufHead).toNat := h.length_content
  have hbuf : c.buf.length = bufSize := h.length_buf
  unfold Conn.compact
  split_ifs with h0
  · exact ⟨h, rfl, h0, rfl⟩
  have hfit : 0 + c.content.length ≤ c.buf.length := by rw [hbuf]; omega
  have hstore : (store c.buf 0 c.content).length = bufSize := by rw [length_store hfit, hbuf]
  refine ⟨⟨le_rfl, ?_, ?_, ?_⟩, ?_, rfl, rfl⟩
  · change 0 ≤ c.bufTail - c.bufHead
    omega
  · change c.bufTail - c.bufHead ≤ bufSize
    omega
  · change (store (store c.buf 0 c.content) (c.bufTail - c.bufHead).toNat
      (List.replicate c.bufHead.toNat 0)).length = bufSize
    rw [length_store (by rw [hstore, List.length_replicate]; omega), hstore]
  · change ((store (store c.buf 0 c.content) (c.bufTail - c.bufHead).toNat
      (List.replicate c.bufHead.toNat 0)).drop 0).take (c.bufTail - c.bufHead - 0).toNat = c.content
    have hfront := take_drop_store (j := 0) le_rfl hfit
    rw [Nat.sub_self, Nat.zero_add, List.take_zero, List.nil_append, List.drop_zero] at hfront
    have hn : (c.bufTail - c.bufHead - 0).toNat = c.content.length := by omega
    have hle : c.content.length ≤ ((store c.buf 0 c.content).take c.content.length).length := by rw [hfront]
    rw [List.drop_zero, hn, ← hlen, store, List.append_assoc, List.take_append_of_le_length hle, List.take_take,
      Nat.min_self, hfront]

end Conn

/-! ### Requests -/

/-- A header and the body that it announces. -/
def Format.Request (F : Format) (r : List UInt8) : Prop := r.length = F.size + F.bodyLen r

/-- The assertions of the state machine hold for the request. -/
structure Format.Accepts (F : Format) (r : List UInt8) : Prop where
  request : F.Request r
  magic : Epoll.magic r = 0x80
  opcode : validOpcode (Epoll.opcode r) = true
  bodyLen_le : F.bodyLen r ≤ bufSize

/-- The fields of a header are those of the request. -/
theorem Format.take_size (F : Format) (r : List UInt8) : magic (r.take F.size) = magic r ∧
    opcode (r.take F.size) = opcode r ∧ F.bodyLen (r.take F.size) = F.bodyLen r := by
  have h := F.fits
  exact ⟨beAt_take (by omega), beAt_take (by omega), beAt_take (by omega)⟩

/-- The bytes received so far. -/
def receivedBytes (es : List Event) : List UInt8 :=
  es.flatMap (fun
    | .received bs => bs
    | _ => [])

/-- The headers of the requests processed so far. -/
def processed (es : List Event) : List (List UInt8) :=
  es.filterMap (fun
    | .processed header => some header
    | _ => none)

theorem receivedBytes_append (es e : List Event) :
    receivedBytes (es ++ e) = receivedBytes es ++ receivedBytes e := List.flatMap_append

theorem processed_append (es e : List Event) : processed (es ++ e) = processed es ++ processed e :=
  List.filterMap_append

/-! ### The invariant -/

/-- The part `cur` of the header lies in the buffer. -/
structure Heading (F : Format) (c : Conn) (cur : List UInt8) : Prop where
  state : c.state = .header
  cur_eq : cur = c.content
  short : c.content.length < F.size

/-- The header and a part of the body of the first of the requests `todo` were received, together `cur`. -/
structure Body (F : Format) (c : Conn) (todo : List (List UInt8)) (cur : List UInt8) : Prop where
  state : c.state = .extra
  empty : c.content = []
  pos : 0 < c.bodyBytesLeft
  next : ∃ r rest, todo = r :: rest ∧ c.header = r.take F.size ∧ cur <+: r ∧ F.size ≤ cur.length ∧
    cur.length + c.bodyBytesLeft = r.length

/-- Nothing was received behind the request that is answered. -/
structure Responding (c : Conn) (cur : List UInt8) : Prop where
  state : c.state = .response
  empty : c.content = []
  cur_eq : cur = []

/-- What the position of the call says about `cur`, the bytes received of the first of the requests `todo`. -/
inductive Here (F : Format) (c : Conn) (todo : List (List UInt8)) (cur : List UInt8) : Pc → Prop
  | header : Heading F c cur → Here F c todo cur .idle
  | recvHeader : Heading F c cur → c.bufHead = 0 → Here F c todo cur .recvHeader
  | body : Body F c todo cur → Here F c todo cur .idle
  | recvBody : Body F c todo cur → Here F c todo cur .recvBody
  | response : Responding c cur → Here F c todo cur .idle
  | send {part : ℕ} : Responding c cur → part < F.size → Here F c todo cur (.send part)

/-- The requests `done` were processed, and `cur` was received behind them. -/
structure At (F : Format) (requests : List (List UInt8)) (es : List Event) (c : Conn) (pc : Pc)
    (done todo : List (List UInt8)) (cur : List UInt8) : Prop where
  wf : c.Wf
  split : requests = done ++ todo
  received : receivedBytes es = done.flatten ++ cur
  processed : processed es = done.map (List.take F.size)
  here : Here F c todo cur pc

/-- The code runs to a position that agrees with the stream, or an assertion fails because of a request that is
not accepted. -/
def Lands (F : Format) (requests : List (List UInt8)) (es : List Event) (l : Conn × Pc × List Event) : Prop :=
  (∃ done todo cur, At F requests (es ++ l.2.2) l.1 l.2.1 done todo cur) ∨
    l.2 = (.aborted, []) ∧ ∃ r ∈ requests, ¬ F.Accepts r

section invariant

variable {F : Format} {requests done todo : List (List UInt8)} {es e : List Event} {c : Conn} {pc : Pc}
  {cur r bs : List UInt8} {s s' : State}

theorem lands_process (hw : c.Wf) (hc : c.content = []) (hsplit : requests = done ++ r :: todo)
    (hrecv : receivedBytes es = done.flatten ++ r) (hproc : processed es = done.map (List.take F.size))
    (hh : c.header = r.take F.size) : Lands F requests es (process F c) := by
  have hsize : 0 < F.size := by have := F.fits; omega
  refine .inl ⟨done ++ [r], todo, [], ⟨hw, by simp [hsplit], ?_, ?_, .send ⟨rfl, hc, rfl⟩ hsize⟩⟩
  · rw [receivedBytes_append, hrecv]
    simp [process, receivedBytes]
  · rw [processed_append, hproc]
    simp [process, processed, hh]

theorem lands_drainBody (hw : c.Wf) (hc : c.content = []) (hst : c.state = .extra)
    (hsplit : requests = done ++ r :: todo) (hr : F.Request r) (hrecv : receivedBytes es = done.flatten ++ cur)
    (hproc : processed es = done.map (List.take F.size)) (hh : c.header = r.take F.size) (hcur : cur <+: r)
    (hle : F.size ≤ cur.length) (hleft : cur.length + c.bodyBytesLeft = r.length) :
    Lands F requests es (drainBody F c) := by
  have hlen : r.length = F.size + F.bodyLen r := hr
  unfold drainBody
  split_ifs with h0 hbig
  · obtain rfl : cur = r := hcur.eq_of_length (by omega)
    exact lands_process hw hc hsplit hrecv hproc hh
  · refine .inr ⟨rfl, r, by rw [hsplit]; simp, fun hacc => ?_⟩
    have := hacc.bodyLen_le
    omega
  · exact .inl ⟨done, r :: todo, cur, ⟨hw, hsplit, by simpa using hrecv, by simpa using hproc,
      .recvBody ⟨hst, hc, Nat.pos_of_ne_zero h0, r, todo, rfl, hh, hcur, hle, hleft⟩⟩⟩

/-- What was received behind the requests that were processed belongs to the next ones. -/
theorem prefix_todo (hsplit : requests = done ++ todo) (hrecv : receivedBytes es = done.flatten ++ cur)
    (hp : receivedBytes es <+: requests.flatten) : cur <+: todo.flatten := by
  rw [hrecv, hsplit, List.flatten_append] at hp
  exact (List.prefix_append_right_inj _).mp hp

/-- A complete header is that of the next request. -/
theorem exists_next (hreq : ∀ r ∈ requests, F.Request r) (hsplit : requests = done ++ todo)
    (hcur : cur <+: todo.flatten) (hlen : cur.length = F.size) :
    ∃ r rest, todo = r :: rest ∧ F.Request r ∧ cur = r.take F.size := by
  have hsize := F.fits
  cases todo with
  | nil =>
      rw [List.flatten_nil, List.prefix_nil] at hcur
      rw [hcur, List.length_nil] at hlen
      omega
  | cons r rest =>
      have hr := hreq r (by rw [hsplit]; simp)
      have hrlen : r.length = F.size + F.bodyLen r := hr
      refine ⟨r, rest, rfl, hr, ?_⟩
      rw [List.flatten_cons, List.prefix_iff_eq_take, hlen, List.take_append_of_le_length (by omega)] at hcur
      exact hcur

theorem lands_headerRead (hreq : ∀ r ∈ requests, F.Request r) (hw : c.Wf) (hlen : c.content.length = F.size)
    (hsplit : requests = done ++ todo) (hrecv : receivedBytes es = done.flatten ++ c.content)
    (hproc : processed es = done.map (List.take F.size)) (hp : receivedBytes es <+: requests.flatten) :
    Lands F requests es (headerRead F (c.takeHeader F)) := by
  obtain ⟨r, rest, rfl, hr, hcur⟩ := exists_next hreq hsplit (prefix_todo hsplit hrecv hp) hlen
  obtain ⟨hw', hc', hh⟩ := hw.takeHeader hlen
  obtain ⟨hmagic, hop, hbody⟩ := F.take_size r
  have hrlen : r.length = F.size + F.bodyLen r := hr
  rw [hcur] at hh hrecv hlen
  unfold headerRead
  rw [hh, hmagic, hop, hbody]
  split_ifs with hbad
  · refine .inr ⟨rfl, r, by rw [hsplit]; simp, fun hacc => ?_⟩
    simp [hacc.magic, hacc.opcode] at hbad
  · refine lands_drainBody hw' hc' rfl hsplit hr hrecv hproc rfl (List.take_prefix _ _) hlen.ge ?_
    change (r.take F.size).length + F.bodyLen r = r.length
    omega

/-! ### Every step keeps the invariant -/

theorem lands_readHeader (h : At F requests es c pc done todo cur) (hhead : Heading F c cur) :
    Lands F requests es (readHeader F c) := by
  obtain ⟨hw, hc, h0, hst⟩ := h.wf.compact
  unfold readHeader
  rw [if_neg (not_lt.mpr F.size_le), h.wf.availBytes_eq, if_pos hhead.short]
  refine .inl ⟨done, todo, cur, ⟨hw, h.split, by simpa using h.received, by simpa using h.processed, ?_⟩⟩
  exact .recvHeader ⟨by rw [hst, hhead.state], by rw [hc, hhead.cur_eq], by rw [hc]; exact hhead.short⟩ h0

theorem lands_dispatch (hreq : ∀ r ∈ requests, F.Request r) (h : At F requests es c .idle done todo cur) :
    Lands F requests es (dispatch F c) := by
  have hhere := h.here
  unfold dispatch
  cases hhere with
  | header hhead =>
      rw [hhead.state]
      exact lands_readHeader h hhead
  | body hbody =>
      obtain ⟨r, rest, rfl, hh, hcur, hle, hleft⟩ := hbody.next
      have hr := hreq r (by rw [h.split]; simp)
      rw [hbody.state]
      exact lands_drainBody h.wf hbody.empty hbody.state h.split hr h.received h.processed hh hcur hle hleft
  | response hresp =>
      have hsize : 0 < F.size := by have := F.fits; omega
      rw [hresp.state]
      exact .inl ⟨done, todo, cur, ⟨h.wf, h.split, by simpa using h.received, by simpa using h.processed,
        .send hresp hsize⟩⟩

/-- The connection is open and agrees with the stream. -/
def Agrees (F : Format) (requests : List (List UInt8)) (s : State) (es : List Event) : Prop :=
  s.closed = false ∧ ∃ done todo cur, At F requests es s.conn s.pc done todo cur

/-- What was received before the last events. -/
theorem prefix_before {stream : List UInt8} (h : receivedBytes (es ++ e) <+: stream) :
    receivedBytes es <+: stream := by
  rw [receivedBytes_append] at h
  exact (List.prefix_append _ _).trans h

/-- The call returns where it stands. -/
theorem At.returns (h : At F requests es c pc done todo cur) : At F requests es c .idle done todo cur := by
  refine ⟨h.wf, h.split, h.received, h.processed, ?_⟩
  cases h.here with
  | header hhead => exact .header hhead
  | recvHeader hhead => exact .header hhead
  | body hbody => exact .body hbody
  | recvBody hbody => exact .body hbody
  | response hresp => exact .response hresp
  | send hresp => exact .response hresp

theorem received_snoc (es : List Event) (bs : List UInt8) :
    receivedBytes (es ++ [.received bs]) = receivedBytes es ++ bs ∧
      processed (es ++ [.received bs]) = processed es := by
  rw [receivedBytes_append, processed_append]
  simp [receivedBytes, processed]

theorem lands_recvHeader (hreq : ∀ r ∈ requests, F.Request r) (h : At F requests es c .recvHeader done todo cur)
    (hbs : bs.length ≤ (F.size - c.bufTail).toNat)
    (hp : receivedBytes (es ++ [.received bs]) <+: requests.flatten) :
    Lands F requests (es ++ [.received bs]) (if (c.received bs).availBytes < F.size then (c.received bs, .idle, [])
      else headerRead F ((c.received bs).takeHeader F)) := by
  obtain ⟨hrx, hpx⟩ := received_snoc es bs
  obtain ⟨⟨hst, rfl, hlt⟩, hhead⟩ : Heading F c cur ∧ c.bufHead = 0 := by
    cases h.here with
    | recvHeader hh h0 => exact ⟨hh, h0⟩
  have hsize := F.size_le
  have htail : c.bufHead ≤ c.bufTail := h.wf.head_le
  have hlen : c.content.length = (c.bufTail - c.bufHead).toNat := h.wf.length_content
  have hfit : bs.length ≤ (bufSize - c.bufTail).toNat := by omega
  obtain ⟨hw, hc⟩ := h.wf.received hfit
  have hrecv : receivedBytes (es ++ [.received bs]) = done.flatten ++ (c.received bs).content := by
    rw [hrx, h.received, hc, List.append_assoc]
  rw [hw.availBytes_eq]
  split_ifs with hshort
  · refine .inl ⟨done, todo, (c.received bs).content, ⟨hw, h.split, ?_, ?_, ?_⟩⟩
    · rw [List.append_nil]
      exact hrecv
    · rw [List.append_nil, hpx]
      exact h.processed
    · exact .header ⟨hst, rfl, hshort⟩
  · have hfull : (c.received bs).content.length = F.size := by
      have hle : c.content.length + bs.length ≤ F.size := by omega
      rw [hc, List.length_append] at hshort ⊢
      omega
    exact lands_headerRead hreq hw hfull h.split hrecv (by rw [hpx]; exact h.processed) hp

theorem lands_recvBody (h : At F requests es c .recvBody done todo cur) (hbs : bs.length ≤ c.bodyBytesLeft)
    (hp : receivedBytes (es ++ [.received bs]) <+: requests.flatten) :
    Lands F requests (es ++ [.received bs]) (if c.bodyBytesLeft - bs.length ≠ 0
      then ({ c with bodyBytesLeft := c.bodyBytesLeft - bs.length }, .idle, [])
      else process F { c with bodyBytesLeft := c.bodyBytesLeft - bs.length }) := by
  obtain ⟨hrx, hpx⟩ := received_snoc es bs
  obtain ⟨hst, hc, -, r, rest, rfl, hh, hcur, hle, hleft⟩ : Body F c todo cur := by
    cases h.here with
    | recvBody hb => exact hb
  have hrecv : receivedBytes (es ++ [.received bs]) = done.flatten ++ (cur ++ bs) := by
    rw [hrx, h.received, List.append_assoc]
  have hlen : (cur ++ bs).length = cur.length + bs.length := List.length_append
  have hcur' : cur ++ bs <+: r := by
    have htodo := prefix_todo h.split hrecv hp
    rw [List.flatten_cons] at htodo
    exact List.prefix_of_prefix_length_le htodo (List.prefix_append _ _) (by omega)
  split_ifs with h0
  · refine .inl ⟨done, r :: rest, cur ++ bs, ⟨h.wf, h.split, ?_, ?_, ?_⟩⟩
    · rw [List.append_nil]
      exact hrecv
    · rw [List.append_nil, hpx]
      exact h.processed
    · exact .body ⟨hst, hc, Nat.pos_of_ne_zero h0, r, rest, rfl, hh, hcur', by omega, by
        change (cur ++ bs).length + (c.bodyBytesLeft - bs.length) = r.length
        omega⟩
  · obtain hr : cur ++ bs = r := hcur'.eq_of_length (by omega)
    rw [hr] at hrecv
    exact lands_process (c := { c with bodyBytesLeft := c.bodyBytesLeft - bs.length }) h.wf hc h.split hrecv
      (by rw [hpx]; exact h.processed) hh

theorem lands_send {part n : ℕ} (h : At F requests es c (.send part) done todo cur)
    (hq : receivedBytes e = [] ∧ processed e = []) :
    let l := if part + n < F.size then (c, .send (part + n), []) else responseSent F c
    ∃ done todo cur, At F requests (es ++ e ++ l.2.2) l.1 l.2.1 done todo cur := by
  dsimp only
  obtain ⟨hst, hc, rfl⟩ : Responding c cur := by
    cases h.here with
    | send hr => exact hr
  have hrecv : receivedBytes (es ++ e ++ []) = done.flatten ++ [] := by
    rw [List.append_nil, receivedBytes_append, hq.1, List.append_nil]
    exact h.received
  have hproc : processed (es ++ e ++ []) = done.map (List.take F.size) := by
    rw [List.append_nil, processed_append, hq.2, List.append_nil]
    exact h.processed
  split_ifs with hlt
  · exact ⟨done, todo, [], ⟨h.wf, h.split, hrecv, hproc, .send ⟨hst, hc, rfl⟩ hlt⟩⟩
  · -- the buffer is empty: the call returns
    have hsize : 0 < F.size := by have := F.fits; omega
    have havail : ({ c with state := .header } : Conn).availBytes = 0 := by
      have : c.availBytes = 0 := by rw [h.wf.availBytes_eq, hc, List.length_nil]
      exact this
    unfold responseSent
    dsimp only
    rw [havail, if_neg (by omega)]
    refine ⟨done, todo, [], ⟨h.wf, h.split, hrecv, hproc, .header ⟨rfl, hc.symm, ?_⟩⟩⟩
    change c.content.length < F.size
    rw [hc]
    exact hsize

/-- The errors after which `handle_ret` keeps the connection. -/
def Errno.retries : Errno → Bool
  | .eagain | .ebadf => true
  | _ => false

/-- `recv` returns bytes and `send` takes some, or they fail in such a way. -/
def Smooth (_ : State) : Act → Prop
  | .call => True
  | .recv (.data _) => True
  | .recv .eof => False
  | .recv (.failed errno) => errno.retries = true
  | .send (.sent n) => 0 < n
  | .send (.failed errno) => errno.retries = true

/-- The connection is closed, or an assertion failed. -/
def State.Dead (s : State) : Prop := s.pc = .aborted ∨ s.closed = true ∧ s.pc = .idle

theorem State.Dead.step (h : s.Dead) (a : Act) : Epoll.step F s a = none := by
  rcases h with h | ⟨hc, h⟩ <;> cases a <;> simp [Epoll.step, h]
  exact hc

/-- `handle_ret` keeps the connection as it is, or it is the end. -/
theorem handleErr_cases (s : State) (errno : Errno) :
    (errno.retries = true ∧ handleErr s errno = { s with pc := .idle }) ∨
      (errno.retries = false ∧ (handleErr s errno).Dead) := by
  cases errno with
  | eagain | ebadf => exact .inl ⟨rfl, rfl⟩
  | epipe | econnreset => exact .inr ⟨rfl, .inr ⟨rfl, rfl⟩⟩
  | other => exact .inr ⟨rfl, .inl rfl⟩

/-- The events say nothing but that bytes were received. -/
def OnlyReceived (e : List Event) : Prop := ∀ x ∈ e, ∃ bs, x = .received bs

theorem OnlyReceived.processed (h : OnlyReceived e) : Epoll.processed e = [] := by
  refine List.filterMap_eq_nil_iff.mpr (fun x hx => ?_)
  obtain ⟨bs, rfl⟩ := h x hx
  rfl

/-- The connection has come to its end, because of a result of `recv` or `send` or of a request that is not
accepted. -/
def Ends (F : Format) (requests : List (List UInt8)) (s : State) (a : Act) (s' : State) (e : List Event) : Prop :=
  s'.Dead ∧ OnlyReceived e ∧ (Smooth s a → ∃ r ∈ requests, ¬ F.Accepts r)

theorem agrees_goes {l : Conn × Pc × List Event} {a : Act} (hc : s.closed = false)
    (h : Lands F requests (es ++ e) l) (he : l.2 = (.aborted, []) → OnlyReceived e) :
    Agrees F requests (goes s e l).1 (es ++ (goes s e l).2) ∨
      Ends F requests s a (goes s e l).1 (goes s e l).2 := by
  rcases h with hat | ⟨hl, hr⟩
  · refine .inl ⟨hc, ?_⟩
    simp only [goes, ← List.append_assoc]
    exact hat
  · refine .inr ⟨.inl (congrArg Prod.fst hl), ?_, fun _ => hr⟩
    simp only [goes, hl, List.append_nil]
    exact he hl

theorem onlyReceived_singleton (bs : List UInt8) : OnlyReceived [.received bs] := fun _ hx =>
  ⟨bs, List.mem_singleton.mp hx⟩

theorem onlyReceived_nil : OnlyReceived [] := nofun

/-- A failed system call ends the function, or the connection where the error does not pass. -/
theorem Agrees.handleErr {a : Act} {errno : Errno} (h : Agrees F requests s es)
    (hg : Smooth s a → errno.retries = true) :
    Agrees F requests (handleErr s errno) (es ++ []) ∨ Ends F requests s a (handleErr s errno) [] := by
  obtain ⟨hc, done, todo, cur, hat⟩ := h
  rcases handleErr_cases s errno with ⟨-, heq⟩ | ⟨hr, hdead⟩
  · rw [heq, List.append_nil]
    exact .inl ⟨hc, done, todo, cur, hat.returns⟩
  · refine .inr ⟨hdead, onlyReceived_nil, fun hsmooth => ?_⟩
    rw [hg hsmooth] at hr
    cases hr

/-- A step keeps the agreement with the stream, or it is the end of the connection. -/
theorem Agrees.step {a : Act} (hreq : ∀ r ∈ requests, F.Request r) (h : Agrees F requests s es)
    (hs : Step F s a s' e) (hp : receivedBytes (es ++ e) <+: requests.flatten) :
    Agrees F requests s' (es ++ e) ∨ Ends F requests s a s' e := by
  obtain ⟨hc, done, todo, cur, hat⟩ := id h
  cases hs with
  | call hpc =>
      rw [hpc] at hat
      exact agrees_goes hc (by rw [List.append_nil]; exact lands_dispatch hreq hat) (fun _ => onlyReceived_nil)
  | @recvHeader bs _ hpc _ hbs hl =>
      subst hl
      rw [hpc] at hat
      exact agrees_goes hc (lands_recvHeader hreq hat hbs (prefix_before (by rwa [List.append_assoc])))
        (fun _ => onlyReceived_singleton bs)
  | @recvBody bs _ _ hpc _ hbs hcb hl =>
      subst hcb hl
      rw [hpc] at hat
      exact agrees_goes hc (lands_recvBody hat hbs (prefix_before (by rwa [List.append_assoc])))
        (fun _ => onlyReceived_singleton bs)
  | @sent part n _ _ hpc _ _ he hl =>
      subst he hl
      rw [hpc] at hat
      obtain ⟨done', todo', cur', hat'⟩ := lands_send (n := n)
        (e := [.sent part ((s.conn.header.drop part).take n)]) hat ⟨rfl, rfl⟩
      refine .inl ⟨hc, done', todo', cur', ?_⟩
      simp only [goes, ← List.append_assoc]
      exact hat'
  | recvEof => exact .inr ⟨.inr ⟨rfl, rfl⟩, onlyReceived_nil, False.elim⟩
  | sentNone => exact .inr ⟨.inr ⟨rfl, rfl⟩, onlyReceived_nil, fun hg => absurd hg (lt_irrefl 0)⟩
  | recvFailed => exact h.handleErr id
  | sendFailed => exact h.handleErr id

/-! ### Runs -/

theorem agrees_init : Agrees F requests (State.init F) [] := by
  have hsize : 0 < F.size := by have := F.fits; omega
  have hwf : (State.init F).conn.Wf := ⟨le_rfl, le_rfl, Int.natCast_nonneg _, List.length_replicate⟩
  exact ⟨rfl, [], requests, [], ⟨hwf, rfl, rfl, rfl, .header ⟨rfl, rfl, hsize⟩⟩⟩

/-- **A connection agrees with its stream.**  While `recv` and `send` do not end it, and as long as the bytes
received are those of requests that are accepted, it stays open, no assertion fails, and the requests processed
are the first of the stream. -/
theorem agrees_of_reach (hvalid : ∀ r ∈ requests, F.Accepts r) (h : (driveMachine F).Reach Smooth s es)
    (hp : receivedBytes es <+: requests.flatten) : Agrees F requests s es := by
  refine h.invariant (P := fun s es => receivedBytes es <+: requests.flatten → Agrees F requests s es)
    (fun _ => agrees_init) (fun s es a s' e _ ih hg hs hp => ?_) hp
  have hreq : ∀ r ∈ requests, F.Request r := fun r hr => (hvalid r hr).request
  rcases (ih (prefix_before hp)).step hreq (step_cases hs) hp with hag | ⟨-, -, hbad⟩
  · exact hag
  · obtain ⟨r, hr, hna⟩ := hbad hg
    exact absurd (hvalid r hr) hna

/-- The requests processed are the first of the stream. -/
def Serves (F : Format) (requests : List (List UInt8)) (es : List Event) : Prop :=
  processed es <+: requests.map (List.take F.size)

theorem Agrees.serves (h : Agrees F requests s es) : Serves F requests es := by
  obtain ⟨-, done, todo, cur, hat⟩ := h
  rw [Serves, hat.processed, hat.split, List.map_append]
  exact List.prefix_append _ _

/-- Whatever `recv` and `send` return and whatever the requests are, those processed are the first of the
stream. -/
theorem serves_of_reach {G : State → Act → Prop} (hreq : ∀ r ∈ requests, F.Request r)
    (h : (driveMachine F).Reach G s es) (hp : receivedBytes es <+: requests.flatten) :
    Agrees F requests s es ∨ s.Dead ∧ Serves F requests es := by
  refine h.invariant (P := fun s es => receivedBytes es <+: requests.flatten → Agrees F requests s es ∨
    s.Dead ∧ Serves F requests es) (fun _ => .inl agrees_init) (fun s es a s' e _ ih _ hs hp => ?_) hp
  rcases ih (prefix_before hp) with hag | ⟨hdead, -⟩
  · refine (hag.step hreq (step_cases hs) hp).imp_right (fun ⟨hdead, he, _⟩ => ⟨hdead, ?_⟩)
    rw [Serves, processed_append, he.processed, List.append_nil]
    exact hag.serves
  · have hnone : (driveMachine F).step s a = none := hdead.step a
    rw [hnone] at hs
    cases hs

end invariant

end Rakaia.Epoll
