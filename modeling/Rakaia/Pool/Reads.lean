import Rakaia.Lib.Machine
import Rakaia.Lib.Scan
import Rakaia.Strp.Memcache

/-! # Reading requests in the thread-pool server

`process_conn_reads` reads from a socket that does not block.  It goes through the states `HEADER`,
`EXTRA`, `KEY` and `VALUE` of a request: the header is read through a buffer of 2048 bytes, the bytes behind it
are taken from the buffer as long as there are any and then received into a scratch area.  A job is enqueued
behind the last byte of each request.  `recv` may return any number of bytes, `EAGAIN` (and then the call
ends, sooner or later) or `EINTR`, at any time.

The bytes received so far are those of the requests enqueued, those of the current request that were taken
already, and those in the buffer (`Inv`).  The requests are the ones that the length rule of the kernel
module cuts off the stream (`requests_framed`).

Each call of `recv` and each round of a loop is one step. -/

namespace Rakaia.Pool.Reads

open Lib
open Strp.Memcache (headerLen requestLen rakaiaParseFunc)

/-! ### Headers -/

/-- `BUFSIZE`. -/
def bufSize : ℕ := 2048

/-- The size of `scratch`. -/
def scratchSize : ℕ := 2048

def cmdGet : ℕ := 0x00

def cmdGetk : ℕ := 0x0c

def cmdSet : ℕ := 0x01

/-- The fields of `bid_header_t` that the server reads; the lengths are in host order. -/
structure BidHeader where
  magic : ℕ
  opcode : ℕ
  /-- The id is not converted. -/
  id : List UInt8
  keyLen : ℕ
  extraLen : ℕ
  bodyLen : ℕ
deriving DecidableEq, Repr

def BidHeader.ofBytes (l : List UInt8) : BidHeader where
  magic := beAt l 0 1
  opcode := beAt l 1 1
  id := (l.drop 2).take 4
  keyLen := beAt l 6 2
  extraLen := beAt l 8 1
  bodyLen := beAt l 12 4

/-- `valid_opcode`. -/
def validOpcode (opcode : ℕ) : Bool := opcode == cmdSet || opcode == cmdGet || opcode == cmdGetk

/-- The first check of `process_conn_reads`. -/
def BidHeader.bad (hdr : BidHeader) : Bool := hdr.magic != 0x80 || !validOpcode hdr.opcode

/-- The check of a `SET`: its body does not hold the key and the extras. -/
def BidHeader.short (hdr : BidHeader) : Bool :=
  hdr.opcode == cmdSet && decide (hdr.bodyLen < hdr.keyLen + hdr.extraLen)

/-! ### The connection -/

/-- `enum conn_state`; `STATE_PROC` and `STATE_RESPONSE` are not used by this server. -/
inductive ConnState where
  | header | extra | key | value
deriving DecidableEq, Repr

/-- The fields of `struct conn` that reading uses. -/
structure Conn where
  bufHead : ℤ
  bufTail : ℤ
  buf : List UInt8
  state : ConnState
  header : BidHeader
  pendingBytes : ℕ

/-- The bytes `bs` are stored at index `i` of an array. -/
def store (buf : List UInt8) (i : ℕ) (bs : List UInt8) : List UInt8 :=
  buf.take i ++ bs ++ buf.drop (i + bs.length)

namespace Conn

variable (c : Conn)

/-- `buffered_bytes`: the difference as a `size_t`. -/
def bufferedBytes : ℕ := ((c.bufTail - c.bufHead) % 2 ^ 64).toNat

/-- `compact_buffer`. -/
def compactBuffer : Conn :=
  if c.bufHead = 0 then c
  else
    { c with
      buf := store c.buf 0 ((c.buf.drop c.bufHead.toNat).take c.bufferedBytes)
      bufHead := 0
      bufTail := c.bufferedBytes }

/-- The bytes `bs` are received behind the end of the buffered bytes. -/
def received (bs : List UInt8) : Conn :=
  { c with buf := store c.buf c.bufTail.toNat bs, bufTail := c.bufTail + bs.length }

/-- The end of `read_header`. -/
def takeHeader : Conn :=
  { c with
    header := .ofBytes ((c.buf.drop c.bufHead.toNat).take headerLen)
    bufHead := c.bufHead + headerLen }

/-- Bytes are taken from the buffer in `consume_pending_bytes`. -/
def takePending : Conn :=
  let take := min c.bufferedBytes c.pendingBytes
  { c with bufHead := c.bufHead + take, pendingBytes := c.pendingBytes - take }

end Conn

/-! ### Steps -/

/-- Where `process_conn_reads` stands; `queuedAny` is its local variable. -/
inductive Pc where
  /-- Not called, or returned. -/
  | idle
  /-- At the `switch`. -/
  | loop (queuedAny : Bool)
  /-- At the loop of `read_header`. -/
  | readHeader (queuedAny : Bool)
  /-- At the loop of `read_more_into_buffer`. -/
  | readMore (queuedAny readAny : Bool)
  /-- At the outer loop of `consume_pending_bytes`. -/
  | consume (queuedAny : Bool)
  /-- At its inner loop. -/
  | scratch (queuedAny : Bool)
deriving DecidableEq, Repr

structure State where
  conn : Conn
  closed : Bool
  pc : Pc

/-- What `recv` returns. -/
inductive RecvResult where
  | data (bs : List UInt8)
  | eof
  | again
  | intr
  | error
deriving DecidableEq, Repr

inductive Event where
  /-- Bytes are received. -/
  | received (bs : List UInt8)
  /-- `enqueue_job`. -/
  | enqueued (id : List UInt8)
  /-- `close_conn`. -/
  | closed
  | returned (queuedAny : Bool)
deriving DecidableEq, Repr

inductive Act where
  /-- `process_conn_reads` is called, on a connection that is open. -/
  | call
  /-- The next step, which is not a call of `recv`. -/
  | run
  /-- The next step, a call of `recv` with its result. -/
  | recv (r : RecvResult)
deriving DecidableEq, Repr

section step

variable (s : State)

def returns (queuedAny : Bool) : State × List Event := ({ s with pc := .idle }, [.returned queuedAny])

def closes : State × List Event := ({ s with closed := true, pc := .idle }, [.closed, .returned false])

def goes (conn : Conn) (pc : Pc) : State × List Event := ({ s with conn := conn, pc := pc }, [])

/-- `read_header`, and what follows it. -/
def readHeaderStep (queuedAny : Bool) : State × List Event :=
  if s.conn.bufferedBytes < headerLen then goes s s.conn.compactBuffer (.readMore queuedAny false)
  else
    let c := s.conn.takeHeader
    if c.header.bad then closes { s with conn := c }
    else goes s { c with pendingBytes := c.header.extraLen, state := .extra } (.loop queuedAny)

/-- What follows `consume_pending_bytes` when it has taken all pending bytes. -/
def consumed (queuedAny : Bool) : Option (State × List Event) :=
  let c := s.conn
  match c.state with
  | .header => none
  | .extra => some (goes s { c with pendingBytes := c.header.keyLen, state := .key } (.loop queuedAny))
  | .key =>
      if c.header.opcode = cmdSet then
        if c.header.short then some (closes s)
        else some (goes s { c with
          pendingBytes := c.header.bodyLen - c.header.keyLen - c.header.extraLen
          state := .value } (.loop queuedAny))
      else some (goes s { c with pendingBytes := 0, state := .value } (.loop queuedAny))
  | .value =>
      some ((goes s { c with state := .header, pendingBytes := 0 } (.loop true)).1, [.enqueued c.header.id])

/-- A step that is not a call of `recv`. -/
def runStep : Option (State × List Event) :=
  match s.pc with
  | .idle => none
  | .loop q => some (goes s s.conn (if s.conn.state = .header then .readHeader q else .consume q))
  | .readHeader q => some (readHeaderStep s q)
  | .readMore q _ => if s.conn.bufTail < bufSize then none else some (goes s s.conn (.readHeader q))
  | .consume q =>
      if 0 < s.conn.pendingBytes then
        if 0 < s.conn.bufferedBytes then some (goes s s.conn.takePending (.consume q))
        else some (goes s s.conn (.scratch q))
      else consumed s q
  | .scratch q => if 0 < s.conn.pendingBytes then none else some (goes s s.conn (.consume q))

/-- `recv` in `read_more_into_buffer`, and what follows its end. -/
def recvMore (queuedAny readAny : Bool) : RecvResult → Option (State × List Event)
  | .data bs =>
      if 0 < bs.length ∧ bs.length ≤ (bufSize - s.conn.bufTail).toNat then
        let c := s.conn.received bs
        some ((goes s c (if c.bufTail = bufSize then .readHeader queuedAny else .readMore queuedAny true)).1,
          [.received bs])
      else none
  | .eof | .error => some (closes s)
  | .intr => some (goes s s.conn (.readMore queuedAny readAny))
  | .again => some (if readAny then goes s s.conn (.readHeader queuedAny) else returns s queuedAny)

/-- `recv` in `consume_pending_bytes`. -/
def recvScratch (queuedAny : Bool) : RecvResult → Option (State × List Event)
  | .data bs =>
      let chunk := min s.conn.pendingBytes scratchSize
      if 0 < bs.length ∧ bs.length ≤ chunk then
        some ((goes s { s.conn with pendingBytes := s.conn.pendingBytes - bs.length }
          (if bs.length < chunk then .consume queuedAny else .scratch queuedAny)).1, [.received bs])
      else none
  | .eof | .error => some (closes s)
  | .intr => some (goes s s.conn (.scratch queuedAny))
  | .again => some (returns s queuedAny)

def recvStep (r : RecvResult) : Option (State × List Event) :=
  match s.pc with
  | .readMore q any => if s.conn.bufTail < bufSize then recvMore s q any r else none
  | .scratch q => if 0 < s.conn.pendingBytes then recvScratch s q r else none
  | _ => none

def step : Act → Option (State × List Event)
  | .call => if s.pc = .idle ∧ s.closed = false then some (goes s s.conn (.loop false)) else none
  | .run => runStep s
  | .recv r => recvStep s r

end step

/-- A connection that was just accepted: `calloc` and `STATE_HEADER`. -/
def State.init : State :=
  ⟨⟨0, 0, List.replicate bufSize 0, .header, ⟨0, 0, [], 0, 0, 0⟩, 0⟩, false, .idle⟩

def machine : Machine State Act Event := ⟨State.init, step⟩

/-! ### The buffer -/

namespace Conn

variable {c : Conn}

/-- The indices are in the buffer. -/
structure Wf (c : Conn) : Prop where
  head_nonneg : 0 ≤ c.bufHead
  head_le : c.bufHead ≤ c.bufTail
  tail_le : c.bufTail ≤ bufSize
  length_buf : c.buf.length = bufSize

/-- The buffered bytes. -/
def content (c : Conn) : List UInt8 := (c.buf.drop c.bufHead.toNat).take (c.bufTail - c.bufHead).toNat

theorem Wf.length_content (h : c.Wf) : c.content.length = (c.bufTail - c.bufHead).toNat := by
  have h₁ := h.head_nonneg
  have h₂ := h.head_le
  have h₃ := h.tail_le
  rw [content, List.length_take, List.length_drop, h.length_buf]
  omega

theorem Wf.bufferedBytes_eq (h : c.Wf) : c.bufferedBytes = c.content.length := by
  have h₂ := h.head_le
  have h₃ := h.tail_le
  have h₁ := h.head_nonneg
  have hsize : bufSize = 2048 := rfl
  rw [h.length_content, bufferedBytes]
  omega

theorem length_store {buf bs : List UInt8} {i : ℕ} (h : i + bs.length ≤ buf.length) :
    (store buf i bs).length = buf.length := by
  simp only [store, List.length_append, List.length_take, List.length_drop]
  omega

/-- The bytes up to the end of those that were stored. -/
theorem take_drop_store {buf bs : List UInt8} {i j : ℕ} (hj : j ≤ i) (h : i + bs.length ≤ buf.length) :
    ((store buf i bs).drop j).take (i - j + bs.length) = (buf.drop j).take (i - j) ++ bs := by
  have hlen : (buf.take i).length = i := by rw [List.length_take]; omega
  have hfront : ((buf.take i).drop j ++ bs).length = i - j + bs.length := by
    rw [List.length_append, List.length_drop, hlen]
  rw [store, List.append_assoc, List.drop_append_of_le_length (by omega), ← List.append_assoc,
    List.take_append_of_le_length hfront.ge, List.take_of_length_le hfront.le, List.drop_take]

theorem Wf.compactBuffer (h : c.Wf) : c.compactBuffer.Wf ∧ c.compactBuffer.content = c.content ∧
    c.compactBuffer.bufTail = c.content.length := by
  have hlen := h.length_content
  have h₁ := h.head_nonneg
  have h₂ := h.head_le
  have h₃ := h.tail_le
  unfold Conn.compactBuffer
  split_ifs with h0
  · exact ⟨h, rfl, by omega⟩
  · have hb := h.bufferedBytes_eq
    have hc : (c.buf.drop c.bufHead.toNat).take c.bufferedBytes = c.content := by
      rw [hb, hlen, content]
    rw [hc]
    have hfit : 0 + c.content.length ≤ c.buf.length := by rw [h.length_buf]; omega
    refine ⟨⟨le_rfl, by simp, by simp only [hb]; omega, ?_⟩, ?_, by simp only [hb]⟩
    · rw [length_store hfit, h.length_buf]
    · have hstore := take_drop_store (j := 0) le_rfl hfit
      rw [Nat.sub_self, Nat.zero_add, List.take_zero, List.nil_append] at hstore
      have hn : ((c.bufferedBytes : ℤ) - 0).toNat = c.content.length := by omega
      change ((store c.buf 0 c.content).drop 0).take ((c.bufferedBytes : ℤ) - 0).toNat = c.content
      rw [hn, hstore]

theorem Wf.received (h : c.Wf) {bs : List UInt8} (hbs : bs.length ≤ (bufSize - c.bufTail).toNat) :
    (c.received bs).Wf ∧ (c.received bs).content = c.content ++ bs := by
  have h₁ := h.head_nonneg
  have h₂ := h.head_le
  have h₃ := h.tail_le
  have hfit : c.bufTail.toNat + bs.length ≤ c.buf.length := by rw [h.length_buf]; omega
  refine ⟨⟨h₁, by simp only [Conn.received]; omega, by simp only [Conn.received]; omega, ?_⟩, ?_⟩
  · simp only [Conn.received, length_store hfit, h.length_buf]
  · have hstore := take_drop_store (j := c.bufHead.toNat) (by omega) hfit
    have hn : (c.bufTail + bs.length - c.bufHead).toNat = c.bufTail.toNat - c.bufHead.toNat + bs.length := by
      omega
    have hm : (c.bufTail - c.bufHead).toNat = c.bufTail.toNat - c.bufHead.toNat := by omega
    simp only [content, Conn.received, hn, hm]
    exact hstore

/-- Bytes are taken from the front of the buffer. -/
theorem Wf.skip (h : c.Wf) {n : ℕ} (hn : n ≤ c.content.length) (c' : Conn) (hbuf : c'.buf = c.buf)
    (hhead : c'.bufHead = c.bufHead + n) (htail : c'.bufTail = c.bufTail) :
    c'.Wf ∧ c'.content = c.content.drop n := by
  have h₁ := h.head_nonneg
  have h₂ := h.head_le
  have h₃ := h.tail_le
  rw [h.length_content] at hn
  refine ⟨⟨by omega, by omega, by omega, by rw [hbuf, h.length_buf]⟩, ?_⟩
  have htoNat : c'.bufHead.toNat = c.bufHead.toNat + n := by omega
  have hlen : (c'.bufTail - c'.bufHead).toNat = (c.bufTail - c.bufHead).toNat - n := by omega
  rw [content, htoNat, hlen, hbuf, content, List.drop_take, List.drop_drop]

end Conn

/-! ### The requests of a stream -/

/-- The length rule, with a header that was read already. -/
def BidHeader.len (hdr : BidHeader) : ℕ :=
  if hdr.opcode = cmdSet then headerLen + hdr.bodyLen else headerLen + hdr.keyLen + hdr.extraLen

theorem len_ofBytes (l : List UInt8) : (BidHeader.ofBytes l).len = requestLen l := rfl

/-- How a stream is cut into requests with a length rule.  A `SET` with a body that is too short is found out
behind its extras and its key. -/
def look (len : List UInt8 → ℕ) (l : List UInt8) : Look :=
  if l.length < headerLen then .wait
  else
    let hdr := BidHeader.ofBytes l
    if hdr.bad then .stop
    else if hdr.short then if l.length < headerLen + hdr.extraLen + hdr.keyLen then .wait else .stop
    else if l.length < len l then .wait
    else .take (len l)

theorem ofBytes_take (l : List UInt8) : BidHeader.ofBytes (l.take headerLen) = .ofBytes l := by
  have h : ∀ i n, i + n ≤ headerLen → beAt (l.take headerLen) i n = beAt l i n := fun i n => beAt_take
  have hid : ((l.take headerLen).drop 2).take 4 = (l.drop 2).take 4 := by
    rw [List.drop_take, List.take_take]
    rfl
  simp only [BidHeader.ofBytes, h 0 1 (by decide), h 1 1 (by decide), h 6 2 (by decide), h 8 1 (by decide),
    h 12 4 (by decide), hid]

/-- The header does not change when more bytes arrive. -/
theorem ofBytes_append {l : List UInt8} (h : headerLen ≤ l.length) (m : List UInt8) :
    BidHeader.ofBytes (l ++ m) = .ofBytes l := by
  rw [← ofBytes_take, List.take_append_of_le_length h, ofBytes_take]

theorem headerLen_le_len (hdr : BidHeader) : headerLen ≤ hdr.len := by
  unfold BidHeader.len
  split_ifs <;> omega

section look

variable {l : List UInt8}

theorem look_bad (h : headerLen ≤ l.length) (hb : (BidHeader.ofBytes l).bad = true) :
    look requestLen l = .stop := by
  simp only [look, if_neg (not_lt.mpr h), hb, if_true]

theorem look_short (h : headerLen ≤ l.length) (hb : (BidHeader.ofBytes l).bad = false)
    (hs : (BidHeader.ofBytes l).short = true) : look requestLen l =
      if l.length < headerLen + (BidHeader.ofBytes l).extraLen + (BidHeader.ofBytes l).keyLen then .wait
      else .stop := by
  simp only [look, if_neg (not_lt.mpr h), hb, hs, if_true, Bool.false_eq_true, if_false]

theorem look_good (h : headerLen ≤ l.length) (hb : (BidHeader.ofBytes l).bad = false)
    (hs : (BidHeader.ofBytes l).short = false) : look requestLen l =
      if l.length < (BidHeader.ofBytes l).len then .wait else .take (BidHeader.ofBytes l).len := by
  rw [len_ofBytes]
  simp only [look, if_neg (not_lt.mpr h), hb, hs, Bool.false_eq_true, if_false]

/-- What a look depends on. -/
theorem look_cases (l : List UInt8) :
    l.length < headerLen ∧ look requestLen l = .wait ∨
    headerLen ≤ l.length ∧ ((BidHeader.ofBytes l).bad = true ∨
      (BidHeader.ofBytes l).bad = false ∧ (BidHeader.ofBytes l).short = true ∨
      (BidHeader.ofBytes l).bad = false ∧ (BidHeader.ofBytes l).short = false) := by
  by_cases h : l.length < headerLen
  · exact .inl ⟨h, by simp only [look, if_pos h]⟩
  · refine .inr ⟨not_lt.mp h, ?_⟩
    cases (BidHeader.ofBytes l).bad <;> cases (BidHeader.ofBytes l).short <;> simp

theorem look_append_of_ne (h : look requestLen l ≠ .wait) (m : List UInt8) :
    look requestLen (l ++ m) = look requestLen l := by
  obtain ⟨-, hw⟩ | ⟨hle, hcases⟩ := look_cases l
  · exact absurd hw h
  have hle' : headerLen ≤ (l ++ m).length := by rw [List.length_append]; omega
  have hof := ofBytes_append hle m
  obtain hb | ⟨hb, hs⟩ | ⟨hb, hs⟩ := hcases
  · rw [look_bad hle hb, look_bad hle' (by rw [hof, hb])]
  · rw [look_short hle hb hs] at h ⊢
    rw [look_short hle' (by rw [hof, hb]) (by rw [hof, hs]), hof, List.length_append]
    by_cases hlt : l.length < headerLen + (BidHeader.ofBytes l).extraLen + (BidHeader.ofBytes l).keyLen
    · exact absurd (if_pos hlt) h
    · rw [if_neg hlt, if_neg (by omega)]
  · rw [look_good hle hb hs] at h ⊢
    rw [look_good hle' (by rw [hof, hb]) (by rw [hof, hs]), hof, List.length_append]
    by_cases hlt : l.length < (BidHeader.ofBytes l).len
    · exact absurd (if_pos hlt) h
    · rw [if_neg hlt, if_neg (by omega)]

theorem look_take {n : ℕ} (h : look requestLen l = .take n) : headerLen ≤ n ∧ n ≤ l.length := by
  obtain ⟨-, hw⟩ | ⟨hle, hb | ⟨hb, hs⟩ | ⟨hb, hs⟩⟩ := look_cases l
  · rw [hw] at h; cases h
  · rw [look_bad hle hb] at h; cases h
  · rw [look_short hle hb hs] at h
    split_ifs at h
  · rw [look_good hle hb hs] at h
    split_ifs at h with hlt
    obtain rfl := Look.take.inj h
    exact ⟨headerLen_le_len _, not_lt.mp hlt⟩

theorem steady_look : Steady (look requestLen) where
  take_pos l n h := lt_of_lt_of_le (by decide) (look_take h).1
  take_le l n h := (look_take h).2
  take_append l m n h := by rw [look_append_of_ne (by rw [h]; simp), h]
  stop_append l m h := by rw [look_append_of_ne (by rw [h]; simp), h]

end look

/-! ### The invariant -/

/-- The bytes received so far. -/
def receivedBytes (es : List Event) : List UInt8 :=
  es.flatMap (fun
    | .received bs => bs
    | _ => [])

/-- The ids of the jobs enqueued so far. -/
def jobs (es : List Event) : List (List UInt8) :=
  es.filterMap (fun
    | .enqueued id => some id
    | _ => none)

def ids (requests : List (List UInt8)) : List (List UInt8) := requests.map (fun r => (BidHeader.ofBytes r).id)

/-- The bytes `cur` of the current request were taken, and `total` bytes will have been when no bytes are
pending. -/
structure Taken (c : Conn) (cur : List UInt8) (total : ℕ) : Prop where
  header : headerLen ≤ cur.length
  eq : c.header = .ofBytes cur
  good : c.header.bad = false
  length : cur.length + c.pendingBytes = total

/-- What the state of the connection says about the bytes that were taken. -/
def Progress (c : Conn) (cur : List UInt8) : Prop :=
  match c.state with
  | .header => cur = []
  | .extra => Taken c cur (headerLen + c.header.extraLen)
  | .key => Taken c cur (headerLen + c.header.extraLen + c.header.keyLen)
  | .value => c.header.short = false ∧ Taken c cur c.header.len

/-- What holds where `process_conn_reads` stands. -/
def Here (c : Conn) (cur : List UInt8) : Pc → Prop
  | .idle => look requestLen (cur ++ c.content) = .wait
  | .loop _ => True
  | .readHeader _ => c.state = .header
  | .readMore _ readAny => c.state = .header ∧ c.bufTail < bufSize ∧
      (readAny = false → c.content.length < headerLen)
  | .consume _ => c.state ≠ .header
  | .scratch _ => c.state ≠ .header ∧ c.content = []

/-- The bytes received are the requests that were enqueued, the part of the current one that was taken, and
the buffer. -/
structure At (es : List Event) (c : Conn) (pc : Pc) (requests : List (List UInt8)) (cur : List UInt8) : Prop where
  scans : Scans (look requestLen) (receivedBytes es) requests (cur ++ c.content)
  jobs : jobs es = ids requests
  progress : Progress c cur
  here : Here c cur pc

/-- A closed connection has come to a bad request. -/
def Ended (es : List Event) : Prop :=
  ∃ requests rest, Scans (look requestLen) (receivedBytes es) requests rest ∧ jobs es = ids requests ∧
    look requestLen rest = .stop

structure Inv (s : State) (es : List Event) : Prop where
  wf : s.conn.Wf
  running : s.closed = false → ∃ requests cur, At es s.conn s.pc requests cur
  ended : s.closed = true → Ended es ∧ s.pc = .idle

section invariant

variable {s s' : State} {c c' : Conn} {es e : List Event} {pc pc' : Pc} {requests : List (List UInt8)}
  {cur : List UInt8}

theorem receivedBytes_append (es e : List Event) :
    receivedBytes (es ++ e) = receivedBytes es ++ receivedBytes e := List.flatMap_append

theorem jobs_append (es e : List Event) : Reads.jobs (es ++ e) = Reads.jobs es ++ Reads.jobs e :=
  List.filterMap_append

/-- Events that say nothing about bytes and jobs. -/
theorem quiet_append (es : List Event) (hr : receivedBytes e = []) (hj : Reads.jobs e = []) :
    receivedBytes (es ++ e) = receivedBytes es ∧ Reads.jobs (es ++ e) = Reads.jobs es := by
  rw [receivedBytes_append, jobs_append, hr, hj, List.append_nil, List.append_nil]
  exact ⟨rfl, rfl⟩

theorem Inv.of_running (hw : s.conn.Wf) (hc : s.closed = false) (ha : At es s.conn s.pc requests cur) :
    Inv s es where
  wf := hw
  running _ := ⟨requests, cur, ha⟩
  ended h := by rw [hc] at h; cases h

/-- More bytes of the current request are taken. -/
theorem Taken.more {total : ℕ} (h : Taken c cur total) {bs : List UInt8} (hh : c'.header = c.header)
    (hle : bs.length ≤ c.pendingBytes) (hp : c'.pendingBytes = c.pendingBytes - bs.length) :
    Taken c' (cur ++ bs) total where
  header := by rw [List.length_append]; exact h.header.trans (Nat.le_add_right _ _)
  eq := by rw [hh, h.eq, ofBytes_append h.header]
  good := by rw [hh, h.good]
  length := by
    have hl := h.length
    rw [List.length_append]
    omega

theorem Progress.more (h : Progress c cur) (hs : c.state ≠ .header) {bs : List UInt8} (hst : c'.state = c.state)
    (hh : c'.header = c.header) (hle : bs.length ≤ c.pendingBytes)
    (hp : c'.pendingBytes = c.pendingBytes - bs.length) : Progress c' (cur ++ bs) := by
  unfold Progress at h ⊢
  rw [hst, hh]
  cases hcs : c.state with
  | header => exact absurd hcs hs
  | extra | key => rw [hcs] at h; exact h.more hh hle hp
  | value => rw [hcs] at h; exact ⟨h.1, h.2.more hh hle hp⟩

theorem le_len_of_not_short {hdr : BidHeader} (h : hdr.short = false) :
    headerLen + hdr.extraLen + hdr.keyLen ≤ hdr.len := by
  simp only [BidHeader.short, Bool.and_eq_false_iff, beq_eq_false_iff_ne, decide_eq_false_iff_not] at h
  unfold BidHeader.len
  split_ifs with hset
  · have := h.resolve_left (fun hn => hn hset)
    omega
  · omega

/-- With bytes pending and none in the buffer, the request is not complete. -/
theorem Progress.look_wait (h : Progress c cur) (hs : c.state ≠ .header) (hp : 0 < c.pendingBytes) :
    look requestLen cur = .wait := by
  obtain ⟨total, ht, hle⟩ : ∃ total, Taken c cur total ∧ ((c.header.short = true →
      total ≤ headerLen + c.header.extraLen + c.header.keyLen) ∧
      (c.header.short = false → total ≤ c.header.len)) := by
    unfold Progress at h
    cases hcs : c.state with
    | header => exact absurd hcs hs
    | extra =>
        rw [hcs] at h
        exact ⟨_, h, fun _ => by omega, fun hn => by have := le_len_of_not_short hn; omega⟩
    | key => rw [hcs] at h; exact ⟨_, h, fun _ => le_rfl, le_len_of_not_short⟩
    | value =>
        rw [hcs] at h
        exact ⟨_, h.2, fun hn => (by rw [h.1] at hn; cases hn), fun _ => le_rfl⟩
  have hlen := ht.length
  have hb := ht.good
  rw [ht.eq] at hb hle
  cases hsh : (BidHeader.ofBytes cur).short with
  | true =>
      have := hle.1 hsh
      rw [look_short ht.header hb hsh, if_pos (by omega)]
  | false =>
      have := hle.2 hsh
      rw [look_good ht.header hb hsh, if_pos (by omega)]

/-! ### Every step keeps the invariant -/

theorem Inv.goes (hw : c.Wf) (hc : s.closed = false) (ha : At es c pc requests cur) :
    Inv (Reads.goes s c pc).1 (es ++ (Reads.goes s c pc).2) := by
  simp only [Reads.goes, List.append_nil]
  exact .of_running hw hc ha

/-- The bytes in the buffer stay as they are. -/
theorem At.move (h : At es c pc requests cur) (hcontent : c'.content = c.content) (hp : Progress c' cur)
    (hh : Here c' cur pc') : At es c' pc' requests cur :=
  ⟨by rw [hcontent]; exact h.scans, h.jobs, hp, hh⟩

/-- Bytes are taken from the buffer. -/
theorem At.take (h : At es c pc requests cur) {n : ℕ} (hcontent : c'.content = c.content.drop n)
    (hp : Progress c' (cur ++ c.content.take n)) (hh : Here c' (cur ++ c.content.take n) pc') :
    At es c' pc' requests (cur ++ c.content.take n) := by
  refine ⟨?_, h.jobs, hp, hh⟩
  rw [hcontent, List.append_assoc, List.take_append_drop]
  exact h.scans

theorem Inv.of_ended (hw : s.conn.Wf) (h : Ended es) :
    Inv (closes s).1 (es ++ (closes s).2) where
  wf := hw
  running hc := by cases hc
  ended _ := by
    obtain ⟨requests, rest, hs, hj, hl⟩ := h
    obtain ⟨hr', hj'⟩ := quiet_append (e := (closes s).2) es rfl rfl
    exact ⟨⟨requests, rest, by rw [hr']; exact hs, by rw [hj']; exact hj, hl⟩, rfl⟩

theorem Conn.takeHeader_spec (hw : c.Wf) (h : headerLen ≤ c.content.length) :
    c.takeHeader.Wf ∧ c.takeHeader.content = c.content.drop headerLen ∧
      c.takeHeader.header = .ofBytes (c.content.take headerLen) := by
  obtain ⟨hw', hc'⟩ := hw.skip h c.takeHeader rfl rfl rfl
  refine ⟨hw', hc', ?_⟩
  rw [hw.length_content] at h
  rw [Conn.takeHeader, Conn.content, List.take_take, min_eq_left h]

/-- `read_header` takes a header that is there, or makes room for more bytes. -/
theorem inv_readHeaderStep {q : Bool} (hw : s.conn.Wf) (hc : s.closed = false)
    (ha : At es s.conn (.readHeader q) requests cur) :
    Inv (readHeaderStep s q).1 (es ++ (readHeaderStep s q).2) := by
  have hst : s.conn.state = .header := ha.here
  have hcur : cur = [] := by
    have := ha.progress
    rwa [Progress, hst] at this
  subst hcur
  unfold readHeaderStep
  rw [hw.bufferedBytes_eq]
  split_ifs with hlt
  · obtain ⟨hw', hcontent, htail⟩ := hw.compactBuffer
    have hst' : s.conn.compactBuffer.state = .header := by
      unfold Conn.compactBuffer
      split_ifs <;> exact hst
    refine .goes hw' hc (ha.move hcontent (by rw [Progress, hst']) ⟨hst', ?_, ?_⟩)
    · have hsize : headerLen < bufSize := by decide
      rw [htail]
      omega
    · intro _
      rw [hcontent]
      exact hlt
  · have hle := not_lt.mp hlt
    obtain ⟨hw', hcontent, hhdr⟩ := Conn.takeHeader_spec hw hle
    have hof : s.conn.takeHeader.header = .ofBytes s.conn.content := by rw [hhdr, ofBytes_take]
    dsimp only
    split_ifs with hbad
    · refine .of_ended (s := { s with conn := s.conn.takeHeader }) hw' ⟨requests, _, ha.scans, ha.jobs, ?_⟩
      rw [hof] at hbad
      exact look_bad hle hbad
    · have hlen : (s.conn.content.take headerLen).length = headerLen := by rw [List.length_take]; omega
      have htaken : Taken { s.conn.takeHeader with
          pendingBytes := s.conn.takeHeader.header.extraLen, state := .extra } (s.conn.content.take headerLen)
          (headerLen + s.conn.takeHeader.header.extraLen) :=
        ⟨hlen.ge, hhdr, eq_false_of_ne_true hbad, by rw [hlen]⟩
      exact .goes ⟨hw'.head_nonneg, hw'.head_le, hw'.tail_le, hw'.length_buf⟩ hc
        (ha.take (n := headerLen) hcontent htaken trivial)

/-- Bytes that are pending are taken from the buffer. -/
theorem inv_takePending {q : Bool} (hw : s.conn.Wf) (hc : s.closed = false)
    (ha : At es s.conn (.consume q) requests cur) :
    Inv (goes s s.conn.takePending (.consume q)).1 (es ++ (goes s s.conn.takePending (.consume q)).2) := by
  obtain ⟨n, hn⟩ : ∃ n, min s.conn.bufferedBytes s.conn.pendingBytes = n := ⟨_, rfl⟩
  have hbuf := hw.bufferedBytes_eq
  have hlen : (s.conn.content.take n).length = n := by rw [List.length_take]; omega
  obtain ⟨hw', hcontent⟩ := hw.skip (n := n) (by omega) s.conn.takePending rfl
    (by rw [Conn.takePending, hn]) rfl
  refine .goes hw' hc (ha.take hcontent ?_ ha.here)
  exact ha.progress.more ha.here rfl rfl (by omega) (by rw [hlen, ← hn]; rfl)

/-- The end of a request, or of a part of it. -/
theorem inv_consumed {q : Bool} (hw : s.conn.Wf) (hc : s.closed = false)
    (ha : At es s.conn (.consume q) requests cur) (hp : s.conn.pendingBytes = 0)
    (hs : consumed s q = some (s', e)) : Inv s' (es ++ e) := by
  have hprog := ha.progress
  have hw' : ∀ (p : ℕ) (st : ConnState), ({ s.conn with pendingBytes := p, state := st } : Conn).Wf :=
    fun _ _ => ⟨hw.head_nonneg, hw.head_le, hw.tail_le, hw.length_buf⟩
  unfold Progress at hprog
  unfold consumed at hs
  dsimp only at hs
  cases hst : s.conn.state with
  | header => exact absurd hst ha.here
  | extra =>
      rw [hst] at hs hprog
      obtain ⟨rfl, rfl⟩ := Prod.mk.inj (Option.some.inj hs)
      have hlen := hprog.length
      refine .goes (hw' _ _) hc (ha.move rfl ?_ trivial)
      exact ⟨hprog.header, hprog.eq, hprog.good, by simp only; omega⟩
  | key =>
      rw [hst] at hs hprog
      have hlen := hprog.length
      dsimp only at hs
      split_ifs at hs with hset hshort
      · obtain ⟨rfl, rfl⟩ := Prod.mk.inj (Option.some.inj hs)
        have hle : headerLen ≤ (cur ++ s.conn.content).length := by
          have := hprog.header
          rw [List.length_append]
          omega
        have hof : BidHeader.ofBytes (cur ++ s.conn.content) = s.conn.header := by
          rw [ofBytes_append hprog.header, hprog.eq]
        refine .of_ended hw ⟨requests, _, ha.scans, ha.jobs, ?_⟩
        rw [look_short hle (by rw [hof, hprog.good]) (by rw [hof, hshort]), hof, List.length_append,
          if_neg (by omega)]
      · obtain ⟨rfl, rfl⟩ := Prod.mk.inj (Option.some.inj hs)
        have hns := eq_false_of_ne_true hshort
        have hle := le_len_of_not_short hns
        have htot : s.conn.header.len = headerLen + s.conn.header.bodyLen := if_pos hset
        refine .goes (hw' _ _) hc (ha.move rfl ⟨hns, hprog.header, hprog.eq, hprog.good, ?_⟩ trivial)
        simp only [htot] at hle ⊢
        omega
      · obtain ⟨rfl, rfl⟩ := Prod.mk.inj (Option.some.inj hs)
        have hns : s.conn.header.short = false := by simp [BidHeader.short, hset]
        have htot : s.conn.header.len = headerLen + s.conn.header.keyLen + s.conn.header.extraLen := if_neg hset
        refine .goes (hw' _ _) hc (ha.move rfl ⟨hns, hprog.header, hprog.eq, hprog.good, ?_⟩ trivial)
        simp only [htot]
        omega
  | value =>
      rw [hst] at hs hprog
      obtain ⟨hns, hprog⟩ := hprog
      obtain ⟨rfl, rfl⟩ := Prod.mk.inj (Option.some.inj hs)
      have hlen := hprog.length
      have hle : headerLen ≤ (cur ++ s.conn.content).length := by
        have := hprog.header
        rw [List.length_append]
        omega
      have hof : BidHeader.ofBytes (cur ++ s.conn.content) = s.conn.header := by
        rw [ofBytes_append hprog.header, hprog.eq]
      have hlook : look requestLen (cur ++ s.conn.content) = .take cur.length := by
        rw [look_good hle (by rw [hof, hprog.good]) (by rw [hof, hns]), hof, List.length_append,
          if_neg (by omega)]
        congr 1
        omega
      have hscan := ha.scans.snoc hlook
      rw [List.take_left, List.drop_left] at hscan
      have hat (h₁ h₂) : At (es ++ [.enqueued s.conn.header.id])
          { s.conn with state := .header, pendingBytes := 0 } (.loop true) (requests ++ [cur]) [] :=
        ⟨h₁, h₂, rfl, trivial⟩
      refine .of_running (hw' _ _) hc (hat ?_ ?_)
      · rw [receivedBytes_append]
        change Scans _ (receivedBytes es ++ []) _ s.conn.content
        rw [List.append_nil]
        exact hscan
      · rw [jobs_append, ha.jobs, ids, ids, List.map_append, hprog.eq]
        rfl

/-- Bytes arrive, in the buffer or in the scratch area. -/
theorem At.receive (h : At es c pc requests cur) {bs : List UInt8} (cur' : List UInt8)
    (hsplit : cur' ++ c'.content = cur ++ c.content ++ bs) (hp : Progress c' cur') (hh : Here c' cur' pc') :
    At (es ++ [.received bs]) c' pc' requests cur' := by
  refine ⟨?_, ?_, hp, hh⟩
  · rw [receivedBytes_append, hsplit]
    change Scans _ (receivedBytes es ++ (bs ++ [])) _ _
    rw [List.append_nil]
    exact h.scans.append steady_look bs
  · rw [jobs_append, h.jobs]
    exact List.append_nil _

theorem inv_returns {q : Bool} (hw : s.conn.Wf) (hc : s.closed = false)
    (ha : At es s.conn pc requests cur) (hl : look requestLen (cur ++ s.conn.content) = .wait) :
    Inv (returns s q).1 (es ++ (returns s q).2) := by
  obtain ⟨hr, hj⟩ := quiet_append (e := (returns s q).2) es rfl rfl
  exact .of_running hw hc ⟨by rw [hr]; exact ha.scans, by rw [hj]; exact ha.jobs, ha.progress, hl⟩

/-- `recv` failed, or found the end of the stream. -/
def RecvResult.fails : RecvResult → Bool
  | .eof | .error => true
  | _ => false

theorem inv_recvMore {q any : Bool} {r : RecvResult} (hw : s.conn.Wf) (hc : s.closed = false)
    (ha : At es s.conn (.readMore q any) requests cur) (hr : r.fails = false)
    (hs : recvMore s q any r = some (s', e)) : Inv s' (es ++ e) := by
  obtain ⟨hst, htail, hany⟩ := ha.here
  have hcur : cur = [] := by
    have := ha.progress
    rwa [Progress, hst] at this
  subst hcur
  cases r with
  | eof | error => cases hr
  | intr =>
      obtain ⟨rfl, rfl⟩ := Prod.mk.inj (Option.some.inj hs)
      exact .goes hw hc ha
  | again =>
      cases any with
      | true =>
          obtain ⟨rfl, rfl⟩ := Prod.mk.inj (Option.some.inj hs)
          exact .goes hw hc (ha.move rfl ha.progress hst)
      | false =>
          obtain ⟨rfl, rfl⟩ := Prod.mk.inj (Option.some.inj hs)
          refine inv_returns hw hc ha ?_
          rw [look, if_pos]
          simpa using hany rfl
  | data bs =>
      by_cases hbs : 0 < bs.length ∧ bs.length ≤ (bufSize - s.conn.bufTail).toNat
      swap
      · rw [recvMore, if_neg hbs] at hs
        cases hs
      rw [recvMore, if_pos hbs] at hs
      obtain ⟨rfl, rfl⟩ := Prod.mk.inj (Option.some.inj hs)
      obtain ⟨hw', hcontent⟩ := hw.received hbs.2
      have hst' : (s.conn.received bs).state = .header := hst
      refine .of_running (s := (goes s (s.conn.received bs) _).1) hw' hc
        (ha.receive [] (by simp only [goes, hcontent, List.nil_append]) ?_ ?_)
      · simp only [goes, Progress, hst']
      · have htail' := hw'.tail_le
        simp only [goes]
        split_ifs with hfull
        · exact hst
        · exact ⟨hst, by omega, by simp⟩

theorem inv_recvScratch {q : Bool} {r : RecvResult} (hw : s.conn.Wf) (hc : s.closed = false)
    (ha : At es s.conn (.scratch q) requests cur) (hp : 0 < s.conn.pendingBytes) (hr : r.fails = false)
    (hs : recvScratch s q r = some (s', e)) : Inv s' (es ++ e) := by
  obtain ⟨hst, hempty⟩ := ha.here
  cases r with
  | eof | error => cases hr
  | intr =>
      obtain ⟨rfl, rfl⟩ := Prod.mk.inj (Option.some.inj hs)
      exact .goes hw hc ha
  | again =>
      obtain ⟨rfl, rfl⟩ := Prod.mk.inj (Option.some.inj hs)
      refine inv_returns hw hc ha ?_
      rw [hempty, List.append_nil]
      exact ha.progress.look_wait hst hp
  | data bs =>
      by_cases hbs : 0 < bs.length ∧ bs.length ≤ min s.conn.pendingBytes scratchSize
      swap
      · rw [recvScratch, if_neg hbs] at hs
        cases hs
      rw [recvScratch, if_pos hbs] at hs
      obtain ⟨rfl, rfl⟩ := Prod.mk.inj (Option.some.inj hs)
      obtain ⟨c, hceq⟩ : ∃ c, ({ s.conn with pendingBytes := s.conn.pendingBytes - bs.length } : Conn) = c :=
        ⟨_, rfl⟩
      have hcontent : c.content = [] := by rw [← hceq]; exact hempty
      have hprog : Progress c (cur ++ bs) :=
        ha.progress.more hst (by rw [← hceq]) (by rw [← hceq]) (by omega) (by rw [← hceq])
      have hst' : c.state ≠ .header := by rw [← hceq]; exact hst
      have hw' : c.Wf := by
        rw [← hceq]
        exact ⟨hw.head_nonneg, hw.head_le, hw.tail_le, hw.length_buf⟩
      simp only [hceq, goes]
      refine .of_running hw' hc (ha.receive (cur ++ bs) ?_ hprog ?_)
      · simp only [hcontent, hempty, List.append_nil]
      · dsimp only
        split_ifs
        · exact hst'
        · exact ⟨hst', hcontent⟩

theorem inv_runStep (h : Inv s es) (hs : runStep s = some (s', e)) : Inv s' (es ++ e) := by
  have hw := h.wf
  have hc : s.closed = false := by
    by_contra hcl
    have hidle := (h.ended (eq_true_of_ne_false hcl)).2
    rw [runStep, hidle] at hs
    cases hs
  obtain ⟨requests, cur, ha⟩ := h.running hc
  unfold runStep at hs
  cases hpc : s.pc with
  | idle => rw [hpc] at hs; cases hs
  | loop q =>
      rw [hpc] at hs ha
      obtain ⟨rfl, rfl⟩ := Prod.mk.inj (Option.some.inj hs)
      refine .goes hw hc (ha.move rfl ha.progress ?_)
      split_ifs with hst
      · exact hst
      · exact hst
  | readHeader q =>
      rw [hpc] at hs ha
      obtain ⟨rfl, rfl⟩ := Prod.mk.inj (Option.some.inj hs)
      exact inv_readHeaderStep hw hc ha
  | readMore q any =>
      rw [hpc] at hs ha
      dsimp only at hs
      rw [if_pos ha.here.2.1] at hs
      cases hs
  | consume q =>
      rw [hpc] at hs ha
      dsimp only at hs
      split_ifs at hs with hp hb
      · obtain ⟨rfl, rfl⟩ := Prod.mk.inj (Option.some.inj hs)
        exact inv_takePending hw hc ha
      · obtain ⟨rfl, rfl⟩ := Prod.mk.inj (Option.some.inj hs)
        rw [hw.bufferedBytes_eq, Nat.pos_iff_ne_zero, not_not] at hb
        exact .goes hw hc (ha.move rfl ha.progress ⟨ha.here, List.length_eq_zero_iff.mp hb⟩)
      · exact inv_consumed hw hc ha (by omega) hs
  | scratch q =>
      rw [hpc] at hs ha
      dsimp only at hs
      split_ifs at hs with hp
      obtain ⟨rfl, rfl⟩ := Prod.mk.inj (Option.some.inj hs)
      exact .goes hw hc (ha.move rfl ha.progress ha.here.1)

/-- `recv` is called in `read_more_into_buffer` and in `consume_pending_bytes`, with room for a byte. -/
theorem recvStep_cases {r : RecvResult} (hs : recvStep s r = some (s', e)) :
    (∃ q any, s.pc = .readMore q any ∧ s.conn.bufTail < bufSize ∧ recvMore s q any r = some (s', e)) ∨
    ∃ q, s.pc = .scratch q ∧ 0 < s.conn.pendingBytes ∧ recvScratch s q r = some (s', e) := by
  unfold recvStep at hs
  cases hpc : s.pc with
  | idle | loop | readHeader | consume => rw [hpc] at hs; cases hs
  | readMore q any =>
      rw [hpc] at hs
      dsimp only at hs
      split_ifs at hs with htail
      exact .inl ⟨q, any, rfl, htail, hs⟩
  | scratch q =>
      rw [hpc] at hs
      dsimp only at hs
      split_ifs at hs with hp
      exact .inr ⟨q, rfl, hp, hs⟩

theorem inv_recvStep {r : RecvResult} (h : Inv s es) (hr : r.fails = false) (hs : recvStep s r = some (s', e)) :
    Inv s' (es ++ e) := by
  have hc : s.closed = false := by
    by_contra hcl
    have hidle := (h.ended (eq_true_of_ne_false hcl)).2
    rw [recvStep, hidle] at hs
    cases hs
  obtain ⟨requests, cur, ha⟩ := h.running hc
  rcases recvStep_cases hs with ⟨q, any, hpc, -, hs⟩ | ⟨q, hpc, hp, hs⟩
  · rw [hpc] at ha
    exact inv_recvMore h.wf hc ha hr hs
  · rw [hpc] at ha
    exact inv_recvScratch h.wf hc ha hp hr hs

/-- The stream does not end, and the socket does not fail. -/
def Healthy (_ : State) : Act → Prop
  | .recv r => r.fails = false
  | _ => True

instance (s : State) : DecidablePred (Healthy s)
  | .recv r => inferInstanceAs (Decidable (r.fails = false))
  | .call => isTrue trivial
  | .run => isTrue trivial

theorem Inv.step {a : Act} (h : Inv s es) (hg : Healthy s a) (hs : Reads.step s a = some (s', e)) :
    Inv s' (es ++ e) := by
  cases a with
  | call =>
      unfold Reads.step at hs
      dsimp only at hs
      split_ifs at hs with hcall
      obtain ⟨rfl, rfl⟩ := Prod.mk.inj (Option.some.inj hs)
      obtain ⟨requests, cur, ha⟩ := h.running hcall.2
      exact .goes h.wf hcall.2 (ha.move rfl ha.progress trivial)
  | run => exact inv_runStep h hs
  | recv r => exact inv_recvStep h hg hs

theorem inv_of_reach (h : machine.Reach Healthy s es) : Inv s es := by
  refine h.invariant (P := Inv) ?_ (fun s es a s' e _ ih hg hs => ih.step hg hs)
  have hat : At [] State.init.conn State.init.pc [] [] := ⟨.nil _, rfl, rfl, rfl⟩
  exact .of_running ⟨le_rfl, le_rfl, by decide, List.length_replicate⟩ rfl hat

/-! ### A call returns when no more bytes come -/

/-- The call goes on, with `EAGAIN` from every `recv`, until it returns. -/
inductive Drains : State → List Event → State → Prop
  | returned {s : State} : s.pc = .idle → Drains s [] s
  | step {s s₁ s₂ : State} {a : Act} {e₁ e₂ : List Event} : (a = .run ∨ a = .recv .again) →
      Reads.step s a = some (s₁, e₁) → Drains s₁ e₂ s₂ → Drains s (e₁ ++ e₂) s₂

def ConnState.rank : ConnState → ℕ
  | .header => 0
  | .value => 1
  | .key => 2
  | .extra => 3

/-- How far the call is from the next `recv` that ends it, if the buffer and the state stay as they are. -/
def Pc.rank (pending : Bool) : Pc → ℕ
  | .idle => 0
  | .loop _ => 7
  | .readMore _ true => 6
  | .readHeader _ => 5
  | .readMore _ false => 4
  | .consume _ => if pending then 3 else 1
  | .scratch _ => 2

def measure (c : Conn) (pc : Pc) : ℕ :=
  64 * c.content.length + 8 * c.state.rank + pc.rank (decide (0 < c.pendingBytes))

theorem le_measure (c : Conn) (pc : Pc) : 64 * c.content.length + 8 * c.state.rank ≤ measure c pc :=
  Nat.le_add_right _ _

theorem measure_consume_le (c : Conn) (q : Bool) :
    measure c (.consume q) ≤ 64 * c.content.length + 8 * c.state.rank + 3 := by
  unfold measure
  cases decide (0 < c.pendingBytes) <;> simp [Pc.rank]

theorem measure_consume_lt {q q' : Bool} (hc : c'.content = c.content) (hr : c'.state.rank < c.state.rank)
    (hp : ¬ 0 < c.pendingBytes) : measure c' (.loop q) < measure c (.consume q') := by
  simp only [measure, hc, hp, decide_false, Pc.rank, Bool.false_eq_true, if_false]
  omega

theorem consumed_progress {q : Bool} (hst : s.conn.state ≠ .header) (hp : ¬ 0 < s.conn.pendingBytes) :
    ∃ r, consumed s q = some r ∧
      (r.1.pc = .idle ∨ measure r.1.conn r.1.pc < measure s.conn (.consume q)) := by
  unfold consumed
  dsimp only
  cases hcs : s.conn.state with
  | header => exact absurd hcs hst
  | extra =>
      refine ⟨_, rfl, .inr (measure_consume_lt rfl ?_ hp)⟩
      rw [hcs]
      exact Nat.lt_succ_self 2
  | key =>
      dsimp only
      split_ifs
      · exact ⟨_, rfl, .inl rfl⟩
      · refine ⟨_, rfl, .inr (measure_consume_lt rfl ?_ hp)⟩
        rw [hcs]
        exact Nat.lt_succ_self 1
      · refine ⟨_, rfl, .inr (measure_consume_lt rfl ?_ hp)⟩
        rw [hcs]
        exact Nat.lt_succ_self 1
  | value =>
      refine ⟨_, rfl, .inr (measure_consume_lt rfl ?_ hp)⟩
      rw [hcs]
      exact Nat.lt_succ_self 0

theorem readHeaderStep_progress {q : Bool} (hw : s.conn.Wf) (hst : s.conn.state = .header) :
    (readHeaderStep s q).1.pc = .idle ∨
      measure (readHeaderStep s q).1.conn (readHeaderStep s q).1.pc < measure s.conn (.readHeader q) := by
  unfold readHeaderStep
  rw [hw.bufferedBytes_eq]
  split_ifs with hlt
  · obtain ⟨-, hcontent, -⟩ := hw.compactBuffer
    have hst' : s.conn.compactBuffer.state = s.conn.state := by
      unfold Conn.compactBuffer
      split_ifs <;> rfl
    refine .inr ?_
    simp only [goes, measure, hcontent, hst', Pc.rank]
    omega
  · obtain ⟨-, hcontent, -⟩ := Conn.takeHeader_spec hw (not_lt.mp hlt)
    dsimp only
    split_ifs
    · exact .inl rfl
    · refine .inr ?_
      have hlen : ({ s.conn.takeHeader with
          pendingBytes := s.conn.takeHeader.header.extraLen, state := .extra } : Conn).content.length =
          s.conn.content.length - headerLen := by
        change s.conn.takeHeader.content.length = _
        rw [hcontent, List.length_drop]
      have hpos : headerLen = 28 := rfl
      simp only [goes, measure, hlen, hst, ConnState.rank, Pc.rank]
      omega

/-- A call that has not returned goes on, and comes closer to its end when no bytes come. -/
theorem exists_step (h : Inv s es) (hpc : s.pc ≠ .idle) :
    ∃ a r, (a = Act.run ∨ a = .recv .again) ∧ Reads.step s a = some r ∧
      (r.1.pc = .idle ∨ measure r.1.conn r.1.pc < measure s.conn s.pc) := by
  have hw := h.wf
  have hc : s.closed = false := by
    by_contra hcl
    exact hpc (h.ended (eq_true_of_ne_false hcl)).2
  obtain ⟨requests, cur, ha⟩ := h.running hc
  cases hp : s.pc with
  | idle => exact absurd hp hpc
  | loop q =>
      refine ⟨.run, goes s s.conn (if s.conn.state = .header then .readHeader q else .consume q), .inl rfl,
        by simp only [Reads.step, runStep, hp], .inr ?_⟩
      have hle := measure_consume_le s.conn q
      have hloop : measure s.conn (.loop q) = 64 * s.conn.content.length + 8 * s.conn.state.rank + 7 := rfl
      simp only [goes]
      split_ifs
      · simp [measure, Pc.rank]
      · omega
  | readHeader q =>
      rw [hp] at ha
      exact ⟨.run, readHeaderStep s q, .inl rfl, by simp only [Reads.step, runStep, hp],
        readHeaderStep_progress hw ha.here⟩
  | readMore q any =>
      rw [hp] at ha
      refine ⟨.recv .again, if any then goes s s.conn (.readHeader q) else returns s q, .inr rfl,
        by simp only [Reads.step, recvStep, hp, if_pos ha.here.2.1, recvMore], ?_⟩
      cases any with
      | true =>
          refine .inr ?_
          simp [goes, measure, Pc.rank]
      | false => exact .inl rfl
  | consume q =>
      rw [hp] at ha
      by_cases hpend : 0 < s.conn.pendingBytes
      · by_cases hbuf : 0 < s.conn.bufferedBytes
        · refine ⟨.run, goes s s.conn.takePending (.consume q), .inl rfl,
            by simp only [Reads.step, runStep, hp, if_pos hpend, if_pos hbuf], .inr ?_⟩
          obtain ⟨-, hcontent⟩ := hw.skip (n := min s.conn.bufferedBytes s.conn.pendingBytes)
            (by rw [hw.bufferedBytes_eq]; exact min_le_left _ _) s.conn.takePending rfl rfl rfl
          have hst : s.conn.takePending.state = s.conn.state := rfl
          have hb := hw.bufferedBytes_eq
          have hnew := measure_consume_le s.conn.takePending q
          have hold := le_measure s.conn (.consume q)
          rw [hcontent, hst, List.length_drop] at hnew
          simp only [goes]
          omega
        · refine ⟨.run, goes s s.conn (.scratch q), .inl rfl,
            by simp only [Reads.step, runStep, hp, if_pos hpend, if_neg hbuf], .inr ?_⟩
          simp [goes, measure, hpend, Pc.rank]
      · obtain ⟨r, hr, hprog⟩ := consumed_progress (q := q) ha.here hpend
        exact ⟨.run, r, .inl rfl, by simp only [Reads.step, runStep, hp, if_neg hpend, hr], hprog⟩
  | scratch q =>
      by_cases hpend : 0 < s.conn.pendingBytes
      · exact ⟨.recv .again, returns s q, .inr rfl,
          by simp only [Reads.step, recvStep, hp, if_pos hpend, recvScratch], .inl rfl⟩
      · refine ⟨.run, goes s s.conn (.consume q), .inl rfl,
          by simp only [Reads.step, runStep, hp, if_neg hpend], .inr ?_⟩
        simp [goes, measure, hpend, Pc.rank]

theorem exists_drains (h : Inv s es) : ∃ s' e, Drains s e s' := by
  induction hn : measure s.conn s.pc using Nat.strong_induction_on generalizing s es with
  | _ n ih =>
      by_cases hpc : s.pc = .idle
      · exact ⟨s, [], .returned hpc⟩
      · obtain ⟨a, r, ha, hs, hidle | hlt⟩ := exists_step h hpc
        · exact ⟨r.1, r.2 ++ [], .step ha hs (.returned hidle)⟩
        · have hg : Healthy s a := by rcases ha with rfl | rfl <;> trivial
          obtain ⟨s', e', hd⟩ := ih _ (hn ▸ hlt) (h.step hg hs) rfl
          exact ⟨s', r.2 ++ e', .step ha hs hd⟩

/-! ### The main result -/

/-- The length that `rakaia_parse_func_strparser` returns for a request at the beginning of the bytes. -/
def kernelLen (l : List UInt8) : ℕ := (rakaiaParseFunc (.mk l.length 0 0 l [] []) 0).toInt.toNat

/-- The requests that the kernel module would cut off the stream, up to the first bad one, and whether there
is one. -/
def cutRequests (l : List UInt8) : List (List UInt8) × Bool := scan (look kernelLen) (l.length + 1) l

/-- No request has a body that makes its length overflow an `int`. -/
def Small (l : List UInt8) : Prop := ∀ requests rest, Scans (look kernelLen) l requests rest →
  headerLen ≤ rest.length → headerLen + (BidHeader.ofBytes rest).bodyLen < 2 ^ 31

theorem small_of_length_lt {l : List UInt8} (h : l.length < headerLen) : Small l := by
  intro requests rest hs hle
  cases hs with
  | nil => omega
  | cons hn =>
      rw [look, if_pos h] at hn
      cases hn

theorem small_of_take {l : List UInt8} {n : ℕ} (h : look kernelLen l = .take n)
    (hb : headerLen + (BidHeader.ofBytes l).bodyLen < 2 ^ 31) (hs : Small (l.drop n)) : Small l := by
  intro requests rest hscan hle
  cases hscan with
  | nil => exact hb
  | cons hn hscan =>
      obtain rfl := Look.take.inj (h.symm.trans hn)
      exact hs _ rest hscan hle

theorem kernelLen_eq {l : List UInt8} (h : headerLen ≤ l.length)
    (hs : headerLen + (BidHeader.ofBytes l).bodyLen < 2 ^ 31) : kernelLen l = requestLen l := by
  have hbytes : (SkBuff.mk l.length 0 0 l [] []).bytes = l := by simp [SkBuff.bytes, SkBuff.bytesOf]
  have hwf : (SkBuff.mk l.length 0 0 l [] []).Wf := ⟨by rw [hbytes]; rfl, .mk rfl (by simp) (by simp)⟩
  have hkey := beAt_lt l 6 2
  have hextra := beAt_lt l 8 1
  have hlt : requestLen l < 2 ^ 31 := by
    have hhdr : headerLen = 28 := rfl
    have hs : headerLen + beAt l 12 4 < 2 ^ 31 := hs
    unfold requestLen
    split_ifs <;> omega
  have hhdr : headerLen ≤ ((SkBuff.mk l.length 0 0 l [] []).bytes.drop 0).length := by rw [hbytes]; exact h
  have hfull := Strp.Memcache.rakaiaParseFunc_full hwf (Nat.zero_le _) hhdr (by rw [hbytes]; exact hlt)
  rw [hbytes, List.drop_zero] at hfull
  rw [kernelLen, hfull, Int.toNat_natCast]

theorem cutRequests_eq {l : List UInt8} (h : Small l) : cutRequests l = scan (look requestLen) (l.length + 1) l := by
  refine (scan_congr (fun requests rest hr => ?_) _).symm
  by_cases hle : headerLen ≤ rest.length
  · rw [look, look, kernelLen_eq hle (h requests rest hr hle)]
  · rw [look, look, if_pos (not_le.mp hle), if_pos (not_le.mp hle)]

/-- The requests read are those of the stream. -/
structure Framed (s : State) (es : List Event) : Prop where
  bounds : 0 ≤ s.conn.bufHead ∧ s.conn.bufHead ≤ s.conn.bufTail ∧ s.conn.bufTail ≤ bufSize
  /-- The jobs come in the order of the requests. -/
  inOrder : jobs es <+: ids (cutRequests (receivedBytes es)).1
  /-- When a call has returned, all complete requests were enqueued, and the connection is closed if and only
  if a bad one was received. -/
  atReturn : s.pc = .idle →
    jobs es = ids (cutRequests (receivedBytes es)).1 ∧ s.closed = (cutRequests (receivedBytes es)).2
  /-- A call returns if no more bytes come. -/
  returns : ∃ s' e, Drains s e s'

theorem At.jobs_le (ha : At es c pc requests cur) :
    Reads.jobs es <+: ids (scan (look requestLen) ((receivedBytes es).length + 1) (receivedBytes es)).1 := by
  obtain ⟨fuel, -, heq⟩ := ha.scans.scan_eq steady_look (Nat.lt_succ_self _)
  rw [heq, ha.jobs, ids, ids, List.map_append]
  exact List.prefix_append _ _

theorem At.jobs_eq (ha : At es c .idle requests cur) :
    scan (look requestLen) ((receivedBytes es).length + 1) (receivedBytes es) = (requests, false) := by
  obtain ⟨fuel, -, heq⟩ := ha.scans.scan_eq steady_look (Nat.lt_succ_self _)
  rw [heq, scan_of_wait ha.here, List.append_nil]

theorem Ended.jobs_eq (h : Ended es) :
    ∃ requests, scan (look requestLen) ((receivedBytes es).length + 1) (receivedBytes es) = (requests, true) ∧
      jobs es = ids requests := by
  obtain ⟨requests, rest, hs, hj, hl⟩ := h
  obtain ⟨fuel, hf, heq⟩ := hs.scan_eq steady_look (Nat.lt_succ_self _)
  rw [scan_of_stop hl (by omega), List.append_nil] at heq
  exact ⟨requests, heq, hj⟩

/-- **The pool server frames requests as the kernel module does.**  On a stream that does not end, however
`recv` returns it and however often `process_conn_reads` is called: the ids of the jobs enqueued are those of
the requests that the length rule of the kernel module cuts off the bytes received, up to the first bad
request; whenever a call has returned, every complete request was enqueued, and the connection is closed just
if a bad one was received; a call returns when no more bytes come; and the indices stay in the buffer. -/
theorem requests_framed (h : machine.Reach Healthy s es) (hsmall : Small (receivedBytes es)) : Framed s es := by
  have hinv := inv_of_reach h
  have hw := hinv.wf
  have hcut := cutRequests_eq hsmall
  refine ⟨⟨hw.head_nonneg, hw.head_le, hw.tail_le⟩, ?_, ?_, exists_drains hinv⟩
  · rw [hcut]
    cases hc : s.closed with
    | true =>
        obtain ⟨requests, heq, hj⟩ := (hinv.ended hc).1.jobs_eq
        rw [heq, hj]
    | false =>
        obtain ⟨requests, cur, ha⟩ := hinv.running hc
        exact ha.jobs_le
  · intro hpc
    rw [hcut]
    cases hc : s.closed with
    | true =>
        obtain ⟨requests, heq, hj⟩ := (hinv.ended hc).1.jobs_eq
        rw [heq]
        exact ⟨hj, rfl⟩
    | false =>
        obtain ⟨requests, cur, ha⟩ := hinv.running hc
        rw [hpc] at ha
        rw [ha.jobs_eq]
        exact ⟨ha.jobs, rfl⟩

/-- Two requests of 29 and 30 bytes in pieces of 10, 48 and 1 bytes, with `EAGAIN` behind each; the last one
ends in the scratch area. -/
def pieces : List Act :=
  let rx := Strp.Memcache.twoRequests.flatten
  [.call, .run, .run, .recv (.data (rx.take 10)), .recv .again, .run, .recv .again,
    .call, .run, .run, .recv (.data ((rx.drop 10).take 48)), .recv .again] ++ List.replicate 17 .run ++
  [.recv .again, .call, .run, .run, .recv (.data (rx.drop 58)), .run, .run, .run, .run, .recv .again]

/-- The second call enqueues the first request, the third the second one. -/
theorem requests_framed_pieces : ∃ s es, machine.Reach Healthy s es ∧ Small (receivedBytes es) ∧
    jobs es = [[0, 0, 0, 7], [0, 0, 0, 8]] ∧ s.pc = .idle ∧ s.closed = false ∧ Framed s es := by
  obtain ⟨s, es, hr, hy⟩ := Machine.Reach.of_exec (M := machine) (G := Healthy)
    (g := fun s a => decide (Healthy s a)) pieces (fun _ _ _ => of_decide_eq_true)
    (fun r => (receivedBytes r.2, jobs r.2, r.1.pc, r.1.closed))
    (Strp.Memcache.twoRequests.flatten, [[0, 0, 0, 7], [0, 0, 0, 8]], .idle, false) (by decide +kernel)
  simp only [Prod.mk.injEq] at hy
  obtain ⟨hrx, hjobs, hpc, hclosed⟩ := hy
  have hsmall : Small (receivedBytes es) := by
    rw [hrx]
    refine small_of_take (n := 29) (by decide +kernel) (by decide) ?_
    refine small_of_take (n := 30) (by decide +kernel) (by decide) ?_
    exact small_of_length_lt (by decide)
  exact ⟨s, es, hr, hsmall, hjobs, hpc, hclosed, requests_framed hr hsmall⟩

end invariant

end Rakaia.Pool.Reads
