import Mathlib.Data.Int.Notation
import Rakaia.Lib.Chain
import Rakaia.Lib.Machine

/-! # The thread-pool server: memory

I/O threads wait on one epoll instance, read requests and put a job for each into a ring; workers take jobs,
process them, and push a completion onto the inbox of the connection, a stack without a lock.  Whoever gets
the flag `io_owned` of the connection moves the inbox to the list of responses and sends them; a thread that
does not get it leaves `io_pending` behind.  Completions go through one pointer, `resp_next`, from the inbox
to the list of responses and to the cache of their worker, from which it takes them again.

This module has the shared memory and the atomic operations on it; `Rakaia.Pool.Step` has the threads.

A connection is known by its address.  `calloc` may return the address of a connection that was freed, and
`free` leaves the record as it was.  Completions are never freed, so their addresses are numbers below a
counter.  `resp_next` is kept apart from the other fields of the completions.  The ring is a queue
(`Rakaia.Pool.Ring`). -/

namespace Rakaia.Pool

open Lib

/-! ### Records -/

/-- `struct conn` without the fields that only `process_conn_reads` uses, the entry of the connection in the
epoll instance, and three facts about its history. -/
structure Conn where
  /-- `fd` is not negative. -/
  fdOpen : Bool := false
  retired : Bool := false
  respHead : Option ℕ := none
  respTail : Option ℕ := none
  /-- An `int` in the source.  There are fewer than `2 ^ 31` references at any time: but for the one of
  `accept_new_connections`, each belongs to a job or a completion in memory. -/
  refcnt : ℤ := 0
  ioOwned : Bool := false
  ioPending : Bool := false
  closed : Bool := false
  epolloutArmed : Bool := false
  inbox : Option ℕ := none
  /-- The descriptor is in the epoll instance. -/
  registered : Bool := false
  /-- `EPOLLOUT` is in its mask. -/
  epollout : Bool := false
  /-- The memory is allocated. -/
  allocated : Bool := false
  /-- The reference of `accept_new_connections` was not dropped. -/
  acceptRef : Bool := false
deriving DecidableEq, Repr

/-- `struct pool_job`. -/
structure Job where
  conn : ℕ
  reqId : UInt32
deriving DecidableEq, Repr

/-- `struct pool_completion` without `resp_next`. -/
structure Completion where
  conn : ℕ := 0
  reqId : UInt32 := 0
  workerId : ℕ := 0
  response : List UInt8 := []
  sent : ℕ := 0
  /-- The reference to the connection was not dropped. -/
  referring : Bool := false
deriving DecidableEq, Repr

/-- The bytes of a `uint32_t`. -/
def idBytes (id : UInt32) : List UInt8 :=
  [id.toUInt8, (id >>> 8).toUInt8, (id >>> 16).toUInt8, (id >>> 24).toUInt8]

/-- The `bid_header_t` that `worker_thread_main` makes: `magic`, `opcode`, `id`, `key_len`, `extra_len`,
`data_type`, `status`, and `body_len`, `opaque` and `version`. -/
def responseBytes (id : UInt32) : List UInt8 :=
  [0x81, 0] ++ idBytes id ++ [0, 0, 0, 0, 0, 1] ++ List.replicate 16 0

/-- `sizeof(completion->response)`. -/
def responseLen : ℕ := 28

theorem length_responseBytes (id : UInt32) : (responseBytes id).length = responseLen := rfl

/-- The completion that `worker_thread_main` fills; it takes over the reference of the job. -/
def Completion.fill (w : ℕ) (j : Job) : Completion where
  conn := j.conn
  reqId := j.reqId
  workerId := w
  response := responseBytes j.reqId
  referring := true

/-- What `epoll_wait` reports: the listening socket, or a connection, with or without `EPOLLERR` or
`EPOLLHUP`. -/
inductive Ready where
  | listener
  | conn (c : ℕ) (hup : Bool)
deriving DecidableEq, Repr

/-- The shared memory, and the thread-local caches and arrays, with `nIo` I/O threads and `nW` workers. -/
structure Mem (nIo nW : ℕ) where
  conns : ℕ → Conn
  completions : ℕ → Completion
  respNext : ℕ → Option ℕ
  /-- The number of completions allocated so far. -/
  brk : ℕ
  completionCache : ℕ → Option ℕ
  localCompletionCache : Fin nW → Option ℕ
  jobRing : List Job
  /-- The events of an I/O thread that it has not come to. -/
  events : Fin nIo → List Ready
  /-- The list from `retired_head` on. -/
  retiredConns : Fin nIo → List ℕ

def Mem.init (nIo nW : ℕ) : Mem nIo nW where
  conns _ := {}
  completions _ := {}
  respNext _ := none
  brk := 0
  completionCache _ := none
  localCompletionCache _ := none
  jobRing := []
  events _ := []
  retiredConns _ := []

/-! ### Operations on a connection -/

namespace Conn

variable (k : Conn)

/-- `update_conn_events`. -/
def updateConnEvents (wantEpollout : Bool) : Conn :=
  if k.closed then k
  else if k.epolloutArmed = wantEpollout then k
  else if k.fdOpen then { k with epolloutArmed := wantEpollout, epollout := wantEpollout }
  else k

/-- `conn_release`. -/
def release : Conn :=
  { k with refcnt := k.refcnt - 1, allocated := if k.refcnt - 1 = 0 then false else k.allocated }

/-- A connection that `accept_new_connections` has set up. -/
def accepted : Conn := { fdOpen := true, refcnt := 1, registered := true, allocated := true, acceptRef := true }

end Conn

/-- The operations that change one connection and nothing else. -/
inductive ConnOp where
  | storePending (b : Bool)
  /-- `try_acquire_conn_io` succeeds. -/
  | acquire
  | releaseIo
  | updateEvents (wantEpollout : Bool)
  /-- `conn_retain`. -/
  | retain
  /-- `conn_release` in `release_retired_conns`. -/
  | dropAccept
  | storeClosed
  /-- `EPOLL_CTL_DEL` and `close`. -/
  | closeFd
deriving DecidableEq, Repr

def ConnOp.apply (k : Conn) : ConnOp → Conn
  | .storePending b => { k with ioPending := b }
  | .acquire => { k with ioOwned := true }
  | .releaseIo => { k with ioOwned := false }
  | .updateEvents wantEpollout => k.updateConnEvents wantEpollout
  | .retain => { k with refcnt := k.refcnt + 1 }
  | .dropAccept => { k.release with acceptRef := false }
  | .storeClosed => { k with closed := true }
  | .closeFd => { k with registered := false, epollout := false }

/-! ### Operations -/

/-- What one step of a thread does to the memory. -/
inductive Op (nIo nW : ℕ) where
  | nothing
  | conn (c : ℕ) (op : ConnOp)
  /-- The store of -1 into `fd`, and `retire_conn`. -/
  | storeFd (c : ℕ) (ctx : Option (Fin nIo))
  | accept (c : ℕ)
  | wait (i : Fin nIo) (events : List Ready)
  | nextEvent (i : Fin nIo)
  | takeRetired (i : Fin nIo)
  | enqueue (j : Job)
  | dequeue
  /-- The exchange of `alloc_completion`. -/
  | refill (w : Fin nW)
  /-- The first completion of the local cache is filled. -/
  | takeLocal (w : Fin nW) (a : ℕ) (j : Job)
  /-- A new completion is filled. -/
  | malloc (w : Fin nW) (j : Job)
  /-- A store to `resp_next`. -/
  | link (a : ℕ) (next : Option ℕ)
  | pushInbox (c a : ℕ)
  /-- The exchange of the inbox. -/
  | takeInbox (c : ℕ)
  | drainInbox (c : ℕ)
  /-- `send` takes `n` bytes, or none. -/
  | send (c a n : ℕ)
  | popResponse (c : ℕ)
  /-- A thread goes to the next completion of a stack it has taken. -/
  | takeNext
  /-- `conn_release` in `release_response`. -/
  | release (a : ℕ)
  | pushCache (a : ℕ)
deriving DecidableEq

inductive Event where
  | accepted (c : ℕ)
  | enqueued (j : Job)
  /-- A completion with this id is pushed onto the inbox. -/
  | pushed (c : ℕ) (reqId : UInt32)
  /-- `send` is called with these bytes and takes the first `n`. -/
  | send (c : ℕ) (bytes : List UInt8) (n : ℕ)
  /-- `close_conn` has set `closed`. -/
  | closed (c : ℕ)
deriving DecidableEq, Repr

section mem

variable {nIo nW : ℕ} (m : Mem nIo nW)

@[simp] def Mem.setConn (c : ℕ) (k : Conn) : Mem nIo nW := { m with conns := Function.update m.conns c k }

@[simp] def Mem.setCompletion (a : ℕ) (x : Completion) : Mem nIo nW :=
  { m with completions := Function.update m.completions a x }

@[simp] def Mem.setNext (a : ℕ) (next : Option ℕ) : Mem nIo nW :=
  { m with respNext := Function.update m.respNext a next }

/-- `drain_inbox`: the stack is reversed, and its completions are queued one after the other. -/
def Mem.drainInbox (c : ℕ) : Option (Mem nIo nW) :=
  let k := m.conns c
  match reverseLoop m.respNext m.brk k.inbox none with
  | none => none
  | some (next, reversed) =>
      match enqueueLoop next ⟨k.respHead, k.respTail⟩ m.brk reversed with
      | none => none
      | some (next, ends) =>
          some (({ m with respNext := next } : Mem nIo nW).setConn c
            { k with inbox := none, respHead := ends.head, respTail := ends.tail })

/-- The head of the list of responses is taken off. -/
def Mem.popResponse (c : ℕ) : Option (Mem nIo nW) :=
  let k := m.conns c
  match k.respHead with
  | none => none
  | some a =>
      let next := m.respNext a
      some (m.setConn c { k with respHead := next, respTail := if next.isNone then none else k.respTail })

/-- The store to `fd`, and `retire_conn` in an I/O thread. -/
def Mem.storeFd (c : ℕ) : Option (Fin nIo) → Mem nIo nW
  | none => m.setConn c { m.conns c with fdOpen := false }
  | some i =>
      if (m.conns c).retired then m.setConn c { m.conns c with fdOpen := false }
      else
        ({ m with retiredConns := Function.update m.retiredConns i (c :: m.retiredConns i) } : Mem nIo nW).setConn c
          { m.conns c with fdOpen := false, retired := true }

def Op.apply : Op nIo nW → Option (Mem nIo nW)
  | .nothing => some m
  | .conn c op => some (m.setConn c (op.apply (m.conns c)))
  | .storeFd c ctx => some (m.storeFd c ctx)
  | .accept c => some (m.setConn c .accepted)
  | .wait i events => some { m with events := Function.update m.events i events }
  | .nextEvent i => some { m with events := Function.update m.events i (m.events i).tail }
  | .takeRetired i => some { m with retiredConns := Function.update m.retiredConns i [] }
  | .enqueue j => some { m with jobRing := m.jobRing ++ [j] }
  | .dequeue => some { m with jobRing := m.jobRing.tail }
  | .refill w =>
      some { m with
        localCompletionCache := Function.update m.localCompletionCache w (m.completionCache w)
        completionCache := Function.update m.completionCache w none }
  | .takeLocal w a j =>
      some ((({ m with
        localCompletionCache := Function.update m.localCompletionCache w (m.respNext a) } : Mem nIo nW).setNext
          a none).setCompletion a (.fill w j))
  | .malloc w j =>
      some ((({ m with brk := m.brk + 1 } : Mem nIo nW).setNext m.brk none).setCompletion m.brk (.fill w j))
  | .link a next => some (m.setNext a next)
  | .pushInbox c a => some (m.setConn c { m.conns c with inbox := some a })
  | .takeInbox c => some (m.setConn c { m.conns c with inbox := none })
  | .drainInbox c => m.drainInbox c
  | .send _ a n => some (m.setCompletion a { m.completions a with sent := (m.completions a).sent + n })
  | .popResponse c => m.popResponse c
  | .takeNext => some m
  | .release a =>
      let x := m.completions a
      some ((m.setConn x.conn (m.conns x.conn).release).setCompletion a { x with referring := false })
  | .pushCache a =>
      some { m with
        completionCache := Function.update m.completionCache (m.completions a).workerId (some a) }

def Op.events : Op nIo nW → List Event
  | .accept c => [.accepted c]
  | .enqueue j => [.enqueued j]
  | .pushInbox c a => [.pushed c (m.completions a).reqId]
  | .send c a n => [.send c ((m.completions a).response.drop (m.completions a).sent) n]
  | .conn c .storeClosed => [.closed c]
  | _ => []

end mem

end Rakaia.Pool
