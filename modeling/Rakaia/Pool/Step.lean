import Rakaia.Pool.State

/-! # The thread-pool server: threads

A thread makes one atomic operation on the shared memory in a step: a load, a store, an exchange or a
compare-and-exchange, a call of the kernel, or a walk over a list that no other thread can see.
`update_conn_events` is one step.  `epoll_wait` reports any connections in the epoll instance, each at most
once; `send` and the socket may do anything.  `process_conn_reads` is a loop that enqueues a job, returns, or
closes the connection (`Rakaia.Pool.Reads`).

`run` is the program of all threads: the operation that a thread at a position makes next and the position
behind it.  `Step` is `run` as a relation, with one case for each branch of the program. -/

namespace Rakaia.Pool

open Lib

/-! ### Positions -/

/-- An I/O thread or a worker. -/
abbrev Thread (nIo nW : ℕ) := Fin nIo ⊕ Fin nW

/-- Why a thread owns a connection: it is in `drive_owned_conn_until_idle`, in the first part of
`flush_owned_conn_from_worker`, or in the branch of `io_thread_main` for `EPOLLERR` and `EPOLLHUP`. -/
inductive Mode where
  | drive | flush | hup
deriving DecidableEq, Repr

/-- The loops that call `release_response`; `rest` is where the walk over a stack has come to. -/
inductive Loop where
  /-- The loop of `flush_conn_responses`. -/
  | flush (m : Mode) (c : ℕ)
  /-- The first loop of `discard_conn_responses`. -/
  | discard (m : Mode) (c : ℕ)
  /-- Its second loop. -/
  | inbox (m : Mode) (c : ℕ) (rest : Option ℕ)
  /-- The loop of `worker_thread_main`. -/
  | stale (rest : Option ℕ)
deriving DecidableEq, Repr

/-- Where `release_response` stands. -/
inductive FreeStep where
  | release
  | load
  | cas (head : Option ℕ)
deriving DecidableEq, Repr

/-- Where the owner of a connection stands, outside the loops. -/
inductive OwnPos where
  /-- At the store to `io_pending`. -/
  | clear
  /-- At `drain_inbox`. -/
  | drain
  /-- At `update_conn_events`, behind the loop of `flush_conn_responses`. -/
  | events (wantEpollout : Bool)
  /-- In `process_conn_reads`. -/
  | reads
  /-- In `enqueue_job`, behind `conn_retain`. -/
  | retained (reqId : UInt32)
  /-- At the exchange of `io_pending` in `drive_conn`. -/
  | again
  /-- At the load of `fd` in `close_conn`. -/
  | close
  | storeClosed
  | storeFd
  /-- At `release_conn_io`. -/
  | release
deriving DecidableEq, Repr

/-- The three stores of 1 to `io_pending`: in `io_thread_main`, in `schedule_conn_drive` and in
`worker_thread_main`. -/
inductive Signal where
  | hup | schedule | push
deriving DecidableEq, Repr

/-- The calls of `try_acquire_conn_io`: in `io_thread_main`, in `schedule_conn_drive`, in
`worker_thread_main`, and behind `release_conn_io`. -/
inductive Try where
  | hup | schedule | push
  | behind (m : Mode)
deriving DecidableEq, Repr

inductive Pos where
  /-- In `epoll_wait`, or in `job_ring_pop_wait`. -/
  | idle
  /-- At the head of the loop of `io_thread_main` over the events. -/
  | next
  /-- In the loop of `accept_new_connections`. -/
  | accepting
  /-- In the loop of `release_retired_conns`. -/
  | retiring (conns : List ℕ)
  | signal (k : Signal) (c : ℕ)
  | tryAcquire (k : Try) (c : ℕ)
  /-- In `alloc_completion`. -/
  | alloc (j : Job)
  /-- At the load of `inbox_push`. -/
  | pushLoad (j : Job) (a : ℕ)
  /-- At the compare-and-exchange of `inbox_push`. -/
  | pushCas (j : Job) (a : ℕ) (old : Option ℕ)
  /-- At the load of `closed` in `worker_thread_main`. -/
  | check (c : ℕ)
  /-- At the exchange of the inbox in `worker_thread_main`. -/
  | stale (c : ℕ)
  /-- At `update_conn_events`, without the ownership. -/
  | arm (c : ℕ)
  | own (m : Mode) (c : ℕ) (p : OwnPos)
  /-- At the exchange of `io_pending` behind `release_conn_io`. -/
  | after (m : Mode) (c : ℕ)
  /-- At the head of a loop that calls `release_response`. -/
  | loop (l : Loop)
  /-- In `release_response`. -/
  | free (l : Loop) (a : ℕ) (st : FreeStep)
deriving DecidableEq, Repr

/-- What the environment decides. -/
inductive SendResult where
  | sent (n : ℕ)
  | zero
  | intr
  | again
  | error
deriving DecidableEq, Repr

inductive Input where
  | go
  /-- `epoll_wait` returns. -/
  | wait (events : List Ready)
  /-- `accept` returns a socket, and `calloc` returns an address. -/
  | accept (c : ℕ)
  | noMore
  | send (r : SendResult)
  /-- A request is complete. -/
  | request (reqId : UInt32)
  | readsReturn
  | readsClose
deriving DecidableEq, Repr

structure State (nIo nW : ℕ) where
  mem : Mem nIo nW
  pos : Thread nIo nW → Pos

structure Act (nIo nW : ℕ) where
  t : Thread nIo nW
  inp : Input

/-! ### The program -/

section program

variable {nIo nW : ℕ}

/-- The end of an event, or of a job. -/
def finish : Thread nIo nW → Pos
  | .inl _ => .next
  | .inr _ => .idle

/-- What the thread does with the ownership. -/
def Try.owner (c : ℕ) : Try → Pos
  | .hup => .own .hup c .close
  | .schedule => .own .drive c .clear
  | .push => .own .flush c .clear
  | .behind _ => .own .drive c .clear

/-- What it does without. -/
def Try.loser (t : Thread nIo nW) (c : ℕ) : Try → Pos
  | .hup => .signal .hup c
  | .schedule => finish t
  | .push => .arm c
  | .behind .flush => .arm c
  | .behind _ => finish t

def Signal.target (t : Thread nIo nW) (c : ℕ) : Signal → Pos
  | .hup => finish t
  | .schedule => .tryAcquire .schedule c
  | .push => .tryAcquire .push c

/-- The argument `ctx`. -/
def Thread.ctx : Thread nIo nW → Option (Fin nIo)
  | .inl i => some i
  | .inr _ => none

variable (m : Mem nIo nW) (t : Thread nIo nW)

/-- The connections of a list of events. -/
def connsOf (events : List Ready) : List ℕ :=
  events.filterMap (fun | .listener => none | .conn c _ => some c)

/-- `io_thread_main`, `accept_new_connections` and `release_retired_conns`. -/
def runIo (i : Fin nIo) : Pos → Input → Option (Op nIo nW × Pos)
  | .idle, .wait events =>
      if (connsOf events).Nodup ∧ ∀ c ∈ connsOf events, (m.conns c).registered = true then
        some (.wait i events, .next)
      else none
  | .next, .go =>
      match m.events i with
      | [] => some (.takeRetired i, if 1 < nIo then .idle else .retiring (m.retiredConns i))
      | .listener :: _ => some (.nextEvent i, .accepting)
      | .conn c hup :: _ =>
          some (.nextEvent i,
            if (m.conns c).fdOpen = false then .next
            else if hup then .tryAcquire .hup c
            else .signal .schedule c)
  | .accepting, .accept c => if (m.conns c).allocated then none else some (.accept c, .accepting)
  | .accepting, .noMore => some (.nothing, .next)
  | .retiring [], .go => some (.nothing, .idle)
  | .retiring (c :: conns), .go => some (.conn c .dropAccept, .retiring conns)
  | _, _ => none

/-- `worker_thread_main`, `alloc_completion` and `inbox_push`. -/
def runWorker (w : Fin nW) : Pos → Option (Op nIo nW × Pos)
  | .idle =>
      match m.jobRing with
      | [] => none
      | j :: _ => some (.dequeue, .alloc j)
  | .alloc j =>
      match m.localCompletionCache w, m.completionCache w with
      | some a, _ => some (.takeLocal w a j, .pushLoad j a)
      | none, some _ => some (.refill w, .alloc j)
      | none, none => some (.malloc w j, .pushLoad j m.brk)
  | .pushLoad j a =>
      let old := (m.conns j.conn).inbox
      some (.link a old, .pushCas j a old)
  | .pushCas j a old =>
      if (m.conns j.conn).inbox = old then some (.pushInbox j.conn a, .check j.conn)
      else some (.nothing, .pushLoad j a)
  | .check c => some (.nothing, if (m.conns c).closed then .stale c else .signal .push c)
  | .stale c => some (.takeInbox c, .loop (.stale (m.conns c).inbox))
  | .arm c => some (.conn c (.updateEvents true), .idle)
  | _ => none

/-- `send`, and what follows its result. -/
def runSend (mode : Mode) (c a : ℕ) : SendResult → Option (Op nIo nW × Pos)
  | .sent n =>
      if 0 < n ∧ n ≤ responseLen - (m.completions a).sent ∧ (m.conns c).fdOpen = true then
        some (.send c a n, .loop (.flush mode c))
      else none
  | .zero => if (m.conns c).fdOpen then some (.send c a 0, .own mode c .close) else none
  | .intr => if (m.conns c).fdOpen then some (.send c a 0, .loop (.flush mode c)) else none
  | .again => if (m.conns c).fdOpen then some (.send c a 0, .own mode c (.events true)) else none
  | .error => some (.send c a 0, .own mode c .close)

/-- The loops of `flush_conn_responses`, `discard_conn_responses` and `worker_thread_main`. -/
def runLoop : Loop → Input → Option (Op nIo nW × Pos)
  | .flush mode c, inp =>
      match (m.conns c).respHead, inp with
      | none, .go => some (.nothing, .own mode c (.events false))
      | some a, .send r => if (m.completions a).sent < responseLen then runSend m mode c a r else none
      | some a, .go =>
          if (m.completions a).sent < responseLen then none
          else some (.popResponse c, .free (.flush mode c) a .release)
      | _, _ => none
  | .discard mode c, .go =>
      match (m.conns c).respHead with
      | some a => some (.popResponse c, .free (.discard mode c) a .release)
      | none => some (.takeInbox c, .loop (.inbox mode c (m.conns c).inbox))
  | .inbox mode c (some a), .go => some (.takeNext, .free (.inbox mode c (m.respNext a)) a .release)
  | .inbox mode c none, .go => some (.conn c .closeFd, .own mode c .storeFd)
  | .stale (some a), .go => some (.takeNext, .free (.stale (m.respNext a)) a .release)
  | .stale none, .go => some (.nothing, finish t)
  | _, _ => none

/-- `release_response` and `free_completion`. -/
def runFree (l : Loop) (a : ℕ) : FreeStep → Op nIo nW × Pos
  | .release => (.release a, .free l a .load)
  | .load =>
      let head := m.completionCache (m.completions a).workerId
      (.link a head, .free l a (.cas head))
  | .cas head =>
      if m.completionCache (m.completions a).workerId = head then (.pushCache a, .loop l)
      else (.nothing, .free l a .load)

/-- `drive_conn`, `drive_owned_conn_until_idle`, `flush_owned_conn_from_worker` and `close_conn`. -/
def runOwn (mode : Mode) (c : ℕ) : OwnPos → Input → Option (Op nIo nW × Pos)
  | .clear, .go => some (.conn c (.storePending false), .own mode c .drain)
  | .drain, .go => some (.drainInbox c, .loop (.flush mode c))
  | .events want, .go =>
      some (.conn c (.updateEvents want), .own mode c (if mode = .drive then .reads else .release))
  | .reads, .request reqId => some (.conn c .retain, .own mode c (.retained reqId))
  | .retained reqId, .go => some (.enqueue ⟨c, reqId⟩, .own mode c .reads)
  | .reads, .readsReturn => some (.nothing, .own mode c (if (m.conns c).fdOpen then .again else .release))
  | .reads, .readsClose => some (.nothing, .own mode c .close)
  | .again, .go =>
      some (.conn c (.storePending false), .own mode c (if (m.conns c).ioPending then .clear else .release))
  | .close, .go => some (.nothing, .own mode c (if (m.conns c).fdOpen then .storeClosed else .release))
  | .storeClosed, .go => some (.conn c .storeClosed, .loop (.discard mode c))
  | .storeFd, .go => some (.storeFd c t.ctx, .own mode c .release)
  | .release, .go => some (.conn c .releaseIo, if mode = .hup then finish t else .after mode c)
  | _, _ => none

/-- The next operation of a thread, and the position behind it. -/
def run : Pos → Input → Option (Op nIo nW × Pos)
  | .signal k c, .go => some (.conn c (.storePending true), k.target t c)
  | .tryAcquire k c, .go =>
      if (m.conns c).ioOwned then some (.nothing, k.loser t c) else some (.conn c .acquire, k.owner c)
  | .after mode c, .go =>
      some (.conn c (.storePending false),
        if (m.conns c).ioPending then .tryAcquire (.behind mode) c else finish t)
  | .own mode c p, inp => runOwn m t mode c p inp
  | .loop l, inp => runLoop m t l inp
  | .free l a st, .go => some (runFree m l a st)
  | p, inp =>
      match t, inp with
      | .inl i, _ => runIo m i p inp
      | .inr w, .go => runWorker m w p
      | _, _ => none

end program

/-! ### The branches of the program -/

section branches

variable {nIo nW : ℕ}

/-- The branches of the program: a thread, its position, the operation, and the position behind it. -/
inductive Step (m : Mem nIo nW) : Thread nIo nW → Pos → Op nIo nW → Pos → Prop
  | wait {i : Fin nIo} {events : List Ready} (hn : (connsOf events).Nodup)
      (hr : ∀ c ∈ connsOf events, (m.conns c).registered = true) :
      Step m (.inl i) .idle (.wait i events) .next
  | leak {i : Fin nIo} (h : m.events i = []) (hIo : 1 < nIo) : Step m (.inl i) .next (.takeRetired i) .idle
  | retire {i : Fin nIo} (h : m.events i = []) (hIo : ¬ 1 < nIo) :
      Step m (.inl i) .next (.takeRetired i) (.retiring (m.retiredConns i))
  | listener {i : Fin nIo} {rest : List Ready} (h : m.events i = .listener :: rest) :
      Step m (.inl i) .next (.nextEvent i) .accepting
  | skip {i : Fin nIo} {c : ℕ} {hup : Bool} {rest : List Ready} (h : m.events i = .conn c hup :: rest) :
      Step m (.inl i) .next (.nextEvent i) .next
  | hup {i : Fin nIo} {c : ℕ} {rest : List Ready} (h : m.events i = .conn c true :: rest) :
      Step m (.inl i) .next (.nextEvent i) (.tryAcquire .hup c)
  | ready {i : Fin nIo} {c : ℕ} {rest : List Ready} (h : m.events i = .conn c false :: rest) :
      Step m (.inl i) .next (.nextEvent i) (.signal .schedule c)
  | accept {i : Fin nIo} {c : ℕ} (h : (m.conns c).allocated = false) :
      Step m (.inl i) .accepting (.accept c) .accepting
  | noMore {i : Fin nIo} : Step m (.inl i) .accepting .nothing .next
  | retired {i : Fin nIo} : Step m (.inl i) (.retiring []) .nothing .idle
  | dropAccept {i : Fin nIo} {c : ℕ} {conns : List ℕ} :
      Step m (.inl i) (.retiring (c :: conns)) (.conn c .dropAccept) (.retiring conns)
  | dequeue {w : Fin nW} {j : Job} {rest : List Job} (h : m.jobRing = j :: rest) :
      Step m (.inr w) .idle .dequeue (.alloc j)
  | takeLocal {w : Fin nW} {j : Job} {a : ℕ} (h : m.localCompletionCache w = some a) :
      Step m (.inr w) (.alloc j) (.takeLocal w a j) (.pushLoad j a)
  | refill {w : Fin nW} {j : Job} (h : m.localCompletionCache w = none) :
      Step m (.inr w) (.alloc j) (.refill w) (.alloc j)
  | malloc {w : Fin nW} {j : Job} : Step m (.inr w) (.alloc j) (.malloc w j) (.pushLoad j m.brk)
  | pushLoad {w : Fin nW} {j : Job} {a : ℕ} :
      Step m (.inr w) (.pushLoad j a) (.link a (m.conns j.conn).inbox) (.pushCas j a (m.conns j.conn).inbox)
  | push {w : Fin nW} {j : Job} {a : ℕ} :
      Step m (.inr w) (.pushCas j a (m.conns j.conn).inbox) (.pushInbox j.conn a) (.check j.conn)
  | pushRetry {w : Fin nW} {j : Job} {a : ℕ} {old : Option ℕ} :
      Step m (.inr w) (.pushCas j a old) .nothing (.pushLoad j a)
  | checkClosed {w : Fin nW} {c : ℕ} (h : (m.conns c).closed = true) :
      Step m (.inr w) (.check c) .nothing (.stale c)
  | checkOpen {w : Fin nW} {c : ℕ} (h : (m.conns c).closed = false) :
      Step m (.inr w) (.check c) .nothing (.signal .push c)
  | stale {w : Fin nW} {c : ℕ} : Step m (.inr w) (.stale c) (.takeInbox c) (.loop (.stale (m.conns c).inbox))
  | arm {w : Fin nW} {c : ℕ} : Step m (.inr w) (.arm c) (.conn c (.updateEvents true)) .idle
  | signal {t : Thread nIo nW} {k : Signal} {c : ℕ} :
      Step m t (.signal k c) (.conn c (.storePending true)) (k.target t c)
  | acquire {t : Thread nIo nW} {k : Try} {c : ℕ} (h : (m.conns c).ioOwned = false) :
      Step m t (.tryAcquire k c) (.conn c .acquire) (k.owner c)
  | lose {t : Thread nIo nW} {k : Try} {c : ℕ} (h : (m.conns c).ioOwned = true) :
      Step m t (.tryAcquire k c) .nothing (k.loser t c)
  | afterPending {t : Thread nIo nW} {mode : Mode} {c : ℕ} (h : (m.conns c).ioPending = true) :
      Step m t (.after mode c) (.conn c (.storePending false)) (.tryAcquire (.behind mode) c)
  | afterIdle {t : Thread nIo nW} {mode : Mode} {c : ℕ} (h : (m.conns c).ioPending = false) :
      Step m t (.after mode c) (.conn c (.storePending false)) (finish t)
  | clear {t : Thread nIo nW} {mode : Mode} {c : ℕ} :
      Step m t (.own mode c .clear) (.conn c (.storePending false)) (.own mode c .drain)
  | drain {t : Thread nIo nW} {mode : Mode} {c : ℕ} :
      Step m t (.own mode c .drain) (.drainInbox c) (.loop (.flush mode c))
  | eventsDrive {t : Thread nIo nW} {c : ℕ} {want : Bool} :
      Step m t (.own .drive c (.events want)) (.conn c (.updateEvents want)) (.own .drive c .reads)
  | events {t : Thread nIo nW} {mode : Mode} {c : ℕ} {want : Bool} (h : mode ≠ .drive) :
      Step m t (.own mode c (.events want)) (.conn c (.updateEvents want)) (.own mode c .release)
  | request {t : Thread nIo nW} {mode : Mode} {c : ℕ} {reqId : UInt32} :
      Step m t (.own mode c .reads) (.conn c .retain) (.own mode c (.retained reqId))
  | enqueue {t : Thread nIo nW} {mode : Mode} {c : ℕ} {reqId : UInt32} :
      Step m t (.own mode c (.retained reqId)) (.enqueue ⟨c, reqId⟩) (.own mode c .reads)
  | readsOpen {t : Thread nIo nW} {mode : Mode} {c : ℕ} :
      Step m t (.own mode c .reads) .nothing (.own mode c .again)
  | readsClosed {t : Thread nIo nW} {mode : Mode} {c : ℕ} (h : (m.conns c).fdOpen = false) :
      Step m t (.own mode c .reads) .nothing (.own mode c .release)
  | readsClose {t : Thread nIo nW} {mode : Mode} {c : ℕ} :
      Step m t (.own mode c .reads) .nothing (.own mode c .close)
  | againPending {t : Thread nIo nW} {mode : Mode} {c : ℕ} (h : (m.conns c).ioPending = true) :
      Step m t (.own mode c .again) (.conn c (.storePending false)) (.own mode c .clear)
  | againIdle {t : Thread nIo nW} {mode : Mode} {c : ℕ} (h : (m.conns c).ioPending = false) :
      Step m t (.own mode c .again) (.conn c (.storePending false)) (.own mode c .release)
  | closeOpen {t : Thread nIo nW} {mode : Mode} {c : ℕ} (h : (m.conns c).fdOpen = true) :
      Step m t (.own mode c .close) .nothing (.own mode c .storeClosed)
  | closeDone {t : Thread nIo nW} {mode : Mode} {c : ℕ} (h : (m.conns c).fdOpen = false) :
      Step m t (.own mode c .close) .nothing (.own mode c .release)
  | storeClosed {t : Thread nIo nW} {mode : Mode} {c : ℕ} :
      Step m t (.own mode c .storeClosed) (.conn c .storeClosed) (.loop (.discard mode c))
  | storeFd {t : Thread nIo nW} {mode : Mode} {c : ℕ} :
      Step m t (.own mode c .storeFd) (.storeFd c t.ctx) (.own mode c .release)
  | releaseHup {t : Thread nIo nW} {c : ℕ} : Step m t (.own .hup c .release) (.conn c .releaseIo) (finish t)
  | release {t : Thread nIo nW} {mode : Mode} {c : ℕ} (h : mode ≠ .hup) :
      Step m t (.own mode c .release) (.conn c .releaseIo) (.after mode c)
  | flushDone {t : Thread nIo nW} {mode : Mode} {c : ℕ} (h : (m.conns c).respHead = none) :
      Step m t (.loop (.flush mode c)) .nothing (.own mode c (.events false))
  | sent {t : Thread nIo nW} {mode : Mode} {c a n : ℕ} (h : (m.conns c).respHead = some a) (hpos : 0 < n)
      (hle : n ≤ responseLen - (m.completions a).sent) (hfd : (m.conns c).fdOpen = true) :
      Step m t (.loop (.flush mode c)) (.send c a n) (.loop (.flush mode c))
  | sendRetry {t : Thread nIo nW} {mode : Mode} {c a : ℕ} (h : (m.conns c).respHead = some a)
      (hlt : (m.completions a).sent < responseLen) :
      Step m t (.loop (.flush mode c)) (.send c a 0) (.loop (.flush mode c))
  | sendAgain {t : Thread nIo nW} {mode : Mode} {c a : ℕ} (h : (m.conns c).respHead = some a)
      (hlt : (m.completions a).sent < responseLen) :
      Step m t (.loop (.flush mode c)) (.send c a 0) (.own mode c (.events true))
  | sendFails {t : Thread nIo nW} {mode : Mode} {c a : ℕ} (h : (m.conns c).respHead = some a)
      (hlt : (m.completions a).sent < responseLen) :
      Step m t (.loop (.flush mode c)) (.send c a 0) (.own mode c .close)
  | flushPop {t : Thread nIo nW} {mode : Mode} {c a : ℕ} (h : (m.conns c).respHead = some a)
      (hlt : ¬ (m.completions a).sent < responseLen) :
      Step m t (.loop (.flush mode c)) (.popResponse c) (.free (.flush mode c) a .release)
  | discardPop {t : Thread nIo nW} {mode : Mode} {c a : ℕ} (h : (m.conns c).respHead = some a) :
      Step m t (.loop (.discard mode c)) (.popResponse c) (.free (.discard mode c) a .release)
  | discardInbox {t : Thread nIo nW} {mode : Mode} {c : ℕ} (h : (m.conns c).respHead = none) :
      Step m t (.loop (.discard mode c)) (.takeInbox c) (.loop (.inbox mode c (m.conns c).inbox))
  | inboxNext {t : Thread nIo nW} {mode : Mode} {c a : ℕ} :
      Step m t (.loop (.inbox mode c (some a))) .takeNext (.free (.inbox mode c (m.respNext a)) a .release)
  | inboxEnd {t : Thread nIo nW} {mode : Mode} {c : ℕ} :
      Step m t (.loop (.inbox mode c none)) (.conn c .closeFd) (.own mode c .storeFd)
  | staleNext {t : Thread nIo nW} {a : ℕ} :
      Step m t (.loop (.stale (some a))) .takeNext (.free (.stale (m.respNext a)) a .release)
  | staleEnd {t : Thread nIo nW} : Step m t (.loop (.stale none)) .nothing (finish t)
  | freeRelease {t : Thread nIo nW} {l : Loop} {a : ℕ} :
      Step m t (.free l a .release) (.release a) (.free l a .load)
  | freeLoad {t : Thread nIo nW} {l : Loop} {a : ℕ} :
      Step m t (.free l a .load) (.link a (m.completionCache (m.completions a).workerId))
        (.free l a (.cas (m.completionCache (m.completions a).workerId)))
  | freeCas {t : Thread nIo nW} {l : Loop} {a : ℕ} :
      Step m t (.free l a (.cas (m.completionCache (m.completions a).workerId))) (.pushCache a) (.loop l)
  | freeRetry {t : Thread nIo nW} {l : Loop} {a : ℕ} {head : Option ℕ} :
      Step m t (.free l a (.cas head)) .nothing (.free l a .load)

variable {m : Mem nIo nW} {t : Thread nIo nW} {p p' : Pos} {op : Op nIo nW} {inp : Input}

theorem runIo_cases {i : Fin nIo} (h : runIo m i p inp = some (op, p')) : Step m (.inl i) p op p' := by
  unfold runIo at h
  split at h
  · split_ifs at h with hw
    obtain ⟨rfl, rfl⟩ := Prod.mk.inj (Option.some.inj h)
    exact .wait hw.1 hw.2
  · split at h <;> rename_i he
    · obtain ⟨rfl, rfl⟩ := Prod.mk.inj (Option.some.inj h)
      split_ifs with hIo
      · exact .leak he hIo
      · exact .retire he hIo
    · obtain ⟨rfl, rfl⟩ := Prod.mk.inj (Option.some.inj h)
      exact .listener he
    · rename_i c hup rest
      obtain ⟨rfl, rfl⟩ := Prod.mk.inj (Option.some.inj h)
      split_ifs with hfd hhup
      · exact .skip he
      · subst hhup
        exact .hup he
      · obtain rfl := eq_false_of_ne_true hhup
        exact .ready he
  · split_ifs at h with ha
    obtain ⟨rfl, rfl⟩ := Prod.mk.inj (Option.some.inj h)
    exact .accept (eq_false_of_ne_true ha)
  · obtain ⟨rfl, rfl⟩ := Prod.mk.inj (Option.some.inj h)
    exact .noMore
  · obtain ⟨rfl, rfl⟩ := Prod.mk.inj (Option.some.inj h)
    exact .retired
  · obtain ⟨rfl, rfl⟩ := Prod.mk.inj (Option.some.inj h)
    exact .dropAccept
  · cases h

theorem runWorker_cases {w : Fin nW} (h : runWorker m w p = some (op, p')) : Step m (.inr w) p op p' := by
  unfold runWorker at h
  split at h
  · split at h <;> rename_i hj
    · cases h
    · obtain ⟨rfl, rfl⟩ := Prod.mk.inj (Option.some.inj h)
      exact .dequeue hj
  · split at h
    · rename_i hl
      obtain ⟨rfl, rfl⟩ := Prod.mk.inj (Option.some.inj h)
      exact .takeLocal hl
    · rename_i hl _
      obtain ⟨rfl, rfl⟩ := Prod.mk.inj (Option.some.inj h)
      exact .refill hl
    · obtain ⟨rfl, rfl⟩ := Prod.mk.inj (Option.some.inj h)
      exact .malloc
  · obtain ⟨rfl, rfl⟩ := Prod.mk.inj (Option.some.inj h)
    exact .pushLoad
  · split_ifs at h with ho
    · obtain ⟨rfl, rfl⟩ := Prod.mk.inj (Option.some.inj h)
      subst ho
      exact .push
    · obtain ⟨rfl, rfl⟩ := Prod.mk.inj (Option.some.inj h)
      exact .pushRetry
  · obtain ⟨rfl, rfl⟩ := Prod.mk.inj (Option.some.inj h)
    split_ifs with hc
    · exact .checkClosed hc
    · exact .checkOpen (eq_false_of_ne_true hc)
  · obtain ⟨rfl, rfl⟩ := Prod.mk.inj (Option.some.inj h)
    exact .stale
  · obtain ⟨rfl, rfl⟩ := Prod.mk.inj (Option.some.inj h)
    exact .arm
  · cases h

theorem runSend_cases {mode : Mode} {c a : ℕ} {r : SendResult} (ha : (m.conns c).respHead = some a)
    (hlt : (m.completions a).sent < responseLen) (h : runSend m mode c a r = some (op, p')) :
    Step m t (.loop (.flush mode c)) op p' := by
  cases r with
  | sent n =>
      simp only [runSend] at h
      split_ifs at h with hn
      obtain ⟨rfl, rfl⟩ := Prod.mk.inj (Option.some.inj h)
      exact .sent ha hn.1 hn.2.1 hn.2.2
  | zero =>
      simp only [runSend] at h
      split_ifs at h
      obtain ⟨rfl, rfl⟩ := Prod.mk.inj (Option.some.inj h)
      exact .sendFails ha hlt
  | intr =>
      simp only [runSend] at h
      split_ifs at h
      obtain ⟨rfl, rfl⟩ := Prod.mk.inj (Option.some.inj h)
      exact .sendRetry ha hlt
  | again =>
      simp only [runSend] at h
      split_ifs at h
      obtain ⟨rfl, rfl⟩ := Prod.mk.inj (Option.some.inj h)
      exact .sendAgain ha hlt
  | error =>
      obtain ⟨rfl, rfl⟩ := Prod.mk.inj (Option.some.inj h)
      exact .sendFails ha hlt

theorem runLoop_cases {l : Loop} (h : runLoop m t l inp = some (op, p')) : Step m t (.loop l) op p' := by
  unfold runLoop at h
  split at h
  · split at h <;> rename_i hr
    · obtain ⟨rfl, rfl⟩ := Prod.mk.inj (Option.some.inj h)
      exact .flushDone hr
    · split_ifs at h with hlt
      exact runSend_cases hr hlt h
    · split_ifs at h with hlt
      obtain ⟨rfl, rfl⟩ := Prod.mk.inj (Option.some.inj h)
      exact .flushPop hr hlt
    · cases h
  · split at h <;> rename_i hr
    · obtain ⟨rfl, rfl⟩ := Prod.mk.inj (Option.some.inj h)
      exact .discardPop hr
    · obtain ⟨rfl, rfl⟩ := Prod.mk.inj (Option.some.inj h)
      exact .discardInbox hr
  · obtain ⟨rfl, rfl⟩ := Prod.mk.inj (Option.some.inj h)
    exact .inboxNext
  · obtain ⟨rfl, rfl⟩ := Prod.mk.inj (Option.some.inj h)
    exact .inboxEnd
  · obtain ⟨rfl, rfl⟩ := Prod.mk.inj (Option.some.inj h)
    exact .staleNext
  · obtain ⟨rfl, rfl⟩ := Prod.mk.inj (Option.some.inj h)
    exact .staleEnd
  · cases h

theorem runFree_cases (l : Loop) (a : ℕ) (st : FreeStep) :
    Step m t (.free l a st) (runFree m l a st).1 (runFree m l a st).2 := by
  cases st with
  | release => exact .freeRelease
  | load => exact .freeLoad
  | cas head =>
      simp only [runFree]
      split_ifs with hh
      · subst hh
        exact .freeCas
      · exact .freeRetry

theorem runOwn_cases {mode : Mode} {c : ℕ} {q : OwnPos} (h : runOwn m t mode c q inp = some (op, p')) :
    Step m t (.own mode c q) op p' := by
  cases q with
  | clear =>
      cases inp with
      | go => cases h; exact .clear
      | _ => cases h
  | drain =>
      cases inp with
      | go => cases h; exact .drain
      | _ => cases h
  | events want =>
      cases inp with
      | go =>
          obtain ⟨rfl, rfl⟩ := Prod.mk.inj (Option.some.inj h)
          split_ifs with hm
          · subst hm
            exact .eventsDrive
          · exact .events hm
      | _ => cases h
  | reads =>
      cases inp with
      | request reqId => cases h; exact .request
      | readsReturn =>
          obtain ⟨rfl, rfl⟩ := Prod.mk.inj (Option.some.inj h)
          split_ifs with hfd
          · exact .readsOpen
          · exact .readsClosed (eq_false_of_ne_true hfd)
      | readsClose => cases h; exact .readsClose
      | _ => cases h
  | retained reqId =>
      cases inp with
      | go => cases h; exact .enqueue
      | _ => cases h
  | again =>
      cases inp with
      | go =>
          obtain ⟨rfl, rfl⟩ := Prod.mk.inj (Option.some.inj h)
          split_ifs with hp
          · exact .againPending hp
          · exact .againIdle (eq_false_of_ne_true hp)
      | _ => cases h
  | close =>
      cases inp with
      | go =>
          obtain ⟨rfl, rfl⟩ := Prod.mk.inj (Option.some.inj h)
          split_ifs with hfd
          · exact .closeOpen hfd
          · exact .closeDone (eq_false_of_ne_true hfd)
      | _ => cases h
  | storeClosed =>
      cases inp with
      | go => cases h; exact .storeClosed
      | _ => cases h
  | storeFd =>
      cases inp with
      | go => cases h; exact .storeFd
      | _ => cases h
  | release =>
      cases inp with
      | go =>
          obtain ⟨rfl, rfl⟩ := Prod.mk.inj (Option.some.inj h)
          split_ifs with hm
          · subst hm
            exact .releaseHup
          · exact .release hm
      | _ => cases h

/-- Every operation that a thread makes is in one of the branches. -/
theorem run_cases (h : run m t p inp = some (op, p')) : Step m t p op p' := by
  unfold run at h
  split at h
  · obtain ⟨rfl, rfl⟩ := Prod.mk.inj (Option.some.inj h)
    exact .signal
  · split_ifs at h with ho
    · obtain ⟨rfl, rfl⟩ := Prod.mk.inj (Option.some.inj h)
      exact .lose ho
    · obtain ⟨rfl, rfl⟩ := Prod.mk.inj (Option.some.inj h)
      exact .acquire (eq_false_of_ne_true ho)
  · obtain ⟨rfl, rfl⟩ := Prod.mk.inj (Option.some.inj h)
    split_ifs with hp
    · exact .afterPending hp
    · exact .afterIdle (eq_false_of_ne_true hp)
  · exact runOwn_cases h
  · exact runLoop_cases h
  · have hf := Option.some.inj h
    have := runFree_cases (m := m) (t := t) ‹Loop› ‹ℕ› ‹FreeStep›
    rwa [hf] at this
  · split at h
    · exact runIo_cases h
    · exact runWorker_cases h
    · cases h

end branches

section machine

variable {nIo nW : ℕ}

def step (s : State nIo nW) (a : Act nIo nW) : Option (State nIo nW × List Event) :=
  match run s.mem a.t (s.pos a.t) a.inp with
  | none => none
  | some (op, p) =>
      (op.apply s.mem).map (fun m => (⟨m, Function.update s.pos a.t p⟩, op.events s.mem))

/-- A thread makes an operation and goes to a position. -/
structure Moves (s s' : State nIo nW) (t : Thread nIo nW) (op : Op nIo nW) (p : Pos) : Prop where
  step : Step s.mem t (s.pos t) op p
  mem : op.apply s.mem = some s'.mem
  pos : s'.pos = Function.update s.pos t p

theorem step_cases {s s' : State nIo nW} {a : Act nIo nW} {e : List Event} (h : step s a = some (s', e)) :
    ∃ op p, run s.mem a.t (s.pos a.t) a.inp = some (op, p) ∧ Moves s s' a.t op p ∧ e = op.events s.mem := by
  unfold step at h
  split at h <;> rename_i hr
  · cases h
  · obtain ⟨m, hm, heq⟩ := Option.map_eq_some_iff.mp h
    obtain ⟨rfl, rfl⟩ := Prod.mk.inj heq
    exact ⟨_, _, hr, ⟨run_cases hr, hm, rfl⟩, rfl⟩

variable {s s' : State nIo nW} {t u : Thread nIo nW} {op : Op nIo nW} {p : Pos}

theorem Moves.pos_self (h : Moves s s' t op p) : s'.pos t = p := by rw [h.pos, Function.update_self]

theorem Moves.pos_of_ne (h : Moves s s' t op p) (hu : u ≠ t) : s'.pos u = s.pos u := by
  rw [h.pos, Function.update_of_ne hu]

/-- What holds of the position of a thread, and not of the one that moves, still holds. -/
theorem Moves.keep {β : Type} (h : Moves s s' t op p) (f : Pos → β) {b : β} (hu : f (s.pos u) = b)
    (hne : f (s.pos t) ≠ b) : f (s'.pos u) = b := by
  have hut : u ≠ t := by
    rintro rfl
    exact hne hu
  rwa [h.pos_of_ne hut]

end machine

def State.init (nIo nW : ℕ) : State nIo nW := ⟨.init nIo nW, fun _ => .idle⟩

def machine (nIo nW : ℕ) : Machine (State nIo nW) (Act nIo nW) Event := ⟨State.init nIo nW, step⟩

end Rakaia.Pool
