import Mathlib.Logic.Function.Basic
import Rakaia.Lib.Machine
import Rakaia.Basic

/-! # The transmit path of one psock

Any number of threads send on one psock.  `rakaia_sendmsg` splices the segments of its message
onto `tx_wait_queue` under `tx_lock` and calls `try_send_from_psock`, which gives up when another
thread owns `tx_in_use`; the owner moves the queue to the TCP socket's `sk_write_queue`, section
by section, until it finds it empty.  The work item `tx_work` makes the same call; it is queued by
`psock_write_space` in the plain-tcp variant, and in the grpc variant, which does not install that
callback, by the functions that emit control frames.

The atomic steps are the sections under `tx_lock`, `atomic_cmpxchg`, `atomic_set`, and what the
owner does to `sk_write_queue` under the lock of the TCP socket (`lock_sock`). -/

namespace Rakaia.Tx

/-- A segment: `msg` numbers the splice that brought it, `seq` and `endSeq` are the fields of its
`tcp_skb_cb`.  Before it is moved, `seq` holds its byte count. -/
structure TxSkb where
  msg : ℕ
  seq : UInt32
  endSeq : UInt32
deriving DecidableEq, Repr

/-- Where a call of `try_send_from_psock` stands. -/
inductive Pc where
  /-- Not called, or returned. -/
  | idle
  /-- About to try `atomic_cmpxchg`. -/
  | call
  /-- Owns `tx_in_use`; about to take the lock of the TCP socket. -/
  | lockSock
  /-- About to enter a section under `tx_lock`. -/
  | loop
  /-- The queue is spliced behind the first `head` segments of `sk_write_queue`. -/
  | assign (head : ℕ)
  /-- About to call `tcp_push`. -/
  | push
  /-- The queue was found empty; about to reset `tx_in_use`. -/
  | clear
  /-- About to release the lock of the TCP socket. -/
  | release
deriving DecidableEq, Repr

/-- The state of a psock and its TCP socket, with the positions of the calls in progress. -/
structure State where
  txWaitQueue : List TxSkb
  txInUse : Bool
  /-- The thread that holds the lock of the TCP socket. -/
  sockLock : Option ℕ
  skWriteQueue : List TxSkb
  writeSeq : UInt32
  /-- `tx_work` is queued. -/
  workPending : Bool
  /-- The number of splices so far. -/
  nextMsg : ℕ
  pc : ℕ → Pc

def State.init (writeSeq : UInt32) : State where
  txWaitQueue := []
  txInUse := false
  sockLock := none
  skWriteQueue := []
  writeSeq := writeSeq
  workPending := false
  nextMsg := 0
  pc _ := .idle

/-- What happens to messages, for the history of a run. -/
inductive Event where
  /-- A message enters `tx_wait_queue` as segments of the given byte counts. -/
  | spliced (msg : ℕ) (lens : List UInt32)
  /-- Segments are appended to `sk_write_queue` and given their sequence numbers. -/
  | moved (skbs : List TxSkb)
deriving DecidableEq, Repr

/-- One step of one thread. -/
inductive Act where
  /-- The splice of `rakaia_sendmsg`. -/
  | splice (t : ℕ) (lens : List UInt32)
  /-- A control frame of `len` bytes is appended and `tx_work` is queued (`send_pingack`,
  `send_window_update`, `send_settings_ack`). -/
  | sendCtrl (len : UInt32)
  /-- `psock_write_space` queues `tx_work`. -/
  | writeSpace
  /-- `rakaia_tx_work` starts. -/
  | txWork (t : ℕ)
  /-- The next step of the call made by thread `t`; `tcp_push` takes `n` segments. -/
  | run (t : ℕ) (n : ℕ)
  /-- TCP takes `n` segments while no thread holds the lock of its socket. -/
  | xmit (n : ℕ)

namespace State

variable (s : State)

@[simp] def setPc (t : ℕ) (pc : Pc) : State := { s with pc := Function.update s.pc t pc }

/-- `skb_queue_splice_tail` onto `tx_wait_queue`, under `tx_lock`. -/
def append (lens : List UInt32) : State :=
  { s with txWaitQueue := s.txWaitQueue ++ lens.map (fun len => ⟨s.nextMsg, len, 0⟩)
           nextMsg := s.nextMsg + 1 }

end State

/-! ### The functions of the source -/

/-- The loop of `try_send_from_psock` over the moved segments: the advanced `write_seq` and the
segments with their sequence numbers. -/
def assignSeq (writeSeq : UInt32) : List TxSkb → UInt32 × List TxSkb
  | [] => (writeSeq, [])
  | skb :: rest =>
      let endSeq := writeSeq + skb.seq
      let r := assignSeq endSeq rest
      (r.1, { skb with seq := writeSeq, endSeq := endSeq } :: r.2)

/-- The next step of the call of `try_send_from_psock` made by thread `t`. -/
def trySendFromPsock (s : State) (t n : ℕ) : Option (State × List Event) :=
  match s.pc t with
  | .idle => none
  | .call =>
      if s.txInUse then some (s.setPc t .idle, [])
      else some (({ s with txInUse := true } : State).setPc t .lockSock, [])
  | .lockSock =>
      if s.sockLock = none then some (({ s with sockLock := some t } : State).setPc t .loop, [])
      else none
  | .loop =>
      if s.txWaitQueue = [] then some (s.setPc t .clear, [])
      else some (({ s with txWaitQueue := []
                           skWriteQueue := s.skWriteQueue ++ s.txWaitQueue } : State).setPc t
        (.assign s.skWriteQueue.length), [])
  | .assign head =>
      let r := assignSeq s.writeSeq (s.skWriteQueue.drop head)
      some (({ s with writeSeq := r.1
                      skWriteQueue := s.skWriteQueue.take head ++ r.2 } : State).setPc t .push,
        [.moved r.2])
  | .push => some (({ s with skWriteQueue := s.skWriteQueue.drop n } : State).setPc t .loop, [])
  | .clear => some (({ s with txInUse := false } : State).setPc t .release, [])
  | .release => some (({ s with sockLock := none } : State).setPc t .idle, [])

/-- One step of the transmit path. -/
def step (v : Variant) (s : State) : Act → Option (State × List Event)
  | .splice t lens =>
      if s.pc t = .idle then some ((s.append lens).setPc t .call, [.spliced s.nextMsg lens]) else none
  | .sendCtrl len =>
      match v with
      | .plainTcp => none
      | .grpc => some ({ s.append [len] with workPending := true }, [.spliced s.nextMsg [len]])
  | .writeSpace =>
      match v with
      | .plainTcp => some ({ s with workPending := true }, [])
      | .grpc => none
  | .txWork t =>
      if s.pc t = .idle ∧ s.workPending = true then
        some (({ s with workPending := false } : State).setPc t .call, [])
      else none
  | .run t n => trySendFromPsock s t n
  | .xmit n =>
      if s.sockLock = none then some ({ s with skWriteQueue := s.skWriteQueue.drop n }, []) else none

/-- The transmit path of a psock whose TCP socket starts at `writeSeq`. -/
def machine (v : Variant) (writeSeq : UInt32) : Lib.Machine State Act Event :=
  ⟨State.init writeSeq, step v⟩

/-! ### What a step can do -/

/-- The transitions of the transmit path. -/
inductive Step (v : Variant) (s : State) : Act → State → List Event → Prop
  | splice (t : ℕ) (lens : List UInt32) : s.pc t = .idle →
      Step v s (.splice t lens) ((s.append lens).setPc t .call) [.spliced s.nextMsg lens]
  | sendCtrl (len : UInt32) : v = .grpc →
      Step v s (.sendCtrl len) { s.append [len] with workPending := true } [.spliced s.nextMsg [len]]
  | writeSpace : v = .plainTcp → Step v s .writeSpace { s with workPending := true } []
  | txWork (t : ℕ) : s.pc t = .idle → s.workPending = true →
      Step v s (.txWork t) (({ s with workPending := false } : State).setPc t .call) []
  | yield (t n : ℕ) : s.pc t = .call → s.txInUse = true → Step v s (.run t n) (s.setPc t .idle) []
  | own (t n : ℕ) : s.pc t = .call → s.txInUse = false →
      Step v s (.run t n) (({ s with txInUse := true } : State).setPc t .lockSock) []
  | lockSock (t n : ℕ) : s.pc t = .lockSock → s.sockLock = none →
      Step v s (.run t n) (({ s with sockLock := some t } : State).setPc t .loop) []
  | empty (t n : ℕ) : s.pc t = .loop → s.txWaitQueue = [] →
      Step v s (.run t n) (s.setPc t .clear) []
  | move (t n : ℕ) : s.pc t = .loop → s.txWaitQueue ≠ [] →
      Step v s (.run t n) (({ s with txWaitQueue := []
                                     skWriteQueue := s.skWriteQueue ++ s.txWaitQueue } : State).setPc
        t (.assign s.skWriteQueue.length)) []
  | assign (t n head : ℕ) : s.pc t = .assign head →
      Step v s (.run t n)
        (({ s with writeSeq := (assignSeq s.writeSeq (s.skWriteQueue.drop head)).1
                   skWriteQueue := s.skWriteQueue.take head ++
                     (assignSeq s.writeSeq (s.skWriteQueue.drop head)).2 } : State).setPc t .push)
        [.moved (assignSeq s.writeSeq (s.skWriteQueue.drop head)).2]
  | push (t n : ℕ) : s.pc t = .push →
      Step v s (.run t n) (({ s with skWriteQueue := s.skWriteQueue.drop n } : State).setPc t .loop) []
  | clear (t n : ℕ) : s.pc t = .clear →
      Step v s (.run t n) (({ s with txInUse := false } : State).setPc t .release) []
  | release (t n : ℕ) : s.pc t = .release →
      Step v s (.run t n) (({ s with sockLock := none } : State).setPc t .idle) []
  | xmit (n : ℕ) : s.sockLock = none →
      Step v s (.xmit n) { s with skWriteQueue := s.skWriteQueue.drop n } []

variable {v : Variant} {s s' : State} {a : Act} {e : List Event}

theorem trySendFromPsock_cases {t n : ℕ} (h : trySendFromPsock s t n = some (s', e)) :
    Step v s (.run t n) s' e := by
  unfold trySendFromPsock at h
  cases hpc : s.pc t with
  | idle => rw [hpc] at h; cases h
  | call =>
      simp only [hpc] at h
      split_ifs at h with hu
      · obtain ⟨rfl, rfl⟩ := Prod.mk.inj (Option.some.inj h)
        exact .yield t n hpc hu
      · obtain ⟨rfl, rfl⟩ := Prod.mk.inj (Option.some.inj h)
        exact .own t n hpc (by simpa using hu)
  | lockSock =>
      simp only [hpc] at h
      split_ifs at h with hl
      obtain ⟨rfl, rfl⟩ := Prod.mk.inj (Option.some.inj h)
      exact .lockSock t n hpc hl
  | loop =>
      simp only [hpc] at h
      split_ifs at h with hq
      · obtain ⟨rfl, rfl⟩ := Prod.mk.inj (Option.some.inj h)
        exact .empty t n hpc hq
      · obtain ⟨rfl, rfl⟩ := Prod.mk.inj (Option.some.inj h)
        exact .move t n hpc hq
  | assign head =>
      rw [hpc] at h
      obtain ⟨rfl, rfl⟩ := Prod.mk.inj (Option.some.inj h)
      exact .assign t n head hpc
  | push =>
      rw [hpc] at h
      obtain ⟨rfl, rfl⟩ := Prod.mk.inj (Option.some.inj h)
      exact .push t n hpc
  | clear =>
      rw [hpc] at h
      obtain ⟨rfl, rfl⟩ := Prod.mk.inj (Option.some.inj h)
      exact .clear t n hpc
  | release =>
      rw [hpc] at h
      obtain ⟨rfl, rfl⟩ := Prod.mk.inj (Option.some.inj h)
      exact .release t n hpc

/-- The executable step makes no other transition. -/
theorem step_cases (h : step v s a = some (s', e)) : Step v s a s' e := by
  cases a with
  | splice t lens =>
      simp only [step] at h
      split_ifs at h with hi
      obtain ⟨rfl, rfl⟩ := Prod.mk.inj (Option.some.inj h)
      exact .splice t lens hi
  | sendCtrl len =>
      cases v with
      | plainTcp => cases h
      | grpc =>
          obtain ⟨rfl, rfl⟩ := Prod.mk.inj (Option.some.inj h)
          exact .sendCtrl len rfl
  | writeSpace =>
      cases v with
      | plainTcp =>
          obtain ⟨rfl, rfl⟩ := Prod.mk.inj (Option.some.inj h)
          exact .writeSpace rfl
      | grpc => cases h
  | txWork t =>
      simp only [step] at h
      split_ifs at h with hi
      obtain ⟨rfl, rfl⟩ := Prod.mk.inj (Option.some.inj h)
      exact .txWork t hi.1 hi.2
  | run t n => exact trySendFromPsock_cases h
  | xmit n =>
      simp only [step] at h
      split_ifs at h with hl
      obtain ⟨rfl, rfl⟩ := Prod.mk.inj (Option.some.inj h)
      exact .xmit n hl

end Rakaia.Tx
