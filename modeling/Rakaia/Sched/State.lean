import Mathlib.Data.Fintype.Basic
import Rakaia.Lib.Machine
import Rakaia.Basic

/-! # The message scheduler: states and atomic sections

The scheduler of the plain-tcp and grpc variants (`rakaiasock.c`): messages are pushed into the
receive queues `rx_q` of the rakaia sockets by `rakaia_push_skb_single_queue` and leave them to
the socket that a pusher finds parked, to their own socket, or to a stealing one (`rakaia_pull`,
`rakaia_steal_skb`).  Two bitmaps mirror the queues and the list of parked sockets.

Sockets are never released here, so a socket is named by its index, and `rakaia_socks[i]` is
socket `i`.  Every section that the code protects by a spinlock is one step, except that a push
that finds the chosen queue empty keeps the lock of the queue over three steps: taking it, the
section under `waiters_lock`, and the update of `rx_nonempty_bm`, which comes after
`waiters_lock` is dropped.  Reads without a lock (`READ_ONCE`) are steps of their own. -/

namespace Rakaia.Sched

/-- `NUM_RAKAIA_SOCKETS`. -/
def numRakaiaSockets : ℕ := 20

instance : NeZero numRakaiaSockets := ⟨by decide⟩

/-- A rakaia socket, named by its index. -/
abbrev Ksk := Fin numRakaiaSockets

/-- Where a call of `rakaia_push_skb_single_queue` stands. -/
inductive PushPc where
  /-- Not called, or returned. -/
  | idle
  /-- The two random sockets are drawn; the first queue length is read next. -/
  | readFirst (skb : Skb) (ksk1 ksk2 : Ksk)
  | readSecond (skb : Skb) (ksk1 ksk2 : Ksk) (qlen1 : ℕ)
  /-- About to take the lock of the chosen queue. -/
  | lock (skb : Skb) (chosen : Ksk)
  /-- The queue is locked and empty; about to enter the section under `waiters_lock`. -/
  | enqueue (skb : Skb) (chosen : Ksk)
  /-- `waiters_lock` is dropped; the queue is still locked and its bit not yet updated. -/
  | setBit (chosen : Ksk) (newKsk : Option Ksk)
  /-- About to call `rakaia_queue_rcv_skb`. -/
  | deliver (ksk : Ksk) (skb : Skb)
  /-- The memory checks passed; about to append to `sk_receive_queue`. -/
  | charge (ksk : Ksk) (skb : Skb)
  /-- `rakaia_queue_rcv_skb` was called on a null message. -/
  | oops

/-- Where a call of `rakaia_pull` stands; every position carries the pulling socket. -/
inductive PullPc where
  | idle
  /-- Label `again`: about to look into the socket's own queue. -/
  | own (ksk : Ksk)
  /-- Label `retry` of `rakaia_steal_skb`. -/
  | readMask (ksk : Ksk)
  | pickFirst (ksk : Ksk) (mask : Ksk → Bool)
  | pickSecond (ksk : Ksk) (mask : Ksk → Bool) (v1 : Ksk)
  | readSecond (ksk v1 v2 : Ksk)
  | readFirst (ksk v1 v2 : Ksk) (qlen2 : ℕ)
  /-- About to take the lock of the victim's queue. -/
  | steal (ksk victim : Ksk)
  /-- Nothing found; about to enter the section under `waiters_lock`. -/
  | register (ksk : Ksk)
  | deliver (ksk : Ksk) (skb : Skb)
  | charge (ksk : Ksk) (skb : Skb)

/-- The socket on which a pull runs. -/
def PullPc.ksk? : PullPc → Option Ksk
  | .idle => none
  | .own k | .readMask k | .pickFirst k _ | .pickSecond k _ _ | .readSecond k _ _
  | .readFirst k _ _ _ | .steal k _ | .register k | .deliver k _ | .charge k _ => some k

/-- The state shared by all threads, with the positions of the calls in progress.  Calls of push
are numbered by the message they were called with, calls of pull by an arbitrary thread. -/
structure State where
  /-- `rakaia_socks_cnt`. -/
  socksCnt : ℕ
  /-- In `rakaia_create`, between the section under `lock` and the one under `waiters_lock`. -/
  creating : Ksk → Bool
  rxQ : Ksk → List Skb
  /-- The push that holds the lock of `rx_q`. -/
  rxLock : Ksk → Option ℕ
  rxNonemptyBm : Ksk → Bool
  waitersBm : Ksk → Bool
  kskWaiters : List Ksk
  /-- `sk_receive_queue`. -/
  receiveQ : Ksk → List Skb
  /-- `sk_rmem_alloc`. -/
  rmemAlloc : Ksk → ℕ
  /-- The number of messages handed to `rakaia_rcv_strparser` so far. -/
  nextId : ℕ
  push : ℕ → PushPc
  pull : ℕ → PullPc

/-- The state after `rakaia_init`. -/
def State.init : State where
  socksCnt := 0
  creating _ := false
  rxQ _ := []
  rxLock _ := none
  rxNonemptyBm _ := false
  waitersBm _ := false
  kskWaiters := []
  receiveQ _ := []
  rmemAlloc _ := 0
  nextId := 0
  push _ := .idle
  pull _ := .idle

/-- What happens to messages, for the history of a run. -/
inductive Event where
  /-- `rakaia_rcv_strparser` is called with message `id`, produced by the parser of `psock`. -/
  | handed (id : ℕ) (psock : PsockPtr) (cb : Cb)
  /-- The message enters `rx_q` of a socket. -/
  | entered (ksk : Ksk) (id : ℕ)
  /-- The message leaves `rx_q` of a socket. -/
  | left (ksk : Ksk) (id : ℕ)
  /-- The message is appended to `sk_receive_queue`. -/
  | delivered (ksk : Ksk) (id : ℕ)
  /-- `rakaia_queue_rcv_skb` refuses the message. -/
  | refused (ksk : Ksk) (skb : Skb)
  /-- `recvmsg` takes the message off `sk_receive_queue`. -/
  | received (ksk : Ksk) (skb : Skb)

/-- What `rakaia_queue_rcv_skb` finds out about memory: `sk->sk_rcvbuf` and the result of
`sk_rmem_schedule`. -/
structure Budget where
  rcvbuf : ℕ
  scheduled : Bool

/-- One step of one thread.  Random draws are bytes (`get_random_u8`). -/
inductive Act where
  /-- `rakaia_create`, the section under `lock`. -/
  | create
  /-- `rakaia_create`, the section under `waiters_lock`. -/
  | createRegister (ksk : Ksk)
  /-- The parser of `psock` hands a message to `rakaia_rcv_strparser`. -/
  | pushStart (psock : PsockPtr) (cb : Cb) (truesize : ℕ) (r1 r2 : UInt8)
  | push (p : ℕ) (budget : Budget)
  | pullStart (t : ℕ) (ksk : Ksk)
  | pull (t : ℕ) (r : UInt8) (budget : Budget)
  | recvmsg (ksk : Ksk)

namespace State

variable (s : State)

@[simp] def setPush (p : ℕ) (pc : PushPc) : State := { s with push := Function.update s.push p pc }

@[simp] def setPull (t : ℕ) (pc : PullPc) : State := { s with pull := Function.update s.pull t pc }

@[simp] def setRxQ (i : Ksk) (q : List Skb) : State := { s with rxQ := Function.update s.rxQ i q }

@[simp] def setRxLock (i : Ksk) (h : Option ℕ) : State := { s with rxLock := Function.update s.rxLock i h }

/-- `set_bit` and `clear_bit` on `rx_nonempty_bm`. -/
@[simp] def setNonempty (i : Ksk) (b : Bool) : State :=
  { s with rxNonemptyBm := Function.update s.rxNonemptyBm i b }

end State

/-! ### The functions of the source -/

/-- `get_random_u8() % NUM_RAKAIA_SOCKETS`. -/
def randomSock (r : UInt8) : Ksk := ⟨r.toNat % numRakaiaSockets, Nat.mod_lt _ (by decide)⟩

/-- The set bits of a bitmap in ascending order (`for_each_set_bit`). -/
def setBits (mask : Ksk → Bool) : List Ksk := (List.finRange numRakaiaSockets).filter mask

/-- `pick_random_set_bit`, with the random byte as an argument; `none` is `-1`. -/
def pickRandomSetBit (mask : Ksk → Bool) (r : UInt8) : Option Ksk :=
  (setBits mask)[r.toNat % (setBits mask).length]?

/-- `rakaia_get_avail_sk`: the state after it unlinked a waiter, and that waiter. -/
def rakaiaGetAvailSk (s : State) (localKsk : Ksk) : Option Ksk × State :=
  match s.kskWaiters with
  | [] => (none, s)
  | first :: _ =>
      let ksk := if s.waitersBm localKsk then localKsk else first
      (some ksk, { s with kskWaiters := s.kskWaiters.erase ksk
                          waitersBm := Function.update s.waitersBm ksk false })

/-- `__skb_dequeue` under the lock of the queue, with the update of the bitmap that follows it in
`rakaia_pull` and `rakaia_steal_skb`. -/
def dequeueLocked (s : State) (i : Ksk) : Option (Skb × State) :=
  match s.rxQ i with
  | [] => none
  | skb :: rest =>
      some (skb, if rest.length = 0 then (s.setRxQ i rest).setNonempty i false else s.setRxQ i rest)

/-- The memory checks of `rakaia_queue_rcv_skb`; the grpc variant makes none. -/
def rcvSkbAccepted (v : Variant) (s : State) (ksk : Ksk) (budget : Budget) : Bool :=
  match v with
  | .grpc => true
  | .plainTcp => decide (s.rmemAlloc ksk < budget.rcvbuf) && budget.scheduled

/-- The end of `rakaia_queue_rcv_skb`: charge the socket and append to `sk_receive_queue`. -/
def chargeRcvSkb (v : Variant) (s : State) (ksk : Ksk) (skb : Skb) : State :=
  { s with
    rmemAlloc := match v with
      | .grpc => s.rmemAlloc
      | .plainTcp => Function.update s.rmemAlloc ksk (s.rmemAlloc ksk + skb.truesize)
    receiveQ := Function.update s.receiveQ ksk (s.receiveQ ksk ++ [skb]) }

/-- `rakaia_create`.  The plain-tcp variant registers the socket as idle in a second section,
under `waiters_lock` (`createRegister`); the grpc variant does so in this one. -/
def rakaiaCreate (v : Variant) (s : State) : Option State :=
  if h : s.socksCnt < numRakaiaSockets then
    let ksk : Ksk := ⟨s.socksCnt, h⟩
    let s := { s with socksCnt := s.socksCnt + 1, rxQ := Function.update s.rxQ ksk [] }
    match v with
    | .plainTcp => some { s with creating := Function.update s.creating ksk true }
    | .grpc => some { s with waitersBm := Function.update s.waitersBm ksk true
                             kskWaiters := s.kskWaiters ++ [ksk] }
  else none

/-- `rakaia_create`, the section under `waiters_lock`. -/
def createRegister (s : State) (ksk : Ksk) : Option State :=
  if s.creating ksk then
    some { s with creating := Function.update s.creating ksk false
                  waitersBm := Function.update s.waitersBm ksk true
                  kskWaiters := s.kskWaiters ++ [ksk] }
  else none

/-- `rakaia_push_skb_single_queue` from its call to the two random draws. -/
def pushStart (s : State) (psock : PsockPtr) (cb : Cb) (truesize : ℕ) (r1 r2 : UInt8) :
    Option (State × List Event) :=
  if s.socksCnt = numRakaiaSockets then
    let skb : Skb := { id := s.nextId, cb := cb, truesize := truesize }
    some (({ s with nextId := s.nextId + 1 } : State).setPush s.nextId
      (.readFirst (skb.setPsock psock) (randomSock r1) (randomSock r2)),
      [.handed s.nextId psock cb])
  else none

/-- The next step of the call of `rakaia_push_skb_single_queue` with message `p`. -/
def rakaiaPushSkbSingleQueue (v : Variant) (s : State) (p : ℕ) (budget : Budget) :
    Option (State × List Event) :=
  match s.push p with
  | .idle | .oops => none
  | .readFirst skb ksk1 ksk2 =>
      some (s.setPush p (.readSecond skb ksk1 ksk2 (s.rxQ ksk1).length), [])
  | .readSecond skb ksk1 ksk2 qlen1 =>
      some (s.setPush p (.lock skb (if qlen1 ≤ (s.rxQ ksk2).length then ksk1 else ksk2)), [])
  | .lock skb chosen =>
      if s.rxLock chosen = none then
        if 1 ≤ (s.rxQ chosen).length then
          some ((s.setRxQ chosen (s.rxQ chosen ++ [skb])).setPush p .idle, [.entered chosen skb.id])
        else some ((s.setRxLock chosen (some p)).setPush p (.enqueue skb chosen), [])
      else none
  | .enqueue skb chosen =>
      let r := rakaiaGetAvailSk (s.setRxQ chosen (s.rxQ chosen ++ [skb])) chosen
      some (r.2.setPush p (.setBit chosen r.1), [.entered chosen skb.id])
  | .setBit chosen none =>
      some (((s.setNonempty chosen true).setRxLock chosen none).setPush p .idle, [])
  | .setBit chosen (some newKsk) =>
      match s.rxQ chosen with
      | [] => some (s.setPush p .oops, [])
      | skb :: rest =>
          some ((((s.setRxQ chosen rest).setNonempty chosen (decide (1 ≤ rest.length))).setRxLock
            chosen none).setPush p (.deliver newKsk skb), [.left chosen skb.id])
  | .deliver ksk skb =>
      if rcvSkbAccepted v s ksk budget then some (s.setPush p (.charge ksk skb), [])
      else some (s.setPush p .idle, [.refused ksk skb])
  | .charge ksk skb =>
      some ((chargeRcvSkb v s ksk skb).setPush p .idle, [.delivered ksk skb.id])

/-- A call of `rakaia_pull` on a socket whose `rakaia_create` has returned. -/
def pullStart (s : State) (t : ℕ) (ksk : Ksk) : Option (State × List Event) :=
  match s.pull t with
  | .idle =>
      if ksk.val < s.socksCnt ∧ s.creating ksk = false then some (s.setPull t (.own ksk), []) else none
  | _ => none

/-- The next step of the call of `rakaia_pull` by thread `t`, `rakaia_steal_skb` included. -/
def rakaiaPull (v : Variant) (s : State) (t : ℕ) (r : UInt8) (budget : Budget) :
    Option (State × List Event) :=
  match s.pull t with
  | .idle => none
  | .own ksk =>
      if s.rxLock ksk = none then
        match dequeueLocked s ksk with
        | some (skb, s') => some (s'.setPull t (.deliver ksk skb), [.left ksk skb.id])
        | none => some (s.setPull t (.readMask ksk), [])
      else none
  | .readMask ksk =>
      if setBits s.rxNonemptyBm = [] then some (s.setPull t (.register ksk), [])
      else some (s.setPull t (.pickFirst ksk s.rxNonemptyBm), [])
  | .pickFirst ksk mask =>
      match pickRandomSetBit mask r with
      | none => some (s.setPull t (.register ksk), [])
      | some v1 =>
          if 1 < (setBits mask).length then some (s.setPull t (.pickSecond ksk mask v1), [])
          else some (s.setPull t (.readSecond ksk v1 v1), [])
  | .pickSecond ksk mask v1 =>
      match pickRandomSetBit mask r with
      | none => none
      | some v2 => if v2 = v1 then some (s, []) else some (s.setPull t (.readSecond ksk v1 v2), [])
  | .readSecond ksk v1 v2 => some (s.setPull t (.readFirst ksk v1 v2 (s.rxQ v2).length), [])
  | .readFirst ksk v1 v2 qlen2 =>
      some (s.setPull t (.steal ksk (if (s.rxQ v1).length < qlen2 then v2 else v1)), [])
  | .steal ksk victim =>
      if s.rxLock victim = none then
        match dequeueLocked s victim with
        | some (skb, s') => some (s'.setPull t (.deliver ksk skb), [.left victim skb.id])
        | none => some (s.setPull t (.readMask ksk), [])
      else none
  | .register ksk =>
      if setBits s.rxNonemptyBm = [] then
        if s.waitersBm ksk then some (s.setPull t .idle, [])
        else some (({ s with waitersBm := Function.update s.waitersBm ksk true
                             kskWaiters := s.kskWaiters ++ [ksk] } : State).setPull t .idle, [])
      else some (s.setPull t (.own ksk), [])
  | .deliver ksk skb =>
      if rcvSkbAccepted v s ksk budget then some (s.setPull t (.charge ksk skb), [])
      else some (s.setPull t .idle, [.refused ksk skb])
  | .charge ksk skb =>
      some ((chargeRcvSkb v s ksk skb).setPull t .idle, [.delivered ksk skb.id])

/-- `skb_recv_datagram` and the release of the message in `rakaia_recvmsg`, without `MSG_PEEK`. -/
def recvmsg (v : Variant) (s : State) (ksk : Ksk) : Option (State × List Event) :=
  match s.receiveQ ksk with
  | [] => none
  | skb :: rest =>
      some ({ s with
        rmemAlloc := match v with
          | .grpc => s.rmemAlloc
          | .plainTcp => Function.update s.rmemAlloc ksk (s.rmemAlloc ksk - skb.truesize)
        receiveQ := Function.update s.receiveQ ksk rest }, [.received ksk skb])

/-- One step of the scheduler. -/
def step (v : Variant) (s : State) : Act → Option (State × List Event)
  | .create => (rakaiaCreate v s).map (fun s' => (s', []))
  | .createRegister ksk => (createRegister s ksk).map (fun s' => (s', []))
  | .pushStart psock cb truesize r1 r2 => pushStart s psock cb truesize r1 r2
  | .push p budget => rakaiaPushSkbSingleQueue v s p budget
  | .pullStart t ksk => pullStart s t ksk
  | .pull t r budget => rakaiaPull v s t r budget
  | .recvmsg ksk => recvmsg v s ksk

/-- The scheduler of a variant. -/
def machine (v : Variant) : Lib.Machine State Act Event := ⟨State.init, step v⟩

end Rakaia.Sched
