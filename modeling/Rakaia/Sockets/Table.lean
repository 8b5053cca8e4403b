import Rakaia.Sched.State

/-! # The table of rakaia sockets

The plain-tcp variant keeps its sockets in the array `rakaia_socks`, the idle ones in the list
`ksk_waiters`, and two bitmaps over the positions of the array.  `rakaia_create` puts a new socket
at position `rakaia_socks_cnt`; `rakaia_release` clears the position of the socket and decrements the
counter, and does not touch the list or the bitmaps.

Here a socket is an object with an address, so that a socket that was released can be told from one
that took its position.  A call is one step: runs are sequences of calls.  `rakaia_queue_rcv_skb`,
which hands a message to a socket, is an event: it does not touch the table. -/

namespace Rakaia.Sockets

open Lib
open Sched (numRakaiaSockets randomSock setBits pickRandomSetBit)

/-- A position in `rakaia_socks` and in the bitmaps. -/
abbrev Index := Fin numRakaiaSockets

/-- The fields of `struct rakaia_sock` that the table needs. -/
structure RakaiaSock where
  index : Index
  rxQ : List Skb

/-- `struct rakaia`, with the sockets it points to. -/
structure State where
  heap : ℕ → RakaiaSock
  /-- The first address that is not allocated yet. -/
  brk : ℕ
  /-- The sockets that were created and not released. -/
  live : List ℕ
  /-- `rakaia_socks`; `none` is the null pointer. -/
  rakaiaSocks : Index → Option ℕ
  rakaiaSocksCnt : ℕ
  kskWaiters : List ℕ
  waitersBm : Index → Bool
  rxNonemptyBm : Index → Bool

/-- `rakaia_queue_rcv_skb` is called. -/
inductive Event where
  | queueRcvSkb (ksk : ℕ) (skb : Skb)

namespace State

variable (s : State)

def init : State where
  heap _ := ⟨0, []⟩
  brk := 0
  live := []
  rakaiaSocks _ := none
  rakaiaSocksCnt := 0
  kskWaiters := []
  waitersBm _ := false
  rxNonemptyBm _ := false

def index (ksk : ℕ) : Index := (s.heap ksk).index

def rxQ (ksk : ℕ) : List Skb := (s.heap ksk).rxQ

def setRxQ (ksk : ℕ) (q : List Skb) : State :=
  { s with heap := Function.update s.heap ksk { s.heap ksk with rxQ := q } }

/-- `set_bit` and `clear_bit` on `rx_nonempty_bm`. -/
def setNonempty (i : Index) (b : Bool) : State :=
  { s with rxNonemptyBm := Function.update s.rxNonemptyBm i b }

/-- `set_bit` on `waiters_bm` and `list_add_tail` on `ksk_waiters`. -/
def park (ksk : ℕ) : State :=
  { s with
    waitersBm := Function.update s.waitersBm (s.index ksk) true
    kskWaiters := s.kskWaiters ++ [ksk] }

/-- `rakaia_socks[rakaia_socks_cnt]`. -/
def nextSlot : Option ℕ :=
  if h : s.rakaiaSocksCnt < numRakaiaSockets then s.rakaiaSocks ⟨s.rakaiaSocksCnt, h⟩ else none

end State

/-! ### The functions of the source -/

/-- `rakaia_create`, after its checks and `sk_alloc`; `-ENOMEM` when the table is full. -/
def rakaiaCreate (s : State) : State :=
  if h : s.rakaiaSocksCnt < numRakaiaSockets then
    let index : Index := ⟨s.rakaiaSocksCnt, h⟩
    State.park { s with
      heap := Function.update s.heap s.brk ⟨index, []⟩
      brk := s.brk + 1
      live := s.live ++ [s.brk]
      rakaiaSocks := Function.update s.rakaiaSocks index (some s.brk)
      rakaiaSocksCnt := s.rakaiaSocksCnt + 1 } s.brk
  else s

/-- `rakaia_release`.  What it does to psocks when the counter reaches zero is not part of the
table. -/
def rakaiaRelease (s : State) (ksk : ℕ) : State :=
  let s := { s with live := s.live.erase ksk }
  if (s.index ksk).val ≤ numRakaiaSockets then
    { s with
      rakaiaSocks := Function.update s.rakaiaSocks (s.index ksk) none
      rakaiaSocksCnt := s.rakaiaSocksCnt - 1 }
  else s

/-- `rakaia_get_avail_sk`. -/
def rakaiaGetAvailSk (s : State) (localKsk : ℕ) : Option ℕ × State :=
  match s.kskWaiters with
  | [] => (none, s)
  | first :: _ =>
      let ksk := if s.waitersBm (s.index localKsk) then localKsk else first
      (some ksk, { s with
        kskWaiters := s.kskWaiters.erase ksk
        waitersBm := Function.update s.waitersBm (s.index ksk) false })

/-- `rakaia_push_skb_single_queue`; `none` when it follows a null pointer. -/
def rakaiaPushSkbSingleQueue (s : State) (skb : Skb) (psock : PsockPtr) (r1 r2 : UInt8) :
    Option (State × List Event) :=
  let skb := skb.setPsock psock
  match s.rakaiaSocks (randomSock r1), s.rakaiaSocks (randomSock r2) with
  | some ksk1, some ksk2 =>
      let chosen := if (s.rxQ ksk1).length ≤ (s.rxQ ksk2).length then ksk1 else ksk2
      if 1 ≤ (s.rxQ chosen).length then some (s.setRxQ chosen (s.rxQ chosen ++ [skb]), [])
      else
        match rakaiaGetAvailSk (s.setRxQ chosen (s.rxQ chosen ++ [skb])) chosen with
        | (none, s) => some (s.setNonempty (s.index chosen) true, [])
        | (some newKsk, s) =>
            match s.rxQ chosen with
            | [] => none
            | skb :: rest =>
                some ((s.setRxQ chosen rest).setNonempty (s.index chosen) (decide (1 ≤ rest.length)),
                  [.queueRcvSkb newKsk skb])
  | _, _ => none

/-- `__skb_dequeue` on the queue of a socket; when it becomes empty, bit `i` is cleared. -/
def dequeue (s : State) (ksk : ℕ) (i : Index) : Option (Skb × State) :=
  match s.rxQ ksk with
  | [] => none
  | skb :: rest =>
      some (skb, if rest.length = 0 then (s.setRxQ ksk rest).setNonempty i false else s.setRxQ ksk rest)

/-- The two victims of a round of `rakaia_steal_skb`; `r2` is the draw that ends the inner loop. -/
def pickVictims (mask : Index → Bool) (r1 r2 : UInt8) : Option (Index × Index) :=
  match pickRandomSetBit mask r1 with
  | none => none
  | some v1 =>
      if 1 < (setBits mask).length then
        match pickRandomSetBit mask r2 with
        | none => none
        | some v2 => if v2 = v1 then none else some (v1, v2)
      else some (v1, v1)

/-- `rakaia_steal_skb`, with the draws of its rounds; `none` when it follows a null pointer, or has not
returned after these draws. -/
def rakaiaStealSkb (s : State) : List (UInt8 × UInt8) → Option (Option (Skb × State))
  | [] => if setBits s.rxNonemptyBm = [] then some none else none
  | (r1, r2) :: draws =>
      if setBits s.rxNonemptyBm = [] then some none
      else
        match pickVictims s.rxNonemptyBm r1 r2 with
        | none => none
        | some (v1, v2) =>
            match s.rakaiaSocks v1, s.rakaiaSocks v2 with
            | some s1, some s2 =>
                let victim := if (s.rxQ s1).length < (s.rxQ s2).length then (s2, v2) else (s1, v1)
                match dequeue s victim.1 victim.2 with
                | some r => some (some r)
                | none => rakaiaStealSkb s draws
            | _, _ => none

/-- `rakaia_pull`, with the draws of each round of `again`; `none` when it does not return. -/
def rakaiaPull (s : State) (ksk : ℕ) : List (List (UInt8 × UInt8)) → Option (State × List Event)
  | [] => none
  | draws :: rounds =>
      match dequeue s ksk (s.index ksk) with
      | some (skb, s') => some (s', [.queueRcvSkb ksk skb])
      | none =>
          match rakaiaStealSkb s draws with
          | none => none
          | some (some (skb, s')) => some (s', [.queueRcvSkb ksk skb])
          | some none =>
              if setBits s.rxNonemptyBm = [] then
                if s.waitersBm (s.index ksk) then some (s, [])
                -- a second `list_add_tail` of one node ruins the list: no state follows
                else if ksk ∈ s.kskWaiters then none
                else some (s.park ksk, [])
              else rakaiaPull s ksk rounds

/-! ### Runs -/

/-- One call. -/
inductive Act where
  | create
  | release (ksk : ℕ)
  | push (skb : Skb) (psock : PsockPtr) (r1 r2 : UInt8)
  | pull (ksk : ℕ) (rounds : List (List (UInt8 × UInt8)))
  | steal (ksk : ℕ) (draws : List (UInt8 × UInt8))

def step (s : State) : Act → Option (State × List Event)
  | .create => some (rakaiaCreate s, [])
  | .release ksk => if ksk ∈ s.live then some (rakaiaRelease s ksk, []) else none
  | .push skb psock r1 r2 => rakaiaPushSkbSingleQueue s skb psock r1 r2
  | .pull ksk rounds => if ksk ∈ s.live then rakaiaPull s ksk rounds else none
  | .steal ksk draws =>
      if ksk ∈ s.live then
        match rakaiaStealSkb s draws with
        | none => none
        | some none => some (s, [])
        | some (some (skb, s')) => some (s', [.queueRcvSkb ksk skb])
      else none

/-- The table of sockets after `rakaia_init`. -/
def machine : Machine State Act Event := ⟨.init, step⟩

end Rakaia.Sockets
