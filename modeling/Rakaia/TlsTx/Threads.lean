import Rakaia.Lib.Owner
import Rakaia.TlsTx.Write

/-! # Concurrent senders (tls)

Any number of threads send on one psock, each through a rakaia socket of its own.  `rakaia_write_msgs`
appends the messages of its socket to `tx_wait_queue` and, if nobody owns `tx_in_use`, takes it and calls
`write_to_csock`.  After a call that returns a positive number it gives `tx_in_use` up; after any other
result it leaves the flag set.  That includes `-EAGAIN`, for which `write_to_csock` returns 0: nothing resets
the flag afterwards, because `psock_write_space` is empty and not installed, and `rakaia_tx_work`, which is
empty too, is never queued.

The atomic steps are the sections under `psock->lock`, `skb_dequeue`, and those of `write_to_csock`. -/

namespace Rakaia.TlsTx.Threads

open Lib

/-- Where a thread stands in `rakaia_write_msgs`. -/
inductive Pos where
  /-- Not called, or returned. -/
  | idle
  /-- At the top of the loop. -/
  | loop
  /-- A message is taken from `sk_write_queue`; about to append it. -/
  | append (m : TxMsg)
  /-- In `write_to_csock`. -/
  | write (pc : Pc)
  /-- `write_to_csock` has returned. -/
  | wrote (ret : Int32)
deriving DecidableEq

/-- A psock and its TCP socket, with the sockets and the positions of `N` threads. -/
structure State (N : ℕ) where
  txWaitQueue : List TxMsg
  txInUse : Bool
  /-- The write-space callback has run since the last `-EAGAIN`. -/
  writable : Bool
  skWriteQueue : Fin N → List TxMsg
  pos : Fin N → Pos

def State.init (N : ℕ) : State N := ⟨[], false, true, fun _ => [], fun _ => .idle⟩

inductive Act (N : ℕ) where
  /-- `rakaia_sendmsg` without `MSG_BATCH`, with a complete message. -/
  | sendmsg (t : Fin N) (head : TxSkb) (fragList : List TxSkb)
  /-- The next step of a thread; `r` is what `sock_sendmsg` returns in it. -/
  | run (t : Fin N) (r : SendResult)
  /-- The write-space callback of the TCP socket. -/
  | writeSpace

section step

variable {N : ℕ} (s : State N) (t : Fin N)

@[simp] def State.setPos (pos : Pos) : State N := { s with pos := Function.update s.pos t pos }

@[simp] def State.setQueue (q : List TxMsg) : State N :=
  { s with skWriteQueue := Function.update s.skWriteQueue t q }

/-- The end of `rakaia_sendmsg`: the message is queued on the socket, and `rakaia_write_msgs` is called
unless other messages were there (`tx_wait_more` is set with `MSG_BATCH` only). -/
def rakaiaSendmsg (head : TxSkb) (fragList : List TxSkb) : State N :=
  let notBusy := (s.skWriteQueue t).isEmpty
  (s.setQueue t (s.skWriteQueue t ++ [TxMsg.new head fragList])).setPos t (if notBusy then .loop else .idle)

/-- The section that appends a message and takes `tx_in_use`. -/
def appendMsg (m : TxMsg) : State N :=
  if s.txInUse then ({ s with txWaitQueue := s.txWaitQueue ++ [m] } : State N).setPos t .loop
  else ({ s with txWaitQueue := s.txWaitQueue ++ [m], txInUse := true } : State N).setPos t (.write (.peek 0))

/-- The section behind `write_to_csock`. -/
def wroteMsgs (ret : Int32) : State N :=
  if ret ≤ 0 then ({ s with txInUse := true } : State N).setPos t .idle
  else ({ s with txInUse := false } : State N).setPos t .loop

/-- `-EAGAIN` says that the TCP socket is not writable. -/
def writableAfter (pc : Pc) (r : SendResult) (b : Bool) : Bool :=
  match pc, r with
  | .send _ _ _, .again => false
  | _, _ => b

def posAfter : Next → Pos
  | .goes pc => .write pc
  | .returns ret => .wrote ret

/-- The next step of thread `t` in `rakaia_write_msgs`. -/
def rakaiaWriteMsgs (r : SendResult) : Option (State N × List Event) :=
  match s.pos t with
  | .idle => none
  | .loop =>
      match s.skWriteQueue t with
      | [] => some (s.setPos t .idle, [])
      | m :: rest => some ((s.setQueue t rest).setPos t (.append m), [])
  | .append m => some (appendMsg s t m, [.appended m])
  | .write pc =>
      (writeToCsock s.txWaitQueue pc r).map (fun x =>
        (({ s with txWaitQueue := x.1, writable := writableAfter pc r s.writable } : State N).setPos t
          (posAfter x.2.1), x.2.2))
  | .wrote ret => some (wroteMsgs s t ret, [])

/-- `psock_write_space`, which would be called here, is not installed and does nothing. -/
def step : Act N → Option (State N × List Event)
  | .sendmsg t head fragList =>
      if s.pos t = .idle then some (rakaiaSendmsg s t head fragList, []) else none
  | .run t r => rakaiaWriteMsgs s t r
  | .writeSpace => some ({ s with writable := true }, [])

end step

def machine (N : ℕ) : Machine (State N) (Act N) Event := ⟨State.init N, step⟩

/-- The thread stands behind a call of `write_to_csock`. -/
def Pos.returned : Pos → Bool
  | .wrote _ => true
  | _ => false

/-- No thread is in `rakaia_write_msgs`, and the TCP socket is writable. -/
def Quiescent {N : ℕ} (s : State N) : Prop := (∀ t, s.pos t = .idle) ∧ s.writable = true

instance {N : ℕ} : DecidablePred (Quiescent (N := N)) := fun s =>
  inferInstanceAs (Decidable ((∀ t, s.pos t = .idle) ∧ s.writable = true))

/-- Every buffer of a message has a page fragment, and `sock_sendmsg` does not fail for good. -/
def Admissible {N : ℕ} : Act N → Prop
  | .sendmsg _ head fragList => ∀ skb ∈ head :: fragList, skb.frags ≠ []
  | .run _ (.fail _) => False
  | _ => True

instance {N : ℕ} : DecidablePred (Admissible (N := N))
  | .sendmsg _ head fragList => inferInstanceAs (Decidable (∀ skb ∈ head :: fragList, skb.frags ≠ []))
  | .run _ (.sent _) => isTrue trivial
  | .run _ .again => isTrue trivial
  | .run _ (.fail _) => isFalse id
  | .writeSpace => isTrue trivial

/-- The condition on the step of a thread at a position. -/
def OrderlyAt {N : ℕ} (s : State N) (r : SendResult) : Pos → Prop
  | .append _ => s.txInUse = true → ∀ u, (s.pos u).returned = false
  | .write (.send _ _ _) => r ≠ .again
  | .write (.peek totalSent) => s.txWaitQueue = [] → 0 < totalSent.toInt32
  | _ => True

instance {N : ℕ} (s : State N) (r : SendResult) : DecidablePred (OrderlyAt s r)
  | .append _ => inferInstanceAs (Decidable (_ → _))
  | .write (.send _ _ _) => inferInstanceAs (Decidable (_ ≠ _))
  | .write (.peek _) => inferInstanceAs (Decidable (_ → _))
  | .write (.dequeue _) => isTrue trivial
  | .idle => isTrue trivial
  | .loop => isTrue trivial
  | .wrote _ => isTrue trivial

/-- `sock_sendmsg` does not return `-EAGAIN`; no message is appended behind the back of an owner of
`tx_in_use` that has found the queue empty; and a call of `write_to_csock` that finds it empty has sent a
number of bytes that is positive as an `int`. -/
def Orderly {N : ℕ} (s : State N) : Act N → Prop
  | .run t r => OrderlyAt s r (s.pos t)
  | _ => True

instance {N : ℕ} (s : State N) : DecidablePred (Orderly s)
  | .run t r => inferInstanceAs (Decidable (OrderlyAt s r (s.pos t)))
  | .sendmsg _ _ _ => isTrue trivial
  | .writeSpace => isTrue trivial

/-! ### The invariant -/

/-- The thread will look into `tx_wait_queue` again before it gives up `tx_in_use`. -/
def Pos.Drains : Pos → Prop
  | .write _ => True
  | _ => False

/-- The thread owns `tx_in_use`. -/
def Pos.Owns : Pos → Prop
  | .write _ | .wrote _ => True
  | _ => False

theorem Pos.Drains.owns {p : Pos} (h : p.Drains) : p.Owns := by
  cases p <;> first | exact h | trivial

/-- Every buffer of the message has a page fragment. -/
def Fragmented (m : TxMsg) : Prop := ∀ skb ∈ m.skbs, skb.frags ≠ []

section invariant

variable {N : ℕ} {s s' : State N} {t : Fin N} {p : Pos} {e : List Event}

/-- `tx_in_use` has one owner, who drains the queue unless it is empty; `write_to_csock` returns positive
numbers only; and all messages have their fragments. -/
structure Inv (s : State N) : Prop where
  owned : Owned Pos.Owns s.pos s.txInUse
  attended : s.txWaitQueue ≠ [] → ∃ t, (s.pos t).Drains
  wrote : ∀ t ret, s.pos t = .wrote ret → 0 < ret
  waiting : ∀ m ∈ s.txWaitQueue, Fragmented m
  queued : ∀ t, ∀ m ∈ s.skWriteQueue t, Fragmented m
  moving : ∀ t m, s.pos t = .append m → Fragmented m

theorem Inv.notWedged (h : Inv s) (hq : Quiescent s) : s.txInUse = false ∧ s.txWaitQueue = [] := by
  constructor
  · by_contra huse
    obtain ⟨t, ht⟩ := h.owned.set.mp (eq_true_of_ne_false huse)
    rw [hq.1 t] at ht
    exact ht
  · by_contra hne
    obtain ⟨t, ht⟩ := h.attended hne
    rw [hq.1 t] at ht
    exact ht

/-- A thread moves, and `tx_wait_queue` and the flag change with it. -/
theorem Inv.update (h : Inv s) {q : List TxMsg} {inUse writable : Bool}
    (howned : Owned Pos.Owns (Function.update s.pos t p) inUse)
    (hatt : q ≠ [] → ∃ u, (Function.update s.pos t p u).Drains) (hwait : ∀ m ∈ q, Fragmented m)
    (hwrote : ∀ ret, p = .wrote ret → 0 < ret) (hmoving : ∀ m, p = .append m → Fragmented m) :
    Inv (({ s with txWaitQueue := q, txInUse := inUse, writable := writable } : State N).setPos t p) where
  owned := howned
  attended := hatt
  wrote := by
    intro u ret hu
    by_cases hut : u = t
    · subst hut
      exact hwrote ret (by simpa using hu)
    · exact h.wrote u ret (by simpa [hut] using hu)
  waiting := hwait
  queued := h.queued
  moving := by
    intro u m hu
    by_cases hut : u = t
    · subst hut
      exact hmoving m (by simpa using hu)
    · exact h.moving u m (by simpa [hut] using hu)

/-- A thread goes on, or starts, to write: it is there to drain the queue. -/
theorem Inv.writing (h : Inv s) {q : List TxMsg} {inUse writable : Bool} {pc : Pc}
    (howned : Owned Pos.Owns (Function.update s.pos t (.write pc)) inUse) (hwait : ∀ m ∈ q, Fragmented m) :
    Inv (({ s with txWaitQueue := q, txInUse := inUse, writable := writable } : State N).setPos t (.write pc)) := by
  apply h.update howned _ hwait
  · intro ret hret
    cases hret
  · intro m hm
    cases hm
  · intro _
    refine ⟨t, ?_⟩
    rw [Function.update_self]
    trivial

/-- A thread that drains the queue still does when another one moves. -/
theorem drains_update (hd : ∃ u, (s.pos u).Drains) (ht : (s.pos t).Drains → p.Drains) :
    ∃ u, (Function.update s.pos t p u).Drains := by
  obtain ⟨u, hu⟩ := hd
  refine ⟨u, ?_⟩
  by_cases hut : u = t
  · subst hut
    rw [Function.update_self]
    exact ht hu
  · rwa [Function.update_of_ne hut]

/-- A thread moves between positions that do not own `tx_in_use`. -/
theorem Inv.move (h : Inv s) (ht : ¬ (s.pos t).Owns) (hp : ¬ p.Owns)
    (hmoving : ∀ m, p = .append m → Fragmented m) : Inv (s.setPos t p) := by
  apply h.update (h.owned.move (iff_of_false hp ht)) _ h.waiting _ hmoving
  · intro hne
    apply drains_update (h.attended hne)
    intro hd
    exact absurd hd.owns ht
  · rintro ret rfl
    exact absurd trivial hp

/-- The queue of a socket changes. -/
theorem Inv.setQueue (h : Inv s) (t : Fin N) {q : List TxMsg} (hq : ∀ m ∈ q, Fragmented m) :
    Inv (s.setQueue t q) where
  owned := h.owned
  attended := h.attended
  wrote := h.wrote
  waiting := h.waiting
  queued := by
    intro u m hm
    by_cases hut : u = t
    · subst hut
      exact hq m (by simpa using hm)
    · exact h.queued u m (by simpa [hut] using hm)
  moving := h.moving

theorem Inv.sendmsg (h : Inv s) (ht : s.pos t = .idle) {head : TxSkb} {fragList : List TxSkb}
    (hf : ∀ skb ∈ head :: fragList, skb.frags ≠ []) : Inv (rakaiaSendmsg s t head fragList) := by
  unfold rakaiaSendmsg
  have hq : ∀ m ∈ s.skWriteQueue t ++ [TxMsg.new head fragList], Fragmented m := by
    intro m hm
    rcases List.mem_append.mp hm with hm | hm
    · exact h.queued t m hm
    · obtain rfl := List.mem_singleton.mp hm
      exact hf
  apply (h.setQueue t hq).move
  · rw [show (s.setQueue t _).pos t = .idle from ht]
    exact id
  · split_ifs <;> exact id
  · intro m hm
    split_ifs at hm

theorem Inv.append (h : Inv s) {m : TxMsg} (ht : s.pos t = .append m)
    (ho : s.txInUse = true → ∀ u, (s.pos u).returned = false) : Inv (appendMsg s t m) := by
  have hwait : ∀ m' ∈ s.txWaitQueue ++ [m], Fragmented m' := by
    intro m' hm'
    rcases List.mem_append.mp hm' with hm' | hm'
    · exact h.waiting m' hm'
    · obtain rfl := List.mem_singleton.mp hm'
      exact h.moving t m' ht
  have hnot : ¬ (s.pos t).Owns := by
    rw [ht]
    exact id
  unfold appendMsg
  cases huse : s.txInUse with
  | true =>
      -- the owner has not found the queue empty, so it will find this message
      obtain ⟨u, hu⟩ := h.owned.set.mp huse
      have hdrain : (s.pos u).Drains := by
        have hret := ho huse u
        cases hp : s.pos u with
        | write pc => trivial
        | wrote ret =>
            rw [hp] at hret
            cases hret
        | _ =>
            rw [hp] at hu
            cases hu
      apply h.update
      · rw [← huse]
        exact h.owned.move (iff_of_false id hnot)
      · intro _
        exact drains_update ⟨u, hdrain⟩ (fun hd => absurd hd.owns hnot)
      · exact hwait
      · intro ret hret
        cases hret
      · intro m' hm'
        cases hm'
  | false =>
      have howned := h.owned
      rw [huse] at howned
      exact h.writing (howned.take t trivial) hwait

theorem Inv.wroteMsgs (h : Inv s) {ret : Int32} (ht : s.pos t = .wrote ret) :
    Inv (wroteMsgs s t ret) := by
  have hpos := h.wrote t ret ht
  have hown : (s.pos t).Owns := by
    rw [ht]
    trivial
  unfold Threads.wroteMsgs
  rw [if_neg (Int32.not_le.mpr hpos)]
  apply h.update (h.owned.release hown id) _ h.waiting
  · intro ret hret
    cases hret
  · intro m hm
    cases hm
  · -- the owner of the flag is this thread, which has found the queue empty
    intro hne
    obtain ⟨u, hu⟩ := h.attended hne
    obtain rfl := h.owned.unique u t hu.owns hown
    rw [ht] at hu
    cases hu

/-- A step of `write_to_csock` goes on, or has found the queue empty. -/
theorem Inv.write (h : Inv s) {pc : Pc} (ht : s.pos t = .write pc) {r : SendResult}
    (hr : ∀ err, r ≠ .fail err) (hagain : ∀ total i c, pc = .send total i c → r ≠ .again)
    (htotal : ∀ total, pc = .peek total → s.txWaitQueue = [] → 0 < total.toInt32)
    {x : List TxMsg × Next × List Event} (hx : writeToCsock s.txWaitQueue pc r = some x) (writable : Bool) :
    Inv (({ s with txWaitQueue := x.1, writable := writable } : State N).setPos t (posAfter x.2.1)) := by
  have hown : (s.pos t).Owns := by
    rw [ht]
    trivial
  have hgoes : ∀ q pc', (∀ m ∈ q, Fragmented m) →
      Inv (({ s with txWaitQueue := q, writable := writable } : State N).setPos t (.write pc')) := by
    intro q pc' hq
    exact h.writing (h.owned.move (iff_of_true trivial hown)) hq
  obtain ⟨q, nxt, e⟩ := x
  rcases writeToCsock_cases hx with ⟨total, rfl, hq, rfl, rfl⟩ | ⟨m, m', rest, hq, rfl, hskbs, hnxt⟩ |
    ⟨m, total, hq, rfl⟩
  · have hpos := htotal total rfl hq
    apply h.update
    · exact h.owned.move (iff_of_true trivial hown)
    · exact fun hne => absurd rfl hne
    · intro m hm
      cases hm
    · rintro ret hret
      cases hret
      exact hpos
    · intro m hm
      cases hm
  · have hfrag : ∀ m ∈ m' :: rest, Fragmented m := by
      intro m'' hm''
      rcases List.mem_cons.mp hm'' with rfl | hm''
      · rw [Fragmented, hskbs]
        exact h.waiting m (by rw [hq]; exact List.mem_cons_self)
      · exact h.waiting m'' (by rw [hq]; exact List.mem_cons_of_mem _ hm'')
    rcases hnxt with ⟨pc', rfl⟩ | ⟨skb, hskb, hnil⟩ | ⟨total, i, c, hpc, hr'⟩ | ⟨err, hr'⟩
    · exact hgoes _ _ hfrag
    · exact absurd hnil (h.waiting m (by rw [hq]; exact List.mem_cons_self) skb hskb)
    · exact absurd hr' (hagain total i c hpc)
    · exact absurd hr' (hr err)
  · apply hgoes
    intro m' hm'
    exact h.waiting m' (by rw [hq]; exact List.mem_cons_of_mem _ hm')

theorem Inv.run (h : Inv s) {r : SendResult} (hr : ∀ err, r ≠ .fail err) (ho : OrderlyAt s r (s.pos t))
    (hs : rakaiaWriteMsgs s t r = some (s', e)) : Inv s' := by
  unfold rakaiaWriteMsgs at hs
  cases ht : s.pos t with
  | idle =>
      rw [ht] at hs
      cases hs
  | loop =>
      rw [ht] at hs
      have hnot : ¬ (s.pos t).Owns := by
        rw [ht]
        exact id
      cases hq : s.skWriteQueue t with
      | nil =>
          simp only [hq] at hs
          obtain ⟨rfl, -⟩ := Prod.mk.inj (Option.some.inj hs)
          exact h.move hnot id (fun m hm => by cases hm)
      | cons m rest =>
          simp only [hq] at hs
          obtain ⟨rfl, -⟩ := Prod.mk.inj (Option.some.inj hs)
          have hrest : ∀ m' ∈ rest, Fragmented m' := by
            intro m' hm'
            exact h.queued t m' (by rw [hq]; exact List.mem_cons_of_mem _ hm')
          apply (h.setQueue t hrest).move hnot id
          intro m' hm'
          cases hm'
          exact h.queued t m (by rw [hq]; exact List.mem_cons_self)
  | append m =>
      rw [ht] at hs ho
      obtain ⟨rfl, -⟩ := Prod.mk.inj (Option.some.inj hs)
      exact h.append ht ho
  | write pc =>
      rw [ht] at hs ho
      obtain ⟨x, hx, heq⟩ := Option.map_eq_some_iff.mp hs
      obtain ⟨rfl, -⟩ := Prod.mk.inj heq
      apply h.write ht hr _ _ hx
      · rintro total i c rfl
        exact ho
      · rintro total rfl
        exact ho
  | wrote ret =>
      rw [ht] at hs
      obtain ⟨rfl, -⟩ := Prod.mk.inj (Option.some.inj hs)
      exact h.wroteMsgs ht

theorem Inv.step (h : Inv s) {a : Act N} (ha : Admissible a) (ho : Orderly s a)
    (hs : step s a = some (s', e)) : Inv s' := by
  cases a with
  | sendmsg t head fragList =>
      rw [Threads.step] at hs
      split_ifs at hs with ht
      obtain ⟨rfl, -⟩ := Prod.mk.inj (Option.some.inj hs)
      exact h.sendmsg ht ha
  | run t r =>
      refine h.run ?_ ho hs
      rintro err rfl
      exact ha
  | writeSpace =>
      obtain ⟨rfl, -⟩ := Prod.mk.inj (Option.some.inj hs)
      exact ⟨h.owned, h.attended, h.wrote, h.waiting, h.queued, h.moving⟩

theorem inv_init : Inv (State.init N) where
  owned := by constructor <;> simp [State.init, Pos.Owns]
  attended := fun hne => absurd rfl hne
  wrote := fun t ret ht => by cases ht
  waiting := fun m hm => by cases hm
  queued := fun t m hm => by cases hm
  moving := fun t m ht => by cases ht

theorem inv_of_reach {es : List Event}
    (h : (machine N).Reach (fun s a => Admissible a ∧ Orderly s a) s es) : Inv s :=
  h.invariant (P := fun s _ => Inv s) inv_init (fun _ _ _ _ _ _ hi hg hs => hi.step hg.1 hg.2 hs)

end invariant

/-! ### The main result -/

/-- **The tls transmit path does not wedge** in any run in which `sock_sendmsg` does not return `-EAGAIN`, no
message is appended between the section in which the owner of `tx_in_use` finds the queue empty and the one
in which it gives the flag up, and no call of `write_to_csock` sends `2 ^ 31` bytes or more: when no thread is
sending and the TCP socket is writable, the flag is not set and the queue is empty. -/
theorem never_wedges {N : ℕ} {s : State N} {es : List Event}
    (h : (machine N).Reach (fun s a => Admissible a ∧ Orderly s a) s es) (hq : Quiescent s) :
    s.txInUse = false ∧ s.txWaitQueue = [] :=
  (inv_of_reach h).notWedged hq

/-- A buffer with one fragment of two bytes. -/
def twoBytes : TxSkb := ⟨[⟨[104, 105], List.cons_ne_nil _ _⟩], by decide⟩

/-- The second thread appends its message while the first one writes; the first one sends both. -/
def handOver : List (Act 2) :=
  [.sendmsg 0 twoBytes [], .run 0 .again, .run 0 .again, .run 0 .again, .sendmsg 1 twoBytes [twoBytes], .run 1 .again,
    .run 1 .again, .run 0 (.sent 1), .run 0 (.sent 1), .run 0 .again, .run 0 .again, .run 0 (.sent 2), .run 0 .again,
    .run 0 (.sent 2), .run 0 .again, .run 0 .again, .run 0 .again, .run 0 .again, .run 1 .again]

theorem never_wedges_hand_over : ∃ s es,
    (machine 2).Reach (fun s a => Admissible a ∧ Orderly s a) s es ∧ Quiescent s ∧ s.txInUse = false ∧
    s.txWaitQueue = [] := by
  obtain ⟨s, es, hr, hy⟩ := Machine.Reach.of_exec (M := machine 2)
    (G := fun s a => Admissible a ∧ Orderly s a) (g := fun s a => decide (Admissible a ∧ Orderly s a)) handOver
    (fun _ _ _ => of_decide_eq_true) (fun r => decide (Quiescent r.1)) true
    (by decide +kernel)
  have hq : Quiescent s := of_decide_eq_true hy
  exact ⟨s, es, hr, hq, never_wedges hr hq⟩

/-- The only thread gets `-EAGAIN`; then the TCP socket becomes writable. -/
def againActs : List (Act 1) :=
  [.sendmsg 0 twoBytes [], .run 0 .again, .run 0 .again, .run 0 .again, .run 0 .again, .run 0 .again, .writeSpace]

/-- The first thread has sent its message and found the queue empty; the second one appends a message; the
first one gives `tx_in_use` up. -/
def windowActs : List (Act 2) :=
  [.sendmsg 0 twoBytes [], .run 0 .again, .run 0 .again, .run 0 .again, .run 0 (.sent 2), .run 0 .again,
    .run 0 .again, .sendmsg 1 twoBytes [], .run 1 .again, .run 1 .again, .run 1 .again, .run 0 .again, .run 0 .again]

/-- Two wedged states: after `-EAGAIN` the flag stays set with a message in the queue; and without
`-EAGAIN` a message that was appended in the window stays in the queue. -/
theorem wedges :
    (∃ s es, (machine 1).Reach (fun _ a => Admissible a) s es ∧ Quiescent s ∧ s.txInUse = true ∧
      s.txWaitQueue ≠ []) ∧
    ∃ s es, (machine 2).Reach (fun _ a => Admissible a) s es ∧ Quiescent s ∧ s.txWaitQueue ≠ [] := by
  constructor
  · obtain ⟨s, es, hr, hy⟩ := Machine.Reach.of_exec (M := machine 1) (G := fun _ a => Admissible a)
      (g := fun _ a => decide (Admissible a)) againActs (fun _ _ _ => of_decide_eq_true)
      (fun r => decide (Quiescent r.1 ∧ r.1.txInUse = true ∧ r.1.txWaitQueue ≠ [])) true (by decide +kernel)
    exact ⟨s, es, hr, of_decide_eq_true hy⟩
  · obtain ⟨s, es, hr, hy⟩ := Machine.Reach.of_exec (M := machine 2) (G := fun _ a => Admissible a)
      (g := fun _ a => decide (Admissible a)) windowActs (fun _ _ _ => of_decide_eq_true)
      (fun r => decide (Quiescent r.1 ∧ r.1.txWaitQueue ≠ [])) true (by decide +kernel)
    exact ⟨s, es, hr, of_decide_eq_true hy⟩

end Rakaia.TlsTx.Threads
