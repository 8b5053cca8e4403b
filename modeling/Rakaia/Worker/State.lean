import Rakaia.Sched.Invariant
import Rakaia.Tx.State

/-! # The workers of a plain-tcp server

Every rakaia socket belongs to one thread of the server (`bench/servers/common-rakaia.c`): it creates
the socket, calls `rakaia_pull` once, and then waits for a message, receives it and sends the answer,
for ever.  `rakaia_recvmsg` remembers the psock that the scheduler stored in the message, and
`rakaia_sendmsg` sends to it; on success, and only then, it ends with a call of `rakaia_pull`.

The machine is built on the scheduler and on one transmit path for each psock.  Thread `i` is the
worker of socket `i`; other threads (with numbers from `NUM_RAKAIA_SOCKETS` on) may call `rakaia_pull`
and run `tx_work`. -/

namespace Rakaia.Worker

open Sched (Ksk numRakaiaSockets)

/-- Where a worker stands in its loop. -/
inductive Pc where
  /-- Before the `rakaia_pull` that follows `rakaia_create`. -/
  | start
  /-- In that `rakaia_pull`. -/
  | firstPull
  | waiting
  /-- A message is received and not answered. -/
  | serving
  /-- In `rakaia_sendmsg`: the answer is spliced, `try_send_from_psock` is running. -/
  | sending (psock : PsockPtr)
  /-- In the `rakaia_pull` at the end of `rakaia_sendmsg`. -/
  | nextPull
deriving DecidableEq

/-- The scheduler, the transmit path of every psock, the positions of the workers, and `last_psock`
of every socket. -/
structure State where
  sched : Sched.State
  tx : PsockPtr → Tx.State
  pc : Ksk → Pc
  lastPsock : Ksk → PsockPtr

/-- Before anything happens; the TCP socket of a psock starts at a sequence number of its own. -/
def State.init (writeSeq : PsockPtr → UInt32) : State where
  sched := Sched.State.init
  tx psock := Tx.State.init (writeSeq psock)
  pc _ := .start
  lastPsock _ := 0

inductive Event where
  | sched (e : Sched.Event)
  | tx (psock : PsockPtr) (e : Tx.Event)
  /-- `rakaia_recvmsg` returns an error although it took a message. -/
  | recvFault (ksk : Ksk)
  /-- `rakaia_sendmsg` returns an error. -/
  | sendError (ksk : Ksk)

/-- One step of one thread. -/
inductive Act where
  /-- A step of the scheduler: creation, a push or a pull. -/
  | sched (a : Sched.Act)
  /-- `rakaia_recvmsg` on a non-empty queue; `copied` is the result of `skb_copy_datagram_msg`. -/
  | recvmsg (ksk : Ksk) (copied : Bool)
  /-- `rakaia_sendmsg` up to the splice, with segments of the given byte counts; `none` is a failed
  check or copy. -/
  | sendmsg (ksk : Ksk) (segments : Option (List UInt32))
  /-- `try_send_from_psock` has returned; `rakaia_sendmsg` calls `rakaia_pull`. -/
  | sent (ksk : Ksk)
  /-- A step of the transmit path of a psock. -/
  | tx (psock : PsockPtr) (a : Tx.Act)

namespace State

variable (s : State)

@[simp] def setPc (ksk : Ksk) (pc : Pc) : State := { s with pc := Function.update s.pc ksk pc }

/-- The steps of the scheduler that are not part of a worker's call of `recvmsg` or `sendmsg`. -/
def mayRun : Sched.Act → Bool
  | .recvmsg _ => false
  | .pullStart t ksk => decide (t = ksk.val ∧ s.pc ksk = .start ∨ numRakaiaSockets ≤ t)
  | _ => true

/-- The positions after a step of the scheduler: a worker waits when its pull has returned. -/
def pcAfter (a : Sched.Act) (sched : Sched.State) : Ksk → Pc :=
  match a with
  | .pullStart t ksk => if t = ksk.val then Function.update s.pc ksk .firstPull else s.pc
  | .pull t _ _ =>
      if h : t < numRakaiaSockets then
        if (sched.pull t).isIdle then Function.update s.pc ⟨t, h⟩ .waiting else s.pc
      else s.pc
  | _ => s.pc

/-- The steps of a transmit path that are not the splice of a `sendmsg`. -/
def mayTransmit : Tx.Act → Bool
  | .splice _ _ => false
  | .txWork t => decide (numRakaiaSockets ≤ t)
  | _ => true

end State

/-! ### The functions of the source -/

/-- `rakaia_recvmsg` on a non-empty `sk_receive_queue`.  The message is freed even when it could not
be copied. -/
def rakaiaRecvmsg (s : State) (ksk : Ksk) (copied : Bool) : Option (State × List Event) :=
  match s.sched.receiveQ ksk with
  | [] => none
  | skb :: _ =>
      (Sched.recvmsg .plainTcp s.sched ksk).map fun r =>
        let s : State := { s with sched := r.1, lastPsock := Function.update s.lastPsock ksk skb.getPsock }
        if copied then (s.setPc ksk .serving, r.2.map .sched)
        else (s.setPc ksk .waiting, r.2.map .sched ++ [.recvFault ksk])

/-- `rakaia_sendmsg` up to the call of `try_send_from_psock`. -/
def rakaiaSendmsg (s : State) (ksk : Ksk) (segments : Option (List UInt32)) :
    Option (State × List Event) :=
  let psock := s.lastPsock ksk
  match segments with
  | none => some (s.setPc ksk .waiting, [.sendError ksk])
  | some lens =>
      if psock = 0 then some (s.setPc ksk .waiting, [.sendError ksk])
      else
        (Tx.step .plainTcp (s.tx psock) (.splice ksk.val lens)).map fun r =>
          (({ s with tx := Function.update s.tx psock r.1 } : State).setPc ksk (.sending psock),
            r.2.map (.tx psock))

/-- One step of the server. -/
def step (s : State) : Act → Option (State × List Event)
  | .sched a =>
      if s.mayRun a then
        (Sched.step .plainTcp s.sched a).map fun r =>
          ({ s with sched := r.1, pc := s.pcAfter a r.1 }, r.2.map .sched)
      else none
  | .recvmsg ksk copied => if s.pc ksk = .waiting then rakaiaRecvmsg s ksk copied else none
  | .sendmsg ksk segments => if s.pc ksk = .serving then rakaiaSendmsg s ksk segments else none
  | .sent ksk =>
      match s.pc ksk with
      | .sending psock =>
          if (s.tx psock).pc ksk.val = .idle then
            (Sched.step .plainTcp s.sched (.pullStart ksk.val ksk)).map fun r =>
              (({ s with sched := r.1 } : State).setPc ksk .nextPull, r.2.map .sched)
          else none
      | _ => none
  | .tx psock a =>
      if State.mayTransmit a then
        (Tx.step .plainTcp (s.tx psock) a).map fun r =>
          ({ s with tx := Function.update s.tx psock r.1 }, r.2.map (.tx psock))
      else none

/-- The server. -/
def machine (writeSeq : PsockPtr → UInt32) : Lib.Machine State Act Event := ⟨State.init writeSeq, step⟩

/-! ### What a step can do -/

/-- A message is taken off a receive queue and its psock remembered. -/
def State.take (s : State) (ksk : Ksk) (skb : Skb) (rest : List Skb) : State :=
  { s with
    sched := { s.sched with
      rmemAlloc := Function.update s.sched.rmemAlloc ksk (s.sched.rmemAlloc ksk - skb.truesize)
      receiveQ := Function.update s.sched.receiveQ ksk rest }
    lastPsock := Function.update s.lastPsock ksk skb.getPsock }

/-- The transitions of the server. -/
inductive Step (s : State) : Act → State → List Event → Prop
  | sched (a : Sched.Act) (sched : Sched.State) (e : List Sched.Event) : s.mayRun a = true →
      Sched.step .plainTcp s.sched a = some (sched, e) →
      Step s (.sched a) { s with sched := sched, pc := s.pcAfter a sched } (e.map .sched)
  | received (ksk : Ksk) (skb : Skb) (rest : List Skb) : s.pc ksk = .waiting →
      s.sched.receiveQ ksk = skb :: rest →
      Step s (.recvmsg ksk true) ((s.take ksk skb rest).setPc ksk .serving) [.sched (.received ksk skb)]
  | recvFault (ksk : Ksk) (skb : Skb) (rest : List Skb) : s.pc ksk = .waiting →
      s.sched.receiveQ ksk = skb :: rest →
      Step s (.recvmsg ksk false) ((s.take ksk skb rest).setPc ksk .waiting)
        [.sched (.received ksk skb), .recvFault ksk]
  | sendError (ksk : Ksk) (segments : Option (List UInt32)) : s.pc ksk = .serving →
      (segments = none ∨ s.lastPsock ksk = 0) →
      Step s (.sendmsg ksk segments) (s.setPc ksk .waiting) [.sendError ksk]
  | spliced (ksk : Ksk) (lens : List UInt32) (psock : PsockPtr) : s.pc ksk = .serving →
      s.lastPsock ksk = psock → psock ≠ 0 → (s.tx psock).pc ksk.val = .idle →
      Step s (.sendmsg ksk (some lens))
        (({ s with tx := Function.update s.tx psock (((s.tx psock).append lens).setPc ksk.val .call) } :
          State).setPc ksk (.sending psock)) [.tx psock (.spliced (s.tx psock).nextMsg lens)]
  | sent (ksk : Ksk) (psock : PsockPtr) : s.pc ksk = .sending psock → (s.tx psock).pc ksk.val = .idle →
      s.sched.pull ksk.val = .idle → ksk.val < s.sched.socksCnt → s.sched.creating ksk = false →
      Step s (.sent ksk) (({ s with sched := s.sched.setPull ksk.val (.own ksk) } : State).setPc ksk
        .nextPull) []
  | tx (psock : PsockPtr) (a : Tx.Act) (tx : Tx.State) (e : List Tx.Event) :
      State.mayTransmit a = true → Tx.Step .plainTcp (s.tx psock) a tx e →
      Step s (.tx psock a) { s with tx := Function.update s.tx psock tx } (e.map (.tx psock))

variable {s s' : State} {a : Act} {e : List Event}

theorem rakaiaRecvmsg_cases {ksk : Ksk} {copied : Bool} (hpc : s.pc ksk = .waiting)
    (h : rakaiaRecvmsg s ksk copied = some (s', e)) : Step s (.recvmsg ksk copied) s' e := by
  unfold rakaiaRecvmsg Sched.recvmsg at h
  cases hq : s.sched.receiveQ ksk with
  | nil => rw [hq] at h; cases h
  | cons skb rest =>
      simp only [hq, Option.map_some] at h
      cases copied with
      | true =>
          obtain ⟨rfl, rfl⟩ := Prod.mk.inj (Option.some.inj h)
          exact .received ksk skb rest hpc hq
      | false =>
          obtain ⟨rfl, rfl⟩ := Prod.mk.inj (Option.some.inj h)
          exact .recvFault ksk skb rest hpc hq

theorem rakaiaSendmsg_cases {ksk : Ksk} {segments : Option (List UInt32)} (hpc : s.pc ksk = .serving)
    (h : rakaiaSendmsg s ksk segments = some (s', e)) : Step s (.sendmsg ksk segments) s' e := by
  unfold rakaiaSendmsg at h
  cases segments with
  | none =>
      obtain ⟨rfl, rfl⟩ := Prod.mk.inj (Option.some.inj h)
      exact .sendError ksk none hpc (.inl rfl)
  | some lens =>
      simp only at h
      split_ifs at h with h0
      · obtain ⟨rfl, rfl⟩ := Prod.mk.inj (Option.some.inj h)
        exact .sendError ksk _ hpc (.inr h0)
      · simp only [Tx.step] at h
        split_ifs at h with hidle
        · obtain ⟨rfl, rfl⟩ := Prod.mk.inj (Option.some.inj h)
          exact .spliced ksk lens _ hpc rfl h0 hidle
        · cases h

/-- **The server makes no other step** than those listed in `Step`. -/
theorem step_cases (h : step s a = some (s', e)) : Step s a s' e := by
  cases a with
  | sched a =>
      simp only [step] at h
      split_ifs at h with hm
      simp only [Option.map_eq_some_iff, Prod.mk.injEq, Prod.exists] at h
      obtain ⟨sc, es, hs, rfl, rfl⟩ := h
      exact .sched a sc es hm hs
  | recvmsg ksk copied =>
      simp only [step] at h
      split_ifs at h with hpc
      exact rakaiaRecvmsg_cases hpc h
  | sendmsg ksk segments =>
      simp only [step] at h
      split_ifs at h with hpc
      exact rakaiaSendmsg_cases hpc h
  | sent ksk =>
      simp only [step] at h
      cases hpc : s.pc ksk with
      | sending psock =>
          simp only [hpc] at h
          split_ifs at h with hidle
          simp only [Option.map_eq_some_iff, Prod.mk.injEq, Prod.exists] at h
          obtain ⟨sc, es, hs, rfl, rfl⟩ := h
          cases Sched.step_cases hs with
          | pullStart t k hp hb hc => exact .sent ksk psock hpc hidle hp hb hc
      | _ => simp only [hpc] at h; cases h
  | tx psock a =>
      simp only [step] at h
      split_ifs at h with hm
      simp only [Option.map_eq_some_iff, Prod.mk.injEq, Prod.exists] at h
      obtain ⟨tx, es, hs, rfl, rfl⟩ := h
      exact .tx psock a tx es hm (Tx.step_cases hs)

/-! ### The scheduler in the server -/

/-- The events of the scheduler in a history of the server. -/
def Event.sched? : Event → Option Sched.Event
  | .sched e => some e
  | _ => none

def schedEvents (es : List Event) : List Sched.Event := es.filterMap Event.sched?

theorem schedEvents_sched (e : List Sched.Event) : schedEvents (e.map .sched) = e := by
  induction e with
  | nil => rfl
  | cons ev e ih => simpa [schedEvents, Event.sched?] using ih

theorem schedEvents_tx (psock : PsockPtr) (e : List Tx.Event) : schedEvents (e.map (.tx psock)) = [] := by
  induction e with
  | nil => rfl
  | cons ev e ih => simp [schedEvents, Event.sched?]

/-- A step of the server is a step of the scheduler, or leaves it alone. -/
theorem sched_step (hs : Step s a s' e) :
    (s'.sched = s.sched ∧ schedEvents e = []) ∨
      ∃ b, Sched.step .plainTcp s.sched b = some (s'.sched, schedEvents e) := by
  cases hs with
  | sched b sc es hm hs => exact .inr ⟨b, by rw [schedEvents_sched]; exact hs⟩
  | received ksk skb rest hpc hq => exact .inr ⟨.recvmsg ksk, by simp only [Sched.step, Sched.recvmsg, hq]; rfl⟩
  | recvFault ksk skb rest hpc hq => exact .inr ⟨.recvmsg ksk, by simp only [Sched.step, Sched.recvmsg, hq]; rfl⟩
  | sendError => exact .inl ⟨rfl, rfl⟩
  | spliced => exact .inl ⟨rfl, rfl⟩
  | sent ksk psock hpc hidle hp hb hc =>
      refine .inr ⟨.pullStart ksk.val ksk, ?_⟩
      simp only [Sched.step, Sched.pullStart, hp, if_pos (And.intro hb hc)]
      rfl
  | tx psock b tx es hm hs => exact .inl ⟨rfl, schedEvents_tx psock es⟩

/-- The scheduler of a server runs as the scheduler does. -/
theorem sched_of_reach {writeSeq : PsockPtr → UInt32} {G : State → Act → Prop} {es : List Event}
    (h : (machine writeSeq).Reach G s es) :
    (Sched.machine .plainTcp).Reachable s.sched (schedEvents es) :=
  h.project State.sched schedEvents (fun _ _ => List.filterMap_append) rfl rfl
    (fun _ _ _ _ _ _ _ hs => (sched_step (step_cases hs)).imp id (fun ⟨b, hb⟩ => ⟨b, trivial, hb⟩))

end Rakaia.Worker
