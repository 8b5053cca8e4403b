import Rakaia.System.State

/-! # The steps of the server, and its parts

What a step of the server can do (`Step`, `step_cases`), and what its parts do in a run of the server: the
parser of each connection runs as the parser does (`parser_of_reach`), and the workers with the scheduler and
the transmit paths as the workers do (`worker_of_reach`). -/

namespace Rakaia.System

open Lib
open Sched (Ksk)
open Strp.Memcache (headerLen SkRcvbuf)

/-- The transitions of the server. -/
inductive Step (rcvbuf : PsockPtr → SkRcvbuf) (s : State) : Act → State → List Event → Prop
  | present (psock : PsockPtr) (a : Strp.Act) (p : Strp.State Unit) (e : List (Strp.Event Unit)) :
      s.pending psock = [] → s.pushed psock = true →
      Strp.step Strp.Memcache.parser (rcvbuf psock) (s.parser psock) a = some (p, e) →
      Step rcvbuf s (.present psock a)
        { s with parser := Function.update s.parser psock p
                 pending := Function.update s.pending psock (Strp.messages e) } (e.map (.strp psock))
  | hand (psock : PsockPtr) (base : Cb) (r1 r2 : UInt8) (head : Strp.Head Unit) (rest : List (Strp.Head Unit))
      (w : Worker.State) : s.pending psock = head :: rest → s.pushed psock = true →
      Worker.step s.worker (.sched (.pushStart psock (cbOf head.stm base) head.skb.truesize r1 r2)) =
        some (w, [.sched (.handed s.worker.sched.nextId psock (cbOf head.stm base))]) →
      w.sched.nextId = s.worker.sched.nextId + 1 →
      Step rcvbuf s (.hand psock base r1 r2)
        { s with pending := Function.update s.pending psock rest
                 pushing := Function.update s.pushing psock (some s.worker.sched.nextId)
                 buf := Function.update s.buf s.worker.sched.nextId head.skb
                 worker := w }
        [.handed psock head, .worker (.sched (.handed s.worker.sched.nextId psock (cbOf head.stm base)))]
  | worker (a : Worker.Act) (w : Worker.State) (e : List Worker.Event) : outer a = true →
      Worker.step s.worker a = some (w, e) → Step rcvbuf s (.worker a) { s with worker := w } (e.map .worker)
  | returned (ksk : Ksk) (skb : Skb) (rest : List Skb) (r : Seqpacket.Returned) : s.worker.pc ksk = .waiting →
      s.worker.sched.receiveQ ksk = skb :: rest → r = rakaiaRecvmsg ⟨skb.cb, s.buf skb.id⟩ →
      asserted r.ret ((s.ctx ksk).receive r.stored).request = true →
      Step rcvbuf s (.recvmsg ksk)
        { s with worker := (s.worker.take ksk skb rest).setPc ksk .serving
                 ctx := Function.update s.ctx ksk ((s.ctx ksk).receive r.stored) }
        [.worker (.sched (.received ksk skb)), .returned ksk r]
  | assertFailed (ksk : Ksk) (skb : Skb) (rest : List Skb) (r : Seqpacket.Returned) (w : Worker.State)
      (e : List Worker.Event) : s.worker.sched.receiveQ ksk = skb :: rest →
      r = rakaiaRecvmsg ⟨skb.cb, s.buf skb.id⟩ →
      asserted r.ret ((s.ctx ksk).receive r.stored).request = false →
      Worker.step s.worker (.recvmsg ksk (decide (0 ≤ r.ret))) = some (w, e) →
      Step rcvbuf s (.recvmsg ksk) { s with worker := w, aborted := true }
        (e.map .worker ++ [.assertFailed ksk])
  | answered (ksk : Ksk) (env : SendEnv) (r : Tx.Sendmsg.Result) (rest : List Tx.Sendmsg.Outcome) (n : ℕ)
      (w : Worker.State) (psock : PsockPtr) :
      Tx.Sendmsg.rakaiaSendmsg (s.call ksk env) (s.sock ksk env) env.intact env.outcomes = some (r, rest) →
      r.ret = .ok n → s.worker.pc ksk = .serving → s.worker.lastPsock ksk = psock →
      Worker.step s.worker (.sendmsg ksk (some (r.spliced.map Tx.Sendmsg.Seg.seq))) = some (w,
        [.tx psock (.spliced (s.worker.tx psock).nextMsg (r.spliced.map Tx.Sendmsg.Seg.seq))]) →
      w.pc = Function.update s.worker.pc ksk (.sending psock) → w.sched = s.worker.sched →
      w.lastPsock = s.worker.lastPsock →
      Step rcvbuf s (.sendmsg ksk env) { s with worker := w }
        [.worker (.tx psock (.spliced (s.worker.tx psock).nextMsg (r.spliced.map Tx.Sendmsg.Seg.seq))),
          .answered ksk psock (r.spliced.map Tx.Sendmsg.Seg.bytes)]
  | sendError (ksk : Ksk) (env : SendEnv) : s.worker.pc ksk = .serving →
      Step rcvbuf s (.sendmsg ksk env) { s with worker := s.worker.setPc ksk .waiting } [.worker (.sendError ksk)]

variable {rcvbuf : PsockPtr → SkRcvbuf} {writeSeq : PsockPtr → UInt32} {s s' : State} {a : Act} {es e : List Event}

theorem drive_cases {ksk : Ksk} (h : drive s ksk = some (s', e)) : Step rcvbuf s (.recvmsg ksk) s' e := by
  unfold drive at h
  cases hq : s.worker.sched.receiveQ ksk with
  | nil => rw [hq] at h; cases h
  | cons skb rest =>
      simp only [hq, Option.map_eq_some_iff, Prod.exists] at h
      obtain ⟨w, e', hs, heq⟩ := h
      split_ifs at heq with hok
      · obtain ⟨rfl, rfl⟩ := Prod.mk.inj heq
        have hret : 0 ≤ (rakaiaRecvmsg ⟨skb.cb, s.buf skb.id⟩).ret :=
          le_trans (Int.natCast_nonneg _) ((asserted_iff _ _).mp hok).1
        rw [decide_eq_true hret] at hs
        cases Worker.step_cases hs with
        | received _ skb' rest' hpc hq' =>
            obtain ⟨rfl, rfl⟩ := List.cons.inj (hq.symm.trans hq')
            exact .returned ksk skb rest _ hpc hq rfl hok
      · obtain ⟨rfl, rfl⟩ := Prod.mk.inj heq
        exact .assertFailed ksk skb rest _ w e' hq rfl (by simpa using hok) hs

theorem respond_cases {ksk : Ksk} {env : SendEnv} (h : respond s ksk env = some (s', e)) :
    Step rcvbuf s (.sendmsg ksk env) s' e := by
  unfold respond at h
  cases hr : Tx.Sendmsg.rakaiaSendmsg (s.call ksk env) (s.sock ksk env) env.intact env.outcomes with
  | none => rw [hr] at h; cases h
  | some q =>
      obtain ⟨r, rest⟩ := q
      simp only [hr] at h
      cases hret : r.ret with
      | error err =>
          simp only [hret, Option.map_eq_some_iff, Prod.exists] at h
          obtain ⟨w, e', hs, heq⟩ := h
          obtain ⟨rfl, rfl⟩ := Prod.mk.inj heq
          cases Worker.step_cases hs with
          | sendError _ _ hpc => exact .sendError ksk env hpc
      | ok n =>
          simp only [hret, Option.map_eq_some_iff, Prod.exists] at h
          obtain ⟨w, e', hs, heq⟩ := h
          obtain ⟨rfl, rfl⟩ := Prod.mk.inj heq
          cases Worker.step_cases hs with
          | sendError _ _ hpc hno =>
              -- a call that returned a length has found a psock
              have h0 : s.worker.lastPsock ksk = 0 := hno.resolve_left nofun
              rcases Tx.Sendmsg.rakaiaSendmsg_cases hr with ⟨rfl, -⟩ | ⟨psock, hp, -⟩
              · cases hret
              · simp [State.sock, h0] at hp
          | spliced _ _ psock hpc hlast =>
              subst hlast
              refine .answered ksk env r rest n _ _ hr hret hpc rfl hs ?_ ?_ ?_ <;> rfl

/-- **The server makes no other step** than those listed in `Step`. -/
theorem step_cases (h : step rcvbuf s a = some (s', e)) : Step rcvbuf s a s' e := by
  cases a with
  | present psock a =>
      simp only [step] at h
      split_ifs at h with hp
      simp only [Option.map_eq_some_iff, Prod.exists, Prod.mk.injEq] at h
      obtain ⟨p, e', hs, rfl, rfl⟩ := h
      exact .present psock a p e' hp.1 hp.2 hs
  | hand psock base r1 r2 =>
      simp only [step] at h
      cases hp : s.pending psock with
      | nil => rw [hp] at h; cases h
      | cons head rest =>
          simp only [hp] at h
          split_ifs at h with hpush
          simp only [Option.map_eq_some_iff, Prod.exists, Prod.mk.injEq] at h
          obtain ⟨w, e', hs, rfl, rfl⟩ := h
          cases Worker.step_cases hs with
          | sched _ sc es' hm hb =>
              cases Sched.step_cases hb with
              | pushStart _ _ _ _ _ hn => exact .hand psock base r1 r2 head rest _ hp hpush hs rfl
  | worker a =>
      simp only [step] at h
      split_ifs at h with ho
      simp only [Option.map_eq_some_iff, Prod.exists, Prod.mk.injEq] at h
      obtain ⟨w, e', hs, rfl, rfl⟩ := h
      exact .worker a w e' ho hs
  | recvmsg ksk =>
      simp only [step] at h
      split_ifs at h
      exact drive_cases h
  | sendmsg ksk env =>
      simp only [step] at h
      split_ifs at h
      exact respond_cases h

/-! ### The workers in the server -/

def Event.worker? : Event → Option Worker.Event
  | .worker e => some e
  | _ => none

/-- The events of the workers in a history of the server. -/
def workerEvents (es : List Event) : List Worker.Event := es.filterMap Event.worker?

@[simp] theorem workerEvents_append (es e : List Event) :
    workerEvents (es ++ e) = workerEvents es ++ workerEvents e := List.filterMap_append

@[simp] theorem workerEvents_worker (e : List Worker.Event) : workerEvents (e.map .worker) = e :=
  (filterMap_map_of_some (f := Event.worker?) (fun _ => rfl) e).trans (List.map_id e)

@[simp] theorem workerEvents_strp (psock : PsockPtr) (e : List (Strp.Event Unit)) :
    workerEvents (e.map (.strp psock)) = [] := filterMap_map_of_none (fun _ => rfl) e

@[simp] theorem workerEvents_assertFailed (e : List Worker.Event) (ksk : Ksk) :
    workerEvents (e.map .worker ++ [.assertFailed ksk]) = e := by
  rw [workerEvents_append, workerEvents_worker]
  exact List.append_nil e

/-- A step of the server is a step of the workers, or leaves them alone. -/
theorem worker_step (hs : Step rcvbuf s a s' e) :
    (s'.worker = s.worker ∧ workerEvents e = []) ∨
      ∃ b, b.own = true ∧ Worker.step s.worker b = some (s'.worker, workerEvents e) := by
  cases hs with
  | present psock a p e => exact .inl ⟨rfl, workerEvents_strp psock e⟩
  | hand psock base r1 r2 head rest w _ _ hw => exact .inr ⟨_, rfl, hw⟩
  | worker a w e ho hw =>
      refine .inr ⟨a, ?_, by rw [workerEvents_worker]; exact hw⟩
      cases a with
      | sched b =>
          cases b with
          | pullStart t ksk =>
              have ht : t = ksk.val := of_decide_eq_true ho
              exact decide_eq_true (ht ▸ ksk.isLt)
          | _ => rfl
      | _ => rfl
  | returned ksk skb rest r hpc hq =>
      refine .inr ⟨.recvmsg ksk true, rfl, ?_⟩
      simp only [Worker.step, if_pos hpc, Worker.rakaiaRecvmsg, Sched.recvmsg, hq]
      rfl
  | assertFailed ksk skb rest r w e _ _ _ hw =>
      exact .inr ⟨_, rfl, by rw [workerEvents_assertFailed]; exact hw⟩
  | answered ksk env r rest n w psock _ _ _ _ hw => exact .inr ⟨_, rfl, hw⟩
  | sendError ksk env hpc =>
      refine .inr ⟨.sendmsg ksk none, rfl, ?_⟩
      simp only [Worker.step, if_pos hpc]
      rfl

variable {G : State → Act → Prop}

/-- The workers of a server run as the workers do; they alone call `rakaia_pull`. -/
theorem worker_of_reach (h : (machine rcvbuf writeSeq).Reach G s es) :
    (Worker.machine writeSeq).Reach (fun _ b => b.own = true) s.worker (workerEvents es) :=
  h.project State.worker workerEvents workerEvents_append rfl rfl
    (fun _ _ _ _ _ _ _ hs => worker_step (step_cases hs))

/-- The scheduler of a server runs as the scheduler does. -/
theorem sched_of_reach (h : (machine rcvbuf writeSeq).Reach G s es) :
    (Sched.machine .plainTcp).Reachable s.worker.sched (Worker.schedEvents (workerEvents es)) :=
  Worker.sched_of_reach (worker_of_reach h)

/-! ### The parsers in the server -/

/-- What the environment does: TCP presents the bytes of the stream of a connection, in buffers whose length is an
`int`; and the page fragment of a thread moves as page fragments do. -/
def Fair (streams : PsockPtr → List (List UInt8)) (s : State) : Act → Prop
  | .present psock a => Strp.Presents (streams psock) (s.parser psock) a ∧ a.skb.len < 2 ^ 31
  | .sendmsg ksk env =>
      Tx.Sendmsg.SaneRun (s.call ksk env) (.init (s.call ksk env) (s.sock ksk env)) env.outcomes
  | _ => True

def Event.strp? : Event → Option (PsockPtr × Strp.Event Unit)
  | .strp psock e => some (psock, e)
  | _ => none

/-- The events of the parser of a connection in a history of the server. -/
def strpEvents (c : PsockPtr) (es : List Event) : List (Strp.Event Unit) := entries Event.strp? es c

@[simp] theorem strpEvents_append (c : PsockPtr) (es e : List Event) :
    strpEvents c (es ++ e) = strpEvents c es ++ strpEvents c e := entries_append es e c

@[simp] theorem strpEvents_strp (c psock : PsockPtr) (e : List (Strp.Event Unit)) :
    strpEvents c (e.map (.strp psock)) = if psock = c then e else [] :=
  entries_map_of_some (f := Event.strp?) (fun _ => rfl) e c

/-- A step of the server in which the parsers do nothing. -/
theorem strpEvents_of_none {e : List Event} (h : ∀ ev ∈ e, ev.strp? = none) (c : PsockPtr) : strpEvents c e = [] := by
  rw [strpEvents, entries, List.filterMap_eq_nil_iff]
  intro ev hev
  rw [h ev hev]
  rfl

theorem parser_step (hs : Step rcvbuf s a s' e) (c : PsockPtr) :
    (s'.parser c = s.parser c ∧ strpEvents c e = []) ∨
      ∃ b, a = .present c b ∧
        Strp.step Strp.Memcache.parser (rcvbuf c) (s.parser c) b = some (s'.parser c, strpEvents c e) := by
  have hworker : ∀ e : List Worker.Event, ∀ ev ∈ e.map Event.worker, ev.strp? = none := by
    intro e ev hev
    obtain ⟨x, -, rfl⟩ := List.mem_map.mp hev
    rfl
  cases hs with
  | present psock b p e _ _ hb =>
      by_cases hc : psock = c
      · subst hc
        exact .inr ⟨b, rfl, by simpa using hb⟩
      · exact .inl ⟨Function.update_of_ne (Ne.symm hc) _ _, by simp [hc]⟩
  | hand => exact .inl ⟨rfl, rfl⟩
  | worker a w e => exact .inl ⟨rfl, strpEvents_of_none (hworker e) c⟩
  | returned => exact .inl ⟨rfl, rfl⟩
  | assertFailed ksk skb rest r w e =>
      refine .inl ⟨rfl, ?_⟩
      rw [strpEvents_append, strpEvents_of_none (hworker e)]
      rfl
  | answered => exact .inl ⟨rfl, rfl⟩
  | sendError => exact .inl ⟨rfl, rfl⟩

variable {streams : PsockPtr → List (List UInt8)}

/-- The parser of a connection runs as the parser does. -/
theorem parser_of_reach (h : (machine rcvbuf writeSeq).Reach (Fair streams) s es) (c : PsockPtr) :
    (Strp.machine Strp.Memcache.parser (rcvbuf c)).Reach
      (fun p b => Strp.Presents (streams c) p b ∧ b.skb.len < 2 ^ 31) (s.parser c) (strpEvents c es) := by
  refine h.project (M := Strp.machine Strp.Memcache.parser (rcvbuf c)) (fun s => s.parser c) (strpEvents c)
    (strpEvents_append c) rfl rfl ?_
  intro t ds b t' d _ hg hs
  refine (parser_step (step_cases hs) c).imp id ?_
  rintro ⟨b', rfl, hb⟩
  exact ⟨b', hg, hb⟩

end Rakaia.System
