import Rakaia.System.Answers

/-! # The server from end to end

The results about the server as a whole: it is a request service (`server_refines_service`), its threads find in
their buffers the requests they expect (`threads_receive_requests`), and TCP is given whole responses to different
requests of the connection (`responses_on_the_wire`). -/

namespace Rakaia.System

open Lib
open Sched (Ksk)
open Strp (bufferOf)
open Strp.Memcache (headerLen SkRcvbuf twoRequests)
open Tx.Sendmsg (stillTurn)

variable {rcvbuf : PsockPtr → SkRcvbuf} {writeSeq : PsockPtr → UInt32} {t t' : State} {a : Act} {ds d : List Event}
  {streams : PsockPtr → List (List UInt8)}

/-! ### What the threads find -/

/-- No assertion has failed, and what `recvmsg` returned are requests. -/
structure Orderly (streams : PsockPtr → List (List UInt8)) (t : State) (ds : List Event) : Prop where
  running : t.aborted = false
  asserted : ∀ ksk, .assertFailed ksk ∉ ds
  copied : ∀ ksk, .worker (.recvFault ksk) ∉ ds
  returned : ∀ ksk r, .returned ksk r ∈ ds → ∃ c, ∃ m ∈ streams c, r = ⟨m.length, m, false, true⟩

/-- A step that says nothing about `recvmsg`. -/
theorem Orderly.quiet (h : Orderly streams t ds) (hab : t'.aborted = t.aborted)
    (hd : ∀ ev ∈ d, (∀ ksk, ev ≠ .assertFailed ksk) ∧ (∀ ksk, ev ≠ .worker (.recvFault ksk)) ∧
      ∀ ksk r, ev ≠ .returned ksk r) : Orderly streams t' (ds ++ d) := by
  refine ⟨hab.trans h.running, fun ksk hm => ?_, fun ksk hm => ?_, fun ksk r hm => ?_⟩
  · rcases List.mem_append.mp hm with hm | hm
    · exact h.asserted ksk hm
    · exact (hd _ hm).1 ksk rfl
  · rcases List.mem_append.mp hm with hm | hm
    · exact h.copied ksk hm
    · exact (hd _ hm).2.1 ksk rfl
  · rcases List.mem_append.mp hm with hm | hm
    · exact h.returned ksk r hm
    · exact absurd rfl ((hd _ hm).2.2 ksk r)

theorem orderly_step (hq : Requests rcvbuf streams) (hr : (machine rcvbuf writeSeq).Reach (Fair streams) t ds)
    (hs : Step rcvbuf t a t' d) (h : Orderly streams t ds) : Orderly streams t' (ds ++ d) := by
  cases hs with
  | present psock b p e =>
      refine h.quiet rfl fun ev hev => ?_
      obtain ⟨x, -, rfl⟩ := List.mem_map.mp hev
      exact ⟨nofun, nofun, nofun⟩
  | hand => exact h.quiet rfl (by simp)
  | worker b w e ho hw =>
      refine h.quiet rfl fun ev hev => ?_
      obtain ⟨x, hx, rfl⟩ := List.mem_map.mp hev
      refine ⟨nofun, ?_, nofun⟩
      rintro ksk heq
      obtain rfl := Event.worker.inj heq
      cases Worker.step_cases hw with
      | sched b sc e => simp at hx
      | tx psock b tx e => simp at hx
      | sent => cases hx
      | received => cases ho
      | recvFault => cases ho
      | sendError => cases ho
      | spliced => cases ho
  | returned ksk skb rest r _ hrq hret =>
      have hmem : skb ∈ Sched.whereabouts t.worker.sched (Worker.schedEvents (workerEvents ds))
          (.receiveQ ksk) := by
        rw [Sched.whereabouts, hrq]
        exact List.mem_cons_self
      obtain ⟨c, head, hfound, hcut⟩ := recvmsg_of_reach hq hr hmem
      have hlast : r = ⟨head.message.length, head.message, false, true⟩ := hret.trans hfound.recvmsg
      refine ⟨h.running, fun k hm => ?_, fun k hm => ?_, fun k r' hm => ?_⟩
      · exact h.asserted k (by simpa using hm)
      · exact h.copied k (by simpa using hm)
      · rcases List.mem_append.mp hm with hm | hm
        · exact h.returned k r' hm
        · simp only [List.mem_cons, reduceCtorEq, Event.returned.injEq, List.not_mem_nil, or_false, false_or] at hm
          obtain ⟨-, rfl⟩ := hm
          exact ⟨c, head.message, hcut.mem, hlast⟩
  | assertFailed ksk skb rest r w e hrq hret hno =>
      rw [asserted_of_reach hq hr hrq hret] at hno
      cases hno
  | answered => exact h.quiet rfl (by simp)
  | sendError => exact h.quiet rfl (by simp)

/-! ### A run to evaluate -/

/-- What a step has to be like, whatever the state. -/
def Act.Usual : Act → Prop
  | .present _ a => a.skb.Wf ∧ a.offset ≤ a.skb.len ∧ a.skb.len < 2 ^ 31
  | .sendmsg _ env => env.outcomes = [stillTurn env.pfrag] ∧ 0 < env.pfrag.room
  | _ => True

/-- The bytes that are presented come next in the stream. -/
def presented (streams : PsockPtr → List (List UInt8)) (s : State) : Act → Bool
  | .present psock a => Strp.presented (streams psock) (s.parser psock) a
  | _ => true

theorem fair_of_presented {s : State} {a : Act} (hu : a.Usual) (hp : presented streams s a = true) :
    Fair streams s a := by
  cases a with
  | present psock a => exact ⟨Strp.presents_of_presented ⟨hu.1, hu.2.1⟩ hp, hu.2.2⟩
  | sendmsg ksk env =>
      change Tx.Sendmsg.SaneRun _ _ env.outcomes
      rw [hu.1]
      exact ⟨Tx.Sendmsg.sane_stillTurn hu.2, fun _ _ => trivial⟩
  | _ => trivial

/-- An evaluated list of usual steps is a run. -/
theorem reach_of_exec (rcvbuf : PsockPtr → SkRcvbuf) (writeSeq : PsockPtr → UInt32)
    (streams : PsockPtr → List (List UInt8)) {β : Type} (as : List Act) (hu : ∀ a ∈ as, a.Usual)
    (f : State × List Event → β) (y : β)
    (h : ((machine rcvbuf writeSeq).exec (presented streams) (machine rcvbuf writeSeq).init as).map f = some y) :
    ∃ s es, (machine rcvbuf writeSeq).Reach (Fair streams) s es ∧ f (s, es) = y :=
  Machine.Reach.of_exec as (fun _ a ha hp => fair_of_presented (hu a ha) hp) f y h

/-- Connection 1 brings two requests, the others nothing. -/
def oneClient (c : PsockPtr) : List (List UInt8) := if c = 1 then twoRequests else []

theorem oneClient_requests : Requests (fun _ => 4096) oneClient := by
  intro c m hm
  unfold oneClient at hm
  split_ifs at hm
  · simp only [twoRequests, List.mem_cons, List.not_mem_nil, or_false] at hm
    rcases hm with rfl | rfl <;>
      exact ⟨⟨by decide, by decide⟩, (by decide : _ ≤ 4096), by decide, by decide, by decide⟩
  · cases hm

/-- A page fragment with room for the response. -/
def roomyEnv : SendEnv := ⟨false, none, 0, ⟨7, 0, 32⟩, 1448, true, [stillTurn ⟨7, 0, 32⟩]⟩

/-- All sockets are created, and worker 0 makes its first pull. -/
def startActs : List Act :=
  Sched.bootActs.map (fun a => .worker (.sched a)) ++ .worker (.sched (.pullStart 0 0)) ::
    Worker.pullActs.map .worker

/-- Both requests of connection 1 arrive, the first one is handed over and pushed to socket 0, and its worker
answers it; the response is moved to TCP.  The second one is handed over. -/
def serveActs : List Act :=
  startActs ++ .present 1 ⟨bufferOf twoRequests.flatten [], 0, .ok⟩ :: .hand 1 (fun _ => 0) 0 0 ::
    (List.replicate 7 (.worker (.sched (.push 0 Sched.ample))) ++ .recvmsg 0 :: .sendmsg 0 roomyEnv ::
      (List.replicate 5 (.worker (.tx 1 (.run 0 0))) ++ [.hand 1 (fun _ => 0) 3 3]))

theorem serveActs_usual : ∀ a ∈ serveActs, a.Usual := by
  intro a ha
  simp only [serveActs, startActs, List.mem_append, List.mem_cons, List.mem_map, List.mem_replicate,
    List.not_mem_nil, or_false] at ha
  rcases ha with (⟨b, -, rfl⟩ | rfl | ⟨b, -, rfl⟩) | rfl | rfl | ⟨-, rfl⟩ | rfl | rfl | ⟨-, rfl⟩ | rfl
  · trivial
  · trivial
  · trivial
  · exact ⟨Strp.wf_bufferOf _ _, by decide, by decide⟩
  · trivial
  · trivial
  · trivial
  · exact ⟨rfl, by decide⟩
  · trivial
  · trivial

/-! ### The main results -/

/-- **The server is a request service.**  Every connection brings requests with the magic 0x80 and an opcode that
the server knows, of at most 2076 bytes and at most `sk_rcvbuf` bytes; one longer than `sk_rcvbuf` is dropped by
`__strp_recv`.  Then in every run, with any number of connections, any way TCP presents their streams and any
interleaving, the requests that were handed over, those that wait, those that are served and what became of the
others are those of a run of the service; there every request is in exactly one place. -/
theorem server_refines_service (hq : Requests rcvbuf streams)
    (h : (machine rcvbuf writeSeq).Reach (Fair streams) t ds) :
    ∃ s es, (Service.machine (K := Ksk) streams).Reachable s es ∧ Refines t ds s es ∧ Service.Ledger s es := by
  obtain ⟨s, es, hs, hR⟩ := refines_of_reach hq h
  exact ⟨s, es, hs, hR, Service.ledger_of_reach hs⟩

/-- Of two requests one is answered, and the other one waits. -/
theorem server_refines_service_one_answered : ∃ t ds s es,
    (machine (fun _ => 4096) (fun _ => 0)).Reach (Fair oneClient) t ds ∧
    (Service.machine (K := Ksk) oneClient).Reachable s es ∧ Refines t ds s es ∧ s.arrived.length = 2 ∧
    s.waiting = [1] ∧ es.length = 1 := by
  obtain ⟨t, ds, hr, hy⟩ := reach_of_exec (fun _ => 4096) (fun _ => 0) oneClient serveActs
    serveActs_usual (fun r => ((handed r.2).length, gone r.2, (ends r.2).length)) (2, [0], 1)
    (by decide +kernel)
  simp only [Prod.mk.injEq] at hy
  obtain ⟨hhanded, hgone, hends⟩ := hy
  obtain ⟨s, es, hs, hR, hl⟩ := server_refines_service oneClient_requests hr
  have hlen : s.arrived.length = 2 := by rw [hR.arrived, List.length_map, hhanded]
  refine ⟨t, ds, s, es, hr, hs, hR, hlen, ?_, hR.ends.length_eq.symm.trans hends⟩
  have hnodup : s.waiting.Nodup := hl.nodup .waiting
  refine List.perm_singleton.mp ((List.perm_ext_iff_of_nodup hnodup (List.nodup_singleton 1)).mpr fun n => ?_)
  rw [hR.waiting n, hlen, hgone, List.mem_singleton, List.mem_singleton]
  omega

/-- **The threads receive requests.**  As long as the connections bring nothing but requests (`Request`), every
`recvmsg` of a thread returns a whole request of some connection, of its length, and the assertions of the thread
never fail. -/
theorem threads_receive_requests (hq : Requests rcvbuf streams)
    (h : (machine rcvbuf writeSeq).Reach (Fair streams) t ds) : Orderly streams t ds :=
  h.invariant (P := Orderly streams) ⟨rfl, nofun, nofun, nofun⟩
    (fun _ _ _ _ _ hr ih _ hs => orderly_step hq hr (step_cases hs) ih)

/-- What a `recvmsg` has stored. -/
def Event.stored? : Event → Option (List UInt8)
  | .returned _ r => some r.stored
  | _ => none

theorem threads_receive_requests_first : ∃ t ds,
    (machine (fun _ => 4096) (fun _ => 0)).Reach (Fair oneClient) t ds ∧
    ds.filterMap Event.stored? = twoRequests.take 1 ∧ Orderly oneClient t ds := by
  obtain ⟨t, ds, hr, hy⟩ := reach_of_exec (fun _ => 4096) (fun _ => 0) oneClient serveActs
    serveActs_usual (fun r => r.2.filterMap Event.stored?) (twoRequests.take 1) (by decide +kernel)
  exact ⟨t, ds, hr, hy, threads_receive_requests oneClient_requests hr⟩

/-- **Responses on the wire.**  Let the connections bring requests with the magic 0x80 and an opcode that the server
knows, of at most 2076 bytes and at most `sk_rcvbuf` bytes.  On every connection, the answers are the responses, each
with the `id` of its request, to different requests of the stream of this connection; and TCP has been given the
first ones of them, whole, one behind the other and without a gap in the sequence numbers. -/
theorem responses_on_the_wire (hq : Requests rcvbuf streams)
    (h : (machine rcvbuf writeSeq).Reach (Fair streams) t ds) (c : PsockPtr) :
    ∃ ms : List (List UInt8), ms.Subperm (streams c) ∧
      (answersTo c ds).map List.flatten = ms.map (fun m => responseWith (idOf m)) ∧
      ∀ u, Tx.Unassigned (t.worker.tx c) u → ∃ k,
        OnTheWire (writeSeq c) (answersTo c ds) (t.worker.tx c) (Worker.txEvents c (workerEvents ds)) u k := by
  obtain ⟨ms, hsub, hms⟩ := answers_of_reach hq h c
  exact ⟨ms, hsub, hms, fun u hu => onTheWire_of_reach h hms hu⟩

/-- The response to the request with `id` 7 is on the wire. -/
theorem responses_on_the_wire_first : ∃ t ds,
    (machine (fun _ => 4096) (fun _ => 0)).Reach (Fair oneClient) t ds ∧
    answersTo 1 ds = [[responseWith [0, 0, 0, 7]]] ∧ (t.worker.tx 1).writeSeq = 28 ∧
    ∃ ms : List (List UInt8), ms.Subperm twoRequests ∧
      (answersTo 1 ds).map List.flatten = ms.map (fun m => responseWith (idOf m)) := by
  obtain ⟨t, ds, hr, hy⟩ := reach_of_exec (fun _ => 4096) (fun _ => 0) oneClient serveActs
    serveActs_usual (fun r => (answersTo 1 r.2, (r.1.worker.tx 1).writeSeq))
    ([[responseWith [0, 0, 0, 7]]], 28) (by decide +kernel)
  obtain ⟨h₁, h₂⟩ := Prod.mk.inj hy
  obtain ⟨ms, hsub, hms, -⟩ := responses_on_the_wire oneClient_requests hr 1
  exact ⟨t, ds, hr, h₁, h₂, ms, hsub, hms⟩

end Rakaia.System
