import Mathlib.Data.List.Forall2
import Rakaia.Lib.Simulation
import Rakaia.Sched.Leaving
import Rakaia.Service
import Rakaia.System.Messages

/-! # The server is a request service

Every run of the server is a run of the service on the streams of its connections (`refines_of_reach`): a message
that is handed over is the next request of its connection; `recvmsg` takes a request that waits; `sendmsg`
answers it, with the response that carries its `id`, or gives it up; and `rakaia_queue_rcv_skb` drops a request
that it refuses.  No other step is seen by the service. -/

namespace Rakaia.System

open Lib
open Sched (Ksk outIds)
open Strp.Memcache (SkRcvbuf)

variable {rcvbuf : PsockPtr → SkRcvbuf} {writeSeq : PsockPtr → UInt32} {t t' : State} {a : Act} {ds d : List Event}
  {streams : PsockPtr → List (List UInt8)}

/-! ### What is seen of a run -/

/-- What an outsider sees of the end of a request. -/
inductive End where
  | answered (c : PsockPtr) (bytes : List UInt8)
  | dropped (n : ℕ)
  | gaveUp

def Event.end? : Event → Option End
  | .answered _ c segments => some (.answered c segments.flatten)
  | .worker (.sched (.refused _ skb)) => some (.dropped skb.id)
  | .worker (.sendError _) => some .gaveUp
  | _ => none

/-- The ends of requests in a history, in order. -/
def ends (ds : List Event) : List End := ds.filterMap Event.end?

/-- The end of a request of the service, as it is seen. -/
def End.Shows : End → Service.Event PsockPtr (List UInt8) → Prop
  | .answered c bytes, e => e.fate = .answered ∧ e.conn = c ∧ bytes = responseWith (idOf e.request)
  | .dropped n, e => e.fate = .dropped ∧ e.num = n
  | .gaveUp, e => e.fate = .gaveUp

/-- The messages of the server that have left its scheduler. -/
def gone (ds : List Event) : List ℕ := outIds (Worker.schedEvents (workerEvents ds))

theorem gone_append (ds d : List Event) : gone (ds ++ d) = gone ds ++ gone d := by
  rw [gone, workerEvents_append, Worker.schedEvents, List.filterMap_append, Sched.outIds_append]
  rfl

theorem ends_append (ds d : List Event) : ends (ds ++ d) = ends ds ++ ends d := List.filterMap_append

/-! ### The relation -/

/-- **The relation**: what has arrived at the service was handed over; what waits has not left the scheduler; and
a worker serves a request when it has prepared the response to it. -/
structure Refines (t : State) (ds : List Event) (s : Service.State PsockPtr Ksk (List UInt8))
    (es : List (Service.Event PsockPtr (List UInt8))) : Prop where
  arrived : s.arrived = (handed ds).map (fun x => (x.1, x.2.message))
  waiting : s.Waits (gone ds)
  serving : ∀ k, (s.serving k).isSome ↔ t.worker.pc k = .serving
  served : ∀ k n, s.serving k = some n → ∃ m, s.arrived[n]? = some (t.worker.lastPsock k, m) ∧
    (t.ctx k).response = responseWith (idOf m)
  ends : List.Forall₂ End.Shows (ends ds) es

variable {s s' : Service.State PsockPtr Ksk (List UInt8)} {es : List (Service.Event PsockPtr (List UInt8))}

theorem refines_init : Refines (State.init writeSeq) [] ⟨[], [], fun _ => none⟩ [] := by
  refine ⟨rfl, fun n => ?_, fun k => ?_, nofun, .nil⟩
  · simp
  · simp [State.init, Worker.State.init]

/-- A step that the service does not see. -/
theorem Refines.stay (h : Refines t ds s es) (hh : handed d = []) (hg : gone d = []) (he : System.ends d = [])
    (hpc : ∀ k, t'.worker.pc k = .serving ↔ t.worker.pc k = .serving)
    (hlast : ∀ k, t'.worker.pc k = .serving → t'.worker.lastPsock k = t.worker.lastPsock k ∧ t'.ctx k = t.ctx k) :
    Refines t' (ds ++ d) s es := by
  refine ⟨?_, ?_, fun k => (h.serving k).trans (hpc k).symm, fun k n hk => ?_, ?_⟩
  · rw [handed_append, hh, List.append_nil]
    exact h.arrived
  · rw [gone_append, hg, List.append_nil]
    exact h.waiting
  · obtain ⟨h₁, h₂⟩ := hlast k ((hpc k).mpr ((h.serving k).mp (by rw [hk]; rfl)))
    rw [h₁, h₂]
    exact h.served k n hk
  · rw [ends_append, he, List.append_nil]
    exact h.ends

/-! ### Requests arrive -/

/-- What has arrived on a connection was handed over by its parser. -/
theorem Refines.on_eq (h : Refines t ds s es) (c : PsockPtr) : s.on c = (handedBy c ds).map Strp.Head.message := by
  rw [Service.State.on, h.arrived, handedBy, entries, entries, List.filterMap_map, List.map_filterMap]
  refine List.filterMap_congr fun x _ => ?_
  by_cases hx : x.1 = c <;> simp [hx]

/-- The message that a parser hands over next is the next request of the stream. -/
theorem Refines.next_request (h : Refines t ds s es) (hq : Requests rcvbuf streams)
    (hr : (machine rcvbuf writeSeq).Reach (Fair streams) t ds) {c : PsockPtr} {head : Strp.Head Unit}
    {rest : List (Strp.Head Unit)} (hp : t.pending c = head :: rest) :
    (streams c)[(s.on c).length]? = some head.message := by
  have hmsgs := Strp.Memcache.messages_of_reach (rcvbuf c) (hq.valid c)
    ((parser_of_reach hr c).mono (fun _ _ _ _ hg => hg.1))
  rw [pending_of_reach hr c, hp, List.map_append, ← h.on_eq c] at hmsgs
  obtain ⟨tail, htail⟩ := isPrefix_wholeIn (streams c) (t.parser c).copied
  rw [← htail, ← hmsgs, List.append_assoc, List.getElem?_append_right le_rfl, Nat.sub_self]
  rfl

theorem Refines.arrive (h : Refines t ds s es) (hr : (machine rcvbuf writeSeq).Reach (Fair streams) t ds)
    {c : PsockPtr} {head : Strp.Head Unit} (hh : handed d = [(c, head)]) (hg : gone d = [])
    (he : System.ends d = []) (hpc : t'.worker.pc = t.worker.pc) (hlast : t'.worker.lastPsock = t.worker.lastPsock)
    (hctx : t'.ctx = t.ctx) :
    Refines t' (ds ++ d) { s with arrived := s.arrived ++ [(c, head.message)]
                                  waiting := s.waiting ++ [s.arrived.length] } es := by
  have hlen : s.arrived.length = t.worker.sched.nextId := by
    rw [h.arrived, List.length_map, (books_of_reach hr).length]
  have hnew : s.arrived.length ∉ gone ds := by
    intro hm
    have hlt := (Sched.outIds_of_reach (sched_of_reach hr)).2 _ hm
    omega
  refine ⟨?_, ?_, ?_, fun k n hk => ?_, ?_⟩
  · rw [handed_append, hh, List.map_append, ← h.arrived]
    rfl
  · rw [gone_append, hg, List.append_nil]
    exact h.waiting.enter hnew _
  · rw [hpc]
    exact h.serving
  · obtain ⟨m, hm, hresp⟩ := h.served k n hk
    rw [hlast, hctx]
    refine ⟨m, ?_, hresp⟩
    rw [List.getElem?_append_left (List.getElem?_eq_some_iff.mp hm).1]
    exact hm
  · rw [ends_append, he, List.append_nil]
    exact h.ends

/-! ### Requests leave the scheduler -/

/-- A message that leaves the scheduler has waited. -/
theorem Refines.mem_waiting (h : Refines t ds s es) (hr : (machine rcvbuf writeSeq).Reach (Fair streams) t ds)
    (hr' : (machine rcvbuf writeSeq).Reach (Fair streams) t' (ds ++ d)) {n : ℕ} (hg : gone d = [n])
    (hn : t'.worker.sched.nextId = t.worker.sched.nextId) : n ∈ s.waiting := by
  obtain ⟨hnodup, hlt⟩ := Sched.outIds_of_reach (sched_of_reach hr')
  change (gone (ds ++ d)).Nodup at hnodup
  change ∀ n ∈ gone (ds ++ d), n < _ at hlt
  rw [gone_append, hg] at hnodup hlt
  refine (h.waiting n).mpr ⟨?_, fun hm => ?_⟩
  · rw [h.arrived, List.length_map, (books_of_reach hr).length, ← hn]
    exact hlt n (List.mem_append_right _ List.mem_cons_self)
  · exact (List.nodup_append.mp hnodup).2.2 n hm n List.mem_cons_self rfl

/-- A message is refused: the service drops the request. -/
theorem Refines.drop (h : Refines t ds s es) (hl : Service.Ledger s es) {n : ℕ} (hn : n ∈ s.waiting)
    (hh : handed d = []) (hg : gone d = [n]) (he : System.ends d = [.dropped n])
    (hpc : ∀ k, t'.worker.pc k = .serving ↔ t.worker.pc k = .serving)
    (hlast : t'.worker.lastPsock = t.worker.lastPsock) (hctx : t'.ctx = t.ctx) :
    Refines t' (ds ++ d) { s with waiting := s.waiting.erase n } (es ++ s.ends .dropped n) := by
  obtain ⟨r, -, hends⟩ := hl.ends_eq (k := .waiting) hn .dropped
  refine ⟨?_, ?_, fun k => (h.serving k).trans (hpc k).symm, fun k i hk => ?_, ?_⟩
  · rw [handed_append, hh, List.append_nil]
    exact h.arrived
  · rw [gone_append, hg]
    exact h.waiting.erase hl n s.serving
  · rw [hlast, hctx]
    exact h.served k i hk
  · rw [ends_append, he, hends]
    exact List.rel_append h.ends (.cons ⟨rfl, rfl⟩ .nil)

theorem idOf_append {l : List UInt8} (h : 6 ≤ l.length) (l' : List UInt8) : idOf (l ++ l') = idOf l := by
  refine List.map_congr_left fun j hj => ?_
  have hj := List.mem_range.mp hj
  rw [List.getD_append _ _ _ _ (by omega)]

/-- A message is received: a worker takes the request and has the response to it. -/
theorem Refines.take (h : Refines t ds s es) (hl : Service.Ledger s es) {ksk : Ksk} {n : ℕ} {m : List UInt8}
    {c : PsockPtr} (hm : s.arrived[n]? = some (c, m)) (hh : handed d = []) (hg : gone d = [n])
    (he : System.ends d = []) (hpc : t'.worker.pc = Function.update t.worker.pc ksk .serving)
    (hlast : t'.worker.lastPsock = Function.update t.worker.lastPsock ksk c)
    (hctx : ∀ k, k ≠ ksk → t'.ctx k = t.ctx k) (hresp : (t'.ctx ksk).response = responseWith (idOf m)) :
    Refines t' (ds ++ d) { s with waiting := s.waiting.erase n
                                  serving := Function.update s.serving ksk (some n) } es := by
  refine ⟨?_, ?_, fun k => ?_, fun k i hk => ?_, ?_⟩
  · rw [handed_append, hh, List.append_nil]
    exact h.arrived
  · rw [gone_append, hg]
    exact h.waiting.erase hl n _
  · rw [hpc]
    by_cases hk : k = ksk
    · simp [hk]
    · simpa [hk] using h.serving k
  · dsimp only at hk ⊢
    by_cases hkk : k = ksk
    · subst hkk
      rw [Function.update_self] at hk
      obtain rfl := Option.some.inj hk
      exact ⟨m, by rw [hlast, Function.update_self]; exact hm, hresp⟩
    · rw [Function.update_of_ne hkk] at hk
      rw [hlast, Function.update_of_ne hkk, hctx k hkk]
      exact h.served k i hk
  · rw [ends_append, he, List.append_nil]
    exact h.ends

/-- A worker is done with a request. -/
theorem Refines.done (h : Refines t ds s es) {ksk : Ksk} {fate : Service.Fate} {n : ℕ} {pc : Worker.Pc} {x : End}
    {ev : Service.Event PsockPtr (List UInt8)} (hends : s.ends fate n = [ev]) (hshow : x.Shows ev)
    (hh : handed d = []) (hg : gone d = []) (he : System.ends d = [x])
    (hpc : t'.worker.pc = Function.update t.worker.pc ksk pc) (hne : pc ≠ .serving)
    (hlast : t'.worker.lastPsock = t.worker.lastPsock) (hctx : t'.ctx = t.ctx) :
    Refines t' (ds ++ d) { s with serving := Function.update s.serving ksk none } (es ++ s.ends fate n) := by
  refine ⟨?_, ?_, fun k => ?_, fun k i hk => ?_, ?_⟩
  · rw [handed_append, hh, List.append_nil]
    exact h.arrived
  · rw [gone_append, hg, List.append_nil]
    exact h.waiting
  · rw [hpc]
    by_cases hk : k = ksk
    · simp [hk, hne]
    · simpa [hk] using h.serving k
  · have hkk : k ≠ ksk := by
      rintro rfl
      simp at hk
    dsimp only at hk ⊢
    rw [Function.update_of_ne hkk] at hk
    rw [hlast, hctx]
    exact h.served k i hk
  · rw [ends_append, he, hends]
    exact List.rel_append h.ends (.cons hshow .nil)

/-! ### Steps that the service does not see -/

theorem gone_sched (e : List Sched.Event) : gone ((e.map Worker.Event.sched).map .worker) = outIds e := by
  rw [gone, workerEvents_worker, Worker.schedEvents_sched]

/-- Events of the scheduler that let no message out. -/
theorem quiet_sched {e : List Sched.Event} (h : ∀ ev ∈ e, ev.out? = none) :
    gone ((e.map Worker.Event.sched).map .worker) = [] ∧ ends ((e.map Worker.Event.sched).map .worker) = [] := by
  constructor
  · rw [gone_sched, outIds, List.filterMap_eq_nil_iff]
    intro ev hev
    rw [h ev hev]
    rfl
  · rw [ends, List.filterMap_eq_nil_iff]
    intro x hx
    obtain ⟨y, hy, rfl⟩ := List.mem_map.mp hx
    obtain ⟨ev, hev, rfl⟩ := List.mem_map.mp hy
    have hout := h ev hev
    cases ev with
    | refused => cases hout
    | _ => rfl

theorem ends_strp (psock : PsockPtr) (e : List (Strp.Event Unit)) : ends (e.map (.strp psock)) = [] :=
  filterMap_map_of_none (fun _ => rfl) e

theorem quiet_tx (psock : PsockPtr) (e : List Tx.Event) :
    gone ((e.map (Worker.Event.tx psock)).map .worker) = [] ∧
      ends ((e.map (Worker.Event.tx psock)).map .worker) = [] := by
  constructor
  · rw [gone, workerEvents_worker, Worker.schedEvents_tx]
    rfl
  · rw [List.map_map]
    exact filterMap_map_of_none (fun _ => rfl) e

/-- A step of the scheduler does not interrupt a worker that serves. -/
theorem serving_pcAfter {w : Worker.State} (hl : Worker.Loop w) {b : Sched.Act} {sc : Sched.State}
    {e : List Sched.Event} (hm : w.mayRun b = true) (ho : outer (.sched b) = true)
    (hs : Sched.step .plainTcp w.sched b = some (sc, e)) (k : Ksk) :
    w.pcAfter b sc k = .serving ↔ w.pc k = .serving := by
  refine ⟨Worker.serving_of_pcAfter, fun hk => ?_⟩
  cases b with
  | pullStart t ksk =>
      have ht : t = ksk.val := of_decide_eq_true ho
      simp only [Worker.State.mayRun, decide_eq_true_eq] at hm
      have hstart : w.pc ksk = .start := (hm.resolve_right (by have := ksk.isLt; omega)).2
      have hne : k ≠ ksk := by
        rintro rfl
        rw [hstart] at hk
        cases hk
      simp [Worker.State.pcAfter, ht, hne, hk]
  | pull t r b =>
      have hidle : w.sched.pull k.val = .idle := hl.idle k (by simp [hk, Worker.Pc.Pulls])
      have hne : ∀ h : t < Sched.numRakaiaSockets, k ≠ ⟨t, h⟩ := by
        rintro h rfl
        simp only [Sched.step, Sched.rakaiaPull] at hs
        rw [hidle] at hs
        cases hs
      simp only [Worker.State.pcAfter]
      split_ifs with h₁ h₂
      · rw [Function.update_of_ne (hne h₁)]
        exact hk
      · exact hk
      · exact hk
  | _ => exact hk

/-! ### Every step is answered -/

/-- The service can follow to the state and history `t`, `ds` of the server. -/
abbrev Follows (streams : PsockPtr → List (List UInt8)) (t : State) (ds : List Event)
    (s : Service.State PsockPtr Ksk (List UInt8)) (es : List (Service.Event PsockPtr (List UInt8))) : Prop :=
  (Service.machine streams).Answers (fun _ _ => True) Refines t ds s es

theorem pushStart_worker {w w' : Worker.State} {psock : PsockPtr} {cb : Cb} {n : ℕ} {r1 r2 : UInt8}
    {e : List Worker.Event} (hs : Worker.step w (.sched (.pushStart psock cb n r1 r2)) = some (w', e)) :
    w'.pc = w.pc ∧ w'.lastPsock = w.lastPsock := by
  cases Worker.step_cases hs with
  | sched => exact ⟨rfl, rfl⟩

/-- A step of the scheduler: the service does not see it, or drops the message that is refused. -/
theorem follows_sched (h : Refines t ds s es) (hl : Service.Ledger s es)
    (hr : (machine rcvbuf writeSeq).Reach (Fair streams) t ds) {b : Sched.Act} {sc : Sched.State}
    {e : List Sched.Event} (ho : outer (.sched b) = true) (hm : t.worker.mayRun b = true)
    (hs : Sched.step .plainTcp t.worker.sched b = some (sc, e))
    (hw : t'.worker = { t.worker with sched := sc, pc := t.worker.pcAfter b sc }) (hctx : t'.ctx = t.ctx)
    (hr' : (machine rcvbuf writeSeq).Reach (Fair streams) t' (ds ++ (e.map Worker.Event.sched).map .worker)) :
    Follows streams t' (ds ++ (e.map Worker.Event.sched).map .worker) s es := by
  have hloop := Worker.loop_of_reach (fun _ _ hg => hg) (worker_of_reach hr)
  have hpc : ∀ k, t'.worker.pc k = .serving ↔ t.worker.pc k = .serving := by
    intro k
    rw [hw]
    exact serving_pcAfter hloop hm ho hs k
  have hlast : t'.worker.lastPsock = t.worker.lastPsock := by rw [hw]
  have hb : ∀ ksk, b ≠ .recvmsg ksk := by
    rintro ksk rfl
    cases hm
  rcases Sched.quiet_or_refused (Sched.step_cases hs) hb with hq | ⟨ksk, skb, rfl⟩
  · obtain ⟨hg, he⟩ := quiet_sched hq
    exact .stay (h.stay (handed_worker _) hg he hpc (fun k _ => ⟨by rw [hlast], by rw [hctx]⟩))
  · have hn : t'.worker.sched.nextId = t.worker.sched.nextId := by
      have hquiet := (Worker.nextId_step (.sched b sc _ hm hs)).resolve_right (by
        rintro ⟨psock, cb, n, r1, r2, heq⟩
        cases heq
        cases ho)
      rw [hw]
      exact hquiet
    have hwait : skb.id ∈ s.waiting := h.mem_waiting hr hr' rfl hn
    exact .single trivial (Service.step_drop hwait) (h.drop hl hwait rfl rfl rfl hpc hlast hctx)

/-- A message is received: a request that waits is taken. -/
theorem follows_returned (hq : Requests rcvbuf streams) (h : Refines t ds s es) (hl : Service.Ledger s es)
    (hr : (machine rcvbuf writeSeq).Reach (Fair streams) t ds) {ksk : Ksk} {skb : Skb} {rest : List Skb}
    {r : Seqpacket.Returned} (hpc : t.worker.pc ksk = .waiting) (hrq : t.worker.sched.receiveQ ksk = skb :: rest)
    (hret : r = rakaiaRecvmsg ⟨skb.cb, t.buf skb.id⟩)
    (hw : t'.worker = (t.worker.take ksk skb rest).setPc ksk .serving)
    (hctx : t'.ctx = Function.update t.ctx ksk ((t.ctx ksk).receive r.stored))
    (hr' : (machine rcvbuf writeSeq).Reach (Fair streams) t'
      (ds ++ [.worker (.sched (.received ksk skb)), .returned ksk r])) :
    Follows streams t' (ds ++ [.worker (.sched (.received ksk skb)), .returned ksk r]) s es := by
  have hmem : skb ∈ Sched.whereabouts t.worker.sched (Worker.schedEvents (workerEvents ds)) (.receiveQ ksk) := by
    rw [Sched.whereabouts, hrq]
    exact List.mem_cons_self
  obtain ⟨c, head, hfound, hcut⟩ := recvmsg_of_reach hq hr hmem
  have hwait : skb.id ∈ s.waiting := h.mem_waiting hr hr' rfl (by rw [hw]; rfl)
  have hfree : s.serving ksk = none := by
    rw [← Option.not_isSome_iff_eq_none, h.serving ksk, hpc]
    simp
  have harr : s.arrived[skb.id]? = some (c, head.message) := by
    rw [h.arrived, List.getElem?_map, hfound.handed]
    rfl
  have hhdr : 6 ≤ head.message.length := le_trans (by decide) (hq c _ hcut.mem).message.header
  refine .single trivial (Service.step_take hwait hfree) ?_
  rw [List.append_nil]
  refine h.take hl harr rfl rfl rfl (by rw [hw]; rfl) ?_ ?_ ?_
  · rw [hw, ← hfound.psock]
    rfl
  · intro k hk
    rw [hctx, Function.update_of_ne hk]
  · rw [hctx, Function.update_self, hret, hfound.recvmsg, MsgCtx.receive]
    dsimp only
    rw [idOf_append hhdr]

/-- The response is spliced: the request is answered. -/
theorem follows_answered (h : Refines t ds s es) (hl : Service.Ledger s es) {ksk : Ksk} {env : SendEnv}
    {r : Tx.Sendmsg.Result} {rest : List Tx.Sendmsg.Outcome} {n : ℕ} {psock : PsockPtr}
    (hsane : Tx.Sendmsg.SaneRun (t.call ksk env) (.init (t.call ksk env) (t.sock ksk env)) env.outcomes)
    (hsend : Tx.Sendmsg.rakaiaSendmsg (t.call ksk env) (t.sock ksk env) env.intact env.outcomes = some (r, rest))
    (hret : r.ret = .ok n) (hpc : t.worker.pc ksk = .serving) (hlast : t.worker.lastPsock ksk = psock)
    (hpc' : t'.worker.pc = Function.update t.worker.pc ksk (.sending psock))
    (hlast' : t'.worker.lastPsock = t.worker.lastPsock) (hctx : t'.ctx = t.ctx) (ev : Tx.Event) :
    Follows streams t'
      (ds ++ [.worker (.tx psock ev), .answered ksk psock (r.spliced.map Tx.Sendmsg.Seg.bytes)]) s es := by
  obtain ⟨i, hi⟩ := Option.isSome_iff_exists.mp ((h.serving ksk).mpr hpc)
  obtain ⟨m, harr, hresp⟩ := h.served ksk i hi
  obtain ⟨r', harr', hends⟩ := hl.ends_eq (k := .serving ksk) (n := i) (by simp [Service.whereabouts, hi]) .answered
  obtain rfl := Option.some.inj (harr.symm.trans harr')
  have hbytes : (r.spliced.map Tx.Sendmsg.Seg.bytes).flatten = responseWith (idOf m) := by
    rw [← hresp]
    exact (Tx.Sendmsg.spliced_of_ok hsane hsend hret).2.1
  have hshow : (End.answered psock (r.spliced.map Tx.Sendmsg.Seg.bytes).flatten).Shows ⟨.answered, i, _, m⟩ :=
    ⟨rfl, hlast, hbytes⟩
  exact .single trivial (Service.step_answer hi) (h.done hends hshow rfl rfl rfl hpc' (by simp) hlast' hctx)

/-- The response is not sent: the request is given up. -/
theorem follows_sendError (h : Refines t ds s es) (hl : Service.Ledger s es) {ksk : Ksk}
    (hpc : t.worker.pc ksk = .serving) (hw : t'.worker = t.worker.setPc ksk .waiting) (hctx : t'.ctx = t.ctx) :
    Follows streams t' (ds ++ [.worker (.sendError ksk)]) s es := by
  obtain ⟨i, hi⟩ := Option.isSome_iff_exists.mp ((h.serving ksk).mpr hpc)
  obtain ⟨r, -, hends⟩ := hl.ends_eq (k := .serving ksk) (n := i) (by simp [Service.whereabouts, hi]) .gaveUp
  have hpc' : t'.worker.pc = Function.update t.worker.pc ksk .waiting := by rw [hw]; rfl
  have hshow : End.gaveUp.Shows ⟨.gaveUp, i, r.1, r.2⟩ := rfl
  exact .single trivial (Service.step_giveUp hi)
    (h.done hends hshow rfl rfl rfl hpc' (by simp) (by rw [hw]; rfl) hctx)

/-- The assertions of the thread do not fail. -/
theorem asserted_of_reach (hq : Requests rcvbuf streams) (hr : (machine rcvbuf writeSeq).Reach (Fair streams) t ds)
    {ksk : Ksk} {skb : Skb} {rest : List Skb} {r : Seqpacket.Returned}
    (hrq : t.worker.sched.receiveQ ksk = skb :: rest) (hret : r = rakaiaRecvmsg ⟨skb.cb, t.buf skb.id⟩) :
    asserted r.ret ((t.ctx ksk).receive r.stored).request = true := by
  have hmem : skb ∈ Sched.whereabouts t.worker.sched (Worker.schedEvents (workerEvents ds)) (.receiveQ ksk) := by
    rw [Sched.whereabouts, hrq]
    exact List.mem_cons_self
  obtain ⟨c, head, hfound, hcut⟩ := recvmsg_of_reach hq hr hmem
  rw [hret, hfound.recvmsg]
  exact asserted_of_request (hq c _ hcut.mem) _

/-- **Every step of the server is answered** by the service. -/
theorem follows_step (hq : Requests rcvbuf streams) (h : Refines t ds s es) (hl : Service.Ledger s es)
    (hr : (machine rcvbuf writeSeq).Reach (Fair streams) t ds) (hg : Fair streams t a)
    (hs : step rcvbuf t a = some (t', d)) : Follows streams t' (ds ++ d) s es := by
  have hr' := hr.step hg hs
  cases step_cases hs with
  | present psock b p e =>
      have hgone : gone (e.map (.strp psock)) = [] := by
        rw [gone, workerEvents_strp]
        rfl
      exact .stay (h.stay (handed_strp psock e) hgone (ends_strp psock e) (fun _ => Iff.rfl) (fun _ _ => ⟨rfl, rfl⟩))
  | hand psock base r1 r2 head rest w hp _ hw =>
      have hnext := h.next_request hq hr hp
      obtain ⟨hpc, hlast⟩ := pushStart_worker hw
      refine .single trivial (Service.step_arrive hnext) ?_
      rw [List.append_nil]
      exact h.arrive hr rfl rfl rfl hpc hlast rfl
  | worker b w e ho hw =>
      cases Worker.step_cases hw with
      | sched b sc e hm hb => exact follows_sched h hl hr ho hm hb rfl rfl hr'
      | tx psock b tx e =>
          obtain ⟨hgone, hends⟩ := quiet_tx psock e
          exact .stay (h.stay (handed_worker _) hgone hends (fun _ => Iff.rfl) (fun _ _ => ⟨rfl, rfl⟩))
      | sent ksk psock hpc =>
          refine .stay (h.stay rfl rfl rfl (fun k => ?_) (fun _ _ => ⟨rfl, rfl⟩))
          by_cases hk : k = ksk
          · simp [hk, hpc]
          · simp [hk]
      | received => cases ho
      | recvFault => cases ho
      | sendError => cases ho
      | spliced => cases ho
  | returned ksk skb rest r hpc hrq hret _ => exact follows_returned hq h hl hr hpc hrq hret rfl rfl hr'
  | assertFailed ksk skb rest r w e hrq hret hno =>
      rw [asserted_of_reach hq hr hrq hret] at hno
      cases hno
  | answered ksk env r rest n w psock hsend hret hpc hlast _ hpc' _ hlast' =>
      refine follows_answered h hl hg hsend hret hpc hlast ?_ ?_ ?_ _
      · exact hpc'
      · exact hlast'
      · rfl
  | sendError ksk env hpc => exact follows_sendError h hl hpc rfl rfl

/-- **The server is a request service**: every run of it is a run of the service. -/
theorem refines_of_reach (hq : Requests rcvbuf streams)
    (h : (machine rcvbuf writeSeq).Reach (Fair streams) t ds) :
    ∃ s es, (Service.machine (K := Ksk) streams).Reachable s es ∧ Refines t ds s es :=
  h.simulate Refines refines_init
    (fun _ _ _ _ _ _ _ hr hm hR hg hs => follows_step hq hR (Service.ledger_of_reach hm) hr hg hs)

end Rakaia.System
