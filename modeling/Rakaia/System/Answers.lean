import Mathlib.Data.UInt
import Mathlib.Data.List.ReduceOption
import Rakaia.System.Refinement
import Rakaia.Tx.Stream

/-! # What the server sends

`rakaia_sendmsg` splices the segments of a response, and the transmit path of the connection moves them to TCP.
The two ends meet here: on every connection, what TCP has been given are whole responses, one behind the other,
to different requests of that connection (`responses_on_the_wire`). -/

namespace Rakaia.Tx

variable {v : Variant} {s s' : State} {a : Act} {e : List Event}

/-- `write_seq` has advanced by what was appended. -/
theorem GapFree.writeSeq_eq {a b : UInt32} {l : List TxSkb} (h : GapFree a l b) :
    b = a + ((l.map TxSkb.ranged).map Prod.snd).sum := by
  induction l generalizing a with
  | nil => exact (h.symm.trans (UInt32.add_zero a).symm)
  | cons skb rest ih =>
      obtain ⟨rfl, hrest⟩ := h
      have hstep : skb.seq + (skb.endSeq - skb.seq) = skb.endSeq := by
        rw [UInt32.add_comm, UInt32.sub_add_cancel]
      rw [ih hrest, List.map_cons, List.map_cons, List.sum_cons, ← UInt32.add_assoc]
      exact congrArg (· + _) hstep.symm

/-- In the plain-tcp variant only `rakaia_sendmsg` splices. -/
theorem quiet_of_mayTransmit (hs : Step .plainTcp s a s' e) (ha : Worker.State.mayTransmit a = true) :
    s'.nextMsg = s.nextMsg ∧ splices e = [] := by
  cases hs with
  | splice => cases ha
  | sendCtrl _ hv => cases hv
  | _ => exact ⟨rfl, rfl⟩

theorem splices_append (es e : List Event) : splices (es ++ e) = splices es ++ splices e := List.filterMap_append

end Rakaia.Tx

namespace Rakaia.Worker

open Lib
open Sched (Ksk)

variable {writeSeq : PsockPtr → UInt32} {s s' : State} {a : Act} {es e : List Event} {G : State → Act → Prop}

/-! ### The transmit paths in the server -/

def Event.tx? : Event → Option (PsockPtr × Tx.Event)
  | .tx psock e => some (psock, e)
  | _ => none

/-- The events of the transmit path of a psock. -/
def txEvents (c : PsockPtr) (es : List Event) : List Tx.Event := entries Event.tx? es c

@[simp] theorem txEvents_append (c : PsockPtr) (es e : List Event) :
    txEvents c (es ++ e) = txEvents c es ++ txEvents c e := entries_append es e c

@[simp] theorem txEvents_sched (c : PsockPtr) (e : List Sched.Event) : txEvents c (e.map .sched) = [] :=
  entries_map_of_none (fun _ => rfl) e c

@[simp] theorem txEvents_tx (c psock : PsockPtr) (e : List Tx.Event) :
    txEvents c (e.map (.tx psock)) = if psock = c then e else [] :=
  entries_map_of_some (f := Event.tx?) (fun _ => rfl) e c

/-- A step of the server is a step of the transmit path of `c`, or leaves it alone. -/
theorem tx_step (hs : step s a = some (s', e)) (c : PsockPtr) :
    (s'.tx c = s.tx c ∧ txEvents c e = []) ∨
      ∃ b, Tx.step .plainTcp (s.tx c) b = some (s'.tx c, txEvents c e) := by
  cases a with
  | tx psock b =>
      simp only [step] at hs
      split_ifs at hs with hm
      simp only [Option.map_eq_some_iff, Prod.mk.injEq, Prod.exists] at hs
      obtain ⟨tx, e', hb, rfl, rfl⟩ := hs
      by_cases hc : psock = c
      · subst hc
        exact .inr ⟨b, by simpa using hb⟩
      · exact .inl ⟨Function.update_of_ne (Ne.symm hc) _ _, by simp [hc]⟩
  | sched b =>
      cases step_cases hs with
      | sched b sc e => exact .inl ⟨rfl, txEvents_sched c e⟩
  | recvmsg ksk copied =>
      cases step_cases hs with
      | received => exact .inl ⟨rfl, rfl⟩
      | recvFault => exact .inl ⟨rfl, rfl⟩
  | sent ksk =>
      cases step_cases hs with
      | sent => exact .inl ⟨rfl, rfl⟩
  | sendmsg ksk segments =>
      cases step_cases hs with
      | sendError => exact .inl ⟨rfl, rfl⟩
      | spliced ksk lens psock _ _ _ hidle =>
          by_cases hc : psock = c
          · subst hc
            refine .inr ⟨.splice ksk.val lens, ?_⟩
            simp only [Tx.step, if_pos hidle, State.setPc, Function.update_self]
            simp [txEvents, entries, Event.tx?]
          · refine .inl ⟨Function.update_of_ne (Ne.symm hc) _ _, ?_⟩
            simp [txEvents, entries, Event.tx?, hc]

/-- Only `sendmsg` splices. -/
theorem quiet_of_step (hs : step s a = some (s', e)) (ha : ∀ ksk lens, a ≠ .sendmsg ksk (some lens))
    (c : PsockPtr) : (s'.tx c).nextMsg = (s.tx c).nextMsg ∧ Tx.splices (txEvents c e) = [] := by
  cases step_cases hs with
  | sched b sc e => exact ⟨rfl, by rw [txEvents_sched]; rfl⟩
  | spliced ksk lens => exact absurd rfl (ha ksk lens)
  | tx psock b tx e hm hb =>
      by_cases hc : psock = c
      · subst hc
        simpa using Tx.quiet_of_mayTransmit hb hm
      · simp [hc, Ne.symm hc, Tx.splices]
  | _ => exact ⟨rfl, rfl⟩

/-- What a splice does to the transmit paths. -/
theorem tx_of_spliced {ksk : Ksk} {lens : List UInt32} {psock : PsockPtr} {ev : Tx.Event}
    (hs : step s (.sendmsg ksk (some lens)) = some (s', e)) (he : e = [.tx psock ev]) :
    s'.tx = Function.update s.tx psock (((s.tx psock).append lens).setPc ksk.val .call) := by
  cases step_cases hs with
  | sendError => cases he
  | spliced ksk lens psock => cases he; rfl

/-- The transmit path of a psock runs as a transmit path does. -/
theorem tx_of_reach (h : (machine writeSeq).Reach G s es) (c : PsockPtr) :
    (Tx.machine .plainTcp (writeSeq c)).Reachable (s.tx c) (txEvents c es) :=
  h.project (M := Tx.machine .plainTcp (writeSeq c)) (fun s => s.tx c) (txEvents c) (txEvents_append c) rfl rfl
    (fun _ _ _ _ _ _ _ hs => (tx_step hs c).imp id (fun ⟨b, hb⟩ => ⟨b, trivial, hb⟩))

end Rakaia.Worker

namespace Rakaia.System

open Lib
open Sched (Ksk)
open Strp.Memcache (headerLen SkRcvbuf)

variable {rcvbuf : PsockPtr → SkRcvbuf} {writeSeq : PsockPtr → UInt32} {t t' : State} {a : Act} {ds d : List Event}
  {streams : PsockPtr → List (List UInt8)} {c : PsockPtr}

/-! ### The answers to a connection -/

def Event.answered? : Event → Option (PsockPtr × List (List UInt8))
  | .answered _ psock segments => some (psock, segments)
  | _ => none

/-- The answers that were spliced for a connection: the segments of each. -/
def answersTo (c : PsockPtr) (ds : List Event) : List (List (List UInt8)) := entries Event.answered? ds c

@[simp] theorem answersTo_append (c : PsockPtr) (ds d : List Event) :
    answersTo c (ds ++ d) = answersTo c ds ++ answersTo c d := entries_append ds d c

theorem answersTo_of_none (h : ∀ ev ∈ d, ev.answered? = none) (c : PsockPtr) : answersTo c d = [] := by
  rw [answersTo, entries, List.filterMap_eq_nil_iff]
  intro ev hev
  rw [h ev hev]
  rfl

theorem answersTo_worker (c : PsockPtr) (e : List Worker.Event) : answersTo c (e.map .worker) = [] := by
  refine answersTo_of_none (fun ev hev => ?_) c
  obtain ⟨x, -, rfl⟩ := List.mem_map.mp hev
  rfl

/-- The answers to a connection, as the history tells of the ends of requests. -/
def End.answerTo? (c : PsockPtr) : End → Option (List UInt8)
  | .answered psock bytes => if psock = c then some bytes else none
  | _ => none

theorem answersTo_eq (c : PsockPtr) (ds : List Event) :
    (answersTo c ds).map List.flatten = (ends ds).filterMap (End.answerTo? c) := by
  rw [answersTo, entries, ends, List.map_filterMap, List.filterMap_filterMap]
  refine List.filterMap_congr fun ev _ => ?_
  cases ev with
  | answered ksk psock segments => by_cases hc : psock = c <;> simp [Event.answered?, Event.end?, End.answerTo?, hc]
  | worker ev =>
      cases ev with
      | sched ev => cases ev <;> rfl
      | _ => rfl
  | _ => rfl

/-- What the service has answered on a connection was answered by the server, with the responses. -/
theorem answers_of_shows {l : List End} {es : List (Service.Event PsockPtr (List UInt8))}
    (h : List.Forall₂ End.Shows l es) (c : PsockPtr) :
    l.filterMap (End.answerTo? c) = (Service.fated es .answered c).map (fun m => responseWith (idOf m)) := by
  induction h with
  | nil => rfl
  | @cons x ev l es hx _ ih =>
      have hcons : Service.fated (ev :: es) .answered c =
          (if ev.fate = .answered ∧ ev.conn = c then [ev.request] else []) ++ Service.fated es .answered c := by
        by_cases hev : ev.fate = .answered ∧ ev.conn = c
        · simp [Service.fated, entries, hev]
        · simp [Service.fated, entries, hev]
      rw [hcons, List.map_append, ← ih]
      cases x with
      | answered psock bytes =>
          obtain ⟨hfate, rfl, rfl⟩ := hx
          by_cases hc : ev.conn = c <;> simp [End.answerTo?, hfate, hc]
      | dropped n =>
          rw [List.filterMap_cons_none rfl, hx.1]
          simp
      | gaveUp =>
          have hfate : ev.fate = .gaveUp := hx
          rw [List.filterMap_cons_none rfl, hfate]
          simp

/-- **Answers on a connection** are the responses to different requests of its stream. -/
theorem answers_of_reach (hq : Requests rcvbuf streams) (h : (machine rcvbuf writeSeq).Reach (Fair streams) t ds)
    (c : PsockPtr) : ∃ ms : List (List UInt8), ms.Subperm (streams c) ∧
      (answersTo c ds).map List.flatten = ms.map (fun m => responseWith (idOf m)) := by
  obtain ⟨s, es, hs, hR⟩ := refines_of_reach hq h
  refine ⟨Service.fated es .answered c, Service.fated_subperm hs .answered c, ?_⟩
  rw [answersTo_eq, answers_of_shows hR.ends]

/-! ### Answers and splices -/

/-- The splices of the answers with the given segments. -/
def splicesOf (answers : List (List (List UInt8))) : List (ℕ × List UInt32) :=
  answers.zipIdx.map (fun x => (x.2, x.1.map (fun seg => UInt32.ofNat seg.length)))

theorem splicesOf_concat (answers : List (List (List UInt8))) (segs : List (List UInt8)) :
    splicesOf (answers ++ [segs]) =
      splicesOf answers ++ [(answers.length, segs.map (fun seg => UInt32.ofNat seg.length))] := by
  simp [splicesOf, List.zipIdx_append]

theorem length_splicesOf (answers : List (List (List UInt8))) : (splicesOf answers).length = answers.length := by
  rw [splicesOf, List.length_map, List.length_zipIdx]

/-- The first splices are those of the first answers. -/
theorem eq_splicesOf_take {answers : List (List (List UInt8))} {done rest : List (ℕ × List UInt32)}
    (h : splicesOf answers = done ++ rest) : done = splicesOf (answers.take done.length) := by
  have hle : done.length ≤ answers.length := by
    rw [← length_splicesOf, h, List.length_append]
    exact Nat.le_add_right _ _
  have hsplit : splicesOf answers = splicesOf (answers.take done.length) ++
      ((answers.drop done.length).zipIdx (answers.take done.length).length).map
        (fun x => (x.2, x.1.map (fun seg => UInt32.ofNat seg.length))) := by
    conv_lhs => rw [← List.take_append_drop done.length answers]
    rw [splicesOf, List.zipIdx_append, List.map_append, Nat.zero_add]
    rfl
  refine (List.append_inj (h.symm.trans hsplit) ?_).1
  rw [length_splicesOf, List.length_take, Nat.min_eq_left hle]

/-- The transmit path of a connection has got the answers to it. -/
structure Spliced (c : PsockPtr) (t : State) (ds : List Event) : Prop where
  next : (t.worker.tx c).nextMsg = (answersTo c ds).length
  splices : Tx.splices (Worker.txEvents c (workerEvents ds)) = splicesOf (answersTo c ds)

theorem Spliced.quiet (h : Spliced c t ds) (hn : (t'.worker.tx c).nextMsg = (t.worker.tx c).nextMsg)
    (hs : Tx.splices (Worker.txEvents c (workerEvents d)) = []) (ha : answersTo c d = []) :
    Spliced c t' (ds ++ d) := by
  constructor
  · rw [answersTo_append, ha, List.append_nil, hn, h.next]
  · rw [workerEvents_append, Worker.txEvents_append, Tx.splices_append, hs, answersTo_append, ha, List.append_nil,
      List.append_nil, h.splices]

/-- The segments carry their byte counts. -/
theorem seqs_eq {l : List Tx.Sendmsg.Seg} (h : ∀ skb ∈ l, skb.seq.toNat = skb.bytes.length) :
    l.map Tx.Sendmsg.Seg.seq = (l.map Tx.Sendmsg.Seg.bytes).map (fun seg => UInt32.ofNat seg.length) := by
  rw [List.map_map]
  refine List.map_congr_left fun skb hskb => ?_
  rw [Function.comp_apply, ← h skb hskb, UInt32.ofNat_toNat]

theorem Spliced.worker (h : Spliced c t ds) {b : Worker.Act}
    (hw : Worker.step t.worker b = some (t'.worker, workerEvents d))
    (hb : ∀ ksk lens, b ≠ .sendmsg ksk (some lens)) (ha : answersTo c d = []) : Spliced c t' (ds ++ d) :=
  have hquiet := Worker.quiet_of_step hw hb c
  h.quiet hquiet.1 hquiet.2 ha

theorem spliced_step (hs : Step rcvbuf t a t' d) (hg : Fair streams t a) (h : Spliced c t ds) :
    Spliced c t' (ds ++ d) := by
  cases hs with
  | present psock b p e =>
      refine h.quiet rfl (by rw [workerEvents_strp]; rfl) (answersTo_of_none (fun ev hev => ?_) c)
      obtain ⟨x, -, rfl⟩ := List.mem_map.mp hev
      rfl
  | hand psock base r1 r2 head rest w _ _ hw => exact h.worker hw nofun rfl
  | worker b w e ho hw =>
      refine h.worker (b := b) (by rw [workerEvents_worker]; exact hw) ?_ (answersTo_worker c e)
      rintro ksk lens rfl
      cases ho
  | returned => exact h.quiet rfl rfl rfl
  | assertFailed ksk skb rest r w e _ _ _ hw =>
      refine h.worker (b := .recvmsg ksk (decide (0 ≤ r.ret))) (by rw [workerEvents_assertFailed]; exact hw) nofun ?_
      rw [answersTo_append, answersTo_worker]
      rfl
  | sendError => exact h.quiet rfl rfl rfl
  | answered ksk env r rest n w psock hsend hret _ _ hw =>
      have hsegs := (Tx.Sendmsg.spliced_of_ok hg hsend hret).2.2.2
      have hseqs := seqs_eq (fun skb hskb => (hsegs skb hskb).2)
      have htx := Worker.tx_of_spliced hw rfl
      by_cases hc : psock = c
      · subst hc
        constructor
        · simp [htx, Tx.State.append, h.next, answersTo, entries, Event.answered?]
        · have hd : answersTo psock [.worker (.tx psock (.spliced (t.worker.tx psock).nextMsg
              (r.spliced.map Tx.Sendmsg.Seg.seq))), .answered ksk psock (r.spliced.map Tx.Sendmsg.Seg.bytes)] =
              [r.spliced.map Tx.Sendmsg.Seg.bytes] := by
            simp [answersTo, entries, Event.answered?]
          rw [answersTo_append, hd, splicesOf_concat, ← h.splices, ← h.next, ← hseqs]
          simp [workerEvents, Event.worker?, Worker.txEvents, entries, Worker.Event.tx?, Tx.splices,
            Tx.Event.spliced?]
      · refine h.quiet ?_ ?_ ?_
        · simp [htx, Ne.symm hc]
        · simp [workerEvents, Event.worker?, Worker.txEvents, entries, Worker.Event.tx?, Tx.splices, hc]
        · simp [answersTo, entries, Event.answered?, hc]

theorem spliced_of_reach (h : (machine rcvbuf writeSeq).Reach (Fair streams) t ds) (c : PsockPtr) : Spliced c t ds :=
  h.invariant (P := Spliced c) ⟨rfl, rfl⟩ (fun _ _ _ _ _ _ ih hg hs => spliced_step (step_cases hs) hg ih)

/-! ### What TCP has been given -/

theorem stream_snd (ms : List (ℕ × List UInt32)) : (Tx.stream ms).map Prod.snd = ms.flatMap Prod.snd := by
  rw [Tx.stream, List.map_flatMap]
  refine List.flatMap_congr fun m _ => ?_
  rw [Tx.segments, List.map_map]
  exact List.map_id _

theorem splicesOf_snd (answers : List (List (List UInt8))) :
    (splicesOf answers).flatMap Prod.snd = answers.flatten.map (fun seg => UInt32.ofNat seg.length) := by
  have hfst : answers.zipIdx.map Prod.fst = answers := List.zipIdx_map_fst 0 answers
  conv_rhs => rw [← hfst]
  rw [splicesOf, List.flatMap_map, List.map_flatten, List.map_map]
  rfl

theorem sum_lengths (segs : List (List UInt8)) :
    (segs.map (fun seg => UInt32.ofNat seg.length)).sum = UInt32.ofNat segs.flatten.length := by
  induction segs with
  | nil => rfl
  | cons seg segs ih =>
      rw [List.map_cons, List.sum_cons, ih, List.flatten_cons, List.length_append, UInt32.ofNat_add]

/-- Of the answers to a connection, the first `k` have been appended to `sk_write_queue`, whole and in order; `u` are
their last segments, which have no sequence numbers yet.  The others wait.  Without such segments, `write_seq` has
advanced by `k` headers. -/
structure OnTheWire (w : UInt32) (answers : List (List (List UInt8))) (s : Tx.State) (es : List Tx.Event)
    (u : List Tx.TxSkb) (k : ℕ) : Prop where
  le : k ≤ answers.length
  given : (Tx.appended es).map Tx.TxSkb.ranged ++ u.map Tx.TxSkb.counted = Tx.stream (splicesOf (answers.take k))
  waiting : s.txWaitQueue.map Tx.TxSkb.seq = (answers.drop k).flatten.map (fun seg => UInt32.ofNat seg.length)
  gapFree : Tx.GapFree w (Tx.appended es) s.writeSeq
  writeSeq : u = [] → s.writeSeq = w + UInt32.ofNat (headerLen * k)

theorem length_of_answers {answers : List (List (List UInt8))} {ms : List (List UInt8)}
    (h : answers.map List.flatten = ms.map (fun m => responseWith (idOf m))) {k : ℕ} (hk : k ≤ answers.length) :
    (answers.take k).flatten.flatten.length = headerLen * k := by
  have hall : ∀ segs ∈ answers.take k, segs.flatten.length = headerLen := by
    intro segs hsegs
    have hmem := List.mem_map_of_mem (f := List.flatten) (List.mem_of_mem_take hsegs)
    rw [h] at hmem
    obtain ⟨m, -, hm⟩ := List.mem_map.mp hmem
    rw [← hm, length_responseWith]
  have hsum : ((answers.take k).map (fun segs => segs.flatten.length)).sum = k * headerLen := by
    rw [List.map_congr_left hall, List.map_const', List.sum_replicate, List.length_take, Nat.min_eq_left hk]
    rfl
  rw [List.flatten_flatten, List.length_flatten, List.map_map, Nat.mul_comm]
  exact hsum

theorem onTheWire_of_reach (h : (machine rcvbuf writeSeq).Reach (Fair streams) t ds) {c : PsockPtr}
    {ms : List (List UInt8)} (hms : (answersTo c ds).map List.flatten = ms.map (fun m => responseWith (idOf m)))
    {u : List Tx.TxSkb} (hu : Tx.Unassigned (t.worker.tx c) u) :
    ∃ k, OnTheWire (writeSeq c) (answersTo c ds) (t.worker.tx c) (Worker.txEvents c (workerEvents ds)) u k := by
  obtain ⟨done, rest, hst⟩ := Tx.streams_of_reach (Worker.tx_of_reach (worker_of_reach h) c) u hu
  have hsplit := (spliced_of_reach h c).splices.symm.trans hst.splices
  have hdone := eq_splicesOf_take hsplit
  have hle : done.length ≤ (answersTo c ds).length := by
    rw [← length_splicesOf, hsplit, List.length_append]
    exact Nat.le_add_right _ _
  have hgiven := hst.appended
  rw [hdone] at hgiven
  refine ⟨done.length, hle, hgiven, ?_, hst.gapFree, ?_⟩
  · -- the byte counts of all answers are those of the first ones and then those of the rest
    have hall := congrArg (List.flatMap Prod.snd) hsplit
    rw [splicesOf_snd, List.flatMap_append, hdone, splicesOf_snd] at hall
    conv_lhs at hall => rw [← List.take_append_drop done.length (answersTo c ds)]
    rw [List.flatten_append, List.map_append] at hall
    have hwait := congrArg (List.map Prod.snd) hst.waiting
    rw [stream_snd, List.map_map] at hwait
    rw [List.append_cancel_left hall, ← hwait]
    rfl
  · rintro rfl
    rw [List.map_nil, List.append_nil] at hgiven
    rw [hst.gapFree.writeSeq_eq, hgiven, stream_snd, splicesOf_snd, sum_lengths, length_of_answers hms hle]

end Rakaia.System
