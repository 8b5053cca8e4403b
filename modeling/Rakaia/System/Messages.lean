import Rakaia.System.Step

/-! # Messages on their way through the server

What the parser of a connection has cut off its stream is what it has handed over, and what it has pending
(`pending_of_reach`).  A message that was handed over is found again by its number: wherever the scheduler has
it, its control block leads `rakaia_recvmsg` to the bytes of the request (`recvmsg_of_reach`). -/

namespace Rakaia.System

open Lib
open Sched (Ksk)
open Strp.Memcache (headerLen SkRcvbuf framing requestLen)

variable {rcvbuf : PsockPtr → SkRcvbuf} {writeSeq : PsockPtr → UInt32} {s s' : State} {a : Act} {es e : List Event}
  {G : State → Act → Prop} {streams : PsockPtr → List (List UInt8)}

/-! ### What is handed over -/

def Event.handed? : Event → Option (PsockPtr × Strp.Head Unit)
  | .handed psock head => some (psock, head)
  | _ => none

/-- The messages that were handed over, in order. -/
def handed (es : List Event) : List (PsockPtr × Strp.Head Unit) := es.filterMap Event.handed?

@[simp] theorem handed_append (es e : List Event) : handed (es ++ e) = handed es ++ handed e :=
  List.filterMap_append

@[simp] theorem handed_worker (e : List Worker.Event) : handed (e.map .worker) = [] :=
  filterMap_map_of_none (fun _ => rfl) e

@[simp] theorem handed_strp (psock : PsockPtr) (e : List (Strp.Event Unit)) : handed (e.map (.strp psock)) = [] :=
  filterMap_map_of_none (fun _ => rfl) e

/-- The messages that were handed over by the parser of a connection. -/
def handedBy (c : PsockPtr) (es : List Event) : List (Strp.Head Unit) := entries some (handed es) c

@[simp] theorem handedBy_append (c : PsockPtr) (es e : List Event) :
    handedBy c (es ++ e) = handedBy c es ++ handedBy c e := by
  rw [handedBy, handed_append, entries_append]
  rfl

/-- **What a parser has cut** is what it has handed over, and then what is pending. -/
theorem pending_of_reach (h : (machine rcvbuf writeSeq).Reach G s es) (c : PsockPtr) :
    Strp.messages (strpEvents c es) = handedBy c es ++ s.pending c := by
  refine h.invariant (P := fun s es => Strp.messages (strpEvents c es) = handedBy c es ++ s.pending c) rfl ?_
  intro s es a s' e _ ih _ hs
  rw [strpEvents_append, Strp.messages_append, handedBy_append, ih]
  -- a step that neither cuts nor hands over
  have hkeep : s'.pending c = s.pending c → strpEvents c e = [] → handed e = [] →
      handedBy c es ++ s.pending c ++ Strp.messages (strpEvents c e) =
        handedBy c es ++ handedBy c e ++ s'.pending c := by
    intro hp hst hh
    rw [hp, hst, handedBy, handedBy, hh]
    simp [Strp.messages, entries]
  have hparser := parser_step (step_cases hs) c
  cases step_cases hs with
  | present psock b p e hnil _ hb =>
      have hh : handedBy c (e.map (.strp psock)) = [] := by rw [handedBy, handed_strp]; rfl
      by_cases hc : psock = c
      · subst hc
        simp [hnil, hh]
      · refine hkeep (Function.update_of_ne (Ne.symm hc) _ _) ?_ (handed_strp psock e)
        simp [hc]
  | hand psock base r1 r2 head rest w hp =>
      have hh : handedBy c [.handed psock head, .worker (.sched (.handed s.worker.sched.nextId psock
          (cbOf head.stm base)))] = if psock = c then [head] else [] := by
        by_cases hc : psock = c <;> simp [handedBy, handed, Event.handed?, entries, hc]
      have hst : strpEvents c [.handed psock head, .worker (.sched (.handed s.worker.sched.nextId psock
          (cbOf head.stm base)))] = [] := rfl
      rw [hh, hst]
      by_cases hc : psock = c
      · subst hc
        simp [hp, Strp.messages]
      · simp [hc, Ne.symm hc, Strp.messages]
  | worker b w e =>
      refine hkeep rfl (hparser.elim And.right ?_) (handed_worker e)
      rintro ⟨b', hb', -⟩
      cases hb'
  | returned => exact hkeep rfl rfl rfl
  | assertFailed ksk skb rest r w e =>
      refine hkeep rfl (hparser.elim And.right ?_) ?_
      · rintro ⟨b', hb', -⟩
        cases hb'
      · rw [handed_append, handed_worker]
        rfl
  | answered => exact hkeep rfl rfl rfl
  | sendError => exact hkeep rfl rfl rfl

theorem mem_handedBy {c : PsockPtr} {head : Strp.Head Unit} (h : (c, head) ∈ handed es) : head ∈ handedBy c es := by
  rw [handedBy, entries, List.mem_filterMap]
  exact ⟨(c, head), h, by simp⟩

/-! ### Requests -/

/-- A request that the server takes: the parser and the buffer of the thread have room for it, and it is one that
the thread expects. -/
structure Request (rcvbuf : SkRcvbuf) (m : List UInt8) : Prop where
  message : framing.Message m
  fits : m.length ≤ rcvbuf
  small : m.length ≤ requestSize
  magic : beAt m 0 1 = 0x80
  opcode : knownOpcode (beAt m 1 1) = true

/-- Every connection brings requests. -/
def Requests (rcvbuf : PsockPtr → SkRcvbuf) (streams : PsockPtr → List (List UInt8)) : Prop :=
  ∀ c, ∀ m ∈ streams c, Request (rcvbuf c) m

theorem Requests.valid (hq : Requests rcvbuf streams) (c : PsockPtr) : Strp.Valid framing (rcvbuf c) (streams c) :=
  fun m hm => ⟨(hq c m hm).message, (hq c m hm).fits⟩

theorem steady : Strp.Steady Strp.Memcache.parser := ⟨fun _ _ => rfl, fun _ _ => rfl⟩

theorem cut_of_reach (hq : Requests rcvbuf streams) (h : (machine rcvbuf writeSeq).Reach (Fair streams) s es)
    {c : PsockPtr} {head : Strp.Head Unit} (hm : (c, head) ∈ handed es) :
    Strp.Cut (2 ^ 31) (fun _ => ()) (streams c) head := by
  refine Strp.cut_of_reach steady (Strp.Memcache.follows (rcvbuf c)) (hq.valid c) (parser_of_reach h c) ?_
  rw [pending_of_reach h c]
  exact List.mem_append_left _ (mem_handedBy hm)

/-! ### The books of the scheduler -/

/-- The scheduler's number of a message leads to what was handed over under it. -/
structure Books (s : State) (es : List Event) : Prop where
  length : (handed es).length = s.worker.sched.nextId
  filed : ∀ n c cb, Sched.Event.handed n c cb ∈ Worker.schedEvents (workerEvents es) →
    ∃ head base, (handed es)[n]? = some (c, head) ∧ s.buf n = head.skb ∧ cb = cbOf head.stm base

/-- Only the start of a push hands a message over. -/
theorem quiet_step {w w' : Worker.State} {b : Worker.Act} {e : List Worker.Event} (hs : Worker.Step w b w' e)
    (hb : ∀ psock cb n r1 r2, b ≠ .sched (.pushStart psock cb n r1 r2)) :
    w'.sched.nextId = w.sched.nextId ∧ ∀ n c cb, Sched.Event.handed n c cb ∉ Worker.schedEvents e := by
  refine ⟨(Worker.nextId_step hs).resolve_right ?_, fun n c cb => ?_⟩
  · rintro ⟨psock, cb, n, r1, r2, h⟩
    exact hb psock cb n r1 r2 h
  · cases hs with
    | sched b sc es _ hb' =>
        rw [Worker.schedEvents_sched]
        cases Sched.step_cases hb' with
        | pushStart psock cb n r1 r2 => exact absurd rfl (hb psock cb n r1 r2)
        | _ => simp
    | tx psock b tx es => simp [Worker.schedEvents_tx]
    | _ => simp [Worker.schedEvents, Worker.Event.sched?]

theorem Books.quiet (h : Books s es) {b : Worker.Act} (hw : Worker.Step s.worker b s'.worker (workerEvents e))
    (hb : ∀ psock cb n r1 r2, b ≠ .sched (.pushStart psock cb n r1 r2)) (hh : handed e = [])
    (hbuf : s'.buf = s.buf) : Books s' (es ++ e) := by
  obtain ⟨hn, hnone⟩ := quiet_step hw hb
  refine ⟨by rw [handed_append, hh, List.append_nil, h.length, hn], fun n c cb hm => ?_⟩
  rw [handed_append, hh, List.append_nil, hbuf]
  refine h.filed n c cb ?_
  rw [workerEvents_append, Worker.schedEvents, List.filterMap_append] at hm
  exact (List.mem_append.mp hm).resolve_right (hnone n c cb)

theorem Books.hand (h : Books s es) (hl : Sched.Ledger s.worker.sched (Worker.schedEvents (workerEvents es)))
    {psock : PsockPtr} {head : Strp.Head Unit} {base : Cb}
    (he : e = [.handed psock head, .worker (.sched (.handed s.worker.sched.nextId psock (cbOf head.stm base)))])
    (hn : s'.worker.sched.nextId = s.worker.sched.nextId + 1)
    (hbuf : s'.buf = Function.update s.buf s.worker.sched.nextId head.skb) : Books s' (es ++ e) := by
  subst he
  have hlen := h.length
  refine ⟨by simp [handed, Event.handed?, hn, ← hlen], fun n c cb hm => ?_⟩
  simp only [handed_append, hbuf]
  rw [workerEvents_append, Worker.schedEvents, List.filterMap_append] at hm
  rcases List.mem_append.mp hm with hm | hm
  · obtain ⟨head', base', hget, hskb, hcb⟩ := h.filed n c cb hm
    have hlt := hl.lt_of_handed hm
    rw [List.getElem?_append_left (by omega), Function.update_of_ne (ne_of_lt hlt)]
    exact ⟨head', base', hget, hskb, hcb⟩
  · simp only [workerEvents, Event.worker?, List.filterMap_cons, List.filterMap_nil, Worker.Event.sched?,
      List.mem_singleton, Sched.Event.handed.injEq] at hm
    obtain ⟨rfl, rfl, rfl⟩ := hm
    refine ⟨head, base, ?_, Function.update_self _ _ _, rfl⟩
    rw [← hlen, List.getElem?_append_right le_rfl, Nat.sub_self]
    rfl

theorem books_of_reach (h : (machine rcvbuf writeSeq).Reach G s es) : Books s es := by
  refine h.invariant (P := Books) ⟨rfl, nofun⟩ ?_
  intro s es a s' e hr ih _ hs
  have hs := step_cases hs
  have hworker := worker_step hs
  cases hs with
  | present psock b p e =>
      refine ⟨by simpa using ih.length, fun n c cb hm => ?_⟩
      simp only [workerEvents_append, workerEvents_strp, List.append_nil] at hm
      simpa using ih.filed n c cb hm
  | hand psock base r1 r2 head rest w _ _ _ hn =>
      exact ih.hand (Sched.ledger_of_reach (sched_of_reach hr)) rfl hn rfl
  | worker b w e ho hw =>
      refine ih.quiet (b := b) (by rw [workerEvents_worker]; exact Worker.step_cases hw) ?_ (handed_worker e) rfl
      rintro psock cb n r1 r2 rfl
      cases ho
  | returned ksk skb rest r hpc hq =>
      exact ih.quiet (.received ksk skb rest hpc hq) nofun rfl rfl
  | assertFailed ksk skb rest r w e _ _ _ hw =>
      refine ih.quiet (b := .recvmsg ksk (decide (0 ≤ r.ret))) ?_ nofun ?_ rfl
      · rw [workerEvents_assertFailed]
        exact Worker.step_cases hw
      · rw [handed_append, handed_worker]
        rfl
  | answered ksk env r rest n w psock _ _ _ _ hw =>
      exact ih.quiet (Worker.step_cases hw) nofun rfl rfl
  | sendError ksk env hpc => exact ih.quiet (.sendError ksk none hpc (.inl rfl)) nofun rfl rfl

/-! ### What `recvmsg` finds -/

theorem load_cbOf (stm : Strp.Stm Unit) (base : Cb) :
    Cb.fullLen.load (cbOf stm base) = stm.fullLen % 2 ^ 32 ∧
      Cb.offset.load (cbOf stm base) = stm.offset % 2 ^ 32 := by
  constructor
  · exact Field.load_store Cb.fullLen _ _
  · rw [cbOf, Field.load_store_of_disjoint (by decide)]
    exact Field.load_store Cb.offset _ _

/-- A message that fits is received whole. -/
theorem rakaiaRecvmsg_eq {m : Seqpacket.Msg} (hl : m.buf.Laid) (hin : m.offset + m.fullLen ≤ m.buf.bytes.length)
    (hle : m.fullLen ≤ requestSize) : rakaiaRecvmsg m = ⟨m.bytes.length, m.bytes, false, true⟩ := by
  have hcopied : (if m.fullLen < requestSize then m.fullLen else requestSize) = m.fullLen := by
    split_ifs <;> omega
  have hlen : m.bytes.length = m.fullLen := by
    rw [Seqpacket.Msg.bytes, List.length_take, List.length_drop]
    omega
  have hcopy := datagramIter_eq hl m.offset m.fullLen ⟨[], requestSize, requestSize⟩ ⟨hle, hle⟩ hin
  rw [rakaiaRecvmsg, hcopied, hcopy, hlen]
  simp [Seqpacket.finish, Iter.push, Seqpacket.Msg.bytes]

/-- A message in the hands of the scheduler is one that was handed over, and `recvmsg` returns its bytes. -/
structure Found (s : State) (es : List Event) (skb : Skb) (c : PsockPtr) (head : Strp.Head Unit) : Prop where
  handed : (handed es)[skb.id]? = some (c, head)
  psock : skb.getPsock = c
  recvmsg : rakaiaRecvmsg ⟨skb.cb, s.buf skb.id⟩ = ⟨head.message.length, head.message, false, true⟩

theorem recvmsg_of_reach (hq : Requests rcvbuf streams) (h : (machine rcvbuf writeSeq).Reach (Fair streams) s es)
    {k : Sched.Place} {skb : Skb}
    (hm : skb ∈ Sched.whereabouts s.worker.sched (Worker.schedEvents (workerEvents es)) k) :
    ∃ c head, Found s es skb c head ∧ Strp.Cut (2 ^ 31) (fun _ => ()) (streams c) head := by
  obtain ⟨c, cb, hby⟩ := Sched.producedBy_of_reach (sched_of_reach h) hm
  obtain ⟨head, base, hget, hbuf, rfl⟩ := (books_of_reach h).filed skb.id c cb hby.handed
  have hcut := cut_of_reach hq h (List.mem_of_getElem? hget)
  have hreq := hq c head.message hcut.mem
  have hin := hcut.inside hreq.message.length_pos
  have hfit := lt_of_le_of_lt hreq.fits (rcvbuf c).isLt
  have hfull : Seqpacket.Msg.fullLen ⟨skb.cb, s.buf skb.id⟩ = head.stm.fullLen := by
    rw [Seqpacket.Msg.fullLen, hby.strp _ (by simp [Cb.strpFields]), (load_cbOf _ _).1, hcut.fullLen]
    exact Nat.mod_eq_of_lt (lt_trans hfit (by decide))
  have hoff : Seqpacket.Msg.offset ⟨skb.cb, s.buf skb.id⟩ = head.stm.offset := by
    rw [Seqpacket.Msg.offset, hby.strp _ (by simp [Cb.strpFields]), (load_cbOf _ _).2]
    exact Nat.mod_eq_of_lt (lt_trans hcut.offset (by decide))
  have hbytes : Seqpacket.Msg.bytes ⟨skb.cb, s.buf skb.id⟩ = head.message := by
    rw [Seqpacket.Msg.bytes, hfull, hoff]
    dsimp only
    rw [hbuf]
    rfl
  refine ⟨c, head, ⟨hget, hby.pointer, ?_⟩, hcut⟩
  rw [← hbytes]
  refine rakaiaRecvmsg_eq ?_ ?_ ?_
  · dsimp only
    rw [hbuf]
    exact hcut.wf.laid
  · rw [hfull, hoff]
    dsimp only
    rw [hbuf]
    exact hin
  · rw [hfull, hcut.fullLen]
    exact hreq.small

/-! ### The assertions -/

theorem beAt_append {l : List UInt8} {i n : ℕ} (h : i + n ≤ l.length) (l' : List UInt8) :
    beAt (l ++ l') i n = beAt l i n := by
  rw [← beAt_take h, List.take_left, ← beAt_take h, List.take_length]

/-- **The assertions hold** of every request, whatever is behind it in the buffer. -/
theorem asserted_of_request {rcvbuf : SkRcvbuf} {m : List UInt8} (h : Request rcvbuf m) (l : List UInt8) :
    asserted m.length (m ++ l) = true := by
  have hhdr := h.message.header
  change headerLen ≤ m.length at hhdr
  have hbe : ∀ i n, i + n ≤ headerLen → beAt (m ++ l) i n = beAt m i n :=
    fun i n hle => beAt_append (le_trans hle hhdr) l
  have hlen : requestLen m = m.length := h.message.len_eq
  rw [asserted_iff, hbe 0 1 (by decide), hbe 1 1 (by decide), hbe 6 2 (by decide), hbe 8 1 (by decide),
    hbe 12 4 (by decide)]
  refine ⟨by exact_mod_cast hhdr, h.magic, h.opcode, ?_⟩
  rw [← hlen]
  rfl

end Rakaia.System
