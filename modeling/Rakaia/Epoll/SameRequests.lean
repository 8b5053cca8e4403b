import Rakaia.Epoll.Output
import Rakaia.Lib.Progress
import Rakaia.Pool.EndOfFile

/-! # The epoll server and the thread-pool server see the same requests

The epoll server receives the header of a request and then its body, and never a byte of the next request; the
thread-pool server receives what there is and takes extras, key and value from its buffer.  On a stream of requests
whose lengths agree with one another both process the same requests in the same order, however the stream is cut
for each of them (`same_requests`). -/

/-! ### Everything received is served -/

namespace Rakaia.Epoll

open Lib

section served

variable {F : Format} {requests : List (List UInt8)} {es : List Event} {s : State}

/-- When the whole stream has been received, its last request has been processed. -/
theorem Agrees.processed_all (hreq : ∀ r ∈ requests, F.Request r) (h : Agrees F requests s es)
    (hall : receivedBytes es = requests.flatten) : processed es = requests.map (List.take F.size) := by
  obtain ⟨-, done, todo, cur, hat⟩ := h
  have hcur : cur = todo.flatten := by
    have hrecv := hat.received
    rw [hall, hat.split, List.flatten_append] at hrecv
    exact (List.append_cancel_left hrecv).symm
  cases todo with
  | nil => rw [hat.processed, hat.split, List.append_nil]
  | cons r rest =>
      -- The first request that was not processed would have been received to its end.
      exfalso
      have hr : r.length = F.size + F.bodyLen r := hreq r (by rw [hat.split]; simp)
      have hsize := F.fits
      have hlen : cur.length = r.length + rest.flatten.length := by
        rw [hcur, List.flatten_cons, List.length_append]
      have hhead : Heading F s.conn cur → False := by
        intro hh
        have hshort := hh.short
        rw [← hh.cur_eq] at hshort
        omega
      have hbody : Body F s.conn (r :: rest) cur → False := by
        intro hb
        have hpos := hb.pos
        obtain ⟨r', rest', heq, -, -, -, hleft⟩ := hb.next
        obtain ⟨rfl, rfl⟩ := List.cons.inj heq
        omega
      have hresp : Responding s.conn cur → False := by
        intro hs
        rw [hs.cur_eq, List.length_nil] at hlen
        omega
      have hhere := hat.here
      generalize s.pc = pc at hhere
      cases hhere with
      | header hh => exact hhead hh
      | recvHeader hh => exact hhead hh
      | body hb => exact hbody hb
      | recvBody hb => exact hbody hb
      | response hs => exact hresp hs
      | send hs => exact hresp hs

/-! ### The epoll server can go on -/

theorem continues_of_step {s s' : State} {a : Act} {e : List Event} (hs : step F s a = some (s', e))
    (hg : Smooth s a) : (driveMachine F).Continues Smooth s e s' := .single hg hs

/-- The call in progress can return. -/
theorem exists_returned (h : Agrees F requests s es) :
    ∃ s', (driveMachine F).Continues Smooth s [] s' ∧ s'.pc = .idle := by
  obtain ⟨-, done, todo, cur, hat⟩ := h
  have hhere := hat.here
  cases hpc : s.pc with
  | idle => exact ⟨s, .refl s, hpc⟩
  | recvHeader =>
      have hs : step F s (.recv (.failed .eagain)) = some ({ s with pc := .idle }, []) := by
        simp only [step, hpc, recvHeaderOnce, handleErr]
      exact ⟨_, continues_of_step hs rfl, rfl⟩
  | recvBody =>
      have hs : step F s (.recv (.failed .eagain)) = some ({ s with pc := .idle }, []) := by
        simp only [step, hpc, drainBodyOnce, handleErr]
      exact ⟨_, continues_of_step hs rfl, rfl⟩
  | send part =>
      have hs : step F s (.send (.failed .eagain)) = some ({ s with pc := .idle }, []) := by
        simp only [step, hpc, sendExactly, handleErr]
      exact ⟨_, continues_of_step hs rfl, rfl⟩
  | aborted =>
      rw [hpc] at hhere
      cases hhere

/-- A call in the state `HEADER` comes to `recv`. -/
theorem step_call_header (hw : s.conn.Wf) (hst : s.conn.state = .header) (hshort : s.conn.content.length < F.size)
    (hpc : s.pc = .idle) (hc : s.closed = false) :
    step F s .call = some ({ s with conn := s.conn.compact, pc := .recvHeader }, []) := by
  have hread : readHeader F s.conn = (s.conn.compact, .recvHeader, []) := by
    rw [readHeader, if_neg (not_lt.mpr F.size_le), hw.availBytes_eq, if_pos hshort]
  simp only [step, if_pos (And.intro hpc hc), dispatch, hst, hread, goes, List.append_nil]

/-- The next call comes to `recv`, perhaps behind one that sends a response. -/
theorem exists_reading (hvalid : ∀ r ∈ requests, F.Accepts r) (h : Agrees F requests s es) (hpc : s.pc = .idle) :
    ∃ s' e, (driveMachine F).Continues Smooth s e s' ∧ receivedBytes e = [] ∧
      (s'.pc = .recvHeader ∨ s'.pc = .recvBody) := by
  obtain ⟨hc, done, todo, cur, hat⟩ := h
  have hhere := hat.here
  rw [hpc] at hhere
  cases hhere with
  | header hhead =>
      have hs := step_call_header hat.wf hhead.state hhead.short hpc hc
      exact ⟨_, _, continues_of_step hs trivial, rfl, .inl rfl⟩
  | body hbody =>
      obtain ⟨r, rest, rfl, -, -, hle, hleft⟩ := hbody.next
      have hacc := hvalid r (by rw [hat.split]; simp)
      have hlen : r.length = F.size + F.bodyLen r := hacc.request
      have hmax := hacc.bodyLen_le
      have hdrain : drainBody F s.conn = (s.conn, .recvBody, []) := by
        rw [drainBody, if_neg hbody.pos.ne', if_neg (by omega)]
      have hs : step F s .call = some ({ s with pc := .recvBody }, []) := by
        simp only [step, if_pos (And.intro hpc hc), dispatch, hbody.state, hdrain, goes, List.append_nil]
      exact ⟨_, _, continues_of_step hs trivial, rfl, .inr rfl⟩
  | response hresp =>
      have hsize : 0 < F.size := by have := F.fits; omega
      have hcall : step F s .call = some ({ s with pc := .send 0 }, []) := by
        simp only [step, if_pos (And.intro hpc hc), dispatch, hresp.state, goes, List.append_nil]
      have hw : ({ s.conn with state := .header } : Conn).Wf := hat.wf
      have hempty : ({ s.conn with state := .header } : Conn).content = [] := hresp.empty
      have hdone : responseSent F s.conn = ({ s.conn with state := .header }, .idle, []) := by
        rw [responseSent]
        dsimp only
        rw [hw.availBytes_eq, hempty, List.length_nil, if_neg (not_le.mpr hsize)]
      have hsend : step F { s with pc := .send 0 } (.send (.sent F.size)) =
          some ({ s with conn := { s.conn with state := .header }, pc := .idle },
            [.sent 0 ((s.conn.header.drop 0).take F.size)]) := by
        simp only [step, sendExactly, if_neg hsize.ne', if_pos (le_refl F.size), Nat.sub_zero, Nat.zero_add,
          if_neg (lt_irrefl F.size), hdone, goes, List.append_nil]
      have hnext := step_call_header (F := F)
        (s := { s with conn := { s.conn with state := .header }, pc := .idle }) hw rfl (by rw [hempty]; exact hsize)
        rfl hc
      exact ⟨_, _, (continues_of_step hcall trivial).trans ((continues_of_step hsend hsize).trans
        (continues_of_step hnext trivial)), rfl, .inl rfl⟩

/-- At `recv` a byte can be received. -/
theorem exists_byte_received (h : Agrees F requests s es) (hpc : s.pc = .recvHeader ∨ s.pc = .recvBody) (b : UInt8) :
    ∃ s' e, (driveMachine F).Continues Smooth s e s' ∧ receivedBytes e = [b] := by
  obtain ⟨hc, done, todo, cur, hat⟩ := h
  have hhere := hat.here
  have hread : ∀ l, Prepares F l → receivedBytes (goes s [.received [b]] l).2 = [b] := by
    intro l hl
    change receivedBytes ([.received [b]] ++ l.2.2) = [b]
    rw [receivedBytes_append, hl.receivedBytes]
    rfl
  rcases hpc with hpc | hpc
  · rw [hpc] at hhere
    obtain ⟨hhead, h0⟩ : Heading F s.conn cur ∧ s.conn.bufHead = 0 := by
      cases hhere with
      | recvHeader hh h0 => exact ⟨hh, h0⟩
    have hst : s.conn.state ≠ .response := by rw [hhead.state]; decide
    have hshort := hhead.short
    have hlen : s.conn.content.length = (s.conn.bufTail - s.conn.bufHead).toNat := hat.wf.length_content
    have htail : s.conn.bufHead ≤ s.conn.bufTail := hat.wf.head_le
    have hbs : 0 < [b].length ∧ [b].length ≤ (F.size - s.conn.bufTail).toNat := by
      rw [List.length_singleton]
      omega
    obtain ⟨l, hl⟩ : ∃ l, l = if (s.conn.received [b]).availBytes < F.size then (s.conn.received [b], .idle, [])
        else headerRead F ((s.conn.received [b]).takeHeader F) := ⟨_, rfl⟩
    have hprep : Prepares F l := by
      rw [hl]
      split_ifs
      · exact prepares_nil _ _ hst
      · exact prepares_headerRead hst
    have hs : step F s (.recv (.data [b])) = some (goes s [.received [b]] l) := by
      simp only [step, hpc, recvHeaderOnce, if_pos hbs, hl]
    exact ⟨_, _, continues_of_step hs trivial, hread l hprep⟩
  · rw [hpc] at hhere
    have hbody : Body F s.conn todo cur := by
      cases hhere with
      | recvBody hb => exact hb
    have hst : s.conn.state ≠ .response := by rw [hbody.state]; decide
    have hbs : 0 < [b].length ∧ [b].length ≤ s.conn.bodyBytesLeft := ⟨Nat.one_pos, hbody.pos⟩
    obtain ⟨c, hc'⟩ : ∃ c, c = { s.conn with bodyBytesLeft := s.conn.bodyBytesLeft - [b].length } := ⟨_, rfl⟩
    obtain ⟨l, hl⟩ : ∃ l, l = if c.bodyBytesLeft ≠ 0 then (c, .idle, []) else process F c := ⟨_, rfl⟩
    have hprep : Prepares F l := by
      rw [hl]
      split_ifs
      · exact prepares_nil _ _ (by rw [hc']; exact hst)
      · exact prepares_process _
    have hs : step F s (.recv (.data [b])) = some (goes s [.received [b]] l) := by
      simp only [step, hpc, drainBodyOnce, if_pos hbs, hl, hc']
    exact ⟨_, _, continues_of_step hs trivial, hread l hprep⟩

/-- From wherever it stands the server can receive the rest of the stream and return. -/
theorem exists_all_received (hvalid : ∀ r ∈ requests, F.Accepts r) (h : (driveMachine F).Reach Smooth s es)
    (hp : receivedBytes es <+: requests.flatten) :
    ∃ s' e, (driveMachine F).Continues Smooth s e s' ∧ receivedBytes (es ++ e) = requests.flatten ∧
      s'.pc = .idle := by
  have hnext : ∀ s es b rest, (driveMachine F).Reach Smooth s es → receivedBytes es ++ b :: rest = requests.flatten →
      ∃ s' e, (driveMachine F).Continues Smooth s e s' ∧ receivedBytes e = [b] := by
    intro s es b rest h hrest
    have hp : receivedBytes es <+: requests.flatten := ⟨_, hrest⟩
    obtain ⟨s₁, hc₁, hidle⟩ := exists_returned (agrees_of_reach hvalid h hp)
    have hr₁ := h.continues hc₁
    rw [List.append_nil] at hr₁
    obtain ⟨s₂, e₂, hc₂, he₂, hpc⟩ := exists_reading hvalid (agrees_of_reach hvalid hr₁ hp) hidle
    have hp₂ : receivedBytes (es ++ e₂) <+: requests.flatten := by
      rw [receivedBytes_append, he₂, List.append_nil]
      exact hp
    obtain ⟨s₃, e₃, hc₃, he₃⟩ := exists_byte_received (agrees_of_reach hvalid (hr₁.continues hc₂) hp₂) hpc b
    refine ⟨s₃, [] ++ (e₂ ++ e₃), hc₁.trans (hc₂.trans hc₃), ?_⟩
    rw [List.nil_append, receivedBytes_append, he₂, he₃]
    rfl
  obtain ⟨s', e, hc, hall⟩ := Machine.Reach.exists_reads_all receivedBytes_append hnext h hp
  obtain ⟨s'', hc', hidle⟩ := exists_returned (agrees_of_reach hvalid (h.continues hc) (by rw [hall]))
  refine ⟨s'', e ++ [], hc.trans hc', ?_, hidle⟩
  rw [List.append_nil]
  exact hall

end served

end Rakaia.Epoll

/-! ### The thread-pool server -/

namespace Rakaia.Pool.Reads

open Lib
open Strp.Memcache (headerLen requestLen)

section served

variable {requests : List (List UInt8)} {es e : List Event} {s s' : State}

theorem scan_requests (hvalid : ∀ r ∈ requests, Request r) :
    scan (look requestLen) (requests.flatten.length + 1) requests.flatten = (requests, false) := by
  have hscan := scans_requests hvalid []
  rw [List.append_nil] at hscan
  obtain ⟨fuel, -, heq⟩ := hscan.scan_eq steady_look (Nat.lt_succ_self _)
  rw [heq, scan_of_wait rfl, List.append_nil]

/-- A stream of valid requests does not close the connection. -/
theorem not_closed (hvalid : ∀ r ∈ requests, Request r) (h : Inv s es)
    (hp : receivedBytes es <+: requests.flatten) : s.closed = false := by
  by_contra hc
  obtain ⟨⟨reqs, rest, hscan, -, hstop⟩, -⟩ := h.ended (eq_true_of_ne_false hc)
  obtain ⟨m, hm⟩ := hp
  have hscan := hscan.append steady_look m
  rw [hm] at hscan
  obtain ⟨fuel, hfuel, heq⟩ := hscan.scan_eq steady_look (Nat.lt_succ_self _)
  rw [scan_requests hvalid, scan_of_stop (steady_look.stop_append rest m hstop) (by omega)] at heq
  exact absurd (congrArg Prod.snd heq) (by simp)

/-- When the whole stream has been received and the call has returned, all its requests are enqueued. -/
theorem jobs_all (hvalid : ∀ r ∈ requests, Request r) (h : Inv s es) (hall : receivedBytes es = requests.flatten)
    (hpc : s.pc = .idle) : jobs es = ids requests := by
  obtain ⟨reqs, cur, ha⟩ := h.running (not_closed hvalid h (by rw [hall]))
  rw [hpc] at ha
  have heq := ha.jobs_eq
  rw [hall, scan_requests hvalid] at heq
  rw [ha.jobs, (Prod.mk.inj heq).1]

/-! ### It can go on -/

/-- Nothing is received, and the call ends only when the connection is closed. -/
def Quiet (r : State × List Event) : Prop := receivedBytes r.2 = [] ∧ (r.1.pc = .idle → r.1.closed = true)

theorem quiet_closes (s : State) : Quiet (closes s) := ⟨rfl, fun _ => rfl⟩

theorem quiet_goes {c : Conn} {pc : Pc} (hpc : pc ≠ .idle) : Quiet (goes s c pc) := ⟨rfl, fun h => absurd h hpc⟩

theorem quiet_readHeaderStep (q : Bool) : Quiet (readHeaderStep s q) := by
  unfold readHeaderStep
  dsimp only
  split_ifs
  · exact quiet_goes nofun
  · exact quiet_closes _
  · exact quiet_goes nofun

theorem quiet_consumed {q : Bool} {r : State × List Event} (hs : consumed s q = some r) : Quiet r := by
  unfold consumed at hs
  dsimp only at hs
  split at hs
  · cases hs
  · obtain rfl := Option.some.inj hs
    exact quiet_goes nofun
  · split_ifs at hs <;> obtain rfl := Option.some.inj hs
    · exact quiet_closes s
    · exact quiet_goes nofun
    · exact quiet_goes nofun
  · obtain rfl := Option.some.inj hs
    exact ⟨rfl, nofun⟩

/-- A step that is not a call of `recv`. -/
theorem quiet_runStep {r : State × List Event} (hs : runStep s = some r) : Quiet r := by
  unfold runStep at hs
  split at hs
  · cases hs
  · obtain rfl := Option.some.inj hs
    split_ifs
    · exact quiet_goes nofun
    · exact quiet_goes nofun
  · obtain rfl := Option.some.inj hs
    exact quiet_readHeaderStep _
  · split_ifs at hs
    obtain rfl := Option.some.inj hs
    exact quiet_goes nofun
  · split_ifs at hs
    · obtain rfl := Option.some.inj hs
      exact quiet_goes nofun
    · obtain rfl := Option.some.inj hs
      exact quiet_goes nofun
    · exact quiet_consumed hs
  · split_ifs at hs
    obtain rfl := Option.some.inj hs
    exact quiet_goes nofun

/-- Where `recv` can return `EAGAIN` it can return a byte. -/
theorem recv_again_cases {r : State × List Event} (hs : step s (.recv .again) = some r) :
    receivedBytes r.2 = [] ∧ ∀ b, ∃ s', step s (.recv (.data [b])) = some (s', [.received [b]]) := by
  rcases recvStep_cases (r := .again) hs with ⟨q, any, hpc, htail, hs⟩ | ⟨q, hpc, hpend, hs⟩
  · refine ⟨?_, fun b => ?_⟩
    · have hr : _ = r := Option.some.inj hs
      rw [← hr]
      cases any <;> rfl
    · have hbs : 0 < [b].length ∧ [b].length ≤ (bufSize - s.conn.bufTail).toNat := by
        rw [List.length_singleton]
        omega
      simp only [step, recvStep, hpc, if_pos htail, recvMore, if_pos hbs]
      exact ⟨_, rfl⟩
  · refine ⟨?_, fun b => ?_⟩
    · have hr : _ = r := Option.some.inj hs
      rw [← hr]
      rfl
    · have hbs : 0 < [b].length ∧ [b].length ≤ min s.conn.pendingBytes scratchSize :=
        ⟨Nat.one_pos, le_min hpend (Nat.one_le_ofNat)⟩
      simp only [step, recvStep, hpc, if_pos hpend, recvScratch, if_pos hbs]
      exact ⟨_, rfl⟩

theorem Drains.continues (h : Drains s e s') :
    machine.Continues Healthy s e s' ∧ receivedBytes e = [] ∧ s'.pc = .idle := by
  induction h with
  | returned hpc => exact ⟨.refl _, rfl, hpc⟩
  | @step s s₁ s₂ a e₁ e₂ ha hs _ ih =>
      obtain ⟨hc, he, hpc⟩ := ih
      have hg : Healthy s a := by rcases ha with rfl | rfl <;> trivial
      have he₁ : receivedBytes e₁ = [] := by
        rcases ha with rfl | rfl
        · exact (quiet_runStep hs).1
        · exact (recv_again_cases hs).1
      refine ⟨.step hg hs hc, ?_, hpc⟩
      rw [receivedBytes_append, he₁, he]
      rfl

/-- A call that has not returned comes to a `recv` that can return a byte. -/
theorem exists_reading (hvalid : ∀ r ∈ requests, Request r) (h : Inv s es)
    (hp : receivedBytes es <+: requests.flatten) (hpc : s.pc ≠ .idle) (b : UInt8) :
    ∃ s' e, machine.Continues Healthy s e s' ∧ receivedBytes e = [b] := by
  induction hn : measure s.conn s.pc using Nat.strong_induction_on generalizing s es with
  | _ n ih =>
      obtain ⟨a, ⟨s₁, e₁⟩, rfl | rfl, hs, hend⟩ := exists_step h hpc
      · obtain ⟨he₁, hclosed⟩ := quiet_runStep hs
        have h₁ : Inv s₁ (es ++ e₁) := h.step (a := .run) trivial hs
        have hp₁ : receivedBytes (es ++ e₁) <+: requests.flatten := by
          rw [receivedBytes_append, he₁, List.append_nil]
          exact hp
        have hpc₁ : s₁.pc ≠ .idle := by
          intro hidle
          have hc := hclosed hidle
          rw [not_closed hvalid h₁ hp₁] at hc
          cases hc
        obtain ⟨s', e, hc, he⟩ := ih _ (hn ▸ hend.resolve_left hpc₁) h₁ hp₁ hpc₁ rfl
        refine ⟨s', e₁ ++ e, .step (a := Act.run) trivial hs hc, ?_⟩
        rw [receivedBytes_append, he₁, he]
        rfl
      · obtain ⟨s', hs'⟩ := (recv_again_cases hs).2 b
        exact ⟨s', [.received [b]], .single (a := Act.recv (.data [b])) rfl hs', rfl⟩

/-- From wherever it stands the server can receive the rest of the stream and return. -/
theorem exists_all_received (hvalid : ∀ r ∈ requests, Request r) (h : machine.Reach Healthy s es)
    (hp : receivedBytes es <+: requests.flatten) :
    ∃ s' e, machine.Continues Healthy s e s' ∧ receivedBytes (es ++ e) = requests.flatten ∧ s'.pc = .idle := by
  have hnext : ∀ s es b rest, machine.Reach Healthy s es → receivedBytes es ++ b :: rest = requests.flatten →
      ∃ s' e, machine.Continues Healthy s e s' ∧ receivedBytes e = [b] := by
    intro s es b rest h hrest
    have hp : receivedBytes es <+: requests.flatten := ⟨_, hrest⟩
    have hinv := inv_of_reach h
    by_cases hpc : s.pc = .idle
    · have hcall : step s .call = some (goes s s.conn (.loop false)) :=
        if_pos ⟨hpc, not_closed hvalid hinv hp⟩
      have hp' : receivedBytes (es ++ []) <+: requests.flatten := by rwa [List.append_nil]
      have hinv' : Inv (goes s s.conn (.loop false)).1 (es ++ []) := hinv.step (a := .call) trivial hcall
      obtain ⟨s', e, hc, he⟩ := exists_reading hvalid hinv' hp' nofun b
      exact ⟨s', [] ++ e, .step (a := Act.call) trivial hcall hc, he⟩
    · exact exists_reading hvalid hinv hp hpc b
  obtain ⟨s', e, hc, hall⟩ := Machine.Reach.exists_reads_all receivedBytes_append hnext h hp
  obtain ⟨s'', e', hd⟩ := exists_drains (inv_of_reach (h.continues hc))
  obtain ⟨hc', he', hidle⟩ := hd.continues
  refine ⟨s'', e ++ e', hc.trans hc', ?_, hidle⟩
  rw [← List.append_assoc, receivedBytes_append, he', List.append_nil]
  exact hall

end served

end Rakaia.Pool.Reads

/-! ### The two servers -/

namespace Rakaia.Epoll

open Lib
open Strp.Memcache (headerLen requestLen)
open Pool.Reads (BidHeader cmdSet cmdGet cmdGetk)

/-- A complete memcache-id request whose lengths agree with one another, with a body of at most 2048 bytes. -/
structure ValidRequest (r : List UInt8) : Prop where
  length : r.length = headerLen + (BidHeader.ofBytes r).bodyLen
  magic : (BidHeader.ofBytes r).magic = 0x80
  opcode : Pool.Reads.validOpcode (BidHeader.ofBytes r).opcode = true
  get : (BidHeader.ofBytes r).opcode = cmdGet ∨ (BidHeader.ofBytes r).opcode = cmdGetk →
    (BidHeader.ofBytes r).bodyLen = (BidHeader.ofBytes r).keyLen + (BidHeader.ofBytes r).extraLen
  set : (BidHeader.ofBytes r).opcode = cmdSet →
    (BidHeader.ofBytes r).keyLen + (BidHeader.ofBytes r).extraLen ≤ (BidHeader.ofBytes r).bodyLen
  bodyLen_le : (BidHeader.ofBytes r).bodyLen ≤ 2048

theorem ValidRequest.accepts {r : List UInt8} (h : ValidRequest r) : bidHeader.Accepts r :=
  ⟨h.length, h.magic, h.opcode, h.bodyLen_le⟩

theorem ValidRequest.request {r : List UInt8} (h : ValidRequest r) : Pool.Reads.Request r := by
  refine ⟨by rw [h.length]; exact Nat.le_add_right _ _, ?_, ?_, ?_⟩
  · simp [BidHeader.bad, h.magic, h.opcode]
  · unfold BidHeader.short
    by_cases hset : (BidHeader.ofBytes r).opcode = cmdSet
    · rw [decide_eq_false (not_lt.mpr (h.set hset)), Bool.and_false]
    · rw [beq_false_of_ne hset, Bool.false_and]
  · rw [h.length, BidHeader.len]
    split_ifs with hset
    · rfl
    · have hop := h.opcode
      simp only [Pool.Reads.validOpcode, Bool.or_eq_true, beq_iff_eq] at hop
      rw [h.get (by tauto), Nat.add_assoc]

/-- The ids of the requests processed so far. -/
def processedIds (es : List Event) : List (List UInt8) := (processed es).map (fun hdr => (BidHeader.ofBytes hdr).id)

/-- **Both servers see the same requests.**  Let the bytes that each server receives on a connection be those of
one stream of valid requests, cut by `recv` in any way, with `EAGAIN` anywhere, and for each server in its own way.
No assertion of the epoll server fails and neither server closes the connection; both can go on until the whole
stream has been received; and when it has, and the call of the thread-pool server has returned, the ids of the
requests that the epoll server processed and those of the jobs that the thread-pool server enqueued are those of the
stream, in order. -/
theorem same_requests {requests : List (List UInt8)} (hvalid : ∀ r ∈ requests, ValidRequest r) :
    (∀ s es, memcachedIdDriveMachine.Reach Smooth s es → receivedBytes es <+: requests.flatten →
      s.pc ≠ .aborted ∧ s.closed = false ∧
      ∃ s' e, memcachedIdDriveMachine.Continues Smooth s e s' ∧ receivedBytes (es ++ e) = requests.flatten ∧
        s'.pc = .idle) ∧
    (∀ t fs, Pool.Reads.machine.Reach Pool.Reads.Healthy t fs → Pool.Reads.receivedBytes fs <+: requests.flatten →
      t.closed = false ∧
      ∃ t' f, Pool.Reads.machine.Continues Pool.Reads.Healthy t f t' ∧
        Pool.Reads.receivedBytes (fs ++ f) = requests.flatten ∧ t'.pc = .idle) ∧
    (∀ s es t fs, memcachedIdDriveMachine.Reach Smooth s es → Pool.Reads.machine.Reach Pool.Reads.Healthy t fs →
      receivedBytes es = requests.flatten → Pool.Reads.receivedBytes fs = requests.flatten → t.pc = .idle →
      processedIds es = Pool.Reads.jobs fs ∧ Pool.Reads.jobs fs = Pool.Reads.ids requests) := by
  have hacc : ∀ r ∈ requests, bidHeader.Accepts r := fun r hr => (hvalid r hr).accepts
  have hreq : ∀ r ∈ requests, Pool.Reads.Request r := fun r hr => (hvalid r hr).request
  refine ⟨fun s es h hp => ?_, fun t fs h hp => ?_, fun s es t fs hs ht hes hfs hidle => ?_⟩
  · obtain ⟨hopen, done, todo, cur, hat⟩ := agrees_of_reach hacc h hp
    refine ⟨fun habort => ?_, hopen, exists_all_received hacc h hp⟩
    have hhere := hat.here
    rw [habort] at hhere
    cases hhere
  · exact ⟨Pool.Reads.not_closed hreq (Pool.Reads.inv_of_reach h) hp, Pool.Reads.exists_all_received hreq h hp⟩
  · have hjobs := Pool.Reads.jobs_all hreq (Pool.Reads.inv_of_reach ht) hfs hidle
    have hproc := (agrees_of_reach hacc hs (by rw [hes])).processed_all (fun r hr => (hacc r hr).request) hes
    refine ⟨?_, hjobs⟩
    rw [hjobs, processedIds, hproc, List.map_map]
    refine List.map_congr_left (fun r _ => ?_)
    exact congrArg BidHeader.id (Pool.Reads.ofBytes_take r)

open Strp.Memcache (twoRequests)

theorem twoRequests_validRequest : ∀ r ∈ twoRequests, ValidRequest r := by
  intro r hr
  simp only [twoRequests, List.mem_cons, List.not_mem_nil, or_false] at hr
  rcases hr with rfl | rfl <;> exact ⟨by decide, by decide, by decide, by decide, by decide, by decide⟩

instance (s : State) : DecidablePred (Smooth s)
  | .call => isTrue trivial
  | .recv (.data _) => isTrue trivial
  | .recv .eof => isFalse id
  | .recv (.failed errno) => inferInstanceAs (Decidable (errno.retries = true))
  | .send (.sent n) => inferInstanceAs (Decidable (0 < n))
  | .send (.failed errno) => inferInstanceAs (Decidable (errno.retries = true))

/-- The header of the first request in two pieces; `EAGAIN` behind it and within the first response; then the
second request, with a body in two pieces. -/
def epollPieces : List Act :=
  let rx := twoRequests.flatten
  [.call, .recv (.data (rx.take 10)), .call, .recv (.data ((rx.drop 10).take 18)), .recv (.failed .eagain), .call,
    .recv (.data [65]), .send (.sent 5), .send (.failed .eagain), .call, .send (.sent 28), .call,
    .recv (.data ((rx.drop 29).take 28)), .recv (.data [66]), .call, .recv (.data [67]), .send (.sent 28)]

/-- The two servers receive the same stream in different pieces. -/
theorem same_requests_pieces : (∀ r ∈ twoRequests, ValidRequest r) ∧
    ∃ s es t fs, memcachedIdDriveMachine.Reach Smooth s es ∧ Pool.Reads.machine.Reach Pool.Reads.Healthy t fs ∧
      receivedBytes es = twoRequests.flatten ∧ Pool.Reads.receivedBytes fs = twoRequests.flatten ∧
      processedIds es = [[0, 0, 0, 7], [0, 0, 0, 8]] ∧ Pool.Reads.jobs fs = [[0, 0, 0, 7], [0, 0, 0, 8]] := by
  obtain ⟨s, es, hs, hes⟩ := Machine.Reach.of_exec (M := memcachedIdDriveMachine) (G := Smooth)
    (g := fun s a => decide (Smooth s a)) epollPieces (fun _ _ _ => of_decide_eq_true)
    (fun r => receivedBytes r.2) twoRequests.flatten (by decide +kernel)
  obtain ⟨t, fs, ht, hy⟩ := Machine.Reach.of_exec (M := Pool.Reads.machine) (G := Pool.Reads.Healthy)
    (g := fun s a => decide (Pool.Reads.Healthy s a)) Pool.Reads.pieces (fun _ _ _ => of_decide_eq_true)
    (fun r => (Pool.Reads.receivedBytes r.2, r.1.pc)) (twoRequests.flatten, .idle) (by decide +kernel)
  obtain ⟨hfs, hidle⟩ := Prod.mk.inj hy
  obtain ⟨hsame, hids⟩ := (same_requests twoRequests_validRequest).2.2 s es t fs hs ht hes hfs hidle
  refine ⟨twoRequests_validRequest, s, es, t, fs, hs, ht, hes, hfs, ?_, ?_⟩
  · rw [hsame, hids]
    decide
  · rw [hids]
    decide

end Rakaia.Epoll
