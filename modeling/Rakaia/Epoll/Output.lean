import Rakaia.Epoll.Drive

/-! # The responses of the epoll server

A response is sent by `send_exactly`, which counts the bytes that were sent in a local variable.  When `send`
would block the call returns; the connection keeps the state `RESPONSE`, but not the count, and the next call
sends the response from its first byte.

So what is written to the connection is a part of the responses, each byte once and in order, in every run where
`send` fails for now only at the first byte of a response (`written_in_order`).  In a run where it fails behind a
partial write the bytes written before are written again (`resumed_send_repeats`). -/

namespace Rakaia.Epoll

open Lib

/-! ### What was written, and what was not -/

/-- The bytes written to the connection. -/
def written (es : List Event) : List UInt8 :=
  es.flatMap (fun
    | .sent _ bs => bs
    | _ => [])

/-- The responses to the requests processed so far. -/
def responses (F : Format) (es : List Event) : List UInt8 := ((processed es).map F.respond).flatten

/-- The bytes of the response at hand that the call in progress has not sent, or that the next call will send. -/
def unsent (c : Conn) (pc : Pc) : List UInt8 :=
  if c.state = .response then
    match pc with
    | .send part => c.header.drop part
    | _ => c.header
  else []

/-- The indices, in the sequence of all responses, of the bytes written, when `n` requests have been processed. -/
def positions (F : Format) : ℕ → List Event → List ℕ
  | _, [] => []
  | n, .received _ :: es => positions F n es
  | n, .processed _ :: es => positions F (n + 1) es
  | n, .sent part bs :: es => List.range' ((n - 1) * F.size + part) bs.length ++ positions F n es

section

variable {F : Format} {requests : List (List UInt8)} {es e : List Event} {c : Conn} {s s' : State}

theorem unsent_of_ne (h : c.state ≠ .response) (pc : Pc) : unsent c pc = [] := if_neg h

theorem unsent_send (h : c.state = .response) (part : ℕ) : unsent c (.send part) = c.header.drop part := if_pos h

theorem written_append (es e : List Event) : written (es ++ e) = written es ++ written e := List.flatMap_append

theorem responses_append (es e : List Event) : responses F (es ++ e) = responses F es ++ responses F e := by
  simp [responses, processed_append]

theorem positions_append (n : ℕ) (es e : List Event) :
    positions F n (es ++ e) = positions F n es ++ positions F (n + (processed es).length) e := by
  induction es generalizing n with
  | nil => rfl
  | cons x es ih =>
      cases x with
      | received bs => exact ih n
      | processed header =>
          refine (ih (n + 1)).trans ?_
          rw [show n + 1 + (processed es).length = n + (processed (.processed header :: es)).length by
            simp [processed]; omega]
          rfl
      | sent part bs =>
          change _ ++ positions F n (es ++ e) = (_ ++ positions F n es) ++ _
          rw [ih n, List.append_assoc]
          rfl

/-- No byte is written by these events. -/
def NoSent (e : List Event) : Prop := ∀ x ∈ e, ∀ part bs, x ≠ .sent part bs

theorem NoSent.written (h : NoSent e) : Epoll.written e = [] := by
  refine List.flatMap_eq_nil_iff.mpr (fun x hx => ?_)
  cases x with
  | received | processed => rfl
  | sent part bs => exact absurd rfl (h _ hx part bs)

theorem NoSent.positions (h : NoSent e) (n : ℕ) : Epoll.positions F n e = [] := by
  induction e generalizing n with
  | nil => rfl
  | cons x e ih =>
      have he : NoSent e := fun y hy => h y (.tail _ hy)
      cases x with
      | received | processed => exact ih he _
      | sent part bs => exact absurd rfl (h _ (.head _) part bs)

theorem OnlyReceived.noSent (h : OnlyReceived e) : NoSent e := by
  intro x hx part bs heq
  obtain ⟨bs', rfl⟩ := h x hx
  cases heq

theorem NoSent.append {e₁ e₂ : List Event} (h₁ : NoSent e₁) (h₂ : NoSent e₂) : NoSent (e₁ ++ e₂) := by
  intro x hx
  rcases List.mem_append.mp hx with h | h
  · exact h₁ x h
  · exact h₂ x h

/-! ### The code between two system calls -/

/-- The code runs, without a response at hand, to a position where the response to the request that it processed,
if any, is at hand. -/
structure Prepares (F : Format) (l : Conn × Pc × List Event) : Prop where
  onlyProcessed : ∀ x ∈ l.2.2, ∃ hdr, x = .processed hdr
  unsent_eq : unsent l.1 l.2.1 = responses F l.2.2
  header : l.1.state = .response → ∃ hdr ∈ processed l.2.2, l.1.header = F.respond hdr

theorem Prepares.noSent {l : Conn × Pc × List Event} (h : Prepares F l) : NoSent l.2.2 := by
  intro x hx part bs heq
  obtain ⟨hdr, rfl⟩ := h.onlyProcessed x hx
  cases heq

theorem Prepares.receivedBytes {l : Conn × Pc × List Event} (h : Prepares F l) :
    Epoll.receivedBytes l.2.2 = [] := by
  refine List.flatMap_eq_nil_iff.mpr (fun x hx => ?_)
  obtain ⟨hdr, rfl⟩ := h.onlyProcessed x hx
  rfl

theorem prepares_nil (c : Conn) (pc : Pc) (h : c.state ≠ .response) : Prepares F (c, pc, []) :=
  ⟨nofun, unsent_of_ne h pc, fun hst => absurd hst h⟩

theorem prepares_process (c : Conn) : Prepares F (process F c) := by
  refine ⟨by simp [process], ?_, fun _ => ⟨c.header, by simp [process, processed], rfl⟩⟩
  simp [process, unsent, responses, processed]

theorem prepares_drainBody (h : c.state ≠ .response) : Prepares F (drainBody F c) := by
  unfold drainBody
  split_ifs
  · exact prepares_process c
  · exact prepares_nil c _ h
  · exact prepares_nil c _ h

theorem prepares_headerRead (h : c.state ≠ .response) : Prepares F (headerRead F c) := by
  unfold headerRead
  split_ifs
  · exact prepares_nil c _ h
  · exact prepares_drainBody nofun

theorem prepares_readHeader (h : c.state ≠ .response) : Prepares F (readHeader F c) := by
  have hcompact : c.compact.state = c.state := by
    unfold Conn.compact
    split_ifs
    · rfl
    · rfl
  unfold readHeader
  split_ifs
  · exact prepares_nil c _ h
  · exact prepares_nil _ _ (by rw [hcompact]; exact h)
  · exact prepares_headerRead h

theorem prepares_responseSent (c : Conn) : Prepares F (responseSent F c) := by
  unfold responseSent
  dsimp only
  split_ifs
  · exact prepares_readHeader nofun
  · exact prepares_nil _ _ nofun

theorem prepares_dispatch (h : c.state ≠ .response) : Prepares F (dispatch F c) := by
  unfold dispatch
  split
  · exact prepares_readHeader h
  · exact prepares_drainBody h
  · exact prepares_process c
  · exact absurd ‹_› h
  · exact prepares_nil c _ h
  · exact prepares_nil c _ h

/-! ### The invariant -/

/-- What was written and what was not are the responses; each byte was written at its own index, which is the
number of bytes written before. -/
structure Sends (F : Format) (s : State) (es : List Event) : Prop where
  written_eq : written es ++ unsent s.conn s.pc = responses F es
  header : s.conn.state = .response → ∃ hdr ∈ processed es, s.conn.header = F.respond hdr
  positions_eq : positions F 0 es = List.range (written es).length

/-- `send` fails for now only when the call has sent no byte of the response. -/
def Resumes (s : State) : Act → Prop
  | .call => True
  | .recv _ => True
  | .send (.sent _) => True
  | .send (.failed errno) => errno.retries = true → s.pc = .send 0

instance (s : State) : DecidablePred (Resumes s)
  | .call => isTrue trivial
  | .recv _ => isTrue trivial
  | .send (.sent _) => isTrue trivial
  | .send (.failed errno) => inferInstanceAs (Decidable (errno.retries = true → s.pc = .send 0))

theorem length_respond {hdr : List UInt8} (h : hdr.length = F.size) : (F.respond hdr).length = F.size := by
  have hfits := F.fits
  have hlen : (Pool.Reads.store hdr 0 [0x81]).length = F.size := by
    rw [Pool.Reads.Conn.length_store (by simp; omega), h]
  rw [Format.respond, Pool.Reads.Conn.length_store (by simp; omega), hlen]

/-- Each request that was processed has a whole header. -/
theorem Serves.length (hreq : ∀ r ∈ requests, F.Request r) (h : Serves F requests es) :
    ∀ hdr ∈ processed es, hdr.length = F.size := by
  intro hdr hhdr
  obtain ⟨r, hr, rfl⟩ := List.mem_map.mp (h.subset hhdr)
  have hlen : r.length = F.size + F.bodyLen r := hreq r hr
  rw [List.length_take]
  omega

theorem length_responses (h : ∀ hdr ∈ processed es, hdr.length = F.size) :
    (responses F es).length = (processed es).length * F.size := by
  unfold responses
  generalize processed es = l at h ⊢
  induction l with
  | nil => simp
  | cons hdr l ih =>
      rw [List.map_cons, List.flatten_cons, List.length_append, length_respond (h hdr (.head _)),
        ih (fun x hx => h x (.tail _ hx)), List.length_cons, Nat.succ_mul, Nat.add_comm]

/-- The code runs on from a state without a response at hand. -/
theorem Sends.prepares (h : Sends F s es) (hst : s.conn.state ≠ .response) {l : Conn × Pc × List Event}
    (hl : Prepares F l) (he : OnlyReceived e) : Sends F (goes s e l).1 (es ++ (goes s e l).2) := by
  have hquiet : NoSent (e ++ l.2.2) := he.noSent.append hl.noSent
  refine ⟨?_, fun hr => ?_, ?_⟩
  · have heq := h.written_eq
    rw [unsent_of_ne hst, List.append_nil] at heq
    have hres : responses F e = [] := by rw [responses, he.processed]; rfl
    change written (es ++ (e ++ l.2.2)) ++ unsent l.1 l.2.1 = responses F (es ++ (e ++ l.2.2))
    rw [written_append, hquiet.written, List.append_nil, heq, hl.unsent_eq, responses_append, responses_append, hres,
      List.nil_append]
  · obtain ⟨hdr, hmem, hhdr⟩ := hl.header hr
    refine ⟨hdr, ?_, hhdr⟩
    change hdr ∈ processed (es ++ (e ++ l.2.2))
    rw [processed_append, processed_append]
    exact List.mem_append_right _ (List.mem_append_right _ hmem)
  · change positions F 0 (es ++ (e ++ l.2.2)) = List.range (written (es ++ (e ++ l.2.2))).length
    rw [positions_append, hquiet.positions, written_append, hquiet.written, List.append_nil, List.append_nil]
    exact h.positions_eq

/-- Only the position of the call changes, and the bytes that it will send do not. -/
theorem Sends.moves (h : Sends F s es) (hconn : s'.conn = s.conn)
    (hun : unsent s.conn s'.pc = unsent s.conn s.pc) : Sends F s' es :=
  ⟨by rw [hconn, hun]; exact h.written_eq, by rw [hconn]; exact h.header, h.positions_eq⟩

/-- Bytes of the response at hand are sent. -/
theorem Sends.sent (hsize : ∀ hdr ∈ processed es, hdr.length = F.size) (h : Sends F s es) {part n : ℕ}
    (hst : s.conn.state = .response) (hpc : s.pc = .send part) (hpart : part < F.size) :
    let r := goes s [.sent part ((s.conn.header.drop part).take n)]
      (if part + n < F.size then (s.conn, .send (part + n), []) else responseSent F s.conn)
    Sends F r.1 (es ++ r.2) := by
  obtain ⟨hdr, hmem, hhdr⟩ := h.header hst
  have hlen : s.conn.header.length = F.size := by rw [hhdr, length_respond (hsize hdr hmem)]
  have hun : unsent s.conn s.pc = s.conn.header.drop part := by rw [hpc, unsent_send hst]
  obtain ⟨e, he⟩ : ∃ e, e = [Event.sent part ((s.conn.header.drop part).take n)] := ⟨_, rfl⟩
  have hwe : written e = (s.conn.header.drop part).take n := by rw [he]; simp [written]
  have hpe : processed e = [] := by rw [he]; rfl
  have hre : responses F e = [] := by rw [responses, hpe]; rfl
  -- The index of the next byte is the number of bytes written.
  have hindex : (written es).length = ((processed es).length - 1) * F.size + part := by
    have heq := congrArg List.length h.written_eq
    rw [List.length_append, hun, List.length_drop, hlen, length_responses hsize] at heq
    obtain ⟨k, hk⟩ := Nat.exists_eq_succ_of_ne_zero (List.length_pos_of_mem hmem).ne'
    rw [hk, Nat.succ_mul] at heq
    rw [hk, Nat.succ_sub_one]
    omega
  have hpos : positions F 0 (es ++ e) = List.range (written (es ++ e)).length := by
    rw [positions_append, h.positions_eq, written_append, List.length_append, hwe, List.range_eq_range',
      List.range_eq_range', ← List.range'_append_1, Nat.zero_add, Nat.zero_add, hindex, he]
    simp [positions]
  -- What is left of the response is what the next call of `send` is given, or nothing.
  have hbytes : written (es ++ e) ++ s.conn.header.drop (part + n) = responses F (es ++ e) := by
    rw [written_append, hwe, List.append_assoc, ← List.drop_drop, List.take_append_drop, ← hun, h.written_eq,
      responses_append, hre, List.append_nil]
  dsimp only
  rw [← he]
  split_ifs with hlt
  · refine ⟨?_, fun _ => ⟨hdr, ?_, hhdr⟩, ?_⟩
    · change written (es ++ (e ++ [])) ++ unsent s.conn (.send (part + n)) = responses F (es ++ (e ++ []))
      rw [List.append_nil, unsent_send hst]
      exact hbytes
    · change hdr ∈ processed (es ++ (e ++ []))
      rw [List.append_nil, processed_append]
      exact List.mem_append_left _ hmem
    · change positions F 0 (es ++ (e ++ [])) = List.range (written (es ++ (e ++ []))).length
      rw [List.append_nil]
      exact hpos
  · rw [List.drop_eq_nil_of_le (by omega), List.append_nil] at hbytes
    have hst' : ({ s.conn with state := .header } : Conn).state ≠ .response := nofun
    have hsent : Sends F { s with conn := { s.conn with state := .header } } (es ++ e) :=
      ⟨by rw [unsent_of_ne hst', List.append_nil]; exact hbytes, fun h => absurd h hst', hpos⟩
    have hnext := hsent.prepares hst' (prepares_responseSent s.conn) onlyReceived_nil
    change Sends F _ (es ++ (e ++ _))
    rw [← List.append_assoc]
    exact hnext

theorem Sends.handleErr {errno : Errno} (h : Sends F s es)
    (hun : errno.retries = true → unsent s.conn .idle = unsent s.conn s.pc) :
    Sends F (handleErr s errno) (es ++ []) ∨ (handleErr s errno).Dead ∧ OnlyReceived [] := by
  rw [List.append_nil]
  rcases handleErr_cases s errno with ⟨hr, heq⟩ | ⟨-, hdead⟩
  · rw [heq]
    exact .inl (h.moves rfl (hun hr))
  · exact .inr ⟨hdead, onlyReceived_nil⟩

theorem Agrees.not_response (h : Agrees F requests s es) (hpc : s.pc = .recvHeader ∨ s.pc = .recvBody) :
    s.conn.state ≠ .response := by
  obtain ⟨-, done, todo, cur, hat⟩ := h
  rcases hpc with hpc | hpc
  · rw [hpc] at hat
    cases hat.here with
    | recvHeader hhead => rw [hhead.state]; decide
  · rw [hpc] at hat
    cases hat.here with
    | recvBody hbody => rw [hbody.state]; decide

theorem Agrees.response {part : ℕ} (h : Agrees F requests s es) (hpc : s.pc = .send part) :
    s.conn.state = .response ∧ part < F.size := by
  obtain ⟨-, done, todo, cur, hat⟩ := h
  rw [hpc] at hat
  cases hat.here with
  | send hresp hpart => exact ⟨hresp.state, hpart⟩

/-- A step keeps the invariant, or it is the end of the connection and nothing was written. -/
theorem Sends.step {a : Act} (hreq : ∀ r ∈ requests, F.Request r) (hag : Agrees F requests s es)
    (h : Sends F s es) (hg : Resumes s a) (hs : Step F s a s' e) :
    Sends F s' (es ++ e) ∨ s'.Dead ∧ OnlyReceived e := by
  cases hs with
  | call hpc =>
      by_cases hst : s.conn.state = .response
      · have hd : dispatch F s.conn = (s.conn, .send 0, []) := by rw [dispatch, hst]
        rw [hd]
        change Sends F _ (es ++ []) ∨ _
        rw [List.append_nil]
        refine .inl (h.moves rfl ?_)
        rw [hpc]
        exact (unsent_send hst 0).trans (if_pos hst).symm
      · exact .inl (h.prepares hst (prepares_dispatch hst) onlyReceived_nil)
  | @recvHeader bs _ hpc _ _ hl =>
      have hst := hag.not_response (.inl hpc)
      subst hl
      refine .inl (h.prepares hst ?_ (onlyReceived_singleton bs))
      split_ifs
      · exact prepares_nil _ _ hst
      · exact prepares_headerRead hst
  | @recvBody bs _ _ hpc _ _ hcb hl =>
      have hst := hag.not_response (.inr hpc)
      subst hcb hl
      refine .inl (h.prepares hst ?_ (onlyReceived_singleton bs))
      split_ifs
      · exact prepares_nil _ _ hst
      · exact prepares_process _
  | recvEof => exact .inr ⟨.inr ⟨rfl, rfl⟩, onlyReceived_nil⟩
  | recvFailed hpc =>
      have hst := hag.not_response hpc
      exact h.handleErr (fun _ => by rw [unsent_of_ne hst, unsent_of_ne hst])
  | sent hpc _ _ he hl =>
      obtain ⟨hst, hpart⟩ := hag.response hpc
      subst he hl
      exact .inl (h.sent (hag.serves.length hreq) hst hpc hpart)
  | sentNone => exact .inr ⟨.inr ⟨rfl, rfl⟩, onlyReceived_nil⟩
  | sendFailed hpc =>
      have hst := (hag.response hpc).1
      refine h.handleErr (fun hr => ?_)
      rw [hg hr]
      exact (if_pos hst).trans (unsent_send hst 0).symm

/-! ### Runs -/

/-- What was written is the beginning of the responses, each byte once. -/
structure InOrder (F : Format) (es : List Event) : Prop where
  written_prefix : written es <+: responses F es
  positions_eq : positions F 0 es = List.range (written es).length

theorem Sends.inOrder (h : Sends F s es) : InOrder F es := ⟨⟨_, h.written_eq⟩, h.positions_eq⟩

theorem InOrder.received (h : InOrder F es) (he : OnlyReceived e) : InOrder F (es ++ e) := by
  refine ⟨?_, ?_⟩
  · rw [written_append, he.noSent.written, List.append_nil, responses_append]
    exact h.written_prefix.trans (List.prefix_append _ _)
  · rw [positions_append, he.noSent.positions, written_append, he.noSent.written, List.append_nil, List.append_nil]
    exact h.positions_eq

theorem inOrder_of_reach (hreq : ∀ r ∈ requests, F.Request r) (h : (driveMachine F).Reach Resumes s es)
    (hp : receivedBytes es <+: requests.flatten) : InOrder F es := by
  have hinit : Sends F (State.init F) [] := ⟨rfl, nofun, rfl⟩
  have hinv : Sends F s es ∨ s.Dead ∧ InOrder F es := by
    refine h.invariant (P := fun s es => receivedBytes es <+: requests.flatten → Sends F s es ∨
      s.Dead ∧ InOrder F es) (fun _ => .inl hinit) (fun s es a s' e hr ih hg hs hp => ?_) hp
    have hnone : s.Dead → False := by
      intro hdead
      have hnone : (driveMachine F).step s a = none := hdead.step a
      rw [hnone] at hs
      cases hs
    rcases ih (prefix_before hp) with hsends | ⟨hdead, -⟩
    · rcases serves_of_reach hreq hr (prefix_before hp) with hag | ⟨hdead, -⟩
      · exact (hsends.step hreq hag hg (step_cases hs)).imp_right
          (fun ⟨hdead, he⟩ => ⟨hdead, hsends.inOrder.received he⟩)
      · exact absurd hdead hnone
    · exact absurd hdead hnone
  rcases hinv with hsends | ⟨-, hin⟩
  · exact hsends.inOrder
  · exact hin

end

/-- **Responses are written in order, and once.**  Let the bytes received on a connection of the memcache-id
server be those of a sequence of requests, and let `send` fail for now only when the call has sent no byte of the
response.  Then what has been written is at all times the beginning of the 28-byte responses, one for each request
and in the order of the requests, and no part of a response was written twice. -/
theorem written_in_order {requests : List (List UInt8)} (hreq : ∀ r ∈ requests, bidHeader.Request r) {s : State}
    {es : List Event} (h : memcachedIdDriveMachine.Reach Resumes s es)
    (hp : receivedBytes es <+: requests.flatten) :
    written es <+: (requests.map (fun r => bidHeader.respond (r.take 28))).flatten ∧
      (positions bidHeader 0 es).Nodup := by
  have hin := inOrder_of_reach hreq h hp
  have hserves : Serves bidHeader requests es := by
    rcases serves_of_reach hreq h hp with hag | ⟨-, hs⟩
    · exact hag.serves
    · exact hs
  refine ⟨hin.written_prefix.trans ?_, ?_⟩
  · obtain ⟨rest, hrest⟩ := hserves
    have hmap : requests.map (fun r => bidHeader.respond (r.take 28)) =
        (requests.map (List.take bidHeader.size)).map bidHeader.respond := by
      rw [List.map_map]
      rfl
    rw [hmap, ← hrest, List.map_append, List.flatten_append]
    exact List.prefix_append _ _
  · rw [hin.positions_eq]
    exact List.nodup_range

/-! ### Two runs -/

open Strp.Memcache (twoRequests)

theorem twoRequests_accepts : ∀ r ∈ twoRequests, bidHeader.Accepts r := by
  intro r hr
  simp only [twoRequests, List.mem_cons, List.not_mem_nil, or_false] at hr
  rcases hr with rfl | rfl <;> exact ⟨Nat.eq_of_beq_eq_true rfl, by decide, by decide, by decide⟩

/-- The first request is received, in the two pieces that the state machine asks for. -/
def firstReceived : List Act := [.call, .recv (.data (twoRequests.flatten.take 28)), .recv (.data [65])]

/-- `send` fails before the first byte, and the response is sent in two parts; the second request is received, and
20 bytes of the response are sent. -/
def twoResponses : List Act :=
  firstReceived ++ [.send (.failed .eagain), .call, .send (.sent 10), .send (.sent 18), .call,
    .recv (.data ((twoRequests.flatten.drop 29).take 28)), .recv (.data [66, 67]), .send (.sent 20)]

theorem written_in_order_twoRequests : ∃ s es, memcachedIdDriveMachine.Reach Resumes s es ∧
    (written es).length = 48 ∧
    written es <+: (twoRequests.map (fun r => bidHeader.respond (r.take 28))).flatten ∧
    (positions bidHeader 0 es).Nodup := by
  obtain ⟨s, es, hr, hy⟩ := Machine.Reach.of_exec (M := memcachedIdDriveMachine) (G := Resumes)
    (g := fun s a => decide (Resumes s a)) twoResponses (fun _ _ _ => of_decide_eq_true)
    (fun r => (receivedBytes r.2, (written r.2).length)) (twoRequests.flatten, 48) (by decide +kernel)
  obtain ⟨hrx, hlen⟩ := Prod.mk.inj hy
  have hp : receivedBytes es <+: twoRequests.flatten := by
    rw [show receivedBytes es = twoRequests.flatten from hrx]
  exact ⟨s, es, hr, hlen, written_in_order (fun r hr => (twoRequests_accepts r hr).request) hr hp⟩

/-- `recv` and `send` return a positive count, or `EAGAIN`. -/
def CountOrAgain (_ : State) : Act → Prop
  | .call => True
  | .recv (.data _) => True
  | .recv .eof => False
  | .recv (.failed errno) => errno = .eagain
  | .send (.sent n) => 0 < n
  | .send (.failed errno) => errno = .eagain

instance (s : State) : DecidablePred (CountOrAgain s)
  | .call => isTrue trivial
  | .recv (.data _) => isTrue trivial
  | .recv .eof => isFalse id
  | .recv (.failed errno) => inferInstanceAs (Decidable (errno = .eagain))
  | .send (.sent n) => inferInstanceAs (Decidable (0 < n))
  | .send (.failed errno) => inferInstanceAs (Decidable (errno = .eagain))

/-- Ten bytes are sent, `send` returns `EAGAIN`, and the next call sends the response. -/
def resumedSend : List Act :=
  firstReceived ++ [.send (.sent 10), .send (.failed .eagain), .call, .send (.sent 28)]

/-- **A response is written again from its first byte** when `send` returns `EAGAIN` behind a partial write. -/
theorem resumed_send_repeats :
    (∃ s es, memcachedIdDriveMachine.Reach CountOrAgain s es ∧ receivedBytes es = twoRequests[0] ∧
      written es = (bidHeader.respond (twoRequests[0].take 28)).take 10 ++
        bidHeader.respond (twoRequests[0].take 28) ∧
      positions bidHeader 0 es = List.range 10 ++ List.range 28) ∧
    ¬ ∀ (requests : List (List UInt8)) s es, (∀ r ∈ requests, bidHeader.Accepts r) →
      memcachedIdDriveMachine.Reach CountOrAgain s es → receivedBytes es <+: requests.flatten →
      written es <+: (requests.map (fun r => bidHeader.respond (r.take 28))).flatten ∧
        (positions bidHeader 0 es).Nodup := by
  obtain ⟨s, es, hr, hy⟩ := Machine.Reach.of_exec (M := memcachedIdDriveMachine) (G := CountOrAgain)
    (g := fun s a => decide (CountOrAgain s a)) resumedSend (fun _ _ _ => of_decide_eq_true)
    (fun r => (receivedBytes r.2, written r.2, positions bidHeader 0 r.2))
    (twoRequests[0], (bidHeader.respond (twoRequests[0].take 28)).take 10 ++
      bidHeader.respond (twoRequests[0].take 28), List.range 10 ++ List.range 28) (by decide +kernel)
  simp only [Prod.mk.injEq] at hy
  obtain ⟨hrx, hw, hpos⟩ := hy
  refine ⟨⟨s, es, hr, hrx, hw, hpos⟩, fun hall => ?_⟩
  have hp : receivedBytes es <+: twoRequests.flatten := by
    rw [hrx]
    exact ⟨twoRequests[1], by decide⟩
  have hnodup := (hall twoRequests s es twoRequests_accepts hr hp).2
  rw [hpos] at hnodup
  exact absurd hnodup (by decide)

end Rakaia.Epoll
