import Rakaia.Pool.Reads

/-! # The end of the stream in the thread-pool server

A client that has sent its last request may close its side of the connection.  `read_more_into_buffer` calls
`recv` until the buffer is full or `recv` fails; when it has read some bytes and then finds the end of the
stream it returns `-1`, and `process_conn_reads` closes the connection without a look at those bytes.  Whether
a request that arrived before the end is served depends on whether `recv` returned `EAGAIN` between the two
(`eof_drops_requests`).

Exactly the complete requests that lie in the buffer at that moment are lost; none are when the end is the
first thing that the call sees (`served_before_eof_iff`). -/

namespace Rakaia.Pool.Reads

open Lib
open Strp.Memcache (headerLen requestLen)

/-- A complete request that the server accepts. -/
structure Request (r : List UInt8) : Prop where
  header : headerLen ≤ r.length
  good : (BidHeader.ofBytes r).bad = false
  fits : (BidHeader.ofBytes r).short = false
  length : r.length = (BidHeader.ofBytes r).len

/-- The buffer begins with a complete request. -/
def Conn.HoldsRequest (c : Conn) : Prop := ∃ r rest, c.content = r ++ rest ∧ Request r

variable {s s' : State} {es e : List Event} {requests : List (List UInt8)} {l r rest : List UInt8} {n : ℕ}

/-! ### Requests are what the look takes -/

theorem Request.look (h : Request r) (rest : List UInt8) : look requestLen (r ++ rest) = .take r.length := by
  have hle : headerLen ≤ (r ++ rest).length := by
    rw [List.length_append]
    exact h.header.trans (Nat.le_add_right _ _)
  have hof := ofBytes_append h.header rest
  rw [look_good hle (by rw [hof]; exact h.good) (by rw [hof]; exact h.fits), hof, ← h.length,
    List.length_append, if_neg (by omega)]

theorem request_of_look (h : look requestLen l = .take n) : Request (l.take n) := by
  obtain ⟨hn, hle⟩ := look_take h
  have hof : BidHeader.ofBytes (l.take n) = .ofBytes l := by
    rw [← ofBytes_take, List.take_take, min_eq_left hn, ofBytes_take]
  have hlen : (l.take n).length = n := List.length_take_of_le hle
  obtain ⟨-, hw⟩ | ⟨hhdr, hb | ⟨hb, hs⟩ | ⟨hb, hs⟩⟩ := look_cases l
  · rw [hw] at h; cases h
  · rw [look_bad hhdr hb] at h; cases h
  · rw [look_short hhdr hb hs] at h
    split_ifs at h
  · rw [look_good hhdr hb hs] at h
    split_ifs at h
    have hlen' : (BidHeader.ofBytes l).len = n := Look.take.inj h
    exact ⟨by rw [hlen]; exact hn, by rw [hof]; exact hb, by rw [hof]; exact hs, by rw [hof, hlen, hlen']⟩

theorem holdsRequest_iff {c : Conn} : c.HoldsRequest ↔ ∃ n, look requestLen c.content = .take n := by
  constructor
  · rintro ⟨r, rest, hc, hr⟩
    exact ⟨r.length, by rw [hc]; exact hr.look rest⟩
  · rintro ⟨n, hn⟩
    exact ⟨c.content.take n, c.content.drop n, (List.take_append_drop n _).symm, request_of_look hn⟩

/-- The requests of a stream are cut off one after the other. -/
theorem scans_requests (h : ∀ r ∈ requests, Request r) (rest : List UInt8) :
    Scans (look requestLen) (requests.flatten ++ rest) requests rest := by
  induction requests with
  | nil => exact .nil rest
  | cons r requests ih =>
      have hr := h r List.mem_cons_self
      have hcut : Scans (look requestLen) ((r ++ (requests.flatten ++ rest)).drop r.length) requests rest := by
        rw [List.drop_left]
        exact ih (fun x hx => h x (List.mem_cons_of_mem _ hx))
      have hcons := Scans.cons (hr.look (requests.flatten ++ rest)) hcut
      rwa [List.take_left, ← List.append_assoc, ← List.flatten_cons] at hcons

/-- Behind the requests that were cut off lie those that were not. -/
theorem scans_split {reqs : List (List UInt8)} {tail : List UInt8} (h : ∀ r ∈ requests, Request r)
    (hrest : look requestLen rest = .wait) (hscan : Scans (look requestLen) (requests.flatten ++ rest) reqs tail) :
    ∃ more, requests = reqs ++ more ∧ (more = [] ↔ ¬ ∃ n, look requestLen tail = .take n) := by
  obtain ⟨fuel, -, hall⟩ := (scans_requests h rest).scan_eq steady_look (Nat.lt_succ_self _)
  obtain ⟨fuel', hfuel', hcut⟩ := hscan.scan_eq steady_look (Nat.lt_succ_self _)
  rw [scan_of_wait hrest, List.append_nil] at hall
  rw [hall] at hcut
  refine ⟨_, (Prod.mk.inj hcut).1, ?_⟩
  obtain ⟨f, rfl⟩ : ∃ f, fuel' = f + 1 := ⟨fuel' - 1, by omega⟩
  cases hl : look requestLen tail with
  | wait | stop => simp [scan, hl]
  | take n => simp [scan, hl]

/-! ### What the end of the stream finds -/

/-- Where `recv` is called, the buffer starts at the beginning of a request, or it is empty and the current
request is not complete. -/
theorem recv_position {c : Conn} {pc : Pc} {reqs : List (List UInt8)} {cur : List UInt8}
    (ha : At es c pc reqs cur) (hpc : (∃ q any, pc = .readMore q any) ∨ ∃ q, pc = .scratch q ∧ 0 < c.pendingBytes) :
    (∃ n, look requestLen (cur ++ c.content) = .take n) ↔ c.HoldsRequest := by
  rw [holdsRequest_iff]
  obtain ⟨q, any, rfl⟩ | ⟨q, rfl, hp⟩ := hpc
  · have hcur : cur = [] := by
      have := ha.progress
      rwa [Progress, ha.here.1] at this
    rw [hcur, List.nil_append]
  · obtain ⟨hst, hempty⟩ := ha.here
    have hwait : look requestLen ([] : List UInt8) = .wait := rfl
    rw [hempty, List.append_nil, ha.progress.look_wait hst hp, hwait]

/-- The step that finds the end of the stream closes the connection. -/
theorem eof_closes (hs : step s (.recv .eof) = some (s', e)) :
    s' = (closes s).1 ∧ e = (closes s).2 ∧
      ((∃ q any, s.pc = .readMore q any) ∨ ∃ q, s.pc = .scratch q ∧ 0 < s.conn.pendingBytes) := by
  rcases recvStep_cases (r := .eof) hs with ⟨q, any, hpc, -, hs⟩ | ⟨q, hpc, hp, hs⟩
  · obtain ⟨h₁, h₂⟩ := Prod.mk.inj (Option.some.inj hs)
    exact ⟨h₁.symm, h₂.symm, .inl ⟨q, any, hpc⟩⟩
  · obtain ⟨h₁, h₂⟩ := Prod.mk.inj (Option.some.inj hs)
    exact ⟨h₁.symm, h₂.symm, .inr ⟨q, hpc, hp⟩⟩

/-- No request is in the buffer when a call of `read_more_into_buffer` has not read anything yet. -/
theorem not_holdsRequest {c : Conn} {pc : Pc} {reqs : List (List UInt8)} {cur : List UInt8}
    (ha : At es c pc reqs cur) (hpc : (∃ q, pc = .readMore q false) ∨ ∃ q, pc = .scratch q) :
    ¬ c.HoldsRequest := by
  rintro ⟨r, rest, hc, hr⟩
  have hle : headerLen ≤ c.content.length := by
    rw [hc, List.length_append]
    exact hr.header.trans (Nat.le_add_right _ _)
  obtain ⟨q, rfl⟩ | ⟨q, rfl⟩ := hpc
  · exact absurd (ha.here.2.2 rfl) (not_lt.mpr hle)
  · rw [ha.here.2] at hle
    exact absurd hle (by decide)

/-- **Which requests are served before the end of the stream.**  A stream of valid requests, followed perhaps by
the beginning of another one, is received in any pieces, and then `recv` finds the end of the stream.  The
connection is closed; the jobs enqueued are the first of the requests, in order; and they are all of them if
and only if no complete request lies in the buffer at that moment.  In particular, they are all of them if the
end is the first thing that a call of `read_more_into_buffer` sees, or if it comes within a request behind its
header. -/
theorem served_before_eof_iff (h : machine.Reach Healthy s es) (hvalid : ∀ r ∈ requests, Request r)
    (hrest : look requestLen rest = .wait) (hstream : receivedBytes es = requests.flatten ++ rest)
    (hs : step s (.recv .eof) = some (s', e)) :
    s'.closed = true ∧ jobs (es ++ e) <+: ids requests ∧
    (jobs (es ++ e) = ids requests ↔ ¬ s.conn.HoldsRequest) ∧
    ((∀ q, s.pc ≠ .readMore q true) → jobs (es ++ e) = ids requests) := by
  have hinv := inv_of_reach h
  obtain ⟨rfl, rfl, hpc⟩ := eof_closes hs
  have hopen : s.closed = false := by
    by_contra hc
    have hidle := (hinv.ended (eq_true_of_ne_false hc)).2
    obtain ⟨q, any, hq⟩ | ⟨q, hq, -⟩ := hpc <;> rw [hidle] at hq <;> cases hq
  obtain ⟨reqs, cur, ha⟩ := hinv.running hopen
  have hscan := ha.scans
  rw [hstream] at hscan
  obtain ⟨more, rfl, hmore⟩ := scans_split hvalid hrest hscan
  have hjobs : jobs (es ++ (closes s).2) = ids reqs := by
    rw [(quiet_append es rfl rfl).2, ha.jobs]
  have hids : ids (reqs ++ more) = ids reqs ++ ids more := List.map_append
  have hiff : jobs (es ++ (closes s).2) = ids (reqs ++ more) ↔ ¬ s.conn.HoldsRequest := by
    rw [hjobs, hids, ← recv_position ha hpc, ← hmore, List.self_eq_append_right, ids, List.map_eq_nil_iff]
  refine ⟨rfl, by rw [hjobs, hids]; exact List.prefix_append _ _, hiff, fun hfresh => hiff.mpr ?_⟩
  refine not_holdsRequest ha ?_
  obtain ⟨q, any, hq⟩ | ⟨q, hq, -⟩ := hpc
  · cases any with
    | false => exact .inl ⟨q, hq⟩
    | true => exact absurd hq (hfresh q)
  · exact .inr ⟨q, hq⟩

/-! ### Two runs on one stream -/

open Strp.Memcache (twoRequests)

theorem twoRequests_requests : ∀ r ∈ twoRequests, Request r := by
  intro r hr
  simp only [twoRequests, List.mem_cons, List.not_mem_nil, or_false] at hr
  rcases hr with rfl | rfl <;> exact ⟨by decide, by decide, by decide, by decide⟩

/-- Both requests arrive in one piece. -/
def arrival : List Act := [.call, .run, .run, .recv (.data twoRequests.flatten)]

/-- `recv` returns `EAGAIN` behind them, and the call goes on until it calls `recv` again. -/
def pause : List Act := .recv .again :: List.replicate 20 .run

/-- With `EAGAIN` before the end of the stream, both requests are served. -/
theorem served_before_eof_iff_paused : ∃ s es s' e, machine.Reach Healthy s es ∧
    receivedBytes es = twoRequests.flatten ++ [] ∧ step s (.recv .eof) = some (s', e) ∧
    jobs (es ++ e) = ids twoRequests := by
  obtain ⟨s, es, hr, hy⟩ := Machine.Reach.of_exec (M := machine) (G := Healthy)
    (g := fun s a => decide (Healthy s a)) (arrival ++ pause) (fun _ _ _ => of_decide_eq_true)
    (fun r => (receivedBytes r.2, r.1.pc, decide (r.1.conn.bufTail < bufSize)))
    (twoRequests.flatten, .readMore true false, true) (by decide +kernel)
  simp only [Prod.mk.injEq] at hy
  obtain ⟨hrx, hpc, htail⟩ := hy
  have hs : step s (.recv .eof) = some (closes s) := by
    simp only [step, recvStep, hpc, if_pos (of_decide_eq_true htail), recvMore]
  have hstream : receivedBytes es = twoRequests.flatten ++ [] := by rw [hrx, List.append_nil]
  obtain ⟨-, -, -, hall⟩ := served_before_eof_iff hr twoRequests_requests rfl hstream hs
  refine ⟨s, es, _, _, hr, hstream, hs, hall (fun q hq => ?_)⟩
  rw [hpc] at hq
  cases hq

/-- The socket does not fail. -/
def NoError (_ : State) (a : Act) : Prop := a ≠ .recv .error

/-- **A request is lost** when the end of the stream follows it without `EAGAIN`; with `EAGAIN` between them,
the same stream gives two jobs. -/
theorem eof_drops_requests :
    (¬ ∀ requests s es, (∀ r ∈ requests, Request r) → machine.Reach NoError s es →
      receivedBytes es = requests.flatten → s.closed = true → jobs es = ids requests) ∧
    ∃ s₁ es₁ s₂ es₂, machine.Reach NoError s₁ es₁ ∧ machine.Reach NoError s₂ es₂ ∧
      receivedBytes es₁ = twoRequests.flatten ∧ receivedBytes es₂ = twoRequests.flatten ∧
      s₁.closed = true ∧ s₂.closed = true ∧ jobs es₁ = [] ∧ jobs es₂ = ids twoRequests := by
  have hrun : ∀ acts y, (machine.exec (fun _ a => decide (a ≠ .recv .error)) machine.init acts).map
      (fun r => (receivedBytes r.2, r.1.closed, jobs r.2)) = some y →
      ∃ s es, machine.Reach NoError s es ∧ (receivedBytes es, s.closed, jobs es) = y := fun acts y h =>
    Machine.Reach.of_exec (M := machine) (G := NoError) (g := fun _ a => decide (a ≠ .recv .error)) acts
      (fun _ _ _ => of_decide_eq_true) (fun r => (receivedBytes r.2, r.1.closed, jobs r.2)) y h
  obtain ⟨s₁, es₁, hr₁, hy₁⟩ := hrun (arrival ++ [.recv .eof]) (twoRequests.flatten, true, []) (by decide +kernel)
  obtain ⟨s₂, es₂, hr₂, hy₂⟩ := hrun (arrival ++ pause ++ [.recv .eof])
    (twoRequests.flatten, true, ids twoRequests) (by decide +kernel)
  simp only [Prod.mk.injEq] at hy₁ hy₂
  refine ⟨fun hall => ?_, s₁, es₁, s₂, es₂, hr₁, hr₂, hy₁.1, hy₂.1, hy₁.2.1, hy₂.2.1, hy₁.2.2, hy₂.2.2⟩
  have hjobs := hall twoRequests s₁ es₁ twoRequests_requests hr₁ hy₁.1 hy₁.2.1
  rw [hy₁.2.2] at hjobs
  exact absurd hjobs (by decide)

end Rakaia.Pool.Reads
