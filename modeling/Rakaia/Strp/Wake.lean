import Rakaia.Basic
import Rakaia.Lib.Progress
import Rakaia.Strp.Memcache

/-! # When the stream parser reads its socket (plain-tcp and grpc)

TCP calls `psock_data_ready` when bytes have arrived.  `strp_data_ready` lets `tcp_read_sock` pass the unread bytes
to `__strp_recv`, unless the parser waits for the rest of a message (`need_bytes`) and `strp_peek_len` says that it
is not there yet; in the grpc variant it leaves the reading to the work item of the parser if a process owns the
socket.  The work item reads without looking at `need_bytes`.  It is queued when an allocation fails, and by
`rakaia_attach` in the plain-tcp variant, for the bytes that arrived before.

All of this happens under the lock of the socket: nothing arrives while the socket is read.  `strp_peek_len` is
`tcp_inq`, which counts from `copied_seq`; `tcp_read_sock` stores `copied_seq` when a buffer is consumed to its end,
so that the parser may see more bytes than are unread.

Once the parser was told to read since the attach, every complete message that has arrived is handed on, or the
parser will be called again (`arrived_messages_handed_on`).  In the grpc variant the attach itself does not tell it:
bytes that arrived before wait for the next `sk_data_ready`. -/

namespace Rakaia.Strp.Wake

open Lib

variable {τ : Type} [Inhabited τ]

/-- A call of `tcp_read_sock`, with the number of bytes consumed since `copied_seq` was stored. -/
structure Reading extends ReadSock where
  behind : ℕ

/-- The call of `strp_read_sock`. -/
def Reading.start : Reading := ⟨.start, 0⟩

/-- The parser of a psock with its TCP socket.  `queued` is about the work item of the parser, and `kicked` says
that the parser was told to read since the attach. -/
structure State (τ : Type) where
  attached : Bool
  kicked : Bool
  queued : Bool
  reading : Option Reading
  rx : Strp.State τ
  unread : List UInt8

def State.init : State τ := ⟨false, false, false, none, Strp.State.init, []⟩

/-- `strp_peek_len`. -/
def State.peekLen (s : State τ) : ℕ := s.unread.length + (s.reading.map Reading.behind).getD 0

inductive Act where
  /-- Bytes arrive and `sk_data_ready` is called, perhaps by a process that owns the socket. -/
  | arrive (bs : List UInt8) (owned : Bool)
  /-- `rakaia_attach` sets the hook. -/
  | attach
  /-- The work item starts. -/
  | start
  /-- `tcp_read_sock` passes a buffer to the actor. -/
  | read (skb : SkBuff) (offset : ℕ) (o : Oracle)
  /-- `tcp_read_sock` returns. -/
  | finish

def strpDataReady (v : Variant) (owned : Bool) (s : State τ) : State τ :=
  if s.rx.strp.stopped then s
  else if v = .grpc ∧ owned = true then { s with queued := true }
  else if s.rx.strp.needBytes ≠ 0 ∧ s.peekLen < s.rx.strp.needBytes then s
  else { s with reading := some .start }

/-- `sk_data_ready`, which is `psock_data_ready` after the attach. -/
def skDataReady (v : Variant) (owned : Bool) (s : State τ) : State τ :=
  if s.attached then { strpDataReady v owned s with kicked := true } else s

/-- The end of `rakaia_attach`; only the plain-tcp variant calls `strp_check_rcv`. -/
def rakaiaAttach (v : Variant) (s : State τ) : State τ :=
  match v with
  | .plainTcp => { s with attached := true, kicked := true, queued := true }
  | .grpc => { s with attached := true }

/-- `do_strp_work` up to `read_sock`. -/
def doStrpWork (s : State τ) : State τ :=
  if s.rx.strp.stopped then { s with queued := false }
  else { s with queued := false, reading := some .start }

/-- What the kernel says in a call of `__strp_recv`, with the given value of `strp_peek_len`. -/
def peeks (o : Oracle) (p : ℤ) : Oracle := { o with round := fun i => { o.round i with peekLen := p } }

/-- A buffer with `len` bytes is passed to the actor. -/
def readBuffer (s : State τ) (d : Reading) (len : ℕ) (rx : Strp.State τ) (e : List (Event τ)) : State τ :=
  let n := rx.copied - s.rx.copied
  { s with
    rx := rx
    unread := s.unread.drop n
    reading := some { e.foldl ReadSock.note d.toReadSock with
      used := decide (0 < n), behind := if n = len then 0 else d.behind + n } }

/-- The end of `strp_data_ready` and of `do_strp_work`. -/
def readDone (s : State τ) (d : Reading) : State τ :=
  { s with reading := none, queued := s.queued || decide (d.error = -12) }

/-- One step; `rcvbuf` is `sk_rcvbuf`. -/
def step (v : Variant) (P : Parser τ) (rcvbuf : ℕ) (s : State τ) : Act → Option (State τ × List (Event τ))
  | .arrive bs owned =>
      match s.reading with
      | none => some (skDataReady v owned { s with unread := s.unread ++ bs }, [])
      | some _ => none
  | .attach => if s.attached then none else some (rakaiaAttach v s, [])
  | .start => if s.queued && s.reading.isNone then some (doStrpWork s, []) else none
  | .read skb offset o =>
      match s.reading with
      | some d =>
          if d.goesOn then
            (Strp.step P rcvbuf s.rx ⟨skb, offset, peeks o s.peekLen⟩).map
              (fun x => (readBuffer s d (skb.len - offset) x.1 x.2, x.2))
          else none
      | none => none
  | .finish =>
      match s.reading with
      | some d => if d.goesOn && !s.unread.isEmpty then none else some (readDone s d, [])
      | none => none

def machine (v : Variant) (P : Parser τ) (rcvbuf : ℕ) : Machine (State τ) Act (Event τ) :=
  ⟨State.init, step v P rcvbuf⟩

/-- The bytes of the stream `msgs` arrive in order, and what is read is unread. -/
def Delivers (msgs : List (List UInt8)) (s : State τ) : Act → Prop
  | .arrive bs _ => bs <+: msgs.flatten.drop (s.rx.copied + s.unread.length)
  | .read skb offset _ => skb.Wf ∧ offset < skb.len ∧ skb.bytes.drop offset <+: s.unread
  | _ => True

/-- Nobody reads the socket, and nobody is going to, before more bytes arrive. -/
def State.AtRest (s : State τ) : Prop := s.kicked = true ∧ s.queued = false ∧ s.reading = none

instance (s : State τ) : Decidable s.AtRest :=
  inferInstanceAs (Decidable (_ ∧ _ ∧ s.reading = none))

/-! ### How a call of the actor ends -/

/-- The `_strp_msg` of the message in progress. -/
def stm? (strp : Strparser τ) : Option (Stm τ) := strp.skbHead.map Head.stm

/-- How the loop of `__strp_recv` ends that starts at byte `eaten` of `origLen` bytes, when `strp_peek_len` is `p`:
an allocation fails; the parser is aborted; the rest of the message is not in the socket; or all bytes are
consumed. -/
inductive Ends (p : ℤ) (strp : Strparser τ) (eaten origLen : ℕ) (strp' : Strparser τ) (eaten' : ℕ)
    (e : List (Event τ)) : Prop
  | failed (l : List (Event τ)) : e = l ++ [.error (-12)] → .stopReading ∉ l →
      strp'.needBytes = 0 ∨ (strp'.needBytes = strp.needBytes ∧ stm? strp' = stm? strp ∧ eaten' = eaten) →
      Ends p strp eaten origLen strp' eaten' e
  | aborted : strp'.stopped = true → Ends p strp eaten origLen strp' eaten' e
  | waits (stm : Stm τ) : stm? strp' = some stm → stm.accumLen < stm.fullLen →
      strp'.needBytes = stm.fullLen - stm.accumLen → p + stm.accumLen < stm.fullLen + origLen → .stopReading ∈ e →
      eaten' = origLen → Ends p strp eaten origLen strp' eaten' e
  | whole : eaten' = origLen → .stopReading ∉ e →
      (strp'.needBytes = 0 ∨ strp'.needBytes = strp.needBytes ∧ ∀ stm, stm? strp = some stm → stm.fullLen ≠ 0 →
        ∃ stm', stm? strp' = some stm' ∧ stm'.fullLen = stm.fullLen ∧
          stm'.accumLen = stm.accumLen + (origLen - eaten) ∧ (stm.fullLen : ℤ) ≤ stm.accumLen + p) →
      Ends p strp eaten origLen strp' eaten' e

variable {P : Parser τ} {maxMsgSize : ℕ}

theorem join_stm {strp strp' : Strparser τ} {skb : SkBuff} {start : ℕ} {o : Round} {head : Head τ}
    (h : join strp skb start o = .ok (head, strp')) :
    strp'.needBytes = strp.needBytes ∧ ∀ stm, stm? strp = some stm → head.stm = stm := by
  unfold join at h
  unfold stm?
  cases hh : strp.skbHead with
  | none =>
      rw [hh] at h
      obtain ⟨rfl, rfl⟩ := Prod.mk.inj (Except.ok.inj h)
      exact ⟨rfl, fun stm hstm => by cases hstm⟩
  | some head₀ =>
      simp only [hh] at h
      split_ifs at h
      cases hn : strp.skbNextp with
      | none => simp only [hn] at h; cases h
      | some slot =>
          simp only [hn] at h
          obtain ⟨rfl, rfl⟩ := Prod.mk.inj (Except.ok.inj h)
          exact ⟨rfl, fun stm hstm => Option.some.inj hstm⟩

theorem join_error {strp : Strparser τ} {skb : SkBuff} {start : ℕ} {o : Round} {ev : Event τ}
    (hin : strp.skbHead.isSome → strp.skbNextp.isSome) (h : join strp skb start o = .error ev) :
    ev = .error (-12) := by
  unfold join at h
  cases hh : strp.skbHead with
  | none => rw [hh] at h; cases h
  | some head₀ =>
      simp only [hh] at h
      split_ifs at h
      · exact (Except.error.inj h).symm
      · obtain ⟨slot, hslot⟩ := Option.isSome_iff_exists.mp (hin (by rw [hh]; rfl))
        simp only [hslot] at h
        cases h

/-- How a round ends. -/
theorem round_ends {orig : SkBuff} {origOffset origLen eaten : ℕ} {o : Round} {strp : Strparser τ} {x : Outcome τ}
    (hin : strp.skbHead.isSome → strp.skbNextp.isSome) (hlt : eaten < origLen)
    (h : round P maxMsgSize orig origOffset origLen o strp eaten = x) :
    match x with
    | .leave strp' eaten' e => Ends o.peekLen strp eaten origLen strp' eaten' e
    | .again strp' eaten' e => strp'.needBytes = 0 ∧ strp'.skbHead = none ∧ eaten' ≤ origLen ∧ .stopReading ∉ e := by
  have hwarn : ∀ b, (Event.stopReading : Event τ) ∉ warnOn b := by
    intro b
    cases b <;> simp [warnOn]
  have hall : eaten + (origLen - eaten) = origLen := by omega
  unfold round at h
  split_ifs at h with hclone
  · subst h
    exact .failed [] rfl (by simp) (.inr ⟨rfl, rfl, rfl⟩)
  cases hj : join strp orig (origOffset + eaten) o with
  | error ev =>
      simp only [hj] at h
      subst h
      exact .failed [] (by rw [join_error hin hj]; rfl) (by simp) (.inr ⟨rfl, rfl, rfl⟩)
  | ok r =>
      obtain ⟨head, strp₁⟩ := r
      obtain ⟨hneed, hstm⟩ := join_stm hj
      simp only [hj] at h
      cases hm : measure P maxMsgSize head orig with
      | bad err i u =>
          simp only [hm] at h
          subst h
          exact .aborted rfl
      | needHeader stm =>
          simp only [hm] at h
          subst h
          refine .whole hall (hwarn _) (.inr ⟨hneed, fun stm₀ hstm₀ hfull => ?_⟩)
          -- the length was known
          rw [measure, if_pos (by rw [hstm _ hstm₀]; exact hfull)] at hm
          cases hm
      | known stm =>
          simp only [hm] at h
          split_ifs at h with hextra hpeek <;> subst h
          · refine .waits { stm with accumLen := stm.accumLen + (origLen - eaten) } rfl ?_ rfl ?_ (by simp) hall
            · dsimp only
              omega
            · dsimp only
              omega
          · refine .whole hall (hwarn _) (.inr ⟨hneed, fun stm₀ hstm₀ hfull => ?_⟩)
            rw [measure, if_pos (by rw [hstm _ hstm₀]; exact hfull)] at hm
            obtain rfl := (Measured.known.inj hm).symm.trans (hstm _ hstm₀)
            exact ⟨_, rfl, rfl, rfl, by omega⟩
          · refine ⟨rfl, rfl, by omega, ?_⟩
            simp [hwarn]

/-- How the loop ends. -/
theorem loop_ends {orig : SkBuff} {origOffset origLen : ℕ} {o : ℕ → Round} {p : ℤ} (ho : ∀ i, (o i).peekLen = p)
    {fuel : ℕ} {strp : Strparser τ} {eaten : ℕ} {r : Strparser τ × ℕ × List (Event τ)}
    (hin : strp.skbHead.isSome → strp.skbNextp.isSome) (hle : eaten ≤ origLen)
    (hfirst : eaten < origLen ∨ strp.needBytes = 0)
    (h : loop P maxMsgSize orig origOffset origLen o fuel strp eaten = some r) :
    Ends p strp eaten origLen r.1 r.2.1 r.2.2 := by
  have hexit : origLen ≤ eaten → Ends p strp eaten origLen strp eaten ([] : List (Event τ)) := by
    intro hge
    have hzero : strp.needBytes = 0 := hfirst.resolve_left (by omega)
    exact .whole (by omega) (by simp) (.inl hzero)
  induction fuel generalizing strp eaten r with
  | zero =>
      rw [loop] at h
      split_ifs at h with hge
      obtain rfl := Option.some.inj h
      exact hexit hge
  | succ fuel ih =>
      rw [loop] at h
      split_ifs at h with hge
      · obtain rfl := Option.some.inj h
        exact hexit hge
      split at h
      · next strp₁ eaten₁ e₁ heq =>
        obtain rfl := Option.some.inj h
        have hround := round_ends hin (not_le.mp hge) heq
        rw [ho] at hround
        exact hround
      · next strp₁ eaten₁ e₁ heq =>
        obtain ⟨hzero, hnone, hle₁, hnostop⟩ := round_ends hin (not_le.mp hge) heq
        obtain ⟨r', hr', rfl⟩ := Option.map_eq_some_iff.mp h
        have hrest := ih (by simp [hnone]) hle₁ (.inr hzero) hr' (fun hge => .whole (by omega) (by simp) (.inl hzero))
        -- after a message, no bytes are needed until the parser waits again
        cases hrest with
        | failed l he hl hneed =>
            refine .failed (e₁ ++ l) (by rw [he, List.append_assoc]) (by simp [hnostop, hl]) (.inl ?_)
            exact hneed.elim id (fun hsame => hsame.1.trans hzero)
        | aborted hst => exact .aborted hst
        | waits stm h₁ h₂ h₃ h₄ h₅ h₆ => exact .waits stm h₁ h₂ h₃ h₄ (List.mem_append_right _ h₅) h₆
        | whole hend hno hneed =>
            refine .whole hend (by simp [hnostop, hno]) (.inl ?_)
            exact hneed.elim id (fun hsame => hsame.1.trans hzero)

omit [Inhabited τ] in
theorem prepare_ends {strp strp' : Strparser τ} {orig : SkBuff} {offset : ℕ} {o : Oracle} {r : Option (SkBuff × ℕ)}
    {e : List (Event τ)} (h : prepare strp orig offset o = (strp', r, e)) :
    strp'.needBytes = strp.needBytes ∧ stm? strp' = stm? strp ∧ (r = none → e = [.error (-12)]) ∧
      (r ≠ none → e = [] ∧ (strp'.skbHead.isSome → strp'.skbNextp.isSome)) := by
  unfold prepare at h
  cases hh : strp.skbHead with
  | none =>
      simp only [hh, Prod.mk.injEq] at h
      obtain ⟨rfl, rfl, rfl⟩ := h
      exact ⟨rfl, rfl, by simp, fun _ => ⟨rfl, by simp [hh]⟩⟩
  | some head =>
      simp only [hh] at h
      by_cases hsrc : offset ≠ 0 ∧ (o.cloneOrig && o.pull) = false
      · rw [if_pos hsrc] at h
        rw [Prod.mk.injEq, Prod.mk.injEq] at h
        obtain ⟨rfl, rfl, rfl⟩ := h
        exact ⟨rfl, rfl, fun _ => rfl, fun hne => absurd rfl hne⟩
      rw [if_neg hsrc] at h
      cases hn : strp.skbNextp with
      | some slot =>
          simp only [hn, Prod.mk.injEq] at h
          obtain ⟨rfl, rfl, rfl⟩ := h
          exact ⟨rfl, rfl, by simp, fun _ => ⟨rfl, by simp [hn]⟩⟩
      | none =>
          simp only [hn] at h
          by_cases hun : o.uncloneHead = false
          · rw [if_pos hun, Prod.mk.injEq, Prod.mk.injEq] at h
            obtain ⟨rfl, rfl, rfl⟩ := h
            exact ⟨rfl, rfl, fun _ => rfl, fun hne => absurd rfl hne⟩
          rw [if_neg hun] at h
          by_cases hfrag : head.skb.fragList.isEmpty = true
          · rw [if_pos hfrag, Prod.mk.injEq, Prod.mk.injEq] at h
            obtain ⟨rfl, rfl, rfl⟩ := h
            exact ⟨rfl, by simp [stm?, hh], by simp, fun _ => ⟨rfl, fun _ => rfl⟩⟩
          rw [if_neg hfrag] at h
          by_cases hal : o.allocHead = false
          · rw [if_pos hal, Prod.mk.injEq, Prod.mk.injEq] at h
            obtain ⟨rfl, rfl, rfl⟩ := h
            exact ⟨rfl, rfl, fun _ => rfl, fun hne => absurd rfl hne⟩
          rw [if_neg hal, Prod.mk.injEq, Prod.mk.injEq] at h
          obtain ⟨rfl, rfl, rfl⟩ := h
          exact ⟨rfl, by simp [stm?, hh], by simp, fun _ => ⟨rfl, fun _ => rfl⟩⟩

omit [Inhabited τ] in
theorem Ends.congr {p : ℤ} {strp strp₁ strp' : Strparser τ} {eaten origLen eaten' : ℕ} {e : List (Event τ)}
    (h : Ends p strp₁ eaten origLen strp' eaten' e) (hneed : strp₁.needBytes = strp.needBytes)
    (hstm : stm? strp₁ = stm? strp) : Ends p strp eaten origLen strp' eaten' e := by
  cases h with
  | failed l he hl h =>
      rw [hneed, hstm] at h
      exact .failed l he hl h
  | aborted h => exact .aborted h
  | waits stm h₁ h₂ h₃ h₄ h₅ h₆ => exact .waits stm h₁ h₂ h₃ h₄ h₅ h₆
  | whole h₁ h₂ h₃ =>
      rw [hneed, hstm] at h₃
      exact .whole h₁ h₂ h₃

/-- How a call of the actor ends. -/
theorem step_ends {s s' : Strp.State τ} {skb : SkBuff} {offset : ℕ} {o : Oracle} {p : ℤ} {e : List (Event τ)}
    (hlt : offset < skb.len) (h : Strp.step P maxMsgSize s ⟨skb, offset, peeks o p⟩ = some (s', e)) :
    ∃ n, s'.copied = s.copied + n ∧ Ends p s.strp 0 (skb.len - offset) s'.strp n e := by
  obtain ⟨r, hr, hx⟩ := Option.map_eq_some_iff.mp h
  obtain ⟨rfl, rfl⟩ := Prod.mk.inj hx
  refine ⟨r.2.1, rfl, ?_⟩
  dsimp only at hr ⊢
  unfold strpRecv at hr
  split at hr
  · next strp₁ e₁ hprep =>
    obtain ⟨hneed, hstm, hfail, -⟩ := prepare_ends hprep
    obtain rfl := Option.some.inj hr
    exact .failed [] (hfail rfl) (by simp) (.inr ⟨hneed, hstm, rfl⟩)
  · next strp₁ orig₁ offset₁ e₁ hprep =>
    obtain ⟨hneed, hstm, -, hready⟩ := prepare_ends hprep
    obtain ⟨rfl, hin⟩ := hready (by simp)
    obtain ⟨r', hr', rfl⟩ := Option.map_eq_some_iff.mp hr
    refine Ends.congr ?_ hneed hstm
    have hpos : 0 < skb.len - offset := by omega
    have hpeek : ∀ i, ((peeks o p).round i).peekLen = p := fun _ => rfl
    exact loop_ends hpeek hin (Nat.zero_le _) (.inl hpos) hr'

/-! ### What is waiting -/

variable {F : Framing UInt8} {ext : List UInt8 → τ} {msgs : List (List UInt8)}

/-- No message is completed by the bytes that are unread. -/
def State.Idle (msgs : List (List UInt8)) (s : State τ) : Prop :=
  wholeIn msgs (s.rx.copied + s.unread.length) = wholeIn msgs s.rx.copied

/-- With a message in progress whose length is known, this can be read off its counters. -/
theorem idle_iff (hF : Follows P maxMsgSize F ext) (hv : Valid F maxMsgSize msgs) {s : State τ} {es : List (Event τ)}
    (h : (Strp.machine P maxMsgSize).Reach (Presents msgs) s.rx es) {stm : Stm τ} (hstm : stm? s.rx.strp = some stm)
    (hfull : stm.fullLen ≠ 0) : s.Idle msgs ↔ stm.accumLen + s.unread.length < stm.fullLen := by
  obtain ⟨ms, k, hat, hadv, -⟩ := at_of_reach hF hv h
  obtain ⟨done, rfl, -, hn⟩ := hadv
  rw [Nat.zero_add] at hn
  obtain ⟨head, hhead, rfl⟩ := Option.map_eq_some_iff.mp hstm
  rw [At, hhead] at hat
  obtain ⟨m, rest, rfl, hb⟩ := hat
  have hmeasured := hb.measured
  split_ifs at hmeasured
  · exact absurd hmeasured hfull
  have hnil : wholeIn (m :: rest) k = [] := by
    rw [wholeIn_eq_nil_iff]
    intro m' hm'
    obtain rfl := Option.some.inj hm'
    exact hb.lt
  rw [State.Idle, ← hn, Nat.add_assoc, wholeIn_append, wholeIn_append, hnil, List.append_cancel_left_eq,
    wholeIn_eq_nil_iff, hb.accum, hmeasured.1]
  simp

/-! ### The invariant -/

/-- The parser is where a run of the parser is, what is unread continues the stream, and `need_bytes` is what the
message in progress lacks, or all of it is there.  A reading that does not go on leaves nothing, or was ended by a
failed allocation. -/
structure Inv (P : Parser τ) (rcvbuf : ℕ) (msgs : List (List UInt8)) (s : State τ) (es : List (Event τ)) : Prop where
  rx : (Strp.machine P rcvbuf).Reach (Presents msgs) s.rx es
  bytes : s.unread <+: msgs.flatten.drop s.rx.copied
  kicked : s.kicked = true → s.attached = true
  fresh : s.kicked = false → s.queued = false ∧ s.reading = none ∧ s.rx.strp.needBytes = 0
  need : s.rx.strp.needBytes ≠ 0 → ∃ stm, stm? s.rx.strp = some stm ∧ stm.fullLen ≠ 0 ∧
    (s.rx.strp.needBytes = stm.fullLen - stm.accumLen ∧ (∀ d ∈ s.reading, d.goesOn = true → d.behind = 0) ∨
      stm.fullLen ≤ stm.accumLen + s.unread.length)
  used : ∀ d ∈ s.reading, d.used = false → d.error = -12
  count : ∀ d ∈ s.reading, d.count = false → s.Idle msgs

variable {v : Variant} {rcvbuf : ℕ} {s s' : State τ} {es e : List (Event τ)} {a : Act}

theorem Inv.stopped (hF : Follows P rcvbuf F ext) (hv : Valid F rcvbuf msgs) (h : Inv P rcvbuf msgs s es) :
    s.rx.strp.stopped = false := by
  obtain ⟨-, -, -, -, hst⟩ := at_of_reach hF hv h.rx
  exact hst

/-- Only a parser that was told to read has work queued. -/
theorem Inv.kicked_of_queued (h : Inv P rcvbuf msgs s es) (hq : s.queued = true) : s.kicked = true := by
  by_contra hk
  have hqf := (h.fresh (Bool.eq_false_of_not_eq_true hk)).1
  rw [hq] at hqf
  cases hqf

/-- The socket is going to be read. -/
theorem Inv.start (h : Inv P rcvbuf msgs s es) (hrx : s'.rx = s.rx) (hunread : s'.unread = s.unread)
    (hstart : s'.reading = some .start) (hkick : s'.kicked = true) (hatt : s'.attached = true) :
    Inv P rcvbuf msgs s' es := by
  have hreading : ∀ d ∈ s'.reading, d = .start := by
    intro d hd
    rw [hstart] at hd
    exact (Option.some.inj hd).symm
  refine ⟨?_, ?_, fun _ => hatt, fun hk => ?_, fun hne => ?_, fun d hd hu => ?_, fun d hd hc => ?_⟩
  · rw [hrx]
    exact h.rx
  · rw [hrx, hunread]
    exact h.bytes
  · exact absurd (hk.symm.trans hkick) Bool.false_ne_true
  · rw [hrx] at hne ⊢
    rw [hunread]
    obtain ⟨stm, hstm, hfull, hneed⟩ := h.need hne
    refine ⟨stm, hstm, hfull, hneed.imp (fun hex => ⟨hex.1, fun d hd _ => ?_⟩) id⟩
    rw [hreading d hd]
    rfl
  · rw [hreading d hd] at hu
    cases hu
  · rw [hreading d hd] at hc
    cases hc

/-- Nobody reads the socket. -/
theorem Inv.quiet (h : Inv P rcvbuf msgs s es) (hrx : s'.rx = s.rx) (hunread : s'.unread = s.unread)
    (hnone : s'.reading = none) (hatt : s'.kicked = true → s'.attached = true)
    (hfresh : s'.kicked = false → s.kicked = false ∧ s'.queued = false) : Inv P rcvbuf msgs s' es := by
  have hreading : ∀ d, d ∉ s'.reading := by
    intro d hd
    rw [hnone] at hd
    cases hd
  refine ⟨?_, ?_, hatt, fun hk => ?_, fun hne => ?_, fun d hd => absurd hd (hreading d),
    fun d hd => absurd hd (hreading d)⟩
  · rw [hrx]
    exact h.rx
  · rw [hrx, hunread]
    exact h.bytes
  · obtain ⟨hk', hq⟩ := hfresh hk
    rw [hrx]
    exact ⟨hq, hnone, (h.fresh hk').2.2⟩
  · rw [hrx] at hne ⊢
    rw [hunread]
    obtain ⟨stm, hstm, hfull, hneed⟩ := h.need hne
    exact ⟨stm, hstm, hfull, hneed.imp (fun hex => ⟨hex.1, fun d hd => absurd hd (hreading d)⟩) id⟩

/-- Bytes arrive while nobody reads. -/
theorem Inv.append (h : Inv P rcvbuf msgs s es) (hnone : s.reading = none) {bs : List UInt8}
    (hbs : bs <+: msgs.flatten.drop (s.rx.copied + s.unread.length)) :
    Inv P rcvbuf msgs { s with unread := s.unread ++ bs } es := by
  have hreading : ∀ d, d ∉ s.reading := by
    intro d hd
    rw [hnone] at hd
    cases hd
  refine ⟨h.rx, ?_, h.kicked, h.fresh, fun hne => ?_, fun d hd => absurd hd (hreading d),
    fun d hd => absurd hd (hreading d)⟩
  · obtain ⟨t, ht⟩ := h.bytes
    rw [← List.drop_drop, ← ht, List.drop_left] at hbs
    rw [← ht]
    exact (List.prefix_append_right_inj _).mpr hbs
  · obtain ⟨stm, hstm, hfull, hneed⟩ := h.need hne
    refine ⟨stm, hstm, hfull, hneed.imp id fun hav => ?_⟩
    rw [List.length_append]
    omega

/-- What arrives while the parser waits completes no message if `strp_peek_len` is below `need_bytes`. -/
theorem Inv.idle_of_needBytes (hF : Follows P rcvbuf F ext) (hv : Valid F rcvbuf msgs) (h : Inv P rcvbuf msgs s es)
    (hrest : s.AtRest → s.Idle msgs) (hq : s.queued = false) (hnone : s.reading = none) {bs : List UInt8}
    (hne : s.rx.strp.needBytes ≠ 0) (hlt : (s.unread ++ bs).length < s.rx.strp.needBytes) :
    State.Idle msgs { s with unread := s.unread ++ bs } := by
  have hkick : s.kicked = true := by
    by_contra hk
    exact hne (h.fresh (Bool.eq_false_of_not_eq_true hk)).2.2
  obtain ⟨stm, hstm, hfull, hneed⟩ := h.need hne
  have hold := (idle_iff hF hv h.rx hstm hfull).mp (hrest ⟨hkick, hq, hnone⟩)
  refine (idle_iff (s := { s with unread := s.unread ++ bs }) hF hv h.rx hstm hfull).mpr ?_
  dsimp only
  -- the message was not complete when the parser came to rest
  have hex := (hneed.resolve_right (by omega)).1
  omega

/-- `sk_data_ready`. -/
theorem Inv.arrive (hF : Follows P rcvbuf F ext) (hv : Valid F rcvbuf msgs) (h : Inv P rcvbuf msgs s es)
    (hrest : s.AtRest → s.Idle msgs) (hnone : s.reading = none) {bs : List UInt8} {owned : Bool}
    (hbs : bs <+: msgs.flatten.drop (s.rx.copied + s.unread.length))
    (hs' : s' = skDataReady v owned { s with unread := s.unread ++ bs }) :
    Inv P rcvbuf msgs s' es ∧ (s'.AtRest → s'.Idle msgs) := by
  have happ := h.append hnone hbs
  have hst := h.stopped hF hv
  unfold skDataReady strpDataReady at hs'
  split_ifs at hs' with hatt hstop hown hwait
  · exact absurd (hst.symm.trans hstop) Bool.false_ne_true
  · -- a process owns the socket
    subst hs'
    refine ⟨happ.quiet rfl rfl hnone (fun _ => hatt) (fun hk => ?_), fun hr => ?_⟩
    · cases hk
    · cases hr.2.1
  · -- the parser goes on waiting
    subst hs'
    refine ⟨happ.quiet rfl rfl hnone (fun _ => hatt) (fun hk => ?_), fun hr => ?_⟩
    · cases hk
    · have hpeek : (s.unread ++ bs).length < s.rx.strp.needBytes := by
        have hlt := hwait.2
        rw [State.peekLen] at hlt
        simpa [hnone] using hlt
      exact h.idle_of_needBytes hF hv hrest hr.2.1 hnone hwait.1 hpeek
  · subst hs'
    refine ⟨happ.start rfl rfl rfl rfl hatt, fun hr => ?_⟩
    cases hr.2.2
  · subst hs'
    refine ⟨happ, fun hr => absurd (h.kicked hr.1) hatt⟩

/-- `rakaia_attach`. -/
theorem Inv.attach (h : Inv P rcvbuf msgs s es) (hatt : s.attached = false) :
    Inv P rcvbuf msgs (rakaiaAttach v s) es ∧ ¬ (rakaiaAttach v s).AtRest := by
  have hkick : s.kicked = false := by
    by_contra hk
    exact Bool.false_ne_true (hatt.symm.trans (h.kicked (Bool.eq_true_of_not_eq_false hk)))
  obtain ⟨hq, hnone, -⟩ := h.fresh hkick
  cases v with
  | plainTcp =>
      refine ⟨h.quiet rfl rfl hnone (fun _ => rfl) (fun hk => ?_), fun hr => ?_⟩
      · cases hk
      · cases hr.2.1
  | grpc =>
      refine ⟨h.quiet rfl rfl hnone (fun _ => rfl) (fun _ => ⟨hkick, hq⟩), fun hr => ?_⟩
      exact Bool.false_ne_true (hkick.symm.trans hr.1)

/-- A call of the actor. -/
theorem Inv.read (hF : Follows P rcvbuf F ext) (hv : Valid F rcvbuf msgs) (h : Inv P rcvbuf msgs s es) {d : Reading}
    (hd : s.reading = some d) (hgo : d.goesOn = true) {skb : SkBuff} {offset : ℕ} {o : Oracle} (hwf : skb.Wf)
    (hlt : offset < skb.len) (hbytes : skb.bytes.drop offset <+: s.unread) {rx : Strp.State τ}
    (hstep : Strp.step P rcvbuf s.rx ⟨skb, offset, peeks o s.peekLen⟩ = some (rx, e)) :
    Inv P rcvbuf msgs (readBuffer s d (skb.len - offset) rx e) (es ++ e) := by
  have hrx : (Strp.machine P rcvbuf).Reach (Presents msgs) rx (es ++ e) :=
    h.rx.step ⟨hwf, hlt.le, hbytes.trans h.bytes⟩ hstep
  obtain ⟨-, -, -, -, hst⟩ := at_of_reach hF hv hrx
  obtain ⟨n, hcopied, hends⟩ := step_ends hlt hstep
  have hn : rx.copied - s.rx.copied = n := by omega
  have hlen : skb.len - offset ≤ s.unread.length := by
    have hle := hbytes.length_le
    rwa [List.length_drop, ← hwf.len_eq] at hle
  have hpeek : s.peekLen = s.unread.length + d.behind := by
    rw [State.peekLen, hd]
    rfl
  have hcount : d.count = true := (Bool.and_eq_true_iff.mp hgo).1
  have hkick : s.kicked ≠ false := by
    intro hk
    have hnone := (h.fresh hk).2.1
    rw [hd] at hnone
    cases hnone
  have hunread : s.unread.drop n <+: msgs.flatten.drop rx.copied := by
    rw [hcopied, ← List.drop_drop]
    exact h.bytes.drop n
  rw [readBuffer, hn]
  rw [hpeek] at hends
  cases hends with
  | failed l he hl hneed =>
      refine ⟨hrx, hunread, h.kicked, fun hk => absurd hk hkick, fun hne => ?_, ?_, ?_⟩
      · obtain ⟨hsame, hstm, rfl⟩ := hneed.resolve_left hne
        rw [hsame] at hne
        obtain ⟨stm, hold, hfull, hwas⟩ := h.need hne
        refine ⟨stm, hstm.trans hold, hfull, hwas.imp (fun hex => ⟨hsame.trans hex.1, ?_⟩) id⟩
        rintro _ ⟨⟩ hgo'
        cases (Bool.and_eq_true_iff.mp hgo').2
      · rintro _ ⟨⟩ -
        rw [he]
        exact ReadSock.note_error l d.toReadSock (-12)
      · rintro _ ⟨⟩ hc
        have hnostop : (Event.stopReading : Event τ) ∉ e := by simp [he, hl]
        exact absurd ((ReadSock.note_count hnostop d.toReadSock).symm.trans hc) (by rw [hcount]; decide)
  | aborted hstop => exact absurd (hst.symm.trans hstop) Bool.false_ne_true
  | waits stm hstm hlt' hneed hnot hstop hall =>
      have hoff := ReadSock.note_stopReading hstop d.toReadSock
      refine ⟨hrx, hunread, h.kicked, fun hk => absurd hk hkick,
        fun _ => ⟨stm, hstm, by omega, .inl ⟨hneed, ?_⟩⟩, ?_, ?_⟩
      · rintro _ ⟨⟩ hgo'
        exact absurd (hoff.symm.trans (Bool.and_eq_true_iff.mp hgo').1) Bool.false_ne_true
      · rintro _ ⟨⟩ hu
        have hzero : ¬ 0 < n := of_decide_eq_false hu
        omega
      · rintro _ ⟨⟩ -
        refine (idle_iff hF hv hrx hstm (by omega)).mpr ?_
        rw [List.length_drop]
        omega
  | whole hall hnostop hneed =>
      refine ⟨hrx, hunread, h.kicked, fun hk => absurd hk hkick, fun hne => ?_, ?_, ?_⟩
      · obtain ⟨hsame, hmore⟩ := hneed.resolve_left hne
        rw [hsame] at hne
        obtain ⟨stm, hold, hfull, hwas⟩ := h.need hne
        obtain ⟨stm', hstm', hfull', haccum, hpeeked⟩ := hmore stm hold hfull
        refine ⟨stm', hstm', by omega, .inr ?_⟩
        rw [List.length_drop]
        rcases hwas with ⟨-, hbehind⟩ | hwas
        · have := hbehind d hd hgo
          omega
        · omega
      · rintro _ ⟨⟩ hu
        have hzero : ¬ 0 < n := of_decide_eq_false hu
        omega
      · rintro _ ⟨⟩ hc
        exact absurd ((ReadSock.note_count hnostop d.toReadSock).symm.trans hc) (by rw [hcount]; decide)

/-- The reading ends. -/
theorem Inv.finish (h : Inv P rcvbuf msgs s es) {d : Reading} (hd : s.reading = some d)
    (hend : d.goesOn = false ∨ s.unread = []) :
    Inv P rcvbuf msgs (readDone s d) es ∧ ((readDone s d).AtRest → (readDone s d).Idle msgs) := by
  refine ⟨h.quiet rfl rfl rfl h.kicked (fun hk => ?_), fun hr => ?_⟩
  · have hnone := (h.fresh hk).2.1
    rw [hd] at hnone
    cases hnone
  · -- no allocation failed, so the actor consumed what it was passed
    have herror : d.error ≠ -12 := of_decide_eq_false (Bool.or_eq_false_iff.mp hr.2.1).2
    have hused : d.used = true := by
      by_contra hu
      exact herror (h.used d hd (Bool.eq_false_of_not_eq_true hu))
    rcases hend with hgo | hempty
    · rw [ReadSock.goesOn, hused, Bool.and_true] at hgo
      exact h.count d hd hgo
    · rw [State.Idle, readDone, hempty]
      rfl

/-- A step. -/
theorem Inv.step (hF : Follows P rcvbuf F ext) (hv : Valid F rcvbuf msgs)
    (h : Inv P rcvbuf msgs s es ∧ (s.AtRest → s.Idle msgs)) (hg : Delivers msgs s a)
    (hs : Wake.step v P rcvbuf s a = some (s', e)) :
    Inv P rcvbuf msgs s' (es ++ e) ∧ (s'.AtRest → s'.Idle msgs) := by
  obtain ⟨h, hrest⟩ := h
  cases a with
  | arrive bs owned =>
      simp only [Wake.step] at hs
      split at hs
      · next hnone =>
        obtain ⟨hs', rfl⟩ := Prod.mk.inj (Option.some.inj hs)
        rw [List.append_nil]
        exact h.arrive hF hv hrest hnone hg hs'.symm
      · cases hs
  | attach =>
      simp only [Wake.step] at hs
      split_ifs at hs with hatt
      obtain ⟨rfl, rfl⟩ := Prod.mk.inj (Option.some.inj hs)
      rw [List.append_nil]
      obtain ⟨hinv, hno⟩ := h.attach (Bool.eq_false_of_not_eq_true hatt)
      exact ⟨hinv, fun hr => absurd hr hno⟩
  | start =>
      simp only [Wake.step] at hs
      split_ifs at hs with hq
      obtain ⟨rfl, rfl⟩ := Prod.mk.inj (Option.some.inj hs)
      rw [List.append_nil, doStrpWork, if_neg (by rw [h.stopped hF hv]; decide)]
      have hkick := h.kicked_of_queued (Bool.and_eq_true_iff.mp hq).1
      refine ⟨h.start rfl rfl rfl hkick (h.kicked hkick), fun hr => ?_⟩
      cases hr.2.2
  | read skb offset o =>
      simp only [Wake.step] at hs
      split at hs
      · next d hd =>
        split_ifs at hs with hgo
        obtain ⟨x, hx, hpair⟩ := Option.map_eq_some_iff.mp hs
        obtain ⟨rfl, rfl⟩ := Prod.mk.inj hpair
        refine ⟨h.read hF hv hd hgo hg.1 hg.2.1 hg.2.2 hx, fun hr => ?_⟩
        cases hr.2.2
      · cases hs
  | finish =>
      simp only [Wake.step] at hs
      split at hs
      · next d hd =>
        split_ifs at hs with hgo
        obtain ⟨rfl, rfl⟩ := Prod.mk.inj (Option.some.inj hs)
        rw [List.append_nil]
        refine h.finish hd ?_
        by_cases hempty : s.unread = []
        · exact .inr hempty
        · refine .inl (Bool.eq_false_of_not_eq_true fun hon => hgo ?_)
          rw [hon, Bool.true_and, Bool.not_eq_true', List.isEmpty_eq_false_iff]
          exact hempty
      · cases hs

/-- The invariant holds along every run. -/
theorem inv_of_reach (hF : Follows P rcvbuf F ext) (hv : Valid F rcvbuf msgs)
    (h : (machine v P rcvbuf).Reach (Delivers msgs) s es) :
    Inv P rcvbuf msgs s es ∧ (s.AtRest → s.Idle msgs) := by
  refine h.invariant (P := fun s es => Inv P rcvbuf msgs s es ∧ (s.AtRest → s.Idle msgs))
    ⟨⟨.init, List.nil_prefix, ?_, fun _ => ⟨rfl, rfl, rfl⟩, ?_, ?_, ?_⟩, ?_⟩
    fun _ _ _ _ _ _ hi hg hs => Inv.step hF hv hi hg hs
  · intro hk
    cases hk
  · intro hne
    exact absurd rfl hne
  · intro d hd
    cases hd
  · intro d hd
    cases hd
  · intro hr
    cases hr.1

/-! ### Coming to rest -/

/-- No bytes arrive, and memory is available. -/
def Settles (msgs : List (List UInt8)) (s : State τ) : Act → Prop
  | .read skb offset o => Delivers msgs s (.read skb offset o) ∧ o.Succeeds
  | .start | .finish => True
  | _ => False

/-- The bytes of the stream that have arrived. -/
def State.arrived (s : State τ) : ℕ := s.rx.copied + s.unread.length

omit [Inhabited τ] in
theorem Settles.delivers (hg : Settles msgs s a) : Delivers msgs s a := by
  cases a with
  | read skb offset o => exact hg.1
  | start => trivial
  | finish => trivial
  | arrive bs owned => exact hg.elim
  | attach => exact hg.elim

/-- The unread bytes can be read in one call of the actor. -/
theorem read_all (hF : Follows P rcvbuf F ext) (hv : Valid F rcvbuf msgs) (h : Inv P rcvbuf msgs s es) {d : Reading}
    (hd : s.reading = some d) (hgo : d.goesOn = true) (hne : s.unread ≠ []) :
    ∃ s' e d', (machine v P rcvbuf).Continues (Settles msgs) s e s' ∧ s'.reading = some d' ∧ s'.unread = [] ∧
      s'.arrived = s.arrived ∧ s'.kicked = s.kicked ∧ s'.queued = s.queued := by
  have hlen : (bufferOf s.unread []).len = s.unread.length := by simp [bufferOf, SkBuff.len]
  have hbytes : (bufferOf s.unread []).bytes.drop 0 = s.unread := by simp [bufferOf, SkBuff.bytes, SkBuff.bytesOf]
  have hwf := wf_bufferOf s.unread []
  have hpos : 0 < s.unread.length := List.length_pos_iff.mpr hne
  obtain ⟨rx, e, hstep, hall⟩ := step_of_reach hF hv h.rx
    (a := ⟨bufferOf s.unread [], 0, peeks .ok s.peekLen⟩) ⟨hwf, Nat.zero_le _, by rw [hbytes]; exact h.bytes⟩
  have hcopied : rx.copied = s.rx.copied + s.unread.length := by
    rw [hall ⟨rfl, fun _ => rfl⟩, hlen]
    rfl
  have hn : rx.copied - s.rx.copied = s.unread.length := by omega
  refine ⟨readBuffer s d ((bufferOf s.unread []).len - 0) rx e, e, _,
    .single (a := Act.read (bufferOf s.unread []) 0 .ok) ⟨⟨hwf, by omega, ?_⟩, rfl, fun _ => rfl⟩ ?_,
    rfl, ?_, ?_, rfl, rfl⟩
  · rw [hbytes]
  · simp only [machine, step, hd, hgo, if_true, hstep, Option.map_some]
  · rw [readBuffer, hn]
    exact List.drop_length
  · rw [State.arrived, readBuffer, hn, List.drop_length, List.length_nil]
    exact hcopied

/-- A reading can be brought to its end. -/
theorem reading_ends (hF : Follows P rcvbuf F ext) (hv : Valid F rcvbuf msgs) (h : Inv P rcvbuf msgs s es)
    {d : Reading} (hd : s.reading = some d) :
    ∃ s' e, (machine v P rcvbuf).Continues (Settles msgs) s e s' ∧ s'.reading = none ∧ s'.kicked = s.kicked ∧
      s'.arrived = s.arrived ∧ (d.goesOn = true → s'.unread = []) ∧
      (s.unread = [] → s'.queued = (s.queued || decide (d.error = -12))) := by
  by_cases hmore : d.goesOn = true ∧ s.unread ≠ []
  · obtain ⟨s₁, e₁, d₁, hc, hd₁, hempty, harr, hkick, hq⟩ := read_all (v := v) hF hv h hd hmore.1 hmore.2
    refine ⟨readDone s₁ d₁, e₁ ++ [], hc.trans (.single (a := Act.finish) trivial ?_), rfl, hkick, harr,
      fun _ => hempty, fun hnil => absurd hnil hmore.2⟩
    simp [machine, step, hd₁, hempty]
  · refine ⟨readDone s d, [], .single (a := Act.finish) trivial ?_, rfl, rfl, rfl, fun hgo => ?_, fun _ => rfl⟩
    · simp only [machine, step, hd]
      rw [if_neg]
      intro hgo
      obtain ⟨hgo, hne⟩ := Bool.and_eq_true_iff.mp hgo
      exact hmore ⟨hgo, by simpa using hne⟩
    · by_contra hne
      exact hmore ⟨hgo, hne⟩

/-- The work item starts. -/
theorem work_starts (hst : s.rx.strp.stopped = false) (hq : s.queued = true) (hnone : s.reading = none) :
    (machine v P rcvbuf).Continues (Settles msgs) s [] { s with queued := false, reading := some .start } := by
  refine .single (a := Act.start) trivial ?_
  simp [machine, step, hq, hnone, doStrpWork, hst]

/-- The invariant holds while the parser comes to rest. -/
theorem Inv.continues (hF : Follows P rcvbuf F ext) (hv : Valid F rcvbuf msgs)
    (h : Inv P rcvbuf msgs s es ∧ (s.AtRest → s.Idle msgs))
    (hc : (machine v P rcvbuf).Continues (Settles msgs) s e s') :
    Inv P rcvbuf msgs s' (es ++ e) ∧ (s'.AtRest → s'.Idle msgs) := by
  induction hc generalizing es with
  | refl =>
      rw [List.append_nil]
      exact h
  | step hg hs _ ih =>
      rw [← List.append_assoc]
      exact ih (Inv.step hF hv h hg.delivers hs)

/-- The work item reads what is unread. -/
theorem work_ends (hF : Follows P rcvbuf F ext) (hv : Valid F rcvbuf msgs)
    (h : Inv P rcvbuf msgs s es ∧ (s.AtRest → s.Idle msgs)) (hq : s.queued = true) (hnone : s.reading = none) :
    ∃ s' e, (machine v P rcvbuf).Continues (Settles msgs) s e s' ∧ s'.reading = none ∧ s'.kicked = s.kicked ∧
      s'.arrived = s.arrived ∧ s'.unread = [] ∧ (s.unread = [] → s'.queued = false) := by
  have hc : (machine v P rcvbuf).Continues (Settles msgs) s [] _ := work_starts (h.1.stopped hF hv) hq hnone
  obtain ⟨s', e, hc', hnone', hkick, harr, hempty, hqueued⟩ :=
    reading_ends (v := v) hF hv (Inv.continues hF hv h hc).1 rfl
  exact ⟨s', [] ++ e, hc.trans hc', hnone', hkick, harr, hempty rfl, hqueued⟩

/-- A parser that was told to read can come to rest. -/
theorem comes_to_rest (hF : Follows P rcvbuf F ext) (hv : Valid F rcvbuf msgs)
    (h : Inv P rcvbuf msgs s es ∧ (s.AtRest → s.Idle msgs)) (hkick : s.kicked = true) :
    ∃ s' e, (machine v P rcvbuf).Continues (Settles msgs) s e s' ∧ s'.AtRest ∧ s'.arrived = s.arrived := by
  -- the reading in progress ends, the work item reads what is left, and once more if an allocation had failed
  obtain ⟨s₁, e₁, hc₁, hnone₁, hkick₁, harr₁⟩ : ∃ s' e, (machine v P rcvbuf).Continues (Settles msgs) s e s' ∧
      s'.reading = none ∧ s'.kicked = s.kicked ∧ s'.arrived = s.arrived := by
    cases hd : s.reading with
    | none => exact ⟨s, [], .refl s, hd, rfl, rfl⟩
    | some d =>
        obtain ⟨s', e, hc, hnone, hk, harr, -⟩ := reading_ends (v := v) hF hv h.1 hd
        exact ⟨s', e, hc, hnone, hk, harr⟩
  by_cases hq₁ : s₁.queued = true
  swap
  · exact ⟨s₁, e₁, hc₁, ⟨hkick₁.trans hkick, Bool.eq_false_of_not_eq_true hq₁, hnone₁⟩, harr₁⟩
  have h₁ := Inv.continues hF hv h hc₁
  obtain ⟨s₂, e₂, hc₂, hnone₂, hkick₂, harr₂, hempty₂, -⟩ := work_ends (v := v) hF hv h₁ hq₁ hnone₁
  by_cases hq₂ : s₂.queued = true
  swap
  · exact ⟨s₂, e₁ ++ e₂, hc₁.trans hc₂, ⟨(hkick₂.trans hkick₁).trans hkick, Bool.eq_false_of_not_eq_true hq₂, hnone₂⟩,
      harr₂.trans harr₁⟩
  have h₂ := Inv.continues hF hv h₁ hc₂
  obtain ⟨s₃, e₃, hc₃, hnone₃, hkick₃, harr₃, -, hq₃⟩ := work_ends (v := v) hF hv h₂ hq₂ hnone₂
  exact ⟨s₃, e₁ ++ e₂ ++ e₃, (hc₁.trans hc₂).trans hc₃,
    ⟨((hkick₃.trans hkick₂).trans hkick₁).trans hkick, hq₃ hempty₂, hnone₃⟩, (harr₃.trans harr₂).trans harr₁⟩

/-! ### The main result -/

/-- **No message is left in the socket**, once the parser was told to read since the attach.  When no work of it is
queued any more and nobody reads the socket, every message of which all bytes have arrived was handed on: not one
waits for the bytes of the next.  It makes no difference how the bytes arrived and were passed to the parser, when
`need_bytes` kept `strp_data_ready` from reading, which allocations failed, and when a process owned the socket.
Such a state can be reached without more bytes. -/
theorem arrived_messages_handed_on (v : Variant) (hF : Follows P rcvbuf F ext) (hv : Valid F rcvbuf msgs)
    (h : (machine v P rcvbuf).Reach (Delivers msgs) s es) :
    (s.AtRest → (messages es).map digest = (wholeIn msgs s.arrived).map (expected ext)) ∧
    (s.kicked = true → ∃ s' e, (machine v P rcvbuf).Continues (Settles msgs) s e s' ∧ s'.AtRest ∧
      s'.arrived = s.arrived) := by
  have hinv := inv_of_reach hF hv h
  refine ⟨fun hrest => ?_, comes_to_rest hF hv hinv⟩
  rw [delivered_of_reach hF hv hinv.1.rx, State.arrived, hinv.2 hrest]

/-- The header of a `GET` arrives before the attach.  Its key arrives with the header of a `SET`: an allocation fails,
and the work item reads them.  Another byte is less than `need_bytes`, and is read with the last one. -/
def wakeActs : List Act :=
  let bs := Memcache.twoRequests.flatten
  [.arrive (bs.take 28) false, .attach, .start, .read (bufferOf (bs.take 28) []) 0 .ok, .finish,
    .arrive ((bs.drop 28).take 29) false,
    .read (bufferOf ((bs.drop 28).take 29) []) 0 { Oracle.ok with round := fun _ => ⟨false, true, 0⟩ }, .finish,
    .start, .read (bufferOf ((bs.drop 28).take 29) []) 0 .ok, .finish,
    .arrive ((bs.drop 57).take 1) false, .arrive (bs.drop 58) false, .read (bufferOf (bs.drop 57) []) 0 .ok, .finish]

/-- What `Delivers` says of the bytes. -/
def delivered (msgs : List (List UInt8)) (s : State Unit) : Act → Bool
  | .arrive bs _ => decide (bs <+: msgs.flatten.drop (s.rx.copied + s.unread.length))
  | .read skb offset _ => decide (offset < skb.len) && decide (skb.bytes.drop offset <+: s.unread)
  | _ => true

theorem delivers_of_delivered {s : State Unit} (hwf : ∀ skb offset o, a = .read skb offset o → skb.Wf)
    (h : delivered msgs s a = true) : Delivers msgs s a := by
  cases a with
  | arrive bs owned =>
      have hbs : bs <+: _ := of_decide_eq_true h
      exact hbs
  | read skb offset o =>
      obtain ⟨hlt, hbytes⟩ := Bool.and_eq_true_iff.mp h
      exact ⟨hwf skb offset o rfl, of_decide_eq_true hlt, of_decide_eq_true hbytes⟩
  | attach => trivial
  | start => trivial
  | finish => trivial

theorem wf_of_mem_wakeActs {skb : SkBuff} {offset : ℕ} {o : Oracle} (h : .read skb offset o ∈ wakeActs) : skb.Wf := by
  simp only [wakeActs, List.mem_cons, List.not_mem_nil, or_false, reduceCtorEq, false_or, Act.read.injEq] at h
  rcases h with ⟨rfl, -⟩ | ⟨rfl, -⟩ | ⟨rfl, -⟩ | ⟨rfl, -⟩ <;> exact wf_bufferOf _ _

theorem arrived_messages_handed_on_two : ∃ s es,
    (machine .plainTcp Memcache.parser 4096).Reach (Delivers Memcache.twoRequests) s es ∧ s.AtRest ∧
    (messages es).map digest = Memcache.twoRequests.map (expected fun _ => ()) := by
  obtain ⟨s, es, h, hs⟩ := Machine.Reach.of_exec (M := machine .plainTcp Memcache.parser 4096)
    (g := delivered Memcache.twoRequests) (G := Delivers Memcache.twoRequests) wakeActs
    (fun s a ha hp => delivers_of_delivered (fun _ _ _ heq => wf_of_mem_wakeActs (heq ▸ ha)) hp)
    (fun r => (decide r.1.AtRest, r.1.arrived)) (true, 59) (by decide +kernel)
  obtain ⟨hrest, harrived⟩ := Prod.mk.inj hs
  have hrest := of_decide_eq_true hrest
  have hall := (arrived_messages_handed_on .plainTcp (Memcache.follows 4096) Memcache.twoRequests_valid h).1 hrest
  rw [harrived] at hall
  exact ⟨s, es, h, hrest, hall.trans (by decide)⟩

end Rakaia.Strp.Wake
