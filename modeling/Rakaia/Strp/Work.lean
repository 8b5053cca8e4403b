import Rakaia.Strp.Tls

/-! # Receiving records (tls)

When a record arrives, `strp_data_ready` queues the work item of the parser, and `do_strp_work` lets
`tls_sw_read_sock` pass the unread records to `__strp_recv` one after the other, until none is left, the
parser consumes nothing, or it sets `desc->count` to zero.  As `strp_peek_len` says that nothing is left in
the socket, the parser does the latter at every record that ends inside a message, even if the rest of the
message has arrived: it is left unread, and no work item is queued for it.  Nor does `rakaia_attach` queue
one for the records that arrived before it.

Arrivals, the attach and the steps of the work item are interleaved in any order; the work item does not run
beside itself.  A stall (`NoStall` says that there is none) is a state at rest in which a complete message
has arrived that was not handed on. -/

namespace Rakaia.Strp.Work

open Lib Memcache Tls

/-- A decrypted record, of which the bytes from `offset` on are unread. -/
structure Record where
  skb : SkBuff
  offset : ℕ

namespace Record

def bytes (r : Record) : List UInt8 := r.skb.bytes.drop r.offset

def len (r : Record) : ℕ := r.skb.len - r.offset

/-- The record after `n` of its bytes were consumed. -/
def skip (r : Record) (n : ℕ) : Record := { r with offset := r.offset + n }

end Record

/-- The parser of a psock with the TLS socket it is attached to.  `queued` and `running` are about the work
item of the parser, which is in a call of `tls_sw_read_sock` while it runs. -/
structure State where
  attached : Bool
  queued : Bool
  running : Option ReadSock
  rx : Strp.State Unit
  unread : List Record

namespace State

/-- The TLS socket before anything arrived. -/
def init : State := ⟨false, false, none, Strp.State.init, []⟩

def unreadBytes (s : State) : List UInt8 := s.unread.flatMap Record.bytes

end State

inductive Act where
  /-- A record is decrypted; `saved_data_ready` is called. -/
  | arrive (r : Record)
  /-- `rakaia_attach` sets the hook. -/
  | attach
  /-- The work item starts. -/
  | start
  /-- `tls_sw_read_sock` passes the first unread record to the actor. -/
  | read (o : Oracle)
  /-- `tls_sw_read_sock` returns and the work item ends. -/
  | finish

/-- `strp_data_ready`: the code behind its unconditional `return` is left out. -/
def strpDataReady (s : State) : State := if s.rx.strp.stopped then s else { s with queued := true }

/-- `ctx->saved_data_ready`, which is `psock_data_ready` after the attach. -/
def savedDataReady (s : State) : State := if s.attached then strpDataReady s else s

/-- `do_strp_work` up to `read_sock`. -/
def doStrpWork (s : State) : State :=
  if s.rx.strp.stopped then { s with queued := false }
  else { s with queued := false, running := some ReadSock.start }

/-- A record is passed to the actor, which consumes `n` of its bytes. -/
def readRecord (s : State) (d : ReadSock) (r : Record) (rest : List Record) (rx : Strp.State Unit)
    (e : List (Event Unit)) : State :=
  let n := rx.copied - s.rx.copied
  { s with
    rx := rx
    unread := if 0 < n ∧ n = r.len then rest else r.skip n :: rest
    running := some { e.foldl ReadSock.note d with used := decide (0 < n) } }

/-- The end of `do_strp_work`. -/
def workDone (s : State) (d : ReadSock) : State :=
  { s with running := none, queued := s.queued || decide (d.error = -12) }

def step (rcvbuf : ℕ) (s : State) : Act → Option (State × List (Event Unit))
  | .arrive r => some (savedDataReady { s with unread := s.unread ++ [r] }, [])
  | .attach => if s.attached then none else some ({ s with attached := true }, [])
  | .start => if s.queued && s.running.isNone then some (doStrpWork s, []) else none
  | .read o =>
      match s.running, s.unread with
      | some d, r :: rest =>
          if d.goesOn then
            (Tls.step rcvbuf s.rx ⟨r.skb, r.offset, o⟩).map (fun x => (readRecord s d r rest x.1 x.2, x.2))
          else none
      | _, _ => none
  | .finish =>
      match s.running with
      | some d => if d.goesOn && !s.unread.isEmpty then none else some (workDone s d, [])
      | none => none

def machine (rcvbuf : ℕ) : Machine State Act (Event Unit) := ⟨State.init, step rcvbuf⟩

/-! ### Stalls -/

/-- The bytes of the message in progress. -/
def accumulated (strp : Strparser Unit) : List UInt8 :=
  match strp.skbHead with
  | none => []
  | some head => head.skb.bytes.drop head.stm.offset

/-- What the parser has accumulated and what is unread. -/
def State.pending (s : State) : List UInt8 := accumulated s.rx.strp ++ s.unreadBytes

/-- When the work item is neither queued nor running, no complete message is waiting. -/
def NoStall (s : State) : Prop :=
  s.attached = true → s.queued = false → s.running = none → ¬ framing.Complete s.pending

instance : DecidablePred NoStall := fun s =>
  inferInstanceAs (Decidable (s.attached = true → s.queued = false → s.running = none → _))

/-- The records carry the stream `msgs`, and no allocation fails. -/
def Delivers (msgs : List (List UInt8)) (s : State) : Act → Prop
  | .arrive r => r.skb.Wf ∧ r.offset ≤ r.skb.len ∧
      r.bytes <+: msgs.flatten.drop (s.rx.copied + s.unreadBytes.length)
  | .read o => o.Succeeds
  | _ => True

/-- No record is empty; no complete message is unread at the attach; and a record that is read does not
end inside a header, and ends inside a message only if the records behind it do not complete a message or
the work item is queued again. -/
def Orderly (msgs : List (List UInt8)) (s : State) : Act → Prop
  | .arrive r => r.offset < r.skb.len
  | .attach => ¬ framing.Complete s.pending
  | .read _ => ∀ r ∈ s.unread.head?, ClearOfHeaders msgs (s.rx.copied + r.len) ∧
      (behind msgs (s.rx.copied + r.len) = 0 ∨ s.queued = true ∨
        wholeIn msgs (s.rx.copied + s.unreadBytes.length) = wholeIn msgs (s.rx.copied + r.len))
  | _ => True

instance (msgs : List (List UInt8)) (s : State) : DecidablePred (Orderly msgs s)
  | .arrive _ => inferInstanceAs (Decidable (_ < _))
  | .attach => inferInstanceAs (Decidable (¬ _))
  | .read _ => inferInstanceAs (Decidable (∀ r ∈ s.unread.head?, _))
  | .start => isTrue trivial
  | .finish => isTrue trivial

/-! ### What the parser says about the reading -/

section events

variable {P : Parser Unit} {maxMsgSize : ℕ}

/-- The parser stops the reading only with a message in progress. -/
theorem round_stopReading {orig : SkBuff} {origOffset origLen eaten : ℕ} {o : Round}
    {strp : Strparser Unit} {x : Outcome Unit}
    (h : round P maxMsgSize orig origOffset origLen o strp eaten = x) :
    match x with
    | .leave strp' _ e => Event.stopReading ∈ e → strp'.skbHead.isSome = true
    | .again _ _ e => Event.stopReading ∉ e := by
  have hwarn : ∀ b, (Event.stopReading : Event Unit) ∉ warnOn b := by
    intro b
    cases b <;> simp [warnOn]
  unfold round at h
  split_ifs at h with hclone
  · subst h
    simp
  cases hj : join strp orig (origOffset + eaten) o with
  | error e =>
      simp only [hj] at h
      subst h
      rw [join] at hj
      split at hj
      · cases hj
      · split_ifs at hj
        · cases hj
          simp
        · split at hj
          · cases hj
            simp
          · cases hj
  | ok r =>
      simp only [hj] at h
      cases hm : measure P maxMsgSize r.1 orig with
      | bad err i u =>
          simp only [hm] at h
          subst h
          simp [Strparser.parserErr]
      | needHeader stm =>
          simp only [hm] at h
          subst h
          simp
      | known stm =>
          simp only [hm] at h
          split_ifs at h <;> subst h
          · simp
          · simp
          · simp [hwarn]

theorem loop_stopReading {orig : SkBuff} {origOffset origLen : ℕ} {o : ℕ → Round} {fuel : ℕ}
    {strp : Strparser Unit} {eaten : ℕ} {r : Strparser Unit × ℕ × List (Event Unit)}
    (h : loop P maxMsgSize orig origOffset origLen o fuel strp eaten = some r)
    (hstop : Event.stopReading ∈ r.2.2) : r.1.skbHead.isSome = true := by
  induction fuel generalizing strp eaten r with
  | zero =>
      rw [loop] at h
      split_ifs at h
      obtain rfl := Option.some.inj h
      cases hstop
  | succ fuel ih =>
      rw [loop] at h
      split_ifs at h
      · obtain rfl := Option.some.inj h
        cases hstop
      · split at h
        · next heq =>
            obtain rfl := Option.some.inj h
            exact round_stopReading heq hstop
        · next heq =>
            obtain ⟨r', hr', rfl⟩ := Option.map_eq_some_iff.mp h
            have hmem := (List.mem_append.mp hstop).resolve_left (round_stopReading heq)
            have hsome := ih hr' hmem
            exact hsome

theorem step_stopReading {s s' : Strp.State Unit} {a : Strp.Act} {e : List (Event Unit)}
    (h : Strp.step P maxMsgSize s a = some (s', e)) (hstop : Event.stopReading ∈ e) :
    s'.strp.skbHead.isSome = true := by
  obtain ⟨r, hr, hx⟩ := Option.map_eq_some_iff.mp h
  obtain ⟨rfl, rfl⟩ := Prod.mk.inj hx
  have hprep : ∀ x, prepare s.strp a.skb a.offset a.oracle = x → Event.stopReading ∉ x.2.2 := by
    intro x hx
    subst hx
    unfold prepare
    dsimp only
    repeat' split
    all_goals simp
  unfold strpRecv at hr
  split at hr
  · next heq =>
      obtain rfl := Option.some.inj hr
      exact absurd hstop (hprep _ heq)
  · next heq =>
      obtain ⟨r', hr', rfl⟩ := Option.map_eq_some_iff.mp hr
      have hmem := (List.mem_append.mp hstop).resolve_left (hprep _ heq)
      exact loop_stopReading hr' hmem

end events

/-! ### What is waiting -/

section pending

variable {strp : Strparser Unit} {ms : List (List UInt8)} {k : ℕ}

theorem accumulated_of_at (h : At framing (fun _ => ()) strp ms k) :
    accumulated strp ++ ms.flatten.drop k = ms.flatten ∧ (accumulated strp).length = k := by
  unfold accumulated
  cases hh : strp.skbHead with
  | none =>
      rw [At, hh] at h
      subst h
      exact ⟨rfl, rfl⟩
  | some head =>
      rw [At, hh] at h
      obtain ⟨m, rest, rfl, hb⟩ := h
      have hle : k ≤ m.length := hb.lt.le
      dsimp only
      rw [hb.bytes, List.flatten_cons, List.drop_append_of_le_length hle, ← List.append_assoc,
        List.take_append_drop, List.length_take, min_eq_left hle]
      exact ⟨rfl, rfl⟩

/-- A complete message is waiting when the first message to come has arrived. -/
theorem complete_iff {maxMsgSize : ℕ} (h : At framing (fun _ => ()) strp ms k)
    (hv : Valid framing maxMsgSize ms) {bs : List UInt8} (hp : bs <+: ms.flatten.drop k) :
    framing.Complete (accumulated strp ++ bs) ↔ wholeIn ms (k + bs.length) ≠ [] := by
  obtain ⟨happ, hlen⟩ := accumulated_of_at h
  have hpre : accumulated strp ++ bs <+: ms.flatten := by
    rw [← happ]
    exact (List.prefix_append_right_inj _).mpr hp
  have hlen' : (accumulated strp ++ bs).length = k + bs.length := by rw [List.length_append, hlen]
  rw [Ne, wholeIn_eq_nil_iff]
  cases ms with
  | nil =>
      obtain hnil := List.prefix_nil.mp hpre
      rw [hnil]
      simp [Framing.Complete, framing, headerLen]
  | cons m rest =>
      rw [(hv m List.mem_cons_self).1.complete_iff hpre, hlen']
      simp

variable {rcvbuf : SkRcvbuf} {msgs : List (List UInt8)} {rx : Strp.State Unit} {es : List (Event Unit)}

/-- A complete message is waiting when more whole messages have arrived than were handed on. -/
theorem complete_iff_of_reach (hv : Valid framing rcvbuf msgs)
    (h : (Strp.machine Memcache.parser rcvbuf).Reach (Presents msgs) rx es) {bs : List UInt8}
    (hp : bs <+: msgs.flatten.drop rx.copied) :
    framing.Complete (accumulated rx.strp ++ bs) ↔
      wholeIn msgs (rx.copied + bs.length) ≠ wholeIn msgs rx.copied := by
  obtain ⟨ms, k, hat, hadv, -⟩ := at_of_reach (follows rcvbuf) hv h
  have hv' := hadv.valid hv
  have hdrop := hadv.drop_eq
  obtain ⟨done, rfl, -, hn⟩ := hadv
  rw [Nat.zero_add] at hn hdrop
  rw [← hdrop] at hp
  have hnil : wholeIn ms k = [] := wholeIn_eq_nil_iff.mpr (fun m hm => hat.lt hv' hm)
  rw [complete_iff hat hv' hp, ← hn, Nat.add_assoc, wholeIn_append, wholeIn_append, hnil, Ne, Ne,
    List.append_cancel_left_eq]

/-- With a message in progress, the consumed bytes end inside a message. -/
theorem behind_ne_zero (hv : Valid framing rcvbuf msgs)
    (h : (Strp.machine Memcache.parser rcvbuf).Reach (Presents msgs) rx es)
    (hsome : rx.strp.skbHead.isSome = true) : behind msgs rx.copied ≠ 0 := by
  obtain ⟨ms, k, hat, hadv, -⟩ := at_of_reach (follows rcvbuf) hv h
  obtain ⟨done, rfl, -, hn⟩ := hadv
  obtain ⟨head, hhead⟩ := Option.isSome_iff_exists.mp hsome
  rw [At, hhead] at hat
  obtain ⟨m, rest, rfl, hb⟩ := hat
  have hpos := hb.pos
  rw [Nat.zero_add] at hn
  rw [← hn, behind_append, behind_of_lt hb.lt]
  omega

end pending

/-! ### The invariant -/

section invariant

variable {rcvbuf : SkRcvbuf} {msgs : List (List UInt8)} {s s' : State} {es e : List (Event Unit)}

/-- The parser is where a run of the plain-tcp parser is, what is unread continues the stream, and no
complete message is waiting unless it will be read. -/
structure Inv (rcvbuf : SkRcvbuf) (msgs : List (List UInt8)) (s : State) (es : List (Event Unit)) : Prop where
  plain : (Strp.machine Memcache.parser rcvbuf).Reach (Presents msgs) s.rx es
  records : ∀ r ∈ s.unread, r.skb.Wf ∧ r.offset < r.skb.len
  bytes : s.unreadBytes <+: msgs.flatten.drop s.rx.copied
  used : ∀ d ∈ s.running, d.used = true
  quiet : s.attached = true → s.queued = false → (∀ d ∈ s.running, d.goesOn = false) →
    ¬ framing.Complete s.pending

theorem Inv.noStall (h : Inv rcvbuf msgs s es) : NoStall s := by
  intro hatt hq hrun
  apply h.quiet hatt hq
  intro d hd
  rw [hrun] at hd
  cases hd

theorem Inv.stopped (h : Inv rcvbuf msgs s es) (hv : Valid framing rcvbuf msgs) :
    s.rx.strp.stopped = false := by
  obtain ⟨-, -, -, -, hst⟩ := at_of_reach (follows rcvbuf) hv h.plain
  exact hst

theorem Record.length_bytes {r : Record} (h : r.skb.Wf) : r.bytes.length = r.len := by
  rw [Record.bytes, List.length_drop, ← h.len_eq, Record.len]

theorem Inv.arrive (h : Inv rcvbuf msgs s es) (hv : Valid framing rcvbuf msgs) {r : Record}
    (hd : Delivers msgs s (.arrive r)) (hne : r.offset < r.skb.len) :
    Inv rcvbuf msgs (savedDataReady { s with unread := s.unread ++ [r] }) es := by
  have hready : savedDataReady { s with unread := s.unread ++ [r] } =
      { s with unread := s.unread ++ [r], queued := s.queued || s.attached } := by
    unfold savedDataReady strpDataReady
    rw [h.stopped hv]
    cases hatt : s.attached <;> simp
  rw [hready]
  constructor
  · exact h.plain
  · intro r' hr'
    rcases List.mem_append.mp hr' with hr' | hr'
    · exact h.records r' hr'
    · obtain rfl := List.mem_singleton.mp hr'
      exact ⟨hd.1, hne⟩
  · obtain ⟨t, ht⟩ := h.bytes
    have hp := hd.2.2
    rw [← List.drop_drop, ← ht, List.drop_left] at hp
    show (s.unread ++ [r]).flatMap Record.bytes <+: _
    rw [List.flatMap_append, List.flatMap_singleton, ← ht]
    exact (List.prefix_append_right_inj _).mpr hp
  · exact h.used
  · intro hatt hq
    obtain ⟨-, hq⟩ := Bool.or_eq_false_iff.mp hq
    rw [show s.attached = true from hatt] at hq
    cases hq

/-- Reading one record. -/
theorem Inv.read (h : Inv rcvbuf msgs s es) (hv : Valid framing rcvbuf msgs) {d : ReadSock} {r : Record}
    {rest : List Record} {o : Oracle} {rx : Strp.State Unit} (hu : s.unread = r :: rest)
    (hgo : d.goesOn = true) (ho : o.Succeeds) (hord : Orderly msgs s (.read o))
    (hstep : Tls.step rcvbuf s.rx ⟨r.skb, r.offset, o⟩ = some (rx, e)) :
    Inv rcvbuf msgs (readRecord s d r rest rx e) (es ++ e) := by
  obtain ⟨hclear, hrest⟩ := hord r (by rw [hu]; rfl)
  obtain ⟨hwf, hlt⟩ := h.records r (by rw [hu]; exact List.mem_cons_self)
  have hub : s.unreadBytes = r.bytes ++ rest.flatMap Record.bytes := by
    rw [State.unreadBytes, hu, List.flatMap_cons]
  have hlen := Record.length_bytes hwf
  have hpres : Presents msgs s.rx ⟨r.skb, r.offset, o⟩ := by
    refine ⟨hwf, hlt.le, ?_⟩
    have hp := h.bytes
    rw [hub] at hp
    exact (List.prefix_append _ _).trans hp
  have hplain := ((step_of_plain hv h.plain hpres).1 hclear).symm.trans hstep
  obtain ⟨rx', e', hstep', hcopied⟩ := step_of_reach (follows rcvbuf) hv h.plain
    (a := peekNothing ⟨r.skb, r.offset, o⟩) ⟨hwf, hlt.le, hpres.bytes⟩
  obtain ⟨rfl, rfl⟩ := Prod.mk.inj (Option.some.inj (hstep'.symm.trans hplain))
  have hcopied : rx'.copied = s.rx.copied + r.len := hcopied (peekNothing_succeeds ho)
  have hreach := h.plain.step (a := peekNothing ⟨r.skb, r.offset, o⟩) ⟨hwf, hlt.le, hpres.bytes⟩ hplain
  have hpos : 0 < r.len := by
    unfold Record.len
    omega
  have hstate : readRecord s d r rest rx' e' =
      { s with rx := rx', unread := rest, running := some { e'.foldl ReadSock.note d with used := true } } := by
    unfold readRecord
    have hn : rx'.copied - s.rx.copied = r.len := by omega
    simp only [hn, hpos, and_self, if_true, decide_true]
  have hbytes : rest.flatMap Record.bytes <+: msgs.flatten.drop rx'.copied := by
    obtain ⟨t, ht⟩ := h.bytes
    rw [hcopied, ← List.drop_drop, ← ht, hub, List.append_assoc, ← hlen, List.drop_left]
    exact List.prefix_append _ _
  rw [hstate]
  refine ⟨hreach, ?_, hbytes, ?_, ?_⟩
  · intro r' hr'
    exact h.records r' (by rw [hu]; exact List.mem_cons_of_mem _ hr')
  · intro d' hd'
    obtain rfl := Option.some.inj hd'
    rfl
  · intro hatt hq hrun
    -- the parser has stopped the reading, so the record ends inside a message
    have hcount : (e'.foldl ReadSock.note d).count = false := by
      have hgo' := hrun _ rfl
      rwa [ReadSock.goesOn, Bool.and_true] at hgo'
    have hstop : .stopReading ∈ e' := by
      by_contra hno
      rw [ReadSock.note_count hno, (Bool.and_eq_true_iff.mp hgo).1] at hcount
      cases hcount
    have hin := behind_ne_zero hv hreach (step_stopReading hplain hstop)
    rw [← hcopied] at hrest
    rw [show State.pending _ = accumulated rx'.strp ++ rest.flatMap Record.bytes from rfl,
      complete_iff_of_reach hv hreach hbytes, not_not]
    rcases hrest with hzero | hq' | hwhole
    · exact absurd hzero hin
    · rw [show s.queued = false from hq] at hq'
      cases hq'
    · rwa [hub, List.length_append, hlen, ← Nat.add_assoc, ← hcopied] at hwhole

theorem Inv.finish (h : Inv rcvbuf msgs s es) (hv : Valid framing rcvbuf msgs) {d : ReadSock}
    (hd : s.running = some d) (hgo : ¬ (d.goesOn && !s.unread.isEmpty) = true) :
    Inv rcvbuf msgs (workDone s d) es := by
  refine ⟨h.plain, h.records, h.bytes, by simp [workDone], ?_⟩
  intro hatt hq _
  have hq : s.queued = false := (Bool.or_eq_false_iff.mp hq).1
  cases hgo' : d.goesOn with
  | false =>
      apply h.quiet hatt hq
      intro d' hd'
      rw [hd] at hd'
      obtain rfl := Option.some.inj hd'
      exact hgo'
  | true =>
      -- all records are read, and the message in progress is not complete
      have hnil : s.unread = [] := by simpa [hgo'] using hgo
      have hub : s.unreadBytes = [] := by
        rw [State.unreadBytes, hnil, List.flatMap_nil]
      show ¬ framing.Complete (accumulated s.rx.strp ++ s.unreadBytes)
      rw [complete_iff_of_reach hv h.plain h.bytes, hub]
      simp

theorem Inv.step (h : Inv rcvbuf msgs s es) (hv : Valid framing rcvbuf msgs) {a : Act}
    (hd : Delivers msgs s a) (ho : Orderly msgs s a) (hs : step rcvbuf s a = some (s', e)) :
    Inv rcvbuf msgs s' (es ++ e) := by
  cases a with
  | arrive r =>
      obtain ⟨rfl, rfl⟩ := Prod.mk.inj (Option.some.inj hs)
      rw [List.append_nil]
      exact h.arrive hv hd ho
  | attach =>
      rw [Work.step] at hs
      split_ifs at hs
      obtain ⟨rfl, rfl⟩ := Prod.mk.inj (Option.some.inj hs)
      rw [List.append_nil]
      exact ⟨h.plain, h.records, h.bytes, h.used, fun _ _ _ => ho⟩
  | start =>
      rw [Work.step] at hs
      split_ifs at hs
      obtain ⟨rfl, rfl⟩ := Prod.mk.inj (Option.some.inj hs)
      rw [List.append_nil, doStrpWork, h.stopped hv]
      refine ⟨h.plain, h.records, h.bytes, ?_, ?_⟩
      · intro d hd
        obtain rfl := Option.some.inj hd
        rfl
      · intro _ _ hrun
        cases hrun _ rfl
  | read o =>
      rw [Work.step] at hs
      split at hs
      · next d r rest _ hu =>
          split_ifs at hs with hgo
          obtain ⟨x, hx, heq⟩ := Option.map_eq_some_iff.mp hs
          obtain ⟨rfl, rfl⟩ := Prod.mk.inj heq
          exact h.read hv hu hgo hd ho hx
      · cases hs
  | finish =>
      rw [Work.step] at hs
      split at hs
      · next d hrun =>
          split_ifs at hs with hgo
          obtain ⟨rfl, rfl⟩ := Prod.mk.inj (Option.some.inj hs)
          rw [List.append_nil]
          exact h.finish hv hrun hgo
      · cases hs

theorem inv_of_reach (hv : Valid framing rcvbuf msgs)
    (h : (machine rcvbuf).Reach (fun s a => Delivers msgs s a ∧ Orderly msgs s a) s es) :
    Inv rcvbuf msgs s es := by
  refine h.invariant (P := Inv rcvbuf msgs) ⟨.init, ?_, ?_, ?_, ?_⟩ ?_
  · intro r hr
    cases hr
  · exact List.nil_prefix
  · intro d hd
    cases hd
  · intro hatt
    cases hatt
  · intro s es a s' e _ hi hg hs
    exact hi.step hv hg.1 hg.2 hs

end invariant

/-! ### Runs to evaluate -/

/-- A record is well formed, and all kernel calls succeed. -/
def Act.Sound : Act → Prop
  | .arrive r => r.skb.Wf
  | .read o => o.Succeeds
  | _ => True

/-- What arrives continues the stream. -/
def delivered (msgs : List (List UInt8)) (s : State) : Act → Bool
  | .arrive r => decide (r.offset ≤ r.skb.len ∧
      r.bytes <+: msgs.flatten.drop (s.rx.copied + s.unreadBytes.length))
  | _ => true

theorem delivers_of_delivered {msgs : List (List UInt8)} {s : State} {a : Act} (ha : a.Sound)
    (h : delivered msgs s a = true) : Delivers msgs s a := by
  cases a with
  | arrive r =>
      have h := of_decide_eq_true h
      exact ⟨ha, h.1, h.2⟩
  | read o => exact ha
  | attach => trivial
  | start => trivial
  | finish => trivial

theorem succeeds_ok : Oracle.ok.Succeeds := ⟨rfl, fun _ => rfl⟩

/-- The first request without its key, and the rest of the stream. -/
def firstRecord : Record := ⟨bufferOf (99 :: twoRequests.flatten.take 4) ((twoRequests.flatten.drop 4).take 24), 1⟩

def secondRecord : Record := ⟨bufferOf (twoRequests.flatten.drop 28) [], 0⟩

theorem sound_of_mem {a : Act}
    (h : a ∈ [.attach, .arrive firstRecord, .arrive secondRecord, .start, .read .ok, .finish]) : a.Sound := by
  simp only [List.mem_cons, List.not_mem_nil, or_false] at h
  rcases h with rfl | rfl | rfl | rfl | rfl | rfl
  · trivial
  · exact wf_bufferOf ..
  · exact wf_bufferOf ..
  · trivial
  · exact succeeds_ok
  · trivial

/-! ### The main result -/

/-- **No receive stall.**  If no record is empty, no complete message is unread at the attach, no record
that is read ends inside a header, and one that ends inside a message is not followed by unread records
that complete a message unless the work item is queued again, then no complete message is ever left waiting
with the work item neither queued nor running. -/
theorem no_receive_stall (rcvbuf : SkRcvbuf) {msgs : List (List UInt8)} (hv : Valid framing rcvbuf msgs)
    {s : State} {es : List (Event Unit)}
    (h : (machine rcvbuf).Reach (fun s a => Delivers msgs s a ∧ Orderly msgs s a) s es) : NoStall s :=
  (inv_of_reach hv h).noStall

/-- A request in two records, each read before the next arrives. -/
def readInTime : List Act :=
  [.attach, .arrive firstRecord, .start, .read .ok, .finish, .arrive secondRecord, .start, .read .ok, .finish]

theorem no_receive_stall_in_time : ∃ s es,
    (machine 4096).Reach (fun s a => Delivers twoRequests s a ∧ Orderly twoRequests s a) s es ∧
    s.attached = true ∧ s.queued = false ∧ s.running = none ∧ (messages es).length = 2 ∧
    ¬ framing.Complete s.pending := by
  obtain ⟨s, es, hr, hy⟩ := Machine.Reach.of_exec (M := machine 4096)
    (G := fun s a => Delivers twoRequests s a ∧ Orderly twoRequests s a)
    (g := fun s a => delivered twoRequests s a && decide (Orderly twoRequests s a)) readInTime
    (by
      intro s a ha hg
      obtain ⟨hd, ho⟩ := Bool.and_eq_true_iff.mp hg
      refine ⟨delivers_of_delivered (sound_of_mem ?_) hd, of_decide_eq_true ho⟩
      simp only [readInTime, List.mem_cons, List.not_mem_nil, or_false] at ha ⊢
      tauto)
    (fun r => (r.1.attached, r.1.queued, r.1.running.isNone, (messages r.2).length)) (true, false, true, 2)
    (by decide +kernel)
  simp only [Prod.mk.injEq, Option.isNone_iff_eq_none] at hy
  obtain ⟨hatt, hq, hrun, hlen⟩ := hy
  exact ⟨s, es, hr, hatt, hq, hrun, hlen, no_receive_stall 4096 twoRequests_valid hr hatt hq hrun⟩

/-- Both records arrive before the work item runs, or before the attach. -/
def coalesced : List Act :=
  [.attach, .arrive firstRecord, .arrive secondRecord, .start, .read .ok, .finish]

def unreadAtAttach : List Act := [.arrive firstRecord, .arrive secondRecord, .attach]

/-- Two runs that end at rest with two complete requests waiting: in the first, the parser stops the reading
at the first record; in the second, nothing is ever read. -/
theorem receive_stall :
    (∃ s es, (machine 4096).Reach (fun s a => Delivers twoRequests s a ∧ a ∈ coalesced) s es ∧ ¬ NoStall s) ∧
    ∃ s es, (machine 4096).Reach (fun s a => Delivers twoRequests s a ∧ a ∈ unreadAtAttach) s es ∧
      ¬ NoStall s := by
  constructor
  · obtain ⟨s, es, hr, hy⟩ := Machine.Reach.of_exec (M := machine 4096)
      (G := fun s a => Delivers twoRequests s a ∧ a ∈ coalesced) (g := delivered twoRequests) coalesced
      (fun s a ha hd => ⟨delivers_of_delivered (sound_of_mem ha) hd, ha⟩)
      (fun r => decide (NoStall r.1)) false (by decide +kernel)
    exact ⟨s, es, hr, of_decide_eq_false hy⟩
  · obtain ⟨s, es, hr, hy⟩ := Machine.Reach.of_exec (M := machine 4096)
      (G := fun s a => Delivers twoRequests s a ∧ a ∈ unreadAtAttach) (g := delivered twoRequests)
      unreadAtAttach
      (by
        intro s a ha hd
        refine ⟨delivers_of_delivered (sound_of_mem ?_) hd, ha⟩
        simp only [unreadAtAttach, List.mem_cons, List.not_mem_nil, or_false] at ha ⊢
        tauto)
      (fun r => decide (NoStall r.1)) false (by decide +kernel)
    exact ⟨s, es, hr, of_decide_eq_false hy⟩

end Rakaia.Strp.Work
