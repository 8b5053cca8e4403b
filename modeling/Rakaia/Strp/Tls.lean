import Rakaia.Strp.Memcache

/-! # Memcache requests (tls)

The tls variant reads decrypted records.  Its copies of the parser and of the parse callback differ
from those of plain-tcp in two places: `strp_peek_len` always says that nothing is left in the
socket, and the callback returns `-EINVAL` when the header is not complete, where the other one returns
0 to wait for the rest.  `__strp_recv` treats a negative length as an error and stops the parser for
good.

So the two framings agree as long as no record ends inside a header (`Aligned`): then every call does
the same in both (`step_eq`).  The first record that does end inside a header stops the tls parser
(`step_stops`). -/

namespace Rakaia.Strp.Tls

open Lib Memcache

/-- `rakaia_parse_func_strparser` of tls: the result. -/
def rakaiaParseFunc (skb : SkBuff) (skbOffset : ℕ) : Int32 :=
  match skb.headerPointer skbOffset headerLen with
  | none => -22
  | some hdr =>
      let opcode := UInt8.ofNat (beAt hdr 1 1)
      let keyLen := UInt16.ofNat (beAt hdr 6 2)
      let extraLen := UInt8.ofNat (beAt hdr 8 1)
      let bodyLen := UInt32.ofNat (beAt hdr 12 4)
      let headerLen := UInt32.ofNat headerLen
      if opcode = cmdSet then (headerLen + bodyLen).toInt32
      else (headerLen + keyLen.toUInt32 + extraLen.toUInt32).toInt32

def parser : Parser Unit where
  parse stm skb := (stm, (rakaiaParseFunc skb stm.offset).toInt)
  accept stm len := { stm with fullLen := len.toNat }

/-- `strp_peek_len` of tls: nothing is left, whatever the socket holds. -/
def strpPeekLen : ℤ := 0

/-- A call in which `strp_peek_len` is that of tls. -/
def peekNothing (a : Act) : Act :=
  { a with oracle := { a.oracle with round := fun i => { a.oracle.round i with peekLen := strpPeekLen } } }

/-- `__strp_recv` of tls. -/
def step (rcvbuf : ℕ) (s : State Unit) (a : Act) : Option (State Unit × List (Event Unit)) :=
  Strp.step parser rcvbuf s (peekNothing a)

def machine (rcvbuf : ℕ) : Machine (State Unit) Act (Event Unit) := ⟨State.init, step rcvbuf⟩

/-- The first `n` bytes of the stream do not end inside the header of a message. -/
def ClearOfHeaders (ms : List (List UInt8)) (n : ℕ) : Prop := behind ms n = 0 ∨ headerLen ≤ behind ms n

instance (ms : List (List UInt8)) (n : ℕ) : Decidable (ClearOfHeaders ms n) :=
  inferInstanceAs (Decidable (_ ∨ _))

/-- What is presented does not end inside the header of a message. -/
def Aligned (msgs : List (List UInt8)) (s : State Unit) (a : Act) : Prop :=
  ClearOfHeaders msgs (s.copied + (a.skb.len - a.offset))

instance (msgs : List (List UInt8)) (s : State Unit) (a : Act) : Decidable (Aligned msgs s a) :=
  inferInstanceAs (Decidable (ClearOfHeaders _ _))

theorem peekNothing_succeeds {a : Act} (h : a.oracle.Succeeds) : (peekNothing a).oracle.Succeeds :=
  ⟨h.prepared, h.rounds⟩

/-! ### One round of the loop -/

/-- The callbacks agree on a complete header. -/
theorem rakaiaParseFunc_eq {skb : SkBuff} {offset : ℕ} (h : offset + headerLen ≤ skb.len) :
    rakaiaParseFunc skb offset = Memcache.rakaiaParseFunc skb offset := by
  unfold rakaiaParseFunc Memcache.rakaiaParseFunc SkBuff.headerPointer
  rw [if_pos h]

theorem rakaiaParseFunc_short {skb : SkBuff} {offset : ℕ} (h : ¬ offset + headerLen ≤ skb.len) :
    rakaiaParseFunc skb offset = -22 := by
  rw [rakaiaParseFunc, SkBuff.headerPointer, if_neg h]

section round

variable (rcvbuf : ℕ) {strp : Strparser Unit} {head : Head Unit} {orig : SkBuff} {m cur : List UInt8} {k : ℕ}

/-- Where the header ends, in terms of what the head holds. -/
theorem headerLen_le_iff (h : Joined framing (fun _ => ()) strp head orig m cur k) :
    head.stm.offset + headerLen ≤ head.skb.len ↔ headerLen ≤ cur.length := by
  have hle := h.offset_le
  rw [← h.bytes, List.length_drop, ← h.wf.len_eq]
  omega

theorem measure_eq (h : Joined framing (fun _ => ()) strp head orig m cur k)
    (hcur : headerLen ≤ cur.length) :
    measure parser rcvbuf head orig = measure Memcache.parser rcvbuf head orig := by
  have hparse : parser.parse head.stm head.skb = Memcache.parser.parse head.stm head.skb := by
    change (_, _) = (_, _)
    rw [rakaiaParseFunc_eq ((headerLen_le_iff h).mpr hcur)]
  unfold measure
  rw [hparse]
  rfl

theorem measure_short (h : Joined framing (fun _ => ()) strp head orig m cur k) (hk : k ≤ cur.length)
    (hcur : cur.length < headerLen) : measure parser rcvbuf head orig = .bad (-22) true false := by
  have hmeasured : head.stm.fullLen = 0 := by
    have hmeas := h.measured
    rwa [if_pos (show k < framing.hdr from hk.trans_lt hcur)] at hmeas
  have hparse : parser.parse head.stm head.skb = (head.stm, -22) := by
    change (_, _) = (_, _)
    rw [rakaiaParseFunc_short (by rw [headerLen_le_iff h]; exact not_le.mpr hcur)]
    rfl
  unfold measure
  rw [if_neg (by simp [hmeasured]), hparse]
  rfl

variable {rest : List (List UInt8)} {origOffset eaten : ℕ}

theorem round_eq (h : At framing (fun _ => ()) strp (m :: rest) k) (hkm : k < m.length) (hw : orig.Wf)
    (hlt : origOffset + eaten < orig.len)
    (hin : strp.skbHead.isSome → origOffset + eaten = 0 ∧ strp.skbNextp.isSome) (o : Round)
    (hhdr : headerLen ≤ k + (orig.len - origOffset - eaten)) :
    round parser rcvbuf orig origOffset (orig.len - origOffset) o strp eaten =
      round Memcache.parser rcvbuf orig origOffset (orig.len - origOffset) o strp eaten := by
  unfold round
  rcases join_spec h hw hlt.le hin o with ⟨err, hjoin, -⟩ | ⟨head, strp', hjoin, -, hj⟩
  · rw [hjoin]
  · have hcur : headerLen ≤ (m.take k ++ orig.bytes.drop (origOffset + eaten)).length := by
      rw [List.length_append, List.length_take, List.length_drop, ← hw.len_eq]
      omega
    simp only [hjoin, measure_eq rcvbuf hj hcur]

/-- An incomplete header stops the parser. -/
theorem round_stops (h : At framing (fun _ => ()) strp (m :: rest) k) (hkm : k < m.length) (hw : orig.Wf)
    (hlt : origOffset + eaten < orig.len)
    (hin : strp.skbHead.isSome → origOffset + eaten = 0 ∧ strp.skbNextp.isSome) {o : Round}
    (ho : (o.clone && o.unclone) = true) (hhdr : k + (orig.len - origOffset - eaten) < headerLen) :
    ∃ strp' e, round parser rcvbuf orig origOffset (orig.len - origOffset) o strp eaten =
      .leave strp' eaten e ∧ strp'.stopped = true := by
  obtain ⟨hclone, hunclone⟩ := Bool.and_eq_true_iff.mp ho
  unfold round
  rw [if_neg (by simp [hclone])]
  rcases join_spec h hw hlt.le hin o with ⟨err, -, hun⟩ | ⟨head, strp', hjoin, -, hj⟩
  · rw [hunclone] at hun
    cases hun
  · have hcur : (m.take k ++ orig.bytes.drop (origOffset + eaten)).length =
        k + (orig.len - origOffset - eaten) := by
      rw [List.length_append, List.length_take, List.length_drop, ← hw.len_eq]
      omega
    simp only [hjoin, measure_short rcvbuf hj (by omega) (hcur.trans_lt hhdr)]
    exact ⟨_, _, rfl, rfl⟩

end round

/-! ### One call -/

section call

variable {rcvbuf : SkRcvbuf} {orig : SkBuff} {origOffset : ℕ} {o : ℕ → Round}

/-- The loop does the same in both variants if the buffer does not end inside a header. -/
theorem loop_eq (fuel : ℕ) :
    ∀ {strp : Strparser Unit} {ms : List (List UInt8)} {k eaten : ℕ},
      Reading framing (fun _ => ()) rcvbuf orig origOffset strp ms k eaten →
      orig.len - origOffset ≤ eaten + fuel →
      ClearOfHeaders ms (k + (orig.len - origOffset - eaten)) →
      loop parser rcvbuf orig origOffset (orig.len - origOffset) o fuel strp eaten =
        loop Memcache.parser rcvbuf orig origOffset (orig.len - origOffset) o fuel strp eaten := by
  induction fuel with
  | zero =>
      intro strp ms k eaten hr hfuel _
      simp only [loop]
  | succ fuel ih =>
      intro strp ms k eaten hr hfuel hclear
      rw [loop, loop]
      by_cases hend : orig.len - origOffset ≤ eaten
      · rw [if_pos hend, if_pos hend]
      obtain ⟨m, rest, rfl, hkm, hm, hmax, hp⟩ := hr.current (not_le.mp hend)
      have hhdr : headerLen ≤ m.length := hm.header
      have hread : headerLen ≤ k + (orig.len - origOffset - eaten) := by
        by_cases hlack : k + (orig.len - origOffset - eaten) < m.length
        · rw [ClearOfHeaders, behind_of_lt hlack] at hclear
          omega
        · omega
      rw [if_neg hend, if_neg hend,
        round_eq rcvbuf hr.stored hkm hr.wf (by omega) hr.inProgress (o fuel) hread]
      rcases round_spec (follows rcvbuf) hr.stored hkm hm hmax hr.wf (by omega) hr.inProgress hp (o fuel)
        with ⟨e, hround, -⟩ | ⟨strp', e, hround, -⟩ | ⟨strp', e, hround, -, -, hhead, hle⟩
      · rw [hround]
      · rw [hround]
      · rw [ClearOfHeaders, behind_of_le (by omega), show k + (orig.len - origOffset - eaten) - m.length =
          0 + (orig.len - origOffset - (eaten + (m.length - k))) by omega] at hclear
        simp only [hround, ih (hr.again hkm hhead hle) (by omega) hclear]

/-- The loop stops the parser if the buffer ends inside a header and no kernel call fails. -/
theorem loop_stops (fuel : ℕ) (ho : ∀ i, ((o i).clone && (o i).unclone) = true) :
    ∀ {strp : Strparser Unit} {ms : List (List UInt8)} {k eaten : ℕ},
      Reading framing (fun _ => ()) rcvbuf orig origOffset strp ms k eaten →
      orig.len - origOffset ≤ eaten + fuel → eaten < orig.len - origOffset →
      ¬ ClearOfHeaders ms (k + (orig.len - origOffset - eaten)) →
      ∃ r, loop parser rcvbuf orig origOffset (orig.len - origOffset) o fuel strp eaten = some r ∧
        r.1.stopped = true := by
  induction fuel with
  | zero => intro strp ms k eaten hr hfuel hlt _; omega
  | succ fuel ih =>
      intro strp ms k eaten hr hfuel hlt hclear
      rw [loop, if_neg (not_le.mpr hlt)]
      obtain ⟨m, rest, rfl, hkm, hm, hmax, hp⟩ := hr.current hlt
      have hhdr : headerLen ≤ m.length := hm.header
      by_cases hlack : k + (orig.len - origOffset - eaten) < m.length
      · rw [ClearOfHeaders, behind_of_lt hlack] at hclear
        obtain ⟨strp', e, hround, hst⟩ := round_stops rcvbuf hr.stored hkm hr.wf (by omega)
          hr.inProgress (ho fuel) (by omega)
        rw [hround]
        exact ⟨_, rfl, hst⟩
      · rw [round_eq rcvbuf hr.stored hkm hr.wf (by omega) hr.inProgress (o fuel) (by omega)]
        rcases round_spec (follows rcvbuf) hr.stored hkm hm hmax hr.wf (by omega) hr.inProgress hp (o fuel)
          with ⟨e, -, -, hfail⟩ | ⟨strp', e, -, -, -, hat⟩ | ⟨strp', e, hround, -, -, hhead, hle⟩
        · rw [ho fuel] at hfail
          cases hfail
        · exact absurd (hat.lt hr.valid rfl) hlack
        · rw [ClearOfHeaders, behind_of_le (by omega), show k + (orig.len - origOffset - eaten) - m.length =
            0 + (orig.len - origOffset - (eaten + (m.length - k))) by omega] at hclear
          have hmore : eaten + (m.length - k) < orig.len - origOffset := by
            by_contra hfull
            have hle0 := behind_le rest (0 + (orig.len - origOffset - (eaten + (m.length - k))))
            exact hclear (.inl (by omega))
          obtain ⟨r, hloop, hst⟩ := ih (hr.again hkm hhead hle) (by omega) hmore hclear
          simp only [hround, hloop, Option.map_some]
          exact ⟨_, rfl, hst⟩

end call

section step

variable {rcvbuf : SkRcvbuf} {s : State Unit} {ms : List (List UInt8)} {k : ℕ} {a : Act}

/-- A call that is presented what does not end inside a header does the same in both variants. -/
theorem step_eq (hat : At framing (fun _ => ()) s.strp ms k) (hv : Valid framing rcvbuf ms)
    (hw : a.skb.Wf) (ho : a.offset ≤ a.skb.len) (hp : a.skb.bytes.drop a.offset <+: ms.flatten.drop k)
    (hclear : ClearOfHeaders ms (k + (a.skb.len - a.offset))) :
    Strp.step parser rcvbuf s a = Strp.step Memcache.parser rcvbuf s a := by
  obtain ⟨strp', r, e, hprep, hat', -, -, -, hready⟩ := prepare_spec hat hw ho a.oracle
  unfold Strp.step strpRecv
  rw [hprep]
  cases r with
  | none => rfl
  | some src =>
      obtain ⟨orig, offset⟩ := src
      have hr := hready orig offset rfl
      have hloop := loop_eq (o := a.oracle.round) (orig.len - offset) (hr.reading hat' hv hp)
        (by omega) (by rw [Nat.sub_zero, hr.len]; exact hclear)
      rw [hr.len] at hloop
      simp only [hloop]

/-- A call that is presented what ends inside a header stops the parser. -/
theorem step_stops (hat : At framing (fun _ => ()) s.strp ms k) (hv : Valid framing rcvbuf ms)
    (hw : a.skb.Wf) (ho : a.offset ≤ a.skb.len) (hp : a.skb.bytes.drop a.offset <+: ms.flatten.drop k)
    (hlt : a.offset < a.skb.len) (hs : a.oracle.Succeeds)
    (hclear : ¬ ClearOfHeaders ms (k + (a.skb.len - a.offset))) :
    ∃ s' e, Strp.step parser rcvbuf s a = some (s', e) ∧ s'.strp.stopped = true := by
  obtain ⟨strp', r, e, hprep, hat', -, -, hfail, hready⟩ := prepare_spec hat hw ho a.oracle
  unfold Strp.step strpRecv
  rw [hprep]
  cases r with
  | none =>
      rw [hs.prepared] at hfail
      cases hfail rfl
  | some src =>
      obtain ⟨orig, offset⟩ := src
      have hr := hready orig offset rfl
      have hlen := hr.len
      obtain ⟨r, hloop, hst⟩ := loop_stops (orig.len - offset) hs.rounds
        (hr.reading hat' hv hp) (by omega) (by omega) (by rw [Nat.sub_zero, hlen]; exact hclear)
      rw [hlen] at hloop
      simp only [hloop, Option.map_some]
      exact ⟨_, _, rfl, hst⟩

end step

/-! ### Whole runs -/

section runs

variable {rcvbuf : SkRcvbuf} {msgs : List (List UInt8)} {s : State Unit} {es : List (Event Unit)}

/-- In a run of the plain-tcp parser, a call of the tls parser does the same or stops it. -/
theorem step_of_plain (hv : Valid framing rcvbuf msgs)
    (h : (Strp.machine Memcache.parser rcvbuf).Reach (Presents msgs) s es) {a : Act}
    (ha : Presents msgs s a) :
    (Aligned msgs s a → step rcvbuf s a = Strp.step Memcache.parser rcvbuf s (peekNothing a)) ∧
    (a.offset < a.skb.len → a.oracle.Succeeds → ¬ Aligned msgs s a →
      ∃ s' e, step rcvbuf s a = some (s', e) ∧ s'.strp.stopped = true) := by
  obtain ⟨ms, k, hat, hadv, -⟩ := at_of_reach (follows rcvbuf) hv h
  have hv' := hadv.valid hv
  have hp : a.skb.bytes.drop a.offset <+: ms.flatten.drop k := by
    rw [hadv.drop_eq, Nat.zero_add]
    exact ha.bytes
  have hclear : Aligned msgs s a ↔ ClearOfHeaders ms (k + (a.skb.len - a.offset)) := by
    obtain ⟨done, rfl, -, hn⟩ := hadv
    rw [Aligned, ClearOfHeaders, ← Nat.zero_add s.copied, ← hn, Nat.add_assoc, behind_append,
      ClearOfHeaders]
  rw [hclear]
  exact ⟨step_eq (a := peekNothing a) hat hv' ha.wf ha.offset_le hp,
    fun hlt hs => step_stops (a := peekNothing a) hat hv' ha.wf ha.offset_le hp hlt (peekNothing_succeeds hs)⟩

/-- A run of the tls parser in which no record ends inside a header is one of the plain-tcp parser. -/
theorem plain_of_reach (hv : Valid framing rcvbuf msgs)
    (h : (machine rcvbuf).Reach (fun s a => Presents msgs s a ∧ Aligned msgs s a) s es) :
    (Strp.machine Memcache.parser rcvbuf).Reach (Presents msgs) s es := by
  induction h with
  | init => exact .init
  | @step s s' a es e _ hg hs ih =>
      have heq := (step_of_plain hv ih hg.1).1 hg.2
      exact ih.step (a := peekNothing a) ⟨hg.1.wf, hg.1.offset_le, hg.1.bytes⟩ (heq.symm.trans hs)

end runs

/-- **Agreement of the tls and plain-tcp framings.**  In every run of the tls parser in which no record
ends inside a header, the parser is not stopped, and has handed on what every run of the plain-tcp
parser has that consumed as much of the stream.  The condition is exact: a record that ends inside a
header stops the parser. -/
theorem framings_agree (rcvbuf : SkRcvbuf) {msgs : List (List UInt8)} (hv : Valid framing rcvbuf msgs)
    {s : State Unit} {es : List (Event Unit)}
    (h : (machine rcvbuf).Reach (fun s a => Presents msgs s a ∧ Aligned msgs s a) s es) :
    s.strp.stopped = false ∧ (messages es).map Head.message = wholeIn msgs s.copied ∧
    (∀ s' es', (Strp.machine Memcache.parser rcvbuf).Reach (Presents msgs) s' es' →
      s'.copied = s.copied → (messages es').map Head.message = (messages es).map Head.message) ∧
    ∀ a, Presents msgs s a → a.offset < a.skb.len → a.oracle.Succeeds →
      ∃ s' e, step rcvbuf s a = some (s', e) ∧ (s'.strp.stopped = false ↔ Aligned msgs s a) ∧
        (Aligned msgs s a → s'.copied = s.copied + (a.skb.len - a.offset)) := by
  have hplain := plain_of_reach hv h
  have hmsgs := messages_of_reach rcvbuf hv hplain
  obtain ⟨-, -, -, -, hst⟩ := at_of_reach (follows rcvbuf) hv hplain
  refine ⟨hst, hmsgs, ?_, ?_⟩
  · intro s' es' h' hcopied
    rw [messages_of_reach rcvbuf hv h', hmsgs, hcopied]
  · intro a ha hlt hs
    by_cases hal : Aligned msgs s a
    · obtain ⟨s', e, hstep, hcopied⟩ := step_of_reach (follows rcvbuf) hv hplain
        (a := peekNothing a) ⟨ha.wf, ha.offset_le, ha.bytes⟩
      have htls := ((step_of_plain hv hplain ha).1 hal).trans hstep
      obtain ⟨-, -, -, -, hst'⟩ := at_of_reach (follows rcvbuf) hv
        (plain_of_reach hv (h.step ⟨ha, hal⟩ htls))
      exact ⟨s', e, htls, by simp [hst', hal], fun _ => hcopied (peekNothing_succeeds hs)⟩
    · obtain ⟨s', e, htls, hst'⟩ := (step_of_plain hv hplain ha).2 hlt hs hal
      exact ⟨s', e, htls, by simp [hst', hal], fun hal' => absurd hal' hal⟩

/-- A record that ends in the key of the first request, one that ends with it, and the second request. -/
def alignedRecords : List Act :=
  let bs := twoRequests.flatten
  [⟨bufferOf (99 :: bs.take 4) ((bs.drop 4).take 24), 1, .ok⟩, ⟨bufferOf ((bs.drop 28).take 1) [], 0, .ok⟩,
    ⟨bufferOf (bs.drop 29) [], 0, .ok⟩]

theorem framings_agree_aligned : ∃ s es,
    (machine 4096).Reach (fun s a => Presents twoRequests s a ∧ Aligned twoRequests s a) s es ∧
    s.strp.stopped = false ∧ (messages es).map Head.message = twoRequests := by
  have hwf : ∀ a ∈ alignedRecords, a.skb.Wf ∧ a.offset ≤ a.skb.len := by
    intro a ha
    simp only [alignedRecords, List.mem_cons, List.not_mem_nil, or_false] at ha
    rcases ha with rfl | rfl | rfl <;> exact ⟨wf_bufferOf .., by decide⟩
  obtain ⟨s, es, hr, hy⟩ := Machine.Reach.of_exec (M := machine 4096)
    (G := fun s a => Presents twoRequests s a ∧ Aligned twoRequests s a)
    (g := fun s a => presented twoRequests s a && decide (Aligned twoRequests s a)) alignedRecords
    (by
      intro s a ha hg
      obtain ⟨hp, hal⟩ := Bool.and_eq_true_iff.mp hg
      exact ⟨presents_of_presented (hwf a ha) hp, of_decide_eq_true hal⟩)
    (fun r => r.1.copied) 59 (by decide +kernel)
  obtain ⟨hst, hd, -, -⟩ := framings_agree 4096 twoRequests_valid hr
  refine ⟨s, es, hr, hst, hd.trans ?_⟩
  rw [show s.copied = 59 from hy]
  decide

/-- The first ten bytes of a header, and the rest of the stream. -/
def splitHeader : List Act :=
  let bs := twoRequests.flatten
  [⟨bufferOf (bs.take 10) [], 0, .ok⟩, ⟨bufferOf (bs.drop 10) [], 0, .ok⟩]

/-- A header in two records: the tls parser is stopped by the first record and has handed on nothing,
the plain-tcp parser hands on both requests. -/
theorem framings_differ :
    (∃ s es, (machine 4096).Reach (fun s a => Presents twoRequests s a ∧ a ∈ splitHeader) s es ∧
      s.strp.stopped = true ∧ messages es = []) ∧
    ∃ s es, (Strp.machine Memcache.parser 4096).Reach
      (fun s a => Presents twoRequests s a ∧ a ∈ splitHeader) s es ∧
      s.strp.stopped = false ∧ (messages es).map Head.message = twoRequests := by
  have hwf : ∀ a ∈ splitHeader, a.skb.Wf ∧ a.offset ≤ a.skb.len := by
    intro a ha
    simp only [splitHeader, List.mem_cons, List.not_mem_nil, or_false] at ha
    rcases ha with rfl | rfl <;> exact ⟨wf_bufferOf .., by decide⟩
  constructor
  · obtain ⟨s, es, hr, hy⟩ := Machine.Reach.of_exec (M := machine 4096)
      (G := fun s a => Presents twoRequests s a ∧ a ∈ splitHeader) (g := presented twoRequests)
      (splitHeader.take 1)
      (fun s a ha hp => ⟨presents_of_presented (hwf a (List.mem_of_mem_take ha)) hp, List.mem_of_mem_take ha⟩)
      (fun r => (r.1.strp.stopped, (messages r.2).length)) (true, 0) (by decide +kernel)
    obtain ⟨hst, hmsgs⟩ := Prod.mk.inj hy
    exact ⟨s, es, hr, hst, List.eq_nil_of_length_eq_zero hmsgs⟩
  · obtain ⟨s, es, hr, hy⟩ := reach_of_exec Memcache.parser 4096 twoRequests splitHeader hwf
      (fun r => (r.1.strp.stopped, (messages r.2).map Head.message)) (false, twoRequests) (by decide +kernel)
    obtain ⟨hst, hmsgs⟩ := Prod.mk.inj hy
    exact ⟨s, es, hr, hst, hmsgs⟩

end Rakaia.Strp.Tls
