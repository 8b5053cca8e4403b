import Mathlib.Tactic.Linarith
import Rakaia.Lib.Framing
import Rakaia.Strp.Recv

/-! # Segmentation independence

TCP may present a stream of messages in buffers of any sizes and layouts, starting at any offset, and
present again what was not consumed.  Whatever it does, and whichever kernel calls fail, the parser
has handed on the messages that lie in the consumed bytes as a whole, in order and unchanged
(`delivered_of_reach`).

The argument is about a parser that follows a framing rule (`Follows`).  `Buffered` says what the
parser has stored of a message in progress; each part of `__strp_recv` is described by one lemma
(`prepare_spec`, `join_spec`, `measure_spec`, `round_spec`, `loop_spec`). -/

namespace Rakaia.Strp

open Lib

variable {τ : Type} {P : Parser τ} {maxMsgSize : ℕ} {F : Framing UInt8}
  {ext : List UInt8 → τ}

/-- The parser finds the length by a framing rule, and reads `ext` from the header. -/
structure Follows (P : Parser τ) (maxMsgSize : ℕ) (F : Framing UInt8) (ext : List UInt8 → τ) : Prop where
  ext_take : ∀ l, ext (l.take F.hdr) = ext l
  short : ∀ (stm : Stm τ) (skb : SkBuff), skb.Wf → stm.offset ≤ skb.len →
    (skb.bytes.drop stm.offset).length < F.hdr → P.parse stm skb = (stm, 0)
  full : ∀ (stm : Stm τ) (skb : SkBuff), skb.Wf → stm.offset ≤ skb.len →
    F.hdr ≤ (skb.bytes.drop stm.offset).length → F.len (skb.bytes.drop stm.offset) ≤ maxMsgSize →
    ∃ stm', P.parse stm skb = (stm', (F.len (skb.bytes.drop stm.offset) : ℤ)) ∧
      stm'.offset = stm.offset ∧
      P.accept stm' (F.len (skb.bytes.drop stm.offset)) =
        { stm with fullLen := F.len (skb.bytes.drop stm.offset), ext := ext (skb.bytes.drop stm.offset) }

/-- The head holds `cur`, the first bytes of the message `m` and perhaps more; `k` of them were there
before the last buffer joined. -/
structure Holds (F : Framing UInt8) (ext : List UInt8 → τ) (head : Head τ) (m cur : List UInt8) (k : ℕ) :
    Prop where
  wf : head.skb.Wf
  offset_le : head.stm.offset ≤ head.skb.len
  bytes : head.skb.bytes.drop head.stm.offset = cur
  accum : head.stm.accumLen = k
  measured : if k < F.hdr then head.stm.fullLen = 0
    else head.stm.fullLen = m.length ∧ head.stm.ext = ext m

/-- A message in progress: `k` bytes of `m` are stored. -/
structure Buffered (F : Framing UInt8) (ext : List UInt8 → τ) (strp : Strparser τ) (head : Head τ)
    (m : List UInt8) (k : ℕ) : Prop extends Holds F ext head m (m.take k) k where
  pos : 0 < k
  lt : k < m.length
  slot : ∀ slot, strp.skbNextp = some slot → head.skb.fragList.length ≤ slot

/-- The messages `ms` are still to come, and `k` bytes of the first of them are stored. -/
def At (F : Framing UInt8) (ext : List UInt8 → τ) (strp : Strparser τ) (ms : List (List UInt8)) (k : ℕ) :
    Prop :=
  match strp.skbHead with
  | none => k = 0
  | some head => ∃ m rest, ms = m :: rest ∧ Buffered F ext strp head m k

/-- The messages handed on in a history, with what the parser says about them. -/
def digest (head : Head τ) : List UInt8 × ℕ × τ := (head.message, head.stm.fullLen, head.stm.ext)

def Event.message? : Event τ → Option (Head τ)
  | .message head => some head
  | _ => none

def messages (es : List (Event τ)) : List (Head τ) := es.filterMap Event.message?

/-- What the parser should say about a message. -/
def expected (ext : List UInt8 → τ) (m : List UInt8) : List UInt8 × ℕ × τ := (m, m.length, ext m)

theorem messages_append (es es' : List (Event τ)) : messages (es ++ es') = messages es ++ messages es' :=
  List.filterMap_append

theorem messages_warnOn (b : Bool) : messages (warnOn b : List (Event τ)) = [] := by
  cases b <;> rfl

/-- A stream of messages that the parser accepts. -/
def Valid (F : Framing UInt8) (maxMsgSize : ℕ) (ms : List (List UInt8)) : Prop :=
  ∀ m ∈ ms, F.Message m ∧ m.length ≤ maxMsgSize

/-- The message in progress is not complete. -/
theorem At.lt {strp : Strparser τ} {ms : List (List UInt8)} {k : ℕ} (h : At F ext strp ms k)
    (hv : Valid F maxMsgSize ms) {m : List UInt8} (hm : m ∈ ms.head?) : k < m.length := by
  obtain ⟨rest, rfl⟩ : ∃ rest, ms = m :: rest := by
    cases ms with
    | nil => cases hm
    | cons m' rest => exact ⟨rest, by rw [Option.some.inj hm]⟩
  unfold At at h
  split at h
  · rw [h]
    exact (hv m List.mem_cons_self).1.length_pos
  · obtain ⟨m', rest', hcons, hb⟩ := h
    obtain ⟨rfl, rfl⟩ := List.cons.inj hcons
    exact hb.lt

/-- When more bytes of the stream come, there is a message they continue. -/
theorem At.current {strp : Strparser τ} {ms : List (List UInt8)} {k : ℕ} (h : At F ext strp ms k)
    (hv : Valid F maxMsgSize ms) {bs : List UInt8} (hne : bs ≠ []) (hp : bs <+: ms.flatten.drop k) :
    ∃ m rest, ms = m :: rest ∧ k < m.length ∧ m.take k ++ bs <+: m ++ rest.flatten := by
  cases ms with
  | nil => exact absurd (List.prefix_nil.mp (by simpa using hp)) hne
  | cons m rest =>
      have hlt := h.lt hv (m := m) rfl
      refine ⟨m, rest, rfl, hlt, ?_⟩
      have hsplit : m ++ rest.flatten = m.take k ++ (m :: rest).flatten.drop k := by
        rw [List.flatten_cons, List.drop_append_of_le_length hlt.le, ← List.append_assoc,
          List.take_append_drop]
      rw [hsplit]
      exact (List.prefix_append_right_inj _).mpr hp

/-! ### Positions in the stream -/

/-- From byte `k` of the messages `ms` to byte `k'` of the messages `ms'`, over `n` bytes of the
stream; the messages between are those handed on in `e`. -/
def Advances (ext : List UInt8 → τ) (ms : List (List UInt8)) (k : ℕ) (ms' : List (List UInt8)) (k' n : ℕ)
    (e : List (Event τ)) : Prop :=
  ∃ done, ms = done ++ ms' ∧ (messages e).map digest = done.map (expected ext) ∧
    done.flatten.length + k' = k + n

theorem Advances.store {e : List (Event τ)} (he : messages e = []) (ms : List (List UInt8)) (k n : ℕ) :
    Advances ext ms k ms (k + n) n e :=
  ⟨[], rfl, by simp [he], by simp⟩

theorem Advances.complete {e : List (Event τ)} {m : List UInt8} {k : ℕ}
    (he : (messages e).map digest = [expected ext m]) (hk : k ≤ m.length) (rest : List (List UInt8)) :
    Advances ext (m :: rest) k rest 0 (m.length - k) e :=
  ⟨[m], rfl, he, by simp; omega⟩

theorem Advances.trans {ms ms' ms'' : List (List UInt8)} {k k' k'' n n' : ℕ} {e e' : List (Event τ)}
    (h : Advances ext ms k ms' k' n e) (h' : Advances ext ms' k' ms'' k'' n' e') :
    Advances ext ms k ms'' k'' (n + n') (e ++ e') := by
  obtain ⟨done, rfl, he, hn⟩ := h
  obtain ⟨done', rfl, he', hn'⟩ := h'
  refine ⟨done ++ done', by simp, by simp [messages_append, he, he'], ?_⟩
  rw [List.flatten_append, List.length_append]
  omega

/-- What follows in the stream. -/
theorem Advances.drop_eq {ms ms' : List (List UInt8)} {k k' n : ℕ} {e : List (Event τ)}
    (h : Advances ext ms k ms' k' n e) : ms'.flatten.drop k' = ms.flatten.drop (k + n) := by
  obtain ⟨done, rfl, -, hn⟩ := h
  rw [← hn, List.flatten_append, List.drop_length_add_append]

theorem Advances.valid {ms ms' : List (List UInt8)} {k k' n : ℕ} {e : List (Event τ)}
    (h : Advances ext ms k ms' k' n e) (hv : Valid F maxMsgSize ms) : Valid F maxMsgSize ms' := by
  obtain ⟨done, rfl, -, -⟩ := h
  exact fun m hm => hv m (List.mem_append_right _ hm)

/-- From the start of a stream, the messages handed on are those that lie in the consumed bytes. -/
theorem Advances.digests {strp : Strparser τ} {msgs ms : List (List UInt8)} {k n : ℕ} {e : List (Event τ)}
    (h : Advances ext msgs 0 ms k n e) (hat : At F ext strp ms k) (hv : Valid F maxMsgSize msgs) :
    (messages e).map digest = (wholeIn msgs n).map (expected ext) := by
  have hv' := h.valid hv
  obtain ⟨done, rfl, he, hn⟩ := h
  rw [he, ← Nat.zero_add n, ← hn, wholeIn_append, wholeIn_eq_nil_iff.mpr (fun m hm => hat.lt hv' hm),
    List.append_nil]

/-! ### Before the loop -/

/-- A new head in front of the old one holds the same bytes. -/
theorem Buffered.rehead {strp : Strparser τ} {head : Head τ} {m : List UInt8} {k : ℕ}
    (h : Buffered F ext strp head m k) :
    Buffered F ext { strp with skbHead := some { head with skb := SkBuff.allocSkbForMsg head.skb }
                               skbNextp := some 1 }
      { head with skb := SkBuff.allocSkbForMsg head.skb } m k where
  wf := (SkBuff.wf_allocSkbForMsg h.wf).1
  offset_le := h.offset_le
  bytes := by rw [(SkBuff.wf_allocSkbForMsg h.wf).2]; exact h.bytes
  accum := h.accum
  measured := h.measured
  pos := h.pos
  lt := h.lt
  slot := by
    intro slot hs
    obtain rfl := Option.some.inj hs
    rfl

/-- What is prepared for the loop: bytes to read that are those presented, and a slot to append to
if a message is in progress. -/
structure Ready (strp : Strparser τ) (orig orig' : SkBuff) (offset offset' : ℕ) : Prop where
  wf : orig'.Wf
  le : offset' ≤ orig'.len
  bytes : orig'.bytes.drop offset' = orig.bytes.drop offset
  len : orig'.len - offset' = orig.len - offset
  inProgress : strp.skbHead.isSome → offset' = 0 ∧ strp.skbNextp.isSome

/-- The source of the loop when a message is in progress: what is skipped is pulled off a clone. -/
theorem source_spec {orig : SkBuff} {offset : ℕ} (hw : orig.Wf) (ho : offset ≤ orig.len) :
    let src := if offset ≠ 0 then (orig.pull offset, 0) else (orig, 0)
    src.1.Wf ∧ src.2 = 0 ∧ src.1.bytes = orig.bytes.drop offset ∧ src.1.len = orig.len - offset := by
  dsimp only
  split_ifs with h0
  · obtain ⟨hwf, hbytes⟩ := hw.pull ho
    refine ⟨hwf, rfl, hbytes, ?_⟩
    rw [hwf.len_eq, hbytes, List.length_drop, ← hw.len_eq]
  · have h0 : offset = 0 := by simpa using h0
    subst h0
    exact ⟨hw, rfl, rfl, rfl⟩

theorem prepare_spec {strp : Strparser τ} {ms : List (List UInt8)} {k : ℕ} (h : At F ext strp ms k)
    {orig : SkBuff} {offset : ℕ} (hw : orig.Wf) (ho : offset ≤ orig.len) (o : Oracle) :
    ∃ strp' r e, prepare strp orig offset o = (strp', r, e) ∧ At F ext strp' ms k ∧ messages e = [] ∧
      strp'.stopped = strp.stopped ∧
      (r = none → (o.cloneOrig && o.pull && o.uncloneHead && o.allocHead) = false) ∧
      ∀ orig' offset', r = some (orig', offset') → Ready strp' orig orig' offset offset' := by
  have hat := h
  unfold prepare
  cases hh : strp.skbHead with
  | none =>
      refine ⟨strp, _, [], rfl, h, rfl, rfl, by simp, ?_⟩
      intro orig' offset' hr
      obtain ⟨rfl, rfl⟩ := Prod.mk.inj (Option.some.inj hr)
      exact ⟨hw, ho, rfl, rfl, by simp [hh]⟩
  | some head =>
      rw [At, hh] at h
      obtain ⟨m, rest, rfl, hb⟩ := h
      obtain ⟨hswf, hs0, hsbytes, hslen⟩ := source_spec hw ho
      dsimp only
      generalize (if offset ≠ 0 then (orig.pull offset, 0) else (orig, 0)) = src at *
      have hready : ∀ strp' : Strparser τ, strp'.skbNextp.isSome = true →
          ∀ orig' offset', some src = some (orig', offset') → Ready strp' orig orig' offset offset' := by
        intro strp' hn orig' offset' hr
        obtain ⟨rfl, rfl⟩ := Prod.mk.inj (Option.some.inj hr)
        exact ⟨hswf, by rw [hs0]; exact Nat.zero_le _, by rw [hs0]; exact hsbytes,
          by rw [hs0]; exact hslen, fun _ => ⟨hs0, hn⟩⟩
      by_cases hfail : offset ≠ 0 ∧ (o.cloneOrig && o.pull) = false
      · rw [if_pos hfail]
        exact ⟨strp, none, _, rfl, hat, rfl, rfl, by simp [hfail.2], by simp⟩
      rw [if_neg hfail]
      cases hn : strp.skbNextp with
      | some slot => exact ⟨strp, _, [], rfl, hat, rfl, rfl, by simp, hready strp (by simp [hn])⟩
      | none =>
          dsimp only
          split_ifs with hun hfrag halloc
          · exact ⟨strp, none, _, rfl, hat, rfl, rfl, by simp [hun], by simp⟩
          · refine ⟨_, _, [], rfl, ?_, rfl, rfl, by simp, hready _ rfl⟩
            rw [List.isEmpty_iff] at hfrag
            exact ⟨m, rest, rfl, hb.toHolds, hb.pos, hb.lt, by simp [hfrag]⟩
          · exact ⟨strp, none, _, rfl, hat, rfl, rfl, by simp [halloc], by simp⟩
          · exact ⟨_, _, [], rfl, ⟨m, rest, rfl, hb.rehead⟩, rfl, rfl, by simp, hready _ rfl⟩

/-! ### One round of the loop -/

/-- The head after a buffer joined it.  The length must lie behind what was there before, which is
what the last check of the source asks for. -/
structure Joined (F : Framing UInt8) (ext : List UInt8 → τ) (strp : Strparser τ) (head : Head τ)
    (orig : SkBuff) (m cur : List UInt8) (k : ℕ) : Prop extends Holds F ext head m cur k where
  slot : ∀ slot, strp.skbNextp = some slot → head.skb.fragList.length ≤ slot
  before : (head.skb.len : ℤ) - orig.len - head.stm.offset ≤ k

/-- The length is found as soon as the header is there, whatever follows it. -/
theorem measure_spec (hF : Follows P maxMsgSize F ext) {strp : Strparser τ} {head : Head τ}
    {orig : SkBuff} {m cur rest : List UInt8} {k : ℕ} (h : Joined F ext strp head orig m cur k)
    (hm : F.Message m) (hmax : m.length ≤ maxMsgSize) (hp : cur <+: m ++ rest) (hk : k ≤ cur.length)
    (hkm : k < m.length) :
    measure P maxMsgSize head orig =
      if cur.length < F.hdr then .needHeader head.stm
      else .known { head.stm with fullLen := m.length, ext := ext m } := by
  have hpos := hm.length_pos
  have hmeasured := h.measured
  unfold measure
  by_cases hhdr : k < F.hdr
  · rw [if_pos hhdr] at hmeasured
    rw [if_neg (by simp [hmeasured])]
    by_cases hcur : cur.length < F.hdr
    · rw [if_pos hcur, hF.short head.stm head.skb h.wf h.offset_le (by rw [h.bytes]; exact hcur)]
      rfl
    · have hlen := hm.len_eq_of_hdr hp (not_lt.mp hcur)
      have hext : ext cur = ext m := by
        rw [← hF.ext_take cur, hm.take_hdr hp (not_lt.mp hcur), hF.ext_take]
      obtain ⟨stm', hparse, hoff, haccept⟩ := hF.full head.stm head.skb h.wf h.offset_le
        (by rw [h.bytes]; exact not_lt.mp hcur) (by rw [h.bytes, hlen]; exact hmax)
      rw [h.bytes, hlen] at hparse haccept
      rw [hext] at haccept
      have hbefore := h.before
      simp only [hparse, hoff, if_neg hcur]
      rw [if_neg (by omega), if_neg (by omega), if_neg (by omega), if_neg (by omega), haccept]
  · rw [if_neg hhdr] at hmeasured
    rw [if_pos (by omega), if_neg (by omega), ← hmeasured.1, ← hmeasured.2]

/-- What is stored when the message is not complete. -/
theorem Joined.at_stored {strp strp' : Strparser τ} {head : Head τ} {orig : SkBuff} {m cur : List UInt8}
    {rest : List (List UInt8)} {k : ℕ} (h : Joined F ext strp head orig m cur k)
    (hp : cur <+: m ++ rest.flatten) (hpos : 0 < cur.length) (hlt : cur.length < m.length) {stm : Stm τ}
    (hhead : strp'.skbHead = some { head with stm }) (hnext : strp'.skbNextp = strp.skbNextp)
    (hoff : stm.offset = head.stm.offset) (hacc : stm.accumLen = cur.length)
    (hmeas : if cur.length < F.hdr then stm.fullLen = 0 else stm.fullLen = m.length ∧ stm.ext = ext m) :
    At F ext strp' (m :: rest) cur.length := by
  have htake : m.take cur.length = cur := by
    rw [← List.take_append_of_le_length hlt.le]
    exact (List.prefix_iff_eq_take.mp hp).symm
  rw [At, hhead]
  refine ⟨m, rest, rfl, ⟨h.wf, ?_, ?_, hacc, hmeas⟩, hpos, hlt, ?_⟩
  · rw [hoff]
    exact h.offset_le
  · rw [hoff, h.bytes, htake]
  · rw [hnext]
    exact h.slot

/-- What is handed on when the message is complete. -/
theorem Joined.digest_eq {strp : Strparser τ} {head : Head τ} {orig : SkBuff} {m cur rest : List UInt8}
    {k : ℕ} (h : Joined F ext strp head orig m cur k) (hp : cur <+: m ++ rest)
    (hle : m.length ≤ cur.length) :
    digest { head with stm := { head.stm with fullLen := m.length, ext := ext m } } = expected ext m := by
  have hcur : cur.take m.length = m := by
    rw [List.prefix_iff_eq_take.mp hp, List.take_take, min_eq_left hle, List.take_left]
  simp [digest, expected, Head.message, h.bytes, hcur]

variable [Inhabited τ]

theorem join_spec {strp : Strparser τ} {m : List UInt8} {rest : List (List UInt8)} {k : ℕ}
    (h : At F ext strp (m :: rest) k) {orig : SkBuff} {start : ℕ} (hw : orig.Wf) (hs : start ≤ orig.len)
    (hin : strp.skbHead.isSome → start = 0 ∧ strp.skbNextp.isSome) (o : Round) :
    (∃ err, join strp orig start o = .error (.error err) ∧ o.unclone = false) ∨
    ∃ head strp', join strp orig start o = .ok (head, strp') ∧ strp'.stopped = strp.stopped ∧
      Joined F ext strp' head orig m (m.take k ++ orig.bytes.drop start) k := by
  unfold join
  cases hh : strp.skbHead with
  | none =>
      rw [At, hh] at h
      subst h
      refine .inr ⟨_, _, rfl, rfl, ⟨hw, hs, rfl, rfl, ?_⟩, ?_, ?_⟩
      · rw [if_pos F.hdr_pos]
      · intro slot hslot
        cases hslot
      · simp only [sub_self]
        omega
  | some head =>
      rw [At, hh] at h
      obtain ⟨m', rest', hcons, hb⟩ := h
      obtain ⟨rfl, rfl⟩ := List.cons.inj hcons
      obtain ⟨rfl, hnext⟩ := hin (by simp [hh])
      obtain ⟨slot, hslot⟩ := Option.isSome_iff_exists.mp hnext
      simp only [hslot]
      split_ifs with hun
      · exact .inl ⟨_, rfl, hun.2⟩
      · obtain ⟨hwf, hbytes, hlen⟩ := SkBuff.wf_appendFrag hb.wf hw (hb.slot slot hslot)
        have hle : head.stm.offset ≤ head.skb.bytes.length := by
          rw [← hb.wf.len_eq]
          exact hb.offset_le
        refine .inr ⟨_, _, rfl, rfl, ⟨hwf, ?_, ?_, hb.accum, hb.measured⟩, ?_, ?_⟩
        · rw [hwf.len_eq, hbytes, List.length_append]
          exact le_trans hle (Nat.le_add_right _ _)
        · rw [hbytes, List.drop_append_of_le_length hle, hb.bytes, List.drop_zero]
        · intro slot' hslot'
          obtain rfl := Option.some.inj hslot'
          rw [hlen]
          exact Nat.succ_le_succ (hb.slot slot hslot)
        · have hk := congrArg List.length hb.bytes
          have hlt := hb.lt
          rw [List.length_drop, List.length_take] at hk
          simp only [hwf.len_eq, hbytes, List.length_append, hw.len_eq]
          omega

/-- A round fails without effect, stores the rest of the bytes, or completes the message in
progress. -/
theorem round_spec (hF : Follows P maxMsgSize F ext) {strp : Strparser τ} {m : List UInt8}
    {rest : List (List UInt8)} {k : ℕ} (h : At F ext strp (m :: rest) k) (hkm : k < m.length)
    (hm : F.Message m) (hmax : m.length ≤ maxMsgSize) {orig : SkBuff} {origOffset eaten : ℕ}
    (hw : orig.Wf) (hlt : origOffset + eaten < orig.len)
    (hin : strp.skbHead.isSome → origOffset + eaten = 0 ∧ strp.skbNextp.isSome)
    (hp : m.take k ++ orig.bytes.drop (origOffset + eaten) <+: m ++ rest.flatten) (o : Round) :
    (∃ e, round P maxMsgSize orig origOffset (orig.len - origOffset) o strp eaten = .leave strp eaten e ∧
      messages e = [] ∧ (o.clone && o.unclone) = false) ∨
    (∃ strp' e, round P maxMsgSize orig origOffset (orig.len - origOffset) o strp eaten =
        .leave strp' (orig.len - origOffset) e ∧ messages e = [] ∧ strp'.stopped = strp.stopped ∧
      At F ext strp' (m :: rest) (k + (orig.len - origOffset - eaten))) ∨
    (∃ strp' e, round P maxMsgSize orig origOffset (orig.len - origOffset) o strp eaten =
        .again strp' (eaten + (m.length - k)) e ∧ (messages e).map digest = [expected ext m] ∧
      strp'.stopped = strp.stopped ∧ strp'.skbHead = none ∧
      eaten + (m.length - k) ≤ orig.len - origOffset) := by
  unfold round
  by_cases hclone : o.clone = false
  · rw [if_pos hclone]
    exact .inl ⟨_, rfl, rfl, by simp [hclone]⟩
  rw [if_neg hclone]
  rcases join_spec h hw hlt.le hin o with ⟨err, hjoin, hun⟩ | ⟨head, strp', hjoin, hst, hj⟩
  · rw [hjoin]
    exact .inl ⟨_, rfl, rfl, by simp [hun]⟩
  have hcur : (m.take k ++ orig.bytes.drop (origOffset + eaten)).length =
      k + (orig.len - origOffset - eaten) := by
    rw [List.length_append, List.length_take, List.length_drop, ← hw.len_eq]
    omega
  simp only [hjoin, measure_spec hF hj hm hmax hp (by omega) hkm, hcur]
  have heaten : eaten + (orig.len - origOffset - eaten) = orig.len - origOffset := by omega
  have hhdr := hm.header
  split_ifs with hshort
  · refine .inr (.inl ⟨_, _, by rw [heaten], messages_warnOn _, ?_, ?_⟩)
    · exact hst
    have hmeas := hj.measured
    rw [if_pos (by omega)] at hmeas
    rw [← hcur]
    refine hj.at_stored hp (by omega) (by omega) rfl rfl rfl ?_ (by rw [hcur, if_pos hshort]; exact hmeas)
    rw [hcur, hj.accum]
  · simp only [hj.accum]
    by_cases hlack : k + (orig.len - origOffset - eaten) < m.length
    · rw [if_pos (by omega)]
      refine .inr (.inl ?_)
      rw [heaten, ← hcur]
      split_ifs
      · refine ⟨_, _, rfl, rfl, hst, hj.at_stored hp (by omega) (by omega) rfl rfl rfl rfl ?_⟩
        rw [hcur, if_neg hshort]
        exact ⟨rfl, rfl⟩
      · refine ⟨_, _, rfl, messages_warnOn _, hst, hj.at_stored hp (by omega) (by omega) rfl rfl rfl rfl ?_⟩
        rw [hcur, if_neg hshort]
        exact ⟨rfl, rfl⟩
    · rw [if_neg (by omega)]
      have hnext : ((eaten : ℤ) + (orig.len - origOffset - eaten : ℕ) -
          (k + (orig.len - origOffset - eaten : ℕ) - m.length)).toNat = eaten + (m.length - k) := by
        omega
      rw [hnext]
      refine .inr (.inr ⟨_, _, rfl, ?_, hst, rfl, by omega⟩)
      rw [messages_append, messages_warnOn, ← hj.accum]
      exact congrArg (fun d => [d]) (hj.digest_eq hp (by omega))

/-! ### The loop and whole runs -/

/-- All kernel calls of the oracle succeed. -/
structure Oracle.Succeeds (o : Oracle) : Prop where
  prepared : (o.cloneOrig && o.pull && o.uncloneHead && o.allocHead) = true
  rounds : ∀ i, ((o.round i).clone && (o.round i).unclone) = true

/-- The loop is about to read `orig` from byte `origOffset + eaten` on, at byte `k` of the messages
`ms`. -/
structure Reading (F : Framing UInt8) (ext : List UInt8 → τ) (maxMsgSize : ℕ) (orig : SkBuff)
    (origOffset : ℕ) (strp : Strparser τ) (ms : List (List UInt8)) (k eaten : ℕ) : Prop where
  wf : orig.Wf
  stored : At F ext strp ms k
  valid : Valid F maxMsgSize ms
  le : eaten ≤ orig.len - origOffset
  inProgress : strp.skbHead.isSome → origOffset + eaten = 0 ∧ strp.skbNextp.isSome
  bytes : orig.bytes.drop (origOffset + eaten) <+: ms.flatten.drop k

omit [Inhabited τ] in
/-- The message that the next bytes belong to. -/
theorem Reading.current {orig : SkBuff} {origOffset : ℕ} {strp : Strparser τ} {ms : List (List UInt8)}
    {k eaten : ℕ} (h : Reading F ext maxMsgSize orig origOffset strp ms k eaten)
    (hlt : eaten < orig.len - origOffset) :
    ∃ m rest, ms = m :: rest ∧ k < m.length ∧ F.Message m ∧ m.length ≤ maxMsgSize ∧
      m.take k ++ orig.bytes.drop (origOffset + eaten) <+: m ++ rest.flatten := by
  have hne : orig.bytes.drop (origOffset + eaten) ≠ [] := by
    rw [Ne, List.drop_eq_nil_iff, ← h.wf.len_eq]
    omega
  obtain ⟨m, rest, rfl, hkm, hp⟩ := h.stored.current h.valid hne h.bytes
  obtain ⟨hm, hmax⟩ := h.valid m List.mem_cons_self
  exact ⟨m, rest, rfl, hkm, hm, hmax, hp⟩

omit [Inhabited τ] in
/-- After a message was completed, the next one. -/
theorem Reading.again {orig : SkBuff} {origOffset : ℕ} {strp strp' : Strparser τ} {m : List UInt8}
    {rest : List (List UInt8)} {k eaten : ℕ}
    (h : Reading F ext maxMsgSize orig origOffset strp (m :: rest) k eaten) (hkm : k < m.length)
    (hhead : strp'.skbHead = none) (hle : eaten + (m.length - k) ≤ orig.len - origOffset) :
    Reading F ext maxMsgSize orig origOffset strp' rest 0 (eaten + (m.length - k)) where
  wf := h.wf
  stored := by rw [At, hhead]
  valid := fun m' hm' => h.valid m' (List.mem_cons_of_mem _ hm')
  le := hle
  inProgress := by simp [hhead]
  bytes := by
    have hdrop := h.bytes.drop (m.length - k)
    rw [List.drop_drop, List.drop_drop, List.flatten_cons, Nat.add_sub_cancel' hkm.le, List.drop_left,
      Nat.add_assoc] at hdrop
    exact hdrop

/-- The loop ends, at a position in the stream that fits to what it handed on.  It stops before the
end of the buffer only when a kernel call fails. -/
theorem loop_spec (hF : Follows P maxMsgSize F ext) {orig : SkBuff} (origOffset : ℕ) (o : ℕ → Round)
    (fuel : ℕ) :
    ∀ {strp : Strparser τ} {ms : List (List UInt8)} {k eaten : ℕ},
      Reading F ext maxMsgSize orig origOffset strp ms k eaten → orig.len - origOffset ≤ eaten + fuel →
      ∃ strp' n e ms' k', loop P maxMsgSize orig origOffset (orig.len - origOffset) o fuel strp eaten =
          some (strp', eaten + n, e) ∧ strp'.stopped = strp.stopped ∧ At F ext strp' ms' k' ∧
        Advances ext ms k ms' k' n e ∧ ((∀ i, ((o i).clone && (o i).unclone) = true) →
          eaten + n = orig.len - origOffset) := by
  induction fuel with
  | zero =>
      intro strp ms k eaten hr hfuel
      have hle := hr.le
      rw [loop, if_pos (by omega)]
      exact ⟨strp, 0, [], ms, k, rfl, rfl, hr.stored, .store rfl ms k 0, fun _ => by omega⟩
  | succ fuel ih =>
      intro strp ms k eaten hr hfuel
      have hle := hr.le
      rw [loop]
      by_cases hend : orig.len - origOffset ≤ eaten
      · rw [if_pos hend]
        exact ⟨strp, 0, [], ms, k, rfl, rfl, hr.stored, .store rfl ms k 0, fun _ => by omega⟩
      rw [if_neg hend]
      obtain ⟨m, rest, rfl, hkm, hm, hmax, hp⟩ := hr.current (not_le.mp hend)
      rcases round_spec hF hr.stored hkm hm hmax hr.wf (by omega) hr.inProgress hp (o fuel) with
        ⟨e, hround, he, ho⟩ | ⟨strp', e, hround, he, hst, hat'⟩ | ⟨strp', e, hround, he, hst, hhead, hle'⟩
      · rw [hround]
        refine ⟨strp, 0, e, _, k, rfl, rfl, hr.stored, .store he _ k 0, fun hall => ?_⟩
        rw [hall fuel] at ho
        cases ho
      · rw [hround]
        refine ⟨strp', orig.len - origOffset - eaten, e, _, _, ?_, hst, hat', .store he _ k _,
          fun _ => by omega⟩
        rw [show eaten + (orig.len - origOffset - eaten) = orig.len - origOffset by omega]
      · have hcompl := Advances.complete he hkm.le rest
        obtain ⟨strp'', n, e', ms', k', hloop, hst', hat'', hadv, hall⟩ :=
          ih (hr.again hkm hhead hle') (by omega)
        rw [hround]
        simp only [hloop, Option.map_some]
        refine ⟨strp'', m.length - k + n, e ++ e', ms', k', ?_, hst'.trans hst, hat'', hcompl.trans hadv, ?_⟩
        · rw [Nat.add_assoc]
        · intro h
          rw [← Nat.add_assoc]
          exact hall h

/-- TCP presents bytes of the stream from where it was read up to. -/
structure Presents (msgs : List (List UInt8)) (s : State τ) (a : Act) : Prop where
  wf : a.skb.Wf
  offset_le : a.offset ≤ a.skb.len
  bytes : a.skb.bytes.drop a.offset <+: msgs.flatten.drop s.copied

omit [Inhabited τ] in
/-- What is prepared is what the loop reads. -/
theorem Ready.reading {strp : Strparser τ} {orig orig' : SkBuff} {offset offset' k : ℕ}
    {ms : List (List UInt8)} (h : Ready strp orig orig' offset offset') (hat : At F ext strp ms k)
    (hv : Valid F maxMsgSize ms) (hp : orig.bytes.drop offset <+: ms.flatten.drop k) :
    Reading F ext maxMsgSize orig' offset' strp ms k 0 where
  wf := h.wf
  stored := hat
  valid := hv
  le := Nat.zero_le _
  inProgress := h.inProgress
  bytes := by
    rw [Nat.add_zero, h.bytes]
    exact hp

/-- What a call of `__strp_recv` does at a position in the stream. -/
theorem step_spec (hF : Follows P maxMsgSize F ext) {s : State τ} {ms : List (List UInt8)} {k : ℕ}
    (hat : At F ext s.strp ms k) (hv : Valid F maxMsgSize ms) {a : Act} (hw : a.skb.Wf)
    (ho : a.offset ≤ a.skb.len) (hp : a.skb.bytes.drop a.offset <+: ms.flatten.drop k) :
    ∃ s' n e ms' k', step P maxMsgSize s a = some (s', e) ∧ s'.copied = s.copied + n ∧
      s'.strp.stopped = s.strp.stopped ∧ At F ext s'.strp ms' k' ∧ Advances ext ms k ms' k' n e ∧
      (a.oracle.Succeeds → n = a.skb.len - a.offset) := by
  obtain ⟨strp₁, r, e₁, hprep, hat₁, he₁, hst₁, hfail, hready⟩ := prepare_spec hat hw ho a.oracle
  unfold step strpRecv
  rw [hprep]
  cases r with
  | none =>
      refine ⟨_, 0, e₁, ms, k, rfl, rfl, hst₁, hat₁, .store he₁ ms k 0, fun hs => ?_⟩
      rw [hs.prepared] at hfail
      cases hfail rfl
  | some src =>
      obtain ⟨orig, offset⟩ := src
      have hr := hready orig offset rfl
      obtain ⟨strp₂, n, e₂, ms', k', hloop, hst₂, hat₂, hadv, hall⟩ := loop_spec hF offset
        a.oracle.round (orig.len - offset) (hr.reading hat₁ hv hp) (by omega)
      rw [Nat.zero_add] at hloop hall
      rw [hr.len] at hloop
      simp only [hloop, Option.map_some]
      refine ⟨_, n, e₁ ++ e₂, ms', k', rfl, rfl, hst₂.trans hst₁, hat₂, ?_, ?_⟩
      · simpa using (Advances.store he₁ ms k 0).trans hadv
      · intro hs
        rw [hall hs.rounds, hr.len]

/-- In every run the position in the stream fits to what was handed on, and the parser is not stopped. -/
theorem at_of_reach (hF : Follows P maxMsgSize F ext) {msgs : List (List UInt8)}
    (hv : Valid F maxMsgSize msgs) {s : State τ} {es : List (Event τ)}
    (h : (machine P maxMsgSize).Reach (Presents msgs) s es) :
    ∃ ms k, At F ext s.strp ms k ∧ Advances ext msgs 0 ms k s.copied es ∧ s.strp.stopped = false := by
  induction h with
  | init => exact ⟨msgs, 0, rfl, .store rfl msgs 0 0, rfl⟩
  | step hr hg hs ih =>
      obtain ⟨ms, k, hat, hadv, hst⟩ := ih
      obtain ⟨s', n, e, ms', k', hstep, hcopied, hst', hat', hadv', -⟩ :=
        step_spec hF hat (hadv.valid hv) hg.wf hg.offset_le
          (by rw [hadv.drop_eq, Nat.zero_add]; exact hg.bytes)
      obtain ⟨rfl, rfl⟩ := Prod.mk.inj (Option.some.inj (hstep.symm.trans hs))
      exact ⟨ms', k', hat', by rw [hcopied]; exact hadv.trans hadv', hst'.trans hst⟩

/-- **Segmentation independence.**  What was handed on are the messages in the consumed bytes. -/
theorem delivered_of_reach (hF : Follows P maxMsgSize F ext) {msgs : List (List UInt8)}
    (hv : Valid F maxMsgSize msgs) {s : State τ} {es : List (Event τ)}
    (h : (machine P maxMsgSize).Reach (Presents msgs) s es) :
    (messages es).map digest = (wholeIn msgs s.copied).map (expected ext) := by
  obtain ⟨ms, k, hat, hadv, -⟩ := at_of_reach hF hv h
  exact hadv.digests hat hv

/-- A call of `__strp_recv` returns, and consumes what it is presented if no kernel call fails. -/
theorem step_of_reach (hF : Follows P maxMsgSize F ext) {msgs : List (List UInt8)}
    (hv : Valid F maxMsgSize msgs) {s : State τ} {es : List (Event τ)}
    (h : (machine P maxMsgSize).Reach (Presents msgs) s es) {a : Act} (ha : Presents msgs s a) :
    ∃ s' e, step P maxMsgSize s a = some (s', e) ∧
      (a.oracle.Succeeds → s'.copied = s.copied + (a.skb.len - a.offset)) := by
  obtain ⟨ms, k, hat, hadv, -⟩ := at_of_reach hF hv h
  obtain ⟨s', n, e, ms', k', hstep, hcopied, -, -, -, hall⟩ :=
    step_spec hF hat (hadv.valid hv) ha.wf ha.offset_le
      (by rw [hadv.drop_eq, Nat.zero_add]; exact ha.bytes)
  exact ⟨s', e, hstep, fun hs => by rw [hcopied, hall hs]⟩

/-! ### Runs to evaluate -/

/-- A buffer with bytes in its linear area and in a page fragment. -/
def bufferOf (linear frag : List UInt8) : SkBuff :=
  .mk (linear.length + frag.length) frag.length 0 linear [frag] []

theorem wf_bufferOf (linear frag : List UInt8) : (bufferOf linear frag).Wf where
  len_eq := by simp [bufferOf, SkBuff.bytes, SkBuff.bytesOf, SkBuff.len]
  laid := .mk (by simp) (by simp) (by simp)

/-- A round in which all kernel calls succeed. -/
def Round.ok : Round := ⟨true, true, 0⟩

def Oracle.ok : Oracle := ⟨true, true, true, true, fun _ => Round.ok⟩

/-- What a call is presented continues the stream. -/
def presented (msgs : List (List UInt8)) (s : State τ) (a : Act) : Bool :=
  decide (a.skb.bytes.drop a.offset <+: msgs.flatten.drop s.copied)

omit [Inhabited τ] in
theorem presents_of_presented {msgs : List (List UInt8)} {s : State τ} {a : Act}
    (hwf : a.skb.Wf ∧ a.offset ≤ a.skb.len) (h : presented msgs s a = true) : Presents msgs s a :=
  ⟨hwf.1, hwf.2, of_decide_eq_true h⟩

/-- An evaluated list of calls on well-formed buffers is a run. -/
theorem reach_of_exec {β : Type} (P : Parser τ) (maxMsgSize : ℕ) (msgs : List (List UInt8)) (as : List Act)
    (hwf : ∀ a ∈ as, a.skb.Wf ∧ a.offset ≤ a.skb.len) (f : State τ × List (Event τ) → β) (y : β)
    (h : ((machine P maxMsgSize).exec (presented msgs) (machine P maxMsgSize).init as).map f = some y) :
    ∃ s es, (machine P maxMsgSize).Reach (fun s a => Presents msgs s a ∧ a ∈ as) s es ∧ f (s, es) = y :=
  Machine.Reach.of_exec as (fun _ a ha hp => ⟨presents_of_presented (hwf a ha) hp, ha⟩) f y h

end Rakaia.Strp
