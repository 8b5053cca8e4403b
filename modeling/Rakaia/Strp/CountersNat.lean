import Rakaia.Strp.Counters
import Rakaia.Strp.Memcache

/-! # The counters of the stream parser as natural numbers

In `Strp.strpRecv` the counters are natural numbers, and the bytes are there.  As long as the buffers of a message
are together shorter than `2 ^ 31` bytes it computes the counters that the source computes with its own types: each
run is, without the bytes, a run of the model with those types (`reach_counters`), with the results of `parse_msg`
that the bytes give. -/

namespace Rakaia.Strp.Counters

open Lib

/-- A parser of the plain variant, for a callback that returns an `int`. -/
def plainParser (parseMsg : SkBuff → ℕ → Int32) : Parser Unit where
  parse stm skb := (stm, (parseMsg skb stm.offset).toInt)
  accept stm len := { stm with fullLen := len.toNat }

/-- The counters of a buffer. -/
def ofSkb (skb : SkBuff) : Skb := ⟨skb.len, !skb.fragList.isEmpty⟩

def ofHead (head : Strp.Head Unit) : Head :=
  ⟨head.skb.len, !head.skb.fragList.isEmpty, head.stm.fullLen, head.stm.offset, head.stm.accumLen⟩

/-- The counters of a parser that is not paused. -/
def ofStrp (strp : Strp.Strparser Unit) : Strparser :=
  ⟨strp.skbHead.map ofHead, strp.skbNextp.isSome, strp.needBytes, false, strp.stopped, strp.interrupted,
    strp.unrecovIntr⟩

section natural

variable {parseMsg : SkBuff → ℕ → Int32} {maxMsgSize : ℕ} {orig : SkBuff} {origOffset origLen eaten : ℕ}
  {strp strp' : Strp.Strparser Unit} {o : Strp.Round}

theorem ofHead_appendFrag (head : Strp.Head Unit) (slot : ℕ) (skb : SkBuff) :
    ofHead { head with skb := head.skb.appendFrag slot skb } =
      { ofHead head with len := head.skb.len + skb.len, hasFragList := true } := by
  obtain ⟨⟨len, dataLen, truesize, linear, frags, fragList⟩, stm⟩ := head
  simp [ofHead, SkBuff.appendFrag, SkBuff.len, SkBuff.fragList]

/-- `join` gives the same counters. -/
theorem join_ofStrp (o : Strp.Round) (h : Ready maxMsgSize (ofSkb orig) origOffset origLen (ofStrp strp) eaten) :
    (Strp.join strp orig (origOffset + eaten) o = .error (.error (-12)) ∧ ∀ o' : Round, o'.unclone = o.unclone →
      join (ofStrp strp) (ofSkb orig) (origOffset + eaten) o' = .error (.error (-12))) ∨
    ∃ head strp', Strp.join strp orig (origOffset + eaten) o = .ok (head, strp') ∧
      ∀ o' : Round, o'.unclone = o.unclone →
        join (ofStrp strp) (ofSkb orig) (origOffset + eaten) o' = .ok (ofHead head, ofStrp strp') := by
  have hlen : origOffset + origLen = orig.len := h.len_eq
  have hfits := h.fits
  have heaten := h.eaten_le
  have hskb : (ofSkb orig).len = orig.len := rfl
  cases hhead : strp.skbHead with
  | none =>
      have hstart : int (origOffset + eaten) = origOffset + eaten := int_eq (by omega) (by omega)
      refine .inr ⟨_, _, by rw [Strp.join, hhead], fun o' _ => ?_⟩
      simp only [join, ofStrp, hhead, Option.map_none, hstart]
      rfl
  | some head =>
      have hofHead : (ofStrp strp).skbHead = some (ofHead head) := by rw [ofStrp, hhead]; rfl
      obtain ⟨-, hnext, -, -⟩ := h.head _ hofHead
      obtain ⟨slot, hslot⟩ := Option.isSome_iff_exists.mp hnext
      have hsum : unsignedInt ((ofHead head).len + (ofSkb orig).len) = head.skb.len + orig.len := by
        have hheadLen := headLen_some hofHead
        have : (ofHead head).len = head.skb.len := rfl
        exact unsignedInt_eq (by push_cast; rfl) (by omega)
      by_cases hfrag : orig.fragList.isEmpty = false ∧ o.unclone = false
      · refine .inl ⟨by simp only [Strp.join, hhead, if_pos hfrag], fun o' ho => ?_⟩
        simp only [join, hofHead, ofSkb, ho, hfrag.1, hfrag.2, Bool.not_false, and_self, if_true]
      · refine .inr ⟨{ head with skb := head.skb.appendFrag slot orig }, { strp with skbNextp := some (slot + 1) },
          by simp only [Strp.join, hhead, if_neg hfrag, hslot], fun o' ho => ?_⟩
        have hfrag' : ¬ ((ofSkb orig).hasFragList = true ∧ o'.unclone = false) := by
          rw [ofSkb, Bool.not_eq_true', ho]
          exact hfrag
        have hsame : ofStrp { strp with skbNextp := some (slot + 1) } = ofStrp strp := by
          rw [ofStrp, ofStrp, hslot]
          rfl
        simp only [join, hofHead, if_neg hfrag', hnext, Bool.true_eq_false, if_false, hsum]
        rw [ofHead_appendFrag, hsame]

/-- The same is known about the length. -/
inductive SameLength : Strp.Measured Unit → Measured → Strp.Head Unit → Prop
  | needHeader (head : Strp.Head Unit) : SameLength (.needHeader head.stm) .needHeader head
  | bad (err : ℤ) (i u : Bool) (head : Strp.Head Unit) : SameLength (.bad err i u) (.bad err i u) head
  | known (n : ℕ) (head : Strp.Head Unit) : SameLength (.known { head.stm with fullLen := n }) (.known n) head

theorem measure_ofHead (maxMsgSize : ℕ) (parseMsg : SkBuff → ℕ → Int32) (head : Strp.Head Unit) (skb : SkBuff) :
    SameLength (Strp.measure (plainParser parseMsg) maxMsgSize head skb)
      (measure maxMsgSize (ofHead head) (ofSkb skb) (parseMsg head.skb head.stm.offset).toInt) head := by
  have hlt := (parseMsg head.skb head.stm.offset).toInt_lt
  have hge := (parseMsg head.skb head.stm.offset).le_toInt
  unfold Strp.measure measure plainParser
  dsimp only
  generalize (parseMsg head.skb head.stm.offset).toInt = len at hlt hge ⊢
  have hfull : (ofHead head).fullLen = head.stm.fullLen := rfl
  have haccum : (ofHead head).accumLen = head.stm.accumLen := rfl
  by_cases hf : head.stm.fullLen ≠ 0
  · have hf' : (ofHead head).fullLen ≠ 0 := by rw [hfull]; omega
    rw [if_pos hf, if_pos hf', hfull]
    exact .known head.stm.fullLen head
  have hf' : ¬ (ofHead head).fullLen ≠ 0 := by rw [hfull]; omega
  rw [if_neg hf, if_neg hf']
  by_cases h0 : len = 0
  · rw [if_pos h0, if_pos h0]
    exact .needHeader head
  rw [if_neg h0, if_neg h0]
  by_cases hneg : len < 0
  · rw [if_pos hneg, if_pos hneg]
    by_cases hpipe : len = -86 ∧ head.stm.accumLen ≠ 0
    · have hpipe' : len = -86 ∧ (ofHead head).accumLen ≠ 0 := by rw [haccum]; omega
      rw [if_pos hpipe, if_pos hpipe']
      exact .bad _ _ _ head
    · have hpipe' : ¬ (len = -86 ∧ (ofHead head).accumLen ≠ 0) := by rw [haccum]; omega
      rw [if_neg hpipe, if_neg hpipe']
      exact .bad _ _ _ head
  have hsize : sizeT len = len.toNat := sizeT_eq (by omega) (by omega)
  rw [if_neg hneg, if_neg hneg, hsize]
  by_cases hbig : (maxMsgSize : ℤ) < len
  · have hbig' : maxMsgSize < len.toNat := by omega
    rw [if_pos hbig, if_pos hbig']
    exact .bad _ _ _ head
  have hbig' : ¬ maxMsgSize < len.toNat := by omega
  rw [if_neg hbig, if_neg hbig']
  by_cases hbad : len ≤ (head.skb.len : ℤ) - skb.len - head.stm.offset
  · have hbad' : len ≤ ((ofHead head).len : ℤ) - (ofSkb skb).len - (ofHead head).offset := hbad
    rw [if_pos hbad, if_pos hbad']
    exact .bad _ _ _ head
  · have hbad' : ¬ len ≤ ((ofHead head).len : ℤ) - (ofSkb skb).len - (ofHead head).offset := hbad
    have hint : int len = (len.toNat : ℤ) := by
      rw [int_eq (by omega) hlt]
      omega
    rw [if_neg hbad, if_neg hbad', hint]
    exact .known len.toNat head

/-- A round ends in the same way, with the same counters. -/
inductive SameEnd : Strp.Outcome Unit → Outcome → Prop
  | leave (strp : Strp.Strparser Unit) (eaten : ℕ) (e : List (Strp.Event Unit)) (e' : List Event) :
      SameEnd (.leave strp eaten e) (.leave (ofStrp strp) eaten e')
  | again (strp : Strp.Strparser Unit) (eaten : ℕ) (e : List (Strp.Event Unit)) (e' : List Event) :
      SameEnd (.again strp eaten e) (.again (ofStrp strp) eaten e')

/-- A result of `strp_peek_len` that compares with `n` as the given one. -/
theorem exists_peekLen (peekLen : ℤ) {n : ℤ} (hpos : 0 < n) (hlt : n < 2 ^ 31) :
    ∃ p : Int32, p.toInt < n ↔ peekLen < n := by
  by_cases hp : peekLen < n
  · exact ⟨0, iff_of_true hpos hp⟩
  · refine ⟨Int32.maxValue, iff_of_false ?_ hp⟩
    have hmax : Int32.maxValue.toInt = 2 ^ 31 - 1 := rfl
    omega

theorem joined_of_join {o : Round} {head : Head} {orig : Skb} {strp strp' : Strparser}
    (h : Ready maxMsgSize orig origOffset origLen strp eaten)
    (hj : join strp orig (origOffset + eaten) o = .ok (head, strp')) :
    Joined maxMsgSize orig origLen eaten head := by
  rcases join_cases (o := o) h with ⟨err, herr⟩ | ⟨head', strp'', hok, hjoin, -⟩
  · rw [hj] at herr
    cases herr
  · rw [hj] at hok
    obtain ⟨rfl, -⟩ := Prod.mk.inj (Except.ok.inj hok)
    exact hjoin

theorem accumLen_ofHead (head : Strp.Head Unit) (hlt : eaten < origLen) :
    ((head.stm.accumLen + (origLen - eaten) : ℕ) : ℤ) = (ofHead head).accumLen + (origLen - eaten) := by
  change _ = (head.stm.accumLen : ℤ) + (origLen - eaten)
  omega

/-- A round that knows the length: the two models find it short, or complete, together. -/
theorem round_known_ofStrp {parseMsg : SkBuff → ℕ → Int32} {o : Strp.Round} {head : Strp.Head Unit}
    {strp' : Strp.Strparser Unit} {n : ℕ}
    (h : Ready maxMsgSize (ofSkb orig) origOffset origLen (ofStrp strp) eaten) (hlt : eaten < origLen)
    (hclone : ¬ o.clone = false) (hj : Strp.join strp orig (origOffset + eaten) o = .ok (head, strp'))
    (hj' : ∀ o' : Round, o'.unclone = o.unclone →
      join (ofStrp strp) (ofSkb orig) (origOffset + eaten) o' = .ok (ofHead head, ofStrp strp'))
    (hm : Strp.measure (plainParser parseMsg) maxMsgSize head orig = .known { head.stm with fullLen := n })
    (hm' : measure maxMsgSize (ofHead head) (ofSkb orig) (parseMsg head.skb head.stm.offset).toInt = .known n) :
    ∃ o', SameEnd (Strp.round (plainParser parseMsg) maxMsgSize orig origOffset origLen o strp eaten)
      (round maxMsgSize (ofSkb orig) origOffset origLen o' (ofStrp strp) eaten) := by
  have hjoin := joined_of_join h (hj' ⟨true, o.unclone, 0, 0, false⟩ rfl)
  have hofHead : (ofHead head).accumLen = head.stm.accumLen := rfl
  obtain ⟨hmore, -, hint⟩ := measure_known hjoin hm'
  obtain ⟨p, hp⟩ := exists_peekLen o.peekLen (n := n - (ofHead head).accumLen) (by omega) (by omega)
  refine ⟨⟨true, o.unclone, parseMsg head.skb head.stm.offset, p, false⟩, ?_⟩
  by_cases hshort : (ofHead head).accumLen + (origLen - eaten) < n
  · obtain ⟨e, heq, -⟩ := round_short (o := ⟨true, o.unclone, parseMsg head.skb head.stm.offset, p, false⟩)
      h hlt rfl (hj' _ rfl) hjoin hm' hshort
    have hall : eaten + (origLen - eaten) = origLen := by omega
    have hneg : (head.stm.accumLen : ℤ) + (origLen - eaten : ℕ) - n < 0 := by omega
    have hneed : ((n : ℤ) - ((ofHead head).accumLen + (origLen - eaten))).toNat =
        n - (head.stm.accumLen + (origLen - eaten)) := by omega
    rw [heq, hneed, ← accumLen_ofHead head hlt]
    simp only [Strp.round, if_neg hclone, hj, hm, if_pos hneg, hall]
    by_cases hpeek : o.peekLen < n - head.stm.accumLen
    · rw [if_pos hpeek, if_pos (hp.mpr hpeek)]
      exact .leave ..
    · rw [if_neg hpeek, if_neg (mt hp.mp hpeek)]
      exact .leave ..
  · obtain ⟨e, heq, -⟩ := round_complete (o := ⟨true, o.unclone, parseMsg head.skb head.stm.offset, p, false⟩)
      h hlt rfl (hj' _ rfl) hjoin hm' (not_lt.mp hshort)
    have hneg : ¬ (head.stm.accumLen : ℤ) + (origLen - eaten : ℕ) - n < 0 := by omega
    have heaten : ((eaten : ℤ) + (origLen - eaten : ℕ) -
        ((head.stm.accumLen : ℤ) + (origLen - eaten : ℕ) - n)).toNat =
          eaten + ((n : ℤ) - (ofHead head).accumLen).toNat := by omega
    rw [heq, ← heaten]
    simp only [Strp.round, if_neg hclone, hj, hm, if_neg hneg]
    exact .again ..

theorem round_ofStrp (parseMsg : SkBuff → ℕ → Int32) (o : Strp.Round)
    (h : Ready maxMsgSize (ofSkb orig) origOffset origLen (ofStrp strp) eaten) (hlt : eaten < origLen) :
    ∃ o', SameEnd (Strp.round (plainParser parseMsg) maxMsgSize orig origOffset origLen o strp eaten)
      (round maxMsgSize (ofSkb orig) origOffset origLen o' (ofStrp strp) eaten) := by
  by_cases hclone : o.clone = false
  · refine ⟨⟨false, true, 0, 0, false⟩, ?_⟩
    rw [Strp.round, if_pos hclone, round, if_pos rfl]
    exact .leave ..
  rcases join_ofStrp o h with ⟨hj, hj'⟩ | ⟨head, strp', hj, hj'⟩
  · refine ⟨⟨true, o.unclone, 0, 0, false⟩, ?_⟩
    simp only [Strp.round, if_neg hclone, hj, round, Bool.true_eq_false, if_false,
      hj' ⟨true, o.unclone, 0, 0, false⟩ rfl]
    exact .leave ..
  have hall : eaten + (origLen - eaten) = origLen := by omega
  have hsame := measure_ofHead maxMsgSize parseMsg head orig
  generalize hm : Strp.measure (plainParser parseMsg) maxMsgSize head orig = m at hsame
  generalize hm' : measure maxMsgSize (ofHead head) (ofSkb orig) (parseMsg head.skb head.stm.offset).toInt = m'
    at hsame
  cases hsame with
  | bad err i u =>
      refine ⟨⟨true, o.unclone, parseMsg head.skb head.stm.offset, 0, false⟩, ?_⟩
      rw [round_bad rfl (hj' _ rfl) hm']
      simp only [Strp.round, if_neg hclone, hj, hm, Strp.Strparser.parserErr]
      exact .leave ..
  | needHeader =>
      have hjoin := joined_of_join h (hj' ⟨true, o.unclone, 0, 0, false⟩ rfl)
      refine ⟨⟨true, o.unclone, parseMsg head.skb head.stm.offset, 0, false⟩, ?_⟩
      rw [round_needHeader h hlt rfl (hj' _ rfl) hjoin hm', ← accumLen_ofHead head hlt]
      simp only [Strp.round, if_neg hclone, hj, hm, hall]
      exact .leave ..
  | known n => exact round_known_ofStrp h hlt hclone hj hj' hm hm'

theorem loop_congr {orig : Skb} {strp : Strparser} {o o' : ℕ → Round} {fuel : ℕ} (h : ∀ k < fuel, o k = o' k) :
    loop maxMsgSize orig origOffset origLen o fuel strp eaten =
      loop maxMsgSize orig origOffset origLen o' fuel strp eaten := by
  induction fuel generalizing strp eaten with
  | zero => rw [loop, loop]
  | succ fuel ih =>
      rw [loop, loop, h fuel (Nat.lt_succ_self fuel)]
      simp only [ih (fun k hk => h k (Nat.lt_succ_of_lt hk))]

/-- The loop gives the same counters, for some results of the environment. -/
theorem loop_ofStrp (parseMsg : SkBuff → ℕ → Int32) (o : ℕ → Strp.Round) (fuel : ℕ) {strp₂ : Strp.Strparser Unit}
    {n : ℕ} {e : List (Strp.Event Unit)}
    (h : Ready maxMsgSize (ofSkb orig) origOffset origLen (ofStrp strp) eaten)
    (hs : Strp.loop (plainParser parseMsg) maxMsgSize orig origOffset origLen o fuel strp eaten =
      some (strp₂, n, e)) :
    ∃ o' e', loop maxMsgSize (ofSkb orig) origOffset origLen o' fuel (ofStrp strp) eaten =
      some (ofStrp strp₂, n, e') := by
  induction fuel generalizing strp eaten e with
  | zero =>
      rw [Strp.loop] at hs
      split_ifs at hs with hle
      obtain ⟨rfl, rfl, rfl⟩ := hs
      exact ⟨fun _ => ⟨true, true, 0, 0, false⟩, [], by rw [loop, if_pos hle]⟩
  | succ fuel ih =>
      rw [Strp.loop] at hs
      by_cases hle : origLen ≤ eaten
      · rw [if_pos hle] at hs
        obtain ⟨rfl, rfl, rfl⟩ := hs
        exact ⟨fun _ => ⟨true, true, 0, 0, false⟩, [], by rw [loop, if_pos hle]⟩
      rw [if_neg hle] at hs
      obtain ⟨o₁, hsame⟩ := round_ofStrp parseMsg (o fuel) h (not_le.mp hle)
      have hends := ends_round (o := o₁) h (not_le.mp hle)
      generalize hr : Strp.round (plainParser parseMsg) maxMsgSize orig origOffset origLen (o fuel) strp eaten = r
        at hsame hs
      generalize hr' : round maxMsgSize (ofSkb orig) origOffset origLen o₁ (ofStrp strp) eaten = r' at hsame hends
      cases hsame with
      | leave strp₁ eaten₁ e₁ e₁' =>
          obtain ⟨rfl, rfl, rfl⟩ := hs
          exact ⟨fun _ => o₁, e₁', by rw [loop, if_neg hle, hr']⟩
      | again strp₁ eaten₁ e₁ e₁' =>
          obtain ⟨⟨strp₃, n₃, e₃⟩, hloop, heq⟩ := Option.map_eq_some_iff.mp hs
          obtain ⟨rfl, rfl, rfl⟩ := heq
          cases hends with
          | again hnone hmore hle' hsound =>
              obtain ⟨o₂, e₂', hloop'⟩ := ih (h.next hnone hle') hloop
              have hrest : ∀ k < fuel, (fun k => if k = fuel then o₁ else o₂ k) k = o₂ k := fun k hk => if_neg hk.ne
              have hpaused : (ofStrp strp₁).paused = false := rfl
              refine ⟨fun k => if k = fuel then o₁ else o₂ k, e₁' ++ e₂', ?_⟩
              rw [loop, if_neg hle, if_pos rfl, hr']
              dsimp only
              rw [hpaused, loop_congr hrest, hloop']
              rfl

theorem len_pull (skb : SkBuff) (n : ℕ) : (skb.pull n).len = skb.len - n := by
  obtain ⟨len, dataLen, truesize, linear, frags, fragList⟩ := skb
  rw [SkBuff.pull]
  split_ifs
  · rfl
  · rfl

/-- The environment of a call, as far as the part before the loop sees it. -/
def ofOracle (o : Strp.Oracle) (orig : SkBuff) (offset : ℕ) (rounds : ℕ → Round) : Oracle :=
  ⟨o.cloneOrig, o.pull, !(orig.pull offset).fragList.isEmpty, o.uncloneHead, o.allocHead, rounds⟩

/-- What is done before the loop gives the same counters. -/
theorem prepare_ofStrp (strp : Strp.Strparser Unit) (orig : SkBuff) (offset : ℕ) (o : Strp.Oracle) :
    (∃ e e', Strp.prepare strp orig offset o = (strp, none, e) ∧ ∀ rounds,
      prepare (ofStrp strp) (ofSkb orig) offset (ofOracle o orig offset rounds) = (ofStrp strp, none, e')) ∨
    ∃ strp₁ orig₁ offset₁, Strp.prepare strp orig offset o = (strp₁, some (orig₁, offset₁), []) ∧ ∀ rounds,
      prepare (ofStrp strp) (ofSkb orig) offset (ofOracle o orig offset rounds) =
        (ofStrp strp₁, some (ofSkb orig₁, offset₁), []) := by
  cases hhead : strp.skbHead with
  | none =>
      refine .inr ⟨strp, orig, offset, by rw [Strp.prepare, hhead], fun rounds => ?_⟩
      have hnone : (ofStrp strp).skbHead = none := by rw [ofStrp, hhead]; rfl
      simp only [prepare, hnone]
  | some head =>
      have hsome : (ofStrp strp).skbHead = some (ofHead head) := by rw [ofStrp, hhead]; rfl
      obtain ⟨src, hsrc⟩ : ∃ src : SkBuff × ℕ, src = if offset ≠ 0 then (orig.pull offset, 0) else (orig, 0) :=
        ⟨_, rfl⟩
      have hsrc' : (if offset ≠ 0 then (⟨(ofSkb orig).len - offset, !(orig.pull offset).fragList.isEmpty⟩, 0)
          else (ofSkb orig, 0)) = (ofSkb src.1, src.2) := by
        rw [hsrc]
        split_ifs
        · rw [ofSkb, ofSkb, len_pull]
        · rfl
      simp only [Strp.prepare, hhead, prepare, hsome, ofOracle, hsrc', ← hsrc]
      by_cases hpull : offset ≠ 0 ∧ (o.cloneOrig && o.pull) = false
      · simp only [if_pos hpull]
        exact .inl ⟨_, _, rfl, fun _ => rfl⟩
      simp only [if_neg hpull]
      cases hnext : strp.skbNextp with
      | some slot =>
          have hnext' : (ofStrp strp).skbNextp = true := by rw [ofStrp, hnext]; rfl
          simp only [hnext', if_true]
          exact .inr ⟨strp, src.1, src.2, rfl, fun _ => rfl⟩
      | none =>
          have hnext' : (ofStrp strp).skbNextp = false := by rw [ofStrp, hnext]; rfl
          simp only [hnext', Bool.false_eq_true, if_false]
          by_cases hunclone : o.uncloneHead = false
          · simp only [if_pos hunclone]
            exact .inl ⟨_, _, rfl, fun _ => rfl⟩
          simp only [if_neg hunclone]
          cases hfrag : head.skb.fragList.isEmpty with
          | true =>
              have hfrag' : (ofHead head).hasFragList = false := by rw [ofHead, hfrag]; rfl
              simp only [hfrag', if_true]
              refine .inr ⟨{ strp with skbNextp := some 0 }, src.1, src.2, by rw [hhead], fun _ => ?_⟩
              simp only [ofStrp, hhead]
              rfl
          | false =>
              have hfrag' : (ofHead head).hasFragList = true := by rw [ofHead, hfrag]; rfl
              simp only [hfrag', Bool.true_eq_false, Bool.false_eq_true, if_false]
              by_cases halloc : o.allocHead = false
              · simp only [if_pos halloc]
                exact .inl ⟨_, _, rfl, fun _ => rfl⟩
              · simp only [if_neg halloc]
                exact .inr ⟨_, src.1, src.2, rfl, fun _ => rfl⟩

/-- A call that fits gives the same counters and the same result, for some results of the environment. -/
theorem strpRecv_counters (parseMsg : SkBuff → ℕ → Int32) {skb : SkBuff} {offset n : ℕ} {o : Strp.Oracle}
    {e : List (Strp.Event Unit)} (h : Inv maxMsgSize (ofStrp strp)) (hoffset : offset ≤ skb.len)
    (hfits : (ofStrp strp).headLen + skb.len < 2 ^ 31)
    (hs : Strp.strpRecv (plainParser parseMsg) maxMsgSize strp skb offset (skb.len - offset) o = some (strp', n, e)) :
    ∃ o' e', strpRecv maxMsgSize (ofStrp strp) (ofSkb skb) offset (skb.len - offset) o' =
      some (ofStrp strp', e' ++ [.returned n (skb.len - offset)]) := by
  have hpaused : ¬ (ofStrp strp).paused = true := Bool.false_ne_true
  rcases prepare_ofStrp strp skb offset o with ⟨e₁, e₁', hp, hp'⟩ | ⟨strp₁, orig₁, offset₁, hp, hp'⟩
  · simp only [Strp.strpRecv, hp, Option.some.injEq, Prod.mk.injEq] at hs
    obtain ⟨rfl, rfl, rfl⟩ := hs
    refine ⟨ofOracle o skb offset (fun _ => ⟨true, true, 0, 0, false⟩), e₁', ?_⟩
    simp only [strpRecv, if_neg hpaused, hp' (fun _ => ⟨true, true, 0, 0, false⟩)]
    rfl
  · simp only [Strp.strpRecv, hp, Option.map_eq_some_iff, Prod.mk.injEq] at hs
    obtain ⟨⟨strp₂, n₂, e₂⟩, hloop, rfl, rfl, -⟩ := hs
    have hready : Ready maxMsgSize (ofSkb orig₁) offset₁ (skb.len - offset) (ofStrp strp₁) 0 := by
      have hle : offset ≤ (ofSkb skb).len := hoffset
      rcases prepare_cases (ofOracle o skb offset (fun _ => ⟨true, true, 0, 0, false⟩)) h hle hfits
        with ⟨err, hbad⟩ | ⟨strp₃, orig₃, offset₃, hgood, hready⟩
      · rw [hp'] at hbad
        exact absurd (congrArg (fun r => r.2.1) hbad) (Option.some_ne_none _)
      · rw [hp'] at hgood
        obtain ⟨rfl, hsrc⟩ := Prod.mk.inj hgood
        obtain ⟨rfl, rfl⟩ := Prod.mk.inj (Option.some.inj (Prod.mk.inj hsrc).1)
        exact hready
    obtain ⟨rounds, e₂', hloop'⟩ := loop_ofStrp parseMsg o.round (skb.len - offset) hready hloop
    obtain ⟨strp₄, n₄, e₄, hspec, -, hle, -⟩ := loop_spec rounds (skb.len - offset) hready (Nat.le_add_right _ _)
    obtain ⟨-, hn⟩ := Prod.mk.inj (Option.some.inj (hloop'.symm.trans hspec))
    obtain ⟨rfl, -⟩ := Prod.mk.inj hn
    have hret : int n₂ = n₂ := int_eq (by omega) (by omega)
    refine ⟨ofOracle o skb offset rounds, e₂', ?_⟩
    have hround : (ofOracle o skb offset rounds).round = rounds := rfl
    simp only [strpRecv, if_neg hpaused, hp' rounds, hround, hloop', Option.map_some, hret, List.nil_append]

/-- The buffer that is presented fits. -/
def FitsNat (s : Strp.State Unit) (a : Strp.Act) : Prop :=
  a.offset ≤ a.skb.len ∧ (ofStrp s.strp).headLen + a.skb.len < 2 ^ 31

/-- **The model with natural numbers has the counters of the code.**  A run of it in which the buffers of a message
are together shorter than `2 ^ 31` bytes is one of the model with the types of the source. -/
theorem reach_counters (parseMsg : SkBuff → ℕ → Int32) {s : Strp.State Unit} {es : List (Strp.Event Unit)}
    (h : (Strp.machine (plainParser parseMsg) maxMsgSize).Reach FitsNat s es) :
    ∃ es', (machine maxMsgSize).Reach Fits (ofStrp s.strp) es' := by
  induction h with
  | init => exact ⟨[], .init⟩
  | @step s s' a es e _ hg hs ih =>
      obtain ⟨es', hr⟩ := ih
      obtain ⟨hoffset, hfits⟩ := hg
      obtain ⟨⟨strp', n, e₁⟩, hcall, heq⟩ := Option.map_eq_some_iff.mp hs
      obtain ⟨rfl, rfl⟩ := Prod.mk.inj heq
      obtain ⟨o', e', hcall'⟩ := strpRecv_counters parseMsg (inv_of_reach hr).1 hoffset hfits hcall
      have hlt : (ofSkb a.skb).len < 2 ^ 32 := by
        have : (ofSkb a.skb).len = a.skb.len := rfl
        omega
      have hfits' : Fits (ofStrp s.strp) (.recv ⟨ofSkb a.skb, a.offset, o', hoffset, hlt⟩) := hfits
      exact ⟨_, hr.step hfits' hcall'⟩

/-- In particular for the parser of the plain variant. -/
theorem memcache_accumLen {s : Strp.State Unit} {es : List (Strp.Event Unit)} {head : Strp.Head Unit}
    (h : (Strp.machine Memcache.parser maxMsgSize).Reach FitsNat s es) (hhead : s.strp.skbHead = some head) :
    head.stm.accumLen + head.stm.offset = head.skb.len := by
  obtain ⟨es', hr⟩ := reach_counters Memcache.rakaiaParseFunc h
  have hb := (inv_of_reach hr).1 (ofHead head) (by rw [ofStrp, hhead]; rfl)
  have haccum : (head.stm.accumLen : ℤ) = head.skb.len - head.stm.offset := hb.accum_eq
  omega

end natural

end Rakaia.Strp.Counters
