import Mathlib.Tactic.Ring
import Rakaia.Strp.Recv

/-! # The counters of the stream parser

`__strp_recv` keeps the length of a message in progress in four counters of three types: `full_len`, `offset` and
`accum_len` of `struct _strp_msg` are `int`, the length of a buffer is `unsigned int`, and the local variables are
`size_t` and `ssize_t`.  Here the function of the plain variant is translated with these types and without the bytes:
whatever depends on the bytes, the result of `parse_msg` above all, comes from an oracle, and so do the results of the
kernel calls that may fail and the decision of the upper layer to pause the parser.

As long as the buffers of a message are together shorter than `2 ^ 31` bytes the counters agree with one another and
with what was buffered, and no `WARN_ON` of the loop has a true condition (`counters_agree`).  Beyond that `accum_len`
becomes negative (`accumLen_wraps`). -/

namespace Rakaia.Strp.Counters

open Lib

/-! ### Types -/

/-- Conversion to `int`. -/
def int (x : ℤ) : ℤ := x.bmod (2 ^ 32)

/-- Conversion to `unsigned int`. -/
def unsignedInt (x : ℤ) : ℕ := (x % 2 ^ 32).toNat

/-- Conversion to `size_t`. -/
def sizeT (x : ℤ) : ℕ := (x % 2 ^ 64).toNat

/-- Conversion to `ssize_t`. -/
def ssizeT (x : ℤ) : ℤ := x.bmod (2 ^ 64)

/-- What `__strp_recv` reads of a buffer that TCP presents. -/
structure Skb where
  len : ℕ
  hasFragList : Bool
deriving DecidableEq, Repr

/-- The head of a message, with its `struct _strp_msg`. -/
structure Head where
  len : ℕ
  hasFragList : Bool
  fullLen : ℤ
  offset : ℤ
  accumLen : ℤ
deriving DecidableEq, Repr

structure Strparser where
  skbHead : Option Head
  /-- `skb_nextp` is not the null pointer. -/
  skbNextp : Bool
  needBytes : ℕ
  paused : Bool
  stopped : Bool
  interrupted : Bool
  unrecovIntr : Bool
deriving DecidableEq, Repr

/-- What the environment says in one round of the loop. -/
structure Round where
  clone : Bool
  unclone : Bool
  /-- The result of `parse_msg`. -/
  parse : Int32
  /-- The result of `strp_peek_len`. -/
  peekLen : Int32
  /-- The upper layer pauses the parser in `rcv_msg`. -/
  pauses : Bool

/-- What the environment says in one call. -/
structure Oracle where
  cloneOrig : Bool
  pull : Bool
  /-- A clone from which the offset was pulled has a `frag_list`. -/
  pulledFragList : Bool
  uncloneHead : Bool
  allocHead : Bool
  round : ℕ → Round

inductive Event where
  /-- `extra` is computed. -/
  | extra (extra : ℤ) (candLen : ℕ)
  /-- `eaten` is increased. -/
  | eaten (eaten origLen : ℕ)
  /-- A message is complete. -/
  | message
  | error (err : ℤ)
  | stopReading
  /-- The condition of a `WARN_ON` is true. -/
  | warn
  /-- The null pointer `skb_nextp` is used. -/
  | oops
  | returned (ret : ℤ) (origLen : ℕ)
deriving DecidableEq, Repr

/-! ### `__strp_recv` -/

section recv

variable (maxMsgSize : ℕ)

/-- The part before the loop, as in `Strp.prepare`.  A new head has the length and the `_strp_msg` of the old one. -/
def prepare (strp : Strparser) (orig : Skb) (origOffset : ℕ) (o : Oracle) :
    Strparser × Option (Skb × ℕ) × List Event :=
  match strp.skbHead with
  | none => (strp, some (orig, origOffset), [])
  | some head =>
      if origOffset ≠ 0 ∧ (o.cloneOrig && o.pull) = false then (strp, none, [.error (-12)])
      else
        let src := if origOffset ≠ 0 then (⟨orig.len - origOffset, o.pulledFragList⟩, 0) else (orig, 0)
        if strp.skbNextp then (strp, some src, [])
        else if o.uncloneHead = false then (strp, none, [.error (-12)])
        else if head.hasFragList = false then ({ strp with skbNextp := true }, some src, [])
        else if o.allocHead = false then (strp, none, [.error (-12)])
        else ({ strp with skbHead := some { head with hasFragList := true }, skbNextp := true }, some src, [])

/-- The clone `skb` becomes the head of a new message, or joins the head of the message in progress. -/
def join (strp : Strparser) (skb : Skb) (start : ℤ) (o : Round) : Except Event (Head × Strparser) :=
  match strp.skbHead with
  | none => .ok (⟨skb.len, skb.hasFragList, 0, int start, 0⟩, { strp with skbNextp := false })
  | some head =>
      if skb.hasFragList = true ∧ o.unclone = false then .error (.error (-12))
      else if strp.skbNextp = false then .error .oops
      else .ok ({ head with len := unsignedInt (head.len + skb.len), hasFragList := true }, strp)

/-- What is known about the length of a message. -/
inductive Measured where
  | needHeader
  | bad (err : ℤ) (interrupted unrecovIntr : Bool)
  | known (fullLen : ℤ)
deriving DecidableEq, Repr

def measure (head : Head) (skb : Skb) (len : ℤ) : Measured :=
  if head.fullLen ≠ 0 then .known head.fullLen
  else if len = 0 then .needHeader
  else if len < 0 then
    if len = -86 ∧ head.accumLen ≠ 0 then .bad (-61) false true else .bad len true false
  else if maxMsgSize < sizeT len then .bad (-90) false false
  else if len ≤ (head.len : ℤ) - skb.len - head.offset then .bad (-71) false false
  else .known (int len)

def warnOn (b : Bool) : List Event := if b then [.warn] else []

/-- The end of a round of the loop. -/
inductive Outcome where
  | leave (strp : Strparser) (eaten : ℕ) (e : List Event)
  | again (strp : Strparser) (eaten : ℕ) (e : List Event)

/-- One round of the loop. -/
def round (orig : Skb) (origOffset origLen : ℕ) (o : Round) (strp : Strparser) (eaten : ℕ) : Outcome :=
  if o.clone = false then .leave strp eaten [.error (-12)]
  else
    let candLen := sizeT (origLen - eaten)
    match join strp orig (origOffset + eaten) o with
    | .error e => .leave strp eaten [e]
    | .ok (head, strp) =>
        match measure maxMsgSize head orig o.parse.toInt with
        | .bad err interrupted unrecovIntr =>
            .leave { strp with
              skbHead := none
              stopped := true
              interrupted := strp.interrupted || interrupted
              unrecovIntr := strp.unrecovIntr || unrecovIntr } eaten [.error err]
        | .needHeader =>
            let eaten := sizeT (eaten + candLen)
            .leave { strp with skbHead := some { head with accumLen := int (head.accumLen + candLen) } } eaten
              (.eaten eaten origLen :: warnOn (eaten != origLen))
        | .known fullLen =>
            let extra := ssizeT (ssizeT (head.accumLen + candLen) - fullLen)
            if extra < 0 then
              let accumLen := int (head.accumLen + candLen)
              let eaten := sizeT (eaten + candLen)
              let head' := { head with fullLen := fullLen, accumLen := accumLen }
              if o.peekLen.toInt < int (fullLen - head.accumLen) then
                .leave { strp with skbHead := some head', needBytes := unsignedInt (fullLen - accumLen) } eaten
                  [.extra extra candLen, .eaten eaten origLen, .stopReading]
              else
                .leave { strp with skbHead := some head' } eaten
                  (.extra extra candLen :: .eaten eaten origLen :: warnOn (eaten != origLen))
            else
              let eaten := sizeT (eaten + (candLen - extra))
              .again { strp with skbHead := none, needBytes := 0, paused := o.pauses } eaten
                (.extra extra candLen :: warnOn (decide (candLen < sizeT extra)) ++
                  [.eaten eaten origLen, .message])

/-- The loop; `none` when the fuel does not suffice. -/
def loop (orig : Skb) (origOffset origLen : ℕ) (o : ℕ → Round) :
    ℕ → Strparser → ℕ → Option (Strparser × ℕ × List Event)
  | fuel, strp, eaten =>
      if origLen ≤ eaten then some (strp, eaten, [])
      else
        match fuel with
        | 0 => none
        | fuel + 1 =>
            match round maxMsgSize orig origOffset origLen (o fuel) strp eaten with
            | .leave strp eaten e => some (strp, eaten, e)
            | .again strp eaten e =>
                if strp.paused then some (strp, eaten, e)
                else (loop orig origOffset origLen o fuel strp eaten).map (fun r => (r.1, r.2.1, e ++ r.2.2))

/-- `__strp_recv`, which returns an `int`. -/
def strpRecv (strp : Strparser) (orig : Skb) (origOffset origLen : ℕ) (o : Oracle) :
    Option (Strparser × List Event) :=
  if strp.paused then some (strp, [.returned 0 origLen])
  else
    match prepare strp orig origOffset o with
    | (strp, none, e) => some (strp, e ++ [.returned 0 origLen])
    | (strp, some (orig, origOffset), e) =>
        (loop maxMsgSize orig origOffset origLen o.round origLen strp 0).map
          (fun r => (r.1, e ++ r.2.2 ++ [.returned (int r.2.1) origLen]))

/-- A buffer is presented from an offset on. -/
structure Recv where
  skb : Skb
  offset : ℕ
  oracle : Oracle
  offset_le : offset ≤ skb.len
  len_lt : skb.len < 2 ^ 32

inductive Act where
  /-- `__strp_recv` is called, for the bytes of a buffer from an offset on. -/
  | recv (r : Recv)
  /-- `strp_unpause`. -/
  | unpause

def step (strp : Strparser) : Act → Option (Strparser × List Event)
  | .recv r => strpRecv maxMsgSize strp r.skb r.offset (r.skb.len - r.offset) r.oracle
  | .unpause => some ({ strp with paused := false }, [])

/-- The parser after `strp_init`. -/
def Strparser.init : Strparser := ⟨none, false, 0, false, false, false, false⟩

def machine : Machine Strparser Act Event := ⟨Strparser.init, step maxMsgSize⟩

end recv

/-! ### Values that fit -/

theorem int_eq {x : ℤ} (h : -2 ^ 31 ≤ x) (h' : x < 2 ^ 31) : int x = x := by
  refine Int.bmod_eq_of_le ?_ ?_
  · change -(4294967296 / 2) ≤ x
    omega
  · change x < (4294967296 + 1) / 2
    omega

theorem ssizeT_eq {x : ℤ} (h : -2 ^ 63 ≤ x) (h' : x < 2 ^ 63) : ssizeT x = x := by
  refine Int.bmod_eq_of_le ?_ ?_
  · change -(18446744073709551616 / 2) ≤ x
    omega
  · change x < (18446744073709551616 + 1) / 2
    omega

theorem unsignedInt_eq {x : ℤ} {n : ℕ} (h : x = n) (h' : n < 2 ^ 32) : unsignedInt x = n := by
  unfold unsignedInt
  omega

theorem sizeT_eq {x : ℤ} {n : ℕ} (h : x = n) (h' : n < 2 ^ 64) : sizeT x = n := by
  unfold sizeT
  omega

/-! ### The invariant -/

/-- The counters of a message in progress agree. -/
structure Buffered (maxMsgSize : ℕ) (head : Head) : Prop where
  offset_nonneg : 0 ≤ head.offset
  accum_nonneg : 0 ≤ head.accumLen
  accum_eq : head.accumLen = head.len - head.offset
  full : head.fullLen = 0 ∨ head.accumLen < head.fullLen ∧ head.fullLen ≤ maxMsgSize ∧ head.fullLen < 2 ^ 31

def Inv (maxMsgSize : ℕ) (strp : Strparser) : Prop := ∀ head, strp.skbHead = some head → Buffered maxMsgSize head

/-- What an event may say. -/
def Event.Sound : Event → Prop
  | .extra x candLen => x ≤ candLen
  | .eaten n origLen => n ≤ origLen
  | .returned ret origLen => ret ≤ origLen
  | .warn => False
  | .oops => False
  | .message | .error _ | .stopReading => True

def Sound (e : List Event) : Prop := ∀ x ∈ e, x.Sound

/-- The length of the buffers of the message in progress. -/
def Strparser.headLen (strp : Strparser) : ℕ := (strp.skbHead.map Head.len).getD 0

/-- What holds in the loop.  A message in progress is that of the calls before, so nothing is eaten yet. -/
structure Ready (maxMsgSize : ℕ) (orig : Skb) (origOffset origLen : ℕ) (strp : Strparser) (eaten : ℕ) : Prop where
  len_eq : origOffset + origLen = orig.len
  eaten_le : eaten ≤ origLen
  fits : strp.headLen + orig.len < 2 ^ 31
  head : ∀ head, strp.skbHead = some head →
    Buffered maxMsgSize head ∧ strp.skbNextp = true ∧ origOffset = 0 ∧ eaten = 0

section loop

variable {maxMsgSize : ℕ} {orig : Skb} {origOffset origLen eaten : ℕ} {strp strp' : Strparser} {head : Head}
  {o : Round} {e : List Event}

theorem sound_nil : Sound [] := nofun

theorem Sound.cons {x : Event} (hx : x.Sound) (h : Sound e) : Sound (x :: e) := by
  intro y hy
  rcases List.mem_cons.mp hy with rfl | hy
  · exact hx
  · exact h y hy

theorem Sound.append {e' : List Event} (h : Sound e) (h' : Sound e') : Sound (e ++ e') := by
  intro x hx
  rcases List.mem_append.mp hx with hx | hx
  · exact h x hx
  · exact h' x hx

theorem sound_warnOn {b : Bool} (h : b = false) : Sound (warnOn b) := by
  rw [h]
  exact sound_nil

/-- The counters behind `join`: `accum_len` counts the bytes before the clone. -/
structure Joined (maxMsgSize : ℕ) (orig : Skb) (origLen : ℕ) (eaten : ℕ) (head : Head) : Prop where
  offset_nonneg : 0 ≤ head.offset
  accum_nonneg : 0 ≤ head.accumLen
  lt : head.len < 2 ^ 31
  accum_eq : head.accumLen + (origLen - eaten) = head.len - head.offset
  known : head.fullLen ≠ 0 → head.accumLen < head.fullLen ∧ head.fullLen ≤ maxMsgSize ∧ head.fullLen < 2 ^ 31
  /-- The length check of a new header compares with `accum_len`. -/
  before : head.fullLen = 0 → 0 < head.accumLen → (head.len : ℤ) - orig.len - head.offset = head.accumLen

theorem join_cases (h : Ready maxMsgSize orig origOffset origLen strp eaten) :
    (∃ err, join strp orig (origOffset + eaten) o = .error (.error err)) ∨
    ∃ head strp', join strp orig (origOffset + eaten) o = .ok (head, strp') ∧
      Joined maxMsgSize orig origLen eaten head ∧ strp'.paused = strp.paused := by
  have hlen := h.len_eq
  have heaten := h.eaten_le
  have hfits := h.fits
  unfold join
  cases hhead : strp.skbHead with
  | none =>
      have hstart : int (origOffset + eaten) = origOffset + eaten := int_eq (by omega) (by omega)
      rw [hstart]
      refine .inr ⟨⟨orig.len, orig.hasFragList, 0, origOffset + eaten, 0⟩,
        { strp with skbHead := none, skbNextp := false }, rfl, ?_, rfl⟩
      refine ⟨?_, le_rfl, ?_, ?_, fun hf => absurd rfl hf, fun _ hpos => absurd hpos (lt_irrefl 0)⟩
      · dsimp only
        omega
      · dsimp only
        omega
      · dsimp only
        omega
  | some head =>
      obtain ⟨hb, hnext, hoff, hzero⟩ := h.head head hhead
      have hheadLen : strp.headLen = head.len := by rw [Strparser.headLen, hhead]; rfl
      have hsum : unsignedInt (head.len + orig.len) = head.len + orig.len :=
        unsignedInt_eq (by push_cast; rfl) (by omega)
      have haccum := hb.accum_eq
      dsimp only
      split_ifs with hfrag hnull
      · exact .inl ⟨_, rfl⟩
      · rw [hnext] at hnull
        cases hnull
      · rw [hsum]
        refine .inr ⟨{ head with len := head.len + orig.len, hasFragList := true }, strp, rfl, ?_, rfl⟩
        refine ⟨hb.offset_nonneg, hb.accum_nonneg, ?_, ?_, fun hf => hb.full.resolve_left hf, fun _ _ => ?_⟩
        · dsimp only
          omega
        · dsimp only
          omega
        · dsimp only
          omega

theorem measure_needHeader {len : ℤ} (h : measure maxMsgSize head orig len = .needHeader) : head.fullLen = 0 := by
  by_contra hf
  rw [measure, if_pos hf] at h
  cases h

/-- A length that is accepted ends the message behind the bytes buffered before. -/
theorem measure_known {len : Int32} {fullLen : ℤ} (h : Joined maxMsgSize orig origLen eaten head)
    (hm : measure maxMsgSize head orig len.toInt = .known fullLen) :
    head.accumLen < fullLen ∧ fullLen ≤ maxMsgSize ∧ fullLen < 2 ^ 31 := by
  have hlt := len.toInt_lt
  have haccum := h.accum_nonneg
  have hoffset := h.offset_nonneg
  by_cases hf : head.fullLen ≠ 0
  · rw [measure, if_pos hf] at hm
    obtain rfl := Measured.known.inj hm
    exact h.known hf
  · rw [measure, if_neg hf] at hm
    split_ifs at hm with h0 hneg hpipe hbig hbad
    obtain rfl := Measured.known.inj hm
    rw [int_eq (by omega) hlt]
    have hsize : sizeT len.toInt = len.toInt.toNat := sizeT_eq (by omega) (by omega)
    have hbefore := h.before (not_not.mp hf)
    refine ⟨?_, by omega, hlt⟩
    by_cases hpos : 0 < head.accumLen
    · have := hbefore hpos
      omega
    · omega

/-! ### One round

Where the values fit a round is what its arithmetic says, without conversions. -/

theorem sizeT_candLen (h : Ready maxMsgSize orig origOffset origLen strp eaten) :
    sizeT (origLen - eaten) = origLen - eaten ∧ sizeT (eaten + (origLen - eaten : ℕ)) = origLen := by
  have hlen := h.len_eq
  have hfits := h.fits
  have hle := h.eaten_le
  exact ⟨sizeT_eq (by omega) (by omega), sizeT_eq (by omega) (by omega)⟩

theorem int_accumLen (hlt : eaten < origLen) (hjoin : Joined maxMsgSize orig origLen eaten head) :
    int (head.accumLen + (origLen - eaten : ℕ)) = head.accumLen + (origLen - eaten) := by
  have haccum := hjoin.accum_nonneg
  have hoffset := hjoin.offset_nonneg
  have hsum := hjoin.accum_eq
  have hheadLen := hjoin.lt
  rw [int_eq (by omega) (by omega)]
  omega

theorem ssizeT_extra (hlt : eaten < origLen) (hjoin : Joined maxMsgSize orig origLen eaten head) {fullLen : ℤ}
    (hfull : head.accumLen < fullLen ∧ fullLen < 2 ^ 31) :
    ssizeT (ssizeT (head.accumLen + (origLen - eaten : ℕ)) - fullLen) =
      head.accumLen + (origLen - eaten) - fullLen := by
  have haccum := hjoin.accum_nonneg
  have hoffset := hjoin.offset_nonneg
  have hsum := hjoin.accum_eq
  have hheadLen := hjoin.lt
  rw [ssizeT_eq (x := head.accumLen + (origLen - eaten : ℕ)) (by omega) (by omega), ssizeT_eq (by omega) (by omega)]
  omega

theorem round_bad (hclone : o.clone = true) (hj : join strp orig (origOffset + eaten) o = .ok (head, strp'))
    {err : ℤ} {interrupted unrecovIntr : Bool}
    (hm : measure maxMsgSize head orig o.parse.toInt = .bad err interrupted unrecovIntr) :
    round maxMsgSize orig origOffset origLen o strp eaten = .leave { strp' with
      skbHead := none
      stopped := true
      interrupted := strp'.interrupted || interrupted
      unrecovIntr := strp'.unrecovIntr || unrecovIntr } eaten [.error err] := by
  simp only [round, hclone, Bool.true_eq_false, if_false, hj, hm]

section round

variable (h : Ready maxMsgSize orig origOffset origLen strp eaten) (hlt : eaten < origLen) (hclone : o.clone = true)
  (hj : join strp orig (origOffset + eaten) o = .ok (head, strp')) (hjoin : Joined maxMsgSize orig origLen eaten head)

include h hlt hclone hj hjoin

theorem round_needHeader (hm : measure maxMsgSize head orig o.parse.toInt = .needHeader) :
    round maxMsgSize orig origOffset origLen o strp eaten =
      .leave { strp' with skbHead := some { head with accumLen := head.accumLen + (origLen - eaten) } } origLen
        [.eaten origLen origLen] := by
  obtain ⟨hcand, hall⟩ := sizeT_candLen h
  simp only [round, hclone, Bool.true_eq_false, if_false, hj, hm, hcand, hall, int_accumLen hlt hjoin,
    bne_self_eq_false, warnOn, Bool.false_eq_true, if_false]

/-- The message is not complete. -/
theorem round_short {fullLen : ℤ} (hm : measure maxMsgSize head orig o.parse.toInt = .known fullLen)
    (hshort : head.accumLen + (origLen - eaten) < fullLen) :
    ∃ e, round maxMsgSize orig origOffset origLen o strp eaten =
      .leave { strp' with
        skbHead := some { head with fullLen := fullLen, accumLen := head.accumLen + (origLen - eaten) }
        needBytes := if o.peekLen.toInt < fullLen - head.accumLen then
          (fullLen - (head.accumLen + (origLen - eaten))).toNat else strp'.needBytes } origLen e ∧ Sound e := by
  obtain ⟨hmore, -, hint⟩ := measure_known hjoin hm
  obtain ⟨hcand, hall⟩ := sizeT_candLen h
  have haccum := hjoin.accum_nonneg
  have hneed : int (fullLen - head.accumLen) = fullLen - head.accumLen := int_eq (by omega) (by omega)
  have hleft : unsignedInt (fullLen - (head.accumLen + (origLen - eaten))) =
      (fullLen - (head.accumLen + (origLen - eaten))).toNat := unsignedInt_eq (by omega) (by omega)
  have hsound : (Event.extra (head.accumLen + (origLen - eaten) - fullLen) (origLen - eaten)).Sound := by
    simp only [Event.Sound]
    omega
  have hneg : head.accumLen + (origLen - eaten) - fullLen < 0 := by omega
  simp only [round, hclone, Bool.true_eq_false, if_false, hj, hm, hcand, hall, int_accumLen hlt hjoin,
    ssizeT_extra hlt hjoin ⟨hmore, hint⟩, if_pos hneg, hneed, hleft]
  split_ifs with hpeek
  · exact ⟨_, rfl, .cons hsound (.cons (le_refl origLen) (.cons trivial sound_nil))⟩
  · exact ⟨_, rfl, .cons hsound (.cons (le_refl origLen) (sound_warnOn (bne_self_eq_false origLen)))⟩

/-- The message is complete. -/
theorem round_complete {fullLen : ℤ} (hm : measure maxMsgSize head orig o.parse.toInt = .known fullLen)
    (hcomplete : fullLen ≤ head.accumLen + (origLen - eaten)) :
    ∃ e, round maxMsgSize orig origOffset origLen o strp eaten =
      .again { strp' with skbHead := none, needBytes := 0, paused := o.pauses }
        (eaten + (fullLen - head.accumLen).toNat) e ∧ Sound e := by
  obtain ⟨hmore, -, hint⟩ := measure_known hjoin hm
  obtain ⟨hcand, -⟩ := sizeT_candLen h
  have hlen := h.len_eq
  have hfits := h.fits
  have haccum := hjoin.accum_nonneg
  have hneg : ¬ head.accumLen + (origLen - eaten) - fullLen < 0 := by omega
  have hsize : sizeT (head.accumLen + (origLen - eaten) - fullLen) =
      (head.accumLen + (origLen - eaten) - fullLen).toNat := sizeT_eq (by omega) (by omega)
  have heaten : sizeT (eaten + ((origLen - eaten : ℕ) - (head.accumLen + (origLen - eaten) - fullLen))) =
      eaten + (fullLen - head.accumLen).toNat := sizeT_eq (by omega) (by omega)
  simp only [round, hclone, Bool.true_eq_false, if_false, hj, hm, hcand, ssizeT_extra hlt hjoin ⟨hmore, hint⟩,
    if_neg hneg, hsize, heaten]
  refine ⟨_, rfl, .cons ?_ (.append (sound_warnOn (decide_eq_false ?_)) (.cons ?_ (.cons trivial sound_nil)))⟩
  · simp only [Event.Sound]
    omega
  · omega
  · simp only [Event.Sound]
    omega

end round

/-- What the end of a round says. -/
inductive Ends (maxMsgSize origLen eaten : ℕ) : Outcome → Prop
  | leave {strp : Strparser} {eaten' : ℕ} {e : List Event} : Inv maxMsgSize strp → eaten' ≤ origLen → Sound e →
      Ends maxMsgSize origLen eaten (.leave strp eaten' e)
  | again {strp : Strparser} {eaten' : ℕ} {e : List Event} : strp.skbHead = none → eaten < eaten' →
      eaten' ≤ origLen → Sound e → Ends maxMsgSize origLen eaten (.again strp eaten' e)

theorem inv_of_head {h : Head} (hs : strp.skbHead = some h) (hb : Buffered maxMsgSize h) : Inv maxMsgSize strp := by
  intro head hhead
  rw [hs] at hhead
  obtain rfl := Option.some.inj hhead
  exact hb

theorem ends_round (h : Ready maxMsgSize orig origOffset origLen strp eaten) (hlt : eaten < origLen) :
    Ends maxMsgSize origLen eaten (round maxMsgSize orig origOffset origLen o strp eaten) := by
  have hinv : Inv maxMsgSize strp := fun head hhead => (h.head head hhead).1
  by_cases hclone : o.clone = false
  · rw [round, if_pos hclone]
    exact .leave hinv hlt.le (.cons trivial sound_nil)
  have hclone := eq_true_of_ne_false hclone
  rcases join_cases (o := o) h with ⟨err, hj⟩ | ⟨head, strp', hj, hjoin, -⟩
  · simp only [round, hclone, Bool.true_eq_false, if_false, hj]
    exact .leave hinv hlt.le (.cons trivial sound_nil)
  have haccum := hjoin.accum_nonneg
  have hsum := hjoin.accum_eq
  cases hm : measure maxMsgSize head orig o.parse.toInt with
  | bad err interrupted unrecovIntr =>
      rw [round_bad hclone hj hm]
      exact .leave nofun hlt.le (.cons trivial sound_nil)
  | needHeader =>
      have hzero := measure_needHeader hm
      rw [round_needHeader h hlt hclone hj hjoin hm]
      refine .leave (inv_of_head rfl ⟨hjoin.offset_nonneg, ?_, hsum, .inl hzero⟩) le_rfl
        (.cons (le_refl origLen) sound_nil)
      dsimp only
      omega
  | known fullLen =>
      obtain ⟨hmore, hmax, hint⟩ := measure_known hjoin hm
      by_cases hshort : head.accumLen + (origLen - eaten) < fullLen
      · obtain ⟨e, heq, hsound⟩ := round_short h hlt hclone hj hjoin hm hshort
        rw [heq]
        refine .leave (inv_of_head rfl ⟨hjoin.offset_nonneg, ?_, hsum, .inr ⟨hshort, hmax, hint⟩⟩) le_rfl hsound
        dsimp only
        omega
      · obtain ⟨e, heq, hsound⟩ := round_complete h hlt hclone hj hjoin hm (not_lt.mp hshort)
        rw [heq]
        exact .again rfl (by omega) (by omega) hsound

theorem headLen_none (h : strp.skbHead = none) : strp.headLen = 0 := by rw [Strparser.headLen, h]; rfl

theorem headLen_some (h : strp.skbHead = some head) : strp.headLen = head.len := by rw [Strparser.headLen, h]; rfl

/-- Behind a complete message the loop starts a new one. -/
theorem Ready.next {eaten' : ℕ} (h : Ready maxMsgSize orig origOffset origLen strp eaten)
    (hnone : strp'.skbHead = none) (hle : eaten' ≤ origLen) :
    Ready maxMsgSize orig origOffset origLen strp' eaten' := by
  have hfits := h.fits
  refine ⟨h.len_eq, hle, by rw [headLen_none hnone]; omega, fun head hhead => ?_⟩
  rw [hnone] at hhead
  cases hhead

/-- The loop ends when each round that goes on eats a byte. -/
theorem loop_spec (o : ℕ → Round) (fuel : ℕ) (h : Ready maxMsgSize orig origOffset origLen strp eaten)
    (hfuel : origLen ≤ fuel + eaten) :
    ∃ strp' eaten' e, loop maxMsgSize orig origOffset origLen o fuel strp eaten = some (strp', eaten', e) ∧
      Inv maxMsgSize strp' ∧ eaten' ≤ origLen ∧ Sound e := by
  induction fuel generalizing strp eaten with
  | zero =>
      refine ⟨strp, eaten, [], ?_, fun head hhead => (h.head head hhead).1, h.eaten_le, sound_nil⟩
      rw [loop, if_pos (by omega)]
  | succ fuel ih =>
      by_cases hle : origLen ≤ eaten
      · refine ⟨strp, eaten, [], ?_, fun head hhead => (h.head head hhead).1, h.eaten_le, sound_nil⟩
        rw [loop, if_pos hle]
      · rw [loop, if_neg hle]
        have hround := ends_round (o := o fuel) h (not_le.mp hle)
        cases hr : round maxMsgSize orig origOffset origLen (o fuel) strp eaten with
        | leave strp' eaten' e =>
            rw [hr] at hround
            cases hround with
            | leave hinv hle' hsound => exact ⟨strp', eaten', e, rfl, hinv, hle', hsound⟩
        | again strp' eaten' e =>
            rw [hr] at hround
            cases hround with
            | again hnone hmore hle' hsound =>
                have hinv : Inv maxMsgSize strp' := by
                  intro head hhead
                  rw [hnone] at hhead
                  cases hhead
                dsimp only
                split_ifs
                · exact ⟨strp', eaten', e, rfl, hinv, hle', hsound⟩
                · obtain ⟨strp₂, eaten₂, e₂, hloop, hinv₂, hle₂, hsound₂⟩ := ih (h.next hnone hle') (by omega)
                  exact ⟨strp₂, eaten₂, e ++ e₂, by rw [hloop]; rfl, hinv₂, hle₂, hsound.append hsound₂⟩

/-- What is done before the loop changes no counter of the message in progress. -/
theorem prepare_cases (o : Oracle) {offset : ℕ} (h : Inv maxMsgSize strp) (hoffset : offset ≤ orig.len)
    (hfits : strp.headLen + orig.len < 2 ^ 31) :
    (∃ err, prepare strp orig offset o = (strp, none, [.error err])) ∨
    ∃ strp' orig' offset', prepare strp orig offset o = (strp', some (orig', offset'), []) ∧
      Ready maxMsgSize orig' offset' (orig.len - offset) strp' 0 := by
  unfold prepare
  cases hhead : strp.skbHead with
  | none =>
      refine .inr ⟨strp, orig, offset, rfl, ⟨by omega, Nat.zero_le _, hfits, fun head hh => ?_⟩⟩
      rw [hhead] at hh
      cases hh
  | some head =>
      have hb := h head hhead
      rw [headLen_some hhead] at hfits
      obtain ⟨src, hsrc⟩ : ∃ src : Skb × ℕ, src =
          if offset ≠ 0 then (⟨orig.len - offset, o.pulledFragList⟩, 0) else (orig, 0) := ⟨_, rfl⟩
      obtain ⟨hlen, hzero⟩ : src.1.len = orig.len - offset ∧ src.2 = 0 := by
        rw [hsrc]
        split_ifs with h0
        · exact ⟨rfl, rfl⟩
        · rw [not_not.mp h0]
          exact ⟨rfl, rfl⟩
      have hready : ∀ strp' head', strp'.skbHead = some head' → strp'.skbNextp = true →
          Buffered maxMsgSize head' → head'.len = head.len →
          Ready maxMsgSize src.1 src.2 (orig.len - offset) strp' 0 := by
        intro strp' head' hs hn hb' hl
        refine ⟨by omega, Nat.zero_le _, by rw [headLen_some hs]; omega, fun x hx => ?_⟩
        rw [hs] at hx
        obtain rfl := Option.some.inj hx
        exact ⟨hb', hn, hzero, rfl⟩
      dsimp only
      rw [← hsrc]
      split_ifs with hpull hnext hunclone hfrag halloc
      · exact .inl ⟨_, rfl⟩
      · exact .inr ⟨_, src.1, src.2, rfl, hready strp head hhead hnext hb rfl⟩
      · exact .inl ⟨_, rfl⟩
      · exact .inr ⟨_, src.1, src.2, rfl, hready _ head rfl rfl hb rfl⟩
      · exact .inl ⟨_, rfl⟩
      · have hb' : Buffered maxMsgSize { head with hasFragList := true } :=
          ⟨hb.offset_nonneg, hb.accum_nonneg, hb.accum_eq, hb.full⟩
        exact .inr ⟨_, src.1, src.2, rfl, hready _ { head with hasFragList := true } rfl rfl hb' rfl⟩

/-- A call returns, keeps the invariant, and says nothing that is not sound. -/
theorem strpRecv_spec (o : Oracle) {offset : ℕ} (h : Inv maxMsgSize strp) (hoffset : offset ≤ orig.len)
    (hfits : strp.headLen + orig.len < 2 ^ 31) :
    ∃ strp' e, strpRecv maxMsgSize strp orig offset (orig.len - offset) o = some (strp', e) ∧
      Inv maxMsgSize strp' ∧ Sound e := by
  have hzero : Sound [.returned 0 (orig.len - offset)] := .cons (Int.natCast_nonneg _) sound_nil
  unfold strpRecv
  split_ifs with hpaused
  · exact ⟨strp, _, rfl, h, hzero⟩
  · rcases prepare_cases o h hoffset hfits with ⟨err, hprep⟩ | ⟨strp₁, orig₁, offset₁, hprep, hready⟩
    · rw [hprep]
      exact ⟨strp, _, rfl, h, .cons trivial hzero⟩
    · obtain ⟨strp', eaten, e, hloop, hinv, hle, hsound⟩ :=
        loop_spec o.round (orig.len - offset) hready (Nat.le_add_right _ _)
      rw [hprep]
      dsimp only
      rw [hloop]
      refine ⟨strp', [] ++ e ++ [.returned (int eaten) (orig.len - offset)], rfl, hinv, hsound.append ?_⟩
      have hret : int eaten = eaten := int_eq (by omega) (by omega)
      refine .cons ?_ sound_nil
      rw [hret]
      exact Int.ofNat_le.mpr hle

end loop

/-! ### Runs -/

/-- The buffers of the message in progress and the buffer that is presented are together shorter than `2 ^ 31`
bytes. -/
def Fits (strp : Strparser) : Act → Prop
  | .recv r => strp.headLen + r.skb.len < 2 ^ 31
  | .unpause => True

instance (strp : Strparser) : DecidablePred (Fits strp)
  | .recv r => inferInstanceAs (Decidable (strp.headLen + r.skb.len < 2 ^ 31))
  | .unpause => isTrue trivial

section runs

variable {maxMsgSize : ℕ} {strp : Strparser} {es : List Event}

theorem step_spec (h : Inv maxMsgSize strp) {a : Act} (hfits : Fits strp a) :
    ∃ strp' e, step maxMsgSize strp a = some (strp', e) ∧ Inv maxMsgSize strp' ∧ Sound e := by
  cases a with
  | recv r => exact strpRecv_spec r.oracle h r.offset_le hfits
  | unpause => exact ⟨_, [], rfl, h, sound_nil⟩

theorem inv_of_reach (h : (machine maxMsgSize).Reach Fits strp es) : Inv maxMsgSize strp ∧ Sound es := by
  have hinit : Inv maxMsgSize Strparser.init := fun head hhead => by cases hhead
  refine h.invariant (P := fun strp es => Inv maxMsgSize strp ∧ Sound es) ⟨hinit, sound_nil⟩ ?_
  intro s es a s' e _ ih hg hs
  obtain ⟨strp', e', hs', hinv, hsound⟩ := step_spec ih.1 hg
  obtain ⟨rfl, rfl⟩ := Prod.mk.inj (Option.some.inj (hs'.symm.trans hs))
  exact ⟨hinv, ih.2.append hsound⟩

/-- **The counters of a message in progress agree.**  In every run of calls of `__strp_recv`, with any results of
`parse_msg` and of the allocations, in which the buffers of a message are together shorter than `2 ^ 31` bytes:
between two calls `accum_len` is the number of bytes buffered of the message in progress, and its length is not known
or greater and at most `max_msg_size`; within a call `extra` is at most `cand_len`, `eaten` and the result are at most
`orig_len`, and no condition of a `WARN_ON` is true; and every such call returns. -/
theorem counters_agree (h : (machine maxMsgSize).Reach Fits strp es) :
    (∀ head, strp.skbHead = some head → head.accumLen = head.len - head.offset ∧
      (head.fullLen = 0 ∨ head.accumLen < head.fullLen ∧ head.fullLen ≤ maxMsgSize)) ∧
    (∀ (x : ℤ) (candLen : ℕ), .extra x candLen ∈ es → x ≤ candLen) ∧
    (∀ n origLen, .eaten n origLen ∈ es → n ≤ origLen) ∧
    (∀ (ret : ℤ) (origLen : ℕ), .returned ret origLen ∈ es → ret ≤ origLen) ∧
    .warn ∉ es ∧ .oops ∉ es ∧
    ∀ a, Fits strp a → ∃ r, step maxMsgSize strp a = some r := by
  obtain ⟨hinv, hsound⟩ := inv_of_reach h
  refine ⟨fun head hhead => ?_, fun x candLen hx => hsound _ hx, fun n origLen hx => hsound _ hx,
    fun ret origLen hx => hsound _ hx, fun hx => hsound _ hx, fun hx => hsound _ hx, fun a ha => ?_⟩
  · have hb := hinv head hhead
    exact ⟨hb.accum_eq, hb.full.imp_right (fun hfull => ⟨hfull.1, hfull.2.1⟩)⟩
  · obtain ⟨strp', e, hs, -⟩ := step_spec hinv ha
    exact ⟨_, hs⟩

end runs

/-! ### Two runs -/

/-- No kernel call fails; `parse_msg` returns `len` in the first round of a call for `origLen` bytes, and `len'`
in the others. -/
def Oracle.parses (origLen : ℕ) (len len' : Int32) : Oracle :=
  ⟨true, true, false, true, true, fun n => ⟨true, true, if n + 1 = origLen then len else len', 0, false⟩⟩

/-- A message of 40 bytes behind an offset of 10, and the beginning of a message; then, behind an offset of 5, its
end, and the beginning of a message of 200 bytes. -/
def threeMessages : List Act :=
  [.recv ⟨⟨110, false⟩, 10, .parses 100 40 0, by decide, by decide⟩,
    .recv ⟨⟨65, false⟩, 5, .parses 60 80 200, by decide, by decide⟩]

theorem counters_agree_threeMessages : ∃ s es head, (machine 1000).Reach Fits s es ∧ s.skbHead = some head ∧
    head.len = 60 ∧ head.offset = 20 ∧ head.fullLen = 200 ∧ head.accumLen = 40 ∧ .warn ∉ es := by
  obtain ⟨s, es, hr, hy⟩ := Machine.Reach.of_exec (M := machine 1000) (G := Fits) (g := fun s a => decide (Fits s a))
    threeMessages (fun _ _ _ => of_decide_eq_true)
    (fun r => r.1.skbHead.map (fun head => (head.len, head.offset, head.fullLen)))
    (some (60, 20, 200)) (by decide +kernel)
  obtain ⟨hhead, -, -, -, hwarn, -⟩ := counters_agree hr
  obtain ⟨head, hs, hh⟩ := Option.map_eq_some_iff.mp hy
  simp only [Prod.mk.injEq] at hh
  obtain ⟨hlen, hoffset, hfull⟩ := hh
  obtain ⟨haccum, -⟩ := hhead head hs
  refine ⟨s, es, head, hr, hs, hlen, hoffset, hfull, ?_, hwarn⟩
  rw [haccum, hlen, hoffset]
  rfl

/-- `parse_msg` does not fail. -/
def NonNegative (_ : Strparser) : Act → Prop
  | .recv r => ∀ n, 0 ≤ (r.oracle.round n).parse.toInt
  | .unpause => True

theorem parse_parses_zero (k : ℕ) : ((Oracle.parses 0 0 0).round k).parse = 0 := by
  change (if k + 1 = 0 then (0 : Int32) else 0) = 0
  rw [ite_self]

/-- A buffer of `m` bytes in which `parse_msg` does not find the length of the message. -/
def noLength (m : ℕ) (h : m < 2 ^ 32) : Act := .recv ⟨⟨m, false⟩, 0, .parses 0 0 0, Nat.zero_le m, h⟩

/-- The parser after `n` such buffers. -/
def fed (m n : ℕ) (skbNextp : Bool) : Strparser where
  skbHead := if n = 0 then none else some ⟨unsignedInt (m * n), decide (1 < n), 0, 0, int (m * n)⟩
  skbNextp := skbNextp
  needBytes := 0
  paused := false
  stopped := false
  interrupted := false
  unrecovIntr := false

section fed

variable {m : ℕ} (n : ℕ)

theorem natCast_mul_succ (m n : ℕ) : (m : ℤ) * (n + 1 : ℕ) = m * n + m := by
  rw [Int.natCast_succ, Int.mul_add, Int.mul_one]

theorem int_add (x y : ℤ) : int (int x + y) = int (x + y) := Int.bmod_add_bmod

theorem unsignedInt_add (x y : ℤ) : unsignedInt (unsignedInt x + y) = unsignedInt (x + y) := by
  unfold unsignedInt
  omega

theorem prepare_fed (o : ℕ → Round) :
    prepare (fed m n (decide (1 < n))) ⟨m, false⟩ 0 ⟨true, true, false, true, true, o⟩ =
      (fed m n (decide (0 < n)), some (⟨m, false⟩, 0), []) := by
  cases n with
  | zero => rfl
  | succ n =>
      cases n with
      | zero => rfl
      | succ n => simp [prepare, fed]

/-- The head of the message before and behind the next buffer. -/
theorem join_fed (hm : m < 2 ^ 31) (o : Round) :
    join (fed m n (decide (0 < n))) ⟨m, false⟩ ((0 : ℕ) + (0 : ℕ)) o =
      .ok (⟨unsignedInt (m * (n + 1 : ℕ)), decide (1 < n + 1), 0, 0, int (m * n)⟩, fed m n (decide (1 < n + 1))) := by
  cases n with
  | zero =>
      have hlen : unsignedInt (m * (0 + 1 : ℕ)) = m := unsignedInt_eq (by simp) (by omega)
      rw [hlen]
      simp [join, fed, int]
  | succ n =>
      have hlen : unsignedInt (unsignedInt (m * (n + 1 : ℕ)) + m) = unsignedInt (m * (n + 1 + 1 : ℕ)) := by
        rw [unsignedInt_add, natCast_mul_succ m (n + 1)]
      rw [← hlen]
      simp [join, fed]

theorem round_fed (maxMsgSize : ℕ) (hm : m < 2 ^ 31) {o : Round} (hclone : o.clone = true) (hparse : o.parse = 0) :
    round maxMsgSize ⟨m, false⟩ 0 m o (fed m n (decide (0 < n))) 0 =
      .leave (fed m (n + 1) (decide (1 < n + 1))) m [.eaten m m] := by
  have hcand : sizeT ((m : ℤ) - (0 : ℕ)) = m := sizeT_eq (by simp) (by omega)
  have hall : sizeT ((0 : ℕ) + (m : ℤ)) = m := sizeT_eq (by simp) (by omega)
  have haccum : int (int (m * n) + m) = int (m * (n + 1 : ℕ)) := by
    rw [int_add, natCast_mul_succ]
  have hmeasure : measure maxMsgSize ⟨unsignedInt (m * (n + 1 : ℕ)), decide (1 < n + 1), 0, 0, int (m * n)⟩ ⟨m, false⟩
      (0 : Int32).toInt = .needHeader := rfl
  have hwarn : (m != m) = false := bne_self_eq_false m
  simp only [round, hclone, Bool.true_eq_false, if_false, join_fed n hm, hparse, hmeasure, hcand, haccum, hall, hwarn]
  rfl

theorem step_fed (maxMsgSize : ℕ) (hpos : 0 < m) (hm : m < 2 ^ 31) (h : m < 2 ^ 32) :
    step maxMsgSize (fed m n (decide (1 < n))) (noLength m h) =
      some (fed m (n + 1) (decide (1 < n + 1)), [.eaten m m, .returned (int m) m]) := by
  obtain ⟨k, rfl⟩ : ∃ k, m = k + 1 := ⟨m - 1, by omega⟩
  have hround := round_fed n maxMsgSize hm (o := (Oracle.parses 0 0 0).round k) rfl (parse_parses_zero k)
  have hloop : loop maxMsgSize ⟨k + 1, false⟩ 0 (k + 1) (Oracle.parses 0 0 0).round (k + 1)
      (fed (k + 1) n (decide (0 < n))) 0 =
      some (fed (k + 1) (n + 1) (decide (1 < n + 1)), k + 1, [.eaten (k + 1) (k + 1)]) := by
    rw [loop, if_neg (by omega), hround]
  change strpRecv maxMsgSize (fed (k + 1) n (decide (1 < n))) ⟨k + 1, false⟩ 0 (k + 1) (.parses 0 0 0) = _
  rw [strpRecv, if_neg (by simp [fed]), Oracle.parses, prepare_fed]
  dsimp only
  rw [Oracle.parses] at hloop
  rw [hloop]
  rfl

/-- Such buffers are presented one after the other. -/
theorem exists_reach_fed (maxMsgSize : ℕ) (hpos : 0 < m) (hm : m < 2 ^ 31) :
    ∃ es, (machine maxMsgSize).Reach NonNegative (fed m n (decide (1 < n))) es := by
  induction n with
  | zero => exact ⟨[], .init⟩
  | succ n ih =>
      obtain ⟨es, hr⟩ := ih
      have hstep := step_fed n maxMsgSize hpos hm (by omega)
      refine ⟨_, hr.step (a := noLength m (by omega)) (fun k => ?_) hstep⟩
      change 0 ≤ ((Oracle.parses 0 0 0).round k).parse.toInt
      rw [parse_parses_zero]
      decide

end fed

/-- **`accum_len` becomes negative** when `2 ^ 17` buffers of `2 ^ 14` bytes have arrived and `parse_msg` has not
found the length of the message: then `2 ^ 31` bytes are buffered, and `accum_len` is `-2 ^ 31`. -/
theorem accumLen_wraps :
    (∃ s es head, (machine 1000).Reach NonNegative s es ∧ s.skbHead = some head ∧ head.offset = 0 ∧
      head.len = 2 ^ 31 ∧ head.accumLen = -2 ^ 31) ∧
    ¬ ∀ maxMsgSize s es head, (machine maxMsgSize).Reach NonNegative s es → s.skbHead = some head →
      head.accumLen = head.len - head.offset := by
  obtain ⟨es, hr⟩ := exists_reach_fed (m := 2 ^ 14) (2 ^ 17) 1000 (by decide) (by decide)
  have hhead : (fed (2 ^ 14) (2 ^ 17) (decide (1 < 2 ^ 17))).skbHead = some ⟨2 ^ 31, true, 0, 0, -2 ^ 31⟩ := by
    decide +kernel
  refine ⟨⟨_, es, _, hr, hhead, rfl, rfl, rfl⟩, fun hall => ?_⟩
  have := hall 1000 _ es _ hr hhead
  exact absurd this (by decide)

end Rakaia.Strp.Counters
