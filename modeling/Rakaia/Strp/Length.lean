import Rakaia.Strp.Memcache

/-! # The length of a request

The parse callback adds the length of the body, which the client chooses, to that of the header in 32 bits
and returns the sum as an `int`, of which `__strp_recv` takes 0 to mean that the header is not complete and
negative values to mean an error.  A body of `2 ^ 32 - 28` bytes or more makes the sum wrap to a value from 0
to 27.  Otherwise the result is negative or exact (`length_exact_iff`), and then `__strp_recv` hands on no
message shorter than a header and waits for header bytes only while some are missing.

The callback says that it does what the BPF program `memcached_rakaia` does, which is used with KCM.  The BPF
program swaps the two low bytes of every field, whatever its width: it agrees with the callback on the key
only (`bpf_agrees_iff`). -/

namespace Rakaia.Strp.Memcache

open Lib

/-! ### The result of the callback -/

/-- The length of the request that the bytes start with is a `u32`. -/
def NoWrap (l : List UInt8) : Prop := beAt l 1 1 = cmdSet.toNat → headerLen + beAt l 12 4 < 2 ^ 32

instance (l : List UInt8) : Decidable (NoWrap l) := inferInstanceAs (Decidable (_ → _))

theorem noWrap_iff (l : List UInt8) : NoWrap l ↔ requestLen l < 2 ^ 32 := by
  have h6 := beAt_lt l 6 2
  have h8 := beAt_lt l 8 1
  unfold NoWrap requestLen headerLen
  split_ifs with hset
  · simp [hset]
  · simp only [hset, false_implies, true_iff]
    omega

theorem headerLen_le_requestLen (l : List UInt8) : headerLen ≤ requestLen l := by
  unfold requestLen
  split_ifs <;> omega

theorem requestLen_lt (l : List UInt8) : requestLen l < 2 ^ 32 + 28 := by
  have h6 := beAt_lt l 6 2
  have h8 := beAt_lt l 8 1
  have h12 := beAt_lt l 12 4
  unfold requestLen headerLen
  split_ifs <;> omega

theorem toInt_rakaiaParseFunc {skb : SkBuff} {offset : ℕ} (hle : offset + headerLen ≤ skb.len) :
    (rakaiaParseFunc skb offset).toInt = Int.bmod (requestLen (skb.bytes.drop offset)) (2 ^ 32) := by
  rw [rakaiaParseFunc_eq hle]
  exact BitVec.toInt_ofNat _

/-- The result is negative or exact, and not 0, if and only if the sum does not wrap. -/
theorem rakaiaParseFunc_exact_iff {skb : SkBuff} {offset : ℕ} (hle : offset + headerLen ≤ skb.len) :
    ((rakaiaParseFunc skb offset).toInt < 0 ∨
      (rakaiaParseFunc skb offset).toInt = requestLen (skb.bytes.drop offset)) ∧
      (rakaiaParseFunc skb offset).toInt ≠ 0 ↔ NoWrap (skb.bytes.drop offset) := by
  have hge := headerLen_le_requestLen (skb.bytes.drop offset)
  have hlt := requestLen_lt (skb.bytes.drop offset)
  unfold headerLen at hge
  rw [toInt_rakaiaParseFunc hle, noWrap_iff, Int.bmod_def]
  omega

/-- A positive result is the length of the request. -/
theorem requestLen_of_pos {skb : SkBuff} {offset : ℕ} (hle : offset + headerLen ≤ skb.len)
    (hn : NoWrap (skb.bytes.drop offset)) (hpos : 0 < (rakaiaParseFunc skb offset).toInt) :
    (rakaiaParseFunc skb offset).toInt = requestLen (skb.bytes.drop offset) := by
  rcases ((rakaiaParseFunc_exact_iff hle).mpr hn).1 with hneg | heq
  · omega
  · exact heq

/-- While bytes of the header are missing, the result is 0. -/
theorem rakaiaParseFunc_short {skb : SkBuff} {offset : ℕ} (h : ¬ offset + headerLen ≤ skb.len) :
    rakaiaParseFunc skb offset = 0 := by
  rw [rakaiaParseFunc, SkBuff.headerPointer, if_neg h]

/-! ### What `__strp_recv` makes of it -/

/-- The header of the message in progress does not wrap, once it is there. -/
def Head.Sound (head : Head Unit) : Prop :=
  head.stm.offset + headerLen ≤ head.skb.len → NoWrap (head.skb.bytes.drop head.stm.offset)

instance (head : Head Unit) : Decidable (Head.Sound head) := inferInstanceAs (Decidable (_ → _))

/-- The message whose length is parsed in a round of the loop. -/
def parsedIn (strp : Strparser Unit) (orig : SkBuff) (start : ℕ) (o : Round) : Option (Head Unit) :=
  if o.clone = false then none
  else
    match join strp orig start o with
    | .error _ => none
    | .ok (head, _) => if head.stm.fullLen = 0 then some head else none

/-- The messages whose lengths are parsed by the loop. -/
def parsedBy (maxMsgSize : ℕ) (orig : SkBuff) (origOffset origLen : ℕ) (o : ℕ → Round) :
    ℕ → Strparser Unit → ℕ → List (Head Unit)
  | fuel, strp, eaten =>
      if origLen ≤ eaten then []
      else
        match fuel with
        | 0 => []
        | fuel + 1 =>
            (parsedIn strp orig (origOffset + eaten) (o fuel)).toList ++
              match round parser maxMsgSize orig origOffset origLen (o fuel) strp eaten with
              | .leave _ _ _ => []
              | .again strp eaten _ => parsedBy maxMsgSize orig origOffset origLen o fuel strp eaten

/-- The messages whose lengths are parsed in a call of `__strp_recv`. -/
def parsed (maxMsgSize : ℕ) (s : State Unit) (a : Act) : List (Head Unit) :=
  match prepare s.strp a.skb a.offset a.oracle with
  | (_, none, _) => []
  | (strp, some (orig, origOffset), _) =>
      parsedBy maxMsgSize orig origOffset (a.skb.len - a.offset) a.oracle.round (a.skb.len - a.offset) strp 0

/-- No header that the call parses wraps. -/
def Unwrapped (maxMsgSize : ℕ) (s : State Unit) (a : Act) : Prop :=
  ∀ head ∈ parsed maxMsgSize s a, Head.Sound head

instance (maxMsgSize : ℕ) (s : State Unit) : DecidablePred (Unwrapped maxMsgSize s) := fun a =>
  inferInstanceAs (Decidable (∀ head ∈ parsed maxMsgSize s a, Head.Sound head))

/-- The message in progress is at least as long as a header, or waits for bytes of its header. -/
structure Sane (strp : Strparser Unit) : Prop where
  waits : ∀ head, strp.skbHead = some head → head.stm.fullLen = 0 →
    head.skb.len < head.stm.offset + headerLen
  long : ∀ head, strp.skbHead = some head → head.stm.fullLen ≠ 0 → headerLen ≤ head.stm.fullLen

section recv

variable {maxMsgSize : ℕ} {strp strp' : Strparser Unit} {orig : SkBuff} {origOffset origLen eaten : ℕ}
  {o : Round} {e : List (Event Unit)}

theorem sane_none (h : strp.skbHead = none) : Sane strp := by
  constructor <;> intro head hh <;> rw [h] at hh <;> cases hh

theorem Sane.congr (h : Sane strp) (heq : strp'.skbHead = strp.skbHead) : Sane strp' :=
  ⟨fun head hh => h.waits head (heq ▸ hh), fun head hh => h.long head (heq ▸ hh)⟩

theorem sane_some {head : Head Unit} (h : strp.skbHead = some head)
    (hwaits : head.stm.fullLen = 0 → head.skb.len < head.stm.offset + headerLen)
    (hlong : head.stm.fullLen ≠ 0 → headerLen ≤ head.stm.fullLen) : Sane strp := by
  constructor <;> intro head' hh <;> obtain rfl := Option.some.inj (h.symm.trans hh)
  · exact hwaits
  · exact hlong

theorem Sane.prepare (h : Sane strp) {o : Oracle} {r : Option (SkBuff × ℕ)}
    (hp : prepare strp orig origOffset o = (strp', r, e)) : Sane strp' ∧ messages e = [] := by
  unfold Strp.prepare at hp
  split at hp
  · cases hp
    exact ⟨h, rfl⟩
  · next head hh =>
      dsimp only at hp
      generalize (if origOffset ≠ 0 then (orig.pull origOffset, 0) else (orig, 0)) = src at hp
      by_cases hfail : origOffset ≠ 0 ∧ (o.cloneOrig && o.pull) = false
      · rw [if_pos hfail] at hp
        cases hp
        exact ⟨h, rfl⟩
      · rw [if_neg hfail] at hp
        split at hp
        · cases hp
          exact ⟨h, rfl⟩
        · split_ifs at hp
          · cases hp
            exact ⟨h, rfl⟩
          · cases hp
            exact ⟨h.congr rfl, rfl⟩
          · cases hp
            exact ⟨h, rfl⟩
          · cases hp
            exact ⟨sane_some rfl (h.waits head hh) (h.long head hh), rfl⟩

/-- A message that joins keeps what is known about its length. -/
theorem Sane.join (h : Sane strp) {start : ℕ} {head : Head Unit} (hj : join strp orig start o = .ok (head, strp')) :
    head.stm.fullLen ≠ 0 → headerLen ≤ head.stm.fullLen := by
  unfold Strp.join at hj
  split at hj
  · cases hj
    exact fun hne => absurd rfl hne
  · next head₀ hh =>
      split_ifs at hj
      split at hj
      · cases hj
      · cases hj
        exact h.long head₀ hh

/-- What is found out about the length of a message. -/
theorem measure_sound (maxMsgSize : ℕ) {head : Head Unit} (skb : SkBuff)
    (hlong : head.stm.fullLen ≠ 0 → headerLen ≤ head.stm.fullLen)
    (hsound : head.stm.fullLen = 0 → Head.Sound head) :
    match measure parser maxMsgSize head skb with
    | .needHeader stm => stm.fullLen = 0 ∧ head.skb.len < stm.offset + headerLen
    | .bad _ _ _ => True
    | .known stm => headerLen ≤ stm.fullLen := by
  unfold measure
  by_cases hz : head.stm.fullLen = 0
  · have hparse : ∀ h : head.stm.offset + headerLen ≤ head.skb.len,
        (rakaiaParseFunc head.skb head.stm.offset).toInt ≠ 0 := fun h =>
      ((rakaiaParseFunc_exact_iff h).mpr (hsound hz h)).2
    rw [if_neg (not_not.mpr hz)]
    dsimp only [parser]
    split_ifs with h₀ h₁ h₂ h₃ h₄
    · refine ⟨hz, ?_⟩
      by_contra hge
      exact hparse (by omega) h₀
    · trivial
    · trivial
    · trivial
    · trivial
    · have hle : head.stm.offset + headerLen ≤ head.skb.len := by
        by_contra hlt
        rw [rakaiaParseFunc_short hlt] at h₀
        exact h₀ rfl
      have hlen := requestLen_of_pos hle (hsound hz hle) (by omega)
      have hge := headerLen_le_requestLen (head.skb.bytes.drop head.stm.offset)
      dsimp only
      omega
  · rw [if_pos hz]
    exact hlong hz

theorem join_error {start : ℕ} {ev : Event Unit} (hj : join strp orig start o = .error ev) :
    messages [ev] = [] := by
  unfold join at hj
  split at hj
  · cases hj
  · split_ifs at hj
    · cases hj
      rfl
    · split at hj
      · cases hj
        rfl
      · cases hj

theorem headerLen_pos : 0 < headerLen := by decide

/-- One round of the loop: the parser stays sane, and a message that is handed on is not shorter than a
header. -/
theorem round_sound (maxMsgSize origLen : ℕ) (h : Sane strp)
    (hsound : ∀ head ∈ parsedIn strp orig (origOffset + eaten) o, Head.Sound head) :
    match round parser maxMsgSize orig origOffset origLen o strp eaten with
    | .leave strp' _ e => Sane strp' ∧ messages e = []
    | .again strp' _ e => Sane strp' ∧ ∀ head ∈ messages e, headerLen ≤ head.stm.fullLen := by
  unfold parsedIn at hsound
  unfold round
  by_cases hclone : o.clone = false
  · rw [if_pos hclone]
    exact ⟨h, rfl⟩
  · rw [if_neg hclone] at hsound ⊢
    cases hj : join strp orig (origOffset + eaten) o with
    | error ev => exact ⟨h, join_error hj⟩
    | ok r =>
        obtain ⟨head, strp₁⟩ := r
        rw [hj] at hsound
        have hs : head.stm.fullLen = 0 → Head.Sound head := by
          intro hz
          apply hsound head
          dsimp only
          rw [if_pos hz]
          rfl
        have hm := measure_sound maxMsgSize orig (h.join hj) hs
        dsimp only
        cases hmeasure : measure parser maxMsgSize head orig with
        | bad err i u => exact ⟨sane_none rfl, rfl⟩
        | needHeader stm =>
            rw [hmeasure] at hm
            exact ⟨sane_some rfl (fun _ => hm.2) (fun hne => absurd hm.1 hne), messages_warnOn _⟩
        | known stm =>
            rw [hmeasure] at hm
            have hpos := headerLen_pos
            have hsane : ∀ {q : Strparser Unit} {n : ℕ}, q.skbHead = some ⟨head.skb, { stm with accumLen := n }⟩ →
                Sane q := by
              intro q n hq
              exact sane_some hq (fun hz => absurd hz (by dsimp only at hm ⊢; omega)) (fun _ => hm)
            dsimp only
            split_ifs
            · exact ⟨hsane rfl, rfl⟩
            · exact ⟨hsane rfl, messages_warnOn _⟩
            · refine ⟨sane_none rfl, fun m hmem => ?_⟩
              rw [messages_append, messages_warnOn, List.nil_append] at hmem
              obtain rfl := List.mem_singleton.mp hmem
              exact hm

theorem loop_sound {o : ℕ → Round} {fuel n : ℕ} (h : Sane strp)
    (hsound : ∀ head ∈ parsedBy maxMsgSize orig origOffset origLen o fuel strp eaten, Head.Sound head)
    (hl : loop parser maxMsgSize orig origOffset origLen o fuel strp eaten = some (strp', n, e)) :
    Sane strp' ∧ ∀ head ∈ messages e, headerLen ≤ head.stm.fullLen := by
  induction fuel generalizing strp eaten e with
  | zero =>
      unfold loop at hl
      split_ifs at hl
      cases hl
      exact ⟨h, fun m hm => by cases hm⟩
  | succ fuel ih =>
      unfold loop at hl
      unfold parsedBy at hsound
      split_ifs at hl hsound with hle
      · cases hl
        exact ⟨h, fun m hm => by cases hm⟩
      · dsimp only at hl hsound
        have hfirst : ∀ head ∈ parsedIn strp orig (origOffset + eaten) (o fuel), Head.Sound head := by
          intro head hh
          exact hsound head (List.mem_append_left _ (Option.mem_toList.mpr hh))
        have hround := round_sound maxMsgSize origLen h hfirst
        cases hr : round parser maxMsgSize orig origOffset origLen (o fuel) strp eaten with
        | leave strp₁ k e₁ =>
            rw [hr] at hl hround
            cases hl
            exact ⟨hround.1, fun m hm => by rw [hround.2] at hm; cases hm⟩
        | again strp₁ k e₁ =>
            rw [hr] at hl hsound hround
            obtain ⟨⟨strp₂, k', e₂⟩, hl₂, heq⟩ := Option.map_eq_some_iff.mp hl
            cases heq
            obtain ⟨hsane, hmsgs⟩ := hround
            obtain ⟨hsane', hmsgs'⟩ := ih hsane (fun head hh => hsound head (List.mem_append_right _ hh)) hl₂
            refine ⟨hsane', fun head hh => ?_⟩
            rw [messages_append] at hh
            rcases List.mem_append.mp hh with hh | hh
            · exact hmsgs head hh
            · exact hmsgs' head hh

theorem step_sound {s s' : State Unit} {a : Act} (h : Sane s.strp) (hu : Unwrapped maxMsgSize s a)
    (hs : step parser maxMsgSize s a = some (s', e)) :
    Sane s'.strp ∧ ∀ head ∈ messages e, headerLen ≤ head.stm.fullLen := by
  obtain ⟨⟨strp₂, n, e₂⟩, hr, heq⟩ := Option.map_eq_some_iff.mp hs
  cases heq
  unfold strpRecv at hr
  unfold Unwrapped parsed at hu
  obtain ⟨⟨strp₁, r, e₁⟩, hp⟩ : ∃ x, prepare s.strp a.skb a.offset a.oracle = x := ⟨_, rfl⟩
  obtain ⟨hsane, hnone⟩ := h.prepare hp
  rw [hp] at hr hu
  cases r with
  | none =>
      cases hr
      exact ⟨hsane, fun m hm => by rw [hnone] at hm; cases hm⟩
  | some src =>
      obtain ⟨orig, offset⟩ := src
      obtain ⟨⟨strp₃, k, e₃⟩, hl, heq⟩ := Option.map_eq_some_iff.mp hr
      cases heq
      obtain ⟨hsane', hmsgs⟩ := loop_sound hsane hu hl
      refine ⟨hsane', fun m hm => ?_⟩
      rw [messages_append, hnone] at hm
      exact hmsgs m hm

theorem sane_of_reach {s : State Unit} {es : List (Event Unit)}
    (h : (machine parser maxMsgSize).Reach (Unwrapped maxMsgSize) s es) :
    Sane s.strp ∧ ∀ head ∈ messages es, headerLen ≤ head.stm.fullLen := by
  refine h.invariant (P := fun s es => Sane s.strp ∧ ∀ head ∈ messages es, headerLen ≤ head.stm.fullLen) ?_ ?_
  · exact ⟨sane_none rfl, fun m hm => by cases hm⟩
  · intro s es a s' e _ hi hu hs
    obtain ⟨hsane, hmsgs⟩ := step_sound hi.1 hu hs
    refine ⟨hsane, fun m hm => ?_⟩
    rw [messages_append] at hm
    rcases List.mem_append.mp hm with hm | hm
    · exact hi.2 m hm
    · exact hmsgs m hm

end recv

/-! ### Exact lengths -/

/-- **The message length is exact** unless the sum wraps: on a complete header, the callback returns a negative
number or the length of the request, and not 0, if and only if the header is not that of a `SET` whose body has
`2 ^ 32 - 28` bytes or more.  In every run of `__strp_recv` that parses no such header, whatever TCP presents
and whichever kernel calls fail, no message shorter than a header is handed on, and the parser waits for
header bytes only while some are missing. -/
theorem length_exact_iff (maxMsgSize : ℕ) :
    (∀ (skb : SkBuff) (offset : ℕ), offset + headerLen ≤ skb.len →
      (((rakaiaParseFunc skb offset).toInt < 0 ∨
        (rakaiaParseFunc skb offset).toInt = requestLen (skb.bytes.drop offset)) ∧
        (rakaiaParseFunc skb offset).toInt ≠ 0 ↔ NoWrap (skb.bytes.drop offset))) ∧
    ∀ (s : State Unit) (es : List (Event Unit)),
      (machine parser maxMsgSize).Reach (Unwrapped maxMsgSize) s es →
      (∀ head ∈ messages es, headerLen ≤ head.stm.fullLen) ∧
      ∀ head, s.strp.skbHead = some head → head.stm.fullLen = 0 →
        head.skb.len < head.stm.offset + headerLen := by
  refine ⟨fun skb offset hle => rakaiaParseFunc_exact_iff hle, fun s es h => ?_⟩
  obtain ⟨hsane, hmsgs⟩ := sane_of_reach h
  exact ⟨hmsgs, hsane.waits⟩

/-- A `SET` request with the given length of the body, and an empty key. -/
def setHeader (bodyLen : List UInt8) : List UInt8 :=
  [0x80, 1, 0, 0, 0, 9, 0, 0, 0, 0, 0, 0] ++ bodyLen ++ [0, 0, 0, 0, 0, 0, 0, 0, 0, 0, 0, 0]

/-- The length of the `SET` request among the two, and a run on both. -/
theorem length_exact_iff_split :
    (rakaiaParseFunc (bufferOf (99 :: twoRequests[1]) []) 1).toInt = 30 ∧
    ∃ s es, (machine parser 4096).Reach (Unwrapped 4096) s es ∧ s.copied = 59 ∧
      ∀ head ∈ messages es, headerLen ≤ head.stm.fullLen := by
  obtain ⟨hexact, hrun⟩ := length_exact_iff 4096
  constructor
  · have h := (hexact (bufferOf (99 :: twoRequests[1]) []) 1 (by decide)).mpr (by decide)
    rcases h.1 with hneg | heq
    · exact absurd hneg (by decide)
    · rw [heq]
      decide
  · obtain ⟨s, es, hr, hy⟩ := Machine.Reach.of_exec (M := machine parser 4096) (G := Unwrapped 4096)
      (g := fun s a => decide (Unwrapped 4096 s a)) splitActs (fun _ _ _ => of_decide_eq_true)
      (fun r => r.1.copied) 59 (by decide +kernel)
    exact ⟨s, es, hr, hy, (hrun s es hr).1⟩

/-- The buffer that TCP presents. -/
def presentsSet (bodyLen : List UInt8) : List Act := [⟨bufferOf (setHeader bodyLen) [65], 0, .ok⟩]

/-- A complete `SET` header whose body has `2 ^ 32 - 28` bytes looks incomplete, and the parser waits; one byte
more, and a message of one byte is handed on. -/
theorem length_wraps :
    rakaiaParseFunc (bufferOf (setHeader [255, 255, 255, 228]) []) 0 = 0 ∧
    (∃ s es, (machine parser 4096).Reachable s es ∧ ∃ head, s.strp.skbHead = some head ∧
      head.stm.fullLen = 0 ∧ head.stm.offset + headerLen ≤ head.skb.len) ∧
    ∃ s es, (machine parser 4096).Reachable s es ∧ ∃ head ∈ messages es, head.stm.fullLen < headerLen := by
  refine ⟨by decide, ?_, ?_⟩
  · obtain ⟨s, es, hr, hy⟩ := Machine.Reach.of_exec (M := machine parser 4096) (G := fun _ _ => True)
      (g := fun _ _ => true) (presentsSet [255, 255, 255, 228]) (fun _ _ _ _ => trivial)
      (fun r => r.1.strp.skbHead.map (fun head => (head.stm.fullLen, head.stm.offset, head.skb.len)))
      (some (0, 0, 29)) (by decide +kernel)
    obtain ⟨head, hhead, heq⟩ := Option.map_eq_some_iff.mp hy
    simp only [Prod.mk.injEq] at heq
    refine ⟨s, es, hr, head, hhead, heq.1, ?_⟩
    rw [heq.2.1, heq.2.2]
    decide
  · obtain ⟨s, es, hr, hy⟩ := Machine.Reach.of_exec (M := machine parser 4096) (G := fun _ _ => True)
      (g := fun _ _ => true) (presentsSet [255, 255, 255, 229]) (fun _ _ _ _ => trivial)
      (fun r => (messages r.2).head?.map (fun head => head.stm.fullLen)) (some 1) (by decide +kernel)
    obtain ⟨head, hhead, heq⟩ := Option.map_eq_some_iff.mp hy
    refine ⟨s, es, hr, head, List.mem_of_mem_head? hhead, ?_⟩
    rw [heq]
    decide

/-! ### The BPF program -/

/-- `bpf_skb_load_bytes` into a variable of `n` bytes on a little-endian machine; `none` when it fails. -/
def bpfSkbLoadBytes (skb : SkBuff) (offset n : ℕ) : Option ℕ := (skb.headerPointer offset n).map leNum

/-- `bpf_ntohs`: the two low bytes of the argument, swapped. -/
def bpfNtohs (x : UInt64) : UInt16 := UInt16.ofNat (256 * (x.toNat % 256) + x.toNat / 256 % 256)

/-- `memcached_rakaia`.  `body_len` is a `__u64`, so eight bytes are loaded into it. -/
def memcachedRakaia (skb : SkBuff) (skbOffset : ℕ) : Int64 :=
  let headerLen := UInt32.ofNat headerLen
  match bpfSkbLoadBytes skb (6 + skbOffset) 2, bpfSkbLoadBytes skb (8 + skbOffset) 1,
    bpfSkbLoadBytes skb (12 + skbOffset) 8, bpfSkbLoadBytes skb (1 + skbOffset) 1 with
  | some keyLen, some extraLen, some bodyLen, some opcode =>
      let keyLen := UInt16.ofNat keyLen
      let extraLen := UInt8.ofNat extraLen
      let bodyLen := UInt64.ofNat bodyLen
      if UInt8.ofNat opcode = cmdSet then (headerLen + (bpfNtohs bodyLen).toUInt32).toUInt64.toInt64
      else
        (headerLen + (bpfNtohs keyLen.toUInt64).toUInt32 +
          (bpfNtohs extraLen.toUInt64).toUInt32).toUInt64.toInt64
  | _, _, _, _ => 0

/-- The length that the BPF program finds: of the body it takes the two high bytes, and it multiplies the length
of the extras by 256. -/
def bpfLen (l : List UInt8) : ℕ :=
  if beAt l 1 1 = cmdSet.toNat then headerLen + beAt l 12 4 / 2 ^ 16
  else headerLen + beAt l 6 2 + 256 * beAt l 8 1

theorem toNat_bpfNtohs (x : UInt64) : (bpfNtohs x).toNat = 256 * (x.toNat % 256) + x.toNat / 256 % 256 := by
  unfold bpfNtohs
  rw [UInt16.toNat_ofNat']
  omega

theorem toNat_bpfNtohs_ofNat (n : ℕ) : (bpfNtohs (UInt64.ofNat n)).toNat = 256 * (n % 256) + n / 256 % 256 := by
  rw [toNat_bpfNtohs, UInt64.toNat_ofNat']
  omega

theorem toInt_toInt64 (x : UInt32) : x.toUInt64.toInt64.toInt = x.toNat := by
  have hx : x.toUInt64.toInt64.toBitVec.toNat = x.toNat := UInt32.toNat_toUInt64 x
  have hlt := x.toNat_lt
  rw [← hx]
  exact BitVec.toInt_eq_toNat_of_lt (by omega)

theorem leNum_range_succ (f : ℕ → UInt8) (n : ℕ) :
    leNum ((List.range (n + 1)).map f) = (f 0).toNat + 256 * leNum ((List.range n).map (fun j => f (j + 1))) := by
  rw [List.range_succ_eq_map, List.map_cons, List.map_map]
  rfl

/-- A sum of the length of a header and swapped fields is below `2 ^ 32`. -/
theorem toNat_headerLen_add (x y : UInt16) :
    (UInt32.ofNat headerLen + x.toUInt32 + y.toUInt32).toNat = headerLen + x.toNat + y.toNat := by
  have hx := x.toNat_lt
  have hy := y.toNat_lt
  simp [headerLen]
  omega

theorem memcachedRakaia_eq {skb : SkBuff} {offset : ℕ} (hw : skb.Wf) (hle : offset + headerLen ≤ skb.len) :
    (memcachedRakaia skb offset).toInt = bpfLen (skb.bytes.drop offset) := by
  have hload : ∀ i n, i + n ≤ headerLen →
      bpfSkbLoadBytes skb (i + offset) n = some (leNum (((skb.bytes.drop offset).drop i).take n)) := by
    intro i n hin
    rw [bpfSkbLoadBytes, SkBuff.headerPointer, if_pos (by omega), Option.map_some, List.drop_drop, Nat.add_comm i]
  have hlen : headerLen ≤ (skb.bytes.drop offset).length := by
    rw [List.length_drop, ← hw.len_eq]
    omega
  unfold memcachedRakaia
  rw [hload 6 2 (by decide), hload 8 1 (by decide), hload 12 8 (by decide), hload 1 1 (by decide)]
  generalize skb.bytes.drop offset = l at hlen
  -- the digits of the four fields
  have hslice : ∀ i n, i + n ≤ headerLen →
      (l.drop i).take n = (List.range n).map (fun j => l.getD (i + j) 0) :=
    fun i n hin => take_drop_eq_getD (by omega)
  have hb : ∀ j : ℕ, (l[j]?.getD 0).toNat < 256 := fun j => (l[j]?.getD 0).toNat_lt
  unfold bpfLen beAt
  rw [hslice 6 2 (by decide), hslice 8 1 (by decide), hslice 12 8 (by decide), hslice 1 1 (by decide),
    hslice 12 4 (by decide)]
  have hset : UInt8.ofNat (leNum ((List.range 1).map (fun j => l.getD (1 + j) 0))) = cmdSet ↔
      beNum ((List.range 1).map (fun j => l.getD (1 + j) 0)) = cmdSet.toNat := by
    rw [← UInt8.toNat_inj]
    simp [leNum, beNum]
  have h0 : (UInt32.ofNat headerLen : UInt32) = UInt32.ofNat headerLen + (0 : UInt16).toUInt32 := rfl
  dsimp only
  simp only [hset]
  split_ifs
  · obtain ⟨r, hr⟩ : ∃ r, leNum ((List.range 8).map (fun j => l.getD (12 + j) 0)) =
        (l[12]?.getD 0).toNat + 256 * ((l[13]?.getD 0).toNat + 256 * r) := by
      refine ⟨leNum ((List.range 6).map (fun j => l.getD (12 + (j + 1 + 1)) 0)), ?_⟩
      rw [leNum_range_succ, leNum_range_succ]
      simp
    have h12 := hb 12
    have h13 := hb 13
    have h14 := hb 14
    have h15 := hb 15
    rw [toInt_toInt64, h0, toNat_headerLen_add, toNat_bpfNtohs_ofNat, hr]
    simp [List.range_succ, beNum]
    generalize (l[12]?.getD 0).toNat = b12 at *
    generalize (l[13]?.getD 0).toNat = b13 at *
    have hlow : (b12 + 256 * (b13 + 256 * r)) / 256 = b13 + 256 * r := by omega
    omega
  · rw [toInt_toInt64, toNat_headerLen_add, toNat_bpfNtohs, toNat_bpfNtohs]
    have h6 := hb 6
    have h7 := hb 7
    have h8 := hb 8
    simp [List.range_succ, leNum, beNum]
    omega

/-- The fields that the BPF program reads right: a `SET` has no body, another command no extras. -/
def BpfReadable (l : List UInt8) : Prop :=
  if beAt l 1 1 = cmdSet.toNat then beAt l 12 4 = 0 else beAt l 8 1 = 0

instance (l : List UInt8) : Decidable (BpfReadable l) := 
  inferInstanceAs (Decidable (if beAt l 1 1 = cmdSet.toNat then beAt l 12 4 = 0 else beAt l 8 1 = 0))

theorem bpfLen_eq_iff (l : List UInt8) : bpfLen l = requestLen l ↔ BpfReadable l := by
  unfold bpfLen requestLen BpfReadable
  split_ifs <;> omega

/-- **The callback and the BPF program agree** on a complete header whose length fits in an `int` if and only if
it is that of a `SET` without a body or of another command without extras. -/
theorem bpf_agrees_iff {skb : SkBuff} {offset : ℕ} (hw : skb.Wf) (hle : offset + headerLen ≤ skb.len)
    (hlt : requestLen (skb.bytes.drop offset) < 2 ^ 31) :
    (memcachedRakaia skb offset).toInt = (rakaiaParseFunc skb offset).toInt ↔
      BpfReadable (skb.bytes.drop offset) := by
  have hhdr : headerLen ≤ (skb.bytes.drop offset).length := by
    rw [List.length_drop, ← hw.len_eq]
    omega
  rw [memcachedRakaia_eq hw hle, rakaiaParseFunc_full hw (by omega) hhdr hlt, ← bpfLen_eq_iff]
  exact Int.ofNat_inj

/-- A `GET` with a key of one byte. -/
theorem bpf_agrees_get :
    (memcachedRakaia (bufferOf (99 :: twoRequests[0]) []) 1).toInt =
      (rakaiaParseFunc (bufferOf (99 :: twoRequests[0]) []) 1).toInt :=
  (bpf_agrees_iff (wf_bufferOf _ _) (by decide) (by decide)).mpr (by decide)

/-- For a `SET` with a body of two bytes the BPF program returns the length of the header alone, for a `GET` with
one byte of extras it counts 256. -/
theorem bpf_disagrees :
    (rakaiaParseFunc (bufferOf twoRequests[1] []) 0).toInt = 30 ∧
    (memcachedRakaia (bufferOf twoRequests[1] []) 0).toInt = 28 ∧
    ∃ skb : SkBuff, skb.Wf ∧ (rakaiaParseFunc skb 0).toInt = 29 ∧ (memcachedRakaia skb 0).toInt = 284 :=
  ⟨by decide, by decide, bufferOf ([0x80, 0, 0, 0, 0, 7, 0, 0, 1] ++ List.replicate 20 0) [],
    wf_bufferOf _ _, by decide, by decide⟩

end Rakaia.Strp.Memcache
