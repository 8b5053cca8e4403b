import Rakaia.Sched.State

/-! # Drawing a victim

`rakaia_steal_skb` reads the bitmap of non-empty queues as one `unsigned long` and draws two of its set
bits.  `pick_random_set_bit` takes a random byte modulo the number of set bits and counts that many of them
off, from the low end.  `for_each_set_bit` goes from one set bit to the next with `find_next_bit`.

The loop finds the set bit with the number that it was given (`pickLoop_eq`); so every byte draws a set bit,
and every set bit is drawn by some byte (`pickRandomSetBit_draws`).  On a word that represents a bitmap of
the scheduler, it is the draw of the scheduler's model (`pickRandomSetBit_represents`). -/

namespace Rakaia.Sched

/-- `BITS_PER_LONG`. -/
def bitsPerLong : ℕ := 64

/-- An `unsigned long`. -/
abbrev Word := BitVec bitsPerLong

namespace Word

/-! ### The functions of the source -/

/-- `hweight_long`: the number of set bits. -/
def hweightLong (mask : Word) : ℕ := (List.range bitsPerLong).countP mask.getLsbD

/-- `find_next_bit`, with `n` bits left to look at: the first of them that is set, or the end. -/
def findNextBit (mask : Word) : ℕ → ℕ → ℕ
  | 0, bit => bit
  | n + 1, bit => if mask.getLsbD bit then bit else findNextBit mask n (bit + 1)

/-- `for_each_set_bit` in `pick_random_set_bit`; `k` is decremented behind each comparison. -/
def pickLoop (mask : Word) : ℕ → ℕ → ℤ → ℤ
  | 0, _, _ => -1
  | fuel + 1, bit, k =>
      if bit < bitsPerLong then
        if k = 0 then bit
        else pickLoop mask fuel (findNextBit mask (bitsPerLong - (bit + 1)) (bit + 1)) (k - 1)
      else -1

/-- `pick_random_set_bit`, with the random byte as an argument. -/
def pickRandomSetBit (mask : Word) (r : UInt8) : ℤ :=
  if mask = 0 then -1
  else pickLoop mask (bitsPerLong + 1) (findNextBit mask bitsPerLong 0) (r.toNat % mask.hweightLong : ℕ)

/-- The loop of `rakaia_steal_skb` that draws the second victim; `none` when it needs more random bytes. -/
def drawSecond (mask : Word) (v1 : ℤ) : List UInt8 → Option ℤ
  | [] => none
  | r :: rs => if mask.pickRandomSetBit r = v1 then drawSecond mask v1 rs else some (mask.pickRandomSetBit r)

/-- The two victims that `rakaia_steal_skb` draws; `none` when it returns `NULL` or needs more bytes. -/
def drawVictims (mask : Word) : List UInt8 → Option (ℤ × ℤ)
  | [] => none
  | r :: rs =>
      let v1 := mask.pickRandomSetBit r
      if mask = 0 ∨ v1 < 0 then none
      else if 1 < mask.hweightLong then (mask.drawSecond v1 rs).map (fun v2 => (v1, v2))
      else some (v1, v1)

/-! ### The loop counts set bits off -/

/-- The set bits among the `n` bits from `bit` on, in ascending order. -/
def setBitsFrom (mask : Word) (bit n : ℕ) : List ℕ := (List.range' bit n).filter mask.getLsbD

/-- The set bits, in ascending order. -/
def setBits (mask : Word) : List ℕ := (List.range bitsPerLong).filter mask.getLsbD

theorem setBits_eq (mask : Word) : mask.setBits = mask.setBitsFrom 0 bitsPerLong := by
  rw [setBits, setBitsFrom, List.range_eq_range']

theorem hweightLong_eq (mask : Word) : mask.hweightLong = mask.setBits.length :=
  List.countP_eq_length_filter

theorem mem_setBits {mask : Word} {b : ℕ} : b ∈ mask.setBits ↔ mask.getLsbD b = true := by
  rw [setBits, List.mem_filter, List.mem_range]
  refine ⟨And.right, fun h => ⟨?_, h⟩⟩
  by_contra hb
  rw [BitVec.getLsbD_of_ge mask b (not_lt.mp hb)] at h
  cases h

theorem getLsbD_zero (b : ℕ) : (0 : Word).getLsbD b = false := BitVec.getLsbD_zero

theorem setBits_ne_nil {mask : Word} (h : mask ≠ 0) : mask.setBits ≠ [] := by
  intro hnil
  apply h
  refine BitVec.eq_of_getLsbD_eq (fun b _ => ?_)
  have hb : b ∉ mask.setBits := by rw [hnil]; exact List.not_mem_nil
  rw [mem_setBits] at hb
  rw [eq_false_of_ne_true hb, getLsbD_zero]

/-- `find_next_bit` splits the bits that are left at the first one that is set. -/
theorem findNextBit_spec (mask : Word) (n bit : ℕ) :
    ∃ m ≤ n, findNextBit mask n bit = bit + m ∧
      (m = n ∧ mask.setBitsFrom bit n = [] ∨
        m < n ∧ mask.setBitsFrom bit n = (bit + m) :: mask.setBitsFrom (bit + m + 1) (n - (m + 1))) := by
  induction n generalizing bit with
  | zero => exact ⟨0, le_rfl, rfl, .inl ⟨rfl, rfl⟩⟩
  | succ n ih =>
      rw [findNextBit, setBitsFrom, List.range'_succ]
      by_cases hb : mask.getLsbD bit = true
      · rw [if_pos hb, List.filter_cons_of_pos hb]
        exact ⟨0, Nat.zero_le _, rfl, .inr ⟨Nat.succ_pos n, rfl⟩⟩
      · rw [if_neg hb, List.filter_cons_of_neg hb]
        obtain ⟨m, hm, hnext, ⟨rfl, hnil⟩ | ⟨hlt, hcons⟩⟩ := ih (bit + 1)
        · exact ⟨m + 1, Nat.succ_le_succ hm, by omega, .inl ⟨rfl, hnil⟩⟩
        · refine ⟨m + 1, Nat.succ_le_succ hm, by omega, .inr ⟨Nat.succ_lt_succ hlt, ?_⟩⟩
          have h₁ : bit + 1 + m = bit + (m + 1) := by omega
          have h₂ : n + 1 - (m + 1 + 1) = n - (m + 1) := by omega
          rw [h₂, ← h₁]
          exact hcons

/-- **The loop returns the `k`-th of the set bits that are left**, or `-1`.  The induction is on the fuel,
with the bit from which `find_next_bit` was called last. -/
theorem pickLoop_eq (mask : Word) (fuel bit k : ℕ) (hbit : bit ≤ bitsPerLong)
    (hfuel : bitsPerLong - bit < fuel) :
    pickLoop mask fuel (findNextBit mask (bitsPerLong - bit) bit) k =
      ((mask.setBitsFrom bit (bitsPerLong - bit))[k]?).elim (-1) Int.ofNat := by
  induction fuel generalizing bit k with
  | zero => omega
  | succ fuel ih =>
      obtain ⟨m, hm, hnext, ⟨rfl, hnil⟩ | ⟨hlt, hcons⟩⟩ := findNextBit_spec mask (bitsPerLong - bit) bit
      · rw [hnext, hnil, pickLoop, if_neg (by omega)]
        rfl
      · rw [hnext, hcons, pickLoop, if_pos (by omega)]
        cases k with
        | zero => rfl
        | succ k =>
            have hleft : bitsPerLong - bit - (m + 1) = bitsPerLong - (bit + m + 1) := by omega
            have hk : ((k + 1 : ℕ) : ℤ) - 1 = (k : ℤ) := by omega
            rw [if_neg (by omega), hk, ih (bit + m + 1) k (by omega) (by omega), List.getElem?_cons_succ, hleft]

theorem pickRandomSetBit_eq {mask : Word} (h : mask ≠ 0) (r : UInt8) :
    mask.pickRandomSetBit r = (mask.setBits[r.toNat % mask.hweightLong]?).elim (-1) Int.ofNat := by
  rw [pickRandomSetBit, if_neg h, setBits_eq]
  exact pickLoop_eq mask (bitsPerLong + 1) 0 _ (Nat.zero_le _) (Nat.lt_succ_self _)

/-- The number of the drawn bit is the random byte modulo the number of set bits. -/
theorem exists_pick {mask : Word} (h : mask ≠ 0) (r : UInt8) :
    ∃ b, mask.setBits[r.toNat % mask.hweightLong]? = some b ∧ mask.pickRandomSetBit r = b := by
  have hlt : r.toNat % mask.hweightLong < mask.setBits.length := by
    rw [hweightLong_eq]
    exact Nat.mod_lt _ (List.length_pos_iff.mpr (setBits_ne_nil h))
  refine ⟨_, List.getElem?_eq_getElem hlt, ?_⟩
  rw [pickRandomSetBit_eq h, List.getElem?_eq_getElem hlt]
  rfl

/-- A word has no more set bits than there are bytes. -/
theorem exists_byte {mask : Word} {b : ℕ} (hb : mask.getLsbD b = true) :
    mask ≠ 0 ∧ ∃ r, mask.pickRandomSetBit r = b := by
  have hm : mask ≠ 0 := by
    rintro rfl
    rw [getLsbD_zero] at hb
    cases hb
  obtain ⟨k, hk, rfl⟩ := List.getElem_of_mem (mem_setBits.mpr hb)
  have hlen : mask.setBits.length ≤ bitsPerLong := by
    have := List.length_filter_le mask.getLsbD (List.range bitsPerLong)
    rwa [List.length_range] at this
  have hsize : bitsPerLong = 64 := rfl
  have hr : (UInt8.ofNat k).toNat % mask.hweightLong = k := by
    rw [UInt8.toNat_ofNat_of_lt' (by rw [UInt8.size]; omega), hweightLong_eq, Nat.mod_eq_of_lt hk]
  refine ⟨hm, UInt8.ofNat k, ?_⟩
  rw [pickRandomSetBit_eq hm, hr, List.getElem?_eq_getElem hk]
  rfl

/-- Two set bits can be drawn one after the other. -/
theorem drawVictims_pair {mask : Word} {b₁ b₂ : ℕ} (h₁ : mask.getLsbD b₁ = true) (h₂ : mask.getLsbD b₂ = true)
    (hne : b₁ ≠ b₂) : ∃ r₁ r₂, mask.drawVictims [r₁, r₂] = some ((b₁ : ℤ), (b₂ : ℤ)) := by
  obtain ⟨hm, r₁, hr₁⟩ := exists_byte h₁
  obtain ⟨-, r₂, hr₂⟩ := exists_byte h₂
  have htwo : 1 < mask.hweightLong := by
    rw [hweightLong_eq]
    by_contra hle
    obtain ⟨b, hb⟩ | hnil : (∃ b, mask.setBits = [b]) ∨ mask.setBits = [] := by
      cases hs : mask.setBits with
      | nil => exact .inr rfl
      | cons b rest =>
          rw [hs, List.length_cons] at hle
          exact .inl ⟨b, by rw [List.length_eq_zero_iff.mp (show rest.length = 0 by omega)]⟩
    · rw [← mem_setBits, hb, List.mem_singleton] at h₁ h₂
      exact hne (h₁.trans h₂.symm)
    · exact setBits_ne_nil hm hnil
  have hne' : ¬ ((b₂ : ℤ) = (b₁ : ℤ)) := by omega
  refine ⟨r₁, r₂, ?_⟩
  rw [drawVictims, hr₁, if_neg (by rintro (h | h); exacts [hm h, by omega]), if_pos htwo, drawSecond, hr₂,
    if_neg hne']
  rfl

/-! ### The results -/

/-- **`pick_random_set_bit` is sound and complete.**  On a word that is not zero, every random byte draws a
set bit, that with the number `r % hweight_long(mask)` in ascending order; every set bit is drawn by some byte;
and `rakaia_steal_skb` can draw any two different set bits as its two victims. -/
theorem pickRandomSetBit_draws (mask : Word) (hm : mask ≠ 0) :
    (∀ r, ∃ b : ℕ, mask.pickRandomSetBit r = b ∧ mask.getLsbD b = true ∧
      mask.setBits[r.toNat % mask.hweightLong]? = some b) ∧
    (∀ b, mask.getLsbD b = true → ∃ r, mask.pickRandomSetBit r = b) ∧
    (∀ b₁ b₂, mask.getLsbD b₁ = true → mask.getLsbD b₂ = true → b₁ ≠ b₂ →
      ∃ r₁ r₂, mask.drawVictims [r₁, r₂] = some ((b₁ : ℤ), (b₂ : ℤ))) := by
  refine ⟨fun r => ?_, fun b hb => (exists_byte hb).2, fun b₁ b₂ => drawVictims_pair⟩
  obtain ⟨b, hget, hpick⟩ := exists_pick hm r
  exact ⟨b, hpick, mem_setBits.mp (List.mem_of_getElem? hget), hget⟩

/-- The word `0b100110`: its second set bit is drawn by the byte 7, and bits 5 and 1 can be drawn together. -/
theorem pickRandomSetBit_draws_example : (0b100110 : Word) ≠ 0 ∧
    (∃ b : ℕ, (0b100110 : Word).pickRandomSetBit 7 = b ∧ (0b100110 : Word).getLsbD b = true ∧ b = 2) ∧
    ∃ r₁ r₂, (0b100110 : Word).drawVictims [r₁, r₂] = some (5, 1) := by
  have hm : (0b100110 : Word) ≠ 0 := by decide
  obtain ⟨hsound, -, hpair⟩ := pickRandomSetBit_draws 0b100110 hm
  obtain ⟨b, hpick, hbit, hget⟩ := hsound 7
  have hb : some 2 = some b := by rw [← hget]; decide
  exact ⟨hm, ⟨b, hpick, hbit, (Option.some.inj hb).symm⟩, hpair 5 1 (by decide) (by decide) (by decide)⟩

end Word

/-- The word holds the bitmap, one bit for each socket. -/
structure Represents (mask : Word) (bm : Ksk → Bool) : Prop where
  bit : ∀ i : Ksk, mask.getLsbD i.val = bm i
  rest : ∀ b, numRakaiaSockets ≤ b → mask.getLsbD b = false

theorem Represents.setBits {mask : Word} {bm : Ksk → Bool} (h : Represents mask bm) :
    mask.setBits = (setBits bm).map Fin.val := by
  have hsplit : List.range bitsPerLong = List.range numRakaiaSockets ++ List.range' numRakaiaSockets 44 := by
    decide
  have hrest : (List.range' numRakaiaSockets 44).filter mask.getLsbD = [] := by
    refine List.filter_eq_nil_iff.mpr (fun b hb => ?_)
    rw [h.rest b (List.mem_range'_1.mp hb).1]
    exact Bool.false_ne_true
  have hrange : List.range numRakaiaSockets = (List.finRange numRakaiaSockets).map Fin.val := by decide
  rw [Word.setBits, hsplit, List.filter_append, hrest, List.append_nil, hrange, List.filter_map]
  congr 1
  exact List.filter_congr (fun i _ => h.bit i)

/-- **The scheduler draws what the code draws** from the word that holds its bitmap. -/
theorem pickRandomSetBit_represents {mask : Word} {bm : Ksk → Bool} (h : Represents mask bm) (r : UInt8) :
    mask.pickRandomSetBit r = (pickRandomSetBit bm r).elim (-1) (fun i => (i.val : ℤ)) := by
  have hlen : mask.hweightLong = (setBits bm).length := by
    rw [Word.hweightLong_eq, h.setBits, List.length_map]
  by_cases hm : mask = 0
  · have hnil : setBits bm = [] := by
      refine List.filter_eq_nil_iff.mpr (fun i _ => ?_)
      rw [← h.bit i, hm, Word.getLsbD_zero]
      exact Bool.false_ne_true
    rw [Word.pickRandomSetBit, if_pos hm, pickRandomSetBit, hnil]
    rfl
  · rw [Word.pickRandomSetBit_eq hm, h.setBits, hlen, List.getElem?_map, pickRandomSetBit]
    cases (setBits bm)[r.toNat % (setBits bm).length]? <;> rfl

end Rakaia.Sched
