import Mathlib.Data.List.GetD
import Mathlib.Data.List.Infix
import Mathlib.Data.List.Induction
import Mathlib.Order.MinMax
import Mathlib.Tactic.Ring

/-! # Framing of byte streams

A stream is a concatenation of messages, each of which starts with a header of fixed size that
determines its length.  `wholeIn ms n` is what a receiver that has consumed `n` elements of the
stream `ms.flatten` should have delivered: the messages that lie in these elements as a whole. -/

namespace Rakaia.Lib

variable {α : Type}

/-- The messages that lie in the first `n` elements of the stream. -/
def wholeIn : List (List α) → ℕ → List (List α)
  | [], _ => []
  | m :: ms, n => if m.length ≤ n then m :: wholeIn ms (n - m.length) else []

theorem isPrefix_wholeIn (ms : List (List α)) (n : ℕ) : wholeIn ms n <+: ms := by
  induction ms generalizing n with
  | nil => exact List.prefix_rfl
  | cons m ms ih =>
      rw [wholeIn]
      split_ifs
      · exact (List.prefix_cons_inj m).mpr (ih _)
      · exact List.nil_prefix

theorem wholeIn_append (done ms : List (List α)) (k : ℕ) :
    wholeIn (done ++ ms) (done.flatten.length + k) = done ++ wholeIn ms k := by
  induction done with
  | nil => simp
  | cons m done ih =>
      rw [List.flatten_cons, List.length_append, Nat.add_assoc, List.cons_append, wholeIn,
        if_pos (Nat.le_add_right _ _), Nat.add_sub_cancel_left, ih, List.cons_append]

theorem wholeIn_eq_nil_iff {ms : List (List α)} {k : ℕ} :
    wholeIn ms k = [] ↔ ∀ m ∈ ms.head?, k < m.length := by
  cases ms with
  | nil => simp [wholeIn]
  | cons m ms => simp [wholeIn]

theorem wholeIn_flatten (ms : List (List α)) : wholeIn ms ms.flatten.length = ms := by
  have h := wholeIn_append ms [] 0
  rwa [List.append_nil, Nat.add_zero, wholeIn, List.append_nil] at h

/-- The elements behind the messages that lie in the first `n` elements. -/
def behind : List (List α) → ℕ → ℕ
  | [], n => n
  | m :: ms, n => if m.length ≤ n then behind ms (n - m.length) else n

theorem behind_of_lt {m : List α} {n : ℕ} (h : n < m.length) (ms : List (List α)) : behind (m :: ms) n = n := by
  rw [behind, if_neg (not_le.mpr h)]

theorem behind_of_le {m : List α} {n : ℕ} (h : m.length ≤ n) (ms : List (List α)) :
    behind (m :: ms) n = behind ms (n - m.length) := by
  rw [behind, if_pos h]

theorem behind_le (ms : List (List α)) (n : ℕ) : behind ms n ≤ n := by
  induction ms generalizing n with
  | nil => exact le_rfl
  | cons m ms ih =>
      rw [behind]
      split_ifs
      · exact (ih _).trans (Nat.sub_le _ _)
      · exact le_rfl

theorem behind_append (done ms : List (List α)) (k : ℕ) :
    behind (done ++ ms) (done.flatten.length + k) = behind ms k := by
  induction done with
  | nil => simp
  | cons m done ih =>
      rw [List.flatten_cons, List.length_append, Nat.add_assoc, List.cons_append,
        behind_of_le (Nat.le_add_right _ _), Nat.add_sub_cancel_left, ih]

/-! ### Numbers in headers -/

/-- The big-endian number with the given digits in base 256. -/
def beNum (l : List UInt8) : ℕ := l.foldl (fun n b => 256 * n + b.toNat) 0

/-- The big-endian number in the `n` bytes from offset `i`. -/
def beAt (l : List UInt8) (i n : ℕ) : ℕ := beNum ((l.drop i).take n)

theorem beNum_lt (l : List UInt8) : beNum l < 256 ^ l.length := by
  induction l using List.reverseRecOn with
  | nil => simp [beNum]
  | append_singleton l b ih =>
      have hb : b.toNat < 256 := b.toNat_lt
      simp only [beNum, List.foldl_append, List.foldl_cons, List.foldl_nil, List.length_append,
        List.length_singleton, pow_succ] at ih ⊢
      omega

theorem beAt_lt (l : List UInt8) (i n : ℕ) : beAt l i n < 256 ^ n :=
  lt_of_lt_of_le (beNum_lt _) (Nat.pow_le_pow_right (by decide) (List.length_take_le _ _))

/-- A number that lies in the first `k` bytes. -/
theorem beAt_take {l : List UInt8} {i n k : ℕ} (h : i + n ≤ k) : beAt (l.take k) i n = beAt l i n := by
  rw [beAt, List.drop_take, List.take_take, min_eq_left (by omega), beAt]

/-- A slice of a list, element by element. -/
theorem take_drop_eq_getD {l : List UInt8} {i n : ℕ} (h : i + n ≤ l.length) :
    (l.drop i).take n = (List.range n).map (fun j => l.getD (i + j) 0) := by
  refine List.ext_getElem (by simp; omega) ?_
  intro j hj _
  simp only [List.getElem_take, List.getElem_drop, List.getElem_map, List.getElem_range]
  exact (List.getD_eq_getElem l 0 _).symm

/-- The digits of a number one by one. -/
theorem beAt_eq_getD {l : List UInt8} {i n : ℕ} (h : i + n ≤ l.length) :
    beAt l i n = beNum ((List.range n).map (fun j => l.getD (i + j) 0)) := by
  rw [beAt, take_drop_eq_getD h]

theorem beNum_append (l : List UInt8) (b : UInt8) : beNum (l ++ [b]) = 256 * beNum l + b.toNat := by
  simp [beNum]

/-- The last `k` digits of a number in base 256, in big-endian order. -/
def beBytes : ℕ → ℕ → List UInt8
  | 0, _ => []
  | k + 1, n => beBytes k (n / 256) ++ [UInt8.ofNat n]

@[simp] theorem length_beBytes (k n : ℕ) : (beBytes k n).length = k := by
  induction k generalizing n with
  | zero => rfl
  | succ k ih => rw [beBytes, List.length_append, ih, List.length_singleton]

theorem beNum_beBytes (k n : ℕ) : beNum (beBytes k n) = n % 256 ^ k := by
  induction k generalizing n with
  | zero => rw [pow_zero, Nat.mod_one]; rfl
  | succ k ih =>
      rw [beBytes, beNum_append, ih, pow_succ', Nat.mod_mul, UInt8.toNat_ofNat', Nat.add_comm]

/-- The little-endian number with the given digits in base 256. -/
def leNum (l : List UInt8) : ℕ := l.foldr (fun b n => b.toNat + 256 * n) 0

/-- A digit joins the digits in front of it. -/
theorem shiftLeft_or_byte (x : ℕ) (b : UInt8) (i : ℕ) :
    x <<< (i + 8) ||| b.toNat <<< i = (256 * x + b.toNat) <<< i := by
  rw [Nat.add_comm, Nat.shiftLeft_add, ← Nat.shiftLeft_or_distrib, Nat.shiftLeft_eq x, Nat.mul_comm,
    ← Nat.two_pow_add_eq_or_of_lt b.toNat_lt]

/-- Three bytes, put together as C code does. -/
theorem toNat_be24 (a b c : UInt8) :
    (a.toUInt32 <<< 16 ||| b.toUInt32 <<< 8 ||| c.toUInt32).toNat = beNum [a, b, c] := by
  have ha := a.toNat_lt
  have hb := b.toNat_lt
  have h₁ := shiftLeft_or_byte a.toNat b 8
  have h₂ := shiftLeft_or_byte (256 * a.toNat + b.toNat) c 0
  simp [beNum]
  rw [Nat.mod_eq_of_lt (by omega), Nat.mod_eq_of_lt (by omega), h₁]
  exact h₂

/-- Four bytes, put together as C code does. -/
theorem toNat_be32 (a b c d : UInt8) :
    (a.toUInt32 <<< 24 ||| b.toUInt32 <<< 16 ||| c.toUInt32 <<< 8 ||| d.toUInt32).toNat =
      beNum [a, b, c, d] := by
  have ha := a.toNat_lt
  have hb := b.toNat_lt
  have hc := c.toNat_lt
  have h₁ := shiftLeft_or_byte a.toNat b 16
  have h₂ := shiftLeft_or_byte (256 * a.toNat + b.toNat) c 8
  have h₃ := shiftLeft_or_byte (256 * (256 * a.toNat + b.toNat) + c.toNat) d 0
  simp [beNum]
  rw [Nat.mod_eq_of_lt (by omega), Nat.mod_eq_of_lt (by omega), Nat.mod_eq_of_lt (by omega), h₁, h₂]
  exact h₃

/-- A digit of a word, cut out as C code does. -/
theorem toNat_shift_mask (u : UInt32) {s m : UInt32} {i k : ℕ} (hs : s.toNat = i) (hi : i < 32)
    (hm : m.toNat = 2 ^ k - 1) (hk : k ≤ 8) :
    ((u >>> s) &&& m).toUInt8.toNat = u.toNat / 2 ^ i % 2 ^ k := by
  have hle : 2 ^ k ≤ 2 ^ 8 := Nat.pow_le_pow_right (by decide) hk
  have hlt := Nat.mod_lt (u.toNat / 2 ^ i) (Nat.two_pow_pos k)
  rw [UInt32.toNat_toUInt8, UInt32.toNat_and, UInt32.toNat_shiftRight, hs, Nat.mod_eq_of_lt hi, hm,
    Nat.and_two_pow_sub_one_eq_mod, Nat.shiftRight_eq_div_pow, Nat.mod_eq_of_lt (by omega)]

/-! ### Framing rules -/

/-- A rule that finds the length of a message in its header. -/
structure Framing (α : Type) where
  hdr : ℕ
  hdr_pos : 0 < hdr
  len : List α → ℕ
  len_take : ∀ l, len (l.take hdr) = len l

namespace Framing

variable (F : Framing α)

/-- A message whose length is what the rule says. -/
structure Message (m : List α) : Prop where
  header : F.hdr ≤ m.length
  len_eq : F.len m = m.length

variable {F}

/-- The header of the first message, as soon as it is there. -/
theorem Message.take_hdr {m bs rest : List α} (hm : F.Message m) (hp : bs <+: m ++ rest)
    (hb : F.hdr ≤ bs.length) : bs.take F.hdr = m.take F.hdr := by
  obtain ⟨t, ht⟩ := hp
  calc bs.take F.hdr = (bs ++ t).take F.hdr := (List.take_append_of_le_length hb).symm
    _ = m.take F.hdr := by rw [ht, List.take_append_of_le_length hm.header]

/-- The rule finds the length of the first message as soon as its header is there. -/
theorem Message.len_eq_of_hdr {m bs rest : List α} (hm : F.Message m) (hp : bs <+: m ++ rest)
    (hb : F.hdr ≤ bs.length) : F.len bs = m.length := by
  rw [← F.len_take, hm.take_hdr hp hb, F.len_take, hm.len_eq]

theorem Message.length_pos {m : List α} (hm : F.Message m) : 0 < m.length :=
  lt_of_lt_of_le F.hdr_pos hm.header

/-- The list starts with a whole message. -/
def Complete (F : Framing α) (l : List α) : Prop := F.hdr ≤ l.length ∧ F.len l ≤ l.length

instance (F : Framing α) (l : List α) : Decidable (F.Complete l) := inferInstanceAs (Decidable (_ ∧ _))

theorem Message.complete_iff {m l rest : List α} (hm : F.Message m) (hp : l <+: m ++ rest) :
    F.Complete l ↔ m.length ≤ l.length := by
  have hhdr := hm.header
  constructor
  · rintro ⟨hle, hlen⟩
    rwa [hm.len_eq_of_hdr hp hle] at hlen
  · intro hle
    refine ⟨hhdr.trans hle, ?_⟩
    rwa [hm.len_eq_of_hdr hp (hhdr.trans hle)]

end Framing

end Rakaia.Lib
