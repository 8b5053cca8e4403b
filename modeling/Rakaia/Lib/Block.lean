import Mathlib.Data.Nat.ModEq
import Mathlib.Tactic.Ring
import Mathlib.Tactic.Linarith

/-! # Byte blocks and the fields of C structures

A `Block n` is a memory object of `n` bytes.  A `Field n` is a range of it, and carries the proof
that the range lies inside the object; `store` and `load` write and read a field as a
little-endian number.  A load sees the last store to the same field (`load_store`) and is not
changed by a store to a disjoint one (`load_store_of_disjoint`).

`layout` computes the offsets that a C compiler gives to the members of a structure from their
sizes and alignments. -/

namespace Rakaia.Lib

/-- A memory object of `n` bytes. -/
abbrev Block (n : ℕ) := Fin n → UInt8

namespace Block

variable {n : ℕ}

/-- The byte at offset `k`, `0` outside the object. -/
def byteAt (b : Block n) (k : ℕ) : UInt8 := if h : k < n then b ⟨k, h⟩ else 0

/-- The little-endian number in the `w` bytes from offset `k`. -/
def numAt (b : Block n) : ℕ → ℕ → ℕ
  | _, 0 => 0
  | k, w + 1 => (b.byteAt k).toNat + 256 * numAt b (k + 1) w

/-- Digit `k` of `v` in base 256. -/
def digit (v k : ℕ) : UInt8 := UInt8.ofNat (v / 256 ^ k % 256)

theorem digit_toNat (v k : ℕ) : (digit v k).toNat = v / 256 ^ k % 256 := by
  simp [digit]

theorem numAt_congr {b b' : Block n} (w : ℕ) : ∀ k,
    (∀ j < w, b.byteAt (k + j) = b'.byteAt (k + j)) → b.numAt k w = b'.numAt k w := by
  induction w with
  | zero => intro k _; rfl
  | succ w ih =>
      intro k h
      have h0 : b.byteAt k = b'.byteAt k := by simpa using h 0 (by omega)
      have hs : b.numAt (k + 1) w = b'.numAt (k + 1) w := by
        apply ih
        intro j hj
        have := h (j + 1) (by omega)
        rwa [show k + (j + 1) = k + 1 + j by omega] at this
      simp only [numAt, h0, hs]

theorem numAt_digits {b : Block n} (w : ℕ) : ∀ k v,
    (∀ j < w, b.byteAt (k + j) = digit v j) → b.numAt k w = v % 256 ^ w := by
  induction w with
  | zero => intro k v _; simp [numAt, Nat.mod_one]
  | succ w ih =>
      intro k v h
      have h0 : b.byteAt k = digit v 0 := by simpa using h 0 (by omega)
      have hs : b.numAt (k + 1) w = v / 256 % 256 ^ w := by
        apply ih
        intro j hj
        have := h (j + 1) (by omega)
        rw [show k + (j + 1) = k + 1 + j by omega] at this
        rw [this, digit, digit, Nat.div_div_eq_div_mul, pow_succ' 256 j]
      simp only [numAt, h0, hs, digit_toNat, pow_zero, Nat.div_one]
      rw [pow_succ' 256 w, Nat.mod_mul]

end Block

/-- A range of bytes inside an object of `n` bytes. -/
structure Field (n : ℕ) where
  off : ℕ
  width : ℕ
  inside : off + width ≤ n

namespace Field

variable {n : ℕ}

/-- The two ranges share no byte. -/
def Disjoint (f g : Field n) : Prop := f.off + f.width ≤ g.off ∨ g.off + g.width ≤ f.off

instance (f g : Field n) : Decidable (f.Disjoint g) :=
  inferInstanceAs (Decidable (_ ∨ _))

/-- Write the number `v` into the field, modulo its width. -/
def store (f : Field n) (v : ℕ) (b : Block n) : Block n := fun k =>
  if f.off ≤ k ∧ k < f.off + f.width then Block.digit v (k - f.off) else b k

/-- Read the number in the field. -/
def load (f : Field n) (b : Block n) : ℕ := b.numAt f.off f.width

theorem byteAt_store_inside (f : Field n) (v : ℕ) (b : Block n) {j : ℕ} (hj : j < f.width) :
    (f.store v b).byteAt (f.off + j) = Block.digit v j := by
  have hn : f.off + j < n := lt_of_lt_of_le (by omega) f.inside
  have hk : f.off ≤ f.off + j ∧ f.off + j < f.off + f.width := by omega
  simp only [Block.byteAt, hn, dif_pos, store, if_pos hk, Nat.add_sub_cancel_left]

theorem byteAt_store_outside (f : Field n) (v : ℕ) (b : Block n) {k : ℕ}
    (hk : k < f.off ∨ f.off + f.width ≤ k) : (f.store v b).byteAt k = b.byteAt k := by
  have hk' : ¬ (f.off ≤ k ∧ k < f.off + f.width) := by omega
  unfold Block.byteAt
  split_ifs with hn
  · simp only [store, if_neg hk']
  · rfl

/-- A load sees the last store to the same field. -/
theorem load_store (f : Field n) (v : ℕ) (b : Block n) :
    f.load (f.store v b) = v % 256 ^ f.width :=
  Block.numAt_digits _ _ _ (fun _ hj => f.byteAt_store_inside v b hj)

/-- A store does not change a disjoint field. -/
theorem load_store_of_disjoint {f g : Field n} (h : f.Disjoint g) (v : ℕ) (b : Block n) :
    g.load (f.store v b) = g.load b := by
  apply Block.numAt_congr
  intro j hj
  apply f.byteAt_store_outside
  rcases h with h | h
  · exact Or.inr (by omega)
  · exact Or.inl (by omega)

end Field

/-- The least multiple of `a` that is at least `k`. -/
def alignUp (k a : ℕ) : ℕ := (k + a - 1) / a * a

/-- The offsets of the members of a C structure, from their sizes and alignments, when the first
free byte is `k`. -/
def layout : ℕ → List (ℕ × ℕ) → List ℕ
  | _, [] => []
  | k, (size, align) :: ms => alignUp k align :: layout (alignUp k align + size) ms

end Rakaia.Lib
