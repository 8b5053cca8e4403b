import Mathlib.Algebra.BigOperators.Fin
import Mathlib.Algebra.Order.BigOperators.Group.Finset
import Mathlib.Logic.Function.Basic

/-! # Tallies

A number that every thread contributes to, according to where it stands: the tally over all threads of a
weight of their positions.  When one thread moves, the tally changes by the weights of its two positions
(`tally_update`), so a conservation law over all threads is kept by a step if the law holds for the thread
that moves.  `total` is the same for the records of a finite set. -/

namespace Rakaia.Lib

section total

variable {ι π : Type} [DecidableEq ι]

/-- The sum of the weights of the records in a set. -/
def total (S : Finset ι) (g : π → ℕ) (f : ι → π) : ℕ := ∑ i ∈ S, g (f i)

theorem total_update {S : Finset ι} {i : ι} (hi : i ∈ S) (g : π → ℕ) (f : ι → π) (x : π) :
    total S g (Function.update f i x) + g (f i) = total S g f + g x := by
  have hnew := Finset.add_sum_erase S (fun j => g (Function.update f i x j)) hi
  have hold := Finset.add_sum_erase S (fun j => g (f j)) hi
  have hrest : ∑ j ∈ S.erase i, g (Function.update f i x j) = ∑ j ∈ S.erase i, g (f j) := by
    refine Finset.sum_congr rfl (fun j hj => ?_)
    rw [Function.update_of_ne (Finset.ne_of_mem_erase hj)]
  simp only [Function.update_self] at hnew
  unfold total
  omega

omit [DecidableEq ι] in
theorem le_total {S : Finset ι} {i : ι} (hi : i ∈ S) (g : π → ℕ) (f : ι → π) : g (f i) ≤ total S g f :=
  Finset.single_le_sum (f := fun j => g (f j)) (fun _ _ => Nat.zero_le _) hi

/-- A record is added. -/
theorem total_range_succ (n : ℕ) (g : π → ℕ) (f : ℕ → π) (x : π) :
    total (Finset.range (n + 1)) g (Function.update f n x) = total (Finset.range n) g f + g x := by
  unfold total
  rw [Finset.sum_range_succ, Function.update_self]
  congr 1
  refine Finset.sum_congr rfl (fun j hj => ?_)
  rw [Function.update_of_ne (Nat.ne_of_lt (Finset.mem_range.mp hj))]

end total

variable {ι π : Type} [Fintype ι]

/-- The sum of the weights of all positions. -/
def tally (g : π → ℕ) (pos : ι → π) : ℕ := ∑ t, g (pos t)

theorem tally_update [DecidableEq ι] (g : π → ℕ) (pos : ι → π) (t : ι) (p : π) :
    tally g (Function.update pos t p) + g (pos t) = tally g pos + g p :=
  total_update (Finset.mem_univ t) g pos p

theorem le_tally (g : π → ℕ) (pos : ι → π) (t : ι) : g (pos t) ≤ tally g pos := le_total (Finset.mem_univ t) g pos

theorem tally_eq_zero {g : π → ℕ} {pos : ι → π} (h : ∀ t, g (pos t) = 0) : tally g pos = 0 :=
  Finset.sum_eq_zero (fun t _ => h t)

end Rakaia.Lib
