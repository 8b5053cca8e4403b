import Mathlib.Data.List.Nodup
import Mathlib.Logic.Function.Basic

/-! # Tickets

A counter that threads increment atomically hands out each number once.  A thread that took a number holds it
until it gives it back; `done` lists the numbers given back.  Then no two threads hold the same number, and
none holds a number that was given back. -/

namespace Rakaia.Lib

variable {ι π : Type}

/-- The numbers below `next` were handed out; `held` says which of them a position holds. -/
structure Tickets (held : π → Option ℕ) (pos : ι → π) (next : ℕ) (done : List ℕ) : Prop where
  lt : ∀ t p, held (pos t) = some p → p < next
  unique : ∀ t u p, held (pos t) = some p → held (pos u) = some p → t = u
  fresh : ∀ t p, held (pos t) = some p → p ∉ done
  done_lt : ∀ p ∈ done, p < next
  nodup : done.Nodup

namespace Tickets

variable {held : π → Option ℕ} {pos : ι → π} {next : ℕ} {done : List ℕ} {t : ι} {q : π}

theorem init (h : ∀ t, held (pos t) = none) : Tickets held pos 0 [] where
  lt t p hp := by rw [h t] at hp; cases hp
  unique t u p hp := by rw [h t] at hp; cases hp
  fresh t p hp := by rw [h t] at hp; cases hp
  done_lt p hp := by cases hp
  nodup := List.nodup_nil

variable [DecidableEq ι]

/-- A thread moves with the number it has. -/
theorem move (h : Tickets held pos next done) (hq : held q = held (pos t)) :
    Tickets held (Function.update pos t q) next done := by
  have hheld : ∀ u, held (Function.update pos t q u) = held (pos u) := by
    intro u
    by_cases hu : u = t
    · subst hu
      rw [Function.update_self, hq]
    · rw [Function.update_of_ne hu]
  constructor
  · intro u p hp
    exact h.lt u p (hheld u ▸ hp)
  · intro u v p hu hv
    exact h.unique u v p (hheld u ▸ hu) (hheld v ▸ hv)
  · intro u p hp
    exact h.fresh u p (hheld u ▸ hp)
  · exact h.done_lt
  · exact h.nodup

/-- A thread takes the next number. -/
theorem take (h : Tickets held pos next done) (hq : held q = some next) :
    Tickets held (Function.update pos t q) (next + 1) done := by
  have hheld : ∀ u p, held (Function.update pos t q u) = some p →
      (u = t ∧ p = next) ∨ (u ≠ t ∧ held (pos u) = some p) := by
    intro u p hp
    by_cases hu : u = t
    · subst hu
      rw [Function.update_self, hq] at hp
      exact .inl ⟨rfl, (Option.some.inj hp).symm⟩
    · rw [Function.update_of_ne hu] at hp
      exact .inr ⟨hu, hp⟩
  constructor
  · intro u p hp
    rcases hheld u p hp with ⟨-, rfl⟩ | ⟨-, hp⟩
    · exact Nat.lt_succ_self _
    · exact Nat.lt_succ_of_lt (h.lt u p hp)
  · intro u v p hu hv
    rcases hheld u p hu with ⟨rfl, rfl⟩ | ⟨-, hu'⟩ <;> rcases hheld v p hv with ⟨rfl, hp⟩ | ⟨-, hv⟩
    · rfl
    · exact absurd (h.lt v _ hv) (Nat.lt_irrefl _)
    · exact absurd (h.lt u p hu') (hp ▸ Nat.lt_irrefl _)
    · exact h.unique u v p hu' hv
  · intro u p hp hd
    rcases hheld u p hp with ⟨-, rfl⟩ | ⟨-, hp⟩
    · exact Nat.lt_irrefl _ (h.done_lt _ hd)
    · exact h.fresh u p hp hd
  · exact fun p hp => Nat.lt_succ_of_lt (h.done_lt p hp)
  · exact h.nodup

/-- A thread gives its number back. -/
theorem give (h : Tickets held pos next done) {p : ℕ} (hp : held (pos t) = some p) (hq : held q = none) :
    Tickets held (Function.update pos t q) next (done ++ [p]) := by
  have hheld : ∀ u r, held (Function.update pos t q u) = some r → u ≠ t ∧ held (pos u) = some r := by
    intro u r hr
    by_cases hu : u = t
    · subst hu
      rw [Function.update_self, hq] at hr
      cases hr
    · rw [Function.update_of_ne hu] at hr
      exact ⟨hu, hr⟩
  constructor
  · exact fun u r hr => h.lt u r (hheld u r hr).2
  · exact fun u v r hu hv => h.unique u v r (hheld u r hu).2 (hheld v r hv).2
  · intro u r hr hd
    obtain ⟨hne, hr⟩ := hheld u r hr
    rcases List.mem_append.mp hd with hd | hd
    · exact h.fresh u r hr hd
    · obtain rfl := List.mem_singleton.mp hd
      exact hne (h.unique u t r hr hp)
  · intro r hr
    rcases List.mem_append.mp hr with hr | hr
    · exact h.done_lt r hr
    · obtain rfl := List.mem_singleton.mp hr
      exact h.lt t r hp
  · exact List.nodup_append.mpr ⟨h.nodup, List.nodup_singleton _, by
      rintro a ha b hb rfl
      obtain rfl := List.mem_singleton.mp hb
      exact h.fresh t a hp ha⟩

end Tickets

end Rakaia.Lib
