import Mathlib.Logic.Function.Basic
import Mathlib.Tactic.Common

/-! # Flags with an owner

A flag that threads take with an atomic test and give up later: it is set if and only if some thread stands
at a position that owns it, and then only one thread does.  A thread that moves keeps this if both its
positions own the flag, or neither does (`move`); if it takes a flag that is not set (`take`); and if it gives
up a flag that it owns (`release`). -/

namespace Rakaia.Lib

variable {ι π : Type}

/-- The flag is set if and only if a thread owns it, and then only one does. -/
structure Owned (Owns : π → Prop) (pos : ι → π) (flag : Bool) : Prop where
  unique : ∀ t u, Owns (pos t) → Owns (pos u) → t = u
  set : flag = true ↔ ∃ t, Owns (pos t)

namespace Owned

variable {Owns : π → Prop} {pos : ι → π} {flag : Bool} {t : ι} {p : π}

theorem not_owns (h : Owned Owns pos false) (t : ι) : ¬ Owns (pos t) := by
  intro ho
  have hset := h.set.mpr ⟨t, ho⟩
  cases hset

variable [DecidableEq ι]

theorem move (h : Owned Owns pos flag) (hp : Owns p ↔ Owns (pos t)) :
    Owned Owns (Function.update pos t p) flag := by
  have howns : ∀ u, Owns (Function.update pos t p u) ↔ Owns (pos u) := by
    intro u
    by_cases hu : u = t
    · subst hu
      rw [Function.update_self]
      exact hp
    · rw [Function.update_of_ne hu]
  constructor
  · intro u v hu hv
    exact h.unique u v ((howns u).mp hu) ((howns v).mp hv)
  · simp only [howns]
    exact h.set

theorem take (h : Owned Owns pos false) (t : ι) (hp : Owns p) : Owned Owns (Function.update pos t p) true := by
  have honly : ∀ u, Owns (Function.update pos t p u) → u = t := by
    intro u hu
    by_contra hne
    rw [Function.update_of_ne hne] at hu
    exact h.not_owns u hu
  constructor
  · intro u v hu hv
    rw [honly u hu, honly v hv]
  · exact ⟨fun _ => ⟨t, by rwa [Function.update_self]⟩, fun _ => rfl⟩

theorem release (h : Owned Owns pos flag) (ht : Owns (pos t)) (hp : ¬ Owns p) :
    Owned Owns (Function.update pos t p) false := by
  have hnone : ∀ u, ¬ Owns (Function.update pos t p u) := by
    intro u hu
    by_cases hut : u = t
    · subst hut
      rw [Function.update_self] at hu
      exact hp hu
    · rw [Function.update_of_ne hut] at hu
      exact hut (h.unique u t hu ht)
  constructor
  · intro u _ hu
    exact absurd hu (hnone u)
  · constructor
    · intro hset
      cases hset
    · rintro ⟨u, hu⟩
      exact absurd hu (hnone u)

end Owned

end Rakaia.Lib
