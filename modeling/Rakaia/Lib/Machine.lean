import Mathlib.Data.List.Basic
import Mathlib.Tactic.Common

/-! # Machines with guarded runs

A `Machine` is a deterministic step function on actions: all nondeterminism (the choice of the
thread that moves, a random draw, the result of an environment call) is an argument of the
action, so a run is a list of actions and can be evaluated.  A step also emits a list of events;
the events of a run are its history.

`Reach G s es` says that `s` is reached with history `es` by a run every step of which meets the
guard `G`, a condition on the action and on the state *before* the step.  `Reach.invariant` is
the invariant rule, `Reach.exec` turns an evaluated list of actions into a run, and
`Reach.project` carries runs of a machine over to a machine it is built on. -/

namespace Rakaia.Lib

/-- A machine on states `σ` with actions `α` and events `ε`; `step s a = none` when `a` is not
enabled in `s`. -/
structure Machine (σ α ε : Type) where
  init : σ
  step : σ → α → Option (σ × List ε)

namespace Machine

variable {σ α ε : Type} (M : Machine σ α ε)

/-- `s` is reached with history `es` by a run all of whose steps meet `G`. -/
inductive Reach (G : σ → α → Prop) : σ → List ε → Prop
  | init : Reach G M.init []
  | step {s s' : σ} {a : α} {es e : List ε} :
      Reach G s es → G s a → M.step s a = some (s', e) → Reach G s' (es ++ e)

/-- Runs without a condition on their steps. -/
abbrev Reachable : σ → List ε → Prop := M.Reach (fun _ _ => True)

variable {M}

/-- A guard that the steps of a run meet in the states it reaches may replace its guard. -/
theorem Reach.mono {G G' : σ → α → Prop} (hG : ∀ s es a, M.Reach G s es → G s a → G' s a) {s : σ}
    {es : List ε} (h : M.Reach G s es) : M.Reach G' s es := by
  induction h with
  | init => exact Reach.init
  | step hr hg hs ih => exact Reach.step ih (hG _ _ _ hr hg) hs

theorem Reach.reachable {G : σ → α → Prop} {s : σ} {es : List ε} (h : M.Reach G s es) :
    M.Reachable s es := h.mono (fun _ _ _ _ _ => trivial)

/-- **Invariant rule**: what holds initially and is kept by every step that meets the guard holds
in every state reached. -/
theorem Reach.invariant {G : σ → α → Prop} {P : σ → List ε → Prop} (h0 : P M.init [])
    (hstep : ∀ s es a s' e, M.Reach G s es → P s es → G s a → M.step s a = some (s', e) →
      P s' (es ++ e)) {s : σ} {es : List ε} (h : M.Reach G s es) : P s es := by
  induction h with
  | init => exact h0
  | step hr hg hs ih => exact hstep _ _ _ _ _ hr ih hg hs

variable (M)

/-- The state and the events after a list of actions, all of them enabled and accepted by `g`. -/
def exec (g : σ → α → Bool) : σ → List α → Option (σ × List ε)
  | s, [] => some (s, [])
  | s, a :: as =>
      if g s a then
        match M.step s a with
        | none => none
        | some (s', e) => (exec g s' as).map (fun r => (r.1, e ++ r.2))
      else none

variable {M}

/-- An evaluated list of actions extends a run. -/
theorem Reach.exec {G : σ → α → Prop} {g : σ → α → Bool} {s s' : σ} {es e : List ε} {as : List α}
    (hg : ∀ s, ∀ a ∈ as, g s a = true → G s a) (h : M.Reach G s es)
    (hx : M.exec g s as = some (s', e)) : M.Reach G s' (es ++ e) := by
  induction as generalizing s es e with
  | nil =>
      simp only [Machine.exec, Option.some.injEq, Prod.mk.injEq] at hx
      obtain ⟨rfl, rfl⟩ := hx
      simpa using h
  | cons a as ih =>
      simp only [Machine.exec] at hx
      split_ifs at hx with hga
      cases hs : M.step s a with
      | none => rw [hs] at hx; cases hx
      | some r =>
          obtain ⟨s₁, e₁⟩ := r
          simp only [hs, Option.map_eq_some_iff, Prod.mk.injEq, Prod.exists] at hx
          obtain ⟨t, f, hx, rfl, rfl⟩ := hx
          have := ih (fun s b hb => hg s b (List.mem_cons_of_mem _ hb))
            (h.step (hg _ _ List.mem_cons_self hga) hs) hx
          rwa [List.append_assoc] at this

/-- A run from an evaluation, of which only the part seen by `f` is computed. -/
theorem Reach.of_exec {β : Type} {G : σ → α → Prop} {g : σ → α → Bool} (as : List α)
    (hg : ∀ s, ∀ a ∈ as, g s a = true → G s a) (f : σ × List ε → β) (y : β)
    (h : (M.exec g M.init as).map f = some y) : ∃ s es, M.Reach G s es ∧ f (s, es) = y := by
  obtain ⟨⟨s, es⟩, hx, hy⟩ := Option.map_eq_some_iff.mp h
  exact ⟨s, es, by simpa using Reach.init.exec hg hx, hy⟩

/-- **Projection**: a machine whose steps are, seen through `f`, steps of `M` or no step at all
reaches only states that `M` reaches; `φ` picks the events of `M`. -/
theorem Reach.project {τ β δ : Type} {N : Machine τ β δ} {G : σ → α → Prop} {H : τ → β → Prop}
    (f : τ → σ) (φ : List δ → List ε) (hφ : ∀ d d', φ (d ++ d') = φ d ++ φ d') (hφ0 : φ [] = [])
    (h0 : f N.init = M.init)
    (hstep : ∀ t ds b t' d, N.Reach H t ds → H t b → N.step t b = some (t', d) →
      (f t' = f t ∧ φ d = []) ∨ ∃ a, G (f t) a ∧ M.step (f t) a = some (f t', φ d))
    {t : τ} {ds : List δ} (h : N.Reach H t ds) : M.Reach G (f t) (φ ds) := by
  induction h with
  | init => rw [h0, hφ0]; exact Reach.init
  | step hr hg hs ih =>
      rw [hφ]
      rcases hstep _ _ _ _ _ hr hg hs with ⟨hf, hd⟩ | ⟨a, hGa, ha⟩
      · rw [hf, hd, List.append_nil]
        exact ih
      · exact ih.step hGa ha

end Machine

end Rakaia.Lib
