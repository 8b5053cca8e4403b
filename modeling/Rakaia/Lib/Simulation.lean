import Rakaia.Lib.Progress

/-! # Simulation of runs

A machine simulates another one through a relation between their states and histories if it can answer every
step of the other with a run of its own, perhaps an empty one.  Then every run of the other machine is a run of
this one, seen through the relation (`Reach.simulate`). -/

namespace Rakaia.Lib.Machine

variable {σ α ε τ β δ : Type} {M : Machine σ α ε} {N : Machine τ β δ} {G : σ → α → Prop} {H : τ → β → Prop}

/-- The states and histories `t`, `ds` and `s`, `es` are matched after a step of `N`, by a run of `M`. -/
def Answers (M : Machine σ α ε) (G : σ → α → Prop) (R : τ → List δ → σ → List ε → Prop) (t : τ) (ds : List δ)
    (s : σ) (es : List ε) : Prop :=
  ∃ s' e, M.Continues G s e s' ∧ R t ds s' (es ++ e)

theorem Answers.stay {R : τ → List δ → σ → List ε → Prop} {t : τ} {ds : List δ} {s : σ} {es : List ε}
    (h : R t ds s es) : M.Answers G R t ds s es :=
  ⟨s, [], .refl s, by rw [List.append_nil]; exact h⟩

theorem Answers.single {R : τ → List δ → σ → List ε → Prop} {t : τ} {ds : List δ} {s s' : σ} {a : α}
    {es e : List ε} (hg : G s a) (hs : M.step s a = some (s', e)) (h : R t ds s' (es ++ e)) :
    M.Answers G R t ds s es :=
  ⟨s', e, .single hg hs, h⟩

/-- **Simulation rule**: if related states stay related, with a run of `M` for every step of `N`, then every state
that `N` reaches is related to one that `M` reaches. -/
theorem Reach.simulate (R : τ → List δ → σ → List ε → Prop) (h0 : R N.init [] M.init [])
    (hstep : ∀ t ds b t' d s es, N.Reach H t ds → M.Reach G s es → R t ds s es → H t b →
      N.step t b = some (t', d) → M.Answers G R t' (ds ++ d) s es) {t : τ} {ds : List δ} (h : N.Reach H t ds) :
    ∃ s es, M.Reach G s es ∧ R t ds s es := by
  induction h with
  | init => exact ⟨M.init, [], .init, h0⟩
  | step hr hg hs ih =>
      obtain ⟨s, es, hreach, hR⟩ := ih
      obtain ⟨s', e, hc, hR'⟩ := hstep _ _ _ _ _ _ _ hr hreach hR hg hs
      exact ⟨s', es ++ e, hreach.continues hc, hR'⟩

end Rakaia.Lib.Machine
