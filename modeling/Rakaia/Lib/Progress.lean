import Rakaia.Lib.Machine

/-! # Runs that go on

`Continues G s e s'` is a run from `s` to `s'` with the events `e`.  A machine that reads a stream, and that from
every state it reaches can go on to read the next element, can go on to read all of it (`Reach.exists_reads_all`). -/

namespace Rakaia.Lib.Machine

variable {σ α ε β : Type}

inductive Continues (M : Machine σ α ε) (G : σ → α → Prop) : σ → List ε → σ → Prop
  | refl (s : σ) : Continues M G s [] s
  | step {s s₁ s₂ : σ} {a : α} {e₁ e₂ : List ε} : G s a → M.step s a = some (s₁, e₁) →
      Continues M G s₁ e₂ s₂ → Continues M G s (e₁ ++ e₂) s₂

variable {M : Machine σ α ε} {G : σ → α → Prop} {s s' s'' : σ} {a : α} {es e e' : List ε}

theorem Continues.single (hg : G s a) (hs : M.step s a = some (s', e)) : M.Continues G s e s' := by
  have h := Continues.step hg hs (.refl s')
  rwa [List.append_nil] at h

theorem Continues.trans (h : M.Continues G s e s') (h' : M.Continues G s' e' s'') :
    M.Continues G s (e ++ e') s'' := by
  induction h with
  | refl => exact h'
  | step hg hs _ ih =>
      rw [List.append_assoc]
      exact .step hg hs (ih h')

theorem Reach.continues (h : M.Reach G s es) (hc : M.Continues G s e s') : M.Reach G s' (es ++ e) := by
  induction hc generalizing es with
  | refl =>
      rw [List.append_nil]
      exact h
  | step hg hs _ ih =>
      rw [← List.append_assoc]
      exact ih (h.step hg hs)

/-- **A stream is read to its end** if its next element always can be read. -/
theorem Reach.exists_reads_all {read : List ε → List β} {stream : List β}
    (happend : ∀ es e, read (es ++ e) = read es ++ read e)
    (hnext : ∀ s es b rest, M.Reach G s es → read es ++ b :: rest = stream →
      ∃ s' e, M.Continues G s e s' ∧ read e = [b])
    (h : M.Reach G s es) (hp : read es <+: stream) :
    ∃ s' e, M.Continues G s e s' ∧ read (es ++ e) = stream := by
  obtain ⟨rest, hrest⟩ := hp
  induction rest generalizing s es with
  | nil => exact ⟨s, [], .refl s, by rw [List.append_nil, ← hrest, List.append_nil]⟩
  | cons b rest ih =>
      obtain ⟨s₁, e₁, hc₁, hb⟩ := hnext s es b rest h hrest
      have hread : read (es ++ e₁) ++ rest = stream := by
        rw [happend, hb, List.append_assoc]
        exact hrest
      obtain ⟨s₂, e₂, hc₂, hall⟩ := ih (h.continues hc₁) hread
      refine ⟨s₂, e₁ ++ e₂, hc₁.trans hc₂, ?_⟩
      rw [← List.append_assoc]
      exact hall

end Rakaia.Lib.Machine
