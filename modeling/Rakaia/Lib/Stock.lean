import Rakaia.Lib.Chain

/-! # Nodes in chains and in hands

A stock of nodes that are linked by one pointer each.  A node is in one of several chains or in the hand of
one of several threads, never in two of these (`Stock.exists_unique`).  A thread puts the node in its hand in
front of a chain (`put`) and takes the first node of a chain (`take`); a chain as a whole becomes another one
(`move`) or is put, in reverse, behind another one (`splice`).  The pointer of a node in a hand is of no
matter (`relink`), and nodes may be added (`new`). -/

namespace Rakaia.Lib

variable {α κ ι : Type}

/-- Every node of `all` is in one chain or in one hand. -/
structure Stock (next : α → Option α) (c : κ → List α) (hand : ι → Option α) (all : α → Prop) : Prop where
  chains : Chains next c
  hand_not_mem : ∀ i a, hand i = some a → ∀ k, a ∉ c k
  hand_unique : ∀ i j a, hand i = some a → hand j = some a → i = j
  cover : ∀ a, all a ↔ (∃ k, a ∈ c k) ∨ ∃ i, hand i = some a

namespace Stock

variable {next next' : α → Option α} {c : κ → List α} {hand : ι → Option α} {all : α → Prop}
  {k k' : κ} {i : ι} {a : α} {l : List α}

/-- A place of a node: a chain or a hand. -/
def At (c : κ → List α) (hand : ι → Option α) (a : α) : κ ⊕ ι → Prop
  | .inl k => a ∈ c k
  | .inr i => hand i = some a

theorem exists_unique (h : Stock next c hand all) (ha : all a) : ∃! p, At c hand a p := by
  rcases (h.cover a).mp ha with ⟨k, hk⟩ | ⟨i, hi⟩
  · refine ⟨.inl k, hk, ?_⟩
    rintro (k' | i) hp
    · exact congrArg _ (h.chains.disjoint k' k a hp hk)
    · exact absurd hk (h.hand_not_mem i a hp k)
  · refine ⟨.inr i, hi, ?_⟩
    rintro (k | j) hp
    · exact absurd hp (h.hand_not_mem i a hi k)
    · exact congrArg _ (h.hand_unique j i a hp hi)

/-- Chains that keep the nodes of all chains together keep the stock. -/
theorem congr (h : Stock next c hand all) {c' : κ → List α} (hc : Chains next' c')
    (hmem : ∀ a, (∃ k, a ∈ c' k) ↔ ∃ k, a ∈ c k) : Stock next' c' hand all where
  chains := hc
  hand_not_mem i a hi k hk := by
    obtain ⟨k', hk'⟩ := (hmem a).mp ⟨k, hk⟩
    exact h.hand_not_mem i a hi k' hk'
  hand_unique := h.hand_unique
  cover a := by rw [hmem, h.cover]

section chains

variable [DecidableEq κ]

theorem mem_update (c : κ → List α) (k k₀ : κ) (l : List α) (b : α) :
    b ∈ Function.update c k l k₀ ↔ (k₀ = k ∧ b ∈ l) ∨ (k₀ ≠ k ∧ b ∈ c k₀) := by
  by_cases hk : k₀ = k
  · subst hk
    simp
  · simp [hk]

/-- A chain becomes another one, which was empty. -/
theorem move (h : Stock next c hand all) (hne : k ≠ k') (hk' : c k' = []) :
    Stock next (Function.update (Function.update c k []) k' (c k)) hand all := by
  refine h.congr (h.chains.move k k' hne) (fun b => ?_)
  constructor
  · rintro ⟨k₀, hb⟩
    rw [mem_update, mem_update] at hb
    rcases hb with ⟨-, hb⟩ | ⟨-, ⟨-, hb⟩ | ⟨-, hb⟩⟩
    · exact ⟨k, hb⟩
    · cases hb
    · exact ⟨k₀, hb⟩
  · rintro ⟨k₀, hb⟩
    by_cases hk : k₀ = k
    · subst hk
      exact ⟨k', (mem_update ..).mpr (.inl ⟨rfl, hb⟩)⟩
    · have hk₀ : k₀ ≠ k' := by
        rintro rfl
        rw [hk'] at hb
        cases hb
      exact ⟨k₀, (mem_update ..).mpr (.inr ⟨hk₀, (mem_update ..).mpr (.inr ⟨hk, hb⟩)⟩)⟩

/-- A chain is put, in reverse, behind another one; the pointers of the other chains stay. -/
theorem splice (h : Stock next c hand all) (hne : k ≠ k') (hl : Linked next' (c k' ++ (c k).reverse))
    (heq : ∀ b, b ∉ c k → b ∉ c k' → next' b = next b) :
    Stock next' (Function.update (Function.update c k []) k' (c k' ++ (c k).reverse)) hand all := by
  have hsep : ∀ b, b ∈ c k → b ∉ c k' := fun b hb hb' => hne (h.chains.disjoint k k' b hb hb')
  have hdrop : Chains next (Function.update c k []) := h.chains.drop (fun _ _ _ _ => rfl)
  have hchains : Chains next' (Function.update (Function.update c k []) k' (c k' ++ (c k).reverse)) := by
    refine hdrop.replace hl ?_ ?_ ?_
    · rw [List.nodup_append]
      refine ⟨h.chains.nodup k', List.nodup_reverse.mpr (h.chains.nodup k), ?_⟩
      rintro b hb b' hb' rfl
      exact hsep b (List.mem_reverse.mp hb') hb
    · intro b hb
      rcases List.mem_append.mp hb with hb | hb
      · exact .inl (by rwa [Function.update_of_ne hne.symm])
      · refine .inr (fun k₀ hk₀ => ?_)
        rcases (mem_update ..).mp hk₀ with ⟨-, hb'⟩ | ⟨hk, hb'⟩
        · cases hb'
        · exact hk (h.chains.disjoint k₀ k b hb' (List.mem_reverse.mp hb))
    · intro k₀ hk₀ b hb
      rcases (mem_update ..).mp hb with ⟨-, hb⟩ | ⟨hk, hb⟩
      · cases hb
      · exact heq b (fun hm => hk (h.chains.disjoint k₀ k b hb hm))
          (fun hm => hk₀ (h.chains.disjoint k₀ k' b hb hm))
  refine h.congr hchains (fun b => ?_)
  constructor
  · rintro ⟨k₀, hb⟩
    rw [mem_update, mem_update] at hb
    rcases hb with ⟨-, hb⟩ | ⟨-, ⟨-, hb⟩ | ⟨-, hb⟩⟩
    · rcases List.mem_append.mp hb with hb | hb
      · exact ⟨k', hb⟩
      · exact ⟨k, List.mem_reverse.mp hb⟩
    · cases hb
    · exact ⟨k₀, hb⟩
  · rintro ⟨k₀, hb⟩
    by_cases hk' : k₀ = k'
    · subst hk'
      exact ⟨k₀, (mem_update ..).mpr (.inl ⟨rfl, List.mem_append_left _ hb⟩)⟩
    · by_cases hk : k₀ = k
      · subst hk
        exact ⟨k', (mem_update ..).mpr (.inl ⟨rfl, List.mem_append_right _ (List.mem_reverse.mpr hb)⟩)⟩
      · exact ⟨k₀, (mem_update ..).mpr (.inr ⟨hk', (mem_update ..).mpr (.inr ⟨hk, hb⟩)⟩)⟩

end chains

/-- The pointer of a node in a hand changes. -/
theorem relink [DecidableEq α] (h : Stock next c hand all) (hi : hand i = some a) (p : Option α) :
    Stock (Function.update next a p) c hand all :=
  h.congr (h.chains.congr (fun k _ hb =>
    Function.update_of_ne (ne_of_mem_of_not_mem hb (h.hand_not_mem i a hi k)) ..)) (fun _ => Iff.rfl)

variable [DecidableEq ι]

theorem hand_update (hand : ι → Option α) (i j : ι) (x : Option α) (b : α) :
    Function.update hand i x j = some b ↔ (j = i ∧ x = some b) ∨ (j ≠ i ∧ hand j = some b) := by
  by_cases hj : j = i
  · subst hj
    simp
  · simp [hj]

/-- A node that is in no hand gets into one. -/
theorem hand_unique_update (h : Stock next c hand all) (hnone : ∀ j, hand j ≠ some a) (j j' : ι) (b : α)
    (hj : Function.update hand i (some a) j = some b) (hj' : Function.update hand i (some a) j' = some b) :
    j = j' := by
  rcases (hand_update ..).mp hj with ⟨rfl, hb⟩ | ⟨-, hb⟩ <;>
    rcases (hand_update ..).mp hj' with ⟨rfl, hb'⟩ | ⟨-, hb'⟩
  · rfl
  · obtain rfl := Option.some.inj hb
    exact absurd hb' (hnone j')
  · obtain rfl := Option.some.inj hb'
    exact absurd hb (hnone j)
  · exact h.hand_unique j j' b hb hb'

/-- A new node, in a hand. -/
theorem new [DecidableEq α] (h : Stock next c hand all) (hi : hand i = none) (ha : ¬ all a) (p : Option α) :
    Stock (Function.update next a p) c (Function.update hand i (some a)) (fun b => b = a ∨ all b) := by
  have hnot : ∀ k, a ∉ c k := fun k hk => ha ((h.cover a).mpr (.inl ⟨k, hk⟩))
  have hnone : ∀ j, hand j ≠ some a := fun j hj => ha ((h.cover a).mpr (.inr ⟨j, hj⟩))
  refine ⟨?_, ?_, ?_, ?_⟩
  · exact h.chains.congr (fun k b hb => Function.update_of_ne (ne_of_mem_of_not_mem hb (hnot k)) ..)
  · intro j b hj k hk
    rcases (hand_update ..).mp hj with ⟨-, hb⟩ | ⟨-, hb⟩
    · obtain rfl := Option.some.inj hb
      exact hnot k hk
    · exact h.hand_not_mem j b hb k hk
  · exact h.hand_unique_update hnone
  · intro b
    constructor
    · rintro (rfl | hb)
      · exact .inr ⟨i, Function.update_self ..⟩
      · rcases (h.cover b).mp hb with hk | ⟨j, hj⟩
        · exact .inl hk
        · have hji : j ≠ i := by
            rintro rfl
            rw [hi] at hj
            cases hj
          exact .inr ⟨j, (hand_update ..).mpr (.inr ⟨hji, hj⟩)⟩
    · rintro (hk | ⟨j, hj⟩)
      · exact .inr ((h.cover b).mpr (.inl hk))
      · rcases (hand_update ..).mp hj with ⟨-, hb⟩ | ⟨-, hb⟩
        · exact .inl (Option.some.inj hb).symm
        · exact .inr ((h.cover b).mpr (.inr ⟨j, hb⟩))

variable [DecidableEq κ]

/-- The node in a hand is put in front of a chain. -/
theorem put (h : Stock next c hand all) (hi : hand i = some a) (hnext : next a = (c k).head?) :
    Stock next (Function.update c k (a :: c k)) (Function.update hand i none) all := by
  have hnot := h.hand_not_mem i a hi
  refine ⟨?_, ?_, ?_, ?_⟩
  · refine h.chains.replace (.cons hnext (h.chains.linked k)) (List.nodup_cons.mpr ⟨hnot k, h.chains.nodup k⟩)
      ?_ (fun _ _ _ _ => rfl)
    intro b hb
    rcases List.mem_cons.mp hb with rfl | hb
    · exact .inr hnot
    · exact .inl hb
  · intro j b hj k₀ hk₀
    rcases (hand_update ..).mp hj with ⟨-, hb⟩ | ⟨hji, hb⟩
    · cases hb
    · rcases (mem_update ..).mp hk₀ with ⟨-, hm⟩ | ⟨-, hm⟩
      · rcases List.mem_cons.mp hm with rfl | hm
        · exact hji (h.hand_unique j i b hb hi)
        · exact h.hand_not_mem j b hb k hm
      · exact h.hand_not_mem j b hb k₀ hm
  · intro j j' b hj hj'
    rcases (hand_update ..).mp hj with ⟨-, hb⟩ | ⟨-, hb⟩
    · cases hb
    · rcases (hand_update ..).mp hj' with ⟨-, hb'⟩ | ⟨-, hb'⟩
      · cases hb'
      · exact h.hand_unique j j' b hb hb'
  · intro b
    rw [h.cover]
    constructor
    · rintro (⟨k₀, hk₀⟩ | ⟨j, hj⟩)
      · by_cases hk : k₀ = k
        · subst hk
          exact .inl ⟨k₀, (mem_update ..).mpr (.inl ⟨rfl, List.mem_cons_of_mem _ hk₀⟩)⟩
        · exact .inl ⟨k₀, (mem_update ..).mpr (.inr ⟨hk, hk₀⟩)⟩
      · by_cases hji : j = i
        · subst hji
          obtain rfl := Option.some.inj (hi.symm.trans hj)
          exact .inl ⟨k, (mem_update ..).mpr (.inl ⟨rfl, List.mem_cons_self⟩)⟩
        · exact .inr ⟨j, (hand_update ..).mpr (.inr ⟨hji, hj⟩)⟩
    · rintro (⟨k₀, hk₀⟩ | ⟨j, hj⟩)
      · rcases (mem_update ..).mp hk₀ with ⟨-, hm⟩ | ⟨-, hm⟩
        · rcases List.mem_cons.mp hm with rfl | hm
          · exact .inr ⟨i, hi⟩
          · exact .inl ⟨k, hm⟩
        · exact .inl ⟨k₀, hm⟩
      · rcases (hand_update ..).mp hj with ⟨-, hb⟩ | ⟨-, hb⟩
        · cases hb
        · exact .inr ⟨j, hb⟩

/-- The first node of a chain is taken into an empty hand. -/
theorem take (h : Stock next c hand all) (hi : hand i = none) (hk : c k = a :: l) :
    Stock next (Function.update c k l) (Function.update hand i (some a)) all := by
  have hmem : a ∈ c k := by rw [hk]; exact List.mem_cons_self
  obtain ⟨hal, hl⟩ := List.nodup_cons.mp (hk ▸ h.chains.nodup k)
  have hsub : ∀ b ∈ l, b ∈ c k := fun b hb => by rw [hk]; exact List.mem_cons_of_mem _ hb
  have hnot : ∀ k₀, a ∉ Function.update c k l k₀ := by
    intro k₀ hm
    rcases (mem_update ..).mp hm with ⟨-, hm⟩ | ⟨hne, hm⟩
    · exact hal hm
    · exact hne (h.chains.disjoint k₀ k a hm hmem)
  have hnone : ∀ j, hand j ≠ some a := fun j hj => h.hand_not_mem j a hj k hmem
  have hstay : ∀ b k₀, b ∈ Function.update c k l k₀ → b ∈ c k₀ := by
    intro b k₀ hm
    rcases (mem_update ..).mp hm with ⟨rfl, hb⟩ | ⟨-, hb⟩
    · exact hsub b hb
    · exact hb
  refine ⟨?_, ?_, ?_, ?_⟩
  · exact h.chains.replace (hk ▸ h.chains.linked k).tail.2 hl (fun b hb => .inl (hsub b hb)) (fun _ _ _ _ => rfl)
  · intro j b hj k₀ hk₀
    rcases (hand_update ..).mp hj with ⟨-, hb⟩ | ⟨-, hb⟩
    · obtain rfl := Option.some.inj hb
      exact hnot k₀ hk₀
    · exact h.hand_not_mem j b hb k₀ (hstay b k₀ hk₀)
  · exact h.hand_unique_update hnone
  · intro b
    rw [h.cover]
    constructor
    · rintro (⟨k₀, hk₀⟩ | ⟨j, hj⟩)
      · by_cases hkk : k₀ = k
        · subst hkk
          rw [hk] at hk₀
          rcases List.mem_cons.mp hk₀ with rfl | hm
          · exact .inr ⟨i, Function.update_self ..⟩
          · exact .inl ⟨k₀, (mem_update ..).mpr (.inl ⟨rfl, hm⟩)⟩
        · exact .inl ⟨k₀, (mem_update ..).mpr (.inr ⟨hkk, hk₀⟩)⟩
      · have hji : j ≠ i := by
          rintro rfl
          rw [hi] at hj
          cases hj
        exact .inr ⟨j, (hand_update ..).mpr (.inr ⟨hji, hj⟩)⟩
    · rintro (⟨k₀, hk₀⟩ | ⟨j, hj⟩)
      · exact .inl ⟨k₀, hstay b k₀ hk₀⟩
      · rcases (hand_update ..).mp hj with ⟨-, hb⟩ | ⟨-, hb⟩
        · obtain rfl := Option.some.inj hb
          exact .inl ⟨k, hmem⟩
        · exact .inr ⟨j, hb⟩

end Stock

end Rakaia.Lib
