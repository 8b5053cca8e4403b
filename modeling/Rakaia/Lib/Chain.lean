import Mathlib.Data.List.Nodup
import Mathlib.Logic.Function.Basic

/-! # Chains through a next pointer

Nodes of a type `α` are linked by `next : α → Option α`; `none` is the null pointer.  `Linked next l`
says that `l` is what a loop visits that starts at the first node of `l` and follows the pointers to
the end.  `Chains next c` is a family of such lists that share no node, so that a change of the
pointers of one of them leaves the others alone.

`follow` is the loop `while (p) { acc = f(acc, p); p = next(p); }`.  It may run forever on a cycle,
so it has fuel; on a chain it needs as much as the chain has nodes.  `reverseLoop` turns the pointers of
a chain around, and `enqueueLoop` puts the nodes of a chain behind the last one of another. -/

namespace Rakaia.Lib

variable {α β κ : Type}

/-- The nodes from the first of `l` to the null pointer. -/
def Linked (next : α → Option α) : List α → Prop
  | [] => True
  | [a] => next a = none
  | a :: b :: l => next a = some b ∧ Linked next (b :: l)

/-- The loop over the nodes from `p` on. -/
def follow (next : α → Option α) (f : β → α → β) : ℕ → β → Option α → Option β
  | _, acc, none => some acc
  | 0, _, some _ => none
  | fuel + 1, acc, some a => follow next f fuel (f acc a) (next a)

theorem Linked.tail {next : α → Option α} {a : α} {l : List α} (h : Linked next (a :: l)) :
    next a = l.head? ∧ Linked next l := by
  cases l with
  | nil => exact ⟨h, trivial⟩
  | cons b l => exact h

theorem Linked.cons {next : α → Option α} {a : α} {l : List α} (ha : next a = l.head?)
    (h : Linked next l) : Linked next (a :: l) := by
  cases l with
  | nil => exact ha
  | cons b l => exact ⟨ha, h⟩

theorem follow_linked {next : α → Option α} {l : List α} (h : Linked next l) (f : β → α → β) (acc : β)
    {fuel : ℕ} (hf : l.length ≤ fuel) : follow next f fuel acc l.head? = some (l.foldl f acc) := by
  induction l generalizing fuel acc with
  | nil => cases fuel <;> rfl
  | cons a l ih =>
      obtain ⟨fuel, rfl⟩ : ∃ n, fuel = n + 1 := ⟨fuel - 1, by simp at hf; omega⟩
      rw [List.head?_cons, follow, h.tail.1, ih h.tail.2 _ (by simpa using hf)]
      rfl

/-- A loop does what it does to the nodes that another loop over the same pointers collects. -/
theorem follow_eq_foldl {next : α → Option α} {fuel : ℕ} {p : Option α} {acc₀ l : List α}
    (h : follow next (fun l a => l ++ [a]) fuel acc₀ p = some l) (f : β → α → β) (acc : β) :
    ∃ t, l = acc₀ ++ t ∧ t.head? = p ∧ follow next f fuel acc p = some (t.foldl f acc) := by
  induction fuel generalizing p acc₀ acc with
  | zero =>
      cases p with
      | none => exact ⟨[], by rw [List.append_nil]; exact (Option.some.inj h).symm, rfl, rfl⟩
      | some a => cases h
  | succ fuel ih =>
      cases p with
      | none => exact ⟨[], by rw [List.append_nil]; exact (Option.some.inj h).symm, rfl, rfl⟩
      | some a =>
          obtain ⟨t, rfl, -, ht⟩ := ih h (f acc a)
          exact ⟨a :: t, List.append_assoc .., rfl, ht⟩

/-- The loop that collects the nodes. -/
theorem foldl_snoc (l acc : List α) : l.foldl (fun l a => l ++ [a]) acc = acc ++ l := by
  induction l generalizing acc with
  | nil => simp
  | cons a l ih => rw [List.foldl_cons, ih, List.append_assoc, List.singleton_append]

/-- The loop that remembers the node it visited last. -/
theorem getLast?_cons_eq_foldl (a : α) (l : List α) :
    (a :: l).getLast? = some (l.foldl (fun _ b => b) a) := by
  induction l generalizing a with
  | nil => rfl
  | cons b l ih => rw [List.getLast?_cons_cons, ih, List.foldl_cons]

theorem Linked.congr {next next' : α → Option α} {l : List α} (h : Linked next l)
    (heq : ∀ a ∈ l, next' a = next a) : Linked next' l := by
  induction l with
  | nil => trivial
  | cons a l ih =>
      refine .cons ?_ (ih h.tail.2 (fun b hb => heq b (List.mem_cons_of_mem _ hb)))
      rw [heq a List.mem_cons_self, h.tail.1]

section update

variable [DecidableEq α]

/-- A new node behind the last one. -/
theorem Linked.snoc {next : α → Option α} {l : List α} {z b : α} (h : Linked next l) (hl : l.Nodup)
    (hz : l.getLast? = some z) (hb : b ∉ l) :
    Linked (Function.update (Function.update next z (some b)) b none) (l ++ [b]) := by
  induction l with
  | nil => cases hz
  | cons a l ih =>
      obtain ⟨ha, hl⟩ := List.nodup_cons.mp hl
      have hbl : b ∉ l := fun hm => hb (List.mem_cons_of_mem _ hm)
      have hab : a ≠ b := by
        rintro rfl
        exact hb List.mem_cons_self
      cases l with
      | nil =>
          obtain rfl : a = z := by simpa using hz
          refine .cons ?_ ?_
          · simp [hab]
          · exact Function.update_self ..
      | cons c l =>
          have hz' : (c :: l).getLast? = some z := by simpa using hz
          have haz : a ≠ z := by
            rintro rfl
            exact ha (List.mem_of_getLast? hz')
          refine .cons ?_ (ih h.tail.2 hl hz' hbl)
          rw [Function.update_of_ne hab, Function.update_of_ne haz, h.tail.1]
          rfl

/-- The loop `while (p) { q = next(p); next(p) = r; r = p; p = q; }` that reverses a chain in place. -/
def reverseLoop : (α → Option α) → ℕ → Option α → Option α → Option ((α → Option α) × Option α)
  | next, _, none, r => some (next, r)
  | _, 0, some _, _ => none
  | next, fuel + 1, some a, r => reverseLoop (Function.update next a r) fuel (next a) (some a)

theorem reverseLoop_linked {next : α → Option α} {l r : List α} (hl : Linked next l) (hr : Linked next r)
    (hn : (l ++ r).Nodup) {fuel : ℕ} (hf : l.length ≤ fuel) :
    ∃ next', reverseLoop next fuel l.head? r.head? = some (next', (l.reverse ++ r).head?) ∧
      Linked next' (l.reverse ++ r) ∧ ∀ a ∉ l, next' a = next a := by
  induction l generalizing next r fuel with
  | nil => exact ⟨next, by cases fuel <;> rfl, hr, fun _ _ => rfl⟩
  | cons a l ih =>
      obtain ⟨fuel, rfl⟩ : ∃ n, fuel = n + 1 := ⟨fuel - 1, by simp at hf; omega⟩
      obtain ⟨ha, hn⟩ := List.nodup_cons.mp hn
      have hal : a ∉ l := fun hm => ha (List.mem_append_left _ hm)
      have har : a ∉ r := fun hm => ha (List.mem_append_right _ hm)
      have hl' : Linked (Function.update next a r.head?) l :=
        hl.tail.2.congr (fun b hb => Function.update_of_ne (ne_of_mem_of_not_mem hb hal) ..)
      have hr' : Linked (Function.update next a r.head?) (a :: r) :=
        .cons (Function.update_self ..)
          (hr.congr (fun b hb => Function.update_of_ne (ne_of_mem_of_not_mem hb har) ..))
      have hperm : (l ++ a :: r).Nodup := List.nodup_middle.mpr (List.nodup_cons.mpr ⟨ha, hn⟩)
      obtain ⟨next', hloop, hlinked, heq⟩ := ih hl' hr' hperm (by simpa using hf)
      have happ : (a :: l).reverse ++ r = l.reverse ++ a :: r := by simp
      refine ⟨next', ?_, by rwa [happ], fun b hb => ?_⟩
      · rw [happ, List.head?_cons, reverseLoop, hl.tail.1, ← hloop, List.head?_cons]
      · obtain ⟨hba, hbl⟩ := not_or.mp (fun h => hb (List.mem_cons.mpr h))
        rw [heq b hbl, Function.update_of_ne hba]

/-- The first and the last node of a chain. -/
structure Ends (α : Type) where
  head : Option α
  tail : Option α

def Ends.of (l : List α) : Ends α := ⟨l.head?, l.getLast?⟩

/-- A node is put behind the last one, or it is the first. -/
def enqueue (next : α → Option α) (q : Ends α) (a : α) : (α → Option α) × Ends α :=
  let next := Function.update next a none
  match q.tail with
  | some z => (Function.update next z (some a), ⟨q.head, some a⟩)
  | none => (next, ⟨some a, some a⟩)

/-- The loop that puts the nodes from `p` on behind the last one, one after the other. -/
def enqueueLoop : (α → Option α) → Ends α → ℕ → Option α → Option ((α → Option α) × Ends α)
  | next, q, _, none => some (next, q)
  | _, _, 0, some _ => none
  | next, q, fuel + 1, some a => enqueueLoop (enqueue next q a).1 (enqueue next q a).2 fuel (next a)

theorem enqueue_linked {next : α → Option α} {q : List α} {a : α} (hq : Linked next q)
    (hn : (q ++ [a]).Nodup) :
    (enqueue next (.of q) a).2 = .of (q ++ [a]) ∧ Linked (enqueue next (.of q) a).1 (q ++ [a]) ∧
      ∀ b ∉ q ++ [a], (enqueue next (.of q) a).1 b = next b := by
  have haq : a ∉ q := fun hm => (List.nodup_append.mp hn).2.2 a hm a List.mem_cons_self rfl
  have hne : ∀ b ∉ q ++ [a], b ≠ a := by
    rintro b hb rfl
    exact hb (List.mem_append_right _ List.mem_cons_self)
  cases hz : q.getLast? with
  | none =>
      obtain rfl := List.getLast?_eq_none_iff.mp hz
      refine ⟨rfl, Function.update_self .., fun b hb => Function.update_of_ne (hne b hb) ..⟩
  | some z =>
      have hza : z ≠ a := ne_of_mem_of_not_mem (List.mem_of_getLast? hz) haq
      have hfst : (enqueue next (.of q) a).1 =
          Function.update (Function.update next z (some a)) a none := by
        simp only [enqueue, Ends.of, hz]
        exact Function.update_comm hza.symm ..
      refine ⟨?_, ?_, fun b hb => ?_⟩
      · obtain ⟨x, q, rfl⟩ := List.exists_cons_of_ne_nil (List.ne_nil_of_mem (List.mem_of_getLast? hz))
        simp only [enqueue, Ends.of, hz, List.head?_append, List.head?_cons, List.getLast?_append,
          List.getLast?_singleton, Option.some_or]
      · rw [hfst]
        exact hq.snoc (List.nodup_append.mp hn).1 hz haq
      · have hbz : b ≠ z := by
          rintro rfl
          exact hb (List.mem_append_left _ (List.mem_of_getLast? hz))
        rw [hfst, Function.update_of_ne (hne b hb), Function.update_of_ne hbz]

theorem enqueueLoop_linked {next : α → Option α} {q l : List α} (hq : Linked next q) (hl : Linked next l)
    (hn : (q ++ l).Nodup) {fuel : ℕ} (hf : l.length ≤ fuel) :
    ∃ next', enqueueLoop next (.of q) fuel l.head? = some (next', .of (q ++ l)) ∧
      Linked next' (q ++ l) ∧ ∀ a ∉ q ++ l, next' a = next a := by
  induction l generalizing next q fuel with
  | nil =>
      rw [List.append_nil]
      exact ⟨next, by cases fuel <;> rfl, hq, fun _ _ => rfl⟩
  | cons a l ih =>
      obtain ⟨fuel, rfl⟩ : ∃ n, fuel = n + 1 := ⟨fuel - 1, by simp at hf; omega⟩
      have happ : q ++ a :: l = q ++ [a] ++ l := by simp
      rw [happ] at hn ⊢
      obtain ⟨hends, hlinked, heq⟩ := enqueue_linked hq (List.nodup_append.mp hn).1
      have hl' : Linked (enqueue next (.of q) a).1 l := by
        refine hl.tail.2.congr (fun b hb => heq b (fun hm => ?_))
        exact (List.nodup_append.mp hn).2.2 b hm b hb rfl
      obtain ⟨next', hloop, hlinked', heq'⟩ := ih hlinked hl' hn (by simpa using hf)
      refine ⟨next', ?_, hlinked', fun b hb => ?_⟩
      · rw [List.head?_cons, enqueueLoop, hl.tail.1, hends, hloop]
      · rw [heq' b hb, heq b (fun hm => hb (List.mem_append_left _ hm))]

end update

/-- A family of chains without a common node. -/
structure Chains (next : α → Option α) (c : κ → List α) : Prop where
  linked : ∀ k, Linked next (c k)
  nodup : ∀ k, (c k).Nodup
  disjoint : ∀ k k' a, a ∈ c k → a ∈ c k' → k = k'

namespace Chains

variable {next next' : α → Option α} {c : κ → List α}

theorem congr (h : Chains next c) (heq : ∀ k, ∀ a ∈ c k, next' a = next a) : Chains next' c :=
  ⟨fun k => (h.linked k).congr (heq k), h.nodup, h.disjoint⟩

variable [DecidableEq κ]

/-- One chain is replaced by one whose nodes are its own or belong to no chain. -/
theorem replace (h : Chains next c) {k : κ} {l : List α} (hl : Linked next' l) (hn : l.Nodup)
    (hmem : ∀ a ∈ l, a ∈ c k ∨ ∀ k', a ∉ c k') (heq : ∀ k', k' ≠ k → ∀ a ∈ c k', next' a = next a) :
    Chains next' (Function.update c k l) where
  linked k' := by
    by_cases hk : k' = k
    · subst hk; simpa using hl
    · rw [Function.update_of_ne hk]
      exact (h.linked k').congr (heq k' hk)
  nodup k' := by
    by_cases hk : k' = k
    · subst hk; simpa using hn
    · rw [Function.update_of_ne hk]
      exact h.nodup k'
  disjoint k₁ k₂ a h₁ h₂ := by
    have key : ∀ k', k' ≠ k → a ∈ c k' → a ∉ l := by
      intro k' hk ha hal
      rcases hmem a hal with hc | hc
      · exact hk (h.disjoint k' k a ha hc)
      · exact hc k' ha
    by_cases hk₁ : k₁ = k <;> by_cases hk₂ : k₂ = k
    · rw [hk₁, hk₂]
    · rw [hk₁, Function.update_self] at h₁
      rw [Function.update_of_ne hk₂] at h₂
      exact absurd h₁ (key k₂ hk₂ h₂)
    · rw [Function.update_of_ne hk₁] at h₁
      rw [hk₂, Function.update_self] at h₂
      exact absurd h₂ (key k₁ hk₁ h₁)
    · rw [Function.update_of_ne hk₁] at h₁
      rw [Function.update_of_ne hk₂] at h₂
      exact h.disjoint k₁ k₂ a h₁ h₂

/-- A chain is given up; its pointers may change. -/
theorem drop (h : Chains next c) {k : κ} (heq : ∀ k', k' ≠ k → ∀ a ∈ c k', next' a = next a) :
    Chains next' (Function.update c k []) :=
  h.replace trivial List.nodup_nil (by simp) heq

/-- A chain is passed from one owner to another. -/
theorem move (h : Chains next c) (k k' : κ) (hne : k ≠ k') :
    Chains next (Function.update (Function.update c k []) k' (c k)) := by
  have hdrop : Chains next (Function.update c k []) := h.drop (fun _ _ _ _ => rfl)
  refine hdrop.replace (h.linked k) (h.nodup k) ?_ (fun _ _ _ _ => rfl)
  intro a ha
  refine Or.inr (fun k'' hk'' => ?_)
  by_cases hk : k'' = k
  · subst hk; simp at hk''
  · rw [Function.update_of_ne hk] at hk''
    exact hk (h.disjoint k'' k a hk'' ha)

variable [DecidableEq α]

/-- A new chain of one node. -/
theorem single (h : Chains next c) {k : κ} {b : α} (hb : ∀ k', b ∉ c k') :
    Chains (Function.update next b none) (Function.update c k [b]) := by
  refine h.replace (Function.update_self ..) (List.nodup_singleton b) ?_ ?_
  · intro a ha
    obtain rfl := List.mem_singleton.mp ha
    exact Or.inr hb
  · intro k' _ a ha
    exact Function.update_of_ne (by rintro rfl; exact hb k' ha) ..

/-- A new node behind the last one of a chain. -/
theorem snoc (h : Chains next c) {k : κ} {z b : α} (hz : (c k).getLast? = some z)
    (hb : ∀ k', b ∉ c k') :
    Chains (Function.update (Function.update next z (some b)) b none)
      (Function.update c k (c k ++ [b])) := by
  refine h.replace ((h.linked k).snoc (h.nodup k) hz (hb k)) ?_ ?_ ?_
  · rw [List.nodup_append]
    refine ⟨h.nodup k, List.nodup_singleton b, ?_⟩
    rintro a ha a' ha' rfl
    obtain rfl := List.mem_singleton.mp ha'
    exact hb k ha
  · intro a ha
    rcases List.mem_append.mp ha with ha | ha
    · exact Or.inl ha
    · obtain rfl := List.mem_singleton.mp ha
      exact Or.inr hb
  · intro k' hk a ha
    have hab : a ≠ b := by rintro rfl; exact hb k' ha
    have haz : a ≠ z := by
      rintro rfl
      exact hk (h.disjoint k' k a ha (List.mem_of_getLast? hz))
    rw [Function.update_of_ne hab, Function.update_of_ne haz]

end Chains

end Rakaia.Lib
