import Mathlib.Data.List.Count
import Mathlib.Data.List.Induction
import Mathlib.Data.List.Nodup
import Mathlib.Logic.Function.Basic
import Mathlib.Tactic.Common

/-! # Demultiplexing

Items of several streams come in one sequence.  The items of a stream are collected until one of them ends a
group; then the group is complete, and the stream starts a new one.  `groups` are the complete groups of a
sequence, in the order in which they were completed, and `collected` what is left of each stream.

For each stream, its groups, one behind the other, and what is left are all of its items in order
(`filter_eq`). -/

namespace Rakaia.Lib

/-- How items are sorted: the stream of an item, whether it is kept, and whether it ends a group. -/
structure Demux (α κ : Type) where
  key : α → κ
  kept : α → Bool
  ends : α → Bool

namespace Demux

variable {α β κ : Type} [DecidableEq κ] (D : Demux α κ)

/-- An item arrives: what is collected then, and the group that it completes. -/
def step (t : κ → List α) (a : α) : (κ → List α) × List (List α) :=
  if D.kept a then
    if D.ends a then (Function.update t (D.key a) [], [t (D.key a) ++ [a]])
    else (Function.update t (D.key a) (t (D.key a) ++ [a]), [])
  else (t, [])

def run (t : κ → List α) : List α → (κ → List α) × List (List α)
  | [] => (t, [])
  | a :: l => ((run (D.step t a).1 l).1, (D.step t a).2 ++ (run (D.step t a).1 l).2)

/-- The groups that a sequence completes. -/
def groups (l : List α) : List (List α) := (D.run (fun _ => []) l).2

/-- What is left of each stream. -/
def collected (l : List α) : κ → List α := (D.run (fun _ => []) l).1

theorem run_append (t : κ → List α) (l l' : List α) :
    D.run t (l ++ l') = ((D.run (D.run t l).1 l').1, (D.run t l).2 ++ (D.run (D.run t l).1 l').2) := by
  induction l generalizing t with
  | nil => rfl
  | cons a l ih => simp only [List.cons_append, run, ih, List.append_assoc]

theorem groups_concat (l : List α) (a : α) : D.groups (l ++ [a]) = D.groups l ++ (D.step (D.collected l) a).2 := by
  rw [groups, run_append]
  simp only [run, List.append_nil]
  rfl

theorem collected_concat (l : List α) (a : α) : D.collected (l ++ [a]) = (D.step (D.collected l) a).1 := by
  rw [collected, run_append]
  rfl

/-- More items complete more groups. -/
theorem groups_mono {l l' : List α} (h : l <+: l') : D.groups l <+: D.groups l' := by
  obtain ⟨r, rfl⟩ := h
  rw [groups, groups, run_append]
  exact List.prefix_append _ _

/-- Items may be seen through a function that keeps what they are sorted by. -/
theorem groups_map (E : Demux β κ) (f : α → β) {l : List α} (h : ∀ a ∈ l, E.key (f a) = D.key a ∧
    E.kept (f a) = D.kept a ∧ E.ends (f a) = D.ends a) : E.groups (l.map f) = (D.groups l).map (List.map f) := by
  have hstep : ∀ (t : κ → List α) (a : α), a ∈ l → E.step (fun k => (t k).map f) (f a) =
      (fun k => ((D.step t a).1 k).map f, (D.step t a).2.map (List.map f)) := by
    intro t a ha
    obtain ⟨hk, hkept, hends⟩ := h a ha
    unfold step
    rw [hk, hkept, hends]
    split_ifs
    · refine Prod.ext (funext fun k => ?_) (by simp)
      by_cases h : k = D.key a <;> simp [h]
    · refine Prod.ext (funext fun k => ?_) rfl
      by_cases h : k = D.key a <;> simp [h]
    · rfl
  have hrun : ∀ (l' : List α) (t : κ → List α), l' ⊆ l → E.run (fun k => (t k).map f) (l'.map f) =
      (fun k => ((D.run t l').1 k).map f, (D.run t l').2.map (List.map f)) := by
    intro l'
    induction l' with
    | nil => exact fun t _ => rfl
    | cons a l' ih =>
        intro t hsub
        have hrest := fun t => ih t (fun x hx => hsub (List.mem_cons_of_mem _ hx))
        rw [List.map_cons]
        simp only [run, hstep t a (hsub List.mem_cons_self), hrest, List.map_append]
  exact congrArg Prod.snd (hrun l (fun _ => []) (List.Subset.refl l))

/-! ### What the groups are -/

theorem step_fst (t : κ → List α) (a : α) (k : κ) : (D.step t a).1 k =
    if D.kept a = true ∧ D.key a = k then if D.ends a then [] else t k ++ [a] else t k := by
  unfold step
  by_cases hk : D.key a = k
  · subst hk
    split_ifs <;> simp_all
  · split_ifs <;> simp_all [Ne.symm hk]

theorem key_of_mem_collected {l : List α} {k : κ} : ∀ a ∈ D.collected l k, D.key a = k := by
  induction l using List.reverseRecOn with
  | nil => exact fun a ha => absurd ha List.not_mem_nil
  | append_singleton l b ih =>
      intro a ha
      rw [collected_concat, step_fst] at ha
      split_ifs at ha with hb
      · cases ha
      · rcases List.mem_append.mp ha with ha | ha
        · exact ih a ha
        · rw [List.mem_singleton.mp ha]
          exact hb.2
      · exact ih a ha

/-- The group is one of stream `k`. -/
def IsOf (k : κ) (g : List α) : Prop := g.head?.map D.key = some k

instance (k : κ) (g : List α) : Decidable (D.IsOf k g) := inferInstanceAs (Decidable (_ = _))

omit [DecidableEq κ] in
theorem isOf_concat {l : List α} {a : α} (h : ∀ b ∈ l, D.key b = D.key a) (k : κ) :
    D.IsOf k (l ++ [a]) ↔ D.key a = k := by
  cases l with
  | nil => simp [IsOf]
  | cons b l => simp [IsOf, h b List.mem_cons_self]

/-- A group that is completed: the items of one stream, of which only the last one ends a group. -/
theorem mem_groups {l : List α} {g : List α} (hg : g ∈ D.groups l) :
    ∃ r a, g = r ++ [a] ∧ D.ends a = true ∧ ∀ b ∈ g, D.key b = D.key a := by
  induction l using List.reverseRecOn with
  | nil => cases hg
  | append_singleton l a ih =>
      rw [groups_concat, List.mem_append] at hg
      rcases hg with hg | hg
      · exact ih hg
      · rw [step] at hg
        split_ifs at hg with hk he
        · obtain rfl := List.mem_singleton.mp hg
          refine ⟨_, a, rfl, he, fun b hb => ?_⟩
          rcases List.mem_append.mp hb with hb | hb
          · exact D.key_of_mem_collected b hb
          · rw [List.mem_singleton.mp hb]
        · cases hg
        · cases hg

/-- **Nothing is lost, and nothing is reordered within a stream**: its groups and what is left of it are its items. -/
theorem filter_eq (l : List α) (k : κ) : l.filter (fun a => D.kept a && decide (D.key a = k)) =
    ((D.groups l).filter (fun g => D.IsOf k g)).flatten ++ D.collected l k := by
  induction l using List.reverseRecOn with
  | nil => rfl
  | append_singleton l a ih =>
      have hkeys : ∀ b ∈ D.collected l (D.key a), D.key b = D.key a := D.key_of_mem_collected
      rw [List.filter_append, ih, groups_concat, collected_concat, List.filter_append, List.flatten_append, step]
      by_cases hk : D.kept a = true
      · by_cases hkey : D.key a = k
        · subst hkey
          by_cases he : D.ends a = true
          · simp [hk, he, (D.isOf_concat hkeys (D.key a)).mpr rfl]
          · simp [hk, he]
        · have hno : ¬ D.IsOf k (D.collected l (D.key a) ++ [a]) := by
            rw [D.isOf_concat hkeys]
            exact hkey
          by_cases he : D.ends a = true
          · simp [hk, he, hkey, Ne.symm hkey, hno]
          · simp [hk, he, hkey, Ne.symm hkey]
      · simp [hk]

theorem mem_of_mem_groups {l : List α} {a : α} (h : a ∈ (D.groups l).flatten) : a ∈ l := by
  obtain ⟨g, hg, ha⟩ := List.mem_flatten.mp h
  obtain ⟨r, b, rfl, -, hkeys⟩ := D.mem_groups hg
  have hof : D.IsOf (D.key b) (r ++ [b]) :=
    (D.isOf_concat (fun c hc => hkeys c (List.mem_append_left _ hc)) _).mpr rfl
  have hmem : a ∈ ((D.groups l).filter (fun g => D.IsOf (D.key b) g)).flatten :=
    List.mem_flatten.mpr ⟨_, List.mem_filter.mpr ⟨hg, decide_eq_true hof⟩, ha⟩
  have hfilter : a ∈ l.filter (fun a => D.kept a && decide (D.key a = D.key b)) := by
    rw [D.filter_eq]
    exact List.mem_append_left _ hmem
  exact List.mem_of_mem_filter hfilter

theorem nodup_groups {l : List α} (h : l.Nodup) : (D.groups l).flatten.Nodup := by
  classical
  have hgroups : ∀ a, (D.groups l).flatten.count a =
      ((D.groups l).filter (fun g => D.IsOf (D.key a) g)).flatten.count a := by
    intro a
    rw [List.count_flatten, List.count_flatten]
    have hout : ∀ gs : List (List α), (∀ g ∈ gs, g ∈ D.groups l) →
        (gs.map (List.count a)).sum = ((gs.filter (fun g => D.IsOf (D.key a) g)).map (List.count a)).sum := by
      intro gs
      induction gs with
      | nil => exact fun _ => rfl
      | cons g gs ih =>
          intro hsub
          have ih := ih (fun x hx => hsub x (List.mem_cons_of_mem _ hx))
          by_cases hg : D.IsOf (D.key a) g
          · simp [hg, ih]
          · -- a group of another stream does not have the item
            have hzero : g.count a = 0 := by
              rw [List.count_eq_zero]
              intro ha
              obtain ⟨r, b, rfl, -, hkeys⟩ := D.mem_groups (hsub g List.mem_cons_self)
              refine hg ((D.isOf_concat (fun c hc => hkeys c (List.mem_append_left _ hc)) _).mpr ?_)
              exact (hkeys a ha).symm
            simp [hg, ih, hzero]
    exact hout _ (fun _ h => h)
  rw [List.nodup_iff_count_le_one]
  intro a
  have hcount := congrArg (List.count a) (D.filter_eq l (D.key a))
  rw [List.count_append] at hcount
  rw [hgroups]
  have hle : (l.filter (fun b => D.kept b && decide (D.key b = D.key a))).count a ≤ l.count a :=
    List.Sublist.count_le _ List.filter_sublist
  have := List.nodup_iff_count_le_one.mp h a
  omega

end Demux

end Rakaia.Lib
