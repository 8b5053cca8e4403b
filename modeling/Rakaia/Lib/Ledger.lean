import Mathlib.Data.List.Induction
import Mathlib.Data.List.Nodup
import Mathlib.Data.List.Perm.Basic
import Mathlib.Data.List.Count
import Mathlib.Logic.Function.Basic
import Mathlib.Order.MinMax
import Mathlib.Tactic.Common

/-! # Ledgers

A ledger says which items are in which place: `c k` lists the items in place `k`.  There may be
infinitely many places, so "exactly once" is not a sum but the conjunction of `Somewhere` and
`AtMostOnce`.  Both survive when an item moves from one place to another (`Moved`); the first also
survives when items are added, the second when items are removed. -/

namespace Rakaia.Lib

variable {κ α : Type} {c c' : κ → List α} {a x : α} {k k' : κ}

/-- The item is in some place. -/
def Somewhere (c : κ → List α) (a : α) : Prop := ∃ k, a ∈ c k

/-- The item is in at most one place, and there at most once. -/
structure AtMostOnce [DecidableEq α] (c : κ → List α) (a : α) : Prop where
  count_le : ∀ k, (c k).count a ≤ 1
  unique : ∀ k k', a ∈ c k → a ∈ c k' → k = k'

/-- `x` moves from place `k` to place `k'`, and nothing else changes. -/
structure Moved (c c' : κ → List α) (x : α) (k k' : κ) : Prop where
  ne : k ≠ k'
  src : (c k).Perm (x :: c' k)
  dst : (c' k').Perm (x :: c k')
  frame : ∀ j, j ≠ k → j ≠ k' → c' j = c j

/-- `x` enters place `k`, and nothing else changes. -/
structure Entered (c c' : κ → List α) (x : α) (k : κ) : Prop where
  dst : (c' k).Perm (x :: c k)
  frame : ∀ j, j ≠ k → c' j = c j

section update

variable [DecidableEq κ] {l l' : List α}

theorem Entered.of_update (h : l.Perm (x :: c k)) : Entered c (Function.update c k l) x k where
  dst := by rwa [Function.update_self]
  frame j hj := by rw [Function.update_of_ne hj]

/-- The other way round: `x` has left place `k`. -/
theorem Entered.of_update_left (h : (c k).Perm (x :: l)) : Entered (Function.update c k l) c x k where
  dst := by rwa [Function.update_self]
  frame j hj := by rw [Function.update_of_ne hj]

theorem Moved.of_update (hne : k ≠ k') (hsrc : (c k).Perm (x :: l)) (hdst : l'.Perm (x :: c k')) :
    Moved c (Function.update (Function.update c k' l') k l) x k k' where
  ne := hne
  src := by rwa [Function.update_self]
  dst := by rwa [Function.update_of_ne hne.symm, Function.update_self]
  frame j hj hj' := by rw [Function.update_of_ne hj, Function.update_of_ne hj']

end update

/-- `x` is passed from the head of place `k` to the tail of place `k'`, and nothing else changes. -/
structure Passed (c c' : κ → List α) (x : α) (k k' : κ) : Prop where
  ne : k ≠ k'
  src : c k = x :: c' k
  dst : c' k' = c k' ++ [x]
  frame : ∀ j, j ≠ k → j ≠ k' → c' j = c j

theorem Passed.of_update [DecidableEq κ] {l : List α} (hne : k ≠ k') (hsrc : c k = x :: l) :
    Passed c (Function.update (Function.update c k' (c k' ++ [x])) k l) x k k' where
  ne := hne
  src := by rwa [Function.update_self]
  dst := by rw [Function.update_of_ne hne.symm, Function.update_self]
  frame j hj hj' := by rw [Function.update_of_ne hj, Function.update_of_ne hj']

/-- The same change, the other place first. -/
theorem Passed.of_update_comm [DecidableEq κ] {l : List α} (hne : k ≠ k') (hsrc : c k = x :: l) :
    Passed c (Function.update (Function.update c k l) k' (c k' ++ [x])) x k k' := by
  rw [Function.update_comm hne]
  exact Passed.of_update hne hsrc

/-- A ledger of what identifies the items. -/
theorem Passed.moved {β : Type} (h : Passed c c' x k k') (f : α → β) :
    Moved (fun j => (c j).map f) (fun j => (c' j).map f) (f x) k k' where
  ne := h.ne
  src := by rw [h.src, List.map_cons]
  dst := by
    rw [h.dst, List.map_append]
    exact List.perm_append_singleton (f x) _
  frame j hj hj' := by rw [h.frame j hj hj']

/-- No item comes from nowhere. -/
theorem Passed.mem_of_mem (h : Passed c c' x k k') {j : κ} (ha : a ∈ c' j) : ∃ i, a ∈ c i := by
  by_cases hj : j = k
  · subst hj
    exact ⟨j, h.src ▸ List.mem_cons_of_mem x ha⟩
  · by_cases hj' : j = k'
    · subst hj'
      rw [h.dst, List.mem_append, List.mem_singleton] at ha
      rcases ha with ha | rfl
      · exact ⟨j, ha⟩
      · exact ⟨k, h.src ▸ List.mem_cons_self⟩
    · exact ⟨j, h.frame j hj hj' ▸ ha⟩

/-! ### What a move does to the other items -/

variable [DecidableEq α]

theorem Moved.count_of_ne (h : Moved c c' x k k') (ha : a ≠ x) (j : κ) :
    (c' j).count a = (c j).count a := by
  by_cases hj : j = k
  · rw [hj, h.src.count_eq, List.count_cons_of_ne ha.symm]
  · by_cases hj' : j = k'
    · rw [hj', h.dst.count_eq, List.count_cons_of_ne ha.symm]
    · rw [h.frame j hj hj']

theorem Entered.count_of_ne (h : Entered c c' x k) (ha : a ≠ x) (j : κ) :
    (c' j).count a = (c j).count a := by
  by_cases hj : j = k
  · rw [hj, h.dst.count_eq, List.count_cons_of_ne ha.symm]
  · rw [h.frame j hj]

theorem Moved.notMem_of_ne (h : Moved c c' x k k') (ha : a ≠ x) {j : κ} (hn : a ∉ c j) : a ∉ c' j := by
  rw [← List.count_eq_zero, h.count_of_ne ha j, List.count_eq_zero]
  exact hn

theorem Entered.notMem_of_ne (h : Entered c c' x k) (ha : a ≠ x) {j : κ} (hn : a ∉ c j) : a ∉ c' j := by
  rw [← List.count_eq_zero, h.count_of_ne ha j, List.count_eq_zero]
  exact hn

theorem Entered.count_le (h : Entered c c' x k) (a : α) (j : κ) : (c j).count a ≤ (c' j).count a := by
  by_cases hj : j = k
  · rw [hj, h.dst.count_eq]
    exact List.count_le_count_cons
  · rw [h.frame j hj]

/-! ### Items that are somewhere -/

theorem Somewhere.mono (h : Somewhere c a) (hle : ∀ k, (c k).count a ≤ (c' k).count a) :
    Somewhere c' a := by
  obtain ⟨k, hk⟩ := h
  exact ⟨k, List.count_pos_iff.mp (lt_of_lt_of_le (List.count_pos_iff.mpr hk) (hle k))⟩

theorem Somewhere.move (h : Somewhere c a) (hm : Moved c c' x k k') : Somewhere c' a := by
  by_cases ha : a = x
  · subst ha
    exact ⟨k', hm.dst.mem_iff.mpr List.mem_cons_self⟩
  · exact h.mono (fun j => (hm.count_of_ne ha j).ge)

/-! ### Items that are at most once somewhere -/

theorem AtMostOnce.anti (h : AtMostOnce c a) (hle : ∀ k, (c' k).count a ≤ (c k).count a) :
    AtMostOnce c' a := by
  have hmem : ∀ k, a ∈ c' k → a ∈ c k := fun k hk =>
    List.count_pos_iff.mp (lt_of_lt_of_le (List.count_pos_iff.mpr hk) (hle k))
  exact ⟨fun k => le_trans (hle k) (h.count_le k), fun k k' hk hk' => h.unique k k' (hmem k hk) (hmem k' hk')⟩

theorem atMostOnce_of_notMem (h : ∀ k, a ∉ c k) : AtMostOnce c a where
  count_le k := by rw [List.count_eq_zero_of_not_mem (h k)]; exact Nat.zero_le 1
  unique k _ hk := absurd hk (h k)

/-- An item that is nowhere enters. -/
theorem AtMostOnce.of_entered (h : ∀ k, x ∉ c k) (he : Entered c c' x k) : AtMostOnce c' x := by
  have honly : ∀ j, x ∈ c' j → j = k := by
    intro j hj
    by_contra hne
    rw [he.frame j hne] at hj
    exact h j hj
  refine ⟨fun j => ?_, fun j j' hj hj' => (honly j hj).trans (honly j' hj').symm⟩
  by_cases hj : j = k
  · rw [hj, he.dst.count_eq, List.count_cons_self, List.count_eq_zero_of_not_mem (h k)]
  · rw [he.frame j hj, List.count_eq_zero_of_not_mem (h j)]
    exact Nat.zero_le 1

theorem AtMostOnce.move (h : AtMostOnce c a) (hm : Moved c c' x k k') : AtMostOnce c' a := by
  by_cases ha : a = x
  · subst ha
    classical
    have hk : a ∈ c k := hm.src.mem_iff.mpr List.mem_cons_self
    have hcount := h.count_le k
    rw [hm.src.count_eq, List.count_cons_self] at hcount
    -- between the two halves of the move, the item is nowhere
    have hout : ∀ j, a ∉ Function.update c k (c' k) j := by
      intro j hj
      by_cases hjk : j = k
      · subst hjk
        rw [Function.update_self] at hj
        have := List.count_pos_iff.mpr hj
        omega
      · rw [Function.update_of_ne hjk] at hj
        exact hjk (h.unique j k hj hk)
    refine AtMostOnce.of_entered hout (k := k') ⟨?_, fun j hj => ?_⟩
    · rw [Function.update_of_ne hm.ne.symm]
      exact hm.dst
    · by_cases hjk : j = k
      · rw [hjk, Function.update_self]
      · rw [Function.update_of_ne hjk, hm.frame j hjk hj]
  · exact h.anti (fun j => (hm.count_of_ne ha j).le)

/-! ### Histories -/

section entries

variable {ε β : Type} [DecidableEq κ] {f : ε → Option (κ × β)}

/-- What a history says about place `k`, in order; `f` reads one event. -/
def entries (f : ε → Option (κ × β)) (es : List ε) (k : κ) : List β :=
  es.filterMap (fun e => (f e).bind (fun x => if x.1 = k then some x.2 else none))

theorem entries_append (es e : List ε) (k : κ) : entries f (es ++ e) k = entries f es k ++ entries f e k :=
  List.filterMap_append

theorem entries_singleton {ev : ε} {b : β} (h : f ev = some (k, b)) (j : κ) :
    entries f [ev] j = if k = j then [b] else [] := by
  by_cases hj : k = j <;> simp [entries, h, hj]

theorem entries_of_none {ev : ε} (h : f ev = none) (j : κ) : entries f [ev] j = [] := by
  simp [entries, h]

/-- Events that all belong to one place. -/
theorem entries_map_of_some {g : β → ε} (h : ∀ b, f (g b) = some (k, b)) (l : List β) (j : κ) :
    entries f (l.map g) j = if k = j then l else [] := by
  rw [entries, List.filterMap_map]
  by_cases hj : k = j
  · rw [if_pos hj]
    refine (List.filterMap_congr fun b _ => ?_).trans List.filterMap_some
    simp [h, hj]
  · rw [if_neg hj, List.filterMap_eq_nil_iff]
    intro b _
    simp [h, hj]

/-- Events of which the history says nothing. -/
theorem filterMap_map_of_none {α β γ : Type} {f : β → Option γ} {g : α → β} (h : ∀ a, f (g a) = none) (l : List α) :
    (l.map g).filterMap f = [] := by
  rw [List.filterMap_map, List.filterMap_eq_nil_iff]
  exact fun a _ => h a

/-- Events that carry what the history says. -/
theorem filterMap_map_of_some {α β γ : Type} {f : β → Option γ} {g : α → β} {k : α → γ}
    (h : ∀ a, f (g a) = some (k a)) (l : List α) : (l.map g).filterMap f = l.map k := by
  rw [List.filterMap_map, ← List.filterMap_eq_map]
  exact List.filterMap_congr fun a _ => h a

/-- Pairs are different if they are in every place. -/
theorem nodup_of_entries {l : List (κ × β)} (h : ∀ k, (entries some l k).Nodup) : l.Nodup := by
  induction l with
  | nil => exact List.nodup_nil
  | cons x l ih =>
      have hx : ∀ k, entries some (x :: l) k = (if x.1 = k then [x.2] else []) ++ entries some l k := by
        intro k
        rw [← List.singleton_append, entries_append, entries_singleton (f := some) rfl]
      refine List.nodup_cons.mpr ⟨fun hm => ?_, ih fun k => ?_⟩
      · have hself := h x.1
        rw [hx, if_pos rfl, List.singleton_append, List.nodup_cons] at hself
        exact hself.1 (List.mem_filterMap.mpr ⟨x, hm, by simp⟩)
      · have hk := h k
        rw [hx] at hk
        exact hk.of_append_right

theorem entries_map_of_none {γ : Type} {g : γ → ε} (h : ∀ c, f (g c) = none) (l : List γ) (j : κ) :
    entries f (l.map g) j = [] := by
  rw [entries, List.filterMap_map, List.filterMap_eq_nil_iff]
  intro c _
  simp [h]

/-- What a history says about at most one place, and there once, it says once. -/
theorem nodup_of_atMostOnce [DecidableEq β] {es : List ε} (h : ∀ b, AtMostOnce (entries f es) b) :
    (es.filterMap (fun e => (f e).map Prod.snd)).Nodup := by
  induction es using List.reverseRecOn with
  | nil => exact List.nodup_nil
  | append_singleton es ev ih =>
      have hold : ∀ b, AtMostOnce (entries f es) b := by
        refine fun b => (h b).anti fun k => ?_
        rw [entries_append, List.count_append]
        exact Nat.le_add_right _ _
      have hnodup := ih hold
      rw [List.filterMap_append]
      cases hev : f ev with
      | none => simpa [hev] using hnodup
      | some x =>
          obtain ⟨k, b⟩ := x
          have hnew : b ∈ entries f [ev] k := by
            rw [entries_singleton hev, if_pos rfl]
            exact List.mem_singleton_self b
          have hout : b ∉ es.filterMap (fun e => (f e).map Prod.snd) := by
            intro hb
            obtain ⟨ev', hev', hb'⟩ := List.mem_filterMap.mp hb
            obtain ⟨⟨k', b'⟩, hf, rfl⟩ := Option.map_eq_some_iff.mp hb'
            have hmem : b' ∈ entries f es k' := List.mem_filterMap.mpr ⟨ev', hev', by simp [hf]⟩
            have hkk := (h b').unique k' k (by rw [entries_append]; exact List.mem_append_left _ hmem)
              (by rw [entries_append]; exact List.mem_append_right _ hnew)
            subst hkk
            have hcount := (h b').count_le k'
            rw [entries_append, List.count_append] at hcount
            have h₁ := List.count_pos_iff.mpr hmem
            have h₂ : 0 < (entries f [ev] k').count b' := List.count_pos_iff.mpr hnew
            omega
          simp only [List.filterMap_cons, hev, Option.map_some, List.filterMap_nil]
          exact List.nodup_append.mpr ⟨hnodup, List.nodup_singleton b, by
            intro x hx y hy hxy
            obtain rfl := List.mem_singleton.mp hy
            exact hout (hxy ▸ hx)⟩

end entries

end Rakaia.Lib
