import Mathlib.Data.List.Nodup
import Mathlib.Logic.Function.Basic

/-! # Hash tables with chaining

A table is a list of entries for each bucket; an entry `v` with key `key v` belongs into bucket
`hash (key v)`.  `add` puts an entry in front of its bucket, `lookup` takes the first entry with the
key, `del` unlinks an entry.  In a well-formed table no key occurs twice, so that whatever the hash
function does the table is a finite map. -/

namespace Rakaia.Lib

/-- A table with buckets `ι` and entries `ν`. -/
abbrev Buckets (ι ν : Type) := ι → List ν

namespace Buckets

variable {ι κ ν : Type} (hash : κ → ι) (key : ν → κ)

/-- The first entry with key `k`. -/
def lookup [DecidableEq κ] (t : Buckets ι ν) (k : κ) : Option ν := (t (hash k)).find? (fun v => key v = k)

/-- The entry is put in front of its bucket. -/
def add [DecidableEq ι] (t : Buckets ι ν) (v : ν) : Buckets ι ν :=
  Function.update t (hash (key v)) (v :: t (hash (key v)))

/-- The entry is unlinked. -/
def del [DecidableEq ι] [DecidableEq ν] (t : Buckets ι ν) (v : ν) : Buckets ι ν :=
  Function.update t (hash (key v)) ((t (hash (key v))).erase v)

/-- Entries are where they belong, and no key occurs twice. -/
structure Wf (t : Buckets ι ν) : Prop where
  home : ∀ i, ∀ v ∈ t i, hash (key v) = i
  unique : ∀ i, ((t i).map key).Nodup

variable {hash key} {t : Buckets ι ν}

theorem Wf.del [DecidableEq ι] [DecidableEq ν] (h : Wf hash key t) (v : ν) :
    Wf hash key (Buckets.del hash key t v) where
  home i x hx := by
    by_cases hi : i = hash (key v)
    · subst hi
      rw [Buckets.del, Function.update_self] at hx
      exact h.home _ x (List.mem_of_mem_erase hx)
    · rw [Buckets.del, Function.update_of_ne hi] at hx
      exact h.home i x hx
  unique i := by
    by_cases hi : i = hash (key v)
    · subst hi
      rw [Buckets.del, Function.update_self]
      exact (h.unique _).sublist (List.erase_sublist.map key)
    · rw [Buckets.del, Function.update_of_ne hi]
      exact h.unique i

variable [DecidableEq κ]

theorem lookup_eq_none_iff {k : κ} : lookup hash key t k = none ↔ ∀ v ∈ t (hash k), key v ≠ k := by
  simp [lookup, List.find?_eq_none]

theorem mem_of_lookup {k : κ} {v : ν} (h : lookup hash key t k = some v) :
    v ∈ t (hash k) ∧ key v = k :=
  ⟨List.mem_of_find?_eq_some h, by simpa using List.find?_some h⟩

theorem Wf.lookup_of_mem (h : Wf hash key t) {i : ι} {v : ν} (hv : v ∈ t i) :
    lookup hash key t (key v) = some v := by
  obtain rfl := h.home i v hv
  cases hl : lookup hash key t (key v) with
  | none => exact absurd rfl (lookup_eq_none_iff.mp hl v hv)
  | some w =>
      obtain ⟨hw, hk⟩ := mem_of_lookup hl
      rw [List.inj_on_of_nodup_map (h.unique _) hw hv hk]

/-- A key has one entry in its bucket if `lookup` finds it, and none otherwise. -/
theorem Wf.countP_home (h : Wf hash key t) (k : κ) : (t (hash k)).countP (fun v => key v = k) =
    if (lookup hash key t k).isSome then 1 else 0 := by
  cases hl : lookup hash key t k with
  | none => simpa [List.countP_eq_zero] using lookup_eq_none_iff.mp hl
  | some v =>
      obtain ⟨hv, rfl⟩ := mem_of_lookup hl
      have hone := List.count_eq_one_of_mem (h.unique _) (List.mem_map_of_mem hv)
      rw [List.count_eq_countP, List.countP_map] at hone
      exact hone

/-- A key has one entry in the whole table if `lookup` finds it, and none otherwise. -/
theorem Wf.countP_eq (h : Wf hash key t) {L : List ι} (hL : L.Nodup) (hall : ∀ i, i ∈ L) (k : κ) :
    (L.flatMap t).countP (fun v => key v = k) = if (lookup hash key t k).isSome then 1 else 0 := by
  have haway : ∀ i, i ≠ hash k → (t i).countP (fun v => key v = k) = 0 := by
    intro i hi
    rw [List.countP_eq_zero]
    intro v hv hk
    have hk : key v = k := by simpa using hk
    exact hi (by rw [← hk, h.home i v hv])
  have hsum : ∀ {L : List ι}, hash k ∉ L → (L.flatMap t).countP (fun v => key v = k) = 0 := by
    intro L hk
    rw [List.countP_eq_zero]
    intro v hv
    obtain ⟨i, hi, hv⟩ := List.mem_flatMap.mp hv
    exact List.countP_eq_zero.mp (haway i (by rintro rfl; exact hk hi)) v hv
  rw [← h.countP_home k]
  have hk := hall (hash k)
  clear hall
  induction L with
  | nil => cases hk
  | cons i L ih =>
      obtain ⟨hi, hL⟩ := List.nodup_cons.mp hL
      rw [List.flatMap_cons, List.countP_append]
      by_cases hik : hash k = i
      · subst hik
        rw [hsum hi, Nat.add_zero]
      · rw [haway i (fun h => hik h.symm), Nat.zero_add]
        exact ih hL ((List.mem_cons.mp hk).resolve_left hik)

variable [DecidableEq ι]

theorem lookup_add (t : Buckets ι ν) (v : ν) (k : κ) :
    lookup hash key (add hash key t v) k = if key v = k then some v else lookup hash key t k := by
  unfold lookup add
  by_cases hk : key v = k
  · subst hk; simp
  · by_cases hb : hash k = hash (key v)
    · rw [hb]
      simp [hk]
    · simp [hb, hk]

theorem Wf.add (h : Wf hash key t) {v : ν} (hv : lookup hash key t (key v) = none) :
    Wf hash key (Buckets.add hash key t v) where
  home i x hx := by
    by_cases hi : i = hash (key v)
    · subst hi
      rw [Buckets.add, Function.update_self] at hx
      rcases List.mem_cons.mp hx with rfl | hx
      · rfl
      · exact h.home _ x hx
    · rw [Buckets.add, Function.update_of_ne hi] at hx
      exact h.home i x hx
  unique i := by
    by_cases hi : i = hash (key v)
    · subst hi
      rw [Buckets.add, Function.update_self, List.map_cons, List.nodup_cons]
      refine ⟨?_, h.unique _⟩
      intro hm
      obtain ⟨x, hx, hxv⟩ := List.mem_map.mp hm
      exact lookup_eq_none_iff.mp hv x hx hxv
    · rw [Buckets.add, Function.update_of_ne hi]
      exact h.unique i

theorem Wf.lookup_del [DecidableEq ν] (h : Wf hash key t) {v : ν} (hv : v ∈ t (hash (key v))) (k : κ) :
    lookup hash key (Buckets.del hash key t v) k = if key v = k then none else lookup hash key t k := by
  by_cases hk : key v = k
  · subst hk
    rw [if_pos rfl, lookup_eq_none_iff, Buckets.del, Function.update_self]
    intro x hx hxv
    have hxv' : x = v := List.inj_on_of_nodup_map (h.unique _) (List.mem_of_mem_erase hx) hv hxv
    subst hxv'
    exact ((h.unique _).of_map key).not_mem_erase hx
  · rw [if_neg hk]
    unfold lookup Buckets.del
    by_cases hb : hash k = hash (key v)
    · rw [hb, Function.update_self]
      induction t (hash (key v)) with
      | nil => rfl
      | cons x l ih =>
          by_cases hx : x = v
          · subst hx; simp [hk]
          · rw [List.erase_cons_tail (by simpa using hx), List.find?_cons, List.find?_cons, ih]
    · rw [Function.update_of_ne hb]

end Buckets

end Rakaia.Lib
