import Mathlib.Data.List.Basic
import Mathlib.Data.List.Infix

/-! # Cutting a stream

A look at the beginning of a stream says that more elements are needed, that the stream is bad, or how many
elements the first item has.  `scan` cuts items off until one of the first two happens.  A look that does not
change its mind when more elements arrive is steady; then the items that were cut off a part of the stream are
the first items of the whole stream. -/

namespace Rakaia.Lib

variable {α : Type}

inductive Look where
  | wait
  | stop
  | take (n : ℕ)
deriving DecidableEq, Repr

/-- The items that can be cut off, and whether the rest is bad. -/
def scan (look : List α → Look) : ℕ → List α → List (List α) × Bool
  | 0, _ => ([], false)
  | fuel + 1, l =>
      match look l with
      | .wait => ([], false)
      | .stop => ([], true)
      | .take n => (l.take n :: (scan look fuel (l.drop n)).1, (scan look fuel (l.drop n)).2)

/-- The stream consists of the items and a rest. -/
inductive Scans (look : List α → Look) : List α → List (List α) → List α → Prop
  | nil (l : List α) : Scans look l [] l
  | cons {l rest : List α} {items : List (List α)} {n : ℕ} : look l = .take n →
      Scans look (l.drop n) items rest → Scans look l (l.take n :: items) rest

/-- A look that does not change its mind. -/
structure Steady (look : List α → Look) : Prop where
  take_pos : ∀ l n, look l = .take n → 0 < n
  take_le : ∀ l n, look l = .take n → n ≤ l.length
  take_append : ∀ l m n, look l = .take n → look (l ++ m) = .take n
  stop_append : ∀ l m, look l = .stop → look (l ++ m) = .stop

variable {look look' : List α → Look} {l m rest : List α} {items : List (List α)} {n fuel : ℕ}

theorem Scans.snoc (h : Scans look l items rest) (hn : look rest = .take n) :
    Scans look l (items ++ [rest.take n]) (rest.drop n) := by
  induction h with
  | nil l => exact .cons hn (.nil _)
  | cons hl _ ih => exact .cons hl (ih hn)

theorem Scans.append (hs : Steady look) (h : Scans look l items rest) (m : List α) :
    Scans look (l ++ m) items (rest ++ m) := by
  induction h with
  | nil l => exact .nil _
  | @cons l rest items n hl _ ih =>
      have hle := hs.take_le l n hl
      have hcons : Scans look (l ++ m) ((l ++ m).take n :: items) (rest ++ m) :=
        .cons (hs.take_append l m n hl) (by rw [List.drop_append_of_le_length hle]; exact ih)
      rwa [List.take_append_of_le_length hle] at hcons

/-- The items come first, whatever the rest is. -/
theorem Scans.scan_eq (hs : Steady look) (h : Scans look l items rest) (hf : l.length < fuel) :
    ∃ fuel', rest.length < fuel' ∧ scan look fuel l =
      (items ++ (scan look fuel' rest).1, (scan look fuel' rest).2) := by
  induction h generalizing fuel with
  | nil l => exact ⟨fuel, hf, rfl⟩
  | @cons l rest items n hl _ ih =>
      obtain ⟨f, rfl⟩ : ∃ f, fuel = f + 1 := ⟨fuel - 1, by omega⟩
      have hpos := hs.take_pos l n hl
      have hle := hs.take_le l n hl
      have hdrop : (l.drop n).length < f := by rw [List.length_drop]; omega
      obtain ⟨fuel', hrest, heq⟩ := ih hdrop
      refine ⟨fuel', hrest, ?_⟩
      simp only [scan, hl, heq, List.cons_append]

theorem scan_of_wait (h : look l = .wait) (fuel : ℕ) : scan look fuel l = ([], false) := by
  cases fuel with
  | zero => rfl
  | succ f => simp only [scan, h]

theorem scan_of_stop (h : look l = .stop) (hf : 0 < fuel) : scan look fuel l = ([], true) := by
  obtain ⟨f, rfl⟩ : ∃ f, fuel = f + 1 := ⟨fuel - 1, by omega⟩
  simp only [scan, h]

/-- Two looks that agree wherever an item starts cut the same items off. -/
theorem scan_congr (h : ∀ items rest, Scans look l items rest → look' rest = look rest) (fuel : ℕ) :
    scan look' fuel l = scan look fuel l := by
  induction fuel generalizing l with
  | zero => rfl
  | succ f ih =>
      have hl := h [] l (.nil l)
      cases hn : look l with
      | wait | stop => simp only [scan, hl, hn]
      | take n =>
          have htail := ih (l := l.drop n) (fun items rest hr => h _ rest (.cons hn hr))
          simp only [scan, hl, hn, htail]

end Rakaia.Lib
