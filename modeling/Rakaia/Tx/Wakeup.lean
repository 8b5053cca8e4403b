import Rakaia.Lib.Owner
import Rakaia.Tx.State

/-! # Transmit wakeups

The owner of `tx_in_use` finds `tx_wait_queue` empty under `tx_lock` and resets `tx_in_use` in a
later step.  A sender that splices its message and fails its `atomic_cmpxchg` in between leaves
the message to an owner that no longer looks: it waits for an unrelated later send
(`wakeup_lost`).  In every run in which no `atomic_cmpxchg` fails in this window, a waiting message
always has a thread that will move it (`no_lost_wakeup`). -/

namespace Rakaia.Tx

open Lib

variable {v : Variant} {w : UInt32} {s s' : State} {a : Act} {e es : List Event}

/-- No call of `try_send_from_psock` is in progress, and nobody owes one.  Only in the grpc variant does a sender
leave its call to `tx_work`. -/
def Quiescent (v : Variant) (s : State) : Prop := (∀ t, s.pc t = .idle) ∧ (v = .grpc → s.workPending = false)

/-- The action is not an `atomic_cmpxchg` that fails while the owner stands between the section in
which it found the queue empty and its `atomic_set`. -/
def YieldsOutsideWindow (s : State) : Act → Prop
  | .run t _ => s.pc t = .call → s.txInUse = true → ∀ u, s.pc u ≠ .clear
  | _ => True

/-- The call will look into `tx_wait_queue` again before it gives up `tx_in_use`. -/
def Pc.Drains : Pc → Prop
  | .lockSock | .loop | .assign _ | .push => True
  | _ => False

/-- The call owns `tx_in_use`. -/
def Pc.Owns : Pc → Prop
  | .clear => True
  | pc => pc.Drains

theorem Pc.Owns.drains {pc : Pc} (h : pc.Owns) (hc : pc ≠ .clear) : pc.Drains := by
  cases pc <;> first | exact h | exact absurd rfl hc

/-! ### The owner -/

/-- `tx_in_use` is set if and only if a thread owns it, and then only one does. -/
structure Owner (s : State) : Prop where
  unique : ∀ t u, (s.pc t).Owns → (s.pc u).Owns → t = u
  inUse : s.txInUse = true ↔ ∃ t, (s.pc t).Owns

theorem owner_iff : Owner s ↔ Owned Pc.Owns s.pc s.txInUse :=
  ⟨fun h => ⟨h.unique, h.inUse⟩, fun h => ⟨h.unique, h.set⟩⟩

theorem owner_step (hs : Step v s a s' e) (h : Owner s) : Owner s' := by
  rw [owner_iff] at h ⊢
  cases hs with
  | splice t lens hp => exact h.move (t := t) (by simp [hp, Pc.Owns, Pc.Drains])
  | sendCtrl => exact h
  | writeSpace => exact h
  | txWork t hp _ => exact h.move (t := t) (by simp [hp, Pc.Owns, Pc.Drains])
  | yield t n hp _ => exact h.move (t := t) (by simp [hp, Pc.Owns, Pc.Drains])
  | own t n hp hu =>
      rw [hu] at h
      exact h.take t trivial
  | lockSock t n hp _ => exact h.move (t := t) (by simp [hp, Pc.Owns, Pc.Drains])
  | empty t n hp _ => exact h.move (t := t) (by simp [hp, Pc.Owns, Pc.Drains])
  | move t n hp _ => exact h.move (t := t) (by simp [hp, Pc.Owns, Pc.Drains])
  | assign t n head hp => exact h.move (t := t) (by simp [hp, Pc.Owns, Pc.Drains])
  | push t n hp => exact h.move (t := t) (by simp [hp, Pc.Owns, Pc.Drains])
  | clear t n hp =>
      apply h.release (t := t)
      · rw [hp]
        trivial
      · exact id
  | release t n hp => exact h.move (t := t) (by simp [hp, Pc.Owns, Pc.Drains])
  | xmit => exact h

theorem owner_init : Owner (State.init w) := by
  constructor <;> simp [State.init, Pc.Owns, Pc.Drains]

theorem owner_of_reach {G : State → Act → Prop} (h : (machine v w).Reach G s es) : Owner s :=
  h.invariant (P := fun s _ => Owner s) owner_init
    (fun _ _ _ _ _ _ ih _ hs => owner_step (step_cases hs) ih)

/-! ### A waiting message has a thread that will move it -/

/-- Somebody will look into `tx_wait_queue`: a call about to be made, or the owner. -/
def Attended (v : Variant) (s : State) : Prop :=
  (v = .grpc ∧ s.workPending = true) ∨ ∃ t, s.pc t = .call ∨ (s.pc t).Drains

/-- A waiting message is attended. -/
def Awaited (v : Variant) (s : State) : Prop := s.txWaitQueue ≠ [] → Attended v s

/-- A thread that does not attend the queue moves on. -/
theorem Attended.move (h : Attended v s) {t : ℕ} {pc : Pc} (hp : s'.pc = Function.update s.pc t pc)
    (hw : s'.workPending = s.workPending) (hc : s.pc t ≠ .call) (hd : ¬ (s.pc t).Drains) :
    Attended v s' := by
  rcases h with ⟨hv, h⟩ | ⟨u, hu⟩
  · exact Or.inl ⟨hv, by rw [hw, h]⟩
  · have hne : u ≠ t := by
      rintro rfl
      rcases hu with hu | hu
      · exact hc hu
      · exact hd hu
    exact Or.inr ⟨u, by simpa [hp, hne] using hu⟩

theorem awaited_step (hs : Step v s a s' e) (hg : YieldsOutsideWindow s a) (ho : Owner s)
    (h : Awaited v s) : Awaited v s' := by
  cases hs with
  | splice t lens hp => exact fun _ => Or.inr ⟨t, Or.inl (by simp)⟩
  | sendCtrl len hv => exact fun _ => Or.inl ⟨hv, rfl⟩
  | writeSpace => exact fun hq => (h hq).imp (fun hw => ⟨hw.1, rfl⟩) id
  | txWork t hp _ => exact fun _ => Or.inr ⟨t, Or.inl (by simp)⟩
  | yield t n hp hu =>
      obtain ⟨u, hu'⟩ := ho.inUse.mp hu
      have hd := hu'.drains (hg hp hu u)
      have hne : u ≠ t := by
        rintro rfl
        rw [hp] at hd
        cases hd
      exact fun _ => Or.inr ⟨u, Or.inr (by simpa [hne] using hd)⟩
  | own t n => exact fun _ => Or.inr ⟨t, Or.inr (by simp [Pc.Drains])⟩
  | lockSock t n => exact fun _ => Or.inr ⟨t, Or.inr (by simp [Pc.Drains])⟩
  | empty t n hp hq => exact fun hne => absurd hq hne
  | move t n => exact fun _ => Or.inr ⟨t, Or.inr (by simp [Pc.Drains])⟩
  | assign t n head => exact fun _ => Or.inr ⟨t, Or.inr (by simp [Pc.Drains])⟩
  | push t n => exact fun _ => Or.inr ⟨t, Or.inr (by simp [Pc.Drains])⟩
  | clear t n hp => exact fun hq => (h hq).move (t := t) rfl rfl (by simp [hp]) (by simp [hp, Pc.Drains])
  | release t n hp => exact fun hq => (h hq).move (t := t) rfl rfl (by simp [hp]) (by simp [hp, Pc.Drains])
  | xmit => exact h

theorem awaited_of_reach (h : (machine v w).Reach YieldsOutsideWindow s es) : Awaited v s :=
  h.invariant (P := fun s _ => Awaited v s) (fun hq => absurd rfl hq)
    (fun _ _ _ _ _ hr ih hg hs => awaited_step (step_cases hs) hg (owner_of_reach hr) ih)

/-! ### Runs to evaluate -/

/-- Two threads take part. -/
def twoThreads : Act → Bool
  | .splice t _ | .txWork t => decide (t < 2)
  | _ => true

theorem idle_step {t : ℕ} (hs : Step v s a s' e) (ha : twoThreads a = true) (ht : 2 ≤ t)
    (h : s.pc t = .idle) : s'.pc t = .idle := by
  have hmove : ∀ u pc, s.pc u ≠ .idle ∨ u < 2 → Function.update s.pc u pc t = .idle := by
    intro u pc hu
    have hne : t ≠ u := by
      rintro rfl
      rcases hu with hu | hu
      · exact hu h
      · omega
    rw [Function.update_of_ne hne, h]
  cases hs with
  | splice u lens => exact hmove u .call (Or.inr (of_decide_eq_true ha))
  | txWork u => exact hmove u .call (Or.inr (of_decide_eq_true ha))
  | sendCtrl | writeSpace | xmit => exact h
  | yield u n hp | own u n hp | lockSock u n hp | empty u n hp | move u n hp | assign u n head hp
  | push u n hp | clear u n hp | release u n hp => exact hmove u _ (Or.inl (by simp [hp]))

theorem idle_of_reach {G : State → Act → Prop} (hG : ∀ s a, G s a → twoThreads a = true)
    (h : (machine v w).Reach G s es) {t : ℕ} (ht : 2 ≤ t) : s.pc t = .idle :=
  h.invariant (P := fun s _ => s.pc t = .idle) rfl
    (fun _ _ _ _ _ _ ih hg hs => idle_step (step_cases hs) (hG _ _ hg) ht ih)

/-- What the runs are asked about: the two threads, the work item, the number of waiting segments. -/
def look (s : State) : (Pc × Pc × Bool) × ℕ := ((s.pc 0, s.pc 1, s.workPending), s.txWaitQueue.length)

theorem quiescent_of_look {G : State → Act → Prop} (hG : ∀ s a, G s a → twoThreads a = true)
    (h : (machine v w).Reach G s es) (hl : (look s).1 = (.idle, .idle, false)) :
    Quiescent v s ∧ s.workPending = false := by
  simp only [look, Prod.mk.injEq] at hl
  refine ⟨⟨fun t => ?_, fun _ => hl.2.2⟩, hl.2.2⟩
  match t with
  | 0 => exact hl.1
  | 1 => exact hl.2.1
  | t + 2 => exact idle_of_reach hG h (by omega)

/-- The condition on the window, evaluated for two threads. -/
def yieldsOutsideWindow (s : State) : Act → Bool
  | .run t _ => !(s.pc t == .call && s.txInUse && (s.pc 0 == .clear || s.pc 1 == .clear))
  | _ => true

theorem yieldsOutsideWindow_sound {G : State → Act → Prop}
    (hG : ∀ s a, G s a → twoThreads a = true) (hr : (machine v w).Reach G s es)
    (h : yieldsOutsideWindow s a = true) : YieldsOutsideWindow s a := by
  cases a with
  | run t n =>
      intro hc hu u hclear
      have hlt : u < 2 := by
        by_contra hge
        rw [idle_of_reach hG hr (by omega)] at hclear
        cases hclear
      have hn : ¬ s.pc 0 = .clear ∧ ¬ s.pc 1 = .clear := by
        simpa [yieldsOutsideWindow, hc, hu] using h
      match u with
      | 0 => exact hn.1 hclear
      | 1 => exact hn.2 hclear
  | _ => trivial

/-! ### No lost wakeup outside the window -/

/-- **Transmit wakeups outside the window.**  In every run of either variant in which no
`atomic_cmpxchg` fails while the owner stands between the section in which it found the queue
empty and its `atomic_set`: when no call of `try_send_from_psock` is in progress and none is owed,
`tx_wait_queue` is empty.  In the plain-tcp variant this does not rest on `tx_work`. -/
theorem no_lost_wakeup (h : (machine v w).Reach YieldsOutsideWindow s es) (hq : Quiescent v s) :
    s.txWaitQueue = [] := by
  by_contra hne
  rcases awaited_of_reach h hne with ⟨hv, hw⟩ | ⟨t, ht⟩
  · rw [hq.2 hv] at hw
    cases hw
  · rw [hq.1 t] at ht
    rcases ht with ht | ht <;> cases ht

/-- Thread 1 sends while thread 0 owns `tx_in_use`, and thread 0 moves both messages. -/
def handOverActs : List Act :=
  [.splice 0 [10], .run 0 0, .splice 1 [20, 30], .run 1 0, .run 0 0, .run 0 0, .run 0 0, .run 0 2,
    .run 0 0, .run 0 0, .run 0 0]

theorem no_lost_wakeup_after_hand_over : ∃ s es,
    (machine .grpc 7).Reach YieldsOutsideWindow s es ∧ Quiescent .grpc s ∧ s.txWaitQueue = [] := by
  obtain ⟨s, es, hr, hy⟩ := Machine.Reach.of_exec (M := machine .grpc 7)
    (G := fun s a => twoThreads a = true ∧ (yieldsOutsideWindow s a) = true)
    (g := fun s a => twoThreads a && yieldsOutsideWindow s a) handOverActs (by simp)
    (fun r => look r.1) ((.idle, .idle, false), 0) (by decide +kernel)
  have hq := (quiescent_of_look (fun _ _ hg => hg.1) hr (by rw [hy])).1
  have hr' := hr.mono (fun _ _ _ hr hg => yieldsOutsideWindow_sound (fun _ _ hg => hg.1) hr hg.2)
  exact ⟨s, es, hr', hq, no_lost_wakeup hr' hq⟩

/-- Thread 0 has moved its message and found the queue empty; thread 1 splices a message and gives
up; thread 0 resets `tx_in_use`. -/
def losingActs : List Act :=
  [.splice 0 [10], .run 0 0, .run 0 0, .run 0 0, .run 0 0, .run 0 1, .run 0 0, .splice 1 [20],
    .run 1 0, .run 0 0, .run 0 0]

theorem lost_of_look {v : Variant} (hx : ((machine v 0).exec (fun _ a => twoThreads a) (machine v 0).init
      losingActs).map (fun r => look r.1) = some ((.idle, .idle, false), 1)) :
    ∃ s es, (machine v 0).Reachable s es ∧ (Quiescent v s ∧ s.workPending = false) ∧ s.txWaitQueue ≠ [] := by
  obtain ⟨s, es, hr, hy⟩ := Machine.Reach.of_exec (M := machine v 0)
    (G := fun _ a => twoThreads a = true) losingActs (fun _ _ _ h => h) (fun r => look r.1)
    ((.idle, .idle, false), 1) hx
  refine ⟨s, es, hr.reachable, quiescent_of_look (fun _ _ hg => hg) hr (by rw [hy]), ?_⟩
  intro hc
  simp [look, hc] at hy

theorem wakeup_lost :
    (∃ s es, (machine .plainTcp 0).Reachable s es ∧ (Quiescent .plainTcp s ∧ s.workPending = false) ∧
      s.txWaitQueue ≠ []) ∧
    ∃ s es, (machine .grpc 0).Reachable s es ∧ (Quiescent .grpc s ∧ s.workPending = false) ∧ s.txWaitQueue ≠ [] :=
  ⟨lost_of_look (by decide +kernel), lost_of_look (by decide +kernel)⟩

end Rakaia.Tx
