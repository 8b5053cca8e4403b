import Rakaia.Sched.WorkConservation

/-! # A pull that runs alone

`rakaia_pull` and `rakaia_steal_skb` each contain a loop that starts over: the one when it finds the queue
of its victim empty, the other when a bit of `rx_nonempty_bm` is set although it found nothing to steal.
Neither happens to a pull that runs while no other call is in progress, because the bitmap and the queues
agree then; what is left is the loop that draws the second victim until it differs from the first.

`Alone` is the run of such a pull with a given sequence of random bytes.  It ends, and it has delivered the
oldest message of its own queue, or that of a longest of the two queues that it drew, or it has parked its
socket (`pull_alone_ends`). -/

namespace Rakaia.Sched

open Lib

variable {s s' s₁ s₂ s₃ : State} {t n n₁ n₂ n₃ : ℕ} {r : UInt8} {budget : Budget} {draws : ℕ → UInt8}
  {e e₁ e₂ es : List Event} {mask : Ksk → Bool} {i k v v1 v2 : Ksk} {m : Skb} {rest : List Skb}

/-! ### Runs -/

/-- The next step takes a random byte. -/
def PullPc.drawing : PullPc → Bool
  | .pickFirst .. | .pickSecond .. => true
  | _ => false

/-- Only the pull of thread `t` moves; the random bytes are taken from `draws`, from the `n`-th one on. -/
inductive Alone (draws : ℕ → UInt8) (budget : Budget) (t : ℕ) : State → ℕ → State → ℕ → List Event → Prop
  | refl (s : State) (n : ℕ) : Alone draws budget t s n s n []
  | step {s s₁ s₂ : State} {n n₂ : ℕ} {e₁ e₂ : List Event} :
      rakaiaPull .plainTcp s t (draws n) budget = some (s₁, e₁) →
      Alone draws budget t s₁ (if (s.pull t).drawing then n + 1 else n) s₂ n₂ e₂ →
      Alone draws budget t s n s₂ n₂ (e₁ ++ e₂)

theorem Alone.trans (h₁ : Alone draws budget t s₁ n₁ s₂ n₂ e₁) (h₂ : Alone draws budget t s₂ n₂ s₃ n₃ e₂) :
    Alone draws budget t s₁ n₁ s₃ n₃ (e₁ ++ e₂) := by
  induction h₁ with
  | refl => exact h₂
  | step hs _ ih =>
      rw [List.append_assoc]
      exact .step hs (ih h₂)

/-- The code and the random bytes determine how a pull ends. -/
theorem Alone.unique (h₁ : Alone draws budget t s n s₁ n₁ e₁) (h₂ : Alone draws budget t s n s₂ n₂ e₂)
    (hi₁ : s₁.pull t = .idle) (hi₂ : s₂.pull t = .idle) : s₁ = s₂ ∧ e₁ = e₂ := by
  have hstop : ∀ {s : State} {r : UInt8}, s.pull t = .idle → rakaiaPull .plainTcp s t r budget = none := by
    intro s r hi
    rw [rakaiaPull, hi]
  induction h₁ generalizing e₂ with
  | refl s n =>
      cases h₂ with
      | refl => exact ⟨rfl, rfl⟩
      | step hs _ =>
          rw [hstop hi₁] at hs
          cases hs
  | step hs _ ih =>
      cases h₂ with
      | refl =>
          rw [hstop hi₂] at hs
          cases hs
      | step hs' h' =>
          rw [hs] at hs'
          obtain ⟨rfl, rfl⟩ := Prod.mk.inj (Option.some.inj hs')
          obtain ⟨rfl, rfl⟩ := ih h' hi₁
          exact ⟨rfl, rfl⟩

/-! ### The positions of a pull, from its call on -/

namespace State

theorem setPull_pull (s : State) (t : ℕ) (pc : PullPc) : (s.setPull t pc).pull t = pc := by
  simp only [setPull, Function.update_self]

theorem setPull_setPull (s : State) (t : ℕ) (pc pc' : PullPc) :
    (s.setPull t pc).setPull t pc' = s.setPull t pc' := by
  simp only [setPull, Function.update_idem]

end State

/-- A step that takes no random byte. -/
theorem Alone.move {pc : PullPc} (hpc : pc.drawing = false)
    (hs : rakaiaPull .plainTcp (s.setPull t pc) t (draws n) budget = some (s₁, e₁))
    (h : Alone draws budget t s₁ n s₂ n₂ e₂) : Alone draws budget t (s.setPull t pc) n s₂ n₂ (e₁ ++ e₂) :=
  .step hs (by rw [State.setPull_pull, hpc]; exact h)

/-- A step that takes a random byte. -/
theorem Alone.draw {pc : PullPc} (hpc : pc.drawing = true)
    (hs : rakaiaPull .plainTcp (s.setPull t pc) t (draws n) budget = some (s₁, e₁))
    (h : Alone draws budget t s₁ (n + 1) s₂ n₂ e₂) : Alone draws budget t (s.setPull t pc) n s₂ n₂ (e₁ ++ e₂) :=
  .step hs (by rw [State.setPull_pull, hpc]; exact h)

theorem dequeueLocked_cons (h : s.rxQ v = m :: rest) : dequeueLocked s v = some (m, s.afterTake v rest) := by
  simp only [dequeueLocked, h, State.afterTake]

theorem dequeueLocked_nil (h : s.rxQ v = []) : dequeueLocked s v = none := by
  simp only [dequeueLocked, h]

/-- A pull that stands at the lock of a queue which is free takes the head of the queue. -/
theorem pull_takes (t : ℕ) (r : UInt8) (budget : Budget) {pc : PullPc} (hpc : pc.Takes i v)
    (hl : s.rxLock v = none) (hq : s.rxQ v = m :: rest) :
    rakaiaPull .plainTcp (s.setPull t pc) t r budget =
      some (((s.setPull t pc).afterTake v rest).setPull t (.deliver i m), [.left v m.id]) := by
  have hd := dequeueLocked_cons (s := s.setPull t pc) hq
  have hl' : (s.setPull t pc).rxLock v = none := hl
  rcases hpc with ⟨rfl, rfl⟩ | rfl
  · simp only [rakaiaPull, State.setPull_pull, hl', if_true, hd]
  · simp only [rakaiaPull, State.setPull_pull, hl', if_true, hd]

theorem pull_own_empty (hl : s.rxLock i = none) (hq : s.rxQ i = []) :
    rakaiaPull .plainTcp (s.setPull t (.own i)) t r budget = some (s.setPull t (.readMask i), []) := by
  have hd := dequeueLocked_nil (s := s.setPull t (.own i)) hq
  have hl' : (s.setPull t (.own i)).rxLock i = none := hl
  simp only [rakaiaPull, State.setPull_pull, hl', if_true, hd, State.setPull_setPull]

theorem pull_readMask_zero (h : setBits s.rxNonemptyBm = []) :
    rakaiaPull .plainTcp (s.setPull t (.readMask i)) t r budget = some (s.setPull t (.register i), []) := by
  have h' : setBits (s.setPull t (.readMask i)).rxNonemptyBm = [] := h
  simp only [rakaiaPull, State.setPull_pull, h', if_true, State.setPull_setPull]

theorem pull_readMask (h : setBits s.rxNonemptyBm ≠ []) :
    rakaiaPull .plainTcp (s.setPull t (.readMask i)) t r budget =
      some (s.setPull t (.pickFirst i s.rxNonemptyBm), []) := by
  have h' : setBits (s.setPull t (.readMask i)).rxNonemptyBm ≠ [] := h
  simp only [rakaiaPull, State.setPull_pull, if_neg h', State.setPull_setPull]
  rfl

theorem pull_pickFirst (s : State) (t : ℕ) (budget : Budget) (i : Ksk) (hv : pickRandomSetBit mask r = some v1) :
    rakaiaPull .plainTcp (s.setPull t (.pickFirst i mask)) t r budget =
      some (s.setPull t (if 1 < (setBits mask).length then .pickSecond i mask v1 else .readSecond i v1 v1), []) := by
  simp only [rakaiaPull, State.setPull_pull, hv, State.setPull_setPull]
  split_ifs <;> rfl

theorem pull_pickSecond (s : State) (t : ℕ) (budget : Budget) (i v1 : Ksk) (hv : pickRandomSetBit mask r = some v2) :
    rakaiaPull .plainTcp (s.setPull t (.pickSecond i mask v1)) t r budget =
      some (s.setPull t (if v2 = v1 then .pickSecond i mask v1 else .readSecond i v1 v2), []) := by
  simp only [rakaiaPull, State.setPull_pull, hv, State.setPull_setPull]
  split_ifs <;> rfl

theorem pull_readSecond : rakaiaPull .plainTcp (s.setPull t (.readSecond i v1 v2)) t r budget =
    some (s.setPull t (.readFirst i v1 v2 (s.rxQ v2).length), []) := by
  simp only [rakaiaPull, State.setPull_pull, State.setPull_setPull]
  rfl

theorem pull_readFirst : rakaiaPull .plainTcp (s.setPull t (.readFirst i v1 v2 n)) t r budget =
    some (s.setPull t (.steal i (if (s.rxQ v1).length < n then v2 else v1)), []) := by
  simp only [rakaiaPull, State.setPull_pull, State.setPull_setPull]
  rfl

/-! ### Delivery -/

/-- The pull on socket `i` has moved `m`, the oldest message of queue `v`, to the socket, and nothing else. -/
structure Moved (s s' : State) (i v : Ksk) (m : Skb) : Prop where
  oldest : (s.rxQ v).head? = some m
  rxQ : s'.rxQ = Function.update s.rxQ v (s.rxQ v).tail
  receiveQ : s'.receiveQ = Function.update s.receiveQ i (s.receiveQ i ++ [m])
  kskWaiters : s'.kskWaiters = s.kskWaiters

theorem afterTake_rmemAlloc (s : State) (v : Ksk) (rest : List Skb) :
    (s.afterTake v rest).rmemAlloc = s.rmemAlloc := by
  unfold State.afterTake
  split_ifs <;> rfl

/-- An accepted message is appended to `sk_receive_queue`. -/
theorem alone_deliver (ha : rcvSkbAccepted .plainTcp s i budget = true) :
    Alone draws budget t (s.setPull t (.deliver i m)) n
      ((chargeRcvSkb .plainTcp (s.setPull t (.charge i m)) i m).setPull t .idle) n [.delivered i m.id] := by
  have ha' : rcvSkbAccepted .plainTcp (s.setPull t (.deliver i m)) i budget = true := ha
  have haccept : rakaiaPull .plainTcp (s.setPull t (.deliver i m)) t (draws n) budget =
      some (s.setPull t (.charge i m), []) := by
    simp only [rakaiaPull, State.setPull_pull, ha', if_true, State.setPull_setPull]
  have hcharge : rakaiaPull .plainTcp (s.setPull t (.charge i m)) t (draws n) budget =
      some ((chargeRcvSkb .plainTcp (s.setPull t (.charge i m)) i m).setPull t .idle, [.delivered i m.id]) := by
    simp only [rakaiaPull, State.setPull_pull]
  exact .move rfl haccept (.move rfl hcharge (.refl _ _))

/-- From the position where it takes the head of a queue, the pull runs to its end. -/
theorem alone_take (t n : ℕ) (draws : ℕ → UInt8) {pc : PullPc} (hpc : pc.Takes i v) (hl : s.rxLock v = none)
    (hq : s.rxQ v = m :: rest) (ha : rcvSkbAccepted .plainTcp s i budget = true) (hidle : Quiescent s) :
    ∃ s', Alone draws budget t (s.setPull t pc) n s' n [.left v m.id, .delivered i m.id] ∧ Quiescent s' ∧
      Moved s s' i v m := by
  obtain ⟨h₁, -, -, -, h₅, h₆, h₇, -, -, h₁₀⟩ := afterTake_fields (s.setPull t pc) v rest
  have hpick : pc.drawing = false := by rcases hpc with ⟨rfl, -⟩ | rfl <;> rfl
  have ha' : rcvSkbAccepted .plainTcp ((s.setPull t pc).afterTake v rest) i budget = true := by
    rw [rcvSkbAccepted, afterTake_rmemAlloc]
    exact ha
  have hstart := pull_takes t (draws n) budget hpc hl hq
  refine ⟨_, .move hpick hstart (alone_deliver ha'), ⟨?_, ?_⟩, ⟨?_, ?_, ?_, ?_⟩⟩
  · intro p
    simp only [chargeRcvSkb, State.setPull] at h₅ ⊢
    rw [h₅]
    exact hidle.1 p
  · intro u
    by_cases hu : u = t
    · subst hu
      exact State.setPull_pull _ _ _
    · simp only [chargeRcvSkb, State.setPull] at h₆ ⊢
      rw [Function.update_of_ne hu, Function.update_of_ne hu, h₆, Function.update_of_ne hu]
      exact hidle.2 u
  · rw [hq]
    rfl
  · rw [hq]
    exact h₁₀
  · simp only [chargeRcvSkb, State.setPull] at h₇ ⊢
    rw [h₇]
  · exact h₁

/-! ### The draws -/

theorem pickRandomSetBit_mem (h : setBits mask ≠ []) (r : UInt8) :
    ∃ v, pickRandomSetBit mask r = some v ∧ mask v = true := by
  have hlt : r.toNat % (setBits mask).length < (setBits mask).length :=
    Nat.mod_lt _ (List.length_pos_iff.mpr h)
  refine ⟨_, List.getElem?_eq_getElem hlt, ?_⟩
  have hmem := List.getElem_mem hlt
  exact (List.mem_filter.mp hmem).2

/-- If more than one bit is set, some later draw differs from the first one. -/
def EventuallyDiffer (mask : Ksk → Bool) (draws : ℕ → UInt8) : Prop :=
  1 < (setBits mask).length → ∃ j, pickRandomSetBit mask (draws (j + 1)) ≠ pickRandomSetBit mask (draws 0)

/-- The two victims: the first draw, and the first of the later draws that differs from it; a bitmap with one
bit is drawn from once. -/
inductive Drawn (mask : Ksk → Bool) (draws : ℕ → UInt8) : Ksk → Ksk → Prop
  | one {v : Ksk} : (setBits mask).length ≤ 1 → pickRandomSetBit mask (draws 0) = some v → Drawn mask draws v v
  | two {v1 v2 : Ksk} (j : ℕ) : 1 < (setBits mask).length → pickRandomSetBit mask (draws 0) = some v1 →
      (∀ k < j, pickRandomSetBit mask (draws (k + 1)) = some v1) →
      pickRandomSetBit mask (draws (j + 1)) = some v2 → v2 ≠ v1 → Drawn mask draws v1 v2

theorem exists_drawn (h : setBits mask ≠ []) (hd : EventuallyDiffer mask draws) :
    ∃ v1 v2, Drawn mask draws v1 v2 ∧ mask v1 = true ∧ mask v2 = true := by
  obtain ⟨v1, hv1, hm1⟩ := pickRandomSetBit_mem h (draws 0)
  by_cases htwo : 1 < (setBits mask).length
  · -- the first of the draws that differ
    obtain ⟨j, hj, hfirst⟩ : ∃ j, pickRandomSetBit mask (draws (j + 1)) ≠ some v1 ∧
        ∀ k < j, pickRandomSetBit mask (draws (k + 1)) = some v1 := by
      have hex := hd htwo
      rw [hv1] at hex
      exact ⟨Nat.find hex, Nat.find_spec hex, fun k hk => not_not.mp (Nat.find_min hex hk)⟩
    obtain ⟨v2, hv2, hm2⟩ := pickRandomSetBit_mem h (draws (j + 1))
    refine ⟨v1, v2, .two j htwo hv1 hfirst hv2 ?_, hm1, hm2⟩
    rintro rfl
    exact hj hv2
  · exact ⟨v1, v1, .one (not_lt.mp htwo) hv1, hm1, hm1⟩

/-- The loop that draws the second victim. -/
theorem alone_pickSecond (s : State) (t n : ℕ) (budget : Budget) (i : Ksk) {j : ℕ}
    (hsame : ∀ k < j, pickRandomSetBit mask (draws (n + k)) = some v1)
    (hv : pickRandomSetBit mask (draws (n + j)) = some v2) (hne : v2 ≠ v1) :
    Alone draws budget t (s.setPull t (.pickSecond i mask v1)) n (s.setPull t (.readSecond i v1 v2))
      (n + j + 1) [] := by
  induction j generalizing n with
  | zero =>
      have hstep := pull_pickSecond s t budget i v1 hv
      rw [if_neg hne] at hstep
      exact .draw rfl hstep (.refl _ _)
  | succ j ih =>
      have hstep := pull_pickSecond s t budget i v1 (hsame 0 (Nat.succ_pos j))
      rw [if_pos rfl] at hstep
      have hshift : ∀ k, n + 1 + k = n + (k + 1) := fun k => by omega
      have hend : n + 1 + j + 1 = n + (j + 1) + 1 := by omega
      rw [← hend]
      refine .draw rfl hstep (ih (n + 1) (fun k hk => ?_) ?_)
      · rw [hshift]
        exact hsame (k + 1) (Nat.succ_lt_succ hk)
      · rw [hshift]
        exact hv

/-- The victim selection of `rakaia_steal_skb`. -/
theorem alone_drawn (t : ℕ) (budget : Budget) (i : Ksk) (h : Drawn s.rxNonemptyBm draws v1 v2)
    (hne : setBits s.rxNonemptyBm ≠ []) :
    ∃ n, Alone draws budget t (s.setPull t (.readMask i)) 0
      (s.setPull t (.steal i (if (s.rxQ v1).length < (s.rxQ v2).length then v2 else v1))) n [] := by
  have htail : ∀ n, Alone draws budget t (s.setPull t (.readSecond i v1 v2)) n
      (s.setPull t (.steal i (if (s.rxQ v1).length < (s.rxQ v2).length then v2 else v1))) n [] := by
    intro n
    exact .move rfl pull_readSecond (.move rfl pull_readFirst (.refl _ _))
  cases h with
  | one hle hv =>
      have hstep := pull_pickFirst s t budget i hv
      rw [if_neg (not_lt.mpr hle)] at hstep
      exact ⟨1, .move rfl (pull_readMask hne) (.draw rfl hstep (htail 1))⟩
  | two j htwo hv1 hsame hv2 hdiff =>
      have hstep := pull_pickFirst s t budget i hv1
      rw [if_pos htwo] at hstep
      have hone : ∀ k, 1 + k = k + 1 := fun k => by omega
      have hloop := alone_pickSecond s t 1 budget i
        (fun k hk => by rw [hone]; exact hsame k hk) (by rw [hone]; exact hv2) hdiff
      exact ⟨1 + j + 1, .move rfl (pull_readMask hne) (.draw rfl hstep (hloop.trans (htail _)))⟩

/-! ### The result -/

/-- What a pull on socket `i` should do, with the events that say so. -/
structure PullResult (s s' : State) (i : Ksk) (draws : ℕ → UInt8) (e : List Event) : Prop where
  quiescent : Quiescent s'
  own : s.rxQ i ≠ [] → ∃ m, Moved s s' i i m ∧ e = [.left i m.id, .delivered i m.id]
  stolen : s.rxQ i = [] → (∃ j, s.rxQ j ≠ []) → ∃ v1 v2 v m, Drawn s.rxNonemptyBm draws v1 v2 ∧
    (v = v1 ∨ v = v2) ∧ (s.rxQ v1).length ≤ (s.rxQ v).length ∧ (s.rxQ v2).length ≤ (s.rxQ v).length ∧
    Moved s s' i v m ∧ e = [.left v m.id, .delivered i m.id]
  parked : (∀ j, s.rxQ j = []) → s'.rxQ = s.rxQ ∧ s'.receiveQ = s.receiveQ ∧ s'.kskWaiters.count i = 1 ∧
    (∀ j, j ≠ i → s'.kskWaiters.count j = s.kskWaiters.count j) ∧ e = []

/-- While no push is in progress, no queue is locked, and the bits tell which queues are empty. -/
theorem Quiescent.free (h : Quiescent s) (hq : Queues s) :
    (∀ j, s.rxLock j = none) ∧ ∀ j, s.rxNonemptyBm j = true ↔ s.rxQ j ≠ [] := by
  have hfree : ∀ j, s.rxLock j = none := by
    intro j
    cases hl : s.rxLock j with
    | none => rfl
    | some p =>
        have := (hq.lock_iff j p).mp hl
        rw [h.1 p] at this
        cases this
  exact ⟨hfree, fun j => hq.bm j (hfree j)⟩

theorem exists_own (hl : s.rxLock i = none) (hidle : Quiescent s)
    (ha : rcvSkbAccepted .plainTcp s i budget = true) (hq : s.rxQ i ≠ []) :
    ∃ s' n e, Alone draws budget t (s.setPull t (.own i)) 0 s' n e ∧ PullResult s s' i draws e := by
  obtain ⟨m, rest, hcons⟩ := List.exists_cons_of_ne_nil hq
  obtain ⟨s', hrun, hidle', hmoved⟩ :=
    alone_take t 0 draws (.inl ⟨rfl, rfl⟩) hl hcons ha hidle
  exact ⟨s', 0, _, hrun, hidle', fun _ => ⟨m, hmoved, rfl⟩, fun h => absurd h hq, fun h => absurd (h i) hq⟩

theorem exists_stolen (hinv : Queues s) (hidle : Quiescent s)
    (ha : rcvSkbAccepted .plainTcp s i budget = true) (hd : EventuallyDiffer s.rxNonemptyBm draws)
    (hq : s.rxQ i = []) (hsome : ∃ j, s.rxQ j ≠ []) :
    ∃ s' n e, Alone draws budget t (s.setPull t (.own i)) 0 s' n e ∧ PullResult s s' i draws e := by
  obtain ⟨hfree, hbm⟩ := hidle.free hinv
  have hne : setBits s.rxNonemptyBm ≠ [] := by
    obtain ⟨j, hj⟩ := hsome
    intro hnil
    have := setBits_eq_nil.mp hnil j
    rw [(hbm j).mpr hj] at this
    cases this
  obtain ⟨v1, v2, hdrawn, hm1, hm2⟩ := exists_drawn hne hd
  obtain ⟨n, hselect⟩ := alone_drawn t budget i hdrawn hne
  obtain ⟨v, hv⟩ : ∃ v, (if (s.rxQ v1).length < (s.rxQ v2).length then v2 else v1) = v := ⟨_, rfl⟩
  have hvictim : (v = v1 ∨ v = v2) ∧ (s.rxQ v1).length ≤ (s.rxQ v).length ∧
      (s.rxQ v2).length ≤ (s.rxQ v).length ∧ s.rxQ v ≠ [] := by
    split_ifs at hv with hlt
    · subst hv
      exact ⟨.inr rfl, hlt.le, le_rfl, (hbm v2).mp hm2⟩
    · subst hv
      exact ⟨.inl rfl, le_rfl, not_lt.mp hlt, (hbm v1).mp hm1⟩
  obtain ⟨hor, hle1, hle2, hvq⟩ := hvictim
  rw [hv] at hselect
  obtain ⟨m, rest, hcons⟩ := List.exists_cons_of_ne_nil hvq
  obtain ⟨s', hrun, hidle', hmoved⟩ :=
    alone_take t n draws (i := i) (.inr rfl) (hfree v) hcons ha hidle
  have hall := Alone.move rfl (pull_own_empty (hfree i) hq) (hselect.trans hrun)
  refine ⟨s', n, _, hall, hidle', fun h => absurd hq h, fun _ _ => ?_, ?_⟩
  · exact ⟨v1, v2, v, m, hdrawn, hor, hle1, hle2, hmoved, rfl⟩
  · intro hempty
    exact absurd (hempty v) hvq

theorem exists_parked (hinv : Queues s) (hw : Waiters s) (hidle : Quiescent s) (hempty : ∀ j, s.rxQ j = []) :
    ∃ s' n e, Alone draws budget t (s.setPull t (.own i)) 0 s' n e ∧ PullResult s s' i draws e := by
  obtain ⟨hfree, hbm⟩ := hidle.free hinv
  have hzero : setBits s.rxNonemptyBm = [] := by
    refine setBits_eq_nil.mpr (fun j => eq_false_of_ne_true (fun hj => ?_))
    exact (hbm j).mp hj (hempty j)
  have hzero' : setBits (s.setPull t (.register i)).rxNonemptyBm = [] := hzero
  have hregister : ∀ {s'}, rakaiaPull .plainTcp (s.setPull t (.register i)) t (draws 0) budget = some (s', []) →
      Alone draws budget t (s.setPull t (.own i)) 0 s' 0 [] := fun hs =>
    .move rfl (pull_own_empty (hfree i) (hempty i)) (.move rfl (pull_readMask_zero hzero) (.move rfl hs (.refl _ _)))
  have hquiet : ∀ {s' : State}, s'.push = s.push → s'.pull = Function.update s.pull t .idle → Quiescent s' := by
    intro s' hp hpull
    refine ⟨fun p => by rw [hp]; exact hidle.1 p, fun u => ?_⟩
    rw [hpull]
    by_cases hu : u = t
    · rw [hu, Function.update_self]
    · rw [Function.update_of_ne hu]
      exact hidle.2 u
  by_cases hb : s.waitersBm i = true
  · have hb' : (s.setPull t (.register i)).waitersBm i = true := hb
    have hmem : i ∈ s.kskWaiters := (hw.mem_iff i).mpr hb
    refine ⟨s.setPull t .idle, 0, [], hregister ?_, hquiet rfl rfl, fun h => absurd (hempty i) h,
      fun _ ⟨j, hj⟩ => absurd (hempty j) hj, fun _ => ⟨rfl, rfl, ?_, fun _ _ => rfl, rfl⟩⟩
    · simp only [rakaiaPull, State.setPull_pull, hzero', if_true, hb', State.setPull_setPull]
    · exact List.count_eq_one_of_mem hw.nodup hmem
  · have hb' : ¬ (s.setPull t (.register i)).waitersBm i = true := hb
    have hmem : i ∉ s.kskWaiters := fun hm => hb ((hw.mem_iff i).mp hm)
    refine ⟨(s.park i).setPull t .idle, 0, [], hregister ?_, hquiet rfl rfl, fun h => absurd (hempty i) h,
      fun _ ⟨j, hj⟩ => absurd (hempty j) hj, fun _ => ⟨rfl, rfl, ?_, fun j hj => ?_, rfl⟩⟩
    · simp only [rakaiaPull, State.setPull_pull, hzero', if_true, if_neg hb']
      simp only [State.setPull, State.park, Function.update_idem]
    · simp only [State.setPull, State.park, List.count_append, List.count_singleton_self,
        List.count_eq_zero_of_not_mem hmem]
    · have hj' : j ∉ [i] := by simpa using hj
      simp only [State.setPull, State.park, List.count_append, List.count_eq_zero_of_not_mem hj', Nat.add_zero]

/-- **A pull that runs alone ends with the right result.**  In a reachable state of the plain-tcp scheduler in
which all sockets are created and no other call is in progress, and with random bytes of which, when more than
one bit is set, some later one draws another victim than the first, `rakaia_pull` on socket `i` can be called
and ends; and when it has ended: if its own queue had messages, it has delivered the oldest; else, if some
queue had, it has delivered the oldest message of that of the two drawn queues which is not shorter than the
other; else the socket is in `ksk_waiters` exactly once.  A delivery moves one message and leaves
`ksk_waiters` as it was. -/
theorem pull_alone_ends (h : (machine .plainTcp).Reachable s es) (hall : s.socksCnt = numRakaiaSockets)
    (hcreated : ∀ j, s.creating j = false) (hidle : Quiescent s) (t : ℕ) (i : Ksk) (draws : ℕ → UInt8)
    (hd : EventuallyDiffer s.rxNonemptyBm draws) (budget : Budget)
    (ha : rcvSkbAccepted .plainTcp s i budget = true) :
    ∃ s₀, pullStart s t i = some (s₀, []) ∧
      (∃ s' n e, Alone draws budget t s₀ 0 s' n e ∧ s'.pull t = .idle) ∧
      ∀ s' n e, Alone draws budget t s₀ 0 s' n e → s'.pull t = .idle → PullResult s s' i draws e := by
  have hstart : pullStart s t i = some (s.setPull t (.own i), []) := by
    rw [pullStart, hidle.2 t]
    exact if_pos ⟨by rw [hall]; exact i.isLt, hcreated i⟩
  have hinv := queues_of_reach h
  have hex : ∃ s' n e, Alone draws budget t (s.setPull t (.own i)) 0 s' n e ∧ PullResult s s' i draws e := by
    by_cases hown : s.rxQ i = []
    · by_cases hsome : ∃ j, s.rxQ j ≠ []
      · exact exists_stolen hinv hidle ha hd hown hsome
      · exact exists_parked hinv (waiters_of_reach h) hidle
          (fun j => not_not.mp (fun hj => hsome ⟨j, hj⟩))
    · exact exists_own ((hidle.free hinv).1 i) hidle ha hown
  obtain ⟨s', n, e, hrun, hres⟩ := hex
  refine ⟨_, hstart, ⟨s', n, e, hrun, hres.quiescent.2 t⟩, fun s'' n' e' hrun' hend => ?_⟩
  obtain ⟨rfl, rfl⟩ := hrun.unique hrun' (hres.quiescent.2 t) hend
  exact hres

/-- All sockets are busy; two messages wait in queue 3 and one in queue 5. -/
def waitingActs : List Act :=
  busyActs ++ handTo 1 3 :: List.replicate 5 (.push 20 ample) ++ handTo 1 3 :: List.replicate 3 (.push 21 ample) ++
    handTo 1 5 :: List.replicate 5 (.push 22 ample)

/-- The first two bytes draw the same victim, all others the other one. -/
def waitingDraws (n : ℕ) : UInt8 := if n < 2 then 1 else 0

/-- What the run is asked about. -/
def waitingLook (s : State) : ((Bool × Bool) × List ℕ × List Ksk) × (List ℕ × ℕ × Bool) × Bool × Bool :=
  (look s, ((s.rxQ 3).map Skb.id, s.socksCnt, (List.finRange numRakaiaSockets).all (fun j => !s.creating j)),
    decide (pickRandomSetBit s.rxNonemptyBm (waitingDraws 2) ≠ pickRandomSetBit s.rxNonemptyBm (waitingDraws 0)),
    rcvSkbAccepted .plainTcp s 0 ample)

/-- Socket 0 pulls and steals. -/
theorem pull_alone_ends_waiting : ∃ s es, (machine .plainTcp).Reachable s es ∧ Quiescent s ∧ s.rxQ 0 = [] ∧
    s.rxQ 3 ≠ [] ∧ ∃ s₀ s' n e, pullStart s 0 0 = some (s₀, []) ∧ Alone waitingDraws ample 0 s₀ 0 s' n e ∧
      PullResult s s' 0 waitingDraws e := by
  obtain ⟨s, es, hr, hy⟩ := Machine.Reach.of_exec (M := machine .plainTcp)
    (G := fun _ a => a.onlyThread 0 = true) (g := fun _ a => a.onlyThread 0) waitingActs
    (fun _ _ _ h => h) (fun r => waitingLook r.1)
    (((true, true), [], []), ([20, 21], 20, true), true, true) (by decide +kernel)
  simp only [waitingLook, Prod.mk.injEq] at hy
  obtain ⟨hlook, ⟨h3, hcnt, hcreated⟩, hdiff, ha⟩ := hy
  have hq := quiescent_of_look (fun _ _ hg => hg) hr (by rw [hlook])
  have h0 : s.rxQ 0 = [] := by
    have := congrArg (fun x => x.2.1) hlook
    exact List.map_eq_nil_iff.mp this
  have hne : s.rxQ 3 ≠ [] := by
    intro hc
    rw [hc] at h3
    cases h3
  have hall : ∀ j, s.creating j = false := by
    intro j
    simpa using List.all_eq_true.mp hcreated j (List.mem_finRange j)
  have hd : EventuallyDiffer s.rxNonemptyBm waitingDraws := fun _ => ⟨1, of_decide_eq_true hdiff⟩
  obtain ⟨s₀, hstart, ⟨s', n, e, hrun, hend⟩, hres⟩ :=
    pull_alone_ends hr.reachable hcnt hall hq 0 0 waitingDraws hd ample ha
  exact ⟨s, es, hr.reachable, hq, h0, hne, s₀, s', n, e, hstart, hrun, hres s' n e hrun hend⟩

end Rakaia.Sched
