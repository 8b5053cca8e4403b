import Rakaia.H2.FlowControl

/-! # The WINDOW_UPDATE frames of a connection

Two things the protocol asks of the frames that `send_window_update` queues: an increment is between
`1` and `2 ^ 31 - 1`, and no credit is lost.

The counter `unacked` stays below a quarter of the window between two frames, whatever the allocations
do, so it never overflows (`Paced`).  A window of one, two or three bytes has the quarter zero, and then
an empty DATA frame is answered by an increment of zero (`updates_legal`).  And the counter is reset
also when `send_window_update` finds no memory; the credit is gone then, and no later frame brings it back
(`credit_kept`). -/

namespace Rakaia.H2

open Lib

/-! ### Between two frames -/

/-- `unacked` is in its range, and at rest it is zero or below a quarter of the window. -/
structure Paced (p : Psock) : Prop where
  window : 0 < p.recvConnWindow.toInt
  nonneg : 0 ≤ p.unacked.toInt
  below : p.unacked = 0 ∨ p.unacked.toInt < p.recvConnWindow.toInt / 4

/-- The WINDOW_UPDATE frames in the queue have increments that the protocol allows. -/
def Legal (p : Psock) : Prop :=
  ∀ c ∈ p.txWaitQueue, c.type = .windowUpdate → 1 ≤ c.increment ∧ c.increment ≤ 2 ^ 31 - 1

/-- The bookkeeping of the window is for frames of this type. -/
def Skb.booked (skb : Skb) : Bool := skb.type == .data || skb.type == .rstStream

section frames

variable {p : Psock} {skb : Skb} {alloc : Alloc}

theorem Paced.lt (h : Paced p) : p.unacked.toInt < 2 ^ 29 := by
  rcases h.below with h0 | hlt
  · rw [h0]
    decide
  · exact hlt.trans quarter_lt

theorem Paced.add_lt (h : Paced p) (hm : skb.Measured) : p.unacked.toInt + skb.payloadLen < 2 ^ 31 := by
  have hlt := h.lt
  have := hm.2
  unfold Skb.payloadLen
  omega

theorem Paced.congr {p' : Psock} (h : Paced p) (hw : p'.recvConnWindow = p.recvConnWindow)
    (hu : p'.unacked = p.unacked) : Paced p' where
  window := hw ▸ h.window
  nonneg := hu ▸ h.nonneg
  below := by rw [hw, hu]; exact h.below

/-- **The bookkeeping for one frame**, with the numbers of the mathematics. -/
theorem Paced.account_eq (h : Paced p) (hm : skb.Measured) (alloc : Alloc) :
    ∃ u : Int32, u.toInt = p.unacked.toInt + skb.payloadLen ∧
      p.account skb alloc = if p.recvConnWindow.toInt / 4 ≤ u.toInt
        then { p.queue (windowUpdateSkb u) alloc with unacked := 0 } else { p with unacked := u } :=
  H2.account_eq h.window h.nonneg h.lt hm alloc

theorem Paced.account (h : Paced p) (hm : skb.Measured) (alloc : Alloc) : Paced (p.account skb alloc) := by
  obtain ⟨u, hu, heq⟩ := h.account_eq hm alloc
  have h0 := h.nonneg
  rw [heq]
  split_ifs with hq
  · exact ⟨by rw [Psock.queue_recvConnWindow]; exact h.window, le_rfl, .inl rfl⟩
  · refine ⟨h.window, ?_, .inr ?_⟩
    · change 0 ≤ u.toInt
      omega
    · change u.toInt < p.recvConnWindow.toInt / 4
      omega

/-- **Pacing**: every frame of any type keeps `unacked` in its range. -/
theorem Paced.frame (h : Paced p) (hm : skb.Measured) (alloc : Alloc) : Paced (p.frame skb alloc) := by
  unfold Psock.frame
  cases skb.type with
  | data | rstStream => exact h.account hm alloc
  | ping => exact h.congr (by simp) (by simp)
  | windowUpdate =>
      obtain ⟨hw, hu, -⟩ := p.credited_fields skb.grant
      exact h.congr hw hu
  | settings =>
      dsimp only
      split_ifs
      · exact h.congr (by simp) (by simp)
      · exact h
  | headers | continuation | priority | pushPromise | goaway | unknown => exact h

/-- A frame that is not booked queues no WINDOW_UPDATE frame, and does not change what was counted. -/
theorem Psock.frame_of_not_booked (p : Psock) (hb : skb.booked = false) (alloc : Alloc) :
    (p.frame skb alloc).recvConnWindow = p.recvConnWindow ∧ (p.frame skb alloc).unacked = p.unacked ∧
    ∃ l, (p.frame skb alloc).txWaitQueue = p.txWaitQueue ++ l ∧ ∀ c ∈ l, c.type ≠ .windowUpdate := by
  unfold Skb.booked at hb
  unfold Psock.frame
  have hqueue : ∀ c : CtrlSkb, c.type ≠ .windowUpdate →
      ∃ l, (p.queue c alloc).txWaitQueue = p.txWaitQueue ++ l ∧ ∀ c ∈ l, c.type ≠ .windowUpdate := by
    intro c hc
    refine ⟨_, p.queue_txWaitQueue c alloc, fun d hd => ?_⟩
    split_ifs at hd
    · rw [List.mem_singleton.mp hd]
      exact hc
    · cases hd
  have hnone : ∃ l, p.txWaitQueue = p.txWaitQueue ++ l ∧ ∀ c ∈ l, c.type ≠ .windowUpdate :=
    ⟨[], (List.append_nil _).symm, by simp⟩
  cases ht : skb.type with
  | data | rstStream => rw [ht] at hb; cases hb
  | ping => exact ⟨by simp, by simp, hqueue _ (by simp)⟩
  | windowUpdate =>
      obtain ⟨hw, hu, hq⟩ := p.credited_fields skb.grant
      exact ⟨hw, hu, by rw [hq]; exact hnone⟩
  | settings =>
      dsimp only
      split_ifs
      · exact ⟨by simp, by simp, hqueue _ (by simp)⟩
      · exact ⟨rfl, rfl, hnone⟩
  | headers | continuation | priority | pushPromise | goaway | unknown => exact ⟨rfl, rfl, hnone⟩

theorem Psock.frame_of_booked (p : Psock) (hb : skb.booked = true) (alloc : Alloc) :
    p.frame skb alloc = p.account skb alloc := by
  unfold Skb.booked at hb
  unfold Psock.frame
  cases ht : skb.type <;> rw [ht] at hb <;> first | rfl | cases hb

theorem Psock.recvConnWindow_frame (p : Psock) (skb : Skb) (alloc : Alloc) :
    (p.frame skb alloc).recvConnWindow = p.recvConnWindow := by
  cases hb : skb.booked with
  | false => exact (p.frame_of_not_booked hb alloc).1
  | true =>
      rw [p.frame_of_booked hb, Psock.account]
      dsimp only
      split_ifs
      · exact p.queue_recvConnWindow _ alloc
      · rfl

/-! ### Legal increments -/

theorem legal_append {p' : Psock} {l : List CtrlSkb} (hl : Legal p)
    (hq : p'.txWaitQueue = p.txWaitQueue ++ l) :
    Legal p' ↔ ∀ c ∈ l, c.type = .windowUpdate → 1 ≤ c.increment ∧ c.increment ≤ 2 ^ 31 - 1 := by
  unfold Legal
  rw [hq, List.forall_mem_append]
  exact and_iff_right hl

/-- A window whose quarter is zero. -/
def Tiny (p : Psock) : Prop := p.recvConnWindow.toInt < 4

instance (p : Psock) : Decidable (Tiny p) := inferInstanceAs (Decidable (_ < _))

/-- **One frame**: it keeps the increments legal unless it is empty, booked, and answered under a window
whose quarter is zero. -/
theorem Paced.legal_frame_iff (h : Paced p) (hl : Legal p) (hm : skb.Measured) (alloc : Alloc) :
    Legal (p.frame skb alloc) ↔
      (Tiny p → skb.booked = true → alloc.ctrl = true → 0 < skb.payloadLen) := by
  cases hb : skb.booked with
  | false =>
      obtain ⟨-, -, l, hq, hother⟩ := p.frame_of_not_booked hb alloc
      rw [legal_append hl hq]
      exact iff_of_true (fun c hc ht => absurd ht (hother c hc)) (fun _ hn => by cases hn)
  | true =>
      rw [p.frame_of_booked hb]
      obtain ⟨u, hu, heq⟩ := h.account_eq hm alloc
      have h0 := h.nonneg
      have hw := h.window
      have hmax : u.toInt < 2 ^ 31 := u.toInt_lt
      unfold Tiny
      rw [heq]
      split_ifs with hq
      · have hq' : ({ p.queue (windowUpdateSkb u) alloc with unacked := 0 } : Psock).txWaitQueue =
            p.txWaitQueue ++ if alloc.ctrl then [windowUpdateSkb u] else [] := p.queue_txWaitQueue _ alloc
        rw [legal_append hl hq']
        cases alloc.ctrl with
        | false => exact iff_of_true (by simp) (fun _ _ hn => by cases hn)
        | true =>
            rw [if_pos rfl, List.forall_mem_singleton, increment_windowUpdateSkb (by omega)]
            constructor
            · intro hinc htiny _ _
              -- under such a window nothing is left over from earlier frames
              have hrest : p.unacked.toInt = 0 := by
                rcases h.below with hz | hlt
                · rw [hz]
                  rfl
                · omega
              have := (hinc rfl).1
              omega
            · intro hpay _
              by_cases htiny : p.recvConnWindow.toInt < 4
              · have := hpay htiny rfl rfl
                omega
              · omega
      · have hq' : ({ p with unacked := u } : Psock).txWaitQueue = p.txWaitQueue ++ [] :=
          (List.append_nil _).symm
        rw [legal_append hl hq']
        refine iff_of_true (by simp) (fun htiny _ _ => ?_)
        omega

/-! ### Credit -/

theorem credit_append_of_ne (q : List CtrlSkb) {l : List CtrlSkb} (h : ∀ c ∈ l, c.type ≠ .windowUpdate) :
    credit (q ++ l) = credit q := by
  have hl : (l.map CtrlSkb.increment).sum = 0 := by
    refine List.sum_eq_zero (fun x hx => ?_)
    obtain ⟨c, hc, rfl⟩ := List.mem_map.mp hx
    exact increment_eq_zero (h c hc)
  rw [credit, List.map_append, List.sum_append, hl, add_zero]
  rfl

/-- The update for a DATA frame that reaches the quarter of the window can be allocated, or is an update
of nothing. -/
def Repays (p : Psock) (skb : Skb) (alloc : Alloc) : Prop :=
  skb.type = .data → p.recvConnWindow.toInt / 4 ≤ p.unacked.toInt + skb.payloadLen →
    alloc.ctrl = true ∨ p.unacked.toInt + skb.payloadLen = 0

instance (p : Psock) (skb : Skb) (alloc : Alloc) : Decidable (Repays p skb alloc) :=
  inferInstanceAs (Decidable (_ → _))

/-- The bytes of a frame, if it is a DATA frame. -/
def Skb.dataLen (skb : Skb) : ℕ := if skb.type = .data then skb.payloadLen else 0

/-- **One frame**: its bytes are added to the books unless the update for them cannot be allocated. -/
theorem Paced.books_frame_iff (h : Paced p) (hm : skb.Measured) (hr : skb.type ≠ .rstStream)
    (alloc : Alloc) :
    credit (p.frame skb alloc).txWaitQueue + (p.frame skb alloc).unacked.toInt =
      credit p.txWaitQueue + p.unacked.toInt + skb.dataLen ↔ Repays p skb alloc := by
  unfold Repays Skb.dataLen
  by_cases hd : skb.type = .data
  · have hb : skb.booked = true := by rw [Skb.booked, hd]; rfl
    obtain ⟨u, hu, heq⟩ := h.account_eq hm alloc
    have h0 := h.nonneg
    rw [p.frame_of_booked hb, heq, if_pos hd, ← hu]
    split_ifs with hq
    · -- the counter is reset; what was queued decides
      have hcredit := p.credit_queue (windowUpdateSkb u) alloc
      rw [increment_windowUpdateSkb (by omega)] at hcredit
      have hzero : (0 : Int32).toInt = 0 := rfl
      rw [hzero, hcredit]
      cases alloc.ctrl with
      | false =>
          rw [if_neg Bool.false_ne_true]
          constructor
          · exact fun hsum _ _ => .inr (by omega)
          · intro hrep
            rcases hrep hd hq with hn | hz
            · cases hn
            · omega
      | true =>
          rw [if_pos rfl]
          exact iff_of_true (by omega) (fun _ _ => .inl rfl)
    · refine iff_of_true ?_ (fun _ hn => absurd hn hq)
      change credit p.txWaitQueue + u.toInt = _
      omega
  · have hb : skb.booked = false := by
      rw [Skb.booked, beq_eq_false_iff_ne.mpr hd, beq_eq_false_iff_ne.mpr hr]
      rfl
    obtain ⟨-, hu, l, hq, hother⟩ := p.frame_of_not_booked hb alloc
    rw [hu, hq, credit_append_of_ne _ hother, if_neg hd]
    exact iff_of_true (by simp) (fun hn => absurd hn hd)

end frames

/-! ### Runs -/

section runs

variable {hash : ℕ → Fin streamHashSize} {heap : ℕ → Skb} {addr : PsockPtr} {w : Int32} {s : State}
  {es : List Event}

/-- The frames come from the parser, and none that is empty and booked is answered on a connection
attached with a window of one, two or three bytes. -/
def Worth (w : Int32) (_ : State) : Act → Prop
  | .frame skb alloc => skb.Measured ∧
      (1 ≤ w.toInt ∧ w.toInt ≤ 3 → skb.booked = true → alloc.ctrl = true → 0 < skb.payloadLen)
  | .recvmsg .. => True

theorem tiny_attach_iff (addr : PsockPtr) (w : Int32) :
    Tiny (attach addr w) ↔ 1 ≤ w.toInt ∧ w.toInt ≤ 3 := by
  have hzero : (0 : Int32).toInt = 0 := rfl
  have hdefault : initialWindowSize.toInt = 126553500 := rfl
  unfold Tiny attach
  dsimp only
  split_ifs with hw
  · rw [Int32.lt_iff_toInt_lt, hzero] at hw
    omega
  · rw [Int32.lt_iff_toInt_lt, hzero] at hw
    omega

theorem paced_attach (addr : PsockPtr) (w : Int32) : Paced (attach addr w) :=
  ⟨attach_window_pos addr w, le_rfl, .inl rfl⟩

/-- The window is the one the connection was attached with. -/
theorem recvConnWindow_of_reach {G : State → Act → Prop} {psock : Psock}
    (h : (machine hash heap psock).Reach G s es) : s.psock.recvConnWindow = psock.recvConnWindow := by
  refine h.invariant (P := fun s _ => s.psock.recvConnWindow = psock.recvConnWindow) rfl ?_
  intro s es a s' e _ ih _ hs
  rw [step_psock hs]
  cases a with
  | frame skb alloc => exact (s.psock.recvConnWindow_frame skb alloc).trans ih
  | recvmsg => exact ih

/-- Whatever the allocations do, `unacked` stays in its range. -/
theorem paced_of_reach {G : State → Act → Prop}
    (hG : ∀ s skb alloc, G s (.frame skb alloc) → skb.Measured)
    (h : (machine hash heap (attach addr w)).Reach G s es) : Paced s.psock := by
  refine h.invariant (P := fun s _ => Paced s.psock) (paced_attach addr w) ?_
  intro s es a s' e _ ih hg hs
  rw [step_psock hs]
  cases a with
  | frame skb alloc => exact ih.frame (hG s skb alloc hg) alloc
  | recvmsg => exact ih

theorem worth_measured (w : Int32) (s : State) (skb : Skb) (alloc : Alloc)
    (h : Worth w s (.frame skb alloc)) : skb.Measured := h.1

theorem tiny_of_reach {G : State → Act → Prop} (h : (machine hash heap (attach addr w)).Reach G s es) :
    Tiny s.psock ↔ 1 ≤ w.toInt ∧ w.toInt ≤ 3 := by
  rw [← tiny_attach_iff addr w, Tiny, recvConnWindow_of_reach h]
  rfl

theorem legal_of_reach (h : (machine hash heap (attach addr w)).Reach (Worth w) s es) : Legal s.psock := by
  refine h.invariant (P := fun s _ => Legal s.psock) (by intro c hc; cases hc) ?_
  intro s es a s' e hr ih hg hs
  rw [step_psock hs]
  cases a with
  | frame skb alloc =>
      refine ((paced_of_reach (worth_measured w) hr).legal_frame_iff ih hg.1 alloc).mpr ?_
      rw [tiny_of_reach hr]
      exact hg.2
  | recvmsg => exact ih

theorem received_frame {s s' : State} {skb : Skb} {alloc : Alloc} {e : List Event}
    (hs : step hash s (.frame skb alloc) = some (s', e)) (es : List Event) :
    received .data (es ++ e) = received .data es + skb.dataLen := by
  rw [received, frames_append, (step_frames hs).1, List.filter_append, List.map_append, List.sum_append]
  refine congrArg (received .data es + ·) ?_
  unfold Act.frames Skb.dataLen
  by_cases hd : skb.type = .data <;> simp [hd]

theorem balanced_frame_iff {s s' : State} {skb : Skb} {alloc : Alloc} {e : List Event}
    (hp : Paced s.psock) (hb : Balanced s es) (hm : skb.Measured) (hr : skb.type ≠ .rstStream)
    (hs : step hash s (.frame skb alloc) = some (s', e)) :
    Balanced s' (es ++ e) ↔ Repays s.psock skb alloc := by
  rw [← hp.books_frame_iff hm hr alloc, Balanced, received_frame hs, step_psock hs, Nat.cast_add, ← hb]
  rfl

/-- The frames come from the parser, none is a RST_STREAM frame, and when a DATA frame reaches the
quarter of the window the update can be allocated. -/
def Repaid (s : State) : Act → Prop
  | .frame skb alloc => skb.Measured ∧ skb.type ≠ .rstStream ∧ Repays s.psock skb alloc
  | .recvmsg .. => True

instance (s : State) : DecidablePred (Repaid s)
  | .frame _ _ => inferInstanceAs (Decidable (_ ∧ _))
  | .recvmsg .. => .isTrue trivial

theorem repaid_measured (s : State) (skb : Skb) (alloc : Alloc) (h : Repaid s (.frame skb alloc)) :
    skb.Measured := h.1

theorem balanced_of_reach (h : (machine hash heap (attach addr w)).Reach Repaid s es) : Balanced s es := by
  refine h.invariant (P := Balanced) (by exact rfl) ?_
  intro s es a s' e hr ih hg hs
  replace hs : step hash s a = some (s', e) := hs
  cases a with
  | frame skb alloc =>
      exact (balanced_frame_iff (paced_of_reach repaid_measured hr) ih hg.1 hg.2.1 hs).mpr hg.2.2
  | recvmsg head len mapped dgram =>
      rw [Balanced, step_psock hs, received, frames_append, (step_frames hs).1, Act.frames, List.append_nil]
      exact ih

/-! ### The main results -/

/-- **Legal and timely updates.**  In every run on frames from the parser, whatever the allocations do,
on a connection attached with any initial window, in which no empty DATA or RST_STREAM frame is answered
under a window of one, two or three bytes: the increments queued are between `1` and `2 ^ 31 - 1`;
`unacked` is not negative, and zero or below a quarter of the window; adding the next frame to it does
not overflow; and the next frame keeps the increments legal if and only if it meets the condition. -/
theorem updates_legal (h : (machine hash heap (attach addr w)).Reach (Worth w) s es) :
    (∀ c ∈ s.psock.txWaitQueue, c.type = .windowUpdate → 1 ≤ c.increment ∧ c.increment ≤ 2 ^ 31 - 1) ∧
    0 ≤ s.psock.unacked.toInt ∧
    (s.psock.unacked = 0 ∨ s.psock.unacked.toInt < s.psock.recvConnWindow.toInt / 4) ∧
    (∀ skb : Skb, skb.Measured → s.psock.unacked.toInt + skb.payloadLen < 2 ^ 31) ∧
    ∀ skb alloc s' e, skb.Measured → step hash s (.frame skb alloc) = some (s', e) →
      (Legal s'.psock ↔ Worth w s (.frame skb alloc)) := by
  have hp := paced_of_reach (worth_measured w) h
  have hl := legal_of_reach h
  refine ⟨hl, hp.nonneg, hp.below, fun skb hm => hp.add_lt hm, ?_⟩
  intro skb alloc s' e hm hs
  rw [step_psock hs]
  have hiff := hp.legal_frame_iff hl hm alloc
  rw [tiny_of_reach h] at hiff
  exact hiff.trans (and_iff_right hm).symm

instance (w : Int32) (s : State) : DecidablePred (Worth w s)
  | .frame _ _ => inferInstanceAs (Decidable (_ ∧ _))
  | .recvmsg .. => .isTrue trivial

/-- A window of 2000 bytes: empty frames are counted, and the update for 500 bytes is legal. -/
theorem updates_legal_credited : ∃ s es,
    (machine (fun _ => 0) (fun _ => frameSkb 0 0 0 []) (attach 0 2000)).Reach (Worth 2000) s es ∧
    s.psock.txWaitQueue.map CtrlSkb.increment = [500] ∧ s.psock.unacked = 0 ∧ Legal s.psock := by
  obtain ⟨s, es, hr, hy⟩ := Machine.Reach.of_exec
    (M := machine (fun _ => 0) (fun _ => frameSkb 0 0 0 []) (attach 0 2000))
    (G := Worth 2000) (g := fun s a => decide (Worth 2000 s a))
    [.frame (frameSkb 0 0 1 []) granted, .frame (frameSkb 0 0 1 (List.replicate 300 7)) granted,
      .frame (frameSkb 0 1 1 (List.replicate 200 8)) granted, .frame (frameSkb 0 1 3 []) granted]
    (fun _ _ _ => of_decide_eq_true)
    (fun r => (r.1.psock.txWaitQueue.map CtrlSkb.increment, r.1.psock.unacked)) ([500], 0)
    (by decide +kernel)
  obtain ⟨hq, hu⟩ := Prod.mk.inj hy
  exact ⟨s, es, hr, hq, hu, (updates_legal hr).1⟩

/-- Under a window of two bytes an empty DATA frame is answered by an increment of zero. -/
theorem update_of_zero : ∃ s es,
    (machine (fun _ => 0) (fun _ => frameSkb 0 0 0 []) (attach 0 2)).Reach Metered s es ∧
    (frames es).map (fun f => (f.2.type, f.2.payloadLen)) = [(.data, 0)] ∧
    s.psock.txWaitQueue.map CtrlSkb.type = [.windowUpdate] ∧
    s.psock.txWaitQueue.map CtrlSkb.increment = [0] ∧ ¬ Legal s.psock := by
  obtain ⟨s, es, hr, hy⟩ := Machine.Reach.of_exec
    (M := machine (fun _ => 0) (fun _ => frameSkb 0 0 0 []) (attach 0 2))
    (G := Metered) (g := fun s a => decide (Metered s a)) [.frame (frameSkb 0 1 1 []) granted]
    (fun _ _ _ => of_decide_eq_true)
    (fun r => ((frames r.2).map (fun f => (f.2.type, f.2.payloadLen)), r.1.psock.txWaitQueue))
    ([(.data, 0)], [windowUpdateSkb 0]) (by decide +kernel)
  obtain ⟨hf, hq⟩ := Prod.mk.inj hy
  refine ⟨s, es, hr, hf, by rw [hq]; rfl, by rw [hq]; rfl, fun hl => ?_⟩
  have hinc := (hl (windowUpdateSkb 0) (by rw [hq]; exact List.mem_singleton_self _) rfl).1
  exact absurd hinc (by decide)

/-- **Credit is kept.**  In every run on frames from the parser, on a connection attached with any initial
window, in which the update can be allocated whenever a DATA frame reaches the quarter of the window: the
increments queued and `unacked` add up to the payload of the DATA frames received; and the next DATA frame
keeps it so if and only if it meets the condition. -/
theorem credit_kept (h : (machine hash heap (attach addr w)).Reach Repaid s es) :
    credit s.psock.txWaitQueue + s.psock.unacked.toInt = received .data es ∧
    ∀ skb alloc s' e, skb.Measured → skb.type = .data → step hash s (.frame skb alloc) = some (s', e) →
      (credit s'.psock.txWaitQueue + s'.psock.unacked.toInt = received .data (es ++ e) ↔
        Repays s.psock skb alloc) := by
  refine ⟨balanced_of_reach h, ?_⟩
  intro skb alloc s' e hm hd hs
  exact balanced_frame_iff (paced_of_reach repaid_measured h) (balanced_of_reach h) hm
    (by rw [hd]; decide) hs

/-- Memory for streams, but not for control frames. -/
def pressed : Alloc := ⟨true, false, []⟩

/-- Without memory below the threshold nothing is lost: the update comes with the next frame. -/
theorem credit_kept_pressed : ∃ s es,
    (machine (fun _ => 0) (fun _ => frameSkb 0 0 0 []) (attach 0 2000)).Reach Repaid s es ∧
    credit s.psock.txWaitQueue = 500 ∧ received .data es = 500 ∧
    credit s.psock.txWaitQueue + s.psock.unacked.toInt = received .data es := by
  obtain ⟨s, es, hr, hy⟩ := Machine.Reach.of_exec
    (M := machine (fun _ => 0) (fun _ => frameSkb 0 0 0 []) (attach 0 2000))
    (G := Repaid) (g := fun s a => decide (Repaid s a))
    [.frame (frameSkb 0 0 1 (List.replicate 300 7)) pressed,
      .frame (frameSkb 0 1 1 (List.replicate 200 8)) granted]
    (fun _ _ _ => of_decide_eq_true)
    (fun r => (credit r.1.psock.txWaitQueue, received .data r.2)) (500, 500) (by decide +kernel)
  obtain ⟨hc, hd⟩ := Prod.mk.inj hy
  exact ⟨s, es, hr, hc, hd, (credit_kept hr).1⟩

/-- A DATA frame of 500 bytes without memory for the update: the credit is gone, and the update for the
next 500 bytes does not bring it back. -/
theorem credit_lost : ∃ s es,
    (machine (fun _ => 0) (fun _ => frameSkb 0 0 0 []) (attach 0 2000)).Reachable s es ∧
    (frames es).map (fun f => (f.2.type, f.2.payloadLen)) = [(.data, 500), (.data, 500)] ∧
    credit s.psock.txWaitQueue = 500 ∧ s.psock.unacked = 0 ∧ received .data es = 1000 ∧
    credit s.psock.txWaitQueue + s.psock.unacked.toInt ≠ received .data es := by
  obtain ⟨s, es, hr, hy⟩ := Machine.Reach.of_exec
    (M := machine (fun _ => 0) (fun _ => frameSkb 0 0 0 []) (attach 0 2000))
    (G := fun _ _ => True) (g := fun _ _ => true)
    [.frame (frameSkb 0 0 1 (List.replicate 500 7)) pressed,
      .frame (frameSkb 0 1 1 (List.replicate 500 8)) granted]
    (fun _ _ _ _ => trivial)
    (fun r => ((frames r.2).map (fun f => (f.2.type, f.2.payloadLen)), credit r.1.psock.txWaitQueue,
      r.1.psock.unacked, received .data r.2)) ([(.data, 500), (.data, 500)], 500, 0, 1000) (by decide +kernel)
  simp only [Prod.mk.injEq] at hy
  obtain ⟨hf, hc, hu, hd⟩ := hy
  refine ⟨s, es, hr, hf, hc, hu, hd, ?_⟩
  rw [hc, hu, hd]
  decide

end runs

end Rakaia.H2
