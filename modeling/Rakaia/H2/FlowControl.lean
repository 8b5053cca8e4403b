import Mathlib.Algebra.Order.BigOperators.Group.List
import Rakaia.H2.Psock
import Rakaia.Strp.Http2

/-! # The connection window

`rakaia_attach` sets the size of the connection window; the receive path counts bytes in
`psock->unacked` and gives them back to the peer in a WINDOW_UPDATE frame when they reach a quarter of
the window.  The control frames on `tx_wait_queue` are never taken away in this model, so that the
queue is also the record of the credit given so far.

The switch of `handle_h2_frame` runs from RST_STREAM into DATA: the four bytes of a RST_STREAM frame
are counted as well, although they were never taken from the window.  The books are balanced with
respect to both types (`funded_of_reach`), hence with respect to DATA only as long as no RST_STREAM
frame with a payload has arrived. -/

namespace Rakaia.H2

open Lib

/-! ### The window of a connection -/

/-- `INITIAL_WINDOW_SIZE`. -/
def initialWindowSize : Int32 := 126553500

/-- `HTTP2_DEFAULT_CONNECTION_WINDOW`. -/
def http2DefaultConnectionWindow : Int32 := 65535

/-- The fields of the psock that `rakaia_attach` sets. -/
def attach (addr : PsockPtr) (initialConnWindow : Int32) : Psock where
  addr := addr
  recvConnWindow := if 0 < initialConnWindow then initialConnWindow else initialWindowSize
  unacked := 0
  sendQuota := http2DefaultConnectionWindow
  flowStalled := false
  txWaitQueue := []
  txWork := false

theorem attach_window_pos (addr : PsockPtr) (w : Int32) : 0 < (attach addr w).recvConnWindow.toInt := by
  unfold attach
  dsimp only
  split_ifs with h
  · exact Int32.lt_iff_toInt_lt.mp h
  · decide

/-- The increment of a control frame, if it is a WINDOW_UPDATE frame. -/
def CtrlSkb.increment (c : CtrlSkb) : ℤ :=
  match FrameType.ofByte (c.bytes.getD 3 0) with
  | .windowUpdate => (windowIncrement (c.bytes.drop 9)).toInt
  | _ => 0

/-- The sum of the increments of the WINDOW_UPDATE frames in a queue. -/
def credit (q : List CtrlSkb) : ℤ := (q.map CtrlSkb.increment).sum

theorem credit_append (q : List CtrlSkb) (c : CtrlSkb) : credit (q ++ [c]) = credit q + c.increment := by
  simp [credit]

/-- The length of the payload of a frame. -/
def Skb.payloadLen (skb : Skb) : ℕ := skb.cb.fullLen - 9

/-- The bytes of payload received in frames of a type. -/
def received (t : FrameType) (es : List Event) : ℕ :=
  (((frames es).filter (fun f => f.2.type = t)).map (fun f => f.2.payloadLen)).sum

/-- **The ledger of the connection window**: what was given back and what waits to be given back is
what the DATA frames brought. -/
def Balanced (s : State) (es : List Event) : Prop :=
  credit s.psock.txWaitQueue + s.psock.unacked.toInt = received .data es

/-! ### The increment on the wire -/

/-- The increment is the number in the four bytes without their first bit. -/
theorem toInt_windowIncrement (p : List UInt8) : (windowIncrement p).toInt =
    (beNum [p.getD 0 0, p.getD 1 0, p.getD 2 0, p.getD 3 0] % 2 ^ 31 : ℕ) := by
  have hnat : ∀ u : UInt32, (u &&& 0x7fffffff).toNat = u.toNat % 2 ^ 31 := by
    intro u
    rw [UInt32.toNat_and]
    exact Nat.and_two_pow_sub_one_eq_mod _ 31
  have hlt := Nat.mod_lt (beNum [p.getD 0 0, p.getD 1 0, p.getD 2 0, p.getD 3 0]) (Nat.two_pow_pos 31)
  have hsmall : ∀ u : UInt32, u.toNat < 2 ^ 31 → u.toInt32.toInt = u.toNat :=
    fun u hu => BitVec.toInt_eq_toNat_of_lt (by change 2 * u.toNat < 2 ^ 32; omega)
  rw [← toNat_be32, ← hnat] at hlt ⊢
  exact hsmall _ hlt

/-- An increment that is not negative is read back from the bytes of its frame. -/
theorem windowIncrement_bytes {inc : Int32} (h : 0 ≤ inc.toInt) :
    windowIncrement [((inc.toUInt32 >>> 24) &&& 0x7f).toUInt8, ((inc.toUInt32 >>> 16) &&& 0xff).toUInt8,
      ((inc.toUInt32 >>> 8) &&& 0xff).toUInt8, (inc.toUInt32 &&& 0xff).toUInt8] = inc := by
  have hval : inc.toInt = (inc.toUInt32.toNat : ℤ) ∧ inc.toUInt32.toNat < 2 ^ 31 := by
    have hlt := inc.toBitVec.isLt
    rw [← Int32.toInt_toBitVec, BitVec.toInt_eq_toNat_cond] at h ⊢
    change _ = (inc.toBitVec.toNat : ℤ) ∧ inc.toBitVec.toNat < _
    split_ifs at h ⊢ <;> omega
  obtain ⟨hnat, hlt⟩ := hval
  generalize inc.toUInt32 = u at *
  have h₀ := toNat_shift_mask u (s := 0) (m := 0xff) (i := 0) (k := 8) rfl (by decide) rfl le_rfl
  have h₁ := toNat_shift_mask u (s := 8) (m := 0xff) (i := 8) (k := 8) rfl (by decide) rfl le_rfl
  have h₂ := toNat_shift_mask u (s := 16) (m := 0xff) (i := 16) (k := 8) rfl (by decide) rfl le_rfl
  have h₃ := toNat_shift_mask u (s := 24) (m := 0x7f) (i := 24) (k := 7) rfl (by decide) rfl (by decide)
  rw [UInt32.shiftRight_zero] at h₀
  apply Int32.toInt.inj
  rw [toInt_windowIncrement, hnat, List.getD_cons_zero, List.getD_cons_succ, List.getD_cons_zero,
    List.getD_cons_succ, List.getD_cons_succ, List.getD_cons_zero, List.getD_cons_succ,
    List.getD_cons_succ, List.getD_cons_succ, List.getD_cons_zero]
  simp only [beNum, List.foldl_cons, List.foldl_nil, h₀, h₁, h₂, h₃]
  omega

/-- What the WINDOW_UPDATE frame for an amount gives back is that amount. -/
theorem increment_windowUpdateSkb {inc : Int32} (h : 0 ≤ inc.toInt) :
    (windowUpdateSkb inc).increment = inc.toInt := congrArg Int32.toInt (windowIncrement_bytes h)

/-- A control frame of another type gives no credit. -/
theorem increment_eq_zero {c : CtrlSkb} (h : c.type ≠ .windowUpdate) : c.increment = 0 := by
  unfold CtrlSkb.increment
  split
  · next ht => exact absurd ht h
  · rfl

theorem Psock.credit_queue (p : Psock) (c : CtrlSkb) (alloc : Alloc) :
    credit (p.queue c alloc).txWaitQueue = credit p.txWaitQueue + if alloc.ctrl then c.increment else 0 := by
  rw [Psock.queue_txWaitQueue]
  split_ifs
  · exact credit_append _ c
  · rw [List.append_nil, add_zero]

/-! ### One frame -/

/-- `Funded p n`: the books of the psock account for `n` bytes, and another frame fits in
`unacked`. -/
structure Funded (p : Psock) (n : ℕ) : Prop where
  window : 0 < p.recvConnWindow.toInt
  nonneg : 0 ≤ p.unacked.toInt
  lt : p.unacked.toInt < 2 ^ 29
  total : credit p.txWaitQueue + p.unacked.toInt = n

section frames

variable {p p' : Psock} {n : ℕ}

theorem Funded.congr (h : Funded p n) (hw : p'.recvConnWindow = p.recvConnWindow)
    (hu : p'.unacked = p.unacked) (hc : credit p'.txWaitQueue = credit p.txWaitQueue) : Funded p' n where
  window := hw ▸ h.window
  nonneg := hu ▸ h.nonneg
  lt := hu ▸ h.lt
  total := by rw [hc, hu]; exact h.total

theorem Funded.queue (h : Funded p n) {c : CtrlSkb} (hc : c.type ≠ .windowUpdate) (alloc : Alloc) :
    Funded (p.queue c alloc) n := by
  refine h.congr (p.queue_recvConnWindow c alloc) (p.queue_unacked c alloc) ?_
  rw [Psock.credit_queue, increment_eq_zero hc, ite_self, add_zero]

/-- The length of a frame, from the 24 bits in its header. -/
def Skb.Measured (skb : Skb) : Prop := 9 ≤ skb.cb.fullLen ∧ skb.cb.fullLen < 2 ^ 24 + 9

/-- The number that the code adds to `unacked` is the length of the payload. -/
theorem Skb.Measured.toInt_payload {skb : Skb} (h : skb.Measured) :
    (Int32.ofNat skb.cb.fullLen - 9).toInt = skb.payloadLen := by
  obtain ⟨hle, hlt⟩ := h
  have hlen : (Int32.ofNat skb.cb.fullLen).toInt = skb.cb.fullLen :=
    Int32.toInt_ofNat_of_lt (by omega)
  have h9 : (9 : Int32).toInt = 9 := rfl
  rw [Int32.toInt_sub, hlen, h9, Int.bmod_eq_of_le (by omega) (by omega), Skb.payloadLen]
  omega

/-- The threshold of the code is a quarter of the window, rounded down. -/
theorem toInt_quarter {w : Int32} (hw : 0 < w.toInt) : (w / 4).toInt = w.toInt / 4 := by
  rw [Int32.toInt_div_of_ne_right _ _ (by decide)]
  exact Int.tdiv_eq_ediv_of_nonneg hw.le

theorem quarter_lt {w : Int32} : w.toInt / 4 < 2 ^ 29 := by
  have hmax : w.toInt < 2 ^ 31 := w.toInt_lt
  omega

/-- **One DATA or RST_STREAM frame**: the length of its payload is added to `unacked`, without overflow,
and at a quarter of the window the amount is given back. -/
theorem account_eq (hw : 0 < p.recvConnWindow.toInt) (h0 : 0 ≤ p.unacked.toInt)
    (hlt : p.unacked.toInt < 2 ^ 29) {skb : Skb} (hm : skb.Measured) (alloc : Alloc) :
    ∃ u : Int32, u.toInt = p.unacked.toInt + skb.payloadLen ∧
      p.account skb alloc = if p.recvConnWindow.toInt / 4 ≤ u.toInt
        then { p.queue (windowUpdateSkb u) alloc with unacked := 0 } else { p with unacked := u } := by
  refine ⟨p.unacked + (Int32.ofNat skb.cb.fullLen - 9), ?_, ?_⟩
  · have hpay : skb.payloadLen < 2 ^ 24 := by
      have := hm.2
      unfold Skb.payloadLen
      omega
    rw [Int32.toInt_add, hm.toInt_payload]
    exact Int.bmod_eq_of_le (by omega) (by omega)
  · rw [Psock.account]
    refine if_congr ?_ rfl rfl
    rw [Int32.le_iff_toInt_le, toInt_quarter hw]

theorem Funded.account (h : Funded p n) {skb : Skb} {alloc : Alloc} (hm : skb.Measured)
    (hal : alloc.ctrl = true) : Funded (p.account skb alloc) (n + skb.payloadLen) := by
  obtain ⟨hw, h0, hlt, htot⟩ := h
  obtain ⟨u, hu, heq⟩ := account_eq hw h0 hlt hm alloc
  rw [heq]
  split_ifs with hq
  · -- the credit is given back, and counting starts again
    have hcredit := p.credit_queue (windowUpdateSkb u) alloc
    rw [if_pos hal, increment_windowUpdateSkb (by omega)] at hcredit
    have hzero : (0 : Int32).toInt = 0 := rfl
    refine ⟨by rw [Psock.queue_recvConnWindow]; exact hw, hzero.ge, by rw [hzero]; decide, ?_⟩
    rw [hzero, hcredit]
    omega
  · -- below a quarter of the window
    have hquarter := quarter_lt (w := p.recvConnWindow)
    refine ⟨hw, ?_, ?_, ?_⟩
    · change 0 ≤ u.toInt
      omega
    · change u.toInt < 2 ^ 29
      omega
    · change credit p.txWaitQueue + u.toInt = _
      omega

/-- The bytes of a frame that `handle_h2_frame` counts. -/
def Skb.counted (skb : Skb) : ℕ :=
  match skb.type with
  | .data | .rstStream => skb.payloadLen
  | _ => 0

/-- **One frame**: DATA and RST_STREAM are counted, other types leave the books alone. -/
theorem Funded.frame (h : Funded p n) {skb : Skb} {alloc : Alloc} (hm : skb.Measured)
    (hal : alloc.ctrl = true) : Funded (p.frame skb alloc) (n + skb.counted) := by
  unfold Psock.frame Skb.counted
  cases skb.type with
  | data | rstStream => exact h.account hm hal
  | ping => exact h.queue (by simp) alloc
  | windowUpdate =>
      obtain ⟨hw, hu, hq⟩ := p.credited_fields skb.grant
      exact h.congr hw hu (congrArg credit hq)
  | settings =>
      dsimp only
      split_ifs
      · exact h.queue (by simp) alloc
      · exact h
  | headers | continuation | priority | pushPromise | goaway | unknown => exact h

end frames

/-! ### Runs -/

section runs

variable {hash : ℕ → Fin streamHashSize} {heap : ℕ → Skb} {addr : PsockPtr} {w : Int32} {s : State}
  {es : List Event}

/-- The frames come from the parser, and control frames can be allocated. -/
def Metered (_ : State) : Act → Prop
  | .frame skb alloc => skb.Measured ∧ alloc.ctrl = true
  | .recvmsg .. => True

instance (skb : Skb) : Decidable skb.Measured := inferInstanceAs (Decidable (_ ∧ _))

instance (s : State) : DecidablePred (Metered s)
  | .frame _ _ => inferInstanceAs (Decidable (_ ∧ _))
  | .recvmsg .. => .isTrue trivial

/-- What the parser hands to `handle_h2_frame` is measured. -/
theorem measured_of_parse {stm stm' : Strp.Stm Strp.Http2.FrameInfo} {buf : SkBuff} 
    (h : Strp.Http2.parseMsgHttp2 stm buf = some stm') : 9 ≤ stm'.fullLen ∧ stm'.fullLen < 2 ^ 24 + 9 := by
  obtain ⟨hdr, -, rfl⟩ := Option.map_eq_some_iff.mp h
  have hlt : beNum [hdr.getD 0 0, hdr.getD 1 0, hdr.getD 2 0] < 256 ^ 3 := beNum_lt _
  dsimp only
  rw [UInt32.toNat_add, toNat_be24, Nat.mod_eq_of_lt (by change _ + 9 < _; omega)]
  change 9 ≤ _ + 9 ∧ _ + 9 < _
  omega

theorem counted_eq (es : List Event) : ((frames es).map (fun f => f.2.counted)).sum =
    received .data es + received .rstStream es := by
  unfold received
  induction frames es with
  | nil => rfl
  | cons f l ih =>
      rw [List.map_cons, List.sum_cons, ih]
      cases ht : f.2.type <;> simp [Skb.counted, ht] <;> omega

/-- **The books of a run** account for all DATA and RST_STREAM frames. -/
theorem funded_of_reach (h : (machine hash heap (attach addr w)).Reach Metered s es) :
    Funded s.psock (received .data es + received .rstStream es) := by
  rw [← counted_eq]
  refine h.invariant (P := fun s es => Funded s.psock ((frames es).map (fun f => f.2.counted)).sum) ?_ ?_
  · exact ⟨attach_window_pos addr w, le_rfl, Int.pow_pos (by decide), rfl⟩
  · intro s es a s' e _ ih hg hs
    rw [frames_append, (step_frames hs).1, List.map_append, List.sum_append]
    rw [step_psock hs]
    cases a with
    | frame skb alloc => exact ih.frame hg.1 hg.2
    | recvmsg head len mapped dgram => exact ih

theorem received_eq_zero_iff (t : FrameType) (es : List Event) : received t es = 0 ↔
    ∀ f ∈ frames es, f.2.type = t → f.2.payloadLen = 0 := by
  rw [received, List.sum_eq_zero_iff, List.forall_mem_map]
  simp [List.mem_filter]

/-! ### The main result -/

/-- A HEADERS frame, a DATA frame of 300 bytes and a second one that reaches the quarter of a window of
2000 bytes. -/
def creditedActs : List Act :=
  [.frame (frameSkb 1 4 1 [11]) granted, .frame (frameSkb 0 0 1 (List.replicate 300 7)) granted,
    .frame (frameSkb 0 1 1 (List.replicate 200 8)) granted, .frame (frameSkb 0 1 3 [9]) granted]

/-- **The ledger of the connection window.**  In every run on frames from the parser, with control
frames allocated, on a connection attached with any initial window: the increments sent so far and
`unacked` add up to the payload of the DATA frames received if and only if no RST_STREAM frame with a
payload was received. -/
theorem ledger_balanced_iff (h : (machine hash heap (attach addr w)).Reach Metered s es) :
    Balanced s es ↔ ∀ f ∈ frames es, f.2.type = .rstStream → f.2.payloadLen = 0 := by
  have htot := (funded_of_reach h).total
  rw [← received_eq_zero_iff, Balanced]
  omega

/-- After 501 bytes of DATA the peer has got back 500 of them, and one waits. -/
theorem ledger_balanced_credited : ∃ s es,
    (machine (fun _ => 0) (fun _ => frameSkb 0 0 0 []) (attach 0 2000)).Reach Metered s es ∧
    credit s.psock.txWaitQueue = 500 ∧ s.psock.unacked = 1 ∧ received .data es = 501 ∧ Balanced s es := by
  obtain ⟨s, es, hr, hy⟩ := Machine.Reach.of_exec
    (M := machine (fun _ => 0) (fun _ => frameSkb 0 0 0 []) (attach 0 2000))
    (G := Metered) (g := fun s a => decide (Metered s a)) creditedActs (fun _ _ _ => of_decide_eq_true)
    (fun r => (credit r.1.psock.txWaitQueue, r.1.psock.unacked, received .data r.2, received .rstStream r.2))
    (500, 1, 501, 0) (by decide +kernel)
  simp only [Prod.mk.injEq] at hy
  obtain ⟨hc, hu, hd, hrst⟩ := hy
  exact ⟨s, es, hr, hc, hu, hd, (ledger_balanced_iff hr).mpr ((received_eq_zero_iff _ es).mp hrst)⟩

/-- A single RST_STREAM frame: four bytes are in the books, none of them was taken from the window. -/
theorem ledger_unbalanced_rstStream : ∃ s es,
    (machine (fun _ => 0) (fun _ => frameSkb 0 0 0 []) (attach 0 2000)).Reach Metered s es ∧
    credit s.psock.txWaitQueue = 0 ∧ s.psock.unacked = 4 ∧ received .data es = 0 ∧ ¬ Balanced s es := by
  obtain ⟨s, es, hr, hy⟩ := Machine.Reach.of_exec
    (M := machine (fun _ => 0) (fun _ => frameSkb 0 0 0 []) (attach 0 2000))
    (G := Metered) (g := fun s a => decide (Metered s a)) [.frame (frameSkb 3 0 1 [0, 0, 0, 8]) granted]
    (fun _ _ _ => of_decide_eq_true)
    (fun r => (credit r.1.psock.txWaitQueue, r.1.psock.unacked, received .data r.2)) (0, 4, 0)
    (by decide +kernel)
  simp only [Prod.mk.injEq] at hy
  obtain ⟨hc, hu, hd⟩ := hy
  refine ⟨s, es, hr, hc, hu, hd, ?_⟩
  rw [Balanced, hc, hu, hd]
  decide

end runs

end Rakaia.H2
