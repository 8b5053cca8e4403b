import Rakaia.H2.History

/-! # What a frame does to the psock

What `handle_h2_frame` leaves in the psock depends on the frame and on the psock alone, not on the
streams: `Psock.frame` is that function, one line for each type of frame, and `step_psock` says that
a step of the receive path computes it.  Everything about the connection window, the control frames and
the send quota is proved about `Psock.frame`. -/

namespace Rakaia.H2

open Lib

/-! ### The control frames -/

/-- The type in the header of a control frame. -/
def CtrlSkb.type (c : CtrlSkb) : FrameType := .ofByte (c.bytes.getD 3 0)

/-- The frame that `send_window_update` builds. -/
def windowUpdateSkb (inc : Int32) : CtrlSkb :=
  let u := inc.toUInt32
  ⟨[0, 0, 4, 0x08, 0x00, 0, 0, 0, 0, ((u >>> 24) &&& 0x7f).toUInt8, ((u >>> 16) &&& 0xff).toUInt8,
    ((u >>> 8) &&& 0xff).toUInt8, (u &&& 0xff).toUInt8], 13⟩

/-- The frame that `send_settings_ack` builds. -/
def settingsAckSkb : CtrlSkb := ⟨[0, 0, 0, 0x04, 0x01, 0, 0, 0, 0], 9⟩

/-- The local buffer of `send_pingack` when the reply is built. -/
def Skb.pingBuf (skb : Skb) (stack : List UInt8) : List UInt8 :=
  ((headerPointerBuf skb.buf (skb.cb.offset + 9) 8 stack).map Prod.snd).getD stack

/-- The payload reaches the local buffer only from outside the linear area. -/
theorem Skb.pingBuf_eq (skb : Skb) (stack : List UInt8) : skb.pingBuf stack =
    if skb.cb.offset + 17 ≤ skb.buf.len ∧ skb.buf.headlen < skb.cb.offset + 17
      then (skb.buf.bytes.drop (skb.cb.offset + 9)).take 8 else stack := by
  unfold pingBuf headerPointerBuf SkBuff.headerPointer
  by_cases hlen : skb.cb.offset + 17 ≤ skb.buf.len <;>
    by_cases hlin : skb.cb.offset + 17 ≤ skb.buf.headlen <;> simp [hlen, hlin, not_lt.mpr, not_le.mp]

/-- The frame that `send_pingack` builds. -/
def pingAckSkb (skb : Skb) (stack : List UInt8) : CtrlSkb :=
  ⟨[0, 0, 8, 0x06, 0x01, 0, 0, 0, 0] ++ (skb.pingBuf stack).take 8, 17⟩

@[simp] theorem windowUpdateSkb_type (inc : Int32) : (windowUpdateSkb inc).type = .windowUpdate := rfl

@[simp] theorem settingsAckSkb_type : settingsAckSkb.type = .settings := rfl

@[simp] theorem pingAckSkb_type (skb : Skb) (stack : List UInt8) : (pingAckSkb skb stack).type = .ping := rfl

/-! ### The psock after a frame -/

namespace Psock

variable (p : Psock)

/-- A control frame is queued, if it could be allocated. -/
def queue (c : CtrlSkb) (alloc : Alloc) : Psock :=
  if alloc.ctrl then { p with txWaitQueue := p.txWaitQueue ++ [c], txWork := true } else p

/-- The bookkeeping of the connection window. -/
def account (skb : Skb) (alloc : Alloc) : Psock :=
  let unacked := p.unacked + (Int32.ofNat skb.cb.fullLen - 9)
  if p.recvConnWindow / 4 ≤ unacked then { p.queue (windowUpdateSkb unacked) alloc with unacked := 0 }
  else { p with unacked := unacked }

/-- The peer gives credit. -/
def credited (inc : Int32) : Psock :=
  if inc = 0 then p
  else
    let quota := p.sendQuota + inc
    let resume := p.flowStalled && decide (0 < quota)
    { p with
      sendQuota := quota
      flowStalled := p.flowStalled && !resume
      txWork := p.txWork || resume }

end Psock

/-- The increment that `process_incoming_window_update` reads; zero where it reads none. -/
def Skb.grant (skb : Skb) : Int32 :=
  if skb.cb.streamId ≠ 0 then 0
  else
    match skb.buf.headerPointer (skb.cb.offset + 9) 4 with
    | none => 0
    | some p => windowIncrement p

/-- The psock after a frame. -/
def Psock.frame (p : Psock) (skb : Skb) (alloc : Alloc) : Psock :=
  match skb.type with
  | .data | .rstStream => p.account skb alloc
  | .ping => p.queue (pingAckSkb skb alloc.stack) alloc
  | .windowUpdate => p.credited skb.grant
  | .settings => if skb.cb.streamId = 0 ∧ skb.flag1 = false then p.queue settingsAckSkb alloc else p
  | .headers | .continuation | .priority | .pushPromise | .goaway | .unknown => p

@[simp] theorem Psock.queue_recvConnWindow (p : Psock) (c : CtrlSkb) (alloc : Alloc) :
    (p.queue c alloc).recvConnWindow = p.recvConnWindow := by
  unfold Psock.queue
  split_ifs <;> rfl

@[simp] theorem Psock.queue_unacked (p : Psock) (c : CtrlSkb) (alloc : Alloc) :
    (p.queue c alloc).unacked = p.unacked := by
  unfold Psock.queue
  split_ifs <;> rfl

@[simp] theorem Psock.queue_sendQuota (p : Psock) (c : CtrlSkb) (alloc : Alloc) :
    (p.queue c alloc).sendQuota = p.sendQuota := by
  unfold Psock.queue
  split_ifs <;> rfl

@[simp] theorem Psock.queue_txWaitQueue (p : Psock) (c : CtrlSkb) (alloc : Alloc) :
    (p.queue c alloc).txWaitQueue = p.txWaitQueue ++ if alloc.ctrl then [c] else [] := by
  unfold Psock.queue
  split_ifs
  · rfl
  · exact (List.append_nil _).symm

theorem Psock.credited_fields (p : Psock) (inc : Int32) :
    (p.credited inc).recvConnWindow = p.recvConnWindow ∧ (p.credited inc).unacked = p.unacked ∧
    (p.credited inc).txWaitQueue = p.txWaitQueue := by
  unfold Psock.credited
  split_ifs <;> exact ⟨rfl, rfl, rfl⟩

/-! ### The functions of the source compute it -/

theorem sendWindowUpdate_psock (s : State) (inc : Int32) (alloc : Alloc) :
    (sendWindowUpdate s inc alloc).psock = s.psock.queue (windowUpdateSkb inc) alloc := by
  unfold sendWindowUpdate Psock.queue
  split_ifs <;> rfl

theorem sendSettingsAck_psock (s : State) (alloc : Alloc) :
    (sendSettingsAck s alloc).psock = s.psock.queue settingsAckSkb alloc := by
  unfold sendSettingsAck Psock.queue
  split_ifs <;> rfl

theorem sendPingack_psock (s : State) (a : ℕ) (alloc : Alloc) :
    (sendPingack s a alloc).1.psock = s.psock.queue (pingAckSkb (s.heap a) alloc.stack) alloc := by
  unfold sendPingack Psock.queue
  dsimp only
  split_ifs <;> rfl

theorem accountData_psock (s : State) (skb : Skb) (alloc : Alloc) :
    (accountData s skb alloc).psock = s.psock.account skb alloc := by
  unfold accountData Psock.account
  dsimp only
  split_ifs
  · exact congrArg (fun p : Psock => { p with unacked := 0 }) (sendWindowUpdate_psock s _ alloc)
  · rfl

theorem processIncomingWindowUpdate_psock (s : State) (a : ℕ) :
    (processIncomingWindowUpdate s a).1.psock = s.psock.credited (s.heap a).grant := by
  unfold processIncomingWindowUpdate Skb.grant
  dsimp only
  by_cases hsid : (s.heap a).cb.streamId ≠ 0
  · rw [if_pos hsid, if_pos hsid]
    rfl
  · rw [if_neg hsid, if_neg hsid]
    cases (s.heap a).buf.headerPointer ((s.heap a).cb.offset + 9) 4 with
    | none => rfl
    | some p =>
        dsimp only
        unfold Psock.credited
        split_ifs <;> rfl

section steps

variable {hash : ℕ → Fin streamHashSize} {s s' : State} {e : List Event}

/-- **One frame**: the psock is what `Psock.frame` says. -/
theorem handleH2Frame_psock {a : ℕ} {alloc : Alloc} (h : handleH2Frame hash s a alloc = some (s', e)) :
    s'.psock = s.psock.frame (s.heap a) alloc := by
  unfold handleH2Frame at h
  dsimp only at h
  unfold Psock.frame
  cases ht : (s.heap a).type with
  | data | rstStream =>
      rw [ht] at h
      rw [(storeFrame_apart h).1.psock, accountData_psock]
  | headers | continuation =>
      rw [ht] at h
      exact (storeFrame_apart h).1.psock
  | ping =>
      rw [ht] at h
      rw [← sendPingack_psock, Option.some.inj h]
  | windowUpdate =>
      rw [ht] at h
      rw [← processIncomingWindowUpdate_psock, Option.some.inj h]
  | settings =>
      rw [ht] at h
      obtain ⟨rfl, rfl⟩ := Prod.mk.inj (Option.some.inj h)
      split_ifs
      · exact sendSettingsAck_psock s alloc
      · rfl
  | priority | pushPromise | goaway | unknown =>
      rw [ht] at h
      obtain ⟨rfl, rfl⟩ := Prod.mk.inj (Option.some.inj h)
      rfl

/-- The psock after a step. -/
def Psock.act (p : Psock) : Act → Psock
  | .frame skb alloc => p.frame skb alloc
  | .recvmsg .. => p

/-- **One step**: only the arrival of a frame changes the psock. -/
theorem step_psock {a : Act} (h : step hash s a = some (s', e)) : s'.psock = s.psock.act a := by
  cases a with
  | frame skb alloc =>
      obtain ⟨⟨s₁, e₁⟩, hframe, heq⟩ := Option.map_eq_some_iff.mp h
      obtain ⟨rfl, rfl⟩ := Prod.mk.inj heq
      have hskb : (s.alloc skb).heap s.brk = skb := Function.update_self ..
      rw [handleH2Frame_psock hframe, hskb]
      rfl
  | recvmsg head len mapped dgram =>
      rw [step] at h
      split_ifs at h
      exact (rakaiaRecvmsg_apart h).1.psock

end steps

end Rakaia.H2
