import Rakaia.H2.FlowControl

/-! # Control frames on the wire

The functions that emit control frames write the header and the payload byte by byte, and the functions
that read frames put the bytes together again.  Here a frame is read back by `parse_msg_http2` and
`process_incoming_window_update` from any place in any buffer, behind and in front of other bytes; and the
byte count that the emitting functions store in `tcp_skb_cb`, from which `try_send_from_psock` computes
sequence numbers, is the length of the frame. -/

namespace Rakaia.H2

open Lib Strp Strp.Http2

/-- The bytes lie in a buffer, from an offset on. -/
structure Carries (buf : SkBuff) (offset : ℕ) (bs : List UInt8) : Prop where
  wf : buf.Wf
  starts : bs <+: buf.bytes.drop offset

/-- The header of a frame; the most significant bit of the stream identifier is reserved. -/
def frameHeader (len : ℕ) (type flag : UInt8) (sid : ℕ) (reserved : Bool) : List UInt8 :=
  beBytes 3 len ++ [type, flag] ++ beBytes 4 (sid + if reserved then 2 ^ 31 else 0)

section headers

variable {buf : SkBuff} {offset : ℕ} {bs cs : List UInt8}

theorem Carries.left (h : Carries buf offset (bs ++ cs)) : Carries buf offset bs :=
  ⟨h.wf, (List.prefix_append bs cs).trans h.starts⟩

theorem Carries.length_le (h : Carries buf offset bs) : bs.length ≤ buf.len - offset := by
  have := h.starts.length_le
  rwa [List.length_drop, ← h.wf.len_eq] at this

/-- `skb_header_pointer` finds bytes that are there. -/
theorem Carries.headerPointer (h : Carries buf offset (bs ++ cs)) (hpos : 0 < cs.length) :
    buf.headerPointer (offset + bs.length) cs.length = some cs := by
  have hle := h.length_le
  rw [List.length_append] at hle
  obtain ⟨rest, hrest⟩ := h.starts
  rw [SkBuff.headerPointer, if_pos (by omega), ← List.drop_drop, ← hrest, List.append_assoc,
    List.drop_left, List.take_left]

theorem length_frameHeader (len : ℕ) (type flag : UInt8) (sid : ℕ) (reserved : Bool) :
    (frameHeader len type flag sid reserved).length = 9 := by
  simp [frameHeader]

/-- **The header round trip**: what `parse_msg_http2` stores is what the header was made from. -/
theorem parse_frameHeader {len sid : ℕ} {type flag : UInt8} {reserved : Bool} {stm : Stm FrameInfo}
    (hlen : len < 2 ^ 24) (hsid : sid < 2 ^ 31)
    (h : Carries buf stm.offset (frameHeader len type flag sid reserved)) :
    parseMsgHttp2 stm buf = some { stm with fullLen := len + 9, ext := ⟨type, flag, sid⟩ } := by
  have hle := h.length_le
  rw [length_frameHeader] at hle
  obtain ⟨rest, hrest⟩ := h.starts
  have hl : beAt (buf.bytes.drop stm.offset) 0 3 = len := by
    rw [← hrest, frameHeader, List.append_assoc, List.append_assoc, beAt, List.drop_zero,
      List.take_left' (length_beBytes 3 len), beNum_beBytes]
    exact Nat.mod_eq_of_lt hlen
  have hs : beAt (buf.bytes.drop stm.offset) 5 4 % 2 ^ 31 = sid := by
    rw [← hrest, frameHeader, beAt, List.append_assoc, List.drop_left' (by simp),
      List.take_left' (length_beBytes 4 _), beNum_beBytes]
    change _ % 2 ^ 32 % 2 ^ 31 = sid
    cases reserved <;> simp only [Bool.false_eq_true, if_true, if_false] <;> omega
  have hget : ∀ i b, (frameHeader len type flag sid reserved)[i]? = some b →
      (buf.bytes.drop stm.offset).getD i 0 = b := by
    intro i b hi
    have hlt : i < (frameHeader len type flag sid reserved).length := by
      by_contra hn
      rw [List.getElem?_eq_none (not_lt.mp hn)] at hi
      cases hi
    rw [← hrest, List.getD, List.getElem?_append_left hlt, hi]
    rfl
  rw [parseMsgHttp2_full h.wf (by omega) (by rw [List.length_drop, ← h.wf.len_eq]; exact hle), frameLen,
    frameInfo, hl, hs, hget 3 type rfl, hget 4 flag rfl]

end headers

/-! ### The frames that are emitted -/

/-- The payload of the frame that `send_window_update` builds. -/
def windowUpdatePayload (inc : Int32) : List UInt8 := (windowUpdateSkb inc).bytes.drop 9

theorem windowUpdateSkb_bytes (inc : Int32) :
    (windowUpdateSkb inc).bytes = frameHeader 4 8 0 0 false ++ windowUpdatePayload inc := rfl

/-- `process_incoming_window_update` reads the increment that `send_window_update` wrote. -/
theorem grant_windowUpdateSkb {skb : Skb} {inc : Int32} (hinc : 0 ≤ inc.toInt)
    (h : Carries skb.buf skb.cb.offset (windowUpdateSkb inc).bytes) (hsid : skb.cb.streamId = 0) :
    skb.grant = inc := by
  rw [windowUpdateSkb_bytes] at h
  have hp : skb.buf.headerPointer (skb.cb.offset + 9) 4 = some (windowUpdatePayload inc) :=
    h.headerPointer (by change 0 < 4; decide)
  rw [Skb.grant, if_neg (not_not.mpr hsid), hp]
  exact windowIncrement_bytes hinc

theorem Psock.credited_sendQuota (p : Psock) (inc : Int32) :
    (p.credited inc).sendQuota = p.sendQuota + inc := by
  unfold Psock.credited
  split_ifs with h
  · rw [h, Int32.add_zero]
  · rfl

/-- An addition to the quota that stays in the range of an `int`. -/
theorem toInt_add_of_lt {q inc : Int32} (hinc : 0 ≤ inc.toInt) (h : q.toInt + inc.toInt < 2 ^ 31) :
    (q + inc).toInt = q.toInt + inc.toInt := by
  have hmin : -2 ^ 31 ≤ q.toInt := q.le_toInt
  rw [Int32.toInt_add]
  exact Int.bmod_eq_of_le (by omega) (by omega)

/-- The control frames that one of the three functions puts on `tx_wait_queue`. -/
inductive Emitted (c : CtrlSkb) : Prop
  | windowUpdate (s : State) (inc : Int32) (alloc : Alloc) :
      (sendWindowUpdate s inc alloc).psock.txWaitQueue = s.psock.txWaitQueue ++ [c] → Emitted c
  | settingsAck (s : State) (alloc : Alloc) :
      (sendSettingsAck s alloc).psock.txWaitQueue = s.psock.txWaitQueue ++ [c] → Emitted c
  /-- The local buffer has eight bytes, and the PING frame lies in a buffer of the kernel. -/
  | pingAck (s : State) (a : ℕ) (alloc : Alloc) : alloc.stack.length = 8 → (s.heap a).buf.Wf →
      (sendPingack s a alloc).1.psock.txWaitQueue = s.psock.txWaitQueue ++ [c] → Emitted c

theorem Psock.eq_of_queue {p : Psock} {c d : CtrlSkb} {alloc : Alloc}
    (h : (p.queue c alloc).txWaitQueue = p.txWaitQueue ++ [d]) : c = d := by
  rw [Psock.queue_txWaitQueue, List.append_cancel_left_eq] at h
  split_ifs at h
  exact List.head_eq_of_cons_eq h

theorem length_pingBuf {skb : Skb} (hw : skb.buf.Wf) {stack : List UInt8} (hst : stack.length = 8) :
    (skb.pingBuf stack).length = 8 := by
  have hlen := hw.len_eq
  rw [Skb.pingBuf_eq]
  split_ifs with h
  · rw [List.length_take, List.length_drop]
    omega
  · exact hst

/-- A frame with the header of `c.seq - 9` bytes of payload, and as many bytes. -/
theorem Emitted.shape {c : CtrlSkb} (h : Emitted c) : ∃ (len : ℕ) (type flag : UInt8) (payload : List UInt8),
    len < 2 ^ 24 ∧ c.bytes = frameHeader len type flag 0 false ++ payload ∧ payload.length = len ∧
    c.seq = len + 9 := by
  cases h with
  | windowUpdate s inc alloc hq =>
      rw [sendWindowUpdate_psock] at hq
      obtain rfl := Psock.eq_of_queue hq
      exact ⟨4, 8, 0, windowUpdatePayload inc, by decide, rfl, rfl, rfl⟩
  | settingsAck s alloc hq =>
      rw [sendSettingsAck_psock] at hq
      obtain rfl := Psock.eq_of_queue hq
      exact ⟨0, 4, 1, [], by decide, rfl, rfl, rfl⟩
  | pingAck s a alloc hst hw hq =>
      rw [sendPingack_psock] at hq
      obtain rfl := Psock.eq_of_queue hq
      refine ⟨8, 6, 1, ((s.heap a).pingBuf alloc.stack).take 8, by decide, rfl, ?_, rfl⟩
      rw [List.length_take, length_pingBuf hw hst]
      rfl

/-! ### The main result -/

/-- **Control frames decode back.**  A WINDOW_UPDATE frame with any increment is parsed as one, and adds
the increment to the quota of who receives it; a header made from any length, type, flags and stream, with
the reserved bit either way, is parsed to the same; and for each of the emitted frames the byte count in
its `tcp_skb_cb` is the parsed length and the length of the buffer. -/
theorem ctrlFrames_decode :
    (∀ (inc : Int32) (s : State) (alloc : Alloc), 1 ≤ inc.toInt → alloc.ctrl = true →
      ∃ c, (sendWindowUpdate s inc alloc).psock.txWaitQueue = s.psock.txWaitQueue ++ [c] ∧
        (∀ (stm : Stm FrameInfo) (buf : SkBuff), Carries buf stm.offset c.bytes →
          parseMsgHttp2 stm buf = some { stm with fullLen := 13, ext := ⟨8, 0, 0⟩ } ∧
          FrameType.ofByte 8 = .windowUpdate) ∧
        ∀ (s' : State) (a : ℕ), Carries (s'.heap a).buf (s'.heap a).cb.offset c.bytes →
          (s'.heap a).cb.streamId = 0 → s'.psock.sendQuota.toInt + inc.toInt < 2 ^ 31 →
          (processIncomingWindowUpdate s' a).1.psock.sendQuota.toInt =
            s'.psock.sendQuota.toInt + inc.toInt) ∧
    (∀ (len sid : ℕ) (type flag : UInt8) (reserved : Bool) (stm : Stm FrameInfo) (buf : SkBuff),
      len < 2 ^ 24 → sid < 2 ^ 31 → Carries buf stm.offset (frameHeader len type flag sid reserved) →
      parseMsgHttp2 stm buf = some { stm with fullLen := len + 9, ext := ⟨type, flag, sid⟩ }) ∧
    ∀ (c : CtrlSkb) (stm : Stm FrameInfo) (buf : SkBuff), Emitted c → Carries buf stm.offset c.bytes →
      (parseMsgHttp2 stm buf).map Stm.fullLen = some c.seq ∧ c.bytes.length = c.seq := by
  refine ⟨?_, ?_, ?_⟩
  · intro inc s alloc hinc hal
    refine ⟨windowUpdateSkb inc, ?_, ?_, ?_⟩
    · rw [sendWindowUpdate_psock, Psock.queue_txWaitQueue, if_pos hal]
    · intro stm buf hc
      rw [windowUpdateSkb_bytes] at hc
      exact ⟨parse_frameHeader (by decide) (by decide) hc.left, rfl⟩
    · intro s' a hc hsid hlt
      rw [processIncomingWindowUpdate_psock, Psock.credited_sendQuota,
        grant_windowUpdateSkb (by omega) hc hsid, toInt_add_of_lt (by omega) hlt]
  · intro len sid type flag reserved stm buf hlen hsid hc
    exact parse_frameHeader hlen hsid hc
  · intro c stm buf he hc
    obtain ⟨len, type, flag, payload, hlen, hbytes, hpay, hseq⟩ := he.shape
    rw [hbytes] at hc
    constructor
    · rw [parse_frameHeader hlen (by decide) hc.left, hseq]
      rfl
    · rw [hbytes, List.length_append, length_frameHeader, hpay, hseq, Nat.add_comm]

/-- The update for 500 bytes, alone in a buffer, and a header with the reserved bit set. -/
theorem ctrlFrames_decode_linear :
    Carries (bufferOf (windowUpdateSkb 500).bytes []) 0 (windowUpdateSkb 500).bytes ∧
    (parseMsgHttp2 ⟨0, 0, 0, default⟩ (bufferOf (windowUpdateSkb 500).bytes [])).map Stm.fullLen = some 13 ∧
    parseMsgHttp2 ⟨0, 0, 0, default⟩ (bufferOf (frameHeader 70000 1 5 3 true) []) =
      some ⟨70009, 0, 0, ⟨1, 5, 3⟩⟩ := by
  have hupdate : Carries (bufferOf (windowUpdateSkb 500).bytes []) 0 (windowUpdateSkb 500).bytes :=
    ⟨wf_bufferOf .., List.prefix_rfl⟩
  have hheader : Carries (bufferOf (frameHeader 70000 1 5 3 true) []) 0 (frameHeader 70000 1 5 3 true) :=
    ⟨wf_bufferOf .., List.prefix_rfl⟩
  obtain ⟨-, hparse, hseq⟩ := ctrlFrames_decode
  refine ⟨hupdate, (hseq _ ⟨0, 0, 0, default⟩ _ (.windowUpdate (.init (fun _ => frameSkb 0 0 0 []) (attach 0 0))
    500 granted rfl) hupdate).1, ?_⟩
  exact hparse 70000 3 1 5 true ⟨0, 0, 0, default⟩ _ (by decide) (by decide) hheader

end Rakaia.H2
