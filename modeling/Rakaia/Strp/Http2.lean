import Rakaia.Strp.Segmentation

/-! # HTTP/2 frames (grpc)

The parser of the grpc variant reads the nine bytes of an HTTP/2 frame header, and writes the length
of the frame, its type, its flags and its stream into the `_strp_msg` of the head itself.  A header
may be split over buffers at any byte: the parser is called again on the growing head until all of
it is there. -/

namespace Rakaia.Strp.Http2

open Lib

/-- The members of `struct strp_msg` that only the grpc variant has. -/
structure FrameInfo where
  type : UInt8
  flag : UInt8
  streamId : ℕ
deriving DecidableEq, Inhabited

/-- `parse_msg_http2`; `none` is `-EFAULT`. -/
def parseMsgHttp2 (stm : Stm FrameInfo) (skb : SkBuff) : Option (Stm FrameInfo) :=
  (skb.headerPointer stm.offset 9).map fun hdr =>
    let b (i : ℕ) : UInt32 := (hdr.getD i 0).toUInt32
    { stm with
      fullLen := ((b 0 <<< 16 ||| b 1 <<< 8 ||| b 2) + 9).toNat
      ext := ⟨hdr.getD 3 0, hdr.getD 4 0,
        ((b 5 <<< 24 ||| b 6 <<< 16 ||| b 7 <<< 8 ||| b 8) &&& 0x7fffffff).toNat⟩ }

/-- The grpc parser: the length is the one that `parse_msg_http2` has stored, and zero when it
failed. -/
def parser : Parser FrameInfo where
  parse stm skb :=
    match parseMsgHttp2 stm skb with
    | some stm => (stm, stm.fullLen)
    | none => (stm, 0)
  accept stm _ := stm

/-- The length of a frame: a 24-bit payload length and the header. -/
def frameLen (l : List UInt8) : ℕ := beAt l 0 3 + 9

/-- The framing rule of HTTP/2. -/
def framing : Framing UInt8 where
  hdr := 9
  hdr_pos := by decide
  len := frameLen
  len_take l := by rw [frameLen, beAt_take (by decide), frameLen]

/-- Type, flags and 31-bit stream identifier in a frame header. -/
def frameInfo (l : List UInt8) : FrameInfo := ⟨l.getD 3 0, l.getD 4 0, beAt l 5 4 % 2 ^ 31⟩

/-! ### The parser follows the rule -/

/-- The header is read as big-endian numbers. -/
theorem parseMsgHttp2_full {stm : Stm FrameInfo} {skb : SkBuff} (hw : skb.Wf) (ho : stm.offset ≤ skb.len)
    (hhdr : 9 ≤ (skb.bytes.drop stm.offset).length) :
    parseMsgHttp2 stm skb = some { stm with
      fullLen := frameLen (skb.bytes.drop stm.offset), ext := frameInfo (skb.bytes.drop stm.offset) } := by
  have hle : stm.offset + 9 ≤ skb.len := by
    rw [List.length_drop, ← hw.len_eq] at hhdr
    omega
  generalize hl : skb.bytes.drop stm.offset = l at *
  have hget : ∀ i < 9, (l.take 9).getD i 0 = l.getD i 0 := by
    intro i hi
    simp [List.getD, hi]
  have hlen : beAt l 0 3 = beNum [l.getD 0 0, l.getD 1 0, l.getD 2 0] := beAt_eq_getD (by omega)
  have hsid : beAt l 5 4 = beNum [l.getD 5 0, l.getD 6 0, l.getD 7 0, l.getD 8 0] :=
    beAt_eq_getD (by omega)
  have hlt := beAt_lt l 0 3
  rw [parseMsgHttp2, SkBuff.headerPointer, if_pos hle, hl, Option.map_some]
  simp only [hget 0 (by decide), hget 1 (by decide), hget 2 (by decide), hget 3 (by decide),
    hget 4 (by decide), hget 5 (by decide), hget 6 (by decide), hget 7 (by decide), hget 8 (by decide)]
  rw [UInt32.toNat_add, toNat_be24, UInt32.toNat_and, toNat_be32, ← hlen, ← hsid, frameLen, frameInfo]
  congr 3
  · exact Nat.mod_eq_of_lt (by change _ + 9 < _; omega)
  · exact Nat.and_two_pow_sub_one_eq_mod _ 31

theorem follows (maxMsgSize : ℕ) : Follows parser maxMsgSize framing frameInfo where
  ext_take l := by
    change frameInfo (l.take 9) = frameInfo l
    rw [frameInfo, beAt_take (by decide), frameInfo]
    simp [List.getD]
  short stm skb hw ho hlt := by
    have hnone : ¬ stm.offset + 9 ≤ skb.len := by
      change _ < 9 at hlt
      rw [List.length_drop, ← hw.len_eq] at hlt
      omega
    simp [parser, parseMsgHttp2, SkBuff.headerPointer, hnone]
  full stm skb hw ho hhdr _ := by
    refine ⟨{ stm with fullLen := frameLen (skb.bytes.drop stm.offset)
                       ext := frameInfo (skb.bytes.drop stm.offset) }, ?_, rfl, rfl⟩
    simp only [parser, parseMsgHttp2_full hw ho hhdr]
    rfl

/-! ### A run to evaluate -/

/-- HEADERS with a payload of two bytes on stream 1 (the reserved bit is set), DATA without payload
on stream 3. -/
def twoFrames : List (List UInt8) :=
  [[0, 0, 2, 1, 4, 0x80, 0, 0, 1, 50, 51], [0, 0, 0, 0, 1, 0, 0, 0, 3]]

theorem twoFrames_valid : Valid framing 4096 twoFrames := by
  intro m hm
  simp only [twoFrames, List.mem_cons, List.not_mem_nil, or_false] at hm
  rcases hm with rfl | rfl <;> exact ⟨⟨by decide, by decide⟩, by decide⟩

/-- The first header is split behind three bytes, the second one behind two. -/
def splitActs : List Act :=
  let bs := twoFrames.flatten
  [⟨bufferOf [99] (bs.take 3), 1, .ok⟩, ⟨bufferOf ((bs.drop 3).take 10) [], 0, .ok⟩,
    ⟨bufferOf (99 :: bs.drop 13) [], 1, .ok⟩]

/-! ### The main result -/

/-- What `handle_h2_frame` should be called with for a frame: its bytes, its length, and its type,
flags and stream. -/
def frameCall (m : List UInt8) : List UInt8 × ℕ × FrameInfo := (m, beAt m 0 3 + 9, frameInfo m)

/-- **Segmentation independence of HTTP/2 framing.**  For every stream of frames and every way it is
presented, `handle_h2_frame` has been called on the frames that lie in the consumed bytes as a whole,
with the data of their headers; when no kernel call fails, a call of `__strp_recv` consumes all it is
presented; and when the stream is consumed, the calls were those for all its frames. -/
theorem frames_handled (maxMsgSize : ℕ) {frames : List (List UInt8)}
    (hv : Valid framing maxMsgSize frames) {s : State FrameInfo} {es : List (Event FrameInfo)}
    (h : (machine parser maxMsgSize).Reach (fun s a => Presents frames s a ∧ a.oracle.Succeeds) s es) :
    (messages es).map digest = (wholeIn frames s.copied).map frameCall ∧
    (∀ a, Presents frames s a → a.oracle.Succeeds → ∃ s' e, step parser maxMsgSize s a = some (s', e) ∧
      s'.copied = s.copied + (a.skb.len - a.offset)) ∧
    (s.copied = frames.flatten.length → (messages es).map digest = frames.map frameCall) := by
  have hr := h.mono (fun _ _ _ _ hg => hg.1)
  have hd : (messages es).map digest = (wholeIn frames s.copied).map frameCall := by
    rw [delivered_of_reach (follows maxMsgSize) hv hr]
    refine List.map_congr_left fun m hm => ?_
    have hlen := (hv m ((isPrefix_wholeIn frames s.copied).subset hm)).1.len_eq
    rw [expected, frameCall, ← hlen]
    rfl
  refine ⟨hd, fun a ha hs => ?_, fun hall => ?_⟩
  · obtain ⟨s', e, hstep, hcopied⟩ := step_of_reach (follows maxMsgSize) hv hr ha
    exact ⟨s', e, hstep, hcopied hs⟩
  · rw [hd, hall, wholeIn_flatten]

theorem frames_handled_split : ∃ s es,
    (machine parser 4096).Reach (fun s a => Presents twoFrames s a ∧ a.oracle.Succeeds) s es ∧
    s.copied = 20 ∧
    (messages es).map digest = [([0, 0, 2, 1, 4, 0x80, 0, 0, 1, 50, 51], 11, ⟨1, 4, 1⟩),
      ([0, 0, 0, 0, 1, 0, 0, 0, 3], 9, ⟨0, 1, 3⟩)] := by
  obtain ⟨s, es, hr, hy⟩ := reach_of_exec parser 4096 twoFrames splitActs
    (by
      intro a ha
      simp only [splitActs, List.mem_cons, List.not_mem_nil, or_false] at ha
      rcases ha with rfl | rfl | rfl <;> exact ⟨wf_bufferOf .., by decide⟩)
    (fun r => r.1.copied) 20 (by decide +kernel)
  have hr : (machine parser 4096).Reach (fun s a => Presents twoFrames s a ∧ a.oracle.Succeeds) s es := by
    refine hr.mono ?_
    rintro _ _ a - ⟨hp, ha⟩
    simp only [splitActs, List.mem_cons, List.not_mem_nil, or_false] at ha
    rcases ha with rfl | rfl | rfl <;> exact ⟨hp, rfl, fun _ => rfl⟩
  exact ⟨s, es, hr, hy, (frames_handled 4096 twoFrames_valid hr).2.2 hy⟩

end Rakaia.Strp.Http2
