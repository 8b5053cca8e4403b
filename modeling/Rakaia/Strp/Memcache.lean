import Rakaia.Strp.Segmentation

/-! # Memcache requests (plain-tcp)

The parse callback of plain-tcp reads the 28 bytes of a memcache header that carries a request
id.  The length of a `SET` is that of the header and of the body, the length of any other command
that of the header, the key and the extras.  The code adds in 32 bits and returns an `int`; as
`max_msg_size` is `sk_rcvbuf`, which is an `int`, no length that passes the check is changed by
that. -/

namespace Rakaia.Strp.Memcache

open Lib

/-- `sizeof(struct binary_header_t)`. -/
def headerLen : ℕ := 28

def cmdSet : UInt8 := 1

/-- `rakaia_parse_func_strparser`: the result. -/
def rakaiaParseFunc (skb : SkBuff) (skbOffset : ℕ) : Int32 :=
  match skb.headerPointer skbOffset headerLen with
  | none => 0
  | some hdr =>
      let opcode := UInt8.ofNat (beAt hdr 1 1)
      let keyLen := UInt16.ofNat (beAt hdr 6 2)
      let extraLen := UInt8.ofNat (beAt hdr 8 1)
      let bodyLen := UInt32.ofNat (beAt hdr 12 4)
      let headerLen := UInt32.ofNat headerLen
      if opcode = cmdSet then (headerLen + bodyLen).toInt32
      else (headerLen + keyLen.toUInt32 + extraLen.toUInt32).toInt32

/-- The plain-tcp parser stores a length that passed the checks. -/
def parser : Parser Unit where
  parse stm skb := (stm, (rakaiaParseFunc skb stm.offset).toInt)
  accept stm len := { stm with fullLen := len.toNat }

/-- The length of a request, without wraparound. -/
def requestLen (l : List UInt8) : ℕ :=
  if beAt l 1 1 = cmdSet.toNat then headerLen + beAt l 12 4 else headerLen + beAt l 6 2 + beAt l 8 1

/-- The framing rule of requests. -/
def framing : Framing UInt8 where
  hdr := headerLen
  hdr_pos := by decide
  len := requestLen
  len_take l := by
    have h : ∀ i n, i + n ≤ headerLen → beAt (l.take headerLen) i n = beAt l i n := fun i n => beAt_take
    rw [requestLen, h 1 1 (by decide), h 6 2 (by decide), h 8 1 (by decide), h 12 4 (by decide), requestLen]

/-- The receive buffer size `sk_rcvbuf`, which `strp_recv` passes as `max_msg_size`: an `int`. -/
abbrev SkRcvbuf := Fin (2 ^ 31)

theorem toInt_toInt32 {x : UInt32} (h : x.toNat < 2 ^ 31) : x.toInt32.toInt = x.toNat := by
  have hx : x.toInt32.toBitVec.toNat = x.toNat := rfl
  exact BitVec.toInt_eq_toNat_of_lt (by omega)

/-- The callback computes the length of the request that starts at the offset, in 32 bits. -/
theorem rakaiaParseFunc_eq {skb : SkBuff} {offset : ℕ} (hle : offset + headerLen ≤ skb.len) :
    rakaiaParseFunc skb offset = (UInt32.ofNat (requestLen (skb.bytes.drop offset))).toInt32 := by
  generalize hl : skb.bytes.drop offset = l
  have h : ∀ i n, i + n ≤ headerLen → beAt (l.take headerLen) i n = beAt l i n := fun i n => beAt_take
  rw [rakaiaParseFunc, SkBuff.headerPointer, if_pos hle, hl]
  simp only [h 1 1 (by decide), h 6 2 (by decide), h 8 1 (by decide), h 12 4 (by decide)]
  have h1 := beAt_lt l 1 1
  have h6 := beAt_lt l 6 2
  have h8 := beAt_lt l 8 1
  have hset : UInt8.ofNat (beAt l 1 1) = cmdSet ↔ beAt l 1 1 = cmdSet.toNat := by
    rw [← UInt8.toNat_inj, UInt8.toNat_ofNat_of_lt' h1]
  have hkey : (UInt16.ofNat (beAt l 6 2)).toUInt32 = UInt32.ofNat (beAt l 6 2) := by
    apply UInt32.toNat_inj.mp
    simp
    omega
  have hextra : (UInt8.ofNat (beAt l 8 1)).toUInt32 = UInt32.ofNat (beAt l 8 1) := by
    apply UInt32.toNat_inj.mp
    simp
    omega
  unfold requestLen
  simp only [hset]
  split_ifs
  · rw [UInt32.ofNat_add]
  · rw [UInt32.ofNat_add, UInt32.ofNat_add, hkey, hextra]

/-- The callback computes the length of a request that fits in an `int`. -/
theorem rakaiaParseFunc_full {skb : SkBuff} {offset : ℕ} (hw : skb.Wf) (ho : offset ≤ skb.len)
    (hhdr : headerLen ≤ (skb.bytes.drop offset).length)
    (hlt : requestLen (skb.bytes.drop offset) < 2 ^ 31) :
    (rakaiaParseFunc skb offset).toInt = requestLen (skb.bytes.drop offset) := by
  have hle : offset + headerLen ≤ skb.len := by
    rw [List.length_drop, ← hw.len_eq] at hhdr
    omega
  have hnat : (UInt32.ofNat (requestLen (skb.bytes.drop offset))).toNat = requestLen (skb.bytes.drop offset) :=
    UInt32.toNat_ofNat_of_lt' (lt_trans hlt (by decide))
  rw [rakaiaParseFunc_eq hle, toInt_toInt32 (by omega), hnat]

theorem follows (rcvbuf : SkRcvbuf) : Follows parser rcvbuf framing (fun _ => ()) where
  ext_take _ := rfl
  short stm skb hw ho hlt := by
    have hnone : ¬ stm.offset + headerLen ≤ skb.len := by
      change _ < headerLen at hlt
      rw [List.length_drop, ← hw.len_eq] at hlt
      omega
    simp [parser, rakaiaParseFunc, SkBuff.headerPointer, hnone]
  full stm skb hw ho hhdr hle := by
    have hlen := rakaiaParseFunc_full hw ho hhdr (lt_of_le_of_lt hle rcvbuf.isLt)
    exact ⟨stm, Prod.ext rfl hlen, rfl, rfl⟩

/-! ### A run to evaluate -/

/-- A `GET` with a key of one byte and a `SET` with a body of two. -/
def twoRequests : List (List UInt8) :=
  [[0x80, 0, 0, 0, 0, 7, 0, 1, 0, 0, 0, 0, 0, 0, 0, 1, 0, 0, 0, 0, 0, 0, 0, 0, 0, 0, 0, 0, 65],
    [0x80, 1, 0, 0, 0, 8, 0, 1, 0, 0, 0, 0, 0, 0, 0, 2, 0, 0, 0, 0, 0, 0, 0, 0, 0, 0, 0, 0, 66, 67]]

theorem twoRequests_valid : Valid framing 4096 twoRequests := by
  intro m hm
  simp only [twoRequests, List.mem_cons, List.not_mem_nil, or_false] at hm
  rcases hm with rfl | rfl <;> exact ⟨⟨by decide, by decide⟩, by decide⟩

/-- Ten bytes behind an offset of two; then the rest of the first request and ten bytes of the second,
which are presented again after a failed clone; then the rest. -/
def splitActs : List Act :=
  let bs := twoRequests.flatten
  [⟨bufferOf (99 :: 98 :: bs.take 4) ((bs.drop 4).take 6), 2, .ok⟩,
    ⟨bufferOf ((bs.drop 10).take 29) [], 0, { Oracle.ok with round := fun _ => ⟨false, true, 0⟩ }⟩,
    ⟨bufferOf ((bs.drop 10).take 29) [], 0, .ok⟩, ⟨bufferOf (bs.drop 39) [], 0, .ok⟩]

/-! ### The main result -/

/-- The messages handed on are the requests in the consumed bytes. -/
theorem messages_of_reach (rcvbuf : SkRcvbuf) {msgs : List (List UInt8)} (hv : Valid framing rcvbuf msgs)
    {s : State Unit} {es : List (Event Unit)} (h : (machine parser rcvbuf).Reach (Presents msgs) s es) :
    (messages es).map Head.message = wholeIn msgs s.copied := by
  have hd := congrArg (List.map Prod.fst) (delivered_of_reach (follows rcvbuf) hv h)
  rw [List.map_map, List.map_map] at hd
  exact hd.trans (List.map_id _)

/-- **Segmentation independence of plain-tcp framing.**  For every stream of requests and every way
TCP presents it, whichever kernel calls fail: the messages handed on are the requests that lie in the
consumed bytes as a whole, so a prefix of the stream; and every call returns. -/
theorem requests_delivered (rcvbuf : SkRcvbuf) {msgs : List (List UInt8)}
    (hv : Valid framing rcvbuf msgs) {s : State Unit} {es : List (Event Unit)}
    (h : (machine parser rcvbuf).Reach (Presents msgs) s es) :
    (messages es).map Head.message = wholeIn msgs s.copied ∧ wholeIn msgs s.copied <+: msgs ∧
      ∀ a, Presents msgs s a → (step parser rcvbuf s a).isSome := by
  refine ⟨messages_of_reach rcvbuf hv h, isPrefix_wholeIn msgs s.copied, fun a ha => ?_⟩
  obtain ⟨s', e, hstep, -⟩ := step_of_reach (follows rcvbuf) hv h ha
  rw [hstep]
  rfl

theorem requests_delivered_split : ∃ s es,
    (machine parser 4096).Reach (Presents twoRequests) s es ∧ s.copied = 59 ∧
    (messages es).map Head.message = twoRequests := by
  obtain ⟨s, es, hr, hy⟩ := reach_of_exec parser 4096 twoRequests splitActs
    (by
      intro a ha
      simp only [splitActs, List.mem_cons, List.not_mem_nil, or_false] at ha
      rcases ha with rfl | rfl | rfl | rfl <;> exact ⟨wf_bufferOf .., by decide⟩)
    (fun r => r.1.copied) 59 (by decide +kernel)
  have hr := hr.mono (fun _ _ _ _ hg => hg.1)
  have hd := (requests_delivered 4096 twoRequests_valid hr).1
  refine ⟨s, es, hr, hy, hd.trans ?_⟩
  rw [show s.copied = 59 from hy]
  decide

end Rakaia.Strp.Memcache
