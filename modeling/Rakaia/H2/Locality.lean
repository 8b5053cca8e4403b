import Rakaia.H2.CtrlFrames

/-! # What a frame's effect depends on

Several frames share one buffer, and `handle_h2_frame` sees all of it.  Two runs are compared here, from
one state, on two buffers that hold the same frame at the same offset and differ behind it.  The stream
table depends on the links and the headers of frames only (`Alike`), and so do the books of the window;
but the handlers of WINDOW_UPDATE and PING frames read four and eight bytes whatever the declared length
is.  So the effect of a frame is its own if and only if it is long enough for its type
(`effects_local_iff`).

The reply to a PING frame also depends on whether its payload lies in the linear area, because
`send_pingack` sends the local buffer and not what it found; for buffers that hold the frame in different
places the reply therefore differs in any case. -/

namespace Rakaia.H2

open Lib Strp

/-! ### The stream table -/

/-- Two states with the same table of streams and the same links. -/
structure Alike (s₁ s₂ : State) : Prop where
  brk : s₁.brk = s₂.brk
  streamStorage : s₁.streamStorage = s₂.streamStorage
  strpNext : s₁.strpNext = s₂.strpNext

section alike

variable {hash : ℕ → Fin streamHashSize} {s₁ s₂ : State}

theorem Alike.setNext (h : Alike s₁ s₂) (a : ℕ) (n : Option ℕ) : Alike (s₁.setNext a n) (s₂.setNext a n) :=
  ⟨h.brk, h.streamStorage, by rw [strpNext_setNext, strpNext_setNext, h.strpNext]⟩

/-- A change of buffers other than of their links. -/
theorem Alike.setSkb (h : Alike s₁ s₂) {a : ℕ} {x₁ x₂ : Skb} (h₁ : x₁.cb.next = (s₁.heap a).cb.next)
    (h₂ : x₂.cb.next = (s₂.heap a).cb.next) : Alike (s₁.setSkb a x₁) (s₂.setSkb a x₂) :=
  ⟨h.brk, h.streamStorage, by rw [strpNext_setSkb_of_eq h₁, strpNext_setSkb_of_eq h₂, h.strpNext]⟩

theorem Alike.streamLookup (h : Alike s₁ s₂) (sid : ℕ) :
    streamLookup hash s₁ sid = streamLookup hash s₂ sid := by
  rw [H2.streamLookup, H2.streamLookup, h.streamStorage]

theorem Alike.addSkbsToHead (h : Alike s₁ s₂) (head skb : ℕ) :
    (addSkbsToHead s₁ head skb = none ∧ addSkbsToHead s₂ head skb = none) ∨
    ∃ t₁ t₂, addSkbsToHead s₁ head skb = some t₁ ∧ addSkbsToHead s₂ head skb = some t₂ ∧ Alike t₁ t₂ := by
  unfold H2.addSkbsToHead
  rw [← h.strpNext, ← h.brk]
  cases follow s₁.strpNext (fun _ a => a) s₁.brk head (s₁.strpNext head) with
  | none => exact .inl ⟨rfl, rfl⟩
  | some last => exact .inr ⟨_, _, rfl, rfl, ((h.setNext last _).setNext skb none).setSkb rfl rfl⟩

variable (hash) in
theorem Alike.addSkbToStream (h : Alike s₁ s₂) (sid skb : ℕ) (alloc : Alloc) :
    ((∀ t, addSkbToStream hash s₁ sid skb alloc ≠ .ok t) ∧
      addSkbToStream hash s₂ sid skb alloc = addSkbToStream hash s₁ sid skb alloc) ∨
    ∃ t₁ t₂, addSkbToStream hash s₁ sid skb alloc = .ok t₁ ∧
      addSkbToStream hash s₂ sid skb alloc = .ok t₂ ∧ Alike t₁ t₂ := by
  unfold H2.addSkbToStream
  rw [← h.streamLookup]
  cases H2.streamLookup hash s₁ sid with
  | some stream =>
      dsimp only
      rcases h.addSkbsToHead stream.skb skb with ⟨h₁, h₂⟩ | ⟨t₁, t₂, h₁, h₂, ht⟩
      · rw [h₁, h₂]
        exact .inl ⟨nofun, rfl⟩
      · rw [h₁, h₂]
        exact .inr ⟨t₁, t₂, rfl, rfl, ht⟩
  | none =>
      unfold createStreamHead
      cases alloc.stream with
      | false => exact .inl ⟨nofun, rfl⟩
      | true =>
          have hn := h.setNext skb none
          exact .inr ⟨_, _, rfl, rfl, hn.brk, by rw [h.streamStorage], hn.strpNext⟩

theorem Alike.flushStream (h : Alike s₁ s₂) (sid : ℕ) :
    Alike (flushStream hash s₁ sid).1 (flushStream hash s₂ sid).1 := by
  unfold H2.flushStream
  rw [← h.streamLookup]
  cases H2.streamLookup hash s₁ sid with
  | none => exact h
  | some stream =>
      have hrcv : Alike (rcvMsg s₁ stream.skb) (rcvMsg s₂ stream.skb) := by
        refine ⟨h.brk, h.streamStorage, ?_⟩
        have hset : Alike
            (s₁.setSkb stream.skb
              { s₁.heap stream.skb with cb := { (s₁.heap stream.skb).cb with psock := s₁.psock.addr } })
            (s₂.setSkb stream.skb
              { s₂.heap stream.skb with cb := { (s₂.heap stream.skb).cb with psock := s₂.psock.addr } }) :=
          h.setSkb rfl rfl
        exact hset.strpNext
      dsimp only
      unfold deleteStream
      rw [← hrcv.streamLookup]
      cases H2.streamLookup hash (rcvMsg s₁ stream.skb) sid with
      | none => exact hrcv
      | some stream' => exact ⟨hrcv.brk, by rw [← hrcv.streamStorage]; rfl, hrcv.strpNext⟩

/-- The table of streams after a stored frame depends on the header of the frame only. -/
theorem Alike.storeFrame (h : Alike s₁ s₂) {a : ℕ} (hcb : (s₁.heap a).cb = (s₂.heap a).cb)
    (alloc : Alloc) :
    (storeFrame hash s₁ a alloc).map (fun r => r.1.streamStorage) =
      (storeFrame hash s₂ a alloc).map (fun r => r.1.streamStorage) := by
  have hends : (s₁.heap a).ends = (s₂.heap a).ends := by
    unfold Skb.ends Skb.flag1 Skb.type
    rw [hcb]
  unfold H2.storeFrame
  dsimp only
  rw [← hcb, ← hends]
  rcases h.addSkbToStream hash (s₁.heap a).cb.streamId a alloc with
    ⟨hfail, heq⟩ | ⟨t₁, t₂, h₁, h₂, ht⟩
  · rw [heq]
    cases hadd : H2.addSkbToStream hash s₁ (s₁.heap a).cb.streamId a alloc with
    | loops => rfl
    | enomem => exact congrArg some h.streamStorage
    | ok t => exact absurd hadd (hfail t)
  · rw [h₁, h₂]
    dsimp only
    split_ifs
    · exact congrArg some (ht.flushStream _).streamStorage
    · exact congrArg some ht.streamStorage

end alike

/-! ### Two buffers with the same frame -/

/-- The buffer holds the frame with the control block and the bytes given. -/
structure Skb.Holds (skb : Skb) (cb : Cb) (bs : List UInt8) : Prop where
  carries : Carries skb.buf cb.offset bs
  cb : skb.cb = cb

/-- As many bytes of the frame lie in the linear area of one buffer as of the other. -/
def SamePlace (skb₁ skb₂ : Skb) : Prop :=
  min skb₁.buf.headlen (skb₁.cb.offset + skb₁.cb.fullLen) =
    min skb₂.buf.headlen (skb₂.cb.offset + skb₂.cb.fullLen)

/-- The declared length covers what the handler of the frame reads. -/
def Cb.Suffices (cb : Cb) : Prop :=
  (FrameType.ofByte cb.type = .windowUpdate → cb.streamId = 0 → 13 ≤ cb.fullLen) ∧
  (FrameType.ofByte cb.type = .ping → 17 ≤ cb.fullLen)

/-- What is compared: the queued control frames, `send_quota`, `unacked`, `flow_stalled` and the table of
streams. -/
def effects (r : Option (State × List Event)) :
    Option (List CtrlSkb × Int32 × Int32 × Bool × Buckets (Fin streamHashSize) StreamBuffer) :=
  r.map fun r => (r.1.psock.txWaitQueue, r.1.psock.sendQuota, r.1.psock.unacked, r.1.psock.flowStalled,
    r.1.streamStorage)

/-- The effect of a frame is its own: it is the same from every state for any two buffers that hold the
frame and are related. -/
def Local (hash : ℕ → Fin streamHashSize) (cb : Cb) (bs : List UInt8) (R : Skb → Skb → Prop) : Prop :=
  ∀ (s : State) (a : ℕ) (alloc : Alloc) (skb₁ skb₂ : Skb), skb₁.Holds cb bs → skb₂.Holds cb bs →
    R skb₁ skb₂ → effects (handleH2Frame hash (s.setSkb a skb₁) a alloc) =
      effects (handleH2Frame hash (s.setSkb a skb₂) a alloc)

section locality

variable {hash : ℕ → Fin streamHashSize} {cb : Cb} {bs : List UInt8} {skb skb₁ skb₂ : Skb}

theorem Skb.Holds.type_eq (h : skb.Holds cb bs) : skb.type = .ofByte cb.type := by rw [Skb.type, h.cb]

theorem Skb.Holds.le_len (h : skb.Holds cb bs) (hpos : 0 < bs.length) :
    cb.offset + bs.length ≤ skb.buf.len := by
  have := h.carries.length_le
  omega

/-- A slice of the payload. -/
theorem Skb.Holds.slice (h : skb.Holds cb bs) {n : ℕ} (hn : 9 + n ≤ bs.length) :
    (skb.buf.bytes.drop (cb.offset + 9)).take n = (bs.drop 9).take n := by
  obtain ⟨rest, hrest⟩ := h.carries.starts
  rw [← List.drop_drop, ← hrest, List.drop_append_of_le_length (by omega),
    List.take_append_of_le_length (by rw [List.length_drop]; omega)]

theorem Skb.Holds.grant_eq (h : skb.Holds cb bs) (hsid : cb.streamId = 0) (hlen : 13 ≤ bs.length) :
    skb.grant = windowIncrement ((bs.drop 9).take 4) := by
  have hle := h.le_len (by omega)
  rw [Skb.grant, h.cb, if_neg (not_not.mpr hsid), SkBuff.headerPointer, if_pos (by omega),
    h.slice (by omega)]

/-- The psock after a frame that is long enough for its type. -/
theorem frame_congr (h₁ : skb₁.Holds cb bs) (h₂ : skb₂.Holds cb bs) (hlen : bs.length = cb.fullLen)
    (hs : cb.Suffices) (hplace : FrameType.ofByte cb.type = .ping → SamePlace skb₁ skb₂) (p : Psock)
    (alloc : Alloc) : p.frame skb₁ alloc = p.frame skb₂ alloc := by
  unfold Psock.frame
  rw [h₁.type_eq, h₂.type_eq]
  cases ht : FrameType.ofByte cb.type with
  | data | rstStream => simp only [Psock.account, h₁.cb, h₂.cb]
  | windowUpdate =>
      dsimp only
      by_cases hsid : cb.streamId = 0
      · have h13 := hs.1 ht hsid
        rw [h₁.grant_eq hsid (by omega), h₂.grant_eq hsid (by omega)]
      · rw [Skb.grant, Skb.grant, h₁.cb, h₂.cb, if_pos hsid, if_pos hsid]
  | ping =>
      have h17 := hs.2 ht
      have hle₁ := h₁.le_len (by omega)
      have hle₂ := h₂.le_len (by omega)
      have hpl := hplace ht
      rw [SamePlace, h₁.cb, h₂.cb] at hpl
      have hhead : skb₁.buf.headlen < cb.offset + 17 ↔ skb₂.buf.headlen < cb.offset + 17 := by omega
      have hbuf : skb₁.pingBuf alloc.stack = skb₂.pingBuf alloc.stack := by
        rw [Skb.pingBuf_eq, Skb.pingBuf_eq, h₁.cb, h₂.cb, h₁.slice (by omega), h₂.slice (by omega)]
        refine if_congr ?_ rfl rfl
        rw [hhead]
        exact and_congr_left (fun _ => iff_of_true (by omega) (by omega))
      rw [pingAckSkb, pingAckSkb, hbuf]
  | settings => simp only [Skb.flag1, h₁.cb, h₂.cb]
  | headers | continuation | priority | pushPromise | goaway | unknown => rfl

theorem heap_setSkb (s : State) (a : ℕ) (x : Skb) : (s.setSkb a x).heap a = x := Function.update_self ..

/-- What can be observed of a frame that is not stored. -/
theorem effects_other (s : State) (a : ℕ) (alloc : Alloc) (hc : skb.carried = false) :
    effects (handleH2Frame hash (s.setSkb a skb) a alloc) =
      some ((s.psock.frame skb alloc).txWaitQueue, (s.psock.frame skb alloc).sendQuota,
        (s.psock.frame skb alloc).unacked, (s.psock.frame skb alloc).flowStalled, s.streamStorage) := by
  obtain ⟨s', e, he, ⟨p, rfl⟩, -⟩ :=
    handleH2Frame_other hash (s := s.setSkb a skb) (a := a) alloc (by rw [heap_setSkb, hc])
  have hp : p = s.psock.frame skb alloc := by
    have := handleH2Frame_psock he
    rwa [heap_setSkb] at this
  rw [he, hp]
  rfl

theorem Skb.carried_congr (h : skb₁.cb = skb₂.cb) : skb₁.carried = skb₂.carried := by
  unfold Skb.carried Skb.type
  rw [h]

/-- Two runs from one state, on buffers with the same control block whose frames have the same effect on
the psock. -/
theorem effects_congr (s : State) (a : ℕ) (alloc : Alloc) (hcb : skb₁.cb = skb₂.cb)
    (hp : s.psock.frame skb₁ alloc = s.psock.frame skb₂ alloc) :
    effects (handleH2Frame hash (s.setSkb a skb₁) a alloc) =
      effects (handleH2Frame hash (s.setSkb a skb₂) a alloc) := by
  cases hc : skb₁.carried with
  | false => rw [effects_other s a alloc hc, effects_other s a alloc (Skb.carried_congr hcb ▸ hc), hp]
  | true =>
      have hnext : (s.setSkb a skb₁).strpNext = (s.setSkb a skb₂).strpNext := by
        rw [strpNext_setSkb, strpNext_setSkb, hcb]
      obtain ⟨t₁, h₁, ⟨p₁, rfl⟩⟩ :=
        handleH2Frame_stored hash (s := s.setSkb a skb₁) (a := a) alloc (by rw [heap_setSkb, hc])
      obtain ⟨t₂, h₂, ⟨p₂, rfl⟩⟩ :=
        handleH2Frame_stored hash (s := s.setSkb a skb₂) (a := a) alloc
          (by rw [heap_setSkb, ← Skb.carried_congr hcb, hc])
      have hstore : (handleH2Frame hash (s.setSkb a skb₁) a alloc).map (fun r => r.1.streamStorage) =
          (handleH2Frame hash (s.setSkb a skb₂) a alloc).map (fun r => r.1.streamStorage) := by
        have halike : Alike { s.setSkb a skb₁ with psock := p₁ } { s.setSkb a skb₂ with psock := p₂ } :=
          ⟨rfl, rfl, hnext⟩
        rw [h₁, h₂]
        refine halike.storeFrame ?_ alloc
        change ((s.setSkb a skb₁).heap a).cb = ((s.setSkb a skb₂).heap a).cb
        rw [heap_setSkb, heap_setSkb, hcb]
      cases hr₁ : handleH2Frame hash (s.setSkb a skb₁) a alloc with
      | none =>
          rw [hr₁] at hstore
          rw [Option.map_eq_none_iff.mp hstore.symm]
      | some r₁ =>
          rw [hr₁] at hstore
          obtain ⟨r₂, hr₂, hst⟩ := Option.map_eq_some_iff.mp hstore.symm
          have hp₁ := handleH2Frame_psock hr₁
          have hp₂ := handleH2Frame_psock hr₂
          rw [heap_setSkb] at hp₁ hp₂
          rw [hr₂, effects, effects, Option.map_some, Option.map_some, hp₁, hp₂, hst]
          change some ((s.psock.frame skb₁ alloc).txWaitQueue, _) = some ((s.psock.frame skb₂ alloc).txWaitQueue, _)
          rw [show (s.setSkb a skb₁).psock = s.psock from rfl, show (s.setSkb a skb₂).psock = s.psock from rfl,
            hp]

/-! ### Frames that are too short -/

/-- A buffer that holds the frame, in its linear area or in a page fragment, with other bytes behind it. -/
def placed (cb : Cb) (linear : Bool) (bs tail : List UInt8) : Skb where
  cb := cb
  buf := let l := List.replicate cb.offset 0 ++ (bs ++ tail)
    if linear then bufferOf l [] else bufferOf [] l

theorem placed_bytes (cb : Cb) (linear : Bool) (bs tail : List UInt8) :
    (placed cb linear bs tail).buf.bytes = List.replicate cb.offset 0 ++ (bs ++ tail) := by
  cases linear <;> simp [placed, bufferOf, SkBuff.bytes, SkBuff.bytesOf]

theorem placed_wf (cb : Cb) (linear : Bool) (bs tail : List UInt8) : (placed cb linear bs tail).buf.Wf := by
  cases linear <;> exact wf_bufferOf ..

theorem placed_len (cb : Cb) (linear : Bool) (bs tail : List UInt8) :
    (placed cb linear bs tail).buf.len = cb.offset + (bs.length + tail.length) := by
  rw [(placed_wf ..).len_eq, placed_bytes, List.length_append, List.length_replicate, List.length_append]

theorem placed_holds (cb : Cb) (linear : Bool) (bs tail : List UInt8) :
    (placed cb linear bs tail).Holds cb bs := by
  refine ⟨⟨placed_wf .., ?_⟩, rfl⟩
  rw [placed_bytes, List.drop_left' List.length_replicate]
  exact List.prefix_append ..

theorem placed_headlen (cb : Cb) (bs tail : List UInt8) :
    (placed cb false bs tail).buf.headlen = 0 := by
  simp [placed, bufferOf, SkBuff.headlen, SkBuff.len, SkBuff.dataLen]

/-- The bytes that are read at the place of the payload. -/
theorem placed_payload (cb : Cb) (linear : Bool) {bs : List UInt8} (tail : List UInt8) (hlen : 9 ≤ bs.length) :
    (placed cb linear bs tail).buf.bytes.drop (cb.offset + 9) = bs.drop 9 ++ tail := by
  rw [placed_bytes, ← List.drop_drop, List.drop_left' List.length_replicate,
    List.drop_append_of_le_length hlen]

/-- What is read for an increment. -/
theorem grant_placed (hsid : cb.streamId = 0) (linear : Bool) (tail : List UInt8) (hlen : 9 ≤ bs.length) :
    (placed cb linear bs tail).grant =
      if 13 ≤ bs.length + tail.length then windowIncrement ((bs.drop 9 ++ tail).take 4) else 0 := by
  have hle : cb.offset + 9 + 4 ≤ cb.offset + (bs.length + tail.length) ↔ 13 ≤ bs.length + tail.length := by
    omega
  rw [Skb.grant, (placed_holds cb linear bs tail).cb, if_neg (not_not.mpr hsid), SkBuff.headerPointer,
    placed_len, placed_payload cb linear tail hlen]
  simp only [hle]
  split_ifs <;> rfl

/-- What is sent as the payload of a PING frame in a page fragment. -/
theorem pingBuf_placed (cb : Cb) (tail stack : List UInt8) (hlen : 9 ≤ bs.length) :
    (placed cb false bs tail).pingBuf stack =
      if 17 ≤ bs.length + tail.length then (bs.drop 9 ++ tail).take 8 else stack := by
  rw [Skb.pingBuf_eq, (placed_holds cb false bs tail).cb, placed_len, placed_headlen,
    placed_payload cb false tail hlen]
  refine if_congr ?_ rfl rfl
  omega

/-- What is sent as the payload of a PING frame in the linear area. -/
theorem pingBuf_placed_linear (cb : Cb) (stack : List UInt8) :
    (placed cb true bs []).pingBuf stack = stack := by
  have hhead : (placed cb true bs []).buf.headlen = (placed cb true bs []).buf.len := by
    simp [placed, bufferOf, SkBuff.headlen, SkBuff.len, SkBuff.dataLen]
  rw [Skb.pingBuf_eq, hhead, if_neg (by omega)]

theorem samePlace_placed (cb : Cb) (bs tail tail' : List UInt8) :
    SamePlace (placed cb false bs tail) (placed cb false bs tail') := by
  rw [SamePlace, placed_headlen, placed_headlen]
  rfl

/-- An odd increment is not zero. -/
theorem windowIncrement_ne_zero {p : List UInt8} (h : p.getD 3 0 = 1) : windowIncrement p ≠ 0 := by
  intro hz
  have hval := toInt_windowIncrement p
  have hzero : (0 : Int32).toInt = 0 := rfl
  rw [hz, hzero, h] at hval
  have hodd := beNum_append [p.getD 0 0, p.getD 1 0, p.getD 2 0] 1
  change beNum [p.getD 0 0, p.getD 1 0, p.getD 2 0, 1] = _ + 1 at hodd
  omega

/-- The last of `n` bytes read behind a frame that is shorter. -/
theorem getD_read {l : List UInt8} {n : ℕ} {b : UInt8} (h : l.length ≤ n) :
    ((l ++ List.replicate (n + 1) b).take (n + 1)).getD n 0 = b := by
  rw [List.getD, List.getElem?_take_of_lt (Nat.lt_succ_self n), List.getElem?_append_right h,
    List.getElem?_replicate_of_lt (by omega)]
  rfl

theorem Local.mono {R R' : Skb → Skb → Prop} (h : Local hash cb bs R)
    (hr : ∀ skb₁ skb₂, R' skb₁ skb₂ → R skb₁ skb₂) : Local hash cb bs R' :=
  fun s a alloc skb₁ skb₂ h₁ h₂ hR => h s a alloc skb₁ skb₂ h₁ h₂ (hr _ _ hR)

/-- A frame that is long enough has an effect of its own. -/
theorem local_of_suffices (hlen : bs.length = cb.fullLen) (hs : cb.Suffices) {R : Skb → Skb → Prop}
    (hR : ∀ skb₁ skb₂, R skb₁ skb₂ → FrameType.ofByte cb.type = .ping → SamePlace skb₁ skb₂) :
    Local hash cb bs R := by
  intro s a alloc skb₁ skb₂ h₁ h₂ hr
  exact effects_congr s a alloc (h₁.cb.trans h₂.cb.symm)
    (frame_congr h₁ h₂ hlen hs (hR skb₁ skb₂ hr) s.psock alloc)

/-- A psock that has sent and received nothing. -/
def idlePsock : Psock := ⟨0, 1000, 0, 0, false, [], false⟩

/-- What two runs on a new psock must agree on if the effect of a frame that is not stored is its own. -/
theorem Local.frame_eq {R : Skb → Skb → Prop} (h : Local hash cb bs R) (h₁ : skb₁.Holds cb bs)
    (h₂ : skb₂.Holds cb bs) (hR : R skb₁ skb₂) (hc : skb₁.carried = false) (alloc : Alloc) :
    (idlePsock.frame skb₁ alloc).txWaitQueue = (idlePsock.frame skb₂ alloc).txWaitQueue ∧
    (idlePsock.frame skb₁ alloc).sendQuota = (idlePsock.frame skb₂ alloc).sendQuota := by
  have he := h (.init (fun _ => skb₁) idlePsock) 0 alloc skb₁ skb₂ h₁ h₂ hR
  have hc₂ : skb₂.carried = false := by rw [← Skb.carried_congr (h₁.cb.trans h₂.cb.symm), hc]
  rw [effects_other _ 0 alloc hc, effects_other _ 0 alloc hc₂, Option.some_inj, Prod.mk.injEq,
    Prod.mk.injEq] at he
  exact ⟨he.1, he.2.1⟩

/-- A short WINDOW_UPDATE frame at the end of its buffer grants nothing; bytes behind it are taken for its
payload. -/
theorem not_local_windowUpdate (hlen : bs.length = cb.fullLen) (h9 : 9 ≤ cb.fullLen)
    (ht : FrameType.ofByte cb.type = .windowUpdate) (hsid : cb.streamId = 0) (hshort : cb.fullLen < 13) :
    ¬ Local hash cb bs SamePlace := by
  intro h
  have hc : (placed cb false bs []).carried = false := by rw [Skb.carried, (placed_holds ..).type_eq, ht]
  have hframe : ∀ tail, (idlePsock.frame (placed cb false bs tail) granted).sendQuota =
      0 + (placed cb false bs tail).grant := by
    intro tail
    rw [Psock.frame, (placed_holds ..).type_eq, ht, Psock.credited_sendQuota]
    rfl
  have hq := (h.frame_eq (placed_holds cb false bs []) (placed_holds cb false bs (List.replicate 4 1))
    (samePlace_placed ..) hc granted).2
  rw [hframe, hframe, grant_placed hsid _ _ (by omega), grant_placed hsid _ _ (by omega), List.length_nil,
    List.length_replicate, if_neg (by omega), if_pos (by omega), Int32.zero_add, Int32.zero_add] at hq
  exact windowIncrement_ne_zero (getD_read (by rw [List.length_drop]; omega)) hq.symm

/-- The reply of a new psock to a PING frame. -/
theorem txWaitQueue_ping (h : skb.Holds cb bs) (ht : FrameType.ofByte cb.type = .ping) (stack : List UInt8) :
    (idlePsock.frame skb ⟨true, true, stack⟩).txWaitQueue = [pingAckSkb skb stack] := by
  rw [Psock.frame, h.type_eq, ht, Psock.queue_txWaitQueue]
  rfl

theorem Local.pingBuf_eq {R : Skb → Skb → Prop} (h : Local hash cb bs R)
    (ht : FrameType.ofByte cb.type = .ping) (h₁ : skb₁.Holds cb bs) (h₂ : skb₂.Holds cb bs)
    (hR : R skb₁ skb₂) (stack : List UInt8) :
    (skb₁.pingBuf stack).take 8 = (skb₂.pingBuf stack).take 8 := by
  have hc : skb₁.carried = false := by rw [Skb.carried, h₁.type_eq, ht]
  have hq := (h.frame_eq h₁ h₂ hR hc ⟨true, true, stack⟩).1
  rw [txWaitQueue_ping h₁ ht, txWaitQueue_ping h₂ ht, List.singleton_inj, pingAckSkb, pingAckSkb,
    CtrlSkb.mk.injEq, List.append_cancel_left_eq] at hq
  exact hq.1

/-- A short PING frame at the end of its buffer is answered with the local buffer; bytes behind it are
taken for its payload. -/
theorem not_local_ping (hlen : bs.length = cb.fullLen) (h9 : 9 ≤ cb.fullLen)
    (ht : FrameType.ofByte cb.type = .ping) (hshort : cb.fullLen < 17) : ¬ Local hash cb bs SamePlace := by
  intro h
  have hq := h.pingBuf_eq ht (placed_holds cb false bs []) (placed_holds cb false bs (List.replicate 8 1))
    (samePlace_placed ..) (List.replicate 8 0)
  rw [pingBuf_placed cb _ _ (by omega), pingBuf_placed cb _ _ (by omega), List.length_nil,
    List.length_replicate, if_neg (by omega), if_pos (by omega), List.take_take, Nat.min_self] at hq
  have hlast := congrArg (fun l : List UInt8 => l.getD 7 0) hq
  rw [getD_read (b := 1) (n := 7) (by rw [List.length_drop]; omega)] at hlast
  exact absurd hlast (by decide)

/-- The reply to a PING frame tells on which side of the linear area its payload lies. -/
theorem not_local_ping_place (hlen : bs.length = cb.fullLen) (h17 : 17 ≤ cb.fullLen)
    (ht : FrameType.ofByte cb.type = .ping) : ¬ Local hash cb bs (fun _ _ => True) := by
  intro h
  obtain ⟨b, l, hbs⟩ : ∃ b l, (bs.drop 9).take 8 = b :: l := by
    refine List.exists_cons_of_length_pos ?_
    rw [List.length_take, List.length_drop]
    omega
  have hq := h.pingBuf_eq ht (placed_holds cb true bs []) (placed_holds cb false bs []) trivial
    (List.replicate 8 (b + 1))
  rw [pingBuf_placed_linear, pingBuf_placed cb _ _ (by omega), if_pos (by omega), List.append_nil,
    List.take_take, Nat.min_self, hbs] at hq
  have hhead : b + 1 = b := List.head_eq_of_cons_eq hq
  have hcases := congrArg UInt8.toNat hhead
  rw [UInt8.toNat_add] at hcases
  change (b.toNat + 1) % 256 = b.toNat at hcases
  have := b.toNat_lt
  omega

/-! ### The main result -/

/-- **Locality.**  For every frame, of any type, declared length and payload: its effect on the control
frames, the counters of the psock and the table of streams is the same for all buffers that hold it in the
same place and differ behind it, if and only if the declared length covers what the handler reads; and the
same for all buffers that hold it anywhere, if and only if moreover it is not a PING frame. -/
theorem effects_local_iff (hlen : bs.length = cb.fullLen) (h9 : 9 ≤ cb.fullLen) :
    (Local hash cb bs SamePlace ↔
      (FrameType.ofByte cb.type = .windowUpdate → cb.streamId = 0 → 13 ≤ cb.fullLen) ∧
      (FrameType.ofByte cb.type = .ping → 17 ≤ cb.fullLen)) ∧
    (Local hash cb bs (fun _ _ => True) ↔
      (FrameType.ofByte cb.type = .windowUpdate → cb.streamId = 0 → 13 ≤ cb.fullLen) ∧
      FrameType.ofByte cb.type ≠ .ping) := by
  have hnec : Local hash cb bs SamePlace → cb.Suffices := by
    intro h
    constructor
    · intro ht hsid
      by_contra hn
      exact not_local_windowUpdate hlen h9 ht hsid (by omega) h
    · intro ht
      by_contra hn
      exact not_local_ping hlen h9 ht (by omega) h
  refine ⟨⟨hnec, fun hs => local_of_suffices hlen hs (fun _ _ hR _ => hR)⟩, ?_, ?_⟩
  · intro h
    have hs := hnec (h.mono (fun _ _ _ => trivial))
    exact ⟨hs.1, fun ht => not_local_ping_place hlen (hs.2 ht) ht h⟩
  · rintro ⟨hw, hp⟩
    exact local_of_suffices hlen ⟨hw, fun ht => absurd ht hp⟩ (fun _ _ _ ht => absurd ht hp)

/-- A WINDOW_UPDATE frame of four bytes behind one byte of another frame: bytes behind it do not matter. -/
theorem effects_local_windowUpdate :
    Local (fun _ => 0) ⟨0, 13, 1, 0, 8, 0, 0, none⟩ [0, 0, 4, 8, 0, 0, 0, 0, 0, 0, 0, 1, 0] (fun _ _ => True) :=
  (effects_local_iff rfl (by decide)).2.mpr (by decide)

/-- Two buffers with the same WINDOW_UPDATE frame without payload, and with the same PING frame of two
bytes: what follows in the buffer is added to the quota, and sent back. -/
theorem effects_not_local :
    let update : Cb := ⟨0, 9, 0, 0, 8, 0, 0, none⟩
    let ping : Cb := ⟨0, 11, 0, 0, 6, 0, 0, none⟩
    let run := fun skb => (handleH2Frame (fun _ => 0) ((State.init (fun _ => skb) idlePsock).setSkb 0 skb) 0
      ⟨true, true, List.replicate 8 0⟩).map (fun r => (r.1.psock.sendQuota, r.1.psock.txWaitQueue))
    run (placed update false [0, 0, 0, 8, 0, 0, 0, 0, 0] [0, 0, 0, 5]) = some (5, []) ∧
    run (placed update false [0, 0, 0, 8, 0, 0, 0, 0, 0] [0, 0, 0, 7]) = some (7, []) ∧
    run (placed ping false [0, 0, 2, 6, 0, 0, 0, 0, 0, 1, 2] [3, 4, 5, 6, 7, 8]) =
      some (0, [⟨[0, 0, 8, 6, 1, 0, 0, 0, 0, 1, 2, 3, 4, 5, 6, 7, 8], 17⟩]) ∧
    run (placed ping false [0, 0, 2, 6, 0, 0, 0, 0, 0, 1, 2] [9, 9, 9, 9, 9, 9]) =
      some (0, [⟨[0, 0, 8, 6, 1, 0, 0, 0, 0, 1, 2, 9, 9, 9, 9, 9, 9], 17⟩]) := by
  decide +kernel

end locality

end Rakaia.H2
