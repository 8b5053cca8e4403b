import Rakaia.H2.Reassembly

/-! # What becomes of a frame

`handle_h2_frame` owns the buffer it is called with.  It keeps the buffer in the chain of a stream,
hands it up with the message that it completes, or frees it.  `storedIn`, `handedUp` and `frees` count
how often each of the three happens to the buffer of a frame, and the buffer is disposed of once when
they add up to one.  Two paths break this.  `send_pingack` frees a PING frame whose payload it cannot
read and goes on, to free it again at its end, or not at all when the reply cannot be allocated.  And the
caller of `handle_h2_frame` ignores its result, so a frame that finds no memory for a stream is dropped.

The reply to a PING frame is read from the local buffer of `send_pingack`, which `skb_header_pointer`
leaves as it is when the payload lies in the linear area. -/

namespace Rakaia.H2

open Lib

/-! ### Replies to PING frames -/

/-- A PING frame with a payload of eight bytes, complete in its buffer. -/
structure Skb.Ping (skb : Skb) : Prop where
  type : skb.type = .ping
  fullLen : skb.cb.fullLen = 17
  wf : skb.buf.Wf
  inside : skb.cb.offset + skb.cb.fullLen ≤ skb.buf.len

/-- The opaque data of a PING frame. -/
def Skb.pingData (skb : Skb) : List UInt8 := (skb.buf.bytes.drop (skb.cb.offset + 9)).take 8

/-- The PING frame with the ACK flag on stream 0 that carries `payload`. -/
def pingAck (payload : List UInt8) : CtrlSkb := ⟨[0, 0, 8, 0x06, 0x01, 0, 0, 0, 0] ++ payload, 17⟩

variable (hash : ℕ → Fin streamHashSize)

/-- What the protocol asks for: one reply with the same data, and none to a reply. -/
def PingExact (s : State) (a : ℕ) (alloc : Alloc) : Prop :=
  (handleH2Frame hash s a alloc).map (fun r => r.1.psock.txWaitQueue) =
    some (s.psock.txWaitQueue ++ if (s.heap a).flag1 then [] else [pingAck (s.heap a).pingData])

instance (s : State) (a : ℕ) (alloc : Alloc) : Decidable (PingExact hash s a alloc) :=
  inferInstanceAs (Decidable (_ = _))

variable {hash : ℕ → Fin streamHashSize} {s s' : State} {sp : Spec} {a : ℕ} {skb : Skb} {alloc : Alloc}

theorem Skb.Ping.length_pingData (h : skb.Ping) : skb.pingData.length = 8 := by
  have hin := h.inside
  have hlen := h.wf.len_eq
  have hfull := h.fullLen
  rw [Skb.pingData, List.length_take, List.length_drop]
  omega

/-- The payload of the reply: what the local buffer holds behind `skb_header_pointer`. -/
theorem Skb.Ping.headerPointerBuf_eq (h : skb.Ping) (buf : List UInt8) :
    headerPointerBuf skb.buf (skb.cb.offset + 9) 8 buf =
      some (skb.pingData, if skb.cb.offset + 17 ≤ skb.buf.headlen then buf else skb.pingData) := by
  have hin := h.inside
  rw [h.fullLen] at hin
  have hp : skb.buf.headerPointer (skb.cb.offset + 9) 8 = some skb.pingData :=
    if_pos (by omega)
  rw [headerPointerBuf, hp]

/-- One reply is queued, whatever the flags say, and it carries the local buffer. -/
theorem handleH2Frame_ping (h : (s.heap a).Ping) (hc : alloc.ctrl = true) (hst : alloc.stack.length = 8) :
    (handleH2Frame hash s a alloc).map (fun r => r.1.psock.txWaitQueue) =
      some (s.psock.txWaitQueue ++ [pingAck (if (s.heap a).cb.offset + 17 ≤ (s.heap a).buf.headlen
        then alloc.stack else (s.heap a).pingData)]) := by
  have hlen : ∀ (p : Prop) [Decidable p],
      (if p then alloc.stack else (s.heap a).pingData).length ≤ 8 := by
    intro p _
    split_ifs
    · exact hst.le
    · exact h.length_pingData.le
  simp only [handleH2Frame, h.type, sendPingack, hc, h.headerPointerBuf_eq, if_true, Option.map_some,
    State.queueCtrl, Option.getD_some, List.take_of_length_le (hlen _), pingAck]

/-- **PING replies.**  With a reply that can be allocated, a PING frame of eight bytes is answered as the
protocol asks if and only if its ACK flag is clear and its payload is not wholly in the linear area, or the
local buffer happens to hold the same bytes. -/
theorem pingExact_iff (h : (s.heap a).Ping) (hc : alloc.ctrl = true) (hst : alloc.stack.length = 8) :
    PingExact hash s a alloc ↔ (s.heap a).flag1 = false ∧
      ((s.heap a).cb.offset + 17 ≤ (s.heap a).buf.headlen → alloc.stack = (s.heap a).pingData) := by
  rw [PingExact, handleH2Frame_ping h hc hst, Option.some_inj, List.append_cancel_left_eq]
  cases (s.heap a).flag1 with
  | true => simp
  | false =>
      simp only [Bool.false_eq_true, if_false, true_and, List.cons.injEq, and_true, pingAck,
        CtrlSkb.mk.injEq, List.append_cancel_left_eq]
      split_ifs with hl
      · exact ⟨fun h _ => h, fun h => h hl⟩
      · exact iff_of_true rfl (fun h => absurd h hl)

/-- A PING frame whose payload lies in the linear area. -/
def linearPing (flag : UInt8) : Skb where
  cb := ⟨0, 17, 0, 0, 6, flag, 0, none⟩
  buf := .mk 17 0 0 [0, 0, 8, 6, flag, 0, 0, 0, 0, 1, 2, 3, 4, 5, 6, 7, 8] [] []

/-- A new psock and one buffer. -/
def freshState (skb : Skb) : State := (State.init (fun _ => skb) ⟨0, 1000, 0, 65535, false, [], false⟩).alloc skb

/-- Memory for everything, and eight bytes that lie on the stack. -/
def stacked : Alloc := ⟨true, true, List.replicate 8 0xaa⟩

/-- With its payload in a page fragment a PING frame gets the right reply. -/
theorem pingExact_fragment : (frameSkb 6 0 0 [1, 2, 3, 4, 5, 6, 7, 8]).Ping ∧
    PingExact (fun _ => 0) (freshState (frameSkb 6 0 0 [1, 2, 3, 4, 5, 6, 7, 8])) 0 stacked := by
  have h : (frameSkb 6 0 0 [1, 2, 3, 4, 5, 6, 7, 8]).Ping :=
    ⟨rfl, rfl, ⟨rfl, .mk rfl (by simp) (by simp)⟩, le_rfl⟩
  exact ⟨h, (pingExact_iff h rfl rfl).mpr ⟨rfl, fun hl => absurd hl (by decide)⟩⟩

/-- In the linear area the reply carries eight bytes of the stack, and a PING frame with the ACK flag is
answered too. -/
theorem ping_reply_wrong :
    ¬ PingExact (fun _ => 0) (freshState (linearPing 0)) 0 stacked ∧
    ¬ PingExact (fun _ => 0) (freshState (linearPing 1)) 0 stacked ∧
    (handleH2Frame (fun _ => 0) (freshState (linearPing 0)) 0 stacked).map (fun r => r.1.psock.txWaitQueue) =
      some [pingAck (List.replicate 8 0xaa)] := by
  decide +kernel

/-! ### Counting what happens to a buffer -/

/-- The number of entries of `stream_storage` whose chain contains the buffer. -/
def storedIn (s : State) (a : ℕ) : ℕ :=
  ((List.finRange streamHashSize).flatMap s.streamStorage).countP (fun b => a ∈ (s.chain b.skb).getD [])

/-- The number of calls of `rcv_msg` with a chain that contains the buffer. -/
def handedUp (s : State) (e : List Event) (a : ℕ) : ℕ :=
  (rcvMsgs e).countP (fun head => a ∈ (s.chain head).getD [])

/-- The number of calls of `kfree_skb` for the buffer. -/
def frees (e : List Event) (a : ℕ) : ℕ :=
  e.countP (fun
    | .freed b => b = a
    | _ => false)

/-- The buffer is in one chain, or went up in one message, or was freed once, and nothing else. -/
def Disposed (s : State) (e : List Event) (a : ℕ) : Prop := storedIn s a + handedUp s e a + frees e a = 1

instance (s : State) (e : List Event) (a : ℕ) : Decidable (Disposed s e a) :=
  inferInstanceAs (Decidable (_ = _))

/-- The chain of an entry of the table is the frames of its stream. -/
theorem Holds.chain_entry (h : Holds hash s sp) {b : StreamBuffer}
    (hb : b ∈ (List.finRange streamHashSize).flatMap s.streamStorage) :
    s.chain b.skb = some ((sp (.stream b.streamId)).map Prod.fst) := by
  obtain ⟨i, -, hi⟩ := List.mem_flatMap.mp hb
  have hl := h.lookup b.streamId
  rw [streamLookup, h.table.lookup_of_mem hi] at hl
  have hfollow := h.follow (.stream b.streamId) (fun l a => l ++ [a]) []
  rw [foldl_snoc, List.nil_append] at hfollow
  rw [State.chain, ← hfollow, List.head?_map]
  cases hsp : (sp (.stream b.streamId)).head? with
  | none => rw [hsp] at hl; cases hl
  | some f =>
      rw [hsp] at hl
      rw [Option.some.inj hl]
      rfl

theorem Holds.storedIn_eq_zero (h : Holds hash s sp)
    (ha : ∀ sid, a ∉ (sp (.stream sid)).map Prod.fst) : storedIn s a = 0 := by
  rw [storedIn, List.countP_eq_zero]
  intro b hb
  rw [h.chain_entry hb, decide_eq_true_eq]
  exact ha b.streamId

/-- A buffer that a stream holds is in one chain: chains are disjoint and the stream has one entry. -/
theorem Holds.storedIn_eq_one (h : Holds hash s sp) {sid : ℕ}
    (ha : a ∈ (sp (.stream sid)).map Prod.fst) : storedIn s a = 1 := by
  have hcount := h.table.countP_eq (List.nodup_finRange _) List.mem_finRange sid
  rw [← streamLookup, h.lookup] at hcount
  obtain ⟨f, fs, hsp⟩ := List.exists_cons_of_ne_nil (l := sp (.stream sid)) (by rintro hn; simp [hn] at ha)
  rw [hsp] at hcount
  rw [storedIn, ← (hcount.trans (if_pos rfl))]
  refine List.countP_congr (fun b hb => ?_)
  rw [h.chain_entry hb, Option.getD_some, decide_eq_true_eq, decide_eq_true_eq]
  constructor
  · intro hm
    exact Holder.stream.inj (h.chains.disjoint _ _ a hm ha)
  · rintro rfl
    exact ha

/-! ### One frame -/

/-- How often the buffer of a frame that is not stored is freed. -/
def Skb.timesFreed (skb : Skb) (alloc : Alloc) : ℕ :=
  if skb.type = .ping then
    (if skb.cb.offset + 17 ≤ skb.buf.len then 0 else 1) + (if alloc.ctrl then 1 else 0)
  else 1

theorem headerPointerBuf_isNone (skb : SkBuff) (offset n : ℕ) (buf : List UInt8) :
    (headerPointerBuf skb offset n buf).isNone = !decide (offset + n ≤ skb.len) := by
  unfold headerPointerBuf SkBuff.headerPointer
  split_ifs with h <;> simp [h]

theorem sendPingack_events (s : State) (a : ℕ) (alloc : Alloc) : (sendPingack s a alloc).2 =
    List.replicate ((if (s.heap a).cb.offset + 17 ≤ (s.heap a).buf.len then 0 else 1) +
      (if alloc.ctrl then 1 else 0)) (.freed a) := by
  have hp := headerPointerBuf_isNone (s.heap a).buf ((s.heap a).cb.offset + 9) 8 alloc.stack
  unfold sendPingack
  dsimp only
  generalize headerPointerBuf (s.heap a).buf ((s.heap a).cb.offset + 9) 8 alloc.stack = p at hp ⊢
  cases p with
  | none =>
      have hn : ¬ (s.heap a).cb.offset + 9 + 8 ≤ (s.heap a).buf.len := by simpa using hp
      rw [if_neg hn]
      cases alloc.ctrl <;> rfl
  | some p =>
      have hn : (s.heap a).cb.offset + 9 + 8 ≤ (s.heap a).buf.len := by simpa using hp
      rw [if_pos hn]
      cases alloc.ctrl <;> rfl

theorem processIncomingWindowUpdate_events (s : State) (a : ℕ) :
    (processIncomingWindowUpdate s a).2 = [.freed a] := by
  unfold processIncomingWindowUpdate
  dsimp only
  split_ifs
  · rfl
  · split
    · rfl
    · split_ifs <;> rfl

theorem handleH2Frame_other_events (hc : (s.heap a).carried = false) {e : List Event}
    (h : handleH2Frame hash s a alloc = some (s', e)) :
    e = List.replicate ((s.heap a).timesFreed alloc) (.freed a) := by
  unfold Skb.carried at hc
  unfold handleH2Frame at h
  cases ht : (s.heap a).type with
  | data | headers | continuation | rstStream => rw [ht] at hc; cases hc
  | priority | pushPromise | goaway | unknown | settings =>
      simp only [ht, Option.some.injEq, Prod.mk.injEq] at h
      rw [Skb.timesFreed, ht, if_neg (by decide)]
      exact h.2.symm
  | ping =>
      simp only [ht, Option.some.injEq] at h
      rw [Skb.timesFreed, if_pos ht, ← sendPingack_events, h]
  | windowUpdate =>
      simp only [ht, Option.some.injEq] at h
      have he := processIncomingWindowUpdate_events s a
      rw [h] at he
      rw [Skb.timesFreed, ht, if_neg (by decide)]
      exact he

/-- The buffer of a frame that is not stored, is held by nobody and freed so many times. -/
theorem frame_other_counts (alloc : Alloc) (h : Holds hash s sp) (hc : skb.carried = false) :
    ∃ s' e, step hash s (.frame skb alloc) = some (s', .frame s.brk skb :: e) ∧ Holds hash s' sp ∧
      storedIn s' s.brk + handedUp s' e s.brk + frees e s.brk = skb.timesFreed alloc := by
  obtain ⟨h₀, hfresh⟩ := h.alloc skb
  have hskb : (s.alloc skb).heap s.brk = skb := Function.update_self ..
  obtain ⟨s', e, he, hp, hfree⟩ :=
    handleH2Frame_other hash (s := s.alloc skb) (a := s.brk) alloc (by rw [hskb, hc])
  have h' := h₀.onlyPsock hp
  have hev := handleH2Frame_other_events (by rw [hskb, hc]) he
  rw [hskb] at hev
  refine ⟨s', e, by rw [step, he]; rfl, h', ?_⟩
  rw [h'.storedIn_eq_zero (fun sid => hfresh _), handedUp, hfree.rcvMsgs, hev, frees]
  simp [List.countP_replicate]

/-- A frame that finds neither its stream nor memory for one is dropped. -/
theorem frame_enomem_counts (h : Holds hash s sp) (hc : skb.carried = true)
    (hsp : sp (.stream skb.cb.streamId) = []) (hal : alloc.stream = false) :
    ∃ s', step hash s (.frame skb alloc) = some (s', [.frame s.brk skb]) ∧ Holds hash s' sp ∧
      storedIn s' s.brk + handedUp s' [] s.brk + frees [] s.brk = 0 := by
  obtain ⟨h₀, hfresh⟩ := h.alloc skb
  have hskb : (s.alloc skb).heap s.brk = skb := Function.update_self ..
  obtain ⟨s₁, he, hp⟩ :=
    handleH2Frame_stored hash (s := s.alloc skb) (a := s.brk) alloc (by rw [hskb, hc])
  have h₁ := h₀.onlyPsock hp
  obtain ⟨p, rfl⟩ := hp
  have hl := h₁.lookup skb.cb.streamId
  rw [hsp] at hl
  have hstore : storeFrame hash { s.alloc skb with psock := p } s.brk alloc =
      some ({ s.alloc skb with psock := p }, []) := by
    simp only [storeFrame, hskb, addSkbToStream, hl, List.head?_nil, Option.map_none, createStreamHead, hal,
      Bool.false_eq_true, if_false]
  refine ⟨_, by rw [step, he, hstore]; rfl, h₁, ?_⟩
  rw [h₁.storedIn_eq_zero (fun sid => hfresh _)]
  rfl

/-- A frame that is stored stays in the chain of its stream or goes up with it. -/
theorem frame_stored_counts (h : Holds hash s sp) (hf : skb.Complete) (hc : skb.carried = true)
    (hal : sp (.stream skb.cb.streamId) = [] → alloc.stream = true) :
    ∃ s' e, step hash s (.frame skb alloc) = some (s', .frame s.brk skb :: e) ∧ (∃ sp', Holds hash s' sp') ∧
      storedIn s' s.brk + handedUp s' e s.brk + frees e s.brk = 1 := by
  obtain ⟨s', hs', h'⟩ := frame_stored_spec h hf hc hal
  refine ⟨s', _, hs', ⟨_, h'⟩, ?_⟩
  cases he : skb.ends with
  | false =>
      have hsp : sp.step (.frame s.brk skb) = sp.add (s.brk, skb) := by simp [Spec.step, hc, he]
      rw [hsp] at h'
      have hin : s.brk ∈ (sp.add (s.brk, skb) (.stream skb.cb.streamId)).map Prod.fst := by
        simp [Spec.add]
      rw [h'.storedIn_eq_one hin]
      rfl
  | true =>
      obtain ⟨head, hhead⟩ : ∃ head, headAddr (sp.message s.brk skb) = head := ⟨_, rfl⟩
      have hmsg : sp.step (.frame s.brk skb) (.message head) = sp.message s.brk skb := by
        subst hhead
        simp [Spec.step, hc, he, Spec.flush, Spec.add, Spec.message]
      have hmem : s.brk ∈ (sp.step (.frame s.brk skb) (.message head)).map Prod.fst := by
        simp [hmsg, Spec.message]
      have hne : sp.step (.frame s.brk skb) (.message head) ≠ [] := by rw [hmsg]; simp [Spec.message]
      have hchain := h'.chain_eq hne
      have hnot : storedIn s' s.brk = 0 :=
        h'.storedIn_eq_zero (fun sid hm => by cases h'.chains.disjoint _ _ _ hm hmem)
      simp only [hhead, if_true, hnot, handedUp, rcvMsgs, List.filterMap_cons, List.filterMap_nil, frees]
      simpa [hchain] using hmem

/-! ### Runs -/

/-- The frames that arrive are complete; allocations may fail. -/
def Arrives (_ : State) : Act → Prop
  | .frame skb _ => skb.Complete
  | .recvmsg .. => True

/-- When the buffer of a frame is disposed of once.  A frame that is stored needs its stream, or memory for
a new one; the reply to a PING frame must be allocated if its payload can be read, and must not if it
cannot. -/
def Disposable (hash : ℕ → Fin streamHashSize) (s : State) (skb : Skb) (alloc : Alloc) : Prop :=
  if skb.carried then (streamLookup hash s skb.cb.streamId).isSome ∨ alloc.stream = true
  else skb.type = .ping → (alloc.ctrl = true ↔ skb.cb.offset + 17 ≤ skb.buf.len)

theorem timesFreed_eq_one_iff (skb : Skb) (alloc : Alloc) : skb.timesFreed alloc = 1 ↔
    (skb.type = .ping → (alloc.ctrl = true ↔ skb.cb.offset + 17 ≤ skb.buf.len)) := by
  unfold Skb.timesFreed
  by_cases hp : skb.type = .ping
  · cases alloc.ctrl <;> by_cases hl : skb.cb.offset + 17 ≤ skb.buf.len <;> simp [hp, hl]
  · simp [hp]

/-- What one frame does to its buffer, and that the relation between heap and streams survives it. -/
theorem frame_counts (h : Holds hash s sp) (hf : skb.Complete) (alloc : Alloc) :
    ∃ s' e, step hash s (.frame skb alloc) = some (s', .frame s.brk skb :: e) ∧ (∃ sp', Holds hash s' sp') ∧
      (Disposed s' e s.brk ↔ Disposable hash s skb alloc) := by
  unfold Disposable Disposed
  cases hc : skb.carried with
  | false =>
      obtain ⟨s', e, hs', h', hn⟩ := frame_other_counts alloc h hc
      refine ⟨s', e, hs', ⟨sp, h'⟩, ?_⟩
      rw [hn, timesFreed_eq_one_iff]
      simp
  | true =>
      rw [h.lookup]
      by_cases hal : sp (.stream skb.cb.streamId) = [] → alloc.stream = true
      · obtain ⟨s', e, hs', h', hn⟩ := frame_stored_counts h hf hc hal
        refine ⟨s', e, hs', h', iff_of_true hn ?_⟩
        rw [if_pos rfl]
        cases hsp : sp (.stream skb.cb.streamId) with
        | nil => exact .inr (hal hsp)
        | cons f fs => exact .inl rfl
      · obtain ⟨hsp, hal⟩ := Classical.not_imp.mp hal
        obtain ⟨s', hs', h', hn⟩ := frame_enomem_counts h hc hsp (Bool.eq_false_iff.mpr hal)
        refine ⟨s', [], hs', ⟨sp, h'⟩, iff_of_false (by rw [hn]; decide) ?_⟩
        simp [hsp, hal]

variable {heap : ℕ → Skb} {psock : Psock} {es : List Event}

theorem exists_holds_of_reach (h : (machine hash heap psock).Reach Arrives s es) : ∃ sp, Holds hash s sp := by
  refine h.invariant (P := fun s _ => ∃ sp, Holds hash s sp) ⟨_, holds_init⟩ ?_
  rintro s es a s' e - ⟨sp, hh⟩ hg hs
  cases a with
  | frame skb alloc =>
      obtain ⟨s₁, e₁, hs₁, h₁, -⟩ := frame_counts hh hg alloc
      obtain ⟨rfl, -⟩ := Prod.mk.inj (Option.some.inj (hs₁.symm.trans hs))
      exact h₁
  | recvmsg head len mapped dgram =>
      have hs : step hash s (.recvmsg head len mapped dgram) = some (s', e) := hs
      by_cases hm : head ∈ s.upper
      · obtain ⟨s₁, e₁, hs₁, -, h₁⟩ := recvmsg_spec hh hm len mapped dgram
        obtain ⟨rfl, -⟩ := Prod.mk.inj (Option.some.inj (hs₁.symm.trans hs))
        exact ⟨_, h₁⟩
      · rw [step, if_neg hm] at hs
        cases hs

/-! ### The main result -/

/-- **Disposal of frames.**  In every state that the receive path reaches on complete frames, whatever the
allocations did: the buffer of the next frame, of any type, length and stream, is disposed of once if and
only if the frame is stored and has its stream or memory for one, or is a PING frame whose payload can be
read just when the reply can be allocated, or is another frame. -/
theorem disposed_iff (h : (machine hash heap psock).Reach Arrives s es) (hf : skb.Complete) (alloc : Alloc) :
    ∃ s' e, step hash s (.frame skb alloc) = some (s', .frame s.brk skb :: e) ∧
      (Disposed s' e s.brk ↔ Disposable hash s skb alloc) := by
  obtain ⟨sp, hh⟩ := exists_holds_of_reach h
  obtain ⟨s', e, hs', -, hd⟩ := frame_counts hh hf alloc
  exact ⟨s', e, hs', hd⟩

/-- No memory, neither for a stream nor for a reply. -/
def exhausted : Alloc := ⟨false, false, []⟩

/-- Behind a HEADERS frame of its stream, a DATA frame needs no memory. -/
theorem disposed_behind_headers : ∃ s es s' e,
    (machine (fun _ => 0) (fun _ => frameSkb 0 0 0 []) ⟨0, 1000, 0, 65535, false, [], false⟩).Reach
      Arrives s es ∧
    step (fun _ => 0) s (.frame (frameSkb 0 0 1 [12]) exhausted) =
      some (s', .frame s.brk (frameSkb 0 0 1 [12]) :: e) ∧ Disposed s' e s.brk := by
  obtain ⟨s, es, hr, hy⟩ := Machine.Reach.of_exec
    (M := machine (fun _ => 0) (fun _ => frameSkb 0 0 0 []) ⟨0, 1000, 0, 65535, false, [], false⟩)
    (G := Arrives) (g := fun _ _ => true) [.frame (frameSkb 1 4 1 [11]) granted]
    (by
      intro _ a ha _
      obtain rfl := List.mem_singleton.mp ha
      exact frameSkb_complete ..)
    (fun r => (streamLookup (fun _ => 0) r.1 1).isSome) true (by decide +kernel)
  obtain ⟨s', e, hs', hd⟩ := disposed_iff hr (frameSkb_complete 0 0 1 [12]) exhausted
  exact ⟨s, es, s', e, hr, hs', hd.mpr (.inl hy)⟩

/-- A PING frame of two bytes at the end of its buffer is freed twice; one of eight bytes without memory
for the reply, and a HEADERS frame without memory for its stream, are dropped. -/
theorem disposed_fails :
    let s := State.init (fun _ => frameSkb 0 0 0 []) ⟨0, 1000, 0, 65535, false, [], false⟩
    let counts := fun skb alloc => (step (fun _ => 0) s (.frame skb alloc)).map (fun r =>
      (storedIn r.1 s.brk, handedUp r.1 r.2 s.brk, frees r.2 s.brk, decide (Disposed r.1 r.2 s.brk)))
    counts (frameSkb 6 0 0 [1, 2]) granted = some (0, 0, 2, false) ∧
    counts (frameSkb 6 0 0 [1, 2, 3, 4, 5, 6, 7, 8]) exhausted = some (0, 0, 0, false) ∧
    counts (frameSkb 1 4 1 [11]) exhausted = some (0, 0, 0, false) := by
  decide +kernel

end Rakaia.H2
