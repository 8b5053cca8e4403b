import Rakaia.H2.State
import Rakaia.Strp.Http2
import Rakaia.Tx.State

/-! # Frames on the wire (grpc)

In the grpc variant two parties write to the TCP socket.  Userspace writes its HTTP/2 frames with
non-blocking writes, each of which takes the lock of the socket and may accept only a part of what is left of
the current frame.  The kernel queues control frames from the receive path on `tx_wait_queue`, and whoever runs
`try_send_from_psock` moves them to `sk_write_queue` under the same lock.  The lock covers one write, not one
frame: if the kernel's turn comes after a short write, its frames land inside the userspace frame.

The transmit path is that of `Rakaia.Tx`; here its segments get the bytes they carry, and the bytes of the
stream are told apart by who wrote them. -/

namespace Rakaia.Tx.Wire

open Lib

/-! ### Control frames -/

/-- The control frames that the receive path queues. -/
inductive Ctrl where
  | pingAck (payload : Fin 8 → UInt8)
  | windowUpdate (inc : Int32)
  | settingsAck

/-- The bytes that `send_pingack`, `send_window_update` and `send_settings_ack` write. -/
def Ctrl.bytes : Ctrl → List UInt8
  | .pingAck payload => [0, 0, 8, 0x06, 0x01, 0, 0, 0, 0] ++ List.ofFn payload
  | .windowUpdate inc =>
      let u := inc.toUInt32
      [0, 0, 4, 0x08, 0x00, 0, 0, 0, 0, ((u >>> 24) &&& 0x7f).toUInt8,
        ((u >>> 16) &&& 0xff).toUInt8, ((u >>> 8) &&& 0xff).toUInt8, (u &&& 0xff).toUInt8]
  | .settingsAck => [0, 0, 0, 0x04, 0x01, 0, 0, 0, 0]

/-- The byte count in the `tcp_skb_cb`. -/
def Ctrl.seq : Ctrl → UInt32
  | .pingAck _ => 17
  | .windowUpdate _ => 13
  | .settingsAck => 9

/-- The byte counts are right. -/
theorem Ctrl.length_bytes (c : Ctrl) : c.bytes.length = c.seq.toNat := by
  cases c with
  | pingAck payload => simp [bytes, seq]
  | windowUpdate inc => rfl
  | settingsAck => rfl

/-- A control frame is a whole HTTP/2 frame. -/
theorem Ctrl.message (c : Ctrl) : Strp.Http2.framing.Message c.bytes := by
  cases c with
  | pingAck payload =>
      constructor
      · simp [bytes, Strp.Http2.framing]
      · simp [bytes, Strp.Http2.framing, Strp.Http2.frameLen, beAt, beNum]
  | windowUpdate inc =>
      constructor
      · simp [bytes, Strp.Http2.framing]
      · simp [bytes, Strp.Http2.framing, Strp.Http2.frameLen, beAt, beNum]
  | settingsAck => exact ⟨by decide, by decide⟩

/-- What the receive path does is to queue these frames. -/
theorem sendWindowUpdate_eq (s : H2.State) (inc : Int32) {alloc : H2.Alloc} (h : alloc.ctrl = true) :
    H2.sendWindowUpdate s inc alloc =
      s.queueCtrl (Ctrl.windowUpdate inc).bytes (Ctrl.windowUpdate inc).seq.toNat := by
  rw [H2.sendWindowUpdate, if_pos h]
  rfl

theorem sendSettingsAck_eq (s : H2.State) {alloc : H2.Alloc} (h : alloc.ctrl = true) :
    H2.sendSettingsAck s alloc = s.queueCtrl Ctrl.settingsAck.bytes Ctrl.settingsAck.seq.toNat := by
  rw [H2.sendSettingsAck, if_pos h]
  rfl

theorem sendPingack_eq (s : H2.State) (a : ℕ) {alloc : H2.Alloc} (h : alloc.ctrl = true)
    (hstack : alloc.stack.length = 8) (hw : (s.heap a).buf.Wf) :
    ∃ payload, (H2.sendPingack s a alloc).1 =
      s.queueCtrl (Ctrl.pingAck payload).bytes (Ctrl.pingAck payload).seq.toNat := by
  unfold H2.sendPingack
  rw [if_pos h]
  generalize hbuf : ((H2.headerPointerBuf (s.heap a).buf ((s.heap a).cb.offset + 9) 8 alloc.stack).map
    Prod.snd).getD alloc.stack = buf
  have hlen : buf.length = 8 := by
    rw [← hbuf, H2.headerPointerBuf, SkBuff.headerPointer]
    by_cases hle : (s.heap a).cb.offset + 9 + 8 ≤ (s.heap a).buf.len
    · have hlen := hw.len_eq
      rw [if_pos hle]
      dsimp only [Option.map_some, Option.getD_some]
      split_ifs
      · exact hstack
      · rw [List.length_take, List.length_drop]
        omega
    · rw [if_neg hle]
      exact hstack
  refine ⟨fun i => buf.get (i.cast hlen.symm), ?_⟩
  have hbytes : List.ofFn (fun i : Fin 8 => buf.get (i.cast hlen.symm)) = buf.take 8 := by
    rw [List.take_of_length_le hlen.le]
    apply List.ext_getElem
    · rw [List.length_ofFn, hlen]
    · intro i _ _
      rw [List.getElem_ofFn]
      rfl
  rw [Ctrl.bytes, hbytes]
  rfl

/-! ### The machine -/

/-- The transmit path, the bytes of its segments by the number of the splice that brought them, the frame that
userspace is writing (empty if it is writing none) and how many of its bytes were accepted. -/
structure State where
  tx : Tx.State
  content : ℕ → List UInt8
  cur : List UInt8
  done : ℕ

inductive Event where
  /-- Userspace starts to write a frame. -/
  | begun (frame : List UInt8)
  /-- The receive path queues a control frame. -/
  | queued (frame : List UInt8)
  /-- A write of userspace accepts bytes. -/
  | wrote (bytes : List UInt8)
  /-- Control frames are moved to `sk_write_queue`. -/
  | flushed (frames : List (List UInt8))

inductive Act where
  | begin (frame : List UInt8)
  /-- A write accepts `n` bytes. -/
  | write (n : ℕ)
  | ctrl (c : Ctrl)
  /-- `rakaia_tx_work` starts. -/
  | txWork (t : ℕ)
  /-- The next step of the call of `try_send_from_psock` made by thread `t`. -/
  | run (t : ℕ) (n : ℕ)
  /-- TCP takes segments. -/
  | xmit (n : ℕ)

/-- The control frames on `tx_wait_queue`. -/
def State.waiting (s : State) : List (List UInt8) := s.tx.txWaitQueue.map (fun skb => s.content skb.msg)

/-- The control frames that a step of a call moves to `sk_write_queue`. -/
def State.moves (s : State) (t : ℕ) : List (List UInt8) := if s.tx.pc t = .loop then s.waiting else []

/-- A write has accepted `n` bytes, which TCP gives the next sequence numbers. -/
def State.wrote (s : State) (n : ℕ) : State :=
  let tx := { s.tx with writeSeq := s.tx.writeSeq + UInt32.ofNat n }
  if s.done + n = s.cur.length then { s with tx := tx, cur := [], done := 0 }
  else { s with tx := tx, done := s.done + n }

def step (s : State) : Act → Option (State × List Event)
  | .begin frame =>
      if s.cur = [] ∧ frame ≠ [] then some ({ s with cur := frame, done := 0 }, [.begun frame]) else none
  | .write n =>
      if s.tx.sockLock = none ∧ 0 < n ∧ s.done + n ≤ s.cur.length then
        some (s.wrote n, [.wrote ((s.cur.drop s.done).take n)])
      else none
  | .ctrl c =>
      (Tx.step .grpc s.tx (.sendCtrl c.seq)).map (fun r =>
        ({ s with tx := r.1, content := Function.update s.content s.tx.nextMsg c.bytes }, [.queued c.bytes]))
  | .txWork t => (Tx.step .grpc s.tx (.txWork t)).map (fun r => ({ s with tx := r.1 }, []))
  | .run t n => (Tx.step .grpc s.tx (.run t n)).map (fun r => ({ s with tx := r.1 }, [.flushed (s.moves t)]))
  | .xmit n => (Tx.step .grpc s.tx (.xmit n)).map (fun r => ({ s with tx := r.1 }, []))

/-- What each step does. -/
inductive Step (s : State) : Act → State → List Event → Prop
  | begin (frame) (hcur : s.cur = []) (hne : frame ≠ []) :
      Step s (.begin frame) { s with cur := frame, done := 0 } [.begun frame]
  | write (n) (hlock : s.tx.sockLock = none) (hn : 0 < n) (hle : s.done + n ≤ s.cur.length) :
      Step s (.write n) (s.wrote n) [.wrote ((s.cur.drop s.done).take n)]
  | ctrl (c) :
      Step s (.ctrl c)
        { s with tx := { s.tx.append [c.seq] with workPending := true }
                 content := Function.update s.content s.tx.nextMsg c.bytes } [.queued c.bytes]
  | txWork (t tx d) (h : Tx.Step .grpc s.tx (.txWork t) tx d) : Step s (.txWork t) { s with tx := tx } []
  | run (t n tx d) (h : Tx.Step .grpc s.tx (.run t n) tx d) :
      Step s (.run t n) { s with tx := tx } [.flushed (s.moves t)]
  | xmit (n tx d) (h : Tx.Step .grpc s.tx (.xmit n) tx d) : Step s (.xmit n) { s with tx := tx } []

theorem step_cases {s s' : State} {a : Act} {e : List Event} (hs : step s a = some (s', e)) :
    Step s a s' e := by
  unfold step at hs
  cases a with
  | begin frame =>
      dsimp only at hs
      split_ifs at hs with hc
      obtain ⟨rfl, rfl⟩ := Prod.mk.inj (Option.some.inj hs)
      exact .begin frame hc.1 hc.2
  | write n =>
      dsimp only at hs
      split_ifs at hs with hc
      obtain ⟨rfl, rfl⟩ := Prod.mk.inj (Option.some.inj hs)
      exact .write n hc.1 hc.2.1 hc.2.2
  | ctrl c =>
      obtain ⟨r, hr, heq⟩ := Option.map_eq_some_iff.mp hs
      obtain ⟨rfl, rfl⟩ := Prod.mk.inj heq
      obtain rfl := Option.some.inj hr
      exact .ctrl c
  | txWork t =>
      obtain ⟨r, hr, heq⟩ := Option.map_eq_some_iff.mp hs
      obtain ⟨rfl, rfl⟩ := Prod.mk.inj heq
      exact .txWork t r.1 r.2 (Tx.step_cases hr)
  | run t n =>
      obtain ⟨r, hr, heq⟩ := Option.map_eq_some_iff.mp hs
      obtain ⟨rfl, rfl⟩ := Prod.mk.inj heq
      exact .run t n r.1 r.2 (Tx.step_cases hr)
  | xmit n =>
      obtain ⟨r, hr, heq⟩ := Option.map_eq_some_iff.mp hs
      obtain ⟨rfl, rfl⟩ := Prod.mk.inj heq
      exact .xmit n r.1 r.2 (Tx.step_cases hr)

def machine (writeSeq : UInt32) : Machine State Act Event :=
  ⟨⟨Tx.State.init writeSeq, fun _ => [], [], 0⟩, step⟩

/-! ### Whole frames -/

/-- A frame on the wire, with who wrote it. -/
inductive Frame where
  | user (bytes : List UInt8)
  | ctrl (bytes : List UInt8)

/-- The bytes of userspace on the wire. -/
def userBytes (bytes : List UInt8) : List (Bool × UInt8) := bytes.map (fun b => (true, b))

/-- The bytes of the kernel on the wire. -/
def kernelBytes (bytes : List UInt8) : List (Bool × UInt8) := bytes.map (fun b => (false, b))

def Frame.wire : Frame → List (Bool × UInt8)
  | .user bytes => userBytes bytes
  | .ctrl bytes => kernelBytes bytes

def Frame.user? : Frame → Option (List UInt8)
  | .user bytes => some bytes
  | .ctrl _ => none

def Frame.ctrl? : Frame → Option (List UInt8)
  | .user _ => none
  | .ctrl bytes => some bytes

def Event.wire : Event → List (Bool × UInt8)
  | .wrote bytes => userBytes bytes
  | .flushed frames => kernelBytes frames.flatten
  | _ => []

def Event.begun? : Event → Option (List UInt8)
  | .begun frame => some frame
  | _ => none

def Event.queued? : Event → Option (List UInt8)
  | .queued frame => some frame
  | _ => none

/-- The byte stream on the TCP socket; a byte is marked if userspace wrote it. -/
def wire (es : List Event) : List (Bool × UInt8) := es.flatMap Event.wire

/-- The frames of userspace, in order. -/
def begun (es : List Event) : List (List UInt8) := es.filterMap Event.begun?

/-- The control frames, in order. -/
def queued (es : List Event) : List (List UInt8) := es.filterMap Event.queued?

/-- The stream consists of whole frames and a part of one frame of userspace at the end: the frames of
userspace in order, of which the last may be partly written, and control frames in order. -/
def WholeFrames (es : List Event) : Prop :=
  ∃ (fs : List Frame) (rest : List (List UInt8)) (part : List UInt8),
    wire es = fs.flatMap Frame.wire ++ userBytes part ∧ begun es = fs.filterMap Frame.user? ++ rest ∧
    rest.length ≤ 1 ∧ part <+: rest.flatten ∧ fs.filterMap Frame.ctrl? <+: queued es

/-- Control frames are moved only when no frame of userspace is partly written. -/
def Orderly (s : State) : Act → Prop
  | .run t _ => s.tx.pc t = .loop → s.tx.txWaitQueue ≠ [] → s.done = 0
  | _ => True

instance (s : State) : DecidablePred (Orderly s)
  | .run _ _ => inferInstanceAs (Decidable (_ → _ → _))
  | .begin _ => isTrue trivial
  | .write _ => isTrue trivial
  | .ctrl _ => isTrue trivial
  | .txWork _ => isTrue trivial
  | .xmit _ => isTrue trivial

/-! ### The invariant -/

section invariant

variable {s s' : State} {es e : List Event} {w : UInt32}

theorem wire_append (es e : List Event) : wire (es ++ e) = wire es ++ wire e := List.flatMap_append

theorem begun_append (es e : List Event) : begun (es ++ e) = begun es ++ begun e := List.filterMap_append

theorem queued_append (es e : List Event) : queued (es ++ e) = queued es ++ queued e := List.filterMap_append

/-- The frame that userspace is writing. -/
def State.current (s : State) : List (List UInt8) := if s.cur = [] then [] else [s.cur]

/-- The frames `fs` are on the wire, and what was accepted of the current one. -/
structure Written (s : State) (es : List Event) (fs : List Frame) : Prop where
  wire : wire es = fs.flatMap Frame.wire ++ userBytes (s.cur.take s.done)
  users : begun es = fs.filterMap Frame.user? ++ s.current
  ctrls : queued es = fs.filterMap Frame.ctrl? ++ s.waiting

structure Inv (s : State) (es : List Event) : Prop where
  written : ∃ fs, Written s es fs
  fresh : ∀ skb ∈ s.tx.txWaitQueue, skb.msg < s.tx.nextMsg
  short : s.done < s.cur.length ∨ s.cur = [] ∧ s.done = 0

theorem Inv.wholeFrames (h : Inv s es) : WholeFrames es := by
  obtain ⟨fs, hfs⟩ := h.written
  refine ⟨fs, s.current, s.cur.take s.done, hfs.wire, hfs.users, ?_, ?_, ?_⟩
  · unfold State.current
    split_ifs <;> simp
  · unfold State.current
    split_ifs with hcur
    · rw [hcur, List.take_nil]
      exact List.nil_prefix
    · rw [List.flatten_singleton]
      exact List.take_prefix _ _
  · rw [hfs.ctrls]
    exact List.prefix_append _ _

/-- The transmit path takes a step that leaves `tx_wait_queue` as it is. -/
theorem Inv.tx (h : Inv s es) {tx : Tx.State} (hq : tx.txWaitQueue = s.tx.txWaitQueue)
    (hn : tx.nextMsg = s.tx.nextMsg) : Inv { s with tx := tx } es := by
  obtain ⟨fs, hfs⟩ := h.written
  refine ⟨⟨fs, hfs.wire, hfs.users, ?_⟩, ?_, h.short⟩
  · rw [hfs.ctrls, State.waiting, State.waiting, hq]
  · rw [hq, hn]
    exact h.fresh

theorem Inv.begin (h : Inv s es) {frame : List UInt8} (hcur : s.cur = []) (hf : frame ≠ []) :
    Inv { s with cur := frame, done := 0 } (es ++ [.begun frame]) := by
  obtain ⟨fs, hfs⟩ := h.written
  have hwire := hfs.wire
  have husers := hfs.users
  rw [hcur, List.take_nil] at hwire
  rw [State.current, if_pos hcur, List.append_nil] at husers
  refine ⟨⟨fs, ?_, ?_, ?_⟩, h.fresh, .inl (List.length_pos_iff.mpr hf)⟩
  · rw [wire_append, hwire]
    simp [Wire.wire, Event.wire]
  · rw [begun_append, husers, State.current, if_neg hf]
    rfl
  · rw [queued_append, hfs.ctrls]
    exact List.append_nil _

theorem userBytes_append (bs bs' : List UInt8) : userBytes (bs ++ bs') = userBytes bs ++ userBytes bs' :=
  List.map_append

theorem Inv.write (h : Inv s es) {n : ℕ} (hn : 0 < n) (hle : s.done + n ≤ s.cur.length) :
    Inv (s.wrote n) (es ++ [.wrote ((s.cur.drop s.done).take n)]) := by
  obtain ⟨fs, hfs⟩ := h.written
  have hcur : s.cur ≠ [] := by
    intro hnil
    rw [hnil, List.length_nil] at hle
    omega
  have hwire : wire (es ++ [.wrote ((s.cur.drop s.done).take n)]) =
      fs.flatMap Frame.wire ++ userBytes (s.cur.take (s.done + n)) := by
    rw [wire_append, hfs.wire, List.take_add, userBytes_append, List.append_assoc]
    simp [Wire.wire, Event.wire]
  have husers : begun (es ++ [.wrote ((s.cur.drop s.done).take n)]) = fs.filterMap Frame.user? ++ [s.cur] := by
    rw [begun_append, hfs.users, State.current, if_neg hcur]
    exact List.append_nil _
  have hctrls : queued (es ++ [.wrote ((s.cur.drop s.done).take n)]) =
      fs.filterMap Frame.ctrl? ++ s.waiting := by
    rw [queued_append, hfs.ctrls]
    exact List.append_nil _
  unfold State.wrote
  dsimp only
  split_ifs with hall
  · -- the frame is complete
    refine ⟨⟨fs ++ [.user s.cur], ?_, ?_, ?_⟩, h.fresh, .inr ⟨rfl, rfl⟩⟩
    · rw [hwire, hall, List.take_length, List.flatMap_append]
      simp [Frame.wire, userBytes]
    · rw [husers, List.filterMap_append]
      simp [Frame.user?, State.current]
    · rw [hctrls, List.filterMap_append]
      simp [Frame.ctrl?, State.waiting]
  · have hlt : s.done + n < s.cur.length := by omega
    refine ⟨⟨fs, hwire, ?_, hctrls⟩, h.fresh, .inl hlt⟩
    rw [husers]
    simp [State.current, hcur]

theorem Inv.ctrl (h : Inv s es) (c : Ctrl) :
    Inv { s with tx := { s.tx.append [c.seq] with workPending := true },
                 content := Function.update s.content s.tx.nextMsg c.bytes } (es ++ [.queued c.bytes]) := by
  obtain ⟨fs, hfs⟩ := h.written
  refine ⟨⟨fs, ?_, ?_, ?_⟩, ?_, h.short⟩
  · rw [wire_append, hfs.wire]
    exact List.append_nil _
  · rw [begun_append, hfs.users]
    exact List.append_nil _
  · have hold : s.tx.txWaitQueue.map (fun skb => Function.update s.content s.tx.nextMsg c.bytes skb.msg) =
        s.waiting := by
      apply List.map_congr_left
      intro skb hskb
      exact Function.update_of_ne (Nat.ne_of_lt (h.fresh skb hskb)) _ _
    rw [queued_append, hfs.ctrls, List.append_assoc]
    simp [State.waiting, Tx.State.append, hold, queued, Event.queued?]
  · intro skb hskb
    rcases List.mem_append.mp hskb with hskb | hskb
    · exact Nat.lt_succ_of_lt (h.fresh skb hskb)
    · obtain rfl := List.mem_singleton.mp hskb
      exact Nat.lt_succ_self _

/-- Control frames are moved between frames of userspace. -/
theorem Inv.flush (h : Inv s es) {tx : Tx.State} (hdone : s.done = 0) (hq : tx.txWaitQueue = []) :
    Inv { s with tx := tx } (es ++ [.flushed s.waiting]) := by
  obtain ⟨fs, hfs⟩ := h.written
  have hwire := hfs.wire
  rw [hdone, List.take_zero] at hwire
  refine ⟨⟨fs ++ s.waiting.map .ctrl, ?_, ?_, ?_⟩, ?_, h.short⟩
  · rw [wire_append, hwire, List.flatMap_append, hdone]
    simp [Wire.wire, Event.wire, userBytes, kernelBytes, Frame.wire, List.flatMap_def, List.map_flatten,
      Function.comp_def]
  · rw [begun_append, hfs.users, List.filterMap_append]
    simp [begun, Event.begun?, List.filterMap_map, Frame.user?, Function.comp_def, State.current]
  · rw [queued_append, hfs.ctrls, List.filterMap_append]
    simp [queued, Event.queued?, List.filterMap_map, Frame.ctrl?, Function.comp_def, State.waiting, hq]
  · rw [hq]
    intro skb hskb
    cases hskb

theorem Inv.flushNothing (h : Inv s es) : Inv s (es ++ [.flushed []]) := by
  obtain ⟨fs, hfs⟩ := h.written
  refine ⟨⟨fs, ?_, ?_, ?_⟩, h.fresh, h.short⟩
  · rw [wire_append, hfs.wire]
    exact List.append_nil _
  · rw [begun_append, hfs.users]
    exact List.append_nil _
  · rw [queued_append, hfs.ctrls]
    exact List.append_nil _

theorem Inv.run (h : Inv s es) {t n : ℕ} (ho : Orderly s (.run t n)) {tx : Tx.State} {d : List Tx.Event}
    (hs : Tx.Step .grpc s.tx (.run t n) tx d) : Inv { s with tx := tx } (es ++ [.flushed (s.moves t)]) := by
  have hother : s.tx.pc t ≠ .loop → tx.txWaitQueue = s.tx.txWaitQueue → tx.nextMsg = s.tx.nextMsg →
      Inv { s with tx := tx } (es ++ [.flushed (s.moves t)]) := by
    intro hpc hq hn
    rw [State.moves, if_neg hpc]
    exact (h.tx hq hn).flushNothing
  cases hs with
  | move t n hp hne =>
      rw [State.moves, if_pos hp]
      exact h.flush (ho hp hne) rfl
  | empty t n hp hq =>
      rw [State.moves, if_pos hp, State.waiting, hq]
      exact (h.tx (show (s.tx.setPc t .clear).txWaitQueue = _ from rfl) rfl).flushNothing
  | yield t n hp _ => exact hother (by simp [hp]) rfl rfl
  | own t n hp _ => exact hother (by simp [hp]) rfl rfl
  | lockSock t n hp _ => exact hother (by simp [hp]) rfl rfl
  | assign t n head hp => exact hother (by simp [hp]) rfl rfl
  | push t n hp => exact hother (by simp [hp]) rfl rfl
  | clear t n hp => exact hother (by simp [hp]) rfl rfl
  | release t n hp => exact hother (by simp [hp]) rfl rfl

theorem Inv.step (h : Inv s es) {a : Act} (ho : Orderly s a) (hs : Step s a s' e) : Inv s' (es ++ e) := by
  cases hs with
  | begin frame hcur hne => exact h.begin hcur hne
  | write n _ hn hle => exact h.write hn hle
  | ctrl c => exact h.ctrl c
  | run t n tx d hr => exact h.run ho hr
  | txWork t tx d hr =>
      rw [List.append_nil]
      cases hr with
      | txWork => exact h.tx rfl rfl
  | xmit n tx d hr =>
      rw [List.append_nil]
      cases hr with
      | xmit => exact h.tx rfl rfl

theorem inv_of_reach (h : (machine w).Reach Orderly s es) : Inv s es := by
  have hinit : Inv (machine w).init [] := by
    refine ⟨⟨[], rfl, rfl, rfl⟩, ?_, .inr ⟨rfl, rfl⟩⟩
    intro skb hskb
    cases hskb
  exact h.invariant (P := Inv) hinit (fun _ _ _ _ _ _ hi ho hs => hi.step ho (step_cases hs))

theorem Step.queued {a : Act} (hs : Step s a s' e) {f : List UInt8} (hf : f ∈ queued e) :
    ∃ c : Ctrl, f = c.bytes := by
  cases hs with
  | ctrl c => exact ⟨c, List.mem_singleton.mp hf⟩
  | begin => cases hf
  | write => cases hf
  | txWork => cases hf
  | run => cases hf
  | xmit => cases hf

/-- What the kernel queues is whole HTTP/2 frames, in every run. -/
theorem messages_of_reach (h : (machine w).Reachable s es) :
    ∀ f ∈ queued es, Strp.Http2.framing.Message f := by
  refine h.invariant (P := fun _ es => ∀ f ∈ queued es, Strp.Http2.framing.Message f) ?_ ?_
  · intro f hf
    cases hf
  · intro s es a s' e _ hi _ hs f hf
    rw [queued_append] at hf
    rcases List.mem_append.mp hf with hf | hf
    · exact hi f hf
    · obtain ⟨c, rfl⟩ := (step_cases hs).queued hf
      exact c.message

end invariant

/-! ### The main result -/

/-- **Whole frames on the wire.**  In every run in which control frames are moved to `sk_write_queue` only when
no frame of userspace is partly written, the byte stream consists of whole frames and a part of one frame of
userspace at the end. -/
theorem whole_frames {w : UInt32} {s : State} {es : List Event} (h : (machine w).Reach Orderly s es) :
    WholeFrames es :=
  (inv_of_reach h).wholeFrames

/-- A DATA frame of two bytes on stream 1. -/
def dataFrame : List UInt8 := [0, 0, 2, 0, 1, 0, 0, 0, 1, 104, 105]

/-- The work item moves what is waiting. -/
def flushActs : List Act :=
  [.txWork 0, .run 0 0, .run 0 0, .run 0 0, .run 0 0, .run 0 1, .run 0 0, .run 0 0, .run 0 0]

/-- A SETTINGS ACK is queued in the middle of a frame and moved behind it. -/
def patient : List Act :=
  [.begin dataFrame, .write 5, .ctrl .settingsAck, .write 6] ++ flushActs ++ [.begin dataFrame, .write 3]

theorem whole_frames_patient : ∃ s es, (machine 0).Reach Orderly s es ∧ WholeFrames es ∧
    (wire es).map Prod.snd = dataFrame ++ Ctrl.settingsAck.bytes ++ dataFrame.take 3 := by
  obtain ⟨s, es, hr, hy⟩ := Machine.Reach.of_exec (M := machine 0) (G := Orderly)
    (g := fun s a => decide (Orderly s a)) patient (fun _ _ _ => of_decide_eq_true)
    (fun r => (wire r.2).map Prod.snd) (dataFrame ++ Ctrl.settingsAck.bytes ++ dataFrame.take 3)
    (by decide +kernel)
  exact ⟨s, es, hr, whole_frames hr, hy⟩

/-- A stream with kernel bytes that starts with no whole frame. -/
theorem not_wholeFrames {es : List Event} {u c : List UInt8} (hb : begun es = [u]) (hq : queued es = [c])
    (hu : ¬ userBytes u <+: wire es) (hc : ¬ kernelBytes c <+: wire es) (hk : ∃ b, (false, b) ∈ wire es) :
    ¬ WholeFrames es := by
  rintro ⟨fs, rest, part, hwire, husers, -, -, hctrls⟩
  cases fs with
  | nil =>
      obtain ⟨b, hb⟩ := hk
      rw [hwire] at hb
      simp [userBytes] at hb
  | cons f fs =>
      have hf : f.wire <+: wire es := by
        rw [hwire, List.flatMap_cons, List.append_assoc]
        exact List.prefix_append _ _
      cases f with
      | user bytes =>
          rw [hb] at husers
          obtain ⟨rfl, -⟩ := List.cons.inj husers
          exact hu hf
      | ctrl bytes =>
          rw [hq] at hctrls
          obtain ⟨rfl, -⟩ := List.cons_prefix_cons.mp hctrls
          exact hc hf

/-- After a short write of userspace, a SETTINGS ACK is moved; then userspace writes the rest. -/
def hasty : List Act := [.begin dataFrame, .write 5, .ctrl .settingsAck] ++ flushActs ++ [.write 6]

/-- The SETTINGS ACK lands inside the DATA frame. -/
theorem broken_frame : ∃ s es, (machine 0).Reachable s es ∧
    (wire es).map Prod.snd = dataFrame.take 5 ++ Ctrl.settingsAck.bytes ++ dataFrame.drop 5 ∧
    ¬ WholeFrames es := by
  obtain ⟨s, es, hr, hy⟩ := Machine.Reach.of_exec (M := machine 0) (G := fun _ _ => True)
    (g := fun _ _ => true) hasty (fun _ _ _ _ => trivial) (fun r => (wire r.2, begun r.2, queued r.2))
    (userBytes (dataFrame.take 5) ++ kernelBytes Ctrl.settingsAck.bytes ++ userBytes (dataFrame.drop 5),
      [dataFrame], [Ctrl.settingsAck.bytes]) (by decide +kernel)
  simp only [Prod.mk.injEq] at hy
  obtain ⟨hwire, hb, hq⟩ := hy
  refine ⟨s, es, hr, ?_, not_wholeFrames hb hq ?_ ?_ ⟨0, ?_⟩⟩
  · rw [hwire]
    decide
  · rw [hwire]
    decide
  · rw [hwire]
    decide
  · rw [hwire]
    decide

end Rakaia.Tx.Wire
