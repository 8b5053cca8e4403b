import Mathlib.Data.List.Forall2
import Rakaia.Grpc.Step

/-! # Frames and messages on their way through the receive side

The frames that a parser has cut off the stream of its connection are those that `handle_h2_frame` was called on,
and those that it will be called on next (`handled_of_reach`); so the stream table runs on complete frames
(`h2_of_reach`).  What goes up are the groups of the frames on the wire, and they are pushed in this order. -/

namespace Rakaia.Grpc

open Lib
open Sched (Ksk)
open H2 (streamHashSize)
open Strp.Http2 (FrameInfo framing frameInfo)

variable {hash : ℕ → Fin streamHashSize} {rcvbuf : PsockPtr → ℕ} {heap : ℕ → H2.Skb} {psocks : PsockPtr → H2.Psock}
  {s s' : State} {a : Act} {es e : List Event} {G : State → Act → Prop} {streams : PsockPtr → List (List UInt8)}
  {room : ℕ} {c : PsockPtr}

/-! ### Frames -/

/-- The buffer is the one that the parser has cut. -/
def IsOf (f : H2.Frame) (head : Strp.Head FrameInfo) : Prop := ∃ cb next, f.2 = skbOf head cb next

/-- What a parser has cut is what was handled, and what is to be handled. -/
def Handled (c : PsockPtr) (s : State) (es : List Event) : Prop :=
  ∃ heads, Strp.messages (strpEvents c es) = heads ++ s.cut c ∧
    List.Forall₂ IsOf (H2.frames (h2Events c es)) heads

/-- A step that neither cuts nor handles. -/
theorem Handled.keep (h : Handled c s es) (hcut : s'.cut c = s.cut c) (hstrp : strpEvents c e = [])
    (hh2 : H2.frames (h2Events c e) = []) : Handled c s' (es ++ e) := by
  obtain ⟨heads, hmsgs, hframes⟩ := h
  refine ⟨heads, ?_, ?_⟩
  · rw [strpEvents_append, hstrp, List.append_nil, hcut, hmsgs]
  · rw [h2Events_append, H2.frames_append, hh2, List.append_nil]
    exact hframes

theorem handled_step (hs : Step hash rcvbuf s a s' e) (h : Handled c s es) : Handled c s' (es ++ e) := by
  cases hs with
  | present psock b p e hnil =>
      obtain ⟨hstrp, hh2, -⟩ := events_strp c psock e
      by_cases hc : psock = c
      · subst hc
        obtain ⟨heads, hmsgs, hframes⟩ := h
        refine ⟨heads, ?_, ?_⟩
        · rw [strpEvents_append, hstrp, if_pos rfl, Strp.messages_append, hmsgs, hnil, List.append_nil]
          simp
        · rw [h2Events_append, hh2, List.append_nil]
          exact hframes
      · refine h.keep (Function.update_of_ne (Ne.symm hc) _ _) (hstrp.trans (if_neg hc)) ?_
        rw [hh2]
        rfl
  | frame psock cb next alloc head rest h2 e hcut _ hb =>
      obtain ⟨hstrp, hh2, -⟩ := events_h2 c psock e
      by_cases hc : psock = c
      · subst hc
        obtain ⟨heads, hmsgs, hframes⟩ := h
        have hnew : H2.frames e = [((s.h2 psock).brk, skbOf head cb next)] := (H2.step_frames hb).1
        refine ⟨heads ++ [head], ?_, ?_⟩
        · rw [strpEvents_append, hstrp, List.append_nil, hmsgs, hcut]
          simp
        · rw [h2Events_append, H2.frames_append, hh2, if_pos rfl, hnew]
          exact List.rel_append hframes (.cons ⟨cb, next, rfl⟩ .nil)
      · refine h.keep (Function.update_of_ne (Ne.symm hc) _ _) hstrp ?_
        rw [hh2, if_neg hc]
        rfl
  | push => exact h.keep rfl rfl rfl
  | sched b sched e =>
      obtain ⟨hstrp, hh2, -⟩ := events_sched c e
      exact h.keep rfl hstrp (by rw [hh2]; rfl)
  | recvmsg ksk len mapped dgram skb rest psock head sched h2 e _ _ _ _ hb =>
      obtain ⟨hstrp, hh2, -⟩ := events_recvmsg c psock ksk skb e
      refine h.keep rfl hstrp ?_
      rw [hh2]
      split_ifs
      · exact (H2.step_frames hb).1
      · rfl

/-- **Frames are handled in order.** -/
theorem handled_of_reach (h : (machine hash rcvbuf heap psocks).Reach G s es) (c : PsockPtr) : Handled c s es :=
  h.invariant (P := Handled c) ⟨[], rfl, .nil⟩ (fun _ _ _ _ _ _ ih _ hs => handled_step (step_cases hs) ih)

/-- Every connection brings frames that fit into the receive buffer. -/
def Frames (rcvbuf : PsockPtr → ℕ) (streams : PsockPtr → List (List UInt8)) : Prop :=
  ∀ c, Strp.Valid framing (rcvbuf c) (streams c)

theorem steady : Strp.Steady Strp.Http2.parser := by
  refine ⟨fun stm skb => ?_, fun _ _ => rfl⟩
  simp only [Strp.Http2.parser, Strp.Http2.parseMsgHttp2]
  cases skb.headerPointer stm.offset 9 <;> rfl

theorem cut_of_reach (hf : Frames rcvbuf streams)
    (h : (machine hash rcvbuf heap psocks).Reach (Fair streams room) s es) {head : Strp.Head FrameInfo}
    (hm : head ∈ Strp.messages (strpEvents c es)) : Strp.Cut (2 ^ 31) frameInfo (streams c) head :=
  Strp.cut_of_reach steady (Strp.Http2.follows (rcvbuf c)) (hf c) (parser_of_reach h c) hm

/-- A frame that was cut is complete. -/
theorem complete_of_cut (hf : Frames rcvbuf streams) {head : Strp.Head FrameInfo}
    (h : Strp.Cut (2 ^ 31) frameInfo (streams c) head) (cb : PsockPtr) (next : Option ℕ) :
    (skbOf head cb next).Complete := by
  have hmsg := (hf c head.message h.mem).1
  refine ⟨h.wf.laid, h.inside hmsg.length_pos, ?_⟩
  change 9 ≤ head.stm.fullLen
  rw [h.fullLen]
  exact hmsg.header

/-- The stream table of a connection runs on complete frames. -/
theorem h2_of_reach (hf : Frames rcvbuf streams)
    (h : (machine hash rcvbuf heap psocks).Reach (Fair streams room) s es) (c : PsockPtr) :
    (H2.machine hash heap (psocks c)).Reach H2.Orderly (s.h2 c) (h2Events c es) := by
  refine h.project (M := H2.machine hash heap (psocks c)) (fun s => s.h2 c) (h2Events c) (h2Events_append c)
    rfl rfl ?_
  intro t ds b t' d hr hg hs
  cases h2_step (step_cases hs) c with
  | none hsame hnil => exact .inl ⟨hsame, hnil⟩
  | frame cb next alloc head rest hb hcut hstep =>
      subst hb
      obtain ⟨heads, hmsgs, -⟩ := handled_of_reach hr c
      have hmem : head ∈ Strp.messages (strpEvents c ds) := by
        rw [hmsgs, hcut]
        exact List.mem_append_right _ List.mem_cons_self
      have horderly : H2.Orderly (t.h2 c) (.frame (skbOf head cb next) alloc) :=
        ⟨complete_of_cut hf (cut_of_reach hf hr hmem) cb next, hg⟩
      exact .inr ⟨_, horderly, hstep⟩
  | recvmsg len mapped dgram head hstep => exact .inr ⟨.recvmsg head len mapped dgram, trivial, hstep⟩

/-! ### Requests on the wire -/

/-- How frames on the wire are sorted: frames that carry a request are kept, and END_STREAM or RST_STREAM ends it. -/
def wire : Demux (List UInt8) ℕ where
  key m := (frameInfo m).streamId
  kept m :=
    match H2.FrameType.ofByte (frameInfo m).type with
    | .data | .headers | .continuation | .rstStream => true
    | _ => false
  ends m := (frameInfo m).flag &&& 0x1 != 0 || H2.FrameType.ofByte (frameInfo m).type == .rstStream

/-- The requests that the frames of a connection make up: the frames of each. -/
def requests (frames : List (List UInt8)) : List (List (List UInt8)) := wire.groups frames

/-- A frame that was handled is sorted as on the wire. -/
theorem sorted_of_isOf {f : H2.Frame} {head : Strp.Head FrameInfo} (hf : IsOf f head)
    (h : Strp.Cut (2 ^ 31) frameInfo (streams c) head) :
    f.2.content = head.message ∧ wire.key f.2.content = H2.demux.key f ∧ wire.kept f.2.content = H2.demux.kept f ∧
      wire.ends f.2.content = H2.demux.ends f := by
  obtain ⟨cb, next, hskb⟩ := hf
  have hcontent : f.2.content = head.message := by
    rw [hskb]
    rfl
  have hkey : H2.demux.key f = head.stm.ext.streamId := by
    change f.2.cb.streamId = _
    rw [hskb]
    rfl
  have hkept : H2.demux.kept f = (skbOf head cb next).carried := by
    change f.2.carried = _
    rw [hskb]
  have hends : H2.demux.ends f = (skbOf head cb next).ends := by
    change f.2.ends = _
    rw [hskb]
  rw [hcontent, hkey, hkept, hends, h.ext]
  refine ⟨rfl, rfl, ?_, ?_⟩
  · rw [H2.Skb.carried, H2.Skb.type, skbOf, h.ext]
    rfl
  · rw [H2.Skb.ends, H2.Skb.type, H2.Skb.flag1, skbOf, h.ext]
    rfl

/-- The frame on the wire is sorted as the frame. -/
def Sorted (f : H2.Frame) : Prop :=
  wire.key f.2.content = H2.demux.key f ∧ wire.kept f.2.content = H2.demux.kept f ∧
    wire.ends f.2.content = H2.demux.ends f

theorem contents_eq {fs : List H2.Frame} {heads : List (Strp.Head FrameInfo)} (h : List.Forall₂ IsOf fs heads)
    (hcut : ∀ head ∈ heads, Strp.Cut (2 ^ 31) frameInfo (streams c) head) :
    fs.map (fun f => f.2.content) = heads.map Strp.Head.message ∧ ∀ f ∈ fs, Sorted f := by
  induction h with
  | nil => exact ⟨rfl, nofun⟩
  | cons hf _ ih =>
      obtain ⟨hmap, hall⟩ := ih (fun head hm => hcut head (List.mem_cons_of_mem _ hm))
      obtain ⟨hcontent, hsorted⟩ := sorted_of_isOf hf (hcut _ List.mem_cons_self)
      refine ⟨by rw [List.map_cons, List.map_cons, hmap, hcontent], fun g hg => ?_⟩
      rcases List.mem_cons.mp hg with rfl | hg
      · exact hsorted
      · exact hall g hg

/-- The bytes of the frames that were handled are the first frames of the stream. -/
theorem contents_of_reach (hf : Frames rcvbuf streams)
    (h : (machine hash rcvbuf heap psocks).Reach (Fair streams room) s es) (c : PsockPtr) :
    (H2.frames (h2Events c es)).map (fun f => f.2.content) <+: streams c ∧
      ∀ f ∈ H2.frames (h2Events c es), Sorted f := by
  obtain ⟨heads, hmsgs, hframes⟩ := handled_of_reach h c
  have hcut : ∀ head ∈ heads, Strp.Cut (2 ^ 31) frameInfo (streams c) head := by
    intro head hm
    refine cut_of_reach hf h ?_
    rw [hmsgs]
    exact List.mem_append_left _ hm
  obtain ⟨hmap, hsorted⟩ := contents_eq hframes hcut
  refine ⟨?_, hsorted⟩
  have hd := congrArg (List.map Prod.fst) (Strp.delivered_of_reach (Strp.Http2.follows (rcvbuf c)) (hf c)
    ((parser_of_reach h c).mono (fun _ _ _ _ hg => hg.1)))
  rw [List.map_map, List.map_map, hmsgs, List.map_append] at hd
  have hinit : heads.map Strp.Head.message <+: wholeIn (streams c) (s.parser c).copied :=
    ⟨(s.cut c).map Strp.Head.message, hd.trans (List.map_id _)⟩
  rw [hmap]
  exact hinit.trans (isPrefix_wholeIn _ _)

/-- **What goes up are requests**: the groups of the frames that were handled are, byte for byte, the first requests
of the stream. -/
theorem groups_of_reach (hf : Frames rcvbuf streams)
    (h : (machine hash rcvbuf heap psocks).Reach (Fair streams room) s es) (c : PsockPtr) :
    (H2.demux.groups (H2.frames (h2Events c es))).map H2.content <+: (requests (streams c)).map List.flatten := by
  obtain ⟨hinit, hsorted⟩ := contents_of_reach hf h c
  have hmono := (wire.groups_mono hinit).map List.flatten
  rw [H2.demux.groups_map wire (fun f => f.2.content) hsorted, List.map_map] at hmono
  exact hmono

/-! ### Messages are pushed in order -/

def Event.pushed? : Event → Option (PsockPtr × ℕ × List UInt8)
  | .pushed psock head bytes => some (psock, head, bytes)
  | _ => none

/-- The messages that were pushed, in order: connection, first frame and bytes of each. -/
def pushed (es : List Event) : List (PsockPtr × ℕ × List UInt8) := es.filterMap Event.pushed?

@[simp] theorem pushed_append (es e : List Event) : pushed (es ++ e) = pushed es ++ pushed e := List.filterMap_append

theorem pushed_map_of_none {α : Type} {f : α → Event} (h : ∀ x, (f x).pushed? = none) (l : List α) :
    pushed (l.map f) = [] := filterMap_map_of_none h l

theorem pushed_recvmsg (psock : PsockPtr) (ksk : Ksk) (skb : Skb) (e : List H2.Event) :
    pushed (.sched (.received ksk skb) ::
      (e.map (.h2 psock) ++ (e.filterMap returned?).map (.returned ksk psock))) = [] := by
  rw [← List.singleton_append, pushed_append, pushed_append, pushed_map_of_none (fun _ => rfl) e,
    pushed_map_of_none (fun _ => rfl)]
  rfl

/-- The first frames of the messages of a connection that were pushed. -/
def pushedBy (c : PsockPtr) (es : List Event) : List ℕ := (entries some (pushed es) c).map Prod.fst

theorem pushedBy_append (c : PsockPtr) (es e : List Event) :
    pushedBy c (es ++ e) = pushedBy c es ++ pushedBy c e := by
  rw [pushedBy, pushed_append, entries_append, List.map_append]
  rfl

theorem pushedBy_of_nil {e : List Event} (h : pushed e = []) (c : PsockPtr) : pushedBy c e = [] := by
  rw [pushedBy, h]
  rfl

/-- **Messages are pushed in the order in which they went up.** -/
theorem raised_of_reach (h : (machine hash rcvbuf heap psocks).Reach G s es) (c : PsockPtr) :
    pushedBy c es ++ s.raised c = H2.rcvMsgs (h2Events c es) := by
  refine h.invariant (P := fun s es => pushedBy c es ++ s.raised c = H2.rcvMsgs (h2Events c es)) rfl ?_
  intro s es a s' e _ ih _ hs
  rw [h2Events_append, H2.rcvMsgs_append, pushedBy_append, ← ih]
  -- a step that does not concern the messages of the connection
  have hkeep : pushed e = [] → s'.raised c = s.raised c → H2.rcvMsgs (h2Events c e) = [] →
      pushedBy c es ++ pushedBy c e ++ s'.raised c =
        pushedBy c es ++ s.raised c ++ H2.rcvMsgs (h2Events c e) := by
    intro hp hr hm
    rw [pushedBy_of_nil hp, hr, hm, List.append_nil, List.append_nil]
  cases step_cases hs with
  | present psock b p e =>
      exact hkeep (pushed_map_of_none (fun _ => rfl) e) rfl (by rw [(events_strp c psock e).2.1]; rfl)
  | frame psock cb next alloc head rest h2 e _ hnil =>
      have hh2 := (events_h2 c psock e).2.1
      by_cases hc : psock = c
      · subst hc
        rw [hh2, if_pos rfl, hnil, pushedBy_of_nil (pushed_map_of_none (fun _ => rfl) e)]
        simp
      · refine hkeep (pushed_map_of_none (fun _ => rfl) e) (Function.update_of_ne (Ne.symm hc) _ _) ?_
        rw [hh2, if_neg hc]
        rfl
  | push psock cb truesize r1 r2 head rest sched hr =>
      by_cases hc : psock = c
      · subst hc
        simp [hr, pushedBy, pushed, Event.pushed?, entries, h2Events, Event.h2?, H2.rcvMsgs]
      · simp [hc, Ne.symm hc, pushedBy, pushed, Event.pushed?, entries, h2Events, Event.h2?, H2.rcvMsgs]
  | sched b sched e => exact hkeep (pushed_map_of_none (fun _ => rfl) e) rfl (by rw [(events_sched c e).2.1]; rfl)
  | recvmsg ksk len mapped dgram skb rest psock head sched h2 e _ _ _ _ hb =>
      refine hkeep (pushed_recvmsg psock ksk skb e) rfl ?_
      rw [(events_recvmsg c psock ksk skb e).2.1]
      split_ifs
      · obtain ⟨l, r, rfl, hfree⟩ := H2.recvmsg_events hb
        rw [H2.rcvMsgs_append, hfree.rcvMsgs]
        rfl
      · rfl

end Rakaia.Grpc
