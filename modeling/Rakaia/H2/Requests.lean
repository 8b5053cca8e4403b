import Mathlib.Data.List.TakeWhile
import Rakaia.H2.History

/-! # Complete requests

A client that speaks HTTP/2 opens a stream with a HEADERS frame, may send DATA and a second header
block for the trailers, and ends its side with the END_STREAM flag of a DATA or HEADERS frame.  A
header block that does not fit in one frame goes on in CONTINUATION frames, which follow each other
without any other frame between them until one has the END_HEADERS flag.  `Peer` follows the frames
of a client by these rules; rules of the protocol that do not matter here (the numbering of streams,
limits on sizes) are not checked, so that more sequences count as valid.

`handle_h2_frame` looks at bit 0 of the flags of every frame it stores.  On a HEADERS frame whose
block goes on it comes before the end of the request, and on a CONTINUATION frame it has no meaning.
Without such frames, what goes up is a complete request (`complete_requests`). -/

namespace Rakaia.H2

open Lib

/-! ### Frames of a client -/

/-- `FLAG_END_HEADERS`. -/
def Skb.endHeaders (skb : Skb) : Bool := skb.cb.flag &&& 0x4 != 0

/-- The END_STREAM flag, which DATA and HEADERS frames have. -/
def Skb.endStream (skb : Skb) : Bool := (skb.type == .data || skb.type == .headers) && skb.flag1

/-- The frame carries a part of a header block. -/
def Skb.headerPart (skb : Skb) : Bool := skb.type == .headers || skb.type == .continuation

/-- The last part of a header block among the frames. -/
def lastHeader (fs : List Frame) : Option Frame := (fs.filter (fun f => f.2.headerPart)).getLast?

/-- Where a stream is, seen from the client. -/
inductive Phase where
  | idle
  | opened
  /-- END_STREAM was sent. -/
  | ended
  /-- RST_STREAM was sent. -/
  | reset
deriving DecidableEq, Repr

/-- The client's side of a connection. -/
structure Peer where
  phase : ℕ → Phase
  /-- The stream whose header block is under way. -/
  block : Option ℕ

namespace Peer

def init : Peer := ⟨fun _ => .idle, none⟩

variable (p : Peer)

/-- A stream changes its phase. -/
def setPhase (sid : ℕ) (ph : Phase) : Peer := { p with phase := Function.update p.phase sid ph }

/-- The stream of a frame is where the END_STREAM flag of the frame puts it. -/
def enter (skb : Skb) : Peer := p.setPhase skb.cb.streamId (if skb.flag1 then .ended else .opened)

/-- A part of a header block is sent. -/
def part (skb : Skb) : Peer := { p with block := if skb.endHeaders then none else some skb.cb.streamId }

/-- The client sends a frame; `none` when the protocol does not allow it. -/
def next (skb : Skb) : Option Peer :=
  let sid := skb.cb.streamId
  match p.block with
  | some b => if skb.type = .continuation ∧ sid = b then some (p.part skb) else none
  | none =>
      match skb.type with
      | .headers =>
          if p.phase sid = .idle ∨ p.phase sid = .opened then some ((p.enter skb).part skb) else none
      | .data => if p.phase sid = .opened then some (p.enter skb) else none
      | .rstStream => if p.phase sid = .idle then none else some (p.setPhase sid .reset)
      | .continuation => none
      | _ => some p

/-- The client after the frames of a history. -/
def of (es : List Event) : Option Peer := (frames es).foldlM (fun p f => p.next f.2) init

end Peer

/-- The frames that arrived are a beginning of what a client may send. -/
def ValidClient (es : List Event) : Prop := (Peer.of es).isSome

instance (es : List Event) : Decidable (ValidClient es) := inferInstanceAs (Decidable (_ = true))

theorem Peer.of_append_frame {es e : List Event} {f : Frame} (he : frames e = [f]) :
    Peer.of (es ++ e) = (Peer.of es).bind (fun p => p.next f.2) := by
  rw [Peer.of, frames_append, he, List.foldlM_append]
  change (Peer.of es).bind _ = _
  congr 1
  funext p
  simp

theorem Peer.of_append_nil {es e : List Event} (he : frames e = []) : Peer.of (es ++ e) = Peer.of es := by
  rw [Peer.of, frames_append, he, List.append_nil, ← Peer.of]

/-- Bit 0 of the flags is not set on a HEADERS frame whose block goes on, nor on a CONTINUATION
frame. -/
def Skb.Timely (skb : Skb) : Prop :=
  (skb.type = .headers → skb.flag1 = true → skb.endHeaders = true) ∧
    (skb.type = .continuation → skb.flag1 = false)

instance (skb : Skb) : Decidable skb.Timely := inferInstanceAs (Decidable (_ ∧ _))

/-! ### The frames of a stream -/

/-- What the frames of a stream look like, given where the client is. -/
structure Tracks (p : Peer) (sid : ℕ) (fs : List Frame) : Prop where
  idle : p.phase sid = .idle → fs = []
  opened : p.phase sid = .opened → ∀ f ∈ fs, f.2.ends = false
  ended : p.phase sid = .ended → sinceLast fs = [] ∧ ∃ f ∈ fs, f.2.endStream = true
  reset : p.phase sid = .reset → ∃ f ∈ fs, f.2.type = .rstStream
  block : p.block = some sid → p.phase sid = .opened
  headers : p.phase sid = .opened ∨ p.phase sid = .ended → p.block ≠ some sid →
    ∃ f, lastHeader fs = some f ∧ f.2.endHeaders = true

section tracks

variable {p p' : Peer} {sid : ℕ} {fs : List Frame} {skb : Skb} {a : ℕ}

theorem tracks_init (sid : ℕ) : Tracks .init sid [] := by
  constructor <;> simp [Peer.init]

theorem sinceLast_eq_self (h : ∀ f ∈ fs, f.2.ends = false) : sinceLast fs = fs := by
  rw [sinceLast, List.takeWhile_eq_self_iff.mpr, List.reverse_reverse]
  simpa using h

theorem lastHeader_append (fs : List Frame) (f : Frame) :
    lastHeader (fs ++ [f]) = if f.2.headerPart then some f else lastHeader fs := by
  cases hf : f.2.headerPart <;> simp [lastHeader, List.filter_append, hf]

/-- What a valid frame does, type by type. -/
inductive Sends (p : Peer) (skb : Skb) : Peer → Prop
  | continuation (hb : p.block = some skb.cb.streamId) (ht : skb.type = .continuation) :
      Sends p skb (p.part skb)
  | headers (hb : p.block = none) (ht : skb.type = .headers)
      (hp : p.phase skb.cb.streamId = .idle ∨ p.phase skb.cb.streamId = .opened) :
      Sends p skb ((p.enter skb).part skb)
  | data (hb : p.block = none) (ht : skb.type = .data) (hp : p.phase skb.cb.streamId = .opened) :
      Sends p skb (p.enter skb)
  | rstStream (hb : p.block = none) (ht : skb.type = .rstStream) (hp : p.phase skb.cb.streamId ≠ .idle) :
      Sends p skb (p.setPhase skb.cb.streamId .reset)
  | other (hb : p.block = none) (hc : skb.carried = false) : Sends p skb p

theorem next_sends (h : p.next skb = some p') : Sends p skb p' := by
  unfold Peer.next at h
  dsimp only at h
  cases hb : p.block with
  | some b =>
      rw [hb] at h
      dsimp only at h
      split_ifs at h with hc
      obtain ⟨ht, rfl⟩ := hc
      obtain rfl := Option.some.inj h
      exact .continuation hb ht
  | none =>
      rw [hb] at h
      dsimp only at h
      cases ht : skb.type with
      | headers =>
          rw [ht] at h
          dsimp only at h
          split_ifs at h with hp
          obtain rfl := Option.some.inj h
          exact .headers hb ht hp
      | data =>
          rw [ht] at h
          dsimp only at h
          split_ifs at h with hp
          obtain rfl := Option.some.inj h
          exact .data hb ht hp
      | rstStream =>
          rw [ht] at h
          dsimp only at h
          split_ifs at h with hp
          obtain rfl := Option.some.inj h
          exact .rstStream hb ht hp
      | continuation => rw [ht] at h; cases h
      | priority | settings | pushPromise | ping | goaway | windowUpdate | unknown =>
          rw [ht] at h
          obtain rfl := Option.some.inj h
          exact .other hb (by rw [Skb.carried, ht])

theorem Tracks.congr (h : Tracks p sid fs) (hp : p'.phase sid = p.phase sid)
    (hb : p'.block = some sid ↔ p.block = some sid) : Tracks p' sid fs where
  idle := by rw [hp]; exact h.idle
  opened := by rw [hp]; exact h.opened
  ended := by rw [hp]; exact h.ended
  reset := by rw [hp]; exact h.reset
  block := by rw [hp, hb]; exact h.block
  headers := by rw [hp, Ne, hb]; exact h.headers

theorem phase_setPhase (p : Peer) (sid k : ℕ) (ph : Phase) :
    (p.setPhase sid ph).phase k = if k = sid then ph else p.phase k := Function.update_apply ..

theorem block_part (p : Peer) (skb : Skb) (sid : ℕ) :
    (p.part skb).block = some sid ↔ skb.endHeaders = false ∧ skb.cb.streamId = sid := by
  cases he : skb.endHeaders <;> simp [Peer.part, he]

/-- A frame of another stream, or one that is not stored. -/
theorem Sends.apart (h : Sends p skb p') (hne : ¬ (skb.carried = true ∧ skb.cb.streamId = sid)) :
    p'.phase sid = p.phase sid ∧ (p'.block = some sid ↔ p.block = some sid) := by
  have hsid : skb.carried = true → sid ≠ skb.cb.streamId := fun hc he => hne ⟨hc, he.symm⟩
  cases h with
  | continuation hb ht =>
      have hs := hsid (by rw [Skb.carried, ht])
      refine ⟨rfl, ?_⟩
      rw [block_part, hb]
      simp [hs.symm]
  | headers hb ht hp =>
      have hs := hsid (by rw [Skb.carried, ht])
      refine ⟨(phase_setPhase ..).trans (if_neg hs), ?_⟩
      rw [block_part, hb]
      simp [hs.symm]
  | data hb ht hp =>
      have hs := hsid (by rw [Skb.carried, ht])
      exact ⟨(phase_setPhase ..).trans (if_neg hs), Iff.rfl⟩
  | rstStream hb ht hp =>
      have hs := hsid (by rw [Skb.carried, ht])
      exact ⟨(phase_setPhase ..).trans (if_neg hs), Iff.rfl⟩
  | other => exact ⟨rfl, Iff.rfl⟩

/-- No frame of a stream that is not yet closed ends a message. -/
theorem Tracks.ends_eq_false (h : Tracks p sid fs) (hp : p.phase sid = .idle ∨ p.phase sid = .opened) :
    ∀ f ∈ fs, f.2.ends = false := by
  rcases hp with hp | hp
  · rw [h.idle hp]
    simp
  · exact h.opened hp

/-- The frame of a stream that is open, or becomes so. -/
theorem Tracks.enter (h : Tracks p skb.cb.streamId fs) (ht : skb.type = .data ∨ skb.type = .headers)
    (hp : p.phase skb.cb.streamId = .idle ∨ p.phase skb.cb.streamId = .opened)
    (hph : p'.phase skb.cb.streamId = if skb.flag1 then .ended else .opened)
    (hblock : p'.block = some skb.cb.streamId → skb.flag1 = false)
    (hheaders : p'.block ≠ some skb.cb.streamId →
      ∃ f, lastHeader (fs ++ [(a, skb)]) = some f ∧ f.2.endHeaders = true) :
    Tracks p' skb.cb.streamId (fs ++ [(a, skb)]) := by
  have hends : skb.ends = skb.flag1 := by rcases ht with ht | ht <;> simp [Skb.ends, ht]
  have hstream : skb.endStream = skb.flag1 := by rcases ht with ht | ht <;> simp [Skb.endStream, ht]
  cases hflag : skb.flag1 with
  | true =>
      simp only [hflag, if_pos] at hph
      constructor
      · simp [hph]
      · simp [hph]
      · intro _
        refine ⟨by rw [sinceLast_append, hends, hflag, if_pos rfl], (a, skb), by simp, ?_⟩
        rw [hstream, hflag]
      · simp [hph]
      · intro hb
        rw [hflag] at hblock
        cases hblock hb
      · exact fun _ hb => hheaders hb
  | false =>
      simp only [hflag, Bool.false_eq_true, if_neg, not_false_eq_true] at hph
      constructor
      · simp [hph]
      · intro _ f hf
        rcases List.mem_append.mp hf with hf | hf
        · exact h.ends_eq_false hp f hf
        · obtain rfl := List.mem_singleton.mp hf
          rw [hends, hflag]
      · simp [hph]
      · simp [hph]
      · exact fun _ => hph
      · exact fun _ hb => hheaders hb

/-- **One frame**: the frames of its stream are as the client's phase says. -/
theorem Tracks.send (h : Tracks p skb.cb.streamId fs) (hs : Sends p skb p') (ht : skb.Timely)
    (hc : skb.carried = true) : Tracks p' skb.cb.streamId (fs ++ [(a, skb)]) := by
  cases hs with
  | continuation hb htype =>
      have hph := h.block hb
      have hpart : skb.headerPart = true := by simp [Skb.headerPart, htype]
      have hends : skb.ends = false := by simp [Skb.ends, htype, ht.2 htype]
      have hph' : (p.part skb).phase skb.cb.streamId = .opened := hph
      constructor
      · simp [hph']
      · intro _ f hf
        rcases List.mem_append.mp hf with hf | hf
        · exact h.opened hph f hf
        · obtain rfl := List.mem_singleton.mp hf
          exact hends
      · simp [hph']
      · simp [hph']
      · exact fun _ => hph'
      · intro _ hb'
        rw [Ne, block_part] at hb'
        refine ⟨(a, skb), by rw [lastHeader_append, if_pos hpart], by simpa using hb'⟩
  | headers hb htype hp =>
      have hpart : skb.headerPart = true := by simp [Skb.headerPart, htype]
      refine h.enter (.inr htype) hp ((phase_setPhase ..).trans (if_pos rfl)) ?_ ?_
      · intro hb'
        rw [block_part] at hb'
        by_contra hflag
        rw [ht.1 htype (by simpa using hflag)] at hb'
        cases hb'.1
      · intro hb'
        rw [Ne, block_part] at hb'
        refine ⟨(a, skb), by rw [lastHeader_append, if_pos hpart], by simpa using hb'⟩
  | data hb htype hp =>
      have hpart : skb.headerPart = false := by simp [Skb.headerPart, htype]
      have hnone : (p.enter skb).block ≠ some skb.cb.streamId := by
        change p.block ≠ _
        rw [hb]
        simp
      refine h.enter (.inl htype) (.inr hp) ((phase_setPhase ..).trans (if_pos rfl))
        (fun hb' => absurd hb' hnone) ?_
      intro _
      rw [lastHeader_append, hpart]
      exact h.headers (.inl hp) (by rw [hb]; simp)
  | rstStream hb htype hp =>
      have hph' : (p.setPhase skb.cb.streamId .reset).phase skb.cb.streamId = .reset :=
        (phase_setPhase ..).trans (if_pos rfl)
      have hb' : (p.setPhase skb.cb.streamId .reset).block = none := hb
      constructor
      · simp [hph']
      · simp [hph']
      · simp [hph']
      · exact fun _ => ⟨(a, skb), by simp, htype⟩
      · simp [hb']
      · simp [hph']
  | other hb hc' => rw [hc] at hc'; cases hc'

end tracks

/-! ### The messages that go up -/

section runs

variable {hash : ℕ → Fin streamHashSize} {heap : ℕ → Skb} {psock : Psock} {s s' : State} {p p' : Peer}
  {es e : List Event} {head : ℕ}

theorem rcvMsgs_append (es e : List Event) : rcvMsgs (es ++ e) = rcvMsgs es ++ rcvMsgs e :=
  List.filterMap_append

theorem framesOf_append_of_frames {fs : List Frame} (he : frames e = fs) (sid : ℕ) : framesOf sid (es ++ e) =
    framesOf sid es ++ fs.filter (fun f => f.2.carried ∧ f.2.cb.streamId = sid) := by
  rw [framesOf_eq, frames_append, List.filter_append, ← framesOf_eq, he]

/-- The first frame of the message that goes up with a frame is a frame of its stream. -/
theorem head_message (es : List Event) {a : ℕ} {skb : Skb} (he : frames e = [(a, skb)]) (hc : skb.carried = true) :
    ∃ g ∈ framesOf skb.cb.streamId (es ++ e), headAddr ((Spec.of es).message a skb) = g.1 := by
  have hsub : ∀ g ∈ (Spec.of es).message a skb, g ∈ framesOf skb.cb.streamId (es ++ e) := by
    intro g hg
    rw [framesOf_append_of_frames he]
    rw [Spec.message, Spec.of_stream] at hg
    rcases List.mem_append.mp hg with hg | hg
    · refine List.mem_append_left _ ?_
      exact List.mem_reverse.mp ((List.takeWhile_sublist _).mem (List.mem_reverse.mp hg))
    · obtain rfl := List.mem_singleton.mp hg
      simp [hc]
  cases hm : (Spec.of es).message a skb with
  | nil => simp [Spec.message] at hm
  | cons g rest => exact ⟨g, hsub g (by rw [hm]; exact List.mem_cons_self), rfl⟩

theorem mem_framesOf {sid : ℕ} {f : Frame} :
    f ∈ framesOf sid es ↔ f ∈ frames es ∧ f.2.carried = true ∧ f.2.cb.streamId = sid := by
  rw [framesOf_eq, List.mem_filter, decide_eq_true_iff]

/-- A frame that does not go up with the message leaves the message alone. -/
theorem Spec.step_frame_message (sp : Spec) {a : ℕ} {skb : Skb}
    (hne : skb.carried = true → head ≠ headAddr (sp.message a skb)) :
    sp.step (.frame a skb) (.message head) = sp (.message head) := by
  rw [Spec.step]
  split_ifs with hc hends
  · have hadd : sp.add (a, skb) (.stream skb.cb.streamId) = sp.message a skb := by
      simp [Spec.add, Spec.message]
    rw [Spec.flush_message_of_ne _ _ (by rw [hadd]; exact hne hc)]
    simp [Spec.add]
  · simp [Spec.add]
  · rfl

/-- A message went up for a stream that has ended, with all its frames, or that was reset. -/
def Went (p : Peer) (es : List Event) (head : ℕ) : Prop :=
  ∃ skb, (head, skb) ∈ frames es ∧ (p.phase skb.cb.streamId = .reset ∨
    p.phase skb.cb.streamId = .ended ∧ (Spec.of es (.message head) = [] ∨
      Spec.of es (.message head) = framesOf skb.cb.streamId es))

section frame

variable {a : ℕ} {skb : Skb}

/-- After the end of a stream, only RST_STREAM may follow on it. -/
theorem Sends.closed (h : Sends p skb p') (ht : Tracks p skb.cb.streamId (framesOf skb.cb.streamId es))
    (hc : skb.carried = true) (hp : p.phase skb.cb.streamId = .reset ∨ p.phase skb.cb.streamId = .ended) :
    p'.phase skb.cb.streamId = .reset := by
  cases h with
  | continuation hb => simp [ht.block hb] at hp
  | headers _ _ hp' => rcases hp' with hp' | hp' <;> simp [hp'] at hp
  | data _ _ hp' => simp [hp'] at hp
  | rstStream => exact (phase_setPhase ..).trans (if_pos rfl)
  | other _ hc' => rw [hc] at hc'; cases hc'

/-- A message that went up before. -/
theorem Went.frame (h : Went p es head) (hs : Sends p skb p') (he : frames e = [(a, skb)])
    (hu : ∀ f ∈ frames (es ++ e), ∀ g ∈ frames (es ++ e), f.1 = g.1 → f = g)
    (hsp : Spec.of (es ++ e) = (Spec.of es).step (.frame a skb))
    (ht : Tracks p skb.cb.streamId (framesOf skb.cb.streamId es)) : Went p' (es ++ e) head := by
  obtain ⟨skb₀, hm, hw⟩ := h
  have hm' : (head, skb₀) ∈ frames (es ++ e) := by
    rw [frames_append]
    exact List.mem_append_left _ hm
  refine ⟨skb₀, hm', ?_⟩
  by_cases hown : skb.carried = true ∧ skb.cb.streamId = skb₀.cb.streamId
  · rw [← hown.2] at hw ⊢
    exact Or.inl (hs.closed ht hown.1 (hw.imp id And.left))
  · have hne : skb.carried = true → head ≠ headAddr ((Spec.of es).message a skb) := by
      intro hc heq
      obtain ⟨g, hg, hhead⟩ := head_message es he hc
      obtain ⟨hg, -, hsid⟩ := mem_framesOf.mp hg
      obtain rfl := hu _ hm' g hg (heq.trans hhead)
      exact hown ⟨hc, hsid.symm⟩
    have hframes : framesOf skb₀.cb.streamId (es ++ e) = framesOf skb₀.cb.streamId es := by
      rw [framesOf_append_of_frames he, List.filter_cons_of_neg (by simpa using hown), List.filter_nil,
        List.append_nil]
    rw [(hs.apart hown).1, hsp, Spec.step_frame_message _ hne, hframes]
    exact hw

/-- **The message that goes up with a frame** has all frames of its stream, or the stream is reset. -/
theorem went_new (hs : Sends p skb p') (he : frames e = [(a, skb)])
    (hsp : Spec.of (es ++ e) = (Spec.of es).step (.frame a skb))
    (ht : Tracks p skb.cb.streamId (framesOf skb.cb.streamId es)) (hti : skb.Timely)
    (hc : skb.carried = true) (hends : skb.ends = true) :
    Went p' (es ++ e) (headAddr ((Spec.of es).message a skb)) := by
  obtain ⟨g, hg, hhead⟩ := head_message es he hc
  obtain ⟨hg, -, hsid⟩ := mem_framesOf.mp hg
  refine ⟨g.2, by rw [hhead]; exact hg, ?_⟩
  rw [hsid]
  have hall : (∀ f ∈ framesOf skb.cb.streamId es, f.2.ends = false) →
      Spec.of (es ++ e) (.message (headAddr ((Spec.of es).message a skb))) =
        framesOf skb.cb.streamId (es ++ e) := by
    intro hno
    have hadd : (Spec.of es).add (a, skb) (.stream skb.cb.streamId) = (Spec.of es).message a skb := by
      simp [Spec.add, Spec.message]
    rw [hsp, Spec.step, if_pos hc, if_pos hends, ← hadd, Spec.flush_message_self, hadd, Spec.message,
      Spec.of_stream, sinceLast_eq_self hno, framesOf_append_of_frames he,
      List.filter_cons_of_pos (by simpa using hc), List.filter_nil]
  have hflag : skb.type ≠ .rstStream → skb.flag1 = true := by
    intro hne
    simpa [Skb.ends, hne] using hends
  cases hs with
  | continuation hb htype =>
      have := hflag (by rw [htype]; simp)
      rw [hti.2 htype] at this
      cases this
  | headers hb htype hp =>
      refine Or.inr ⟨(phase_setPhase ..).trans ?_, Or.inr (hall (ht.ends_eq_false hp))⟩
      rw [if_pos rfl, if_pos (hflag (by rw [htype]; simp))]
  | data hb htype hp =>
      refine Or.inr ⟨(phase_setPhase ..).trans ?_, Or.inr (hall (ht.ends_eq_false (.inr hp)))⟩
      rw [if_pos rfl, if_pos (hflag (by rw [htype]; simp))]
  | rstStream => exact Or.inl ((phase_setPhase ..).trans (if_pos rfl))
  | other _ hc' => rw [hc] at hc'; cases hc'

end frame

/-! ### Runs -/

/-- The frames and messages of a run are as the client's phases say. -/
structure Served (p : Peer) (es : List Event) : Prop where
  tracks : ∀ sid, Tracks p sid (framesOf sid es)
  went : ∀ head ∈ rcvMsgs es, Went p es head

theorem Served.frame (h : Served p es) {a : ℕ} {skb : Skb} (hs : Sends p skb p') (ht : skb.Timely)
    (he : frames e = [(a, skb)])
    (hu : ∀ f ∈ frames (es ++ e), ∀ g ∈ frames (es ++ e), f.1 = g.1 → f = g)
    (hsp : Spec.of (es ++ e) = (Spec.of es).step (.frame a skb))
    (hrcv : rcvMsgs e = if skb.carried ∧ skb.ends then [headAddr ((Spec.of es).message a skb)] else []) :
    Served p' (es ++ e) where
  tracks sid := by
    rw [framesOf_append_of_frames he]
    by_cases hown : skb.carried = true ∧ skb.cb.streamId = sid
    · obtain ⟨hc, rfl⟩ := hown
      rw [List.filter_cons_of_pos (by simpa using hc), List.filter_nil]
      exact (h.tracks _).send hs ht hc
    · rw [List.filter_cons_of_neg (by simpa using hown), List.filter_nil, List.append_nil]
      exact (h.tracks sid).congr (hs.apart hown).1 (hs.apart hown).2
  went head hhead := by
    rw [rcvMsgs_append, hrcv] at hhead
    rcases List.mem_append.mp hhead with hhead | hhead
    · exact (h.went head hhead).frame hs he hu hsp (h.tracks _)
    · split_ifs at hhead with hends
      · obtain rfl := List.mem_singleton.mp hhead
        exact went_new hs he hsp (h.tracks _) ht hends.1 hends.2
      · cases hhead

theorem Served.returned (h : Served p es) (he : frames e = []) (hrcv : rcvMsgs e = []) {a : ℕ}
    (hsp : Spec.of (es ++ e) = Function.update (Spec.of es) (.message a) []) : Served p (es ++ e) where
  tracks sid := by
    rw [framesOf_append_of_frames he, List.filter_nil, List.append_nil]
    exact h.tracks sid
  went k hk := by
    rw [rcvMsgs_append, hrcv, List.append_nil] at hk
    obtain ⟨skb, hm, hw⟩ := h.went k hk
    refine ⟨skb, by rwa [frames_append, he, List.append_nil], ?_⟩
    rw [framesOf_append_of_frames he, List.filter_nil, List.append_nil, hsp]
    by_cases hkh : k = a
    · subst hkh
      rw [Function.update_self]
      exact hw.imp id (fun hw => ⟨hw.1, Or.inl rfl⟩)
    · rw [Function.update_of_ne (by simpa using hkh)]
      exact hw

/-- **Runs**: whatever valid and timely frames arrive, frames and messages are as the client's phases
say. -/
theorem served_of_reach (h : (machine hash heap psock).Reach Orderly s es) :
    ∀ p, Peer.of es = some p → (∀ f ∈ frames es, f.2.Timely) → Served p es := by
  refine h.invariant (P := fun _ es => ∀ p, Peer.of es = some p → (∀ f ∈ frames es, f.2.Timely) →
    Served p es) ?_ ?_
  · intro p hp _
    obtain rfl := Option.some.inj hp
    exact ⟨tracks_init, by simp [rcvMsgs]⟩
  · intro s es a s' e hr ih hg hs p' hp' hti
    have hh := holds_of_reach hr
    have hu : ∀ f ∈ frames (es ++ e), ∀ g ∈ frames (es ++ e), f.1 = g.1 → f = g := by
      have hrange := frames_of_reach (hr.step hg hs)
      exact fun f hf g hg => List.inj_on_of_nodup_map (hrange ▸ List.nodup_range) hf hg
    have hti' : ∀ f ∈ frames es, f.2.Timely := by
      intro f hf
      exact hti f (by rw [frames_append]; exact List.mem_append_left _ hf)
    have he := (step_frames hs).1
    cases a with
    | frame skb alloc =>
        obtain ⟨s₁, e₁, hs₁, -, hsilent, hrcv⟩ := frame_spec hh hg.1 hg.2
        obtain ⟨rfl, rfl⟩ := Prod.mk.inj (Option.some.inj (hs₁.symm.trans hs))
        rw [Peer.of_append_frame he] at hp'
        obtain ⟨p, hp, hnext⟩ := Option.bind_eq_some_iff.mp hp'
        have htimely : skb.Timely := hti (s.brk, skb) (by rw [frames_append, he]; simp [Act.frames])
        refine (ih p hp hti').frame (next_sends hnext) htimely he hu ?_ hrcv
        rw [Spec.of_append, List.foldl_cons, hsilent]
    | recvmsg head len mapped dgram =>
        rw [Peer.of_append_nil he] at hp'
        have hs : step hash s (.recvmsg head len mapped dgram) = some (s', e) := hs
        have hm : head ∈ s.upper := by
          rw [step] at hs
          by_contra hm
          rw [if_neg hm] at hs
          cases hs
        obtain ⟨s₁, e₁, hs₁, hfree, -⟩ := recvmsg_spec hh hm len mapped dgram
        obtain ⟨rfl, rfl⟩ := Prod.mk.inj (Option.some.inj (hs₁.symm.trans hs))
        refine (ih p' hp' hti').returned he (a := head) ?_ ?_
        · rw [rcvMsgs_append, hfree.rcvMsgs]
          rfl
        · rw [Spec.of_append, List.foldl_append, hfree.spec]
          rfl

/-! ### The main result -/

/-- The message `head` of a stream, as a history and a state show it after it went up. -/
structure CompleteRequest (hash : ℕ → Fin streamHashSize) (s : State) (es : List Event) (sid head : ℕ) :
    Prop where
  /-- END_STREAM has been received. -/
  ended : ∃ f ∈ framesOf sid es, f.2.endStream = true
  /-- The last header block has been received to its end. -/
  headers : ∃ f, lastHeader (framesOf sid es) = some f ∧ f.2.endHeaders = true
  /-- Until it is received, the message has every frame of the stream. -/
  chain : head ∈ s.upper → s.chain head = some ((framesOf sid es).map Prod.fst)
  /-- Nothing of the stream is buffered. -/
  rest : streamLookup hash s sid = none

/-- Every call of `rcv_msg` for a stream that is not reset delivers a complete request.  Read in the
state that follows the call, this says that the request was complete when it went up; read in later
states, that nothing is added to the stream. -/
def CompleteRequests (hash : ℕ → Fin streamHashSize) (s : State) (es : List Event) : Prop :=
  ∀ head ∈ rcvMsgs es, ∃ skb, (head, skb) ∈ frames es ∧
    ((∀ f ∈ framesOf skb.cb.streamId es, f.2.type ≠ .rstStream) →
      CompleteRequest hash s es skb.cb.streamId head)

/-- Stream 1 has a header block of two frames and a DATA frame; stream 3 has a single HEADERS frame,
which lies between them. -/
def splitHeadersActs : List Act :=
  [.frame (frameSkb 1 0 1 [11]) granted, .frame (frameSkb 9 4 1 [12]) granted,
    .frame (frameSkb 1 5 3 [33]) granted, .frame (frameSkb 0 1 1 [13]) granted]

/-- The header block of a request without a body, in two frames: END_STREAM is on the first. -/
def earlyEndActs : List Act :=
  [.frame (frameSkb 1 1 1 [11]) granted, .frame (frameSkb 9 4 1 [12]) granted]

theorem orderly_frameSkb (s : State) (type flag : UInt8) (sid : ℕ) (payload : List UInt8) :
    Orderly s (.frame (frameSkb type flag sid payload) granted) := ⟨frameSkb_complete .., rfl⟩

/-- **Complete requests only.**  In every run on the frames of a valid client, on any number of streams,
in which bit 0 of the flags is set neither on a HEADERS frame without END_HEADERS nor on a CONTINUATION
frame, what goes up is a complete request. -/
theorem complete_requests (h : (machine hash heap psock).Reach Orderly s es) (hv : ValidClient es)
    (ht : ∀ f ∈ frames es, f.2.Timely) : CompleteRequests hash s es := by
  obtain ⟨p, hp⟩ := Option.isSome_iff_exists.mp hv
  have hserved := served_of_reach h p hp ht
  have hh := holds_of_reach h
  intro head hhead
  obtain ⟨skb, hm, hw⟩ := hserved.went head hhead
  refine ⟨skb, hm, ?_⟩
  intro hreset
  have htracks := hserved.tracks skb.cb.streamId
  rcases hw with hw | ⟨hended, hw⟩
  · obtain ⟨f, hf, hrst⟩ := htracks.reset hw
    exact absurd hrst (hreset f hf)
  · refine ⟨(htracks.ended hended).2, ?_, ?_, ?_⟩
    · refine htracks.headers (.inr hended) ?_
      intro hb
      rw [htracks.block hb] at hended
      cases hended
    · intro hup
      have hne := (hh.upper head).mp hup
      rw [hh.chain_eq hne, hw.resolve_left hne]
    · rw [hh.lookup, Spec.of_stream, (htracks.ended hended).1]
      rfl

/-- Both requests go up complete, stream 3 first. -/
theorem complete_requests_split : ∃ s es,
    (machine (fun _ => 0) (fun _ => frameSkb 0 0 0 []) ⟨0, 1000, 0, 65535, false, [], false⟩).Reach Orderly s es ∧
    ValidClient es ∧ rcvMsgs es = [2, 0] ∧ CompleteRequests (fun _ => 0) s es := by
  obtain ⟨s, es, hr, hy⟩ := Machine.Reach.of_exec
    (M := machine (fun _ => 0) (fun _ => frameSkb 0 0 0 []) ⟨0, 1000, 0, 65535, false, [], false⟩)
    (G := Orderly) (g := fun _ _ => true) splitHeadersActs
    (by
      intro s a ha _
      simp only [splitHeadersActs, List.mem_cons, List.not_mem_nil, or_false] at ha
      rcases ha with rfl | rfl | rfl | rfl <;> exact orderly_frameSkb ..)
    (fun r => (decide (ValidClient r.2), decide (∀ f ∈ frames r.2, f.2.Timely), rcvMsgs r.2))
    (true, true, [2, 0]) (by decide +kernel)
  simp only [Prod.mk.injEq, decide_eq_true_iff] at hy
  obtain ⟨hv, ht, hrcv⟩ := hy
  exact ⟨s, es, hr, hv, hrcv, complete_requests hr hv ht⟩

/-- The request goes up with half of its header block, and the other half stays behind. -/
theorem incomplete_request : ∃ s es,
    (machine (fun _ => 0) (fun _ => frameSkb 0 0 0 []) ⟨0, 1000, 0, 65535, false, [], false⟩).Reach Orderly s es ∧
    ValidClient es ∧ rcvMsgs es = [0] ∧ s.chain 0 = some [0] ∧
    (framesOf 1 es).map Prod.fst = [0, 1] ∧ streamLookup (fun _ => 0) s 1 = some ⟨1, 1⟩ ∧
    ¬ CompleteRequests (fun _ => 0) s es := by
  obtain ⟨s, es, hr, hy⟩ := Machine.Reach.of_exec
    (M := machine (fun _ => 0) (fun _ => frameSkb 0 0 0 []) ⟨0, 1000, 0, 65535, false, [], false⟩)
    (G := Orderly) (g := fun _ _ => true) earlyEndActs
    (by
      intro s a ha _
      simp only [earlyEndActs, List.mem_cons, List.not_mem_nil, or_false] at ha
      rcases ha with rfl | rfl <;> exact orderly_frameSkb ..)
    (fun r => decide (ValidClient r.2 ∧ (∀ f ∈ frames r.2, f.2.cb.streamId = 1 ∧ f.2.type ≠ .rstStream) ∧
      rcvMsgs r.2 = [0] ∧ r.1.chain 0 = some [0] ∧ (framesOf 1 r.2).map Prod.fst = [0, 1] ∧
      streamLookup (fun _ => 0) r.1 1 = some ⟨1, 1⟩)) true (by decide +kernel)
  obtain ⟨hv, hall, hrcv, hchain, hframes, hlookup⟩ := of_decide_eq_true hy
  refine ⟨s, es, hr, hv, hrcv, hchain, hframes, hlookup, ?_⟩
  intro hcomplete
  obtain ⟨skb, hm, hreq⟩ := hcomplete 0 (by rw [hrcv]; simp)
  have hrest := (hreq (fun f hf => (hall f (mem_framesOf.mp hf).1).2)).rest
  rw [(hall _ hm).1, hlookup] at hrest
  cases hrest

end runs

end Rakaia.H2
