import Mathlib.Data.List.TakeWhile
import Rakaia.Pool.References

/-! # Responses

The bytes that are sent on a connection are those of the responses of its completions, in the order in which
these were pushed onto the inbox.  As long as the connection is open, the completions pushed are those sent
as a whole, those in the list of responses, of which the first may be sent in part, and those in the inbox
(`Wire`); what is discarded when it is closed was the end of the sequence, and nothing is sent any more.

All this holds with more than one I/O thread, where no memory is freed, and with one it holds unless the memory
of a connection is used for another one while a worker still uses it (`responses_exact`).  A worker that has
seen the old connection closed then takes the completions of the new one from its inbox and throws them away
(`response_lost`). -/

namespace Rakaia.Pool

open Lib

/-! ### Histories -/

/-- The events since the address was accepted last. -/
def since (c : ℕ) (es : List Event) : List Event :=
  es.foldl (fun l e => if e = .accepted c then [] else l ++ [e]) []

theorem since_append {c : ℕ} {l : List Event} (h : .accepted c ∉ l) (es : List Event) :
    since c (es ++ l) = since c es ++ l := by
  induction l generalizing es with
  | nil => simp
  | cons e l ih =>
      have he : e ≠ .accepted c := fun heq => h (heq ▸ List.mem_cons_self)
      have hsnoc : since c (es ++ [e]) = since c es ++ [e] := by simp [since, he]
      rw [List.append_cons, ih (fun hm => h (List.mem_cons_of_mem _ hm)), hsnoc, List.append_assoc,
        List.singleton_append]

theorem since_append_accepted (c : ℕ) (es : List Event) : since c (es ++ [.accepted c]) = [] := by
  simp [since]

/-- The ids of the completions pushed, among these events. -/
def pushedIds (c : ℕ) (l : List Event) : List UInt32 :=
  l.filterMap (fun | .pushed d id => if d = c then some id else none | _ => none)

/-- The ids of the jobs enqueued, among these events. -/
def enqueuedIds (c : ℕ) (l : List Event) : List UInt32 :=
  l.filterMap (fun | .enqueued j => if j.conn = c then some j.reqId else none | _ => none)

/-- The bytes sent, among these events. -/
def sentBytes (c : ℕ) (l : List Event) : List UInt8 :=
  l.flatMap (fun | .send d bytes n => if d = c then bytes.take n else [] | _ => [])

/-- The ids of the completions pushed onto the inbox, in this order. -/
def pushes (c : ℕ) (es : List Event) : List UInt32 := pushedIds c (since c es)

/-- The ids of the jobs enqueued. -/
def enqueues (c : ℕ) (es : List Event) : List UInt32 := enqueuedIds c (since c es)

/-- The bytes written to the connection. -/
def written (c : ℕ) (es : List Event) : List UInt8 := sentBytes c (since c es)

/-- The events from `close_conn` on. -/
def sinceClosed (c : ℕ) (es : List Event) : List Event := (since c es).dropWhile (· ≠ .closed c)

section histories

variable {nIo nW : ℕ} {c : ℕ} {op : Op nIo nW}

theorem accepted_not_mem (m : Mem nIo nW) (h : op ≠ .accept c) : .accepted c ∉ op.events m := by
  cases op with
  | accept d => simpa [Op.events, eq_comm] using h
  | conn d cop => cases cop <;> simp [Op.events]
  | _ => simp [Op.events]

theorem since_step (m : Mem nIo nW) (h : op ≠ .accept c) (es : List Event) :
    since c (es ++ op.events m) = since c es ++ op.events m :=
  since_append (accepted_not_mem m h) es

theorem pushes_step (m : Mem nIo nW) (h : op ≠ .accept c) (es : List Event) :
    pushes c (es ++ op.events m) = pushes c es ++ pushedIds c (op.events m) := by
  rw [pushes, since_step m h, pushedIds, List.filterMap_append, ← pushedIds, ← pushes, ← pushedIds]

theorem enqueues_step (m : Mem nIo nW) (h : op ≠ .accept c) (es : List Event) :
    enqueues c (es ++ op.events m) = enqueues c es ++ enqueuedIds c (op.events m) := by
  rw [enqueues, since_step m h, enqueuedIds, List.filterMap_append, ← enqueuedIds, ← enqueues, ← enqueuedIds]

theorem written_step (m : Mem nIo nW) (h : op ≠ .accept c) (es : List Event) :
    written c (es ++ op.events m) = written c es ++ sentBytes c (op.events m) := by
  rw [written, since_step m h, sentBytes, List.flatMap_append, ← sentBytes, ← written, ← sentBytes]

theorem pushedIds_events (m : Mem nIo nW) (h : ∀ a, op ≠ .pushInbox c a) : pushedIds c (op.events m) = [] := by
  cases op with
  | pushInbox d a =>
      have hd : d ≠ c := fun hd => h a (hd ▸ rfl)
      simp [Op.events, pushedIds, hd]
  | conn d cop => cases cop <;> simp [Op.events, pushedIds]
  | _ => simp [Op.events, pushedIds]

theorem enqueuedIds_events (m : Mem nIo nW) (h : ∀ j, op ≠ .enqueue j) : enqueuedIds c (op.events m) = [] := by
  cases op with
  | enqueue j => exact absurd rfl (h j)
  | conn d cop => cases cop <;> simp [Op.events, enqueuedIds]
  | _ => simp [Op.events, enqueuedIds]

theorem sentBytes_events (m : Mem nIo nW) (h : ∀ a n, op = .send c a n → n = 0) : sentBytes c (op.events m) = [] := by
  cases op with
  | send d a n =>
      by_cases hd : d = c
      · subst hd
        simp [Op.events, sentBytes, h a n rfl]
      · simp [Op.events, sentBytes, hd]
  | conn d cop => cases cop <;> simp [Op.events, sentBytes]
  | _ => simp [Op.events, sentBytes]

end histories

/-! ### One connection -/

/-- The responses with these ids, one after the other. -/
def responsesOf (ids : List UInt32) : List UInt8 := (ids.map responseBytes).flatten

theorem responsesOf_append (l l' : List UInt32) : responsesOf (l ++ l') = responsesOf l ++ responsesOf l' := by
  simp [responsesOf]

/-- What is sent of the first response of a list. -/
def partSent (x : ℕ → Completion) : List ℕ → List UInt8
  | [] => []
  | a :: _ => (x a).response.take (x a).sent

/-- The ids of completions. -/
def idsOf (x : ℕ → Completion) (l : List ℕ) : List UInt32 := l.map (fun a => (x a).reqId)

/-- What was pushed and what was written, for a connection with these responses and this inbox. -/
structure Wire (x : ℕ → Completion) (resp inbox : List ℕ) (closed : Bool) (pushes : List UInt32)
    (written : List UInt8) : Prop where
  running : closed = false → ∃ done, pushes = done ++ idsOf x (resp ++ inbox.reverse) ∧
    written = responsesOf done ++ partSent x resp ∧ ∀ a ∈ resp.tail, (x a).sent = 0
  upTo : written <+: responsesOf pushes

namespace Wire

variable {x x' : ℕ → Completion} {resp inbox : List ℕ} {closed : Bool} {pushes : List UInt32}
  {written : List UInt8} {a n : ℕ} {l : List ℕ}

theorem nil (x : ℕ → Completion) : Wire x [] [] false [] [] where
  running _ := ⟨[], rfl, rfl, by simp⟩
  upTo := List.prefix_refl _

theorem partSent_le (hresp : ∀ a ∈ resp, (x a).response = responseBytes (x a).reqId) (l : List ℕ) :
    partSent x resp <+: responsesOf (idsOf x (resp ++ l)) := by
  cases resp with
  | nil => exact List.nil_prefix
  | cons a resp =>
      rw [partSent, hresp a List.mem_cons_self, List.cons_append, idsOf, List.map_cons, responsesOf,
        List.map_cons, List.flatten_cons]
      exact (List.take_prefix ..).trans (List.prefix_append ..)

theorem of_running (hresp : ∀ a ∈ resp, (x a).response = responseBytes (x a).reqId)
    (h : closed = false → ∃ done, pushes = done ++ idsOf x (resp ++ inbox.reverse) ∧
      written = responsesOf done ++ partSent x resp ∧ ∀ a ∈ resp.tail, (x a).sent = 0)
    (hclosed : closed = true → written <+: responsesOf pushes) :
    Wire x resp inbox closed pushes written where
  running := h
  upTo := by
    cases closed with
    | true => exact hclosed rfl
    | false =>
        obtain ⟨done, rfl, rfl, -⟩ := h rfl
        rw [responsesOf_append]
        exact (List.prefix_append_right_inj _).mpr (partSent_le hresp _)

theorem push (h : Wire x resp inbox closed pushes written) (a : ℕ) :
    Wire x resp (a :: inbox) closed (pushes ++ [(x a).reqId]) written where
  running hc := by
    obtain ⟨done, rfl, hw, ht⟩ := h.running hc
    exact ⟨done, by simp [idsOf], hw, ht⟩
  upTo := by
    rw [responsesOf_append]
    exact h.upTo.trans (List.prefix_append ..)

theorem drain (h : Wire x resp inbox closed pushes written) (hinbox : ∀ a ∈ inbox, (x a).sent = 0) :
    Wire x (resp ++ inbox.reverse) [] closed pushes written where
  running hc := by
    obtain ⟨done, hp, hw, ht⟩ := h.running hc
    refine ⟨done, by simpa using hp, ?_, ?_⟩
    · rw [hw]
      cases resp with
      | nil =>
          cases hr : inbox.reverse with
          | nil => rfl
          | cons b l =>
              have hb : b ∈ inbox := List.mem_reverse.mp (hr ▸ List.mem_cons_self)
              simp [partSent, hinbox b hb]
      | cons b l => rfl
    · intro b hb
      cases resp with
      | nil => exact hinbox b (List.mem_reverse.mp (List.mem_of_mem_tail hb))
      | cons a l =>
          rcases List.mem_append.mp hb with hb | hb
          · exact ht b hb
          · exact hinbox b (List.mem_reverse.mp hb)
  upTo := h.upTo

/-- The first response is taken off when it was sent, or when the connection is closed. -/
theorem pop (h : Wire x (a :: l) inbox closed pushes written) (hresp : (x a).response = responseBytes (x a).reqId)
    (hsent : closed = false → responseLen ≤ (x a).sent) : Wire x l inbox closed pushes written where
  running hc := by
    obtain ⟨done, hp, hw, ht⟩ := h.running hc
    refine ⟨done ++ [(x a).reqId], ?_, ?_, fun b hb => ht b (List.mem_of_mem_tail hb)⟩
    · rw [hp]
      simp [idsOf]
    · have hpart : partSent x l = [] := by
        cases l with
        | nil => rfl
        | cons b l => simp [partSent, ht b List.mem_cons_self]
      rw [hw, hpart, responsesOf_append, partSent, hresp, List.take_of_length_le (hsent hc)]
      simp [responsesOf]
  upTo := h.upTo

/-- Bytes of the first response are sent. -/
theorem send (h : Wire x (a :: l) inbox closed pushes written)
    (hresp : ∀ b ∈ a :: l, (x b).response = responseBytes (x b).reqId) (hl : a ∉ l)
    (hclosed : closed = true → n = 0) :
    Wire (Function.update x a { x a with sent := (x a).sent + n }) (a :: l) inbox closed pushes
      (written ++ ((x a).response.drop (x a).sent).take n) := by
  have hsame : ∀ b, (Function.update x a { x a with sent := (x a).sent + n } b).reqId = (x b).reqId ∧
      (Function.update x a { x a with sent := (x a).sent + n } b).response = (x b).response := by
    intro b
    by_cases hb : b = a
    · subst hb
      simp
    · simp [hb]
  refine of_running (fun b hb => ?_) (fun hc => ?_) (fun hc => ?_)
  · rw [(hsame b).1, (hsame b).2, hresp b hb]
  · obtain ⟨done, hp, hw, ht⟩ := h.running hc
    refine ⟨done, ?_, ?_, ?_⟩
    · rw [hp]
      congr 1
      exact (List.map_congr_left (fun b _ => (hsame b).1)).symm
    · rw [hw, partSent, partSent, List.append_assoc, Function.update_self, List.take_add]
    · intro b hb
      have hba : b ≠ a := ne_of_mem_of_not_mem hb hl
      rw [Function.update_of_ne hba]
      exact ht b hb
  · rw [hclosed hc, List.take_zero, List.append_nil]
    exact h.upTo

theorem close (h : Wire x resp inbox closed pushes written) (resp' inbox' : List ℕ) :
    Wire x' resp' inbox' true pushes written where
  running hc := by cases hc
  upTo := h.upTo

/-- Only the completions in the lists matter. -/
theorem congr (h : Wire x resp inbox closed pushes written)
    (hx : ∀ a, a ∈ resp ∨ a ∈ inbox → (x' a).reqId = (x a).reqId ∧ (x' a).response = (x a).response ∧
      (x' a).sent = (x a).sent) : Wire x' resp inbox closed pushes written where
  running hc := by
    obtain ⟨done, hp, hw, ht⟩ := h.running hc
    refine ⟨done, ?_, ?_, ?_⟩
    · rw [hp]
      congr 1
      refine (List.map_congr_left (fun a ha => (hx a ?_).1)).symm
      rcases List.mem_append.mp ha with ha | ha
      · exact .inl ha
      · exact .inr (List.mem_reverse.mp ha)
    · rw [hw]
      cases resp with
      | nil => rfl
      | cons a l =>
          have ha := hx a (.inl List.mem_cons_self)
          rw [partSent, partSent, ha.2.1, ha.2.2]
    · intro a ha
      rw [(hx a (.inl (List.mem_of_mem_tail ha))).2.2]
      exact ht a ha
  upTo := h.upTo

end Wire

/-! ### Steps -/

section steps

variable {nIo nW : ℕ} {s s' : State nIo nW} {L : Place nIo nW → List ℕ} {t : Thread nIo nW} {op : Op nIo nW}
  {p : Pos} {es : List Event} {c : ℕ}

/-- What was pushed and what was written, for a connection of the server. -/
def Tracks (s : State nIo nW) (L : Place nIo nW → List ℕ) (es : List Event) (c : ℕ) : Prop :=
  Wire s.mem.completions (L (.responses c)) (L (.inbox c)) (s.mem.conns c).closed (pushes c es) (written c es)

theorem Step.respHead_of_send {m : Mem nIo nW} {q : Pos} {a n : ℕ} (h : Step m t q (.send c a n) p) :
    (m.conns c).respHead = some a := by
  cases h <;> assumption

/-- Completions in the inbox or in the list of responses change only when bytes of them are sent. -/
theorem Inv.completions_step (hi : Inv s L) (hv : Moves s s' t op p) (hsend : ∀ a n, op ≠ .send c a n) {a : ℕ}
    (ha : a ∈ L (.responses c) ∨ a ∈ L (.inbox c)) :
    (s'.mem.completions a).reqId = (s.mem.completions a).reqId ∧
      (s'.mem.completions a).response = (s.mem.completions a).response ∧
      (s'.mem.completions a).sent = (s.mem.completions a).sent := by
  have hplace : ∀ k, a ∈ L k → k = .responses c ∨ k = .inbox c := by
    intro k hk
    rcases ha with ha | ha
    · exact .inl (hi.records.stock.chains.disjoint _ _ a hk ha)
    · exact .inr (hi.records.stock.chains.disjoint _ _ a hk ha)
  rcases apply_completions hv.mem a with hx | ⟨w, j, rfl | ⟨rfl, rfl⟩, -⟩ | ⟨d, n, rfl, -⟩ | ⟨-, hx⟩
  · rw [hx]
    exact ⟨rfl, rfl, rfl⟩
  · have hspare : a ∈ L (.spare w) := by
      have hs := hv.step
      generalize s.pos t = q at hs
      cases hs with
      | takeLocal hl => exact List.mem_of_mem_head? ((hi.records.spare w).symm.trans hl)
    rcases hplace _ hspare with hk | hk <;> cases hk
  · rcases ha with ha | ha <;> exact absurd (hi.lt_brk ha) (Nat.lt_irrefl _)
  · rcases hplace _ (hi.records.mem_responses hv.step.respHead_of_send) with hk | hk
    · cases hk
      exact absurd rfl (hsend a n)
    · cases hk
  · rw [hx]
    exact ⟨rfl, rfl, rfl⟩

/-- Operations that change the lists of a connection, what was pushed, sent or accepted, or `closed`. -/
def Op.touches (c : ℕ) : Op nIo nW → Bool
  | .pushInbox d _ | .takeInbox d | .drainInbox d | .popResponse d | .send d _ _ | .accept d
  | .conn d .storeClosed => d == c
  | _ => false

theorem places_untouched (m : Mem nIo nW) (L : Place nIo nW → List ℕ) (h : op.touches c = false) :
    places m t L op (.responses c) = L (.responses c) ∧ places m t L op (.inbox c) = L (.inbox c) := by
  cases op with
  | pushInbox d a | takeInbox d | drainInbox d | popResponse d =>
      have hd : c ≠ d := fun hd => by simp [Op.touches, hd] at h
      simp [places, hd]
  | _ => simp [places]

theorem closed_untouched (hv : Moves s s' t op p) (h : op.touches c = false) :
    (s'.mem.conns c).closed = (s.mem.conns c).closed := by
  rcases apply_closed hv.mem c with hk | rfl | rfl
  · exact hk
  · simp [Op.touches] at h
  · simp [Op.touches] at h

/-- What an operation elsewhere leaves alone. -/
theorem Tracks.untouched (h : Tracks s L es c) (hi : Inv s L) (hv : Moves s s' t op p) (hop : op.touches c = false) :
    Tracks s' (places s.mem t L op) (es ++ op.events s.mem) c := by
  have hacc : op ≠ .accept c := by rintro rfl; simp [Op.touches] at hop
  have hpush : ∀ a, op ≠ .pushInbox c a := by rintro a rfl; simp [Op.touches] at hop
  have hsend : ∀ a n, op ≠ .send c a n := by rintro a n rfl; simp [Op.touches] at hop
  obtain ⟨hr, hin⟩ := places_untouched (t := t) s.mem L hop
  unfold Tracks
  rw [hr, hin, closed_untouched hv hop, pushes_step _ hacc, written_step _ hacc, pushedIds_events _ hpush,
    sentBytes_events _ (fun a n heq => absurd heq (hsend a n)), List.append_nil, List.append_nil]
  exact h.congr (fun a ha => hi.completions_step hv hsend ha)

theorem Step.sees_of_takeInbox {m : Mem nIo nW} {q : Pos} (h : Step m t q (.takeInbox c) p) : q.sees = some c := by
  cases h <;> rfl

/-- A response is taken off when it was sent as a whole, or behind the store to `closed`. -/
theorem Step.sent_or_sees {m : Mem nIo nW} {q : Pos} (h : Step m t q (.popResponse c) p) :
    ∃ a, (m.conns c).respHead = some a ∧ (responseLen ≤ (m.completions a).sent ∨ q.sees = some c) := by
  cases h with
  | flushPop ha hlt => exact ⟨_, ha, .inl (Nat.le_of_not_lt hlt)⟩
  | discardPop ha => exact ⟨_, ha, .inr rfl⟩

theorem Step.open_of_send {m : Mem nIo nW} {q : Pos} {a n : ℕ} (h : Step m t q (.send c a n) p) (hn : n ≠ 0) :
    (m.conns c).fdOpen = true ∧ q.owner = some c ∧ q.closing = none := by
  cases h with
  | sent _ _ _ hfd => exact ⟨hfd, rfl, rfl⟩
  | _ => exact absurd rfl hn

/-- Nothing is sent behind the store to `closed`: only the thread that closes owns the connection until the
store to `fd`, and `send` fails behind it. -/
theorem Base.send_closed (hb : Base s) {a n : ℕ} (hv : Moves s s' t (.send c a n) p)
    (hc : (s.mem.conns c).closed = true) : n = 0 := by
  by_contra hn
  obtain ⟨hfd, hown, hnone⟩ := hv.step.open_of_send hn
  obtain ⟨u, hu⟩ := hb.closing c hc hfd
  obtain rfl := (hb.owned c).unique u t (Pos.owner_of_closing hu) hown
  rw [hnone] at hu
  cases hu

theorem Records.cons_of_respHead {m : Mem nIo nW} {g : Thread nIo nW → Grip} (h : Records m g L) {a : ℕ}
    (ha : (m.conns c).respHead = some a) : ∃ l, L (.responses c) = a :: l := by
  have hhead : (L (.responses c)).head? = some a := (congrArg Ends.head (h.responses c)).symm.trans ha
  exact ⟨_, (List.cons_head?_tail hhead).symm⟩

theorem Tracks.pushInbox (h : Tracks s L es c) {a : ℕ} (hv : Moves s s' t (.pushInbox c a) p) :
    Tracks s' (places s.mem t L (.pushInbox c a)) (es ++ Op.events s.mem (.pushInbox c a)) c := by
  have hs' := (Option.some.inj hv.mem).symm
  unfold Tracks
  rw [pushes_step _ (by simp), written_step _ (by simp), sentBytes_events _ (by simp), List.append_nil, hs']
  simpa [places, Op.events, pushedIds] using Wire.push h a

theorem Tracks.takeInbox (h : Tracks s L es c) (hi : Inv s L) (hv : Moves s s' t (.takeInbox c) p) :
    Tracks s' (places s.mem t L (.takeInbox c)) (es ++ Op.events s.mem (.takeInbox c)) c := by
  have hclosed := hi.base.sees t c hv.step.sees_of_takeInbox
  have hs' := (Option.some.inj hv.mem).symm
  have hc : (s'.mem.conns c).closed = true := by
    rw [hs']
    simpa using hclosed
  unfold Tracks
  rw [show Op.events s.mem (.takeInbox c) = [] from rfl, List.append_nil, hc]
  exact h.close _ _

theorem Tracks.drainInbox (h : Tracks s L es c) (hi : Inv s L) (hv : Moves s s' t (.drainInbox c) p) :
    Tracks s' (places s.mem t L (.drainInbox c)) (es ++ Op.events s.mem (.drainInbox c)) c := by
  obtain ⟨next, ends, hs'⟩ := drainInbox_eq hv.mem
  unfold Tracks
  rw [show Op.events s.mem (.drainInbox c) = [] from rfl, List.append_nil, hs']
  have hwire := h.drain (fun a ha => (hi.records.place _ a ha).2.2.2)
  simpa [places] using hwire

theorem Tracks.popResponse (h : Tracks s L es c) (hi : Inv s L) (hv : Moves s s' t (.popResponse c) p) :
    Tracks s' (places s.mem t L (.popResponse c)) (es ++ Op.events s.mem (.popResponse c)) c := by
  obtain ⟨a, ha, hor⟩ := hv.step.sent_or_sees
  obtain ⟨l, hl⟩ := hi.records.cons_of_respHead ha
  obtain ⟨b, -, hs'⟩ := popResponse_eq hv.mem
  have hsent : (s.mem.conns c).closed = false → responseLen ≤ (s.mem.completions a).sent := by
    intro hopen
    rcases hor with hor | hor
    · exact hor
    · rw [hi.base.sees t c hor] at hopen
      cases hopen
  have hresp := (hi.records.place (.responses c) a (hl ▸ List.mem_cons_self)).2.2
  unfold Tracks at h ⊢
  rw [hl] at h
  rw [show Op.events s.mem (.popResponse c) = [] from rfl, List.append_nil, hs']
  simpa [places, hl] using h.pop hresp hsent

theorem Tracks.send (h : Tracks s L es c) (hi : Inv s L) {a n : ℕ} (hv : Moves s s' t (.send c a n) p) :
    Tracks s' (places s.mem t L (.send c a n)) (es ++ Op.events s.mem (.send c a n)) c := by
  obtain ⟨l, hl⟩ := hi.records.cons_of_respHead hv.step.respHead_of_send
  have hs' := (Option.some.inj hv.mem).symm
  have hresp : ∀ b ∈ a :: l, (s.mem.completions b).response = responseBytes (s.mem.completions b).reqId := by
    intro b hb
    exact (hi.records.place (.responses c) b (hl ▸ hb)).2.2
  have hnot : a ∉ l := by
    have hnodup := hi.records.stock.chains.nodup (.responses c)
    rw [hl] at hnodup
    exact (List.nodup_cons.mp hnodup).1
  unfold Tracks at h ⊢
  rw [pushes_step _ (by simp), written_step _ (by simp), pushedIds_events _ (by simp), List.append_nil, hs',
    show places s.mem t L (.send c a n) = L from rfl, hl]
  rw [hl] at h
  simpa [Op.events, sentBytes] using h.send (n := n) hresp hnot (hi.base.send_closed hv)

/-- **One step** keeps what was pushed and what was written. -/
theorem Tracks.step (h : Tracks s L es c) (hi : Inv s L) (hv : Moves s s' t op p)
    (hun : op = .accept c → Unreferenced s c) : Tracks s' (places s.mem t L op) (es ++ op.events s.mem) c := by
  by_cases hop : op.touches c = false
  · exact h.untouched hi hv hop
  have hop := eq_true_of_ne_false hop
  cases op with
  | pushInbox d a =>
      obtain rfl := beq_iff_eq.mp hop
      exact h.pushInbox hv
  | takeInbox d =>
      obtain rfl := beq_iff_eq.mp hop
      exact h.takeInbox hi hv
  | drainInbox d =>
      obtain rfl := beq_iff_eq.mp hop
      exact h.drainInbox hi hv
  | popResponse d =>
      obtain rfl := beq_iff_eq.mp hop
      exact h.popResponse hi hv
  | send d a n =>
      obtain rfl := beq_iff_eq.mp hop
      exact h.send hi hv
  | accept d =>
      obtain rfl := beq_iff_eq.mp hop
      obtain ⟨hin, hresp⟩ := hi.lists_of_refcnt (hun rfl).1
      unfold Tracks
      rw [apply_accept hv.mem, show places s.mem t L (.accept d) = L from rfl, hin, hresp, pushes, written,
        show Op.events s.mem (.accept d) = [.accepted d] from rfl, since_append_accepted]
      exact .nil _
  | conn d cop =>
      cases cop with
      | storeClosed =>
          obtain rfl := beq_iff_eq.mp hop
          have hs' := (Option.some.inj hv.mem).symm
          unfold Tracks
          rw [pushes_step _ (by simp), written_step _ (by simp), pushedIds_events _ (by simp),
            sentBytes_events _ (by simp), List.append_nil, List.append_nil, hs']
          simpa [ConnOp.apply] using h.close _ _
      | _ => cases hop
  | _ => cases hop

/-! ### Jobs -/

/-- The job is in the hands of the thread. -/
def Pos.carries (j : Job) (p : Pos) : ℕ := if p.job = some j then 1 else 0

/-- The jobs enqueued are those pushed as completions, those in the ring and those in the hands of workers. -/
def Conserved (s : State nIo nW) (es : List Event) (j : Job) : Prop :=
  (enqueues j.conn es).count j.reqId =
    (pushes j.conn es).count j.reqId + s.mem.jobRing.count j + tally (Pos.carries j) s.pos

theorem Step.job_eq {m : Mem nIo nW} {q : Pos} (h : Step m t q op p) (hdeq : op ≠ .dequeue)
    (hpush : ∀ c a, op ≠ .pushInbox c a) : p.job = q.job := by
  cases h with
  | @acquire _ k => cases k <;> rfl
  | @signal _ k c => rw [(k.outside_target t c).job]; rfl
  | @lose _ k c => rw [(k.outside_loser t c).job]; rfl
  | @afterIdle _ _ c | @releaseHup _ c => rw [(outside_finish t c).job]; rfl
  | staleEnd => rw [(outside_finish t 0).job]; rfl
  | dequeue => exact absurd rfl hdeq
  | push => exact absurd rfl (hpush _ _)
  | _ => rfl

theorem Step.job_of_dequeue {m : Mem nIo nW} {q : Pos} (h : Step m t q .dequeue p) :
    ∃ j rest, m.jobRing = j :: rest ∧ q.job = none ∧ p.job = some j := by
  cases h with
  | dequeue hr => exact ⟨_, _, hr, rfl, rfl⟩

theorem Step.job_of_push {m : Mem nIo nW} {q : Pos} {a : ℕ} (h : Step m t q (.pushInbox c a) p) :
    ∃ j old, q = .pushCas j a old ∧ j.conn = c ∧ p.job = none := by
  cases h
  exact ⟨_, _, rfl, rfl, rfl⟩

theorem tally_carries (hv : Moves s s' t op p) (j : Job) :
    tally (Pos.carries j) s'.pos + (s.pos t).carries j = tally (Pos.carries j) s.pos + p.carries j := by
  rw [hv.pos]
  exact tally_update ..

theorem carries_some {q : Pos} {j : Job} (h : q.job = some j) (j' : Job) :
    q.carries j' = if j = j' then 1 else 0 := by
  simp [Pos.carries, h]

theorem carries_none {q : Pos} (h : q.job = none) (j : Job) : q.carries j = 0 := by simp [Pos.carries, h]

/-- The completion that a worker pushes is that of its job. -/
theorem Inv.fill_of_held (hi : Inv s L) {j : Job} {a : ℕ} (hj : (s.pos t).job = some j)
    (ha : (s.pos t).grip.held = some a) : ∃ w, s.mem.completions a = .fill w j := by
  have hok := hi.records.grip t a ha
  generalize s.pos t = q at hj ha hok
  cases q with
  | pushLoad j' b | pushCas j' b old =>
      obtain rfl := Option.some.inj hj
      exact hok.1
  | free l b st => cases hj
  | _ => cases ha

/-- No job is left of a connection without references. -/
theorem Inv.no_job (hi : Inv s L) {j : Job} (hc : (s.mem.conns j.conn).refcnt = 0) :
    s.mem.jobRing.count j = 0 ∧ tally (Pos.carries j) s.pos = 0 := by
  have hcount := hi.counted j.conn
  unfold references at hcount
  constructor
  · have hle : s.mem.jobRing.count j ≤ s.mem.jobRing.countP (fun j' => j'.conn == j.conn) := by
      refine List.countP_mono_left (fun j' _ hj' => ?_)
      rw [beq_iff_eq.mp hj', beq_self_eq_true]
    omega
  · refine tally_eq_zero (fun u => ?_)
    unfold Pos.carries
    rw [if_neg]
    intro hj
    by_cases hheld : ∃ a, (s.pos u).grip.held = some a
    · obtain ⟨a, ha⟩ := hheld
      obtain ⟨w, hw⟩ := hi.fill_of_held hj ha
      have hpos := hi.refcnt_pos (hi.held_lt_brk ha) (by rw [hw]; rfl) (by rw [hw]; rfl : _ = j.conn)
      omega
    · have href : (s.pos u).jobRef = some j.conn := by
        generalize s.pos u = q at hj hheld
        cases q with
        | alloc j' => rw [← Option.some.inj hj]; rfl
        | pushLoad j' b | pushCas j' b old => exact absurd ⟨b, rfl⟩ hheld
        | _ => cases hj
      have hle := le_tally (Pos.refersTo j.conn) s.pos u
      rw [refersTo_some href, if_pos rfl] at hle
      omega

theorem reqId_eq_iff {j j' : Job} (h : j'.conn = j.conn) : j'.reqId = j.reqId ↔ j' = j := by
  constructor
  · intro hid
    cases j
    cases j'
    exact Job.mk.injEq .. ▸ ⟨h, hid⟩
  · rintro rfl
    rfl

theorem Conserved.enqueue {j j' : Job} (h : Conserved s es j) (hv : Moves s s' t (.enqueue j') p) :
    Conserved s' (es ++ Op.events s.mem (.enqueue j')) j := by
  have ht := tally_carries hv j
  have hsame : (s.pos t).carries j = p.carries j := by
    unfold Pos.carries
    rw [hv.step.job_eq (by simp) (by simp)]
  have hring : s'.mem.jobRing = s.mem.jobRing ++ [j'] := by rw [← Option.some.inj hv.mem]
  have hids : (enqueuedIds j.conn (Op.events s.mem (.enqueue j'))).count j.reqId = [j'].count j := by
    by_cases hc : j'.conn = j.conn
    · simp [enqueuedIds, Op.events, hc, List.count_singleton, reqId_eq_iff hc]
    · have hne : j' ≠ j := fun heq => hc (by rw [heq])
      simp [enqueuedIds, Op.events, hc, hne]
  unfold Conserved at h ⊢
  rw [enqueues_step _ (by simp), pushes_step _ (by simp), pushedIds_events _ (by simp), List.append_nil,
    List.count_append, hids, hring, List.count_append]
  omega

theorem Conserved.dequeue {j : Job} (h : Conserved s es j) (hv : Moves s s' t .dequeue p) :
    Conserved s' (es ++ Op.events s.mem .dequeue) j := by
  have ht := tally_carries hv j
  obtain ⟨j', rest, hr, hnone, hsome⟩ := hv.step.job_of_dequeue
  have hring : s'.mem.jobRing = rest := by rw [← Option.some.inj hv.mem, hr]; rfl
  rw [carries_none hnone, carries_some hsome] at ht
  unfold Conserved at h ⊢
  rw [hr, List.count_cons] at h
  rw [show Op.events s.mem .dequeue = [] from rfl, List.append_nil, hring]
  simp only [beq_iff_eq] at h
  omega

theorem Conserved.pushInbox {j : Job} (h : Conserved s es j) (hi : Inv s L) {a : ℕ}
    (hv : Moves s s' t (.pushInbox c a) p) : Conserved s' (es ++ Op.events s.mem (.pushInbox c a)) j := by
  have ht := tally_carries hv j
  obtain ⟨j', old, hq, rfl, hnone⟩ := hv.step.job_of_push
  have hjob : (s.pos t).job = some j' := by rw [hq]; rfl
  obtain ⟨w, hw⟩ := hi.fill_of_held hjob (a := a) (by rw [hq]; rfl)
  have hring : s'.mem.jobRing = s.mem.jobRing := by rw [← Option.some.inj hv.mem]; rfl
  have hids : (pushedIds j.conn (Op.events s.mem (.pushInbox j'.conn a))).count j.reqId =
      if j' = j then 1 else 0 := by
    by_cases hc : j'.conn = j.conn
    · simp [pushedIds, Op.events, hc, hw, Completion.fill, List.count_singleton, reqId_eq_iff hc]
    · have hne : j' ≠ j := fun heq => hc (by rw [heq])
      simp [pushedIds, Op.events, hc, hne]
  rw [carries_some hjob, carries_none hnone] at ht
  unfold Conserved at h ⊢
  rw [enqueues_step _ (by simp), enqueuedIds_events _ (by simp), List.append_nil, pushes_step _ (by simp),
    List.count_append, hids, hring]
  omega

theorem Conserved.step {j : Job} (h : Conserved s es j) (hi : Inv s L) (hv : Moves s s' t op p)
    (hun : op = .accept j.conn → Unreferenced s j.conn) : Conserved s' (es ++ op.events s.mem) j := by
  by_cases henq : ∃ j', op = .enqueue j'
  · obtain ⟨j', rfl⟩ := henq
    exact h.enqueue hv
  by_cases hdeq : op = .dequeue
  · subst hdeq
    exact h.dequeue hv
  by_cases hpush : ∃ c a, op = .pushInbox c a
  · obtain ⟨c, a, rfl⟩ := hpush
    exact h.pushInbox hi hv
  simp only [not_exists] at henq hpush
  have ht := tally_carries hv j
  have hsame : (s.pos t).carries j = p.carries j := by
    unfold Pos.carries
    rw [hv.step.job_eq hdeq hpush]
  have hring : s'.mem.jobRing = s.mem.jobRing := by
    rcases apply_jobRing hv.mem with hr | ⟨j', hop, -⟩ | ⟨hop, -⟩
    · exact hr
    · exact absurd hop (henq j')
    · exact absurd hop hdeq
  unfold Conserved at h ⊢
  rw [hring]
  by_cases hacc : op = .accept j.conn
  · subst hacc
    obtain ⟨hzero, hzero'⟩ := hi.no_job (hun rfl).1
    rw [enqueues, pushes, show Op.events s.mem (.accept j.conn) = [.accepted j.conn] from rfl, since_append_accepted,
      hzero]
    simp only [enqueuedIds, pushedIds, List.filterMap_nil, List.count_nil]
    omega
  · rw [enqueues_step _ hacc, pushes_step _ hacc, enqueuedIds_events _ henq, pushedIds_events _ (hpush _),
      List.append_nil, List.append_nil]
    omega

/-! ### Silence -/

/-- Nothing was sent since `close_conn`. -/
def Silent (s : State nIo nW) (es : List Event) (c : ℕ) : Prop :=
  ((s.mem.conns c).closed = false → sinceClosed c es = []) ∧ sentBytes c (sinceClosed c es) = []

theorem closed_not_mem (m : Mem nIo nW) (h : op ≠ .conn c .storeClosed) : .closed c ∉ op.events m := by
  cases op with
  | conn d cop =>
      cases cop with
      | storeClosed => simpa [Op.events, eq_comm] using h
      | _ => simp [Op.events]
  | _ => simp [Op.events]

theorem sinceClosed_step (m : Mem nIo nW) (h : op ≠ .accept c) (es : List Event) :
    sinceClosed c (es ++ op.events m) =
      if (sinceClosed c es).isEmpty then (op.events m).dropWhile (· ≠ .closed c)
      else sinceClosed c es ++ op.events m := by
  rw [sinceClosed, since_step m h, List.dropWhile_append]
  rfl

theorem Silent.step (h : Silent s es c) (hi : Inv s L) (hv : Moves s s' t op p) :
    Silent s' (es ++ op.events s.mem) c := by
  obtain ⟨hopen, hsilent⟩ := h
  by_cases hacc : op = .accept c
  · subst hacc
    unfold Silent sinceClosed
    rw [show Op.events s.mem (.accept c) = [.accepted c] from rfl, since_append_accepted]
    exact ⟨fun _ => rfl, rfl⟩
  unfold Silent
  rw [sinceClosed_step _ hacc]
  by_cases hclose : op = .conn c .storeClosed
  · subst hclose
    have hclosed : (s'.mem.conns c).closed = true := by
      rw [← Option.some.inj hv.mem]
      simp [ConnOp.apply]
    constructor
    · intro hf
      rw [hclosed] at hf
      cases hf
    split_ifs
    · simp [Op.events, sentBytes]
    · rw [sentBytes, List.flatMap_append, ← sentBytes, hsilent]
      simp [Op.events]
  have hdrop : (op.events s.mem).dropWhile (· ≠ .closed c) = [] := by
    rw [List.dropWhile_eq_nil_iff]
    intro e he
    simp only [decide_eq_true_eq]
    rintro rfl
    exact closed_not_mem _ hclose he
  have hsame : (s'.mem.conns c).closed = (s.mem.conns c).closed := by
    rcases apply_closed hv.mem c with hk | hop | hop
    · exact hk
    · exact absurd hop hclose
    · exact absurd hop hacc
  rw [hdrop, hsame]
  constructor
  · intro hf
    rw [hopen hf]
    rfl
  · split_ifs with hemp
    · rfl
    · -- the connection is closed, so nothing is sent
      have hclosed : (s.mem.conns c).closed = true := by
        by_contra hf
        exact hemp (by rw [hopen (eq_false_of_ne_true hf)]; rfl)
      have hnone : sentBytes c (op.events s.mem) = [] := by
        refine sentBytes_events s.mem ?_
        rintro a n rfl
        exact hi.base.send_closed hv hclosed
      rw [sentBytes, List.flatMap_append, ← sentBytes, ← sentBytes, hsilent, hnone]
      rfl

/-! ### The result -/

/-- What clients see, and where the completions are. -/
structure Exact (s : State nIo nW) (es : List Event) : Prop where
  /-- The bytes sent are those of the responses, in the order of the pushes. -/
  written : ∀ c, written c es <+: responsesOf (pushes c es)
  /-- Each response answers a job of its own. -/
  jobs : ∀ c, (pushes c es).Subperm (enqueues c es)
  /-- Nothing is sent behind `close_conn`. -/
  silent : ∀ c, sentBytes c (sinceClosed c es) = []
  /-- A completion is at one place, -/
  place : ∀ a < s.mem.brk, ∃! k,
    Stock.At (contents s.mem (fun t => (s.pos t).grip)) (fun t => (s.pos t).grip.held) a k
  /-- and there once. -/
  once : ∀ k, (contents s.mem (fun t => (s.pos t).grip) k).Nodup

/-- All that a run keeps. -/
structure Kept (s : State nIo nW) (es : List Event) (L : Place nIo nW → List ℕ) : Prop where
  inv : Inv s L
  tracks : ∀ c, Tracks s L es c
  conserved : ∀ j, Conserved s es j
  silent : ∀ c, Silent s es c

theorem Kept.init (nIo nW : ℕ) : Kept (State.init nIo nW) [] (fun _ => []) where
  inv := .init nIo nW
  tracks _ := .nil _
  conserved j := by
    have ht : tally (Pos.carries j) (State.init nIo nW).pos = 0 := tally_eq_zero (fun _ => rfl)
    unfold Conserved
    rw [ht]
    rfl
  silent _ := ⟨fun _ => rfl, rfl⟩

theorem Kept.step (h : Kept s es L) (hv : Moves s s' t op p) (hun : ∀ c, op = .accept c → Unreferenced s c) :
    Kept s' (es ++ op.events s.mem) (places s.mem t L op) where
  inv := h.inv.step hv hun
  tracks c := (h.tracks c).step h.inv hv (hun c)
  conserved j := (h.conserved j).step h.inv hv (hun j.conn)
  silent c := (h.silent c).step h.inv hv

theorem Kept.exact (h : Kept s es L) : Exact s es where
  written c := (h.tracks c).upTo
  jobs c := by
    rw [List.subperm_ext_iff]
    intro id _
    have hcount := h.conserved ⟨c, id⟩
    unfold Conserved at hcount
    dsimp only at hcount
    omega
  silent c := (h.silent c).2
  place a ha := by
    rw [h.inv.records.contents_eq]
    exact h.inv.records.stock.exists_unique ha
  once k := by
    rw [h.inv.records.contents_eq]
    exact h.inv.records.stock.chains.nodup k

end steps

/-- **Responses are exact** with more than one I/O thread, and with one in every run in which `accept` gets no
memory of a connection that is still in use. -/
theorem responses_exact {nIo nW : ℕ} {s : State nIo nW} {es : List Event}
    (h : (machine nIo nW).Reach Fresh s es) : Exact s es := by
  obtain ⟨L, hk⟩ := h.invariant (P := fun s es => ∃ L, Kept s es L) ⟨_, .init nIo nW⟩ (by
    rintro s es a s' e - ⟨L, hk⟩ hg hs
    obtain ⟨op, p, hr, hv, rfl⟩ := step_cases hs
    exact ⟨_, hk.step hv (hg.unreferenced hk.inv hr)⟩)
  exact hk.exact

section runs

variable {nIo nW : ℕ} (t w w' : Thread nIo nW) (c : ℕ)

def goes (n : ℕ) : List (Act nIo nW) := List.replicate n ⟨t, .go⟩

/-- An I/O thread accepts a connection. -/
def accepts : List (Act nIo nW) :=
  [⟨t, .wait [.listener]⟩, ⟨t, .go⟩, ⟨t, .accept c⟩, ⟨t, .noMore⟩] ++ goes t 2

/-- An I/O thread reads requests and is idle again. -/
def reads (ids : List UInt32) : List (Act nIo nW) :=
  ⟨t, .wait [.conn c false]⟩ :: goes t 7 ++ ids.flatMap (fun id => [⟨t, .request id⟩, ⟨t, .go⟩]) ++
    ⟨t, .readsReturn⟩ :: goes t 5

/-- A worker sends a part of a response, and another one pushes the next one. -/
def sendsPart : List (Act nIo nW) :=
  accepts t c ++ reads t c [1, 2] ++ goes w 9 ++ [⟨w, .send (.sent 20)⟩, ⟨w, .send .again⟩] ++ goes w' 4

/-- A connection is closed, and the memory of it is used for the next one, while a worker is between the load
of `closed` and the exchange of the inbox. -/
def reuses : List (Act nIo nW) :=
  accepts t c ++ reads t c [1] ++ goes w 4 ++ ⟨t, .wait [.conn c true]⟩ :: goes t 4 ++ goes w 1 ++ goes t 11 ++
    accepts t c ++ reads t c [2, 3] ++ goes w' 4 ++ goes w 1 ++ goes w' 18 ++ [⟨w', .send (.sent 28)⟩]

end runs

theorem responses_exact_part : ∃ s es, (machine 1 2).Reach Fresh s es ∧ pushes 7 es = [1, 2] ∧
    written 7 es = (responseBytes 1).take 20 ∧ Exact s es := by
  obtain ⟨s, es, hr, hy⟩ := Machine.Reach.of_exec (M := machine 1 2) (G := Fresh)
    (g := fun s a => decide (Fresh s a)) (sendsPart (.inl 0) (.inr 0) (.inr 1) 7)
    (fun _ _ _ hu => of_decide_eq_true hu) (fun r => (pushes 7 r.2, written 7 r.2))
    ([1, 2], (responseBytes 1).take 20) (by decide +kernel)
  obtain ⟨hpush, hwritten⟩ := Prod.mk.inj hy
  exact ⟨s, es, hr, hpush, hwritten, responses_exact hr⟩

/-- The response to the first request of the new connection is lost, and the client gets the second one. -/
theorem response_lost : ∃ s es, (machine 1 2).Reach (fun _ _ => True) s es ∧ pushes 7 es = [2, 3] ∧
    written 7 es = responseBytes 3 ∧ ¬ Exact s es := by
  obtain ⟨s, es, hr, hy⟩ := Machine.Reach.of_exec (M := machine 1 2) (G := fun _ _ => True)
    (g := fun _ _ => true) (reuses (.inl 0) (.inr 0) (.inr 1) 7) (fun _ _ _ _ => trivial)
    (fun r => (pushes 7 r.2, written 7 r.2)) ([2, 3], responseBytes 3) (by decide +kernel)
  obtain ⟨hpush, hwritten⟩ := Prod.mk.inj hy
  refine ⟨s, es, hr, hpush, hwritten, fun h => ?_⟩
  have hle := h.written 7
  rw [hpush, hwritten] at hle
  revert hle
  decide

end Rakaia.Pool
