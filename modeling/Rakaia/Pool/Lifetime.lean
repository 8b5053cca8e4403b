import Rakaia.Pool.Responses

/-! # The lifetime of connections

With one I/O thread a connection is freed with its last reference.  `refcnt` counts the references, but a worker
hands its own on with the completion that it pushes, and goes on to use the connection.  If the I/O thread closes
the connection in between, it releases the completion, and later drops the reference of
`accept_new_connections`: the worker loads `closed` from memory that was freed (`used_after_free`).

A worker that pushes onto a connection whose inbox was already discarded is safe as long as no other one does so
at the same time, since it takes its own completion out of the inbox again.  So the connections that threads use
are allocated in every run in which these two steps are made apart from other workers (`lifetime`): the exchange
of the inbox in `close_conn`, and a push onto a closed connection. -/

namespace Rakaia.Pool

open Lib

/-! ### Positions -/

/-- The connection whose inbox is discarded in the loop. -/
def Loop.swept : Loop → Option ℕ
  | .inbox _ c _ => some c
  | _ => none

namespace Pos

/-- The connection whose inbox the thread has discarded in `close_conn`. -/
def swept : Pos → Option ℕ
  | .loop l => l.swept
  | .free l _ _ => l.swept
  | .own _ c .storeFd => some c
  | _ => none

/-- The connection that the thread is going to close, or is closing. -/
def shuts : Pos → Option ℕ
  | .own _ c .storeClosed => some c
  | p => p.closing

/-- The I/O thread has no events left. -/
def rests : Pos → Bool
  | .idle => true
  | .retiring _ => true
  | _ => false

variable {c : ℕ} {p : Pos}

theorem owner_of_shuts (h : p.shuts = some c) : p.owner = some c := by
  cases p with
  | own m d p =>
      cases p with
      | storeClosed => exact h
      | _ => exact owner_of_closing h
  | loop l => exact owner_of_closing h
  | free l => exact owner_of_closing h
  | _ => cases h

namespace Outside

theorem swept (h : Outside c p) : p.swept = none := by cases h <;> rfl

theorem shuts (h : Outside c p) : p.shuts = none := by cases h <;> rfl

end Outside

end Pos

section steps

variable {nIo nW : ℕ} {m : Mem nIo nW} {t : Thread nIo nW} {q p : Pos} {op : Op nIo nW} {c : ℕ}

/-- The inbox is discarded by the exchange in `discard_conn_responses`. -/
theorem Step.swept (h : Step m t q op p) (hc : p.swept = some c) :
    q.swept = some c ∨ ((∃ mode, q = .loop (.discard mode c)) ∧ op = .takeInbox c ∧ (m.conns c).respHead = none) := by
  cases h with
  | @acquire _ k => cases k <;> cases hc
  | @signal _ k d => rw [(k.outside_target t d).swept] at hc; cases hc
  | @lose _ k d => rw [(k.outside_loser t d).swept] at hc; cases hc
  | @afterIdle _ _ d | @releaseHup _ d => rw [(outside_finish t d).swept] at hc; cases hc
  | staleEnd => rw [(outside_finish t 0).swept] at hc; cases hc
  | discardInbox hr =>
      obtain rfl := Option.some.inj hc
      exact .inr ⟨⟨_, rfl⟩, rfl, hr⟩
  | _ => first | exact .inl hc | cases hc

/-- `close_conn` goes on only if `fd` is not negative. -/
theorem Step.shuts (h : Step m t q op p) (hc : p.shuts = some c) :
    (q.shuts = some c ∧ ∀ ctx, op ≠ .storeFd c ctx) ∨ (op = .nothing ∧ (m.conns c).fdOpen = true) := by
  cases h with
  | @acquire _ k => cases k <;> cases hc
  | @signal _ k d => rw [(k.outside_target t d).shuts] at hc; cases hc
  | @lose _ k d => rw [(k.outside_loser t d).shuts] at hc; cases hc
  | @afterIdle _ _ d | @releaseHup _ d => rw [(outside_finish t d).shuts] at hc; cases hc
  | staleEnd => rw [(outside_finish t 0).shuts] at hc; cases hc
  | closeOpen hfd =>
      obtain rfl := Option.some.inj hc
      exact .inr ⟨rfl, hfd⟩
  | _ => first | exact .inl ⟨hc, by simp⟩ | cases hc

/-- The I/O thread comes to rest when it has no events left. -/
theorem Step.rests {i : Fin nIo} (h : Step m (.inl i) q op p) (hp : p.rests = true) :
    (q.rests = true ∨ m.events i = []) ∧ (∀ events, op ≠ .wait i events) ∧ op ≠ .nextEvent i := by
  generalize ht : Sum.inl i = t at h
  cases h with
  | leak he | retire he =>
      cases ht
      exact ⟨.inr he, by simp, by simp⟩
  | retired | dropAccept => exact ⟨.inl rfl, by simp, by simp⟩
  | @acquire _ k => cases k <;> cases hp
  | @signal _ k =>
      subst ht
      cases k <;> cases hp
  | @lose _ k =>
      subst ht
      cases k with
      | behind m => cases m <;> cases hp
      | _ => cases hp
  | afterIdle | releaseHup | staleEnd =>
      subst ht
      cases hp
  | dequeue | arm => cases ht
  | _ => cases hp

theorem Step.io_of_events {i : Fin nIo} (h : Step m t q op p)
    (hop : (∃ events, op = .wait i events) ∨ op = .nextEvent i) : t = .inl i := by
  rcases hop with ⟨events, rfl⟩ | rfl
  · cases h
    rfl
  · cases h <;> rfl

/-- Who takes completions out of the inbox or off the list of responses. -/
theorem Step.of_takeInbox (h : Step m t q (.takeInbox c) p) :
    q.conn = some c ∧ ((∃ w, t = .inr w) ∨ ∃ mode, q = .loop (.discard mode c)) := by
  cases h with
  | stale => exact ⟨rfl, .inl ⟨_, rfl⟩⟩
  | discardInbox => exact ⟨rfl, .inr ⟨_, rfl⟩⟩

theorem Step.of_popResponse (h : Step m t q (.popResponse c) p) :
    q.conn = some c ∧ ((∃ a, (m.conns c).respHead = some a ∧ responseLen ≤ (m.completions a).sent) ∨
      ∃ mode, q = .loop (.discard mode c)) := by
  cases h with
  | flushPop ha hlt => exact ⟨rfl, .inl ⟨_, ha, Nat.le_of_not_lt hlt⟩⟩
  | discardPop => exact ⟨rfl, .inr ⟨_, rfl⟩⟩

theorem Step.of_check (h : Step m t (.check c) op p) (hc : (m.conns c).closed = true) :
    op = .nothing ∧ p = .stale c := by
  cases h with
  | checkClosed => exact ⟨rfl, rfl⟩
  | checkOpen hopen =>
      rw [hc] at hopen
      cases hopen

theorem Step.of_stale (h : Step m t (.stale c) op p) : p.conn = none := by
  cases h
  rfl

/-- An I/O thread comes to use a connection through an event. -/
theorem Step.conn_io {i : Fin nIo} (h : Step m (.inl i) q op p) (hc : p.conn = some c) :
    q.conn = some c ∨ c ∈ connsOf (m.events i) := by
  generalize ht : Sum.inl i = t at h
  cases h with
  | @hup j d _ he | @ready j d _ he =>
      cases ht
      obtain rfl := Option.some.inj hc
      exact .inr (by simp [he, connsOf])
  | @acquire _ k d => cases k <;> exact .inl hc
  | @signal _ k d => exact .inl (congrArg some ((k.outside_target t d).conn hc).symm)
  | @lose _ k d => exact .inl (congrArg some ((k.outside_loser t d).conn hc).symm)
  | @afterIdle _ _ d | @releaseHup _ d => exact .inl (congrArg some ((outside_finish t d).conn hc).symm)
  | staleEnd => cases t <;> cases hc
  | push => cases ht
  | _ => first | exact .inl hc | cases hc

/-- A worker comes to use a connection with the completion it pushes. -/
theorem Step.conn_worker {w : Fin nW} (h : Step m (.inr w) q op p) (hc : p.conn = some c) :
    q.conn = some c ∨ (p = .check c ∧ ∃ j a, q = .pushCas j a (m.conns j.conn).inbox ∧ j.conn = c ∧
      op = .pushInbox c a) := by
  generalize ht : Sum.inr w = t at h
  cases h with
  | hup | ready => cases ht
  | @acquire _ k d => cases k <;> exact .inl hc
  | @signal _ k d => exact .inl (congrArg some ((k.outside_target t d).conn hc).symm)
  | @lose _ k d => exact .inl (congrArg some ((k.outside_loser t d).conn hc).symm)
  | @afterIdle _ _ d | @releaseHup _ d => exact .inl (congrArg some ((outside_finish t d).conn hc).symm)
  | staleEnd => cases t <;> cases hc
  | @push _ j a =>
      obtain rfl := Option.some.inj hc
      exact .inr ⟨rfl, j, a, rfl, rfl, rfl⟩
  | _ => first | exact .inl hc | cases hc

end steps

/-! ### The invariant -/

section lifetime

variable {nW : ℕ} {s s' : State 1 nW} {L : Place 1 nW → List ℕ} {t : Thread 1 nW} {op : Op 1 nW} {p : Pos} {c : ℕ}

/-- The I/O thread has closed the connection, up to the exchange of the inbox at least. -/
def Swept (s : State 1 nW) (c : ℕ) : Prop :=
  (s.mem.conns c).retired = true ∨ ∃ i, (s.pos (.inl i)).swept = some c

/-- The worker is alone with a closed connection, of which a completion is left. -/
structure Alone (s : State 1 nW) (L : Place 1 nW → List ℕ) (w : Fin nW) (c : ℕ) : Prop where
  pos : s.pos (.inr w) = .check c ∨ s.pos (.inr w) = .stale c
  left : L (.inbox c) ≠ [] ∨ L (.responses c) ≠ []
  unique : ∀ v, (s.pos (.inr v)).conn = some c → v = w

structure Lifetime (s : State 1 nW) (L : Place 1 nW → List ℕ) : Prop where
  events : ∀ i, ∀ c ∈ connsOf (s.mem.events i), (s.mem.conns c).acceptRef = true
  io : ∀ i c, (s.pos (.inl i)).conn = some c → (s.mem.conns c).acceptRef = true
  rests : ∀ i, (s.pos (.inl i)).rests = true → s.mem.events i = []
  shuts : ∀ t c, (s.pos t).shuts = some c → (s.mem.conns c).fdOpen = true
  retired : ∀ c, (s.mem.conns c).retired = true → (s.mem.conns c).closed = true ∧ (s.mem.conns c).fdOpen = false
  worker : ∀ w c, Swept s c → (s.pos (.inr w)).conn = some c → Alone s L w c
  unsent : ∀ c, Swept s c → ∀ a ∈ L (.responses c), (s.mem.completions a).sent = 0
  allocated : ∀ c, (s.mem.conns c).allocated = false → (s.mem.conns c).refcnt = 0

theorem Lifetime.init (nW : ℕ) : Lifetime (State.init 1 nW) (fun _ => []) where
  events _ _ h := by cases h
  io _ _ h := by cases h
  rests _ _ := rfl
  shuts _ _ h := by cases h
  retired _ h := by cases h
  worker _ _ _ h := by cases h
  unsent _ _ _ h := by cases h
  allocated _ _ := rfl

theorem Inv.refcnt_nonneg (hi : Inv s L) (c : ℕ) : 0 ≤ (s.mem.conns c).refcnt := by
  rw [hi.counted c]
  exact Int.natCast_nonneg _

theorem Inv.refcnt_pos_of_acceptRef (hi : Inv s L) (hc : (s.mem.conns c).acceptRef = true) :
    0 < (s.mem.conns c).refcnt := by
  have hne : (s.mem.conns c).refcnt ≠ 0 := fun hz => by
    rw [hi.acceptRef_of_refcnt hz] at hc
    cases hc
  have := hi.refcnt_nonneg c
  omega

/-- A connection that a thread uses has a reference left. -/
theorem Lifetime.refcnt_pos (h : Lifetime s L) (hi : Inv s L) (hc : (s.pos t).conn = some c) :
    0 < (s.mem.conns c).refcnt := by
  cases t with
  | inl i => exact hi.refcnt_pos_of_acceptRef (h.io i c hc)
  | inr w =>
      rcases hi.base.known_conn _ c hc with ha | hr
      · exact hi.refcnt_pos_of_acceptRef ha
      · have hleft := (h.worker w c (.inl hr) hc).left
        have hne : (s.mem.conns c).refcnt ≠ 0 := by
          intro hz
          obtain ⟨hin, hresp⟩ := hi.lists_of_refcnt hz
          rcases hleft with hl | hl
          · exact hl hin
          · exact hl hresp
        have := hi.refcnt_nonneg c
        omega

/-- Memory that is not allocated is not in use. -/
theorem Lifetime.unreferenced (h : Lifetime s L) (hi : Inv s L) (hc : (s.mem.conns c).allocated = false) :
    Unreferenced s c := by
  have hzero := h.allocated c hc
  refine ⟨hzero, fun t ht => ?_⟩
  have := h.refcnt_pos hi ht
  omega

theorem Lifetime.closed_of_swept (h : Lifetime s L) (hi : Inv s L) (hc : Swept s c) :
    (s.mem.conns c).closed = true := by
  rcases hc with hr | ⟨i, hs⟩
  · exact (h.retired c hr).1
  · refine hi.base.sees (.inl i) c ?_
    generalize s.pos (.inl i) = q at hs
    cases q with
    | own m d p => cases p <;> first | exact hs | cases hs
    | loop l => cases l <;> first | exact hs | cases hs
    | free l => cases l <;> first | exact hs | cases hs
    | _ => cases hs

/-! ### Steps -/

/-- The connection whose inbox the I/O thread exchanges next in `close_conn`, or the closed connection onto which
a worker pushes next. -/
def critical {nIo nW : ℕ} (s : State nIo nW) (t : Thread nIo nW) : Option ℕ :=
  match t, s.pos t with
  | .inl _, .loop (.discard _ c) => if (s.mem.conns c).respHead = none then some c else none
  | .inr _, .pushCas j _ old =>
      if (s.mem.conns j.conn).closed = true ∧ (s.mem.conns j.conn).inbox = old then some j.conn else none
  | _, _ => none

/-- No worker uses the connection, apart from the references of jobs, when a thread makes such a step. -/
def Apart {nIo nW : ℕ} (s : State nIo nW) (a : Act nIo nW) : Prop :=
  ∀ c ∈ critical s a.t, ∀ w, (s.pos (.inr w)).conn ≠ some c

instance {nIo nW : ℕ} (s : State nIo nW) (a : Act nIo nW) : Decidable (Apart s a) :=
  inferInstanceAs (Decidable (∀ c ∈ _, _))

theorem mem_places_responses {m : Mem 1 nW} {a : ℕ} (ha : a ∈ places m t L op (.responses c)) :
    a ∈ L (.responses c) ∨ a ∈ L (.inbox c) := by
  by_cases hop : op.touches c = false
  · rw [(places_untouched (t := t) m L hop).1] at ha
    exact .inl ha
  have hop := eq_true_of_ne_false hop
  cases op with
  | drainInbox d =>
      obtain rfl := beq_iff_eq.mp hop
      simpa [places] using ha
  | popResponse d =>
      obtain rfl := beq_iff_eq.mp hop
      exact .inl (List.mem_of_mem_tail (by simpa [places] using ha))
  | _ => exact .inl (by simpa [places] using ha)

theorem critical_discard {i : Fin 1} {mode : Mode} (hq : s.pos (.inl i) = .loop (.discard mode c))
    (hr : (s.mem.conns c).respHead = none) : critical s (.inl i) = some c := by
  simp [critical, hq, hr]

theorem critical_push {w : Fin nW} {j : Job} {a : ℕ} (hq : s.pos (.inr w) = .pushCas j a (s.mem.conns j.conn).inbox)
    (hc : (s.mem.conns j.conn).closed = true) : critical s (.inr w) = some j.conn := by
  simp [critical, hq, hc]

section step

variable (h : Lifetime s L) (hi : Inv s L) (hv : Moves s s' t op p)

include hv

theorem io_of_dropAccept (hop : op = .conn c .dropAccept) :
    ∃ i conns conns', t = .inl i ∧ s.pos t = .retiring conns ∧ p = .retiring conns' := by
  subst hop
  have hs := hv.step
  generalize s.pos t = q at hs
  cases hs
  exact ⟨_, _, _, rfl, rfl, rfl⟩

include h

theorem Lifetime.events_step (hi : Inv s L) (i : Fin 1) (c : ℕ) (hc : c ∈ connsOf (s'.mem.events i)) :
    (s'.mem.conns c).acceptRef = true := by
  by_cases hop : op = .conn c .dropAccept
  · obtain ⟨j, conns, conns', rfl, hq, -⟩ := io_of_dropAccept hv hop
    obtain rfl := Subsingleton.elim i j
    have hnil := h.rests i (by rw [hq]; rfl)
    subst hop
    have hev : s'.mem.events = s.mem.events := by rw [← Option.some.inj hv.mem]; rfl
    rw [hev, hnil] at hc
    cases hc
  · refine acceptRef_step hv hop ?_
    rcases mem_events hv.mem hc with hc | ⟨events, rfl, hc⟩
    · exact h.events i c hc
    · exact (hi.base.registered c (hv.step.registered_of_wait hc)).1

theorem Lifetime.io_step (i : Fin 1) (c : ℕ) (hc : (s'.pos (.inl i)).conn = some c) :
    (s'.mem.conns c).acceptRef = true := by
  by_cases hop : op = .conn c .dropAccept
  · obtain ⟨j, conns, conns', rfl, -, rfl⟩ := io_of_dropAccept hv hop
    obtain rfl := Subsingleton.elim i j
    rw [hv.pos_self] at hc
    cases hc
  · refine acceptRef_step hv hop ?_
    by_cases ht : .inl i = t
    · subst ht
      rw [hv.pos_self] at hc
      rcases hv.step.conn_io hc with hc | hc
      · exact h.io i c hc
      · exact h.events i c hc
    · rw [hv.pos_of_ne ht] at hc
      exact h.io i c hc

theorem Lifetime.rests_step (i : Fin 1) (hp : (s'.pos (.inl i)).rests = true) : s'.mem.events i = [] := by
  by_cases ht : .inl i = t
  · subst ht
    rw [hv.pos_self] at hp
    obtain ⟨hq, hwait, hnext⟩ := hv.step.rests hp
    rcases apply_events hv.mem i with he | ⟨events, hop, -⟩ | ⟨hop, -⟩
    · rw [he]
      rcases hq with hq | hq
      · exact h.rests i hq
      · exact hq
    · exact absurd hop (hwait events)
    · exact absurd hop hnext
  · rw [hv.pos_of_ne ht] at hp
    rcases apply_events hv.mem i with he | ⟨events, hop, -⟩ | ⟨hop, -⟩
    · rw [he]
      exact h.rests i hp
    · exact absurd (hv.step.io_of_events (.inl ⟨events, hop⟩)).symm ht
    · exact absurd (hv.step.io_of_events (.inr hop)).symm ht

theorem Lifetime.shuts_step (hi : Inv s L) (u : Thread 1 nW) (c : ℕ) (hc : (s'.pos u).shuts = some c) :
    (s'.mem.conns c).fdOpen = true := by
  rcases apply_fdOpen hv.mem c with hfd | ⟨ctx, hop, -⟩ | rfl
  · rw [hfd]
    by_cases hu : u = t
    · subst hu
      rw [hv.pos_self] at hc
      rcases hv.step.shuts hc with ⟨hq, -⟩ | ⟨-, hopen⟩
      · exact h.shuts u c hq
      · exact hopen
    · rw [hv.pos_of_ne hu] at hc
      exact h.shuts u c hc
  · -- the thread that stores to `fd` is the only one that shuts the connection
    have hclosing : (s.pos t).closing = some c := by
      have hs := hv.step
      generalize s.pos t = q at hs
      subst hop
      cases hs
      rfl
    by_cases hu : u = t
    · subst hu
      rw [hv.pos_self] at hc
      rcases hv.step.shuts hc with ⟨-, hne⟩ | ⟨hno, -⟩
      · exact absurd hop (hne ctx)
      · rw [hop] at hno
        cases hno
    · rw [hv.pos_of_ne hu] at hc
      exact absurd ((hi.base.owned c).unique u t (Pos.owner_of_shuts hc) (Pos.owner_of_closing hclosing)) hu
  · rw [apply_accept hv.mem]
    rfl

theorem Lifetime.retired_step (hi : Inv s L) (c : ℕ) (hc : (s'.mem.conns c).retired = true) :
    (s'.mem.conns c).closed = true ∧ (s'.mem.conns c).fdOpen = false := by
  by_cases hacc : op = .accept c
  · subst hacc
    rw [apply_accept hv.mem] at hc
    cases hc
  have hold : (s.mem.conns c).closed = true ∧ ((s.mem.conns c).fdOpen = false ∨ ∃ ctx, op = .storeFd c ctx) := by
    rcases apply_retired hv.mem c with hr | ⟨ctx, hop, -⟩ | hop
    · obtain ⟨hcl, hfd⟩ := h.retired c (hr ▸ hc)
      exact ⟨hcl, .inl hfd⟩
    · exact ⟨hi.base.sees t c (hv.step.storeFd_sees hop).1, .inr ⟨ctx, hop⟩⟩
    · exact absurd hop hacc
  constructor
  · rcases apply_closed hv.mem c with hcl | rfl | hop
    · rw [hcl]
      exact hold.1
    · rw [← Option.some.inj hv.mem]
      simp [ConnOp.apply]
    · exact absurd hop hacc
  · rcases apply_fdOpen hv.mem c with hfd | ⟨ctx, -, hfd⟩ | hop
    · rw [hfd]
      rcases hold.2 with hfalse | ⟨ctx, rfl⟩
      · exact hfalse
      · rw [← hfd, ← Option.some.inj hv.mem, storeFd_conns, Function.update_self]
    · exact hfd
    · exact absurd hop hacc

omit h in
theorem swept_step (hc : Swept s' c) : Swept s c ∨ ∃ i mode, t = .inl i ∧ s.pos t = .loop (.discard mode c) ∧
    op = .takeInbox c ∧ (s.mem.conns c).respHead = none := by
  rcases hc with hr | ⟨i, hsw⟩
  · left
    rcases apply_retired hv.mem c with hk | ⟨ctx, rfl, hk⟩ | rfl
    · exact .inl (hk ▸ hr)
    · rw [hk, Bool.or_eq_true] at hr
      rcases hr with hr | hr
      · exact .inl hr
      · have hs := hv.step
        cases t with
        | inl i =>
            refine .inr ⟨i, ?_⟩
            generalize s.pos (.inl i) = q at hs
            cases hs
            rfl
        | inr w =>
            generalize s.pos (.inr w) = q at hs
            cases hs
            cases hr
    · rw [apply_accept hv.mem] at hr
      cases hr
  · by_cases ht : .inl i = t
    · subst ht
      rw [hv.pos_self] at hsw
      rcases hv.step.swept hsw with hq | ⟨⟨mode, hq⟩, hop, hnone⟩
      · exact .inl (.inr ⟨i, hq⟩)
      · exact .inr ⟨i, mode, rfl, hq, hop, hnone⟩
    · rw [hv.pos_of_ne ht] at hsw
      exact .inl (.inr ⟨i, hsw⟩)

omit hv in
/-- The I/O thread does not discard anything of a connection any more. -/
theorem Lifetime.not_discard (hc : Swept s c) (i : Fin 1) (mode : Mode) :
    s.pos (.inl i) ≠ .loop (.discard mode c) := by
  intro hq
  rcases hc with hr | ⟨j, hj⟩
  · have hopen := h.shuts (.inl i) c (by rw [hq]; rfl)
    rw [(h.retired c hr).2] at hopen
    cases hopen
  · obtain rfl := Subsingleton.elim i j
    rw [hq] at hj
    cases hj

/-- A response in the list of a connection that is swept stays there, or a worker takes it that is alone. -/
theorem Lifetime.left_step (hi : Inv s L) {w : Fin nW} (hc : Swept s c) (ha : Alone s L w c) (ht : t ≠ .inr w)
    (hacc : op ≠ .accept c) :
    places s.mem t L op (.inbox c) ≠ [] ∨ places s.mem t L op (.responses c) ≠ [] := by
  by_cases hop : op.touches c = false
  · obtain ⟨hresp, hin⟩ := places_untouched (t := t) s.mem L hop
    rw [hresp, hin]
    exact ha.left
  have hop := eq_true_of_ne_false hop
  -- no other worker is there, and the I/O thread does not discard anything any more
  have hworker : (∃ v, t = .inr v) → (s.pos t).conn ≠ some c := by
    rintro ⟨v, rfl⟩ huse
    exact ht (by rw [ha.unique v huse])
  have hdiscard : (s.pos t).conn = some c → ∀ mode, s.pos t ≠ .loop (.discard mode c) := by
    intro huse mode
    cases t with
    | inl i => exact h.not_discard hc i mode
    | inr v => exact absurd huse (hworker ⟨v, rfl⟩)
  cases op with
  | pushInbox d a =>
      obtain rfl := beq_iff_eq.mp hop
      exact .inl (by simp [places])
  | takeInbox d =>
      obtain rfl := beq_iff_eq.mp hop
      obtain ⟨huse, hw | ⟨mode, hq⟩⟩ := hv.step.of_takeInbox
      · exact absurd huse (hworker hw)
      · exact absurd hq (hdiscard huse mode)
  | drainInbox d =>
      obtain rfl := beq_iff_eq.mp hop
      rcases ha.left with hl | hl
      · exact .inr (by simp [places, hl])
      · exact .inr (by simp [places, hl])
  | popResponse d =>
      obtain rfl := beq_iff_eq.mp hop
      obtain ⟨huse, ⟨a, hhead, hsent⟩ | ⟨mode, hq⟩⟩ := hv.step.of_popResponse
      · rw [h.unsent d hc a (hi.records.mem_responses hhead)] at hsent
        cases hsent
      · exact absurd hq (hdiscard huse mode)
  | accept d =>
      obtain rfl := beq_iff_eq.mp hop
      exact absurd rfl hacc
  | send | conn => exact ha.left
  | _ => cases hop

theorem Lifetime.worker_step (hi : Inv s L) (hapart : ∀ c ∈ critical s t, ∀ w, (s.pos (.inr w)).conn ≠ some c)
    (w : Fin nW) (c : ℕ) (hc : Swept s' c) (hw : (s'.pos (.inr w)).conn = some c) :
    Alone s' (places s.mem t L op) w c := by
  rcases swept_step hv hc with hold | ⟨i, mode, rfl, hq, -, hnone⟩
  · have hclosed := h.closed_of_swept hi hold
    -- a worker that pushes is alone
    have hpush : ∀ {v : Fin nW} {j : Job} {a : ℕ}, t = .inr v → s.pos t = .pushCas j a (s.mem.conns j.conn).inbox →
        j.conn = c → ∀ u, (s.pos (.inr u)).conn ≠ some c := by
      rintro v j a rfl hq rfl u
      exact hapart _ (critical_push hq hclosed) u
    by_cases ht : .inr w = t
    · subst ht
      rw [hv.pos_self] at hw
      rcases hv.step.conn_worker hw with huse | ⟨rfl, j, a, hq, hj, rfl⟩
      · obtain ⟨hpos, hleft, hunique⟩ := h.worker w c hold huse
        have hs := hv.step
        rcases hpos with hq | hq
        · rw [hq] at hs
          obtain ⟨rfl, rfl⟩ := hs.of_check hclosed
          refine ⟨.inr hv.pos_self, hleft, fun v huse => ?_⟩
          by_contra hne
          rw [hv.pos_of_ne (by simp [hne])] at huse
          exact hne (hunique v huse)
        · rw [hq] at hs
          rw [hs.of_stale] at hw
          cases hw
      · refine ⟨.inl hv.pos_self, .inl (by simp [places]), fun v huse => ?_⟩
        by_contra hne
        rw [hv.pos_of_ne (by simp [hne])] at huse
        exact hpush rfl hq hj v huse
    · rw [hv.pos_of_ne ht] at hw
      have halone := h.worker w c hold hw
      have hacc : op ≠ .accept c := by
        rintro rfl
        obtain ⟨-, -, halloc⟩ := hv.step.of_accept
        exact (h.unreferenced hi halloc).2 _ hw
      refine ⟨by rw [hv.pos_of_ne ht]; exact halone.pos, h.left_step hv hi hold halone (Ne.symm ht) hacc,
        fun v huse => ?_⟩
      by_cases htv : .inr v = t
      · subst htv
        rw [hv.pos_self] at huse
        rcases hv.step.conn_worker huse with huse | ⟨-, j, a, hq, hj, -⟩
        · exact halone.unique v huse
        · exact absurd hw (hpush rfl hq hj w)
      · rw [hv.pos_of_ne htv] at huse
        exact halone.unique v huse
  · have hw' : (s.pos (.inr w)).conn = some c := by
      rwa [hv.pos_of_ne (by simp)] at hw
    exact absurd hw' (hapart c (critical_discard hq hnone) w)

theorem Lifetime.unsent_step (hi : Inv s L) (c : ℕ) (hc : Swept s' c) (a : ℕ)
    (ha : a ∈ places s.mem t L op (.responses c)) : (s'.mem.completions a).sent = 0 := by
  rcases swept_step hv hc with hold | ⟨i, mode, rfl, hq, rfl, hnone⟩
  · have hmem : a ∈ L (.responses c) ∨ a ∈ L (.inbox c) := mem_places_responses ha
    have hzero : (s.mem.completions a).sent = 0 := by
      rcases hmem with hm | hm
      · exact h.unsent c hold a hm
      · exact (hi.records.place _ a hm).2.2.2
    by_cases hsend : ∃ b n, op = .send c b n
    · obtain ⟨b, n, rfl⟩ := hsend
      have hn := hi.base.send_closed hv (h.closed_of_swept hi hold)
      subst hn
      rw [← Option.some.inj hv.mem]
      by_cases hab : a = b
      · subst hab
        simpa using hzero
      · simpa [hab] using hzero
    · simp only [not_exists] at hsend
      rw [(hi.completions_step hv hsend hmem).2.2]
      exact hzero
  · have hnil : L (.responses c) = [] := by
      have hends := congrArg Ends.head (hi.records.responses c)
      exact List.head?_eq_none_iff.mp (hends.symm.trans hnone)
    have hsame : places s.mem (.inl i) L (.takeInbox c) (.responses c) = L (.responses c) := by simp [places]
    rw [hsame, hnil] at ha
    cases ha

/-- `free` is called with the last reference. -/
theorem Lifetime.allocated_step (hi : Inv s L) (c : ℕ) (hc : (s'.mem.conns c).allocated = false) :
    (s'.mem.conns c).refcnt = 0 := by
  have hrelease : 0 < (s.mem.conns c).refcnt → (s.mem.conns c).release.allocated = false →
      (s.mem.conns c).refcnt - 1 = 0 := by
    intro hpos hfree
    by_contra hne
    rw [Conn.release, if_neg hne] at hfree
    have := h.allocated c hfree
    omega
  rcases apply_conns hv.mem c with hk | ⟨cop, rfl, hk⟩ | ⟨ctx, -, hk⟩ | ⟨-, hk⟩ | ⟨a, rfl, hconn, hk⟩
  · have hallocated := congrArg Conn.allocated hk
    have hrefcnt := congrArg Conn.refcnt hk
    exact hrefcnt.trans (h.allocated c (hallocated.symm.trans hc))
  · rw [hk] at hc ⊢
    cases cop with
    | retain =>
        -- the owner uses the connection, so it was not freed
        have hown : (s.pos t).conn = some c := by
          have hs := hv.step
          generalize s.pos t = q at hs
          cases hs
          rfl
        have hpos := h.refcnt_pos hi hown
        have hzero := h.allocated c hc
        omega
    | dropAccept => exact hrelease (hi.refcnt_pos_of_acceptRef (hi.base.retired_of_drop hv.step).1) hc
    | updateEvents want =>
        rw [ConnOp.apply, updateConnEvents_field Conn.allocated (fun _ _ _ => rfl)] at hc
        rw [ConnOp.apply, updateConnEvents_field Conn.refcnt (fun _ _ _ => rfl)]
        exact h.allocated c hc
    | _ => exact h.allocated c hc
  · rw [hk] at hc ⊢
    exact h.allocated c hc
  · rw [hk] at hc
    cases hc
  · obtain ⟨ha, href⟩ := hi.referring_of_release hv
    rw [hk] at hc ⊢
    exact hrelease (hi.refcnt_pos ha href hconn) hc

theorem Lifetime.step (hi : Inv s L) (hapart : ∀ c ∈ critical s t, ∀ w, (s.pos (.inr w)).conn ≠ some c) :
    Lifetime s' (places s.mem t L op) where
  events := h.events_step hv hi
  io := h.io_step hv
  rests := h.rests_step hv
  shuts := h.shuts_step hv hi
  retired := h.retired_step hv hi
  worker := h.worker_step hv hi hapart
  unsent := h.unsent_step hv hi
  allocated := h.allocated_step hv hi

end step

/-! ### The result -/

/-- The thread will access the connection: it uses it, has a job for it, or has an event for it. -/
def State.Accesses (s : State 1 nW) (t : Thread 1 nW) (c : ℕ) : Prop :=
  (s.pos t).conn = some c ∨ (∃ j, (s.pos t).job = some j ∧ j.conn = c) ∨
    ∃ i, t = .inl i ∧ c ∈ connsOf (s.mem.events i)

/-- `refcnt` counts the references, and no thread will access a connection that was freed. -/
structure Live (s : State 1 nW) : Prop where
  counted : ∀ c, (s.mem.conns c).refcnt = references s c
  accesses : ∀ t c, s.Accesses t c → 0 < (s.mem.conns c).refcnt ∧ (s.mem.conns c).allocated = true

theorem Inv.refcnt_pos_of_job (hi : Inv s L) {j : Job} (hj : (s.pos t).job = some j) :
    0 < (s.mem.conns j.conn).refcnt := by
  have hne : (s.mem.conns j.conn).refcnt ≠ 0 := by
    intro hz
    have hle := le_tally (Pos.carries j) s.pos t
    rw [(hi.no_job hz).2, carries_some hj, if_pos rfl] at hle
    omega
  have := hi.refcnt_nonneg j.conn
  omega

theorem Lifetime.live (h : Lifetime s L) (hi : Inv s L) : Live s where
  counted := hi.counted
  accesses t c ha := by
    have hpos : 0 < (s.mem.conns c).refcnt := by
      rcases ha with hc | ⟨j, hj, rfl⟩ | ⟨i, rfl, hc⟩
      · exact h.refcnt_pos hi hc
      · exact hi.refcnt_pos_of_job hj
      · exact hi.refcnt_pos_of_acceptRef (h.events i c hc)
    refine ⟨hpos, ?_⟩
    by_contra hfree
    have := h.allocated c (eq_false_of_ne_true hfree)
    omega

end lifetime

/-- **Connections live as long as they are used**, in every run in which the exchange of the inbox in
`close_conn` and a push onto a closed connection are made when no worker uses the connection. -/
theorem lifetime {nW : ℕ} {s : State 1 nW} {es : List Event} (h : (machine 1 nW).Reach Apart s es) : Live s := by
  obtain ⟨L, hi, hl⟩ := h.invariant (P := fun s _ => ∃ L, Inv s L ∧ Lifetime s L)
    ⟨_, .init 1 nW, .init nW⟩ (by
    rintro s es a s' e - ⟨L, hi, hl⟩ hg hs
    obtain ⟨op, p, -, hv, -⟩ := step_cases hs
    refine ⟨_, hi.step hv ?_, hl.step hv hi hg⟩
    rintro c rfl
    obtain ⟨-, -, halloc⟩ := hv.step.of_accept
    exact hl.unreferenced hi halloc)
  exact hl.live hi

/-- The I/O thread closes a connection with a request before a worker takes the job. -/
def closesFirst {nIo nW : ℕ} (t w : Thread nIo nW) (c : ℕ) : List (Act nIo nW) :=
  accepts t c ++ reads t c [1] ++ ⟨t, .wait [.conn c true]⟩ :: goes t 11 ++ goes w 4

/-- The worker pushes the completion first, and stays at the load of `closed`. -/
def pushesFirst {nIo nW : ℕ} (t w : Thread nIo nW) (c : ℕ) : List (Act nIo nW) :=
  accepts t c ++ reads t c [1] ++ goes w 4 ++ ⟨t, .wait [.conn c true]⟩ :: goes t 15

/-- The completion in the inbox is the last reference to the connection. -/
theorem lifetime_closed : ∃ s es, (machine 1 1).Reach Apart s es ∧ s.pos (.inr 0) = .check 7 ∧
    (s.mem.conns 7).acceptRef = false ∧ (s.mem.conns 7).refcnt = 1 ∧ Live s := by
  obtain ⟨s, es, hr, hy⟩ := Machine.Reach.of_exec (M := machine 1 1) (G := Apart)
    (g := fun s a => decide (Apart s a)) (closesFirst (.inl 0) (.inr 0) 7)
    (fun _ _ _ ha => of_decide_eq_true ha)
    (fun r => (r.1.pos (.inr 0), (r.1.mem.conns 7).acceptRef, (r.1.mem.conns 7).refcnt))
    (.check 7, false, 1) (by decide +kernel)
  obtain ⟨hpos, hacc, hrefcnt⟩ := by simpa only [Prod.mk.injEq] using hy
  exact ⟨s, es, hr, hpos, hacc, hrefcnt, lifetime hr⟩

/-- The worker is about to load `closed` from memory that was freed. -/
theorem used_after_free : ∃ s es, (machine 1 1).Reach (fun _ _ => True) s es ∧ s.pos (.inr 0) = .check 7 ∧
    (s.mem.conns 7).refcnt = 0 ∧ (s.mem.conns 7).allocated = false ∧ ¬ Live s := by
  obtain ⟨s, es, hr, hy⟩ := Machine.Reach.of_exec (M := machine 1 1) (G := fun _ _ => True)
    (g := fun _ _ => true) (pushesFirst (.inl 0) (.inr 0) 7) (fun _ _ _ _ => trivial)
    (fun r => (r.1.pos (.inr 0), (r.1.mem.conns 7).refcnt, (r.1.mem.conns 7).allocated))
    (.check 7, 0, false) (by decide +kernel)
  obtain ⟨hpos, hrefcnt, hfree⟩ := by simpa only [Prod.mk.injEq] using hy
  refine ⟨s, es, hr, hpos, hrefcnt, hfree, fun h => ?_⟩
  have hlive := (h.accesses (.inr 0) 7 (.inl (by rw [hpos]; rfl))).2
  rw [hfree] at hlive
  cases hlive

end Rakaia.Pool
