import Rakaia.Pool.Responses

/-! # Pending responses

A worker that pushes a completion sets `io_pending` and tries to get the connection.  If another thread owns it,
that thread has to notice: it exchanges `io_pending` before it leaves `drive_conn`, and once more behind
`release_conn_io`, where it tries to get the connection back.  So as long as a completion is in the inbox of an
open connection, some thread is going to look (`Noticed`), and when all threads are idle there is none
(`responses_answered`).

This fails at the second exchange.  Behind its release a thread may find a 1 in `io_pending` that is meant for the
next owner, who is already past `drain_inbox`.  It clears it, does not get the connection and leaves; the next
owner disarms `EPOLLOUT`, which the worker had armed, finds 0 and leaves, too.  The completion stays in the inbox
(`response_stuck`). -/

namespace Rakaia.Pool

open Lib

/-! ### Positions -/

/-- The connection whose responses are flushed in the loop. -/
def Loop.flushes : Loop → Option ℕ
  | .flush _ c => some c
  | _ => none

namespace Pos

/-- The worker has pushed a completion and is going to set `io_pending`. -/
def tells : Pos → Option ℕ
  | .check c => some c
  | .signal .push c => some c
  | _ => none

/-- The owner is going to drain the inbox, or to close the connection. -/
def serves : Pos → Option ℕ
  | .own _ c .clear => some c
  | .own _ c .drain => some c
  | .own _ c .close => some c
  | .own _ c .storeClosed => some c
  | _ => none

/-- The owner is in the loop of `flush_conn_responses`. -/
def flushes : Pos → Option ℕ
  | .loop l => l.flushes
  | .free l _ _ => l.flushes
  | _ => none

/-- The thread is at the exchange of `io_pending` behind its release. -/
def behind : Pos → Option ℕ
  | .after _ c => some c
  | _ => none

theorem owner_of_serves {p : Pos} {c : ℕ} (h : p.serves = some c) : p.owner = some c := by
  cases p with
  | own m d p => cases p <;> first | exact h | cases h
  | _ => cases h

end Pos

section branches

variable {nIo nW : ℕ} {m : Mem nIo nW} {t : Thread nIo nW} {q p : Pos} {op : Op nIo nW} {c : ℕ}

theorem Step.tells (h : Step m t q op p) (hq : q.tells = some c) (hopen : (m.conns c).closed = false) :
    p.tells = some c ∨ (op = .conn c (.storePending true) ∧ p = .tryAcquire .push c) := by
  cases h with
  | checkClosed hc =>
      obtain rfl := Option.some.inj hq
      rw [hc] at hopen
      cases hopen
  | checkOpen => exact .inl hq
  | @signal _ k d =>
      cases k with
      | push =>
          obtain rfl := Option.some.inj hq
          exact .inr ⟨rfl, rfl⟩
      | _ => cases hq
  | _ => cases hq

theorem Step.serves (h : Step m t q op p) (hq : q.serves = some c) (hfd : (m.conns c).fdOpen = true) :
    p.serves = some c ∨ op = .drainInbox c ∨ op = .conn c .storeClosed := by
  cases h with
  | clear | closeOpen => exact .inl hq
  | drain => exact .inr (.inl (by rw [Option.some.inj hq]))
  | storeClosed => exact .inr (.inr (by rw [Option.some.inj hq]))
  | closeDone hf =>
      obtain rfl := Option.some.inj hq
      rw [hfd] at hf
      cases hf
  | _ => cases hq

theorem Step.of_tryAcquire {k : Try} (h : Step m t (.tryAcquire k c) op p) (hfree : (m.conns c).ioOwned = false) :
    op = .conn c .acquire := by
  cases h with
  | acquire => rfl
  | lose ho =>
      rw [hfree] at ho
      cases ho

theorem Step.serves_of_acquire (h : Step m t q (.conn c .acquire) p) : p.serves = some c := by
  cases h with
  | @acquire _ k => cases k <;> rfl

theorem Step.of_release (h : Step m t q (.conn c .releaseIo) p) :
    q.owner = some c ∧ q.tells = none ∧ q.serves = none ∧ (q.sees = some c ∨ ∃ mode, p = .after mode c) := by
  cases h with
  | releaseHup => exact ⟨rfl, rfl, rfl, .inl rfl⟩
  | release => exact ⟨rfl, rfl, rfl, .inr ⟨_, rfl⟩⟩

theorem Step.of_signal (h : Step m t q (.conn c (.storePending true)) p) : ∃ k, q = .signal k c := by
  cases h
  exact ⟨_, rfl⟩

/-- The stores and exchanges that leave 0 in `io_pending`. -/
theorem Step.of_clear (h : Step m t q (.conn c (.storePending false)) p) :
    p.serves = some c ∨ ((m.conns c).ioPending = true ∧ q.behind = some c ∧ ∃ k, p = .tryAcquire k c) ∨
      ((m.conns c).ioPending = false ∧ q.tells = none ∧ q.serves = none ∧ ∀ k, q ≠ .tryAcquire k c) := by
  cases h with
  | clear | againPending => exact .inl rfl
  | againIdle hp => exact .inr (.inr ⟨hp, rfl, rfl, by simp⟩)
  | afterPending hp => exact .inr (.inl ⟨hp, rfl, _, rfl⟩)
  | afterIdle hp => exact .inr (.inr ⟨hp, rfl, rfl, by simp⟩)

theorem Step.of_behind (h : Step m t q op p) (hq : q.behind = some c) : op = .conn c (.storePending false) := by
  cases h with
  | afterPending | afterIdle => rw [← Option.some.inj hq]
  | _ => cases hq

theorem Step.of_pushInbox {a : ℕ} (h : Step m t q (.pushInbox c a) p) : p = .check c := by
  cases h
  rfl

theorem Step.flushes (h : Step m t q op p) (hq : q.flushes = some c) :
    p.flushes = some c ∨ (m.conns c).respHead = none ∨
      ∃ a, op = .send c a 0 ∧ (m.conns c).respHead = some a ∧ (m.completions a).sent < responseLen := by
  cases h with
  | flushDone hr =>
      obtain rfl := Option.some.inj hq
      exact .inr (.inl hr)
  | sendRetry ha hlt | sendAgain ha hlt | sendFails ha hlt =>
      obtain rfl := Option.some.inj hq
      exact .inr (.inr ⟨_, rfl, ha, hlt⟩)
  | _ => first | exact .inl hq | cases hq

end branches

section steps

variable {nIo nW : ℕ} {s s' : State nIo nW} {L : Place nIo nW → List ℕ} {t : Thread nIo nW} {op : Op nIo nW}
  {p : Pos} {es : List Event} {c : ℕ}

theorem apply_ioPending {m m' : Mem nIo nW} (h : op.apply m = some m') (d : ℕ) :
    (m'.conns d).ioPending = (m.conns d).ioPending ∨
      (∃ b, op = .conn d (.storePending b) ∧ (m'.conns d).ioPending = b) ∨ op = .accept d := by
  rcases apply_field Conn.ioPending (fun _ => rfl) (fun _ => rfl) h d with hk | ⟨cop, rfl, hk⟩ | ⟨ctx, -, hk⟩ | hop
  · exact .inl hk
  · cases cop with
    | storePending b => exact .inr (.inl ⟨b, rfl, hk⟩)
    | updateEvents want =>
        exact .inl (hk.trans (updateConnEvents_field Conn.ioPending (fun _ _ _ => rfl) _ want))
    | _ => exact .inl hk
  · exact .inl hk
  · exact .inr (.inr hop)

theorem places_inbox (m : Mem nIo nW) (t : Thread nIo nW) (L : Place nIo nW → List ℕ) (op : Op nIo nW) (c : ℕ) :
    places m t L op (.inbox c) = L (.inbox c) ∨ (∃ a, op = .pushInbox c a) ∨ places m t L op (.inbox c) = [] := by
  cases op with
  | pushInbox d a =>
      by_cases hd : c = d
      · exact .inr (.inl ⟨a, by rw [hd]⟩)
      · exact .inl (by simp [places, hd])
  | takeInbox d | drainInbox d =>
      by_cases hd : c = d
      · subst hd
        exact .inr (.inr (by simp [places]))
      · exact .inl (by simp [places, hd])
  | _ => exact .inl (by simp [places])

theorem places_responses (m : Mem nIo nW) (t : Thread nIo nW) (L : Place nIo nW → List ℕ) (op : Op nIo nW) (c : ℕ) :
    places m t L op (.responses c) = L (.responses c) ∨ op = .drainInbox c ∨ op = .popResponse c := by
  cases op with
  | drainInbox d =>
      by_cases hd : c = d
      · exact .inr (.inl (by rw [hd]))
      · exact .inl (by simp [places, hd])
  | popResponse d =>
      by_cases hd : c = d
      · exact .inr (.inr (by rw [hd]))
      · exact .inl (by simp [places, hd])
  | _ => exact .inl (by simp [places])

/-! ### Who is going to look -/

/-- The inbox is empty, or a thread is going to look into it. -/
inductive Noticed (s : State nIo nW) (c : ℕ) : Prop
  | empty (h : (s.mem.conns c).inbox = none)
  /-- A worker is going to set `io_pending`. -/
  | told (u : Thread nIo nW) (h : (s.pos u).tells = some c)
  /-- The owner is going to drain the inbox. -/
  | served (u : Thread nIo nW) (h : (s.pos u).serves = some c)
  /-- The owner is going to find `io_pending`. -/
  | pending (ho : (s.mem.conns c).ioOwned = true) (hp : (s.mem.conns c).ioPending = true)
  /-- A thread is going to own the connection. -/
  | tried (u : Thread nIo nW) (k : Try) (ho : (s.mem.conns c).ioOwned = false) (h : s.pos u = .tryAcquire k c)
  /-- The last owner is going to find `io_pending`. -/
  | behind (u : Thread nIo nW) (ho : (s.mem.conns c).ioOwned = false) (hp : (s.mem.conns c).ioPending = true)
      (h : (s.pos u).behind = some c)

/-- A thread that finds a 1 in `io_pending` behind its release does so while nobody owns the connection. -/
def Unowned (s : State nIo nW) (t : Thread nIo nW) : Prop :=
  ∀ c ∈ (s.pos t).behind, (s.mem.conns c).ioPending = true → (s.mem.conns c).ioOwned = false

section noticed

variable (h : Noticed s c) (hb : Base s) (hv : Moves s s' t op p)
  (hinbox : (s'.mem.conns c).inbox = (s.mem.conns c).inbox)

include h hb hv hinbox

theorem Noticed.release (hop : op = .conn c .releaseIo) (hopen : (s.mem.conns c).closed = false) : Noticed s' c := by
  subst hop
  obtain ⟨hown, htells, hserves, hafter⟩ := hv.step.of_release
  have howned : (s.mem.conns c).ioOwned = true := (hb.owned c).set.mpr ⟨t, hown⟩
  have hfree : (s'.mem.conns c).ioOwned = false := by rw [← Option.some.inj hv.mem]; simp [ConnOp.apply]
  have hpend : (s'.mem.conns c).ioPending = (s.mem.conns c).ioPending := by
    rw [← Option.some.inj hv.mem]
    simp [ConnOp.apply]
  cases h with
  | empty hin => exact .empty (hinbox.trans hin)
  | told u hu =>
      exact .told u (hv.keep Pos.tells hu (by simp [htells]))
  | served u hu =>
      obtain rfl := (hb.owned c).unique u t (Pos.owner_of_serves hu) hown
      rw [hserves] at hu
      cases hu
  | pending _ hp =>
      rcases hafter with hsees | ⟨mode, rfl⟩
      · rw [hb.sees t c hsees] at hopen
        cases hopen
      · exact .behind t hfree (hpend.trans hp) (by rw [hv.pos_self]; rfl)
  | tried u k ho | behind u ho =>
      rw [howned] at ho
      cases ho

theorem Noticed.signal (hop : op = .conn c (.storePending true)) (hopen : (s.mem.conns c).closed = false) :
    Noticed s' c := by
  subst hop
  obtain ⟨k, hq⟩ := hv.step.of_signal
  have hown : (s'.mem.conns c).ioOwned = (s.mem.conns c).ioOwned := by
    rw [← Option.some.inj hv.mem]
    simp [ConnOp.apply]
  have hpend : (s'.mem.conns c).ioPending = true := by rw [← Option.some.inj hv.mem]; simp [ConnOp.apply]
  by_cases ho : (s.mem.conns c).ioOwned = true
  · exact .pending (hown.trans ho) hpend
  have ho := eq_false_of_ne_true ho
  cases h with
  | empty hin => exact .empty (hinbox.trans hin)
  | told u hu =>
      by_cases hut : u = t
      · subst hut
        rcases hv.step.tells hu hopen with hp | ⟨-, rfl⟩
        · exact .told u (by rwa [hv.pos_self])
        · exact .tried u .push (hown.trans ho) hv.pos_self
      · exact .told u (by rwa [hv.pos_of_ne hut])
  | served u hu =>
      rw [(hb.owned c).set.mpr ⟨u, Pos.owner_of_serves hu⟩] at ho
      cases ho
  | pending ho' =>
      rw [ho] at ho'
      cases ho'
  | tried u k' _ hu =>
      exact .tried u k' (hown.trans ho) (hv.keep id hu (by simp [hq]))
  | behind u _ _ hu =>
      exact .behind u (hown.trans ho) hpend (hv.keep Pos.behind hu (by simp [hq, Pos.behind]))

omit hb in
theorem Noticed.clear (hop : op = .conn c (.storePending false)) (hg : Unowned s t) : Noticed s' c := by
  subst hop
  have hown : (s'.mem.conns c).ioOwned = (s.mem.conns c).ioOwned := by
    rw [← Option.some.inj hv.mem]
    simp [ConnOp.apply]
  rcases hv.step.of_clear with hp | ⟨hp, hbehind, k, rfl⟩ | ⟨hp, htells, hserves, htry⟩
  · exact .served t (by rwa [hv.pos_self])
  · exact .tried t k (hown.trans (hg c hbehind hp)) hv.pos_self
  · cases h with
    | empty hin => exact .empty (hinbox.trans hin)
    | told u hu =>
        exact .told u (hv.keep Pos.tells hu (by simp [htells]))
    | served u hu =>
        exact .served u (hv.keep Pos.serves hu (by simp [hserves]))
    | pending _ hp' | behind _ _ hp' =>
        rw [hp] at hp'
        cases hp'
    | tried u k ho hu =>
        exact .tried u k (hown.trans ho) (hv.keep id hu (htry k))

/-- Operations that leave the inbox and both flags alone. -/
theorem Noticed.other (hown : (s'.mem.conns c).ioOwned = (s.mem.conns c).ioOwned)
    (hpend : (s'.mem.conns c).ioPending = (s.mem.conns c).ioPending) (hopen : (s.mem.conns c).closed = false)
    (hopen' : (s'.mem.conns c).closed = false) (hacq : op ≠ .conn c .acquire)
    (hstore : ∀ b, op ≠ .conn c (.storePending b)) (hdrain : op ≠ .drainInbox c) : Noticed s' c := by
  cases h with
  | empty hin => exact .empty (hinbox.trans hin)
  | told u hu =>
      by_cases hut : u = t
      · subst hut
        rcases hv.step.tells hu hopen with hp | ⟨hop, -⟩
        · exact .told u (by rwa [hv.pos_self])
        · exact absurd hop (hstore true)
      · exact .told u (by rwa [hv.pos_of_ne hut])
  | served u hu =>
      by_cases hut : u = t
      · subst hut
        have hknown := hb.known_conn u c (Pos.conn_of_owner (Pos.owner_of_serves hu))
        rcases hv.step.serves hu (hb.fd c hknown hopen) with hp | hop | rfl
        · exact .served u (by rwa [hv.pos_self])
        · exact absurd hop hdrain
        · rw [← Option.some.inj hv.mem] at hopen'
          simp [ConnOp.apply] at hopen'
      · exact .served u (by rwa [hv.pos_of_ne hut])
  | pending ho hp => exact .pending (hown.trans ho) (hpend.trans hp)
  | tried u k ho hu =>
      refine .tried u k (hown.trans ho) (hv.keep id hu (fun hq => ?_))
      have hs := hv.step
      rw [show s.pos t = _ from hq] at hs
      exact hacq (hs.of_tryAcquire ho)
  | behind u ho hp hu =>
      refine .behind u (hown.trans ho) (hpend.trans hp) (hv.keep Pos.behind hu (fun hq => ?_))
      exact hstore false (hv.step.of_behind hq)

end noticed

/-- **One step** keeps that somebody is going to look, if nobody finds a 1 meant for the next owner. -/
theorem Noticed.step (h : Noticed s c) (hi : Inv s L) (hi' : Inv s' (places s.mem t L op)) (hv : Moves s s' t op p)
    (hopen : (s.mem.conns c).closed = false) (hopen' : (s'.mem.conns c).closed = false) (hacc : op ≠ .accept c)
    (hg : Unowned s t) : Noticed s' c := by
  have hlist : (s'.mem.conns c).inbox = (places s.mem t L op (.inbox c)).head? := hi'.records.inbox c
  by_cases hacq : op = .conn c .acquire
  · subst hacq
    exact .served t (by rw [hv.pos_self]; exact hv.step.serves_of_acquire)
  by_cases hdrain : op = .drainInbox c
  · subst hdrain
    exact .empty (by rw [hlist]; simp [places])
  rcases places_inbox s.mem t L op c with hin | ⟨a, rfl⟩ | hin
  · have hinbox : (s'.mem.conns c).inbox = (s.mem.conns c).inbox := by
      rw [hlist, hin, ← hi.records.inbox c]
    by_cases hrel : op = .conn c .releaseIo
    · exact h.release hi.base hv hinbox hrel hopen
    by_cases hstore : ∃ b, op = .conn c (.storePending b)
    · obtain ⟨b, hop⟩ := hstore
      cases b with
      | true => exact h.signal hi.base hv hinbox hop hopen
      | false => exact h.clear hv hinbox hop hg
    have hown : (s'.mem.conns c).ioOwned = (s.mem.conns c).ioOwned := by
      rcases apply_ioOwned hv.mem c with hown | hop | hop | hop
      · exact hown
      · exact absurd hop hacq
      · exact absurd hop hrel
      · exact absurd hop hacc
    have hpend : (s'.mem.conns c).ioPending = (s.mem.conns c).ioPending := by
      rcases apply_ioPending hv.mem c with hpend | ⟨b, hop, -⟩ | hop
      · exact hpend
      · exact absurd ⟨b, hop⟩ hstore
      · exact absurd hop hacc
    exact h.other hi.base hv hinbox hown hpend hopen hopen' hacq (not_exists.mp hstore) hdrain
  · exact .told t (by rw [hv.pos_self, hv.step.of_pushInbox]; rfl)
  · exact .empty (by rw [hlist, hin]; rfl)

/-! ### Responses -/

/-- All sends on the connection took all bytes. -/
def FullSends (c : ℕ) (es : List Event) : Prop := ∀ bytes n, .send c bytes n ∈ since c es → n = bytes.length

/-- The list of responses is empty, or the owner is sending. -/
def Flushed (s : State nIo nW) (c : ℕ) : Prop :=
  (s.mem.conns c).respHead = none ∨ ∃ u, (s.pos u).flushes = some c

theorem Inv.not_full (hi : Inv s L) {a : ℕ} (ha : (s.mem.conns c).respHead = some a)
    (hlt : (s.mem.completions a).sent < responseLen) :
    ¬ FullSends c (es ++ Op.events s.mem (.send c a 0 : Op nIo nW)) := by
  intro hfull
  have hresp := (hi.records.place _ a (hi.records.mem_responses ha)).2.2
  have hzero := hfull ((s.mem.completions a).response.drop (s.mem.completions a).sent) 0 (by
    rw [since_step _ (by simp)]
    exact List.mem_append_right _ List.mem_cons_self)
  rw [List.length_drop, hresp, length_responseBytes] at hzero
  omega

theorem Step.flushes_or_sees {m : Mem nIo nW} {q : Pos} (h : Step m t q (.popResponse c) p) :
    p.flushes = some c ∨ q.sees = some c := by
  cases h with
  | flushPop => exact .inl rfl
  | discardPop => exact .inr rfl

theorem Step.flushes_of_drain {m : Mem nIo nW} {q : Pos} (h : Step m t q (.drainInbox c) p) : p.flushes = some c := by
  cases h
  rfl

theorem Flushed.step (h : Flushed s c) (hi : Inv s L) (hi' : Inv s' (places s.mem t L op)) (hv : Moves s s' t op p)
    (hopen : (s.mem.conns c).closed = false) (hfull : FullSends c (es ++ op.events s.mem)) : Flushed s' c := by
  have hlist : (s'.mem.conns c).respHead = (places s.mem t L op (.responses c)).head? :=
    congrArg Ends.head (hi'.records.responses c)
  have hlist₀ : (s.mem.conns c).respHead = (L (.responses c)).head? := congrArg Ends.head (hi.records.responses c)
  rcases places_responses s.mem t L op c with hl | rfl | rfl
  · have hsame : (s'.mem.conns c).respHead = (s.mem.conns c).respHead := by rw [hlist, hl, ← hlist₀]
    rcases h with hnone | ⟨u, hu⟩
    · exact .inl (hsame.trans hnone)
    · by_cases hut : u = t
      · subst hut
        rcases hv.step.flushes hu with hp | hnone | ⟨a, rfl, ha, hlt⟩
        · exact .inr ⟨u, by rwa [hv.pos_self]⟩
        · exact .inl (hsame.trans hnone)
        · exact absurd hfull (hi.not_full ha hlt)
      · exact .inr ⟨u, by rwa [hv.pos_of_ne hut]⟩
  · exact .inr ⟨t, by rw [hv.pos_self]; exact hv.step.flushes_of_drain⟩
  · rcases hv.step.flushes_or_sees with hp | hsees
    · exact .inr ⟨t, by rwa [hv.pos_self]⟩
    · rw [hi.base.sees t c hsees] at hopen
      cases hopen

/-! ### The result -/

/-- Open connections are attended to as long as all sends take all bytes. -/
def Attended (s : State nIo nW) (es : List Event) : Prop :=
  ∀ c, (s.mem.conns c).closed = false → FullSends c es → Noticed s c ∧ Flushed s c

theorem Attended.step (h : Attended s es) (hi : Inv s L) (hi' : Inv s' (places s.mem t L op))
    (hv : Moves s s' t op p) (hg : Unowned s t) : Attended s' (es ++ op.events s.mem) := by
  intro c hopen' hfull'
  by_cases hacc : op = .accept c
  · subst hacc
    exact ⟨.empty (by rw [apply_accept hv.mem]; rfl), .inl (by rw [apply_accept hv.mem]; rfl)⟩
  have hopen : (s.mem.conns c).closed = false := by
    rcases apply_closed hv.mem c with hk | rfl | hop
    · rwa [← hk]
    · rw [← Option.some.inj hv.mem] at hopen'
      simp [ConnOp.apply] at hopen'
    · exact absurd hop hacc
  have hfull : FullSends c es := by
    intro bytes n hmem
    refine hfull' bytes n ?_
    rw [since_step _ hacc]
    exact List.mem_append_left _ hmem
  obtain ⟨hn, hf⟩ := h c hopen hfull
  exact ⟨hn.step hi hi' hv hopen hopen' hacc hg, hf.step hi hi' hv hopen hfull'⟩

/-- When all threads are idle, an open connection on which all sends took all bytes has no completion left, or
`EPOLLOUT` is armed. -/
def Answered (s : State nIo nW) (es : List Event) : Prop :=
  (∀ t, s.pos t = .idle) → ∀ c, (s.mem.conns c).closed = false → FullSends c es →
    ((s.mem.conns c).inbox = none ∧ (s.mem.conns c).respHead = none) ∨
      ((s.mem.conns c).epolloutArmed = true ∧ (s.mem.conns c).epollout = true)

theorem Attended.answered (h : Attended s es) (hb : Base s) : Answered s es := by
  intro hidle c hopen hfull
  obtain ⟨hn, hf⟩ := h c hopen hfull
  refine .inl ⟨?_, ?_⟩
  · cases hn with
    | empty hin => exact hin
    | told u hu | served u hu | behind u _ _ hu =>
        rw [hidle u] at hu
        cases hu
    | pending ho =>
        obtain ⟨u, hu⟩ := (hb.owned c).set.mp ho
        rw [hidle u] at hu
        cases hu
    | tried u k _ hu =>
        rw [hidle u] at hu
        cases hu
  · rcases hf with hnone | ⟨u, hu⟩
    · exact hnone
    · rw [hidle u] at hu
      cases hu

/-- `accept` gets no memory in use, and nobody finds a 1 in `io_pending` that is meant for the next owner. -/
def HandedOver (s : State nIo nW) (a : Act nIo nW) : Prop := Fresh s a ∧ Unowned s a.t

instance (s : State nIo nW) (a : Act nIo nW) : Decidable (HandedOver s a) :=
  inferInstanceAs (Decidable (_ ∧ ∀ c ∈ _, _))

end steps

/-- **No response is left behind** in every run in which a thread finds a 1 in `io_pending` behind its release
only while nobody owns the connection. -/
theorem responses_answered {nIo nW : ℕ} {s : State nIo nW} {es : List Event}
    (h : (machine nIo nW).Reach HandedOver s es) : Answered s es := by
  obtain ⟨⟨L, hi⟩, ha⟩ := h.invariant (P := fun s es => (∃ L, Inv s L) ∧ Attended s es)
    ⟨⟨_, .init nIo nW⟩, fun _ _ _ => ⟨.empty rfl, .inl rfl⟩⟩ (by
    rintro s es a s' e - ⟨⟨L, hi⟩, ha⟩ hg hs
    obtain ⟨op, p, hr, hv, rfl⟩ := step_cases hs
    have hi' := hi.step hv (hg.1.unreferenced hi hr)
    exact ⟨⟨_, hi'⟩, ha.step hi hi' hv hg.2⟩)
  exact ha.answered hi.base

section runs

variable {nIo nW : ℕ} (t w w' : Thread nIo nW) (c : ℕ)

/-- A worker finds a 1 in `io_pending` behind its release, gets the connection back, and sends the response of
another one. -/
def getsBack : List (Act nIo nW) :=
  accepts t c ++ reads t c [1, 2] ++ goes w 9 ++ goes w' 8 ++ ⟨w, .send (.sent 28)⟩ :: goes w 11 ++
    ⟨w, .send (.sent 28)⟩ :: goes w 6 ++ ⟨w, .readsReturn⟩ :: goes w 3

/-- The I/O thread finds it instead, behind its own release, while the worker owns the connection. -/
def takesAway : List (Act nIo nW) :=
  accepts t c ++ ⟨t, .wait [.conn c false]⟩ :: goes t 7 ++
    [⟨t, .request 1⟩, ⟨t, .go⟩, ⟨t, .request 2⟩, ⟨t, .go⟩, ⟨t, .readsReturn⟩] ++ goes t 2 ++
    goes w 9 ++ goes w' 8 ++ goes t 4 ++ ⟨w, .send (.sent 28)⟩ :: goes w 8

end runs

theorem responses_answered_back : ∃ s es, (machine 1 2).Reach HandedOver s es ∧ (∀ t, s.pos t = .idle) ∧
    written 7 es = responsesOf [1, 2] ∧ Answered s es := by
  obtain ⟨s, es, hr, hy⟩ := Machine.Reach.of_exec (M := machine 1 2) (G := HandedOver)
    (g := fun s a => decide (HandedOver s a)) (getsBack (.inl 0) (.inr 0) (.inr 1) 7)
    (fun _ _ _ hh => of_decide_eq_true hh) (fun r => (decide (∀ t, r.1.pos t = .idle), written 7 r.2))
    (true, responsesOf [1, 2]) (by decide +kernel)
  obtain ⟨hidle, hwritten⟩ := Prod.mk.inj hy
  exact ⟨s, es, hr, of_decide_eq_true hidle, hwritten, responses_answered hr⟩

/-- All threads are idle, the response to the first request was sent, and the completion of the second one is in
the inbox, without `EPOLLOUT`. -/
theorem response_stuck : ∃ s es, (machine 1 2).Reach (fun _ _ => True) s es ∧ (∀ t, s.pos t = .idle) ∧
    (s.mem.conns 7).fdOpen = true ∧ (s.mem.conns 7).closed = false ∧ pushes 7 es = [1, 2] ∧
    written 7 es = responsesOf [1] ∧ (s.mem.conns 7).inbox = some 1 ∧ (s.mem.conns 7).epollout = false ∧
    ¬ Answered s es := by
  obtain ⟨s, es, hr, hy⟩ := Machine.Reach.of_exec (M := machine 1 2) (G := fun _ _ => True)
    (g := fun _ _ => true) (takesAway (.inl 0) (.inr 0) (.inr 1) 7) (fun _ _ _ _ => trivial)
    (fun r => (decide (∀ t, r.1.pos t = .idle), r.1.mem.conns 7, since 7 r.2))
    (true, { fdOpen := true, refcnt := 2, inbox := some 1, registered := true, allocated := true, acceptRef := true },
      [.enqueued ⟨7, 1⟩, .enqueued ⟨7, 2⟩, .pushed 7 1, .pushed 7 2, .send 7 (responseBytes 1) 28])
    (by decide +kernel)
  obtain ⟨hidle, hconn, hsince⟩ := by simpa only [Prod.mk.injEq] using hy
  have hidle := of_decide_eq_true hidle
  have hpush : pushes 7 es = [1, 2] := by rw [pushes, hsince]; rfl
  have hwritten : written 7 es = responsesOf [1] := by rw [written, hsince]; rfl
  refine ⟨s, es, hr, hidle, by rw [hconn], by rw [hconn], hpush, hwritten, by rw [hconn], by rw [hconn], ?_⟩
  intro h
  have hfull : FullSends 7 es := by
    intro bytes n hmem
    rw [hsince] at hmem
    simp only [List.mem_cons, List.not_mem_nil, or_false, reduceCtorEq, false_or, Event.send.injEq, true_and] at hmem
    obtain ⟨rfl, rfl⟩ := hmem
    rfl
  rcases h hidle 7 (by rw [hconn]) hfull with ⟨hin, -⟩ | ⟨harmed, -⟩
  · rw [hconn] at hin
    cases hin
  · rw [hconn] at harmed
    cases harmed

end Rakaia.Pool
