import Rakaia.Lib.Owner
import Rakaia.Lib.Tally
import Rakaia.Pool.Step

/-! # Ownership and closing

Who owns a connection, which connections a thread has at hand, and what `closed` and `fd` say about the thread
that closes: the facts about flags that all other results use (`Base`).  A thread that goes on to use a
connection is at a position with `Pos.conn`; it need not have a reference to it.

They are kept by every step but one: `accept` with an address that is still in use. -/

namespace Rakaia.Pool

open Lib

/-! ### What a position says -/

def Loop.owner : Loop → Option ℕ
  | .flush _ c => some c
  | .discard _ c => some c
  | .inbox _ c _ => some c
  | .stale _ => none

/-- The connection that is being closed in the loop. -/
def Loop.closing : Loop → Option ℕ
  | .discard _ c => some c
  | .inbox _ c _ => some c
  | _ => none

def Loop.Wf : Loop → Prop
  | .flush m _ => m ≠ .hup
  | _ => True

/-- The rest of the stack that a loop walks over. -/
def Loop.rest : Loop → Option ℕ
  | .inbox _ _ rest => rest
  | .stale rest => rest
  | _ => none

/-- The owner is in `close_conn`, or behind it. -/
def OwnPos.closes : OwnPos → Bool
  | .close | .storeClosed | .storeFd | .release => true
  | _ => false

namespace Pos

/-- The connection that the thread owns. -/
def owner : Pos → Option ℕ
  | .own _ c _ => some c
  | .loop l => l.owner
  | .free l _ _ => l.owner
  | _ => none

/-- The connection whose fields the thread will read or write before it is done with the event or the job,
without the reference of a job. -/
def conn : Pos → Option ℕ
  | .signal _ c => some c
  | .tryAcquire _ c => some c
  | .check c => some c
  | .stale c => some c
  | .arm c => some c
  | .after _ c => some c
  | p => p.owner

/-- The job that a worker has in its hands, up to `inbox_push`. -/
def job : Pos → Option Job
  | .alloc j => some j
  | .pushLoad j _ => some j
  | .pushCas j _ _ => some j
  | _ => none

/-- The connection that the thread is closing, behind the store to `closed`. -/
def closing : Pos → Option ℕ
  | .own _ c .storeFd => some c
  | .loop l => l.closing
  | .free l _ _ => l.closing
  | _ => none

/-- A connection that is closed when a thread stands here. -/
def sees : Pos → Option ℕ
  | .stale c => some c
  | .own m c .release => if m = .hup then some c else none
  | p => p.closing

/-- The connection whose descriptor is not in the epoll instance any more. -/
def deleted : Pos → Option ℕ
  | .own _ c .storeFd => some c
  | _ => none

/-- What the thread has taken from `retired_head`. -/
def retiringConns : Pos → List ℕ
  | .retiring conns => conns
  | _ => []

/-- The branch for `EPOLLHUP` does nothing but close the connection. -/
def Wf : Pos → Prop
  | .own m _ p => m = .hup → p.closes = true
  | .loop l => l.Wf
  | .free l _ _ => l.Wf
  | _ => True

/-- The connection to which the thread has a reference for a job. -/
def jobRef : Pos → Option ℕ
  | .alloc j => some j.conn
  | .own _ c (.retained _) => some c
  | _ => none

theorem conn_of_owner {p : Pos} {c : ℕ} (h : p.owner = some c) : p.conn = some c := by
  cases p <;> first | exact h | cases h

theorem owner_of_closing {p : Pos} {c : ℕ} (h : p.closing = some c) : p.owner = some c := by
  cases p with
  | own m c p => cases p <;> first | exact h | cases h
  | loop l => cases l <;> first | exact h | cases h
  | free l => cases l <;> first | exact h | cases h
  | _ => cases h

theorem conn_of_sees {p : Pos} {c : ℕ} (h : p.sees = some c) : p.conn = some c := by
  cases p with
  | stale c => exact h
  | own m d p =>
      cases p with
      | release => cases m <;> first | exact h | cases h
      | storeFd => exact h
      | _ => cases h
  | loop l => exact conn_of_owner (owner_of_closing h)
  | free l => exact conn_of_owner (owner_of_closing h)
  | _ => cases h

theorem conn_of_deleted {p : Pos} {c : ℕ} (h : p.deleted = some c) : p.conn = some c := by
  cases p with
  | own m c p => cases p <;> first | exact h | cases h
  | _ => cases h

/-- A position of a thread that is done, or that has to do with a connection it does not own. -/
inductive Outside (c : ℕ) : Pos → Prop
  | idle : Outside c .idle
  | next : Outside c .next
  | signal (k : Signal) : Outside c (.signal k c)
  | tryAcquire (k : Try) : Outside c (.tryAcquire k c)
  | arm : Outside c (.arm c)

namespace Outside

variable {c d : ℕ} {p : Pos}

theorem owner (h : Outside c p) : p.owner = none := by cases h <;> rfl

theorem conn (h : Outside c p) (hd : p.conn = some d) : d = c := by cases h <;> cases hd <;> rfl

theorem job (h : Outside c p) : p.job = none := by cases h <;> rfl

theorem sees (h : Outside c p) : p.sees = none := by cases h <;> rfl

theorem deleted (h : Outside c p) : p.deleted = none := by cases h <;> rfl

theorem retiringConns (h : Outside c p) : p.retiringConns = [] := by cases h <;> rfl

theorem jobRef (h : Outside c p) : p.jobRef = none := by cases h <;> rfl

theorem wf (h : Outside c p) : p.Wf := by cases h <;> trivial

end Outside

end Pos

section views

variable {nIo nW : ℕ}

theorem outside_finish (t : Thread nIo nW) (c : ℕ) : Pos.Outside c (finish t) := by
  cases t with
  | inl => exact .next
  | inr => exact .idle

theorem Try.outside_loser (k : Try) (t : Thread nIo nW) (c : ℕ) : Pos.Outside c (k.loser t c) := by
  cases k with
  | hup => exact .signal _
  | schedule => exact outside_finish t c
  | push => exact .arm
  | behind m =>
      cases m with
      | flush => exact .arm
      | drive | hup => exact outside_finish t c

theorem Signal.outside_target (k : Signal) (t : Thread nIo nW) (c : ℕ) : Pos.Outside c (k.target t c) := by
  cases k with
  | hup => exact outside_finish t c
  | schedule | push => exact .tryAcquire _

variable {m : Mem nIo nW} {t : Thread nIo nW} {p p' : Pos} {op : Op nIo nW} {c : ℕ}

/-- A thread gets an ownership with `acquire` and gives it up with `releaseIo`. -/
theorem Step.owner (h : Step m t p op p') :
    (∃ c, op = .conn c .acquire ∧ (m.conns c).ioOwned = false ∧ p.owner = none ∧ p'.owner = some c) ∨
    (∃ c, op = .conn c .releaseIo ∧ p.owner = some c ∧ p'.owner = none) ∨
    (p'.owner = p.owner ∧ ∀ c, op ≠ .conn c .acquire ∧ op ≠ .conn c .releaseIo) := by
  cases h with
  | @acquire _ k c ho => exact .inl ⟨c, rfl, ho, rfl, by cases k <;> rfl⟩
  | @releaseHup _ c => exact .inr (.inl ⟨c, rfl, rfl, (outside_finish t c).owner⟩)
  | @release _ _ c => exact .inr (.inl ⟨c, rfl, rfl, rfl⟩)
  | @signal _ k c => exact .inr (.inr ⟨(k.outside_target t c).owner, by simp⟩)
  | @lose _ k c => exact .inr (.inr ⟨(k.outside_loser t c).owner, by simp⟩)
  | @afterIdle _ _ c => exact .inr (.inr ⟨(outside_finish t c).owner, by simp⟩)
  | staleEnd => exact .inr (.inr ⟨(outside_finish t 0).owner, by simp⟩)
  | _ => exact .inr (.inr ⟨rfl, by simp⟩)

theorem Step.wf (h : Step m t p op p') (hp : p.Wf) : p'.Wf := by
  cases h with
  | @acquire _ k => cases k <;> simp [Try.owner, Pos.Wf, OwnPos.closes]
  | signal => exact (Signal.outside_target ..).wf
  | lose => exact (Try.outside_loser ..).wf
  | @afterIdle _ _ c => exact (outside_finish t c).wf
  | @releaseHup _ c => exact (outside_finish t c).wf
  | staleEnd => exact (outside_finish t 0).wf
  | events hm => exact fun hup => by cases hp hup
  | eventsDrive => exact fun hup => by cases hup
  | drain | clear | request | enqueue | readsOpen | againPending => exact fun hup => by cases hp hup
  | flushDone | sendAgain => exact fun hup => absurd hup hp
  | _ => first | trivial | exact hp | exact fun _ => rfl

/-- A thread comes to use a connection through an event, or with the job it has taken. -/
theorem Step.conn (h : Step m t p op p') (hc : p'.conn = some c) :
    p.conn = some c ∨ (∃ j, p.job = some j ∧ j.conn = c) ∨ ∃ i, c ∈ connsOf (m.events i) := by
  cases h with
  | @acquire _ k d => cases k <;> exact .inl hc
  | @signal _ k d => exact .inl (congrArg some ((k.outside_target t d).conn hc).symm)
  | @lose _ k d => exact .inl (congrArg some ((k.outside_loser t d).conn hc).symm)
  | @afterIdle _ _ d => exact .inl (congrArg some ((outside_finish t d).conn hc).symm)
  | @releaseHup _ d => exact .inl (congrArg some ((outside_finish t d).conn hc).symm)
  | staleEnd => cases t <;> cases hc
  | push => exact .inr (.inl ⟨_, rfl, Option.some.inj hc⟩)
  | @hup i d _ he | @ready i d _ he =>
      obtain rfl := Option.some.inj hc
      exact .inr (.inr ⟨i, by simp [he, connsOf]⟩)
  | _ => first | exact .inl hc | cases hc

theorem Step.job (h : Step m t p op p') {j : Job} (hj : p'.job = some j) : p.job = some j ∨ j ∈ m.jobRing := by
  cases h with
  | @acquire _ k => cases k <;> cases hj
  | @signal _ k c => rw [(k.outside_target t c).job] at hj; cases hj
  | @lose _ k c => rw [(k.outside_loser t c).job] at hj; cases hj
  | @afterIdle _ _ c => rw [(outside_finish t c).job] at hj; cases hj
  | @releaseHup _ c => rw [(outside_finish t c).job] at hj; cases hj
  | staleEnd => rw [(outside_finish t 0).job] at hj; cases hj
  | dequeue hr => exact .inr (by rw [hr, ← Option.some.inj hj]; exact List.mem_cons_self)
  | _ => first | exact .inl hj | cases hj

/-- `close_conn` goes on until the store to `fd`. -/
theorem Step.closing (h : Step m t p op p') (hc : p.closing = some c) :
    p'.closing = some c ∨ ∃ ctx, op = .storeFd c ctx := by
  cases h with
  | storeFd => exact .inr ⟨_, by rw [Option.some.inj hc]⟩
  | _ => first | exact .inl hc | cases hc

theorem Step.closing_of_storeClosed (h : Step m t p op p') (hop : op = .conn c .storeClosed) :
    p'.closing = some c := by
  cases h <;> cases hop
  rfl

theorem Step.storeFd_sees (h : Step m t p op p') {ctx : Option (Fin nIo)} (hop : op = .storeFd c ctx) :
    p.sees = some c ∧ p.deleted = some c := by
  cases h <;> cases hop
  exact ⟨rfl, rfl⟩

/-- A thread has seen that the connection is closed, or it closes it. -/
theorem Step.sees (h : Step m t p op p') (hw : p.Wf) (hc : p'.sees = some c) :
    p.sees = some c ∨ op = .conn c .storeClosed ∨ (p.conn = some c ∧ (m.conns c).closed = true) ∨
      (p.conn = some c ∧ (m.conns c).fdOpen = false) := by
  cases h with
  | @acquire _ k => cases k <;> cases hc
  | @signal _ k d => rw [(k.outside_target t d).sees] at hc; cases hc
  | @lose _ k d => rw [(k.outside_loser t d).sees] at hc; cases hc
  | @afterIdle _ _ d => rw [(outside_finish t d).sees] at hc; cases hc
  | @releaseHup _ d => rw [(outside_finish t d).sees] at hc; cases hc
  | staleEnd => rw [(outside_finish t 0).sees] at hc; cases hc
  | checkClosed hcl =>
      obtain rfl := Option.some.inj hc
      exact .inr (.inr (.inl ⟨rfl, hcl⟩))
  | storeClosed =>
      obtain rfl := Option.some.inj hc
      exact .inr (.inl rfl)
  | @closeDone _ mode d hfd =>
      cases mode with
      | hup =>
          obtain rfl := Option.some.inj hc
          exact .inr (.inr (.inr ⟨rfl, hfd⟩))
      | drive | flush => cases hc
  | @storeFd _ mode d =>
      cases mode with
      | hup => exact .inl hc
      | drive | flush => cases hc
  | @events _ mode _ _ | @againIdle _ mode _ _ | @readsClosed _ mode _ _ =>
      cases mode with
      | hup => cases hw rfl
      | drive | flush => cases hc
  | _ => first | exact .inl hc | cases hc

theorem Step.owner_of_enqueue {j : Job} (h : Step m t p (.enqueue j) p') : p.owner = some j.conn := by
  cases h
  rfl

theorem Step.registered_of_wait {i : Fin nIo} {events : List Ready} (h : Step m t p (.wait i events) p')
    (hc : c ∈ connsOf events) : (m.conns c).registered = true := by
  cases h with
  | wait _ hr => exact hr c hc

theorem Step.deleted (h : Step m t p op p') (hc : p'.deleted = some c) : op = .conn c .closeFd := by
  cases h with
  | @acquire _ k => cases k <;> cases hc
  | @signal _ k d => rw [(k.outside_target t d).deleted] at hc; cases hc
  | @lose _ k d => rw [(k.outside_loser t d).deleted] at hc; cases hc
  | @afterIdle _ _ d => rw [(outside_finish t d).deleted] at hc; cases hc
  | @releaseHup _ d => rw [(outside_finish t d).deleted] at hc; cases hc
  | staleEnd => rw [(outside_finish t 0).deleted] at hc; cases hc
  | inboxEnd => rw [Option.some.inj hc]
  | _ => cases hc

theorem Step.retiringConns (h : Step m t p op p') :
    (∃ i, op = .takeRetired i ∧ p.retiringConns = [] ∧
      (¬ 1 < nIo ∧ p'.retiringConns = m.retiredConns i ∨ p'.retiringConns = [])) ∨
    (∃ c, op = .conn c .dropAccept ∧ p.retiringConns = c :: p'.retiringConns) ∨
    (p'.retiringConns = p.retiringConns ∧ (∀ i, op ≠ .takeRetired i) ∧ ∀ c, op ≠ .conn c .dropAccept) := by
  cases h with
  | @leak i => exact .inl ⟨i, rfl, rfl, .inr rfl⟩
  | @retire i _ hIo => exact .inl ⟨i, rfl, rfl, .inl ⟨hIo, rfl⟩⟩
  | @dropAccept i c => exact .inr (.inl ⟨c, rfl, rfl⟩)
  | @acquire _ k => exact .inr (.inr ⟨by cases k <;> rfl, by simp, by simp⟩)
  | @signal _ k c => exact .inr (.inr ⟨(k.outside_target t c).retiringConns, by simp, by simp⟩)
  | @lose _ k c => exact .inr (.inr ⟨(k.outside_loser t c).retiringConns, by simp, by simp⟩)
  | @afterIdle _ _ c | @releaseHup _ c =>
      exact .inr (.inr ⟨(outside_finish t c).retiringConns, by simp, by simp⟩)
  | staleEnd => exact .inr (.inr ⟨(outside_finish t 0).retiringConns, by simp, by simp⟩)
  | _ => exact .inr (.inr ⟨rfl, by simp, by simp⟩)

end views

/-! ### What an operation does to the flags -/

/-- A connection without its inbox and its list of responses. -/
def Conn.flags (k : Conn) : Conn := { k with inbox := none, respHead := none, respTail := none }

section memory

variable {nIo nW : ℕ} {m m' : Mem nIo nW} {op : Op nIo nW} {c : ℕ}

theorem drainInbox_eq (h : m.drainInbox c = some m') : ∃ (next : ℕ → Option ℕ) (ends : Ends ℕ),
    m' = ({ m with respNext := next } : Mem nIo nW).setConn c
      { m.conns c with inbox := none, respHead := ends.head, respTail := ends.tail } := by
  unfold Mem.drainInbox at h
  dsimp only at h
  split at h
  · cases h
  · split at h
    · cases h
    · exact ⟨_, _, (Option.some.inj h).symm⟩

theorem popResponse_eq (h : m.popResponse c = some m') : ∃ a, (m.conns c).respHead = some a ∧
    m' = m.setConn c { m.conns c with
      respHead := m.respNext a
      respTail := if (m.respNext a).isNone then none else (m.conns c).respTail } := by
  unfold Mem.popResponse at h
  dsimp only at h
  split at h <;> rename_i ha
  · cases h
  · exact ⟨_, ha, (Option.some.inj h).symm⟩

theorem storeFd_conns (m : Mem nIo nW) (c : ℕ) (ctx : Option (Fin nIo)) :
    (m.storeFd c ctx).conns = Function.update m.conns c
      { m.conns c with fdOpen := false, retired := (m.conns c).retired || ctx.isSome } := by
  cases ctx with
  | none => simp [Mem.storeFd]
  | some i =>
      unfold Mem.storeFd
      split_ifs with hr
      · simp [hr]
      · simp

theorem storeFd_eq (m : Mem nIo nW) (c : ℕ) (ctx : Option (Fin nIo)) : ∃ (k : Conn) (l : Fin nIo → List ℕ),
    m.storeFd c ctx = ({ m with retiredConns := l } : Mem nIo nW).setConn c k := by
  cases ctx with
  | none => exact ⟨_, _, rfl⟩
  | some i =>
      unfold Mem.storeFd
      split_ifs
      · exact ⟨_, _, rfl⟩
      · exact ⟨_, _, rfl⟩

theorem flags_update (conns : ℕ → Conn) (c : ℕ) {k : Conn} (hk : k.flags = (conns c).flags) (d : ℕ) :
    (Function.update conns c k d).flags = (conns d).flags := by
  by_cases hd : d = c
  · subst hd
    rw [Function.update_self, hk]
  · rw [Function.update_of_ne hd]

/-- The flags of a connection change with four kinds of operations only. -/
theorem apply_conns (h : op.apply m = some m') (d : ℕ) :
    (m'.conns d).flags = (m.conns d).flags ∨
    (∃ cop, op = .conn d cop ∧ m'.conns d = cop.apply (m.conns d)) ∨
    (∃ ctx, op = .storeFd d ctx ∧ m'.conns d =
      { m.conns d with fdOpen := false, retired := (m.conns d).retired || ctx.isSome }) ∨
    (op = .accept d ∧ m'.conns d = .accepted) ∨
    ∃ a, op = .release a ∧ (m.completions a).conn = d ∧ m'.conns d = (m.conns d).release := by
  cases op with
  | conn c cop =>
      obtain rfl := Option.some.inj h
      by_cases hd : d = c
      · subst hd
        exact .inr (.inl ⟨cop, rfl, Function.update_self ..⟩)
      · exact .inl (by simp [hd])
  | storeFd c ctx =>
      obtain rfl := Option.some.inj h
      rw [storeFd_conns]
      by_cases hd : d = c
      · subst hd
        exact .inr (.inr (.inl ⟨ctx, rfl, Function.update_self ..⟩))
      · exact .inl (by simp [hd])
  | accept c =>
      obtain rfl := Option.some.inj h
      by_cases hd : d = c
      · subst hd
        exact .inr (.inr (.inr (.inl ⟨rfl, Function.update_self ..⟩)))
      · exact .inl (by simp [hd])
  | release a =>
      obtain rfl := Option.some.inj h
      by_cases hd : d = (m.completions a).conn
      · subst hd
        exact .inr (.inr (.inr (.inr ⟨a, rfl, rfl, Function.update_self ..⟩)))
      · exact .inl (by simp [hd])
  | pushInbox c a | takeInbox c =>
      obtain rfl := Option.some.inj h
      refine .inl (flags_update m.conns c ?_ d)
      rfl
  | drainInbox c =>
      obtain ⟨next, ends, rfl⟩ := drainInbox_eq h
      refine .inl (flags_update m.conns c ?_ d)
      rfl
  | popResponse c =>
      obtain ⟨a, -, rfl⟩ := popResponse_eq h
      refine .inl (flags_update m.conns c ?_ d)
      rfl
  | _ =>
      obtain rfl := Option.some.inj h
      exact .inl rfl

/-- What happens to a field that is not among the lists and that `conn_release` does not touch. -/
theorem apply_field {β : Type} (f : Conn → β) (hf : ∀ k : Conn, f k.flags = f k)
    (hr : ∀ k : Conn, f k.release = f k) (h : op.apply m = some m') (d : ℕ) :
    f (m'.conns d) = f (m.conns d) ∨
    (∃ cop, op = .conn d cop ∧ f (m'.conns d) = f (cop.apply (m.conns d))) ∨
    (∃ ctx, op = .storeFd d ctx ∧ f (m'.conns d) =
      f { m.conns d with fdOpen := false, retired := (m.conns d).retired || ctx.isSome }) ∨
    op = .accept d := by
  rcases apply_conns h d with hk | ⟨cop, hop, hk⟩ | ⟨ctx, hop, hk⟩ | ⟨hop, -⟩ | ⟨a, -, -, hk⟩
  · exact .inl (by rw [← hf, hk, hf])
  · exact .inr (.inl ⟨cop, hop, congrArg f hk⟩)
  · exact .inr (.inr (.inl ⟨ctx, hop, congrArg f hk⟩))
  · exact .inr (.inr (.inr hop))
  · exact .inl (by rw [hk, hr])

theorem updateConnEvents_field {β : Type} (f : Conn → β)
    (hf : ∀ (k : Conn) (armed out : Bool), f { k with epolloutArmed := armed, epollout := out } = f k)
    (k : Conn) (want : Bool) : f (k.updateConnEvents want) = f k := by
  unfold Conn.updateConnEvents
  split_ifs
  · rfl
  · rfl
  · exact hf k want want
  · rfl

theorem apply_ioOwned (h : op.apply m = some m') (d : ℕ) :
    (m'.conns d).ioOwned = (m.conns d).ioOwned ∨ op = .conn d .acquire ∨ op = .conn d .releaseIo ∨
      op = .accept d := by
  rcases apply_field Conn.ioOwned (fun _ => rfl) (fun _ => rfl) h d with hk | ⟨cop, rfl, hk⟩ | ⟨ctx, -, hk⟩ | hop
  · exact .inl hk
  · cases cop with
    | acquire => exact .inr (.inl rfl)
    | releaseIo => exact .inr (.inr (.inl rfl))
    | updateEvents want =>
        exact .inl (hk.trans (updateConnEvents_field Conn.ioOwned (fun _ _ _ => rfl) _ want))
    | _ => exact .inl hk
  · exact .inl hk
  · exact .inr (.inr (.inr hop))

theorem apply_closed (h : op.apply m = some m') (d : ℕ) :
    (m'.conns d).closed = (m.conns d).closed ∨ op = .conn d .storeClosed ∨ op = .accept d := by
  rcases apply_field Conn.closed (fun _ => rfl) (fun _ => rfl) h d with hk | ⟨cop, rfl, hk⟩ | ⟨ctx, -, hk⟩ | hop
  · exact .inl hk
  · cases cop with
    | storeClosed => exact .inr (.inl rfl)
    | updateEvents want =>
        exact .inl (hk.trans (updateConnEvents_field Conn.closed (fun _ _ _ => rfl) _ want))
    | _ => exact .inl hk
  · exact .inl hk
  · exact .inr (.inr hop)

theorem apply_fdOpen (h : op.apply m = some m') (d : ℕ) :
    (m'.conns d).fdOpen = (m.conns d).fdOpen ∨ (∃ ctx, op = .storeFd d ctx ∧ (m'.conns d).fdOpen = false) ∨
      op = .accept d := by
  rcases apply_field Conn.fdOpen (fun _ => rfl) (fun _ => rfl) h d with hk | ⟨cop, rfl, hk⟩ | ⟨ctx, hop, hk⟩ | hop
  · exact .inl hk
  · cases cop with
    | updateEvents want =>
        exact .inl (hk.trans (updateConnEvents_field Conn.fdOpen (fun _ _ _ => rfl) _ want))
    | _ => exact .inl hk
  · exact .inr (.inl ⟨ctx, hop, hk⟩)
  · exact .inr (.inr hop)

theorem apply_registered (h : op.apply m = some m') (d : ℕ) :
    (m'.conns d).registered = (m.conns d).registered ∨ (op = .conn d .closeFd ∧ (m'.conns d).registered = false) ∨
      op = .accept d := by
  rcases apply_field Conn.registered (fun _ => rfl) (fun _ => rfl) h d with
    hk | ⟨cop, rfl, hk⟩ | ⟨ctx, hop, hk⟩ | hop
  · exact .inl hk
  · cases cop with
    | closeFd => exact .inr (.inl ⟨rfl, hk⟩)
    | updateEvents want =>
        exact .inl (hk.trans (updateConnEvents_field Conn.registered (fun _ _ _ => rfl) _ want))
    | _ => exact .inl hk
  · exact .inl hk
  · exact .inr (.inr hop)

theorem apply_retired (h : op.apply m = some m') (d : ℕ) :
    (m'.conns d).retired = (m.conns d).retired ∨
      (∃ ctx, op = .storeFd d ctx ∧ (m'.conns d).retired = ((m.conns d).retired || ctx.isSome)) ∨
      op = .accept d := by
  rcases apply_field Conn.retired (fun _ => rfl) (fun _ => rfl) h d with
    hk | ⟨cop, rfl, hk⟩ | ⟨ctx, hop, hk⟩ | hop
  · exact .inl hk
  · cases cop with
    | updateEvents want =>
        exact .inl (hk.trans (updateConnEvents_field Conn.retired (fun _ _ _ => rfl) _ want))
    | _ => exact .inl hk
  · exact .inr (.inl ⟨ctx, hop, hk⟩)
  · exact .inr (.inr hop)

theorem apply_acceptRef (h : op.apply m = some m') (d : ℕ) :
    (m'.conns d).acceptRef = (m.conns d).acceptRef ∨ (op = .conn d .dropAccept ∧ (m'.conns d).acceptRef = false) ∨
      op = .accept d := by
  rcases apply_field Conn.acceptRef (fun _ => rfl) (fun _ => rfl) h d with
    hk | ⟨cop, rfl, hk⟩ | ⟨ctx, -, hk⟩ | hop
  · exact .inl hk
  · cases cop with
    | dropAccept => exact .inr (.inl ⟨rfl, hk⟩)
    | updateEvents want =>
        exact .inl (hk.trans (updateConnEvents_field Conn.acceptRef (fun _ _ _ => rfl) _ want))
    | _ => exact .inl hk
  · exact .inl hk
  · exact .inr (.inr hop)

theorem apply_allocated (h : op.apply m = some m') (d : ℕ) :
    (m'.conns d).allocated = (m.conns d).allocated ∨ op = .conn d .dropAccept ∨ op = .accept d ∨
      ∃ a, op = .release a ∧ (m.completions a).conn = d ∧ m'.conns d = (m.conns d).release := by
  rcases apply_conns h d with hk | ⟨cop, rfl, hk⟩ | ⟨ctx, -, hk⟩ | ⟨hop, -⟩ | hop
  · have heq := congrArg Conn.allocated hk
    exact .inl heq
  · cases cop with
    | dropAccept => exact .inr (.inl rfl)
    | updateEvents want =>
        exact .inl ((congrArg _ hk).trans (updateConnEvents_field Conn.allocated (fun _ _ _ => rfl) _ want))
    | _ => exact .inl (by rw [hk]; rfl)
  · exact .inl (by rw [hk])
  · exact .inr (.inr (.inl hop))
  · exact .inr (.inr (.inr hop))

theorem apply_accept (h : Op.apply m (.accept c) = some m') : m'.conns c = .accepted := by
  obtain rfl := Option.some.inj h
  exact Function.update_self ..

theorem apply_jobRing (h : op.apply m = some m') :
    m'.jobRing = m.jobRing ∨ (∃ j, op = .enqueue j ∧ m'.jobRing = m.jobRing ++ [j]) ∨
      (op = .dequeue ∧ m'.jobRing = m.jobRing.tail) := by
  cases op with
  | enqueue j =>
      obtain rfl := Option.some.inj h
      exact .inr (.inl ⟨j, rfl, rfl⟩)
  | dequeue =>
      obtain rfl := Option.some.inj h
      exact .inr (.inr ⟨rfl, rfl⟩)
  | storeFd c ctx =>
      obtain ⟨k, l, hk⟩ := storeFd_eq m c ctx
      obtain rfl := hk.symm.trans (Option.some.inj h)
      exact .inl rfl
  | drainInbox c =>
      obtain ⟨next, ends, rfl⟩ := drainInbox_eq h
      exact .inl rfl
  | popResponse c =>
      obtain ⟨a, -, rfl⟩ := popResponse_eq h
      exact .inl rfl
  | _ =>
      obtain rfl := Option.some.inj h
      exact .inl rfl

theorem apply_events (h : op.apply m = some m') (i : Fin nIo) :
    m'.events i = m.events i ∨ (∃ events, op = .wait i events ∧ m'.events i = events) ∨
      (op = .nextEvent i ∧ m'.events i = (m.events i).tail) := by
  cases op with
  | wait j events =>
      obtain rfl := Option.some.inj h
      by_cases hij : i = j
      · subst hij
        exact .inr (.inl ⟨events, rfl, by simp⟩)
      · exact .inl (by simp [hij])
  | nextEvent j =>
      obtain rfl := Option.some.inj h
      by_cases hij : i = j
      · subst hij
        exact .inr (.inr ⟨rfl, by simp⟩)
      · exact .inl (by simp [hij])
  | storeFd d ctx =>
      obtain ⟨k, l, hk⟩ := storeFd_eq m d ctx
      obtain rfl := hk.symm.trans (Option.some.inj h)
      exact .inl rfl
  | drainInbox d =>
      obtain ⟨next, ends, rfl⟩ := drainInbox_eq h
      exact .inl rfl
  | popResponse d =>
      obtain ⟨a, -, rfl⟩ := popResponse_eq h
      exact .inl rfl
  | _ =>
      obtain rfl := Option.some.inj h
      exact .inl rfl

theorem mem_events (h : op.apply m = some m') {i : Fin nIo} (hc : c ∈ connsOf (m'.events i)) :
    c ∈ connsOf (m.events i) ∨ ∃ events, op = .wait i events ∧ c ∈ connsOf events := by
  rcases apply_events h i with he | ⟨events, hop, he⟩ | ⟨-, he⟩
  · exact .inl (he ▸ hc)
  · exact .inr ⟨events, hop, he ▸ hc⟩
  · have htail : (m.events i).tail.Sublist (m.events i) := List.tail_sublist _
    rw [he] at hc
    exact .inl ((htail.filterMap _).subset hc)

theorem apply_retiredConns (h : op.apply m = some m') :
    m'.retiredConns = m.retiredConns ∨
    (∃ i, op = .takeRetired i ∧ m'.retiredConns = Function.update m.retiredConns i []) ∨
    ∃ i c, op = .storeFd c (some i) ∧ (m.conns c).retired = false ∧
      m'.retiredConns = Function.update m.retiredConns i (c :: m.retiredConns i) := by
  cases op with
  | takeRetired i =>
      obtain rfl := Option.some.inj h
      exact .inr (.inl ⟨i, rfl, rfl⟩)
  | storeFd c ctx =>
      obtain rfl := Option.some.inj h
      cases ctx with
      | none => exact .inl rfl
      | some i =>
          simp only [Mem.storeFd]
          split_ifs with hr
          · exact .inl rfl
          · exact .inr (.inr ⟨i, c, rfl, eq_false_of_ne_true hr, rfl⟩)
  | drainInbox c =>
      obtain ⟨next, ends, rfl⟩ := drainInbox_eq h
      exact .inl rfl
  | popResponse c =>
      obtain ⟨a, -, rfl⟩ := popResponse_eq h
      exact .inl rfl
  | _ =>
      obtain rfl := Option.some.inj h
      exact .inl rfl

end memory

/-! ### The invariant -/

/-- The connection was accepted, and its record was not used for another one since. -/
def Conn.Known (k : Conn) : Prop := k.acceptRef = true ∨ k.retired = true

/-- How often the connection is in the lists of retired connections. -/
def State.retiredCount {nIo nW : ℕ} (s : State nIo nW) (c : ℕ) : ℕ :=
  tally (List.count c) s.mem.retiredConns + tally (fun p => p.retiringConns.count c) s.pos

/-- Flags, owners and closing. -/
structure Base {nIo nW : ℕ} (s : State nIo nW) : Prop where
  wf : ∀ t, (s.pos t).Wf
  owned : ∀ c, Owned (fun p => p.owner = some c) s.pos (s.mem.conns c).ioOwned
  /-- A connection is retired once, and the reference is dropped once. -/
  retired : ∀ c, s.retiredCount c ≤ if (s.mem.conns c).acceptRef && (s.mem.conns c).retired then 1 else 0
  known_conn : ∀ t c, (s.pos t).conn = some c → (s.mem.conns c).Known
  known_job : ∀ t j, (s.pos t).job = some j → (s.mem.conns j.conn).Known
  known_ring : ∀ j ∈ s.mem.jobRing, (s.mem.conns j.conn).Known
  known_event : ∀ i, ∀ c ∈ connsOf (s.mem.events i), (s.mem.conns c).Known
  registered : ∀ c, (s.mem.conns c).registered = true →
    (s.mem.conns c).acceptRef = true ∧ (s.mem.conns c).retired = false
  deleted : ∀ t c, (s.pos t).deleted = some c → (s.mem.conns c).registered = false
  fd : ∀ c, (s.mem.conns c).Known → (s.mem.conns c).closed = false → (s.mem.conns c).fdOpen = true
  closing : ∀ c, (s.mem.conns c).closed = true → (s.mem.conns c).fdOpen = true →
    ∃ t, (s.pos t).closing = some c
  sees : ∀ t c, (s.pos t).sees = some c → (s.mem.conns c).closed = true

section base

variable {nIo nW : ℕ} {s s' : State nIo nW} {t : Thread nIo nW} {op : Op nIo nW} {p : Pos}

/-- The address that `accept` gets is not in use. -/
def Clean (s : State nIo nW) (op : Op nIo nW) : Prop :=
  ∀ c, op = .accept c → (s.mem.conns c).acceptRef = false ∧ ∀ t, (s.pos t).conn ≠ some c

theorem Base.init (nIo nW : ℕ) : Base (State.init nIo nW) where
  wf _ := trivial
  owned c := by
    constructor
    · rintro _ _ ⟨⟩
    · constructor
      · rintro ⟨⟩
      · rintro ⟨_, ⟨⟩⟩
  retired c := by
    have h1 : tally (List.count c) (State.init nIo nW).mem.retiredConns = 0 := tally_eq_zero (fun _ => rfl)
    have h2 : tally (fun p => p.retiringConns.count c) (State.init nIo nW).pos = 0 := tally_eq_zero (fun _ => rfl)
    rw [State.retiredCount, h1, h2]
    exact Nat.zero_le _
  known_conn _ _ h := by cases h
  known_job _ _ h := by cases h
  known_ring _ h := by cases h
  known_event _ _ h := by cases h
  registered _ h := by cases h
  deleted _ _ h := by cases h
  fd c h := by rcases h with h | h <;> cases h
  closing _ h := by cases h
  sees _ _ h := by cases h

/-- The reference that is dropped is that of a retired connection. -/
theorem Base.retired_of_drop (hb : Base s) {c : ℕ} (hs : Step s.mem t (s.pos t) (.conn c .dropAccept) p) :
    (s.mem.conns c).acceptRef = true ∧ (s.mem.conns c).retired = true := by
  have hmem : c ∈ (s.pos t).retiringConns := by
    rcases hs.retiringConns with ⟨i, hop, -⟩ | ⟨d, hop, hd⟩ | ⟨-, -, hne⟩
    · cases hop
    · cases hop
      rw [hd]
      exact List.mem_cons_self
    · exact absurd rfl (hne c)
  have hle := le_tally (fun p : Pos => p.retiringConns.count c) s.pos t
  have hpos := List.count_pos_iff.mpr hmem
  have hcount := hb.retired c
  unfold State.retiredCount at hcount
  rw [← Bool.and_eq_true]
  by_contra hr
  rw [if_neg hr] at hcount
  omega

variable (hb : Base s) (hv : Moves s s' t op p)

include hb hv

theorem Base.owned_step (hclean : Clean s op) (c : ℕ) :
    Owned (fun p => p.owner = some c) s'.pos (s'.mem.conns c).ioOwned := by
  obtain ⟨hs, hm, hpos⟩ := hv
  rw [hpos]
  rcases hs.owner with ⟨d, rfl, hfree, hnone, hp⟩ | ⟨d, rfl, hown, hp⟩ | ⟨hp, hne⟩
  · by_cases hc : c = d
    · subst hc
      have hflag : (s'.mem.conns c).ioOwned = true := by rw [← Option.some.inj hm]; simp [ConnOp.apply]
      have howned := hb.owned c
      rw [hfree] at howned
      rw [hflag]
      exact howned.take t hp
    · have hflag : s'.mem.conns c = s.mem.conns c := by rw [← Option.some.inj hm]; simp [hc]
      rw [hflag]
      refine (hb.owned c).move ?_
      simp [hp, hnone, Ne.symm hc]
  · by_cases hc : c = d
    · subst hc
      have hflag : (s'.mem.conns c).ioOwned = false := by rw [← Option.some.inj hm]; simp [ConnOp.apply]
      rw [hflag]
      exact (hb.owned c).release hown (by simp [hp])
    · have hflag : s'.mem.conns c = s.mem.conns c := by rw [← Option.some.inj hm]; simp [hc]
      rw [hflag]
      refine (hb.owned c).move ?_
      simp [hp, hown, Ne.symm hc]
  · have howned := (hb.owned c).move (t := t) (p := p) (by rw [hp])
    rcases apply_ioOwned hm c with hk | hop | hop | hop
    · rwa [hk]
    · exact absurd hop (hne c).1
    · exact absurd hop (hne c).2
    · -- nobody owns a connection that nobody uses
      have hflag : (s.mem.conns c).ioOwned = false := by
        by_contra hset
        obtain ⟨u, hu⟩ := (hb.owned c).set.mp (eq_true_of_ne_false hset)
        exact (hclean c hop).2 u (Pos.conn_of_owner hu)
      subst hop
      rw [hflag] at howned
      rw [apply_accept hm]
      exact howned

theorem Base.retired_step (hclean : Clean s op) (c : ℕ) :
    s'.retiredCount c ≤ if (s'.mem.conns c).acceptRef && (s'.mem.conns c).retired then 1 else 0 := by
  obtain ⟨hs, hm, hpos⟩ := hv
  have hold := hb.retired c
  have hpt := tally_update (fun p : Pos => p.retiringConns.count c) s.pos t p
  rw [← hpos] at hpt
  unfold State.retiredCount at hold ⊢
  rcases hs.retiringConns with ⟨i, rfl, hnil, hp⟩ | ⟨d, rfl, hd⟩ | ⟨hp, hne, hne'⟩
  · have hmi := tally_update (List.count c) s.mem.retiredConns i []
    rw [← Option.some.inj hm]
    simp only [hnil, List.count_nil] at hpt hmi ⊢
    rcases hp with ⟨-, hp⟩ | hp
    · rw [hp] at hpt
      omega
    · rw [hp, List.count_nil] at hpt
      omega
  · rw [hd] at hpt
    rw [← Option.some.inj hm]
    by_cases hc : c = d
    · subst hc
      rw [List.count_cons_self] at hpt
      simp only [Mem.setConn, Function.update_self, ConnOp.apply, Bool.false_and, Bool.false_eq_true, if_false]
      split_ifs at hold <;> omega
    · rw [List.count_cons_of_ne (Ne.symm hc)] at hpt
      simp only [Mem.setConn, Function.update_of_ne hc]
      omega
  · rw [hp] at hpt
    rcases apply_acceptRef hm c with ha | ⟨hop, -⟩ | rfl
    · rcases apply_retiredConns hm with hr | ⟨i, hop, -⟩ | ⟨i, d, rfl, hret, hr⟩
      · rw [hr, ha]
        rcases apply_retired hm c with hk | ⟨ctx, -, hk⟩ | rfl
        · rw [hk]
          omega
        · rw [hk]
          cases hacc : (s.mem.conns c).acceptRef <;> cases hrc : (s.mem.conns c).retired <;>
            simp only [hacc, hrc] at hold ⊢ <;> simp at hold ⊢ <;> omega
        · rw [(hclean c rfl).1] at hold ⊢
          simp only [Bool.false_and, Bool.false_eq_true, if_false] at hold ⊢
          omega
      · exact absurd hop (hne i)
      · have hmi := tally_update (List.count c) s.mem.retiredConns i (d :: s.mem.retiredConns i)
        rw [← hr] at hmi
        have hconns : s'.mem.conns = _ := (congrArg Mem.conns (Option.some.inj hm)).symm.trans (storeFd_conns ..)
        rw [ha, hconns]
        by_cases hc : c = d
        · subst hc
          have hknown := hb.known_conn t c (Pos.conn_of_sees (hs.storeFd_sees rfl).1)
          have hacc : (s.mem.conns c).acceptRef = true := by
            rcases hknown with h | h
            · exact h
            · rw [hret] at h
              cases h
          rw [List.count_cons_self] at hmi
          simp only [hret, hacc, Function.update_self, Option.isSome_some, Bool.or_true, Bool.and_true,
            Bool.and_false, if_true, Bool.false_eq_true, if_false] at hold ⊢
          omega
        · rw [List.count_cons_of_ne (Ne.symm hc)] at hmi
          rw [Function.update_of_ne hc]
          omega
    · exact absurd hop (hne' c)
    · have hr : s'.mem.retiredConns = s.mem.retiredConns := by rw [← Option.some.inj hm]; rfl
      rw [(hclean c rfl).1] at hold
      rw [hr]
      simp only [Bool.false_and, Bool.false_eq_true, if_false] at hold
      omega

/-- Apart from `accept`, the same connections are known before and after a step. -/
theorem Base.known_iff (c : ℕ) (hne : op ≠ .accept c) : (s'.mem.conns c).Known ↔ (s.mem.conns c).Known := by
  obtain ⟨hs, hm, -⟩ := hv
  unfold Conn.Known
  rcases apply_acceptRef hm c with ha | ⟨rfl, ha⟩ | hop
  · rw [ha]
    rcases apply_retired hm c with hk | ⟨ctx, rfl, hk⟩ | hop
    · rw [hk]
    · have hknown := hb.known_conn t c (Pos.conn_of_sees (hs.storeFd_sees rfl).1)
      refine iff_of_true ?_ hknown
      rcases hknown with h | h
      · exact .inl h
      · exact .inr (by rw [hk, h]; rfl)
    · exact absurd hop hne
  · have hret := (hb.retired_of_drop hs).2
    rcases apply_retired hm c with hk | ⟨ctx, hop, -⟩ | hop
    · rw [hk]
      exact iff_of_true (.inr hret) (.inr hret)
    · cases hop
    · cases hop
  · exact absurd hop hne

theorem Base.known_step (c : ℕ) (hk : (s.mem.conns c).Known) : (s'.mem.conns c).Known := by
  by_cases hop : op = .accept c
  · subst hop
    exact .inl (by rw [apply_accept hv.mem]; rfl)
  · exact (hb.known_iff hv c hop).mpr hk

theorem Base.registered_step (c : ℕ) (hr : (s'.mem.conns c).registered = true) :
    (s'.mem.conns c).acceptRef = true ∧ (s'.mem.conns c).retired = false := by
  obtain ⟨hs, hm, -⟩ := hv
  by_cases hacc : op = .accept c
  · subst hacc
    rw [apply_accept hm]
    exact ⟨rfl, rfl⟩
  have hreg : (s.mem.conns c).registered = true := by
    rcases apply_registered hm c with hk | ⟨-, hk⟩ | hop
    · rwa [← hk]
    · rw [hk] at hr
      cases hr
    · exact absurd hop hacc
  obtain ⟨ha, hret⟩ := hb.registered c hreg
  constructor
  · rcases apply_acceptRef hm c with hk | ⟨rfl, -⟩ | hop
    · rwa [hk]
    · -- a connection whose reference is dropped is retired
      have hdrop := (hb.retired_of_drop hs).2
      rw [hret] at hdrop
      cases hdrop
    · exact absurd hop hacc
  · rcases apply_retired hm c with hk | ⟨ctx, rfl, -⟩ | hop
    · rwa [hk]
    · rw [hb.deleted t c (hs.storeFd_sees rfl).2] at hreg
      cases hreg
    · exact absurd hop hacc

theorem Base.known_conn_step (u : Thread nIo nW) (c : ℕ) (hc : (s'.pos u).conn = some c) :
    (s'.mem.conns c).Known := by
  apply hb.known_step hv
  by_cases hu : u = t
  · subst hu
    rw [hv.pos_self] at hc
    rcases hv.step.conn hc with hc | ⟨j, hj, rfl⟩ | ⟨i, hi⟩
    · exact hb.known_conn u c hc
    · exact hb.known_job u j hj
    · exact hb.known_event i c hi
  · rw [hv.pos_of_ne hu] at hc
    exact hb.known_conn u c hc

theorem Base.known_job_step (u : Thread nIo nW) (j : Job) (hj : (s'.pos u).job = some j) :
    (s'.mem.conns j.conn).Known := by
  apply hb.known_step hv
  by_cases hu : u = t
  · subst hu
    rw [hv.pos_self] at hj
    rcases hv.step.job hj with hj | hj
    · exact hb.known_job u j hj
    · exact hb.known_ring j hj
  · rw [hv.pos_of_ne hu] at hj
    exact hb.known_job u j hj

theorem Base.known_ring_step (j : Job) (hj : j ∈ s'.mem.jobRing) : (s'.mem.conns j.conn).Known := by
  apply hb.known_step hv
  rcases apply_jobRing hv.mem with hr | ⟨j', rfl, hr⟩ | ⟨-, hr⟩
  · exact hb.known_ring j (hr ▸ hj)
  · rw [hr, List.mem_append, List.mem_singleton] at hj
    rcases hj with hj | rfl
    · exact hb.known_ring j hj
    · exact hb.known_conn t j.conn (Pos.conn_of_owner hv.step.owner_of_enqueue)
  · exact hb.known_ring j (List.mem_of_mem_tail (hr ▸ hj))

theorem Base.known_event_step (i : Fin nIo) (c : ℕ) (hc : c ∈ connsOf (s'.mem.events i)) :
    (s'.mem.conns c).Known := by
  apply hb.known_step hv
  rcases mem_events hv.mem hc with hc | ⟨events, rfl, hc⟩
  · exact hb.known_event i c hc
  · exact .inl (hb.registered c (hv.step.registered_of_wait hc)).1

theorem Base.fd_step (c : ℕ) (hk : (s'.mem.conns c).Known) (hc : (s'.mem.conns c).closed = false) :
    (s'.mem.conns c).fdOpen = true := by
  by_cases hacc : op = .accept c
  · subst hacc
    rw [apply_accept hv.mem]
    rfl
  have hknown := (hb.known_iff hv c hacc).mp hk
  rcases apply_closed hv.mem c with hcl | rfl | hop
  · rw [hcl] at hc
    rcases apply_fdOpen hv.mem c with hfd | ⟨ctx, rfl, -⟩ | hop
    · rw [hfd]
      exact hb.fd c hknown hc
    · rw [hb.sees t c (hv.step.storeFd_sees rfl).1] at hc
      cases hc
    · exact absurd hop hacc
  · rw [← Option.some.inj hv.mem] at hc
    simp [ConnOp.apply] at hc
  · exact absurd hop hacc

theorem Base.closing_step (c : ℕ) (hc : (s'.mem.conns c).closed = true) (hfd : (s'.mem.conns c).fdOpen = true) :
    ∃ u, (s'.pos u).closing = some c := by
  rcases apply_closed hv.mem c with hcl | hop | rfl
  · rcases apply_fdOpen hv.mem c with hfo | ⟨ctx, -, hfo⟩ | rfl
    · rw [hcl] at hc
      rw [hfo] at hfd
      obtain ⟨u, hu⟩ := hb.closing c hc hfd
      refine ⟨u, ?_⟩
      by_cases hut : u = t
      · subst hut
        rw [hv.pos_self]
        rcases hv.step.closing hu with hp | ⟨ctx, rfl⟩
        · exact hp
        · have hfalse : (s'.mem.conns c).fdOpen = false := by
            rw [← Option.some.inj hv.mem, storeFd_conns, Function.update_self]
          rw [hfo, hfd] at hfalse
          cases hfalse
      · rw [hv.pos_of_ne hut, hu]
    · rw [hfo] at hfd
      cases hfd
    · rw [apply_accept hv.mem] at hc
      cases hc
  · exact ⟨t, by rw [hv.pos_self]; exact hv.step.closing_of_storeClosed hop⟩
  · rw [apply_accept hv.mem] at hc
    cases hc

omit hb in
/-- `closed` stays set as long as a thread uses the connection. -/
theorem closed_step (hclean : Clean s op) {u : Thread nIo nW} {c : ℕ} (hu : (s.pos u).conn = some c)
    (hc : (s.mem.conns c).closed = true) : (s'.mem.conns c).closed = true := by
  rcases apply_closed hv.mem c with hcl | rfl | hop
  · rwa [hcl]
  · rw [← Option.some.inj hv.mem]
    simp [ConnOp.apply]
  · exact absurd hu ((hclean c hop).2 u)

theorem Base.sees_step (hclean : Clean s op) (u : Thread nIo nW) (c : ℕ) (hc : (s'.pos u).sees = some c) :
    (s'.mem.conns c).closed = true := by
  by_cases hut : u = t
  · subst hut
    rw [hv.pos_self] at hc
    rcases hv.step.sees (hb.wf u) hc with hp | hop | ⟨hp, hcl⟩ | ⟨hp, hfd⟩
    · exact closed_step hv hclean (Pos.conn_of_sees hp) (hb.sees u c hp)
    · subst hop
      rw [← Option.some.inj hv.mem]
      simp [ConnOp.apply]
    · exact closed_step hv hclean hp hcl
    · refine closed_step hv hclean hp ?_
      by_contra hcl
      rw [hb.fd c (hb.known_conn u c hp) (eq_false_of_ne_true hcl)] at hfd
      cases hfd
  · rw [hv.pos_of_ne hut] at hc
    exact closed_step hv hclean (Pos.conn_of_sees hc) (hb.sees u c hc)

theorem Base.deleted_step (u : Thread nIo nW) (c : ℕ) (hclean : Clean s op) (hc : (s'.pos u).deleted = some c) :
    (s'.mem.conns c).registered = false := by
  by_cases hut : u = t
  · subst hut
    rw [hv.pos_self] at hc
    obtain rfl := hv.step.deleted hc
    rw [← Option.some.inj hv.mem]
    simp [ConnOp.apply]
  · rw [hv.pos_of_ne hut] at hc
    rcases apply_registered hv.mem c with hk | ⟨-, hk⟩ | hop
    · rw [hk, hb.deleted u c hc]
    · exact hk
    · exact absurd (Pos.conn_of_deleted hc) ((hclean c hop).2 u)

/-- Every step keeps the invariant, if `accept` gets an address that is not in use. -/
theorem Base.step (hclean : Clean s op) : Base s' where
  wf u := by
    by_cases hut : u = t
    · subst hut
      rw [hv.pos_self]
      exact hv.step.wf (hb.wf u)
    · rw [hv.pos_of_ne hut]
      exact hb.wf u
  owned := hb.owned_step hv hclean
  retired := hb.retired_step hv hclean
  known_conn := hb.known_conn_step hv
  known_job := hb.known_job_step hv
  known_ring := hb.known_ring_step hv
  known_event := hb.known_event_step hv
  registered := hb.registered_step hv
  deleted u c := hb.deleted_step hv u c hclean
  fd := hb.fd_step hv
  closing := hb.closing_step hv
  sees := hb.sees_step hv hclean

end base

end Rakaia.Pool
