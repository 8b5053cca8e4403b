import Rakaia.Pool.Records

/-! # References to connections

`refcnt` counts the reference of `accept_new_connections`, one for each job, and one for each completion that
`release_response` has not come to (`references`).  A job hands its reference on to the completion of its
worker.

Ownership, the places of completions and references together are kept by every step (`Inv.step`), as long as
`accept` does not get the memory of a connection that is still in use (`Unused`).  With more than one I/O thread
it never does, since `release_retired_conns` then does not drop a reference (`Leaking`). -/

namespace Rakaia.Pool

open Lib

/-- The position holds the reference of a job. -/
def Pos.refersTo (c : ℕ) (p : Pos) : ℕ := if p.jobRef = some c then 1 else 0

theorem Pos.job_or_conn {p : Pos} {c : ℕ} (h : p.jobRef = some c) :
    (∃ j, p.job = some j ∧ j.conn = c) ∨ p.conn = some c := by
  cases p with
  | alloc j => exact .inl ⟨j, rfl, Option.some.inj h⟩
  | own m d p =>
      cases p with
      | retained id => exact .inr h
      | _ => cases h
  | _ => cases h

/-- The completion holds a reference. -/
def Completion.refersTo (c : ℕ) (x : Completion) : ℕ := if x.referring = true ∧ x.conn = c then 1 else 0

section references

variable {nIo nW : ℕ}

/-- The references to a connection: of `accept_new_connections`, of jobs in the ring and in the hands of
threads, and of completions. -/
def references (s : State nIo nW) (c : ℕ) : ℕ :=
  (s.mem.conns c).acceptRef.toNat + s.mem.jobRing.countP (fun j => j.conn == c) +
    tally (Pos.refersTo c) s.pos + total (Finset.range s.mem.brk) (Completion.refersTo c) s.mem.completions

/-- `refcnt` counts the references. -/
def Counted (s : State nIo nW) : Prop := ∀ c, (s.mem.conns c).refcnt = references s c

/-- Operations that hand a reference of a job on. -/
def Op.passes : Op nIo nW → Bool
  | .conn _ .retain | .enqueue _ | .dequeue | .takeLocal _ _ _ | .malloc _ _ => true
  | _ => false

variable {m m' : Mem nIo nW} {t : Thread nIo nW} {p p' : Pos} {op : Op nIo nW} {c : ℕ}

theorem Step.jobRef (h : Step m t p op p') (hop : op.passes = false) : p'.jobRef = p.jobRef := by
  cases h with
  | @acquire _ k => cases k <;> rfl
  | @signal _ k c => rw [(k.outside_target t c).jobRef]; rfl
  | @lose _ k c => rw [(k.outside_loser t c).jobRef]; rfl
  | @afterIdle _ _ c | @releaseHup _ c => rw [(outside_finish t c).jobRef]; rfl
  | staleEnd => rw [(outside_finish t 0).jobRef]; rfl
  | _ => first | rfl | cases hop

variable {s s' : State nIo nW}

/-- An operation that neither makes nor drops a reference. -/
theorem Counted.congr (h : Counted s) (hpos : s'.pos = Function.update s.pos t p)
    (hp : p.jobRef = (s.pos t).jobRef) (hr : (s'.mem.conns c).refcnt = (s.mem.conns c).refcnt)
    (ha : (s'.mem.conns c).acceptRef = (s.mem.conns c).acceptRef) (hj : s'.mem.jobRing = s.mem.jobRing)
    (hbrk : s'.mem.brk = s.mem.brk)
    (hx : ∀ a, (s'.mem.completions a).refersTo c = (s.mem.completions a).refersTo c) :
    (s'.mem.conns c).refcnt = references s' c := by
  have ht := tally_update (Pos.refersTo c) s.pos t p
  have hsame : p.refersTo c = (s.pos t).refersTo c := by unfold Pos.refersTo; rw [hp]
  have htotal : total (Finset.range s.mem.brk) (Completion.refersTo c) s'.mem.completions =
      total (Finset.range s.mem.brk) (Completion.refersTo c) s.mem.completions :=
    Finset.sum_congr rfl (fun a _ => hx a)
  rw [hr, h c]
  unfold references
  rw [ha, hj, hbrk, hpos, htotal]
  omega

/-- A thread without the reference of a job takes or gives one for `c`. -/
theorem tally_refersTo (s : State nIo nW) (t : Thread nIo nW) (p : Pos) (c : ℕ) :
    tally (Pos.refersTo c) (Function.update s.pos t p) + (s.pos t).refersTo c =
      tally (Pos.refersTo c) s.pos + p.refersTo c :=
  tally_update ..

theorem refersTo_some {p : Pos} {d : ℕ} (h : p.jobRef = some d) (c : ℕ) :
    p.refersTo c = if d = c then 1 else 0 := by
  simp [Pos.refersTo, h]

theorem refersTo_none {p : Pos} (h : p.jobRef = none) (c : ℕ) : p.refersTo c = 0 := by
  simp [Pos.refersTo, h]

theorem Counted.retain (h : Counted s) {d : ℕ} (hv : Moves s s' t (.conn d .retain) p) : Counted s' := by
  intro c
  obtain ⟨hs, hm, hpos⟩ := hv
  have ht := tally_refersTo s t p c
  have hold := h c
  obtain ⟨hnone, hsome⟩ : (s.pos t).jobRef = none ∧ p.jobRef = some d := by
    generalize s.pos t = q at hs
    cases hs
    exact ⟨rfl, rfl⟩
  rw [refersTo_none hnone, refersTo_some hsome] at ht
  unfold references at hold ⊢
  rw [hpos, ← Option.some.inj hm]
  by_cases hc : c = d
  · subst hc
    simp only [Mem.setConn, Function.update_self, ConnOp.apply, if_true] at ht ⊢
    omega
  · simp only [Mem.setConn, Function.update_of_ne hc, if_neg (Ne.symm hc)] at ht ⊢
    omega

theorem Counted.enqueue (h : Counted s) {j : Job} (hv : Moves s s' t (.enqueue j) p) : Counted s' := by
  intro c
  obtain ⟨hs, hm, hpos⟩ := hv
  have ht := tally_refersTo s t p c
  have hold := h c
  obtain ⟨hsome, hnone⟩ : (s.pos t).jobRef = some j.conn ∧ p.jobRef = none := by
    generalize s.pos t = q at hs
    cases hs
    exact ⟨rfl, rfl⟩
  rw [refersTo_none hnone, refersTo_some hsome] at ht
  unfold references at hold ⊢
  rw [hpos, ← Option.some.inj hm]
  simp only [List.countP_append, List.countP_singleton, beq_iff_eq]
  omega

theorem Counted.dequeue (h : Counted s) (hv : Moves s s' t .dequeue p) : Counted s' := by
  intro c
  obtain ⟨hs, hm, hpos⟩ := hv
  have ht := tally_refersTo s t p c
  have hold := h c
  obtain ⟨j, rest, hr, hnone, hsome⟩ : ∃ j rest, s.mem.jobRing = j :: rest ∧ (s.pos t).jobRef = none ∧
      p.jobRef = some j.conn := by
    generalize s.pos t = q at hs
    cases hs with
    | dequeue hr => exact ⟨_, _, hr, rfl, rfl⟩
  rw [refersTo_none hnone, refersTo_some hsome] at ht
  unfold references at hold ⊢
  rw [hr, List.countP_cons] at hold
  rw [hpos, ← Option.some.inj hm]
  simp only [hr, List.tail_cons, beq_iff_eq] at hold ⊢
  omega

theorem refersTo_fill (w : ℕ) (j : Job) (c : ℕ) :
    (Completion.fill w j).refersTo c = if j.conn = c then 1 else 0 := by
  simp [Completion.refersTo, Completion.fill]

/-- The completion that a worker fills takes over the reference of the job. -/
theorem Counted.fill (h : Counted s) {j : Job} (hpos : s'.pos = Function.update s.pos t p)
    (hsome : (s.pos t).jobRef = some j.conn) (hnone : p.jobRef = none) (hconns : s'.mem.conns = s.mem.conns)
    (hring : s'.mem.jobRing = s.mem.jobRing)
    (htotal : ∀ c, total (Finset.range s'.mem.brk) (Completion.refersTo c) s'.mem.completions =
      total (Finset.range s.mem.brk) (Completion.refersTo c) s.mem.completions + if j.conn = c then 1 else 0) :
    Counted s' := by
  intro c
  have ht := tally_refersTo s t p c
  have hold := h c
  rw [refersTo_none hnone, refersTo_some hsome] at ht
  unfold references at hold ⊢
  rw [hpos, hconns, hring, htotal]
  omega

theorem Counted.takeLocal (h : Counted s) {w : Fin nW} {a : ℕ} {j : Job} (ha : a < s.mem.brk)
    (hx : (s.mem.completions a).referring = false) (hv : Moves s s' t (.takeLocal w a j) p) : Counted s' := by
  obtain ⟨hs, hm, hpos⟩ := hv
  have hs' := (Option.some.inj hm).symm
  obtain ⟨hsome, hnone⟩ : (s.pos t).jobRef = some j.conn ∧ p.jobRef = none := by
    generalize s.pos t = q at hs
    cases hs
    exact ⟨rfl, rfl⟩
  refine h.fill hpos hsome hnone (by rw [hs']; rfl) (by rw [hs']; rfl) (fun c => ?_)
  have hupd := total_update (Finset.mem_range.mpr ha) (Completion.refersTo c) s.mem.completions (.fill w j)
  have hzero : (s.mem.completions a).refersTo c = 0 := by simp [Completion.refersTo, hx]
  rw [hzero, Nat.add_zero, refersTo_fill] at hupd
  rw [hs']
  exact hupd

theorem Counted.malloc (h : Counted s) {w : Fin nW} {j : Job} (hv : Moves s s' t (.malloc w j) p) :
    Counted s' := by
  obtain ⟨hs, hm, hpos⟩ := hv
  have hs' := (Option.some.inj hm).symm
  obtain ⟨hsome, hnone⟩ : (s.pos t).jobRef = some j.conn ∧ p.jobRef = none := by
    generalize s.pos t = q at hs
    cases hs
    exact ⟨rfl, rfl⟩
  refine h.fill hpos hsome hnone (by rw [hs']; rfl) (by rw [hs']; rfl) (fun c => ?_)
  rw [hs', ← refersTo_fill w]
  exact total_range_succ ..

theorem Counted.release (h : Counted s) {a : ℕ} (ha : a < s.mem.brk)
    (hx : (s.mem.completions a).referring = true) (hv : Moves s s' t (.release a) p) : Counted s' := by
  intro c
  obtain ⟨hs, hm, hpos⟩ := hv
  have ht := tally_refersTo s t p c
  have hold := h c
  have hp : p.refersTo c = (s.pos t).refersTo c := by unfold Pos.refersTo; rw [hs.jobRef rfl]
  have hupd := total_update (Finset.mem_range.mpr ha) (Completion.refersTo c) s.mem.completions
    { s.mem.completions a with referring := false }
  have hzero : Completion.refersTo c { s.mem.completions a with referring := false } = 0 := by
    simp [Completion.refersTo]
  have hone : (s.mem.completions a).refersTo c = if (s.mem.completions a).conn = c then 1 else 0 := by
    simp [Completion.refersTo, hx]
  rw [hzero, hone] at hupd
  unfold references at hold ⊢
  rw [hpos, ← Option.some.inj hm]
  by_cases hc : c = (s.mem.completions a).conn
  · subst hc
    simp only [Mem.setConn, Mem.setCompletion, Function.update_self, Conn.release, if_true] at hupd ⊢
    omega
  · simp only [Mem.setConn, Mem.setCompletion, Function.update_of_ne hc, if_neg (Ne.symm hc)] at hupd ⊢
    omega

theorem Counted.dropAccept (h : Counted s) {d : ℕ} (hd : (s.mem.conns d).acceptRef = true)
    (hv : Moves s s' t (.conn d .dropAccept) p) : Counted s' := by
  intro c
  obtain ⟨hs, hm, hpos⟩ := hv
  have ht := tally_refersTo s t p c
  have hold := h c
  have hp : p.refersTo c = (s.pos t).refersTo c := by unfold Pos.refersTo; rw [hs.jobRef rfl]
  unfold references at hold ⊢
  rw [hpos, ← Option.some.inj hm]
  by_cases hc : c = d
  · subst hc
    rw [hd, Bool.toNat_true] at hold
    simp only [Mem.setConn, Function.update_self, ConnOp.apply, Conn.release, Bool.toNat_false]
    omega
  · simp only [Mem.setConn, Function.update_of_ne hc]
    omega

theorem Counted.accept (h : Counted s) {d : ℕ} (hd : (s.mem.conns d).refcnt = 0)
    (hv : Moves s s' t (.accept d) p) : Counted s' := by
  intro c
  obtain ⟨hs, hm, hpos⟩ := hv
  have ht := tally_refersTo s t p c
  have hold := h c
  have hp : p.refersTo c = (s.pos t).refersTo c := by unfold Pos.refersTo; rw [hs.jobRef rfl]
  unfold references at hold ⊢
  rw [hpos, ← Option.some.inj hm]
  by_cases hc : c = d
  · subst hc
    simp only [Mem.setConn, Function.update_self, Conn.accepted, Bool.toNat_true]
    omega
  · simp only [Mem.setConn, Function.update_of_ne hc]
    omega

theorem apply_holders (hm : op.apply m = some m') (hpass : op.passes = false) (hrel : ∀ a, op ≠ .release a) :
    m'.jobRing = m.jobRing ∧ m'.brk = m.brk ∧
      ∀ a, (m'.completions a).refersTo c = (m.completions a).refersTo c := by
  cases op with
  | enqueue | dequeue | takeLocal | malloc => cases hpass
  | release a => exact absurd rfl (hrel a)
  | send d b n =>
      obtain rfl := Option.some.inj hm
      refine ⟨rfl, rfl, fun a => ?_⟩
      by_cases hab : a = b
      · subst hab
        simp [Completion.refersTo]
      · simp [hab]
  | storeFd d ctx =>
      obtain rfl := Option.some.inj hm
      cases ctx with
      | none => exact ⟨rfl, rfl, fun _ => rfl⟩
      | some i => simp only [Mem.storeFd]; split_ifs <;> exact ⟨rfl, rfl, fun _ => rfl⟩
  | drainInbox d =>
      obtain ⟨next, ends, rfl⟩ := drainInbox_eq hm
      exact ⟨rfl, rfl, fun _ => rfl⟩
  | popResponse d =>
      obtain ⟨a, -, rfl⟩ := popResponse_eq hm
      exact ⟨rfl, rfl, fun _ => rfl⟩
  | _ =>
      obtain rfl := Option.some.inj hm
      exact ⟨rfl, rfl, fun _ => rfl⟩

/-- Operations that neither make nor drop a reference, nor hand one on. -/
theorem Counted.quiet (h : Counted s) (hv : Moves s s' t op p) (hpass : op.passes = false)
    (hdrop : ∀ c, op ≠ .conn c .dropAccept) (hacc : ∀ c, op ≠ .accept c) (hrel : ∀ a, op ≠ .release a) :
    Counted s' := by
  intro c
  obtain ⟨hs, hm, hpos⟩ := hv
  have hrefcnt : (s'.mem.conns c).refcnt = (s.mem.conns c).refcnt := by
    rcases apply_conns hm c with hf | ⟨cop, rfl, hk⟩ | ⟨ctx, -, hk⟩ | ⟨hop, -⟩ | ⟨a, hop, -⟩
    · have heq := congrArg Conn.refcnt hf
      exact heq
    · rw [hk]
      cases cop with
      | retain => cases hpass
      | dropAccept => exact absurd rfl (hdrop c)
      | updateEvents want => exact updateConnEvents_field Conn.refcnt (fun _ _ _ => rfl) _ want
      | _ => rfl
    · rw [hk]
    · exact absurd hop (hacc c)
    · exact absurd hop (hrel a)
  have haccept : (s'.mem.conns c).acceptRef = (s.mem.conns c).acceptRef := by
    rcases apply_acceptRef hm c with hk | ⟨hop, -⟩ | hop
    · exact hk
    · exact absurd hop (hdrop c)
    · exact absurd hop (hacc c)
  obtain ⟨hring, hbrk, hx⟩ := apply_holders (c := c) hm hpass hrel
  exact h.congr hpos (hs.jobRef hpass) hrefcnt haccept hring hbrk hx

end references

/-! ### All together -/

section inv

variable {nIo nW : ℕ} {s s' : State nIo nW} {L : Place nIo nW → List ℕ} {t : Thread nIo nW} {op : Op nIo nW}
  {p : Pos}

/-- With more than one I/O thread the retired connections are never released, so no memory is freed. -/
structure Leaking (s : State nIo nW) : Prop where
  retiring : ∀ t, (s.pos t).retiringConns = []
  retired : ∀ c, (s.mem.conns c).retired = true → (s.mem.conns c).acceptRef = true
  referring : ∀ a, (s.mem.completions a).referring = true → (s.mem.conns (s.mem.completions a).conn).Known
  allocated : ∀ c, (s.mem.conns c).acceptRef = true → (s.mem.conns c).allocated = true

theorem Leaking.init (nIo nW : ℕ) : Leaking (State.init nIo nW) where
  retiring _ := rfl
  retired _ h := by cases h
  referring _ h := by cases h
  allocated _ h := by cases h

/-- The invariant of all runs in which no memory is used by two connections at once. -/
structure Inv (s : State nIo nW) (L : Place nIo nW → List ℕ) : Prop where
  base : Base s
  records : Records s.mem (fun t => (s.pos t).grip) L
  counted : Counted s
  leaking : 1 < nIo → Leaking s

theorem Inv.init (nIo nW : ℕ) : Inv (State.init nIo nW) (fun _ => []) where
  base := Base.init nIo nW
  records := Records.init nIo nW
  counted c := by
    have ht : tally (Pos.refersTo c) (State.init nIo nW).pos = 0 := tally_eq_zero (fun _ => rfl)
    unfold references
    rw [ht]
    rfl
  leaking _ := Leaking.init nIo nW

/-- No reference to the connection is left, and no thread uses it. -/
def Unreferenced (s : State nIo nW) (c : ℕ) : Prop :=
  (s.mem.conns c).refcnt = 0 ∧ ∀ t, (s.pos t).conn ≠ some c

/-- A completion that holds a reference is counted. -/
theorem Inv.refcnt_pos (h : Inv s L) {a c : ℕ} (ha : a < s.mem.brk) (href : (s.mem.completions a).referring = true)
    (hc : (s.mem.completions a).conn = c) : 0 < (s.mem.conns c).refcnt := by
  have hle := le_total (Finset.mem_range.mpr ha) (Completion.refersTo c) s.mem.completions
  have hone : (s.mem.completions a).refersTo c = 1 := by simp [Completion.refersTo, href, hc]
  have hcount := h.counted c
  unfold references at hcount
  omega

theorem Inv.lt_brk (h : Inv s L) {k : Place nIo nW} {a : ℕ} (ha : a ∈ L k) : a < s.mem.brk :=
  (h.records.stock.cover a).mpr (.inl ⟨k, ha⟩)

theorem Inv.held_lt_brk (h : Inv s L) {a : ℕ} (ha : (s.pos t).grip.held = some a) : a < s.mem.brk :=
  (h.records.stock.cover a).mpr (.inr ⟨t, ha⟩)

theorem Inv.acceptRef_of_refcnt (h : Inv s L) {c : ℕ} (hc : (s.mem.conns c).refcnt = 0) :
    (s.mem.conns c).acceptRef = false := by
  have hcount := h.counted c
  unfold references at hcount
  by_contra ha
  rw [eq_true_of_ne_false ha, Bool.toNat_true] at hcount
  omega

/-- A connection without references has no completions. -/
theorem Inv.lists_of_refcnt (h : Inv s L) {c : ℕ} (hc : (s.mem.conns c).refcnt = 0) :
    L (.inbox c) = [] ∧ L (.responses c) = [] := by
  constructor
  · rw [List.eq_nil_iff_forall_not_mem]
    intro a ha
    obtain ⟨hconn, href, -⟩ := h.records.place _ a ha
    have := h.refcnt_pos (h.lt_brk ha) href hconn
    omega
  · rw [List.eq_nil_iff_forall_not_mem]
    intro a ha
    obtain ⟨hconn, href, -⟩ := h.records.place _ a ha
    have := h.refcnt_pos (h.lt_brk ha) href hconn
    omega

/-- The completion that `release_response` has in its hands holds a reference. -/
theorem Inv.referring_of_release (h : Inv s L) {a : ℕ} (hv : Moves s s' t (.release a) p) :
    a < s.mem.brk ∧ (s.mem.completions a).referring = true := by
  obtain ⟨l, hl⟩ : ∃ l, s.pos t = .free l a .release := by
    have hs := hv.step
    generalize s.pos t = q at hs
    cases hs
    exact ⟨_, rfl⟩
  have hheld : (s.pos t).grip.held = some a := by rw [hl]; rfl
  have href := h.records.grip t a hheld
  rw [hl] at href
  exact ⟨h.held_lt_brk hheld, href⟩

theorem Inv.references_of_release (h : Inv s L) {a : ℕ} (hv : Moves s s' t (.release a) p) :
    (s.mem.conns (s.mem.completions a).conn).acceptRef.toNat + 1 ≤ references s (s.mem.completions a).conn := by
  obtain ⟨ha, href⟩ := h.referring_of_release hv
  have hle := le_total (Finset.mem_range.mpr ha) (Completion.refersTo (s.mem.completions a).conn) s.mem.completions
  have hone : (s.mem.completions a).refersTo (s.mem.completions a).conn = 1 := by simp [Completion.refersTo, href]
  unfold references
  omega

theorem Inv.counted_step (h : Inv s L) (hv : Moves s s' t op p)
    (hun : ∀ c, op = .accept c → Unreferenced s c) : Counted s' := by
  cases op with
  | conn c cop =>
      cases cop with
      | retain => exact h.counted.retain hv
      | dropAccept => exact h.counted.dropAccept (h.base.retired_of_drop hv.step).1 hv
      | _ => exact h.counted.quiet hv rfl (by simp) (by simp) (by simp)
  | accept c => exact h.counted.accept (hun c rfl).1 hv
  | enqueue j => exact h.counted.enqueue hv
  | dequeue => exact h.counted.dequeue hv
  | takeLocal w a j =>
      have hspare : s.mem.localCompletionCache w = some a := by
        have hs := hv.step
        generalize s.pos t = q at hs
        cases hs with
        | takeLocal ha => exact ha
      have hmem : a ∈ L (.spare w) := List.mem_of_mem_head? ((h.records.spare w).symm.trans hspare)
      exact h.counted.takeLocal (h.lt_brk hmem) (h.records.place _ a hmem) hv
  | malloc w j => exact h.counted.malloc hv
  | release a =>
      obtain ⟨ha, href⟩ := h.referring_of_release hv
      exact h.counted.release ha href hv
  | _ => exact h.counted.quiet hv rfl (by simp) (by simp) (by simp)

/-! ### More than one I/O thread -/

theorem Leaking.acceptRef_of_known (h : Leaking s) {c : ℕ} (hc : (s.mem.conns c).Known) :
    (s.mem.conns c).acceptRef = true := by
  rcases hc with hc | hc
  · exact hc
  · exact h.retired c hc

/-- Memory that is not allocated was never in use. -/
theorem Leaking.unreferenced (h : Leaking s) (hi : Inv s L) {c : ℕ} (hc : (s.mem.conns c).allocated = false) :
    Unreferenced s c := by
  have hacc : (s.mem.conns c).acceptRef = false := by
    by_contra ha
    rw [h.allocated c (eq_true_of_ne_false ha)] at hc
    cases hc
  have hknown : ¬ (s.mem.conns c).Known := fun hk => by
    rw [h.acceptRef_of_known hk] at hacc
    cases hacc
  have hring : s.mem.jobRing.countP (fun j => j.conn == c) = 0 := by
    rw [List.countP_eq_zero]
    intro j hj hjc
    exact hknown (beq_iff_eq.mp hjc ▸ hi.base.known_ring j hj)
  have hpos : tally (Pos.refersTo c) s.pos = 0 := by
    refine tally_eq_zero (fun t => ?_)
    unfold Pos.refersTo
    rw [if_neg]
    intro href
    rcases Pos.job_or_conn href with ⟨j, hj, rfl⟩ | hconn
    · exact hknown (hi.base.known_job t j hj)
    · exact hknown (hi.base.known_conn t c hconn)
  have htotal : total (Finset.range s.mem.brk) (Completion.refersTo c) s.mem.completions = 0 := by
    refine Finset.sum_eq_zero (fun a _ => ?_)
    unfold Completion.refersTo
    rw [if_neg]
    rintro ⟨href, rfl⟩
    exact hknown (h.referring a href)
  refine ⟨?_, fun t ht => hknown (hi.base.known_conn t c ht)⟩
  rw [hi.counted c, references, hacc, hring, hpos, htotal]
  rfl

theorem Leaking.ne_dropAccept (h : Leaking s) (hv : Moves s s' t op p) (c : ℕ) : op ≠ .conn c .dropAccept := by
  rintro rfl
  rcases hv.step.retiringConns with ⟨i, hop, -⟩ | ⟨d, -, hd⟩ | ⟨-, -, hne⟩
  · cases hop
  · rw [h.retiring t] at hd
    cases hd
  · exact hne c rfl

theorem acceptRef_step (hv : Moves s s' t op p) {c : ℕ} (hne : op ≠ .conn c .dropAccept)
    (hc : (s.mem.conns c).acceptRef = true) : (s'.mem.conns c).acceptRef = true := by
  rcases apply_acceptRef hv.mem c with ha | ⟨hop, -⟩ | rfl
  · rwa [ha]
  · exact absurd hop hne
  · rw [apply_accept hv.mem]
    rfl

theorem Leaking.retired_step (h : Leaking s) (hi : Inv s L) (hv : Moves s s' t op p) (c : ℕ)
    (hc : (s'.mem.conns c).retired = true) : (s'.mem.conns c).acceptRef = true := by
  rcases apply_retired hv.mem c with hr | ⟨ctx, hop, -⟩ | rfl
  · exact acceptRef_step hv (h.ne_dropAccept hv c) (h.retired c (hr ▸ hc))
  · have hknown := hi.base.known_conn t c (Pos.conn_of_sees (hv.step.storeFd_sees hop).1)
    exact acceptRef_step hv (h.ne_dropAccept hv c) (h.acceptRef_of_known hknown)
  · rw [apply_accept hv.mem]
    rfl

/-- The job of a completion that is filled is one of the worker. -/
theorem Step.job_of_fill {m : Mem nIo nW} {q : Pos} {w : Fin nW} {j : Job}
    (h : Step m t q op p) (hop : (∃ a, op = .takeLocal w a j) ∨ op = .malloc w j) : q.job = some j := by
  cases h with
  | takeLocal =>
      obtain ⟨a, hop⟩ | hop := hop
      · cases hop
        rfl
      · cases hop
  | malloc =>
      obtain ⟨a, hop⟩ | hop := hop
      · cases hop
      · cases hop
        rfl
  | _ => rcases hop with ⟨a, hop⟩ | hop <;> cases hop

theorem Leaking.referring_step (h : Leaking s) (hi : Inv s L) (hv : Moves s s' t op p) (a : ℕ)
    (href : (s'.mem.completions a).referring = true) : (s'.mem.conns (s'.mem.completions a).conn).Known := by
  apply hi.base.known_step hv
  rcases apply_completions hv.mem a with hx | ⟨w, j, hop, hx⟩ | ⟨c, n, -, hx⟩ | ⟨-, hx⟩
  · rw [hx] at href ⊢
    exact h.referring a href
  · have hjob : (s.pos t).job = some j := by
      refine hv.step.job_of_fill (w := w) ?_
      rcases hop with hop | ⟨hop, -⟩
      · exact .inl ⟨a, hop⟩
      · exact .inr hop
    rw [hx]
    exact hi.base.known_job t j hjob
  · rw [hx] at href ⊢
    exact h.referring a href
  · rw [hx] at href
    cases href

/-- The reference of `accept_new_connections` keeps the memory. -/
theorem Leaking.allocated_step (h : Leaking s) (hi : Inv s L) (hv : Moves s s' t op p) (c : ℕ)
    (hc : (s'.mem.conns c).acceptRef = true) : (s'.mem.conns c).allocated = true := by
  rcases apply_allocated hv.mem c with ha | hop | rfl | ⟨a, rfl, hconn, hk⟩
  · rw [ha]
    rcases apply_acceptRef hv.mem c with hr | ⟨-, hr⟩ | rfl
    · exact h.allocated c (hr ▸ hc)
    · rw [hr] at hc
      cases hc
    · rw [← ha, apply_accept hv.mem]
      rfl
  · exact absurd hop (h.ne_dropAccept hv c)
  · rw [apply_accept hv.mem]
    rfl
  · have hacc : (s.mem.conns c).acceptRef = true := by
      rw [hk] at hc
      exact hc
    have hrefs := hi.references_of_release hv
    have hcount := hi.counted c
    rw [hconn, hacc, Bool.toNat_true] at hrefs
    have hne : (s.mem.conns c).refcnt - 1 ≠ 0 := by omega
    rw [hk, Conn.release, if_neg hne]
    exact h.allocated c hacc

theorem Leaking.step (h : Leaking s) (hi : Inv s L) (hv : Moves s s' t op p) (hIo : 1 < nIo) : Leaking s' where
  retiring u := by
    by_cases hu : u = t
    · subst hu
      rw [hv.pos_self]
      rcases hv.step.retiringConns with ⟨i, -, -, ⟨hone, -⟩ | hp⟩ | ⟨c, hop, -⟩ | ⟨hp, -, -⟩
      · exact absurd hIo hone
      · exact hp
      · exact absurd hop (h.ne_dropAccept hv c)
      · rw [hp]
        exact h.retiring u
    · rw [hv.pos_of_ne hu]
      exact h.retiring u
  retired := h.retired_step hi hv
  referring := h.referring_step hi hv
  allocated := h.allocated_step hi hv

/-! ### Steps and runs -/

/-- **One step** keeps ownership, the places of completions and the references, if the memory that `accept`
gets is not in use. -/
theorem Inv.step (h : Inv s L) (hv : Moves s s' t op p) (hun : ∀ c, op = .accept c → Unreferenced s c) :
    Inv s' (places s.mem t L op) where
  base := h.base.step hv (fun c hop => ⟨h.acceptRef_of_refcnt (hun c hop).1, (hun c hop).2⟩)
  records := by
    have hgrips : (fun u => (s'.pos u).grip) = Function.update (fun u => (s.pos u).grip) t p.grip := by
      rw [hv.pos]
      funext u
      by_cases hu : u = t
      · subst hu
        simp
      · simp [hu]
    rw [hgrips]
    exact h.records.step hv.step.handles hv.mem (fun c hop => h.lists_of_refcnt (hun c hop).1)
  counted := h.counted_step hv hun
  leaking hIo := (h.leaking hIo).step h hv hIo

/-- `accept` gets memory that no thread uses and that nothing refers to. -/
def Unused (s : State nIo nW) (a : Act nIo nW) : Prop :=
  match a.inp with
  | .accept c => Unreferenced s c
  | _ => True

instance (s : State nIo nW) (c : ℕ) : Decidable (Unreferenced s c) := inferInstanceAs (Decidable (_ ∧ _))

instance (s : State nIo nW) (a : Act nIo nW) : Decidable (Unused s a) :=
  match h : a.inp with
  | .accept c => decidable_of_iff (Unreferenced s c) (by simp [Unused, h])
  | .go | .wait _ | .noMore | .send _ | .request _ | .readsReturn | .readsClose => .isTrue (by simp [Unused, h])

theorem Step.of_accept {m : Mem nIo nW} {q : Pos} {c : ℕ} (h : Step m t q (.accept c) p) :
    ∃ i, (t = .inl i ∧ q = .accepting) ∧ (m.conns c).allocated = false := by
  cases h with
  | accept ha => exact ⟨_, ⟨rfl, rfl⟩, ha⟩

theorem inp_of_accept {m : Mem nIo nW} {q : Pos} {inp : Input} {c : ℕ}
    (h : run m t q inp = some (.accept c, p)) : inp = .accept c := by
  obtain ⟨i, ⟨rfl, rfl⟩, -⟩ := (run_cases h).of_accept
  cases inp with
  | accept d =>
      simp only [run, runIo] at h
      split_ifs at h
      cases h
      rfl
  | _ => cases h

/-- `accept` gets no memory that is still in use, if there is one I/O thread. -/
def Fresh (s : State nIo nW) (a : Act nIo nW) : Prop := nIo = 1 → Unused s a

instance (s : State nIo nW) (a : Act nIo nW) : Decidable (Fresh s a) := inferInstanceAs (Decidable (_ → _))

/-- The guard, for the operation of a step. -/
theorem Fresh.unreferenced {a : Act nIo nW} (hg : Fresh s a) (hi : Inv s L)
    (hr : run s.mem a.t (s.pos a.t) a.inp = some (op, p)) (c : ℕ) (hop : op = .accept c) : Unreferenced s c := by
  subst hop
  by_cases hone : nIo = 1
  · have hun := hg hone
    rw [Unused, inp_of_accept hr] at hun
    exact hun
  · obtain ⟨i, -, halloc⟩ := (run_cases hr).of_accept
    have := i.isLt
    exact (hi.leaking (by omega)).unreferenced hi halloc

end inv

end Rakaia.Pool
