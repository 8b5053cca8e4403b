import Rakaia.Sched.ExactlyOnce
import Rakaia.Worker.Engagement

/-! # Idle workers and late binding

A socket that is engaged in nothing is forgotten: no message can reach it any more.  A socket that is
engaged in two things has a message queued behind another one.  Neither can happen as long as no
mishap (a refused delivery, a failed `recvmsg` or `sendmsg`) and no surplus (an effect of a first
pull) does (`no_worker_forgotten`, `late_binding`); but each of them is enough to break the promise
(`worker_forgotten`, `message_behind_another`). -/

namespace Rakaia.Worker

open Lib
open Sched (Ksk numRakaiaSockets)

variable {s s' : State} {a : Act} {e es : List Event} {writeSeq : PsockPtr → UInt32}
  {G : State → Act → Prop}

/-! ### Runs of the server -/

/-- Workers follow their loop, and pushes start once all sockets exist. -/
def ServerLoop (s : State) (a : Act) : Prop :=
  a.own = true ∧ match a with
    | .sched b => Sched.CreatedFirst s.sched b
    | _ => True

instance (s : State) : (a : Act) → Decidable (ServerLoop s a)
  | .sched b => inferInstanceAs (Decidable ((Act.sched b).own = true ∧ Sched.CreatedFirst s.sched b))
  | .recvmsg .. | .sendmsg .. | .sent _ | .tx .. => isTrue ⟨rfl, trivial⟩

theorem loop_of_reach (hG : ∀ s a, G s a → a.own = true) (h : (machine writeSeq).Reach G s es) : Loop s :=
  h.invariant (P := fun s _ => Loop s) (loop_init writeSeq)
    (fun _ _ _ _ _ _ ih hg hs => loop_step (step_cases hs) (hG _ _ hg) ih)

theorem shift_of_reach (hG : ∀ s a, G s a → a.own = true) (h : (machine writeSeq).Reach G s es) (hg : G s a)
    (hs : step s a = some (s', e)) : Shift s a s' :=
  have hr := sched_of_reach h
  shift_of_step (step_cases hs) (hG _ _ hg) (loop_of_reach hG h) (Sched.waiters_of_reach hr)
    (Sched.queues_of_reach hr)

/-! ### No engagement is lost -/

/-- A socket whose creation returns is parked by it. -/
theorem created_of_step (hs : Step s a s' e) {i : Ksk} (h : Created s'.sched i) :
    Created s.sched i ∨ i ∈ s'.sched.kskWaiters := by
  cases hs with
  | sched b sc es _ hb =>
      cases Sched.step_cases hb with
      | createPlain hn _ =>
          have hne : i ≠ ⟨s.sched.socksCnt, hn⟩ := by
            rintro rfl
            simpa using h.2
          refine .inl ⟨?_, by simpa [hne] using h.2⟩
          exact lt_of_le_of_ne (Nat.lt_succ_iff.mp h.1) (fun hc => hne (Fin.ext hc))
      | createGrpc _ hv => cases hv
      | createRegister ksk _ =>
          by_cases hik : i = ksk
          · exact .inr (by simp [Sched.State.park, hik])
          · exact .inl ⟨h.1, by simpa [Sched.State.park, hik] using h.2⟩
      | pullTake t r b pc ksk j skb rest =>
          obtain ⟨-, -, h₃, h₄, -⟩ := Sched.afterTake_fields s.sched j rest
          exact .inl ⟨by simpa [h₄] using h.1, by simpa [h₃] using h.2⟩
      | _ => exact .inl h
  | _ => exact .inl h

/-- Every socket is engaged in something. -/
def Engaged (s : State) : Prop := ∀ i, Created s.sched i → Somewhere (seats s) i

theorem engaged_step (hs : Step s a s' e) (hm : mishap s a = false) (hsh : Shift s a s') (h : Engaged s) :
    Engaged s' := by
  intro i hi
  rcases created_of_step hs hi with hi | hi
  · have hi := h i hi
    cases hsh with
    | stay hst => rwa [hst]
    | move x k k' hmv => exact hi.move hmv
    | create x _ _ hen => exact hi.mono (hen.count_le i)
    | extra x k _ hen => exact hi.mono (hen.count_le i)
    | again x hx hen =>
        by_cases hix : i = x
        · exact ⟨.parked, hix ▸ hx⟩
        · exact hi.mono (fun k => (hen.count_of_ne hix k).le)
    | lost x k hmis _ => simp [hm] at hmis
  · exact ⟨.parked, hi⟩

theorem engaged_of_reach (hG : ∀ s a, G s a → a.own = true ∧ mishap s a = false)
    (h : (machine writeSeq).Reach G s es) : Engaged s :=
  h.invariant (P := fun s _ => Engaged s) (fun _ hi => absurd hi.1 (Nat.not_lt_zero _))
    (fun _ _ _ _ _ hr ih hg hs => engaged_step (step_cases hs) (hG _ _ hg).2
      (shift_of_reach (fun s a hg => (hG s a hg).1) hr hg hs) ih)

/-- A worker that waits with an empty queue, while no push, pull or delivery for its socket is in
progress. -/
structure IdleWorker (s : State) (i : Ksk) : Prop where
  waiting : s.pc i = .waiting
  empty : s.sched.receiveQ i = []
  noPush : ∀ p, i ∉ target (s.sched.push p)
  noPull : ∀ t, (s.sched.pull t).ksk? ≠ some i

/-! ### Runs to evaluate -/

/-- Worker 0 calls `rakaia_pull` for the first time, or makes three steps of a later call. -/
def pullActs : List Act := List.replicate 3 (.sched (.pull 0 0 Sched.ample))

/-- All sockets are created, worker 0 makes its first pull, and the parser of psock 1 produces a message
that is pushed to socket 0 and received. -/
def servingActs : List Act :=
  Sched.bootActs.map .sched ++ .sched (.pullStart 0 0) :: pullActs ++
    (Sched.handActs 0 0).map .sched ++ [.recvmsg 0 true]

/-- The rest of the loop: the answer is sent, and `rakaia_pull` parks the socket. -/
def answerActs : List Act :=
  .sendmsg 0 (some [28]) :: List.replicate 8 (.tx 1 (.run 0 0)) ++ .sent 0 :: pullActs

/-- What has to be computed to see that worker 0 is idle. -/
def look (s : State) : Bool × Bool :=
  (decide (s.pc 0 = .waiting) && (s.sched.receiveQ 0).isEmpty && decide (s.sched.nextId = 1) &&
    (s.sched.push 0).isIdle && (List.range numRakaiaSockets).all (fun t => (s.sched.pull t).isIdle),
    decide (0 ∈ s.sched.kskWaiters))

theorem idle_of_look (hG : ∀ s a, G s a → a.own = true) (h : (machine writeSeq).Reach G s es) {b : Bool}
    (hl : look s = (true, b)) : IdleWorker s 0 ∧ (0 ∈ s.sched.kskWaiters ↔ b = true) := by
  obtain ⟨hidle, hpark⟩ := Prod.mk.inj hl
  simp only [Bool.and_eq_true, decide_eq_true_eq, List.all_eq_true, List.mem_range, List.isEmpty_iff] at hidle
  obtain ⟨⟨⟨⟨hpc, hq⟩, hn⟩, hpush⟩, hpull⟩ := hidle
  have hqueues := Sched.queues_of_reach (sched_of_reach h)
  refine ⟨⟨hpc, hq, fun p => ?_, fun t => ?_⟩, by rw [← hpark, decide_eq_true_eq]⟩
  · have hp : s.sched.push p = .idle := by
      rcases Nat.eq_zero_or_pos p with rfl | hp
      · exact Sched.PushPc.eq_idle hpush
      · exact hqueues.fresh p (by omega)
    simp [hp, target]
  · have ht : s.sched.pull t = .idle := by
      rcases Nat.lt_or_ge t numRakaiaSockets with ht | ht
      · exact Sched.PullPc.eq_idle (hpull t ht)
      · exact (loop_of_reach hG h).others t ht
    simp [ht, Sched.PullPc.ksk?]

/-! ### No worker is forgotten -/

/-- **No worker is forgotten**, in every run without mishaps: an idle worker's socket is parked. -/
theorem no_worker_forgotten
    (h : (machine writeSeq).Reach (fun s a => ServerLoop s a ∧ mishap s a = false) s es) {i : Ksk}
    (hi : IdleWorker s i) : i ∈ s.sched.kskWaiters := by
  have hG : ∀ s a, ServerLoop s a ∧ mishap s a = false → a.own = true ∧ mishap s a = false :=
    fun s a hg => ⟨hg.1.1, hg.2⟩
  have hl := loop_of_reach (fun s a hg => hg.1.1) h
  obtain ⟨k, hk⟩ := engaged_of_reach hG h i (hl.created i (by simp [hi.waiting]))
  cases k with
  | parked => exact hk
  | push p => exact absurd hk (hi.noPush p)
  | queue j =>
      obtain ⟨hne, rfl⟩ := List.mem_replicate.mp hk
      simp [hi.empty] at hne
  | worker j =>
      simp only [seats] at hk
      split_ifs at hk with hb
      · obtain rfl := List.mem_singleton.mp hk
        rw [hi.waiting] at hb
        cases hb
      · cases hk

theorem no_worker_forgotten_after_answer : ∃ s es,
    (machine (fun _ => 0)).Reach (fun s a => ServerLoop s a ∧ mishap s a = false) s es ∧
    IdleWorker s 0 ∧ 0 ∈ s.sched.kskWaiters := by
  obtain ⟨s, es, hr, hy⟩ := Machine.Reach.of_exec (M := machine (fun _ => 0))
    (G := fun s a => ServerLoop s a ∧ mishap s a = false)
    (g := fun s a => decide (ServerLoop s a ∧ mishap s a = false)) (servingActs ++ answerActs)
    (fun _ _ _ hg => of_decide_eq_true hg) (fun r => look r.1) (true, true) (by decide +kernel)
  have hidle := (idle_of_look (fun _ _ hg => hg.1.1) hr hy).1
  exact ⟨s, es, hr, hidle, no_worker_forgotten hr hidle⟩

/-- **A worker is forgotten**: it received a message, and its `sendmsg` fails.  It is idle, and no push
will find it. -/
theorem worker_forgotten : ∃ s es, (machine (fun _ => 0)).Reach ServerLoop s es ∧
    IdleWorker s 0 ∧ 0 ∉ s.sched.kskWaiters := by
  obtain ⟨s, es, hr, hy⟩ := Machine.Reach.of_exec (M := machine (fun _ => 0)) (G := ServerLoop)
    (g := fun s a => decide (ServerLoop s a)) (servingActs ++ [.sendmsg 0 none])
    (fun _ _ _ hg => of_decide_eq_true hg) (fun r => look r.1) (true, false) (by decide +kernel)
  obtain ⟨hidle, hpark⟩ := idle_of_look (fun _ _ hg => hg.1) hr hy
  exact ⟨s, es, hr, hidle, fun hm => absurd (hpark.mp hm) (by decide)⟩

/-! ### No engagement is doubled -/

theorem created_keep (hs : Step s a s' e) {i : Ksk} (h : Created s.sched i) : Created s'.sched i := by
  cases hs with
  | sched b sc es _ hb => exact created_mono (Sched.step_cases hb) h
  | _ => exact h

/-- Every socket is engaged in at most one thing, and in nothing before its creation returns. -/
structure Bound (s : State) : Prop where
  once : ∀ i, AtMostOnce (seats s) i
  fresh : ∀ i, ¬ Created s.sched i → ∀ k, i ∉ seats s k

theorem bound_init : Bound (State.init writeSeq) := by
  have hnone : ∀ i k, i ∉ seats (State.init writeSeq) k := by
    intro i k
    cases k <;> simp [seats, State.init, Sched.State.init, target, Pc.busy]
  exact ⟨fun i => atMostOnce_of_notMem (hnone i), fun i _ => hnone i⟩

theorem bound_step (hs : Step s a s' e) (hsu : surplus s a = false) (hsh : Shift s a s') (h : Bound s) :
    Bound s' := by
  have hfresh : ∀ i, ¬ Created s'.sched i → ∀ k, i ∉ seats s k :=
    fun i hi => h.fresh i (fun hc => hi (created_keep hs hc))
  -- an engagement that is given up
  have hdrop : ∀ {x : Ksk} {k : Seat}, Entered (seats s') (seats s) x k → Bound s' := by
    intro x k hen
    refine ⟨fun i => (h.once i).anti (hen.count_le i), fun i hi j hm => hfresh i hi j ?_⟩
    exact List.count_pos_iff.mp (lt_of_lt_of_le (List.count_pos_iff.mpr hm) (hen.count_le i j))
  cases hsh with
  | stay hst => exact ⟨by rw [hst]; exact h.once, by rw [hst]; exact hfresh⟩
  | move x k k' hmv =>
      refine ⟨fun i => (h.once i).move hmv, fun i hi j => ?_⟩
      have hne : i ≠ x := by
        rintro rfl
        exact hfresh i hi k (hmv.src.mem_iff.mpr List.mem_cons_self)
      exact hmv.notMem_of_ne hne (hfresh i hi j)
  | create x hx hx' hen =>
      refine ⟨fun i => ?_, fun i hi j => ?_⟩
      · by_cases hix : i = x
        · rw [hix]
          exact .of_entered (h.fresh x hx) hen
        · exact (h.once i).anti (fun k => (hen.count_of_ne hix k).le)
      · have hne : i ≠ x := by
          rintro rfl
          exact hi hx'
        exact hen.notMem_of_ne hne (hfresh i hi j)
  | extra x k hx _ => simp [hsu] at hx
  | again x _ hen => exact hdrop hen
  | lost x k _ hen => exact hdrop hen

theorem bound_of_reach (hG : ∀ s a, G s a → a.own = true ∧ surplus s a = false)
    (h : (machine writeSeq).Reach G s es) : Bound s :=
  h.invariant (P := fun s _ => Bound s) bound_init
    (fun _ _ _ _ _ hr ih hg hs => bound_step (step_cases hs) (hG _ _ hg).2
      (shift_of_reach (fun s a hg => (hG s a hg).1) hr hg hs) ih)

/-- The worker has received a message and not yet answered it. -/
def Pc.answering : Pc → Bool
  | .serving | .sending _ => true
  | _ => false

/-- **Late binding**, in every run in which no first pull has an effect: a socket has at most one
message, and none while it is parked. -/
theorem late_binding
    (h : (machine writeSeq).Reach (fun s a => ServerLoop s a ∧ surplus s a = false) s es) (i : Ksk) :
    (s.sched.receiveQ i).length + (if (s.pc i).answering then 1 else 0) ≤ 1 ∧
    (i ∈ s.sched.kskWaiters → s.sched.receiveQ i = []) := by
  have hb := (bound_of_reach (fun s a hg => ⟨hg.1.1, hg.2⟩) h).once i
  have hone : (s.sched.receiveQ i).length ≤ 1 := by simpa [seats] using hb.count_le (.queue i)
  have hqueue : s.sched.receiveQ i ≠ [] → i ∈ seats s (.queue i) := by
    intro hne
    exact List.mem_replicate.mpr ⟨by simpa using hne, rfl⟩
  refine ⟨?_, fun hp => ?_⟩
  · split_ifs with hans
    · have hbusy : i ∈ seats s (.worker i) := by
        unfold Pc.answering at hans
        unfold seats
        split at hans <;> simp_all [Pc.busy]
      have hnil : s.sched.receiveQ i = [] := by
        by_contra hne
        cases hb.unique _ _ (hqueue hne) hbusy
      simp [hnil]
    · exact hone
  · by_contra hne
    cases hb.unique _ .parked (hqueue hne) hp

theorem late_binding_while_serving : ∃ s es,
    (machine (fun _ => 0)).Reach (fun s a => ServerLoop s a ∧ surplus s a = false) s es ∧
    (s.pc 0).answering = true ∧ (s.sched.receiveQ 0).length = 0 := by
  obtain ⟨s, es, hr, hy⟩ := Machine.Reach.of_exec (M := machine (fun _ => 0))
    (G := fun s a => ServerLoop s a ∧ surplus s a = false)
    (g := fun s a => decide (ServerLoop s a ∧ surplus s a = false)) servingActs
    (fun _ _ _ hg => of_decide_eq_true hg) (fun r => (r.1.pc 0).answering) true (by decide +kernel)
  have hlen := (late_binding hr 0).1
  rw [if_pos hy] at hlen
  exact ⟨s, es, hr, hy, by omega⟩

/-- **A message queues behind another one.**  Socket 0 is parked by its creation, and a first message is
pushed to it; then its worker calls `rakaia_pull` for the first time, which parks the socket again; and
a second message is pushed to it. -/
theorem message_behind_another : ∃ s es,
    (machine (fun _ => 0)).Reach (fun s a => ServerLoop s a ∧ mishap s a = false) s es ∧
    (s.sched.receiveQ 0).length = 2 := by
  obtain ⟨s, es, hr, hy⟩ := Machine.Reach.of_exec (M := machine (fun _ => 0))
    (G := fun s a => ServerLoop s a ∧ mishap s a = false)
    (g := fun s a => decide (ServerLoop s a ∧ mishap s a = false))
    (Sched.bootActs.map .sched ++ (Sched.handActs 0 0).map .sched ++ .sched (.pullStart 0 0) :: pullActs ++
      (Sched.handActs 1 0).map .sched)
    (fun _ _ _ hg => of_decide_eq_true hg) (fun r => (r.1.sched.receiveQ 0).length) 2 (by decide +kernel)
  exact ⟨s, es, hr, hy⟩

/-! ### A startup that is safe -/

/-- The first push starts after the first pull of every worker has returned. -/
def PulledFirst (s : State) : Act → Prop
  | .sched (.pushStart ..) => ∀ i, s.pc i ≠ .start ∧ s.pc i ≠ .firstPull
  | _ => True

/-- Before the first push all sockets are parked; after it no worker is in its first pull. -/
structure Startup (s : State) : Prop where
  before : s.sched.nextId = 0 → ∀ i, Created s.sched i → i ∈ s.sched.kskWaiters
  after : 0 < s.sched.nextId → ∀ i, s.pc i ≠ .start ∧ s.pc i ≠ .firstPull

/-- Only a push unparks a socket. -/
theorem parked_keep (hs : Step s a s' e) (hidle : ∀ p, s.sched.push p = .idle) {i : Ksk}
    (h : i ∈ s.sched.kskWaiters) : i ∈ s'.sched.kskWaiters := by
  cases hs with
  | sched b sc es _ hb =>
      cases Sched.step_cases hb with
      | pushWaiter p b skb chosen ksk first rest hp => simp [hidle p] at hp
      | createRegister => exact List.mem_append_left _ h
      | pullRegister => exact List.mem_append_left _ h
      | pullTake t r b pc ksk j skb rest => simpa [(Sched.afterTake_fields s.sched j rest).1] using h
      | createGrpc _ hv => cases hv
      | _ => exact h
  | _ => exact h

/-- Only a push starts with a new message. -/
theorem nextId_step (hs : Step s a s' e) : s'.sched.nextId = s.sched.nextId ∨
    ∃ psock cb n r1 r2, a = .sched (.pushStart psock cb n r1 r2) := by
  cases hs with
  | sched b sc es _ hb =>
      cases Sched.step_cases hb with
      | pushStart psock cb n r1 r2 => exact .inr ⟨psock, cb, n, r1, r2, rfl⟩
      | pullTake t r b pc ksk j skb rest =>
          exact .inl (Sched.afterTake_fields s.sched j rest).2.2.2.2.2.2.2.2.1
      | _ => exact .inl rfl
  | _ => exact .inl rfl

/-- No worker goes back to its start. -/
theorem started_keep (hs : Step s a s' e) (h : ∀ i, s.pc i ≠ .start ∧ s.pc i ≠ .firstPull) (i : Ksk) :
    s'.pc i ≠ .start ∧ s'.pc i ≠ .firstPull := by
  have hupd : ∀ k pc, pc ≠ .start → pc ≠ .firstPull →
      Function.update s.pc k pc i ≠ .start ∧ Function.update s.pc k pc i ≠ .firstPull := fun k pc h₁ h₂ =>
    (Function.forall_update_iff s.pc (fun _ pc => pc ≠ .start ∧ pc ≠ .firstPull)).mpr
      ⟨⟨h₁, h₂⟩, fun j _ => h j⟩ i
  cases hs with
  | sched b sc es hm _ =>
      cases b with
      | pullStart t ksk =>
          simp only [State.mayRun, decide_eq_true_eq] at hm
          have hne : t ≠ ksk.val := by
            rintro rfl
            exact hm.elim (fun hc => (h ksk).1 hc.2) (fun hc => absurd ksk.isLt (not_lt.mpr hc))
          simp only [State.pcAfter, if_neg hne]
          exact h i
      | pull t r b =>
          simp only [State.pcAfter]
          split_ifs
          · exact hupd _ .waiting (by simp) (by simp)
          · exact h i
          · exact h i
      | _ => exact h i
  | tx => exact h i
  | _ => exact hupd _ _ (by simp) (by simp)

theorem startup_step (hs : Step s a s' e) (hg : PulledFirst s a) (hq : Sched.Queues s.sched)
    (h : Startup s) : Startup s' := by
  rcases nextId_step hs with hn | ⟨psock, cb, n, r1, r2, rfl⟩
  · refine ⟨fun h0 i hi => ?_, fun hpos => started_keep hs (h.after (hn ▸ hpos))⟩
    have h0 : s.sched.nextId = 0 := hn ▸ h0
    rcases created_of_step hs hi with hi | hi
    · exact parked_keep hs (fun p => hq.fresh p (by omega)) (h.before h0 i hi)
    · exact hi
  · refine ⟨fun h0 => ?_, fun _ => started_keep hs hg⟩
    cases hs with
    | sched b sc es _ hb =>
        cases Sched.step_cases hb with
        | pushStart => cases h0

theorem startup_of_reach (hG : ∀ s a, G s a → PulledFirst s a) (h : (machine writeSeq).Reach G s es) :
    Startup s :=
  h.invariant (P := fun s _ => Startup s)
    ⟨fun _ _ hi => absurd hi.1 (Nat.not_lt_zero _), fun hc => absurd hc (Nat.lt_irrefl 0)⟩
    (fun _ _ _ _ _ hr ih hg hs => startup_step (step_cases hs) (hG _ _ hg)
      (Sched.queues_of_reach (sched_of_reach hr)) ih)

/-- Before the first push there is no message to take, and the socket is parked. -/
theorem surplus_of_startup (hl : Loop s) (hw : Sched.Waiters s.sched)
    (hled : Sched.Ledger s.sched (schedEvents es)) (h : Startup s) : surplus s a = false := by
  unfold surplus
  split
  · rename_i t _ _
    have hfirst : 0 < s.sched.nextId → ∀ k, s.pc k ≠ .firstPull := fun hn k => (h.after hn k).2
    split
    · rename_i ksk skb hp
      have hmem : skb.id ∈ Sched.ids s.sched (schedEvents es) (.pull t) := by
        simp [Sched.ids, Sched.whereabouts, hp, Sched.PullPc.hand]
      simpa using hfirst (Nat.zero_lt_of_lt (hled.lt_nextId hmem)) ksk
    · rename_i ksk hp
      rcases Nat.eq_zero_or_pos s.sched.nextId with h0 | hpos
      · by_cases hpc : s.pc ksk = .firstPull
        · have hpark := h.before h0 ksk (hl.created ksk (by simp [hpc]))
          simp [(hw.mem_iff ksk).mp hpark]
        · simp [hpc]
      · simp [hfirst hpos ksk]
    · rfl
  · rfl

/-- **A safe startup**: if every worker has made its first pull before the first push, then no worker
ever has two engagements. -/
theorem bound_of_pulledFirst
    (h : (machine writeSeq).Reach (fun s a => ServerLoop s a ∧ PulledFirst s a) s es) : Bound s := by
  refine bound_of_reach (G := fun s a => a.own = true ∧ surplus s a = false) (fun _ _ hg => hg) (h.mono ?_)
  intro s es a hr hg
  have hsc := sched_of_reach hr
  exact ⟨hg.1.1, surplus_of_startup (loop_of_reach (fun s a hg => hg.1.1) hr) (Sched.waiters_of_reach hsc)
    (Sched.ledger_of_reach hsc) (startup_of_reach (fun s a hg => hg.2) hr)⟩

end Rakaia.Worker
