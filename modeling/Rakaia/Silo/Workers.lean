import Rakaia.Lib.Machine
import Rakaia.Lib.Tally

/-! # The workers of the Go Silo server

`startSiloWorkers` starts one goroutine for each worker; a worker that is free is in the channel
`freeWorkers`.  `SendEcho` receives a worker from the channel, sends it a job, and waits until the worker
closes the `done` channel of the job; each of the three is a `select` with `ctx.Done()`.  A worker executes
its job, closes `done` and sends itself to `freeWorkers` again.

The second `select` of `SendEcho` loses the worker: when the context is done, the handler returns and
nobody has the worker any more.  `conserved_of_reach` says where workers are in every run, these losses
included; without a context that is done at that point there are none (`workers_kept`).

A channel operation is one atomic step.  `freeWorkers` has room for all workers, and `w.jobs` has no
buffer, so a job is handed over when the worker waits for it.  There are any number of workers, and of
calls at the same time. -/

namespace Rakaia.Silo

open Lib

/-! ### States -/

/-- The code of a gRPC status. -/
inductive Code where
  | deadlineExceeded
deriving DecidableEq, Repr

/-- `status.Error`. -/
structure Status where
  code : Code
  message : String
deriving DecidableEq, Repr

/-- What `SendEcho` returns: an error, or the message of the request. -/
inductive Reply where
  | error (status : Status)
  | echo (message : String)
deriving DecidableEq, Repr

/-- Where the goroutine of a worker stands. -/
inductive WorkerPos where
  /-- In `dcsl_init_worker`. -/
  | init
  /-- About to send itself to `freeWorkers` for the first time. -/
  | markFree
  /-- In the head of the loop, waiting for a job. -/
  | rangeJobs
  /-- In `dcsl_exec_rd_trans`. -/
  | exec (job : ℕ)
  /-- About to close `job.done`. -/
  | closeDone (job : ℕ)
  /-- About to send itself to `freeWorkers`. -/
  | returnFree
deriving DecidableEq, Repr

/-- Where a call of `SendEcho` stands. -/
inductive HandlerPos (W : ℕ) where
  /-- Not called, or returned. -/
  | idle
  /-- In the first `select`. -/
  | getWorker (message : String)
  /-- In the second `select`, with a worker. -/
  | sendJob (message : String) (w : Fin W) (job : ℕ)
  /-- In the third `select`. -/
  | waitDone (message : String) (job : ℕ)
deriving DecidableEq, Repr

/-- The server with `W` workers and room for `N` calls at a time. -/
structure State (N W : ℕ) where
  freeWorkers : List (Fin W)
  worker : Fin W → WorkerPos
  handler : Fin N → HandlerPos W
  /-- The context of the call is done. -/
  ctxDone : Fin N → Bool
  /-- The jobs whose `done` channel is closed. -/
  closed : List ℕ
  /-- The number of jobs made so far. -/
  jobs : ℕ

def State.start (N W : ℕ) : State N W := ⟨[], fun _ => .init, fun _ => .idle, fun _ => false, [], 0⟩

inductive Event (N W : ℕ) where
  | returned (h : Fin N) (reply : Reply)
  /-- A handler returns with a worker in its hands. -/
  | dropped (w : Fin W)
deriving DecidableEq

/-! ### Steps -/

inductive Act (N W : ℕ) where
  /-- The next step of a worker. -/
  | worker (w : Fin W)
  /-- `SendEcho` is called, with a context that is not done yet. -/
  | call (h : Fin N) (message : String)
  /-- The context of a call is cancelled, or its deadline passes. -/
  | cancel (h : Fin N)
  /-- The `select` in which a call stands takes its first case. -/
  | proceed (h : Fin N)
  /-- The `select` in which a call stands takes the case of `ctx.Done()`. -/
  | giveUp (h : Fin N)

section step

variable {N W : ℕ} (s : State N W)

@[simp] def State.setWorker (w : Fin W) (p : WorkerPos) : State N W :=
  { s with worker := Function.update s.worker w p }

@[simp] def State.setHandler (h : Fin N) (p : HandlerPos W) : State N W :=
  { s with handler := Function.update s.handler h p }

/-- `freeWorkers <- w`, which waits while the channel is full. -/
def sendFree (w : Fin W) : Option (State N W) :=
  if s.freeWorkers.length < W then
    some (({ s with freeWorkers := s.freeWorkers ++ [w] } : State N W).setWorker w .rangeJobs)
  else none

/-- The goroutine of a worker; it waits at the head of the loop until a handler gives it a job. -/
def workerStep (w : Fin W) : Option (State N W) :=
  match s.worker w with
  | .init => some (s.setWorker w .markFree)
  | .markFree => sendFree s w
  | .rangeJobs => none
  | .exec job => some (s.setWorker w (.closeDone job))
  | .closeDone job => some (({ s with closed := job :: s.closed } : State N W).setWorker w .returnFree)
  | .returnFree => sendFree s w

def returns (h : Fin N) (reply : Reply) : State N W × List (Event N W) :=
  (s.setHandler h .idle, [.returned h reply])

def gaveUp (h : Fin N) (text : String) : State N W × List (Event N W) :=
  returns s h (.error ⟨.deadlineExceeded, text⟩)

/-- The first cases of the three `select` statements. -/
def proceedStep (h : Fin N) : Option (State N W × List (Event N W)) :=
  match s.handler h with
  | .idle => none
  | .getWorker message =>
      match s.freeWorkers with
      | [] => none
      | w :: rest =>
          some (({ s with freeWorkers := rest, jobs := s.jobs + 1 } : State N W).setHandler h
            (.sendJob message w s.jobs), [])
  | .sendJob message w job =>
      if s.worker w = .rangeJobs then
        some ((s.setWorker w (.exec job)).setHandler h (.waitDone message job), [])
      else none
  | .waitDone message job => if job ∈ s.closed then some (returns s h (.echo message)) else none

/-- The cases of `ctx.Done()`. -/
def giveUpStep (h : Fin N) : Option (State N W × List (Event N W)) :=
  if s.ctxDone h then
    match s.handler h with
    | .idle => none
    | .getWorker _ => some (gaveUp s h "no free Silo worker")
    | .sendJob _ w _ =>
        some ((gaveUp s h "enqueue cancelled").1, (gaveUp s h "enqueue cancelled").2 ++ [.dropped w])
    | .waitDone _ _ => some (gaveUp s h "execution cancelled")
  else none

def step : Act N W → Option (State N W × List (Event N W))
  | .worker w => (workerStep s w).map (fun s' => (s', []))
  | .call h message =>
      if s.handler h = .idle then
        some (({ s with ctxDone := Function.update s.ctxDone h false } : State N W).setHandler h
          (.getWorker message), [])
      else none
  | .cancel h => some ({ s with ctxDone := Function.update s.ctxDone h true }, [])
  | .proceed h => proceedStep s h
  | .giveUp h => giveUpStep s h

end step

def machine (N W : ℕ) : Machine (State N W) (Act N W) (Event N W) := ⟨State.start N W, step⟩

/-! ### Where a worker is -/

/-- The worker has not been in `freeWorkers` yet. -/
def WorkerPos.fresh : WorkerPos → ℕ
  | .init | .markFree => 1
  | _ => 0

/-- The worker has a job, after which it goes back to `freeWorkers`. -/
def WorkerPos.busy : WorkerPos → ℕ
  | .exec _ | .closeDone _ | .returnFree => 1
  | _ => 0

@[simp] theorem WorkerPos.fresh_rangeJobs : WorkerPos.rangeJobs.fresh = 0 := rfl

@[simp] theorem WorkerPos.busy_rangeJobs : WorkerPos.rangeJobs.busy = 0 := rfl

@[simp] theorem WorkerPos.fresh_exec (job : ℕ) : (WorkerPos.exec job).fresh = 0 := rfl

@[simp] theorem WorkerPos.busy_exec (job : ℕ) : (WorkerPos.exec job).busy = 1 := rfl

theorem WorkerPos.eq_rangeJobs {p : WorkerPos} (hf : p.fresh = 0) (hb : p.busy = 0) : p = .rangeJobs := by
  cases p with
  | init | markFree => cases hf
  | exec | closeDone | returnFree => cases hb
  | rangeJobs => rfl

section places

variable {N W : ℕ} (s : State N W) (w : Fin W)

/-- A call has received the worker and will send it a job. -/
def HandlerPos.holds : HandlerPos W → ℕ
  | .sendJob _ w' _ => if w' = w then 1 else 0
  | _ => 0

/-- The number of calls that hold the worker. -/
def State.holders : ℕ := tally (HandlerPos.holds w) s.handler

def losses (es : List (Event N W)) : ℕ := es.count (.dropped w)

/-- The worker was marked as free. -/
def State.Initialised : Prop := (s.worker w).fresh = 0

/-- No call and no transaction is in progress. -/
def State.Idle : Prop := (∀ h, s.handler h = .idle) ∧ ∀ w, (s.worker w).busy = 0

/-- The worker is not in `freeWorkers` for the first time yet, or in `freeWorkers`, or held by a call, or
busy, or it was lost, and only one of these. -/
def Conserved (es : List (Event N W)) : Prop :=
  (s.worker w).fresh + s.freeWorkers.count w + s.holders w + (s.worker w).busy + losses w es = 1

end places

section invariant

variable {N W : ℕ} {s s' : State N W} {es e : List (Event N W)} {w v : Fin W} {h : Fin N}

/-- A worker that moves outside `freeWorkers`. -/
theorem Conserved.setWorker (hc : Conserved s v es) {p : WorkerPos}
    (hp : p.fresh + p.busy = (s.worker w).fresh + (s.worker w).busy) : Conserved (s.setWorker w p) v es := by
  unfold Conserved at hc ⊢
  by_cases hv : v = w
  · subst hv
    simp only [State.setWorker, Function.update_self, State.holders] at hc ⊢
    omega
  · simpa [State.setWorker, Function.update_of_ne hv, State.holders] using hc

theorem Conserved.sendFree (hc : Conserved s v es) (hs : Silo.sendFree s w = some s')
    (hw : (s.worker w).fresh + (s.worker w).busy = 1) : Conserved s' v es := by
  unfold Silo.sendFree at hs
  split_ifs at hs
  obtain rfl := Option.some.inj hs
  unfold Conserved at hc ⊢
  by_cases hv : v = w
  · subst hv
    simp only [State.setWorker, Function.update_self, State.holders, List.count_append,
      List.count_singleton_self, WorkerPos.fresh_rangeJobs, WorkerPos.busy_rangeJobs] at hc ⊢
    omega
  · have hne : (w == v) = false := beq_false_of_ne (Ne.symm hv)
    simpa [State.setWorker, Function.update_of_ne hv, State.holders, List.count_singleton, hne] using hc

theorem Conserved.workerStep (hc : Conserved s v es) (hs : Silo.workerStep s w = some s') :
    Conserved s' v es := by
  unfold Silo.workerStep at hs
  cases hw : s.worker w with
  | init =>
      rw [hw] at hs
      obtain rfl := Option.some.inj hs
      exact hc.setWorker (by rw [hw]; rfl)
  | markFree | returnFree =>
      rw [hw] at hs
      exact hc.sendFree hs (by rw [hw]; rfl)
  | rangeJobs => rw [hw] at hs; cases hs
  | exec job =>
      rw [hw] at hs
      obtain rfl := Option.some.inj hs
      exact hc.setWorker (by rw [hw]; rfl)
  | closeDone job =>
      rw [hw] at hs
      obtain rfl := Option.some.inj hs
      exact Conserved.setWorker (s := { s with closed := job :: s.closed }) hc (by simp only [hw]; rfl)

/-- A call that moves: what it holds before and after is what `freeWorkers`, the loop of a worker and the
losses get or give. -/
theorem holders_setHandler (s : State N W) (h : Fin N) (p : HandlerPos W) (v : Fin W) :
    (s.setHandler h p).holders v + (s.handler h).holds v = s.holders v + p.holds v :=
  tally_update _ _ _ _

theorem Conserved.setHandler (hc : Conserved s v es) {p : HandlerPos W}
    (hp : p.holds v = (s.handler h).holds v) : Conserved (s.setHandler h p) v es := by
  have hh := holders_setHandler s h p v
  unfold Conserved at hc ⊢
  simp only [State.setHandler] at hh ⊢
  omega

theorem Conserved.proceedStep (hc : Conserved s v es) (hs : Silo.proceedStep s h = some (s', e)) :
    Conserved s' v (es ++ e) := by
  unfold Silo.proceedStep at hs
  cases hh : s.handler h with
  | idle => rw [hh] at hs; cases hs
  | getWorker message =>
      rw [hh] at hs
      cases hf : s.freeWorkers with
      | nil => simp [hf] at hs
      | cons w rest =>
          simp only [hf, Option.some.injEq, Prod.mk.injEq] at hs
          obtain ⟨rfl, rfl⟩ := hs
          have hold := holders_setHandler { s with freeWorkers := rest, jobs := s.jobs + 1 } h
            (.sendJob message w s.jobs) v
          simp only [hh, State.holders, HandlerPos.holds, Nat.add_zero] at hold
          unfold Conserved at hc ⊢
          rw [hf, List.count_cons] at hc
          simp only [State.setHandler, State.holders, List.append_nil, beq_iff_eq] at hold hc ⊢
          omega
  | sendJob message w job =>
      rw [hh] at hs
      dsimp only at hs
      split_ifs at hs with hw
      obtain ⟨rfl, rfl⟩ := Prod.mk.inj (Option.some.inj hs)
      have hold := holders_setHandler (s.setWorker w (.exec job)) h (.waitDone message job) v
      simp only [State.setWorker, hh, HandlerPos.holds, State.holders] at hold
      unfold Conserved at hc ⊢
      by_cases hv : v = w
      · subst hv
        rw [hw] at hc
        simp only [State.setHandler, State.setWorker, Function.update_self, State.holders, List.append_nil,
          WorkerPos.fresh_rangeJobs, WorkerPos.busy_rangeJobs, WorkerPos.fresh_exec, WorkerPos.busy_exec,
          if_true] at hold hc ⊢
        omega
      · rw [if_neg (Ne.symm hv)] at hold
        simp only [State.setHandler, State.setWorker, Function.update_of_ne hv, State.holders,
          List.append_nil] at hold hc ⊢
        omega
  | waitDone message job =>
      rw [hh] at hs
      dsimp only at hs
      split_ifs at hs with hw
      obtain ⟨rfl, rfl⟩ := Prod.mk.inj (Option.some.inj hs)
      have hset := hc.setHandler (h := h) (p := .idle) (by rw [hh]; rfl)
      simpa [Conserved, losses, returns] using hset

/-- Giving up in the second `select` turns a worker that is held into one that is lost. -/
theorem Conserved.giveUpStep (hc : Conserved s v es) (hs : Silo.giveUpStep s h = some (s', e)) :
    Conserved s' v (es ++ e) := by
  unfold Silo.giveUpStep at hs
  split_ifs at hs with hd
  cases hh : s.handler h with
  | idle => rw [hh] at hs; cases hs
  | getWorker message | waitDone message job =>
      rw [hh] at hs
      obtain ⟨rfl, rfl⟩ := Prod.mk.inj (Option.some.inj hs)
      have hset := hc.setHandler (h := h) (p := .idle) (by rw [hh]; rfl)
      simpa [Conserved, losses, returns, gaveUp] using hset
  | sendJob message w job =>
      rw [hh] at hs
      obtain ⟨rfl, rfl⟩ := Prod.mk.inj (Option.some.inj hs)
      have hold := holders_setHandler s h .idle v
      have hlost : losses v (es ++ ((gaveUp s h "enqueue cancelled").2 ++ [.dropped w])) =
          losses v es + if w = v then 1 else 0 := by
        simp [losses, gaveUp, returns, List.count_cons]
      unfold Conserved at hc ⊢
      rw [hlost]
      simp only [hh, HandlerPos.holds, gaveUp, returns, State.setHandler] at hold ⊢
      omega

theorem Conserved.step {a : Act N W} (hc : Conserved s v es) (hs : Silo.step s a = some (s', e)) :
    Conserved s' v (es ++ e) := by
  cases a with
  | worker w =>
      obtain ⟨s₁, hs₁, he⟩ := Option.map_eq_some_iff.mp hs
      obtain ⟨rfl, rfl⟩ := Prod.mk.inj he
      rw [List.append_nil]
      exact hc.workerStep hs₁
  | call h message =>
      unfold Silo.step at hs
      dsimp only at hs
      split_ifs at hs with hh
      obtain ⟨rfl, rfl⟩ := Prod.mk.inj (Option.some.inj hs)
      rw [List.append_nil]
      exact Conserved.setHandler (s := { s with ctxDone := Function.update s.ctxDone h false }) hc
        (by simp only [hh]; rfl)
  | cancel h =>
      obtain ⟨rfl, rfl⟩ := Prod.mk.inj (Option.some.inj hs)
      rw [List.append_nil]
      exact hc
  | proceed h => exact hc.proceedStep hs
  | giveUp h => exact hc.giveUpStep hs

/-- In every run a worker is in one place, or was lost once. -/
theorem conserved_of_reach {G : State N W → Act N W → Prop} (hr : (machine N W).Reach G s es) (w : Fin W) :
    Conserved s w es := by
  refine hr.invariant (P := fun s es => Conserved s w es) ?_ ?_
  · have hzero : (machine N W).init.holders w = 0 := tally_eq_zero (fun _ => rfl)
    rw [Conserved, hzero]
    rfl
  · intro s es a s' e _ ih _ hs
    exact ih.step hs

/-! ### Contexts that are done in time -/

/-- The call stands in the first `select`. -/
def HandlerPos.receiving : HandlerPos W → Bool
  | .getWorker _ => true
  | _ => false

/-- The call stands in the second `select`. -/
def HandlerPos.sending : HandlerPos W → Bool
  | .sendJob _ _ _ => true
  | _ => false

/-- No context is done while its call stands between receiving a worker and sending it the job: it is not
done when the call receives the worker, and does not become so before the job is sent. -/
def Timely (s : State N W) : Act N W → Prop
  | .cancel h => (s.handler h).sending = false
  | .proceed h => (s.handler h).receiving = true → s.ctxDone h = false
  | _ => True

instance (s : State N W) : DecidablePred (Timely s)
  | .cancel _ => inferInstanceAs (Decidable (_ = _))
  | .proceed _ => inferInstanceAs (Decidable (_ → _))
  | .worker _ => isTrue trivial
  | .call _ _ => isTrue trivial
  | .giveUp _ => isTrue trivial

/-- A call that holds a worker has a context that is not done. -/
def Prompt (s : State N W) : Prop := ∀ h, (s.handler h).sending = true → s.ctxDone h = false

theorem Prompt.setHandler (hp : Prompt s) {p : HandlerPos W} (h' : p.sending = true → s.ctxDone h = false) :
    Prompt (s.setHandler h p) := by
  intro k hk
  by_cases hkh : k = h
  · subst hkh
    simp only [State.setHandler, Function.update_self] at hk
    exact h' hk
  · simp only [State.setHandler, Function.update_of_ne hkh] at hk
    exact hp k hk

theorem workerStep_calls (hs : workerStep s w = some s') :
    s'.handler = s.handler ∧ s'.ctxDone = s.ctxDone := by
  unfold workerStep sendFree at hs
  split at hs <;> (try split_ifs at hs) <;> cases hs <;> exact ⟨rfl, rfl⟩

theorem Prompt.workerStep (hp : Prompt s) (hs : Silo.workerStep s w = some s') : Prompt s' := by
  obtain ⟨hh, hd⟩ := workerStep_calls hs
  unfold Prompt
  rw [hh, hd]
  exact hp

theorem Prompt.step {a : Act N W} (hp : Prompt s) (hg : Timely s a) (hs : Silo.step s a = some (s', e)) :
    Prompt s' ∧ ∀ w, Event.dropped w ∉ e := by
  cases a with
  | worker w =>
      obtain ⟨s₁, hs₁, he⟩ := Option.map_eq_some_iff.mp hs
      obtain ⟨rfl, rfl⟩ := Prod.mk.inj he
      exact ⟨hp.workerStep hs₁, by simp⟩
  | call h message =>
      unfold Silo.step at hs
      dsimp only at hs
      split_ifs at hs with hh
      obtain ⟨rfl, rfl⟩ := Prod.mk.inj (Option.some.inj hs)
      refine ⟨Prompt.setHandler (s := { s with ctxDone := _ }) ?_ (by simp [HandlerPos.sending]), by simp⟩
      intro k hk
      by_cases hkh : k = h
      · simp [hkh]
      · simpa [hkh] using hp k hk
  | cancel h =>
      obtain ⟨rfl, rfl⟩ := Prod.mk.inj (Option.some.inj hs)
      refine ⟨fun k hk => ?_, by simp⟩
      have hkh : k ≠ h := by
        rintro rfl
        have hg : (s.handler k).sending = false := hg
        rw [hg] at hk
        cases hk
      simpa [hkh] using hp k hk
  | proceed h =>
      unfold Silo.step Silo.proceedStep at hs
      dsimp only at hs
      cases hh : s.handler h with
      | idle => rw [hh] at hs; cases hs
      | getWorker message =>
          rw [hh] at hs
          cases hf : s.freeWorkers with
          | nil => simp [hf] at hs
          | cons w rest =>
              simp only [hf, Option.some.injEq, Prod.mk.injEq] at hs
              obtain ⟨rfl, rfl⟩ := hs
              have hctx : s.ctxDone h = false := hg (by rw [hh]; rfl)
              exact ⟨Prompt.setHandler (s := { s with freeWorkers := _, jobs := _ }) hp (fun _ => hctx), by simp⟩
      | sendJob message w job =>
          rw [hh] at hs
          dsimp only at hs
          split_ifs at hs with hw
          obtain ⟨rfl, rfl⟩ := Prod.mk.inj (Option.some.inj hs)
          exact ⟨Prompt.setHandler (s := s.setWorker w _) hp (by simp [HandlerPos.sending]), by simp⟩
      | waitDone message job =>
          rw [hh] at hs
          dsimp only at hs
          split_ifs at hs with hw
          obtain ⟨rfl, rfl⟩ := Prod.mk.inj (Option.some.inj hs)
          exact ⟨hp.setHandler (by simp [HandlerPos.sending]), by simp⟩
  | giveUp h =>
      unfold Silo.step Silo.giveUpStep at hs
      dsimp only at hs
      split_ifs at hs with hd
      cases hh : s.handler h with
      | idle => rw [hh] at hs; cases hs
      | getWorker message | waitDone message job =>
          rw [hh] at hs
          obtain ⟨rfl, rfl⟩ := Prod.mk.inj (Option.some.inj hs)
          exact ⟨hp.setHandler (by simp [HandlerPos.sending]), by simp⟩
      | sendJob message w job =>
          -- the context of a call that holds a worker is not done
          have hctx := hp h (by rw [hh]; rfl)
          rw [hd] at hctx
          cases hctx

theorem prompt_of_reach (hr : (machine N W).Reach Timely s es) : Prompt s ∧ ∀ w, losses w es = 0 := by
  refine hr.invariant (P := fun s es => Prompt s ∧ ∀ w, losses w es = 0) ⟨?_, fun _ => rfl⟩ ?_
  · intro h hh
    cases hh
  · intro s es a s' e _ ih hg hs
    obtain ⟨hp, hd⟩ := ih.1.step hg hs
    refine ⟨hp, fun w => ?_⟩
    rw [losses, List.count_append, List.count_eq_zero_of_not_mem (hd w)]
    exact ih.2 w

/-! ### The main result -/

/-- Every worker is accounted for. -/
structure Kept (s : State N W) : Prop where
  /-- It is in one of three places. -/
  accounted : ∀ w, s.Initialised w → s.freeWorkers.count w + s.holders w + (s.worker w).busy = 1
  /-- A call that holds a worker will send it a job: its context is not done, and the worker waits. -/
  sends : ∀ h message w job, s.handler h = .sendJob message w job →
    s.ctxDone h = false ∧ s.worker w = .rangeJobs
  /-- A worker that is done with its job finds room in `freeWorkers`. -/
  room : ∀ w, s.worker w = .returnFree → s.freeWorkers.length < W
  /-- When nothing is in progress, all workers are free. -/
  free : s.Idle → ∀ w, s.Initialised w → w ∈ s.freeWorkers

theorem Kept.of_conserved (hc : ∀ w, Conserved s w es) (hp : Prompt s) (hl : ∀ w, losses w es = 0) : Kept s where
  accounted w hi := by
    have hw := hc w
    have hi : (s.worker w).fresh = 0 := hi
    rw [Conserved, hl w] at hw
    omega
  sends h message w job hh := by
    have hw := hc w
    have hholds : (s.handler h).holds w ≤ s.holders w := le_tally (HandlerPos.holds w) s.handler h
    simp only [hh, HandlerPos.holds, if_true] at hholds
    unfold Conserved at hw
    exact ⟨hp h (by rw [hh]; rfl), WorkerPos.eq_rangeJobs (by omega) (by omega)⟩
  room w hw := by
    have hnodup : (w :: s.freeWorkers).Nodup := by
      rw [List.nodup_iff_count_le_one]
      intro v
      have hv := hc v
      have hbusy : w = v → (s.worker v).busy = 1 := by
        rintro rfl
        rw [hw]
        rfl
      unfold Conserved at hv
      rw [List.count_cons]
      split_ifs with hwv
      · have := hbusy (beq_iff_eq.mp hwv)
        omega
      · omega
    have hlen := hnodup.length_le_card
    rw [List.length_cons, Fintype.card_fin] at hlen
    omega
  free hidle w hi := by
    have hw := hc w
    have hi : (s.worker w).fresh = 0 := hi
    have hzero : s.holders w = 0 := tally_eq_zero (fun h => by rw [hidle.1 h]; rfl)
    rw [Conserved, hl w, hi, hidle.2 w, hzero] at hw
    exact List.count_pos_iff.mp (by omega)

/-- **No worker is lost.**  In every run of the server, with any number of workers and calls, in which no
context is done while its call stands between receiving a worker and sending it the job: every initialised
worker is in `freeWorkers`, or held by a call that will send it a job, or busy and will find room in
`freeWorkers`, and in one of these only; and when nothing is in progress all of them are in `freeWorkers`. -/
theorem workers_kept (hr : (machine N W).Reach Timely s es) : Kept s :=
  .of_conserved (conserved_of_reach hr) (prompt_of_reach hr).1 (prompt_of_reach hr).2

/-- One worker, two calls: the first gets the worker and gives up while its job runs, the second waits and
gives up. -/
def givingUp (h h' : Fin 2) (w : Fin 1) : List (Act 2 1) :=
  [.worker w, .worker w, .call h "a", .call h' "b", .proceed h, .proceed h, .cancel h, .cancel h', .giveUp h,
    .giveUp h', .worker w, .worker w, .worker w]

/-- After two calls that gave up in time the worker is free. -/
theorem workers_kept_giving_up : ∃ s es, (machine 2 1).Reach Timely s es ∧
    es = [.returned 0 (.error ⟨.deadlineExceeded, "execution cancelled"⟩),
      .returned 1 (.error ⟨.deadlineExceeded, "no free Silo worker"⟩)] ∧ s.freeWorkers = [0] ∧ Kept s := by
  obtain ⟨s, es, hr, hy⟩ := Machine.Reach.of_exec (M := machine 2 1) (G := Timely)
    (g := fun s a => decide (Timely s a)) (givingUp 0 1 0) (fun _ _ _ => of_decide_eq_true)
    (fun r => (r.2, r.1.freeWorkers))
    ([.returned 0 (.error ⟨.deadlineExceeded, "execution cancelled"⟩),
      .returned 1 (.error ⟨.deadlineExceeded, "no free Silo worker"⟩)], [0]) (by decide +kernel)
  simp only [Prod.mk.injEq] at hy
  exact ⟨s, es, hr, hy.1, hy.2, workers_kept hr⟩

/-- A call whose context is done right after it got the only worker: the worker waits for a job that never
comes, nothing is in progress and `freeWorkers` is empty. -/
theorem worker_lost : ∃ s es, (machine 1 1).Reach (fun _ _ => True) s es ∧ s.Idle ∧ s.Initialised 0 ∧
    s.freeWorkers = [] ∧ ¬ Kept s := by
  obtain ⟨s, es, hr, hy⟩ := Machine.Reach.of_exec (M := machine 1 1) (G := fun _ _ => True)
    (g := fun _ _ => true) [.worker 0, .worker 0, .call 0 "a", .proceed 0, .cancel 0, .giveUp 0]
    (fun _ _ _ _ => trivial) (fun r => (r.1.handler 0, r.1.worker 0, r.1.freeWorkers))
    (.idle, .rangeJobs, []) (by decide +kernel)
  simp only [Prod.mk.injEq] at hy
  obtain ⟨hh, hw, hf⟩ := hy
  have hidle : s.Idle := by
    constructor
    · intro h
      rw [Subsingleton.elim h 0, hh]
    · intro w
      rw [Subsingleton.elim w 0, hw]
      rfl
  have hinit : s.Initialised 0 := by
    unfold State.Initialised
    rw [hw]
    rfl
  refine ⟨s, es, hr, hidle, hinit, hf, fun hk => ?_⟩
  have hmem := hk.free hidle 0 hinit
  rw [hf] at hmem
  cases hmem

end invariant

end Rakaia.Silo
