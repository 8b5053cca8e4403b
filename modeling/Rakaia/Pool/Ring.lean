import Mathlib.Data.Nat.ModEq
import Rakaia.Lib.Machine
import Rakaia.Lib.Tally
import Rakaia.Lib.Ticket

/-! # The job ring of the thread-pool server

`job_ring_push` claims a position by `fetch_add` on `head`, waits until the sequence number of its cell is
the position, writes the job and stores `pos + 1`.  `job_ring_pop_wait` takes one unit from the semaphore,
claims a position by `fetch_add` on `tail`, waits for `pos + 1`, copies the job out and stores
`pos + capacity`.  Any number of threads do both at the same time; each atomic operation and each copy of
a job is one step.

With two or more cells a sequence number tells a free cell from a full one, because `pos` and `pos + 1`
are in different cells.  A thread that has seen its number keeps the cell until it stores the next one
(`Standing`), and so the ring is a queue (`fifo`).  With a single cell this fails: the number that
says "position 0 is written" also says "free for position 1".

`head` and `tail` do not wrap around. -/

namespace Rakaia.Pool.Ring

open Lib

/-! ### States and steps -/

/-- Where a thread stands in `job_ring_push` or `job_ring_pop_wait`. -/
inductive Pos (J : Type) where
  | idle
  /-- About to claim a position on `head`. -/
  | pushClaim (job : J)
  /-- About to load the sequence number of the cell. -/
  | pushSpin (job : J) (pos : ℕ)
  /-- About to write the job. -/
  | write (job : J) (pos : ℕ)
  /-- About to store `pos + 1`. -/
  | publish (job : J) (pos : ℕ)
  /-- About to call `sem_post`. -/
  | post
  /-- In `sem_wait`. -/
  | wait
  /-- About to claim a position on `tail`. -/
  | popClaim
  | popSpin (pos : ℕ)
  /-- About to copy the job. -/
  | copy (pos : ℕ)
  /-- About to store `pos + capacity`. -/
  | release (job : J) (pos : ℕ)
deriving DecidableEq

def Pos.isIdle {J : Type} : Pos J → Bool
  | .idle => true
  | _ => false

/-- `struct job_ring`, and the positions of `N` threads. -/
structure State (J : Type) (N : ℕ) where
  head : ℕ
  tail : ℕ
  sem : ℕ
  seq : ℕ → ℕ
  cells : ℕ → J
  pos : Fin N → Pos J

inductive Event (J : Type) (N : ℕ) where
  | claimed (t : Fin N) (pos : ℕ) (job : J)
  | wrote (t : Fin N) (pos : ℕ) (job : J)
  | published (t : Fin N) (pos : ℕ)
  /-- `job_ring_push` returns. -/
  | pushed (t : Fin N)
  | popClaimed (t : Fin N) (pos : ℕ)
  | copied (t : Fin N) (pos : ℕ) (job : J)
  /-- `job_ring_pop_wait` returns. -/
  | popped (t : Fin N) (pos : ℕ) (job : J)
deriving DecidableEq

inductive Act (J : Type) (N : ℕ) where
  /-- `job_ring_push` is called. -/
  | push (t : Fin N) (job : J)
  /-- `job_ring_pop_wait` is called. -/
  | pop (t : Fin N)
  /-- The next step of a thread. -/
  | run (t : Fin N)

/-- `RING_CAPACITY`, a power of two. -/
def capacity (k : ℕ) : ℕ := 2 ^ k

def mask (k : ℕ) : ℕ := capacity k - 1

/-- The cell of a position. -/
def slot (k pos : ℕ) : ℕ := pos &&& mask k

section step

variable {J : Type} {N : ℕ} (k : ℕ) (s : State J N) (t : Fin N)

@[simp] def State.setPos (p : Pos J) : State J N := { s with pos := Function.update s.pos t p }

@[simp] def State.setSeq (i v : ℕ) : State J N := { s with seq := Function.update s.seq i v }

/-- The next step of thread `t`. -/
def runStep : Option (State J N × List (Event J N)) :=
  match s.pos t with
  | .idle => none
  | .pushClaim job =>
      some (({ s with head := s.head + 1 } : State J N).setPos t (.pushSpin job s.head),
        [.claimed t s.head job])
  | .pushSpin job pos =>
      some (s.setPos t (if s.seq (slot k pos) = pos then .write job pos else .pushSpin job pos), [])
  | .write job pos =>
      some (({ s with cells := Function.update s.cells (slot k pos) job } : State J N).setPos t
        (.publish job pos), [.wrote t pos job])
  | .publish _ pos => some ((s.setSeq (slot k pos) (pos + 1)).setPos t .post, [.published t pos])
  | .post => some (({ s with sem := s.sem + 1 } : State J N).setPos t .idle, [.pushed t])
  | .wait => if 0 < s.sem then some (({ s with sem := s.sem - 1 } : State J N).setPos t .popClaim, []) else none
  | .popClaim =>
      some (({ s with tail := s.tail + 1 } : State J N).setPos t (.popSpin s.tail), [.popClaimed t s.tail])
  | .popSpin pos => some (s.setPos t (if s.seq (slot k pos) = pos + 1 then .copy pos else .popSpin pos), [])
  | .copy pos => some (s.setPos t (.release (s.cells (slot k pos)) pos), [.copied t pos (s.cells (slot k pos))])
  | .release job pos =>
      some ((s.setSeq (slot k pos) (pos + capacity k)).setPos t .idle, [.popped t pos job])

def step : Act J N → Option (State J N × List (Event J N))
  | .push t job => if (s.pos t).isIdle then some (s.setPos t (.pushClaim job), []) else none
  | .pop t => if (s.pos t).isIdle then some (s.setPos t .wait, []) else none
  | .run t => runStep k s t

end step

/-- The state after `job_ring_init`, with anything in the cells. -/
def State.init {J : Type} (N : ℕ) (cells : ℕ → J) : State J N := ⟨0, 0, 0, fun i => i, cells, fun _ => .idle⟩

def machine {J : Type} (N k : ℕ) (cells : ℕ → J) : Machine (State J N) (Act J N) (Event J N) :=
  ⟨State.init N cells, step k⟩

section ring

variable {J : Type} {N k : ℕ} {s s' : State J N} {e es : List (Event J N)} {t u : Fin N} {p q : ℕ} {job : J}

/-- What a step can do. -/
inductive Step (k : ℕ) (s : State J N) : State J N → List (Event J N) → Prop
  | call (t : Fin N) {x : Pos J} : s.pos t = .idle → (x = .wait ∨ ∃ job, x = .pushClaim job) →
      Step k s (s.setPos t x) []
  | pushClaim (t : Fin N) {job : J} : s.pos t = .pushClaim job →
      Step k s (({ s with head := s.head + 1 } : State J N).setPos t (.pushSpin job s.head))
        [.claimed t s.head job]
  | pushSpin (t : Fin N) {job : J} {p : ℕ} : s.pos t = .pushSpin job p → s.seq (slot k p) = p →
      Step k s (s.setPos t (.write job p)) []
  | write (t : Fin N) {job : J} {p : ℕ} : s.pos t = .write job p →
      Step k s (({ s with cells := Function.update s.cells (slot k p) job } : State J N).setPos t
        (.publish job p)) [.wrote t p job]
  | publish (t : Fin N) {job : J} {p : ℕ} : s.pos t = .publish job p →
      Step k s ((s.setSeq (slot k p) (p + 1)).setPos t .post) [.published t p]
  | post (t : Fin N) : s.pos t = .post →
      Step k s (({ s with sem := s.sem + 1 } : State J N).setPos t .idle) [.pushed t]
  | wait (t : Fin N) : s.pos t = .wait → 0 < s.sem →
      Step k s (({ s with sem := s.sem - 1 } : State J N).setPos t .popClaim) []
  | popClaim (t : Fin N) : s.pos t = .popClaim →
      Step k s (({ s with tail := s.tail + 1 } : State J N).setPos t (.popSpin s.tail)) [.popClaimed t s.tail]
  | popSpin (t : Fin N) {p : ℕ} : s.pos t = .popSpin p → s.seq (slot k p) = p + 1 →
      Step k s (s.setPos t (.copy p)) []
  | copy (t : Fin N) {p : ℕ} : s.pos t = .copy p →
      Step k s (s.setPos t (.release (s.cells (slot k p)) p)) [.copied t p (s.cells (slot k p))]
  | release (t : Fin N) {job : J} {p : ℕ} : s.pos t = .release job p →
      Step k s ((s.setSeq (slot k p) (p + capacity k)).setPos t .idle) [.popped t p job]
  /-- A load in a waiting loop that does not find the number. -/
  | spin : Step k s s []

theorem setPos_self (s : State J N) {t : Fin N} {x : Pos J} (h : s.pos t = x) : s.setPos t x = s := by
  subst h
  simp [State.setPos]

theorem runStep_cases (hs : runStep k s t = some (s', e)) : Step k s s' e := by
  unfold runStep at hs
  cases hp : s.pos t with
  | idle => rw [hp] at hs; cases hs
  | wait =>
      rw [hp] at hs
      dsimp only at hs
      split_ifs at hs with h
      obtain ⟨rfl, rfl⟩ := Prod.mk.inj (Option.some.inj hs)
      exact .wait t hp h
  | pushSpin job p =>
      rw [hp] at hs
      obtain ⟨rfl, rfl⟩ := Prod.mk.inj (Option.some.inj hs)
      split_ifs with h
      · exact .pushSpin t hp h
      · rw [setPos_self s hp]
        exact .spin
  | popSpin p =>
      rw [hp] at hs
      obtain ⟨rfl, rfl⟩ := Prod.mk.inj (Option.some.inj hs)
      split_ifs with h
      · exact .popSpin t hp h
      · rw [setPos_self s hp]
        exact .spin
  | pushClaim job => rw [hp] at hs; cases hs; exact .pushClaim t hp
  | write job p => rw [hp] at hs; cases hs; exact .write t hp
  | publish job p => rw [hp] at hs; cases hs; exact .publish t hp
  | post => rw [hp] at hs; cases hs; exact .post t hp
  | popClaim => rw [hp] at hs; cases hs; exact .popClaim t hp
  | copy p => rw [hp] at hs; cases hs; exact .copy t hp
  | release job p => rw [hp] at hs; cases hs; exact .release t hp

theorem isIdle_iff {x : Pos J} : x.isIdle = true ↔ x = .idle := by
  cases x <;> simp [Pos.isIdle]

theorem step_cases {a : Act J N} (hs : step k s a = some (s', e)) : Step k s s' e := by
  cases a with
  | push t job =>
      unfold step at hs
      dsimp only at hs
      split_ifs at hs with h
      obtain ⟨rfl, rfl⟩ := Prod.mk.inj (Option.some.inj hs)
      exact .call t (isIdle_iff.mp h) (.inr ⟨job, rfl⟩)
  | pop t =>
      unfold step at hs
      dsimp only at hs
      split_ifs at hs with h
      obtain ⟨rfl, rfl⟩ := Prod.mk.inj (Option.some.inj hs)
      exact .call t (isIdle_iff.mp h) (.inl rfl)
  | run t => exact runStep_cases hs

/-! ### Positions and the semaphore -/

/-- The position on `head` that a thread holds until it publishes it. -/
def Pos.pushing : Pos J → Option ℕ
  | .pushSpin _ p | .write _ p | .publish _ p => some p
  | _ => none

/-- The position on `tail` that a thread holds until `job_ring_pop_wait` returns. -/
def Pos.popping : Pos J → Option ℕ
  | .popSpin p | .copy p | .release _ p => some p
  | _ => none

/-- A unit of the semaphore that is taken and not used yet. -/
def Pos.unit : Pos J → ℕ
  | .popClaim => 1
  | _ => 0

/-- The positions claimed on `head`, in order of the claims. -/
def pushPositions (es : List (Event J N)) : List ℕ :=
  es.filterMap (fun
    | .claimed _ p _ => some p
    | _ => none)

def publishedPositions (es : List (Event J N)) : List ℕ :=
  es.filterMap (fun
    | .published _ p => some p
    | _ => none)

/-- The positions claimed on `tail`, in order of the claims. -/
def popPositions (es : List (Event J N)) : List ℕ :=
  es.filterMap (fun
    | .popClaimed _ p => some p
    | _ => none)

/-- The positions whose jobs were returned. -/
def poppedPositions (es : List (Event J N)) : List ℕ :=
  es.filterMap (fun
    | .popped _ p _ => some p
    | _ => none)

/-- The number of completed pushes. -/
def completed (es : List (Event J N)) : ℕ :=
  es.countP (fun
    | .pushed _ => true
    | _ => false)

/-- Positions are handed out in order and once, and every pop has its own push behind it. -/
structure Claims (s : State J N) (es : List (Event J N)) : Prop where
  push : Tickets Pos.pushing s.pos s.head (publishedPositions es)
  pop : Tickets Pos.popping s.pos s.tail (poppedPositions es)
  pushOrder : pushPositions es = List.range s.head
  popOrder : popPositions es = List.range s.tail
  units : s.sem + tally Pos.unit s.pos + s.tail = completed es

theorem claims_init (cells : ℕ → J) : Claims (State.init N cells) [] where
  push := .init (fun _ => rfl)
  pop := .init (fun _ => rfl)
  pushOrder := rfl
  popOrder := rfl
  units := by
    have hzero : tally Pos.unit (State.init N cells).pos = 0 := tally_eq_zero (fun _ => rfl)
    rw [hzero]
    rfl

theorem Claims.push_step (h : Claims s es) (hs : Step k s s' e) :
    Tickets Pos.pushing s'.pos s'.head (publishedPositions (es ++ e)) := by
  rw [publishedPositions, List.filterMap_append, ← publishedPositions]
  cases hs with
  | publish t hp => exact h.push.give (by rw [hp]; rfl) rfl
  | pushClaim t hp =>
      change Tickets _ _ _ (publishedPositions es ++ [])
      rw [List.append_nil]
      exact h.push.take rfl
  | call t hp hx =>
      rw [List.filterMap_nil, List.append_nil]
      rcases hx with rfl | ⟨job, rfl⟩ <;> exact h.push.move (by rw [hp]; rfl)
  | pushSpin t hp _ | wait t hp _ | popSpin t hp _ | write t hp | post t hp | popClaim t hp | copy t hp
  | release t hp =>
      change Tickets _ _ _ (publishedPositions es ++ [])
      rw [List.append_nil]
      exact h.push.move (by rw [hp]; rfl)
  | spin =>
      rw [List.filterMap_nil, List.append_nil]
      exact h.push

theorem Claims.pop_step (h : Claims s es) (hs : Step k s s' e) :
    Tickets Pos.popping s'.pos s'.tail (poppedPositions (es ++ e)) := by
  rw [poppedPositions, List.filterMap_append, ← poppedPositions]
  cases hs with
  | release t hp => exact h.pop.give (by rw [hp]; rfl) rfl
  | popClaim t hp =>
      change Tickets _ _ _ (poppedPositions es ++ [])
      rw [List.append_nil]
      exact h.pop.take rfl
  | call t hp hx =>
      rw [List.filterMap_nil, List.append_nil]
      rcases hx with rfl | ⟨job, rfl⟩ <;> exact h.pop.move (by rw [hp]; rfl)
  | pushSpin t hp _ | wait t hp _ | popSpin t hp _ | write t hp | post t hp | pushClaim t hp | copy t hp
  | publish t hp =>
      change Tickets _ _ _ (poppedPositions es ++ [])
      rw [List.append_nil]
      exact h.pop.move (by rw [hp]; rfl)
  | spin =>
      rw [List.filterMap_nil, List.append_nil]
      exact h.pop

/-- The tally of units when a thread moves. -/
theorem Claims.units_move (h : Claims s es) (t : Fin N) (x : Pos J) {n : ℕ}
    (hn : (s.pos t).unit + n = x.unit + completed es) :
    s.sem + tally Pos.unit (Function.update s.pos t x) + s.tail = n := by
  have hu := h.units
  have hmove := tally_update Pos.unit s.pos t x
  omega

theorem Claims.units_step (h : Claims s es) (hs : Step k s s' e) :
    s'.sem + tally Pos.unit s'.pos + s'.tail = completed (es ++ e) := by
  have hu := h.units
  rw [completed, List.countP_append, ← completed]
  cases hs with
  | call t hp hx => rcases hx with rfl | ⟨job, rfl⟩ <;> exact h.units_move t _ (by rw [hp]; rfl)
  | pushSpin t hp _ | popSpin t hp _ | write t hp | pushClaim t hp | copy t hp | publish t hp
  | release t hp => exact h.units_move t _ (by rw [hp]; rfl)
  | post t hp =>
      have hmove := h.units_move t .idle (n := completed es) (by rw [hp]; rfl)
      change s.sem + 1 + tally Pos.unit (Function.update s.pos t .idle) + s.tail = completed es + 1
      omega
  | wait t hp hsem =>
      have hmove := h.units_move t .popClaim (n := completed es + 1)
        (by rw [hp]; change 0 + (completed es + 1) = 1 + completed es; omega)
      change s.sem - 1 + tally Pos.unit (Function.update s.pos t .popClaim) + s.tail = completed es
      omega
  | popClaim t hp =>
      have hunit := le_tally Pos.unit s.pos t
      have hmove := tally_update Pos.unit s.pos t (.popSpin s.tail)
      rw [hp] at hunit hmove
      change s.sem + tally Pos.unit (Function.update s.pos t (.popSpin s.tail)) + (s.tail + 1) = completed es
      change tally Pos.unit (Function.update s.pos t (.popSpin s.tail)) + 1 = tally Pos.unit s.pos + 0 at hmove
      omega
  | spin => exact hu

theorem Claims.step (h : Claims s es) (hs : Step k s s' e) : Claims s' (es ++ e) where
  push := h.push_step hs
  pop := h.pop_step hs
  pushOrder := by
    have hold := h.pushOrder
    unfold pushPositions at hold ⊢
    rw [List.filterMap_append, hold]
    cases hs with
    | pushClaim t hp => exact List.range_succ.symm
    | _ => simp
  popOrder := by
    have hold := h.popOrder
    unfold popPositions at hold ⊢
    rw [List.filterMap_append, hold]
    cases hs with
    | popClaim t hp => exact List.range_succ.symm
    | _ => simp
  units := h.units_step hs

/-! ### Cells -/

theorem slot_eq (k p : ℕ) : slot k p = p % capacity k := Nat.and_two_pow_sub_one_eq_mod p k

theorem slot_add_capacity (k p : ℕ) : slot k (p + capacity k) = slot k p := by
  rw [slot_eq, slot_eq, Nat.add_mod_right]

/-- With two or more cells, a position and the next one are in different cells. -/
theorem slot_succ_ne (hk : 0 < k) (p : ℕ) : slot k (p + 1) ≠ slot k p := by
  intro h
  rw [slot_eq, slot_eq] at h
  have hdvd : capacity k ∣ p + 1 - p := (Nat.modEq_iff_dvd' (Nat.le_succ p)).mp h.symm
  have hle : capacity k ≤ 1 := Nat.le_of_dvd Nat.one_pos (by simpa using hdvd)
  have hlt : 1 < capacity k := Nat.one_lt_two_pow hk.ne'
  omega

/-- What holds where a thread stands. -/
def Standing (k : ℕ) (seq : ℕ → ℕ) (cells : ℕ → J) (es : List (Event J N)) (t : Fin N) : Pos J → Prop
  | .pushSpin job p => .claimed t p job ∈ es
  | .write job p => .claimed t p job ∈ es ∧ seq (slot k p) = p
  | .publish job p => .wrote t p job ∈ es ∧ seq (slot k p) = p ∧ cells (slot k p) = job
  | .popSpin p => .popClaimed t p ∈ es
  | .copy p => .popClaimed t p ∈ es ∧ seq (slot k p) = p + 1
  | .release job p => .copied t p job ∈ es ∧ seq (slot k p) = p + 1
  | _ => True

/-- What an event says about the history before it. -/
def Justified (k : ℕ) (es : List (Event J N)) : Event J N → Prop
  | .wrote t p job => .claimed t p job ∈ es ∧
      (capacity k ≤ p → ∃ u job', .copied u (p - capacity k) job' ∈ es)
  | .copied t p job => .popClaimed t p ∈ es ∧ ∃ u, .wrote u p job ∈ es
  | .popped t p job => .copied t p job ∈ es
  | _ => True

/-- What the sequence numbers say. -/
structure Cells (k : ℕ) (s : State J N) (es : List (Event J N)) : Prop where
  standing : ∀ t, Standing k s.seq s.cells es t (s.pos t)
  /-- A cell with the number `p + 1` holds the job of `p`. -/
  full : ∀ p, s.seq (slot k p) = p + 1 → ∃ t, .wrote t p (s.cells (slot k p)) ∈ es
  /-- A cell with the number `p` is free for `p`: the position one lap before was copied out. -/
  free : ∀ p, s.seq (slot k p) = p → capacity k ≤ p → ∃ t job, .copied t (p - capacity k) job ∈ es
  justified : ∀ x ∈ es, Justified k es x

theorem Standing.mono {seq : ℕ → ℕ} {cells : ℕ → J} {x : Pos J} (h : Standing k seq cells es t x)
    (e : List (Event J N)) : Standing k seq cells (es ++ e) t x := by
  cases x with
  | pushSpin | popSpin => exact List.mem_append_left _ h
  | write | publish | copy | release => exact ⟨List.mem_append_left _ h.1, h.2⟩
  | _ => trivial

/-- A thread keeps its standing when the number of another cell changes. -/
theorem Standing.setSeq {seq : ℕ → ℕ} {cells : ℕ → J} {x : Pos J} {i v : ℕ}
    (h : Standing k seq cells es t x) (hpush : ∀ p, x.pushing = some p → seq (slot k p) = p → slot k p ≠ i)
    (hpop : ∀ p, x.popping = some p → seq (slot k p) = p + 1 → slot k p ≠ i) :
    Standing k (Function.update seq i v) cells es t x := by
  cases x with
  | write job p => exact ⟨h.1, by rw [Function.update_of_ne (hpush p rfl h.2)]; exact h.2⟩
  | publish job p => exact ⟨h.1, by rw [Function.update_of_ne (hpush p rfl h.2.1)]; exact h.2.1, h.2.2⟩
  | copy p => exact ⟨h.1, by rw [Function.update_of_ne (hpop p rfl h.2)]; exact h.2⟩
  | release job p => exact ⟨h.1, by rw [Function.update_of_ne (hpop p rfl h.2)]; exact h.2⟩
  | _ => exact h

/-- A thread keeps its standing when another cell is written. -/
theorem Standing.setCell {seq : ℕ → ℕ} {cells : ℕ → J} {x : Pos J} {i : ℕ}
    (h : Standing k seq cells es t x) (hpush : ∀ p, x.pushing = some p → seq (slot k p) = p → slot k p ≠ i)
    (job : J) : Standing k seq (Function.update cells i job) es t x := by
  cases x with
  | publish job' p => exact ⟨h.1, h.2.1, by rw [Function.update_of_ne (hpush p rfl h.2.1)]; exact h.2.2⟩
  | _ => exact h

theorem standing_update {seq : ℕ → ℕ} {cells : ℕ → J} {pos : Fin N → Pos J} {x : Pos J}
    (hx : Standing k seq cells es t x) (h : ∀ u, u ≠ t → Standing k seq cells es u (pos u)) (u : Fin N) :
    Standing k seq cells es u (Function.update pos t x u) := by
  by_cases hu : u = t
  · subst hu
    rw [Function.update_self]
    exact hx
  · rw [Function.update_of_ne hu]
    exact h u hu

theorem Justified.mono {x : Event J N} (h : Justified k es x) (e : List (Event J N)) :
    Justified k (es ++ e) x := by
  cases x with
  | wrote t p job =>
      refine ⟨List.mem_append_left _ h.1, fun hp => ?_⟩
      obtain ⟨u, job', hu⟩ := h.2 hp
      exact ⟨u, job', List.mem_append_left _ hu⟩
  | copied t p job =>
      obtain ⟨hp, u, hu⟩ := h
      exact ⟨List.mem_append_left _ hp, u, List.mem_append_left _ hu⟩
  | popped => exact List.mem_append_left _ h
  | _ => trivial

theorem justified_append (h : ∀ x ∈ es, Justified k es x) (he : ∀ x ∈ e, Justified k es x) :
    ∀ x ∈ es ++ e, Justified k (es ++ e) x := by
  intro x hx
  rcases List.mem_append.mp hx with hx | hx
  · exact (h x hx).mono e
  · exact (he x hx).mono e

/-- A thread moves, and the cells stay as they are. -/
theorem Cells.move (h : Cells k s es) (hseq : s'.seq = s.seq) (hcells : s'.cells = s.cells) {x : Pos J}
    (hpos : s'.pos = Function.update s.pos t x) (hx : Standing k s.seq s.cells (es ++ e) t x)
    (he : ∀ y ∈ e, Justified k es y) : Cells k s' (es ++ e) where
  standing := by
    rw [hseq, hcells, hpos]
    exact standing_update hx (fun u _ => (h.standing u).mono e)
  full p hp := by
    rw [hseq] at hp
    obtain ⟨u, hu⟩ := h.full p hp
    rw [hcells]
    exact ⟨u, List.mem_append_left _ hu⟩
  free p hp hle := by
    rw [hseq] at hp
    obtain ⟨u, job, hu⟩ := h.free p hp hle
    exact ⟨u, job, List.mem_append_left _ hu⟩
  justified := justified_append h.justified he

/-- A push and a pop that have seen their numbers are not in the same cell: the numbers are `p` and
`q + 1`. -/
theorem slot_ne_of_seq (hk : 0 < k) {seq : ℕ → ℕ} (hp : seq (slot k p) = p) (hq : seq (slot k q) = q + 1) :
    slot k p ≠ slot k q := by
  intro h
  rw [h, hq] at hp
  rw [← hp] at h
  exact slot_succ_ne hk q h

/-- No other thread stands in the cell of a push that has seen its number. -/
theorem Claims.push_alone (hc : Claims s es) (ht : (s.pos t).pushing = some p) (hp : s.seq (slot k p) = p)
    (hu : u ≠ t) (q : ℕ) (hq : (s.pos u).pushing = some q) (hseq : s.seq (slot k q) = q) :
    slot k q ≠ slot k p := by
  intro h
  rw [h, hp] at hseq
  subst hseq
  exact hu (hc.push.unique u t p hq ht)

/-- No other pop stands in the cell of a pop that has seen its number. -/
theorem Claims.pop_alone (hc : Claims s es) (ht : (s.pos t).popping = some p) (hp : s.seq (slot k p) = p + 1)
    (hu : u ≠ t) (q : ℕ) (hq : (s.pos u).popping = some q) (hseq : s.seq (slot k q) = q + 1) :
    slot k q ≠ slot k p := by
  intro h
  rw [h, hp] at hseq
  obtain rfl := Nat.succ.inj hseq
  exact hu (hc.pop.unique u t p hq ht)

/-- The job is written into a cell that is free for its position. -/
theorem Cells.write (hk : 0 < k) (hc : Claims s es) (h : Cells k s es) (ht : s.pos t = .write job p) :
    Cells k (({ s with cells := Function.update s.cells (slot k p) job } : State J N).setPos t (.publish job p))
      (es ++ [.wrote t p job]) := by
  have hst := h.standing t
  rw [ht] at hst
  obtain ⟨hclaimed, hseq⟩ := hst
  constructor
  · refine standing_update ⟨by simp, hseq, Function.update_self ..⟩ (fun u hu => ?_)
    exact ((h.standing u).setCell (hc.push_alone (by rw [ht]; rfl) hseq hu) job).mono _
  · intro q hq
    obtain ⟨u, hu⟩ := h.full q hq
    have hne : slot k q ≠ slot k p := (slot_ne_of_seq hk hseq hq).symm
    refine ⟨u, List.mem_append_left _ ?_⟩
    simpa [Function.update_of_ne hne] using hu
  · intro q hq hle
    obtain ⟨u, job', hu⟩ := h.free q hq hle
    exact ⟨u, job', List.mem_append_left _ hu⟩
  · refine justified_append h.justified (fun x hx => ?_)
    obtain rfl := List.mem_singleton.mp hx
    exact ⟨hclaimed, h.free p hseq⟩

/-- The number `p + 1` is stored behind the job. -/
theorem Cells.publish (hk : 0 < k) (hc : Claims s es) (h : Cells k s es) (ht : s.pos t = .publish job p) :
    Cells k ((s.setSeq (slot k p) (p + 1)).setPos t .post) (es ++ [.published t p]) := by
  have hst := h.standing t
  rw [ht] at hst
  obtain ⟨hwrote, hseq, hcell⟩ := hst
  constructor
  · refine standing_update trivial (fun u hu => ?_)
    refine ((h.standing u).setSeq (hc.push_alone (by rw [ht]; rfl) hseq hu) ?_).mono _
    intro q _ hq
    exact (slot_ne_of_seq hk hseq hq).symm
  · intro q hq
    by_cases hne : slot k q = slot k p
    · simp only [State.setPos, State.setSeq, hne, Function.update_self] at hq
      obtain rfl := Nat.succ.inj hq
      refine ⟨t, List.mem_append_left _ ?_⟩
      rw [← hcell] at hwrote
      exact hwrote
    · simp only [State.setPos, State.setSeq, Function.update_of_ne hne] at hq
      obtain ⟨u, hu⟩ := h.full q hq
      exact ⟨u, List.mem_append_left _ hu⟩
  · intro q hq hle
    by_cases hne : slot k q = slot k p
    · simp only [State.setPos, State.setSeq, hne, Function.update_self] at hq
      rw [← hq] at hne
      exact absurd hne (slot_succ_ne hk p)
    · simp only [State.setPos, State.setSeq, Function.update_of_ne hne] at hq
      obtain ⟨u, job', hu⟩ := h.free q hq hle
      exact ⟨u, job', List.mem_append_left _ hu⟩
  · refine justified_append h.justified (fun x hx => ?_)
    obtain rfl := List.mem_singleton.mp hx
    trivial

/-- The number of the next lap is stored when the job was copied out. -/
theorem Cells.release (hk : 0 < k) (hc : Claims s es) (h : Cells k s es) (ht : s.pos t = .release job p) :
    Cells k ((s.setSeq (slot k p) (p + capacity k)).setPos t .idle) (es ++ [.popped t p job]) := by
  have hst := h.standing t
  rw [ht] at hst
  obtain ⟨hcopied, hseq⟩ := hst
  constructor
  · refine standing_update trivial (fun u hu => ?_)
    refine ((h.standing u).setSeq ?_ (hc.pop_alone (by rw [ht]; rfl) hseq hu)).mono _
    intro q _ hq
    exact slot_ne_of_seq hk hq hseq
  · intro q hq
    by_cases hne : slot k q = slot k p
    · simp only [State.setPos, State.setSeq, hne, Function.update_self] at hq
      have hlap := slot_add_capacity k p
      rw [hq, ← hne] at hlap
      exact absurd hlap (slot_succ_ne hk q)
    · simp only [State.setPos, State.setSeq, Function.update_of_ne hne] at hq
      obtain ⟨u, hu⟩ := h.full q hq
      exact ⟨u, List.mem_append_left _ hu⟩
  · intro q hq hle
    by_cases hne : slot k q = slot k p
    · simp only [State.setPos, State.setSeq, hne, Function.update_self] at hq
      subst hq
      rw [Nat.add_sub_cancel]
      exact ⟨t, job, List.mem_append_left _ hcopied⟩
    · simp only [State.setPos, State.setSeq, Function.update_of_ne hne] at hq
      obtain ⟨u, job', hu⟩ := h.free q hq hle
      exact ⟨u, job', List.mem_append_left _ hu⟩
  · refine justified_append h.justified (fun x hx => ?_)
    obtain rfl := List.mem_singleton.mp hx
    exact hcopied

theorem Cells.step (hk : 0 < k) (hc : Claims s es) (h : Cells k s es) (hs : Step k s s' e) :
    Cells k s' (es ++ e) := by
  cases hs with
  | call t hp hx =>
      refine h.move rfl rfl rfl ?_ (by simp)
      rcases hx with rfl | ⟨job, rfl⟩ <;> trivial
  | @pushClaim t job hp => exact h.move rfl rfl rfl (by simp [Standing]) (by simp [Justified])
  | @pushSpin t job p hp hseq =>
      have hst := h.standing t
      rw [hp] at hst
      exact h.move rfl rfl rfl ⟨List.mem_append_left _ hst, hseq⟩ (by simp)
  | write t hp => exact h.write hk hc hp
  | publish t hp => exact h.publish hk hc hp
  | post t hp => exact h.move rfl rfl rfl trivial (by simp [Justified])
  | wait t hp hsem => exact h.move rfl rfl rfl trivial (by simp)
  | popClaim t hp => exact h.move rfl rfl rfl (by simp [Standing]) (by simp [Justified])
  | @popSpin t p hp hseq =>
      have hst := h.standing t
      rw [hp] at hst
      exact h.move rfl rfl rfl ⟨List.mem_append_left _ hst, hseq⟩ (by simp)
  | @copy t p hp =>
      have hst := h.standing t
      rw [hp] at hst
      refine h.move rfl rfl rfl ⟨by simp, hst.2⟩ (fun x hx => ?_)
      obtain rfl := List.mem_singleton.mp hx
      exact ⟨hst.1, h.full p hst.2⟩
  | release t hp => exact h.release hk hc hp
  | spin => simpa using h

theorem cells_init (k : ℕ) (cells : ℕ → J) : Cells k (State.init N cells) [] where
  standing _ := trivial
  full p hp := by
    have hle : slot k p ≤ p := by rw [slot_eq]; exact Nat.mod_le _ _
    have hp : slot k p = p + 1 := hp
    omega
  free p hp hle := by
    have hlt : slot k p < capacity k := by rw [slot_eq]; exact Nat.mod_lt _ (Nat.two_pow_pos k)
    have hp : slot k p = p := hp
    omega
  justified := by simp

/-! ### The main result -/

/-- The ring is a queue without losses. -/
structure Fifo (k : ℕ) (s : State J N) (es : List (Event J N)) : Prop where
  /-- The `p`-th claim on `head` gets position `p`. -/
  order : pushPositions es = List.range s.head
  /-- The `p`-th claim on `tail` gets position `p`. -/
  popOrder : popPositions es = List.range s.tail
  /-- The thread that claimed `p` on `tail` returns the job that the thread which claimed `p` on `head` has
  written. -/
  popped : ∀ t p job, .popped t p job ∈ es →
    .popClaimed t p ∈ es ∧ ∃ u, .claimed u p job ∈ es ∧ .wrote u p job ∈ es
  once : (poppedPositions es).Nodup
  /-- When `p` is written, the job that was in the cell has been copied out. -/
  kept : ∀ t p job, .wrote t p job ∈ es → capacity k ≤ p →
    ∃ u v job', .wrote u (p - capacity k) job' ∈ es ∧ .copied v (p - capacity k) job' ∈ es
  bounded : s.tail ≤ completed es

theorem Fifo.of_cells (hc : Claims s es) (h : Cells k s es) : Fifo k s es where
  order := hc.pushOrder
  popOrder := hc.popOrder
  popped t p job hp := by
    have hcopied : .copied t p job ∈ es := h.justified _ hp
    obtain ⟨hclaim, u, hwrote⟩ : Justified k es (.copied t p job) := h.justified _ hcopied
    have hclaimed : Justified k es (.wrote u p job) := h.justified _ hwrote
    exact ⟨hclaim, u, hclaimed.1, hwrote⟩
  once := hc.pop.nodup
  kept t p job hp hle := by
    have hj : Justified k es (.wrote t p job) := h.justified _ hp
    obtain ⟨v, job', hv⟩ := hj.2 hle
    obtain ⟨-, u, hu⟩ : Justified k es (.copied v (p - capacity k) job') := h.justified _ hv
    exact ⟨u, v, job', hu, hv⟩
  bounded := by
    have hu := hc.units
    omega

/-- **The job ring is a lossless FIFO queue.**  With any number of threads that push and pop, in every
interleaving of their steps, and any capacity that is a power of two and at least two: positions are claimed in
order, a pop returns the job pushed at its position, once and after it was written; no cell is written
before its job was copied out; and not more positions are claimed on `tail` than pushes have completed. -/
theorem fifo (hk : 0 < k) {cells : ℕ → J} (h : (machine N k cells).Reach (fun _ _ => True) s es) :
    Fifo k s es := by
  have hinv : Claims s es ∧ Cells k s es := by
    refine h.invariant (P := fun s es => Claims s es ∧ Cells k s es) ⟨claims_init cells, cells_init k cells⟩ ?_
    intro s es a s' e _ ih _ hs
    have hstep := step_cases hs
    exact ⟨ih.1.step hstep, ih.2.step hk ih.1 hstep⟩
  exact .of_cells hinv.1 hinv.2

/-- Two cells: one thread pushes 10, 11 and, after the other has popped 10, 12 into the same cell. -/
def lap (t u : Fin 2) : List (Act ℕ 2) :=
  [.push t 10, .run t, .run t, .run t, .run t, .run t, .push t 11, .run t, .run t, .run t, .run t, .run t,
    .push t 12, .run t, .run t, .pop u, .run u, .run u, .run u, .run u, .run u, .run t, .run t, .run t, .run t]

/-- The third push waits for its cell until the first job was popped. -/
theorem fifo_lap : ∃ s es, (machine 2 1 (fun _ => 0)).Reach (fun _ _ => True) s es ∧
    (s.head, s.tail, s.sem) = (3, 1, 2) ∧ (s.seq 0, s.cells 0) = (3, 12) ∧ .popped 1 0 10 ∈ es ∧ Fifo 1 s es := by
  obtain ⟨s, es, hr, hy⟩ := Machine.Reach.of_exec (M := machine 2 1 (fun _ => 0)) (G := fun _ _ => True)
    (g := fun _ _ => true) (lap 0 1) (fun _ _ _ _ => trivial)
    (fun r => ((r.1.head, r.1.tail, r.1.sem), (r.1.seq 0, r.1.cells 0), decide (.popped 1 0 10 ∈ r.2)))
    ((3, 1, 2), (3, 12), true) (by decide +kernel)
  simp only [Prod.mk.injEq, decide_eq_true_eq] at hy
  obtain ⟨hcounts, hcell, hpopped⟩ := hy
  exact ⟨s, es, hr, by simpa using hcounts, by simpa using hcell, hpopped, fifo Nat.one_pos hr⟩

/-- One cell: the second push finds its number in the cell that the first push has filled, and writes over a
job that nobody has copied. -/
theorem single_cell_overwritten : ∃ s es, (machine 1 0 (fun _ => 0)).Reach (fun _ _ => True) s es ∧
    .wrote 0 1 11 ∈ es ∧ s.tail = 0 ∧ s.cells 0 = 11 ∧ ¬ Fifo 0 s es := by
  obtain ⟨s, es, hr, hy⟩ := Machine.Reach.of_exec (M := machine 1 0 (fun _ => 0)) (G := fun _ _ => True)
    (g := fun _ _ => true)
    [.push 0 10, .run 0, .run 0, .run 0, .run 0, .run 0, .push 0 11, .run 0, .run 0, .run 0]
    (fun _ _ _ _ => trivial)
    (fun r => (r.1.tail, r.1.cells 0, decide (.wrote 0 1 11 ∈ r.2),
      r.2.all (fun | .copied _ _ _ => false | _ => true)))
    (0, 11, true, true) (by decide +kernel)
  simp only [Prod.mk.injEq, decide_eq_true_eq] at hy
  obtain ⟨htail, hcell, hwrote, hnone⟩ := hy
  refine ⟨s, es, hr, hwrote, htail, hcell, fun hf => ?_⟩
  obtain ⟨u, v, job', -, hv⟩ := hf.kept 0 1 11 hwrote le_rfl
  have := List.all_eq_true.mp hnone _ hv
  cases this

end ring

end Rakaia.Pool.Ring
