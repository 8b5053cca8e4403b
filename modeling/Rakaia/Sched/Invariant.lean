import Rakaia.Sched.Step

/-! # The representation invariant of the scheduler

Two bitmaps mirror the queues and the list of parked sockets.  `Waiters` says that `ksk_waiters`
has no duplicate and lists exactly the sockets whose bit is set in `waiters_bm`; `Queues` says
which push holds the lock of a queue, what the queue contains meanwhile, and that, while the lock
is free, the bit in `rx_nonempty_bm` tells whether the queue is empty.  Both hold in every
reachable state of both variants (`waiters_of_reach`, `queues_of_reach`). -/

namespace Rakaia.Sched

open Lib

variable {v : Variant} {s s' : State} {a : Act} {e : List Event}

/-! ### The list of parked sockets -/

/-- The list of parked sockets and its bitmap agree. -/
structure Waiters (s : State) : Prop where
  nodup : s.kskWaiters.Nodup
  mem_iff : ∀ i, i ∈ s.kskWaiters ↔ s.waitersBm i = true
  born : ∀ i ∈ s.kskWaiters, i.val < s.socksCnt
  creating : ∀ i, s.creating i = true → i.val < s.socksCnt ∧ i ∉ s.kskWaiters

theorem waiters_init : Waiters State.init := by
  constructor <;> simp [State.init]

theorem Waiters.park {ksk : Ksk} (h : Waiters s) (hk : ksk ∉ s.kskWaiters)
    (hb : ksk.val < s.socksCnt) (hc : s.creating ksk = false) : Waiters (s.park ksk) where
  nodup := by
    simp only [State.park]
    rw [List.nodup_append]
    refine ⟨h.nodup, by simp, ?_⟩
    rintro a ha b hb rfl
    rw [List.mem_singleton] at hb
    exact hk (hb ▸ ha)
  mem_iff i := by
    by_cases hi : i = ksk
    · subst hi; simp [State.park]
    · simp [State.park, hi, h.mem_iff i]
  born i hi := by
    simp only [State.park, List.mem_append, List.mem_singleton] at hi
    rcases hi with hi | rfl
    · exact h.born i hi
    · exact hb
  creating i hi := by
    refine ⟨(h.creating i hi).1, ?_⟩
    have hne : i ≠ ksk := by
      rintro rfl
      simp only [State.park, hc] at hi
      exact absurd hi (by decide)
    simpa [State.park, hne] using (h.creating i hi).2

theorem Waiters.unpark (h : Waiters s) (ksk : Ksk) : Waiters (s.unpark ksk) where
  nodup := h.nodup.erase ksk
  mem_iff i := by
    by_cases hi : i = ksk
    · subst hi; simp [State.unpark, h.nodup.not_mem_erase]
    · simp [State.unpark, hi, List.mem_erase_of_ne hi, h.mem_iff i]
  born i hi := h.born i (List.mem_of_mem_erase hi)
  creating i hi := ⟨(h.creating i hi).1, fun hm => (h.creating i hi).2 (List.mem_of_mem_erase hm)⟩

/-- `Waiters` reads only the fields that creation and the two sections under `waiters_lock`
write. -/
theorem Waiters.congr (h : Waiters s) (hw : s'.kskWaiters = s.kskWaiters)
    (hb : s'.waitersBm = s.waitersBm) (hc : s'.creating = s.creating)
    (hn : s'.socksCnt = s.socksCnt) : Waiters s' := by
  constructor
  · rw [hw]; exact h.nodup
  · rw [hw, hb]; exact h.mem_iff
  · rw [hw, hn]; exact h.born
  · rw [hw, hc, hn]; exact h.creating

theorem Waiters.unborn (h : Waiters s) {i : Ksk} (hi : s.socksCnt ≤ i.val) :
    i ∉ s.kskWaiters ∧ s.creating i = false := by
  refine ⟨fun hm => absurd (h.born i hm) (by omega), ?_⟩
  cases hc : s.creating i with
  | false => rfl
  | true => exact absurd (h.creating i hc).1 (by omega)

/-- A new socket, not yet registered. -/
theorem Waiters.create (h : Waiters s) {rxQ : Ksk → List Skb} :
    Waiters { s with socksCnt := s.socksCnt + 1, rxQ := rxQ } where
  nodup := h.nodup
  mem_iff := h.mem_iff
  born i hi := Nat.lt_succ_of_lt (h.born i hi)
  creating i hi := ⟨Nat.lt_succ_of_lt (h.creating i hi).1, (h.creating i hi).2⟩

theorem afterTake_fields (s : State) (i : Ksk) (rest : List Skb) :
    (s.afterTake i rest).kskWaiters = s.kskWaiters ∧ (s.afterTake i rest).waitersBm = s.waitersBm ∧
    (s.afterTake i rest).creating = s.creating ∧ (s.afterTake i rest).socksCnt = s.socksCnt ∧
    (s.afterTake i rest).push = s.push ∧ (s.afterTake i rest).pull = s.pull ∧
    (s.afterTake i rest).receiveQ = s.receiveQ ∧ (s.afterTake i rest).rxLock = s.rxLock ∧
    (s.afterTake i rest).nextId = s.nextId ∧
    (s.afterTake i rest).rxQ = Function.update s.rxQ i rest := by
  unfold State.afterTake
  split_ifs <;> exact ⟨rfl, rfl, rfl, rfl, rfl, rfl, rfl, rfl, rfl, rfl⟩

/-! ### Pulls run on created sockets -/

/-- Every call of pull in progress runs on a socket whose creation has returned. -/
def PullsBorn (s : State) : Prop :=
  ∀ t k, (s.pull t).ksk? = some k → k.val < s.socksCnt ∧ s.creating k = false

theorem PullMove.ksk? {pc pc' : PullPc} (h : PullMove s pc pc') {k : Ksk}
    (hk : pc'.ksk? = some k) : pc.ksk? = some k := by
  cases h <;> simp_all [PullPc.ksk?]

theorem PullPc.Takes.ksk? {pc : PullPc} {k i : Ksk} (h : pc.Takes k i) : pc.ksk? = some k := by
  rcases h with ⟨rfl, _⟩ | rfl <;> rfl

/-- One pull moves to a position on the same socket, or on a created one. -/
theorem PullsBorn.setPull (h : PullsBorn s) {t : ℕ} {pc : PullPc}
    (hpc : ∀ k, pc.ksk? = some k → k.val < s.socksCnt ∧ s.creating k = false) :
    PullsBorn (s.setPull t pc) := by
  intro u k hk
  by_cases hu : u = t
  · subst hu
    exact hpc k (by simpa using hk)
  · exact h u k (by simpa [hu] using hk)

theorem PullsBorn.congr (h : PullsBorn s) (hp : s'.pull = s.pull) (hc : s'.creating = s.creating)
    (hn : s'.socksCnt = s.socksCnt) : PullsBorn s' := by
  unfold PullsBorn
  rw [hp, hc, hn]
  exact h

theorem pullsBorn_step (hs : Step v s a s' e) (h : PullsBorn s) : PullsBorn s' := by
  cases hs with
  | createPlain hn _ =>
      intro t k hk
      obtain ⟨hb, hc⟩ := h t k hk
      have hne : k ≠ ⟨s.socksCnt, hn⟩ := by
        rintro rfl
        exact absurd hb (lt_irrefl _)
      exact ⟨Nat.lt_succ_of_lt hb, by simpa [hne] using hc⟩
  | createGrpc => exact fun t k hk => ⟨Nat.lt_succ_of_lt (h t k hk).1, (h t k hk).2⟩
  | createRegister ksk =>
      intro t k hk
      refine ⟨(h t k hk).1, ?_⟩
      by_cases hne : k = ksk
      · subst hne; simp [State.park]
      · simpa [State.park, hne] using (h t k hk).2
  | pullStart t ksk _ hb hc =>
      refine h.setPull (fun k hk => ?_)
      cases hk
      exact ⟨hb, hc⟩
  | pullMove t r b pc pc' hp hm => exact h.setPull (fun k hk => h t k (by rw [hp]; exact hm.ksk? hk))
  | pullTake t r b pc ksk i skb rest hp ht =>
      obtain ⟨-, -, h₃, h₄, -, h₆, -⟩ := afterTake_fields s i rest
      have h' : PullsBorn (s.afterTake i rest) := h.congr h₆ h₃ h₄
      refine h'.setPull (fun k hk => ?_)
      cases hk
      rw [h₃, h₄]
      exact h t ksk (by rw [hp]; exact ht.ksk?)
  | pullRegister => exact PullsBorn.setPull (s := s.park _) (h.congr rfl rfl rfl) (by simp [PullPc.ksk?])
  | pullRefused => exact h.setPull (by simp [PullPc.ksk?])
  | pullCharge =>
      exact PullsBorn.setPull (s := chargeRcvSkb v s _ _) (h.congr rfl rfl rfl) (by simp [PullPc.ksk?])
  | _ => exact h.congr rfl rfl rfl

theorem waiters_step (hs : Step v s a s' e) (h : Waiters s) (hp : PullsBorn s) : Waiters s' := by
  cases hs with
  | createPlain hn _ =>
      have hu := h.unborn (i := ⟨s.socksCnt, hn⟩) le_rfl
      refine ⟨h.nodup, h.mem_iff, fun i hi => Nat.lt_succ_of_lt (h.born i hi), ?_⟩
      intro i hi
      by_cases hk : i = ⟨s.socksCnt, hn⟩
      · subst hk; exact ⟨Nat.lt_succ_self _, hu.1⟩
      · have hi : s.creating i = true := by simpa [hk] using hi
        exact ⟨Nat.lt_succ_of_lt (h.creating i hi).1, (h.creating i hi).2⟩
  | createGrpc hn _ =>
      have hu := h.unborn (i := ⟨s.socksCnt, hn⟩) le_rfl
      exact h.create.park hu.1 (Nat.lt_succ_self _) hu.2
  | createRegister ksk hk =>
      have hm := h.creating ksk hk
      have h' : Waiters { s with creating := Function.update s.creating ksk false } := by
        refine ⟨h.nodup, h.mem_iff, h.born, ?_⟩
        intro i hi
        by_cases hik : i = ksk
        · subst hik; simp at hi
        · exact h.creating i (by simpa [hik] using hi)
      exact h'.park hm.2 hm.1 (by simp)
  | pushWaiter p b skb chosen ksk => exact (h.unpark ksk).congr rfl rfl rfl rfl
  | pullTake t r b pc ksk i skb rest =>
      obtain ⟨h₁, h₂, h₃, h₄, -⟩ := afterTake_fields s i rest
      exact h.congr h₁ h₂ h₃ h₄
  | pullRegister t r b ksk hpc _ hb =>
      obtain ⟨hlt, hc⟩ := hp t ksk (by rw [hpc]; rfl)
      have hm : ksk ∉ s.kskWaiters := by rw [h.mem_iff, hb]; decide
      exact (h.park hm hlt hc).congr rfl rfl rfl rfl
  | _ => exact h.congr rfl rfl rfl rfl

/-! ### The receive queues, their locks and their bitmap -/

/-- The queue whose lock a push holds. -/
def PushPc.locks? : PushPc → Option Ksk
  | .enqueue _ i | .setBit i _ => some i
  | _ => none

/-- What a push that holds the lock of a queue knows about the queue. -/
def PushPc.Knows : PushPc → List Skb → Prop
  | .enqueue _ _, q => q = []
  | .setBit _ _, q => q.length = 1
  | _, _ => True

/-- The locks, the contents of locked queues, and the bitmap of the free ones. -/
structure Queues (s : State) : Prop where
  lock_iff : ∀ i p, s.rxLock i = some p ↔ (s.push p).locks? = some i
  knows : ∀ i p, s.rxLock i = some p → (s.push p).Knows (s.rxQ i)
  bm : ∀ i, s.rxLock i = none → (s.rxNonemptyBm i = true ↔ s.rxQ i ≠ [])
  fresh : ∀ p, s.nextId ≤ p → s.push p = .idle
  born : ∀ p, s.push p ≠ .idle → s.socksCnt = numRakaiaSockets
  unborn : ∀ i : Ksk, s.socksCnt ≤ i.val → s.rxQ i = []

theorem queues_init : Queues State.init := by
  constructor <;> simp [State.init, PushPc.locks?]

/-- `Queues` reads only the queues, their locks and bits, the pushes and the two counters. -/
theorem Queues.congr (h : Queues s) (hq : s'.rxQ = s.rxQ) (hl : s'.rxLock = s.rxLock)
    (hb : s'.rxNonemptyBm = s.rxNonemptyBm) (hp : s'.push = s.push) (hi : s'.nextId = s.nextId)
    (hn : s'.socksCnt = s.socksCnt) : Queues s' := by
  constructor
  · rw [hl, hp]; exact h.lock_iff
  · rw [hl, hp, hq]; exact h.knows
  · rw [hl, hb, hq]; exact h.bm
  · rw [hp, hi]; exact h.fresh
  · rw [hp, hn]; exact h.born
  · rw [hq, hn]; exact h.unborn

theorem Queues.lt_nextId (h : Queues s) {p : ℕ} (hp : s.push p ≠ .idle) : p < s.nextId := by
  by_contra hn
  exact hp (h.fresh p (by omega))

/-- Only calls in progress move, so the calls to come stay idle. -/
theorem Queues.fresh_update (h : Queues s) {p : ℕ} (hp : s.push p ≠ .idle) (pc : PushPc) :
    ∀ q, s.nextId ≤ q → Function.update s.push p pc q = .idle := by
  intro q hq
  have hne : q ≠ p := by
    rintro rfl
    exact absurd (h.lt_nextId hp) (not_lt.mpr hq)
  rw [Function.update_of_ne hne]
  exact h.fresh q hq

theorem PushPc.ne_idle_of_locks {pc : PushPc} {i : Ksk} (h : pc.locks? = some i) : pc ≠ .idle := by
  rintro rfl
  cases h

/-- While a push is in progress every index is the index of a socket. -/
theorem Queues.all_born (h : Queues s) {p : ℕ} (hp : s.push p ≠ .idle) (i : Ksk) :
    ¬ s.socksCnt ≤ i.val := by
  rw [h.born p hp]
  have := i.isLt
  omega

theorem Queues.knows_of_locks (h : Queues s) {p : ℕ} {i : Ksk} {pc : PushPc} (hp : s.push p = pc)
    (hl : pc.locks? = some i) : pc.Knows (s.rxQ i) := by
  have hlock : s.rxLock i = some p := (h.lock_iff i p).mpr (by rw [hp, hl])
  exact hp ▸ h.knows i p hlock

/-- The queue of a new socket was empty before. -/
theorem Queues.update_unborn (h : Queues s) (hn : s.socksCnt < numRakaiaSockets) :
    Function.update s.rxQ ⟨s.socksCnt, hn⟩ [] = s.rxQ := by
  rw [← h.unborn ⟨s.socksCnt, hn⟩ le_rfl, Function.update_eq_self]

/-- A push that holds no lock moves to a position without a lock. -/
theorem Queues.setPush (h : Queues s) {p : ℕ} {pc : PushPc} (hp : s.push p ≠ .idle)
    (hl : (s.push p).locks? = none) (hpc : pc.locks? = none) : Queues (s.setPush p pc) where
  lock_iff i q := by
    by_cases hq : q = p
    · subst hq
      have := h.lock_iff i q
      simp only [hl] at this
      simp [this, hpc]
    · simpa [hq] using h.lock_iff i q
  knows i q hi := by
    by_cases hq : q = p
    · subst hq
      have := (h.lock_iff i q).mp hi
      rw [hl] at this
      cases this
    · simpa [hq] using h.knows i q hi
  bm := h.bm
  fresh := h.fresh_update hp pc
  born q hq := by
    by_cases hne : q = p
    · exact h.born p hp
    · exact h.born q (by simpa [hne] using hq)
  unborn := h.unborn

/-- A change of an unlocked queue that keeps its bit right. -/
theorem Queues.setRx (h : Queues s) {i : Ksk} {q : List Skb} {b : Bool} (hl : s.rxLock i = none)
    (hb : b = true ↔ q ≠ []) (hu : ¬ s.socksCnt ≤ i.val) :
    Queues ((s.setRxQ i q).setNonempty i b) where
  lock_iff := h.lock_iff
  knows j p hj := by
    have hne : j ≠ i := by
      rintro rfl
      simp [hl] at hj
    simpa [hne] using h.knows j p hj
  bm j hj := by
    by_cases hne : j = i
    · subst hne; simpa using hb
    · simpa [hne] using h.bm j hj
  fresh := h.fresh
  born := h.born
  unborn j hj := by
    have hne : j ≠ i := by
      rintro rfl
      exact hu hj
    simpa [hne] using h.unborn j hj

/-- A push takes the lock of an unlocked queue. -/
theorem Queues.takeLock (h : Queues s) {p : ℕ} {i : Ksk} {pc : PushPc} (hp : s.push p ≠ .idle)
    (hlp : (s.push p).locks? = none) (hl : s.rxLock i = none) (hpc : pc.locks? = some i)
    (hk : pc.Knows (s.rxQ i)) : Queues ((s.setRxLock i (some p)).setPush p pc) where
  lock_iff j q := by
    by_cases hq : q = p <;> by_cases hj : j = i
    · subst hq hj; simp [hpc]
    · subst hq
      have hn : s.rxLock j ≠ some q := fun hc => by
        rw [(h.lock_iff j q).mp hc] at hlp
        cases hlp
      simp [hj, hn, hpc, Ne.symm hj]
    · subst hj
      have hn : (s.push q).locks? ≠ some j := fun hc => by
        rw [(h.lock_iff j q).mpr hc] at hl
        cases hl
      simp [hq, hn, Ne.symm hq]
    · simpa [hq, hj] using h.lock_iff j q
  knows j q hj := by
    by_cases hji : j = i
    · subst hji
      obtain rfl : p = q := by simpa using hj
      simpa using hk
    · have hj' : s.rxLock j = some q := by simpa [hji] using hj
      have hq : q ≠ p := by
        rintro rfl
        rw [(h.lock_iff j q).mp hj'] at hlp
        cases hlp
      simpa [hq] using h.knows j q hj'
  bm j hj := by
    by_cases hji : j = i
    · subst hji; simp [State.setRxLock] at hj
    · exact h.bm j (by simpa [hji] using hj)
  fresh := h.fresh_update hp pc
  born q _ := h.born p hp
  unborn := h.unborn

/-- A push that holds the lock of a queue changes the queue and keeps the lock. -/
theorem Queues.setHeld (h : Queues s) {p : ℕ} {i : Ksk} {pc : PushPc} {q : List Skb}
    (hl : (s.push p).locks? = some i) (hpc : pc.locks? = some i) (hk : pc.Knows q) :
    Queues ((s.setRxQ i q).setPush p pc) where
  lock_iff j r := by
    by_cases hr : r = p
    · subst hr
      have := h.lock_iff j r
      simpa [hpc, hl] using this
    · simpa [hr] using h.lock_iff j r
  knows j r hj := by
    by_cases hr : r = p
    · subst hr
      have hji : j = i := by
        have := (h.lock_iff j r).mp hj
        rw [hl] at this
        exact (Option.some.inj this).symm
      subst hji
      simpa using hk
    · have hji : j ≠ i := by
        rintro rfl
        have h₁ := (h.lock_iff j p).mpr hl
        have h₂ : s.rxLock j = some r := hj
        rw [h₁] at h₂
        exact hr (Option.some.inj h₂).symm
      simpa [hr, hji] using h.knows j r hj
  bm j hj := by
    have hji : j ≠ i := by
      rintro rfl
      have h₁ := (h.lock_iff j p).mpr hl
      have h₂ : s.rxLock j = none := hj
      rw [h₁] at h₂
      cases h₂
    simpa [hji] using h.bm j hj
  fresh := h.fresh_update (PushPc.ne_idle_of_locks hl) pc
  born r _ := h.born p (PushPc.ne_idle_of_locks hl)
  unborn j hj := absurd hj (h.all_born (PushPc.ne_idle_of_locks hl) j)

/-- A push that holds the lock of a queue leaves queue and bit in agreement and drops the lock. -/
theorem Queues.dropLock (h : Queues s) {p : ℕ} {i : Ksk} {pc : PushPc} {q : List Skb} {b : Bool}
    (hl : (s.push p).locks? = some i) (hpc : pc.locks? = none) (hb : b = true ↔ q ≠ []) :
    Queues ((((s.setRxQ i q).setNonempty i b).setRxLock i none).setPush p pc) where
  lock_iff j r := by
    by_cases hr : r = p <;> by_cases hj : j = i
    · subst hr hj; simp [hpc]
    · subst hr
      have hn : s.rxLock j ≠ some r := fun hc => by
        rw [(h.lock_iff j r).mp hc] at hl
        exact hj (Option.some.inj hl)
      simp [hj, hn, hpc]
    · subst hj
      have hn : (s.push r).locks? ≠ some j := fun hc => by
        have h₁ := (h.lock_iff j r).mpr hc
        rw [(h.lock_iff j p).mpr hl] at h₁
        exact hr (Option.some.inj h₁).symm
      simp [hr, hn]
    · simpa [hr, hj] using
        h.lock_iff j r
  knows j r hj := by
    have hji : j ≠ i := by
      rintro rfl
      simp [State.setRxLock] at hj
    have hj' : s.rxLock j = some r := by
      simpa [hji] using hj
    have hr : r ≠ p := by
      rintro rfl
      rw [(h.lock_iff j r).mp hj'] at hl
      exact hji (Option.some.inj hl)
    simpa [hr, hji] using
      h.knows j r hj'
  bm j hj := by
    by_cases hji : j = i
    · subst hji
      simpa using hb
    · have hj' : s.rxLock j = none := by
        simpa [hji] using hj
      simpa [hji] using h.bm j hj'
  fresh := h.fresh_update (PushPc.ne_idle_of_locks hl) pc
  born r _ := h.born p (PushPc.ne_idle_of_locks hl)
  unborn j hj := absurd hj (h.all_born (PushPc.ne_idle_of_locks hl) j)

theorem PushMove.locks {pc pc' : PushPc} (h : PushMove s pc pc') :
    pc ≠ .idle ∧ pc.locks? = none ∧ pc'.locks? = none := by
  cases h <;> exact ⟨by simp, rfl, rfl⟩

/-- The head of an unlocked queue is taken. -/
theorem Queues.afterTake (h : Queues s) {i : Ksk} {skb : Skb} {rest : List Skb}
    (hl : s.rxLock i = none) (hq : s.rxQ i = skb :: rest) : Queues (s.afterTake i rest) := by
  have hu : ¬ s.socksCnt ≤ i.val := fun hc => by
    rw [h.unborn i hc] at hq
    cases hq
  unfold State.afterTake
  split_ifs with hr
  · exact h.setRx hl (by simp [List.length_eq_zero_iff.mp hr]) hu
  · have hb : s.rxNonemptyBm i = true := (h.bm i hl).mpr (by simp [hq])
    have h' := h.setRx (b := true) (q := rest) hl (by simpa using hr) hu
    refine h'.congr rfl rfl ?_ rfl rfl rfl
    rw [State.setNonempty, ← hb]
    exact (Function.update_eq_self i s.rxNonemptyBm).symm

theorem queues_step (hs : Step v s a s' e) (h : Queues s) : Queues s' := by
  cases hs with
  | createPlain hn _ =>
      rw [h.update_unborn hn]
      exact ⟨h.lock_iff, h.knows, h.bm, h.fresh, fun p hp => absurd (h.born p hp) (by omega),
        fun i hi => h.unborn i (by simp only at hi; omega)⟩
  | createGrpc hn _ =>
      rw [h.update_unborn hn]
      exact ⟨h.lock_iff, h.knows, h.bm, h.fresh, fun p hp => absurd (h.born p hp) (by omega),
        fun i hi => h.unborn i (by simp only [State.park] at hi; omega)⟩
  | pushStart psock cb truesize r1 r2 hn =>
      have hidle := h.fresh s.nextId le_rfl
      refine ⟨?_, ?_, h.bm, ?_, fun _ _ => hn, h.unborn⟩
      · intro i p
        by_cases hp : p = s.nextId
        · subst hp
          have := h.lock_iff i s.nextId
          simp only [hidle] at this
          simpa [PushPc.locks?] using this
        · simpa [hp] using h.lock_iff i p
      · intro i p hi
        by_cases hp : p = s.nextId
        · subst hp; simp [PushPc.Knows]
        · simpa [hp] using h.knows i p hi
      · intro p hp
        have hp' : s.nextId + 1 ≤ p := hp
        have hne : p ≠ s.nextId := by omega
        simpa [hne] using h.fresh p (by omega)
  | pushMove p b pc pc' hp hm =>
      obtain ⟨h₁, h₂, h₃⟩ := hm.locks
      exact h.setPush (by rw [hp]; exact h₁) (by rw [hp]; exact h₂) h₃
  | pushTail p b skb chosen hp hl hq =>
      have hidle : s.push p ≠ .idle := by simp [hp]
      have hb : s.rxNonemptyBm chosen = true := (h.bm chosen hl).mpr hq
      have h₁ : Queues (s.setPush p .idle) := h.setPush hidle (by rw [hp]; rfl) rfl
      have h₂ := h₁.setRx (i := chosen) (q := s.rxQ chosen ++ [skb]) (b := true) hl (by simp)
        (h.all_born hidle chosen)
      refine h₂.congr rfl rfl ?_ rfl rfl rfl
      rw [State.setNonempty, ← hb]
      exact (Function.update_eq_self chosen s.rxNonemptyBm).symm
  | pushLock p b skb chosen hp hl hq =>
      exact h.takeLock (by simp [hp]) (by rw [hp]; rfl) hl rfl hq
  | pushNoWaiter p b skb chosen hp hw =>
      have hl : (s.push p).locks? = some chosen := by rw [hp]; rfl
      have hq : s.rxQ chosen = [] := h.knows_of_locks hp rfl
      exact h.setHeld hl rfl (by simp [PushPc.Knows, hq])
  | pushWaiter p b skb chosen ksk first rest hp hw hk =>
      have hl : (s.push p).locks? = some chosen := by rw [hp]; rfl
      have hq : s.rxQ chosen = [] := h.knows_of_locks hp rfl
      have h' : Queues ((s.setRxQ chosen (s.rxQ chosen ++ [skb])).setPush p (.setBit chosen (some ksk))) :=
        h.setHeld hl rfl (by simp [PushPc.Knows, hq])
      exact h'.congr rfl rfl rfl rfl rfl rfl
  | pushSetBit p b chosen hp =>
      have hl : (s.push p).locks? = some chosen := by rw [hp]; rfl
      have hq : (s.rxQ chosen).length = 1 := h.knows_of_locks hp rfl
      have h' : Queues ((((s.setRxQ chosen (s.rxQ chosen)).setNonempty chosen true).setRxLock
          chosen none).setPush p .idle) :=
        h.dropLock hl rfl (by simpa using List.ne_nil_of_length_pos (by omega))
      refine h'.congr ?_ rfl rfl rfl rfl rfl
      exact (Function.update_eq_self chosen s.rxQ).symm
  | pushTake p b chosen ksk skb rest hp hq =>
      exact h.dropLock (by rw [hp]; rfl) rfl (by simp [Nat.one_le_iff_ne_zero])
  | pushOops p b chosen ksk hp hq =>
      have hlen : (s.rxQ chosen).length = 1 := h.knows_of_locks hp rfl
      simp [hq] at hlen
  | pushRefused p b ksk skb hp => exact h.setPush (by simp [hp]) (by rw [hp]; rfl) rfl
  | pushCharge p b ksk skb hp =>
      have h' : Queues (s.setPush p .idle) := h.setPush (by simp [hp]) (by rw [hp]; rfl) rfl
      exact h'.congr rfl rfl rfl rfl rfl rfl
  | pullTake t r b pc ksk i skb rest hp ht hl hq =>
      exact (h.afterTake hl hq).congr rfl rfl rfl rfl rfl rfl
  | _ => exact h.congr rfl rfl rfl rfl rfl rfl

/-! ### Reachable states -/

variable {G : State → Act → Prop} {es : List Event}

theorem pullsBorn_of_reach (h : (machine v).Reach G s es) : PullsBorn s :=
  h.invariant (P := fun s _ => PullsBorn s) (by simp [machine, State.init, PullsBorn, PullPc.ksk?])
    (fun _ _ _ _ _ _ ih _ hs => pullsBorn_step (step_cases hs) ih)

theorem waiters_of_reach (h : (machine v).Reach G s es) : Waiters s :=
  h.invariant (P := fun s _ => Waiters s) waiters_init
    (fun _ _ _ _ _ hr ih _ hs => waiters_step (step_cases hs) ih (pullsBorn_of_reach hr))

theorem queues_of_reach (h : (machine v).Reach G s es) : Queues s :=
  h.invariant (P := fun s _ => Queues s) queues_init
    (fun _ _ _ _ _ _ ih _ hs => queues_step (step_cases hs) ih)

/-- The socket that `rakaia_get_avail_sk` chooses is in the list. -/
theorem Waiters.chosen_mem (h : Waiters s) {c first : Ksk} {rest : List Ksk}
    (hw : s.kskWaiters = first :: rest) : (if s.waitersBm c then c else first) ∈ s.kskWaiters := by
  split_ifs with hb
  · exact (h.mem_iff c).mpr hb
  · rw [hw]
    exact List.mem_cons_self

/-- `rakaia_get_avail_sk` unlinks a socket that is in the list. -/
theorem Waiters.getAvailSk (h : Waiters s) {c k : Ksk} (hk : rakaiaGetAvailSk s c = (some k, s')) :
    k ∈ s.kskWaiters ∧ s'.kskWaiters = s.kskWaiters.erase k := by
  unfold rakaiaGetAvailSk at hk
  cases hw : s.kskWaiters with
  | nil => rw [hw] at hk; cases hk
  | cons first rest =>
      simp only [hw, Prod.mk.injEq, Option.some.injEq] at hk
      obtain ⟨rfl, rfl⟩ := hk
      exact ⟨hw ▸ h.chosen_mem hw, rfl⟩

/-! ### Runs to evaluate -/

/-- The first push starts after every `rakaia_create` has returned. -/
def CreatedFirst (s : State) : Act → Prop
  | .pushStart .. => ∀ i, s.creating i = false
  | _ => True

instance (s : State) : (a : Act) → Decidable (CreatedFirst s a)
  | .pushStart .. => inferInstanceAs (Decidable (∀ i, s.creating i = false))
  | .create | .createRegister _ | .push .. | .pullStart .. | .pull .. | .recvmsg _ => instDecidableTrue

/-- Memory checks that succeed. -/
def ample : Budget := ⟨1000, true⟩

/-- The creation of all sockets of the plain-tcp variant. -/
def bootActs : List Act :=
  (List.finRange numRakaiaSockets).flatMap (fun i => [.create, .createRegister i])

/-- The next message comes from `psock`, and both random draws choose queue `i`. -/
def handTo (psock : PsockPtr) (i : ℕ) : Act :=
  .pushStart psock (fun _ => 0) 1 (UInt8.ofNat i) (UInt8.ofNat i)

/-- The whole of a push of message `n` through queue `i` to a parked socket. -/
def handActs (n i : ℕ) : List Act := handTo 1 i :: List.replicate 7 (.push n ample)

/-- A message for every socket, after which none is parked. -/
def busyActs : List Act := bootActs ++ (List.range numRakaiaSockets).flatMap (fun i => handActs i i)

/-- The push is not in progress. -/
def PushPc.isIdle : PushPc → Bool
  | .idle => true
  | _ => false

/-- The pull is not in progress. -/
def PullPc.isIdle : PullPc → Bool
  | .idle => true
  | _ => false

theorem PushPc.eq_idle {pc : PushPc} (h : pc.isIdle = true) : pc = .idle := by
  cases pc <;> first | rfl | cases h

theorem PullPc.eq_idle {pc : PullPc} (h : pc.isIdle = true) : pc = .idle := by
  cases pc <;> first | rfl | cases h

/-- Of all threads, only `t` calls `rakaia_pull`. -/
def Act.onlyThread (t : ℕ) : Act → Bool
  | .pullStart u _ => u == t
  | _ => true

theorem pull_idle_step {t u : ℕ} (hs : Step v s a s' e) (ha : a.onlyThread t = true) (hu : u ≠ t)
    (h : s.pull u = .idle) : s'.pull u = .idle := by
  have hmove : ∀ w pc, s.pull w ≠ .idle → Function.update s.pull w pc u = .idle := by
    intro w pc hw
    have hne : u ≠ w := by
      rintro rfl
      exact hw h
    rw [Function.update_of_ne hne, h]
  cases hs with
  | pullStart w ksk =>
      obtain rfl : w = t := by simpa [Act.onlyThread] using ha
      simpa [hu] using h
  | pullMove w r b pc pc' hp hm => exact hmove w pc' (by rw [hp]; cases hm <;> simp)
  | pullTake w r b pc ksk i skb rest hp ht =>
      rw [State.setPull, (afterTake_fields s i rest).2.2.2.2.2.1]
      exact hmove w _ (by rw [hp]; rcases ht with ⟨rfl, -⟩ | rfl <;> simp)
  | pullRegister w r b ksk hp => exact hmove w .idle (by simp [hp])
  | pullRefused w r b ksk skb hp => exact hmove w .idle (by simp [hp])
  | pullCharge w r b ksk skb hp => exact hmove w .idle (by simp [hp])
  | _ => exact h

theorem pull_idle_of_reach {t : ℕ} (hG : ∀ s a, G s a → a.onlyThread t = true)
    (h : (machine v).Reach G s es) {u : ℕ} (hu : u ≠ t) : s.pull u = .idle :=
  h.invariant (P := fun s _ => s.pull u = .idle) rfl
    (fun _ _ _ _ _ _ ih hg hs => pull_idle_step (step_cases hs) (hG _ _ hg) hu ih)

/-! ### The bitmaps mirror the queues and the list -/

/-- **The representation invariant.**  In every reachable state of the plain-tcp scheduler a free
queue is non-empty if and only if its bit is set, the list of parked sockets has no duplicate and
agrees with its bitmap, and the socket that `rakaia_get_avail_sk` unlinks is in the list. -/
theorem bitmaps_mirror (h : (machine .plainTcp).Reachable s es) :
    (∀ i, s.rxLock i = none → (s.rxNonemptyBm i = true ↔ s.rxQ i ≠ [])) ∧
    s.kskWaiters.Nodup ∧ (∀ i, i ∈ s.kskWaiters ↔ s.waitersBm i = true) ∧
    (∀ c k s', rakaiaGetAvailSk s c = (some k, s') →
      k ∈ s.kskWaiters ∧ s'.kskWaiters = s.kskWaiters.erase k) :=
  have hw := waiters_of_reach h
  ⟨(queues_of_reach h).bm, hw.nodup, hw.mem_iff, fun _ _ _ hk => hw.getAvailSk hk⟩

theorem bitmaps_mirror_after_push : ∃ s es, (machine .plainTcp).Reachable s es ∧
    s.kskWaiters.length = 19 ∧ ∀ i, i ∈ s.kskWaiters ↔ s.waitersBm i = true := by
  obtain ⟨s, es, hr, hy⟩ := Machine.Reach.of_exec (M := machine .plainTcp)
    (G := fun _ _ => True) (g := fun _ _ => true) (bootActs ++ handActs 0 3)
    (fun _ _ _ _ => trivial) (fun r => r.1.kskWaiters.length) 19 (by decide +kernel)
  exact ⟨s, es, hr, hy, (bitmaps_mirror hr).2.2.1⟩

end Rakaia.Sched
