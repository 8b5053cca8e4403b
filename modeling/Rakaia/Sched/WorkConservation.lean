import Rakaia.Sched.Invariant

/-! # Work conservation

A message should not lie in a receive queue while a socket is parked as idle.  A pull parks its
socket only after it saw, under `waiters_lock`, that `rx_nonempty_bm` is zero; but a push that
finds no parked socket sets its bit only after it dropped `waiters_lock`.  A pull that registers
in this window does not see the message, and the push does not see the socket: the message is
stranded (`message_stranded`).

The window is the only way: in every run in which no pull registers while some push stands in it,
parked sockets and waiting messages exclude each other (`no_message_stranded`). -/

namespace Rakaia.Sched

open Lib

variable {v : Variant} {s s' : State} {a : Act} {e es : List Event}

/-- No push and no pull is in progress. -/
def Quiescent (s : State) : Prop := (∀ p, s.push p = .idle) ∧ ∀ t, s.pull t = .idle

/-- Some push found no parked socket, dropped `waiters_lock` and has not yet set its bit. -/
def PushWindow (s : State) : Prop := ∃ p i, s.push p = .setBit i none

/-- The action is not the registration of an idle socket, or no push stands in the window. -/
def RegistersOutsideWindow (s : State) : Act → Prop
  | .pull t _ _ => ∀ k, s.pull t = .register k → setBits s.rxNonemptyBm = [] →
      s.waitersBm k = false → ¬ PushWindow s
  | _ => True

/-! ### Before the first push -/

/-- Creation is over once the first message is handed over, and there is no message before. -/
structure Booted (s : State) : Prop where
  created : 0 < s.nextId → s.socksCnt = numRakaiaSockets ∧ ∀ i, s.creating i = false
  empty : s.nextId = 0 → ∀ i, s.rxQ i = []

theorem Booted.before_create (h : Booted s) (hn : s.socksCnt < numRakaiaSockets) : s.nextId = 0 := by
  by_contra hc
  exact absurd (h.created (Nat.pos_of_ne_zero hc)).1 (by omega)

theorem Booted.before_register (h : Booted s) {ksk : Ksk} (hk : s.creating ksk = true) : s.nextId = 0 := by
  by_contra hc
  have := (h.created (Nat.pos_of_ne_zero hc)).2 ksk
  rw [hk] at this
  cases this

theorem booted_step (hs : Step v s a s' e) (hg : CreatedFirst s a) (hq : Queues s) (h : Booted s) :
    Booted s' := by
  have hbefore : s.nextId = 0 → s'.nextId = s.nextId → s'.rxQ = s.rxQ → Booted s' := by
    intro h0 hn hr
    refine ⟨fun hp => absurd (hn.trans h0) hp.ne', fun _ i => ?_⟩
    rw [hr]
    exact h.empty h0 i
  have hpos : ∀ p, s.push p ≠ .idle → s.nextId ≠ 0 := fun p hp => (Nat.zero_lt_of_lt (hq.lt_nextId hp)).ne'
  cases hs with
  | createPlain hn _ => exact hbefore (h.before_create hn) rfl (hq.update_unborn hn)
  | createGrpc hn _ => exact hbefore (h.before_create hn) rfl (hq.update_unborn hn)
  | createRegister ksk hk => exact hbefore (h.before_register hk) rfl rfl
  | pushStart psock cb truesize r1 r2 hn =>
      exact ⟨fun _ => ⟨hn, hg⟩, fun hc => absurd hc (Nat.succ_ne_zero _)⟩
  | pushTail p b skb chosen hp => exact ⟨h.created, fun hc => absurd hc (hpos p (by simp [hp]))⟩
  | pushNoWaiter p b skb chosen hp => exact ⟨h.created, fun hc => absurd hc (hpos p (by simp [hp]))⟩
  | pushWaiter p b skb chosen ksk first rest hp =>
      exact ⟨h.created, fun hc => absurd hc (hpos p (by simp [hp]))⟩
  | pushTake p b chosen ksk skb rest hp => exact ⟨h.created, fun hc => absurd hc (hpos p (by simp [hp]))⟩
  | pullTake t r b pc ksk i skb rest hp ht hl hqi =>
      obtain ⟨-, -, h₃, h₄, -, -, -, -, h₉, h₁₀⟩ := afterTake_fields s i rest
      constructor
      · simp only [State.setPull, h₃, h₄, h₉]
        exact h.created
      · simp only [State.setPull, h₉]
        intro hc
        rw [h.empty hc i] at hqi
        cases hqi
  | _ => exact ⟨h.created, h.empty⟩

theorem booted_of_reach {G : State → Act → Prop} (hG : ∀ s a, G s a → CreatedFirst s a)
    (h : (machine v).Reach G s es) : Booted s :=
  h.invariant (P := fun s _ => Booted s) ⟨by simp [machine, State.init], by simp [machine, State.init]⟩
    (fun _ _ _ _ _ hr ih hg hs => booted_step (step_cases hs) (hG _ _ hg) (queues_of_reach hr) ih)

/-! ### Waiting messages and parked sockets exclude each other -/

/-- A non-empty queue means that no socket is parked, or that a push is about to take the message
back out for the socket it unparked. -/
structure Conserving (s : State) : Prop where
  window : ∀ p i, s.push p = .setBit i none → s.kskWaiters = []
  queued : ∀ i, s.rxQ i ≠ [] → s.kskWaiters = [] ∨
    ∃ p k, s.push p = .setBit i (some k)

/-- A push moves from one position outside the two of `Conserving` to another. -/
theorem Conserving.setPush (h : Conserving s) {p : ℕ} {pc : PushPc}
    (hp : ∀ i k, s.push p ≠ .setBit i k) (hpc : ∀ i k, pc ≠ .setBit i k) :
    Conserving (s.setPush p pc) := by
  constructor
  · intro q i hq
    by_cases hqp : q = p
    · subst hqp
      exact absurd (by simpa using hq) (hpc i none)
    · exact h.window q i (by simpa [hqp] using hq)
  · intro i hi
    rcases h.queued i hi with hw | ⟨q, k, hq⟩
    · exact Or.inl hw
    · have hqp : q ≠ p := by
        rintro rfl
        exact hp i (some k) hq
      exact Or.inr ⟨q, k, by simpa [hqp] using hq⟩

theorem Conserving.congr (h : Conserving s) (hw : s'.kskWaiters = s.kskWaiters)
    (hp : s'.push = s.push) (hq : ∀ i, s'.rxQ i ≠ [] → s.rxQ i ≠ []) : Conserving s' := by
  constructor
  · rw [hw, hp]; exact h.window
  · intro i hi
    rw [hw, hp]
    exact h.queued i (hq i hi)

/-- Nothing is queued and no push is in progress. -/
theorem Conserving.of_empty (hp : ∀ p, s.push p = .idle) (hq : ∀ i, s.rxQ i = []) : Conserving s :=
  ⟨fun p i hc => absurd (hp p) (by simp [hc]), fun i hi => absurd (hq i) hi⟩

theorem PushMove.ne_setBit {pc pc' : PushPc} (h : PushMove s pc pc') :
    (∀ i k, pc ≠ .setBit i k) ∧ ∀ i k, pc' ≠ .setBit i k := by
  cases h <;> simp

/-- No bit of the bitmap is set. -/
theorem setBits_eq_nil {mask : Ksk → Bool} : setBits mask = [] ↔ ∀ i, mask i = false := by
  simp [setBits, List.filter_eq_nil_iff]

/-- The idle check is right outside the window: when `rx_nonempty_bm` is zero, a message in a
queue is about to be taken back out. -/
theorem Queues.idleCheck (h : Queues s) (hm : setBits s.rxNonemptyBm = []) (hw : ¬ PushWindow s)
    {i : Ksk} (hi : s.rxQ i ≠ []) : ∃ p k, s.push p = .setBit i (some k) := by
  cases hl : s.rxLock i with
  | none =>
      have := (h.bm i hl).mpr hi
      rw [setBits_eq_nil.mp hm i] at this
      cases this
  | some p =>
      have hlock := (h.lock_iff i p).mp hl
      have hk := h.knows i p hl
      cases hpc : s.push p with
      | enqueue skb j => rw [hpc] at hk; exact absurd hk hi
      | setBit j k =>
          obtain rfl : j = i := by
            rw [hpc] at hlock
            exact Option.some.inj hlock
          cases k with
          | none => exact absurd ⟨p, j, hpc⟩ hw
          | some k => exact ⟨p, k, hpc⟩
      | _ => rw [hpc] at hlock; cases hlock

/-- A push queues its message and unparks a socket for it. -/
theorem Conserving.pushWaiter (h : Conserving s) {p : ℕ} {skb : Skb} {chosen ksk first : Ksk}
    {rest : List Ksk} {q : List Skb} (hp : s.push p = .enqueue skb chosen)
    (hw : s.kskWaiters = first :: rest) :
    Conserving (((s.setRxQ chosen q).unpark ksk).setPush p (.setBit chosen (some ksk))) := by
  constructor
  · intro r i hr
    have hrp : r ≠ p := by
      rintro rfl
      simp at hr
    have := h.window r i (by simpa [State.unpark, hrp] using hr)
    rw [hw] at this
    cases this
  · intro i hi
    by_cases hic : i = chosen
    · subst hic
      exact Or.inr ⟨p, ksk, by simp⟩
    · rcases h.queued i (by simpa [State.unpark, hic] using hi) with hn | ⟨r, k, hr⟩
      · rw [hw] at hn; cases hn
      · have hrp : r ≠ p := by
          rintro rfl
          rw [hp] at hr
          cases hr
        exact Or.inr ⟨r, k, by simpa [State.unpark, hrp] using hr⟩

/-- A push takes the only message out for the socket it unparked. -/
theorem Conserving.pushTake (h : Conserving s) {p : ℕ} {chosen ksk : Ksk} {skb : Skb} {b : Bool}
    (hp : s.push p = .setBit chosen (some ksk)) :
    Conserving ((((s.setRxQ chosen []).setNonempty chosen b).setRxLock chosen none).setPush p
      (.deliver ksk skb)) := by
  constructor
  · intro r i hr
    have hrp : r ≠ p := by
      rintro rfl
      simp at hr
    exact h.window r i (by simpa [hrp] using hr)
  · intro i hi
    have hic : i ≠ chosen := by
      rintro rfl
      simp at hi
    rcases h.queued i (by simpa [hic] using hi) with hn | ⟨r, k, hr⟩
    · exact Or.inl hn
    · have hrp : r ≠ p := by
        rintro rfl
        rw [hp] at hr
        exact hic (PushPc.setBit.inj hr).1.symm
      exact Or.inr ⟨r, k, by simpa [hrp] using hr⟩

theorem conserving_step (hs : Step v s a s' e) (hg : RegistersOutsideWindow s a) (hq : Queues s)
    (hb : Booted s) (h : Conserving s) : Conserving s' := by
  cases hs with
  | createPlain hn _ => exact h.congr rfl rfl (fun i hi => by rwa [← hq.update_unborn hn])
  | createGrpc hn _ =>
      have h0 := hb.before_create hn
      refine .of_empty (fun p => hq.fresh p (by omega)) (fun i => ?_)
      exact (congrFun (hq.update_unborn hn) i).trans (hb.empty h0 i)
  | createRegister ksk hk =>
      have h0 := hb.before_register hk
      exact .of_empty (fun p => hq.fresh p (by omega)) (hb.empty h0)
  | pushStart psock cb truesize r1 r2 hn =>
      have h' : Conserving { s with nextId := s.nextId + 1 } := h.congr rfl rfl (fun _ hi => hi)
      exact h'.setPush (by simp [hq.fresh s.nextId le_rfl]) (by simp)
  | pushMove p b pc pc' hp hm => exact h.setPush (by rw [hp]; exact hm.ne_setBit.1) hm.ne_setBit.2
  | pushTail p b skb chosen hp hl hne =>
      have h' : Conserving (s.setPush p .idle) := h.setPush (by simp [hp]) (by simp)
      have hw : s.kskWaiters = [] := by
        rcases h.queued chosen hne with hw | ⟨q, k, hk⟩
        · exact hw
        · rw [(hq.lock_iff chosen q).mpr (by rw [hk]; rfl)] at hl
          cases hl
      exact ⟨h'.window, fun i _ => Or.inl hw⟩
  | pushLock p b skb chosen hp hl he =>
      have h' : Conserving (s.setPush p (.enqueue skb chosen)) := h.setPush (by simp [hp]) (by simp)
      exact h'.congr rfl rfl (fun _ hi => hi)
  | pushNoWaiter p b skb chosen hp hw => exact ⟨fun _ _ _ => hw, fun _ _ => Or.inl hw⟩
  | pushWaiter p b skb chosen ksk first rest hp hw hk => exact h.pushWaiter hp hw
  | pushSetBit p b chosen hp =>
      have hw := h.window p chosen hp
      exact ⟨fun _ _ _ => hw, fun _ _ => Or.inl hw⟩
  | pushTake p b chosen ksk skb rest hp he =>
      have hlen : (s.rxQ chosen).length = 1 := hq.knows_of_locks hp rfl
      obtain rfl : rest = [] := by simpa [he] using hlen
      exact h.pushTake hp
  | pushOops p b chosen ksk hp he =>
      have hlen : (s.rxQ chosen).length = 1 := hq.knows_of_locks hp rfl
      simp [he] at hlen
  | pushRefused p b ksk skb hp => exact h.setPush (by simp [hp]) (by simp)
  | pushCharge p b ksk skb hp =>
      have h' : Conserving (s.setPush p .idle) := h.setPush (by simp [hp]) (by simp)
      exact h'.congr rfl rfl (fun _ hi => hi)
  | pullTake t r b pc ksk i skb rest hp ht hl he =>
      obtain ⟨h₁, -, -, -, h₅, -, -, -, -, h₁₀⟩ := afterTake_fields s i rest
      refine h.congr h₁ h₅ (fun j hj => ?_)
      by_cases hji : j = i
      · subst hji; simp [he]
      · simpa [h₁₀, hji] using hj
  | pullRegister t r b ksk hp hm hbit =>
      have hw := hg ksk hp hm hbit
      exact ⟨fun p i hc => absurd ⟨p, i, hc⟩ hw, fun i hi => Or.inr (hq.idleCheck hm hw hi)⟩
  | _ => exact h.congr rfl rfl (fun _ hi => hi)

/-- The steps of a run that creates all sockets first and never registers in the window. -/
def Undisturbed (s : State) (a : Act) : Prop := CreatedFirst s a ∧ RegistersOutsideWindow s a

theorem conserving_of_reach (h : (machine v).Reach Undisturbed s es) : Conserving s :=
  h.invariant (P := fun s _ => Conserving s) (.of_empty (fun _ => rfl) (fun _ => rfl))
    (fun _ _ _ _ _ hr ih hg hs => conserving_step (step_cases hs) hg.2 (queues_of_reach hr)
      (booted_of_reach (fun _ _ hg => hg.1) hr) ih)

/-- **Work conservation outside the window.**  In every run that creates all sockets before the
first push and in which no pull registers while a push stands between its section under
`waiters_lock`, in which it found no parked socket, and its `set_bit`: when no push and no pull is
in progress, a non-empty receive queue excludes a parked socket. -/
theorem no_message_stranded (h : (machine .plainTcp).Reach Undisturbed s es) (hq : Quiescent s)
    {i : Ksk} (hi : s.rxQ i ≠ []) : s.kskWaiters = [] := by
  rcases (conserving_of_reach h).queued i hi with hw | ⟨p, k, hp⟩
  · exact hw
  · rw [hq.1 p] at hp
    cases hp

/-! ### A run in which a message waits, and one in which it is stranded -/

/-- The creation condition, evaluated, with one pulling thread. -/
def createdFirst (s : State) (a : Act) : Bool := a.onlyThread 0 && decide (CreatedFirst s a)

theorem createdFirst_sound {s : State} {a : Act} (h : createdFirst s a = true) :
    CreatedFirst s a ∧ a.onlyThread 0 = true := by
  rw [createdFirst, Bool.and_eq_true] at h
  exact ⟨of_decide_eq_true h.2, h.1⟩

/-- What the two runs are asked about: the calls in progress, the messages of queue 0, the parked
sockets. -/
def look (s : State) : (Bool × Bool) × List ℕ × List Ksk :=
  (((List.range s.nextId).all (fun p => (s.push p).isIdle), (s.pull 0).isIdle),
    (s.rxQ 0).map Skb.id, s.kskWaiters)

theorem quiescent_of_look {G : State → Act → Prop} (hG : ∀ s a, G s a → a.onlyThread 0 = true)
    (h : (machine v).Reach G s es) (hl : (look s).1 = (true, true)) : Quiescent s := by
  obtain ⟨hp, ht⟩ := Prod.mk.inj hl
  refine ⟨fun p => ?_, fun t => ?_⟩
  · rcases Nat.lt_or_ge p s.nextId with hlt | hge
    · exact PushPc.eq_idle (List.all_eq_true.mp hp p (List.mem_range.mpr hlt))
    · exact (queues_of_reach h).fresh p hge
  · by_cases h0 : t = 0
    · subst h0; exact PullPc.eq_idle ht
    · exact pull_idle_of_reach hG h h0

/-- All sockets are busy; a further message enters queue 0 and waits. -/
theorem no_message_stranded_when_busy : ∃ s es, (machine .plainTcp).Reach Undisturbed s es ∧
    Quiescent s ∧ s.rxQ 0 ≠ [] ∧ s.kskWaiters = [] := by
  obtain ⟨s, es, hr, hy⟩ := Machine.Reach.of_exec (M := machine .plainTcp)
    (G := fun s a => Undisturbed s a ∧ a.onlyThread 0 = true)
    (g := fun s a => createdFirst s a && match a with | .pull .. => false | _ => true)
    (busyActs ++ handTo 1 0 :: List.replicate 5 (.push 20 ample))
    (by
      intro s a _ h
      rw [Bool.and_eq_true] at h
      obtain ⟨hc, ht⟩ := createdFirst_sound h.1
      refine ⟨⟨hc, ?_⟩, ht⟩
      cases a with
      | pull => cases h.2
      | _ => trivial)
    (fun r => look r.1) ((true, true), [20], []) (by decide +kernel)
  have hq := quiescent_of_look (fun _ _ hg => hg.2) hr (by rw [hy])
  have hr' := hr.mono (fun _ _ _ _ hg => hg.1)
  have hne : s.rxQ 0 ≠ [] := by
    intro hc
    simp [look, hc] at hy
  exact ⟨s, es, hr', hq, hne, no_message_stranded hr' hq hne⟩

/-- Socket 0 has answered its message and pulls; message 20 is pushed to queue 0.  The push finds
no parked socket, the pull registers socket 0, the push sets its bit. -/
def strandingActs : List Act :=
  busyActs ++ [.recvmsg 0, .pullStart 0 0, .pull 0 0 ample, .pull 0 0 ample] ++
    handTo 1 0 :: List.replicate 4 (.push 20 ample) ++ [.pull 0 0 ample, .push 20 ample]

theorem message_stranded : ¬ ∀ s es, (machine .plainTcp).Reach CreatedFirst s es → Quiescent s →
    ∀ i, s.rxQ i ≠ [] → s.kskWaiters = [] := by
  intro hall
  obtain ⟨s, es, hr, hy⟩ := Machine.Reach.of_exec (M := machine .plainTcp)
    (G := fun s a => CreatedFirst s a ∧ a.onlyThread 0 = true) (g := createdFirst)
    strandingActs (fun _ _ _ h => createdFirst_sound h) (fun r => look r.1)
    ((true, true), [20], [0]) (by decide +kernel)
  have hq := quiescent_of_look (fun _ _ hg => hg.2) hr (by rw [hy])
  have hw := hall s es (hr.mono (fun _ _ _ _ hg => hg.1)) hq 0 (by intro hc; simp [look, hc] at hy)
  simp [look, hw] at hy

end Rakaia.Sched
