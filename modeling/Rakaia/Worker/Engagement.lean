import Rakaia.Lib.Ledger
import Rakaia.Worker.State

/-! # What a socket is engaged in

A socket whose creation has returned should be engaged in exactly one thing: it is parked in
`ksk_waiters`, a push is on its way to it with a message, a message is in its `sk_receive_queue`, or
its worker is busy with one, up to the end of the `rakaia_pull` that follows.  `seats` is the ledger
of these engagements, and `shift_of_step` says what every step of the server does to it.  The first
`rakaia_pull` of a worker is not an engagement: the socket is parked by then, or was parked and is
engaged elsewhere. -/

namespace Rakaia.Worker

open Lib
open Sched (Ksk numRakaiaSockets PushPc PullPc)

variable {s s' : State} {a : Act} {e : List Event}

/-! ### The workers' loop -/

/-- `rakaia_create` of the socket has returned. -/
def Created (s : Sched.State) (i : Ksk) : Prop := i.val < s.socksCnt ∧ s.creating i = false

theorem created_mono {v : Variant} {s s' : Sched.State} {a : Sched.Act} {e : List Sched.Event}
    (hs : Sched.Step v s a s' e) {i : Ksk} (h : Created s i) : Created s' i := by
  cases hs with
  | createPlain hn _ =>
      have hne : i ≠ ⟨s.socksCnt, hn⟩ := by
        rintro rfl
        exact lt_irrefl _ h.1
      exact ⟨Nat.lt_succ_of_lt h.1, by simpa [hne] using h.2⟩
  | createGrpc hn _ => exact ⟨Nat.lt_succ_of_lt h.1, h.2⟩
  | createRegister ksk _ =>
      refine ⟨h.1, ?_⟩
      by_cases hne : i = ksk
      · simp [Sched.State.park, hne]
      · simpa [Sched.State.park, hne] using h.2
  | pullTake t r b pc ksk j skb rest =>
      obtain ⟨-, -, h₃, h₄, -⟩ := Sched.afterTake_fields s j rest
      exact ⟨by simpa [h₄] using h.1, by simpa [h₃] using h.2⟩
  | _ => exact h

/-- A step of a pull moves that pull, on its socket or to its end. -/
theorem pull_step {v : Variant} {s s' : Sched.State} {t : ℕ} {r : UInt8} {b : Sched.Budget}
    {e : List Sched.Event} (hs : Sched.Step v s (.pull t r b) s' e) :
    ∃ pc, s'.pull = Function.update s.pull t pc ∧ s.pull t ≠ .idle ∧
      (pc = .idle ∨ pc.ksk? = (s.pull t).ksk?) := by
  cases hs with
  | pullMove t r b pc pc' hp hm =>
      refine ⟨pc', rfl, by rw [hp]; cases hm <;> simp, ?_⟩
      cases hk : pc'.ksk? with
      | none => exact .inl (by cases pc' <;> first | rfl | cases hk)
      | some k => exact .inr (by rw [hp, hm.ksk? hk])
  | pullTake t r b pc ksk i skb rest hp ht =>
      refine ⟨.deliver ksk skb, ?_, ?_, .inr (by rw [hp, ht.ksk?]; rfl)⟩
      · rw [Sched.State.setPull, (Sched.afterTake_fields s i rest).2.2.2.2.2.1]
      · rw [hp]
        rcases ht with ⟨rfl, -⟩ | rfl <;> simp
  | pullRegister t r b ksk hp => exact ⟨.idle, rfl, by simp [hp], .inl rfl⟩
  | pullRefused t r b ksk skb hp => exact ⟨.idle, rfl, by simp [hp], .inl rfl⟩
  | pullCharge t r b ksk skb hp => exact ⟨.idle, rfl, by simp [hp], .inl rfl⟩

/-- The worker is in a call of `rakaia_pull`. -/
def Pc.Pulls (pc : Pc) : Prop := pc = .firstPull ∨ pc = .nextPull

/-- Only workers call `rakaia_pull`. -/
def Act.own : Act → Bool
  | .sched (.pullStart t _) => decide (t < numRakaiaSockets)
  | _ => true

/-- The positions of the workers agree with the pulls in progress. -/
structure Loop (s : State) : Prop where
  idle : ∀ i, ¬ (s.pc i).Pulls → s.sched.pull i.val = .idle
  pulls : ∀ i, (s.pc i).Pulls → (s.sched.pull i.val).ksk? = some i
  others : ∀ t, numRakaiaSockets ≤ t → s.sched.pull t = .idle
  created : ∀ i, s.pc i ≠ .start → Created s.sched i

theorem loop_init (writeSeq : PsockPtr → UInt32) : Loop (State.init writeSeq) where
  idle _ _ := rfl
  pulls i h := by rcases h with h | h <;> cases h
  others _ _ := rfl
  created i h := absurd rfl h

/-- Only one worker moves, with its pull. -/
theorem Loop.frame (h : Loop s) (ksk : Ksk) (hpull : ∀ t, t ≠ ksk.val → s'.sched.pull t = s.sched.pull t)
    (hpc : ∀ i, i ≠ ksk → s'.pc i = s.pc i) (hcreated : ∀ i, Created s.sched i → Created s'.sched i)
    (hksk : Created s.sched ksk)
    (hself : (s'.pc ksk).Pulls ∧ (s'.sched.pull ksk.val).ksk? = some ksk ∨
      ¬ (s'.pc ksk).Pulls ∧ s'.sched.pull ksk.val = .idle) : Loop s' := by
  have hval : ∀ i, i ≠ ksk → i.val ≠ ksk.val := fun i hi hv => hi (Fin.ext hv)
  constructor
  · intro i hi
    by_cases hik : i = ksk
    · subst hik
      exact hself.elim (fun hc => absurd hc.1 hi) And.right
    · rw [hpull _ (hval i hik)]
      exact h.idle i (hpc i hik ▸ hi)
  · intro i hi
    by_cases hik : i = ksk
    · subst hik
      exact hself.elim And.right (fun hc => absurd hi hc.1)
    · rw [hpull _ (hval i hik)]
      exact h.pulls i (hpc i hik ▸ hi)
  · intro t ht
    rw [hpull t (fun hc => absurd ksk.isLt (by omega))]
    exact h.others t ht
  · intro i hi
    by_cases hik : i = ksk
    · exact hik ▸ hcreated ksk hksk
    · exact hcreated i (h.created i (hpc i hik ▸ hi))

/-- A worker moves between positions outside `rakaia_pull`. -/
theorem Loop.setPc (h : Loop s) {ksk : Ksk} {pc : Pc} (hne : s.pc ksk ≠ .start) (hk : ¬ (s.pc ksk).Pulls)
    (hpc : ¬ pc.Pulls) (hpull : s'.sched.pull = s.sched.pull) (hcnt : s'.sched.socksCnt = s.sched.socksCnt)
    (hcre : s'.sched.creating = s.sched.creating) (hs : s'.pc = Function.update s.pc ksk pc) : Loop s' := by
  refine h.frame ksk (fun t _ => by rw [hpull]) (fun i hi => by rw [hs, Function.update_of_ne hi])
    (fun i hi => by unfold Created; rwa [hcnt, hcre]) (h.created ksk hne) (.inr ?_)
  rw [hs, hpull, Function.update_self]
  exact ⟨hpc, h.idle ksk hk⟩

/-- A worker calls `rakaia_pull`. -/
theorem Loop.callPull (h : Loop s) {ksk : Ksk} {pc : Pc} (hc : Created s.sched ksk) (hpc : pc.Pulls)
    (hpull : s'.sched.pull = Function.update s.sched.pull ksk.val (.own ksk))
    (hcnt : s'.sched.socksCnt = s.sched.socksCnt) (hcre : s'.sched.creating = s.sched.creating)
    (hs : s'.pc = Function.update s.pc ksk pc) : Loop s' := by
  refine h.frame ksk (fun t ht => by rw [hpull, Function.update_of_ne ht])
    (fun i hi => by rw [hs, Function.update_of_ne hi]) (fun i hi => by unfold Created; rwa [hcnt, hcre]) hc
    (.inl ?_)
  rw [hs, hpull, Function.update_self, Function.update_self]
  exact ⟨hpc, rfl⟩

/-- The worker that makes a step of a pull. -/
theorem pull_worker (hl : Loop s) {t : ℕ} {r : UInt8} {b : Sched.Budget} {sc : Sched.State}
    {es : List Sched.Event} (hs : Sched.Step .plainTcp s.sched (.pull t r b) sc es) :
    ∃ i : Ksk, i.val = t ∧ (s.sched.pull t).ksk? = some i ∧ (s.pc i).Pulls ∧
      (sc.pull t = .idle ∧ s.pcAfter (.pull t r b) sc = Function.update s.pc i .waiting ∨
        sc.pull t ≠ .idle ∧ s.pcAfter (.pull t r b) sc = s.pc) := by
  obtain ⟨pc, -, hne, -⟩ := pull_step hs
  have ht : t < numRakaiaSockets := by
    by_contra hc
    exact hne (hl.others t (not_lt.mp hc))
  have hown : (s.pc ⟨t, ht⟩).Pulls := by
    by_contra hc
    exact hne (hl.idle ⟨t, ht⟩ hc)
  refine ⟨⟨t, ht⟩, rfl, hl.pulls ⟨t, ht⟩ hown, hown, ?_⟩
  by_cases hidle : (sc.pull t).isIdle = true
  · exact .inl ⟨PullPc.eq_idle hidle, by simp [State.pcAfter, ht, hidle]⟩
  · exact .inr ⟨fun hc => hidle (by rw [hc]; rfl), by simp [State.pcAfter, hidle]⟩

/-- A pull makes a step; the worker waits if it was the last one. -/
theorem Loop.movePull (h : Loop s) {t : ℕ} {r : UInt8} {b : Sched.Budget} {sc : Sched.State}
    {e : List Sched.Event} (hs : Sched.Step .plainTcp s.sched (.pull t r b) sc e) :
    Loop { s with sched := sc, pc := s.pcAfter (.pull t r b) sc } := by
  obtain ⟨i, rfl, hi, hpulls, hafter⟩ := pull_worker h hs
  obtain ⟨pc, hpull, -, hpc⟩ := pull_step hs
  have hself : sc.pull i.val = pc := by rw [hpull, Function.update_self]
  have hstart : s.pc i ≠ .start := by rcases hpulls with hp | hp <;> simp [hp]
  refine h.frame i (fun t ht => by rw [hpull, Function.update_of_ne ht]) ?_
    (fun j hj => created_mono hs hj) (h.created i hstart) ?_
  · intro j hj
    dsimp only
    rcases hafter with ⟨-, ha⟩ | ⟨-, ha⟩
    · rw [ha, Function.update_of_ne hj]
    · rw [ha]
  · dsimp only
    rcases hafter with ⟨hidle, ha⟩ | ⟨hidle, ha⟩
    · rw [ha, Function.update_self]
      exact .inr ⟨by simp [Pc.Pulls], hidle⟩
    · rw [ha, hself, hpc.resolve_left (hself ▸ hidle)]
      exact .inl ⟨hpulls, hi⟩

/-- The scheduler makes a step that is not one of a pull. -/
theorem Loop.sched (h : Loop s) {b : Sched.Act} {sc : Sched.State} {e : List Sched.Event}
    (hs : Sched.Step .plainTcp s.sched b sc e) (hpull : sc.pull = s.sched.pull) :
    Loop { s with sched := sc } where
  idle i hi := by rw [hpull]; exact h.idle i hi
  pulls i hi := by rw [hpull]; exact h.pulls i hi
  others t ht := by rw [hpull]; exact h.others t ht
  created i hi := created_mono hs (h.created i hi)

theorem loop_step (hs : Step s a s' e) (ha : a.own = true) (h : Loop s) : Loop s' := by
  cases hs with
  | sched b sc es hm hb =>
      have hstep := Sched.step_cases hb
      cases b with
      | pull t r b => exact h.movePull hstep
      | pullStart t ksk =>
          have ht : t = ksk.val := by
            simp only [State.mayRun, decide_eq_true_eq] at hm
            exact hm.elim And.left (fun hle => absurd (of_decide_eq_true ha) (not_lt.mpr hle))
          cases hstep with
          | pullStart _ _ hp hlt hc =>
              subst ht
              exact h.callPull ⟨hlt, hc⟩ (.inl rfl) rfl rfl rfl (by simp [State.pcAfter])
      | recvmsg ksk => cases hm
      | create => exact h.sched hstep (by cases hstep <;> rfl)
      | createRegister ksk => exact h.sched hstep (by cases hstep; rfl)
      | pushStart psock cb n r1 r2 => exact h.sched hstep (by cases hstep; rfl)
      | push p b => exact h.sched hstep (by cases hstep <;> rfl)
  | received ksk skb rest hpc hq =>
      exact h.setPc (by simp [hpc]) (by simp [hpc, Pc.Pulls]) (by simp [Pc.Pulls]) rfl rfl rfl rfl
  | recvFault ksk skb rest hpc hq =>
      exact h.setPc (by simp [hpc]) (by simp [hpc, Pc.Pulls]) (by simp [Pc.Pulls]) rfl rfl rfl rfl
  | sendError ksk segments hpc _ =>
      exact h.setPc (by simp [hpc]) (by simp [hpc, Pc.Pulls]) (by simp [Pc.Pulls]) rfl rfl rfl rfl
  | spliced ksk lens psock hpc _ _ _ =>
      exact h.setPc (by simp [hpc]) (by simp [hpc, Pc.Pulls]) (by simp [Pc.Pulls]) rfl rfl rfl rfl
  | sent ksk psock hpc hidle hp hb hc => exact h.callPull ⟨hb, hc⟩ (.inr rfl) rfl rfl rfl rfl
  | tx psock b tx es hm hb => exact ⟨h.idle, h.pulls, h.others, h.created⟩

/-! ### The ledger of engagements -/

/-- What a socket can be engaged in. -/
inductive Seat where
  /-- In `ksk_waiters`. -/
  | parked
  /-- The push that was called with message `p` is on its way to the socket. -/
  | push (p : ℕ)
  /-- A message is in `sk_receive_queue`. -/
  | queue (ksk : Ksk)
  /-- The worker is busy with a message, or looks for the next one. -/
  | worker (ksk : Ksk)
deriving DecidableEq

/-- The socket that a push is on its way to. -/
def target : PushPc → List Ksk
  | .setBit _ (some ksk) | .deliver ksk _ | .charge ksk _ => [ksk]
  | _ => []

/-- The worker is busy with a message, or looks for the next one. -/
def Pc.busy : Pc → Bool
  | .serving | .sending _ | .nextPull => true
  | .start | .firstPull | .waiting => false

/-- The engagements of the sockets, one entry for each. -/
def seats (s : State) : Seat → List Ksk
  | .parked => s.sched.kskWaiters
  | .push p => target (s.sched.push p)
  | .queue i => List.replicate (s.sched.receiveQ i).length i
  | .worker i => if (s.pc i).busy then [i] else []

/-- What makes a socket lose its engagement: a delivery is refused, `rakaia_recvmsg` fails with a
message in hand, or `rakaia_sendmsg` fails. -/
def mishap (s : State) : Act → Bool
  | .sched (.push p budget) =>
      match s.sched.push p with
      | .deliver ksk _ => !Sched.rcvSkbAccepted .plainTcp s.sched ksk budget
      | _ => false
  | .sched (.pull t _ budget) =>
      match s.sched.pull t with
      | .deliver ksk _ => !Sched.rcvSkbAccepted .plainTcp s.sched ksk budget
      | _ => false
  | .recvmsg _ copied => !copied
  | .sendmsg ksk segments => segments.isNone || decide (s.lastPsock ksk = 0)
  | _ => false

/-- What gives a socket a second engagement: the first pull of its worker delivers a message, or parks
the socket again. -/
def surplus (s : State) : Act → Bool
  | .sched (.pull t _ _) =>
      match s.sched.pull t with
      | .charge ksk _ => decide (s.pc ksk = .firstPull)
      | .register ksk => decide (s.pc ksk = .firstPull) &&
          ((Sched.setBits s.sched.rxNonemptyBm).isEmpty && !s.sched.waitersBm ksk)
      | _ => false
  | _ => false

/-- What a step does to the engagements. -/
inductive Shift (s : State) (a : Act) (s' : State) : Prop
  | stay : seats s' = seats s → Shift s a s'
  | move (x : Ksk) (k k' : Seat) : Moved (seats s) (seats s') x k k' → Shift s a s'
  /-- A new socket is parked. -/
  | create (x : Ksk) : ¬ Created s.sched x → Created s'.sched x →
      Entered (seats s) (seats s') x .parked → Shift s a s'
  | extra (x : Ksk) (k : Seat) : surplus s a = true → Entered (seats s) (seats s') x k → Shift s a s'
  /-- A pull finds its socket parked. -/
  | again (x : Ksk) : x ∈ s'.sched.kskWaiters → Entered (seats s') (seats s) x (.worker x) → Shift s a s'
  | lost (x : Ksk) (k : Seat) : mishap s a = true → Entered (seats s') (seats s) x k → Shift s a s'

theorem seats_congr (hw : s'.sched.kskWaiters = s.sched.kskWaiters)
    (hp : ∀ p, target (s'.sched.push p) = target (s.sched.push p))
    (hr : s'.sched.receiveQ = s.sched.receiveQ) (hb : ∀ i, (s'.pc i).busy = (s.pc i).busy) :
    seats s' = seats s := by
  funext k
  cases k <;> simp [seats, hw, hp, hr, hb]

/-- A push moves to a position with the same target. -/
theorem target_update {push : ℕ → PushPc} {p : ℕ} {pc : PushPc} (h : target pc = target (push p)) (q : ℕ) :
    target (Function.update push p pc q) = target (push q) := by
  by_cases hq : q = p
  · rw [hq, Function.update_self, h]
  · rw [Function.update_of_ne hq]

theorem busy_update {pcs : Ksk → Pc} {i : Ksk} {pc : Pc} (h : pc.busy = (pcs i).busy) (j : Ksk) :
    (Function.update pcs i pc j).busy = (pcs j).busy := by
  by_cases hj : j = i
  · rw [hj, Function.update_self, h]
  · rw [Function.update_of_ne hj]

theorem target_of_pushMove {sc : Sched.State} {pc pc' : PushPc} (h : Sched.PushMove sc pc pc') :
    target pc' = target pc := by
  cases h <;> rfl

/-! The engagements after each of the changes that steps are made of. -/

section seats

variable {sc : Sched.State} {ksk : Ksk}

theorem seats_setPull (t : ℕ) (pc : PullPc) :
    seats { s with sched := sc.setPull t pc } = seats { s with sched := sc } :=
  seats_congr rfl (fun _ => rfl) rfl (fun _ => rfl)

theorem seats_setPush (p : ℕ) (pc : PushPc) : seats { s with sched := sc.setPush p pc } =
    Function.update (seats { s with sched := sc }) (.push p) (target pc) := by
  funext k
  cases k with
  | push q => by_cases hq : q = p <;> simp [seats, hq]
  | _ => rfl

theorem seats_unpark : seats { s with sched := sc.unpark ksk } =
    Function.update (seats { s with sched := sc }) .parked (sc.kskWaiters.erase ksk) := by
  funext k
  cases k <;> rfl

theorem seats_park : seats { s with sched := sc.park ksk } =
    Function.update (seats { s with sched := sc }) .parked (sc.kskWaiters ++ [ksk]) := by
  funext k
  cases k <;> rfl

theorem seats_chargeRcvSkb (skb : Skb) : seats { s with sched := Sched.chargeRcvSkb .plainTcp sc ksk skb } =
    Function.update (seats { s with sched := sc }) (.queue ksk)
      (ksk :: seats { s with sched := sc } (.queue ksk)) := by
  funext k
  cases k with
  | queue i => by_cases hi : i = ksk <;> simp [seats, Sched.chargeRcvSkb, hi, List.replicate_succ]
  | _ => rfl

theorem seats_setPc (pc : Pc) : seats (s.setPc ksk pc) =
    Function.update (seats s) (.worker ksk) (if pc.busy then [ksk] else []) := by
  funext k
  cases k with
  | worker i => by_cases hi : i = ksk <;> simp [seats, hi]
  | _ => rfl

theorem seats_setPc_of_busy {pc : Pc} (h : pc.busy = (s.pc ksk).busy) : seats (s.setPc ksk pc) = seats s :=
  seats_congr rfl (fun _ => rfl) rfl (busy_update h)

theorem seats_take (skb : Skb) (rest : List Skb) : seats (s.take ksk skb rest) =
    Function.update (seats s) (.queue ksk) (List.replicate rest.length ksk) := by
  funext k
  cases k with
  | queue i => by_cases hi : i = ksk <;> simp [seats, State.take, hi]
  | _ => rfl

end seats

theorem Shift.stay_push {sc : Sched.State} {p : ℕ} {pc : PushPc}
    (hpush : sc.push = Function.update s.sched.push p pc) (ht : target pc = target (s.sched.push p))
    (hw : sc.kskWaiters = s.sched.kskWaiters) (hr : sc.receiveQ = s.sched.receiveQ) :
    Shift s a { s with sched := sc } := by
  refine .stay (seats_congr hw (fun q => ?_) hr (fun _ => rfl))
  change target (sc.push q) = _
  rw [hpush]
  exact target_update ht q

/-- What a push does to the engagements. -/
theorem shift_of_push {p : ℕ} {b : Sched.Budget} {sc : Sched.State} {es : List Sched.Event}
    (hw : Sched.Waiters s.sched) (hq : Sched.Queues s.sched)
    (hs : Sched.Step .plainTcp s.sched (.push p b) sc es) :
    Shift s (.sched (.push p b)) { s with sched := sc } := by
  cases hs with
  | pushMove p b pc pc' hp hm =>
      exact .stay_push rfl (by rw [target_of_pushMove hm, hp]) rfl rfl
  | pushTail p b skb chosen hp _ _ =>
      exact .stay_push rfl (congrArg target hp).symm rfl rfl
  | pushLock p b skb chosen hp _ _ =>
      exact .stay_push rfl (congrArg target hp).symm rfl rfl
  | pushNoWaiter p b skb chosen hp _ =>
      exact .stay_push rfl (congrArg target hp).symm rfl rfl
  | pushWaiter p b skb chosen ksk first rest hp hl hk =>
      have hmem : ksk ∈ s.sched.kskWaiters := hk ▸ hw.chosen_mem hl
      refine .move ksk .parked (.push p) ?_
      rw [seats_setPush, seats_unpark, Function.update_comm (by simp)]
      exact .of_update (by simp) (List.perm_cons_erase hmem) (by simp [seats, hp, target])
  | pushSetBit p b chosen hp =>
      exact .stay_push rfl (congrArg target hp).symm rfl rfl
  | pushTake p b chosen ksk skb rest hp _ =>
      exact .stay_push rfl (congrArg target hp).symm rfl rfl
  | pushOops p b chosen ksk hp hn =>
      have hlen : (s.sched.rxQ chosen).length = 1 := hq.knows_of_locks hp rfl
      simp [hn] at hlen
  | pushRefused p b ksk skb hp ha =>
      refine .lost ksk (.push p) (by simp [mishap, hp, ha]) ?_
      rw [seats_setPush]
      exact .of_update_left (by simp [seats, hp, target])
  | pushCharge p b ksk skb hp =>
      refine .move ksk (.push p) (.queue ksk) ?_
      rw [seats_setPush, seats_chargeRcvSkb]
      exact .of_update (by simp) (by simp [seats, hp, target]) (.refl _)

/-- The last step of a pull: the worker was busy until then, unless it is its first pull. -/
theorem pull_end (hl : Loop s) {t : ℕ} {r : UInt8} {b : Sched.Budget} {sc : Sched.State}
    {es : List Sched.Event} (hs : Sched.Step .plainTcp s.sched (.pull t r b) sc es) (ksk : Ksk)
    (hk : (s.sched.pull t).ksk? = some ksk) (hidle : sc.pull t = .idle) :
    s.pc ksk = .firstPull ∧
        seats { s with sched := sc, pc := s.pcAfter (.pull t r b) sc } = seats { s with sched := sc } ∨
      seats s (.worker ksk) = [ksk] ∧ seats { s with sched := sc, pc := s.pcAfter (.pull t r b) sc } =
        Function.update (seats { s with sched := sc }) (.worker ksk) [] := by
  obtain ⟨i, rfl, hi, hpulls, hafter⟩ := pull_worker hl hs
  obtain rfl : i = ksk := Option.some.inj (hi.symm.trans hk)
  rcases hafter with ⟨-, hpc⟩ | ⟨hc, -⟩
  · rw [hpc]
    rcases hpulls with hfirst | hnext
    · exact .inl ⟨hfirst, seats_setPc_of_busy (s := { s with sched := sc }) (by rw [hfirst]; rfl)⟩
    · exact .inr ⟨by simp [seats, hnext, Pc.busy], seats_setPc (s := { s with sched := sc }) .waiting⟩
  · exact absurd hidle hc

/-- What a pull does to the engagements. -/
theorem shift_of_pull (hl : Loop s) (hw : Sched.Waiters s.sched) {t : ℕ} {r : UInt8} {b : Sched.Budget}
    {sc : Sched.State} {es : List Sched.Event} (hs : Sched.Step .plainTcp s.sched (.pull t r b) sc es) :
    Shift s (.sched (.pull t r b)) { s with sched := sc, pc := s.pcAfter (.pull t r b) sc } := by
  have hend := pull_end hl hs
  obtain ⟨i, -, -, -, hafter⟩ := pull_worker hl hs
  cases hs with
  | pullMove t r b pc pc' hp hm =>
      cases hm with
      | registered ksk hbm hwb =>
          rcases hend ksk (by rw [hp]; rfl) (by simp) with ⟨-, hse⟩ | ⟨hbusy, hse⟩
          · exact .stay (hse.trans (seats_setPull t .idle))
          · refine .again ksk ((hw.mem_iff ksk).mpr hwb) ?_
            rw [hse, seats_setPull]
            exact .of_update_left (by rw [hbusy])
      | _ =>
          rcases hafter with ⟨hidle, -⟩ | ⟨-, hpc⟩
          · simp at hidle
          · rw [hpc]
            exact .stay (seats_setPull t _)
  | pullTake t r b pc ksk j skb rest hp ht _ _ =>
      obtain ⟨h₁, -, -, -, h₅, -, h₇, -⟩ := Sched.afterTake_fields s.sched j rest
      rcases hafter with ⟨hidle, -⟩ | ⟨-, hpc⟩
      · simp at hidle
      · rw [hpc]
        exact .stay (seats_congr h₁ (fun p => by simp [h₅]) h₇ (fun _ => rfl))
  | pullRegister t r b ksk hp hm hb =>
      rcases hend ksk (by rw [hp]; rfl) (by simp) with ⟨hfirst, hse⟩ | ⟨hbusy, hse⟩
      · refine .extra ksk .parked (by simp [surplus, hp, hfirst, hm, hb]) ?_
        rw [hse, seats_setPull, seats_park]
        exact .of_update (List.perm_append_singleton ksk _)
      · refine .move ksk (.worker ksk) .parked ?_
        rw [hse, seats_setPull, seats_park]
        exact .of_update (by simp) (by rw [hbusy]) (List.perm_append_singleton ksk _)
  | pullRefused t r b ksk skb hp ha =>
      rcases hend ksk (by rw [hp]; rfl) (by simp) with ⟨-, hse⟩ | ⟨hbusy, hse⟩
      · exact .stay (hse.trans (seats_setPull t .idle))
      · refine .lost ksk (.worker ksk) (by simp [mishap, hp, ha]) ?_
        rw [hse, seats_setPull]
        exact .of_update_left (by rw [hbusy])
  | pullCharge t r b ksk skb hp =>
      rcases hend ksk (by rw [hp]; rfl) (by simp) with ⟨hfirst, hse⟩ | ⟨hbusy, hse⟩
      · refine .extra ksk (.queue ksk) (by simp [surplus, hp, hfirst]) ?_
        rw [hse, seats_setPull, seats_chargeRcvSkb]
        exact .of_update (.refl _)
      · refine .move ksk (.worker ksk) (.queue ksk) ?_
        rw [hse, seats_setPull, seats_chargeRcvSkb]
        exact .of_update (by simp) (by rw [hbusy]) (.refl _)

/-- What a step of the scheduler does to the engagements. -/
theorem shift_of_sched (hl : Loop s) (hw : Sched.Waiters s.sched) (hq : Sched.Queues s.sched)
    {b : Sched.Act} {sc : Sched.State} {es : List Sched.Event} (hm : s.mayRun b = true)
    (ha : (Act.sched b).own = true) (hs : Sched.Step .plainTcp s.sched b sc es) :
    Shift s (.sched b) { s with sched := sc, pc := s.pcAfter b sc } := by
  cases b with
  | create =>
      cases hs with
      | createPlain hn _ => exact .stay (seats_congr rfl (fun _ => rfl) rfl (fun _ => rfl))
      | createGrpc _ hv => cases hv
  | createRegister ksk =>
      cases hs with
      | createRegister _ hc =>
          refine .create ksk (fun h => ?_) ⟨(hw.creating ksk hc).1, by simp [Sched.State.park]⟩ ?_
          · rw [h.2] at hc
            cases hc
          · change Entered _ (seats { s with sched := Sched.State.park _ ksk }) _ _
            rw [seats_park]
            exact .of_update (List.perm_append_singleton ksk _)
  | pushStart psock cb n r1 r2 =>
      cases hs with
      | pushStart => exact .stay_push rfl (congrArg target (hq.fresh s.sched.nextId le_rfl)).symm rfl rfl
  | push p b => exact shift_of_push hw hq hs
  | pullStart t ksk =>
      cases hs with
      | pullStart =>
          simp only [State.mayRun, decide_eq_true_eq] at hm
          obtain ⟨rfl, hstart⟩ := hm.resolve_right (not_le.mpr (of_decide_eq_true ha))
          refine .stay (seats_congr rfl (fun _ => rfl) rfl ?_)
          simp only [State.pcAfter, if_true]
          exact busy_update (by rw [hstart]; rfl)
  | pull t r b => exact shift_of_pull hl hw hs
  | recvmsg ksk => cases hm

/-- **What every step of the server does to the engagements.** -/
theorem shift_of_step (hs : Step s a s' e) (ha : a.own = true) (hl : Loop s) (hw : Sched.Waiters s.sched)
    (hq : Sched.Queues s.sched) : Shift s a s' := by
  cases hs with
  | sched b sc es hm hb => exact shift_of_sched hl hw hq hm ha (Sched.step_cases hb)
  | received ksk skb rest hpc hr =>
      refine .move ksk (.queue ksk) (.worker ksk) ?_
      rw [seats_setPc, seats_take, Function.update_comm (by simp)]
      exact .of_update (by simp) (by simp [seats, hr, List.replicate_succ]) (by simp [seats, hpc, Pc.busy])
  | recvFault ksk skb rest hpc hr =>
      refine .lost ksk (.queue ksk) rfl ?_
      rw [seats_setPc_of_busy (by simp [State.take, hpc]), seats_take]
      exact .of_update_left (by simp [seats, hr, List.replicate_succ])
  | sendError ksk segments hpc hf =>
      refine .lost ksk (.worker ksk) (by simpa [mishap] using hf) ?_
      rw [seats_setPc]
      exact .of_update_left (by simp [seats, hpc, Pc.busy])
  | spliced ksk lens psock hpc => exact .stay (seats_setPc_of_busy (by rw [hpc]; rfl))
  | sent ksk psock hpc =>
      exact .stay ((seats_setPc_of_busy (by rw [hpc]; rfl)).trans (seats_setPull ksk.val (.own ksk)))
  | tx => exact .stay (seats_congr rfl (fun _ => rfl) rfl (fun _ => rfl))

end Rakaia.Worker
