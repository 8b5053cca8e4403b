import Rakaia.Sched.State

/-! # What a step of the scheduler can do

`Step v s s' e` lists the transitions of the scheduler, one constructor for each atomic section
and each of its outcomes, with the guard that the code tests and the state it leaves.
`step_cases` says that the executable `step` makes no other transition; every invariant of the
scheduler is proved by cases on `Step`.  Constructors that only move the position of one call
(reads without a lock, random draws, memory checks) are gathered in `pushMove` and `pullMove`. -/

namespace Rakaia.Sched

/-- A step of a push that changes nothing but its position. -/
inductive PushMove (s : State) : PushPc → PushPc → Prop
  | readFirst (skb : Skb) (ksk1 ksk2 : Ksk) :
      PushMove s (.readFirst skb ksk1 ksk2) (.readSecond skb ksk1 ksk2 (s.rxQ ksk1).length)
  | readSecond (skb : Skb) (ksk1 ksk2 : Ksk) (qlen1 : ℕ) :
      PushMove s (.readSecond skb ksk1 ksk2 qlen1)
        (.lock skb (if qlen1 ≤ (s.rxQ ksk2).length then ksk1 else ksk2))
  | accept (ksk : Ksk) (skb : Skb) : PushMove s (.deliver ksk skb) (.charge ksk skb)

/-- A step of a pull that changes nothing but its position. -/
inductive PullMove (s : State) : PullPc → PullPc → Prop
  | ownEmpty (ksk : Ksk) : s.rxLock ksk = none → s.rxQ ksk = [] →
      PullMove s (.own ksk) (.readMask ksk)
  | maskZero (ksk : Ksk) : setBits s.rxNonemptyBm = [] → PullMove s (.readMask ksk) (.register ksk)
  | maskSet (ksk : Ksk) : PullMove s (.readMask ksk) (.pickFirst ksk s.rxNonemptyBm)
  | pickNone (ksk : Ksk) (mask : Ksk → Bool) (r : UInt8) : pickRandomSetBit mask r = none →
      PullMove s (.pickFirst ksk mask) (.register ksk)
  | pickFirst (ksk : Ksk) (mask : Ksk → Bool) (v1 : Ksk) :
      PullMove s (.pickFirst ksk mask) (.pickSecond ksk mask v1)
  | pickOnly (ksk : Ksk) (mask : Ksk → Bool) (v1 : Ksk) :
      PullMove s (.pickFirst ksk mask) (.readSecond ksk v1 v1)
  | pickAgain (ksk : Ksk) (mask : Ksk → Bool) (v1 : Ksk) :
      PullMove s (.pickSecond ksk mask v1) (.pickSecond ksk mask v1)
  | pickSecond (ksk : Ksk) (mask : Ksk → Bool) (v1 v2 : Ksk) :
      PullMove s (.pickSecond ksk mask v1) (.readSecond ksk v1 v2)
  | readSecond (ksk v1 v2 : Ksk) :
      PullMove s (.readSecond ksk v1 v2) (.readFirst ksk v1 v2 (s.rxQ v2).length)
  | readFirst (ksk v1 v2 : Ksk) (qlen2 : ℕ) :
      PullMove s (.readFirst ksk v1 v2 qlen2)
        (.steal ksk (if (s.rxQ v1).length < qlen2 then v2 else v1))
  | stealEmpty (ksk victim : Ksk) : s.rxLock victim = none → s.rxQ victim = [] →
      PullMove s (.steal ksk victim) (.readMask ksk)
  | again (ksk : Ksk) : setBits s.rxNonemptyBm ≠ [] → PullMove s (.register ksk) (.own ksk)
  | registered (ksk : Ksk) : setBits s.rxNonemptyBm = [] → s.waitersBm ksk = true →
      PullMove s (.register ksk) .idle
  | accept (ksk : Ksk) (skb : Skb) : PullMove s (.deliver ksk skb) (.charge ksk skb)

/-- `pc` is the position from which a pull by socket `ksk` takes the head of `rx_q` of `i`. -/
def PullPc.Takes (pc : PullPc) (ksk i : Ksk) : Prop := (pc = .own ksk ∧ i = ksk) ∨ pc = .steal ksk i

/-- The queue `i` after its head was taken by a pull, with its bit. -/
def State.afterTake (s : State) (i : Ksk) (rest : List Skb) : State :=
  if rest.length = 0 then (s.setRxQ i rest).setNonempty i false else s.setRxQ i rest

/-- The socket appended to `ksk_waiters`, with its bit. -/
def State.park (s : State) (ksk : Ksk) : State :=
  { s with waitersBm := Function.update s.waitersBm ksk true
           kskWaiters := s.kskWaiters ++ [ksk] }

/-- The socket unlinked from `ksk_waiters`, with its bit. -/
def State.unpark (s : State) (ksk : Ksk) : State :=
  { s with kskWaiters := s.kskWaiters.erase ksk
           waitersBm := Function.update s.waitersBm ksk false }

/-- The transitions of the scheduler. -/
inductive Step (v : Variant) (s : State) : Act → State → List Event → Prop
  | createPlain (h : s.socksCnt < numRakaiaSockets) : v = .plainTcp →
      Step v s .create { s with socksCnt := s.socksCnt + 1
                                rxQ := Function.update s.rxQ ⟨s.socksCnt, h⟩ []
                                creating := Function.update s.creating ⟨s.socksCnt, h⟩ true } []
  | createGrpc (h : s.socksCnt < numRakaiaSockets) : v = .grpc →
      Step v s .create (({ s with socksCnt := s.socksCnt + 1
                                  rxQ := Function.update s.rxQ ⟨s.socksCnt, h⟩ [] } : State).park
        ⟨s.socksCnt, h⟩) []
  | createRegister (ksk : Ksk) : s.creating ksk = true →
      Step v s (.createRegister ksk)
        (({ s with creating := Function.update s.creating ksk false } : State).park ksk) []
  | pushStart (psock : PsockPtr) (cb : Cb) (truesize : ℕ) (r1 r2 : UInt8) :
      s.socksCnt = numRakaiaSockets →
      Step v s (.pushStart psock cb truesize r1 r2)
        (({ s with nextId := s.nextId + 1 } : State).setPush s.nextId (.readFirst
          (Skb.setPsock ⟨s.nextId, cb, truesize⟩ psock) (randomSock r1) (randomSock r2)))
        [.handed s.nextId psock cb]
  | pushMove (p : ℕ) (budget : Budget) (pc pc' : PushPc) : s.push p = pc → PushMove s pc pc' →
      Step v s (.push p budget) (s.setPush p pc') []
  | pushTail (p : ℕ) (budget : Budget) (skb : Skb) (chosen : Ksk) : s.push p = .lock skb chosen →
      s.rxLock chosen = none → s.rxQ chosen ≠ [] →
      Step v s (.push p budget) ((s.setRxQ chosen (s.rxQ chosen ++ [skb])).setPush p .idle)
        [.entered chosen skb.id]
  | pushLock (p : ℕ) (budget : Budget) (skb : Skb) (chosen : Ksk) : s.push p = .lock skb chosen →
      s.rxLock chosen = none → s.rxQ chosen = [] →
      Step v s (.push p budget)
        ((s.setRxLock chosen (some p)).setPush p (.enqueue skb chosen)) []
  | pushNoWaiter (p : ℕ) (budget : Budget) (skb : Skb) (chosen : Ksk) :
      s.push p = .enqueue skb chosen → s.kskWaiters = [] →
      Step v s (.push p budget)
        ((s.setRxQ chosen (s.rxQ chosen ++ [skb])).setPush p (.setBit chosen none))
        [.entered chosen skb.id]
  | pushWaiter (p : ℕ) (budget : Budget) (skb : Skb) (chosen ksk first : Ksk) (rest : List Ksk) :
      s.push p = .enqueue skb chosen → s.kskWaiters = first :: rest →
      ksk = (if s.waitersBm chosen then chosen else first) →
      Step v s (.push p budget)
        (((s.setRxQ chosen (s.rxQ chosen ++ [skb])).unpark ksk).setPush p (.setBit chosen (some ksk)))
        [.entered chosen skb.id]
  | pushSetBit (p : ℕ) (budget : Budget) (chosen : Ksk) : s.push p = .setBit chosen none →
      Step v s (.push p budget)
        (((s.setNonempty chosen true).setRxLock chosen none).setPush p .idle) []
  | pushTake (p : ℕ) (budget : Budget) (chosen ksk : Ksk) (skb : Skb) (rest : List Skb) :
      s.push p = .setBit chosen (some ksk) → s.rxQ chosen = skb :: rest →
      Step v s (.push p budget)
        ((((s.setRxQ chosen rest).setNonempty chosen (decide (1 ≤ rest.length))).setRxLock
          chosen none).setPush p (.deliver ksk skb)) [.left chosen skb.id]
  | pushOops (p : ℕ) (budget : Budget) (chosen ksk : Ksk) : s.push p = .setBit chosen (some ksk) →
      s.rxQ chosen = [] → Step v s (.push p budget) (s.setPush p .oops) []
  | pushRefused (p : ℕ) (budget : Budget) (ksk : Ksk) (skb : Skb) : s.push p = .deliver ksk skb →
      rcvSkbAccepted v s ksk budget = false →
      Step v s (.push p budget) (s.setPush p .idle) [.refused ksk skb]
  | pushCharge (p : ℕ) (budget : Budget) (ksk : Ksk) (skb : Skb) : s.push p = .charge ksk skb →
      Step v s (.push p budget) ((chargeRcvSkb v s ksk skb).setPush p .idle)
        [.delivered ksk skb.id]
  | pullStart (t : ℕ) (ksk : Ksk) : s.pull t = .idle → ksk.val < s.socksCnt →
      s.creating ksk = false → Step v s (.pullStart t ksk) (s.setPull t (.own ksk)) []
  | pullMove (t : ℕ) (r : UInt8) (budget : Budget) (pc pc' : PullPc) : s.pull t = pc →
      PullMove s pc pc' → Step v s (.pull t r budget) (s.setPull t pc') []
  | pullTake (t : ℕ) (r : UInt8) (budget : Budget) (pc : PullPc) (ksk i : Ksk) (skb : Skb)
      (rest : List Skb) : s.pull t = pc → pc.Takes ksk i → s.rxLock i = none →
      s.rxQ i = skb :: rest →
      Step v s (.pull t r budget) ((s.afterTake i rest).setPull t (.deliver ksk skb))
        [.left i skb.id]
  | pullRegister (t : ℕ) (r : UInt8) (budget : Budget) (ksk : Ksk) : s.pull t = .register ksk →
      setBits s.rxNonemptyBm = [] → s.waitersBm ksk = false →
      Step v s (.pull t r budget) ((s.park ksk).setPull t .idle) []
  | pullRefused (t : ℕ) (r : UInt8) (budget : Budget) (ksk : Ksk) (skb : Skb) :
      s.pull t = .deliver ksk skb → rcvSkbAccepted v s ksk budget = false →
      Step v s (.pull t r budget) (s.setPull t .idle) [.refused ksk skb]
  | pullCharge (t : ℕ) (r : UInt8) (budget : Budget) (ksk : Ksk) (skb : Skb) :
      s.pull t = .charge ksk skb →
      Step v s (.pull t r budget) ((chargeRcvSkb v s ksk skb).setPull t .idle)
        [.delivered ksk skb.id]
  | recvmsg (ksk : Ksk) (skb : Skb) (rest : List Skb) (rmem : Ksk → ℕ) :
      s.receiveQ ksk = skb :: rest →
      Step v s (.recvmsg ksk)
        { s with rmemAlloc := rmem, receiveQ := Function.update s.receiveQ ksk rest }
        [.received ksk skb]

variable {v : Variant} {s s' : State} {e : List Event}

theorem dequeueLocked_some {i : Ksk} {skb : Skb} (h : dequeueLocked s i = some (skb, s')) :
    ∃ rest, s.rxQ i = skb :: rest ∧ s' = s.afterTake i rest := by
  unfold dequeueLocked at h
  cases hq : s.rxQ i with
  | nil => rw [hq] at h; cases h
  | cons a rest =>
      rw [hq] at h
      obtain ⟨rfl, rfl⟩ := Prod.mk.inj (Option.some.inj h)
      exact ⟨rest, rfl, rfl⟩

theorem dequeueLocked_none {i : Ksk} (h : dequeueLocked s i = none) : s.rxQ i = [] := by
  unfold dequeueLocked at h
  cases hq : s.rxQ i with
  | nil => rfl
  | cons a rest => rw [hq] at h; cases h

theorem rakaiaPushSkbSingleQueue_cases {p : ℕ} {budget : Budget}
    (h : rakaiaPushSkbSingleQueue v s p budget = some (s', e)) : Step v s (.push p budget) s' e := by
  unfold rakaiaPushSkbSingleQueue at h
  cases hpc : s.push p with
  | idle => rw [hpc] at h; cases h
  | oops => rw [hpc] at h; cases h
  | readFirst skb ksk1 ksk2 =>
      rw [hpc] at h
      obtain ⟨rfl, rfl⟩ := Prod.mk.inj (Option.some.inj h)
      exact .pushMove p budget _ _ hpc (.readFirst skb ksk1 ksk2)
  | readSecond skb ksk1 ksk2 qlen1 =>
      rw [hpc] at h
      obtain ⟨rfl, rfl⟩ := Prod.mk.inj (Option.some.inj h)
      exact .pushMove p budget _ _ hpc (.readSecond skb ksk1 ksk2 qlen1)
  | lock skb chosen =>
      simp only [hpc] at h
      split_ifs at h with hl hq
      · obtain ⟨rfl, rfl⟩ := Prod.mk.inj (Option.some.inj h)
        exact .pushTail p budget skb chosen hpc hl (by rintro hn; simp [hn] at hq)
      · obtain ⟨rfl, rfl⟩ := Prod.mk.inj (Option.some.inj h)
        exact .pushLock p budget skb chosen hpc hl (List.length_eq_zero_iff.mp (by omega))
  | enqueue skb chosen =>
      simp only [hpc, rakaiaGetAvailSk] at h
      cases hw : s.kskWaiters with
      | nil =>
          simp only [State.setRxQ, hw] at h
          obtain ⟨rfl, rfl⟩ := Prod.mk.inj (Option.some.inj h)
          have := Step.pushNoWaiter (v := v) p budget skb chosen hpc hw
          rwa [State.setRxQ, hw] at this
      | cons first rest =>
          simp only [State.setRxQ, hw] at h
          obtain ⟨rfl, rfl⟩ := Prod.mk.inj (Option.some.inj h)
          have := Step.pushWaiter (v := v) p budget skb chosen _ first rest hpc hw rfl
          rwa [State.unpark, State.setRxQ, hw] at this
  | setBit chosen newKsk =>
      cases newKsk with
      | none =>
          rw [hpc] at h
          obtain ⟨rfl, rfl⟩ := Prod.mk.inj (Option.some.inj h)
          exact .pushSetBit p budget chosen hpc
      | some ksk =>
          cases hq : s.rxQ chosen with
          | nil =>
              simp only [hpc, hq] at h
              obtain ⟨rfl, rfl⟩ := Prod.mk.inj (Option.some.inj h)
              exact .pushOops p budget chosen ksk hpc hq
          | cons skb rest =>
              simp only [hpc, hq] at h
              obtain ⟨rfl, rfl⟩ := Prod.mk.inj (Option.some.inj h)
              exact .pushTake p budget chosen ksk skb rest hpc hq
  | deliver ksk skb =>
      simp only [hpc] at h
      split_ifs at h with ha
      · obtain ⟨rfl, rfl⟩ := Prod.mk.inj (Option.some.inj h)
        exact .pushMove p budget _ _ hpc (.accept ksk skb)
      · obtain ⟨rfl, rfl⟩ := Prod.mk.inj (Option.some.inj h)
        exact .pushRefused p budget ksk skb hpc (by simpa using ha)
  | charge ksk skb =>
      rw [hpc] at h
      obtain ⟨rfl, rfl⟩ := Prod.mk.inj (Option.some.inj h)
      exact .pushCharge p budget ksk skb hpc

/-- The section in which a pull takes the head of a queue, or finds it empty. -/
theorem pullDequeue_cases {t : ℕ} {r : UInt8} {budget : Budget} {pc : PullPc} {ksk i : Ksk}
    (hpc : s.pull t = pc) (hi : pc.Takes ksk i) (hl : s.rxLock i = none)
    (h : (match dequeueLocked s i with
      | some (skb, s') => some (s'.setPull t (.deliver ksk skb), [Event.left i skb.id])
      | none => some (s.setPull t (.readMask ksk), [])) = some (s', e)) :
    Step v s (.pull t r budget) s' e := by
  cases hd : dequeueLocked s i with
  | none =>
      simp only [hd] at h
      obtain ⟨rfl, rfl⟩ := Prod.mk.inj (Option.some.inj h)
      have hq := dequeueLocked_none hd
      rcases hi with ⟨rfl, rfl⟩ | rfl
      · exact .pullMove t r budget _ _ hpc (.ownEmpty _ hl hq)
      · exact .pullMove t r budget _ _ hpc (.stealEmpty ksk i hl hq)
  | some x =>
      obtain ⟨skb, s₁⟩ := x
      simp only [hd] at h
      obtain ⟨rfl, rfl⟩ := Prod.mk.inj (Option.some.inj h)
      obtain ⟨rest, hq, rfl⟩ := dequeueLocked_some hd
      exact .pullTake t r budget pc ksk i skb rest hpc hi hl hq

theorem rakaiaPull_cases {t : ℕ} {r : UInt8} {budget : Budget}
    (h : rakaiaPull v s t r budget = some (s', e)) : Step v s (.pull t r budget) s' e := by
  unfold rakaiaPull at h
  cases hpc : s.pull t with
  | idle => rw [hpc] at h; cases h
  | own ksk =>
      simp only [hpc] at h
      split_ifs at h with hl
      exact pullDequeue_cases hpc (Or.inl ⟨rfl, rfl⟩) hl h
  | readMask ksk =>
      simp only [hpc] at h
      split_ifs at h with hm
      · obtain ⟨rfl, rfl⟩ := Prod.mk.inj (Option.some.inj h)
        exact .pullMove t r budget _ _ hpc (.maskZero ksk hm)
      · obtain ⟨rfl, rfl⟩ := Prod.mk.inj (Option.some.inj h)
        exact .pullMove t r budget _ _ hpc (.maskSet ksk)
  | pickFirst ksk mask =>
      cases hv : pickRandomSetBit mask r with
      | none =>
          simp only [hpc, hv] at h
          obtain ⟨rfl, rfl⟩ := Prod.mk.inj (Option.some.inj h)
          exact .pullMove t r budget _ _ hpc (.pickNone ksk mask r hv)
      | some v1 =>
          simp only [hpc, hv] at h
          split_ifs at h
          · obtain ⟨rfl, rfl⟩ := Prod.mk.inj (Option.some.inj h)
            exact .pullMove t r budget _ _ hpc (.pickFirst ksk mask v1)
          · obtain ⟨rfl, rfl⟩ := Prod.mk.inj (Option.some.inj h)
            exact .pullMove t r budget _ _ hpc (.pickOnly ksk mask v1)
  | pickSecond ksk mask v1 =>
      cases hv : pickRandomSetBit mask r with
      | none => simp only [hpc, hv] at h; cases h
      | some v2 =>
          simp only [hpc, hv] at h
          split_ifs at h
          · obtain ⟨rfl, rfl⟩ := Prod.mk.inj (Option.some.inj h)
            have := Step.pullMove (v := v) t r budget _ _ hpc (.pickAgain ksk mask v1)
            rwa [State.setPull, ← hpc, Function.update_eq_self] at this
          · obtain ⟨rfl, rfl⟩ := Prod.mk.inj (Option.some.inj h)
            exact .pullMove t r budget _ _ hpc (.pickSecond ksk mask v1 v2)
  | readSecond ksk v1 v2 =>
      rw [hpc] at h
      obtain ⟨rfl, rfl⟩ := Prod.mk.inj (Option.some.inj h)
      exact .pullMove t r budget _ _ hpc (.readSecond ksk v1 v2)
  | readFirst ksk v1 v2 qlen2 =>
      rw [hpc] at h
      obtain ⟨rfl, rfl⟩ := Prod.mk.inj (Option.some.inj h)
      exact .pullMove t r budget _ _ hpc (.readFirst ksk v1 v2 qlen2)
  | steal ksk victim =>
      simp only [hpc] at h
      split_ifs at h with hl
      exact pullDequeue_cases hpc (Or.inr rfl) hl h
  | register ksk =>
      simp only [hpc] at h
      split_ifs at h with hm hw
      · obtain ⟨rfl, rfl⟩ := Prod.mk.inj (Option.some.inj h)
        exact .pullMove t r budget _ _ hpc (.registered ksk hm hw)
      · obtain ⟨rfl, rfl⟩ := Prod.mk.inj (Option.some.inj h)
        exact .pullRegister t r budget ksk hpc hm (by simpa using hw)
      · obtain ⟨rfl, rfl⟩ := Prod.mk.inj (Option.some.inj h)
        exact .pullMove t r budget _ _ hpc (.again ksk hm)
  | deliver ksk skb =>
      simp only [hpc] at h
      split_ifs at h with ha
      · obtain ⟨rfl, rfl⟩ := Prod.mk.inj (Option.some.inj h)
        exact .pullMove t r budget _ _ hpc (.accept ksk skb)
      · obtain ⟨rfl, rfl⟩ := Prod.mk.inj (Option.some.inj h)
        exact .pullRefused t r budget ksk skb hpc (by simpa using ha)
  | charge ksk skb =>
      rw [hpc] at h
      obtain ⟨rfl, rfl⟩ := Prod.mk.inj (Option.some.inj h)
      exact .pullCharge t r budget ksk skb hpc

/-- **The scheduler makes no other step** than those listed in `Step`. -/
theorem step_cases {a : Act} (h : step v s a = some (s', e)) : Step v s a s' e := by
  cases a with
  | create =>
      simp only [step, rakaiaCreate, Option.map_eq_some_iff, Prod.mk.injEq] at h
      obtain ⟨s₁, hc, rfl, rfl⟩ := h
      split_ifs at hc with hn
      cases v with
      | plainTcp => cases hc; exact .createPlain hn rfl
      | grpc => cases hc; exact .createGrpc hn rfl
  | createRegister ksk =>
      simp only [step, createRegister, Option.map_eq_some_iff, Prod.mk.injEq] at h
      obtain ⟨s₁, hc, rfl, rfl⟩ := h
      split_ifs at hc with hk
      cases hc
      exact .createRegister ksk hk
  | pushStart psock cb truesize r1 r2 =>
      simp only [step, pushStart] at h
      split_ifs at h with hn
      obtain ⟨rfl, rfl⟩ := Prod.mk.inj (Option.some.inj h)
      exact .pushStart psock cb truesize r1 r2 hn
  | push p budget => exact rakaiaPushSkbSingleQueue_cases h
  | pullStart t ksk =>
      simp only [step, pullStart] at h
      cases hp : s.pull t <;> simp only [hp] at h <;> try cases h
      split_ifs at h with hk
      obtain ⟨rfl, rfl⟩ := Prod.mk.inj (Option.some.inj h)
      exact .pullStart t ksk hp hk.1 hk.2
  | pull t r budget => exact rakaiaPull_cases h
  | recvmsg ksk =>
      simp only [step, recvmsg] at h
      cases hq : s.receiveQ ksk with
      | nil => simp only [hq] at h; cases h
      | cons skb rest =>
          simp only [hq] at h
          obtain ⟨rfl, rfl⟩ := Prod.mk.inj (Option.some.inj h)
          exact .recvmsg ksk skb rest _ hq

end Rakaia.Sched
