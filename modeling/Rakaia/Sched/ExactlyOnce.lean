import Rakaia.Lib.Ledger
import Rakaia.Sched.Invariant

/-! # Every message is in exactly one place

The places of a message: a receive queue, the hands of a push or a pull, the `sk_receive_queue` of
a socket; and, once it has left the scheduler, what `recvmsg` returned on a socket or
`rakaia_queue_rcv_skb` refused (which the grpc variant never does).  Every step of the scheduler
passes one message from the head of one place to the tail of another, lets a new message in, or
leaves all messages where they are (`effect_of_step`).  So no message is lost or doubled, and every
queue is a queue. -/

namespace Rakaia.Sched

open Lib

variable {v : Variant} {s s' : State} {a : Act} {es e : List Event}

/-! ### Places -/

/-- Where a message can be. -/
inductive Place where
  | rxQ (ksk : Ksk)
  /-- In the hands of the push that was called with message `p`. -/
  | push (p : ℕ)
  /-- In the hands of the pull of thread `t`. -/
  | pull (t : ℕ)
  | receiveQ (ksk : Ksk)
  | returned (ksk : Ksk)
  | refused (ksk : Ksk)
deriving DecidableEq

/-- The message that a push carries: its own until it enters a queue, the one it took for a parked
socket afterwards. -/
def PushPc.hand : PushPc → List Skb
  | .readFirst skb _ _ | .readSecond skb _ _ _ | .lock skb _ | .enqueue skb _ | .deliver _ skb
  | .charge _ skb => [skb]
  | .idle | .setBit _ _ | .oops => []

/-- The message that a pull has taken. -/
def PullPc.hand : PullPc → List Skb
  | .deliver _ skb | .charge _ skb => [skb]
  | _ => []

/-- The message that leaves the scheduler, with the place it goes to. -/
def Event.out? : Event → Option (Place × Skb)
  | .received ksk skb => some (.returned ksk, skb)
  | .refused ksk skb => some (.refused ksk, skb)
  | _ => none

/-- The messages in a place, in order. -/
def whereabouts (s : State) (es : List Event) : Place → List Skb
  | .rxQ i => s.rxQ i
  | .push p => (s.push p).hand
  | .pull t => (s.pull t).hand
  | .receiveQ i => s.receiveQ i
  | .returned i => entries Event.out? es (.returned i)
  | .refused i => entries Event.out? es (.refused i)

/-! ### Steps pass messages on -/

theorem whereabouts_congr (hq : s'.rxQ = s.rxQ) (hp : s'.push = s.push) (ht : s'.pull = s.pull)
    (hr : s'.receiveQ = s.receiveQ) : whereabouts s' es = whereabouts s es := by
  funext k
  cases k <;> simp [whereabouts, hq, hp, ht, hr]

theorem whereabouts_unpark (ksk : Ksk) : whereabouts (s.unpark ksk) es = whereabouts s es :=
  whereabouts_congr rfl rfl rfl rfl

theorem whereabouts_unlock (i : Ksk) (b : Bool) :
    whereabouts ((s.setNonempty i b).setRxLock i none) es = whereabouts s es :=
  whereabouts_congr rfl rfl rfl rfl

theorem whereabouts_setPush (p : ℕ) (pc : PushPc) :
    whereabouts (s.setPush p pc) es = Function.update (whereabouts s es) (.push p) pc.hand := by
  funext k
  cases k with
  | push q => by_cases hq : q = p <;> simp [whereabouts, hq]
  | _ => rfl

theorem whereabouts_setPull (t : ℕ) (pc : PullPc) :
    whereabouts (s.setPull t pc) es = Function.update (whereabouts s es) (.pull t) pc.hand := by
  funext k
  cases k with
  | pull q => by_cases hq : q = t <;> simp [whereabouts, hq]
  | _ => rfl

theorem whereabouts_setPush_of_hand {p : ℕ} {pc : PushPc} (h : pc.hand = (s.push p).hand) :
    whereabouts (s.setPush p pc) es = whereabouts s es := by
  rw [whereabouts_setPush, h]
  exact Function.update_eq_self (.push p) (whereabouts s es)

theorem whereabouts_setPull_of_hand {t : ℕ} {pc : PullPc} (h : pc.hand = (s.pull t).hand) :
    whereabouts (s.setPull t pc) es = whereabouts s es := by
  rw [whereabouts_setPull, h]
  exact Function.update_eq_self (.pull t) (whereabouts s es)

theorem PushMove.hand {pc pc' : PushPc} (h : PushMove s pc pc') : pc'.hand = pc.hand := by
  cases h <;> rfl

theorem PullMove.hand {pc pc' : PullPc} (h : PullMove s pc pc') : pc'.hand = pc.hand := by
  cases h <;> rfl

theorem PullPc.Takes.hand {pc : PullPc} {ksk i : Ksk} (h : pc.Takes ksk i) : pc.hand = [] := by
  rcases h with ⟨rfl, -⟩ | rfl <;> rfl

theorem whereabouts_setRxQ (i : Ksk) (q : List Skb) :
    whereabouts (s.setRxQ i q) es = Function.update (whereabouts s es) (.rxQ i) q := by
  funext k
  cases k with
  | rxQ j => by_cases hj : j = i <;> simp [whereabouts, hj]
  | _ => rfl

theorem whereabouts_afterTake (i : Ksk) (rest : List Skb) :
    whereabouts (s.afterTake i rest) es = Function.update (whereabouts s es) (.rxQ i) rest := by
  unfold State.afterTake
  split_ifs
  · exact whereabouts_setRxQ i rest
  · exact whereabouts_setRxQ i rest

theorem whereabouts_setReceiveQ (i : Ksk) (q : List Skb) (rmem : Ksk → ℕ) :
    whereabouts { s with rmemAlloc := rmem, receiveQ := Function.update s.receiveQ i q } es =
      Function.update (whereabouts s es) (.receiveQ i) q := by
  funext k
  cases k with
  | receiveQ j => by_cases hj : j = i <;> simp [whereabouts, hj]
  | _ => rfl

theorem whereabouts_chargeRcvSkb (ksk : Ksk) (skb : Skb) :
    whereabouts (chargeRcvSkb v s ksk skb) es =
      Function.update (whereabouts s es) (.receiveQ ksk) (s.receiveQ ksk ++ [skb]) :=
  whereabouts_setReceiveQ ksk _ _

/-- Most events are about messages that stay in the scheduler. -/
theorem whereabouts_append {ev : Event} (h : ev.out? = none) :
    whereabouts s (es ++ [ev]) = whereabouts s es := by
  funext k
  cases k with
  | returned i => rw [whereabouts, entries_append, entries_of_none h, List.append_nil, whereabouts]
  | refused i => rw [whereabouts, entries_append, entries_of_none h, List.append_nil, whereabouts]
  | _ => rfl

/-- A message goes out. -/
theorem whereabouts_out {ev : Event} {k : Place} {skb : Skb} (h : ev.out? = some (k, skb)) :
    whereabouts s (es ++ [ev]) = Function.update (whereabouts s es) k (whereabouts s es k ++ [skb]) := by
  have hout : ∀ j, entries Event.out? (es ++ [ev]) j =
      if k = j then entries Event.out? es j ++ [skb] else entries Event.out? es j := by
    intro j
    rw [entries_append, entries_singleton h]
    split_ifs <;> simp
  have hk : (∃ i, k = .returned i) ∨ ∃ i, k = .refused i := by
    cases ev with
    | received i skb' => exact .inl ⟨i, by simpa [Event.out?, eq_comm] using congrArg (Option.map Prod.fst) h⟩
    | refused i skb' => exact .inr ⟨i, by simpa [Event.out?, eq_comm] using congrArg (Option.map Prod.fst) h⟩
    | _ => cases h
  funext j
  rw [Function.update_apply]
  rcases hk with ⟨i, rfl⟩ | ⟨i, rfl⟩
  · cases j with
    | returned j =>
        rcases eq_or_ne j i with rfl | hj
        · simp [whereabouts, hout]
        · simp [whereabouts, hout, hj, hj.symm]
    | refused j => simp [whereabouts, hout]
    | _ => simp [whereabouts]
  · cases j with
    | returned j => simp [whereabouts, hout]
    | refused j =>
        rcases eq_or_ne j i with rfl | hj
        · simp [whereabouts, hout]
        · simp [whereabouts, hout, hj, hj.symm]
    | _ => simp [whereabouts]

/-- The message that enters a queue, with the queue. -/
def Event.in? : Event → Option (Place × ℕ)
  | .entered ksk id => some (.rxQ ksk, id)
  | .delivered ksk id => some (.receiveQ ksk, id)
  | _ => none

/-- The message that leaves a queue, with the queue. -/
def Event.from? : Event → Option (Place × ℕ)
  | .left ksk id => some (.rxQ ksk, id)
  | .received ksk skb => some (.receiveQ ksk, skb.id)
  | _ => none

/-- The message that is handed to the scheduler, with its parser and its control block. -/
def Event.handed? : Event → Option (ℕ × PsockPtr × Cb)
  | .handed id psock cb => some (id, psock, cb)
  | _ => none

/-- The queues among the places. -/
def Place.isQueue : Place → Bool
  | .rxQ _ | .receiveQ _ => true
  | _ => false

/-- What the history says about a message that enters or leaves a place: queues are recorded. -/
def Place.record (k : Place) (id : ℕ) : Option (Place × ℕ) := if k.isQueue then some (k, id) else none

/-- What a step does to the messages. -/
inductive Effect (s : State) (es : List Event) (s' : State) : List Event → Prop
  | stay : whereabouts s' es = whereabouts s es → s'.nextId = s.nextId → Effect s es s' []
  | enter (psock : PsockPtr) (cb : Cb) (truesize : ℕ) : s'.nextId = s.nextId + 1 →
      whereabouts s es (.push s.nextId) = [] →
      whereabouts s' (es ++ [.handed s.nextId psock cb]) = Function.update (whereabouts s es)
        (.push s.nextId) [Skb.setPsock ⟨s.nextId, cb, truesize⟩ psock] →
      Effect s es s' [.handed s.nextId psock cb]
  | pass (ev : Event) (skb : Skb) (k k' : Place) :
      Passed (whereabouts s es) (whereabouts s' (es ++ [ev])) skb k k' → s'.nextId = s.nextId →
      ev.handed? = none → ev.in? = k'.record skb.id → ev.from? = k.record skb.id →
      Effect s es s' [ev]

/-- **Every step passes at most one message on.** -/
theorem effect_of_step (hs : Step v s a s' e) (h : Queues s) (es : List Event) : Effect s es s' e := by
  cases hs with
  | createPlain hn _ => exact .stay (whereabouts_congr (h.update_unborn hn) rfl rfl rfl) rfl
  | createGrpc hn _ => exact .stay (whereabouts_congr (h.update_unborn hn) rfl rfl rfl) rfl
  | createRegister => exact .stay (whereabouts_congr rfl rfl rfl rfl) rfl
  | pushStart psock cb truesize r1 r2 hn =>
      refine .enter psock cb truesize rfl (by rw [whereabouts, h.fresh s.nextId le_rfl]; rfl) ?_
      rw [whereabouts_append rfl, whereabouts_setPush]
      rfl
  | pushMove p b pc pc' hp hm => exact .stay (whereabouts_setPush_of_hand (by rw [hm.hand, hp])) rfl
  | pushTail p b skb chosen hp hl hq =>
      refine .pass _ skb (.push p) (.rxQ chosen) ?_ rfl rfl rfl rfl
      rw [whereabouts_append rfl, whereabouts_setPush, whereabouts_setRxQ]
      exact .of_update (by simp) (by rw [whereabouts, hp]; rfl)
  | pushLock p b skb chosen hp hl hq =>
      refine .stay (whereabouts_setPush_of_hand ?_) rfl
      exact (congrArg PushPc.hand hp).symm
  | pushNoWaiter p b skb chosen hp hw =>
      refine .pass _ skb (.push p) (.rxQ chosen) ?_ rfl rfl rfl rfl
      rw [whereabouts_append rfl, whereabouts_setPush, whereabouts_setRxQ]
      exact .of_update (by simp) (by rw [whereabouts, hp]; rfl)
  | pushWaiter p b skb chosen ksk first rest hp hw hk =>
      refine .pass _ skb (.push p) (.rxQ chosen) ?_ rfl rfl rfl rfl
      rw [whereabouts_append rfl, whereabouts_setPush, whereabouts_unpark, whereabouts_setRxQ]
      exact .of_update (by simp) (by rw [whereabouts, hp]; rfl)
  | pushSetBit p b chosen hp =>
      refine .stay ?_ rfl
      rw [whereabouts_setPush_of_hand (by exact (congrArg PushPc.hand hp).symm), whereabouts_unlock]
  | pushTake p b chosen ksk skb rest hp hq =>
      refine .pass _ skb (.rxQ chosen) (.push p) ?_ rfl rfl rfl rfl
      have hdst : (PushPc.deliver ksk skb).hand = whereabouts s es (.push p) ++ [skb] := by
        rw [whereabouts, hp]
        rfl
      rw [whereabouts_append rfl, whereabouts_setPush, whereabouts_unlock, whereabouts_setRxQ, hdst]
      exact .of_update_comm (by simp) hq
  | pushOops p b chosen ksk hp hq =>
      exact .stay (whereabouts_setPush_of_hand (congrArg PushPc.hand hp).symm) rfl
  | pushRefused p b ksk skb hp ha =>
      refine .pass _ skb (.push p) (.refused ksk) ?_ rfl rfl rfl rfl
      rw [whereabouts_setPush, whereabouts_out rfl]
      exact .of_update (by simp) (by rw [whereabouts, hp]; rfl)
  | pushCharge p b ksk skb hp =>
      refine .pass _ skb (.push p) (.receiveQ ksk) ?_ rfl rfl rfl rfl
      rw [whereabouts_append rfl, whereabouts_setPush, whereabouts_chargeRcvSkb]
      exact .of_update (by simp) (by rw [whereabouts, hp]; rfl)
  | pullStart t ksk hp hb hc => exact .stay (whereabouts_setPull_of_hand (congrArg PullPc.hand hp).symm) rfl
  | pullMove t r b pc pc' hp hm => exact .stay (whereabouts_setPull_of_hand (by rw [hm.hand, hp])) rfl
  | pullTake t r b pc ksk i skb rest hp ht hl hq =>
      refine .pass _ skb (.rxQ i) (.pull t) ?_ (afterTake_fields s i rest).2.2.2.2.2.2.2.2.1 rfl rfl rfl
      have hdst : (PullPc.deliver ksk skb).hand = whereabouts s es (.pull t) ++ [skb] := by
        rw [whereabouts, hp, ht.hand]
        rfl
      rw [whereabouts_append rfl, whereabouts_setPull, whereabouts_afterTake, hdst]
      exact .of_update_comm (by simp) hq
  | pullRegister t r b ksk hp hm hb =>
      exact .stay (whereabouts_setPull_of_hand (congrArg PullPc.hand hp).symm) rfl
  | pullRefused t r b ksk skb hp ha =>
      refine .pass _ skb (.pull t) (.refused ksk) ?_ rfl rfl rfl rfl
      rw [whereabouts_setPull, whereabouts_out rfl]
      exact .of_update (by simp) (by rw [whereabouts, hp]; rfl)
  | pullCharge t r b ksk skb hp =>
      refine .pass _ skb (.pull t) (.receiveQ ksk) ?_ rfl rfl rfl rfl
      rw [whereabouts_append rfl, whereabouts_setPull, whereabouts_chargeRcvSkb]
      exact .of_update (by simp) (by rw [whereabouts, hp]; rfl)
  | recvmsg ksk skb rest rmem hq =>
      refine .pass _ skb (.receiveQ ksk) (.returned ksk) ?_ rfl rfl rfl rfl
      rw [whereabouts_setReceiveQ, whereabouts_out rfl]
      exact .of_update (by simp) hq

/-! ### The ledger of the messages -/

/-- The identities of the messages in a place. -/
def ids (s : State) (es : List Event) (k : Place) : List ℕ := (whereabouts s es k).map Skb.id

/-- Messages that were handed over are in exactly one place, other messages nowhere. -/
structure Ledger (s : State) (es : List Event) : Prop where
  handed : (es.filterMap Event.handed?).map Prod.fst = List.range s.nextId
  once : ∀ n < s.nextId, Somewhere (ids s es) n ∧ AtMostOnce (ids s es) n
  fresh : ∀ n, s.nextId ≤ n → ∀ k, n ∉ ids s es k

theorem ledger_init : Ledger State.init [] := by
  refine ⟨rfl, fun n hn => absurd hn (Nat.not_lt_zero n), fun n _ k => ?_⟩
  cases k <;> simp [ids, whereabouts, State.init, PushPc.hand, PullPc.hand, entries]

theorem Ledger.effect (h : Ledger s es) (he : Effect s es s' e) : Ledger s' (es ++ e) := by
  cases he with
  | stay hw hn =>
      have hids : ids s' es = ids s es := by
        unfold ids
        rw [hw]
      rw [List.append_nil]
      exact ⟨by rw [hn]; exact h.handed, by rw [hn, hids]; exact h.once, by rw [hn, hids]; exact h.fresh⟩
  | enter psock cb truesize hn hnil hw =>
      have hent : Entered (ids s es) (ids s' (es ++ [.handed s.nextId psock cb])) s.nextId (.push s.nextId) := by
        constructor
        · simp [ids, hw, hnil]
        · intro j hj
          simp [ids, hw, hj]
      have hnew := h.fresh s.nextId le_rfl
      constructor
      · simp [h.handed, hn, Event.handed?, List.range_succ]
      · intro n hlt
        rcases Nat.lt_succ_iff_lt_or_eq.mp (hn ▸ hlt) with hlt | rfl
        · have hcount := hent.count_of_ne (ne_of_lt hlt)
          exact ⟨(h.once n hlt).1.mono (fun k => (hcount k).ge), (h.once n hlt).2.anti (fun k => (hcount k).le)⟩
        · exact ⟨⟨.push s.nextId, hent.dst.mem_iff.mpr List.mem_cons_self⟩, .of_entered hnew hent⟩
      · intro n hle k
        exact hent.notMem_of_ne (by omega) (h.fresh n (by omega) k)
  | pass ev skb k k' hp hn hhand _ _ =>
      have hm : Moved (ids s es) (ids s' (es ++ [ev])) skb.id k k' := hp.moved Skb.id
      have hid : skb.id < s.nextId := by
        by_contra hc
        exact h.fresh skb.id (not_lt.mp hc) k (hm.src.mem_iff.mpr List.mem_cons_self)
      refine ⟨?_, ?_, ?_⟩
      · simp [hn, hhand, h.handed]
      · intro n hlt
        rw [hn] at hlt
        exact ⟨(h.once n hlt).1.move hm, (h.once n hlt).2.move hm⟩
      · intro n hle j
        rw [hn] at hle
        exact hm.notMem_of_ne (by omega) (h.fresh n hle j)

/-- Every queue is a queue: what has entered it is what has left it, and then what is in it. -/
def Fifo (s : State) (es : List Event) : Prop :=
  ∀ k : Place, k.isQueue = true → entries Event.in? es k = entries Event.from? es k ++ ids s es k

theorem entries_record {f : Event → Option (Place × ℕ)} {ev : Event} {k j : Place} {n : ℕ}
    (h : f ev = k.record n) (hj : j.isQueue = true) : entries f [ev] j = if k = j then [n] else [] := by
  unfold Place.record at h
  split_ifs at h with hk
  · exact entries_singleton h j
  · rw [entries_of_none h, if_neg]
    rintro rfl
    exact hk hj

theorem Fifo.effect (h : Fifo s es) (he : Effect s es s' e) : Fifo s' (es ++ e) := by
  intro j hj
  cases he with
  | stay hw hn =>
      rw [List.append_nil, h j hj, ids, ids, hw]
  | enter psock cb truesize hn hnil hw =>
      have hne : j ≠ .push s.nextId := by
        rintro rfl
        cases hj
      rw [entries_append, entries_append, entries_of_none rfl, entries_of_none rfl, List.append_nil,
        List.append_nil, h j hj, ids, ids, hw, Function.update_of_ne hne]
  | pass ev skb k k' hp hn _ hin hfrom =>
      rw [entries_append, entries_append, entries_record hin hj, entries_record hfrom hj, h j hj, ids, ids]
      by_cases hk : k = j
      · subst hk
        simp [hp.src, hp.ne.symm]
      · by_cases hk' : k' = j
        · subst hk'
          simp [hp.dst, hk]
        · simp [hp.frame j (Ne.symm hk) (Ne.symm hk'), hk, hk']

/-! ### Whole runs -/

variable {G : State → Act → Prop}

theorem ledger_of_reach (h : (machine v).Reach G s es) : Ledger s es :=
  h.invariant (P := Ledger) ledger_init
    (fun _ es _ _ _ hr ih _ hs => ih.effect (effect_of_step (step_cases hs) (queues_of_reach hr) es))

theorem fifo_of_reach (h : (machine v).Reach G s es) : Fifo s es :=
  h.invariant (P := Fifo) (fun k _ => by cases k <;> rfl)
    (fun _ es _ _ _ hr ih _ hs => ih.effect (effect_of_step (step_cases hs) (queues_of_reach hr) es))

/-- The grpc variant refuses no message. -/
theorem no_refusal_of_reach (h : (machine .grpc).Reach G s es) (ksk : Ksk) (skb : Skb) :
    Event.refused ksk skb ∉ es := by
  refine h.invariant (P := fun _ es => Event.refused ksk skb ∉ es) (by simp) ?_
  intro s es a s' e _ ih _ hs hm
  rcases List.mem_append.mp hm with hm | hm
  · exact ih hm
  · cases step_cases hs with
    | pushRefused p b ksk skb hp ha => cases ha
    | pullRefused t r b ksk skb hp ha => cases ha
    | _ => simp at hm

/-- What a socket's `recvmsg` calls returned is what left its `sk_receive_queue`. -/
theorem ids_returned (s : State) (es : List Event) (i : Ksk) :
    ids s es (.returned i) = entries Event.from? es (.receiveQ i) := by
  rw [ids, whereabouts, entries, entries, List.map_filterMap]
  refine List.filterMap_congr (fun ev _ => ?_)
  cases ev with
  | received j skb => by_cases hj : j = i <;> simp [Event.out?, Event.from?, hj]
  | _ => simp [Event.out?, Event.from?]

theorem ids_refused {i : Ksk} (h : ∀ skb, Event.refused i skb ∉ es) : ids s es (.refused i) = [] := by
  rw [ids, whereabouts, List.map_eq_nil_iff, entries, List.filterMap_eq_nil_iff]
  intro ev hev
  cases ev with
  | refused j skb =>
      have hj : j ≠ i := by
        rintro rfl
        exact h skb hev
      simp [Event.out?, hj]
  | _ => simp [Event.out?]

theorem Ledger.lt_nextId (h : Ledger s es) {n : ℕ} {k : Place} (hn : n ∈ ids s es k) : n < s.nextId := by
  by_contra hc
  exact h.fresh n (not_lt.mp hc) k hn

theorem Ledger.lt_of_handed (h : Ledger s es) {n : ℕ} {psock : PsockPtr} {cb : Cb}
    (hn : Event.handed n psock cb ∈ es) : n < s.nextId := by
  have hm : n ∈ (es.filterMap Event.handed?).map Prod.fst :=
    List.mem_map.mpr ⟨(n, psock, cb), List.mem_filterMap.mpr ⟨_, hn, rfl⟩, rfl⟩
  rwa [h.handed, List.mem_range] at hm

/-- A message that was delivered to a socket is in its queue, or was returned on it. -/
theorem Fifo.delivered (h : Fifo s es) {n : ℕ} {i : Ksk} (hn : n ∈ entries Event.in? es (.receiveQ i)) :
    n ∈ ids s es (.returned i) ∨ n ∈ ids s es (.receiveQ i) := by
  rw [h (.receiveQ i) rfl, List.mem_append] at hn
  rwa [ids_returned]

/-! ### The main result -/

/-- What is promised for the messages of a run: each is in exactly one place, and there once; they
leave every receive queue in the order in which they entered it; and no message is delivered to two
sockets.  A message in the hands of a push is its own on the way to a queue, or one it dequeued. -/
structure ExactlyOnce (s : State) (es : List Event) : Prop where
  once : ∀ n psock cb, Event.handed n psock cb ∈ es → ∃ k, (∀ i, k ≠ .refused i) ∧
    (ids s es k).count n = 1 ∧ ∀ k', k' ≠ k → n ∉ ids s es k'
  fifo : ∀ i, entries Event.in? es (.rxQ i) = entries Event.from? es (.rxQ i) ++ (s.rxQ i).map Skb.id
  oneSocket : ∀ n i j, n ∈ entries Event.in? es (.receiveQ i) → n ∈ entries Event.in? es (.receiveQ j) →
    i = j

/-- **Exactly-once scheduling.**  In every run of the grpc scheduler, with any random choices and any
interleaving, no message is lost, duplicated or delivered to two sockets. -/
theorem exactly_once (h : (machine .grpc).Reachable s es) : ExactlyOnce s es := by
  have hl := ledger_of_reach h
  have hf := fifo_of_reach h
  refine ⟨?_, fun i => hf (.rxQ i) rfl, ?_⟩
  · intro n psock cb hn
    obtain ⟨⟨k, hk⟩, hmost⟩ := hl.once n (hl.lt_of_handed hn)
    refine ⟨k, ?_, ?_, fun k' hne hk' => hne (hmost.unique k' k hk' hk)⟩
    · rintro i rfl
      rw [ids_refused (no_refusal_of_reach h i)] at hk
      cases hk
    · exact le_antisymm (hmost.count_le k) (List.count_pos_iff.mpr hk)
  · intro n i j hi hj
    have hlt : n < s.nextId := (hf.delivered hi).elim hl.lt_nextId hl.lt_nextId
    have hmost := (hl.once n hlt).2
    rcases hf.delivered hi with hi | hi <;> rcases hf.delivered hj with hj | hj <;>
      simpa using hmost.unique _ _ hi hj

/-- Message 0 was pushed to socket 3 and received; message 1 is in the hands of its push. -/
theorem exactly_once_after_recvmsg : ∃ s es, (machine .grpc).Reachable s es ∧
    ids s es (.returned 3) = [0] ∧ ids s es (.push 1) = [1] ∧ ExactlyOnce s es := by
  obtain ⟨s, es, hr, hy⟩ := Machine.Reach.of_exec (M := machine .grpc)
    (G := fun _ _ => True) (g := fun _ _ => true)
    (List.replicate numRakaiaSockets .create ++ handActs 0 3 ++ [.recvmsg 3, handTo 2 5, .push 1 ample])
    (fun _ _ _ _ => trivial) (fun r => (ids r.1 r.2 (.returned 3), ids r.1 r.2 (.push 1))) ([0], [1])
    (by decide +kernel)
  obtain ⟨h₁, h₂⟩ := Prod.mk.inj hy
  exact ⟨s, es, hr, h₁, h₂, exactly_once hr⟩

end Rakaia.Sched
