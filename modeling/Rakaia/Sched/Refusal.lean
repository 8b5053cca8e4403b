import Rakaia.Sched.ExactlyOnce

/-! # Refused deliveries (plain-tcp)

`rakaia_queue_rcv_skb` comes last in three paths: a push that has unlinked a parked socket, a pull from
the socket's own queue, and a steal.  Each of them has taken the message off its queue before.
`rakaia_rcv_strparser` and `rakaia_sendmsg` drop the result, and `rakaia_ioctl` only passes the error on:
nobody puts the message back.  So a message that the socket has no memory for is in nobody's hands
afterwards, and stays lost (`refused_lost`); the socket that a push has unlinked for it is not parked
again. -/

namespace Rakaia.Sched

open Lib

variable {v : Variant} {G : State → Act → Prop} {s s' : State} {a : Act} {es e : List Event} {ksk : Ksk}
  {skb : Skb} {budget : Budget} {waiter : Bool}

/-- The step is the call of `rakaia_queue_rcv_skb`; `waiter` says that the socket was unlinked from
`ksk_waiters` for the message. -/
inductive Delivers (s : State) (ksk : Ksk) (skb : Skb) (budget : Budget) : Bool → Act → Prop
  | push (p : ℕ) : s.push p = .deliver ksk skb → Delivers s ksk skb budget true (.push p budget)
  | pull (t : ℕ) (r : UInt8) : s.pull t = .deliver ksk skb →
      Delivers s ksk skb budget false (.pull t r budget)

/-- The receive budget is not exhausted, and the memory can be scheduled. -/
def Affords (s : State) (ksk : Ksk) (budget : Budget) : Prop :=
  s.rmemAlloc ksk < budget.rcvbuf ∧ budget.scheduled = true

/-- The message waits in a receive queue that is marked as non-empty, and the socket is parked again. -/
def Kept (s : State) (ksk : Ksk) (skb : Skb) (waiter : Bool) : Prop :=
  (∃ i, skb.id ∈ (s.rxQ i).map Skb.id ∧ s.rxNonemptyBm i = true) ∧ (waiter = true → ksk ∈ s.kskWaiters)

theorem rcvSkbAccepted_iff (s : State) (ksk : Ksk) (budget : Budget) :
    rcvSkbAccepted .plainTcp s ksk budget = true ↔ Affords s ksk budget := by
  rw [rcvSkbAccepted, Bool.and_eq_true, decide_eq_true_iff, Affords]

/-- The end of both callers of `rakaia_queue_rcv_skb`. -/
theorem refused_iff_of_ite {b : Bool} {t₁ t₂ : State}
    (h : (if b = true then some (t₁, []) else some (t₂, [Event.refused ksk skb])) = some (s', e)) :
    Event.refused ksk skb ∈ e ↔ b = false := by
  cases b with
  | true =>
      obtain ⟨-, rfl⟩ := Prod.mk.inj (Option.some.inj h)
      simp
  | false =>
      obtain ⟨-, rfl⟩ := Prod.mk.inj (Option.some.inj h)
      simp

/-- The call refuses the message just when the socket cannot afford it. -/
theorem Delivers.refused_iff (hd : Delivers s ksk skb budget waiter a)
    (hs : step .plainTcp s a = some (s', e)) : Event.refused ksk skb ∈ e ↔ ¬ Affords s ksk budget := by
  rw [← rcvSkbAccepted_iff, Bool.not_eq_true]
  cases hd with
  | push p hpc =>
      simp only [step, rakaiaPushSkbSingleQueue, hpc] at hs
      exact refused_iff_of_ite hs
  | pull t r hpc =>
      simp only [step, rakaiaPull, hpc] at hs
      exact refused_iff_of_ite hs

/-- **A refused message is lost**: in every later state it is in no queue and in nobody's hands. -/
theorem refused_lost (h : (machine v).Reach G s es) (hm : Event.refused ksk skb ∈ es) {k : Place}
    (hk : k ≠ .refused ksk) : skb.id ∉ ids s es k := by
  have hl := ledger_of_reach h
  have hmem : skb.id ∈ ids s es (.refused ksk) := by
    rw [ids, whereabouts]
    refine List.mem_map_of_mem (List.mem_filterMap.mpr ⟨_, hm, ?_⟩)
    simp [Event.out?]
  exact fun hn => hk ((hl.once skb.id (hl.lt_nextId hmem)).2.unique _ _ hn hmem)

/-! ### The main result -/

/-- **Refused deliveries.**  In every reachable state and for every message that is about to be delivered
by a push, a pull or a steal: a refusal keeps the message in a marked queue and the socket parked if and
only if there is no refusal.  And the messages that were refused before are in no queue. -/
theorem refusal_kept_iff (h : (machine .plainTcp).Reachable s es) (hd : Delivers s ksk skb budget waiter a)
    (hs : step .plainTcp s a = some (s', e)) :
    ((Event.refused ksk skb ∈ e → Kept s' ksk skb waiter) ↔
      s.rmemAlloc ksk < budget.rcvbuf ∧ budget.scheduled = true) ∧
    ∀ ksk' skb', Event.refused ksk' skb' ∈ es → ∀ i,
      skb'.id ∉ (s.rxQ i).map Skb.id ∧ skb'.id ∉ (s.receiveQ i).map Skb.id := by
  have hiff := hd.refused_iff hs
  refine ⟨⟨fun hkept => ?_, fun ha hr => absurd ha (hiff.mp hr)⟩, fun ksk' skb' hr i => ?_⟩
  · by_contra hn
    have hr : Event.refused ksk skb ∈ e := hiff.mpr hn
    obtain ⟨⟨i, hi, -⟩, -⟩ := hkept hr
    have hreach : (machine .plainTcp).Reachable s' (es ++ e) := h.step trivial hs
    exact refused_lost (k := .rxQ i) hreach (List.mem_append_right es hr) nofun hi
  · exact ⟨refused_lost (k := .rxQ i) h hr nofun, refused_lost (k := .receiveQ i) h hr nofun⟩

/-- The socket to which a push is about to deliver. -/
def PushPc.delivers? : PushPc → Option Ksk
  | .deliver ksk _ => some ksk
  | _ => none

/-- Message 0 is about to be delivered to socket 3, which has memory for it. -/
theorem refusal_kept_ample : ∃ s es ksk skb s' e, (machine .plainTcp).Reachable s es ∧
    Delivers s ksk skb ample true (.push 0 ample) ∧ step .plainTcp s (.push 0 ample) = some (s', e) ∧
    (Event.refused ksk skb ∈ e → Kept s' ksk skb true) := by
  obtain ⟨s, es, hr, hy⟩ := Machine.Reach.of_exec (M := machine .plainTcp)
    (G := fun _ _ => True) (g := fun _ _ => true)
    (bootActs ++ handTo 1 3 :: List.replicate 5 (.push 0 ample)) (fun _ _ _ _ => trivial)
    (fun r => ((r.1.push 0).delivers?, r.1.rmemAlloc 3)) (some 3, 0) (by decide +kernel)
  obtain ⟨hpush, hmem⟩ := Prod.mk.inj hy
  cases hpc : s.push 0 with
  | deliver ksk skb =>
      rw [hpc] at hpush
      obtain rfl := Option.some.inj hpush
      have ha : Affords s 3 ample := ⟨by rw [hmem]; decide, rfl⟩
      have hs : step .plainTcp s (.push 0 ample) = some (s.setPush 0 (.charge 3 skb), []) := by
        simp only [step, rakaiaPushSkbSingleQueue, hpc, (rcvSkbAccepted_iff s 3 ample).mpr ha, if_true]
      exact ⟨s, es, 3, skb, _, _, hr, .push 0 hpc, hs, (refusal_kept_iff hr (.push 0 hpc) hs).1.mpr ha⟩
  | _ => rw [hpc] at hpush; cases hpush

/-- The memory for the same message cannot be scheduled: it is in no queue, no bit is set, and socket 3 is
not parked. -/
theorem refusal_loses : ∃ s es, (machine .plainTcp).Reachable s es ∧ (∃ skb, Event.refused 3 skb ∈ es) ∧
    (∀ i, s.rxQ i = [] ∧ s.receiveQ i = [] ∧ s.rxNonemptyBm i = false) ∧ 3 ∉ s.kskWaiters ∧
    s.waitersBm 3 = false ∧ s.nextId = 1 := by
  obtain ⟨s, es, hr, hy⟩ := Machine.Reach.of_exec (M := machine .plainTcp)
    (G := fun _ _ => True) (g := fun _ _ => true)
    (bootActs ++ handTo 1 3 :: List.replicate 5 (.push 0 ample) ++ [.push 0 { ample with scheduled := false }])
    (fun _ _ _ _ => trivial)
    (fun r => (ids r.1 r.2 (.refused 3), decide (∀ i, (r.1.rxQ i).isEmpty ∧ (r.1.receiveQ i).isEmpty ∧
      r.1.rxNonemptyBm i = false), decide (3 ∈ r.1.kskWaiters), r.1.waitersBm 3, r.1.nextId))
    ([0], true, false, false, 1) (by decide +kernel)
  simp only [Prod.mk.injEq, decide_eq_true_iff, decide_eq_false_iff_not, List.isEmpty_iff] at hy
  obtain ⟨hids, hq, hw, hb, hn⟩ := hy
  have hmem : ∃ skb, Event.refused 3 skb ∈ es := by
    by_contra hnone
    rw [ids_refused (fun skb hs => hnone ⟨skb, hs⟩)] at hids
    cases hids
  exact ⟨s, es, hr, hmem, hq, hw, hb, hn⟩

end Rakaia.Sched
