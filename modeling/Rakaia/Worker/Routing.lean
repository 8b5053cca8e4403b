import Rakaia.Worker.LateBinding

/-! # Answers go back where the requests came from

The only link between a message and its connection is the pointer that the push stores in the
control block of the message, next to the fields of the parser.  The message carries it through every
queue; `rakaia_recvmsg` copies it to `last_psock`, and `rakaia_sendmsg` splices its segments onto
the `tx_wait_queue` of that psock.  So an answer goes to the psock whose parser produced the
message that is answered. -/

namespace Rakaia.Sched

open Lib

variable {v : Variant} {s s' : State} {es e : List Event} {G : State → Act → Prop}

/-! ### Messages carry their psock -/

/-- The message is the one that the parser of `psock`, and no other, handed over with control block
`cb`.  It carries the pointer to `psock`, and the fields of the parser as they were; a store to one of
these would leave the pointer. -/
structure ProducedBy (es : List Event) (skb : Skb) (psock : PsockPtr) (cb : Cb) : Prop where
  handed : .handed skb.id psock cb ∈ es
  only : ∀ psock' cb', .handed skb.id psock' cb' ∈ es → psock' = psock ∧ cb' = cb
  pointer : skb.getPsock = psock
  strp : ∀ f ∈ Cb.strpFields, f.load skb.cb = f.load cb
  kept : ∀ f ∈ Cb.strpFields, ∀ n, Skb.getPsock { skb with cb := f.store n skb.cb } = psock

/-- Every message was handed over, and nothing but the pointer of the push was stored in it. -/
def Genuine (s : State) (es : List Event) : Prop :=
  ∀ k, ∀ skb ∈ whereabouts s es k, ∃ psock cb, .handed skb.id psock cb ∈ es ∧
    skb = Skb.setPsock ⟨skb.id, cb, skb.truesize⟩ psock

theorem genuine_init : Genuine State.init [] := by
  intro k skb hm
  cases k <;> cases hm

theorem Genuine.effect (h : Genuine s es) (he : Effect s es s' e) : Genuine s' (es ++ e) := by
  have hold : ∀ k, ∀ skb ∈ whereabouts s es k, ∃ psock cb, .handed skb.id psock cb ∈ es ++ e ∧
      skb = Skb.setPsock ⟨skb.id, cb, skb.truesize⟩ psock := by
    intro k skb hm
    obtain ⟨psock, cb, hh, heq⟩ := h k skb hm
    exact ⟨psock, cb, List.mem_append_left _ hh, heq⟩
  intro k skb hm
  cases he with
  | stay hw _ => exact hold k skb (hw ▸ List.append_nil es ▸ hm)
  | enter psock cb truesize _ _ hw =>
      rw [hw] at hm
      by_cases hk : k = .push s.nextId
      · rw [hk, Function.update_self, List.mem_singleton] at hm
        subst hm
        exact ⟨psock, cb, List.mem_append_right _ List.mem_cons_self, rfl⟩
      · rw [Function.update_of_ne hk] at hm
        exact hold k skb hm
  | pass ev x k₁ k₂ hp _ _ _ _ =>
      obtain ⟨k', hm'⟩ := hp.mem_of_mem hm
      exact hold k' skb hm'

theorem genuine_of_reach (h : (machine v).Reach G s es) : Genuine s es :=
  h.invariant (P := Genuine) genuine_init
    (fun _ es _ _ _ hr ih _ hs => ih.effect (effect_of_step (step_cases hs) (queues_of_reach hr) es))

/-- A message is handed over once. -/
theorem Ledger.handed_unique (h : Ledger s es) {n : ℕ} {psock psock' : PsockPtr} {cb cb' : Cb}
    (h₁ : .handed n psock cb ∈ es) (h₂ : .handed n psock' cb' ∈ es) : psock' = psock ∧ cb' = cb := by
  have hnodup : ((es.filterMap Event.handed?).map Prod.fst).Nodup := by
    rw [h.handed]
    exact List.nodup_range
  have hm₁ : (n, psock, cb) ∈ es.filterMap Event.handed? := List.mem_filterMap.mpr ⟨_, h₁, rfl⟩
  have hm₂ : (n, psock', cb') ∈ es.filterMap Event.handed? := List.mem_filterMap.mpr ⟨_, h₂, rfl⟩
  simpa using List.inj_on_of_nodup_map hnodup hm₂ hm₁ rfl

/-- **Messages carry their psock**, wherever they are. -/
theorem producedBy_of_reach (h : (machine v).Reach G s es) {k : Place} {skb : Skb}
    (hm : skb ∈ whereabouts s es k) : ∃ psock cb, ProducedBy es skb psock cb := by
  obtain ⟨psock, cb, hh, heq⟩ := genuine_of_reach h k skb hm
  have hp : skb.getPsock = psock := by
    rw [heq]
    exact Skb.getPsock_setPsock _ _
  refine ⟨psock, cb, hh, fun _ _ => (ledger_of_reach h).handed_unique hh, hp, fun f hf => ?_, fun f hf n => ?_⟩
  · rw [heq]
    exact Skb.load_setPsock _ _ hf
  · rw [Skb.getPsock_store skb hf, hp]

end Rakaia.Sched

namespace Rakaia.Worker

open Lib
open Sched (Ksk ProducedBy whereabouts)

variable {writeSeq : PsockPtr → UInt32} {s s' : State} {a : Act} {es e : List Event}
  {G : State → Act → Prop}

/-! ### The message that is answered -/

/-- What an event says about the message that the last `recvmsg` on socket `i` returned. -/
def Event.noteReturned (i : Ksk) (r : Option Skb) : Event → Option Skb
  | .sched (.received j skb) => if j = i then some skb else r
  | .recvFault j => if j = i then none else r
  | _ => r

/-- The message that the last `recvmsg` on socket `i` returned; `none` when there is no such call, or
when it failed. -/
def lastReturned (i : Ksk) (es : List Event) : Option Skb := es.foldl (Event.noteReturned i) none

theorem lastReturned_append (i : Ksk) (es e : List Event) :
    lastReturned i (es ++ e) = e.foldl (Event.noteReturned i) (lastReturned i es) := by
  rw [lastReturned, lastReturned, List.foldl_append]

theorem lastReturned_mem {i : Ksk} {skb : Skb} (h : lastReturned i es = some skb) :
    skb ∈ whereabouts s.sched (schedEvents es) (.returned i) := by
  induction es using List.reverseRecOn with
  | nil => cases h
  | append_singleton es ev ih =>
      have hold : lastReturned i es = some skb →
          skb ∈ whereabouts s.sched (schedEvents (es ++ [ev])) (.returned i) := by
        intro h
        rw [schedEvents, List.filterMap_append, whereabouts, entries_append]
        exact List.mem_append_left _ (ih h)
      rw [lastReturned_append, List.foldl_cons, List.foldl_nil] at h
      cases ev with
      | sched ev =>
          cases ev with
          | received j skb' =>
              simp only [Event.noteReturned] at h
              split_ifs at h with hj
              · obtain rfl := Option.some.inj h
                rw [hj, schedEvents, List.filterMap_append, whereabouts, entries_append]
                exact List.mem_append_right _ (by simp [Event.sched?, entries, Sched.Event.out?])
              · exact hold h
          | _ => exact hold h
      | recvFault j =>
          simp only [Event.noteReturned] at h
          split_ifs at h
          exact hold h
      | _ => exact hold h

/-- A worker that serves has remembered the psock of the message it serves. -/
def Remembers (s : State) (es : List Event) : Prop :=
  ∀ i, s.pc i = .serving → ∃ skb, lastReturned i es = some skb ∧ s.lastPsock i = skb.getPsock

/-- Only a `recvmsg` takes a message off an `sk_receive_queue`. -/
theorem lastReturned_sched {b : Sched.Act} {sc : Sched.State} {e : List Sched.Event}
    (hm : s.mayRun b = true) (hb : Sched.step .plainTcp s.sched b = some (sc, e)) (i : Ksk) :
    lastReturned i (es ++ e.map .sched) = lastReturned i es := by
  rw [lastReturned_append]
  cases Sched.step_cases hb with
  | recvmsg => cases hm
  | _ => rfl

theorem lastReturned_tx (i : Ksk) (psock : PsockPtr) (e : List Tx.Event) :
    lastReturned i (es ++ e.map (.tx psock)) = lastReturned i es := by
  rw [lastReturned_append]
  induction e with
  | nil => rfl
  | cons ev e ih => exact ih

theorem serving_of_update {pcs : Ksk → Pc} {k i : Ksk} {pc : Pc} (hne : pc ≠ .serving)
    (h : Function.update pcs k pc i = .serving) : i ≠ k ∧ pcs i = .serving := by
  by_cases hik : i = k
  · rw [hik, Function.update_self] at h
    exact absurd h hne
  · rw [Function.update_of_ne hik] at h
    exact ⟨hik, h⟩

/-- No step of the scheduler makes a worker serve. -/
theorem serving_of_pcAfter {b : Sched.Act} {sc : Sched.State} {i : Ksk}
    (h : s.pcAfter b sc i = .serving) : s.pc i = .serving := by
  cases b with
  | pullStart t ksk =>
      simp only [State.pcAfter] at h
      split_ifs at h
      · exact (serving_of_update (by simp) h).2
      · exact h
  | pull t r b =>
      simp only [State.pcAfter] at h
      split_ifs at h
      · exact (serving_of_update (by simp) h).2
      · exact h
      · exact h
  | _ => exact h

theorem remembers_step (hs : Step s a s' e) (h : Remembers s es) : Remembers s' (es ++ e) := by
  intro i hi
  cases hs with
  | sched b sc e hm hb =>
      rw [lastReturned_sched hm hb]
      exact h i (serving_of_pcAfter hi)
  | received ksk skb rest =>
      rw [lastReturned_append]
      by_cases hik : i = ksk
      · subst hik
        exact ⟨skb, by simp [Event.noteReturned], by simp [State.take]⟩
      · have hpc : s.pc i = .serving := (Function.update_of_ne hik _ _).symm.trans hi
        simpa [Event.noteReturned, State.take, hik, Ne.symm hik] using h i hpc
  | recvFault ksk skb rest =>
      obtain ⟨hik, hpc⟩ := serving_of_update (by simp) hi
      rw [lastReturned_append]
      simpa [Event.noteReturned, State.take, hik, Ne.symm hik] using h i hpc
  | sendError ksk segments =>
      rw [lastReturned_append]
      exact h i (serving_of_update (by simp) hi).2
  | spliced ksk lens psock =>
      rw [lastReturned_append]
      exact h i (serving_of_update (by simp) hi).2
  | sent ksk psock =>
      rw [lastReturned_append]
      exact h i (serving_of_update (by simp) hi).2
  | tx psock b tx e =>
      rw [lastReturned_tx]
      exact h i hi

theorem remembers_of_reach (h : (machine writeSeq).Reach G s es) : Remembers s es :=
  h.invariant (P := Remembers) (fun _ hi => by cases hi)
    (fun _ _ _ _ _ _ ih _ hs => remembers_step (step_cases hs) ih)

/-! ### The main result -/

/-- What is promised in a state with the given history: every message carries the pointer to the psock
that produced it and the fields of the parser, wherever it is; and a `sendmsg` that reports no error
appends its segments to the `tx_wait_queue` of the psock that produced the message returned by the last
`recvmsg` on the socket, and to no other queue. -/
structure ResponseRouting (s : State) (es : List Event) : Prop where
  carried : ∀ k, ∀ skb ∈ whereabouts s.sched (schedEvents es) k,
    ∃ psock cb, ProducedBy (schedEvents es) skb psock cb
  routed : ∀ i segments s' e, step s (.sendmsg i segments) = some (s', e) → .sendError i ∉ e →
    ∃ lens skb psock cb, segments = some lens ∧ lastReturned i es = some skb ∧
      ProducedBy (schedEvents es) skb psock cb ∧
      (s'.tx psock).txWaitQueue =
        (s.tx psock).txWaitQueue ++ lens.map (fun len => ⟨(s.tx psock).nextMsg, len, 0⟩) ∧
      ∀ psock', psock' ≠ psock → s'.tx psock' = s.tx psock'

/-- **Response routing.**  In every run of the server, with any number of connections and messages and any
interleaving, every answer goes to the connection its request came from. -/
theorem response_routing (h : (machine writeSeq).Reachable s es) : ResponseRouting s es := by
  have hsc := sched_of_reach h
  refine ⟨fun k skb hm => Sched.producedBy_of_reach hsc hm, fun i segments s' e hs hok => ?_⟩
  cases step_cases hs with
  | sendError => exact absurd List.mem_cons_self hok
  | spliced ksk lens psock hpc hlast =>
      obtain ⟨skb, hret, hmem⟩ := remembers_of_reach h i hpc
      obtain ⟨psock', cb, hby⟩ := Sched.producedBy_of_reach hsc (lastReturned_mem (s := s) hret)
      obtain rfl : psock' = psock := by rw [← hby.pointer, ← hmem, hlast]
      refine ⟨lens, skb, psock', cb, rfl, hret, hby, ?_, fun q hq => ?_⟩
      · simp [Tx.State.append]
      · exact Function.update_of_ne hq _ _

/-- Worker 0 answers a message that the parser of psock 1 produced: the segment is in the queue of
psock 1. -/
theorem response_routing_answer : ∃ s es s' e, (machine (fun _ => 0)).Reachable s es ∧
    step s (.sendmsg 0 (some [28])) = some (s', e) ∧
    (∃ skb, lastReturned 0 es = some skb ∧ skb.getPsock = 1) ∧
    (s'.tx 1).txWaitQueue.length = 1 ∧ ResponseRouting s es := by
  obtain ⟨s, es, hr, hy⟩ := Machine.Reach.of_exec (M := machine (fun _ => 0)) (G := fun _ _ => True)
    (g := fun _ _ => true) servingActs (fun _ _ _ _ => trivial)
    (fun r => ((step r.1 (.sendmsg 0 (some [28]))).map (fun q => (q.1.tx 1).txWaitQueue.length),
      (lastReturned 0 r.2).map Skb.getPsock)) (some 1, some 1) (by decide +kernel)
  obtain ⟨h₁, h₂⟩ := Prod.mk.inj hy
  obtain ⟨⟨s', e⟩, hs, hlen⟩ := Option.map_eq_some_iff.mp h₁
  exact ⟨s, es, s', e, hr, hs, Option.map_eq_some_iff.mp h₂, hlen, response_routing hr⟩

end Rakaia.Worker
