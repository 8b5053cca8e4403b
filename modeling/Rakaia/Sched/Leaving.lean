import Rakaia.Sched.ExactlyOnce

/-! # Messages that leave the scheduler

A message leaves the scheduler when `recvmsg` takes it, or when `rakaia_queue_rcv_skb` refuses it; no message
leaves twice (`outIds_of_reach`). -/

namespace Rakaia.Sched

open Lib

variable {v : Variant} {s : State} {es : List Event} {G : State → Act → Prop}

/-- The messages that have left the scheduler, in order. -/
def outIds (es : List Event) : List ℕ := es.filterMap (fun e => e.out?.map (fun x => x.2.id))

theorem outIds_append (es e : List Event) : outIds (es ++ e) = outIds es ++ outIds e := List.filterMap_append

/-- What has left the scheduler is in the places outside it. -/
theorem entries_out (s : State) (es : List Event) (k : Place) :
    entries (fun e => e.out?.map (fun x => (x.1, x.2.id))) es k = ids s es k ∨
      entries (fun e => e.out?.map (fun x => (x.1, x.2.id))) es k = [] := by
  have hmap : entries (fun e => e.out?.map (fun x => (x.1, x.2.id))) es k = (entries Event.out? es k).map Skb.id := by
    rw [entries, entries, List.map_filterMap]
    refine List.filterMap_congr fun e _ => ?_
    cases e.out? with
    | none => rfl
    | some x => by_cases hk : x.1 = k <;> simp [hk]
  have hnone : (∀ i, k ≠ .returned i) → (∀ i, k ≠ .refused i) → entries Event.out? es k = [] := by
    intro h₁ h₂
    rw [entries, List.filterMap_eq_nil_iff]
    intro e _
    cases e with
    | received i skb => simp [Event.out?, (h₁ i).symm]
    | refused i skb => simp [Event.out?, (h₂ i).symm]
    | _ => rfl
  rw [hmap]
  cases k with
  | returned i => exact .inl rfl
  | refused i => exact .inl rfl
  | _ => exact .inr (by rw [hnone (by simp) (by simp)]; rfl)

/-- **No message leaves twice**, and only messages that were handed over leave. -/
theorem outIds_of_reach (h : (machine v).Reach G s es) : (outIds es).Nodup ∧ ∀ n ∈ outIds es, n < s.nextId := by
  have hl := ledger_of_reach h
  have hsnd : outIds es =
      es.filterMap (fun e => (e.out?.map (fun x => (x.1, x.2.id))).map Prod.snd) := by
    refine List.filterMap_congr fun e _ => ?_
    rw [Option.map_map]
    rfl
  have honce : ∀ n, AtMostOnce (ids s es) n := by
    intro n
    rcases Nat.lt_or_ge n s.nextId with hn | hn
    · exact (hl.once n hn).2
    · exact atMostOnce_of_notMem (hl.fresh n hn)
  refine ⟨?_, fun n hn => ?_⟩
  · rw [hsnd]
    refine nodup_of_atMostOnce fun n => (honce n).anti fun k => ?_
    rcases entries_out s es k with hk | hk
    · rw [hk]
    · rw [hk]
      exact Nat.zero_le _
  · obtain ⟨e, he, hn⟩ := List.mem_filterMap.mp hn
    obtain ⟨⟨k, skb⟩, hout, rfl⟩ := Option.map_eq_some_iff.mp hn
    have hmem : skb.id ∈ entries (fun e => e.out?.map (fun x => (x.1, x.2.id))) es k :=
      List.mem_filterMap.mpr ⟨e, he, by simp [hout]⟩
    rcases entries_out s es k with hk | hk
    · exact hl.lt_nextId (hk ▸ hmem)
    · rw [hk] at hmem
      cases hmem

/-- A message in the receive queue of a socket has not left. -/
theorem notMem_outIds (h : (machine v).Reachable s es) {ksk : Ksk} {skb : Skb} {rest : List Skb}
    (hq : s.receiveQ ksk = skb :: rest) : skb.id ∉ outIds es := by
  obtain ⟨s', hs⟩ : ∃ s', (machine v).step s (.recvmsg ksk) = some (s', [.received ksk skb]) := by
    simp only [machine, step, recvmsg, hq]
    exact ⟨_, rfl⟩
  have hnodup := (outIds_of_reach (Machine.Reach.step h trivial hs)).1
  rw [outIds_append] at hnodup
  intro hm
  exact (List.nodup_append.mp hnodup).2.2 skb.id hm skb.id List.mem_cons_self rfl

/-- A step other than a `recvmsg` lets no message out, or refuses one. -/
theorem quiet_or_refused {s' : State} {a : Act} {e : List Event} (hs : Step v s a s' e)
    (ha : ∀ ksk, a ≠ .recvmsg ksk) : (∀ ev ∈ e, ev.out? = none) ∨ ∃ ksk skb, e = [.refused ksk skb] := by
  cases hs with
  | recvmsg ksk => exact absurd rfl (ha ksk)
  | pushRefused p b ksk skb => exact .inr ⟨ksk, skb, rfl⟩
  | pullRefused t r b ksk skb => exact .inr ⟨ksk, skb, rfl⟩
  | _ => exact .inl (by simp [Event.out?])

/-- In the grpc variant nothing is refused. -/
theorem quiet_of_grpc {s' : State} {a : Act} {e : List Event} (hs : Step .grpc s a s' e)
    (ha : ∀ ksk, a ≠ .recvmsg ksk) : ∀ ev ∈ e, ev.out? = none := by
  cases hs with
  | recvmsg ksk => exact absurd rfl (ha ksk)
  | pushRefused _ _ _ _ _ hno => cases hno
  | pullRefused _ _ _ _ _ _ hno => cases hno
  | _ => simp [Event.out?]

/-- Messages get their numbers when they are pushed. -/
theorem nextId_of_step {s' : State} {a : Act} {e : List Event} (hs : Step v s a s' e)
    (ha : ∀ psock cb n r1 r2, a ≠ .pushStart psock cb n r1 r2) : s'.nextId = s.nextId := by
  cases hs with
  | pushStart psock cb n r1 r2 => exact absurd rfl (ha psock cb n r1 r2)
  | pullTake t r b pc ksk i skb rest => exact (afterTake_fields s i rest).2.2.2.2.2.2.2.2.1
  | _ => rfl

end Rakaia.Sched
