import Rakaia.H2.Reassembly

/-! # The frames of a run

What the steps of the receive path leave alone: a stored frame changes neither the psock nor the
allocator, and the only frame in the history of a step is the one that arrives in it.  So the frames
of a run lie in the buffers `0`, `1`, `2`, … in their order of arrival (`frames_of_reach`). -/

namespace Rakaia.H2

open Lib

/-- The frame whose arrival the event is. -/
def Event.frame? : Event → Option Frame
  | .frame a skb => some (a, skb)
  | _ => none

/-- The frames that arrived, in order of arrival. -/
def frames (es : List Event) : List Frame := es.filterMap Event.frame?

theorem frames_append (es e : List Event) : frames (es ++ e) = frames es ++ frames e :=
  List.filterMap_append

theorem framesOf_eq (sid : ℕ) (es : List Event) :
    framesOf sid es = (frames es).filter (fun f => f.2.carried ∧ f.2.cb.streamId = sid) := by
  rw [framesOf, frames, List.filter_filterMap]
  congr 1
  funext x
  cases x with
  | frame a skb =>
      by_cases hc : skb.carried = true ∧ skb.cb.streamId = sid <;>
        simp [Event.frameOf?, Event.frame?, Option.filter, hc]
  | rcvMsg | freed | returned => rfl

theorem OnlyFrees.frames {e : List Event} (h : OnlyFrees e) : frames e = [] := by
  rw [H2.frames, List.filterMap_eq_nil_iff]
  intro x hx
  obtain ⟨a, rfl⟩ := h x hx
  rfl

/-! ### What a step leaves alone -/

section steps

variable {hash : ℕ → Fin streamHashSize} {s s' : State} {e : List Event}

/-- Neither the psock nor the allocator is touched. -/
structure Apart (s s' : State) : Prop where
  psock : s'.psock = s.psock
  brk : s'.brk = s.brk

theorem addSkbToStream_apart {sid a : ℕ} {alloc : Alloc}
    (h : addSkbToStream hash s sid a alloc = .ok s') : Apart s s' := by
  unfold addSkbToStream addSkbsToHead createStreamHead at h
  split at h
  · split at h <;> cases h
    next hs =>
      split at hs <;> cases hs
      exact ⟨rfl, rfl⟩
  · split at h <;> cases h
    next hs =>
      split at hs <;> cases hs
      exact ⟨rfl, rfl⟩

theorem flushStream_apart (hash : ℕ → Fin streamHashSize) (s : State) (sid : ℕ) :
    Apart s (flushStream hash s sid).1 ∧ frames (flushStream hash s sid).2 = [] := by
  unfold flushStream deleteStream
  split
  · dsimp only
    split <;> exact ⟨⟨rfl, rfl⟩, rfl⟩
  · exact ⟨⟨rfl, rfl⟩, rfl⟩

theorem storeFrame_apart {a : ℕ} {alloc : Alloc} (h : storeFrame hash s a alloc = some (s', e)) :
    Apart s s' ∧ frames e = [] := by
  unfold storeFrame at h
  dsimp only at h
  split at h
  · cases h
  · obtain ⟨rfl, rfl⟩ := Prod.mk.inj (Option.some.inj h)
    exact ⟨⟨rfl, rfl⟩, rfl⟩
  · next s₁ hadd =>
      have hadd := addSkbToStream_apart hadd
      have h := Option.some.inj h
      split_ifs at h
      · have hflush := flushStream_apart hash s₁ (s.heap a).cb.streamId
        rw [h] at hflush
        exact ⟨⟨hflush.1.psock.trans hadd.psock, hflush.1.brk.trans hadd.brk⟩, hflush.2⟩
      · obtain ⟨rfl, rfl⟩ := Prod.mk.inj h
        exact ⟨hadd, rfl⟩

theorem handleH2Frame_frames {a : ℕ} {alloc : Alloc} (h : handleH2Frame hash s a alloc = some (s', e)) :
    s'.brk = s.brk ∧ frames e = [] := by
  cases hc : (s.heap a).carried with
  | false =>
      obtain ⟨s₁, e₁, h₁, ⟨p, rfl⟩, hfree⟩ := handleH2Frame_other hash alloc hc
      obtain ⟨rfl, rfl⟩ := Prod.mk.inj (Option.some.inj (h₁.symm.trans h))
      exact ⟨rfl, hfree.frames⟩
  | true =>
      obtain ⟨s₁, h₁, ⟨p, rfl⟩⟩ := handleH2Frame_stored hash alloc hc
      obtain ⟨hapart, he⟩ := storeFrame_apart (h₁.symm.trans h)
      exact ⟨hapart.brk, he⟩

theorem clearNexts_apart (s : State) (l : List ℕ) :
    Apart s (l.foldl (fun s a => s.setNext a none) s) := by
  induction l generalizing s with
  | nil => exact ⟨rfl, rfl⟩
  | cons a l ih => exact ⟨(ih _).psock, (ih _).brk⟩

theorem rakaiaRecvmsg_apart {head len mapped : ℕ} {dgram : Bool}
    (h : rakaiaRecvmsg s head len mapped dgram = some (s', e)) : Apart s s' ∧ frames e = [] := by
  unfold rakaiaRecvmsg at h
  split at h
  · next l _ _ =>
      obtain ⟨rfl, rfl⟩ := Prod.mk.inj (Option.some.inj h)
      obtain ⟨hp, hb⟩ := clearNexts_apart s l
      refine ⟨⟨hp, hb⟩, ?_⟩
      have hfree : OnlyFrees (l.tail.map Event.freed) := by
        intro x hx
        obtain ⟨a, -, rfl⟩ := List.mem_map.mp hx
        exact ⟨a, rfl⟩
      rw [frames_append, hfree.frames]
      rfl
  · cases h

/-- The frame that arrives in a step. -/
def Act.frames (s : State) : Act → List Frame
  | .frame skb _ => [(s.brk, skb)]
  | .recvmsg .. => []

theorem step_frames {a : Act} (h : step hash s a = some (s', e)) :
    frames e = a.frames s ∧ s'.brk = s.brk + (a.frames s).length := by
  cases a with
  | frame skb alloc =>
      obtain ⟨⟨s₁, e₁⟩, hframe, heq⟩ := Option.map_eq_some_iff.mp h
      obtain ⟨rfl, rfl⟩ := Prod.mk.inj heq
      obtain ⟨hb, he⟩ := handleH2Frame_frames hframe
      refine ⟨?_, hb⟩
      change (s.brk, skb) :: frames e₁ = _
      rw [he]
      rfl
  | recvmsg head len mapped dgram =>
      rw [step] at h
      split_ifs at h
      obtain ⟨hapart, he⟩ := rakaiaRecvmsg_apart h
      exact ⟨he, hapart.brk⟩

/-- **The buffers of a run** are used one after the other. -/
theorem frames_of_reach {heap : ℕ → Skb} {psock : Psock} {G : State → Act → Prop} {es : List Event}
    (h : (machine hash heap psock).Reach G s es) : (frames es).map Prod.fst = List.range s.brk := by
  refine h.invariant (P := fun s es => (frames es).map Prod.fst = List.range s.brk) rfl ?_
  intro s es a s' e _ ih _ hs
  obtain ⟨he, hb⟩ := step_frames hs
  rw [frames_append, List.map_append, ih, he, hb]
  cases a with
  | frame skb alloc => exact (List.range_succ (n := s.brk)).symm
  | recvmsg => exact List.append_nil _

end steps

end Rakaia.H2
