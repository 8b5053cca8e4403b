import Rakaia.Grpc.State

/-! # The steps of the receive side, and its parts

What a step can do (`Step`, `step_cases`), and what the parts do in a run: the parser of each connection runs as
the parser does (`parser_of_reach`), its stream table as the stream table does (`h2_of_reach`), and the scheduler
as the scheduler does (`sched_of_reach`). -/

namespace Rakaia.Grpc

open Lib
open Sched (Ksk)
open H2 (streamHashSize)
open Strp.Http2 (FrameInfo framing frameInfo)

/-- The transitions of the receive side. -/
inductive Step (hash : ℕ → Fin streamHashSize) (rcvbuf : PsockPtr → ℕ) (s : State) : Act → State → List Event → Prop
  | present (psock : PsockPtr) (a : Strp.Act) (p : Strp.State FrameInfo) (e : List (Strp.Event FrameInfo)) :
      s.cut psock = [] → Strp.step Strp.Http2.parser (rcvbuf psock) (s.parser psock) a = some (p, e) →
      Step hash rcvbuf s (.present psock a)
        { s with parser := Function.update s.parser psock p
                 cut := Function.update s.cut psock (Strp.messages e) } (e.map (.strp psock))
  | frame (psock cb : PsockPtr) (next : Option ℕ) (alloc : H2.Alloc) (head : Strp.Head FrameInfo)
      (rest : List (Strp.Head FrameInfo)) (h2 : H2.State) (e : List H2.Event) :
      s.cut psock = head :: rest → s.raised psock = [] →
      H2.step hash (s.h2 psock) (.frame (skbOf head cb next) alloc) = some (h2, e) →
      Step hash rcvbuf s (.frame psock cb next alloc)
        { s with cut := Function.update s.cut psock rest
                 h2 := Function.update s.h2 psock h2
                 raised := Function.update s.raised psock (H2.rcvMsgs e) } (e.map (.h2 psock))
  | push (psock : PsockPtr) (cb : Cb) (truesize : ℕ) (r1 r2 : UInt8) (head : ℕ) (rest : List ℕ)
      (sched : Sched.State) : s.raised psock = head :: rest →
      Sched.step .grpc s.sched (.pushStart psock cb truesize r1 r2) =
        some (sched, [.handed s.sched.nextId psock cb]) →
      sched.nextId = s.sched.nextId + 1 →
      Step hash rcvbuf s (.push psock cb truesize r1 r2)
        { s with raised := Function.update s.raised psock rest
                 pushing := Function.update s.pushing psock (some s.sched.nextId)
                 file := Function.update s.file s.sched.nextId (psock, head)
                 sched := sched }
        [.pushed psock head (bytesOf (s.h2 psock) head), .sched (.handed s.sched.nextId psock cb)]
  | sched (a : Sched.Act) (sched : Sched.State) (e : List Sched.Event) : outer a = true →
      Sched.step .grpc s.sched a = some (sched, e) →
      Step hash rcvbuf s (.sched a) { s with sched := sched } (e.map .sched)
  | recvmsg (ksk : Ksk) (len mapped : ℕ) (dgram : Bool) (skb : Skb) (rest : List Skb) (psock : PsockPtr) (head : ℕ)
      (sched : Sched.State) (h2 : H2.State) (e : List H2.Event) : s.sched.receiveQ ksk = skb :: rest →
      s.file skb.id = (psock, head) → Sched.step .grpc s.sched (.recvmsg ksk) = some (sched, [.received ksk skb]) →
      sched.nextId = s.sched.nextId →
      H2.step hash (s.h2 psock) (.recvmsg head len mapped dgram) = some (h2, e) →
      Step hash rcvbuf s (.recvmsg ksk len mapped dgram)
        { s with sched := sched, h2 := Function.update s.h2 psock h2 }
        (.sched (.received ksk skb) :: (e.map (.h2 psock) ++ (e.filterMap returned?).map (.returned ksk psock)))

variable {hash : ℕ → Fin streamHashSize} {rcvbuf : PsockPtr → ℕ} {heap : ℕ → H2.Skb} {psocks : PsockPtr → H2.Psock}
  {s s' : State} {a : Act} {es e : List Event}

theorem rakaiaRecvmsg_cases {ksk : Ksk} {len mapped : ℕ} {dgram : Bool}
    (h : rakaiaRecvmsg hash s ksk len mapped dgram = some (s', e)) :
    Step hash rcvbuf s (.recvmsg ksk len mapped dgram) s' e := by
  unfold rakaiaRecvmsg at h
  cases hq : s.sched.receiveQ ksk with
  | nil => rw [hq] at h; cases h
  | cons skb rest =>
      have hsc : Sched.step .grpc s.sched (.recvmsg ksk) = some ({ s.sched with
          receiveQ := Function.update s.sched.receiveQ ksk rest }, [.received ksk skb]) := by
        simp only [Sched.step, Sched.recvmsg, hq]
      cases hh : H2.step hash (s.h2 (s.file skb.id).1) (.recvmsg (s.file skb.id).2 len mapped dgram) with
      | none => simp only [hq, hsc, hh] at h; cases h
      | some r =>
          simp only [hq, hsc, hh] at h
          obtain ⟨rfl, rfl⟩ := Prod.mk.inj (Option.some.inj h)
          exact .recvmsg ksk len mapped dgram skb rest _ _ _ _ _ hq rfl hsc rfl hh

/-- **The receive side makes no other step** than those listed in `Step`. -/
theorem step_cases (h : step hash rcvbuf s a = some (s', e)) : Step hash rcvbuf s a s' e := by
  cases a with
  | present psock a =>
      simp only [step] at h
      split_ifs at h with hp
      simp only [Option.map_eq_some_iff, Prod.exists, Prod.mk.injEq] at h
      obtain ⟨p, e', hs, rfl, rfl⟩ := h
      exact .present psock a p e' hp.1 hs
  | frame psock cb next alloc =>
      simp only [step] at h
      cases hc : s.cut psock with
      | nil => rw [hc] at h; cases h
      | cons head rest =>
          simp only [hc] at h
          split_ifs at h with hquiet
          simp only [Option.map_eq_some_iff, Prod.exists, Prod.mk.injEq] at h
          obtain ⟨h2, e', hs, rfl, rfl⟩ := h
          have hnil : s.raised psock = [] := by
            rw [State.quiet, Bool.and_eq_true, List.isEmpty_iff] at hquiet
            exact hquiet.1
          exact .frame psock cb next alloc head rest h2 e' hc hnil hs
  | push psock cb truesize r1 r2 =>
      simp only [step] at h
      cases hr : s.raised psock with
      | nil => rw [hr] at h; cases h
      | cons head rest =>
          simp only [hr, Option.map_eq_some_iff, Prod.exists, Prod.mk.injEq] at h
          obtain ⟨sc, e', hs, rfl, rfl⟩ := h
          cases Sched.step_cases hs with
          | pushStart _ _ _ _ _ hn => exact .push psock cb truesize r1 r2 head rest _ hr hs rfl
  | sched b =>
      simp only [step] at h
      split_ifs at h with ho
      simp only [Option.map_eq_some_iff, Prod.exists, Prod.mk.injEq] at h
      obtain ⟨sc, e', hs, rfl, rfl⟩ := h
      exact .sched b sc e' ho hs
  | recvmsg ksk len mapped dgram => exact rakaiaRecvmsg_cases h

/-! ### The parts in a history -/

def Event.strp? : Event → Option (PsockPtr × Strp.Event FrameInfo)
  | .strp psock e => some (psock, e)
  | _ => none

def Event.h2? : Event → Option (PsockPtr × H2.Event)
  | .h2 psock e => some (psock, e)
  | _ => none

def Event.sched? : Event → Option Sched.Event
  | .sched e => some e
  | _ => none

/-- The events of the parser of a connection. -/
def strpEvents (c : PsockPtr) (es : List Event) : List (Strp.Event FrameInfo) := entries Event.strp? es c

/-- The events of the stream table of a connection. -/
def h2Events (c : PsockPtr) (es : List Event) : List H2.Event := entries Event.h2? es c

/-- The events of the scheduler. -/
def schedEvents (es : List Event) : List Sched.Event := es.filterMap Event.sched?

@[simp] theorem strpEvents_append (c : PsockPtr) (es e : List Event) :
    strpEvents c (es ++ e) = strpEvents c es ++ strpEvents c e := entries_append es e c

@[simp] theorem h2Events_append (c : PsockPtr) (es e : List Event) :
    h2Events c (es ++ e) = h2Events c es ++ h2Events c e := entries_append es e c

@[simp] theorem schedEvents_append (es e : List Event) : schedEvents (es ++ e) = schedEvents es ++ schedEvents e :=
  List.filterMap_append

/-- What the events of a step are to the parts. -/
theorem events_strp (c psock : PsockPtr) (e : List (Strp.Event FrameInfo)) :
    strpEvents c (e.map (.strp psock)) = (if psock = c then e else []) ∧ h2Events c (e.map (.strp psock)) = [] ∧
      schedEvents (e.map (.strp psock)) = [] := by
  refine ⟨entries_map_of_some (f := Event.strp?) (fun _ => rfl) e c, ?_, ?_⟩
  · exact entries_map_of_none (fun _ => rfl) e c
  · exact filterMap_map_of_none (fun _ => rfl) e

theorem events_h2 (c psock : PsockPtr) (e : List H2.Event) :
    strpEvents c (e.map (.h2 psock)) = [] ∧ h2Events c (e.map (.h2 psock)) = (if psock = c then e else []) ∧
      schedEvents (e.map (.h2 psock)) = [] := by
  refine ⟨entries_map_of_none (fun _ => rfl) e c, entries_map_of_some (f := Event.h2?) (fun _ => rfl) e c, ?_⟩
  exact filterMap_map_of_none (fun _ => rfl) e

theorem events_sched (c : PsockPtr) (e : List Sched.Event) :
    strpEvents c (e.map .sched) = [] ∧ h2Events c (e.map .sched) = [] ∧ schedEvents (e.map .sched) = e := by
  refine ⟨entries_map_of_none (fun _ => rfl) e c, entries_map_of_none (fun _ => rfl) e c, ?_⟩
  exact (filterMap_map_of_some (f := Event.sched?) (fun _ => rfl) e).trans (List.map_id e)

theorem events_returned (c psock : PsockPtr) (ksk : Ksk) (l : List H2.Returned) :
    strpEvents c (l.map (.returned ksk psock)) = [] ∧ h2Events c (l.map (.returned ksk psock)) = [] ∧
      schedEvents (l.map (.returned ksk psock)) = [] := by
  refine ⟨entries_map_of_none (fun _ => rfl) l c, entries_map_of_none (fun _ => rfl) l c, ?_⟩
  exact filterMap_map_of_none (fun _ => rfl) l

/-- The events of a `recvmsg`. -/
theorem events_recvmsg (c psock : PsockPtr) (ksk : Ksk) (skb : Skb) (e : List H2.Event) :
    let d := Event.sched (.received ksk skb) ::
      (e.map (.h2 psock) ++ (e.filterMap returned?).map (.returned ksk psock))
    strpEvents c d = [] ∧ h2Events c d = (if psock = c then e else []) ∧ schedEvents d = [.received ksk skb] := by
  dsimp only
  rw [← List.singleton_append]
  obtain ⟨h₁, h₂, h₃⟩ := events_h2 c psock e
  obtain ⟨r₁, r₂, r₃⟩ := events_returned c psock ksk (e.filterMap returned?)
  simp only [strpEvents_append, h2Events_append, schedEvents_append, h₁, h₂, h₃, r₁, r₂, r₃, List.append_nil]
  exact ⟨rfl, List.nil_append _, rfl⟩

theorem sched_step (hs : Step hash rcvbuf s a s' e) :
    (s'.sched = s.sched ∧ schedEvents e = []) ∨
      ∃ b, Sched.step .grpc s.sched b = some (s'.sched, schedEvents e) := by
  cases hs with
  | present psock b p e => exact .inl ⟨rfl, (events_strp psock psock e).2.2⟩
  | frame psock cb next alloc head rest h2 e => exact .inl ⟨rfl, (events_h2 psock psock e).2.2⟩
  | push psock cb truesize r1 r2 head rest sched _ hb => exact .inr ⟨_, hb⟩
  | sched b sched e _ hb => exact .inr ⟨b, by rw [(events_sched 0 e).2.2]; exact hb⟩
  | recvmsg ksk len mapped dgram skb rest psock head sched h2 e _ _ hb =>
      exact .inr ⟨_, by rw [(events_recvmsg 0 psock ksk skb e).2.2]; exact hb⟩

theorem parser_step (hs : Step hash rcvbuf s a s' e) (c : PsockPtr) :
    (s'.parser c = s.parser c ∧ strpEvents c e = []) ∨
      ∃ b, a = .present c b ∧
        Strp.step Strp.Http2.parser (rcvbuf c) (s.parser c) b = some (s'.parser c, strpEvents c e) := by
  cases hs with
  | present psock b p e _ hb =>
      rw [(events_strp c psock e).1]
      by_cases hc : psock = c
      · subst hc
        exact .inr ⟨b, rfl, by simpa using hb⟩
      · exact .inl ⟨Function.update_of_ne (Ne.symm hc) _ _, if_neg hc⟩
  | frame psock cb next alloc head rest h2 e => exact .inl ⟨rfl, (events_h2 c psock e).1⟩
  | push => exact .inl ⟨rfl, rfl⟩
  | sched b sched e => exact .inl ⟨rfl, (events_sched c e).1⟩
  | recvmsg ksk len mapped dgram skb rest psock head sched h2 e =>
      exact .inl ⟨rfl, (events_recvmsg c psock ksk skb e).1⟩

/-- What a step of the receive side is to the stream table of `c`. -/
inductive H2Step (hash : ℕ → Fin streamHashSize) (s s' : State) (c : PsockPtr) (a : Act) (e : List H2.Event) : Prop
  | none : s'.h2 c = s.h2 c → e = [] → H2Step hash s s' c a e
  | frame (cb : PsockPtr) (next : Option ℕ) (alloc : H2.Alloc) (head : Strp.Head FrameInfo)
      (rest : List (Strp.Head FrameInfo)) : a = .frame c cb next alloc → s.cut c = head :: rest →
      H2.step hash (s.h2 c) (.frame (skbOf head cb next) alloc) = some (s'.h2 c, e) → H2Step hash s s' c a e
  | recvmsg (len mapped : ℕ) (dgram : Bool) (head : ℕ) :
      H2.step hash (s.h2 c) (.recvmsg head len mapped dgram) = some (s'.h2 c, e) → H2Step hash s s' c a e

theorem h2_step (hs : Step hash rcvbuf s a s' e) (c : PsockPtr) : H2Step hash s s' c a (h2Events c e) := by
  cases hs with
  | present psock b p e => exact .none rfl (events_strp c psock e).2.1
  | frame psock cb next alloc head rest h2 e hcut _ hb =>
      rw [(events_h2 c psock e).2.1]
      by_cases hc : psock = c
      · subst hc
        exact .frame cb next alloc head rest rfl hcut (by simpa using hb)
      · exact .none (Function.update_of_ne (Ne.symm hc) _ _) (if_neg hc)
  | push => exact .none rfl rfl
  | sched b sched e => exact .none rfl (events_sched c e).2.1
  | recvmsg ksk len mapped dgram skb rest psock head sched h2 e _ _ _ _ hb =>
      rw [(events_recvmsg c psock ksk skb e).2.1]
      by_cases hc : psock = c
      · subst hc
        exact .recvmsg len mapped dgram head (by simpa using hb)
      · exact .none (Function.update_of_ne (Ne.symm hc) _ _) (if_neg hc)

/-! ### The parts in a run -/

variable {G : State → Act → Prop}

/-- The scheduler runs as the scheduler does. -/
theorem sched_of_reach (h : (machine hash rcvbuf heap psocks).Reach G s es) :
    (Sched.machine .grpc).Reachable s.sched (schedEvents es) :=
  h.project State.sched schedEvents schedEvents_append rfl rfl
    (fun _ _ _ _ _ _ _ hs => (sched_step (step_cases hs)).imp id (fun ⟨b, hb⟩ => ⟨b, trivial, hb⟩))

/-- What the environment does: TCP presents the bytes of the stream of a connection, in buffers whose length is an
`int`; the stream tables can grow; and the buffers that threads receive into have `room` bytes at least. -/
def Fair (streams : PsockPtr → List (List UInt8)) (room : ℕ) (s : State) : Act → Prop
  | .present psock a => Strp.Presents (streams psock) (s.parser psock) a ∧ a.skb.len < 2 ^ 31
  | .frame _ _ _ alloc => alloc.stream = true
  | .recvmsg _ len mapped _ => room ≤ len ∧ len < 2 ^ 31 ∧ room ≤ mapped
  | _ => True

variable {streams : PsockPtr → List (List UInt8)} {room : ℕ}

/-- The parser of a connection runs as the parser does. -/
theorem parser_of_reach (h : (machine hash rcvbuf heap psocks).Reach (Fair streams room) s es) (c : PsockPtr) :
    (Strp.machine Strp.Http2.parser (rcvbuf c)).Reach
      (fun p b => Strp.Presents (streams c) p b ∧ b.skb.len < 2 ^ 31) (s.parser c) (strpEvents c es) := by
  refine h.project (M := Strp.machine Strp.Http2.parser (rcvbuf c)) (fun s => s.parser c) (strpEvents c)
    (strpEvents_append c) rfl rfl ?_
  intro t ds b t' d _ hg hs
  refine (parser_step (step_cases hs) c).imp id ?_
  rintro ⟨b', rfl, hb⟩
  exact ⟨b', hg, hb⟩

end Rakaia.Grpc
