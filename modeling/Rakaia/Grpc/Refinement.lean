import Rakaia.Lib.Simulation
import Rakaia.Grpc.Pushed
import Rakaia.Service

/-! # The receive side is a request service

Every run of the receive side is a run of the service on the requests of its connections (`refines_of_reach`): a
push brings the next request of its connection, and `recvmsg` takes a request that waits and answers it, which
here means that it returns its bytes. -/

namespace Rakaia.Grpc

open Lib
open Sched (Ksk)
open H2 (streamHashSize)

variable {hash : ℕ → Fin streamHashSize} {rcvbuf : PsockPtr → ℕ} {heap : ℕ → H2.Skb} {psocks : PsockPtr → H2.Psock}
  {t t' : State} {a : Act} {ds d : List Event} {streams : PsockPtr → List (List UInt8)} {room : ℕ} {c : PsockPtr}

/-! ### What is seen of a run -/

def Event.received? : Event → Option (PsockPtr × H2.Returned)
  | .returned _ psock r => some (psock, r)
  | _ => none

/-- What threads have received, with the connections, in order. -/
def received (ds : List Event) : List (PsockPtr × H2.Returned) := ds.filterMap Event.received?

theorem received_append (ds d : List Event) : received (ds ++ d) = received ds ++ received d := List.filterMap_append

/-- What a thread receives that receives the whole request `q`. -/
def whole (q : List UInt8) : H2.Returned := ⟨q.length, q, false, true⟩

/-- The answer to a request is that its bytes are received. -/
def Shows (x : PsockPtr × H2.Returned) (e : Service.Event PsockPtr (List UInt8)) : Prop :=
  e.fate = .answered ∧ e.conn = x.1 ∧ x.2 = whole e.request

/-- **The relation**: what has arrived at the service was pushed, what waits has not left the scheduler, and what
has left it was received. -/
structure Refines (ds : List Event) (s : Service.State PsockPtr Ksk (List UInt8))
    (es : List (Service.Event PsockPtr (List UInt8))) : Prop where
  arrived : s.arrived = (pushed ds).map (fun x => (x.1, x.2.2))
  waiting : s.Waits (gone ds)
  idle : ∀ k, s.serving k = none
  ends : List.Forall₂ Shows (received ds) es

variable {s : Service.State PsockPtr Ksk (List UInt8)} {es : List (Service.Event PsockPtr (List UInt8))}

/-- The requests of each connection, as bytes. -/
def requestStreams (streams : PsockPtr → List (List UInt8)) (c : PsockPtr) : List (List UInt8) :=
  (requests (streams c)).map List.flatten

/-- Every request fits into the buffers that threads receive into. -/
def Roomy (streams : PsockPtr → List (List UInt8)) (room : ℕ) : Prop :=
  ∀ c, ∀ q ∈ requestStreams streams c, q.length ≤ room

/-! ### Requests arrive -/

theorem Refines.on_eq (h : Refines ds s es) (c : PsockPtr) :
    s.on c = (entries some (pushed ds) c).map Prod.snd := by
  rw [Service.State.on, h.arrived, entries, entries, List.filterMap_map, List.map_filterMap]
  refine List.filterMap_congr fun x _ => ?_
  by_cases hx : x.1 = c <;> simp [hx]

/-- What a connection has pushed are its first requests. -/
theorem pushed_isPrefix (hf : Frames rcvbuf streams)
    (hr : (machine hash rcvbuf heap psocks).Reach (Fair streams room) t ds) (c : PsockPtr) :
    (entries some (pushed ds) c).map Prod.snd <+: requestStreams streams c := by
  have hp := (bytes_of_reach hf hr c).map Prod.snd
  rw [List.map_map] at hp
  exact hp.trans (groups_of_reach hf hr c)

theorem Refines.arrive (h : Refines ds s es) (hr : (machine hash rcvbuf heap psocks).Reach (Fair streams room) t ds)
    {head : ℕ} {bytes : List UInt8} (hp : pushed d = [(c, head, bytes)]) (hg : gone d = []) (he : received d = []) :
    Refines (ds ++ d) { s with arrived := s.arrived ++ [(c, bytes)]
                               waiting := s.waiting ++ [s.arrived.length] } es := by
  have hlen : s.arrived.length = t.sched.nextId := by
    rw [h.arrived, List.length_map, (books_of_reach hr).length]
  have hnew : s.arrived.length ∉ gone ds := by
    intro hm
    have hlt := (Sched.outIds_of_reach (sched_of_reach hr)).2 _ hm
    omega
  refine ⟨?_, ?_, h.idle, ?_⟩
  · rw [pushed_append, hp, List.map_append, ← h.arrived]
    rfl
  · rw [gone_append, hg, List.append_nil]
    exact h.waiting.enter hnew _
  · rw [received_append, he, List.append_nil]
    exact h.ends

/-- A step that the service does not see. -/
theorem Refines.stay (h : Refines ds s es) (hp : pushed d = []) (hg : gone d = []) (he : received d = []) :
    Refines (ds ++ d) s es := by
  refine ⟨?_, ?_, h.idle, ?_⟩
  · rw [pushed_append, hp, List.append_nil]
    exact h.arrived
  · rw [gone_append, hg, List.append_nil]
    exact h.waiting
  · rw [received_append, he, List.append_nil]
    exact h.ends

/-! ### Requests are received -/

/-- **What a thread receives** is the message, whole. -/
theorem recvmsg_returns (hf : Frames rcvbuf streams) (hroom : Roomy streams room)
    (hr : (machine hash rcvbuf heap psocks).Reach (Fair streams room) t ds) {ksk : Ksk} {skb : Skb}
    {rest : List Skb} {head len mapped : ℕ} {dgram : Bool} {h2 : H2.State} {e : List H2.Event}
    (hq : t.sched.receiveQ ksk = skb :: rest) (hfile : t.file skb.id = (c, head))
    (hb : H2.step hash (t.h2 c) (.recvmsg head len mapped dgram) = some (h2, e))
    (hlen : room ≤ len) (hlen' : len < 2 ^ 31) (hmapped : room ≤ mapped) :
    ∃ bytes, (pushed ds)[skb.id]? = some (c, head, bytes) ∧ e.filterMap returned? = [whole bytes] := by
  obtain ⟨bytes, hget⟩ := pushed_of_file hr (lt_of_receiveQ hr hq) hfile
  have hentry : (head, bytes) ∈ entries some (pushed ds) c :=
    List.mem_filterMap.mpr ⟨_, List.mem_of_getElem? hget, by simp⟩
  obtain ⟨g, hg, heq⟩ := List.mem_map.mp ((bytes_of_reach hf hr c).subset hentry)
  obtain ⟨rfl, rfl⟩ := Prod.mk.inj heq
  refine ⟨_, hget, ?_⟩
  have hnot : ∀ r, .returned (H2.headAddr g) r ∉ h2Events c ds := by
    intro r hm
    obtain ⟨n, bytes', hget', hgone⟩ := accounted_of_reach hr c _ r hm
    rw [pushed_inj hf hr hget' hget] at hgone
    exact Sched.notMem_outIds (sched_of_reach hr) hq hgone
  have hh2 := h2_of_reach hf hr c
  have hkept := (H2.raised_of_reach hh2).kept g hg hnot
  have hne : H2.Spec.of (h2Events c ds) (.message (H2.headAddr g)) ≠ [] := by
    rw [hkept]
    exact H2.groups_ne_nil hg
  have hle : (H2.content (H2.Spec.of (h2Events c ds) (.message (H2.headAddr g)))).length ≤ room := by
    rw [hkept]
    exact hroom c _ ((pushed_isPrefix hf hr c).subset (List.mem_map.mpr ⟨_, hentry, rfl⟩))
  obtain ⟨s', e', hs'⟩ := H2.received_of_holds (H2.holds_of_reach hh2) dgram hne
    (hle.trans hlen) hlen' (hle.trans hmapped)
  obtain ⟨-, rfl⟩ := Prod.mk.inj (Option.some.inj (hb.symm.trans hs'))
  obtain ⟨l, r, hl, hfree⟩ := H2.recvmsg_events hb
  obtain ⟨rfl, -⟩ := List.append_inj' hl rfl
  have hnone : e'.filterMap returned? = [] := by
    refine List.filterMap_eq_nil_iff.mpr fun x hx => ?_
    obtain ⟨addr, rfl⟩ := hfree x hx
    rfl
  rw [List.filterMap_append, hnone, hkept]
  rfl

/-! ### Every step is answered -/

/-- A request is taken and answered at once. -/
theorem Refines.receive (h : Refines ds s es) (hl : Service.Ledger s es) {n : ℕ} {bytes : List UInt8}
    (hp : pushed d = []) (hg : gone d = [n]) (he : received d = [(c, whole bytes)]) {serving : Ksk → Option ℕ}
    (hs : ∀ k, serving k = none) :
    Refines (ds ++ d) { s with waiting := s.waiting.erase n, serving := serving }
      (es ++ [⟨.answered, n, c, bytes⟩]) := by
  refine ⟨?_, ?_, hs, ?_⟩
  · rw [pushed_append, hp, List.append_nil]
    exact h.arrived
  · rw [gone_append, hg]
    exact h.waiting.erase hl n serving
  · rw [received_append, he]
    exact List.rel_append h.ends (.cons ⟨rfl, rfl, rfl⟩ .nil)

/-- The service can follow to the history `ds` of the receive side. -/
abbrev Follows (streams : PsockPtr → List (List UInt8)) (t : State) (ds : List Event)
    (s : Service.State PsockPtr Ksk (List UInt8)) (es : List (Service.Event PsockPtr (List UInt8))) : Prop :=
  (Service.machine (requestStreams streams)).Answers (fun _ _ => True) (fun _ => Refines) t ds s es

/-- The service follows a `recvmsg` in two steps. -/
theorem follows_recvmsg (h : Refines ds s es) (hl : Service.Ledger s es) (ksk : Ksk) {n head : ℕ} {bytes : List UInt8}
    (hget : (pushed ds)[n]? = some (c, head, bytes)) (hnot : n ∉ gone ds) (hp : pushed d = []) (hg : gone d = [n])
    (he : received d = [(c, whole bytes)]) : Follows streams t' (ds ++ d) s es := by
  have harr : s.arrived[n]? = some (c, bytes) := by
    rw [h.arrived, List.getElem?_map, hget]
    rfl
  have hwait : n ∈ s.waiting := (h.waiting n).mpr ⟨(List.getElem?_eq_some_iff.mp harr).1, hnot⟩
  have hends : s.ends .answered n = [⟨.answered, n, c, bytes⟩] := by
    rw [Service.State.ends, harr]
    rfl
  have htake : (Service.machine (requestStreams streams)).step s (.take ksk n) = _ :=
    Service.step_take hwait (h.idle ksk)
  have hanswer : (Service.machine (requestStreams streams)).step
      { s with waiting := s.waiting.erase n, serving := Function.update s.serving ksk (some n) } (.answer ksk) = _ :=
    Service.step_answer (Function.update_self ..)
  refine ⟨_, _, .trans (.single trivial htake) (.single trivial hanswer), ?_⟩
  rw [List.nil_append]
  change Refines _ _ (es ++ s.ends .answered n)
  rw [hends]
  refine h.receive hl hp hg he fun k => ?_
  rw [Function.update_idem]
  by_cases hk : k = ksk
  · rw [hk, Function.update_self]
  · rw [Function.update_of_ne hk]
    exact h.idle k

theorem received_map_of_none {α : Type} {f : α → Event} (hf : ∀ x, (f x).received? = none) (l : List α) :
    received (l.map f) = [] := filterMap_map_of_none hf l

theorem received_recvmsg (psock : PsockPtr) (ksk : Ksk) (skb : Skb) (e : List H2.Event) :
    received (.sched (.received ksk skb) ::
      (e.map (.h2 psock) ++ (e.filterMap returned?).map (.returned ksk psock))) =
        (e.filterMap returned?).map (fun r => (psock, r)) := by
  rw [← List.singleton_append, received_append, received_append, received_map_of_none (fun _ => rfl) e]
  exact filterMap_map_of_some (f := Event.received?) (fun _ => rfl) _

/-- **Every step of the receive side is answered** by the service. -/
theorem follows_step (hf : Frames rcvbuf streams) (hroom : Roomy streams room) (h : Refines ds s es)
    (hl : Service.Ledger s es) (hr : (machine hash rcvbuf heap psocks).Reach (Fair streams room) t ds)
    (hg : Fair streams room t a) (hs : step hash rcvbuf t a = some (t', d)) : Follows streams t' (ds ++ d) s es := by
  cases step_cases hs with
  | present psock b p e =>
      have hgone : gone (e.map (.strp psock)) = [] := by
        rw [gone, (events_strp psock psock e).2.2]
        rfl
      exact .stay (h.stay (pushed_map_of_none (fun _ => rfl) e) hgone (received_map_of_none (fun _ => rfl) e))
  | frame psock cb next alloc head rest h2 e =>
      have hgone : gone (e.map (.h2 psock)) = [] := by
        rw [gone, (events_h2 psock psock e).2.2]
        rfl
      exact .stay (h.stay (pushed_map_of_none (fun _ => rfl) e) hgone (received_map_of_none (fun _ => rfl) e))
  | push psock cb truesize r1 r2 head rest sched =>
      have hnext : (requestStreams streams psock)[(s.on psock).length]? = some (bytesOf (t.h2 psock) head) := by
        have hp := pushed_isPrefix hf (hr.step hg hs) psock
        rw [pushed_append, entries_append, List.map_append, ← h.on_eq] at hp
        have hnew : entries some (pushed [.pushed psock head (bytesOf (t.h2 psock) head),
            .sched (.handed t.sched.nextId psock cb)]) psock = [(head, bytesOf (t.h2 psock) head)] :=
          (entries_singleton (f := some) rfl psock).trans (if_pos rfl)
        rw [hnew] at hp
        obtain ⟨tail, htail⟩ := hp
        rw [← htail, List.append_assoc, List.getElem?_append_right le_rfl, Nat.sub_self]
        rfl
      refine .single trivial (Service.step_arrive hnext) ?_
      rw [List.append_nil]
      exact h.arrive hr rfl rfl rfl
  | sched b sched e ho hb =>
      have hquiet := Sched.quiet_of_grpc (Sched.step_cases hb) (by
        rintro ksk rfl
        cases ho)
      have hgone : gone (e.map .sched) = [] := by
        rw [gone, (events_sched 0 e).2.2, Sched.outIds, List.filterMap_eq_nil_iff]
        intro ev hev
        rw [hquiet ev hev]
        rfl
      exact .stay (h.stay (pushed_map_of_none (fun _ => rfl) e) hgone (received_map_of_none (fun _ => rfl) e))
  | recvmsg ksk len mapped dgram skb rest psock head sched h2 e hq hfile _ _ hb =>
      obtain ⟨hlen, hlen', hmapped⟩ := hg
      obtain ⟨bytes, hget, hret⟩ := recvmsg_returns hf hroom hr hq hfile hb hlen hlen' hmapped
      have hgone : gone (.sched (.received ksk skb) ::
          (e.map (.h2 psock) ++ (e.filterMap returned?).map (.returned ksk psock))) = [skb.id] := by
        rw [gone, (events_recvmsg psock psock ksk skb e).2.2]
        rfl
      refine follows_recvmsg h hl ksk hget ?_ (pushed_recvmsg psock ksk skb e) hgone ?_
      · exact Sched.notMem_outIds (sched_of_reach hr) hq
      · rw [received_recvmsg, hret]
        rfl

/-- **The receive side is a request service**: every run of it is a run of the service. -/
theorem refines_of_reach (hf : Frames rcvbuf streams) (hroom : Roomy streams room)
    (h : (machine hash rcvbuf heap psocks).Reach (Fair streams room) t ds) :
    ∃ s es, (Service.machine (K := Ksk) (requestStreams streams)).Reachable s es ∧ Refines ds s es := by
  refine h.simulate (fun _ => Refines) ⟨rfl, fun n => ?_, fun _ => rfl, .nil⟩
    (fun _ _ _ _ _ _ _ hr hm hR hg hs => follows_step hf hroom hR (Service.ledger_of_reach hm) hr hg hs)
  simp [Service.machine]

end Rakaia.Grpc
