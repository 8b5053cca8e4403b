import Mathlib.Data.List.Perm.Basic
import Rakaia.Grpc.Refinement

/-! # The receive side of the grpc variant from end to end

The results about the receive side as a whole: it is a request service (`receive_side_refines_service`), and on
every connection threads receive different requests, each of them whole (`requests_received_whole`). -/

namespace Rakaia.Grpc

open Lib
open Sched (Ksk)
open H2 (streamHashSize granted)
open Strp (bufferOf)

variable {hash : ℕ → Fin streamHashSize} {rcvbuf : PsockPtr → ℕ} {heap : ℕ → H2.Skb} {psocks : PsockPtr → H2.Psock}
  {t : State} {ds : List Event} {streams : PsockPtr → List (List UInt8)} {room : ℕ}

/-! ### What is received on a connection -/

/-- What threads have received of the messages of a connection, in order. -/
def receivedOn (c : PsockPtr) (ds : List Event) : List H2.Returned := entries some (received ds) c

theorem receivedOn_of_shows {l : List (PsockPtr × H2.Returned)} {es : List (Service.Event PsockPtr (List UInt8))}
    (h : List.Forall₂ Shows l es) (c : PsockPtr) :
    entries some l c = (Service.fated es .answered c).map whole := by
  induction h with
  | nil => rfl
  | @cons x e l es hx _ ih =>
      obtain ⟨hfate, hconn, hret⟩ := hx
      rw [← List.singleton_append, entries_append, ih, entries_singleton (f := some) rfl, Service.fated,
        Service.fated, ← List.singleton_append (l := es), entries_append,
        entries_singleton
          (f := fun e : Service.Event PsockPtr (List UInt8) => some ((e.fate, e.conn), e.request)) rfl,
        List.map_append, hret]
      by_cases hc : x.1 = c
      · rw [if_pos hc, if_pos (by rw [hfate, hconn, hc])]
        rfl
      · rw [if_neg hc, if_neg (by rw [hconn]; exact fun heq => hc (Prod.mk.inj heq).2)]
        rfl

theorem exists_of_subperm_map {α β : Type} {f : α → β} {l : List β} {L : List α} (h : l.Subperm (L.map f)) :
    ∃ gs : List α, gs.Subperm L ∧ l = gs.map f := by
  obtain ⟨l', hperm, hsub⟩ := h
  obtain ⟨L', hL, rfl⟩ := List.sublist_map_iff.mp hsub
  have hrel : List.Forall₂ (fun b a => b = f a) (L'.map f) L' := by
    rw [List.forall₂_map_left_iff]
    exact List.forall₂_same.mpr fun _ _ => rfl
  obtain ⟨gs, hgs, hp⟩ := List.perm_comp_forall₂ hperm.symm hrel
  refine ⟨gs, ⟨L', hp.symm, hL⟩, ?_⟩
  have heq := (List.forall₂_map_right_iff (f := f) (R := Eq)).mpr hgs
  exact List.forall₂_eq_eq_eq ▸ heq

/-! ### A run to evaluate -/

/-- Connection 1 brings HEADERS and DATA of stream 1 around HEADERS of stream 3, the others nothing. -/
def oneCall (c : PsockPtr) : List (List UInt8) :=
  if c = 1 then
    [[0, 0, 1, 1, 4, 0, 0, 0, 1, 11], [0, 0, 1, 1, 4, 0, 0, 0, 3, 33], [0, 0, 2, 0, 1, 0, 0, 0, 1, 12, 13]]
  else []

theorem oneCall_frames : Frames (fun _ => 4096) oneCall := by
  intro c m hm
  unfold oneCall at hm
  split_ifs at hm
  · simp only [List.mem_cons, List.not_mem_nil, or_false] at hm
    rcases hm with rfl | rfl | rfl <;> exact ⟨⟨by decide, by decide⟩, (by decide : _ ≤ 4096)⟩
  · cases hm

theorem oneCall_roomy : Roomy oneCall 64 := by
  intro c q hq
  unfold requestStreams oneCall at hq
  split_ifs at hq
  · revert q
    decide
  · cases hq

/-- The steps of which nothing is assumed but the bytes that are presented. -/
def Act.Usual : Act → Prop
  | .present _ a => a.skb.Wf ∧ a.offset ≤ a.skb.len ∧ a.skb.len < 2 ^ 31
  | .frame _ _ _ alloc => alloc.stream = true
  | .recvmsg _ len mapped _ => 64 ≤ len ∧ len < 2 ^ 31 ∧ 64 ≤ mapped
  | _ => True

/-- The bytes that are presented come next in the stream. -/
def presented (streams : PsockPtr → List (List UInt8)) (s : State) : Act → Bool
  | .present psock a => Strp.presented (streams psock) (s.parser psock) a
  | _ => true

theorem fair_of_presented {s : State} {a : Act} (hu : a.Usual) (hp : presented streams s a = true) :
    Fair streams 64 s a := by
  cases a with
  | present psock a => exact ⟨Strp.presents_of_presented ⟨hu.1, hu.2.1⟩ hp, hu.2.2⟩
  | frame => exact hu
  | recvmsg => exact hu
  | _ => trivial

/-- All sockets are created; the three frames arrive in two parts, the second one within a header, and are handled;
the request on stream 1 is pushed, delivered to a socket, and received. -/
def callActs : List Act :=
  let bs := (oneCall 1).flatten
  List.replicate 20 (.sched .create) ++ [.present 1 ⟨bufferOf [99] (bs.take 13), 1, .ok⟩, .frame 1 0 none granted,
    .present 1 ⟨bufferOf (bs.drop 13) [], 0, .ok⟩, .frame 1 0 none granted, .frame 1 0 (some 5) granted,
    .push 1 (fun _ => 0) 1 0 0] ++ List.replicate 7 (.sched (.push 0 Sched.ample)) ++ [.recvmsg 0 100 64 true]

theorem callActs_usual : ∀ a ∈ callActs, a.Usual := by
  intro a ha
  simp only [callActs, List.mem_append, List.mem_cons, List.mem_replicate, List.not_mem_nil, or_false] at ha
  rcases ha with ((⟨-, rfl⟩ | rfl | rfl | rfl | rfl | rfl | rfl) | ⟨-, rfl⟩) | rfl
  · trivial
  · exact ⟨Strp.wf_bufferOf _ _, by decide, by decide⟩
  · rfl
  · exact ⟨Strp.wf_bufferOf _ _, by decide, by decide⟩
  · rfl
  · rfl
  · trivial
  · trivial
  · exact ⟨by decide, by decide, by decide⟩

/-- The receive side with all streams in one bucket. -/
def oneBucket : Machine State Act Event :=
  machine (fun _ => 0) (fun _ => 4096) (fun _ => H2.frameSkb 0 0 0 [])
    (fun c => ⟨c, 1000, 0, 65535, false, [], false⟩)

theorem reach_of_exec {β : Type} (f : State × List Event → β) (y : β)
    (h : (oneBucket.exec (presented oneCall) oneBucket.init callActs).map f = some y) :
    ∃ s es, oneBucket.Reach (Fair oneCall 64) s es ∧ f (s, es) = y :=
  Machine.Reach.of_exec callActs (fun _ a ha hp => fair_of_presented (callActs_usual a ha) hp) f y h

/-! ### The main results -/

/-- **Requests are received whole**, under the same conditions.  What threads receive on a connection are different
requests of its frames, each of them with all its bytes and as one record; a request has the frames of one stream,
up to one that ends it; and the frames of each stream that carry requests are those of its requests, one behind the
other, and what is collected of the next one. -/
theorem requests_received_whole (hf : Frames rcvbuf streams) (hroom : Roomy streams room)
    (h : (machine hash rcvbuf heap psocks).Reach (Fair streams room) t ds) (c : PsockPtr) :
    ∃ gs : List (List (List UInt8)), gs.Subperm (requests (streams c)) ∧
      receivedOn c ds = gs.map (fun g => whole g.flatten) ∧
      (∀ g ∈ gs, ∃ fs f, g = fs ++ [f] ∧ wire.ends f = true ∧ ∀ x ∈ g, wire.key x = wire.key f) ∧
      ∀ sid, (streams c).filter (fun x => wire.kept x && decide (wire.key x = sid)) =
        ((requests (streams c)).filter (fun g => wire.IsOf sid g)).flatten ++ wire.collected (streams c) sid := by
  obtain ⟨s, es, hs, hR⟩ := refines_of_reach hf hroom h
  obtain ⟨gs, hsub, hgs⟩ := exists_of_subperm_map (Service.fated_subperm hs .answered c)
  refine ⟨gs, hsub, ?_, fun g hg => wire.mem_groups (hsub.subset hg), fun sid => wire.filter_eq (streams c) sid⟩
  rw [receivedOn, receivedOn_of_shows hR.ends, hgs, List.map_map]
  rfl

/-- The request on stream 1 is received. -/
theorem requests_received_whole_call : ∃ t ds,
    oneBucket.Reach (Fair oneCall 64) t ds ∧
    receivedOn 1 ds = [whole [0, 0, 1, 1, 4, 0, 0, 0, 1, 11, 0, 0, 2, 0, 1, 0, 0, 0, 1, 12, 13]] ∧
    ∃ gs : List (List (List UInt8)), gs.Subperm (requests (oneCall 1)) ∧
      receivedOn 1 ds = gs.map (fun g => whole g.flatten) := by
  obtain ⟨t, ds, hr, hy⟩ := reach_of_exec (fun r => receivedOn 1 r.2)
    [whole [0, 0, 1, 1, 4, 0, 0, 0, 1, 11, 0, 0, 2, 0, 1, 0, 0, 0, 1, 12, 13]] (by decide +kernel)
  obtain ⟨gs, hsub, hgs, -⟩ := requests_received_whole oneCall_frames oneCall_roomy hr 1
  exact ⟨t, ds, hr, hy, gs, hsub, hgs⟩

end Rakaia.Grpc
