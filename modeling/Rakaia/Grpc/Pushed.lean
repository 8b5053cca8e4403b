import Rakaia.Grpc.Messages

/-! # Messages that were pushed

A message keeps the number under which it was pushed (`books_of_reach`).  What a connection pushes are the messages
that went up on it, in order and byte for byte (`bytes_of_reach`), and a message that a thread has received has
left the scheduler (`accounted_of_reach`). -/

namespace Rakaia.Grpc

open Lib
open Sched (Ksk outIds)
open H2 (streamHashSize)
open Strp.Http2 (FrameInfo framing frameInfo)

variable {hash : ℕ → Fin streamHashSize} {rcvbuf : PsockPtr → ℕ} {heap : ℕ → H2.Skb} {psocks : PsockPtr → H2.Psock}
  {t t' : State} {a : Act} {ds d : List Event} {G : State → Act → Prop} {streams : PsockPtr → List (List UInt8)}
  {room : ℕ} {c : PsockPtr}

/-! ### Messages by their numbers -/

/-- The messages that have left the scheduler. -/
def gone (ds : List Event) : List ℕ := outIds (schedEvents ds)

theorem gone_append (ds d : List Event) : gone (ds ++ d) = gone ds ++ gone d := by
  rw [gone, schedEvents_append, Sched.outIds_append]
  rfl

/-- The number of a message leads to what was pushed under it. -/
structure Books (t : State) (ds : List Event) : Prop where
  length : (pushed ds).length = t.sched.nextId
  file : ∀ n c head bytes, (pushed ds)[n]? = some (c, head, bytes) → t.file n = (c, head)

theorem Books.keep (h : Books t ds) (hd : pushed d = []) (hn : t'.sched.nextId = t.sched.nextId)
    (hf : t'.file = t.file) : Books t' (ds ++ d) := by
  constructor
  · rw [pushed_append, hd, List.append_nil, hn, h.length]
  · rw [pushed_append, hd, List.append_nil, hf]
    exact h.file

theorem books_step (hs : Step hash rcvbuf t a t' d) (h : Books t ds) : Books t' (ds ++ d) := by
  cases hs with
  | present psock b p e => exact h.keep (pushed_map_of_none (fun _ => rfl) e) rfl rfl
  | frame psock cb next alloc head rest h2 e => exact h.keep (pushed_map_of_none (fun _ => rfl) e) rfl rfl
  | push psock cb truesize r1 r2 head rest sched _ _ hn =>
      have hd : pushed [.pushed psock head (bytesOf (t.h2 psock) head), .sched (.handed t.sched.nextId psock cb)] =
          [(psock, head, bytesOf (t.h2 psock) head)] := rfl
      have hlen := h.length
      constructor
      · rw [pushed_append, hd, List.length_append, hlen]
        exact hn.symm
      · intro n c hd' bytes hget
        rw [pushed_append, hd] at hget
        change Function.update t.file t.sched.nextId (psock, head) n = _
        rcases Nat.lt_or_ge n (pushed ds).length with hlt | hge
        · rw [List.getElem?_append_left hlt] at hget
          rw [Function.update_of_ne (by omega)]
          exact h.file n c hd' bytes hget
        · rw [List.getElem?_append_right hge] at hget
          have hzero : n - (pushed ds).length = 0 := by
            have := (List.getElem?_eq_some_iff.mp hget).1
            simp only [List.length_singleton] at this
            omega
          rw [hzero] at hget
          obtain ⟨rfl, rfl, -⟩ : psock = c ∧ head = hd' ∧ _ := by simpa using hget
          rw [show n = t.sched.nextId by omega, Function.update_self]
  | sched b sched e ho hb =>
      refine h.keep (pushed_map_of_none (fun _ => rfl) e) (Sched.nextId_of_step (Sched.step_cases hb) ?_) rfl
      rintro psock cb n r1 r2 rfl
      cases ho
  | recvmsg ksk len mapped dgram skb rest psock head sched h2 e _ _ _ hn =>
      exact h.keep (pushed_recvmsg psock ksk skb e) hn rfl

theorem books_of_reach (h : (machine hash rcvbuf heap psocks).Reach G t ds) : Books t ds :=
  h.invariant (P := Books) ⟨rfl, nofun⟩ (fun _ _ _ _ _ _ ih _ hs => books_step (step_cases hs) ih)

/-! ### What was pushed, and what was returned -/

/-- A connection pushes no two messages with the same first frame. -/
theorem pushed_inj (hf : Frames rcvbuf streams)
    (h : (machine hash rcvbuf heap psocks).Reach (Fair streams room) t ds) {n i : ℕ} {head : ℕ}
    {bytes bytes' : List UInt8} (hn : (pushed ds)[n]? = some (c, head, bytes))
    (hi : (pushed ds)[i]? = some (c, head, bytes')) : n = i := by
  have hnodup : ((pushed ds).map (fun x => (x.1, x.2.1))).Nodup := by
    refine nodup_of_entries fun k => ?_
    have heq : entries some ((pushed ds).map (fun x => (x.1, x.2.1))) k = pushedBy k ds := by
      rw [pushedBy, entries, entries, List.filterMap_map, List.map_filterMap]
      refine List.filterMap_congr fun x _ => ?_
      by_cases hx : x.1 = k <;> simp [hx]
    have hall := H2.nodup_heads (h2_of_reach hf h k)
    rw [← raised_of_reach h k] at hall
    rw [heq]
    exact hall.of_append_left
  refine (List.getElem?_inj ?_ hnodup).mp ?_
  · rw [List.length_map]
    exact (List.getElem?_eq_some_iff.mp hn).1
  · rw [List.getElem?_map, List.getElem?_map, hn, hi]
    rfl

/-- The message of a buffer in the scheduler was pushed, under its number. -/
theorem pushed_of_file (h : (machine hash rcvbuf heap psocks).Reach G t ds) {n head : ℕ}
    (hn : n < t.sched.nextId) (hfile : t.file n = (c, head)) : ∃ bytes, (pushed ds)[n]? = some (c, head, bytes) := by
  have hb := books_of_reach h
  obtain ⟨⟨c', head', bytes⟩, hget⟩ : ∃ x, (pushed ds)[n]? = some x :=
    ⟨_, List.getElem?_eq_getElem (by rw [hb.length]; exact hn)⟩
  obtain ⟨rfl, rfl⟩ := Prod.mk.inj ((hb.file n c' head' bytes hget).symm.trans hfile)
  exact ⟨bytes, hget⟩

/-- A message that a thread has received has left the scheduler. -/
def Accounted (c : PsockPtr) (ds : List Event) : Prop :=
  ∀ head r, .returned head r ∈ h2Events c ds →
    ∃ n bytes, (pushed ds)[n]? = some (c, head, bytes) ∧ n ∈ gone ds

theorem Accounted.mono (h : Accounted c ds) (hd : ∀ head r, .returned head r ∉ h2Events c d) :
    Accounted c (ds ++ d) := by
  intro head r hm
  rw [h2Events_append, List.mem_append] at hm
  obtain ⟨n, bytes, hget, hgone⟩ := h head r (hm.resolve_right (hd head r))
  refine ⟨n, bytes, ?_, by rw [gone_append]; exact List.mem_append_left _ hgone⟩
  rw [pushed_append, List.getElem?_append_left (List.getElem?_eq_some_iff.mp hget).1]
  exact hget

theorem lt_of_receiveQ (h : (machine hash rcvbuf heap psocks).Reach G t ds) {ksk : Ksk} {skb : Skb} {rest : List Skb}
    (hq : t.sched.receiveQ ksk = skb :: rest) : skb.id < t.sched.nextId := by
  refine (Sched.ledger_of_reach (sched_of_reach h)).lt_nextId (k := .receiveQ ksk) ?_
  rw [Sched.ids, Sched.whereabouts, hq]
  exact List.mem_cons_self

theorem accounted_of_reach (h : (machine hash rcvbuf heap psocks).Reach G t ds) (c : PsockPtr) : Accounted c ds := by
  refine h.invariant (P := fun _ ds => Accounted c ds) nofun ?_
  intro t ds a t' d hr ih _ hs
  cases step_cases hs with
  | present psock b p e => exact ih.mono (by rw [(events_strp c psock e).2.1]; nofun)
  | frame psock cb next alloc head rest h2 e _ _ hb =>
      refine ih.mono fun i r => ?_
      rw [(events_h2 c psock e).2.1]
      split_ifs
      · exact H2.frame_returned hb
      · exact List.not_mem_nil
  | push => exact ih.mono nofun
  | sched b sched e => exact ih.mono (by rw [(events_sched c e).2.1]; nofun)
  | recvmsg ksk len mapped dgram skb rest psock head sched h2 e hq hfile _ _ hb =>
      obtain ⟨-, hh2, hsched⟩ := events_recvmsg c psock ksk skb e
      by_cases hc : psock = c
      · subst hc
        intro i r hm
        rw [h2Events_append, hh2, if_pos rfl, List.mem_append] at hm
        rcases hm with hm | hm
        · obtain ⟨n, bytes, hget, hgone⟩ := ih i r hm
          refine ⟨n, bytes, ?_, by rw [gone_append]; exact List.mem_append_left _ hgone⟩
          rw [pushed_append, pushed_recvmsg, List.append_nil]
          exact hget
        · obtain ⟨l, r', rfl, hfree⟩ := H2.recvmsg_events hb
          have hi : i = head := by
            rcases List.mem_append.mp hm with hm | hm
            · obtain ⟨addr, heq⟩ := hfree _ hm
              cases heq
            · exact (H2.Event.returned.inj (List.mem_singleton.mp hm)).1
          subst hi
          obtain ⟨bytes, hget⟩ := pushed_of_file hr (lt_of_receiveQ hr hq) hfile
          refine ⟨skb.id, bytes, ?_, ?_⟩
          · rw [pushed_append, pushed_recvmsg, List.append_nil]
            exact hget
          · rw [gone_append, gone, gone, hsched]
            exact List.mem_append_right _ List.mem_cons_self
      · exact ih.mono (by rw [hh2, if_neg hc]; nofun)

/-! ### The bytes of what was pushed -/

/-- A message that went up and is not pushed yet was not received. -/
theorem not_returned_of_raised (hf : Frames rcvbuf streams)
    (h : (machine hash rcvbuf heap psocks).Reach (Fair streams room) t ds) {head : ℕ} {rest : List ℕ}
    (hraised : t.raised c = head :: rest) (r : H2.Returned) : .returned head r ∉ h2Events c ds := by
  intro hm
  obtain ⟨n, bytes, hget, -⟩ := accounted_of_reach h c head r hm
  have hpushed : head ∈ pushedBy c ds :=
    List.mem_map.mpr ⟨(head, bytes), List.mem_filterMap.mpr ⟨_, List.mem_of_getElem? hget, by simp⟩, rfl⟩
  have hnodup := H2.nodup_heads (h2_of_reach hf h c)
  rw [← raised_of_reach h c, hraised] at hnodup
  exact (List.nodup_append.mp hnodup).2.2 head hpushed head List.mem_cons_self rfl

/-- The bytes of a message that is pushed are those of its frames. -/
theorem bytesOf_eq (hf : Frames rcvbuf streams)
    (h : (machine hash rcvbuf heap psocks).Reach (Fair streams room) t ds) {g : List H2.Frame}
    (hg : g ∈ H2.demux.groups (H2.frames (h2Events c ds)))
    (hnot : ∀ r, .returned (H2.headAddr g) r ∉ h2Events c ds) :
    bytesOf (t.h2 c) (H2.headAddr g) = H2.content g := by
  obtain ⟨hchain, hbytes⟩ := H2.bytes_of_reach (h2_of_reach hf h c) hg hnot
  rw [bytesOf, hchain, Option.getD_some, List.flatMap_map, H2.content]
  exact List.flatMap_congr hbytes

/-- What a connection has pushed are the first messages that went up, with their bytes. -/
theorem bytes_of_reach (hf : Frames rcvbuf streams)
    (h : (machine hash rcvbuf heap psocks).Reach (Fair streams room) t ds) (c : PsockPtr) :
    entries some (pushed ds) c <+:
      (H2.demux.groups (H2.frames (h2Events c ds))).map (fun g => (H2.headAddr g, H2.content g)) := by
  refine h.invariant (P := fun _ ds => entries some (pushed ds) c <+:
    (H2.demux.groups (H2.frames (h2Events c ds))).map (fun g => (H2.headAddr g, H2.content g))) List.nil_prefix ?_
  intro t ds a t' d hr ih _ hs
  -- the messages that went up before are the first ones after the step
  have hmono : (H2.demux.groups (H2.frames (h2Events c ds))).map (fun g => (H2.headAddr g, H2.content g)) <+:
      (H2.demux.groups (H2.frames (h2Events c (ds ++ d)))).map (fun g => (H2.headAddr g, H2.content g)) := by
    refine (H2.demux.groups_mono ?_).map _
    rw [h2Events_append, H2.frames_append]
    exact List.prefix_append _ _
  have hkeep : pushed d = [] → entries some (pushed (ds ++ d)) c <+:
      (H2.demux.groups (H2.frames (h2Events c (ds ++ d)))).map (fun g => (H2.headAddr g, H2.content g)) := by
    intro hd
    rw [pushed_append, hd, List.append_nil]
    exact ih.trans hmono
  cases step_cases hs with
  | present psock b p e => exact hkeep (pushed_map_of_none (fun _ => rfl) e)
  | frame psock cb next alloc head rest h2 e => exact hkeep (pushed_map_of_none (fun _ => rfl) e)
  | sched b sched e => exact hkeep (pushed_map_of_none (fun _ => rfl) e)
  | recvmsg ksk len mapped dgram skb rest psock head sched h2 e => exact hkeep (pushed_recvmsg psock ksk skb e)
  | push psock cb truesize r1 r2 head rest sched hraised =>
      have hnew : entries some (pushed [.pushed psock head (bytesOf (t.h2 psock) head),
          .sched (.handed t.sched.nextId psock cb)]) c =
            if psock = c then [(head, bytesOf (t.h2 psock) head)] else [] :=
        entries_singleton (f := some) rfl c
      rw [pushed_append, entries_append, hnew]
      split_ifs with hc
      · subst hc
        obtain ⟨tail, htail⟩ := ih
        have hheads : tail.map Prod.fst = head :: rest := by
          have hmap := congrArg (List.map Prod.fst) htail
          rw [List.map_append, List.map_map] at hmap
          have hall := raised_of_reach hr psock
          rw [hraised, (H2.raised_of_reach (h2_of_reach hf hr psock)).heads] at hall
          exact List.append_cancel_left (hmap.trans hall.symm)
        cases tail with
        | nil => cases hheads
        | cons x tail =>
            have hx : x ∈ (H2.demux.groups (H2.frames (h2Events psock ds))).map
                (fun g => (H2.headAddr g, H2.content g)) := by
              rw [← htail]
              exact List.mem_append_right _ List.mem_cons_self
            obtain ⟨g, hg, rfl⟩ := List.mem_map.mp hx
            obtain rfl : H2.headAddr g = head := (List.cons.inj hheads).1
            have hbytes := bytesOf_eq hf hr hg (not_returned_of_raised hf hr hraised)
            refine List.IsPrefix.trans ⟨tail, ?_⟩ hmono
            rw [← htail, hbytes, List.append_assoc]
            rfl
      · rw [List.append_nil]
        exact ih.trans hmono

end Rakaia.Grpc
