import Rakaia.Lib.Demux
import Rakaia.H2.History
import Rakaia.H2.Requests

/-! # The receive path demultiplexes

`handle_h2_frame` sorts the frames of a connection by their streams.  What it hands up are the groups of
`Rakaia.Lib.Demux`: for every frame that ends a message, the frames of its stream since the last one that did, in
the order in which the messages were completed (`raised_of_reach`). -/

namespace Rakaia.H2

open Lib

/-- How `handle_h2_frame` sorts frames. -/
def demux : Demux Frame ℕ := ⟨fun f => f.2.cb.streamId, fun f => f.2.carried, fun f => f.2.ends⟩

/-- A stream holds what is collected of it. -/
theorem of_stream_eq (es : List Event) (sid : ℕ) : Spec.of es (.stream sid) = demux.collected (frames es) sid := by
  induction es using List.reverseRecOn with
  | nil => rfl
  | append_singleton es e ih =>
      rw [Spec.of_append, List.foldl_cons, List.foldl_nil, frames_append]
      cases e with
      | frame a skb =>
          have hframe : frames [.frame a skb] = [(a, skb)] := rfl
          rw [hframe, Demux.collected_concat, Demux.step_fst, ← ih]
          change _ = if skb.carried = true ∧ skb.cb.streamId = sid then if skb.ends = true then [] else _ else _
          by_cases hc : skb.carried = true
          · by_cases hs : skb.cb.streamId = sid
            · subst hs
              by_cases he : skb.ends = true <;> simp [Spec.step, hc, he, Spec.flush, Spec.add]
            · by_cases he : skb.ends = true <;>
                simp [Spec.step, hc, he, Spec.flush, Spec.add, hs, Ne.symm hs]
          · simp [Spec.step, hc]
      | rcvMsg | freed =>
          rw [show frames [_] = [] from rfl, List.append_nil]
          exact ih
      | returned =>
          rw [show frames [_] = [] from rfl, List.append_nil]
          simpa [Spec.step] using ih

/-- The messages that went up are the groups of the frames; until a message is received, its frames are there. -/
structure Raised (es : List Event) : Prop where
  heads : rcvMsgs es = (demux.groups (frames es)).map headAddr
  kept : ∀ g ∈ demux.groups (frames es), (∀ r, .returned (headAddr g) r ∉ es) →
    Spec.of es (.message (headAddr g)) = g

variable {hash : ℕ → Fin streamHashSize} {heap : ℕ → Skb} {psock : Psock} {s s' : State} {es e : List Event}
  {a : Act}

theorem groups_ne_nil {fs g : List Frame} (hg : g ∈ demux.groups fs) : g ≠ [] := by
  obtain ⟨r, f, rfl, -⟩ := demux.mem_groups hg
  simp

/-- What `rakaia_recvmsg` does to the history. -/
theorem recvmsg_events {head len mapped : ℕ} {dgram : Bool}
    (hs : step hash s (.recvmsg head len mapped dgram) = some (s', e)) :
    ∃ l r, e = l ++ [.returned head r] ∧ OnlyFrees l := by
  simp only [step, rakaiaRecvmsg] at hs
  split_ifs at hs
  split at hs
  · next r l _ _ =>
    obtain ⟨rfl, rfl⟩ := Prod.mk.inj (Option.some.inj hs)
    refine ⟨l.tail.map .freed ++ [.freed head], recvResult len dgram r, by simp, fun x hx => ?_⟩
    rcases List.mem_append.mp hx with hx | hx
    · obtain ⟨a, -, rfl⟩ := List.mem_map.mp hx
      exact ⟨a, rfl⟩
    · exact ⟨head, List.mem_singleton.mp hx⟩
  · cases hs

theorem storeFrame_returned {addr head : ℕ} {alloc : Alloc} {r : Returned}
    (h : storeFrame hash s addr alloc = some (s', e)) : .returned head r ∉ e := by
  unfold storeFrame at h
  dsimp only at h
  split at h
  · cases h
  · obtain ⟨rfl, rfl⟩ := Prod.mk.inj (Option.some.inj h)
    simp
  · split_ifs at h
    · have h := congrArg Prod.snd (Option.some.inj h)
      rw [flushStream] at h
      dsimp only at h
      split at h <;> subst h <;> simp
    · obtain ⟨rfl, rfl⟩ := Prod.mk.inj (Option.some.inj h)
      simp

/-- `handle_h2_frame` returns no message. -/
theorem frame_returned {head : ℕ} {skb : Skb} {alloc : Alloc} {r : Returned}
    (hs : step hash s (.frame skb alloc) = some (s', e)) : .returned head r ∉ e := by
  obtain ⟨⟨s₁, e₁⟩, hframe, heq⟩ := Option.map_eq_some_iff.mp hs
  obtain ⟨rfl, rfl⟩ := Prod.mk.inj heq
  intro hm
  replace hm := (List.mem_cons.mp hm).resolve_left nofun
  cases hc : ((s.alloc skb).heap s.brk).carried with
  | false =>
      obtain ⟨s₂, e₂, h₂, -, hfree⟩ := handleH2Frame_other hash alloc hc
      obtain ⟨rfl, rfl⟩ := Prod.mk.inj (Option.some.inj (h₂.symm.trans hframe))
      obtain ⟨addr, heq⟩ := hfree _ hm
      cases heq
  | true =>
      obtain ⟨s₂, h₂, -⟩ := handleH2Frame_stored hash alloc hc
      exact storeFrame_returned (h₂.symm.trans hframe) hm

/-- A message that went up before a step, and is not received in it. -/
theorem Raised.keep (hr : Raised es) (h : Holds hash s (Spec.of es)) (hg : Orderly s a)
    (hs : step hash s a = some (s', e)) {g : List Frame} (hmem : g ∈ demux.groups (frames es))
    (hnot : ∀ r, .returned (headAddr g) r ∉ es ++ e) : Spec.of (es ++ e) (.message (headAddr g)) = g := by
  have hold := hr.kept g hmem (fun r hm => hnot r (List.mem_append_left _ hm))
  have hne : Spec.of es (.message (headAddr g)) ≠ [] := by
    rw [hold]
    exact groups_ne_nil hmem
  rw [kept_of_holds h hne hg hs (fun r hm => hnot r (List.mem_append_right _ hm)), hold]

theorem raised_step (h : Holds hash s (Spec.of es)) (hg : Orderly s a) (hs : step hash s a = some (s', e))
    (hr : Raised es) : Raised (es ++ e) := by
  have hframes := (step_frames hs).1
  cases a with
  | frame skb alloc =>
      have hspec := frame_of_holds h skb alloc hg.1 hg.2
      obtain ⟨s₁, e₁, hs₁, hif⟩ := hspec
      obtain ⟨rfl, rfl⟩ := Prod.mk.inj (Option.some.inj (hs₁.symm.trans hs))
      have hpend : pending skb.cb.streamId es = demux.collected (frames es) skb.cb.streamId := by
        rw [pending, ← Spec.of_stream, of_stream_eq]
      have hgroups : demux.groups (frames (es ++ .frame s.brk skb :: e₁)) = demux.groups (frames es) ++
          if skb.carried ∧ skb.ends then [pending skb.cb.streamId es ++ [(s.brk, skb)]] else [] := by
        rw [frames_append, hframes, Act.frames, Demux.groups_concat, hpend]
        congr 1
        by_cases hc : skb.carried = true <;> by_cases he : skb.ends = true <;> simp [Demux.step, demux, hc, he]
      have hheads : rcvMsgs (.frame s.brk skb :: e₁) = rcvMsgs e₁ := rfl
      by_cases hc : skb.carried ∧ skb.ends
      · rw [if_pos hc] at hif hgroups
        constructor
        · rw [rcvMsgs_append, hr.heads, hgroups, List.map_append, hheads, hif.1]
          rfl
        · intro g hmem hnot
          rw [hgroups, List.mem_append, List.mem_singleton] at hmem
          rcases hmem with hmem | rfl
          · exact hr.keep h hg hs hmem hnot
          · exact hif.2.2
      · rw [if_neg hc] at hif
        rw [if_neg hc, List.append_nil] at hgroups
        constructor
        · rw [rcvMsgs_append, hr.heads, hgroups, hheads, hif, List.append_nil]
        · intro g hmem hnot
          exact hr.keep h hg hs (hgroups ▸ hmem) hnot
  | recvmsg head len mapped dgram =>
      have hsame : frames (es ++ e) = frames es := by
        rw [frames_append, hframes]
        exact List.append_nil _
      obtain ⟨l, r, rfl, hfree⟩ := recvmsg_events hs
      constructor
      · rw [hsame, rcvMsgs_append, rcvMsgs_append, hfree.rcvMsgs, hr.heads]
        exact List.append_nil _
      · intro g hmem hnot
        exact hr.keep h hg hs (hsame ▸ hmem) hnot

/-- **What goes up are the groups** of the frames that arrived. -/
theorem raised_of_reach (h : (machine hash heap psock).Reach Orderly s es) : Raised es :=
  h.invariant (P := fun _ es => Raised es) ⟨rfl, nofun⟩
    (fun _ _ _ _ _ hr ih hg hs => raised_step (holds_of_reach hr) hg hs ih)

theorem heads_sublist {gs : List (List Frame)} (h : ∀ g ∈ gs, g ≠ []) :
    (gs.map headAddr).Sublist (gs.flatten.map Prod.fst) := by
  induction gs with
  | nil => exact List.Sublist.refl _
  | cons g gs ih =>
      obtain ⟨f, fs, rfl⟩ := List.exists_cons_of_ne_nil (h g List.mem_cons_self)
      have hrest := ih (fun x hx => h x (List.mem_cons_of_mem _ hx))
      rw [List.map_cons, List.flatten_cons, List.cons_append, List.map_cons, List.map_append]
      exact (hrest.trans (List.sublist_append_right _ _)).cons_cons f.1

/-- No two messages have the same first frame. -/
theorem nodup_heads (h : (machine hash heap psock).Reach Orderly s es) : (rcvMsgs es).Nodup := by
  have haddr : ((frames es).map Prod.fst).Nodup := by
    rw [frames_of_reach h]
    exact List.nodup_range
  have hsub : (demux.groups (frames es)).flatten ⊆ frames es := fun _ => demux.mem_of_mem_groups
  have hflat : ((demux.groups (frames es)).flatten.map Prod.fst).Nodup := by
    refine (demux.nodup_groups (List.Nodup.of_map _ haddr)).map_on ?_
    intro f hf g hg heq
    exact List.inj_on_of_nodup_map haddr (hsub hf) (hsub hg) heq
  rw [(raised_of_reach h).heads]
  exact hflat.sublist (heads_sublist fun g hg => groups_ne_nil hg)

/-- The heap has the bytes of a message that went up and is not received. -/
theorem bytes_of_reach (h : (machine hash heap psock).Reach Orderly s es) {g : List Frame}
    (hg : g ∈ demux.groups (frames es)) (hnot : ∀ r, .returned (headAddr g) r ∉ es) :
    s.chain (headAddr g) = some (g.map Prod.fst) ∧ ∀ f ∈ g, (s.heap f.1).content = f.2.content := by
  have hh := holds_of_reach h
  have hsp := (raised_of_reach h).kept g hg hnot
  constructor
  · rw [hh.chain_eq (by rw [hsp]; exact groups_ne_nil hg), hsp]
  · intro f hf
    have hi := hh.intact (.message (headAddr g)) f (by rw [hsp]; exact hf)
    rw [Skb.content, Skb.content, hi.bytes, hi.offset, hi.fullLen]

end Rakaia.H2
