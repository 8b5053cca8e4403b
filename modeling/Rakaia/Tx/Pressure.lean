import Rakaia.Tx.Cleanup
import Rakaia.Tx.Segments

/-! # `rakaia_sendmsg` under memory pressure (plain-tcp)

When memory is short a turn of the loop ends at `wait_for_space` and the next one starts over: with a new
segment, if the last turn had got one but no page for it, and with the first segment of `cur_msg`.  The order of
the message is kept through any number of such turns (`Held`), because a segment is added only behind a closed
first one.  What is lost is that no segment is empty: one whose page could not be had stays on the list. -/

namespace Rakaia.Tx.Sendmsg

variable {c : Call} {s : Sock} {st : Acc} {o : Outcome} {os rest : List Outcome} {skb : Seg} {l : List Seg}
  {pfrag : PageFrag}

/-! ### The kernel -/

/-- Where `sk_page_frag_refill` succeeds, it returns a page fragment that has room, and that moved forward or to
a page that is not used.  All calls may fail. -/
structure Sane (st : Acc) (o : Outcome) : Prop where
  refill : ∀ pfrag, o.refill = some pfrag → st.Refilled pfrag
  refillNew : ∀ pfrag pfrag', o.refill = some pfrag → o.refillNew = some pfrag' →
    Acc.Refilled { st with pfrag := pfrag } pfrag'

/-- The page fragment moves in this way in all turns of the loop. -/
def SaneRun (c : Call) (st : Acc) : List Outcome → Prop
  | [] => True
  | o :: os => Sane st o ∧ ∀ st', turn c st o = .again st' → SaneRun c st' os

/-! ### The invariant of the loop -/

/-- The byte count of the segment is right, and it is not longer than `size_goal`. -/
structure Seg.Counted (sizeGoal : ℕ) (skb : Seg) : Prop where
  len : skb.len = skb.bytes.length
  le : skb.len ≤ sizeGoal
  seq : skb.seq = UInt32.ofNat skb.len

/-- **The invariant**: as `Built`, but segments may be empty. -/
structure Held (c : Call) (st : Acc) : Prop where
  bytes : st.curMsg.flatMap Seg.bytes ++ st.left = c.msg
  copied : st.copied + st.left.length = c.msg.length
  counted : ∀ skb ∈ st.curMsg, skb.Counted c.sizeGoal
  behind : ∀ skb ∈ st.curMsg, skb.Behind st.pfrag
  closed : ∀ skb l, st.curMsg = skb :: l → l ≠ [] → Closed c.sizeGoal skb st.pfrag

theorem held_init (c : Call) (s : Sock) : Held c (.init c s) :=
  ⟨rfl, Nat.zero_add _, nofun, nofun, nofun⟩

theorem Held.refilled (h : Held c st) (hr : st.Refilled pfrag) : Held c { st with pfrag := pfrag } := by
  refine ⟨h.bytes, h.copied, h.counted, ?_, ?_⟩
  · intro skb hskb f hf hpage
    obtain ⟨hsame, hle⟩ := hr.transport hskb hf hpage
    exact le_trans (h.behind skb hskb f hf hsame) hle
  · intro skb l hmsg hl
    refine (h.closed skb l hmsg hl).refilled hr ?_
    change st.curMsg = skb :: l at hmsg
    rw [hmsg]
    exact List.mem_cons_self

/-- A new segment, behind a first one that is closed. -/
theorem Held.push (h : Held c st) (hclosed : ∀ skb l, st.curMsg = skb :: l → Closed c.sizeGoal skb st.pfrag)
    (truesize : ℕ) : Held c (st.push truesize) := by
  refine ⟨?_, h.copied, ?_, ?_, ?_⟩
  · have hbytes := h.bytes
    simpa [Acc.push, Seg.bytes] using hbytes
  · intro skb hskb
    rcases List.mem_append.mp hskb with hskb | hskb
    · exact h.counted skb hskb
    · obtain rfl := List.mem_singleton.mp hskb
      exact ⟨rfl, Nat.zero_le _, rfl⟩
  · intro skb hskb
    rcases List.mem_append.mp hskb with hskb | hskb
    · exact h.behind skb hskb
    · obtain rfl := List.mem_singleton.mp hskb
      intro f hf
      cases hf
  · intro skb l hcons hl
    change st.curMsg ++ [_] = skb :: l at hcons
    cases hold : st.curMsg with
    | nil =>
        -- the new segment is the only one
        rw [hold, List.nil_append] at hcons
        exact absurd (List.cons.inj hcons).2.symm hl
    | cons first l' =>
        rw [hold, List.cons_append] at hcons
        obtain ⟨rfl, -⟩ := List.cons.inj hcons
        exact hclosed first l' hold

/-- A chunk that goes into the last segment. -/
theorem Held.fill (h : Held c st) (hlast : st.curMsg = l ++ [skb]) {merge : Bool}
    (hm : merge = true → canCoalesce skb st.pfrag = true) {n : ℕ} (hgoal : skb.len + n ≤ c.sizeGoal)
    (hn : n ≤ st.left.length) : Held c (st.fill l.length n merge) := by
  have hlen : (st.left.take n).length = n := by rw [List.length_take, min_eq_left hn]
  have hmsg : (st.fill l.length n merge).curMsg = l ++ [skb.fill merge st.pfrag (st.left.take n)] := by
    simp only [Acc.fill, hlast, modify_length_append]
  have hmem : skb ∈ st.curMsg := by
    rw [hlast]
    exact List.mem_append_right _ List.mem_cons_self
  have hold : ∀ x ∈ l, x ∈ st.curMsg := by
    intro x hx
    rw [hlast]
    exact List.mem_append_left _ hx
  have hc := h.counted skb hmem
  refine ⟨?_, ?_, ?_, ?_, ?_⟩
  · have hbytes := h.bytes
    rw [hlast, List.flatMap_append, List.flatMap_singleton] at hbytes
    rw [hmsg, List.flatMap_append, List.flatMap_singleton, bytes_fill hm]
    change l.flatMap Seg.bytes ++ (skb.bytes ++ st.left.take n) ++ st.left.drop n = c.msg
    rw [List.append_assoc, List.append_assoc, List.take_append_drop, ← List.append_assoc]
    exact hbytes
  · have hcopied := h.copied
    change st.copied + n + (st.left.drop n).length = c.msg.length
    rw [List.length_drop]
    omega
  · intro x hx
    rw [hmsg] at hx
    rcases List.mem_append.mp hx with hx | hx
    · exact h.counted x (hold x hx)
    · obtain rfl := List.mem_singleton.mp hx
      refine ⟨?_, ?_, ?_⟩
      · rw [bytes_fill hm, List.length_append, ← hc.len]
        rfl
      · simp only [Seg.fill, hlen]
        exact hgoal
      · simp only [Seg.fill, hc.seq, UInt32.ofNat_add]
  · intro x hx
    rw [hmsg] at hx
    rcases List.mem_append.mp hx with hx | hx
    · exact (h.behind x (hold x hx)).advance n _
    · obtain rfl := List.mem_singleton.mp hx
      have hfill := (h.behind skb hmem).fill hm (st.left.take n) (st.pfrag.room - n)
      rwa [hlen] at hfill
  · intro x l' hcons hl'
    rw [hmsg] at hcons
    cases l with
    | nil => exact absurd (List.cons.inj hcons).2.symm hl'
    | cons first l'' =>
        obtain ⟨rfl, -⟩ := List.cons.inj hcons
        exact (h.closed first _ hlast (by simp)).advance n _

/-! ### One turn -/

/-- The invariant holds after the choice of the fragment, and the chunk that is chosen goes into the last
segment. -/
structure Offers (c : Call) (r : Acc × Option Target) : Prop where
  held : Held c r.1
  last : ∀ t, r.2 = some t → ∃ l skb, r.1.curMsg = l ++ [skb] ∧ t.idx = l.length ∧
    (t.merge = true → canCoalesce skb r.1.pfrag = true) ∧ skb.len + t.copy ≤ c.sizeGoal ∧
    t.copy ≤ r.1.left.length

theorem newSegment_offers (h : Held c st) (hclosed : ∀ skb l, st.curMsg = skb :: l → Closed c.sizeGoal skb st.pfrag)
    {refill : Option PageFrag} (hr : ∀ pfrag, refill = some pfrag → st.Refilled pfrag) :
    Offers c (newSegment c st o refill) := by
  unfold newSegment
  split_ifs
  · cases o.alloc with
    | none => exact ⟨h, nofun⟩
    | some truesize =>
        cases refill with
        | none => exact ⟨h.push hclosed truesize, nofun⟩
        | some pfrag =>
            have hr := hr pfrag rfl
            have hclosed' : ∀ skb l, st.curMsg = skb :: l → Closed c.sizeGoal skb pfrag := by
              intro skb l hmsg
              exact (hclosed skb l hmsg).refilled hr (by rw [hmsg]; exact List.mem_cons_self)
            refine ⟨(h.refilled hr).push hclosed' truesize, ?_⟩
            rintro t ⟨⟩
            refine ⟨st.curMsg, _, rfl, rfl, nofun, ?_, min_le_right _ _⟩
            simp only [Nat.zero_add]
            exact min_le_left _ _
  · exact ⟨h, nofun⟩

theorem select_offers (h : Held c st) (hs : Sane st o) : Offers c (select c st o) := by
  cases hmsg : st.curMsg with
  | nil =>
      rw [select_nil hmsg]
      exact newSegment_offers h (by rw [hmsg]; exact nofun) hs.refill
  | cons skb l =>
      have hmem : skb ∈ st.curMsg := by rw [hmsg]; exact List.mem_cons_self
      have hc := h.counted skb hmem
      rw [select_cons hmsg, spaceIn_eq hc.le]
      by_cases hspace : c.sizeGoal - skb.len = 0
      · -- the first segment is full
        rw [if_pos hspace]
        refine newSegment_offers h (fun x l' hx => ?_) hs.refill
        obtain ⟨rfl, -⟩ := List.cons.inj (hmsg.symm.trans hx)
        exact .inl (by have := hc.le; omega)
      rw [if_neg hspace]
      cases hrefill : o.refill with
      | none => exact ⟨h, nofun⟩
      | some pfrag =>
          have hheld := h.refilled (hs.refill pfrag hrefill)
          -- the chunk may go into the first segment when it is the only one
          have hhead : ∀ merge, (merge = true → canCoalesce skb pfrag = true) → l = [] →
              Offers c ({ st with pfrag := pfrag },
                some ⟨0, min (c.sizeGoal - skb.len) st.left.length, merge⟩) := by
            rintro merge hm rfl
            refine ⟨hheld, ?_⟩
            rintro t ⟨⟩
            refine ⟨[], skb, hmsg, rfl, hm, ?_, min_le_right _ _⟩
            have hmin := min_le_left (c.sizeGoal - skb.len) st.left.length
            dsimp only
            omega
          have hclosed : l ≠ [] → maxSkbFrags ≤ skb.frags.length ∧ ¬ canCoalesce skb pfrag = true :=
            fun hl => (hheld.closed skb l hmsg hl).not_coalesce (by omega)
          dsimp only
          split_ifs with hco hfull
          · exact hhead true (fun _ => hco) (not_not.mp (fun hl => (hclosed hl).2 hco))
          · refine newSegment_offers hheld (fun x l' hx => ?_) (fun pfrag' => hs.refillNew pfrag pfrag' hrefill)
            obtain ⟨rfl, -⟩ := List.cons.inj (hmsg.symm.trans hx)
            exact closed_of_not_coalesce (hheld.behind skb hmem) hco hfull
          · exact hhead false nofun (not_not.mp (fun hl => hfull (hclosed hl).1))

/-- **One turn**, whichever calls fail in it. -/
theorem Held.turn (h : Held c st) (hs : Sane st o) : Held c (turn c st o).acc := by
  have hoff := select_offers h hs
  rcases turn_acc c st o with hacc | ⟨t, n, ht, -, hn, hacc⟩
  · rw [hacc]
    exact hoff.held
  · rw [hacc]
    obtain ⟨l, skb, hlast, hidx, hm, hgoal, hle⟩ := hoff.last t ht
    rw [hidx]
    exact hoff.held.fill hlast hm (by omega) (by omega)

/-- The loop is left for `sent` only when nothing is left. -/
theorem left_of_sent {st' : Acc} (h : turn c st o = .sent st') : st'.left = [] := by
  have hwait : ∀ st₁, waitForSpace st₁ o ≠ .sent st' := by
    intro st₁
    unfold waitForSpace
    cases o.wait <;> simp
  unfold turn at h
  rcases hsel : select c st o with ⟨st₁, _ | t⟩
  · rw [hsel] at h
    exact absurd h (hwait st₁)
  · rw [hsel] at h
    dsimp only [copyChunk] at h
    by_cases h₁ : min t.copy st₁.pfrag.room = 0 ∨ o.scheduled = false
    · rw [if_pos h₁] at h
      exact absurd h (hwait st₁)
    · rw [if_neg h₁] at h
      cases hcopy : o.copy with
      | some err => rw [hcopy] at h; cases h
      | none =>
          rw [hcopy] at h
          dsimp only at h
          split_ifs at h with hnil
          obtain rfl := Turn.sent.inj h
          exact hnil

/-- **The loop**, through any number of turns that end at `wait_for_space`. -/
theorem copyLoop_held {t : Turn} (h : Held c st) (hs : SaneRun c st os) (hl : copyLoop c st os = some (t, rest)) :
    Held c t.acc ∧ ∀ st', t = .sent st' → st'.left = [] := by
  induction os generalizing st with
  | nil => cases hl
  | cons o os ih =>
      rcases copyLoop_cons hl with ⟨rfl, -⟩ | ⟨st', hagain, hl'⟩
      · exact ⟨h.turn hs.1, fun st' hsent => left_of_sent hsent⟩
      · have hnext := h.turn hs.1
        rw [hagain] at hnext
        exact ih hnext (hs.2 st' hagain) hl'

/-! ### The main result -/

variable {intact : Bool} {r : Result}

/-- What a call that returns a length has spliced. -/
theorem spliced_of_ok {n : ℕ} (hs : SaneRun c (.init c s) os) (h : rakaiaSendmsg c s intact os = some (r, rest))
    (hret : r.ret = .ok n) :
    n = c.msg.length ∧ r.spliced.flatMap Seg.bytes = c.msg ∧
      (∃ psock, s.lastPsock = some psock ∧ r.lastPsock = some (psock.append (r.spliced.map Seg.seq))) ∧
      ∀ skb ∈ r.spliced, skb.bytes.length ≤ c.sizeGoal ∧ skb.seq.toNat = skb.bytes.length := by
  rcases rakaiaSendmsg_cases h with ⟨rfl, -⟩ | ⟨psock, hpsock, -, ⟨st, err, -, rfl⟩ | ⟨st, hloop, rfl⟩⟩
  · cases hret
  · cases hret
  · obtain ⟨hheld, hleft⟩ := copyLoop_held (held_init c s) hs hloop
    have hnil := hleft st rfl
    change Held c st at hheld
    have hbytes := hheld.bytes
    have hcopied := hheld.copied
    rw [hnil, List.append_nil] at hbytes
    rw [hnil, List.length_nil, Nat.add_zero] at hcopied
    refine ⟨?_, hbytes, ⟨psock, hpsock, rfl⟩, fun skb hskb => ?_⟩
    · rw [← hcopied]
      exact (Except.ok.inj hret).symm
    · have hc := hheld.counted skb hskb
      have hlt : skb.len < UInt32.size := lt_of_le_of_lt hc.le (lt_trans c.sizeGoal_lt (by decide))
      exact ⟨hc.len ▸ hc.le, by rw [hc.seq, UInt32.toNat_ofNat_of_lt' hlt, hc.len]⟩

/-- **Order under memory pressure.**  For every message, every `size_goal`, and every sequence of results of the
kernel's functions, with any number of failed allocations and waits: a call that returns a length has spliced
segments that hold the whole message, in order, with their byte counts in `seq`, and none longer than
`size_goal`; a call that returns an error has spliced nothing. -/
theorem sendmsg_under_pressure (hs : SaneRun c (.init c s) os)
    (h : rakaiaSendmsg c s intact os = some (r, rest)) :
    (∀ n, r.ret = .ok n → n = c.msg.length ∧ r.spliced.flatMap Seg.bytes = c.msg ∧
      (∃ psock, s.lastPsock = some psock ∧ r.lastPsock = some (psock.append (r.spliced.map Seg.seq))) ∧
      ∀ skb ∈ r.spliced, skb.bytes.length ≤ c.sizeGoal ∧ skb.seq.toNat = skb.bytes.length) ∧
    ∀ err, r.ret = .error err → r.spliced = [] ∧ r.lastPsock = s.lastPsock := by
  refine ⟨fun n hret => spliced_of_ok hs h hret, fun err hret => ?_⟩
  rcases rakaiaSendmsg_cases h with ⟨rfl, -⟩ | ⟨psock, -, -, ⟨st, err', -, rfl⟩ | ⟨st, -, rfl⟩⟩
  · exact ⟨rfl, rfl⟩
  · exact ⟨rfl, rfl⟩
  · cases hret

/-- A turn in which a segment is allocated and no page is to be had for it. -/
def pagelessTurn : Outcome := ⟨true, some 512, none, none, true, none, none⟩

theorem sane_pagelessTurn (st : Acc) : Sane st pagelessTurn := ⟨nofun, nofun⟩

theorem sane_stillTurn (h : 0 < st.pfrag.room) : Sane st (stillTurn st.pfrag) := by
  refine ⟨fun pfrag hp => ?_, fun pfrag pfrag' hp hp' => ?_⟩
  · obtain rfl := Option.some.inj hp
    exact ⟨h, .inl ⟨rfl, le_rfl⟩⟩
  · obtain rfl := Option.some.inj hp
    obtain rfl := Option.some.inj hp'
    exact ⟨h, .inl ⟨rfl, le_rfl⟩⟩

/-- There is no page for the second segment: it stays empty, and the rest of the message goes into a third
one. -/
theorem sendmsg_under_pressure_empty_segment : ∃ r rest,
    rakaiaSendmsg twoSegments roomySock true [stillTurn ⟨7, 0, 32⟩, pagelessTurn, stillTurn ⟨7, 2, 30⟩] =
      some (r, rest) ∧
    r.spliced.map Seg.bytes = [[7, 8], [], [9]] ∧ r.spliced.flatMap Seg.bytes = [7, 8, 9] := by
  have hsane : SaneRun twoSegments (.init twoSegments roomySock)
      [stillTurn ⟨7, 0, 32⟩, pagelessTurn, stillTurn ⟨7, 2, 30⟩] := by
    refine ⟨sane_stillTurn (by decide), fun st₁ h₁ => ?_⟩
    obtain rfl := Turn.again.inj h₁
    refine ⟨sane_pagelessTurn _, fun st₂ h₂ => ?_⟩
    obtain rfl := Turn.again.inj h₂
    exact ⟨sane_stillTurn (by decide), fun _ _ => trivial⟩
  have hsegs : (rakaiaSendmsg twoSegments roomySock true
      [stillTurn ⟨7, 0, 32⟩, pagelessTurn, stillTurn ⟨7, 2, 30⟩]).map
        (fun x => (x.1.spliced.map Seg.bytes, x.1.ret.toOption)) = some ([[7, 8], [], [9]], some 3) := rfl
  obtain ⟨⟨r, rest⟩, hr, hy⟩ := Option.map_eq_some_iff.mp hsegs
  obtain ⟨hy₁, hy₂⟩ := Prod.mk.inj hy
  have hret : r.ret = .ok 3 := by
    cases hret : r.ret with
    | error err => simp [hret, Except.toOption] at hy₂
    | ok n => simpa [hret, Except.toOption] using hy₂
  exact ⟨r, rest, hr, hy₁, ((sendmsg_under_pressure hsane hr).1 3 hret).2.1⟩

end Rakaia.Tx.Sendmsg
