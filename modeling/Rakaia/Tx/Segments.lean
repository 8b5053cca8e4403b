import Rakaia.Tx.Sendmsg

/-! # The segments that `rakaia_sendmsg` builds (plain-tcp)

The loop looks at the *first* segment of `cur_msg` to decide whether the next chunk still fits, and a chunk
that does not goes into a new segment at the end.  The order of the message is kept all the same, because a
first segment that was passed over once is `Closed` for good: it is full, or it has all its fragments and the
page fragment, which only moves forward or to another page, never comes back to the end of the last one.

`Succeeds` says what the kernel's functions do in a turn in which all of them succeed.  `sk_page_frag_refill`
leaves the page fragment on its page, not before the place it had reached, or moves it to a page that no
fragment of the message lies on: such fragments hold a reference to their page, and only a page without other
references is used again from its beginning. -/

namespace Rakaia.Tx.Sendmsg

variable {c : Call} {s : Sock} {st : Acc} {o : Outcome} {os : List Outcome} {skb : Seg} {pfrag : PageFrag}
  {bs : List UInt8}

/-! ### The kernel -/

/-- No fragment of the message lies on the page. -/
def Acc.Unused (st : Acc) (page : ℕ) : Prop := ∀ skb ∈ st.curMsg, ∀ f ∈ skb.frags, f.page ≠ page

/-- A page fragment that `sk_page_frag_refill` may return: it has room. -/
structure Acc.Refilled (st : Acc) (pfrag : PageFrag) : Prop where
  room : 0 < pfrag.room
  moved : (pfrag.page = st.pfrag.page ∧ st.pfrag.offset ≤ pfrag.offset) ∨ st.Unused pfrag.page

/-- All allocations and copies of the turn succeed. -/
structure Succeeds (st : Acc) (o : Outcome) : Prop where
  memoryFree : o.memoryFree = true
  alloc : ∃ truesize, o.alloc = some truesize
  refill : ∃ pfrag, o.refill = some pfrag ∧ st.Refilled pfrag ∧
    ∃ pfrag', o.refillNew = some pfrag' ∧ Acc.Refilled { st with pfrag := pfrag } pfrag'
  scheduled : o.scheduled = true
  copy : o.copy = none

/-- All turns of the loop succeed. -/
def Served (c : Call) (st : Acc) : List Outcome → Prop
  | [] => True
  | o :: os => Succeeds st o ∧ ∀ st', turn c st o = .again st' → Served c st' os

/-! ### Fragments -/

/-- The place behind a fragment. -/
def Frag.stop (f : Frag) : ℕ := f.offset + f.bytes.length

/-- The fragments on the page of the page fragment lie before it. -/
def Seg.Behind (skb : Seg) (pfrag : PageFrag) : Prop :=
  ∀ f ∈ skb.frags, f.page = pfrag.page → f.stop ≤ pfrag.offset

theorem canCoalesce_iff (skb : Seg) (pfrag : PageFrag) : canCoalesce skb pfrag = true ↔
    ∃ f ∈ skb.frags.getLast?, f.page = pfrag.page ∧ f.stop = pfrag.offset := by
  unfold canCoalesce Frag.stop
  cases skb.frags.getLast? <;> simp

theorem modify_length_append {α : Type} (l : List α) (a : α) (f : α → α) :
    (l ++ [a]).modify l.length f = l ++ [f a] := by
  simp [List.modify_eq_take_drop]

/-- The fragments after a chunk: the last one has grown, or there is a new one. -/
theorem frags_fill {merge : Bool} (hm : merge = true → canCoalesce skb pfrag = true) (bs : List UInt8) :
    ∃ fs f, (skb.fill merge pfrag bs).frags = fs ++ [f] ∧ (∀ g ∈ fs, g ∈ skb.frags) ∧
      fs.flatMap Frag.bytes ++ f.bytes = skb.bytes ++ bs ∧ f.page = pfrag.page ∧
      f.stop = pfrag.offset + bs.length := by
  cases merge with
  | false => exact ⟨skb.frags, ⟨pfrag.page, pfrag.offset, bs⟩, rfl, fun _ hg => hg, rfl, rfl, rfl⟩
  | true =>
      obtain ⟨f, hf, hpage, hstop⟩ := (canCoalesce_iff skb pfrag).mp (hm rfl)
      obtain ⟨fs, hfs⟩ := List.getLast?_eq_some_iff.mp hf
      have hfill : (skb.fill true pfrag bs).frags = fs ++ [{ f with bytes := f.bytes ++ bs }] := by
        simp only [Seg.fill, if_true, hfs, List.length_append, List.length_singleton, Nat.add_sub_cancel]
        exact modify_length_append fs f _
      refine ⟨fs, _, hfill, fun g hg => by rw [hfs]; exact List.mem_append_left _ hg, ?_, hpage, ?_⟩
      · simp [Seg.bytes, hfs]
      · rw [← hstop]
        simp only [Frag.stop, List.length_append]
        omega

theorem bytes_fill {merge : Bool} (hm : merge = true → canCoalesce skb pfrag = true) (bs : List UInt8) :
    (skb.fill merge pfrag bs).bytes = skb.bytes ++ bs := by
  obtain ⟨fs, f, hfrags, -, hbytes, -, -⟩ := frags_fill hm bs
  rw [Seg.bytes, hfrags, List.flatMap_append, List.flatMap_singleton, hbytes]

theorem Seg.Behind.fill {merge : Bool} (h : skb.Behind pfrag) (hm : merge = true → canCoalesce skb pfrag = true)
    (bs : List UInt8) (room : ℕ) :
    (skb.fill merge pfrag bs).Behind ⟨pfrag.page, pfrag.offset + bs.length, room⟩ := by
  obtain ⟨fs, f, hfrags, hold, -, -, hstop⟩ := frags_fill hm bs
  intro g hg hpage
  rw [hfrags] at hg
  rcases List.mem_append.mp hg with hg | hg
  · exact le_trans (h g (hold g hg) hpage) (Nat.le_add_right _ _)
  · obtain rfl := List.mem_singleton.mp hg
    exact le_of_eq hstop

theorem Seg.Behind.advance (h : skb.Behind pfrag) (n room : ℕ) :
    skb.Behind ⟨pfrag.page, pfrag.offset + n, room⟩ :=
  fun f hf hpage => le_trans (h f hf hpage) (Nat.le_add_right _ _)

/-! ### Segments -/

/-- A segment as it should be: not empty, not longer than `size_goal`, and with its byte count in `len` and
`seq`. -/
structure Seg.Sound (sizeGoal : ℕ) (skb : Seg) : Prop where
  len : skb.len = skb.bytes.length
  pos : 0 < skb.len
  le : skb.len ≤ sizeGoal
  seq : skb.seq = UInt32.ofNat skb.len

theorem sound_fill {sizeGoal : ℕ} {merge : Bool} (hm : merge = true → canCoalesce skb pfrag = true)
    (hlen : skb.len = skb.bytes.length) (hseq : skb.seq = UInt32.ofNat skb.len) (hbs : 0 < bs.length)
    (hle : skb.len + bs.length ≤ sizeGoal) : (skb.fill merge pfrag bs).Sound sizeGoal := by
  refine ⟨?_, Nat.add_pos_right _ hbs, hle, ?_⟩
  · rw [bytes_fill hm, List.length_append, ← hlen]
    rfl
  · simp only [Seg.fill, hseq, UInt32.ofNat_add]

/-- No later chunk goes into the segment: it is full, or it has all its fragments and the page fragment is
not at the end of the last one. -/
def Closed (sizeGoal : ℕ) (skb : Seg) (pfrag : PageFrag) : Prop :=
  skb.len = sizeGoal ∨ (maxSkbFrags ≤ skb.frags.length ∧
    ∀ f ∈ skb.frags.getLast?, f.page = pfrag.page → f.stop < pfrag.offset)

theorem Closed.advance {sizeGoal : ℕ} (h : Closed sizeGoal skb pfrag) (n room : ℕ) :
    Closed sizeGoal skb ⟨pfrag.page, pfrag.offset + n, room⟩ :=
  h.imp_right (fun h => ⟨h.1, fun f hf hpage => lt_of_lt_of_le (h.2 f hf hpage) (Nat.le_add_right _ _)⟩)

/-- A segment with all its fragments that cannot be continued is closed. -/
theorem closed_of_not_coalesce {sizeGoal : ℕ} (hb : skb.Behind pfrag) (hco : ¬ canCoalesce skb pfrag = true)
    (hfull : maxSkbFrags ≤ skb.frags.length) : Closed sizeGoal skb pfrag := by
  refine .inr ⟨hfull, fun f hf hpage => lt_of_le_of_ne (hb f (List.mem_of_getLast? hf) hpage) ?_⟩
  intro hstop
  exact hco ((canCoalesce_iff skb pfrag).mpr ⟨f, hf, hpage, hstop⟩)

/-! ### The invariant of the loop -/

/-- **The invariant**: the segments hold what was copied, in order; each is as it should be; their fragments
lie before the page fragment; and a first segment with others behind it is closed. -/
structure Built (c : Call) (st : Acc) : Prop where
  bytes : st.curMsg.flatMap Seg.bytes ++ st.left = c.msg
  copied : st.copied + st.left.length = c.msg.length
  sound : ∀ skb ∈ st.curMsg, skb.Sound c.sizeGoal
  behind : ∀ skb ∈ st.curMsg, skb.Behind st.pfrag
  closed : ∀ skb l, st.curMsg = skb :: l → l ≠ [] → Closed c.sizeGoal skb st.pfrag

/-- A place before the page fragment is before the refilled one, if it is on its page. -/
theorem Acc.Refilled.transport (h : st.Refilled pfrag) (hskb : skb ∈ st.curMsg) {f : Frag} (hf : f ∈ skb.frags)
    (hpage : f.page = pfrag.page) : f.page = st.pfrag.page ∧ st.pfrag.offset ≤ pfrag.offset := by
  rcases h.moved with ⟨hsame, hle⟩ | hunused
  · exact ⟨hpage.trans hsame, hle⟩
  · exact absurd hpage (hunused skb hskb f hf)

theorem Closed.refilled {sizeGoal : ℕ} (h : Closed sizeGoal skb st.pfrag) (hr : st.Refilled pfrag)
    (hskb : skb ∈ st.curMsg) : Closed sizeGoal skb pfrag := by
  refine h.imp_right (fun h => ⟨h.1, fun f hf hpage => ?_⟩)
  obtain ⟨hsame, hle⟩ := hr.transport hskb (List.mem_of_getLast? hf) hpage
  exact lt_of_lt_of_le (h.2 f hf hsame) hle

theorem Built.refilled (h : Built c st) (hr : st.Refilled pfrag) : Built c { st with pfrag := pfrag } := by
  refine ⟨h.bytes, h.copied, h.sound, ?_, ?_⟩
  · intro skb hskb f hf hpage
    obtain ⟨hsame, hle⟩ := hr.transport hskb hf hpage
    exact le_trans (h.behind skb hskb f hf hsame) hle
  · intro skb l hmsg hl
    refine (h.closed skb l hmsg hl).refilled hr ?_
    change st.curMsg = skb :: l at hmsg
    rw [hmsg]
    exact List.mem_cons_self

/-- What is copied and what is left after a chunk of `n` bytes. -/
theorem Built.copied_add (h : Built c st) {n : ℕ} (hn : n ≤ st.left.length) :
    st.copied + n + (st.left.drop n).length = c.msg.length := by
  have := h.copied
  rw [List.length_drop]
  omega

/-- A chunk that goes into a new segment, with a first segment that is closed. -/
theorem Built.push_fill (h : Built c st) (hclosed : ∀ skb l, st.curMsg = skb :: l → Closed c.sizeGoal skb st.pfrag)
    {n : ℕ} (hpos : 0 < n) (hgoal : n ≤ c.sizeGoal) (hn : n ≤ st.left.length) (truesize : ℕ) :
    Built c ((st.push truesize).fill st.curMsg.length n false) := by
  have hlen : (st.left.take n).length = n := by rw [List.length_take, min_eq_left hn]
  have hmsg : ((st.push truesize).fill st.curMsg.length n false).curMsg = st.curMsg ++
      [Seg.fill ⟨st.allocs, 0, truesize, 0, []⟩ false st.pfrag (st.left.take n)] :=
    modify_length_append st.curMsg _ _
  have hm : false = true → canCoalesce ⟨st.allocs, 0, truesize, 0, []⟩ st.pfrag = true := nofun
  have hpfrag : ((st.push truesize).fill st.curMsg.length n false).pfrag =
      ⟨st.pfrag.page, st.pfrag.offset + n, st.pfrag.room - n⟩ := rfl
  refine ⟨?_, h.copied_add hn, ?_, ?_, ?_⟩
  · rw [hmsg, List.flatMap_append, List.flatMap_singleton, bytes_fill hm]
    change (st.curMsg.flatMap Seg.bytes ++ st.left.take n) ++ st.left.drop n = c.msg
    rw [List.append_assoc, List.take_append_drop]
    exact h.bytes
  · intro skb hskb
    rw [hmsg] at hskb
    rcases List.mem_append.mp hskb with hskb | hskb
    · exact h.sound skb hskb
    · obtain rfl := List.mem_singleton.mp hskb
      exact sound_fill hm rfl rfl (by omega) (by simp only; omega)
  · intro skb hskb
    rw [hmsg] at hskb
    rw [hpfrag]
    rcases List.mem_append.mp hskb with hskb | hskb
    · exact (h.behind skb hskb).advance n _
    · obtain rfl := List.mem_singleton.mp hskb
      have hnew : Seg.Behind ⟨st.allocs, 0, truesize, 0, []⟩ st.pfrag := nofun
      have hfill := hnew.fill hm (st.left.take n) (st.pfrag.room - n)
      rwa [hlen] at hfill
  · intro skb l hcons hl
    rw [hmsg] at hcons
    rw [hpfrag]
    cases hold : st.curMsg with
    | nil =>
        -- the new segment is the only one
        rw [hold, List.nil_append] at hcons
        exact absurd (List.cons.inj hcons).2.symm hl
    | cons first l' =>
        rw [hold, List.cons_append] at hcons
        obtain ⟨rfl, -⟩ := List.cons.inj hcons
        exact (hclosed first l' hold).advance n _

/-- A chunk that goes into the only segment. -/
theorem Built.fill_head (h : Built c st) (hone : st.curMsg = [skb]) {merge : Bool}
    (hm : merge = true → canCoalesce skb st.pfrag = true) {n : ℕ} (hpos : 0 < n)
    (hgoal : skb.len + n ≤ c.sizeGoal) (hn : n ≤ st.left.length) : Built c (st.fill 0 n merge) := by
  have hlen : (st.left.take n).length = n := by rw [List.length_take, min_eq_left hn]
  have hmem : skb ∈ st.curMsg := by rw [hone]; exact List.mem_singleton_self skb
  have hsound := h.sound skb hmem
  have hmsg : (st.fill 0 n merge).curMsg = [skb.fill merge st.pfrag (st.left.take n)] := by
    simp only [Acc.fill, hone, List.modify_zero_cons]
  refine ⟨?_, h.copied_add hn, ?_, ?_, ?_⟩
  · have hbytes := h.bytes
    rw [hone, List.flatMap_singleton] at hbytes
    rw [hmsg, List.flatMap_singleton, bytes_fill hm]
    change (skb.bytes ++ st.left.take n) ++ st.left.drop n = c.msg
    rw [List.append_assoc, List.take_append_drop]
    exact hbytes
  · intro x hx
    rw [hmsg] at hx
    obtain rfl := List.mem_singleton.mp hx
    exact sound_fill hm hsound.len hsound.seq (by omega) (by omega)
  · intro x hx
    rw [hmsg] at hx
    obtain rfl := List.mem_singleton.mp hx
    have hfill := (h.behind skb hmem).fill hm (st.left.take n) (st.pfrag.room - n)
    rwa [hlen] at hfill
  · intro x l hcons hl
    rw [hmsg] at hcons
    exact absurd (List.cons.inj hcons).2.symm hl

/-! ### One turn -/

/-- The choice of the fragment finds a place where a chunk of up to `copy` bytes keeps the invariant. -/
def Selects (c : Call) (st : Acc) (r : Acc × Option Target) : Prop :=
  ∃ st' t, r = (st', some t) ∧ st'.left = st.left ∧ 0 < t.copy ∧ t.copy ≤ st.left.length ∧ 0 < st'.pfrag.room ∧
    ∀ n, 0 < n → n ≤ t.copy → Built c (st'.fill t.idx n t.merge)

theorem newSegment_selects (h : Built c st) (hleft : 0 < st.left.length) (hgoal : 0 < c.sizeGoal)
    (hfree : o.memoryFree = true) (halloc : ∃ truesize, o.alloc = some truesize) (hr : st.Refilled pfrag)
    (hclosed : ∀ skb l, st.curMsg = skb :: l → Closed c.sizeGoal skb st.pfrag) :
    Selects c st (newSegment c st o (some pfrag)) := by
  obtain ⟨truesize, hts⟩ := halloc
  have hclosed' : ∀ skb l, st.curMsg = skb :: l → Closed c.sizeGoal skb pfrag := by
    intro skb l hmsg
    exact (hclosed skb l hmsg).refilled hr (by rw [hmsg]; exact List.mem_cons_self)
  refine ⟨{ st.push truesize with pfrag := pfrag }, ⟨st.curMsg.length, min c.sizeGoal st.left.length, false⟩,
    ?_, rfl, lt_min hgoal hleft, min_le_right _ _, hr.room, ?_⟩
  · rw [newSegment, if_pos hfree, hts]
  · intro n hpos hn
    obtain ⟨hn₁, hn₂⟩ := le_min_iff.mp hn
    exact (h.refilled hr).push_fill hclosed' hpos hn₁ hn₂ truesize

theorem spaceIn_eq {len : ℕ} (h : len ≤ c.sizeGoal) : spaceIn c.sizeGoal len = c.sizeGoal - len := by
  have := c.sizeGoal_lt
  unfold spaceIn
  omega

/-- A first segment that is closed gets no chunk. -/
theorem Closed.not_coalesce (h : Closed c.sizeGoal skb pfrag) (hlt : skb.len < c.sizeGoal) :
    maxSkbFrags ≤ skb.frags.length ∧ ¬ canCoalesce skb pfrag = true := by
  rcases h with hfull | ⟨hfrags, hlast⟩
  · omega
  · refine ⟨hfrags, fun hco => ?_⟩
    obtain ⟨f, hf, hpage, hstop⟩ := (canCoalesce_iff skb pfrag).mp hco
    exact absurd hstop (ne_of_lt (hlast f hf hpage))

theorem select_selects (h : Built c st) (hleft : 0 < st.left.length) (hgoal : 0 < c.sizeGoal)
    (hs : Succeeds st o) : Selects c st (select c st o) := by
  obtain ⟨pfrag, hrefill, hr, pfrag', hrefill', hr'⟩ := hs.refill
  cases hmsg : st.curMsg with
  | nil =>
      rw [select_nil hmsg, hrefill]
      exact newSegment_selects h hleft hgoal hs.memoryFree hs.alloc hr (by rw [hmsg]; exact nofun)
  | cons skb l =>
      have hmem : skb ∈ st.curMsg := by rw [hmsg]; exact List.mem_cons_self
      have hsound := h.sound skb hmem
      have hbuilt := h.refilled hr
      rw [select_cons hmsg, spaceIn_eq hsound.le, hrefill]
      by_cases hspace : c.sizeGoal - skb.len = 0
      · -- the first segment is full
        rw [if_pos hspace]
        refine newSegment_selects h hleft hgoal hs.memoryFree hs.alloc hr ?_
        intro x l' hx
        rw [hmsg] at hx
        obtain ⟨rfl, -⟩ := List.cons.inj hx
        exact .inl (by have := hsound.le; omega)
      · rw [if_neg hspace]
        have hlt : skb.len < c.sizeGoal := by omega
        -- the chunk may go into the first segment when it is the only one
        have hhead : ∀ merge, (merge = true → canCoalesce skb pfrag = true) → l = [] →
            Selects c st ({ st with pfrag := pfrag },
              some ⟨0, min (c.sizeGoal - skb.len) st.left.length, merge⟩) := by
          rintro merge hm rfl
          refine ⟨_, _, rfl, rfl, lt_min (by omega) hleft, min_le_right _ _, hr.room, ?_⟩
          intro n hpos hn
          obtain ⟨hn₁, hn₂⟩ := le_min_iff.mp hn
          exact hbuilt.fill_head hmsg hm hpos (by omega) hn₂
        have hclosed : l ≠ [] → maxSkbFrags ≤ skb.frags.length ∧ ¬ canCoalesce skb pfrag = true :=
          fun hl => (hbuilt.closed skb l hmsg hl).not_coalesce hlt
        dsimp only
        split_ifs with hco hfull
        · exact hhead true (fun _ => hco) (not_not.mp (fun hl => (hclosed hl).2 hco))
        · rw [hrefill']
          refine newSegment_selects hbuilt hleft hgoal hs.memoryFree hs.alloc hr' ?_
          intro x l' hx
          obtain ⟨rfl, -⟩ := List.cons.inj (hmsg.symm.trans hx)
          exact closed_of_not_coalesce (hbuilt.behind skb hmem) hco hfull
        · exact hhead false nofun (not_not.mp (fun hl => hfull (hclosed hl).1))

/-- **One turn** in which everything succeeds copies a chunk and keeps the invariant. -/
theorem Built.turn (h : Built c st) (hleft : 0 < st.left.length) (hgoal : 0 < c.sizeGoal) (hs : Succeeds st o) :
    ∃ st', Built c st' ∧ st'.left.length < st.left.length ∧
      turn c st o = if st'.left = [] then .sent st' else .again st' := by
  obtain ⟨st₁, t, hsel, hsame, hpos, hle, hroom, hbuilt⟩ := select_selects h hleft hgoal hs
  have hn : 0 < min t.copy st₁.pfrag.room := lt_min hpos hroom
  refine ⟨st₁.fill t.idx (min t.copy st₁.pfrag.room) t.merge, hbuilt _ hn (min_le_left _ _), ?_, ?_⟩
  · simp only [Acc.fill, List.length_drop, hsame]
    omega
  · rw [Sendmsg.turn, hsel]
    dsimp only [copyChunk]
    rw [if_neg (by rw [hs.scheduled]; simp only [Bool.true_eq_false, or_false]; omega), hs.copy]

/-- **The loop** ends after at most as many turns as there are bytes left. -/
theorem copyLoop_builds (h : Built c st) (hleft : 0 < st.left.length) (hgoal : 0 < c.sizeGoal)
    (hs : Served c st os) (hlen : st.left.length ≤ os.length) :
    ∃ st' rest, copyLoop c st os = some (.sent st', rest) ∧ Built c st' ∧ st'.left = [] := by
  induction os generalizing st with
  | nil => exact absurd hlen (by simp only [List.length_nil]; omega)
  | cons o os ih =>
      obtain ⟨st', hbuilt, hlt, hturn⟩ := h.turn hleft hgoal hs.1
      rw [List.length_cons] at hlen
      by_cases hdone : st'.left = []
      · rw [if_pos hdone] at hturn
        exact ⟨st', os, by rw [copyLoop, hturn], hbuilt, hdone⟩
      · rw [if_neg hdone] at hturn
        obtain ⟨st'', rest, hloop, hend⟩ :=
          ih hbuilt (List.length_pos_iff.mpr hdone) (hs.2 st' hturn) (by omega)
        exact ⟨st'', rest, by rw [copyLoop, hturn]; exact hloop, hend⟩

theorem built_init (c : Call) (s : Sock) : Built c (.init c s) :=
  ⟨rfl, Nat.zero_add _, nofun, nofun, nofun⟩

theorem Seg.Sound.seq_toNat (h : skb.Sound c.sizeGoal) : skb.seq.toNat = skb.bytes.length := by
  have hlt : skb.len < UInt32.size := lt_of_le_of_lt h.le (lt_trans c.sizeGoal_lt (by decide))
  rw [h.seq, UInt32.toNat_ofNat_of_lt' hlt, h.len]

/-! ### The main result -/

/-- **A message is built faithfully.**  For every message that is not empty, every positive `size_goal` and
every behaviour of the page fragment, when all allocations and copies succeed: the call returns the length of
the message after at most that many turns; it splices a list of segments onto `tx_wait_queue` that is not
empty and holds the message, in order; and no segment is empty or longer than `size_goal`, and `seq` is its
byte count. -/
theorem sendmsg_builds {psock : State} (intact : Bool) (hsock : s.broken = false)
    (hpsock : s.lastPsock = some psock) (hmsg : c.msg ≠ []) (hgoal : 0 < c.sizeGoal)
    (hs : Served c (.init c s) os) (hlen : c.msg.length ≤ os.length) :
    ∃ r rest, rakaiaSendmsg c s intact os = some (r, rest) ∧ r.ret = .ok c.msg.length ∧
      r.lastPsock = some (psock.append (r.spliced.map Seg.seq)) ∧ r.spliced ≠ [] ∧
      r.spliced.flatMap Seg.bytes = c.msg ∧
      ∀ skb ∈ r.spliced, skb.bytes ≠ [] ∧ skb.bytes.length ≤ c.sizeGoal ∧ skb.seq.toNat = skb.bytes.length := by
  obtain ⟨st, rest, hloop, hbuilt, hdone⟩ :=
    copyLoop_builds (built_init c s) (List.length_pos_iff.mpr hmsg) hgoal hs hlen
  have hbytes := hbuilt.bytes
  have hcopied := hbuilt.copied
  rw [hdone, List.append_nil] at hbytes
  rw [hdone, List.length_nil, Nat.add_zero] at hcopied
  refine ⟨splice psock st, rest, ?_, congrArg Except.ok hcopied, rfl, ?_, hbytes, ?_⟩
  · rw [rakaiaSendmsg, if_neg (by simp [hsock, hmsg]), hpsock, hloop]
  · intro hnil
    change st.curMsg = [] at hnil
    rw [hnil] at hbytes
    exact hmsg hbytes.symm
  · intro skb hskb
    have hsound := hbuilt.sound skb hskb
    have hlen' := hsound.len
    have hpos := hsound.pos
    have hle := hsound.le
    exact ⟨List.ne_nil_of_length_pos (by omega), by omega, hsound.seq_toNat⟩

/-- Three bytes are sent with a `size_goal` of two. -/
def twoSegments : Call := ⟨[7, 8, 9], 2, by decide, by decide⟩

/-- A socket whose page fragment has room. -/
def roomySock : Sock := ⟨false, none, some (.init 0), 0, ⟨7, 0, 32⟩⟩

/-- A turn in which everything succeeds and the page fragment stays where it is. -/
def stillTurn (pfrag : PageFrag) : Outcome := ⟨true, some 512, some pfrag, some pfrag, true, none, none⟩

theorem succeeds_stillTurn (h : 0 < st.pfrag.room) : Succeeds st (stillTurn st.pfrag) :=
  ⟨rfl, ⟨512, rfl⟩, ⟨st.pfrag, rfl, ⟨h, .inl ⟨rfl, le_rfl⟩⟩, st.pfrag, rfl, ⟨h, .inl ⟨rfl, le_rfl⟩⟩⟩, rfl, rfl⟩

/-- The message goes into a segment of two bytes and one of one byte. -/
theorem sendmsg_builds_two : ∃ r rest,
    rakaiaSendmsg twoSegments roomySock true
      [stillTurn ⟨7, 0, 32⟩, stillTurn ⟨7, 2, 30⟩, stillTurn ⟨7, 3, 29⟩] = some (r, rest) ∧
    r.spliced.map Seg.bytes = [[7, 8], [9]] ∧ r.spliced.flatMap Seg.bytes = [7, 8, 9] := by
  have hserved : Served twoSegments (.init twoSegments roomySock)
      [stillTurn ⟨7, 0, 32⟩, stillTurn ⟨7, 2, 30⟩, stillTurn ⟨7, 3, 29⟩] := by
    refine ⟨succeeds_stillTurn (by decide), fun st₁ h₁ => ?_⟩
    obtain rfl := Turn.again.inj h₁
    refine ⟨succeeds_stillTurn (by decide), fun st₂ h₂ => ?_⟩
    -- the second turn is the last one
    cases h₂
  have hpsock : roomySock.lastPsock = some (.init 0) := rfl
  obtain ⟨r, rest, hr, -, -, -, hbytes, -⟩ := sendmsg_builds true rfl hpsock (by decide) (by decide) hserved
    (by decide)
  have hsegs : (rakaiaSendmsg twoSegments roomySock true
      [stillTurn ⟨7, 0, 32⟩, stillTurn ⟨7, 2, 30⟩, stillTurn ⟨7, 3, 29⟩]).map (fun x => x.1.spliced.map Seg.bytes) =
      some [[7, 8], [9]] := rfl
  rw [hr] at hsegs
  exact ⟨r, rest, hr, Option.some.inj hsegs, hbytes⟩

end Rakaia.Tx.Sendmsg
