import Rakaia.Strp.Segmentation

/-! # What is handed on

Whatever the bytes are and whichever kernel calls fail, a message that the parser hands on lies in a buffer
whose counters are right, and starts inside the buffers that TCP presented (`sound_of_reach`).  This does not
depend on a framing rule, only on callbacks that leave `offset` as it is (`Steady`). -/

namespace Rakaia.Strp

open Lib

variable {τ : Type} {P : Parser τ} {maxMsgSize bound : ℕ}

/-- The callbacks leave `offset` as it is. -/
structure Steady (P : Parser τ) : Prop where
  parse : ∀ stm skb, (P.parse stm skb).1.offset = stm.offset
  accept : ∀ stm len, (P.accept stm len).offset = stm.offset

/-- The counters of the buffer are right, and the message starts before `bound`. -/
structure Head.Sound (bound : ℕ) (head : Head τ) : Prop where
  wf : head.skb.Wf
  offset : head.stm.offset < bound

/-- The message in progress is sound, and the next buffer goes behind its `frag_list`. -/
def Tidy (bound : ℕ) (strp : Strparser τ) : Prop :=
  ∀ head, strp.skbHead = some head →
    head.Sound bound ∧ ∀ slot, strp.skbNextp = some slot → head.skb.fragList.length ≤ slot

theorem tidy_of_none {strp : Strparser τ} (h : strp.skbHead = none) : Tidy bound strp := by
  intro head hh
  rw [h] at hh
  cases hh

theorem prepare_tidy {strp strp' : Strparser τ} {orig : SkBuff} {offset : ℕ} {o : Oracle}
    {r : Option (SkBuff × ℕ)} {e : List (Event τ)} (h : Tidy bound strp) (hw : orig.Wf) (ho : offset ≤ orig.len)
    (hp : prepare strp orig offset o = (strp', r, e)) :
    Tidy bound strp' ∧ messages e = [] ∧
      ∀ orig' offset', r = some (orig', offset') → orig'.Wf ∧ offset' ≤ orig'.len ∧ orig'.len ≤ orig.len ∧
        orig'.len - offset' = orig.len - offset := by
  unfold prepare at hp
  cases hh : strp.skbHead with
  | none =>
      simp only [hh] at hp
      obtain ⟨rfl, rfl, rfl⟩ := hp
      refine ⟨h, rfl, fun orig' offset' hr => ?_⟩
      obtain ⟨rfl, rfl⟩ := Prod.mk.inj (Option.some.inj hr)
      exact ⟨hw, ho, le_rfl, rfl⟩
  | some head =>
      obtain ⟨hsound, -⟩ := h head hh
      obtain ⟨hswf, hs0, -, hslen⟩ := source_spec hw ho
      simp only [hh] at hp
      generalize (if offset ≠ 0 then (orig.pull offset, 0) else (orig, 0)) = src at *
      have hsrc : ∀ orig' offset', some src = some (orig', offset') → orig'.Wf ∧ offset' ≤ orig'.len ∧
          orig'.len ≤ orig.len ∧ orig'.len - offset' = orig.len - offset := by
        intro orig' offset' hr
        obtain ⟨rfl, rfl⟩ := Prod.mk.inj (Option.some.inj hr)
        exact ⟨hswf, by omega, by omega, by omega⟩
      by_cases hfail : offset ≠ 0 ∧ (o.cloneOrig && o.pull) = false
      · rw [if_pos hfail] at hp
        obtain ⟨rfl, rfl, rfl⟩ := hp
        exact ⟨h, rfl, fun _ _ hr => by cases hr⟩
      rw [if_neg hfail] at hp
      cases hn : strp.skbNextp with
      | some slot =>
          simp only [hn] at hp
          obtain ⟨rfl, rfl, rfl⟩ := hp
          exact ⟨h, rfl, hsrc⟩
      | none =>
          simp only [hn] at hp
          split_ifs at hp with hun hfrag halloc
          · obtain ⟨rfl, rfl, rfl⟩ := hp
            exact ⟨h, rfl, fun _ _ hr => by cases hr⟩
          · obtain ⟨rfl, rfl, rfl⟩ := hp
            refine ⟨fun head' hh' => ?_, rfl, hsrc⟩
            obtain rfl := Option.some.inj hh'
            rw [List.isEmpty_iff] at hfrag
            exact ⟨hsound, fun slot _ => by rw [hfrag]; exact Nat.zero_le _⟩
          · obtain ⟨rfl, rfl, rfl⟩ := hp
            exact ⟨h, rfl, fun _ _ hr => by cases hr⟩
          · obtain ⟨rfl, rfl, rfl⟩ := hp
            refine ⟨fun head' hh' => ?_, rfl, hsrc⟩
            obtain rfl := Option.some.inj hh'
            refine ⟨⟨(SkBuff.wf_allocSkbForMsg hsound.wf).1, hsound.offset⟩, fun slot hs => ?_⟩
            obtain rfl := Option.some.inj hs
            exact le_rfl

theorem join_tidy [Inhabited τ] {strp strp' : Strparser τ} {skb : SkBuff} {start : ℕ} {o : Round} {head : Head τ}
    (h : Tidy bound strp) (hw : skb.Wf) (hs : start < bound)
    (hj : join strp skb start o = .ok (head, strp')) :
    head.Sound bound ∧ ∀ slot, strp'.skbNextp = some slot → head.skb.fragList.length ≤ slot := by
  unfold join at hj
  cases hh : strp.skbHead with
  | none =>
      simp only [hh] at hj
      obtain ⟨rfl, rfl⟩ := Prod.mk.inj (Except.ok.inj hj)
      exact ⟨⟨hw, hs⟩, fun slot hslot => by cases hslot⟩
  | some old =>
      obtain ⟨hsound, hslot⟩ := h old hh
      simp only [hh] at hj
      split_ifs at hj
      cases hn : strp.skbNextp with
      | none => rw [hn] at hj; cases hj
      | some slot =>
          rw [hn] at hj
          obtain ⟨rfl, rfl⟩ := Prod.mk.inj (Except.ok.inj hj)
          obtain ⟨hwf, -, hlen⟩ := SkBuff.wf_appendFrag hsound.wf hw (hslot slot hn)
          refine ⟨⟨hwf, hsound.offset⟩, fun slot' hs' => ?_⟩
          obtain rfl := Option.some.inj hs'
          rw [hlen]
          exact Nat.succ_le_succ (hslot slot hn)

/-- What is known about the length does not move the message. -/
theorem measure_offset (hP : Steady P) (maxMsgSize : ℕ) (head : Head τ) (skb : SkBuff) :
    (∀ stm, measure P maxMsgSize head skb = .needHeader stm → stm.offset = head.stm.offset) ∧
    ∀ stm, measure P maxMsgSize head skb = .known stm → stm.offset = head.stm.offset := by
  unfold measure
  dsimp only
  constructor
  · intro stm hm
    split_ifs at hm
    obtain rfl := Measured.needHeader.inj hm
    exact hP.parse _ _
  · intro stm hm
    split_ifs at hm
    · obtain rfl := Measured.known.inj hm
      rfl
    · obtain rfl := Measured.known.inj hm
      rw [hP.accept, hP.parse]

/-- The parser after a round, and what the round hands on. -/
def Outcome.Sound (bound : ℕ) : Outcome τ → Prop
  | .leave strp _ e | .again strp _ e => Tidy bound strp ∧ ∀ head ∈ messages e, head.Sound bound

theorem round_sound [Inhabited τ] (hP : Steady P) {strp : Strparser τ} (h : Tidy bound strp) {orig : SkBuff}
    (hw : orig.Wf) {origOffset eaten : ℕ} (hlt : origOffset + eaten < bound) (maxMsgSize origLen : ℕ) (o : Round) :
    (round P maxMsgSize orig origOffset origLen o strp eaten).Sound bound := by
  have hnone : ∀ head, head ∈ messages ([] : List (Event τ)) → head.Sound bound := nofun
  unfold round
  by_cases hclone : o.clone = false
  · rw [if_pos hclone]
    exact ⟨h, hnone⟩
  rw [if_neg hclone]
  cases hj : join strp orig (origOffset + eaten) o with
  | error e =>
      refine ⟨h, fun head hm => ?_⟩
      unfold join at hj
      split at hj
      · cases hj
      · split_ifs at hj
        · obtain rfl := Except.error.inj hj
          exact hnone head hm
        · split at hj
          · obtain rfl := Except.error.inj hj
            exact hnone head hm
          · cases hj
  | ok r =>
      obtain ⟨head, strp'⟩ := r
      obtain ⟨hsound, hslot⟩ := join_tidy h hw hlt hj
      obtain ⟨hneed, hknown⟩ := measure_offset hP maxMsgSize head orig
      -- a head whose buffer is that of the joined one and which starts at the same place
      have hstored : ∀ (strp'' : Strparser τ) (stm : Stm τ), stm.offset = head.stm.offset →
          strp''.skbHead = some { head with stm } → strp''.skbNextp = strp'.skbNextp → Tidy bound strp'' := by
        intro strp'' stm hoff hhead hnext head' hh'
        obtain rfl := Option.some.inj (hhead.symm.trans hh')
        exact ⟨⟨hsound.wf, by rw [hoff]; exact hsound.offset⟩, fun slot hs => hslot slot (hnext ▸ hs)⟩
      have hwarn : ∀ b, ∀ head ∈ messages (warnOn b : List (Event τ)), head.Sound bound := by
        intro b head hm
        rw [messages_warnOn] at hm
        cases hm
      dsimp only
      cases hm : measure P maxMsgSize head orig with
      | bad err i u => exact ⟨tidy_of_none rfl, fun head hm => hnone head hm⟩
      | needHeader stm =>
          refine ⟨?_, hwarn _⟩
          exact hstored _ { stm with accumLen := stm.accumLen + (origLen - eaten) } (hneed stm hm) rfl rfl
      | known stm =>
          have hoff := hknown stm hm
          dsimp only
          split_ifs
          · refine ⟨?_, hnone⟩
            exact hstored _ { stm with accumLen := stm.accumLen + (origLen - eaten) } hoff rfl rfl
          · refine ⟨?_, hwarn _⟩
            exact hstored _ { stm with accumLen := stm.accumLen + (origLen - eaten) } hoff rfl rfl
          · refine ⟨tidy_of_none rfl, fun head' hm' => ?_⟩
            rw [messages_append, messages_warnOn] at hm'
            obtain rfl := List.mem_singleton.mp hm'
            exact ⟨hsound.wf, by rw [hoff]; exact hsound.offset⟩

variable [Inhabited τ]

theorem loop_sound (hP : Steady P) {orig : SkBuff} (hw : orig.Wf) {origOffset origLen : ℕ}
    (hlen : origOffset + origLen ≤ bound) (o : ℕ → Round) (fuel : ℕ) :
    ∀ {strp strp' : Strparser τ} {eaten eaten' : ℕ} {e : List (Event τ)}, Tidy bound strp →
      loop P maxMsgSize orig origOffset origLen o fuel strp eaten = some (strp', eaten', e) →
      Tidy bound strp' ∧ ∀ head ∈ messages e, head.Sound bound := by
  induction fuel with
  | zero =>
      intro strp strp' eaten eaten' e h hl
      rw [loop] at hl
      split_ifs at hl
      obtain ⟨rfl, rfl, rfl⟩ := hl
      exact ⟨h, by simp [messages]⟩
  | succ fuel ih =>
      intro strp strp' eaten eaten' e h hl
      rw [loop] at hl
      by_cases hend : origLen ≤ eaten
      · rw [if_pos hend] at hl
        obtain ⟨rfl, rfl, rfl⟩ := hl
        exact ⟨h, by simp [messages]⟩
      rw [if_neg hend] at hl
      have hround := round_sound hP h hw (show origOffset + eaten < bound by omega) maxMsgSize origLen (o fuel)
      cases hr : round P maxMsgSize orig origOffset origLen (o fuel) strp eaten with
      | leave strp₁ eaten₁ e₁ =>
          simp only [hr] at hl hround
          obtain ⟨rfl, rfl, rfl⟩ := hl
          exact hround
      | again strp₁ eaten₁ e₁ =>
          simp only [hr, Option.map_eq_some_iff, Prod.exists, Prod.mk.injEq] at hl hround
          obtain ⟨strp₂, eaten₂, e₂, hl, rfl, rfl, rfl⟩ := hl
          obtain ⟨htidy, hrest⟩ := ih hround.1 hl
          refine ⟨htidy, fun head hm => ?_⟩
          rw [messages_append] at hm
          exact (List.mem_append.mp hm).elim (hround.2 head) (hrest head)

/-- A call of `__strp_recv` on a buffer of at most `bound` bytes. -/
theorem step_sound (hP : Steady P) {s s' : State τ} {a : Act} {e : List (Event τ)} (h : Tidy bound s.strp)
    (hw : a.skb.Wf) (ho : a.offset ≤ a.skb.len) (hlen : a.skb.len ≤ bound)
    (hs : step P maxMsgSize s a = some (s', e)) : Tidy bound s'.strp ∧ ∀ head ∈ messages e, head.Sound bound := by
  unfold step strpRecv at hs
  obtain ⟨strp₁, r, e₁, hprep⟩ : ∃ strp₁ r e₁, prepare s.strp a.skb a.offset a.oracle = (strp₁, r, e₁) :=
    ⟨_, _, _, rfl⟩
  obtain ⟨htidy, he₁, hsrc⟩ := prepare_tidy h hw ho hprep
  rw [hprep] at hs
  cases r with
  | none =>
      simp only [Option.map_some, Option.some.injEq, Prod.mk.injEq] at hs
      obtain ⟨rfl, rfl⟩ := hs
      exact ⟨htidy, by rw [he₁]; exact nofun⟩
  | some src =>
      obtain ⟨orig, offset⟩ := src
      obtain ⟨hwf, hoff, hle, hrest⟩ := hsrc orig offset rfl
      simp only [Option.map_map, Option.map_eq_some_iff, Prod.exists] at hs
      obtain ⟨strp₂, eaten, e₂, hloop, heq⟩ := hs
      obtain ⟨rfl, rfl⟩ := Prod.mk.inj heq
      obtain ⟨htidy₂, hmsgs⟩ := loop_sound hP hwf (by omega) a.oracle.round _ htidy hloop
      refine ⟨htidy₂, fun head hm => ?_⟩
      rw [messages_append, he₁] at hm
      exact hmsgs head hm

/-- TCP presents buffers of at most `bound` bytes. -/
def Presents.Within (bound : ℕ) (a : Act) : Prop := a.skb.Wf ∧ a.offset ≤ a.skb.len ∧ a.skb.len ≤ bound

/-- **Everything handed on is sound**, in every run on buffers of at most `bound` bytes. -/
theorem sound_of_reach (hP : Steady P) {G : State τ → Act → Prop} (hG : ∀ s a, G s a → Presents.Within bound a)
    {s : State τ} {es : List (Event τ)} (h : (machine P maxMsgSize).Reach G s es) :
    Tidy bound s.strp ∧ ∀ head ∈ messages es, head.Sound bound := by
  refine h.invariant (P := fun s es => Tidy bound s.strp ∧ ∀ head ∈ messages es, head.Sound bound)
    ⟨tidy_of_none rfl, nofun⟩ ?_
  intro s es a s' e _ ih hg hs
  obtain ⟨hw, ho, hlen⟩ := hG s a hg
  obtain ⟨htidy, hmsgs⟩ := step_sound hP ih.1 hw ho hlen hs
  refine ⟨htidy, fun head hm => ?_⟩
  rw [messages_append] at hm
  exact (List.mem_append.mp hm).elim (ih.2 head) (hmsgs head)

/-! ### Messages of a stream -/

/-- A message that the parser has cut off a stream: it is one of the stream, it lies in its buffer, and the fields of
its `_strp_msg` are right. -/
structure Cut (bound : ℕ) (ext : List UInt8 → τ) (msgs : List (List UInt8)) (head : Head τ) : Prop where
  mem : head.message ∈ msgs
  fullLen : head.stm.fullLen = head.message.length
  ext : head.stm.ext = ext head.message
  wf : head.skb.Wf
  offset : head.stm.offset < bound

omit [Inhabited τ] in
theorem Cut.inside {ext : List UInt8 → τ} {msgs : List (List UInt8)} {head : Head τ}
    (h : Cut bound ext msgs head) (hpos : 0 < head.message.length) :
    head.stm.offset + head.stm.fullLen ≤ head.skb.bytes.length := by
  have hlen := h.fullLen
  have hpos' := hpos
  rw [Head.message, List.length_take, List.length_drop] at hlen hpos'
  omega

theorem cut_of_reach {F : Framing UInt8} {ext : List UInt8 → τ} (hP : Steady P)
    (hF : Follows P maxMsgSize F ext) {msgs : List (List UInt8)} (hv : Valid F maxMsgSize msgs) {s : State τ}
    {es : List (Event τ)}
    (h : (machine P maxMsgSize).Reach (fun s a => Presents msgs s a ∧ a.skb.len < bound) s es) {head : Head τ}
    (hm : head ∈ messages es) : Cut bound ext msgs head := by
  have hsound := (sound_of_reach hP (fun s a hg => ⟨hg.1.wf, hg.1.offset_le, hg.2.le⟩) h).2 head hm
  have hd := delivered_of_reach hF hv (h.mono (fun _ _ _ _ hg => hg.1))
  have hdig : digest head ∈ (wholeIn msgs s.copied).map (expected ext) := by
    rw [← hd]
    exact List.mem_map_of_mem hm
  obtain ⟨m, hm', heq⟩ := List.mem_map.mp hdig
  simp only [expected, digest, Prod.mk.injEq] at heq
  obtain ⟨rfl, hlen, hext⟩ := heq
  exact ⟨(isPrefix_wholeIn _ _).subset hm', hlen.symm, hext.symm, hsound.wf, hsound.offset⟩

end Rakaia.Strp
