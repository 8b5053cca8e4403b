import Mathlib.Data.List.Perm.Subperm
import Rakaia.H2.State

/-! # Reassembly of streams

The abstract view of the receive path is who holds which frames: a stream holds the frames that
arrived since its last message went up, a message that went up holds its frames until it is
received.  `Spec.of` computes this from the history of a run.  `Holds` relates it to the heap and
the stream table: every holder's frames are a chain through `strp_next` in their order of arrival,
chains share no buffer, and the table has one entry for each stream that holds frames.  Every step
of the receive path keeps the relation (`holds_of_reach`), whatever the hash function does. -/

namespace Rakaia.H2

open Lib

/-! ### The abstract view -/

/-- A frame and the address of its buffer. -/
abbrev Frame := ℕ × Skb

/-- Who holds frames. -/
inductive Holder where
  | stream (streamId : ℕ)
  /-- A message that went up, named by the address of its first frame. -/
  | message (head : ℕ)
deriving DecidableEq, Repr

/-- The frames that each holder has, in order of arrival. -/
abbrev Spec := Holder → List Frame

/-- The address of the first frame. -/
def headAddr (fs : List Frame) : ℕ := (fs.head?.map Prod.fst).getD 0

namespace Spec

variable (sp : Spec)

/-- A frame arrives on its stream. -/
def add (f : Frame) : Spec :=
  Function.update sp (.stream f.2.cb.streamId) (sp (.stream f.2.cb.streamId) ++ [f])

/-- The frames of a stream go up as a message. -/
def flush (sid : ℕ) : Spec :=
  Function.update (Function.update sp (.stream sid) []) (.message (headAddr (sp (.stream sid))))
    (sp (.stream sid))

def step : Event → Spec
  | .frame a skb =>
      if skb.carried then
        if skb.ends then (sp.add (a, skb)).flush skb.cb.streamId else sp.add (a, skb)
      else sp
  | .returned head _ => Function.update sp (.message head) []
  | .rcvMsg _ | .freed _ => sp

/-- Who holds which frames after a history. -/
def of (es : List Event) : Spec := es.foldl step (fun _ => [])

theorem of_append (es es' : List Event) : of (es ++ es') = es'.foldl step (of es) := List.foldl_append

end Spec

/-- The stored frame of a stream whose arrival the event is. -/
def Event.frameOf? (sid : ℕ) : Event → Option Frame
  | .frame a skb => if skb.carried ∧ skb.cb.streamId = sid then some (a, skb) else none
  | _ => none

/-- The stored frames of a stream, in order of arrival. -/
def framesOf (sid : ℕ) (es : List Event) : List Frame := es.filterMap (Event.frameOf? sid)

/-- The frames behind the last one that ends a message. -/
def sinceLast (fs : List Frame) : List Frame := (fs.reverse.takeWhile (fun f => !f.2.ends)).reverse

theorem sinceLast_append (fs : List Frame) (f : Frame) :
    sinceLast (fs ++ [f]) = if f.2.ends then [] else sinceLast fs ++ [f] := by
  cases h : f.2.ends <;> simp [sinceLast, h]

/-- A stream holds its frames since the last one that ended a message. -/
theorem Spec.of_stream (sid : ℕ) (es : List Event) :
    Spec.of es (.stream sid) = sinceLast (framesOf sid es) := by
  induction es using List.reverseRecOn with
  | nil => rfl
  | append_singleton es e ih =>
      rw [Spec.of_append, List.foldl_cons, List.foldl_nil, framesOf, List.filterMap_append, ← framesOf]
      cases e with
      | frame a skb =>
          by_cases hc : skb.carried = true
          · by_cases hs : skb.cb.streamId = sid
            · subst hs
              have hf : List.filterMap (Event.frameOf? skb.cb.streamId) [.frame a skb] = [(a, skb)] := by
                simp [Event.frameOf?, hc]
              rw [hf, sinceLast_append, ← ih]
              by_cases he : skb.ends = true <;> simp [Spec.step, hc, he, Spec.flush, Spec.add]
            · have hs' : sid ≠ skb.cb.streamId := fun h => hs h.symm
              by_cases he : skb.ends = true <;>
                simp [Spec.step, hc, he, Spec.flush, Spec.add, Event.frameOf?, hs, hs', ih]
          · simp [Spec.step, hc, Event.frameOf?, ih]
      | rcvMsg | freed | returned => simp [Spec.step, List.filterMap_cons, Event.frameOf?, ih]

/-! ### The relation -/

/-- A complete frame in a buffer laid out as the kernel does. -/
structure Skb.Complete (skb : Skb) : Prop where
  laid : skb.buf.Laid
  inside : skb.cb.offset + skb.cb.fullLen ≤ skb.buf.bytes.length
  header : 9 ≤ skb.cb.fullLen

/-- The buffer still holds the frame that arrived in it: links, the pointer of the scheduler and
the counters of the buffer may have changed. -/
structure Intact (now arrived : Skb) : Prop where
  fullLen : now.cb.fullLen = arrived.cb.fullLen
  offset : now.cb.offset = arrived.cb.offset
  bytes : now.buf.bytes = arrived.buf.bytes
  laid : now.buf.Laid

/-- The heap, the stream table and the messages that went up agree with the abstract view. -/
structure Holds (hash : ℕ → Fin streamHashSize) (s : State) (sp : Spec) : Prop where
  chains : Chains s.strpNext (fun o => (sp o).map Prod.fst)
  allocated : ∀ o, ∀ f ∈ sp o, f.1 < s.brk
  complete : ∀ o, ∀ f ∈ sp o, f.2.Complete
  intact : ∀ o, ∀ f ∈ sp o, Intact (s.heap f.1) f.2
  table : Buckets.Wf hash StreamBuffer.streamId s.streamStorage
  lookup : ∀ sid, streamLookup hash s sid = (sp (.stream sid)).head?.map (fun f => ⟨sid, f.1⟩)
  upper : ∀ h, h ∈ s.upper ↔ sp (.message h) ≠ []
  upperNodup : s.upper.Nodup
  heads : ∀ h, sp (.message h) ≠ [] → headAddr (sp (.message h)) = h

section holds

variable {hash : ℕ → Fin streamHashSize} {s s' : State} {sp : Spec}

/-- `Holds` reads only the heap below `brk`, the table and the messages that went up. -/
theorem Holds.congr (h : Holds hash s sp) (hb : s.brk ≤ s'.brk) (hh : ∀ a < s.brk, s'.heap a = s.heap a)
    (ht : s'.streamStorage = s.streamStorage) (hu : s'.upper = s.upper) : Holds hash s' sp where
  chains := by
    refine h.chains.congr ?_
    intro o a ha
    obtain ⟨f, hf, rfl⟩ := List.mem_map.mp ha
    rw [State.strpNext, hh _ (h.allocated o f hf), State.strpNext]
  allocated o f hf := lt_of_lt_of_le (h.allocated o f hf) hb
  complete := h.complete
  intact o f hf := by rw [hh _ (h.allocated o f hf)]; exact h.intact o f hf
  table := by rw [ht]; exact h.table
  lookup sid := by rw [streamLookup, ht]; exact h.lookup sid
  upper := by rw [hu]; exact h.upper
  upperNodup := by rw [hu]; exact h.upperNodup
  heads := h.heads

/-- A frame in a new buffer is held by nobody yet. -/
theorem Holds.alloc (h : Holds hash s sp) (skb : Skb) :
    Holds hash (s.alloc skb) sp ∧ ∀ o, s.brk ∉ (sp o).map Prod.fst := by
  refine ⟨h.congr (Nat.le_succ _) ?_ rfl rfl, ?_⟩
  · intro a ha
    exact Function.update_of_ne (by omega) ..
  · intro o hm
    obtain ⟨f, hf, he⟩ := List.mem_map.mp hm
    exact absurd (h.allocated o f hf) (by omega)

/-- There is fuel for every chain. -/
theorem Holds.length_le (h : Holds hash s sp) (o : Holder) : (sp o).length ≤ s.brk := by
  have hsub : (sp o).map Prod.fst ⊆ List.range s.brk := by
    intro a ha
    obtain ⟨f, hf, rfl⟩ := List.mem_map.mp ha
    exact List.mem_range.mpr (h.allocated o f hf)
  simpa using ((h.chains.nodup o).subperm hsub).length_le

theorem Holds.follow (h : Holds hash s sp) {β : Type} (o : Holder) (f : β → ℕ → β) (acc : β) :
    follow s.strpNext f s.brk acc ((sp o).map Prod.fst).head? = some (((sp o).map Prod.fst).foldl f acc) :=
  follow_linked (h.chains.linked o) f acc (by simpa using h.length_le o)

/-- The chain of a message starts at its head. -/
theorem Holds.head?_message (h : Holds hash s sp) {head : ℕ} (hne : sp (.message head) ≠ []) :
    ((sp (.message head)).map Prod.fst).head? = some head := by
  have hhead := h.heads head hne
  obtain ⟨f, fs, hsp⟩ := List.exists_cons_of_ne_nil hne
  rw [hsp] at hhead ⊢
  simpa [headAddr] using hhead

/-! ### Changes of the heap -/

/-- Every frame that is intact in its buffer stays so. -/
def Keeps (s s' : State) : Prop := ∀ a skb, Intact (s.heap a) skb → Intact (s'.heap a) skb

theorem Keeps.trans {s₁ s₂ s₃ : State} (h : Keeps s₁ s₂) (h' : Keeps s₂ s₃) : Keeps s₁ s₃ :=
  fun a skb hi => h' a skb (h a skb hi)

theorem keeps_setSkb {a : ℕ} {x : Skb} (hx : ∀ skb, Intact (s.heap a) skb → Intact x skb) :
    Keeps s (s.setSkb a x) := by
  intro b skb hi
  by_cases hb : b = a
  · subst hb
    simpa [State.setSkb] using hx skb hi
  · simpa [State.setSkb, hb] using hi

theorem keeps_setNext (s : State) (a : ℕ) (n : Option ℕ) : Keeps s (s.setNext a n) :=
  keeps_setSkb (fun _ hi => ⟨hi.fullLen, hi.offset, hi.bytes, hi.laid⟩)

theorem strpNext_setSkb (s : State) (a : ℕ) (x : Skb) :
    (s.setSkb a x).strpNext = Function.update s.strpNext a x.cb.next := by
  funext b
  by_cases hb : b = a
  · subst hb; simp [State.strpNext, State.setSkb]
  · simp [State.strpNext, State.setSkb, hb]

theorem strpNext_setNext (s : State) (a : ℕ) (n : Option ℕ) :
    (s.setNext a n).strpNext = Function.update s.strpNext a n := strpNext_setSkb s a _

/-- A change of a buffer other than of its link. -/
theorem strpNext_setSkb_of_eq {a : ℕ} {x : Skb} (hx : x.cb.next = (s.heap a).cb.next) :
    (s.setSkb a x).strpNext = s.strpNext := by
  rw [strpNext_setSkb, hx]
  exact Function.update_eq_self a s.strpNext

/-! ### A frame is stored -/

theorem Spec.map_add (sp : Spec) (f : Frame) : (fun o => (sp.add f o).map Prod.fst) =
    Function.update (fun o => (sp o).map Prod.fst) (.stream f.2.cb.streamId)
      ((sp (.stream f.2.cb.streamId)).map Prod.fst ++ [f.1]) := by
  funext o
  by_cases ho : o = .stream f.2.cb.streamId
  · subst ho; simp [Spec.add]
  · simp [Spec.add, ho]

theorem Spec.mem_add {sp : Spec} {f g : Frame} {o : Holder} (hg : g ∈ sp.add f o) : g ∈ sp o ∨ g = f := by
  by_cases ho : o = .stream f.2.cb.streamId
  · subst ho
    simpa [Spec.add] using hg
  · rw [Spec.add, Function.update_of_ne ho] at hg
    exact Or.inl hg

theorem Holds.add (h : Holds hash s sp) {a : ℕ} {f : Skb} (ha : a < s.brk) (hf : f.Complete)
    (hi : Intact (s.heap a) f) (hb : s'.brk = s.brk) (hu : s'.upper = s.upper) (hk : Keeps s s')
    (hc : Chains s'.strpNext (fun o => (sp.add (a, f) o).map Prod.fst))
    (ht : Buckets.Wf hash StreamBuffer.streamId s'.streamStorage)
    (hl : ∀ sid, streamLookup hash s' sid =
      (sp.add (a, f) (.stream sid)).head?.map (fun g => ⟨sid, g.1⟩)) :
    Holds hash s' (sp.add (a, f)) where
  chains := hc
  allocated o g hg := by
    rw [hb]
    rcases Spec.mem_add hg with hg | rfl
    · exact h.allocated o g hg
    · exact ha
  complete o g hg := by
    rcases Spec.mem_add hg with hg | rfl
    · exact h.complete o g hg
    · exact hf
  intact o g hg := by
    rcases Spec.mem_add hg with hg | rfl
    · exact hk _ _ (h.intact o g hg)
    · exact hk _ _ hi
  table := ht
  lookup := hl
  upper k := by rw [hu, h.upper k]; simp [Spec.add]
  upperNodup := by rw [hu]; exact h.upperNodup
  heads k := by simpa [Spec.add] using h.heads k

theorem Spec.head?_add {sp : Spec} {f : Frame} {sid : ℕ} :
    (sp.add f (.stream sid)).head? = if f.2.cb.streamId = sid then (sp (.stream sid)).head?.or (some f)
      else (sp (.stream sid)).head? := by
  by_cases hs : f.2.cb.streamId = sid
  · subst hs; simp [Spec.add]
  · have hs' : sid ≠ f.2.cb.streamId := fun h => hs h.symm
    simp [Spec.add, hs, hs']

/-- The stream has frames: the new one is linked behind the last of them. -/
theorem addSkbsToHead_spec (h : Holds hash s sp) {a : ℕ} {f : Skb} {g : Frame} {rest : List Frame}
    (ha : a < s.brk) (hfresh : ∀ o, a ∉ (sp o).map Prod.fst) (hf : f.Complete)
    (hi : Intact (s.heap a) f) (hsp : sp (.stream f.cb.streamId) = g :: rest) :
    ∃ s', addSkbsToHead s g.1 a = some s' ∧ Holds hash s' (sp.add (a, f)) := by
  have hlinked := h.chains.linked (.stream f.cb.streamId)
  have hlen := h.length_le (.stream f.cb.streamId)
  simp only [hsp, List.map_cons, List.length_cons] at hlinked hlen
  obtain ⟨last, hlast⟩ : ∃ z, (rest.map Prod.fst).foldl (fun _ b => b) g.1 = z := ⟨_, rfl⟩
  have hz : ((sp (.stream f.cb.streamId)).map Prod.fst).getLast? = some last := by
    rw [hsp, List.map_cons, getLast?_cons_eq_foldl, hlast]
  have hfollow : follow s.strpNext (fun _ a => a) s.brk g.1 (s.strpNext g.1) = some last := by
    rw [hlinked.tail.1, follow_linked hlinked.tail.2 _ _ (by rw [List.length_map]; omega), hlast]
  refine ⟨_, by rw [addSkbsToHead, hfollow], ?_⟩
  refine h.add ha hf hi rfl rfl ?_ ?_ h.table ?_
  · refine ((keeps_setNext s last (some a)).trans (keeps_setNext _ a none)).trans (keeps_setSkb ?_)
    exact fun skb hi => ⟨hi.fullLen, hi.offset, by rw [SkBuff.grow_bytes]; exact hi.bytes, hi.laid.grow _⟩
  · rw [strpNext_setSkb_of_eq, strpNext_setNext, strpNext_setNext, Spec.map_add]
    · exact h.chains.snoc (k := .stream f.cb.streamId) hz hfresh
    · rfl
  · intro sid
    rw [Spec.head?_add]
    split_ifs with hs
    · subst hs
      rw [hsp, List.head?_cons, Option.some_or, ← List.head?_cons (l := rest), ← hsp]
      exact h.lookup _
    · exact h.lookup sid

/-- The stream has no frames: the new one becomes its head. -/
theorem createStreamHead_spec (h : Holds hash s sp) {a : ℕ} {f : Skb} {alloc : Alloc}
    (ha : a < s.brk) (hfresh : ∀ o, a ∉ (sp o).map Prod.fst) (hf : f.Complete)
    (hi : Intact (s.heap a) f) (hsp : sp (.stream f.cb.streamId) = []) (hal : alloc.stream = true) :
    ∃ s', createStreamHead hash s f.cb.streamId a alloc = some s' ∧ Holds hash s' (sp.add (a, f)) := by
  have hnone : streamLookup hash s f.cb.streamId = none := by rw [h.lookup, hsp]; rfl
  refine ⟨_, by rw [createStreamHead, if_pos hal], ?_⟩
  refine h.add ha hf hi rfl rfl (keeps_setNext s a none) ?_ (h.table.add hnone) ?_
  · have hnext : ∀ st : Buckets (Fin streamHashSize) StreamBuffer,
        ({ s.setNext a none with streamStorage := st } : State).strpNext = Function.update s.strpNext a none :=
      fun _ => strpNext_setNext s a none
    rw [hnext, Spec.map_add, hsp]
    exact h.chains.single hfresh
  · intro sid
    rw [streamLookup, Buckets.lookup_add, Spec.head?_add]
    split_ifs with hs
    · subst hs
      rw [hsp]
      rfl
    · exact h.lookup sid

theorem addSkbToStream_spec (h : Holds hash s sp) {a : ℕ} {f : Skb} {alloc : Alloc}
    (ha : a < s.brk) (hfresh : ∀ o, a ∉ (sp o).map Prod.fst) (hf : f.Complete)
    (hi : Intact (s.heap a) f) (hal : sp (.stream f.cb.streamId) = [] → alloc.stream = true) :
    ∃ s', addSkbToStream hash s f.cb.streamId a alloc = .ok s' ∧ Holds hash s' (sp.add (a, f)) := by
  cases hsp : sp (.stream f.cb.streamId) with
  | nil =>
      obtain ⟨s', hs', h'⟩ := createStreamHead_spec h ha hfresh hf hi hsp (hal hsp)
      have hl : streamLookup hash s f.cb.streamId = none := by rw [h.lookup, hsp]; rfl
      exact ⟨s', by rw [addSkbToStream, hl, hs'], h'⟩
  | cons g rest =>
      obtain ⟨s', hs', h'⟩ := addSkbsToHead_spec h ha hfresh hf hi hsp
      have hl : streamLookup hash s f.cb.streamId = some ⟨f.cb.streamId, g.1⟩ := by
        rw [h.lookup, hsp]; rfl
      exact ⟨s', by rw [addSkbToStream, hl]; dsimp only; rw [hs'], h'⟩

/-! ### A message goes up -/

theorem Spec.map_flush (sp : Spec) (sid : ℕ) : (fun o => (sp.flush sid o).map Prod.fst) =
    Function.update (Function.update (fun o => (sp o).map Prod.fst) (.stream sid) [])
      (.message (headAddr (sp (.stream sid)))) ((sp (.stream sid)).map Prod.fst) := by
  funext o
  by_cases ho : o = .message (headAddr (sp (.stream sid)))
  · subst ho; simp [Spec.flush]
  · by_cases ho' : o = .stream sid
    · subst ho'; simp [Spec.flush]
    · simp [Spec.flush, ho, ho']

theorem Spec.mem_flush {sp : Spec} {sid : ℕ} {g : Frame} {o : Holder} (hg : g ∈ sp.flush sid o) :
    ∃ o', g ∈ sp o' := by
  by_cases ho : o = .message (headAddr (sp (.stream sid)))
  · subst ho
    exact ⟨.stream sid, by simpa [Spec.flush] using hg⟩
  · by_cases ho' : o = .stream sid
    · subst ho'
      simp [Spec.flush] at hg
    · exact ⟨o, by simpa [Spec.flush, ho, ho'] using hg⟩

theorem Spec.flush_message_self (sp : Spec) (sid : ℕ) :
    sp.flush sid (.message (headAddr (sp (.stream sid)))) = sp (.stream sid) := by
  simp [Spec.flush]

theorem Spec.flush_message_of_ne (sp : Spec) (sid : ℕ) {k : ℕ} (hk : k ≠ headAddr (sp (.stream sid))) :
    sp.flush sid (.message k) = sp (.message k) := by
  simp [Spec.flush, hk]

theorem Spec.flush_stream (sp : Spec) (sid k : ℕ) :
    sp.flush sid (.stream k) = if sid = k then [] else sp (.stream k) := by
  by_cases hk : sid = k
  · simp [Spec.flush, hk]
  · simp [Spec.flush, hk, Ne.symm hk]

/-- The head of a chain that is stored has not gone up. -/
theorem Holds.head_notMem_upper (h : Holds hash s sp) {sid : ℕ} {g : Frame} {rest : List Frame}
    (hsp : sp (.stream sid) = g :: rest) : g.1 ∉ s.upper := by
  intro hm
  have hm' := (h.upper g.1).mp hm
  obtain ⟨g', rest', hsp'⟩ := List.exists_cons_of_ne_nil hm'
  have hg' : g'.1 = g.1 := by simpa [hsp', headAddr] using h.heads g.1 hm'
  have : Holder.stream sid = .message g.1 :=
    h.chains.disjoint _ _ g.1 (by simp [hsp]) (by simp [hsp', hg'])
  cases this

/-- A stream with frames: its chain goes up, and its entry is deleted. -/
theorem flushStream_spec (h : Holds hash s sp) (sid : ℕ) (hne : sp (.stream sid) ≠ []) :
    ∃ s', flushStream hash s sid = (s', [.rcvMsg (headAddr (sp (.stream sid)))]) ∧
      Holds hash s' (sp.flush sid) := by
  obtain ⟨g, rest, hsp⟩ := List.exists_cons_of_ne_nil hne
  have hhead : headAddr (sp (.stream sid)) = g.1 := by rw [hsp]; rfl
  have hl : streamLookup hash s sid = some ⟨sid, g.1⟩ := by rw [h.lookup, hsp]; rfl
  have hl' : streamLookup hash (rcvMsg s g.1) sid = some ⟨sid, g.1⟩ := hl
  have hmem : (⟨sid, g.1⟩ : StreamBuffer) ∈ s.streamStorage (hash sid) := (Buckets.mem_of_lookup hl).1
  refine ⟨_, by rw [flushStream, hl]; dsimp only; rw [deleteStream, hl', hhead], ?_⟩
  have hnext : (rcvMsg s g.1).strpNext = s.strpNext := by
    refine strpNext_setSkb_of_eq (s := s) ?_
    rfl
  have hkeep : Keeps s (rcvMsg s g.1) :=
    keeps_setSkb (s := s) (fun _ hi => ⟨hi.fullLen, hi.offset, hi.bytes, hi.laid⟩)
  constructor
  · rw [Spec.map_flush]
    have := h.chains.move (.stream sid) (.message (headAddr (sp (.stream sid)))) (by simp)
    exact this.congr (fun _ a _ => congrFun hnext a)
  · intro o f hf
    obtain ⟨o', hf'⟩ := Spec.mem_flush hf
    exact h.allocated o' f hf'
  · intro o f hf
    obtain ⟨o', hf'⟩ := Spec.mem_flush hf
    exact h.complete o' f hf'
  · intro o f hf
    obtain ⟨o', hf'⟩ := Spec.mem_flush hf
    exact hkeep _ _ (h.intact o' f hf')
  · exact h.table.del _
  · intro k
    have hdel := h.table.lookup_del (v := ⟨sid, g.1⟩) hmem k
    rw [Spec.flush_stream]
    by_cases hk : sid = k
    · rw [if_pos hk]
      exact hdel.trans (if_pos hk)
    · rw [if_neg hk]
      exact (hdel.trans (if_neg hk)).trans (h.lookup k)
  · intro k
    by_cases hk : k = g.1
    · subst hk
      have hmsg := sp.flush_message_self sid
      rw [hhead] at hmsg
      simpa [rcvMsg, hmsg] using hne
    · simpa [rcvMsg, sp.flush_message_of_ne sid (hhead ▸ hk), hk] using h.upper k
  · refine List.nodup_append.mpr ⟨h.upperNodup, List.nodup_singleton _, ?_⟩
    rintro a ha b hb rfl
    obtain rfl := List.mem_singleton.mp hb
    exact h.head_notMem_upper hsp ha
  · intro k hk
    by_cases hkg : k = headAddr (sp (.stream sid))
    · rw [hkg, Spec.flush_message_self]
    · rw [Spec.flush_message_of_ne sp sid hkg] at hk ⊢
      exact h.heads k hk

/-! ### Every step keeps the relation -/

/-- The frames that go up as a message when `skb` arrives in the buffer `a`. -/
def Spec.message (sp : Spec) (a : ℕ) (skb : Skb) : List Frame :=
  sp (.stream skb.cb.streamId) ++ [(a, skb)]

/-- What `handle_h2_frame` does with a frame that it stores. -/
theorem storeFrame_spec (h : Holds hash s sp) {a : ℕ} (alloc : Alloc) (ha : a < s.brk)
    (hfresh : ∀ o, a ∉ (sp o).map Prod.fst) (hf : (s.heap a).Complete)
    (hal : sp (.stream (s.heap a).cb.streamId) = [] → alloc.stream = true) :
    ∃ s', storeFrame hash s a alloc = some (s', if (s.heap a).ends then
        [.rcvMsg (headAddr (sp.message a (s.heap a)))] else []) ∧
      Holds hash s' (if (s.heap a).ends then (sp.add (a, s.heap a)).flush (s.heap a).cb.streamId
        else sp.add (a, s.heap a)) := by
  obtain ⟨s₁, hs₁, h₁⟩ := addSkbToStream_spec h ha hfresh hf ⟨rfl, rfl, rfl, hf.laid⟩ hal
  have hadd : sp.add (a, s.heap a) (.stream (s.heap a).cb.streamId) = sp.message a (s.heap a) := by
    simp [Spec.add, Spec.message]
  simp only [storeFrame, hs₁]
  split_ifs with he
  · obtain ⟨s₂, hs₂, h₂⟩ := flushStream_spec h₁ (s.heap a).cb.streamId
      (by rw [hadd]; simp [Spec.message])
    rw [hs₂, hadd]
    exact ⟨s₂, rfl, h₂⟩
  · exact ⟨s₁, rfl, h₁⟩

/-- The calls of `rcv_msg` in a history. -/
def rcvMsgs (es : List Event) : List ℕ :=
  es.filterMap (fun
    | .rcvMsg head => some head
    | _ => none)

/-- Nothing changes but the psock. -/
def OnlyPsock (s s' : State) : Prop := ∃ p, s' = { s with psock := p }

theorem OnlyPsock.refl (s : State) : OnlyPsock s s := ⟨s.psock, rfl⟩

theorem Holds.onlyPsock (h : Holds hash s sp) (hp : OnlyPsock s s') : Holds hash s' sp := by
  obtain ⟨p, rfl⟩ := hp
  exact h.congr le_rfl (fun _ _ => rfl) rfl rfl

theorem accountData_onlyPsock (s : State) (skb : Skb) (alloc : Alloc) :
    OnlyPsock s (accountData s skb alloc) := by
  simp only [accountData, sendWindowUpdate]
  split_ifs <;> exact ⟨_, rfl⟩

theorem sendSettingsAck_onlyPsock (s : State) (alloc : Alloc) : OnlyPsock s (sendSettingsAck s alloc) := by
  unfold sendSettingsAck
  split_ifs <;> exact ⟨_, rfl⟩

/-- The history of a function that only frees buffers. -/
def OnlyFrees (e : List Event) : Prop := ∀ x ∈ e, ∃ a, x = .freed a

theorem OnlyFrees.rcvMsgs {e : List Event} (h : OnlyFrees e) : rcvMsgs e = [] := by
  rw [H2.rcvMsgs, List.filterMap_eq_nil_iff]
  intro x hx
  obtain ⟨a, rfl⟩ := h x hx
  rfl

theorem OnlyFrees.spec {e : List Event} (h : OnlyFrees e) (sp : Spec) : e.foldl Spec.step sp = sp := by
  induction e with
  | nil => rfl
  | cons x e ih =>
      obtain ⟨a, rfl⟩ := h x List.mem_cons_self
      exact ih (fun y hy => h y (List.mem_cons_of_mem _ hy))

theorem sendPingack_spec (s : State) (a : ℕ) (alloc : Alloc) :
    OnlyPsock s (sendPingack s a alloc).1 ∧ OnlyFrees (sendPingack s a alloc).2 := by
  unfold sendPingack
  dsimp only
  generalize headerPointerBuf _ _ _ _ = p
  cases p <;> cases alloc.ctrl <;> exact ⟨⟨_, rfl⟩, by simp [OnlyFrees]⟩

theorem processIncomingWindowUpdate_spec (s : State) (a : ℕ) :
    OnlyPsock s (processIncomingWindowUpdate s a).1 ∧ OnlyFrees (processIncomingWindowUpdate s a).2 := by
  have hfree : OnlyFrees [Event.freed a] := by simp [OnlyFrees]
  unfold processIncomingWindowUpdate
  dsimp only
  split_ifs
  · exact ⟨.refl s, hfree⟩
  · split
    · exact ⟨.refl s, hfree⟩
    · split_ifs
      · exact ⟨.refl s, hfree⟩
      · exact ⟨⟨_, rfl⟩, hfree⟩

variable (hash) in
/-- A frame that is not stored changes the psock only. -/
theorem handleH2Frame_other {a : ℕ} (alloc : Alloc) (hc : (s.heap a).carried = false) :
    ∃ s' e, handleH2Frame hash s a alloc = some (s', e) ∧ OnlyPsock s s' ∧ OnlyFrees e := by
  have hfree : OnlyFrees [Event.freed a] := by simp [OnlyFrees]
  unfold Skb.carried at hc
  cases ht : (s.heap a).type with
  | data | headers | continuation | rstStream => rw [ht] at hc; cases hc
  | priority | pushPromise | goaway | unknown =>
      exact ⟨s, [.freed a], by simp only [handleH2Frame, ht], .refl s, hfree⟩
  | settings =>
      refine ⟨_, _, by simp only [handleH2Frame, ht]; rfl, ?_, hfree⟩
      split_ifs
      · exact sendSettingsAck_onlyPsock s alloc
      · exact .refl s
  | ping => exact ⟨_, _, by simp only [handleH2Frame, ht], sendPingack_spec s a alloc⟩
  | windowUpdate =>
      exact ⟨_, _, by simp only [handleH2Frame, ht], processIncomingWindowUpdate_spec s a⟩

variable (hash) in
/-- A frame that is stored, perhaps after some bookkeeping. -/
theorem handleH2Frame_stored {a : ℕ} (alloc : Alloc) (hc : (s.heap a).carried = true) :
    ∃ s₁, handleH2Frame hash s a alloc = storeFrame hash s₁ a alloc ∧ OnlyPsock s s₁ := by
  unfold Skb.carried at hc
  cases ht : (s.heap a).type with
  | data | rstStream =>
      exact ⟨_, by simp only [handleH2Frame, ht], accountData_onlyPsock s (s.heap a) alloc⟩
  | headers | continuation => exact ⟨s, by simp only [handleH2Frame, ht], .refl s⟩
  | priority | pushPromise | goaway | unknown | settings | ping | windowUpdate => rw [ht] at hc; cases hc

/-- A frame that is stored: nothing is freed, and `rcv_msg` is called if the frame ends a message. -/
theorem frame_stored_spec (h : Holds hash s sp) {skb : Skb} {alloc : Alloc} (hf : skb.Complete)
    (hc : skb.carried = true) (hal : sp (.stream skb.cb.streamId) = [] → alloc.stream = true) :
    ∃ s', step hash s (.frame skb alloc) = some (s', .frame s.brk skb ::
        if skb.ends then [.rcvMsg (headAddr (sp.message s.brk skb))] else []) ∧
      Holds hash s' (sp.step (.frame s.brk skb)) := by
  obtain ⟨h₀, hfresh⟩ := h.alloc skb
  have hskb : (s.alloc skb).heap s.brk = skb := Function.update_self ..
  obtain ⟨s₁, he, hp⟩ :=
    handleH2Frame_stored hash (s := s.alloc skb) (a := s.brk) alloc (by rw [hskb, hc])
  have h₁ := h₀.onlyPsock hp
  obtain ⟨p, rfl⟩ := hp
  obtain ⟨s', hs', h'⟩ := storeFrame_spec h₁ (a := s.brk) alloc (Nat.lt_succ_self _)
    hfresh (by rw [hskb]; exact hf) (by rw [hskb]; exact hal)
  simp only [hskb] at hs' h'
  refine ⟨s', by rw [step, he, hs']; rfl, ?_⟩
  simpa [Spec.step, hc] using h'

/-- **One frame**: it is handled; it is followed by a call of `rcv_msg`, for the chain of its stream,
if and only if it is stored and ends a message. -/
theorem frame_spec (h : Holds hash s sp) {skb : Skb} {alloc : Alloc} (hf : skb.Complete)
    (hal : alloc.stream = true) :
    ∃ s' e, step hash s (.frame skb alloc) = some (s', .frame s.brk skb :: e) ∧
      Holds hash s' (sp.step (.frame s.brk skb)) ∧ (∀ sp', e.foldl Spec.step sp' = sp') ∧
      rcvMsgs e = if skb.carried ∧ skb.ends then [headAddr (sp.message s.brk skb)] else [] := by
  cases hc : skb.carried with
  | false =>
      have hskb : (s.alloc skb).heap s.brk = skb := Function.update_self ..
      obtain ⟨s', e, he, hp, hfree⟩ :=
        handleH2Frame_other hash (s := s.alloc skb) (a := s.brk) alloc (by rw [hskb, hc])
      have hsp : sp.step (.frame s.brk skb) = sp := by simp [Spec.step, hc]
      refine ⟨s', e, by rw [step, he]; rfl, ?_, hfree.spec, by simpa using hfree.rcvMsgs⟩
      rw [hsp]
      exact (h.alloc skb).1.onlyPsock hp
  | true =>
      obtain ⟨s', hs', h'⟩ := frame_stored_spec h hf hc (fun _ => hal)
      refine ⟨s', _, hs', h', ?_, ?_⟩
      · cases skb.ends <;> exact fun _ => rfl
      · cases hends : skb.ends <;> simp [rcvMsgs]

/-! ### A message is received -/

/-- The bytes of a frame. -/
def Skb.content (skb : Skb) : List UInt8 := (skb.buf.bytes.drop skb.cb.offset).take skb.cb.fullLen

/-- The bytes of the frames of a message. -/
def content (fs : List Frame) : List UInt8 := fs.flatMap (fun f => f.2.content)

theorem Skb.Complete.length_content {skb : Skb} (h : skb.Complete) : skb.content.length = skb.cb.fullLen := by
  have := h.inside
  rw [Skb.content, List.length_take, List.length_drop]
  omega

theorem copyFrame_eq {f : Frame} {acc : Bool × Int32 × Iter} (hi : Intact (s.heap f.1) f.2)
    (hc : f.2.Complete) (ht : acc.2.2.Takes f.2.content.length) :
    copyFrame s acc f.1 =
      (true, acc.2.1 + Int32.ofNat f.2.content.length, acc.2.2.push f.2.content) := by
  rw [hc.length_content] at ht ⊢
  simp only [copyFrame, hi.fullLen, hi.offset]
  rw [datagramIter_eq hi.laid _ _ _ ht (by rw [hi.bytes]; exact hc.inside), hi.bytes]
  rfl

/-- The loop over the frames of a message, when the user's buffer takes them all. -/
theorem copyFrames_eq {fs : List Frame} (acc : Bool × Int32 × Iter)
    (hi : ∀ f ∈ fs, Intact (s.heap f.1) f.2) (hc : ∀ f ∈ fs, f.2.Complete)
    (ht : acc.2.2.Takes (content fs).length) :
    (fs.map Prod.fst).foldl (copyFrame s) acc =
      (acc.1 || !fs.isEmpty, acc.2.1 + Int32.ofNat (content fs).length, acc.2.2.push (content fs)) := by
  induction fs generalizing acc with
  | nil => simp [content]
  | cons f fs ih =>
      have hlen : (content (f :: fs)).length = f.2.content.length + (content fs).length := by simp [content]
      rw [hlen] at ht
      rw [List.map_cons, List.foldl_cons, copyFrame_eq (hi f List.mem_cons_self) (hc f List.mem_cons_self)
        (ht.mono (by omega)), ih _ (fun g hg => hi g (List.mem_cons_of_mem _ hg))
        (fun g hg => hc g (List.mem_cons_of_mem _ hg)) ht.push]
      simp only [Iter.push_push, hlen]
      simp [content, Int32.ofNat_add, Int32.add_assoc]

theorem clearNexts_spec (s : State) (l : List ℕ) :
    let s' := l.foldl (fun s a => s.setNext a none) s
    Keeps s s' ∧ s'.brk = s.brk ∧ s'.streamStorage = s.streamStorage ∧ s'.upper = s.upper ∧
      ∀ a, a ∉ l → s'.strpNext a = s.strpNext a := by
  induction l generalizing s with
  | nil => exact ⟨fun _ _ h => h, rfl, rfl, rfl, fun _ _ => rfl⟩
  | cons b l ih =>
      obtain ⟨h₁, h₂, h₃, h₄, h₅⟩ := ih (s.setNext b none)
      refine ⟨(keeps_setNext s b none).trans h₁, h₂, h₃, h₄, ?_⟩
      intro a ha
      have hab : a ≠ b := by
        rintro rfl
        exact ha List.mem_cons_self
      rw [List.foldl_cons, h₅ a (fun hm => ha (List.mem_cons_of_mem _ hm)), strpNext_setNext,
        Function.update_of_ne hab]

/-- The message gives its frames back. -/
theorem Holds.receive (h : Holds hash s sp) {head : ℕ} (hk : Keeps s s') (hb : s'.brk = s.brk)
    (ht : s'.streamStorage = s.streamStorage) (hu : s'.upper = s.upper.erase head)
    (hn : ∀ a, a ∉ (sp (.message head)).map Prod.fst → s'.strpNext a = s.strpNext a) :
    Holds hash s' (Function.update sp (.message head) []) := by
  have hmem : ∀ o f, f ∈ Function.update sp (.message head) [] o → f ∈ sp o := by
    intro o f hf
    by_cases ho : o = .message head
    · subst ho; simp at hf
    · simpa [ho] using hf
  have hmap : (fun o => (Function.update sp (.message head) [] o).map Prod.fst) =
      Function.update (fun o => (sp o).map Prod.fst) (.message head) [] := by
    funext o
    by_cases ho : o = .message head
    · subst ho; simp
    · simp [ho]
  constructor
  · rw [hmap]
    refine h.chains.drop ?_
    intro o ho a ha
    exact hn a (fun hm => ho (h.chains.disjoint o (.message head) a ha hm))
  · intro o f hf; rw [hb]; exact h.allocated o f (hmem o f hf)
  · intro o f hf; exact h.complete o f (hmem o f hf)
  · intro o f hf; exact hk _ _ (h.intact o f (hmem o f hf))
  · rw [ht]; exact h.table
  · intro sid
    rw [streamLookup, ht]
    simpa [streamLookup] using h.lookup sid
  · intro k
    rw [hu, h.upperNodup.mem_erase_iff, h.upper k]
    by_cases hkh : k = head
    · subst hkh; simp
    · simp [hkh]
  · rw [hu]; exact h.upperNodup.erase head
  · intro k hk
    by_cases hkh : k = head
    · subst hkh; simp at hk
    · simpa [hkh] using h.heads k (by simpa [hkh] using hk)

/-- `rakaia_recvmsg` on a message that went up: it returns, and the message is gone. -/
theorem recvmsg_spec (h : Holds hash s sp) {head : ℕ} (hm : head ∈ s.upper) (len mapped : ℕ) (dgram : Bool) :
    ∃ s' e, step hash s (.recvmsg head len mapped dgram) = some (s', e ++ [.returned head (recvResult len dgram
        (((sp (.message head)).map Prod.fst).foldl (copyFrame s) (true, 0, ⟨[], len, mapped⟩)))]) ∧
      OnlyFrees e ∧ Holds hash s' (Function.update sp (.message head) []) := by
  have hhead := h.head?_message ((h.upper head).mp hm)
  have hcopy := h.follow (.message head) (copyFrame s) (true, 0, ⟨[], len, mapped⟩)
  have hchain := h.follow (.message head) (fun l a => l ++ [a]) []
  rw [hhead] at hcopy hchain
  rw [foldl_snoc, List.nil_append] at hchain
  obtain ⟨hk, hb, ht, hu, hn⟩ := clearNexts_spec s ((sp (.message head)).map Prod.fst)
  refine ⟨{ ((sp (.message head)).map Prod.fst).foldl (fun s a => s.setNext a none) s with
      upper := s.upper.erase head },
    ((sp (.message head)).map Prod.fst).tail.map Event.freed ++ [.freed head], ?_, ?_, ?_⟩
  · rw [step, if_pos hm, rakaiaRecvmsg, copyDatagramMsgHttp2, hcopy, State.chain, hchain,
      List.append_assoc, List.singleton_append]
  · intro x hx
    rcases List.mem_append.mp hx with hx | hx
    · obtain ⟨a, -, rfl⟩ := List.mem_map.mp hx
      exact ⟨a, rfl⟩
    · exact ⟨head, List.mem_singleton.mp hx⟩
  · exact h.receive hk hb ht rfl hn

/-! ### Runs -/

/-- The frames that arrive are complete, and the stream table can grow. -/
def Orderly (_ : State) : Act → Prop
  | .frame skb alloc => skb.Complete ∧ alloc.stream = true
  | .recvmsg .. => True

variable {heap : ℕ → Skb} {psock : Psock} {es : List Event}

theorem holds_init : Holds hash (State.init heap psock) (fun _ => []) := by
  constructor <;> simp [State.init, streamLookup, Buckets.lookup]
  · exact ⟨fun _ => trivial, by simp, by simp⟩
  · exact ⟨by simp, by simp⟩

theorem holds_of_reach (h : (machine hash heap psock).Reach Orderly s es) : Holds hash s (Spec.of es) := by
  refine h.invariant (P := fun s es => Holds hash s (Spec.of es)) holds_init ?_
  intro s es a s' e _ ih hg hs
  cases a with
  | frame skb alloc =>
      obtain ⟨s₁, e₁, hs₁, h₁, hsilent, -⟩ := frame_spec ih hg.1 hg.2
      obtain ⟨rfl, rfl⟩ := Prod.mk.inj (Option.some.inj (hs₁.symm.trans hs))
      rw [Spec.of_append, List.foldl_cons, hsilent]
      exact h₁
  | recvmsg head len mapped dgram =>
      by_cases hm : head ∈ s.upper
      · obtain ⟨s₁, e₁, hs₁, hfree, h₁⟩ := recvmsg_spec ih hm len mapped dgram
        obtain ⟨rfl, rfl⟩ := Prod.mk.inj (Option.some.inj (hs₁.symm.trans hs))
        rw [Spec.of_append, List.foldl_append, hfree.spec]
        exact h₁
      · have hs : step hash s (.recvmsg head len mapped dgram) = some (s', e) := hs
        rw [step, if_neg hm] at hs
        cases hs

/-! ### Reassembly end to end -/

/-- The frames of a stream that wait for the end of their message. -/
def pending (sid : ℕ) (es : List Event) : List Frame := sinceLast (framesOf sid es)

/-- The frames of a message that went up are the chain of its head. -/
theorem Holds.chain_eq (h : Holds hash s sp) {head : ℕ} (hne : sp (.message head) ≠ []) :
    s.chain head = some ((sp (.message head)).map Prod.fst) := by
  have hfollow := h.follow (.message head) (fun l a => l ++ [a]) []
  rwa [h.head?_message hne, foldl_snoc, List.nil_append] at hfollow

/-- A message that goes up has another head than those that are up. -/
theorem Holds.headAddr_ne (h : Holds hash s sp) {head : ℕ} (hne : sp (.message head) ≠ []) (skb : Skb) :
    headAddr (sp.message s.brk skb) ≠ head := by
  have hmem : head ∈ (sp (.message head)).map Prod.fst := List.mem_of_mem_head? (h.head?_message hne)
  rintro rfl
  cases hsp : sp (.stream skb.cb.streamId) with
  | nil =>
      obtain ⟨f, hf, he⟩ := List.mem_map.mp hmem
      have hlt := h.allocated _ f hf
      rw [he] at hlt
      simp [Spec.message, hsp, headAddr] at hlt
  | cons g rest =>
      have hg : headAddr (sp.message s.brk skb) = g.1 := by simp [Spec.message, hsp, headAddr]
      have := h.chains.disjoint (.stream skb.cb.streamId) _ g.1 (by simp [hsp]) (by rw [← hg]; exact hmem)
      cases this

/-- What the receive path does, seen from a state that a run has reached with history `es`. -/
structure Reassembles (hash : ℕ → Fin streamHashSize) (s : State) (es : List Event) : Prop where
  /-- `stream_storage` has one entry for each stream with pending frames and none for others. -/
  table : ∀ sid, ((List.finRange streamHashSize).flatMap s.streamStorage).countP (fun b => b.streamId = sid) =
    if pending sid es = [] then 0 else 1
  /-- A complete frame that is stored and ends a message causes one call of `rcv_msg`, whose chain is
  the pending frames of its stream and itself; any other causes none. -/
  frame : ∀ skb alloc, Skb.Complete skb → alloc.stream = true → ∃ s' e,
    step hash s (.frame skb alloc) = some (s', .frame s.brk skb :: e) ∧
    if skb.carried ∧ skb.ends then
      let msg := pending skb.cb.streamId es ++ [(s.brk, skb)]
      rcvMsgs e = [headAddr msg] ∧ s'.chain (headAddr msg) = some (msg.map Prod.fst) ∧
        Spec.of (es ++ .frame s.brk skb :: e) (.message (headAddr msg)) = msg
    else rcvMsgs e = []
  /-- A message that went up stays as it is until it is received. -/
  kept : ∀ head a s' e, Spec.of es (.message head) ≠ [] → Orderly s a → step hash s a = some (s', e) →
    (∀ r, Event.returned head r ∉ e) → Spec.of (es ++ e) (.message head) = Spec.of es (.message head)
  /-- `rakaia_recvmsg` returns its frames one after the other, if the buffer has room for them. -/
  received : ∀ head len mapped dgram, Spec.of es (.message head) ≠ [] →
    (content (Spec.of es (.message head))).length ≤ len → len < 2 ^ 31 →
    (content (Spec.of es (.message head))).length ≤ mapped → ∃ s' e,
    step hash s (.recvmsg head len mapped dgram) = some (s', e ++ [.returned head
      ⟨(content (Spec.of es (.message head))).length, content (Spec.of es (.message head)), false, true⟩])

theorem table_of_holds (h : Holds hash s (Spec.of es)) (sid : ℕ) :
    ((List.finRange streamHashSize).flatMap s.streamStorage).countP (fun b => b.streamId = sid) =
      if pending sid es = [] then 0 else 1 := by
  rw [h.table.countP_eq (List.nodup_finRange _) List.mem_finRange sid, ← streamLookup, h.lookup,
    Spec.of_stream, pending]
  cases sinceLast (framesOf sid es) <;> simp

theorem frame_of_holds (h : Holds hash s (Spec.of es)) (skb : Skb) (alloc : Alloc) (hf : skb.Complete)
    (hal : alloc.stream = true) : ∃ s' e,
    step hash s (.frame skb alloc) = some (s', .frame s.brk skb :: e) ∧
    if skb.carried ∧ skb.ends then
      let msg := pending skb.cb.streamId es ++ [(s.brk, skb)]
      rcvMsgs e = [headAddr msg] ∧ s'.chain (headAddr msg) = some (msg.map Prod.fst) ∧
        Spec.of (es ++ .frame s.brk skb :: e) (.message (headAddr msg)) = msg
    else rcvMsgs e = [] := by
  obtain ⟨s', e, hs', h', hsilent, hrcv⟩ := frame_spec h hf hal
  have hmsg : (Spec.of es).message s.brk skb = pending skb.cb.streamId es ++ [(s.brk, skb)] := by
    rw [Spec.message, Spec.of_stream, pending]
  refine ⟨s', e, hs', ?_⟩
  rw [hmsg] at hrcv
  split_ifs at hrcv ⊢ with hce
  · have hup : (Spec.of es).step (.frame s.brk skb) (.message (headAddr (pending skb.cb.streamId es ++
        [(s.brk, skb)]))) = pending skb.cb.streamId es ++ [(s.brk, skb)] := by
      simp [Spec.step, hce.1, hce.2, Spec.flush, Spec.add, Spec.of_stream, pending]
    refine ⟨hrcv, ?_, ?_⟩
    · rw [h'.chain_eq (by rw [hup]; simp), hup]
    · rw [Spec.of_append, List.foldl_cons, hsilent, hup]
  · exact hrcv

theorem kept_of_holds (h : Holds hash s (Spec.of es)) {head : ℕ} {a : Act} {e : List Event}
    (hne : Spec.of es (.message head) ≠ []) (hg : Orderly s a) (hs : step hash s a = some (s', e))
    (hr : ∀ r, Event.returned head r ∉ e) :
    Spec.of (es ++ e) (.message head) = Spec.of es (.message head) := by
  cases a with
  | frame skb alloc =>
      obtain ⟨s₁, e₁, hs₁, -, hsilent, -⟩ := frame_spec h hg.1 hg.2
      obtain ⟨rfl, rfl⟩ := Prod.mk.inj (Option.some.inj (hs₁.symm.trans hs))
      rw [Spec.of_append, List.foldl_cons, hsilent]
      have hhead := (h.headAddr_ne hne skb).symm
      rw [Spec.message] at hhead
      simp only [Spec.step]
      split_ifs
      · simp [Spec.flush, Spec.add, hhead]
      · simp [Spec.add]
      · rfl
  | recvmsg head' len mapped dgram =>
      by_cases hm : head' ∈ s.upper
      · obtain ⟨s₁, e₁, hs₁, hfree, -⟩ := recvmsg_spec h hm len mapped dgram
        obtain ⟨rfl, rfl⟩ := Prod.mk.inj (Option.some.inj (hs₁.symm.trans hs))
        have hne' : head ≠ head' := by
          rintro rfl
          exact hr _ (List.mem_append_right _ List.mem_cons_self)
        rw [Spec.of_append, List.foldl_append, hfree.spec]
        simp [Spec.step, hne']
      · rw [step, if_neg hm] at hs
        cases hs

/-- The result of `rakaia_recvmsg` when all bytes of the message were stored. -/
theorem recvResult_eq {len : ℕ} (dgram : Bool) {bs : List UInt8} {dst : Iter} (hpos : 0 < bs.length)
    (hle : bs.length ≤ len) (hlt : bs.length < 2 ^ 31) :
    recvResult len dgram (true, 0 + Int32.ofNat bs.length, dst) = ⟨bs.length, dst.stored, false, true⟩ := by
  have hint : (Int32.ofNat bs.length).toInt = bs.length := Int32.toInt_ofNat_of_lt (by omega)
  have hzero : Int32.ofNat bs.length ≠ 0 := by
    intro hc
    rw [hc] at hint
    simp at hint
    omega
  have hsize : ((bs.length : ℤ) % 2 ^ 64).toNat = bs.length := by omega
  simp only [recvResult, Int32.zero_add, hint, hsize]
  simp [hzero, hle, not_lt.mpr hle]

theorem received_of_holds (h : Holds hash s sp) {head len mapped : ℕ} (dgram : Bool)
    (hne : sp (.message head) ≠ []) (hle : (content (sp (.message head))).length ≤ len) (hlen : len < 2 ^ 31)
    (hmap : (content (sp (.message head))).length ≤ mapped) : ∃ s' e,
    step hash s (.recvmsg head len mapped dgram) = some (s', e ++ [.returned head
      ⟨(content (sp (.message head))).length, content (sp (.message head)), false, true⟩]) := by
  obtain ⟨s', e, hs', -, -⟩ := recvmsg_spec h ((h.upper head).mpr hne) len mapped dgram
  refine ⟨s', e, ?_⟩
  have hpos : 0 < (content (sp (.message head))).length := by
    obtain ⟨f, fs, hsp⟩ := List.exists_cons_of_ne_nil hne
    have hc := h.complete (.message head) f (by simp [hsp])
    have := hc.header
    rw [hsp, content, List.flatMap_cons, List.length_append, hc.length_content]
    omega
  have hcopy := copyFrames_eq (true, 0, ⟨[], len, mapped⟩) (h.intact (.message head))
    (h.complete (.message head)) ⟨hle, hmap⟩
  rw [hs', hcopy, Bool.true_or, recvResult_eq dgram hpos hle (by omega)]
  simp [Iter.push]

/-! ### A run to evaluate -/

/-- A frame of the given type, flags and stream, with its payload: the header lies in the linear
area, the payload in a page fragment, behind a byte that belongs to something else. -/
def frameSkb (type flag : UInt8) (sid : ℕ) (payload : List UInt8) : Skb where
  cb := ⟨0, payload.length + 9, 1, sid, type, flag, 0, some 3⟩
  buf := .mk (payload.length + 10) payload.length 0
    [0xff, 0, 0, UInt8.ofNat payload.length, type, flag, 0, 0, 0, UInt8.ofNat sid] [payload] []

theorem frameSkb_complete (type flag : UInt8) (sid : ℕ) (payload : List UInt8) :
    (frameSkb type flag sid payload).Complete where
  laid := .mk (by simp) (by simp) (by simp)
  inside := by simp [frameSkb, SkBuff.bytes, SkBuff.bytesOf]; omega
  header := by simp [frameSkb]

def granted : Alloc := ⟨true, true, []⟩

/-- Two streams in one bucket: HEADERS and DATA of stream 1 around HEADERS of stream 3. -/
def interleavedActs : List Act :=
  [.frame (frameSkb 1 4 1 [11]) granted, .frame (frameSkb 1 4 3 [33]) granted,
    .frame (frameSkb 0 1 1 [12, 13]) granted]

/-! ### The main result -/

/-- **HTTP/2 reassembly end to end.**  In every run of the receive path on complete frames, with any
hash function and with messages received at any time: what goes up is, for each frame that ends a
message, the chain of the frames of its stream since the last one that did; the stream table has one
entry for each stream with frames; and a message that went up is received as the concatenation of its
frames. -/
theorem reassembly (h : (machine hash heap psock).Reach Orderly s es) : Reassembles hash s es :=
  have hh := holds_of_reach h
  ⟨table_of_holds hh, frame_of_holds hh, fun _ _ _ _ hne hg hs hr => kept_of_holds hh hne hg hs hr,
    fun _ _ _ dgram hne hle hlen hmap => received_of_holds hh dgram hne hle hlen hmap⟩

/-- After the three frames, stream 1 has gone up and stream 3 waits; the bytes of the first message
can be received. -/
theorem reassembly_interleaved : ∃ s es,
    (machine (fun _ => 0) (fun _ => frameSkb 0 0 0 []) ⟨0, 1000, 0, 65535, false, [], false⟩).Reach
      Orderly s es ∧
    rcvMsgs es = [0] ∧ (pending 3 es).map Prod.fst = [1] ∧
    content (Spec.of es (.message 0)) = [0, 0, 1, 1, 4, 0, 0, 0, 1, 11, 0, 0, 2, 0, 1, 0, 0, 0, 1, 12, 13] ∧
    Reassembles (fun _ => 0) s es := by
  obtain ⟨s, es, hr, hy⟩ := Machine.Reach.of_exec
    (M := machine (fun _ => 0) (fun _ => frameSkb 0 0 0 []) ⟨0, 1000, 0, 65535, false, [], false⟩)
    (G := Orderly) (g := fun _ _ => true) interleavedActs
    (by
      intro _ a ha _
      simp only [interleavedActs, List.mem_cons, List.not_mem_nil, or_false] at ha
      rcases ha with rfl | rfl | rfl <;> exact ⟨frameSkb_complete .., rfl⟩)
    (fun r => (rcvMsgs r.2, (pending 3 r.2).map Prod.fst, content (Spec.of r.2 (.message 0))))
    ([0], [1], [0, 0, 1, 1, 4, 0, 0, 0, 1, 11, 0, 0, 2, 0, 1, 0, 0, 0, 1, 12, 13]) (by decide +kernel)
  simp only [Prod.mk.injEq] at hy
  exact ⟨s, es, hr, hy.1, hy.2.1, hy.2.2, reassembly hr⟩

end holds

end Rakaia.H2
