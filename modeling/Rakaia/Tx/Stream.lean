import Rakaia.Tx.State

/-! # The stream that a psock transmits

`rakaia_sendmsg` splices whole messages onto `tx_wait_queue`, and the owner of `tx_in_use` moves
the whole queue to `sk_write_queue` at once, so what is appended to `sk_write_queue` is a
concatenation of whole messages in the order of their splices.  The sequence numbers come later:
the owner walks from the old end of `sk_write_queue` to its new end after it dropped `tx_lock`, and
replaces the byte count in `seq` by the sequence number.  The lock of the TCP socket keeps all others
away from `sk_write_queue` meanwhile. -/

namespace Rakaia.Tx

open Lib

variable {v : Variant} {w : UInt32} {s s' : State} {a : Act} {es e : List Event}
  {G : State → Act → Prop}

/-! ### What is spliced, and what is appended -/

/-- The message that is spliced, with the byte counts of its segments. -/
def Event.spliced? : Event → Option (ℕ × List UInt32)
  | .spliced msg lens => some (msg, lens)
  | _ => none

/-- The segments that are appended to `sk_write_queue` and have their sequence numbers. -/
def Event.moved? : Event → Option (List TxSkb)
  | .moved skbs => some skbs
  | _ => none

/-- The messages in the order of their splices. -/
def splices (es : List Event) : List (ℕ × List UInt32) := es.filterMap Event.spliced?

/-- What was appended to `sk_write_queue` and has its sequence numbers. -/
def appended (es : List Event) : List TxSkb := (es.filterMap Event.moved?).flatten

/-- The segments of a message: the message they belong to, and their byte counts. -/
def segments (m : ℕ × List UInt32) : List (ℕ × UInt32) := m.2.map (fun len => (m.1, len))

/-- The segments of whole messages, one message behind the other. -/
def stream (ms : List (ℕ × List UInt32)) : List (ℕ × UInt32) := ms.flatMap segments

/-- A segment whose `seq` holds its byte count. -/
def TxSkb.counted (skb : TxSkb) : ℕ × UInt32 := (skb.msg, skb.seq)

/-- A segment that has its sequence numbers. -/
def TxSkb.ranged (skb : TxSkb) : ℕ × UInt32 := (skb.msg, skb.endSeq - skb.seq)

/-- The ranges of the segments follow each other without a gap, from `a` to `b`. -/
def GapFree (a : UInt32) : List TxSkb → UInt32 → Prop
  | [], b => a = b
  | skb :: rest, b => skb.seq = a ∧ GapFree skb.endSeq rest b

theorem GapFree.append {a b c : UInt32} {l l' : List TxSkb} (h : GapFree a l b) (h' : GapFree b l' c) :
    GapFree a (l ++ l') c := by
  induction l generalizing a with
  | nil =>
      obtain rfl : a = b := h
      exact h'
  | cons skb rest ih => exact ⟨h.1, ih h.2⟩

theorem assignSeq_gapFree (w : UInt32) (l : List TxSkb) :
    GapFree w (assignSeq w l).2 (assignSeq w l).1 := by
  induction l generalizing w with
  | nil => rfl
  | cons skb rest ih => exact ⟨rfl, ih (w + skb.seq)⟩

/-- The walk keeps the segments and their byte counts. -/
theorem assignSeq_ranged (w : UInt32) (l : List TxSkb) :
    (assignSeq w l).2.map TxSkb.ranged = l.map TxSkb.counted := by
  induction l generalizing w with
  | nil => rfl
  | cons skb rest ih =>
      have hlen : w + skb.seq - w = skb.seq := by rw [UInt32.add_comm, UInt32.add_sub_cancel]
      simp only [assignSeq, List.map_cons, ih, TxSkb.ranged, TxSkb.counted, hlen]

theorem append_counted (s : State) (lens : List UInt32) : (s.append lens).txWaitQueue.map TxSkb.counted =
    s.txWaitQueue.map TxSkb.counted ++ segments (s.nextMsg, lens) := by
  simp [State.append, segments, TxSkb.counted, Function.comp_def]

/-! ### The lock of the TCP socket -/

/-- The call holds the lock of the TCP socket. -/
def Pc.Locks : Pc → Prop
  | .loop | .assign _ | .push | .clear | .release => True
  | _ => False

/-- Whoever holds the lock of the TCP socket is its owner. -/
def Locked (s : State) : Prop := ∀ t, (s.pc t).Locks → s.sockLock = some t

/-- A call moves to a position with the lock only if it has it. -/
theorem Locked.move (h : Locked s) {t : ℕ} {pc : Pc} (hp : s'.pc = Function.update s.pc t pc)
    (hl : s'.sockLock = s.sockLock) (hpc : pc.Locks → (s.pc t).Locks) : Locked s' := by
  intro u hu
  rw [hl]
  rw [hp] at hu
  by_cases hut : u = t
  · subst hut
    rw [Function.update_self] at hu
    exact h u (hpc hu)
  · rw [Function.update_of_ne hut] at hu
    exact h u hu

theorem locked_step (hs : Step v s a s' e) (h : Locked s) : Locked s' := by
  cases hs with
  | splice t lens hp => exact h.move (t := t) rfl rfl (by simp [Pc.Locks])
  | txWork t hp => exact h.move (t := t) rfl rfl (by simp [Pc.Locks])
  | yield t n hp => exact h.move (t := t) rfl rfl (by simp [Pc.Locks])
  | own t n hp => exact h.move (t := t) rfl rfl (by simp [Pc.Locks])
  | lockSock t n hp hl =>
      intro u hu
      by_cases hut : u = t
      · subst hut
        rfl
      · have := h u (by simpa [hut] using hu)
        rw [hl] at this
        cases this
  | empty t n hp => exact h.move (t := t) rfl rfl (by simp [hp, Pc.Locks])
  | move t n hp => exact h.move (t := t) rfl rfl (by simp [hp, Pc.Locks])
  | assign t n head hp => exact h.move (t := t) rfl rfl (by simp [hp, Pc.Locks])
  | push t n hp => exact h.move (t := t) rfl rfl (by simp [hp, Pc.Locks])
  | clear t n hp => exact h.move (t := t) rfl rfl (by simp [hp, Pc.Locks])
  | release t n hp =>
      intro u hu
      have hut : u ≠ t := by
        rintro rfl
        simp [Pc.Locks] at hu
      have h₁ := h u (by simpa [hut] using hu)
      have h₂ := h t (by rw [hp]; trivial)
      exact absurd (Option.some.inj (h₁.symm.trans h₂)) hut
  | sendCtrl => exact h
  | writeSpace => exact h
  | xmit => exact h

theorem locked_of_reach (h : (machine v w).Reach G s es) : Locked s :=
  h.invariant (P := fun s _ => Locked s) (fun t ht => by cases ht)
    (fun _ _ _ _ _ _ ih _ hs => locked_step (step_cases hs) ih)

/-! ### Whole messages in the order of their splices -/

/-- The segments that are in `sk_write_queue` and do not have their sequence numbers yet. -/
inductive Unassigned (s : State) : List TxSkb → Prop
  | none : (∀ t head, s.pc t ≠ .assign head) → Unassigned s []
  | some (t head : ℕ) : s.pc t = .assign head → Unassigned s (s.skWriteQueue.drop head)

/-- The messages `done` are appended to `sk_write_queue`, the messages `rest` wait. -/
structure Streams (w : UInt32) (s : State) (es : List Event) (u : List TxSkb)
    (done rest : List (ℕ × List UInt32)) : Prop where
  splices : splices es = done ++ rest
  appended : (appended es).map TxSkb.ranged ++ u.map TxSkb.counted = stream done
  waiting : s.txWaitQueue.map TxSkb.counted = stream rest
  gapFree : GapFree w (Tx.appended es) s.writeSeq
  queue : s.skWriteQueue <:+ Tx.appended es ++ u

/-- A call moves between positions other than the walk. -/
theorem Unassigned.move {t : ℕ} {pc : Pc} {u : List TxSkb} (h : Unassigned s' u)
    (hp : s'.pc = Function.update s.pc t pc) (hq : s'.skWriteQueue = s.skWriteQueue)
    (ht : ∀ head, s.pc t ≠ .assign head) (hpc : ∀ head, pc ≠ .assign head) : Unassigned s u := by
  cases h with
  | none hn =>
      refine .none (fun r head hr => ?_)
      have hrt : r ≠ t := by
        rintro rfl
        exact ht head hr
      exact hn r head (by rw [hp, Function.update_of_ne hrt, hr])
  | some r head hr =>
      have hrt : r ≠ t := by
        rintro rfl
        rw [hp, Function.update_self] at hr
        exact hpc head hr
      rw [hp, Function.update_of_ne hrt] at hr
      rw [hq]
      exact .some r head hr

theorem Unassigned.congr {u : List TxSkb} (h : Unassigned s' u) (hp : s'.pc = s.pc)
    (hq : s'.skWriteQueue = s.skWriteQueue) : Unassigned s u := by
  cases h with
  | none hn =>
      rw [hp] at hn
      exact .none hn
  | some t head ht =>
      rw [hp] at ht
      rw [hq]
      exact .some t head ht

/-- Only one call walks. -/
theorem Locked.eq_drop (h : Locked s) {t head : ℕ} (ht : s.pc t = .assign head) {u : List TxSkb}
    (hu : Unassigned s u) : u = s.skWriteQueue.drop head := by
  cases hu with
  | none hn => exact absurd ht (hn t head)
  | some r head' hr =>
      have h₁ := h r (by rw [hr]; trivial)
      have h₂ := h t (by rw [ht]; trivial)
      obtain rfl := Option.some.inj (h₁.symm.trans h₂)
      obtain rfl := Pc.assign.inj (hr.symm.trans ht)
      rfl

theorem Locked.of_owner (h : Locked s) (t : ℕ) (hl : (s.pc t).Locks) (ht : ∀ head, s.pc t ≠ .assign head) :
    ∀ r, s.sockLock = some r → ∀ head, s.pc r ≠ .assign head := by
  intro r hr
  obtain rfl := Option.some.inj (hr.symm.trans (h t hl))
  exact ht

/-- Nobody walks while the lock is free, or while another call holds it. -/
theorem Locked.unassigned_iff (h : Locked s)
    (ht : ∀ t, s.sockLock = some t → ∀ head, s.pc t ≠ .assign head) {u : List TxSkb} :
    Unassigned s u ↔ u = [] := by
  have hn : ∀ t head, s.pc t ≠ .assign head := fun t head hp => ht t (h t (by rw [hp]; trivial)) head hp
  constructor
  · intro hu
    cases hu with
    | none => rfl
    | some r head hr => exact absurd hr (hn r head)
  · rintro rfl
    exact .none hn

section step

variable {u : List TxSkb} {done rest : List (ℕ × List UInt32)}

/-- TCP takes segments, or nothing happens to the queues. -/
theorem Streams.congr (h : Streams w s es u done rest) (hw : s'.txWaitQueue = s.txWaitQueue)
    (hs : s'.writeSeq = s.writeSeq) (hq : s'.skWriteQueue <:+ s.skWriteQueue) :
    Streams w s' (es ++ []) u done rest := by
  rw [List.append_nil]
  exact ⟨h.splices, h.appended, by rw [hw]; exact h.waiting, by rw [hs]; exact h.gapFree, hq.trans h.queue⟩

/-- A message is spliced. -/
theorem Streams.splice (h : Streams w s es u done rest) {lens : List UInt32}
    (hw : s'.txWaitQueue = (s.append lens).txWaitQueue) (hs : s'.writeSeq = s.writeSeq)
    (hq : s'.skWriteQueue = s.skWriteQueue) :
    Streams w s' (es ++ [.spliced s.nextMsg lens]) u done (rest ++ [(s.nextMsg, lens)]) := by
  have happ : Tx.appended (es ++ [.spliced s.nextMsg lens]) = Tx.appended es := by
    simp [Tx.appended, Event.moved?]
  constructor
  · rw [← List.append_assoc, ← h.splices]
    simp [Tx.splices, Event.spliced?]
  · rw [happ]
    exact h.appended
  · rw [hw, append_counted, h.waiting]
    simp [stream]
  · rw [happ, hs]
    exact h.gapFree
  · rw [happ, hq]
    exact h.queue

/-- The owner moves the whole queue. -/
theorem Streams.move (h : Streams w s es [] done rest) (hw : s'.txWaitQueue = [])
    (hs : s'.writeSeq = s.writeSeq) (hq : s'.skWriteQueue = s.skWriteQueue ++ s.txWaitQueue) :
    Streams w s' (es ++ []) s.txWaitQueue (done ++ rest) [] := by
  have happ := h.appended
  have hqueue := h.queue
  rw [List.map_nil, List.append_nil] at happ
  rw [List.append_nil] at hqueue ⊢
  constructor
  · rw [h.splices, List.append_nil]
  · rw [happ, h.waiting]
    simp [stream]
  · rw [hw]
    rfl
  · rw [hs]
    exact h.gapFree
  · rw [hq]
    exact List.suffix_append_self_iff.mpr hqueue

/-- The owner gives the moved segments their sequence numbers. -/
theorem Streams.assign {head : ℕ} (h : Streams w s es (s.skWriteQueue.drop head) done rest)
    (hw : s'.txWaitQueue = s.txWaitQueue)
    (hs : s'.writeSeq = (assignSeq s.writeSeq (s.skWriteQueue.drop head)).1)
    (hq : s'.skWriteQueue =
      s.skWriteQueue.take head ++ (assignSeq s.writeSeq (s.skWriteQueue.drop head)).2) :
    Streams w s' (es ++ [.moved (assignSeq s.writeSeq (s.skWriteQueue.drop head)).2]) [] done rest := by
  have happ : Tx.appended (es ++ [.moved (assignSeq s.writeSeq (s.skWriteQueue.drop head)).2]) =
      Tx.appended es ++ (assignSeq s.writeSeq (s.skWriteQueue.drop head)).2 := by
    simp [Tx.appended, Event.moved?]
  constructor
  · rw [← h.splices]
    simp [Tx.splices, Event.spliced?]
  · rw [happ, List.map_append, assignSeq_ranged, List.map_nil, List.append_nil]
    exact h.appended
  · rw [hw]
    exact h.waiting
  · rw [happ, hs]
    exact h.gapFree.append (assignSeq_gapFree _ _)
  · have hqueue := h.queue
    nth_rewrite 1 [← List.take_append_drop head s.skWriteQueue] at hqueue
    rw [happ, hq, List.append_nil]
    exact List.suffix_append_self_iff.mpr (List.suffix_append_self_iff.mp hqueue)

theorem streams_step (hs : Step v s a s' e) (hl : Locked s)
    (h : ∀ u, Unassigned s u → ∃ done rest, Streams w s es u done rest) :
    ∀ u, Unassigned s' u → ∃ done rest, Streams w s' (es ++ e) u done rest := by
  -- a call that does not walk moves on, and the queues stay
  have hmove : ∀ {t : ℕ} {pc : Pc}, s'.pc = Function.update s.pc t pc → (∀ head, s.pc t ≠ .assign head) →
      (∀ head, pc ≠ .assign head) → s'.txWaitQueue = s.txWaitQueue → s'.writeSeq = s.writeSeq →
      s'.skWriteQueue = s.skWriteQueue →
      ∀ u, Unassigned s' u → ∃ done rest, Streams w s' (es ++ []) u done rest := by
    intro t pc hp ht hpc hw hseq hq u hu
    obtain ⟨done, rest, hst⟩ := h u (hu.move hp hq ht hpc)
    exact ⟨done, rest, hst.congr hw hseq (hq ▸ List.suffix_rfl)⟩
  have hown := hl.of_owner
  have hl' := locked_step hs hl
  have hown' := hl'.of_owner
  intro u hu
  cases hs with
  | splice t lens hp =>
      obtain ⟨done, rest, hst⟩ := h u (hu.move (t := t) rfl rfl (by simp [hp]) (by simp))
      exact ⟨done, _, hst.splice rfl rfl rfl⟩
  | sendCtrl len =>
      obtain ⟨done, rest, hst⟩ := h u (hu.congr rfl rfl)
      exact ⟨done, _, hst.splice rfl rfl rfl⟩
  | writeSpace =>
      obtain ⟨done, rest, hst⟩ := h u (hu.congr rfl rfl)
      exact ⟨done, rest, hst.congr rfl rfl List.suffix_rfl⟩
  | txWork t hp => exact hmove (t := t) rfl (by simp [hp]) (by simp) rfl rfl rfl u hu
  | yield t n hp => exact hmove (t := t) rfl (by simp [hp]) (by simp) rfl rfl rfl u hu
  | own t n hp => exact hmove (t := t) rfl (by simp [hp]) (by simp) rfl rfl rfl u hu
  | lockSock t n hp => exact hmove (t := t) rfl (by simp [hp]) (by simp) rfl rfl rfl u hu
  | empty t n hp => exact hmove (t := t) rfl (by simp [hp]) (by simp) rfl rfl rfl u hu
  | move t n hp =>
      have hbefore := h [] ((hl.unassigned_iff (hown t (by rw [hp]; trivial) (by simp [hp]))).mpr rfl)
      obtain ⟨done, rest, hst⟩ := hbefore
      obtain rfl : u = s.txWaitQueue := by
        rw [hl'.eq_drop (t := t) (Function.update_self t _ s.pc) hu]
        exact List.drop_left
      exact ⟨done ++ rest, [], hst.move rfl rfl rfl⟩
  | assign t n head hp =>
      obtain rfl : u = [] := (hl'.unassigned_iff (hown' t (by simp [Pc.Locks]) (by simp))).mp hu
      obtain ⟨done, rest, hst⟩ := h _ (.some t head hp)
      exact ⟨done, rest, hst.assign rfl rfl rfl⟩
  | push t n hp =>
      obtain rfl : u = [] := (hl'.unassigned_iff (hown' t (by simp [Pc.Locks]) (by simp))).mp hu
      obtain ⟨done, rest, hst⟩ := h [] ((hl.unassigned_iff (hown t (by rw [hp]; trivial) (by simp [hp]))).mpr rfl)
      exact ⟨done, rest, hst.congr rfl rfl (List.drop_suffix _ _)⟩
  | clear t n hp => exact hmove (t := t) rfl (by simp [hp]) (by simp) rfl rfl rfl u hu
  | release t n hp => exact hmove (t := t) rfl (by simp [hp]) (by simp) rfl rfl rfl u hu
  | xmit n hn =>
      obtain rfl : u = [] := (hl'.unassigned_iff (fun t ht => by simp [hn] at ht)).mp hu
      obtain ⟨done, rest, hst⟩ := h [] ((hl.unassigned_iff (fun t ht => by simp [hn] at ht)).mpr rfl)
      exact ⟨done, rest, hst.congr rfl rfl (List.drop_suffix _ _)⟩

end step

theorem streams_of_reach (h : (machine v w).Reach G s es) :
    ∀ u, Unassigned s u → ∃ done rest, Streams w s es u done rest := by
  refine h.invariant (P := fun s es => ∀ u, Unassigned s u → ∃ done rest, Streams w s es u done rest) ?_
    (fun _ _ _ _ _ hr ih _ hs => streams_step (step_cases hs) (locked_of_reach hr) ih)
  intro u hu
  cases hu with
  | none => exact ⟨[], [], rfl, rfl, rfl, rfl, List.suffix_rfl⟩
  | some t head hp => cases hp

/-! ### The main result -/

/-- What is promised for the stream of a psock whose TCP socket starts at `w`.  The segments appended to
`sk_write_queue`, those that already have their sequence numbers and then those that the owner still
walks over, are those of the messages `done`, one whole message behind the other in the order of their
splices, and the rest of the messages waits; what TCP has not taken yet is at their end.  The sequence
numbers have no gap: they start at `w`, every range starts where the one before ends, its length is the
byte count of the segment, and `write_seq` is the end of the last one. -/
structure StreamIntegrity (w : UInt32) (s : State) (es : List Event) : Prop where
  whole : ∀ u, Unassigned s u → ∃ done rest, splices es = done ++ rest ∧
    (appended es).map TxSkb.ranged ++ u.map TxSkb.counted = stream done ∧
    s.txWaitQueue.map TxSkb.counted = stream rest ∧ s.skWriteQueue <:+ appended es ++ u
  exists_unassigned : ∃ u, Unassigned s u
  gapFree : GapFree w (appended es) s.writeSeq

theorem exists_unassigned (s : State) : ∃ u, Unassigned s u := by
  by_cases h : ∃ t head, s.pc t = .assign head
  · obtain ⟨t, head, hp⟩ := h
    exact ⟨_, .some t head hp⟩
  · exact ⟨[], .none (fun t head hp => h ⟨t, head, hp⟩)⟩

/-- **Transmit stream integrity.**  In every run of either variant, with any number of threads, any
interleaving and any first sequence number, the transmitted stream is a concatenation of whole messages
with gap-free sequence numbers. -/
theorem stream_integrity (h : (machine v w).Reachable s es) : StreamIntegrity w s es := by
  obtain ⟨u, hu⟩ := exists_unassigned s
  obtain ⟨done, rest, hst⟩ := streams_of_reach h u hu
  refine ⟨fun u hu => ?_, ⟨u, hu⟩, hst.gapFree⟩
  obtain ⟨done, rest, hst⟩ := streams_of_reach h u hu
  exact ⟨done, rest, hst.splices, hst.appended, hst.waiting, hst.queue⟩

/-- Three threads send; the messages of the first two are moved together, and their sequence numbers
pass `2 ^ 32`, while the third one waits. -/
theorem stream_integrity_wraps : ∃ s es, (machine .plainTcp 0xfffffffa).Reachable s es ∧
    appended es = [⟨0, 0xfffffffa, 4⟩, ⟨1, 4, 24⟩, ⟨1, 24, 54⟩] ∧ s.txWaitQueue = [⟨2, 7, 0⟩] ∧
    StreamIntegrity 0xfffffffa s es := by
  obtain ⟨s, es, hr, hy⟩ := Machine.Reach.of_exec (M := machine .plainTcp 0xfffffffa)
    (G := fun _ _ => True) (g := fun _ _ => true)
    [.splice 0 [10], .run 0 0, .splice 1 [20, 30], .run 1 0, .run 0 0, .run 0 0, .splice 2 [7], .run 0 0]
    (fun _ _ _ _ => trivial) (fun r => (appended r.2, r.1.txWaitQueue))
    ([⟨0, 0xfffffffa, 4⟩, ⟨1, 4, 24⟩, ⟨1, 24, 54⟩], [⟨2, 7, 0⟩]) (by decide +kernel)
  obtain ⟨h₁, h₂⟩ := Prod.mk.inj hy
  exact ⟨s, es, hr, h₁, h₂, stream_integrity hr⟩

end Rakaia.Tx
