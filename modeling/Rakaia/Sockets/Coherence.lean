import Rakaia.Sockets.Table

/-! # Coherence of the socket table

The array, the list of waiters and the two bitmaps describe the live sockets as long as sockets are
closed when they are neither parked nor have messages, and created when the position that the counter
names is free (`Orderly`).  `Inv` says this with bits in both directions and is kept by every call; a
call that does not meet the condition leaves an incoherent table (`coherent_iff`). -/

namespace Rakaia.Sockets

open Lib
open Sched (numRakaiaSockets randomSock setBits pickRandomSetBit)

/-- **Coherence** of array, counter, list and bitmaps. -/
structure Coherent (s : State) : Prop where
  slot : ∀ k ∈ s.live, s.rakaiaSocks (s.index k) = some k
  distinct : ∀ k ∈ s.live, ∀ k' ∈ s.live, s.index k = s.index k' → k = k'
  cnt : s.rakaiaSocksCnt = s.live.length
  waiters : ∀ k ∈ s.kskWaiters, k ∈ s.live
  waitersBm : ∀ i, s.waitersBm i = true → ∃ k ∈ s.live, s.index k = i ∧ k ∈ s.kskWaiters
  rxNonemptyBm : ∀ i, s.rxNonemptyBm i = true → ∃ k ∈ s.live, s.index k = i ∧ s.rxQ k ≠ []

/-- The condition under which calls keep the table coherent, on the state before the call. -/
def Orderly (s : State) : Act → Prop
  | .create => s.nextSlot = none
  | .release ksk => ksk ∉ s.kskWaiters ∧ s.rxQ ksk = []
  | _ => True

/-- What orderly calls keep. -/
structure Inv (s : State) : Prop where
  nodup : s.live.Nodup
  allocated : ∀ k ∈ s.live, k < s.brk
  slot : ∀ k ∈ s.live, s.rakaiaSocks (s.index k) = some k
  owner : ∀ i k, s.rakaiaSocks i = some k → k ∈ s.live ∧ s.index k = i
  cnt : s.rakaiaSocksCnt = s.live.length
  waitersNodup : s.kskWaiters.Nodup
  waiters : ∀ k ∈ s.kskWaiters, k ∈ s.live
  waitersBm : ∀ i, s.waitersBm i = true ↔ ∃ k, s.rakaiaSocks i = some k ∧ k ∈ s.kskWaiters
  rxNonemptyBm : ∀ i, s.rxNonemptyBm i = true ↔ ∃ k, s.rakaiaSocks i = some k ∧ s.rxQ k ≠ []

section inv

variable {s s' : State} {k : ℕ} {i : Index}

theorem inv_init : Inv .init := by
  constructor <;> simp [State.init]

theorem Inv.coherent (h : Inv s) : Coherent s where
  slot := h.slot
  distinct k hk k' hk' he := by
    have hslot := h.slot k hk
    rw [he, h.slot k' hk'] at hslot
    exact (Option.some.inj hslot).symm
  cnt := h.cnt
  waiters := h.waiters
  waitersBm i hi := by
    obtain ⟨k, hk, hw⟩ := (h.waitersBm i).mp hi
    exact ⟨k, (h.owner i k hk).1, (h.owner i k hk).2, hw⟩
  rxNonemptyBm i hi := by
    obtain ⟨k, hk, hq⟩ := (h.rxNonemptyBm i).mp hi
    exact ⟨k, (h.owner i k hk).1, (h.owner i k hk).2, hq⟩

/-! ### Queues -/

theorem rxQ_setRxQ (s : State) (k j : ℕ) (q : List Skb) :
    (s.setRxQ k q).rxQ j = if j = k then q else s.rxQ j := by
  by_cases hj : j = k
  · subst hj
    simp [State.rxQ, State.setRxQ]
  · simp [State.rxQ, State.setRxQ, hj]

theorem index_setRxQ (s : State) (k j : ℕ) (q : List Skb) : (s.setRxQ k q).index j = s.index j := by
  by_cases hj : j = k
  · subst hj
    simp [State.index, State.setRxQ]
  · simp [State.index, State.setRxQ, hj]

theorem setRxQ_setRxQ (s : State) (k : ℕ) (q q' : List Skb) :
    (s.setRxQ k q).setRxQ k q' = s.setRxQ k q' := by
  simp [State.setRxQ]

/-- A queue changes, and its bit with it. -/
theorem Inv.queue (h : Inv s) (hk : s.rakaiaSocks i = some k) (q : List Skb) :
    Inv ((s.setRxQ k q).setNonempty i (decide (q ≠ []))) where
  nodup := h.nodup
  allocated := h.allocated
  slot j hj := (congrArg s.rakaiaSocks (index_setRxQ s k j q)).trans (h.slot j hj)
  owner j k' hj := ⟨(h.owner j k' hj).1, (index_setRxQ s k k' q).trans (h.owner j k' hj).2⟩
  cnt := h.cnt
  waitersNodup := h.waitersNodup
  waiters := h.waiters
  waitersBm := h.waitersBm
  rxNonemptyBm j := by
    change Function.update s.rxNonemptyBm i _ j = true ↔
      ∃ k', s.rakaiaSocks j = some k' ∧ (s.setRxQ k q).rxQ k' ≠ []
    by_cases hj : j = i
    · subst hj
      rw [Function.update_self, hk, decide_eq_true_iff]
      constructor
      · exact fun hq => ⟨k, rfl, by rwa [rxQ_setRxQ, if_pos rfl]⟩
      · rintro ⟨k', hk', hq⟩
        obtain rfl := Option.some.inj hk'
        rwa [rxQ_setRxQ, if_pos rfl] at hq
    · rw [Function.update_of_ne hj, h.rxNonemptyBm j]
      refine exists_congr fun k' => and_congr_right fun hk' => ?_
      have hne : k' ≠ k := by
        rintro rfl
        exact hj ((h.owner j _ hk').2.symm.trans (h.owner i _ hk).2)
      rw [rxQ_setRxQ, if_neg hne]

/-- A queue changes and stays nonempty: its bit is set already. -/
theorem Inv.queue_of_nonempty (h : Inv s) (hk : s.rakaiaSocks i = some k) (hne : s.rxQ k ≠ [])
    {q : List Skb} (hq : q ≠ []) : Inv (s.setRxQ k q) := by
  have hbit : s.rxNonemptyBm i = true := (h.rxNonemptyBm i).mpr ⟨k, hk, hne⟩
  have heq : (s.setRxQ k q).setNonempty i (decide (q ≠ [])) = s.setRxQ k q := by
    rw [decide_eq_true hq, State.setNonempty, ← hbit]
    exact congrArg (fun b => { s.setRxQ k q with rxNonemptyBm := b }) (Function.update_eq_self i _)
  rw [← heq]
  exact h.queue hk q

theorem Inv.dequeue (h : Inv s) (hk : s.rakaiaSocks i = some k) {skb : Skb}
    (hd : dequeue s k i = some (skb, s')) : Inv s' := by
  unfold Sockets.dequeue at hd
  split at hd
  · cases hd
  · next rest hq =>
      obtain ⟨rfl, rfl⟩ := Prod.mk.inj (Option.some.inj hd)
      split_ifs with hrest
      · obtain rfl := List.length_eq_zero_iff.mp hrest
        exact h.queue hk []
      · exact h.queue_of_nonempty hk (by rw [hq]; simp) (fun he => hrest (by rw [he]; rfl))

/-! ### The list of waiters -/

/-- A live socket enters or leaves the list, and its bit follows. -/
theorem Inv.setWaiters (h : Inv s) (hk : k ∈ s.live) {w : List ℕ} {b : Bool} (hn : w.Nodup)
    (hlive : ∀ j ∈ w, j ∈ s.live) (hb : b = true ↔ k ∈ w) (hw : ∀ j, j ≠ k → (j ∈ w ↔ j ∈ s.kskWaiters)) :
    Inv { s with kskWaiters := w, waitersBm := Function.update s.waitersBm (s.index k) b } where
  nodup := h.nodup
  allocated := h.allocated
  slot := h.slot
  owner := h.owner
  cnt := h.cnt
  waitersNodup := hn
  waiters := hlive
  waitersBm i := by
    change Function.update s.waitersBm (s.index k) b i = true ↔ ∃ j, s.rakaiaSocks i = some j ∧ j ∈ w
    by_cases hi : i = s.index k
    · subst hi
      rw [Function.update_self, hb]
      constructor
      · exact fun hkw => ⟨k, h.slot k hk, hkw⟩
      · rintro ⟨j, hj, hjw⟩
        obtain rfl := Option.some.inj ((h.slot k hk).symm.trans hj)
        exact hjw
    · rw [Function.update_of_ne hi, h.waitersBm i]
      refine exists_congr fun j => and_congr_right fun hj => ?_
      have hne : j ≠ k := by
        rintro rfl
        exact hi (h.owner i _ hj).2.symm
      exact (hw j hne).symm
  rxNonemptyBm := h.rxNonemptyBm

theorem Inv.park (h : Inv s) (hk : k ∈ s.live) (hw : k ∉ s.kskWaiters) : Inv (s.park k) := by
  apply h.setWaiters hk
  · refine List.nodup_append.mpr ⟨h.waitersNodup, List.nodup_singleton _, ?_⟩
    rintro a ha b hb rfl
    obtain rfl := List.mem_singleton.mp hb
    exact hw ha
  · intro j hj
    rcases List.mem_append.mp hj with hj | hj
    · exact h.waiters j hj
    · exact List.mem_singleton.mp hj ▸ hk
  · simp
  · intro j hne
    simp [hne]

/-- The change of a queue is not seen by `rakaia_get_avail_sk`. -/
theorem getAvailSk_setRxQ (s : State) (k : ℕ) (q : List Skb) :
    rakaiaGetAvailSk (s.setRxQ k q) k =
      ((rakaiaGetAvailSk s k).1, (rakaiaGetAvailSk s k).2.setRxQ k q) := by
  have hw : (s.setRxQ k q).kskWaiters = s.kskWaiters := rfl
  have hb : (s.setRxQ k q).waitersBm = s.waitersBm := rfl
  unfold rakaiaGetAvailSk
  rw [hw]
  cases hwaiters : s.kskWaiters with
  | nil => rfl
  | cons first rest =>
      simp only [hb, index_setRxQ]
      rfl

/-- A parked socket leaves the list, and its bit is cleared. -/
theorem Inv.unpark (h : Inv s) (hk : k ∈ s.kskWaiters) : Inv { s with
    kskWaiters := s.kskWaiters.erase k
    waitersBm := Function.update s.waitersBm (s.index k) false } := by
  apply h.setWaiters (h.waiters k hk) (h.waitersNodup.erase k)
  · intro j hj
    exact h.waiters j (List.mem_of_mem_erase hj)
  · simp [List.Nodup.not_mem_erase h.waitersNodup]
  · intro j hne
    exact List.mem_erase_of_ne hne

/-- `rakaia_get_avail_sk` takes a parked socket out of the list and clears its bit. -/
theorem Inv.getAvailSk (h : Inv s) (hk : k ∈ s.live) : Inv (rakaiaGetAvailSk s k).2 := by
  unfold rakaiaGetAvailSk
  cases hwaiters : s.kskWaiters with
  | nil => exact h
  | cons first rest =>
      have hmem : (if s.waitersBm (s.index k) then k else first) ∈ s.kskWaiters := by
        split_ifs with hbit
        · obtain ⟨k', hk', hw⟩ := (h.waitersBm _).mp hbit
          obtain rfl := Option.some.inj ((h.slot k hk).symm.trans hk')
          exact hw
        · rw [hwaiters]
          exact List.mem_cons_self
      have hinv := h.unpark hmem
      rw [hwaiters] at hinv
      exact hinv

theorem getAvailSk_rakaiaSocks (s : State) (k : ℕ) :
    (rakaiaGetAvailSk s k).2.rakaiaSocks = s.rakaiaSocks := by
  unfold rakaiaGetAvailSk
  split <;> rfl

/-! ### Calls -/

/-- A push into an empty queue: the message stays there, or goes on to a parked socket. -/
theorem Inv.dispatch (h : Inv s) {chosen : ℕ} (hi : s.rakaiaSocks i = some chosen) (skb : Skb)
    {newKsk : Option ℕ} {s₁ : State}
    (hs : rakaiaGetAvailSk (s.setRxQ chosen [skb]) chosen = (newKsk, s₁)) :
    s₁.rxQ chosen = [skb] ∧ Inv (s₁.setNonempty (s₁.index chosen) true) ∧
      Inv ((s₁.setRxQ chosen []).setNonempty (s₁.index chosen) false) := by
  have hinv := h.getAvailSk (h.owner i _ hi).1
  have hsocks : (rakaiaGetAvailSk s chosen).2.rakaiaSocks i = some chosen := by
    rw [getAvailSk_rakaiaSocks, hi]
  rw [getAvailSk_setRxQ] at hs
  obtain rfl := (Prod.mk.inj hs).2
  rw [rxQ_setRxQ, if_pos rfl, index_setRxQ, (hinv.owner i _ hsocks).2, setRxQ_setRxQ]
  exact ⟨rfl, hinv.queue hsocks [skb], hinv.queue hsocks []⟩

theorem Inv.push (h : Inv s) {skb : Skb} {psock : PsockPtr} {r1 r2 : UInt8} {e : List Event}
    (hs : rakaiaPushSkbSingleQueue s skb psock r1 r2 = some (s', e)) : Inv s' := by
  unfold rakaiaPushSkbSingleQueue at hs
  dsimp only at hs
  split at hs
  · next ksk1 ksk2 h1 h2 =>
      obtain ⟨i, hi⟩ : ∃ i, s.rakaiaSocks i =
          some (if (s.rxQ ksk1).length ≤ (s.rxQ ksk2).length then ksk1 else ksk2) := by
        split_ifs
        · exact ⟨_, h1⟩
        · exact ⟨_, h2⟩
      generalize (if (s.rxQ ksk1).length ≤ (s.rxQ ksk2).length then ksk1 else ksk2) = chosen at hs hi
      split_ifs at hs with hlen
      · obtain ⟨rfl, -⟩ := Prod.mk.inj (Option.some.inj hs)
        exact h.queue_of_nonempty hi (List.ne_nil_of_length_pos hlen) (by simp)
      · have hempty : s.rxQ chosen = [] := List.length_eq_zero_iff.mp (by omega)
        rw [hempty, List.nil_append] at hs
        split at hs
        · next s₁ havail =>
            obtain ⟨rfl, -⟩ := Prod.mk.inj (Option.some.inj hs)
            exact (h.dispatch hi _ havail).2.1
        · next newKsk s₁ havail =>
            obtain ⟨hq, -, hinv⟩ := h.dispatch hi _ havail
            rw [hq] at hs
            obtain ⟨rfl, -⟩ := Prod.mk.inj (Option.some.inj hs)
            exact hinv
  · cases hs

theorem Inv.steal (h : Inv s) {draws : List (UInt8 × UInt8)} {skb : Skb}
    (hs : rakaiaStealSkb s draws = some (some (skb, s'))) : Inv s' := by
  induction draws with
  | nil =>
      unfold rakaiaStealSkb at hs
      split_ifs at hs
      cases Option.some.inj hs
  | cons r draws ih =>
      unfold rakaiaStealSkb at hs
      split_ifs at hs
      · cases Option.some.inj hs
      · split at hs
        · cases hs
        · next v1 v2 _ =>
            split at hs
            · next s1 s2 h1 h2 =>
                dsimp only at hs
                split at hs
                · next r hd =>
                    obtain rfl := Option.some.inj (Option.some.inj hs)
                    split_ifs at hd
                    · exact h.dequeue h2 hd
                    · exact h.dequeue h1 hd
                · exact ih hs
            · cases hs

theorem Inv.pull (h : Inv s) (hk : k ∈ s.live) {rounds : List (List (UInt8 × UInt8))} {e : List Event}
    (hs : rakaiaPull s k rounds = some (s', e)) : Inv s' := by
  induction rounds with
  | nil => cases hs
  | cons draws rounds ih =>
      unfold rakaiaPull at hs
      split at hs
      · next skb s₁ hd =>
          obtain ⟨rfl, -⟩ := Prod.mk.inj (Option.some.inj hs)
          exact h.dequeue (h.slot k hk) hd
      · split at hs
        · cases hs
        · next skb s₁ hsteal =>
            obtain ⟨rfl, -⟩ := Prod.mk.inj (Option.some.inj hs)
            exact h.steal hsteal
        · split_ifs at hs with hmask hbit hlinked
          · obtain ⟨rfl, -⟩ := Prod.mk.inj (Option.some.inj hs)
            exact h
          · obtain ⟨rfl, -⟩ := Prod.mk.inj (Option.some.inj hs)
            exact h.park hk hlinked
          · exact ih hs

/-- A bitmap that marks sockets with a property, when the socket at one position changes from one
without it to one without it. -/
theorem bitmap_update {bm : Index → Bool} {socks : Index → Option ℕ} {P : ℕ → Prop} {o : Option ℕ}
    (h : ∀ j, bm j = true ↔ ∃ k, socks j = some k ∧ P k) (hold : ∀ k, socks i = some k → ¬ P k)
    (hnew : ∀ k, o = some k → ¬ P k) (j : Index) :
    bm j = true ↔ ∃ k, Function.update socks i o j = some k ∧ P k := by
  rw [h j]
  by_cases hj : j = i
  · subst hj
    rw [Function.update_self]
    exact iff_of_false (fun ⟨k, hk, hp⟩ => hold k hk hp) (fun ⟨k, hk, hp⟩ => hnew k hk hp)
  · rw [Function.update_of_ne hj]

/-- A new socket at a free position, before it is parked. -/
theorem Inv.insert (h : Inv s) (hi : s.rakaiaSocks i = none) : Inv { s with
    heap := Function.update s.heap s.brk ⟨i, []⟩
    brk := s.brk + 1
    live := s.live ++ [s.brk]
    rakaiaSocks := Function.update s.rakaiaSocks i (some s.brk)
    rakaiaSocksCnt := s.rakaiaSocksCnt + 1 } := by
  have hfresh : s.brk ∉ s.live := fun hm => Nat.lt_irrefl _ (h.allocated _ hm)
  have hold : ∀ j ∈ s.live, Function.update s.heap s.brk ⟨i, []⟩ j = s.heap j := by
    intro j hj
    exact Function.update_of_ne (ne_of_mem_of_not_mem hj hfresh) _ _
  have hnew : Function.update s.heap s.brk ⟨i, []⟩ s.brk = ⟨i, []⟩ := Function.update_self ..
  have hfree : ∀ j, s.rakaiaSocks j = some s.brk → False := fun j hj => hfresh (h.owner j _ hj).1
  refine ⟨?_, ?_, ?_, ?_, ?_, h.waitersNodup, fun j hj => List.mem_append_left _ (h.waiters j hj), ?_, ?_⟩
  · refine List.nodup_append.mpr ⟨h.nodup, List.nodup_singleton _, ?_⟩
    rintro a ha b hb rfl
    exact hfresh (List.mem_singleton.mp hb ▸ ha)
  · intro j hj
    rcases List.mem_append.mp hj with hj | hj
    · exact Nat.lt_succ_of_lt (h.allocated j hj)
    · exact List.mem_singleton.mp hj ▸ Nat.lt_succ_self _
  · intro j hj
    rcases List.mem_append.mp hj with hj | hj
    · have hne : s.index j ≠ i := by
        intro he
        rw [← he, h.slot j hj] at hi
        cases hi
      simp only [State.index, hold j hj]
      exact (Function.update_of_ne hne _ _).trans (h.slot j hj)
    · obtain rfl := List.mem_singleton.mp hj
      simp only [State.index, hnew]
      exact Function.update_self ..
  · intro j k hk
    by_cases hj : j = i
    · subst hj
      obtain rfl := Option.some.inj ((Function.update_self j (some s.brk) s.rakaiaSocks).symm.trans hk)
      exact ⟨by simp, by simp only [State.index, hnew]⟩
    · have hk : s.rakaiaSocks j = some k := (Function.update_of_ne hj _ _).symm.trans hk
      obtain ⟨hlive, hidx⟩ := h.owner j k hk
      exact ⟨List.mem_append_left _ hlive, by simp only [State.index, hold k hlive]; exact hidx⟩
  · simp [h.cnt]
  · refine bitmap_update h.waitersBm (by simp [hi]) ?_
    intro k hk hw
    obtain rfl := Option.some.inj hk
    exact hfresh (h.waiters _ hw)
  · refine bitmap_update (P := fun k => (Function.update s.heap s.brk ⟨i, []⟩ k).rxQ ≠ []) ?_ (by simp [hi]) ?_
    · intro j
      rw [h.rxNonemptyBm j]
      refine exists_congr fun k => and_congr_right fun hk => ?_
      rw [hold k (h.owner j k hk).1, State.rxQ]
    · intro k hk hq
      obtain rfl := Option.some.inj hk
      exact hq (congrArg RakaiaSock.rxQ hnew)

theorem Inv.create (h : Inv s) (hg : s.nextSlot = none) : Inv (rakaiaCreate s) := by
  unfold rakaiaCreate
  unfold State.nextSlot at hg
  split_ifs with hcnt
  · rw [dif_pos hcnt] at hg
    refine (h.insert hg).park (by simp) ?_
    exact fun hm => Nat.lt_irrefl _ (h.allocated _ (h.waiters _ hm))
  · exact h

/-- The test of the index in `rakaia_release` never fails. -/
theorem rakaiaRelease_eq (s : State) (k : ℕ) : rakaiaRelease s k = { s with
    live := s.live.erase k
    rakaiaSocks := Function.update s.rakaiaSocks (s.index k) none
    rakaiaSocksCnt := s.rakaiaSocksCnt - 1 } := if_pos (s.index k).isLt.le

theorem Inv.release (h : Inv s) (hk : k ∈ s.live) (hw : k ∉ s.kskWaiters) (hq : s.rxQ k = []) :
    Inv (rakaiaRelease s k) := by
  have hslot := h.slot k hk
  have hsome : ∀ i j, Function.update s.rakaiaSocks (s.index k) none i = some j →
      s.rakaiaSocks i = some j ∧ j ≠ k := by
    intro i j hj
    by_cases hi : i = s.index k
    · subst hi
      rw [Function.update_self] at hj
      cases hj
    · rw [Function.update_of_ne hi] at hj
      refine ⟨hj, ?_⟩
      rintro rfl
      exact hi (h.owner i _ hj).2.symm
  rw [rakaiaRelease_eq]
  refine ⟨h.nodup.erase k, fun j hj => h.allocated j (List.mem_of_mem_erase hj), ?_, ?_, ?_,
    h.waitersNodup, ?_, bitmap_update h.waitersBm ?_ (by simp), bitmap_update h.rxNonemptyBm ?_ (by simp)⟩
  · intro j hj
    have hlive := List.mem_of_mem_erase hj
    refine (Function.update_of_ne ?_ _ _).trans (h.slot j hlive)
    intro he
    obtain rfl := h.coherent.distinct j hlive k hk he
    exact h.nodup.not_mem_erase hj
  · intro i j hj
    obtain ⟨hj, hne⟩ := hsome i j hj
    exact ⟨(List.mem_erase_of_ne hne).mpr (h.owner i j hj).1, (h.owner i j hj).2⟩
  · rw [List.length_erase_of_mem hk, ← h.cnt]
  · intro j hj
    exact (List.mem_erase_of_ne (ne_of_mem_of_not_mem hj hw)).mpr (h.waiters j hj)
  · intro j hj
    obtain rfl := Option.some.inj (hslot.symm.trans hj)
    exact hw
  · intro j hj
    obtain rfl := Option.some.inj (hslot.symm.trans hj)
    exact fun hne => hne hq

/-! ### Runs -/

theorem Inv.step (h : Inv s) {a : Act} {e : List Event} (hg : Orderly s a)
    (hs : step s a = some (s', e)) : Inv s' := by
  cases a with
  | create =>
      obtain ⟨rfl, -⟩ := Prod.mk.inj (Option.some.inj hs)
      exact h.create hg
  | release k =>
      rw [Sockets.step] at hs
      split_ifs at hs with hk
      obtain ⟨rfl, -⟩ := Prod.mk.inj (Option.some.inj hs)
      exact h.release hk hg.1 hg.2
  | push skb psock r1 r2 => exact h.push hs
  | pull k rounds =>
      rw [Sockets.step] at hs
      split_ifs at hs with hk
      exact h.pull hk hs
  | steal k draws =>
      rw [Sockets.step] at hs
      split_ifs at hs with hk
      split at hs
      · cases hs
      · obtain ⟨rfl, -⟩ := Prod.mk.inj (Option.some.inj hs)
        exact h
      · next hsteal =>
          obtain ⟨rfl, -⟩ := Prod.mk.inj (Option.some.inj hs)
          exact h.steal hsteal

theorem inv_of_reach {es : List Event} (h : machine.Reach Orderly s es) : Inv s := by
  refine h.invariant (P := fun s _ => Inv s) inv_init ?_
  intro s es a s' e _ ih hg hs
  exact ih.step hg hs

/-! ### The condition is needed -/

/-- A socket that is parked or has messages leaves its trace behind when it is closed. -/
theorem Inv.release_incoherent (h : Inv s) (hk : k ∈ s.live) (hg : ¬ (k ∉ s.kskWaiters ∧ s.rxQ k = [])) :
    ¬ Coherent (rakaiaRelease s k) := by
  intro hc
  rw [rakaiaRelease_eq] at hc
  by_cases hw : k ∈ s.kskWaiters
  · exact h.nodup.not_mem_erase (hc.waiters k hw)
  · have hq : s.rxQ k ≠ [] := fun hq => hg ⟨hw, hq⟩
    obtain ⟨j, hj, hidx, -⟩ := hc.rxNonemptyBm (s.index k) ((h.rxNonemptyBm _).mpr ⟨k, h.slot k hk, hq⟩)
    obtain rfl := h.coherent.distinct j (List.mem_of_mem_erase hj) k hk hidx
    exact h.nodup.not_mem_erase hj

/-- A socket whose position is given away is lost. -/
theorem Inv.create_incoherent (h : Inv s) (hg : s.nextSlot ≠ none) : ¬ Coherent (rakaiaCreate s) := by
  obtain ⟨k, hk⟩ := Option.ne_none_iff_exists'.mp hg
  unfold State.nextSlot at hk
  split_ifs at hk with hcnt
  intro hc
  obtain ⟨hlive, hidx⟩ := h.owner _ k hk
  have hne : k ≠ s.brk := Nat.ne_of_lt (h.allocated k hlive)
  have hslot := hc.slot k
  simp only [rakaiaCreate, dif_pos hcnt, State.park, State.index, Function.update_of_ne hne] at hslot
  have hslot := hslot (List.mem_append_left _ hlive)
  rw [show (s.heap k).index = _ from hidx, Function.update_self] at hslot
  exact hne (Option.some.inj hslot).symm

/-- **One call**: it leaves a coherent table if and only if it meets the condition. -/
theorem Inv.coherent_iff (h : Inv s) {a : Act} {e : List Event} (hs : Sockets.step s a = some (s', e)) :
    Coherent s' ↔ Orderly s a := by
  constructor
  · intro hc
    by_contra hg
    cases a with
    | create =>
        obtain ⟨rfl, -⟩ := Prod.mk.inj (Option.some.inj hs)
        exact h.create_incoherent hg hc
    | release k =>
        rw [Sockets.step] at hs
        split_ifs at hs with hk
        obtain ⟨rfl, -⟩ := Prod.mk.inj (Option.some.inj hs)
        exact h.release_incoherent hk hg hc
    | push | pull | steal => exact hg trivial
  · exact fun hg => (h.step hg hs).coherent

end inv

/-! ### The main result -/

instance (s : State) : DecidablePred (Orderly s)
  | .create => inferInstanceAs (Decidable (_ = none))
  | .release _ => inferInstanceAs (Decidable (_ ∧ _))
  | .push .. | .pull .. | .steal .. => .isTrue trivial

/-- A message to push. -/
def message : Skb := ⟨0, fun _ => 0, 0⟩

/-- All positions are taken, and the socket at position `r` gets a message. -/
def busyActs (r : UInt8) : List Act := List.replicate numRakaiaSockets .create ++ [.push message 1 r r]

/-- **Coherence of the socket table.**  In every run of calls that meet the condition the table is
coherent in every state reached, and a call that does not meet it leaves an incoherent table. -/
theorem table_coherent {s : State} {es : List Event} (h : machine.Reach Orderly s es) :
    Coherent s ∧ ∀ a s' e, step s a = some (s', e) → (Coherent s' ↔ Orderly s a) :=
  ⟨(inv_of_reach h).coherent, fun _ _ _ hs => (inv_of_reach h).coherent_iff hs⟩

/-- The last socket is busy and is closed, and a new one takes its position. -/
theorem table_coherent_reopened : ∃ s es, machine.Reach Orderly s es ∧
    s.live.length = 20 ∧ s.rakaiaSocks 19 = some 20 ∧ Coherent s := by
  obtain ⟨s, es, hr, hy⟩ := Machine.Reach.of_exec (M := machine) (G := Orderly)
    (g := fun s a => decide (Orderly s a)) (busyActs 19 ++ [.release 19, .create])
    (fun _ _ _ => of_decide_eq_true) (fun r => (r.1.live.length, r.1.rakaiaSocks 19)) (20, some 20)
    (by decide +kernel)
  simp only [Prod.mk.injEq] at hy
  exact ⟨s, es, hr, hy.1, hy.2, (table_coherent hr).1⟩

/-- A socket that is closed while it is parked stays in the list of waiters; and when a busy socket
other than the last is closed, the next one takes the position of the last. -/
theorem table_incoherent :
    (∃ s es, machine.Reachable s es ∧ s.live = [] ∧ s.kskWaiters = [0] ∧ ¬ Coherent s) ∧
    ∃ s es, machine.Reachable s es ∧ 19 ∈ s.live ∧ s.index 19 = 19 ∧ s.rakaiaSocks 19 = some 20 ∧
      ¬ Coherent s := by
  constructor
  · obtain ⟨s, es, hr, hy⟩ := Machine.Reach.of_exec (M := machine) (G := fun _ _ => True)
      (g := fun _ _ => true) [.create, .release 0] (fun _ _ _ _ => trivial)
      (fun r => (r.1.live, r.1.kskWaiters)) ([], [0]) (by decide +kernel)
    simp only [Prod.mk.injEq] at hy
    refine ⟨s, es, hr, hy.1, hy.2, ?_⟩
    intro hc
    have := hc.waiters 0 (by rw [hy.2]; simp)
    rw [hy.1] at this
    cases this
  · obtain ⟨s, es, hr, hy⟩ := Machine.Reach.of_exec (M := machine) (G := fun _ _ => True)
      (g := fun _ _ => true) (busyActs 0 ++ [.release 0, .create]) (fun _ _ _ _ => trivial)
      (fun r => (decide (19 ∈ r.1.live), r.1.index 19, r.1.rakaiaSocks 19)) (true, 19, some 20)
      (by decide +kernel)
    simp only [Prod.mk.injEq, decide_eq_true_iff] at hy
    obtain ⟨hlive, hidx, hslot⟩ := hy
    refine ⟨s, es, hr, hlive, hidx, hslot, ?_⟩
    intro hc
    have := hc.slot 19 hlive
    rw [hidx, hslot] at this
    cases this

end Rakaia.Sockets
