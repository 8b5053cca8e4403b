import Mathlib.Data.List.Nodup
import Mathlib.Tactic.Ring
import Rakaia.Tx.Sendmsg

/-! # What a failed `rakaia_sendmsg` leaves behind (plain-tcp)

At any time the charge of the call is that of the segments in `cur_msg`, which are all it has allocated
(`Books`).  So a call that succeeds takes back what it charged, and so does one that fails after its first
chunk.  But `do_error` looks at `copied`: a call that has got a segment and fails before its first chunk
leaves the segment and its charge behind (`sendmsg_clean_iff`). -/

namespace Rakaia.Tx.Sendmsg

variable {c : Call} {s : Sock} {st : Acc} {o : Outcome} {os rest : List Outcome} {w : ℤ}

/-! ### The charge -/

/-- The charge is that of the segments in `cur_msg`, which are all that were allocated. -/
structure Books (w : ℤ) (st : Acc) : Prop where
  charged : st.wmemQueued = w + charge st.curMsg
  ids : st.curMsg.map Seg.id = List.range st.allocs

theorem charge_append (l l' : List Seg) : charge (l ++ l') = charge l + charge l' := by
  simp [charge]

theorem charge_fill (merge : Bool) (pfrag : PageFrag) (bs : List UInt8) {l : List Seg} {k : ℕ} (hk : k < l.length) :
    charge (l.modify k (fun skb => skb.fill merge pfrag bs)) = charge l + bs.length := by
  induction l generalizing k with
  | nil => cases hk
  | cons skb l ih =>
      cases k with
      | zero =>
          simp only [List.modify_zero_cons, charge, List.map_cons, List.sum_cons, Seg.fill]
          push_cast
          ring
      | succ k =>
          have := ih (Nat.lt_of_succ_lt_succ hk)
          simp only [charge, List.modify_succ_cons, List.map_cons, List.sum_cons] at this ⊢
          rw [this]
          ring

theorem ids_fill (merge : Bool) (pfrag : PageFrag) (bs : List UInt8) (l : List Seg) (k : ℕ) :
    (l.modify k (fun skb => skb.fill merge pfrag bs)).map Seg.id = l.map Seg.id := by
  induction l generalizing k with
  | nil => simp
  | cons skb l ih =>
      cases k with
      | zero => rfl
      | succ k => rw [List.modify_succ_cons, List.map_cons, ih, List.map_cons]

theorem Books.push (h : Books w st) (truesize : ℕ) : Books w (st.push truesize) := by
  refine ⟨?_, ?_⟩
  · simp only [Acc.push, charge_append, h.charged]
    simp [charge, add_assoc]
  · simp [Acc.push, h.ids, List.range_succ]

theorem Books.fill (h : Books w st) {k n : ℕ} (hk : k < st.curMsg.length) (hn : n ≤ st.left.length)
    (merge : Bool) : Books w (st.fill k n merge) := by
  refine ⟨?_, (ids_fill _ _ _ _ _).trans h.ids⟩
  simp only [Acc.fill, charge_fill _ _ _ hk, List.length_take, min_eq_left hn, h.charged]
  ring

theorem Selected.books (h : Books w st) {r : Acc × Option Target} (hr : Selected st r) :
    Books w r.1 ∧ ∀ t ∈ r.2, t.Fits r.1 := by
  cases hr with
  | kept pfrag t ht => exact ⟨⟨h.charged, h.ids⟩, fun x hx => ⟨(ht x hx).idx, (ht x hx).copy⟩⟩
  | pushed truesize pfrag t ht =>
      exact ⟨⟨(h.push truesize).charged, (h.push truesize).ids⟩, fun x hx => ⟨(ht x hx).idx, (ht x hx).copy⟩⟩

theorem Books.turn (h : Books w st) (c : Call) (o : Outcome) : Books w (turn c st o).acc := by
  obtain ⟨hbooks, hfits⟩ := (select_selected c st o).books h
  rcases turn_acc c st o with hacc | ⟨t, n, ht, -, hn, hacc⟩
  · rw [hacc]
    exact hbooks
  · have hfit := hfits t ht
    rw [hacc]
    exact hbooks.fill hfit.idx (le_trans hn hfit.copy) t.merge

/-! ### Before the first chunk -/

/-- The kernel has memory for a segment. -/
def Outcome.allocs (o : Outcome) : Bool := o.memoryFree && o.alloc.isSome

/-- An empty segment gets a chunk. -/
def Outcome.fills (c : Call) (o : Outcome) : Bool :=
  decide (0 < c.sizeGoal) && o.refill.any (fun pfrag => decide (0 < pfrag.room)) && o.scheduled && o.copy.isNone

/-- The outcomes from the first one on that gives a segment. -/
def started (os : List Outcome) : List Outcome := os.dropWhile (fun o => !o.allocs)

/-- Nothing is allocated yet. -/
structure Acc.Dry (st : Acc) : Prop where
  left : st.left ≠ []
  curMsg : st.curMsg = []
  copied : st.copied = 0

/-- There are segments, and nothing is copied yet. -/
structure Acc.Empty (st : Acc) : Prop where
  left : st.left ≠ []
  ne_nil : st.curMsg ≠ []
  empty : ∀ skb ∈ st.curMsg, skb.len = 0 ∧ skb.frags = []
  copied : st.copied = 0

theorem Selected.copied {r : Acc × Option Target} (h : Selected st r) : r.1.copied = st.copied := by
  cases h <;> rfl

theorem turn_wet (c : Call) (st : Acc) (o : Outcome) (h : 0 < st.copied) : 0 < (turn c st o).acc.copied := by
  rw [← (select_selected c st o).copied] at h
  rcases turn_acc c st o with hacc | ⟨t, n, -, -, -, hacc⟩
  · rw [hacc]
    exact h
  · rw [hacc]
    exact Nat.add_pos_left h n

theorem Acc.Empty.pfrag (h : st.Empty) (pfrag : PageFrag) : Acc.Empty { st with pfrag := pfrag } :=
  ⟨h.left, h.ne_nil, h.empty, h.copied⟩

/-- A pushed segment is empty, like all others. -/
theorem empty_push (hleft : st.left ≠ []) (hempty : ∀ skb ∈ st.curMsg, skb.len = 0 ∧ skb.frags = [])
    (hcopied : st.copied = 0) (truesize : ℕ) : (st.push truesize).Empty := by
  refine ⟨hleft, by simp [Acc.push], ?_, hcopied⟩
  intro skb hskb
  rcases List.mem_append.mp hskb with hskb | hskb
  · exact hempty skb hskb
  · obtain rfl := List.mem_singleton.mp hskb
    exact ⟨rfl, rfl⟩

/-- The chunk of an empty segment, from the page fragment after the first refill. -/
theorem copyChunk_of_empty {pfrag : PageFrag} (hE : st.Empty) (hp : st.pfrag = pfrag)
    (hrefill : o.refill = some pfrag) {t : Target} (ht : t.copy = min c.sizeGoal st.left.length) :
    (o.fills c = true → 0 < (copyChunk st o t).acc.copied) ∧ (o.fills c = false → (copyChunk st o t).acc.Empty) := by
  have hlen : 0 < st.left.length := List.length_pos_iff.mpr hE.left
  have hiff : (0 < min t.copy st.pfrag.room ∧ o.scheduled = true ∧ o.copy = none) ↔ o.fills c = true := by
    rw [Outcome.fills, hrefill, ht, hp, Option.any_some, lt_min_iff, lt_min_iff]
    simp [hlen, and_assoc]
  rw [copyChunk_acc]
  constructor
  · intro hf
    have hpos := hiff.mpr hf
    rw [if_pos hpos]
    exact Nat.add_pos_right st.copied hpos.1
  · intro hf
    rw [if_neg (fun h => by rw [hiff.mp h] at hf; cases hf)]
    exact hE

theorem spaceIn_zero (c : Call) : spaceIn c.sizeGoal 0 = c.sizeGoal := by
  have := c.sizeGoal_lt
  unfold spaceIn
  omega

/-- A turn that starts with a new segment. -/
theorem turn_of_newSegment (hsel : select c st o = newSegment c st o o.refill) (hleft : st.left ≠ [])
    (hempty : ∀ skb ∈ st.curMsg, skb.len = 0 ∧ skb.frags = []) (hcopied : st.copied = 0)
    (ha : o.allocs = true) :
    (o.fills c = true → 0 < (turn c st o).acc.copied) ∧ (o.fills c = false → (turn c st o).acc.Empty) := by
  rw [Outcome.allocs, Bool.and_eq_true] at ha
  obtain ⟨truesize, hts⟩ := Option.isSome_iff_exists.mp ha.2
  have hE := empty_push hleft hempty hcopied truesize
  rw [newSegment, if_pos ha.1, hts] at hsel
  rw [turn, hsel]
  cases hrefill : o.refill with
  | none =>
      dsimp only
      rw [waitForSpace_acc]
      exact ⟨fun hf => by simp [Outcome.fills, hrefill] at hf, fun _ => hE⟩
  | some pfrag => exact copyChunk_of_empty (hE.pfrag pfrag) rfl hrefill rfl

theorem turn_of_not_allocs (hsel : select c st o = newSegment c st o o.refill) (ha : o.allocs = false) :
    (turn c st o).acc = st := by
  have hnone : newSegment c st o o.refill = (st, none) := by
    rw [newSegment]
    split_ifs with hfree
    · rw [Outcome.allocs, hfree, Bool.true_and, Option.isSome_eq_false_iff, Option.isNone_iff_eq_none] at ha
      rw [ha]
    · rfl
  rw [turn, hsel, hnone]
  exact waitForSpace_acc st o

theorem turn_dry (h : st.Dry) (ha : o.allocs = true) :
    (o.fills c = true → 0 < (turn c st o).acc.copied) ∧ (o.fills c = false → (turn c st o).acc.Empty) :=
  turn_of_newSegment (select_nil h.curMsg c o) h.left (by simp [h.curMsg]) h.copied ha

theorem turn_empty (h : st.Empty) :
    (o.fills c = true → 0 < (turn c st o).acc.copied) ∧ (o.fills c = false → (turn c st o).acc.Empty) := by
  obtain ⟨skb, l, hmsg⟩ := List.exists_cons_of_ne_nil h.ne_nil
  obtain ⟨hlen, hfrags⟩ := h.empty skb (by rw [hmsg]; exact List.mem_cons_self)
  have hsel := select_cons hmsg c o
  rw [hlen, spaceIn_zero] at hsel
  by_cases hgoal : c.sizeGoal = 0
  · -- with `size_goal` 0 every turn asks for a new segment and copies nothing
    rw [if_pos hgoal] at hsel
    have hno : o.fills c = false := by simp [Outcome.fills, hgoal]
    cases ha : o.allocs with
    | true => exact turn_of_newSegment hsel h.left h.empty h.copied ha
    | false =>
        rw [turn_of_not_allocs hsel ha, hno]
        exact ⟨nofun, fun _ => h⟩
  · rw [if_neg hgoal] at hsel
    rw [turn, hsel]
    cases hrefill : o.refill with
    | none =>
        dsimp only
        rw [waitForSpace_acc]
        exact ⟨fun hf => by simp [Outcome.fills, hrefill] at hf, fun _ => h⟩
    | some pfrag =>
        have hco : canCoalesce skb pfrag = false := by simp [canCoalesce, hfrags]
        have hfull : ¬ maxSkbFrags ≤ skb.frags.length := by rw [hfrags]; decide
        dsimp only
        rw [hco, if_neg Bool.false_ne_true, if_neg hfull]
        exact copyChunk_of_empty (h.pfrag pfrag) rfl hrefill rfl

/-- How a loop ends that has a segment: something is copied just when one of the outcomes gives the empty
segment its chunk. -/
def Ends (c : Call) (os : List Outcome) (t : Turn) : Prop :=
  ((∃ o ∈ os, o.fills c = true) → 0 < t.acc.copied) ∧ ((∀ o ∈ os, o.fills c = false) → t.acc.Empty)

/-- The rest of the loop after a turn that leaves an empty segment or fills it. -/
theorem ends_cons {t : Turn}
    (hturn : (o.fills c = true → 0 < (turn c st o).acc.copied) ∧ (o.fills c = false → (turn c st o).acc.Empty))
    (hrest : ∀ st', st'.Empty → copyLoop c st' os = some (t, []) → Ends c os t)
    (h : copyLoop c st (o :: os) = some (t, [])) : Ends c (o :: os) t := by
  rcases copyLoop_cons h with ⟨rfl, rfl⟩ | ⟨st', hagain, h'⟩
  · simpa [Ends] using hturn
  · rw [hagain] at hturn
    cases hf : o.fills c with
    | true =>
        have hwet := copyLoop_invariant (turn_wet c) (hturn.1 hf) h'
        refine ⟨fun _ => hwet, fun hall => ?_⟩
        rw [hall o List.mem_cons_self] at hf
        cases hf
    | false =>
        obtain ⟨hwet, hempty⟩ := hrest st' (hturn.2 hf) h'
        refine ⟨?_, fun hall => hempty (fun x hx => hall x (List.mem_cons_of_mem _ hx))⟩
        rintro ⟨x, hx, hfx⟩
        rcases List.mem_cons.mp hx with rfl | hx
        · rw [hf] at hfx
          cases hfx
        · exact hwet ⟨x, hx, hfx⟩

theorem copyLoop_empty {t : Turn} (hE : st.Empty) (h : copyLoop c st os = some (t, [])) : Ends c os t := by
  induction os generalizing st with
  | nil => cases h
  | cons o os ih => exact ends_cons (turn_empty hE) (fun st' hE' h' => ih hE' h') h

/-- A loop that gets no segment ends as it began; any other ends as its outcomes say from the first segment
on. -/
theorem copyLoop_dry {t : Turn} (hD : st.Dry) (h : copyLoop c st os = some (t, [])) :
    (started os = [] → t.acc.Dry) ∧ (started os ≠ [] → Ends c (started os) t) := by
  induction os generalizing st with
  | nil => cases h
  | cons o os ih =>
      cases ha : o.allocs with
      | true =>
          have hstart : started (o :: os) = o :: os := by simp [started, ha]
          rw [hstart]
          exact ⟨nofun, fun _ => ends_cons (turn_dry hD ha) (fun st' hE h' => copyLoop_empty hE h') h⟩
      | false =>
          have hstart : started (o :: os) = started os := by simp [started, ha]
          have hsame := turn_of_not_allocs (select_nil hD.curMsg c o) ha
          rw [hstart]
          rcases copyLoop_cons h with ⟨rfl, rfl⟩ | ⟨st', hagain, h'⟩
          · rw [hsame]
            exact ⟨fun _ => hD, fun hne => absurd rfl hne⟩
          · rw [hagain] at hsame
            obtain rfl : st' = st := hsame
            exact ih hD h'

/-! ### The main result -/

/-- **A failed call has no effect**: the psock with its `tx_wait_queue` and the charge of the socket are what
they were, and every segment has been freed exactly once, in a walk along `cur_msg`. -/
structure Clean (s : Sock) (r : Result) : Prop where
  lastPsock : r.lastPsock = s.lastPsock
  wmemQueued : r.wmemQueued = s.wmemQueued
  freed : ∀ id < r.allocs, r.freed.count id = 1
  walk : r.astray = false

variable {intact : Bool} {err : Errno} {r : Result}

theorem rakaiaSendmsg_cases (h : rakaiaSendmsg c s intact os = some (r, rest)) :
    (r = outError s ∧ rest = os) ∨ ∃ psock, s.lastPsock = some psock ∧ c.msg ≠ [] ∧
      ((∃ st err, copyLoop c (.init c s) os = some (.failed st err, rest) ∧ r = doError s intact st err) ∨
        ∃ st, copyLoop c (.init c s) os = some (.sent st, rest) ∧ r = splice psock st) := by
  unfold rakaiaSendmsg at h
  split_ifs at h with hearly
  · obtain ⟨rfl, rfl⟩ := Prod.mk.inj (Option.some.inj h)
    exact .inl ⟨rfl, rfl⟩
  · cases hpsock : s.lastPsock with
    | none =>
        rw [hpsock] at h
        obtain ⟨rfl, rfl⟩ := Prod.mk.inj (Option.some.inj h)
        exact .inl ⟨rfl, rfl⟩
    | some psock =>
        refine .inr ⟨psock, rfl, fun hnil => hearly (.inr hnil), ?_⟩
        rw [hpsock] at h
        rcases hloop : copyLoop c (.init c s) os with _ | ⟨_ | ⟨st, err⟩ | st, rest'⟩
        · rw [hloop] at h
          cases h
        · rw [hloop] at h
          cases h
        · rw [hloop] at h
          obtain ⟨rfl, rfl⟩ := Prod.mk.inj (Option.some.inj h)
          exact .inl ⟨st, err, rfl, rfl⟩
        · rw [hloop] at h
          obtain ⟨rfl, rfl⟩ := Prod.mk.inj (Option.some.inj h)
          exact .inr ⟨st, rfl, rfl⟩

theorem doError_of_dry (hb : Books s.wmemQueued st) (h : st.Dry) : Clean s (doError s intact st err) := by
  have hallocs : st.allocs = 0 := by
    have := congrArg List.length hb.ids
    simpa [h.curMsg] using this.symm
  refine ⟨rfl, ?_, ?_, ?_⟩
  · simp [doError, h.copied, hb.charged, h.curMsg, charge]
  · simp [doError, hallocs]
  · simp [doError, h.copied]

/-- The first segment is not freed when nothing was copied. -/
theorem doError_of_empty (hb : Books s.wmemQueued st) (h : st.Empty) : ¬ Clean s (doError s intact st err) := by
  intro hclean
  have hallocs : 0 < st.allocs := by
    have := congrArg List.length hb.ids
    rw [List.length_map, List.length_range] at this
    rw [← this]
    exact List.length_pos_iff.mpr h.ne_nil
  have hcount := hclean.freed 0 hallocs
  simp [doError, h.copied] at hcount

theorem doError_of_wet (hb : Books s.wmemQueued st) (h : 0 < st.copied) :
    Clean s (doError s intact st err) ↔ intact = true := by
  have hne : st.copied ≠ 0 := by omega
  constructor
  · intro hclean
    simpa [doError, hne] using hclean.walk
  · rintro rfl
    refine ⟨rfl, ?_, ?_, ?_⟩
    · simp [doError, hne, hb.charged]
    · intro id hid
      simp only [doError, if_neg hne, if_true, hb.ids]
      exact List.count_eq_one_of_mem List.nodup_range (List.mem_range.mpr hid)
    · simp [doError]

theorem books_init (c : Call) (s : Sock) : Books s.wmemQueued (.init c s) := ⟨by simp [Acc.init, charge], rfl⟩

/-- **Failed and successful calls.**  For every message, `size_goal`, page fragment and sequence of outcomes,
all of which the call uses: if it fails, it has no effect if and only if no outcome gave it a segment, or one
from that on filled the empty segment and the freed memory still holds the pointers.  If it succeeds, the
charge of the socket is what it was. -/
theorem sendmsg_clean_iff (h : rakaiaSendmsg c s intact os = some (r, [])) :
    (∀ err, r.ret = .error err →
      (Clean s r ↔ started os = [] ∨ (∃ o ∈ started os, o.fills c = true) ∧ intact = true)) ∧
    ∀ n, r.ret = .ok n → r.wmemQueued = s.wmemQueued := by
  rcases rakaiaSendmsg_cases h with ⟨rfl, rfl⟩ | ⟨psock, -, hmsg, ⟨st, err, hloop, rfl⟩ | ⟨st, hloop, rfl⟩⟩
  · exact ⟨fun _ _ => iff_of_true ⟨rfl, rfl, nofun, rfl⟩ (.inl rfl), nofun⟩
  · refine ⟨fun _ _ => ?_, nofun⟩
    have hb : Books s.wmemQueued st := copyLoop_invariant (fun _ o hb => hb.turn c o) (books_init c s) hloop
    have hinit : (Acc.init c s).Dry := ⟨hmsg, rfl, rfl⟩
    obtain ⟨hdry, hends⟩ := copyLoop_dry hinit hloop
    by_cases hstart : started os = []
    · exact iff_of_true (doError_of_dry hb (hdry hstart)) (.inl hstart)
    · obtain ⟨hwet, hempty⟩ := hends hstart
      by_cases hf : ∃ o ∈ started os, o.fills c = true
      · rw [doError_of_wet hb (hwet hf)]
        simp [hstart, hf]
      · refine iff_of_false (doError_of_empty hb (hempty ?_)) (by simp [hstart, hf])
        intro o ho
        exact Bool.eq_false_iff.mpr (fun hfo => hf ⟨o, ho, hfo⟩)
  · refine ⟨nofun, fun _ _ => ?_⟩
    have hb : Books s.wmemQueued st := copyLoop_invariant (fun _ o hb => hb.turn c o) (books_init c s) hloop
    simp [splice, hb.charged]

/-- Three bytes are sent with a `size_goal` of ten. -/
def threeBytes : Call := ⟨[1, 2, 3], 10, by decide, by decide⟩

/-- A socket on which nothing is charged. -/
def idleSock : Sock := ⟨false, none, some (.init 0), 0, ⟨0, 0, 0⟩⟩

/-- A turn in which everything succeeds, with two bytes of room, and one in which the copy faults. -/
def goodTurn : Outcome := ⟨true, some 512, some ⟨7, 0, 2⟩, none, true, none, none⟩
def faultyTurn : Outcome := ⟨true, some 512, some ⟨8, 0, 32⟩, none, true, some ⟨-14, by decide⟩, none⟩

/-- The copy of the second chunk faults: the call fails and has no effect. -/
theorem sendmsg_clean_secondChunk : ∃ r err,
    rakaiaSendmsg threeBytes idleSock true [goodTurn, faultyTurn] = some (r, []) ∧ r.ret = .error err ∧
    Clean idleSock r := by
  obtain ⟨r, hr⟩ : ∃ r, rakaiaSendmsg threeBytes idleSock true [goodTurn, faultyTurn] = some (r, []) :=
    ⟨_, rfl⟩
  obtain ⟨err, hret⟩ : ∃ err, r.ret = .error err := by
    cases hr
    exact ⟨_, rfl⟩
  exact ⟨r, err, hr, hret, ((sendmsg_clean_iff hr).1 err hret).mpr (by decide)⟩

/-- The copy of the first chunk faults: the call fails, the socket stays charged with 512 bytes, and the
segment is never freed. -/
theorem sendmsg_leaks : ∃ r err, rakaiaSendmsg threeBytes idleSock true [faultyTurn] = some (r, []) ∧
    r.ret = .error err ∧ err.val = -14 ∧ r.wmemQueued = 512 ∧ idleSock.wmemQueued = 0 ∧ r.allocs = 1 ∧
    r.freed = [] :=
  ⟨_, _, rfl, rfl, rfl, rfl, rfl, rfl, rfl⟩

end Rakaia.Tx.Sendmsg
