import Mathlib.Algebra.BigOperators.Group.List.Basic
import Mathlib.Data.Int.Notation
import Mathlib.Order.MinMax
import Rakaia.Tx.State

/-! # `rakaia_sendmsg` (plain-tcp)

The call copies the message into segments on a list of its own, `cur_msg`, and charges the rakaia socket for
each segment and each chunk; when everything is copied it takes the charge back and splices the list onto
`tx_wait_queue`.  Every turn of the loop can fail at several points, and all failures end at `do_error`,
where the charge is taken back and the segments are freed if something was copied.

The results of the kernel's functions are the argument `Outcome` of a turn.  The loop that frees the segments
reads the `next` pointer of a segment it has just freed; `intact` says that the freed memory still holds it.

`Selected`, `turn_acc` and the loop rule `copyLoop_invariant` say what a turn and the loop can do. -/

namespace Rakaia.Tx.Sendmsg

/-- A negative error number. -/
abbrev Errno := { e : ℤ // e < 0 }

/-- `-EPIPE`. -/
def epipe : Errno := ⟨-32, by decide⟩

/-- `MAX_SKB_FRAGS`. -/
def maxSkbFrags : ℕ := 17

/-! ### Data -/

/-- A page fragment of a segment. -/
structure Frag where
  page : ℕ
  offset : ℕ
  bytes : List UInt8
deriving DecidableEq, Repr

/-- `struct page_frag`, with the room `size - offset`. -/
structure PageFrag where
  page : ℕ
  offset : ℕ
  room : ℕ
deriving DecidableEq, Repr

/-- A segment of `cur_msg`.  `id` is the identity of the object, `seq` the field of its `tcp_skb_cb`. -/
structure Seg where
  id : ℕ
  len : ℕ
  truesize : ℕ
  seq : UInt32
  frags : List Frag
deriving DecidableEq, Repr

/-- The bytes of a segment. -/
def Seg.bytes (skb : Seg) : List UInt8 := skb.frags.flatMap Frag.bytes

/-- The message and `size_goal`; both lengths are of type `int`. -/
structure Call where
  msg : List UInt8
  sizeGoal : ℕ
  msg_lt : msg.length < 2 ^ 31
  sizeGoal_lt : sizeGoal < 2 ^ 31

/-- What the kernel's functions return in one turn of the loop. -/
structure Outcome where
  /-- `sk_stream_memory_free`. -/
  memoryFree : Bool
  /-- `alloc_skb_fclone`: the `truesize` of the new segment. -/
  alloc : Option ℕ
  /-- `sk_page_frag_refill`: the page fragment after it. -/
  refill : Option PageFrag
  /-- `sk_page_frag_refill`, when it is called again after `goto new_segment`. -/
  refillNew : Option PageFrag
  /-- `sk_wmem_schedule` for the chunk. -/
  scheduled : Bool
  /-- `skb_copy_to_page_nocache`; `none` is success. -/
  copy : Option Errno
  /-- `sk_stream_wait_memory`; `none` is 0. -/
  wait : Option Errno
deriving DecidableEq, Repr

/-- The variables of the loop. -/
structure Acc where
  /-- What is left in `msg->msg_iter`. -/
  left : List UInt8
  curMsg : List Seg
  /-- `sk_page_frag(sk)`. -/
  pfrag : PageFrag
  /-- `sk->sk_wmem_queued`. -/
  wmemQueued : ℤ
  copied : ℕ
  /-- The number of segments allocated so far. -/
  allocs : ℕ
deriving DecidableEq, Repr

/-! ### One turn of the loop -/

/-- `size_goal - skb->len`, in unsigned arithmetic. -/
def spaceIn (sizeGoal len : ℕ) : ℕ := (sizeGoal + 2 ^ 32 - len) % 2 ^ 32

/-- `skb_can_coalesce`: the page fragment continues the last fragment of the segment. -/
def canCoalesce (skb : Seg) (pfrag : PageFrag) : Bool :=
  match skb.frags.getLast? with
  | none => false
  | some f => f.page = pfrag.page && f.offset + f.bytes.length = pfrag.offset

/-- A new segment at the end of `cur_msg`, with its charge. -/
def Acc.push (st : Acc) (truesize : ℕ) : Acc :=
  { st with curMsg := st.curMsg ++ [⟨st.allocs, 0, truesize, 0, []⟩]
            wmemQueued := st.wmemQueued + truesize
            allocs := st.allocs + 1 }

/-- Where the next chunk goes: the position of the segment in `cur_msg`, `copy`, and `merge`. -/
structure Target where
  idx : ℕ
  copy : ℕ
  merge : Bool

/-- From label `new_segment` to the choice of the fragment; no target means `wait_for_space`.  A new segment
has no fragment that could be continued, and is not full. -/
def newSegment (c : Call) (st : Acc) (o : Outcome) (refill : Option PageFrag) : Acc × Option Target :=
  if o.memoryFree then
    match o.alloc with
    | none => (st, none)
    | some truesize =>
        match refill with
        | none => (st.push truesize, none)
        | some pfrag =>
            ({ st.push truesize with pfrag := pfrag },
              some ⟨st.curMsg.length, min c.sizeGoal st.left.length, false⟩)
  else (st, none)

/-- From the head of the loop to the choice of the fragment. -/
def select (c : Call) (st : Acc) (o : Outcome) : Acc × Option Target :=
  match st.curMsg with
  | [] => newSegment c st o o.refill
  | skb :: _ =>
      if spaceIn c.sizeGoal skb.len = 0 then newSegment c st o o.refill
      else
        match o.refill with
        | none => (st, none)
        | some pfrag =>
            let st' := { st with pfrag := pfrag }
            let copy := min (spaceIn c.sizeGoal skb.len) st.left.length
            if canCoalesce skb pfrag then (st', some ⟨0, copy, true⟩)
            else if maxSkbFrags ≤ skb.frags.length then newSegment c st' o o.refillNew
            else (st', some ⟨0, copy, false⟩)

/-- The segment after a chunk was copied to the page fragment. -/
def Seg.fill (skb : Seg) (merge : Bool) (pfrag : PageFrag) (bs : List UInt8) : Seg :=
  { skb with
    len := skb.len + bs.length
    truesize := skb.truesize + bs.length
    seq := skb.seq + UInt32.ofNat bs.length
    frags := if merge then skb.frags.modify (skb.frags.length - 1) (fun f => { f with bytes := f.bytes ++ bs })
      else skb.frags ++ [⟨pfrag.page, pfrag.offset, bs⟩] }

/-- The variables after a chunk of `copy` bytes. -/
def Acc.fill (st : Acc) (idx copy : ℕ) (merge : Bool) : Acc :=
  { st with
    left := st.left.drop copy
    curMsg := st.curMsg.modify idx (fun skb => skb.fill merge st.pfrag (st.left.take copy))
    pfrag := ⟨st.pfrag.page, st.pfrag.offset + copy, st.pfrag.room - copy⟩
    wmemQueued := st.wmemQueued + copy
    copied := st.copied + copy }

/-- How a turn ends. -/
inductive Turn where
  | again (st : Acc)
  /-- Label `do_error`. -/
  | failed (st : Acc) (err : Errno)
  /-- Nothing is left. -/
  | sent (st : Acc)

/-- The variables at the end of a turn. -/
def Turn.acc : Turn → Acc
  | again st | failed st _ | sent st => st

/-- Label `wait_for_space`. -/
def waitForSpace (st : Acc) (o : Outcome) : Turn :=
  match o.wait with
  | none => .again st
  | some err => .failed st err

/-- From the choice of the fragment to the end of the turn. -/
def copyChunk (st : Acc) (o : Outcome) (t : Target) : Turn :=
  let copy := min t.copy st.pfrag.room
  if copy = 0 ∨ o.scheduled = false then waitForSpace st o
  else
    match o.copy with
    | some err => .failed st err
    | none =>
        if (st.fill t.idx copy t.merge).left = [] then .sent (st.fill t.idx copy t.merge)
        else .again (st.fill t.idx copy t.merge)

/-- One turn of the loop. -/
def turn (c : Call) (st : Acc) (o : Outcome) : Turn :=
  match select c st o with
  | (st', none) => waitForSpace st' o
  | (st', some t) => copyChunk st' o t

/-- The loop, with the outcomes it has not used. -/
def copyLoop (c : Call) (st : Acc) : List Outcome → Option (Turn × List Outcome)
  | [] => none
  | o :: os =>
      match turn c st o with
      | .again st' => copyLoop c st' os
      | t => some (t, os)

/-! ### The call -/

/-- What the call reads and changes. -/
structure Sock where
  /-- `sk->sk_err || (sk->sk_shutdown & SEND_SHUTDOWN)`. -/
  broken : Bool
  /-- `sock_error(sk)`. -/
  sockError : Option Errno
  /-- The transmit path of `ksk->last_psock`. -/
  lastPsock : Option State
  wmemQueued : ℤ
  pfrag : PageFrag

/-- What the call returns and leaves behind. -/
structure Result where
  ret : Except Errno ℕ
  lastPsock : Option State
  wmemQueued : ℤ
  /-- The segments that were spliced onto `tx_wait_queue`. -/
  spliced : List Seg
  /-- The number of segments allocated. -/
  allocs : ℕ
  /-- The segments freed. -/
  freed : List ℕ
  /-- The loop at `do_error` has followed a pointer that was no longer there. -/
  astray : Bool

/-- `sk_stream_error`. -/
def skStreamError (s : Sock) (err : Errno) : Errno := if err = epipe then s.sockError.getD epipe else err

/-- The charge of a list of segments. -/
def charge (l : List Seg) : ℤ := (l.map (fun skb => (skb.truesize : ℤ))).sum

/-- Label `do_error`.  When the freed memory does not hold the pointer any more, only the first segment is
known to be freed. -/
def doError (s : Sock) (intact : Bool) (st : Acc) (err : Errno) : Result :=
  let walked := if st.copied = 0 then [] else if intact then st.curMsg else st.curMsg.take 1
  { ret := .error (skStreamError s err)
    lastPsock := s.lastPsock
    wmemQueued := st.wmemQueued - charge walked
    spliced := []
    allocs := st.allocs
    freed := walked.map Seg.id
    astray := decide (st.copied ≠ 0) && !intact }

/-- The end of a call that has copied everything, up to label `out`. -/
def splice (psock : State) (st : Acc) : Result :=
  { ret := .ok st.copied
    lastPsock := some (psock.append (st.curMsg.map Seg.seq))
    wmemQueued := st.wmemQueued - charge st.curMsg
    spliced := st.curMsg
    allocs := st.allocs
    freed := []
    astray := false }

/-- Label `out_error`, before anything is allocated. -/
def outError (s : Sock) : Result := ⟨.error (skStreamError s epipe), s.lastPsock, s.wmemQueued, [], 0, [], false⟩

/-- The variables at the beginning of the loop. -/
def Acc.init (c : Call) (s : Sock) : Acc := ⟨c.msg, [], s.pfrag, s.wmemQueued, 0, 0⟩

/-- `rakaia_sendmsg` up to the splice, with the outcomes it has not used; `none` when they run out. -/
def rakaiaSendmsg (c : Call) (s : Sock) (intact : Bool) (os : List Outcome) : Option (Result × List Outcome) :=
  if s.broken ∨ c.msg = [] then some (outError s, os)
  else
    match s.lastPsock with
    | none => some (outError s, os)
    | some psock =>
        match copyLoop c (.init c s) os with
        | some (.failed st err, rest) => some (doError s intact st err, rest)
        | some (.sent st, rest) => some (splice psock st, rest)
        | _ => none

/-! ### What a turn can do -/

variable {c : Call} {st : Acc} {o : Outcome} {os rest : List Outcome}

/-- A target in `cur_msg`, for a chunk of what is left. -/
structure Target.Fits (t : Target) (st : Acc) : Prop where
  idx : t.idx < st.curMsg.length
  copy : t.copy ≤ st.left.length

/-- The choice of the fragment moves the page fragment, and may allocate a segment. -/
inductive Selected (st : Acc) : Acc × Option Target → Prop
  | kept (pfrag : PageFrag) (t : Option Target) : (∀ x ∈ t, x.Fits st) →
      Selected st ({ st with pfrag := pfrag }, t)
  | pushed (truesize : ℕ) (pfrag : PageFrag) (t : Option Target) : (∀ x ∈ t, x.Fits (st.push truesize)) →
      Selected st ({ st.push truesize with pfrag := pfrag }, t)

theorem newSegment_selected (c : Call) (st : Acc) (o : Outcome) (refill : Option PageFrag) :
    Selected st (newSegment c st o refill) := by
  unfold newSegment
  split_ifs
  · cases o.alloc with
    | none => exact .kept st.pfrag none nofun
    | some truesize =>
        cases refill with
        | none => exact .pushed truesize st.pfrag none nofun
        | some pfrag =>
            refine .pushed truesize pfrag _ ?_
            rintro x ⟨⟩
            exact ⟨by simp [Acc.push], min_le_right _ _⟩
  · exact .kept st.pfrag none nofun

theorem select_nil (h : st.curMsg = []) (c : Call) (o : Outcome) : select c st o = newSegment c st o o.refill := by
  cases st
  cases h
  rfl

theorem select_cons {skb : Seg} {l : List Seg} (h : st.curMsg = skb :: l) (c : Call) (o : Outcome) :
    select c st o =
      if spaceIn c.sizeGoal skb.len = 0 then newSegment c st o o.refill
      else
        match o.refill with
        | none => (st, none)
        | some pfrag =>
            if canCoalesce skb pfrag then
              ({ st with pfrag := pfrag }, some ⟨0, min (spaceIn c.sizeGoal skb.len) st.left.length, true⟩)
            else if maxSkbFrags ≤ skb.frags.length then newSegment c { st with pfrag := pfrag } o o.refillNew
            else ({ st with pfrag := pfrag }, some ⟨0, min (spaceIn c.sizeGoal skb.len) st.left.length, false⟩) := by
  cases st
  cases h
  rfl

/-- Where the page fragment stood before does not matter. -/
theorem Selected.of_pfrag {pfrag : PageFrag} {r : Acc × Option Target}
    (h : Selected { st with pfrag := pfrag } r) : Selected st r := by
  cases h with
  | kept pfrag' t ht => exact .kept pfrag' t (fun x hx => ⟨(ht x hx).idx, (ht x hx).copy⟩)
  | pushed truesize pfrag' t ht =>
      exact .pushed truesize pfrag' t (fun x hx => ⟨(ht x hx).idx, (ht x hx).copy⟩)

theorem select_selected (c : Call) (st : Acc) (o : Outcome) : Selected st (select c st o) := by
  cases hmsg : st.curMsg with
  | nil =>
      rw [select_nil hmsg]
      exact newSegment_selected c st o o.refill
  | cons skb l =>
      have hkept : ∀ pfrag merge, Selected st ({ st with pfrag := pfrag },
          some ⟨0, min (spaceIn c.sizeGoal skb.len) st.left.length, merge⟩) := by
        intro pfrag merge
        refine .kept pfrag _ ?_
        rintro x ⟨⟩
        exact ⟨by simp [hmsg], min_le_right _ _⟩
      rw [select_cons hmsg]
      by_cases hspace : spaceIn c.sizeGoal skb.len = 0
      · rw [if_pos hspace]
        exact newSegment_selected c st o o.refill
      · rw [if_neg hspace]
        cases o.refill with
        | none => exact .kept st.pfrag none nofun
        | some pfrag =>
            dsimp only
            split_ifs
            · exact hkept pfrag true
            · exact (newSegment_selected c _ o o.refillNew).of_pfrag
            · exact hkept pfrag false

@[simp] theorem waitForSpace_acc (st : Acc) (o : Outcome) : (waitForSpace st o).acc = st := by
  unfold waitForSpace
  cases o.wait <;> rfl

/-- A chunk is copied when there is room for it and both calls succeed; otherwise nothing changes. -/
theorem copyChunk_acc (st : Acc) (o : Outcome) (t : Target) : (copyChunk st o t).acc =
    if 0 < min t.copy st.pfrag.room ∧ o.scheduled = true ∧ o.copy = none then
      st.fill t.idx (min t.copy st.pfrag.room) t.merge
    else st := by
  unfold copyChunk
  dsimp only
  generalize min t.copy st.pfrag.room = n
  by_cases h : n = 0 ∨ o.scheduled = false
  · have hno : ¬ (0 < n ∧ o.scheduled = true ∧ o.copy = none) := by
      rintro ⟨hn, hs, -⟩
      rcases h with h | h
      · omega
      · rw [h] at hs
        cases hs
    rw [if_pos h, if_neg hno, waitForSpace_acc]
  · rw [if_neg h]
    rw [not_or, Bool.not_eq_false] at h
    cases o.copy with
    | some err =>
        rw [if_neg (show ¬ (0 < n ∧ o.scheduled = true ∧ some err = none) by simp)]
        rfl
    | none =>
        rw [if_pos (show 0 < n ∧ o.scheduled = true ∧ none = none from ⟨Nat.pos_of_ne_zero h.1, h.2, rfl⟩)]
        dsimp only
        split_ifs <;> rfl

/-- A turn changes the variables only by choosing a fragment and by copying a chunk to it. -/
theorem turn_acc (c : Call) (st : Acc) (o : Outcome) : (turn c st o).acc = (select c st o).1 ∨
    ∃ t n, (select c st o).2 = some t ∧ 0 < n ∧ n ≤ t.copy ∧
      (turn c st o).acc = (select c st o).1.fill t.idx n t.merge := by
  unfold turn
  rcases select c st o with ⟨st', _ | t⟩
  · exact .inl (waitForSpace_acc st' o)
  · dsimp only
    rw [copyChunk_acc]
    split_ifs with h
    · exact .inr ⟨t, _, rfl, h.1, min_le_left _ _, rfl⟩
    · exact .inl rfl

/-- The loop ends with the first turn, or goes on after it. -/
theorem copyLoop_cons {t : Turn} (h : copyLoop c st (o :: os) = some (t, rest)) :
    (t = turn c st o ∧ rest = os) ∨ (∃ st', turn c st o = .again st' ∧ copyLoop c st' os = some (t, rest)) := by
  rw [copyLoop] at h
  cases hturn : turn c st o with
  | again st' =>
      rw [hturn] at h
      exact .inr ⟨st', rfl, h⟩
  | failed st' err =>
      rw [hturn] at h
      obtain ⟨rfl, rfl⟩ := Prod.mk.inj (Option.some.inj h)
      exact .inl ⟨rfl, rfl⟩
  | sent st' =>
      rw [hturn] at h
      obtain ⟨rfl, rfl⟩ := Prod.mk.inj (Option.some.inj h)
      exact .inl ⟨rfl, rfl⟩

/-- **Loop rule**: what every turn keeps holds at the end of the loop. -/
theorem copyLoop_invariant {P : Acc → Prop} (hturn : ∀ st o, P st → P (turn c st o).acc) {t : Turn}
    (hP : P st) (h : copyLoop c st os = some (t, rest)) : P t.acc := by
  induction os generalizing st with
  | nil => cases h
  | cons o os ih =>
      have hnext := hturn st o hP
      rcases copyLoop_cons h with ⟨rfl, -⟩ | ⟨st', hagain, h'⟩
      · exact hnext
      · rw [hagain] at hnext
        exact ih hnext h'

end Rakaia.Tx.Sendmsg
