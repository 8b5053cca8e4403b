import Rakaia.H2.Reassembly

/-! # What `rakaia_recvmsg` reports (grpc)

`skb_copy_datagram_msg_http2` adds up the lengths of all frames of a message, whether they fit into the
user's buffer or not, and keeps the result of the last copy only; `rakaia_recvmsg` returns the sum as soon
as it is not zero.  So the call tells the truth about messages that fit, and about others only when the sum
wraps around and a copy happens to fault: it returns more than it stored for a message that is too long, and
no error (`recvmsg_reports_iff`). -/

namespace Rakaia.H2

open Lib

variable {s : State} {l : List ℕ} {acc : Bool × Int32 × Iter}

/-- The bytes of the frames at the given addresses. -/
def State.message (s : State) (l : List ℕ) : List UInt8 := l.flatMap (fun a => (s.heap a).content)

/-- Copying one of the frames returns `-EFAULT`. -/
def copyFaults (s : State) : Bool × Int32 × Iter → List ℕ → Bool
  | _, [] => false
  | acc, a :: l => !(copyFrame s acc a).1 || copyFaults s (copyFrame s acc a) l

/-- The last event of `rakaia_recvmsg`. -/
def returned? (e : List Event) : Option Returned :=
  match e.getLast? with
  | some (.returned _ r) => some r
  | _ => none

/-- **An honest report** of a call with a buffer of `len` bytes: an error if a copy faulted, and otherwise
the number of bytes stored, which are the first bytes of the message, at most `len`, with `MSG_TRUNC` set
just when the message is longer. -/
def Reports (msg : List UInt8) (len : ℕ) (faults : Bool) (r : Returned) : Prop :=
  if faults then r.ret < 0
  else r.ret ≤ len ∧ r.ret = r.stored.length ∧ r.stored = msg.take r.stored.length ∧
    (r.trunc = true ↔ len < msg.length)

instance (msg : List UInt8) (len : ℕ) (faults : Bool) (r : Returned) :
    Decidable (Reports msg len faults r) :=
  inferInstanceAs (Decidable (if faults = true then r.ret < 0
    else r.ret ≤ len ∧ r.ret = r.stored.length ∧ r.stored = msg.take r.stored.length ∧
      (r.trunc = true ↔ len < msg.length)))

/-! ### The loop over the frames -/

theorem message_cons (s : State) (a : ℕ) (l : List ℕ) :
    s.message (a :: l) = (s.heap a).content ++ s.message l := rfl

/-- The sum is taken whatever the copies do. -/
theorem copyFrames_sum (h : ∀ a ∈ l, (s.heap a).Complete) (acc : Bool × Int32 × Iter) :
    (l.foldl (copyFrame s) acc).2.1 = acc.2.1 + Int32.ofNat (s.message l).length := by
  induction l generalizing acc with
  | nil => exact (Int32.add_zero _).symm
  | cons a l ih =>
      rw [List.foldl_cons, ih (fun b hb => h b (List.mem_cons_of_mem _ hb)), message_cons, List.length_append,
        (h a List.mem_cons_self).length_content, Int32.ofNat_add, ← Int32.add_assoc]
      rfl

/-- A loop in which no copy faults stores the whole message, as far as there is room. -/
theorem copyFrames_copies (h : ∀ a ∈ l, (s.heap a).Complete) (hf : copyFaults s acc l = false) :
    acc.2.2.Copies (s.message l).length 0 (l.foldl (copyFrame s) acc).2.2 := by
  induction l generalizing acc with
  | nil => exact .refl 0 acc.2.2
  | cons a l ih =>
      have hc := h a List.mem_cons_self
      rw [copyFaults, Bool.or_eq_false_iff, Bool.not_eq_false'] at hf
      have hfirst : acc.2.2.Copies (s.heap a).content.length 0 (copyFrame s acc a).2.2 := by
        rw [hc.length_content]
        exact datagramIter_copies hc.laid _ _ _ _ (Prod.ext hf.1 rfl)
      have hpart := hfirst.add (s.message l).length
      rw [Nat.zero_add] at hpart
      rw [message_cons, List.length_append]
      exact hpart.trans (ih (fun b hb => h b (List.mem_cons_of_mem _ hb)) hf.2)

/-- When the user's buffer takes all frames no copy faults. -/
theorem copyFaults_eq_false (h : ∀ a ∈ l, (s.heap a).Complete)
    (ht : acc.2.2.Takes (s.message l).length) : copyFaults s acc l = false := by
  induction l generalizing acc with
  | nil => rfl
  | cons a l ih =>
      have hc := h a List.mem_cons_self
      rw [message_cons, List.length_append] at ht
      have hcopy : copyFrame s acc a = (true, acc.2.1 + Int32.ofNat (s.heap a).content.length,
          acc.2.2.push (s.heap a).content) :=
        copyFrame_eq (f := (a, s.heap a)) ⟨rfl, rfl, rfl, hc.laid⟩ hc (ht.mono (Nat.le_add_right _ _))
      rw [copyFaults, hcopy, ih (fun b hb => h b (List.mem_cons_of_mem _ hb)) ht.push]
      rfl

/-! ### The main result -/

variable {head : ℕ}

theorem message_pos (hl : s.chain head = some l) (h : ∀ a ∈ l, (s.heap a).Complete) :
    0 < (s.message l).length := by
  obtain ⟨t, ht, hhead, -⟩ := follow_eq_foldl hl (fun (_ : Unit) _ => ()) ()
  obtain ⟨rest, hrest⟩ := List.head?_eq_some_iff.mp hhead
  rw [List.nil_append, hrest] at ht
  subst ht
  have hc := h head List.mem_cons_self
  have := hc.header
  rw [message_cons, List.length_append, hc.length_content]
  omega

/-- The call returns; what it returns is computed from the loop over the frames. -/
theorem rakaiaRecvmsg_returned (hl : s.chain head = some l) (len mapped : ℕ) (dgram : Bool) :
    (rakaiaRecvmsg s head len mapped dgram).bind (fun r => returned? r.2) =
      some (recvResult len dgram (l.foldl (copyFrame s) (true, 0, ⟨[], len, mapped⟩))) := by
  obtain ⟨t, ht, -, hcopy⟩ := follow_eq_foldl hl (copyFrame s) (true, 0, ⟨[], len, mapped⟩)
  rw [List.nil_append] at ht
  subst ht
  rw [rakaiaRecvmsg, copyDatagramMsgHttp2, hcopy, hl, Option.bind_some, returned?]
  simp

section result

variable {len n : ℕ} {dgram : Bool} {r : Bool × Int32 × Iter}

/-- The sum of the lengths, as an `int`. -/
theorem toInt_sum (hr : r.2.1 = 0 + Int32.ofNat n) : r.2.1.toInt = (n : ℤ).bmod (2 ^ 32) := by
  rw [hr, Int32.zero_add]
  exact Int32.toInt_ofNat'

theorem sum_eq_zero_iff : r.2.1 = 0 ↔ r.2.1.toInt = 0 := Int32.toInt_inj.symm

/-- The call returns an error when the sum wraps to a negative number, or to zero after a last copy that
faulted. -/
theorem recvResult_neg_iff (len : ℕ) (dgram : Bool) (hr : r.2.1 = 0 + Int32.ofNat n) :
    (recvResult len dgram r).ret < 0 ↔ 2 ^ 31 ≤ n % 2 ^ 32 ∨ n % 2 ^ 32 = 0 ∧ r.1 = false := by
  have hv := toInt_sum hr
  have hzero := sum_eq_zero_iff (r := r)
  simp only [recvResult]
  generalize r.2.1.toInt = v at hv hzero ⊢
  rw [Int.bmod] at hv
  by_cases hc : r.2.1 = 0
  · have h0 := hzero.mp hc
    rw [if_neg (not_not.mpr hc)]
    cases r.1 with
    | true =>
        simp only [if_true, Bool.true_eq_false, and_false, or_false]
        split_ifs at hv <;> omega
    | false =>
        simp only [Bool.false_eq_true, if_false, and_true]
        split_ifs at hv <;> omega
  · have h0 : v ≠ 0 := fun h => hc (hzero.mpr h)
    rw [if_pos hc]
    split_ifs at hv <;> omega

/-- A result that says `MSG_TRUNC` says a length beyond the buffer. -/
theorem recvResult_trunc (h : (recvResult len dgram r).trunc = true) (hnn : 0 ≤ (recvResult len dgram r).ret) :
    (len : ℤ) < (recvResult len dgram r).ret := by
  have hlt := r.2.1.toInt_lt
  simp only [recvResult, Bool.and_eq_true, decide_eq_true_iff] at h hnn ⊢
  obtain ⟨⟨-, hsize⟩, -⟩ := h
  by_cases hc : r.2.1 = 0
  · rw [sum_eq_zero_iff.mp hc] at hsize
    exact absurd hsize (by omega)
  · rw [if_pos hc] at hnn ⊢
    omega

end result

/-- The loop over the frames of a message for which there is room. -/
theorem copyFrames_of_takes (h : ∀ a ∈ l, (s.heap a).Complete) {dst : Iter}
    (ht : dst.Takes (s.message l).length) : l.foldl (copyFrame s) (true, 0, dst) =
      (true, 0 + Int32.ofNat (s.message l).length, dst.push (s.message l)) := by
  have hintact : ∀ f ∈ l.map (fun a => (a, s.heap a)), Intact (s.heap f.1) f.2 := by
    intro f hf
    obtain ⟨a, ha, rfl⟩ := List.mem_map.mp hf
    exact ⟨rfl, rfl, rfl, (h a ha).laid⟩
  have hcomplete : ∀ f ∈ l.map (fun a => (a, s.heap a)), f.2.Complete := by
    intro f hf
    obtain ⟨a, ha, rfl⟩ := List.mem_map.mp hf
    exact h a ha
  have hcopy := copyFrames_eq (true, 0, dst) hintact hcomplete
  have hmsg : content (l.map (fun a => (a, s.heap a))) = s.message l := by
    rw [content, List.flatMap_map]
    rfl
  have hfst : (l.map (fun a => (a, s.heap a))).map Prod.fst = l := by
    rw [List.map_map]
    exact List.map_id l
  rw [hmsg, hfst] at hcopy
  exact hcopy ht

/-- A call without fault that reports honestly has found room for the whole message, which has less than
`2 ^ 31` bytes. -/
theorem fits_of_reports (h : ∀ a ∈ l, (s.heap a).Complete) (hpos : 0 < (s.message l).length) {len mapped : ℕ}
    {dgram : Bool} (hf : copyFaults s (true, 0, ⟨[], len, mapped⟩) l = false)
    (hrep : Reports (s.message l) len false
      (recvResult len dgram (l.foldl (copyFrame s) (true, 0, ⟨[], len, mapped⟩)))) :
    (s.message l).length < 2 ^ 31 ∧ (s.message l).length ≤ len ∧ (s.message l).length ≤ mapped := by
  rw [Reports, if_neg Bool.false_ne_true] at hrep
  obtain ⟨hle, hstored, -, htrunc⟩ := hrep
  have hlen : (s.message l).length ≤ len := by
    by_contra hlong
    have := recvResult_trunc (htrunc.mpr (by omega)) (by omega)
    omega
  have hmap : (s.message l).length ≤ mapped := by
    obtain ⟨⟨-, hcount, hmapped⟩, hall⟩ := copyFrames_copies h hf
    change _ = 0 + len at hcount
    change _ = 0 + mapped at hmapped
    change 0 + (s.message l).length ≤ _ + 0 ∨ _ at hall
    omega
  refine ⟨?_, hlen, hmap⟩
  rw [copyFrames_of_takes h ⟨hlen, hmap⟩] at hstored
  have hlt := (0 + Int32.ofNat (s.message l).length).toInt_lt
  simp only [recvResult, Iter.push, List.nil_append, if_true] at hstored
  split_ifs at hstored <;> omega

/-- **What `rakaia_recvmsg` reports.**  For every chain of complete frames and every user buffer, on both types
of sockets: the call returns, and its report is honest if and only if the message has less than `2 ^ 31` bytes,
fits into the buffer and all bytes for it can be written; or, by accident, a copy faults and the sum of the
lengths wraps to a negative number, or to zero after a last copy that faulted. -/
theorem recvmsg_reports_iff (hl : s.chain head = some l) (h : ∀ a ∈ l, (s.heap a).Complete) (len mapped : ℕ)
    (dgram : Bool) :
    ∃ r, (rakaiaRecvmsg s head len mapped dgram).bind (fun r => returned? r.2) = some r ∧
      (Reports (s.message l) len (copyFaults s (true, 0, ⟨[], len, mapped⟩) l) r ↔
        ((s.message l).length < 2 ^ 31 ∧ (s.message l).length ≤ len ∧ (s.message l).length ≤ mapped) ∨
        (copyFaults s (true, 0, ⟨[], len, mapped⟩) l = true ∧
          (2 ^ 31 ≤ (s.message l).length % 2 ^ 32 ∨ (s.message l).length % 2 ^ 32 = 0 ∧
            (l.foldl (copyFrame s) (true, 0, ⟨[], len, mapped⟩)).1 = false))) := by
  refine ⟨_, rakaiaRecvmsg_returned hl len mapped dgram, ?_⟩
  have hpos := message_pos hl h
  have hneg := recvResult_neg_iff len dgram (copyFrames_sum h (true, 0, ⟨[], len, mapped⟩))
  constructor
  · intro hrep
    cases hf : copyFaults s (true, 0, ⟨[], len, mapped⟩) l with
    | true =>
        rw [hf, Reports, if_pos rfl] at hrep
        exact .inr ⟨rfl, hneg.mp hrep⟩
    | false =>
        rw [hf] at hrep
        exact .inl (fits_of_reports h hpos hf hrep)
  · rintro (⟨hlt, hlen, hmap⟩ | ⟨hf, hwrap⟩)
    · rw [copyFrames_of_takes h ⟨hlen, hmap⟩, recvResult_eq dgram hpos hlen hlt,
        copyFaults_eq_false h ⟨hlen, hmap⟩, Reports, if_neg Bool.false_ne_true]
      refine ⟨Int.ofNat_le.mpr hlen, by simp [Iter.push], by simp [Iter.push], ?_⟩
      exact iff_of_false Bool.false_ne_true (not_lt.mpr hlen)
    · rw [hf, Reports, if_pos rfl]
      exact hneg.mpr hwrap

/-- A message of two frames with 12 and 11 bytes, at the addresses 0 and 1. -/
def twoFrames : State :=
  { State.init (fun a =>
      if a = 0 then { frameSkb 1 4 1 [1, 2, 3] with cb := { (frameSkb 1 4 1 [1, 2, 3]).cb with next := some 1 } }
      else { frameSkb 0 1 1 [4, 5] with cb := { (frameSkb 0 1 1 [4, 5]).cb with next := none } })
      ⟨0, 1000, 0, 65535, false, [], false⟩ with
    brk := 2, upper := [0] }

/-- A buffer of 30 bytes takes the 23 bytes of the message. -/
theorem recvmsg_reports_fit : ∃ r,
    (rakaiaRecvmsg twoFrames 0 30 30 true).bind (fun r => returned? r.2) = some r ∧
    Reports (twoFrames.message [0, 1]) 30 (copyFaults twoFrames (true, 0, ⟨[], 30, 30⟩) [0, 1]) r := by
  have hchain : twoFrames.chain 0 = some [0, 1] := rfl
  have hcomplete : ∀ a ∈ [0, 1], (twoFrames.heap a).Complete := by
    intro a ha
    simp only [List.mem_cons, List.not_mem_nil, or_false] at ha
    rcases ha with rfl | rfl
    · have h := frameSkb_complete 1 4 1 [1, 2, 3]
      exact ⟨h.laid, h.inside, h.header⟩
    · have h := frameSkb_complete 0 1 1 [4, 5]
      exact ⟨h.laid, h.inside, h.header⟩
  obtain ⟨r, hr, hiff⟩ := recvmsg_reports_iff hchain hcomplete 30 30 true
  exact ⟨r, hr, hiff.mpr (.inl (by decide))⟩

/-- With a buffer of 15 bytes the call stores 15 and returns 23; when only 5 bytes can be written both
copies fault, and the call returns 23 as well. -/
theorem recvmsg_misreports :
    let run := fun len mapped => ((rakaiaRecvmsg twoFrames 0 len mapped true).bind (fun r => returned? r.2)).map
      (fun r => (r.ret, r.stored.length, r.trunc, copyFaults twoFrames (true, 0, ⟨[], len, mapped⟩) [0, 1],
        decide (Reports (twoFrames.message [0, 1]) len
          (copyFaults twoFrames (true, 0, ⟨[], len, mapped⟩) [0, 1]) r)))
    run 15 15 = some (23, 15, true, false, false) ∧ run 30 5 = some (23, 0, false, true, false) := by
  decide +kernel

end Rakaia.H2
