import Mathlib.Algebra.Order.BigOperators.Group.List
import Rakaia.H2.CtrlFrames
import Rakaia.Tx.State

/-! # The send quota

`psock->send_quota` is the window that the peer grants: `rakaia_attach` sets it to the default of the
protocol, and WINDOW_UPDATE frames on stream 0 increase it.  Both directions of a connection are put
together here: the receive path, whose control frames go on `tx_wait_queue`, and the transmit path, which
hands segments to TCP.  `window` is the quota as the protocol defines it, computed from the history of the
connection: an increment that would take it above `2 ^ 31 - 1` is not accepted, and what is sent is
subtracted.

The code adds every increment in the arithmetic of an `int`, and nothing in the transmit path subtracts.
So the two agree exactly as long as the sum stays in range and nothing sent is subject to flow control
(`quota_exact`). -/

namespace Rakaia.H2

open Lib

/-! ### Both directions of a connection -/

/-- The receive path and the transmit path of a psock. -/
structure Conn where
  rx : State
  tx : Tx.State

namespace Conn

inductive Act where
  | rx (a : H2.Act)
  | tx (a : Tx.Act)

inductive Event where
  | rx (e : H2.Event)
  | tx (e : Tx.Event)

/-- Control frames are appended to `tx_wait_queue`, and `tx_work` is queued. -/
def emit (t : Tx.State) : List CtrlSkb → Tx.State × List Tx.Event
  | [] => (t, [])
  | c :: cs =>
      let r := emit { t.append [UInt32.ofNat c.seq] with workPending := true } cs
      (r.1, .spliced t.nextMsg [UInt32.ofNat c.seq] :: r.2)

/-- One step of a connection.  The control frames that the receive path emits in a step are those that the
step adds to its record of them. -/
def step (hash : ℕ → Fin streamHashSize) (c : Conn) : Act → Option (Conn × List Event)
  | .rx a =>
      (H2.step hash c.rx a).map fun r =>
        let t := emit c.tx (r.1.psock.txWaitQueue.drop c.rx.psock.txWaitQueue.length)
        (⟨r.1, t.1⟩, r.2.map .rx ++ t.2.map .tx)
  | .tx (.sendCtrl _) => none
  | .tx a => (Tx.step .grpc c.tx a).map fun r => (⟨c.rx, r.1⟩, r.2.map .tx)

/-- A connection with the given psock, on a TCP socket that starts at `writeSeq`. -/
def machine (hash : ℕ → Fin streamHashSize) (heap : ℕ → Skb) (psock : Psock) (writeSeq : UInt32) :
    Machine Conn Act Event := ⟨⟨.init heap psock, .init writeSeq⟩, step hash⟩

end Conn

/-! ### The window of the protocol -/

/-- The increment in a WINDOW_UPDATE frame on stream 0; other frames announce nothing. -/
def Skb.announced (skb : Skb) : ℕ :=
  if skb.type = .windowUpdate ∧ skb.cb.streamId = 0 then
    beAt (skb.buf.bytes.drop skb.cb.offset) 9 4 % 2 ^ 31
  else 0

/-- An increment is accepted unless the window would become too large. -/
def accept (w : ℤ) (n : ℕ) : ℤ := if w + n ≤ 2 ^ 31 - 1 then w + n else w

/-- The bytes in segments that are subject to flow control; `flow` says how many of them are in a segment
of a message. -/
def flowBytes (flow : ℕ → ℕ) (skbs : List Tx.TxSkb) : ℕ := (skbs.map (fun skb => flow skb.msg)).sum

/-- What an event does to the window. -/
def windowAfter (flow : ℕ → ℕ) (w : ℤ) : Conn.Event → ℤ
  | .rx (.frame _ skb) => accept w skb.announced
  | .tx (.moved skbs) => w - flowBytes flow skbs
  | _ => w

/-- The window that the peer grants after a history. -/
def window (flow : ℕ → ℕ) (es : List Conn.Event) : ℤ :=
  es.foldl (windowAfter flow) http2DefaultConnectionWindow.toInt

section window

variable {flow : ℕ → ℕ}

theorem window_append (es e : List Conn.Event) :
    window flow (es ++ e) = e.foldl (windowAfter flow) (window flow es) := List.foldl_append

/-- Of the events of the receive path only the arrival of frames counts. -/
theorem foldl_rx (w : ℤ) (e : List Event) : (e.map Conn.Event.rx).foldl (windowAfter flow) w =
    (frames e).foldl (fun w f => accept w f.2.announced) w := by
  induction e generalizing w with
  | nil => rfl
  | cons x e ih =>
      rw [List.map_cons, List.foldl_cons, ih]
      cases x <;> rfl

/-- Emitting control frames sends nothing. -/
theorem foldl_emit (w : ℤ) (t : Tx.State) (cs : List CtrlSkb) :
    ((Conn.emit t cs).2.map Conn.Event.tx).foldl (windowAfter flow) w = w := by
  induction cs generalizing t with
  | nil => rfl
  | cons c cs ih => exact ih _

/-- The segments that a step of the transmit path hands to TCP. -/
def handed (s : Tx.State) : Tx.Act → List Tx.TxSkb
  | .run t _ =>
      match s.pc t with
      | .assign head => s.skWriteQueue.drop head
      | _ => []
  | _ => []

/-- The loop that gives segments their sequence numbers keeps their messages. -/
theorem flowBytes_assignSeq (w : UInt32) (l : List Tx.TxSkb) :
    flowBytes flow (Tx.assignSeq w l).2 = flowBytes flow l := by
  unfold flowBytes
  induction l generalizing w with
  | nil => rfl
  | cons skb l ih => simp only [Tx.assignSeq, List.map_cons, List.sum_cons, ih]

/-- What the transmit path sends in a step. -/
theorem foldl_tx {s s' : Tx.State} {a : Tx.Act} {e : List Tx.Event} (h : Tx.step .grpc s a = some (s', e))
    (w : ℤ) : (e.map Conn.Event.tx).foldl (windowAfter flow) w = w - flowBytes flow (handed s a) := by
  have hnone : ∀ w : ℤ, w = w - flowBytes flow [] := fun w => (sub_zero w).symm
  cases Tx.step_cases h with
  | splice | sendCtrl | writeSpace | txWork | xmit => exact hnone w
  | assign t n head hpc =>
      simp only [handed, hpc]
      exact congrArg (fun k : ℕ => w - (k : ℤ)) (flowBytes_assignSeq s.writeSeq _)
  | yield t n hpc | own t n hpc | lockSock t n hpc | empty t n hpc | move t n hpc | push t n hpc
  | clear t n hpc | release t n hpc =>
      simp only [handed, hpc]
      exact hnone w

end window

/-! ### The quota of the code -/

/-- A frame with room for an increment, in a buffer of the kernel. -/
structure Skb.Whole (skb : Skb) : Prop where
  wf : skb.buf.Wf
  length : 13 ≤ skb.cb.fullLen
  inside : skb.cb.offset + skb.cb.fullLen ≤ skb.buf.len

section quota

variable {skb : Skb}

/-- What `handle_h2_frame` adds to the quota. -/
def Skb.added (skb : Skb) : Int32 := if skb.type = .windowUpdate then skb.grant else 0

theorem Psock.sendQuota_frame (p : Psock) (skb : Skb) (alloc : Alloc) :
    (p.frame skb alloc).sendQuota = p.sendQuota + skb.added := by
  unfold Psock.frame Skb.added
  cases skb.type with
  | data | rstStream =>
      dsimp only
      rw [if_neg (by decide), Int32.add_zero, Psock.account]
      dsimp only
      split_ifs
      · exact p.queue_sendQuota _ alloc
      · rfl
  | windowUpdate => exact p.credited_sendQuota skb.grant
  | ping => exact (p.queue_sendQuota _ alloc).trans (Int32.add_zero _).symm
  | settings =>
      rw [if_neg (show ¬ FrameType.settings = .windowUpdate by decide), Int32.add_zero]
      dsimp only
      split_ifs
      · exact p.queue_sendQuota _ alloc
      · rfl
  | headers | continuation | priority | pushPromise | goaway | unknown => exact (Int32.add_zero _).symm

/-- The increment that the code reads is the one in the frame. -/
theorem toInt_added (h : skb.type = .windowUpdate → skb.cb.streamId = 0 → skb.Whole) :
    skb.added.toInt = skb.announced := by
  unfold Skb.added Skb.announced Skb.grant
  by_cases ht : skb.type = .windowUpdate
  · by_cases hsid : skb.cb.streamId = 0
    · obtain ⟨hwf, hlen, hin⟩ := h ht hsid
      have hbytes := hwf.len_eq
      have hread : 9 + 4 ≤ (skb.buf.bytes.drop skb.cb.offset).length := by
        rw [List.length_drop]
        omega
      rw [if_pos ht, if_neg (not_not.mpr hsid), SkBuff.headerPointer, if_pos (by omega), if_pos ⟨ht, hsid⟩,
        ← List.drop_drop, beAt, take_drop_eq_getD hread]
      exact toInt_windowIncrement _
    · rw [if_pos ht, if_pos hsid, if_neg (fun hn => hsid hn.2)]
      rfl
  · rw [if_neg ht, if_neg (fun hn => ht hn.1)]
    rfl

/-- The sum in the arithmetic of the code and the rule of the protocol agree just when the sum is in
range: a sum that is out of range wraps around. -/
theorem toInt_add_eq_accept_iff {q inc : Int32} {n : ℕ} (hinc : inc.toInt = n) :
    (q + inc).toInt = accept q.toInt n ↔ q.toInt + n ≤ 2 ^ 31 - 1 := by
  have hmax : q.toInt < 2 ^ 31 := q.toInt_lt
  have hmin : -2 ^ 31 ≤ q.toInt := q.le_toInt
  have hn : inc.toInt < 2 ^ 31 := inc.toInt_lt
  unfold accept
  split_ifs with h
  · exact iff_of_true (by rw [toInt_add_of_lt (by omega) (by omega), hinc]) h
  · refine iff_of_false (fun heq => ?_) h
    rw [Int32.toInt_add, hinc] at heq
    have hdvd : ((2 ^ 32 : ℕ) : ℤ) ∣ (q.toInt + n) - (q.toInt + n).bmod (2 ^ 32) := Int.dvd_self_sub_bmod
    rw [heq] at hdvd
    omega

end quota

/-! ### Runs -/

section runs

variable {hash : ℕ → Fin streamHashSize} {heap : ℕ → Skb} {addr : PsockPtr} {w : Int32} {writeSeq : UInt32}
  {flow : ℕ → ℕ} {c c' : Conn} {es e : List Conn.Event}

/-- WINDOW_UPDATE frames on stream 0 have their four bytes. -/
def Wholesome : Conn.Act → Prop
  | .rx (.frame skb _) => skb.type = .windowUpdate → skb.cb.streamId = 0 → skb.Whole
  | _ => True

/-- An increment that arrives keeps the quota in range, and segments that are handed to TCP are not
subject to flow control. -/
def Solvent (flow : ℕ → ℕ) (c : Conn) : Conn.Act → Prop
  | .rx (.frame skb _) => c.rx.psock.sendQuota.toInt + skb.announced ≤ 2 ^ 31 - 1
  | .rx (.recvmsg ..) => True
  | .tx a => ∀ skb ∈ handed c.tx a, flow skb.msg = 0

instance (flow : ℕ → ℕ) (c : Conn) : DecidablePred (Solvent flow c)
  | .rx (.frame _ _) => inferInstanceAs (Decidable (_ ≤ _))
  | .rx (.recvmsg ..) => .isTrue trivial
  | .tx _ => inferInstanceAs (Decidable (∀ _ ∈ _, _))

theorem flowBytes_eq_zero_iff (skbs : List Tx.TxSkb) :
    flowBytes flow skbs = 0 ↔ ∀ skb ∈ skbs, flow skb.msg = 0 := by
  rw [flowBytes, List.sum_eq_zero_iff, List.forall_mem_map]

/-- **One step**: the quota stays what the protocol says if and only if the step is solvent. -/
theorem quota_step_iff {a : Conn.Act} (hq : c.rx.psock.sendQuota.toInt = window flow es) (ha : Wholesome a)
    (hs : Conn.step hash c a = some (c', e)) :
    c'.rx.psock.sendQuota.toInt = window flow (es ++ e) ↔ Solvent flow c a := by
  rw [window_append, ← hq]
  cases a with
  | rx a =>
      obtain ⟨⟨s', f⟩, hf, heq⟩ := Option.map_eq_some_iff.mp hs
      obtain ⟨rfl, rfl⟩ := Prod.mk.inj heq
      rw [List.foldl_append, foldl_emit, foldl_rx, (step_frames hf).1]
      change s'.psock.sendQuota.toInt = _ ↔ _
      rw [step_psock hf]
      cases a with
      | frame skb alloc =>
          change (c.rx.psock.frame skb alloc).sendQuota.toInt = accept _ skb.announced ↔ _
          rw [Psock.sendQuota_frame]
          exact toInt_add_eq_accept_iff (toInt_added ha)
      | recvmsg => exact iff_of_true rfl trivial
  | tx a =>
      have hstep : ∃ r, Tx.step .grpc c.tx a = some r ∧ c' = ⟨c.rx, r.1⟩ ∧ e = r.2.map .tx := by
        cases a with
        | sendCtrl | writeSpace => cases hs
        | splice | txWork | run | xmit =>
            obtain ⟨r, hr, heq⟩ := Option.map_eq_some_iff.mp hs
            exact ⟨r, hr, (Prod.mk.inj heq).1.symm, (Prod.mk.inj heq).2.symm⟩
      obtain ⟨r, hr, rfl, rfl⟩ := hstep
      rw [foldl_tx hr]
      change c.rx.psock.sendQuota.toInt = _ ↔ ∀ skb ∈ handed c.tx a, flow skb.msg = 0
      rw [← flowBytes_eq_zero_iff]
      omega

/-! ### The main result -/

/-- **The send quota.**  In every run of a connection in which every increment keeps the quota at most
`2 ^ 31 - 1` and nothing that is handed to TCP is subject to flow control: the quota is the window of the
protocol; and after the next step, of either direction, it still is if and only if the step meets the
condition. -/
theorem quota_exact
    (h : (Conn.machine hash heap (attach addr w) writeSeq).Reach (fun c a => Wholesome a ∧ Solvent flow c a)
      c es) :
    c.rx.psock.sendQuota.toInt = window flow es ∧
    ∀ a c' e, Wholesome a → Conn.step hash c a = some (c', e) →
      (c'.rx.psock.sendQuota.toInt = window flow (es ++ e) ↔ Solvent flow c a) := by
  have hq : c.rx.psock.sendQuota.toInt = window flow es := by
    refine h.invariant (P := fun c es => c.rx.psock.sendQuota.toInt = window flow es) rfl ?_
    intro c es a c' e _ ih hg hs
    exact (quota_step_iff ih hg.1 hs).mpr hg.2
  exact ⟨hq, fun a c' e ha hs => quota_step_iff hq ha hs⟩

/-- A WINDOW_UPDATE frame on stream 0. -/
def updateSkb (a b c d : UInt8) : Skb := frameSkb 8 0 0 [a, b, c, d]

theorem updateSkb_whole (a b c d : UInt8) : (updateSkb a b c d).Whole where
  wf := ⟨rfl, .mk rfl (by simp) (by simp)⟩
  length := le_rfl
  inside := le_rfl

/-- Thread 0 sends a message of one segment: up to the sequence numbers. -/
def sendActs (len : UInt32) : List Conn.Act :=
  [.tx (.splice 0 [len]), .tx (.run 0 0), .tx (.run 0 0), .tx (.run 0 0), .tx (.run 0 0)]

/-- An increment of 1000, and a message of 50 bytes that are not subject to flow control. -/
theorem quota_exact_update : ∃ c es,
    (Conn.machine (fun _ => 0) (fun _ => frameSkb 0 0 0 []) (attach 0 0) 0).Reach
      (fun c a => Wholesome a ∧ Solvent (fun _ => 0) c a) c es ∧
    c.rx.psock.sendQuota = 66535 ∧ c.tx.writeSeq = 50 ∧
    c.rx.psock.sendQuota.toInt = window (fun _ => 0) es := by
  obtain ⟨c, es, hr, hy⟩ := Machine.Reach.of_exec
    (M := Conn.machine (fun _ => 0) (fun _ => frameSkb 0 0 0 []) (attach 0 0) 0)
    (G := fun c a => Wholesome a ∧ Solvent (fun _ => 0) c a)
    (g := fun c a => decide (Solvent (fun _ => 0) c a))
    (.rx (.frame (updateSkb 0 0 3 232) granted) :: sendActs 50)
    (by
      intro c a ha hd
      refine ⟨?_, of_decide_eq_true hd⟩
      simp only [sendActs, List.mem_cons, List.not_mem_nil, or_false] at ha
      rcases ha with rfl | rfl | rfl | rfl | rfl | rfl
      · exact fun _ _ => updateSkb_whole ..
      all_goals trivial)
    (fun r => (r.1.rx.psock.sendQuota, r.1.tx.writeSeq)) (66535, 50) (by decide +kernel)
  obtain ⟨hq, hw⟩ := Prod.mk.inj hy
  exact ⟨c, es, hr, hq, hw, (quota_exact hr).1⟩

/-- The largest increment makes the quota of a new connection negative; and after a message of 100 bytes
subject to flow control the quota is what it was. -/
theorem quota_wrong :
    let M := Conn.machine (fun _ => 0) (fun _ => frameSkb 0 0 0 []) (attach 0 0) 0
    let flow := fun _ : ℕ => 100
    let run := fun acts => (M.exec (fun _ _ => true) M.init acts).map
      (fun r => (r.1.rx.psock.sendQuota.toInt, window flow r.2))
    run [.rx (.frame (updateSkb 0x7f 0xff 0xff 0xff) granted)] = some (-2147418114, 65535) ∧
    run (sendActs 100) = some (65535, 65435) := by
  decide +kernel

end runs

end Rakaia.H2
