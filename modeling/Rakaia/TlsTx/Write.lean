import Mathlib.Data.List.Basic
import Mathlib.Tactic.Common
import Rakaia.Lib.Machine

/-! # Writing messages to the TCP socket (tls)

In the tls variant a message is a head buffer with further buffers on its `frag_list`, all of whose bytes
are in page fragments.  `write_to_csock` offers the rest of one buffer at a time to `sock_sendmsg`, which
takes any part of it.  The control block of the head (`rakaia_tx_msg`) says where to go on after `-EAGAIN`:
`frag_skb` is the buffer and `frag_offset` the number of its bytes that were taken.

A call is cut at the sections under `psock->lock` and at the calls of `sock_sendmsg`.  The fields of the
control block are used by the call alone, so they are set in the step next to it.  `sent`, `frag_offset`,
`msize` and `total_sent` are of type `unsigned int`, with its wraparound; the count of a `msg_iter` is a
`size_t`.  The memory accounting is left out. -/

namespace Rakaia.TlsTx

/-- A page fragment. -/
structure Frag where
  bytes : List UInt8
  ne_nil : bytes ≠ []
deriving DecidableEq

/-- A buffer of a message: `skb->len`, an `unsigned int`, is the number of its bytes. -/
structure TxSkb where
  frags : List Frag
  length_lt : (frags.flatMap Frag.bytes).length < UInt32.size
deriving DecidableEq

def TxSkb.bytes (skb : TxSkb) : List UInt8 := skb.frags.flatMap Frag.bytes

/-- `msize`: the sizes of the fragments, added up. -/
def TxSkb.msize (skb : TxSkb) : UInt32 := skb.frags.foldl (fun msize f => msize + UInt32.ofNat f.bytes.length) 0

/-- The bytes of a list of buffers. -/
def bytesOf (skbs : List TxSkb) : List UInt8 := skbs.flatMap TxSkb.bytes

/-- A message with its `rakaia_tx_msg`.  A pointer to one of its buffers is the position of the buffer, the
head being at 0; `none` is the null pointer. -/
structure TxMsg where
  head : TxSkb
  fragList : List TxSkb
  startedTx : Bool
  fragSkb : Option ℕ
  fragOffset : UInt32
  sent : UInt32
deriving DecidableEq

namespace TxMsg

/-- A message as `rakaia_sendmsg` builds it: `alloc_skb` clears the control block. -/
def new (head : TxSkb) (fragList : List TxSkb) : TxMsg := ⟨head, fragList, false, none, 0, 0⟩

variable (m : TxMsg)

def skbs : List TxSkb := m.head :: m.fragList

def bytes : List UInt8 := bytesOf m.skbs

/-- The buffer to go on with, and the control block once the message is started. -/
def resume : TxMsg × Option ℕ :=
  if m.startedTx then (m, m.fragSkb) else ({ m with fragOffset := 0, sent := 0, startedTx := true }, some 0)

/-- The buffer behind the one at `i`: the first of the `frag_list`, or `skb->next`. -/
def nextSkb (i : ℕ) : Option ℕ :=
  if i = 0 then if m.fragList.isEmpty then none else some 1
  else if (m.fragList[i]?).isSome then some (i + 1) else none

/-- The last `count` bytes of the buffer at `i`, which are left in `msg_iter`. -/
def offered (i count : ℕ) : List UInt8 :=
  match m.skbs[i]? with
  | none => []
  | some skb => skb.bytes.drop (skb.bytes.length - count)

/-- `sock_sendmsg` has taken `n` bytes. -/
def took (n : ℕ) : TxMsg :=
  { m with sent := m.sent + UInt32.ofNat n, fragOffset := m.fragOffset + UInt32.ofNat n }

/-- The next buffer is to be sent from its start. -/
def goTo (i : ℕ) : TxMsg := { m with fragSkb := some i, fragOffset := 0 }

end TxMsg

/-- Where a call of `write_to_csock` stands. -/
inductive Pc where
  /-- At the top of the loop. -/
  | peek (totalSent : UInt32)
  /-- About to call `sock_sendmsg` with `count` bytes of the buffer at `skb` in `msg_iter`. -/
  | send (totalSent : UInt32) (skb count : ℕ)
  /-- The message is sent; about to remove it from the queue. -/
  | dequeue (totalSent : UInt32)
deriving DecidableEq

/-- What `sock_sendmsg` returns. -/
inductive SendResult where
  /-- Bytes are taken. -/
  | sent (n : ℕ)
  /-- `-EAGAIN`. -/
  | again
  /-- Another result that is not positive. -/
  | fail (err : Int32)
deriving DecidableEq

/-- What happens to messages, for the history of a run. -/
inductive Event where
  | appended (m : TxMsg)
  /-- The TCP socket takes bytes. -/
  | accepted (bytes : List UInt8)
  | removed (m : TxMsg)

/-- A call goes on, or returns. -/
inductive Next where
  | goes (pc : Pc)
  | returns (ret : Int32)

/-- The call in progress after a step. -/
def Next.call : Next → Option Pc
  | .goes pc => some pc
  | .returns _ => none

/-- The next step of a call of `write_to_csock` on the queue `q`; `none` when it follows a null pointer or
`sock_sendmsg` cannot return this. -/
def writeToCsock (q : List TxMsg) (pc : Pc) (r : SendResult) : Option (List TxMsg × Next × List Event) :=
  match pc, q with
  | .peek totalSent, [] => some ([], .returns totalSent.toInt32, [])
  | .peek totalSent, m :: rest =>
      match m.resume with
      | (_, none) => none
      | (m, some i) =>
          match m.skbs[i]? with
          | none => none
          | some skb =>
              if skb.frags.isEmpty then some (m :: rest, .returns (-22), [])
              else some (m :: rest, .goes (.send totalSent i (skb.msize.toNat - m.fragOffset.toNat)), [])
  | .send totalSent i count, m :: rest =>
      match r with
      | .sent n =>
          if 0 < n ∧ n ≤ count then
            let e := [Event.accepted ((m.offered i count).take n)]
            if 0 < count - n then some (m.took n :: rest, .goes (.send totalSent i (count - n)), e)
            else
              match m.nextSkb i with
              | some j => some ((m.took n).goTo j :: rest, .goes (.peek totalSent), e)
              | none => some (m.took n :: rest, .goes (.dequeue totalSent), e)
          else none
      | .again => some ({ m with fragSkb := some i } :: rest, .returns 0, [])
      | .fail err => if err ≤ 0 then some (m :: rest, .returns err, []) else none
  | .dequeue totalSent, m :: rest =>
      some (rest, .goes (.peek (totalSent + m.sent)), [.removed m])
  | _, [] => none

/-! ### What the definitions say about a message -/

theorem bytesOf_append (l l' : List TxSkb) : bytesOf (l ++ l') = bytesOf l ++ bytesOf l' :=
  List.flatMap_append

theorem bytesOf_cons (skb : TxSkb) (l : List TxSkb) : bytesOf (skb :: l) = skb.bytes ++ bytesOf l :=
  List.flatMap_cons

theorem TxSkb.bytes_ne_nil {skb : TxSkb} (h : skb.frags ≠ []) : skb.bytes ≠ [] := by
  obtain ⟨f, rest, hf⟩ := List.exists_cons_of_ne_nil h
  rw [TxSkb.bytes, hf, List.flatMap_cons]
  intro hnil
  exact f.ne_nil (List.append_eq_nil_iff.mp hnil).1

theorem foldl_msize (l : List Frag) (k : ℕ) :
    l.foldl (fun msize f => msize + UInt32.ofNat f.bytes.length) (UInt32.ofNat k) =
      UInt32.ofNat (k + (l.flatMap Frag.bytes).length) := by
  induction l generalizing k with
  | nil => rfl
  | cons f l ih =>
      rw [List.foldl_cons, ← UInt32.ofNat_add, ih, List.flatMap_cons, List.length_append, Nat.add_assoc]

/-- The sizes of the fragments add up to the length of the buffer. -/
theorem TxSkb.toNat_msize (skb : TxSkb) : skb.msize.toNat = skb.bytes.length := by
  have hmsize : skb.msize = UInt32.ofNat skb.bytes.length := by
    have h := foldl_msize skb.frags 0
    rwa [Nat.zero_add] at h
  rw [hmsize]
  exact UInt32.toNat_ofNat_of_lt' skb.length_lt

/-- The buffer behind the one at the end of `pre`. -/
theorem TxMsg.nextSkb_eq {m : TxMsg} {pre post : List TxSkb} {cur : TxSkb} (h : m.skbs = pre ++ cur :: post) :
    m.nextSkb pre.length = if post = [] then none else some (pre.length + 1) := by
  unfold nextSkb
  cases pre with
  | nil =>
      obtain ⟨-, hlist⟩ := List.cons.inj h
      rw [List.length_nil, if_pos rfl, hlist]
      cases post with
      | nil => rfl
      | cons skb post => rfl
  | cons skb pre =>
      obtain ⟨-, hlist⟩ := List.cons.inj h
      rw [if_neg (by simp), hlist]
      cases post with
      | nil => simp
      | cons skb' post => simp

theorem TxMsg.offered_eq {m : TxMsg} {pre post : List TxSkb} {cur : TxSkb} (h : m.skbs = pre ++ cur :: post)
    {off count : ℕ} (hc : off + count = cur.bytes.length) :
    m.offered pre.length count = cur.bytes.drop off := by
  unfold offered
  rw [h, List.getElem?_append_right (Nat.le_refl _), Nat.sub_self, List.getElem?_cons_zero]
  dsimp only
  congr 1
  omega

/-- What a step of `write_to_csock` does to the queue: nothing, when it is empty; something to the control
block of the first message, and then it goes on unless a buffer has no fragment or `sock_sendmsg` took
nothing; or it removes the first message. -/
theorem writeToCsock_cases {q q' : List TxMsg} {pc : Pc} {r : SendResult} {nxt : Next} {e : List Event}
    (h : writeToCsock q pc r = some (q', nxt, e)) :
    (∃ t, pc = .peek t ∧ q = [] ∧ q' = [] ∧ nxt = .returns t.toInt32) ∨
    (∃ m m' rest, q = m :: rest ∧ q' = m' :: rest ∧ m'.skbs = m.skbs ∧
      ((∃ pc', nxt = .goes pc') ∨ (∃ skb ∈ m.skbs, skb.frags = []) ∨
        (∃ t i c, pc = .send t i c ∧ r = .again) ∨ ∃ err, r = .fail err)) ∨
    ∃ m t, q = m :: q' ∧ nxt = .goes (.peek t) := by
  have hresume : ∀ m : TxMsg, m.resume.1.skbs = m.skbs := by
    intro m
    unfold TxMsg.resume
    split_ifs <;> rfl
  cases q with
  | nil =>
      cases pc with
      | peek t =>
          cases h
          exact .inl ⟨t, rfl, rfl, rfl, rfl⟩
      | send t i c => cases h
      | dequeue t => cases h
  | cons m rest =>
      cases pc with
      | peek t =>
          have hm := hresume m
          simp only [writeToCsock] at h
          split at h
          · cases h
          · next m' i heq =>
              rw [heq] at hm
              split at h
              · cases h
              · next skb hskb =>
                  split_ifs at h with hf
                  · cases h
                    refine .inr (.inl ⟨m, m', rest, rfl, rfl, hm, .inr (.inl ⟨skb, ?_, List.isEmpty_iff.mp hf⟩)⟩)
                    rw [← hm]
                    exact List.mem_of_getElem? hskb
                  · cases h
                    exact .inr (.inl ⟨m, m', rest, rfl, rfl, hm, .inl ⟨_, rfl⟩⟩)
      | send t i c =>
          cases r with
          | sent n =>
              simp only [writeToCsock] at h
              split_ifs at h
              · cases h
                exact .inr (.inl ⟨m, _, rest, rfl, rfl, rfl, .inl ⟨_, rfl⟩⟩)
              · split at h <;> cases h <;> exact .inr (.inl ⟨m, _, rest, rfl, rfl, rfl, .inl ⟨_, rfl⟩⟩)
          | again =>
              cases h
              exact .inr (.inl ⟨m, _, rest, rfl, rfl, rfl, .inr (.inr (.inl ⟨t, i, c, rfl, rfl⟩))⟩)
          | fail err =>
              simp only [writeToCsock] at h
              split_ifs at h
              cases h
              exact .inr (.inl ⟨m, _, rest, rfl, rfl, rfl, .inr (.inr (.inr ⟨err, rfl⟩))⟩)
      | dequeue t =>
          cases h
          exact .inr (.inr ⟨m, _, rfl, rfl⟩)

end Rakaia.TlsTx
