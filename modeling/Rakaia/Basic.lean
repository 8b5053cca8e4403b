import Rakaia.Lib.Block

/-! # Variants and messages

The kernel module exists in variants that share most of their code; the development covers the
plain-tcp and the grpc one.

A plain-tcp message is the `sk_buff` that the parser hands up.  Its control block `skb->cb` is 48
bytes that three parts of the module share: the stream parser keeps `full_len`, `offset` and
`accum_len` in it (`struct sk_skb_cb`, `strparser.h`), passes the offset to the parse callback
through its first four bytes, and the scheduler stores the pointer to the psock in its first eight.
The offsets are computed from the structure by the rules of C; the fields of the parser and the
pointer of the scheduler share no byte. -/

namespace Rakaia

open Lib

/-- The variants of the module. -/
inductive Variant where
  | plainTcp
  | grpc
deriving DecidableEq, Repr

/-! ### The control block -/

/-- Bytes of `skb->cb`. -/
def cbLen : ℕ := 48

/-- The contents of `skb->cb`. -/
abbrev Cb := Block cbLen

namespace Cb

/-- Size and alignment of the members of `struct sk_skb_cb`: `data[20]`, `pad[4]`, `strp`, `tls`,
`temp_reg`. -/
def skSkbCb : List (ℕ × ℕ) := [(20, 1), (4, 1), (12, 4), (1, 1), (8, 8)]

/-- Size and alignment of the members of `struct _strp_msg`: `full_len`, `offset`, `accum_len`. -/
def strpMsg : List (ℕ × ℕ) := [(4, 4), (4, 4), (4, 4)]

/-- `offsetof(struct sk_skb_cb, strp)` plus the offset of member `k` of `struct _strp_msg`. -/
def strpOff (k : ℕ) : ℕ := (layout 0 skSkbCb).getD 2 0 + (layout 0 strpMsg).getD k 0

/-- `strp_msg(skb)->full_len`. -/
def fullLen : Field cbLen := ⟨strpOff 0, 4, by decide⟩
/-- `strp_msg(skb)->offset`. -/
def offset : Field cbLen := ⟨strpOff 1, 4, by decide⟩
/-- `_strp_msg(skb)->accum_len`. -/
def accumLen : Field cbLen := ⟨strpOff 2, 4, by decide⟩
/-- `*(struct rakaia_psock **)&skb->cb[0]`. -/
def psock : Field cbLen := ⟨0, 8, by decide⟩

/-- The fields of the parser that `rakaia_recvmsg` and the parser itself use. -/
def strpFields : List (Field cbLen) := [fullLen, offset, accumLen]

theorem psock_disjoint : ∀ f ∈ strpFields, psock.Disjoint f ∧ f.Disjoint psock := by
  decide

end Cb

/-! ### Messages -/

/-- An address of a `struct rakaia_psock`; `0` is the null pointer. -/
abbrev PsockPtr := BitVec 64

/-- A message: the `sk_buff` that the parser hands up.  `id` is the identity of the object. -/
structure Skb where
  id : ℕ
  cb : Cb
  truesize : ℕ

namespace Skb

/-- `*(struct rakaia_psock **)&skb->cb[0] = psock`. -/
def setPsock (skb : Skb) (psock : PsockPtr) : Skb := { skb with cb := Cb.psock.store psock.toNat skb.cb }

/-- `*(struct rakaia_psock **)&skb->cb[0]`. -/
def getPsock (skb : Skb) : PsockPtr := BitVec.ofNat 64 (Cb.psock.load skb.cb)

@[simp] theorem setPsock_id (skb : Skb) (psock : PsockPtr) : (skb.setPsock psock).id = skb.id := rfl

@[simp] theorem getPsock_setPsock (skb : Skb) (psock : PsockPtr) :
    (skb.setPsock psock).getPsock = psock := by
  unfold getPsock setPsock
  rw [Field.load_store]
  apply BitVec.eq_of_toNat_eq
  have h : psock.toNat < 256 ^ Cb.psock.width := lt_of_lt_of_le psock.isLt (by decide)
  rw [BitVec.toNat_ofNat, Nat.mod_eq_of_lt h, Nat.mod_eq_of_lt psock.isLt]

/-- Storing the pointer leaves the fields of the parser as they were. -/
theorem load_setPsock (skb : Skb) (psock : PsockPtr) {f : Field cbLen} (hf : f ∈ Cb.strpFields) :
    f.load (skb.setPsock psock).cb = f.load skb.cb :=
  Field.load_store_of_disjoint (Cb.psock_disjoint f hf).1 _ _

/-- Storing to a field of the parser leaves the pointer as it was. -/
theorem getPsock_store (skb : Skb) {f : Field cbLen} (hf : f ∈ Cb.strpFields) (n : ℕ) :
    getPsock { skb with cb := f.store n skb.cb } = skb.getPsock :=
  congrArg (BitVec.ofNat 64) (Field.load_store_of_disjoint (Cb.psock_disjoint f hf).2 _ _)

end Skb

end Rakaia
