import Mathlib.Data.List.Basic
import Mathlib.Tactic.Common

/-! # Socket buffers

An `sk_buff` holds bytes in its linear area, in page fragments and in the buffers of its
`frag_list`, in this order; `len` counts all of them and `data_len` those outside the linear area.
The counters are fields of their own, because the module changes them by hand: `__strp_recv` when
it appends to a `frag_list`, and `add_skbs_to_head` when it links frames that are *not* on the
`frag_list`.  `Laid` says that the counters describe the linear area and the `frag_list`
correctly, `Wf` that `len` also is the number of bytes.

`skb_header_pointer`, `pskb_pull` and `alloc_skb_for_msg` behave as the kernel documents them.
`__skb_datagram_iter`, which the module copies from the kernel, is translated. -/

namespace Rakaia

/-- An `sk_buff` without its control block. -/
inductive SkBuff where
  | mk (len dataLen truesize : ℕ) (linear : List UInt8) (frags : List (List UInt8))
      (fragList : List SkBuff)

namespace SkBuff

def len : SkBuff → ℕ
  | mk len _ _ _ _ _ => len

def dataLen : SkBuff → ℕ
  | mk _ dataLen _ _ _ _ => dataLen

def truesize : SkBuff → ℕ
  | mk _ _ truesize _ _ _ => truesize

def linear : SkBuff → List UInt8
  | mk _ _ _ linear _ _ => linear

def frags : SkBuff → List (List UInt8)
  | mk _ _ _ _ frags _ => frags

def fragList : SkBuff → List SkBuff
  | mk _ _ _ _ _ fragList => fragList

/-- `skb_headlen`. -/
def headlen (skb : SkBuff) : ℕ := skb.len - skb.dataLen

mutual

/-- The bytes of a buffer, in order. -/
def bytes : SkBuff → List UInt8
  | mk _ _ _ linear frags fragList => linear ++ frags.flatten ++ bytesOf fragList

/-- The bytes of a list of buffers, in order. -/
def bytesOf : List SkBuff → List UInt8
  | [] => []
  | skb :: rest => skb.bytes ++ bytesOf rest

end

/-- The counters describe the linear area and the buffers of the `frag_list`. -/
inductive Laid : SkBuff → Prop
  | mk {len dataLen truesize : ℕ} {linear : List UInt8} {frags : List (List UInt8)}
      {fragList : List SkBuff} : len - dataLen = linear.length →
      (∀ skb ∈ fragList, skb.len = skb.bytes.length) → (∀ skb ∈ fragList, Laid skb) →
      Laid (mk len dataLen truesize linear frags fragList)

/-- A buffer as the kernel builds it. -/
structure Wf (skb : SkBuff) : Prop where
  len_eq : skb.len = skb.bytes.length
  laid : skb.Laid

theorem bytesOf_append (l l' : List SkBuff) : bytesOf (l ++ l') = bytesOf l ++ bytesOf l' := by
  induction l with
  | nil => simp [bytesOf]
  | cons skb l ih => simp [bytesOf, ih]

/-! ### Buffers the module builds -/

/-- A buffer appended to the `frag_list` behind its first `slot` entries, with the counters as
`__strp_recv` updates them. -/
def appendFrag (head : SkBuff) (slot : ℕ) (skb : SkBuff) : SkBuff :=
  match head with
  | mk len dataLen truesize linear frags fragList =>
      mk (len + skb.len) (dataLen + skb.len) (truesize + skb.truesize) linear frags
        (fragList.take slot ++ [skb])

/-- The counters grow by those of another buffer, as in `add_skbs_to_head`. -/
def grow (head skb : SkBuff) : SkBuff :=
  match head with
  | mk len dataLen truesize linear frags fragList =>
      mk (len + skb.len) (dataLen + skb.len) (truesize + skb.truesize) linear frags fragList

/-- `alloc_skb_for_msg`: an empty buffer whose `frag_list` is the given one. -/
def allocSkbForMsg (first : SkBuff) : SkBuff := mk first.len first.len first.truesize [] [] [first]

theorem wf_appendFrag {head skb : SkBuff} {slot : ℕ} (h : head.Wf) (hs : skb.Wf)
    (hslot : head.fragList.length ≤ slot) :
    (head.appendFrag slot skb).Wf ∧ (head.appendFrag slot skb).bytes = head.bytes ++ skb.bytes ∧
    (head.appendFrag slot skb).fragList.length = head.fragList.length + 1 := by
  obtain ⟨hlen, hlaid⟩ := h
  cases hlaid with
  | @mk len dataLen truesize linear frags fragList hlin hlens hlaids =>
      have htake : fragList.take slot = fragList := List.take_of_length_le hslot
      have hbytes : (appendFrag (mk len dataLen truesize linear frags fragList) slot skb).bytes =
          (mk len dataLen truesize linear frags fragList).bytes ++ skb.bytes := by
        simp [appendFrag, bytes, htake, bytesOf_append, bytesOf]
      refine ⟨⟨?_, ?_⟩, hbytes, by simp [appendFrag, htake, SkBuff.fragList]⟩
      · rw [hbytes, List.length_append, ← hlen, ← hs.len_eq]
        rfl
      · simp only [appendFrag, htake]
        refine .mk (by omega) ?_ ?_
        · intro x hx
          rcases List.mem_append.mp hx with hx | hx
          · exact hlens x hx
          · obtain rfl := List.mem_singleton.mp hx
            exact hs.len_eq
        · intro x hx
          rcases List.mem_append.mp hx with hx | hx
          · exact hlaids x hx
          · obtain rfl := List.mem_singleton.mp hx
            exact hs.laid

@[simp] theorem grow_bytes (head skb : SkBuff) : (head.grow skb).bytes = head.bytes := by
  cases head
  simp [grow, bytes]

theorem Laid.grow {head : SkBuff} (h : head.Laid) (skb : SkBuff) : (head.grow skb).Laid := by
  cases h with
  | mk hlin hlens hlaids => exact .mk (by omega) hlens hlaids

theorem wf_allocSkbForMsg {first : SkBuff} (h : first.Wf) :
    (allocSkbForMsg first).Wf ∧ (allocSkbForMsg first).bytes = first.bytes := by
  have hbytes : (allocSkbForMsg first).bytes = first.bytes := by
    simp [allocSkbForMsg, bytes, bytesOf]
  refine ⟨⟨?_, ?_⟩, hbytes⟩
  · rw [hbytes, ← h.len_eq]; rfl
  · refine .mk (by simp) ?_ ?_
    · intro x hx
      obtain rfl := List.mem_singleton.mp hx
      exact h.len_eq
    · intro x hx
      obtain rfl := List.mem_singleton.mp hx
      exact h.laid

/-! ### `pskb_pull` -/

mutual

/-- `pskb_pull`: the buffer without its first `n` bytes.  Bytes of the fragments go through the
linear area, which is empty when any of them are pulled. -/
def pull (n : ℕ) : SkBuff → SkBuff
  | mk len dataLen truesize linear frags fragList =>
      if n ≤ linear.length then mk (len - n) dataLen truesize (linear.drop n) frags fragList
      else mk (len - n) (len - n) truesize [] [frags.flatten.drop (n - linear.length)]
        (pullOf (n - linear.length - frags.flatten.length) fragList)

/-- Buffers of a `frag_list` that are pulled as a whole are dropped from it. -/
def pullOf (n : ℕ) : List SkBuff → List SkBuff
  | [] => []
  | skb :: rest =>
      if skb.len ≤ n then pullOf (n - skb.len) rest
      else if n = 0 then skb :: rest
      else skb.pull n :: rest

end

theorem mem_wf_cons {skb : SkBuff} {rest : List SkBuff} (h : ∀ x ∈ skb :: rest, x.Wf) :
    skb.Wf ∧ ∀ x ∈ rest, x.Wf :=
  ⟨h skb List.mem_cons_self, fun x hx => h x (List.mem_cons_of_mem _ hx)⟩

/-- `pullOf` drops bytes, given that `pull` does on the buffers of the list. -/
theorem pullOf_spec {l : List SkBuff} (hwf : ∀ x ∈ l, x.Wf)
    (ih : ∀ x ∈ l, ∀ n ≤ x.len, (pull n x).Wf ∧ (pull n x).bytes = x.bytes.drop n) (n : ℕ) :
    (∀ x ∈ pullOf n l, x.Wf) ∧ bytesOf (pullOf n l) = (bytesOf l).drop n := by
  induction l generalizing n with
  | nil => simp [pullOf, bytesOf]
  | cons skb rest ihl =>
      obtain ⟨hskb, hrest⟩ := mem_wf_cons hwf
      have ih' : ∀ x ∈ rest, ∀ n ≤ x.len, (pull n x).Wf ∧ (pull n x).bytes = x.bytes.drop n :=
        fun x hx => ih x (List.mem_cons_of_mem _ hx)
      simp only [pullOf]
      split_ifs with hle h0
      · obtain ⟨h₁, h₂⟩ := ihl hrest ih' (n - skb.len)
        refine ⟨h₁, ?_⟩
        have hnil : skb.bytes.drop n = [] := List.drop_eq_nil_of_le (by rw [← hskb.len_eq]; exact hle)
        rw [h₂, bytesOf, List.drop_append, hnil, hskb.len_eq, List.nil_append]
      · subst h0
        exact ⟨hwf, rfl⟩
      · obtain ⟨h₁, h₂⟩ := ih skb List.mem_cons_self n (by omega)
        refine ⟨?_, ?_⟩
        · intro x hx
          rcases List.mem_cons.mp hx with rfl | hx
          · exact h₁
          · exact hrest x hx
        · rw [bytesOf, bytesOf, h₂, List.drop_append_of_le_length (by rw [← hskb.len_eq]; omega)]

theorem pull_spec {skb : SkBuff} (hl : skb.Laid) :
    skb.len = skb.bytes.length → ∀ n ≤ skb.len,
      (pull n skb).Wf ∧ (pull n skb).bytes = skb.bytes.drop n := by
  induction hl with
  | @mk len dataLen truesize linear frags fragList hlin hlens hlaids ih =>
      intro hlen n hn
      have hwf : ∀ x ∈ fragList, x.Wf := fun x hx => ⟨hlens x hx, hlaids x hx⟩
      have hpull := pullOf_spec hwf (fun x hx => ih x hx (hlens x hx))
        (n - linear.length - frags.flatten.length)
      have hbytes : (pull n (mk len dataLen truesize linear frags fragList)).bytes =
          (mk len dataLen truesize linear frags fragList).bytes.drop n := by
        simp only [pull]
        split_ifs with hle
        · simp only [bytes]
          rw [List.append_assoc, List.append_assoc, List.drop_append_of_le_length hle]
        · have hnil : linear.drop n = [] := List.drop_eq_nil_of_le (by omega)
          simp only [bytes, hpull.2]
          rw [List.append_assoc linear, List.drop_append, hnil, List.drop_append]
          simp
      refine ⟨⟨?_, ?_⟩, hbytes⟩
      · rw [hbytes, List.length_drop, ← hlen]
        simp only [pull]
        split_ifs <;> rfl
      · simp only [pull]
        split_ifs with hle
        · exact .mk (by rw [List.length_drop]; omega) hlens hlaids
        · exact .mk (by simp) (fun x hx => (hpull.1 x hx).len_eq) (fun x hx => (hpull.1 x hx).laid)

theorem Wf.pull {skb : SkBuff} (h : skb.Wf) {n : ℕ} (hn : n ≤ skb.len) :
    (skb.pull n).Wf ∧ (skb.pull n).bytes = skb.bytes.drop n := pull_spec h.laid h.len_eq n hn

/-! ### `skb_header_pointer` -/

/-- `skb_header_pointer`: `n` bytes at `offset`, or a null pointer. -/
def headerPointer (skb : SkBuff) (offset n : ℕ) : Option (List UInt8) :=
  if offset + n ≤ skb.len then some ((skb.bytes.drop offset).take n) else none

end SkBuff

end Rakaia
