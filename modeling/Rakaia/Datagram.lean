import Mathlib.Order.MinMax
import Rakaia.SkBuff

/-! # Copying a buffer to user space

`__skb_datagram_iter` walks the linear area, the page fragments and the `frag_list` of a buffer and
copies `len` bytes from `offset` on to the user's buffer.  When the user's buffer has room for them
and can be written, exactly those bytes are stored (`datagramIter_eq`); otherwise a copy that does not
report a fault has stored what fits (`datagramIter_copies`). -/

namespace Rakaia

open SkBuff

/-- The user's buffer: what is stored, the room that is left (`iov_iter_count`), and how many bytes
can be written before a page fault. -/
structure Iter where
  stored : List UInt8
  count : ℕ
  mapped : ℕ
deriving DecidableEq, Repr

namespace Iter

/-- `copy_to_iter`: the number of bytes stored, and the buffer after it. -/
def copyTo (dst : Iter) (bs : List UInt8) : ℕ × Iter :=
  let n := min bs.length (min dst.count dst.mapped)
  (n, ⟨dst.stored ++ bs.take n, dst.count - n, dst.mapped - n⟩)

/-- `iov_iter_revert`. -/
def revert (dst : Iter) (n : ℕ) : Iter :=
  ⟨dst.stored.take (dst.stored.length - n), dst.count + n, dst.mapped + n⟩

/-- The buffer after bytes for which it has room. -/
def push (dst : Iter) (bs : List UInt8) : Iter :=
  ⟨dst.stored ++ bs, dst.count - bs.length, dst.mapped - bs.length⟩

/-- The buffer takes `n` more bytes. -/
def Takes (dst : Iter) (n : ℕ) : Prop := n ≤ dst.count ∧ n ≤ dst.mapped

theorem copyTo_of_takes {dst : Iter} {bs : List UInt8} (h : dst.Takes bs.length) :
    dst.copyTo bs = (bs.length, dst.push bs) := by
  have hmin : min bs.length (min dst.count dst.mapped) = bs.length :=
    min_eq_left (le_min h.1 h.2)
  simp [copyTo, push, hmin]

@[simp] theorem push_nil (dst : Iter) : dst.push [] = dst := by simp [push]

theorem push_push (dst : Iter) (bs cs : List UInt8) : (dst.push bs).push cs = dst.push (bs ++ cs) := by
  simp [push, Nat.sub_sub]

theorem Takes.push {dst : Iter} {bs : List UInt8} {n : ℕ} (h : dst.Takes (bs.length + n)) :
    (dst.push bs).Takes n := by
  unfold Takes at *
  simp only [Iter.push]
  omega

theorem Takes.mono {dst : Iter} {m n : ℕ} (h : dst.Takes n) (hm : m ≤ n) : dst.Takes m :=
  ⟨le_trans hm h.1, le_trans hm h.2⟩

end Iter

/-! ### `__skb_datagram_iter` -/

/-- The walk over the parts of a buffer. -/
inductive Walk where
  /-- At the part that starts at byte `start`; `len` bytes from byte `offset` on are still to be
  copied. -/
  | going (start offset len : ℕ) (dst : Iter)
  /-- Return 0. -/
  | done (dst : Iter)
  /-- Label `fault`. -/
  | fault (offset : ℕ) (dst : Iter)

/-- One part that lies in one piece: the linear area or a page fragment. -/
def copyPiece (w : Walk) (bs : List UInt8) : Walk :=
  match w with
  | .going start offset len dst =>
      let stop := start + bs.length
      if offset < stop then
        let copy := min (stop - offset) len
        let r := dst.copyTo ((bs.drop (offset - start)).take copy)
        if r.1 ≠ copy then
          if r.2.count = 0 then .done r.2 else .fault (offset + r.1) r.2
        else if len - copy = 0 then .done r.2
        else .going stop (offset + copy) (len - copy) r.2
      else .going stop offset len dst
  | w => w

/-- The end of `__skb_datagram_iter`; `false` is `-EFAULT`. -/
def Walk.finish (startOff : ℕ) : Walk → Bool × Iter
  | .going _ offset len dst => if len = 0 then (true, dst) else (false, dst.revert (offset - startOff))
  | .done dst => (true, dst)
  | .fault offset dst => (false, dst.revert (offset - startOff))

mutual

/-- `__skb_datagram_iter` with `fault_short` false. -/
def datagramIter (offset len : ℕ) (dst : Iter) : SkBuff → Bool × Iter
  | .mk skbLen dataLen _ linear frags fragList =>
      (datagramFrags (frags.foldl copyPiece (copyPiece (.going 0 offset len dst)
        (linear.take (skbLen - dataLen)))) fragList).finish offset

/-- The loop over the `frag_list`. -/
def datagramFrags (w : Walk) : List SkBuff → Walk
  | [] => w
  | skb :: rest =>
      match w with
      | .going start offset len dst =>
          let stop := start + skb.len
          if offset < stop then
            let copy := min (stop - offset) len
            match datagramIter (offset - start) copy dst skb with
            | (false, dst') => .fault offset dst'
            | (true, dst') =>
                if len - copy = 0 then .done dst'
                else datagramFrags (.going stop (offset + copy) (len - copy) dst') rest
          else datagramFrags (.going stop offset len dst) rest
      | w => w

end

/-! ### What is stored -/

/-- The walk has passed the parts with bytes `bs` and stored what it should of them. -/
def Walk.Copied (offset₀ len₀ : ℕ) (dst₀ : Iter) (bs : List UInt8) : Walk → Prop
  | .going start offset len dst =>
      start = bs.length ∧ dst = dst₀.push ((bs.drop offset₀).take len₀) ∧
      offset = offset₀ + ((bs.drop offset₀).take len₀).length ∧
      len + ((bs.drop offset₀).take len₀).length = len₀
  | .done dst => dst = dst₀.push ((bs.drop offset₀).take len₀) ∧ offset₀ + len₀ ≤ bs.length
  | .fault _ _ => False

section copied

variable {offset₀ len₀ : ℕ} {dst₀ : Iter} {bs cs : List UInt8}

/-- The part of `bs ++ cs` to be copied is the part of `bs` followed by a part of `cs`. -/
theorem slice_append (bs cs : List UInt8) (offset₀ len₀ : ℕ) :
    ((bs ++ cs).drop offset₀).take len₀ = (bs.drop offset₀).take len₀ ++
      (cs.drop (offset₀ - bs.length)).take (len₀ - ((bs.drop offset₀).take len₀).length) := by
  rw [List.drop_append, List.take_append, List.length_take, List.length_drop]
  congr 2
  omega

/-- What is to be copied of the next part starts where the walk stands. -/
theorem slice_next {offset : ℕ} (ho : offset = offset₀ + ((bs.drop offset₀).take len₀).length) :
    (cs.drop (offset₀ - bs.length)).take (len₀ - ((bs.drop offset₀).take len₀).length) =
      (cs.drop (offset - bs.length)).take (len₀ - ((bs.drop offset₀).take len₀).length) := by
  rw [List.length_take, List.length_drop] at ho ⊢
  rcases Nat.lt_or_ge offset₀ bs.length with hlt | hge
  · rcases Nat.lt_or_ge (bs.length - offset₀) len₀ with h | h
    · rw [show offset - bs.length = offset₀ - bs.length by omega]
    · rw [show len₀ - min len₀ (bs.length - offset₀) = 0 by omega]
      simp
  · rw [show offset = offset₀ by omega]

/-- A step that stores what is to be copied of the next part `cs` passes it. -/
theorem Walk.Copied.advance {start offset len : ℕ} {dst : Iter}
    (h : (Walk.going start offset len dst).Copied offset₀ len₀ dst₀ bs)
    (hlt : offset < start + cs.length) :
    (if len - min (start + cs.length - offset) len = 0 then
      Walk.done (dst.push ((cs.drop (offset - start)).take (min (start + cs.length - offset) len)))
    else .going (start + cs.length) (offset + min (start + cs.length - offset) len)
      (len - min (start + cs.length - offset) len)
      (dst.push ((cs.drop (offset - start)).take (min (start + cs.length - offset) len)))).Copied
        offset₀ len₀ dst₀ (bs ++ cs) := by
  obtain ⟨rfl, rfl, ho, hl⟩ := h
  have hslice := slice_append bs cs offset₀ len₀
  rw [slice_next ho] at hslice
  have hk : ((bs.drop offset₀).take len₀).length = min len₀ (bs.length - offset₀) := by simp
  generalize (bs.drop offset₀).take len₀ = slice at *
  obtain rfl : len = len₀ - slice.length := by omega
  generalize hcopy : min (bs.length + cs.length - offset) (len₀ - slice.length) = copy
  have hpart : (cs.drop (offset - bs.length)).take copy =
      (cs.drop (offset - bs.length)).take (len₀ - slice.length) := by
    rw [List.take_eq_take_iff, List.length_drop]
    omega
  have hlen : ((cs.drop (offset - bs.length)).take copy).length = copy := by
    rw [List.length_take, List.length_drop]
    omega
  rw [← hpart] at hslice
  split_ifs with h0
  · refine ⟨by rw [hslice, Iter.push_push], ?_⟩
    rw [List.length_append]
    omega
  · refine ⟨List.length_append.symm, by rw [hslice, Iter.push_push], ?_, ?_⟩
    · rw [hslice, List.length_append, hlen]
      omega
    · rw [hslice, List.length_append, hlen]
      omega

/-- A part that lies before what is to be copied. -/
theorem Walk.Copied.skip {start offset len : ℕ} {dst : Iter}
    (h : (Walk.going start offset len dst).Copied offset₀ len₀ dst₀ bs)
    (hge : start + cs.length ≤ offset) :
    (Walk.going (start + cs.length) offset len dst).Copied offset₀ len₀ dst₀ (bs ++ cs) := by
  obtain ⟨rfl, rfl, ho, hl⟩ := h
  have hslice := slice_append bs cs offset₀ len₀
  have hnil : cs.drop (offset - bs.length) = [] := List.drop_eq_nil_of_le (by omega)
  rw [slice_next ho, hnil, List.take_nil, List.append_nil] at hslice
  refine ⟨List.length_append.symm, by rw [hslice], by rw [hslice]; exact ho, by rw [hslice]; exact hl⟩

theorem Walk.Copied.append_done {dst : Iter} (h : (Walk.done dst).Copied offset₀ len₀ dst₀ bs)
    (cs : List UInt8) : (Walk.done dst).Copied offset₀ len₀ dst₀ (bs ++ cs) := by
  obtain ⟨rfl, hle⟩ := h
  refine ⟨?_, by rw [List.length_append]; omega⟩
  rw [slice_append, List.length_take, List.length_drop, show len₀ - min len₀ (bs.length - offset₀) = 0 by omega]
  simp

/-- The room that is left when the walk stands at a part. -/
theorem Walk.Copied.takes {start offset len : ℕ} {dst : Iter} (hd : dst₀.Takes len₀)
    (h : (Walk.going start offset len dst).Copied offset₀ len₀ dst₀ bs) : dst.Takes len := by
  obtain ⟨-, rfl, -, hl⟩ := h
  exact Iter.Takes.push (hd.mono (by omega))

/-- While there is something to copy, the walk stands in the next part or behind it. -/
theorem Walk.Copied.length_part {start offset len : ℕ} {dst : Iter}
    (h : (Walk.going start offset len dst).Copied offset₀ len₀ dst₀ bs) :
    ((cs.drop (offset - start)).take (min (start + cs.length - offset) len)).length =
      min (start + cs.length - offset) len := by
  obtain ⟨rfl, -, ho, hl⟩ := h
  rw [List.length_take, List.length_drop] at ho hl ⊢
  omega

theorem copyPiece_copied {w : Walk} (hd : dst₀.Takes len₀) (h : w.Copied offset₀ len₀ dst₀ bs)
    (cs : List UInt8) : (copyPiece w cs).Copied offset₀ len₀ dst₀ (bs ++ cs) := by
  cases w with
  | fault => exact h.elim
  | done dst => exact h.append_done cs
  | going start offset len dst =>
      simp only [copyPiece]
      by_cases hlt : offset < start + cs.length
      · rw [if_pos hlt, Iter.copyTo_of_takes ((h.takes hd).mono (by rw [h.length_part]; exact min_le_right _ _))]
        simp only [h.length_part, ne_eq, not_true_eq_false, if_false]
        exact h.advance hlt
      · rw [if_neg hlt]
        exact h.skip (by omega)

theorem copyPieces_copied {w : Walk} (hd : dst₀.Takes len₀) (h : w.Copied offset₀ len₀ dst₀ bs)
    (pieces : List (List UInt8)) :
    (pieces.foldl copyPiece w).Copied offset₀ len₀ dst₀ (bs ++ pieces.flatten) := by
  induction pieces generalizing w bs with
  | nil => simpa using h
  | cons cs rest ih =>
      have := ih (copyPiece_copied hd h cs)
      simpa using this

/-- The loop over the `frag_list`, given that each buffer of the list is copied right. -/
theorem datagramFrags_copied {l : List SkBuff} (hd : dst₀.Takes len₀)
    (hlen : ∀ skb ∈ l, skb.len = skb.bytes.length)
    (ih : ∀ skb ∈ l, ∀ offset len dst, Iter.Takes dst len → offset + len ≤ skb.bytes.length →
      datagramIter offset len dst skb = (true, dst.push ((skb.bytes.drop offset).take len)))
    {w : Walk} (h : w.Copied offset₀ len₀ dst₀ bs) :
    (datagramFrags w l).Copied offset₀ len₀ dst₀ (bs ++ bytesOf l) := by
  induction l generalizing w bs with
  | nil => simpa [datagramFrags, bytesOf] using h
  | cons skb rest ihl =>
      have hlen' : ∀ x ∈ rest, x.len = x.bytes.length := fun x hx => hlen x (List.mem_cons_of_mem _ hx)
      have ihl' := fun {w : Walk} {bs : List UInt8} (h : w.Copied offset₀ len₀ dst₀ bs) =>
        ihl hlen' (fun x hx => ih x (List.mem_cons_of_mem _ hx)) h
      rw [bytesOf, ← List.append_assoc]
      cases w with
      | fault => exact h.elim
      | done dst => simpa [datagramFrags] using (h.append_done skb.bytes).append_done (bytesOf rest)
      | going start offset len dst =>
          simp only [datagramFrags, hlen skb List.mem_cons_self]
          by_cases hlt : offset < start + skb.bytes.length
          · have htake := (h.takes hd).mono (min_le_right (start + skb.bytes.length - offset) len)
            have hadv := h.advance hlt
            rw [if_pos hlt, ih skb List.mem_cons_self _ _ dst htake ?_]
            · dsimp only
              by_cases h0 : len - min (start + skb.bytes.length - offset) len = 0
              · rw [if_pos h0] at hadv ⊢
                exact hadv.append_done _
              · rw [if_neg h0] at hadv ⊢
                exact ihl' hadv
            · obtain ⟨rfl, -, ho, hl⟩ := h
              rw [List.length_take, List.length_drop] at ho hl
              omega
          · rw [if_neg hlt]
            exact ihl' (h.skip (by omega))

/-- The walk is over when everything to be copied lies in the parts it passed. -/
theorem Walk.Copied.finish {w : Walk} (h : w.Copied offset₀ len₀ dst₀ bs)
    (hle : offset₀ + len₀ ≤ bs.length) :
    w.finish offset₀ = (true, dst₀.push ((bs.drop offset₀).take len₀)) := by
  cases w with
  | fault => exact h.elim
  | done dst => rw [Walk.finish, h.1]
  | going start offset len dst =>
      obtain ⟨-, rfl, -, hl⟩ := h
      have h0 : len = 0 := by
        rw [List.length_take, List.length_drop] at hl
        omega
      simp [Walk.finish, h0]

end copied

/-- **`__skb_datagram_iter` copies the bytes it is asked for**, when they lie in the buffer and the
user's buffer takes them. -/
theorem datagramIter_eq {skb : SkBuff} (hl : skb.Laid) : ∀ (offset len : ℕ) (dst : Iter),
    dst.Takes len → offset + len ≤ skb.bytes.length →
    datagramIter offset len dst skb = (true, dst.push ((skb.bytes.drop offset).take len)) := by
  induction hl with
  | @mk skbLen dataLen truesize linear frags fragList hlin hlens hlaids ih =>
      intro offset len dst hd hle
      have h₀ : (Walk.going 0 offset len dst).Copied offset len dst [] := by simp [Walk.Copied]
      have h₁ := copyPiece_copied hd h₀ (linear.take (skbLen - dataLen))
      have h₂ := copyPieces_copied hd h₁ frags
      have h₃ := datagramFrags_copied hd hlens ih h₂
      have hbytes : [] ++ linear.take (skbLen - dataLen) ++ frags.flatten ++ bytesOf fragList =
          (mk skbLen dataLen truesize linear frags fragList).bytes := by
        rw [hlin, List.take_length, List.nil_append, bytes]
      rw [hbytes] at h₃
      rw [datagramIter]
      exact h₃.finish hle

/-! ### What a copy without fault can store -/

/-- What was stored has used up room and mapped bytes. -/
structure Iter.Conserves (dst dst' : Iter) : Prop where
  mono : dst.stored.length ≤ dst'.stored.length
  count : dst'.stored.length + dst'.count = dst.stored.length + dst.count
  mapped : dst'.stored.length + dst'.mapped = dst.stored.length + dst.mapped

/-- Of `len` bytes all but `rest` are stored, or there is no room any more. -/
structure Iter.Copies (len rest : ℕ) (dst dst' : Iter) : Prop extends dst.Conserves dst' where
  all : dst.stored.length + len ≤ dst'.stored.length + rest ∨ dst'.count = 0

theorem Iter.Copies.refl (len : ℕ) (dst : Iter) : dst.Copies len len dst := ⟨⟨le_rfl, rfl, rfl⟩, .inl le_rfl⟩

theorem Iter.Copies.trans {d₁ d₂ d₃ : Iter} {len mid rest : ℕ} (h : d₁.Copies len mid d₂)
    (h' : d₂.Copies mid rest d₃) : d₁.Copies len rest d₃ := by
  obtain ⟨⟨hm, hc, hp⟩, ha⟩ := h
  obtain ⟨⟨hm', hc', hp'⟩, ha'⟩ := h'
  exact ⟨⟨by omega, by omega, by omega⟩, by omega⟩

/-- What is still to be copied besides does not matter. -/
theorem Iter.Copies.add {dst dst' : Iter} {len rest : ℕ} (h : dst.Copies len rest dst') (n : ℕ) :
    dst.Copies (len + n) (rest + n) dst' :=
  ⟨h.toConserves, h.all.imp_left (fun h => by omega)⟩

/-- `copy_to_iter` stores all bytes, or stops at the end of the room or of what can be written. -/
theorem Iter.conserves_copyTo (dst : Iter) (bs : List UInt8) : dst.Conserves (dst.copyTo bs).2 := by
  constructor <;> simp only [Iter.copyTo, List.length_append, List.length_take] <;> omega

theorem Iter.length_copyTo (dst : Iter) (bs : List UInt8) :
    (dst.copyTo bs).2.stored.length = dst.stored.length + (dst.copyTo bs).1 := by
  simp only [Iter.copyTo, List.length_append, List.length_take]
  omega

/-- Until a fault, the walk stores what it passes. -/
def Walk.Kept (len₀ : ℕ) (dst₀ : Iter) : Walk → Prop
  | .going _ _ len dst => dst₀.Copies len₀ len dst
  | .done dst => dst₀.Copies len₀ 0 dst
  | .fault _ _ => True

/-- A part of which `copy` bytes were copied, when `len` were to be. -/
theorem Walk.Kept.advance {len₀ len copy : ℕ} {dst₀ dst dst' : Iter} (start offset : ℕ) (h : dst₀.Copies len₀ len dst)
    (h' : dst.Copies copy 0 dst') (hle : copy ≤ len) :
    (if len - copy = 0 then Walk.done dst' else .going start offset (len - copy) dst').Kept len₀ dst₀ := by
  have hpart := h'.add (len - copy)
  rw [Nat.add_sub_cancel' hle, Nat.zero_add] at hpart
  have hall := h.trans hpart
  split_ifs with h0
  · rw [h0] at hall
    exact hall
  · exact hall

theorem copyPiece_kept {len₀ : ℕ} {dst₀ : Iter} {w : Walk} (h : w.Kept len₀ dst₀) (bs : List UInt8) :
    (copyPiece w bs).Kept len₀ dst₀ := by
  cases w with
  | done => exact h
  | fault => exact h
  | going start offset len dst =>
      simp only [copyPiece]
      generalize hpart : (bs.drop (offset - start)).take (min (start + bs.length - offset) len) = part
      have hstored := dst.length_copyTo part
      have hcons := dst.conserves_copyTo part
      by_cases hlt : offset < start + bs.length
      · rw [if_pos hlt]
        by_cases hshort : (dst.copyTo part).1 ≠ min (start + bs.length - offset) len
        · rw [if_pos hshort]
          split_ifs with h0
          · have hnone : dst.Copies len 0 (dst.copyTo part).2 := ⟨hcons, .inr h0⟩
            exact Iter.Copies.trans h hnone
          · trivial
        · rw [if_neg hshort]
          rw [not_not] at hshort
          exact Walk.Kept.advance _ _ h ⟨hcons, .inl (by omega)⟩ (min_le_right _ _)
      · rw [if_neg hlt]
        exact h

theorem copyPieces_kept {len₀ : ℕ} {dst₀ : Iter} {w : Walk} (h : w.Kept len₀ dst₀) (pieces : List (List UInt8)) :
    (pieces.foldl copyPiece w).Kept len₀ dst₀ := by
  induction pieces generalizing w with
  | nil => exact h
  | cons bs rest ih => exact ih (copyPiece_kept h bs)

theorem datagramFrags_kept {len₀ : ℕ} {dst₀ : Iter} {l : List SkBuff}
    (ih : ∀ skb ∈ l, ∀ offset len dst dst', datagramIter offset len dst skb = (true, dst') →
      dst.Copies len 0 dst') {w : Walk} (h : w.Kept len₀ dst₀) : (datagramFrags w l).Kept len₀ dst₀ := by
  induction l generalizing w with
  | nil => exact h
  | cons skb rest ihl =>
      have ihl' := fun {w : Walk} (h : w.Kept len₀ dst₀) => ihl (fun x hx => ih x (List.mem_cons_of_mem _ hx)) h
      cases w with
      | done => exact h
      | fault => exact h
      | going start offset len dst =>
          simp only [datagramFrags]
          by_cases hlt : offset < start + skb.len
          · rw [if_pos hlt]
            cases hr : datagramIter (offset - start) (min (start + skb.len - offset) len) dst skb with
            | mk ok dst' =>
                cases ok with
                | false => trivial
                | true =>
                    have hkept := Walk.Kept.advance (start + skb.len)
                      (offset + min (start + skb.len - offset) len) h
                      (ih skb List.mem_cons_self _ _ _ _ hr) (min_le_right _ _)
                    dsimp only
                    split_ifs at hkept ⊢
                    · exact hkept
                    · exact ihl' hkept
          · rw [if_neg hlt]
            exact ihl' h

/-- A copy that does not fault stores all bytes it is asked for, as far as there is room. -/
theorem datagramIter_copies {skb : SkBuff} (hl : skb.Laid) : ∀ (offset len : ℕ) (dst dst' : Iter),
    datagramIter offset len dst skb = (true, dst') → dst.Copies len 0 dst' := by
  induction hl with
  | @mk skbLen dataLen truesize linear frags fragList _ _ _ ih =>
      intro offset len dst dst' h
      have h₀ : (Walk.going 0 offset len dst).Kept len dst := Iter.Copies.refl len dst
      have hkept := datagramFrags_kept ih
        (copyPieces_kept (copyPiece_kept h₀ (linear.take (skbLen - dataLen))) frags)
      rw [datagramIter] at h
      generalize datagramFrags _ fragList = w at h hkept
      cases w with
      | fault => cases h
      | done =>
          obtain ⟨-, rfl⟩ := Prod.mk.inj h
          exact hkept
      | going start offset' rest dst'' =>
          simp only [Walk.finish] at h
          split_ifs at h with h0
          · obtain ⟨-, rfl⟩ := Prod.mk.inj h
            rw [h0] at hkept
            exact hkept
          · cases h

end Rakaia
