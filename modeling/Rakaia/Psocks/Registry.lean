import Rakaia.Psocks.Attach

/-! # The registry of psocks

`release_psock` follows the pointers of every psock in `psock_list`, so that a listed psock has to be
allocated and hooked into its TCP socket.  `rakaia_attach` links the psock before its checks and no
error exit unlinks it: the registry is sound as long as every call that gets a psock goes through
(`Attachable`), and an attach that fails later on leaves a trace (`rakaiaAttach_fails`). -/

namespace Rakaia.Psocks

open Lib

/-- **The registry is sound**: every psock in the list is allocated, has a lower socket, and the lower
socket points back to it. -/
def Sound (s : State) : Prop :=
  ∀ a ∈ s.psockList, a ∈ s.allocated ∧ ∃ c, (s.heap a).sk = some c ∧ (s.csk c).userData = .psock a

/-- The list, the set of allocated psocks and the lower sockets are the same. -/
structure Unchanged (s s' : State) : Prop where
  psockList : s'.psockList = s.psockList
  allocated : s'.allocated = s.allocated
  csk : s'.csk = s.csk

/-- A failed `rakaia_attach` changes nothing. -/
def FailsCleanly (s : State) : Act → Prop
  | .attach sk alloc strpInit => (rakaiaAttach s sk alloc strpInit).2 ≠ none →
      Unchanged s (rakaiaAttach s sk alloc strpInit).1
  | _ => True

/-- All checks of `rakaia_attach` pass, on the state before the call. -/
def Attachable (s : State) (sk : Option ℕ) (strpInit : Option Errno) : Prop :=
  ∃ c, sk = some c ∧ (s.csk c).isTcp = true ∧ (s.csk c).isOpen = true ∧ (s.csk c).userData = .null ∧
    strpInit = none

/-- The condition under which the registry stays sound: a call of `rakaia_attach` that gets a psock
passes all checks. -/
def Orderly (s : State) : Act → Prop
  | .attach sk alloc strpInit => alloc = true → Attachable s sk strpInit
  | _ => True

/-! ### `rakaia_attach` -/

section attach

variable {s s' : State} {sk : Option ℕ} {alloc : Bool} {strpInit : Option Errno} {a c : ℕ}

/-- The state after a call that passed all checks. -/
def State.attached (s : State) (c : ℕ) : State := (s.publish.setSk s.brk c).hook s.brk c

theorem rakaiaAttach_of_attachable (h : Attachable s sk strpInit) :
    ∃ c, (s.csk c).userData = .null ∧ rakaiaAttach s sk true strpInit = (s.attached c, none) := by
  obtain ⟨c, rfl, htcp, hopen, hnull, rfl⟩ := h
  have htcp' : (s.publish.csk c).isTcp = true := htcp
  have hopen' : (s.publish.csk c).isOpen = true := hopen
  have hnull' : ((s.publish.setSk s.brk c).csk c).userData = .null := hnull
  refine ⟨c, hnull, ?_⟩
  simp [rakaiaAttach, htcp', hopen', hnull', State.attached]

/-- What an error exit leaves: the new psock is in the list, and has no lower socket or is freed. -/
structure Stranded (s s' : State) : Prop where
  psockList : s'.psockList = s.brk :: s.psockList
  broken : (s'.heap s.brk).sk = none ∨ s'.allocated = (s.brk :: s.allocated).erase s.brk

/-- **The error exits** leave the psock in the list. -/
theorem rakaiaAttach_fails (h : ¬ Attachable s sk strpInit) :
    (rakaiaAttach s sk true strpInit).2 ≠ none ∧ Stranded s (rakaiaAttach s sk true strpInit).1 := by
  have hzero : (s.publish.heap s.brk).sk = none := by simp [State.publish, State.setPsock, Psock.zero]
  rw [rakaiaAttach, if_neg (by simp)]
  dsimp only
  cases sk with
  | none => exact ⟨by simp, rfl, .inl hzero⟩
  | some c =>
      dsimp only
      split_ifs with htcp hopen hnull
      · exact ⟨by simp, rfl, .inl hzero⟩
      · exact ⟨by simp, rfl, .inl hzero⟩
      · exact ⟨by simp, rfl, .inr rfl⟩
      · cases strpInit with
        | none =>
            exact absurd ⟨c, rfl, Bool.of_not_eq_false htcp, Bool.of_not_eq_false hopen, not_not.mp hnull,
              rfl⟩ h
        | some err => exact ⟨by simp, rfl, .inr rfl⟩

end attach

/-! ### What orderly calls keep -/

/-- The registry is sound, the list has no duplicates, and addresses are fresh. -/
structure Inv (s : State) : Prop where
  sound : Sound s
  nodup : s.psockList.Nodup
  below : ∀ a ∈ s.allocated, a < s.brk

section inv

variable {s s' : State} {a c : ℕ}

theorem inv_init (csk : ℕ → Csk) : Inv (.init csk) := by
  constructor <;> simp [State.init, Sound]

theorem Inv.listed_lt (h : Inv s) (ha : a ∈ s.psockList) : a < s.brk := h.below a (h.sound a ha).1

theorem attached_sk (s : State) (c : ℕ) : ((s.attached c).heap s.brk).sk = some c := by
  simp [State.attached, State.hook, State.setSk, State.setPsock, State.setCsk]

theorem attached_heap (s : State) (c : ℕ) (ha : a ≠ s.brk) : (s.attached c).heap a = s.heap a := by
  simp [State.attached, State.hook, State.setSk, State.setPsock, State.setCsk, State.publish, ha]

theorem attached_userData (s : State) (c : ℕ) : ((s.attached c).csk c).userData = .psock s.brk := by
  simp [State.attached, State.hook, State.setCsk]

theorem attached_csk (s : State) {c d : ℕ} (hd : d ≠ c) : (s.attached c).csk d = s.csk d := by
  simp [State.attached, State.hook, State.setSk, State.setPsock, State.setCsk, State.publish, hd]

theorem Inv.attached (h : Inv s) (hc : (s.csk c).userData = .null) : Inv (s.attached c) where
  sound b hb := by
    rcases List.mem_cons.mp hb with rfl | hb
    · exact ⟨List.mem_cons_self, c, attached_sk s c, attached_userData s c⟩
    · obtain ⟨halloc, d, hd, hback⟩ := h.sound b hb
      have hne : d ≠ c := by
        rintro rfl
        rw [hc] at hback
        cases hback
      refine ⟨List.mem_cons_of_mem _ halloc, d, ?_, ?_⟩
      · rw [attached_heap s c (Nat.ne_of_lt (h.listed_lt hb)), hd]
      · rw [attached_csk s hne, hback]
  nodup := List.nodup_cons.mpr ⟨fun hm => Nat.lt_irrefl _ (h.listed_lt hm), h.nodup⟩
  below b hb := by
    rcases List.mem_cons.mp hb with rfl | hb
    · exact Nat.lt_succ_self _
    · exact Nat.lt_succ_of_lt (h.below b hb)

/-- The first psock of the list is detached; the others have other lower sockets. -/
theorem Inv.releasePsock (h : Inv s) {l : List ℕ} (hl : s.psockList = a :: l) :
    ∃ s', releasePsock s a = some s' ∧ Inv s' ∧ s'.psockList = l := by
  obtain ⟨halloc, c, hc, hback⟩ := h.sound a (by rw [hl]; exact List.mem_cons_self)
  have hnd := h.nodup
  rw [hl] at hnd
  have herase : s.psockList.erase a = l := by rw [hl, List.erase_cons_head]
  refine ⟨_, by rw [Psocks.releasePsock, if_pos halloc]; simp only [hc]; rfl, ?_, herase⟩
  refine ⟨?_, ?_, fun b hb => h.below b (List.mem_of_mem_erase hb)⟩
  · intro b hb
    change b ∈ s.psockList.erase a at hb
    rw [herase] at hb
    obtain ⟨hballoc, d, hd, hbback⟩ := h.sound b (by rw [hl]; exact List.mem_cons_of_mem _ hb)
    have hba : b ≠ a := ne_of_mem_of_not_mem hb (List.nodup_cons.mp hnd).1
    have hdc : d ≠ c := by
      rintro rfl
      rw [hback] at hbback
      exact hba (UserData.psock.inj hbback).symm
    refine ⟨(List.mem_erase_of_ne hba).mpr hballoc, d, hd, ?_⟩
    exact (congrArg Csk.userData (Function.update_of_ne hdc _ _)).trans hbback
  · change (s.psockList.erase a).Nodup
    rw [herase]
    exact (List.nodup_cons.mp hnd).2

theorem Inv.releasePsocks (h : Inv s) {l : List ℕ} (hl : s.psockList = l) :
    ∃ s', releasePsocks s l = some s' ∧ Inv s' ∧ s'.psockList = [] := by
  induction l generalizing s with
  | nil => exact ⟨s, rfl, h, hl⟩
  | cons a l ih =>
      obtain ⟨s₁, hs₁, h₁, hl₁⟩ := h.releasePsock hl
      obtain ⟨s', hs', h', hnil⟩ := ih h₁ hl₁
      exact ⟨s', by rw [Psocks.releasePsocks, hs₁]; exact hs', h', hnil⟩

/-- `rakaia_release` returns. -/
theorem Inv.rakaiaRelease (h : Inv s) : ∃ s', rakaiaRelease s = some s' ∧ Inv s' := by
  unfold Psocks.rakaiaRelease
  have h₀ : Inv { s with rakaiaSocksCnt := s.rakaiaSocksCnt - 1 } := ⟨h.sound, h.nodup, h.below⟩
  dsimp only
  split_ifs
  · obtain ⟨s', hs', h', -⟩ := h₀.releasePsocks rfl
    exact ⟨s', hs', h'⟩
  · exact ⟨_, rfl, h₀⟩

theorem Inv.step (h : Inv s) {act : Act} {e : List Event} (hg : Orderly s act)
    (hs : step s act = some (s', e)) : Inv s' := by
  cases act with
  | create =>
      obtain ⟨rfl, -⟩ := Prod.mk.inj (Option.some.inj hs)
      split_ifs
      · exact ⟨h.sound, h.nodup, h.below⟩
      · exact h
  | attach sk alloc strpInit =>
      rw [Psocks.step] at hs
      split_ifs at hs
      obtain ⟨rfl, -⟩ := Prod.mk.inj (Option.some.inj hs)
      cases alloc with
      | false => exact h
      | true =>
          obtain ⟨c, hc, heq⟩ := rakaiaAttach_of_attachable (hg rfl)
          rw [heq]
          exact h.attached hc
  | release =>
      rw [Psocks.step] at hs
      split_ifs at hs
      obtain ⟨s₁, hs₁, h₁⟩ := h.rakaiaRelease
      rw [hs₁] at hs
      obtain ⟨rfl, -⟩ := Prod.mk.inj (Option.some.inj hs)
      exact h₁
  | skState c state =>
      obtain ⟨rfl, -⟩ := Prod.mk.inj (Option.some.inj hs)
      refine ⟨?_, h.nodup, h.below⟩
      intro a ha
      obtain ⟨halloc, d, hd, hback⟩ := h.sound a ha
      refine ⟨halloc, d, hd, ?_⟩
      by_cases hdc : d = c
      · subst hdc
        simpa [State.setCsk] using hback
      · simpa [State.setCsk, hdc] using hback

theorem inv_of_reach {csk : ℕ → Csk} {es : List Event} (h : (machine csk).Reach Orderly s es) : Inv s := by
  refine h.invariant (P := fun s _ => Inv s) (inv_init csk) ?_
  intro s es a s' e _ ih hg hs
  exact ih.step hg hs

/-! ### The condition is needed -/

theorem Stranded.not_sound (h : Inv s) (hs : Stranded s s') : ¬ Sound s' := by
  intro hsound
  obtain ⟨halloc, c, hc, -⟩ := hsound s.brk (by rw [hs.psockList]; exact List.mem_cons_self)
  rcases hs.broken with hnone | hfree
  · rw [hnone] at hc
    cases hc
  · rw [hfree, List.erase_cons_head] at halloc
    exact Nat.lt_irrefl _ (h.below _ halloc)

/-- A call leaves a sound registry if and only if it meets the condition. -/
theorem Inv.sound_iff (h : Inv s) {act : Act} {e : List Event} (hs : Psocks.step s act = some (s', e)) :
    Sound s' ↔ Orderly s act := by
  constructor
  · intro hsound
    cases act with
    | attach sk alloc strpInit =>
        rintro rfl
        by_contra hg
        rw [Psocks.step] at hs
        split_ifs at hs
        obtain ⟨rfl, -⟩ := Prod.mk.inj (Option.some.inj hs)
        exact (rakaiaAttach_fails hg).2.not_sound h hsound
    | create | release | skState => trivial
  · exact fun hg => (h.step hg hs).sound

/-- A failed call changes nothing if and only if it meets the condition. -/
theorem failsCleanly_iff (s : State) (act : Act) : FailsCleanly s act ↔ Orderly s act := by
  cases act with
  | attach sk alloc strpInit =>
      cases alloc with
      | false => exact iff_of_true (fun _ => ⟨rfl, rfl, rfl⟩) (fun h => by cases h)
      | true =>
          by_cases hg : Attachable s sk strpInit
          · obtain ⟨c, -, heq⟩ := rakaiaAttach_of_attachable hg
            refine iff_of_true (fun herr => ?_) (fun _ => hg)
            rw [heq] at herr
            exact absurd rfl herr
          · obtain ⟨herr, hstranded⟩ := rakaiaAttach_fails hg
            refine iff_of_false (fun hclean => ?_) (fun h => hg (h rfl))
            have hlist := (hclean herr).psockList
            rw [hstranded.psockList] at hlist
            exact List.cons_ne_self _ _ hlist
  | create | release | skState => exact Iff.rfl

end inv

/-! ### The main result -/

instance (s : State) (strpInit : Option Errno) : (sk : Option ℕ) → Decidable (Attachable s sk strpInit)
  | none => .isFalse (fun ⟨_, h, _⟩ => by cases h)
  | some c => decidable_of_iff ((s.csk c).isTcp = true ∧ (s.csk c).isOpen = true ∧
      (s.csk c).userData = .null ∧ strpInit = none) (by simp [Attachable])

instance (s : State) : DecidablePred (Orderly s)
  | .attach .. => inferInstanceAs (Decidable (_ → _))
  | .create | .release | .skState .. => .isTrue trivial

/-- A TCP socket in a given state. -/
def tcpSock (state : SkState) : Csk := ⟨.inet, .tcp, state, .null, .own 0, .own 1, .own 2⟩

/-- **The registry of psocks.**  In every run whose calls of `rakaia_attach` meet the condition, in
every state reached: the registry is sound, the release of the last socket can detach every psock,
and a call keeps the registry sound and changes nothing when it fails if and only if it meets the
condition. -/
theorem registry_sound {csk : ℕ → Csk} {s : State} {es : List Event}
    (h : (machine csk).Reach Orderly s es) :
    Sound s ∧ (∃ s', rakaiaRelease s = some s') ∧
      (∀ a s' e, step s a = some (s', e) → (Sound s' ↔ Orderly s a)) ∧
      ∀ a, FailsCleanly s a ↔ Orderly s a := by
  have hinv := inv_of_reach h
  obtain ⟨s', hs', -⟩ := hinv.rakaiaRelease
  exact ⟨hinv.sound, ⟨s', hs'⟩, fun _ _ _ hs => hinv.sound_iff hs, failsCleanly_iff s⟩

/-- Two sockets are attached, and an attach in between gets no psock. -/
theorem registry_sound_two : ∃ s es, (machine (fun _ => tcpSock .established)).Reach Orderly s es ∧
    es = [.attached none, .attached (some .enomem), .attached none] ∧ s.psockList = [1, 0] ∧ Sound s := by
  obtain ⟨s, es, hr, hy⟩ := Machine.Reach.of_exec (M := machine (fun _ => tcpSock .established))
    (G := Orderly) (g := fun s a => decide (Orderly s a))
    [.create, .attach (some 5) true none, .attach none false none, .attach (some 6) true none]
    (fun _ _ _ => of_decide_eq_true)
    (fun r => (r.2, r.1.psockList))
    ([.attached none, .attached (some .enomem), .attached none], [1, 0]) (by decide +kernel)
  simp only [Prod.mk.injEq] at hy
  exact ⟨s, es, hr, hy.1, hy.2, (registry_sound hr).1⟩

/-- A listener cannot be attached, but its psock stays in the list without a lower socket; a socket that
is attached already leaves a freed psock in the list.  In both cases the release of the last rakaia
socket follows a bad pointer. -/
theorem registry_unsound :
    (∃ s es, (machine (fun _ => tcpSock .listen)).Reachable s es ∧ es = [.attached (some .eopnotsupp)] ∧
      s.psockList = [0] ∧ s.allocated = [0] ∧ rakaiaRelease s = none ∧ ¬ Sound s) ∧
    ∃ s es, (machine (fun _ => tcpSock .established)).Reachable s es ∧
      es = [.attached none, .attached (some .ealready)] ∧ s.psockList = [1, 0] ∧ s.allocated = [0] ∧
      rakaiaRelease s = none ∧ ¬ Sound s := by
  constructor
  · obtain ⟨s, es, hr, hy⟩ := Machine.Reach.of_exec (M := machine (fun _ => tcpSock .listen))
      (G := fun _ _ => True) (g := fun _ _ => true) [.create, .attach (some 5) true none]
      (fun _ _ _ _ => trivial)
      (fun r => (r.2, r.1.psockList, r.1.allocated, (rakaiaRelease r.1).isNone, (r.1.heap 0).sk))
      ([.attached (some .eopnotsupp)], [0], [0], true, none) (by decide +kernel)
    simp only [Prod.mk.injEq, Option.isNone_iff_eq_none] at hy
    obtain ⟨he, hl, ha, hrel, hsk⟩ := hy
    refine ⟨s, es, hr, he, hl, ha, hrel, ?_⟩
    intro hsound
    obtain ⟨-, c, hc, -⟩ := hsound 0 (by rw [hl]; simp)
    rw [hsk] at hc
    cases hc
  · obtain ⟨s, es, hr, hy⟩ := Machine.Reach.of_exec (M := machine (fun _ => tcpSock .established))
      (G := fun _ _ => True) (g := fun _ _ => true)
      [.create, .attach (some 5) true none, .attach (some 5) true none] (fun _ _ _ _ => trivial)
      (fun r => (r.2, r.1.psockList, r.1.allocated, (rakaiaRelease r.1).isNone))
      ([.attached none, .attached (some .ealready)], [1, 0], [0], true) (by decide +kernel)
    simp only [Prod.mk.injEq, Option.isNone_iff_eq_none] at hy
    obtain ⟨he, hl, ha, hrel⟩ := hy
    refine ⟨s, es, hr, he, hl, ha, hrel, ?_⟩
    intro hsound
    have := (hsound 1 (by rw [hl]; simp)).1
    rw [ha] at this
    simp at this

end Rakaia.Psocks
