import Mathlib.Data.List.Induction
import Mathlib.Data.List.Nodup
import Mathlib.Data.List.Perm.Subperm
import Rakaia.Lib.Ledger
import Rakaia.Lib.Machine

/-! # A request service

What a server is for: requests arrive on connections, in the order of the stream of each; a worker that is free
takes any request that waits; it answers the request on its connection, or gives it up; and a request that
waits may be dropped.  Requests are numbered in the order of their arrival.

Every request that arrived is in exactly one place (`ledger_of_reach`), so what is answered on a connection are
different requests of its stream (`fated_subperm`). -/

namespace Rakaia.Service

open Lib

variable {C K M : Type}

/-! ### Requests and where they are -/

/-- The requests that have arrived with their connections, the numbers of those that wait, and what each worker
serves. -/
structure State (C K M : Type) where
  arrived : List (C × M)
  waiting : List ℕ
  serving : K → Option ℕ

/-- What becomes of a request. -/
inductive Fate where
  | answered
  | dropped
  | gaveUp
deriving DecidableEq

/-- The service is done with a request. -/
structure Event (C M : Type) where
  fate : Fate
  num : ℕ
  conn : C
  request : M

/-- The event that ends a request. -/
def State.ends (s : State C K M) (fate : Fate) (n : ℕ) : List (Event C M) :=
  (s.arrived[n]?.map fun r => ⟨fate, n, r.1, r.2⟩).toList

/-- Where a request can be. -/
inductive Place (K : Type) where
  | waiting
  | serving (k : K)
  | gone (fate : Fate)

/-- The requests that met a fate, in order. -/
def gone (es : List (Event C M)) (fate : Fate) : List ℕ := entries (fun e => some (e.fate, e.num)) es fate

/-- The requests in a place. -/
def whereabouts (s : State C K M) (es : List (Event C M)) : Place K → List ℕ
  | .waiting => s.waiting
  | .serving k => (s.serving k).toList
  | .gone fate => gone es fate

variable {s s' : State C K M} {es e : List (Event C M)}

theorem gone_append (ev : Event C M) (fate : Fate) :
    gone (es ++ [ev]) fate = if ev.fate = fate then gone es fate ++ [ev.num] else gone es fate := by
  rw [gone, entries_append, entries_singleton (f := fun e : Event C M => some (e.fate, e.num)) rfl]
  split_ifs with h
  · rfl
  · rw [List.append_nil, gone]

/-- The service is done with a request that was in place `k`. -/
theorem moved_of_done {k : Place K} (ev : Event C M) (hk : ∀ fate, k ≠ .gone fate)
    (hsrc : (whereabouts s es k).Perm (ev.num :: whereabouts s' es k))
    (hframe : ∀ j, j ≠ k → whereabouts s' es j = whereabouts s es j) :
    Moved (whereabouts s es) (whereabouts s' (es ++ [ev])) ev.num k (.gone ev.fate) := by
  have hpast : ∀ j, (∀ fate, j ≠ .gone fate) → whereabouts s' (es ++ [ev]) j = whereabouts s' es j := by
    intro j hj
    cases j with
    | gone fate => exact absurd rfl (hj fate)
    | _ => rfl
  refine ⟨hk _, by rw [hpast k hk]; exact hsrc, ?_, fun j hj hj' => ?_⟩
  · simp only [whereabouts]
    rw [gone_append, if_pos rfl]
    exact List.perm_append_singleton _ _
  · rw [← hframe j hj]
    cases j with
    | gone fate => exact (gone_append ev fate).trans (if_neg (fun h => hj' (by rw [h])))
    | _ => exact hpast _ nofun

/-- Requests that have arrived are in exactly one place, others nowhere; and what the history says about a
request is what has arrived. -/
structure Ledger (s : State C K M) (es : List (Event C M)) : Prop where
  once : ∀ n < s.arrived.length, Somewhere (whereabouts s es) n ∧ AtMostOnce (whereabouts s es) n
  fresh : ∀ n, s.arrived.length ≤ n → ∀ k, n ∉ whereabouts s es k
  told : ∀ ev ∈ es, s.arrived[ev.num]? = some (ev.conn, ev.request)

theorem Ledger.lt_length (h : Ledger s es) {k : Place K} {n : ℕ} (hn : n ∈ whereabouts s es k) :
    n < s.arrived.length := by
  by_contra hc
  exact h.fresh n (not_lt.mp hc) k hn

theorem Ledger.nodup (h : Ledger s es) (k : Place K) : (whereabouts s es k).Nodup := by
  rw [List.nodup_iff_count_le_one]
  intro n
  by_cases hn : n ∈ whereabouts s es k
  · exact (h.once n (h.lt_length hn)).2.count_le k
  · rw [List.count_eq_zero_of_not_mem hn]
    exact Nat.zero_le 1

theorem Ledger.ends_eq (h : Ledger s es) {k : Place K} {n : ℕ} (hn : n ∈ whereabouts s es k) (fate : Fate) :
    ∃ r, s.arrived[n]? = some r ∧ s.ends fate n = [⟨fate, n, r.1, r.2⟩] := by
  have hr := List.getElem?_eq_getElem (h.lt_length hn)
  refine ⟨_, hr, ?_⟩
  rw [State.ends, hr]
  rfl

theorem Ledger.move (h : Ledger s es) {n : ℕ} {k k' : Place K} (harr : s'.arrived = s.arrived)
    (hm : Moved (whereabouts s es) (whereabouts s' (es ++ e)) n k k')
    (htold : ∀ ev ∈ e, s.arrived[ev.num]? = some (ev.conn, ev.request)) : Ledger s' (es ++ e) := by
  have hlt : n < s.arrived.length := h.lt_length (hm.src.mem_iff.mpr List.mem_cons_self)
  refine ⟨fun i hi => ?_, fun i hi j => ?_, fun ev hev => ?_⟩
  · rw [harr] at hi
    exact ⟨(h.once i hi).1.move hm, (h.once i hi).2.move hm⟩
  · rw [harr] at hi
    exact hm.notMem_of_ne (by omega) (h.fresh i hi j)
  · rw [harr]
    exact (List.mem_append.mp hev).elim (h.told ev) (htold ev)

theorem Ledger.enter (h : Ledger s es) {r : C × M} (harr : s'.arrived = s.arrived ++ [r])
    (hent : Entered (whereabouts s es) (whereabouts s' es) s.arrived.length .waiting) : Ledger s' es := by
  have hlen : s'.arrived.length = s.arrived.length + 1 := by
    rw [harr, List.length_append, List.length_singleton]
  have hnew := h.fresh s.arrived.length le_rfl
  refine ⟨fun n hlt => ?_, fun n hle k => ?_, fun ev hev => ?_⟩
  · rcases Nat.lt_succ_iff_lt_or_eq.mp (hlen ▸ hlt) with hlt | rfl
    · have hcount := hent.count_of_ne (ne_of_lt hlt)
      exact ⟨(h.once n hlt).1.mono (fun k => (hcount k).ge), (h.once n hlt).2.anti (fun k => (hcount k).le)⟩
    · exact ⟨⟨.waiting, hent.dst.mem_iff.mpr List.mem_cons_self⟩, .of_entered hnew hent⟩
  · exact hent.notMem_of_ne (by omega) (h.fresh n (by omega) k)
  · have hold := h.told ev hev
    rw [harr, List.getElem?_append_left (List.getElem?_eq_some_iff.mp hold).1]
    exact hold

/-- What waits has arrived, and is not among `out`. -/
def State.Waits (s : State C K M) (out : List ℕ) : Prop := ∀ n, n ∈ s.waiting ↔ n < s.arrived.length ∧ n ∉ out

variable {out : List ℕ}

theorem State.Waits.enter (h : s.Waits out) (hnew : s.arrived.length ∉ out) (r : C × M) :
    { s with arrived := s.arrived ++ [r], waiting := s.waiting ++ [s.arrived.length] }.Waits out := by
  intro n
  simp only [List.mem_append, List.mem_singleton, h n, List.length_append, List.length_singleton]
  constructor
  · rintro (⟨hlt, hn⟩ | rfl)
    · exact ⟨by omega, hn⟩
    · exact ⟨by omega, hnew⟩
  · rintro ⟨hlt, hn⟩
    rcases Nat.lt_succ_iff_lt_or_eq.mp hlt with hlt | rfl
    · exact .inl ⟨hlt, hn⟩
    · exact .inr rfl

theorem State.Waits.erase (h : s.Waits out) (hl : Ledger s es) (n : ℕ) (serving : K → Option ℕ) :
    { s with waiting := s.waiting.erase n, serving := serving }.Waits (out ++ [n]) := by
  intro i
  have hnodup : s.waiting.Nodup := hl.nodup .waiting
  simp only [hnodup.mem_erase_iff, h i, List.mem_append, List.mem_singleton, not_or]
  tauto

/-! ### The service -/

variable [DecidableEq C] [DecidableEq K]

/-- The requests that have arrived on a connection. -/
def State.on (s : State C K M) (c : C) : List M := entries some s.arrived c

inductive Act (C K : Type) where
  /-- The next request of the stream of `c` arrives. -/
  | arrive (c : C)
  | take (k : K) (n : ℕ)
  | drop (n : ℕ)
  | answer (k : K)
  | giveUp (k : K)

def step (streams : C → List M) (s : State C K M) : Act C K → Option (State C K M × List (Event C M))
  | .arrive c =>
      (streams c)[(s.on c).length]?.map fun m =>
        ({ s with arrived := s.arrived ++ [(c, m)], waiting := s.waiting ++ [s.arrived.length] }, [])
  | .take k n =>
      if n ∈ s.waiting ∧ s.serving k = none then
        some ({ s with waiting := s.waiting.erase n, serving := Function.update s.serving k (some n) }, [])
      else none
  | .drop n =>
      if n ∈ s.waiting then some ({ s with waiting := s.waiting.erase n }, s.ends .dropped n) else none
  | .answer k =>
      (s.serving k).map fun n => ({ s with serving := Function.update s.serving k none }, s.ends .answered n)
  | .giveUp k =>
      (s.serving k).map fun n => ({ s with serving := Function.update s.serving k none }, s.ends .gaveUp n)

/-- The service on the given streams. -/
def machine (streams : C → List M) : Machine (State C K M) (Act C K) (Event C M) :=
  ⟨⟨[], [], fun _ => none⟩, step streams⟩

variable {streams : C → List M} {a : Act C K}

theorem step_arrive {c : C} {m : M} (h : (streams c)[(s.on c).length]? = some m) :
    (machine streams).step s (.arrive c) =
      some ({ s with arrived := s.arrived ++ [(c, m)], waiting := s.waiting ++ [s.arrived.length] }, []) := by
  simp only [machine, step, h, Option.map_some]

theorem step_take {k : K} {n : ℕ} (hn : n ∈ s.waiting) (hk : s.serving k = none) :
    (machine streams).step s (.take k n) =
      some ({ s with waiting := s.waiting.erase n, serving := Function.update s.serving k (some n) }, []) :=
  if_pos ⟨hn, hk⟩

theorem step_drop {n : ℕ} (hn : n ∈ s.waiting) :
    (machine streams).step s (.drop n) = some ({ s with waiting := s.waiting.erase n }, s.ends .dropped n) :=
  if_pos hn

theorem step_answer {k : K} {n : ℕ} (hk : s.serving k = some n) :
    (machine streams).step s (.answer k) =
      some ({ s with serving := Function.update s.serving k none }, s.ends .answered n) := by
  simp only [machine, step, hk, Option.map_some]

theorem step_giveUp {k : K} {n : ℕ} (hk : s.serving k = some n) :
    (machine streams).step s (.giveUp k) =
      some ({ s with serving := Function.update s.serving k none }, s.ends .gaveUp n) := by
  simp only [machine, step, hk, Option.map_some]

/-- What a step does to the requests. -/
inductive Effect (streams : C → List M) (s s' : State C K M) (es : List (Event C M)) : List (Event C M) → Prop
  | arrive (c : C) (m : M) : (streams c)[(s.on c).length]? = some m → s'.arrived = s.arrived ++ [(c, m)] →
      Entered (whereabouts s es) (whereabouts s' es) s.arrived.length .waiting → Effect streams s s' es []
  | take (n : ℕ) (k : K) : s'.arrived = s.arrived →
      Moved (whereabouts s es) (whereabouts s' es) n .waiting (.serving k) → Effect streams s s' es []
  | done (ev : Event C M) (k : Place K) : s'.arrived = s.arrived →
      s.arrived[ev.num]? = some (ev.conn, ev.request) →
      Moved (whereabouts s es) (whereabouts s' (es ++ [ev])) ev.num k (.gone ev.fate) → Effect streams s s' es [ev]

/-- A worker is done with its request. -/
theorem effect_of_served {k : K} {n : ℕ} (hk : s.serving k = some n) (h : Ledger s es) (fate : Fate)
    (hs : s' = { s with serving := Function.update s.serving k none }) :
    Effect streams s s' es (s.ends fate n) := by
  subst hs
  have hmem : n ∈ whereabouts s es (.serving k) := by simp [whereabouts, hk]
  obtain ⟨r, hr, hends⟩ := h.ends_eq hmem fate
  rw [hends]
  refine .done ⟨fate, n, r.1, r.2⟩ (.serving k) rfl hr (moved_of_done _ nofun (by simp [whereabouts, hk]) ?_)
  intro j hj
  cases j with
  | serving j =>
      have hne : j ≠ k := fun h => hj (by rw [h])
      simp [whereabouts, hne]
  | _ => rfl

/-- **Every step moves one request**, or lets one in. -/
theorem effect_of_step (hs : step streams s a = some (s', e)) (h : Ledger s es) : Effect streams s s' es e := by
  cases a with
  | arrive c =>
      simp only [step, Option.map_eq_some_iff, Prod.mk.injEq] at hs
      obtain ⟨m, hm, rfl, rfl⟩ := hs
      refine .arrive c m hm rfl ⟨List.perm_append_singleton _ _, fun j hj => ?_⟩
      cases j with
      | waiting => exact absurd rfl hj
      | _ => rfl
  | take k n =>
      simp only [step] at hs
      split_ifs at hs with hn
      obtain ⟨rfl, rfl⟩ := Prod.mk.inj (Option.some.inj hs)
      refine .take n k rfl ⟨nofun, List.perm_cons_erase hn.1, by simp [whereabouts, hn.2], fun j hj hj' => ?_⟩
      cases j with
      | waiting => exact absurd rfl hj
      | serving j =>
          have hne : j ≠ k := fun h => hj' (by rw [h])
          simp [whereabouts, hne]
      | gone => rfl
  | drop n =>
      simp only [step] at hs
      split_ifs at hs with hn
      obtain ⟨rfl, rfl⟩ := Prod.mk.inj (Option.some.inj hs)
      obtain ⟨r, hr, hends⟩ := h.ends_eq (k := .waiting) hn .dropped
      rw [hends]
      refine .done ⟨.dropped, n, r.1, r.2⟩ .waiting rfl hr
        (moved_of_done _ nofun (List.perm_cons_erase hn) fun j hj => ?_)
      cases j with
      | waiting => exact absurd rfl hj
      | _ => rfl
  | answer k =>
      simp only [step, Option.map_eq_some_iff, Prod.mk.injEq] at hs
      obtain ⟨n, hk, rfl, rfl⟩ := hs
      exact effect_of_served hk h .answered rfl
  | giveUp k =>
      simp only [step, Option.map_eq_some_iff, Prod.mk.injEq] at hs
      obtain ⟨n, hk, rfl, rfl⟩ := hs
      exact effect_of_served hk h .gaveUp rfl

/-! ### Whole runs -/

omit [DecidableEq K] in
theorem Ledger.effect (h : Ledger s es) (he : Effect streams s s' es e) : Ledger s' (es ++ e) := by
  cases he with
  | arrive c m _ harr hent =>
      rw [List.append_nil]
      exact h.enter harr hent
  | take n k harr hm => exact h.move harr (by rw [List.append_nil]; exact hm) nofun
  | done ev k harr htold hm =>
      refine h.move harr hm fun ev' hev' => ?_
      obtain rfl := List.mem_singleton.mp hev'
      exact htold

variable {G : State C K M → Act C K → Prop}

/-- **Every request is in exactly one place.** -/
theorem ledger_of_reach (h : (machine streams).Reach G s es) : Ledger s es := by
  have h0 : Ledger (machine (K := K) streams).init [] := by
    refine ⟨fun n hn => absurd hn (Nat.not_lt_zero n), fun n _ k => ?_, nofun⟩
    cases k <;> exact List.not_mem_nil
  exact h.invariant (P := Ledger) h0 (fun _ _ _ _ _ _ ih _ hs => ih.effect (effect_of_step hs ih))

/-- The requests that have arrived on a connection are the first ones of its stream. -/
theorem on_of_reach (h : (machine streams).Reach G s es) (c : C) : s.on c <+: streams c := by
  refine h.invariant (P := fun s _ => s.on c <+: streams c) List.nil_prefix ?_
  intro s es a s' e hr ih _ hs
  have hkeep : s'.arrived = s.arrived → s'.on c <+: streams c := fun h => by rw [State.on, h]; exact ih
  cases effect_of_step hs (ledger_of_reach hr) with
  | take n k harr => exact hkeep harr
  | done ev k harr => exact hkeep harr
  | arrive c' m hm harr =>
      rw [State.on, harr, entries_append, entries_singleton (f := some) rfl]
      split_ifs with hc
      · subst hc
        obtain ⟨rest, hrest⟩ := ih
        rw [← hrest, List.getElem?_append_right le_rfl, Nat.sub_self] at hm
        cases rest with
        | nil => cases hm
        | cons m' rest =>
            obtain rfl := Option.some.inj hm
            exact ⟨rest, by rw [← hrest, List.append_assoc]; rfl⟩
      · rw [List.append_nil]
        exact ih

/-! ### What happens on a connection -/

/-- The request with number `n`, if it arrived on connection `c`. -/
def requestOn (l : List (C × M)) (c : C) (n : ℕ) : Option M :=
  l[n]?.bind fun r => if r.1 = c then some r.2 else none

/-- A list that is read by numbers. -/
theorem filterMap_range {α β : Type} (g : α → Option β) (l : List α) :
    (List.range l.length).filterMap (fun n => l[n]?.bind g) = l.filterMap g := by
  induction l using List.reverseRecOn with
  | nil => rfl
  | append_singleton l a ih =>
      have hold : (List.range l.length).filterMap (fun n => (l ++ [a])[n]?.bind g) = l.filterMap g := by
        rw [← ih]
        refine List.filterMap_congr fun n hn => ?_
        rw [List.getElem?_append_left (List.mem_range.mp hn)]
      rw [List.length_append, List.length_singleton, List.range_succ, List.filterMap_append, hold]
      simp [List.filterMap_cons]

/-- The requests of connection `c` that met a fate, in the order in which they did. -/
def fated (es : List (Event C M)) (fate : Fate) (c : C) : List M :=
  entries (fun e => some ((e.fate, e.conn), e.request)) es (fate, c)

omit [DecidableEq K] in
theorem Ledger.fated_eq (h : Ledger s es) (fate : Fate) (c : C) :
    fated es fate c = (gone es fate).filterMap (requestOn s.arrived c) := by
  rw [fated, gone, entries, entries, List.filterMap_filterMap]
  refine List.filterMap_congr fun ev hev => ?_
  have htold := h.told ev hev
  by_cases hf : ev.fate = fate
  · simp [requestOn, hf, htold]
  · simp [hf]

/-- **Different requests of the stream**: what met a fate on a connection are requests of its stream, each at
most once. -/
theorem fated_subperm (h : (machine streams).Reach G s es) (fate : Fate) (c : C) :
    (fated es fate c).Subperm (streams c) := by
  have hl := ledger_of_reach h
  have hsub : (gone es fate).Subperm (List.range s.arrived.length) :=
    List.subperm_of_subset (hl.nodup (.gone fate))
      (fun n hn => List.mem_range.mpr (hl.lt_length (k := .gone fate) hn))
  obtain ⟨l, hperm, hsublist⟩ := hsub
  have hon : s.on c = (List.range s.arrived.length).filterMap (requestOn s.arrived c) :=
    (filterMap_range _ _).symm
  have harrived : ((gone es fate).filterMap (requestOn s.arrived c)).Subperm (s.on c) := by
    rw [hon]
    exact ⟨_, hperm.filterMap _, hsublist.filterMap _⟩
  rw [hl.fated_eq]
  exact harrived.trans (on_of_reach h c).sublist.subperm

end Rakaia.Service
