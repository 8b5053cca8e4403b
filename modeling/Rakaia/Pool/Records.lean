import Rakaia.Lib.Stock
import Rakaia.Pool.Ownership

/-! # Where the completions are

A completion is in the inbox or in the list of responses of a connection, in the cache of a worker, in the
local cache of a worker, in a stack that a thread has taken from an inbox, or in the hands of a thread, and in
one of these only (`Records`).  All but the last are chains through `resp_next`. -/

namespace Rakaia.Pool

open Lib

/-! ### What a thread has in its hands -/

/-- The completion in the hands of a thread, and the stack that it has taken. -/
inductive Grip where
  | stack (rest : Option ℕ)
  /-- In `inbox_push`, with what was loaded from the inbox. -/
  | push (j : Job) (a : ℕ) (old : Option (Option ℕ))
  /-- In `release_response`. -/
  | free (rest : Option ℕ) (a : ℕ) (st : FreeStep)

namespace Grip

def held : Grip → Option ℕ
  | .stack _ => none
  | .push _ a _ => some a
  | .free _ a _ => some a

def rest : Grip → Option ℕ
  | .stack rest => rest
  | .push _ _ _ => none
  | .free rest _ _ => rest

@[simp] theorem held_stack (rest : Option ℕ) : (Grip.stack rest).held = none := rfl

@[simp] theorem rest_stack (r : Option ℕ) : (Grip.stack r).rest = r := rfl

@[simp] theorem rest_push (j : Job) (a : ℕ) (old : Option (Option ℕ)) : (Grip.push j a old).rest = none := rfl

@[simp] theorem rest_free (r : Option ℕ) (a : ℕ) (st : FreeStep) : (Grip.free r a st).rest = r := rfl

end Grip

def Pos.grip : Pos → Grip
  | .pushLoad j a => .push j a none
  | .pushCas j a old => .push j a (some old)
  | .loop l => .stack l.rest
  | .free l a st => .free l.rest a st
  | _ => .stack none

/-- Operations that leave the completions alone. -/
def Op.quiet {nIo nW : ℕ} : Op nIo nW → Bool
  | .nothing | .conn _ _ | .storeFd _ _ | .accept _ | .wait _ _ | .nextEvent _ | .takeRetired _ | .enqueue _
  | .dequeue => true
  | _ => false

section grips

variable {nIo nW : ℕ}

/-- What an operation does to the completions that a thread has in its hands. -/
inductive Handles (m : Mem nIo nW) (t : Thread nIo nW) : Op nIo nW → Grip → Grip → Prop
  | keep {op : Op nIo nW} {g : Grip} (hq : op.quiet = true) : Handles m t op g g
  | pushRetry {j : Job} {a : ℕ} {old : Option ℕ} : Handles m t .nothing (.push j a (some old)) (.push j a none)
  | freeRetry {rest : Option ℕ} {a : ℕ} {head : Option ℕ} :
      Handles m t .nothing (.free rest a (.cas head)) (.free rest a .load)
  | pushLoad {j : Job} {a : ℕ} {old : Option ℕ} :
      Handles m t (.link a old) (.push j a none) (.push j a (some old))
  | freeLoad {rest : Option ℕ} {a : ℕ} {head : Option ℕ} :
      Handles m t (.link a head) (.free rest a .load) (.free rest a (.cas head))
  | pushInbox {j : Job} {a : ℕ} :
      Handles m t (.pushInbox j.conn a) (.push j a (some (m.conns j.conn).inbox)) (.stack none)
  | takeInbox {c : ℕ} : Handles m t (.takeInbox c) (.stack none) (.stack (m.conns c).inbox)
  | drainInbox {c : ℕ} : Handles m t (.drainInbox c) (.stack none) (.stack none)
  | send {c a n : ℕ} (h : (m.conns c).respHead = some a) : Handles m t (.send c a n) (.stack none) (.stack none)
  | popResponse {c a : ℕ} (h : (m.conns c).respHead = some a) :
      Handles m t (.popResponse c) (.stack none) (.free none a .release)
  | takeNext {a : ℕ} : Handles m t .takeNext (.stack (some a)) (.free (m.respNext a) a .release)
  | release {rest : Option ℕ} {a : ℕ} : Handles m t (.release a) (.free rest a .release) (.free rest a .load)
  | pushCache {rest : Option ℕ} {a : ℕ} : Handles m t (.pushCache a)
      (.free rest a (.cas (m.completionCache (m.completions a).workerId))) (.stack rest)
  | refill {w : Fin nW} (h : m.localCompletionCache w = none) :
      Handles m t (.refill w) (.stack none) (.stack none)
  | takeLocal {w : Fin nW} {a : ℕ} {j : Job} (h : m.localCompletionCache w = some a) :
      Handles m t (.takeLocal w a j) (.stack none) (.push j a none)
  | malloc {w : Fin nW} {j : Job} : Handles m t (.malloc w j) (.stack none) (.push j m.brk none)

theorem Pos.Outside.grip {c : ℕ} {p : Pos} (h : p.Outside c) : p.grip = .stack none := by cases h <;> rfl

variable {m : Mem nIo nW} {t : Thread nIo nW} {p p' : Pos} {op : Op nIo nW}

theorem Step.handles (h : Step m t p op p') : Handles m t op p.grip p'.grip := by
  cases h with
  | @acquire _ k => cases k <;> exact .keep rfl
  | @signal _ k c => rw [(k.outside_target t c).grip]; exact .keep rfl
  | @lose _ k c => rw [(k.outside_loser t c).grip]; exact .keep rfl
  | @afterIdle _ _ c | @releaseHup _ c => rw [(outside_finish t c).grip]; exact .keep rfl
  | staleEnd => rw [(outside_finish t 0).grip]; exact .keep rfl
  | takeLocal h => exact .takeLocal h
  | refill h => exact .refill h
  | malloc => exact .malloc
  | pushLoad => exact .pushLoad
  | push => exact .pushInbox
  | pushRetry => exact .pushRetry
  | stale | discardInbox => exact .takeInbox
  | drain => exact .drainInbox
  | sent h | sendRetry h | sendAgain h | sendFails h => exact .send h
  | flushPop h | discardPop h => exact .popResponse h
  | inboxNext | staleNext => exact .takeNext
  | freeRelease => exact .release
  | freeLoad => exact .freeLoad
  | freeCas => exact .pushCache
  | freeRetry => exact .freeRetry
  | _ => exact .keep rfl

end grips

/-! ### Places -/

inductive Place (nIo nW : ℕ) where
  | inbox (c : ℕ)
  | responses (c : ℕ)
  | cache (w : ℕ)
  /-- The local cache of a worker. -/
  | spare (w : Fin nW)
  /-- The stack that a thread has taken. -/
  | stack (t : Thread nIo nW)
deriving DecidableEq

section records

variable {nIo nW : ℕ}

/-- What a completion says about its connection, at a place. -/
def Place.Ok (x : Completion) : Place nIo nW → Prop
  | .inbox c => x.conn = c ∧ x.referring = true ∧ x.response = responseBytes x.reqId ∧ x.sent = 0
  | .responses c => x.conn = c ∧ x.referring = true ∧ x.response = responseBytes x.reqId
  | .cache _ => x.referring = false
  | .spare _ => x.referring = false
  | .stack _ => x.referring = true

/-- What the completion in the hands of a thread, and its pointer, say. -/
def Grip.Ok (x : Completion) (next : Option ℕ) : Grip → Prop
  | .stack _ => True
  | .push j _ old => (∃ w, x = .fill w j) ∧ ∀ head, old = some head → next = head
  | .free _ _ .release => x.referring = true
  | .free _ _ .load => x.referring = false
  | .free _ _ (.cas head) => x.referring = false ∧ next = head

/-- `L` has the completions at each place. -/
structure Records (m : Mem nIo nW) (g : Thread nIo nW → Grip) (L : Place nIo nW → List ℕ) : Prop where
  stock : Stock m.respNext L (fun t => (g t).held) (· < m.brk)
  inbox : ∀ c, (m.conns c).inbox = (L (.inbox c)).head?
  responses : ∀ c, ⟨(m.conns c).respHead, (m.conns c).respTail⟩ = Ends.of (L (.responses c))
  cache : ∀ w, m.completionCache w = (L (.cache w)).head?
  spare : ∀ w, m.localCompletionCache w = (L (.spare w)).head?
  stack : ∀ t, (g t).rest = (L (.stack t)).head?
  place : ∀ k, ∀ a ∈ L k, k.Ok (m.completions a)
  grip : ∀ t a, (g t).held = some a → (g t).Ok (m.completions a) (m.respNext a)

variable {m m' : Mem nIo nW} {g : Thread nIo nW → Grip} {L : Place nIo nW → List ℕ} {t : Thread nIo nW}
  {op : Op nIo nW}

theorem held_update (g : Thread nIo nW → Grip) (t : Thread nIo nW) (γ : Grip) :
    (fun u => (Function.update g t γ u).held) = Function.update (fun u => (g u).held) t γ.held := by
  funext u
  by_cases hu : u = t
  · subst hu
    simp
  · simp [hu]

/-- An operation that changes `resp_next` and the completions of one thread, and the chains. -/
theorem Records.update (h : Records m g L) {γ : Grip} {L' : Place nIo nW → List ℕ}
    (hstock : Stock m'.respNext L' (Function.update (fun u => (g u).held) t γ.held) (· < m'.brk))
    (hinbox : ∀ c, (m'.conns c).inbox = (L' (.inbox c)).head?)
    (hresponses : ∀ c, ⟨(m'.conns c).respHead, (m'.conns c).respTail⟩ = Ends.of (L' (.responses c)))
    (hcache : ∀ w, m'.completionCache w = (L' (.cache w)).head?)
    (hspare : ∀ w, m'.localCompletionCache w = (L' (.spare w)).head?)
    (hstack : γ.rest = (L' (.stack t)).head?) (hstack' : ∀ u, u ≠ t → L' (.stack u) = L (.stack u))
    (hplace : ∀ k, ∀ a ∈ L' k, k.Ok (m'.completions a))
    (hself : ∀ a, γ.held = some a → γ.Ok (m'.completions a) (m'.respNext a))
    (hother : ∀ u, u ≠ t → ∀ a, (g u).held = some a →
      m'.completions a = m.completions a ∧ m'.respNext a = m.respNext a) :
    Records m' (Function.update g t γ) L' where
  stock := by rwa [held_update]
  inbox := hinbox
  responses := hresponses
  cache := hcache
  spare := hspare
  stack u := by
    by_cases hu : u = t
    · subst hu
      rwa [Function.update_self]
    · rw [Function.update_of_ne hu, hstack' u hu]
      exact h.stack u
  place := hplace
  grip u a ha := by
    by_cases hu : u = t
    · subst hu
      rw [Function.update_self] at ha ⊢
      exact hself a ha
    · rw [Function.update_of_ne hu] at ha ⊢
      obtain ⟨hc, hn⟩ := hother u hu a ha
      rw [hc, hn]
      exact h.grip u a ha

/-- The lists of a connection. -/
def Conn.lists (k : Conn) : Option ℕ × Ends ℕ := (k.inbox, ⟨k.respHead, k.respTail⟩)

theorem lists_update (conns : ℕ → Conn) (c : ℕ) {k : Conn} (hk : k.lists = (conns c).lists) (d : ℕ) :
    (Function.update conns c k d).lists = (conns d).lists := by
  by_cases hd : d = c
  · subst hd
    rw [Function.update_self, hk]
  · rw [Function.update_of_ne hd]

theorem ConnOp.apply_lists (k : Conn) (cop : ConnOp) : (cop.apply k).lists = k.lists := by
  cases cop with
  | updateEvents want => exact updateConnEvents_field Conn.lists (fun _ _ _ => rfl) k want
  | _ => rfl

theorem Records.inbox_of_lists (h : Records m g L) (hlists : ∀ c, (m'.conns c).lists = (m.conns c).lists) (c : ℕ) :
    (m'.conns c).inbox = (L (.inbox c)).head? :=
  (congrArg Prod.fst (hlists c)).trans (h.inbox c)

theorem Records.responses_of_lists (h : Records m g L) (hlists : ∀ c, (m'.conns c).lists = (m.conns c).lists)
    (c : ℕ) : ⟨(m'.conns c).respHead, (m'.conns c).respTail⟩ = Ends.of (L (.responses c)) :=
  (congrArg Prod.snd (hlists c)).trans (h.responses c)

/-- An operation that leaves the completions and all lists alone. -/
theorem Records.congr (h : Records m g L) (hnext : m'.respNext = m.respNext)
    (hx : m'.completions = m.completions) (hbrk : m'.brk = m.brk) (hcache : m'.completionCache = m.completionCache)
    (hspare : m'.localCompletionCache = m.localCompletionCache)
    (hlists : ∀ c, (m'.conns c).lists = (m.conns c).lists) : Records m' g L where
  stock := by rw [hnext, hbrk]; exact h.stock
  inbox := h.inbox_of_lists hlists
  responses := h.responses_of_lists hlists
  cache := by rw [hcache]; exact h.cache
  spare := by rw [hspare]; exact h.spare
  stack := h.stack
  place := by rw [hx]; exact h.place
  grip := by rw [hnext, hx]; exact h.grip

/-- The completions at each place after an operation of a thread. -/
def places (m : Mem nIo nW) (t : Thread nIo nW) (L : Place nIo nW → List ℕ) : Op nIo nW → Place nIo nW → List ℕ
  | .pushInbox c a => Function.update L (.inbox c) (a :: L (.inbox c))
  | .takeInbox c => Function.update (Function.update L (.inbox c) []) (.stack t) (L (.inbox c))
  | .drainInbox c =>
      Function.update (Function.update L (.inbox c) []) (.responses c) (L (.responses c) ++ (L (.inbox c)).reverse)
  | .popResponse c => Function.update L (.responses c) (L (.responses c)).tail
  | .takeNext => Function.update L (.stack t) (L (.stack t)).tail
  | .pushCache a =>
      Function.update L (.cache (m.completions a).workerId) (a :: L (.cache (m.completions a).workerId))
  | .refill w => Function.update (Function.update L (.cache w) []) (.spare w) (L (.cache w))
  | .takeLocal w _ _ => Function.update L (.spare w) (L (.spare w)).tail
  | _ => L

theorem place_update {x x' : ℕ → Completion} (h : ∀ k, ∀ a ∈ L k, k.Ok (x a)) {k : Place nIo nW} {l : List ℕ}
    (hl : ∀ a ∈ l, k.Ok (x' a)) (hx : ∀ k', k' ≠ k → ∀ a ∈ L k', x' a = x a) :
    ∀ k', ∀ a ∈ Function.update L k l k', k'.Ok (x' a) := by
  intro k' a ha
  by_cases hk : k' = k
  · subst hk
    rw [Function.update_self] at ha
    exact hl a ha
  · rw [Function.update_of_ne hk] at ha
    rw [hx k' hk a ha]
    exact h k' a ha

theorem Records.rest_of_eq_none (h : Records m g L) (hg : (g t).rest = none) : L (.stack t) = [] := by
  have := h.stack t
  rw [hg] at this
  exact List.head?_eq_none_iff.mp this.symm

theorem Records.push (h : Records m g L) {j : Job} {a : ℕ} (hg : g t = .push j a (some (m.conns j.conn).inbox)) :
    Records (m.setConn j.conn { m.conns j.conn with inbox := some a }) (Function.update g t (.stack none))
      (Function.update L (.inbox j.conn) (a :: L (.inbox j.conn))) := by
  have hheld : (g t).held = some a := by rw [hg]; rfl
  obtain ⟨⟨w, hfill⟩, hnext⟩ : (∃ w, m.completions a = .fill w j) ∧
      ∀ head, some (m.conns j.conn).inbox = some head → m.respNext a = head := by
    have := h.grip t a hheld
    rwa [hg] at this
  refine h.update ?_ ?_ ?_ ?_ ?_ ?_ ?_ ?_ ?_ ?_
  · exact h.stock.put hheld (by rw [hnext _ rfl]; exact h.inbox j.conn)
  · intro c
    by_cases hc : c = j.conn
    · subst hc
      simp
    · simp [hc, h.inbox]
  · intro c
    by_cases hc : c = j.conn
    · subst hc
      simpa using h.responses j.conn
    · simpa [hc] using h.responses c
  · exact fun w => by simpa using h.cache w
  · exact fun w => by simpa using h.spare w
  · have := h.stack t
    rw [hg] at this
    simpa using this
  · exact fun u _ => by simp
  · refine place_update h.place ?_ (fun _ _ _ _ => rfl)
    intro b hb
    rcases List.mem_cons.mp hb with rfl | hb
    · show Place.Ok (m.completions b) (Place.inbox j.conn : Place nIo nW)
      rw [hfill]
      exact ⟨rfl, rfl, rfl, rfl⟩
    · exact h.place _ b hb
  · rintro _ ⟨⟩
  · exact fun _ _ _ _ => ⟨rfl, rfl⟩

theorem Records.takeInbox (h : Records m g L) (c : ℕ) (hg : g t = .stack none) :
    Records (m.setConn c { m.conns c with inbox := none }) (Function.update g t (.stack (m.conns c).inbox))
      (Function.update (Function.update L (.inbox c) []) (.stack t) (L (.inbox c))) := by
  have hempty := h.rest_of_eq_none (t := t) (by rw [hg]; rfl)
  have hheld : Function.update (fun u => (g u).held) t none = fun u => (g u).held := by
    rw [Function.update_eq_self_iff, hg]
    rfl
  refine h.update ?_ ?_ ?_ ?_ ?_ ?_ ?_ ?_ ?_ ?_
  · rw [show (Grip.stack (m.conns c).inbox).held = none from rfl, hheld]
    exact h.stock.move (by simp) hempty
  · intro d
    by_cases hd : d = c
    · subst hd
      simp
    · simp [hd, h.inbox]
  · intro d
    by_cases hd : d = c
    · subst hd
      simpa using h.responses d
    · simpa [hd] using h.responses d
  · exact fun w => by simpa using h.cache w
  · exact fun w => by simpa using h.spare w
  · simpa using h.inbox c
  · exact fun u hu => by simp [hu]
  · refine place_update (place_update h.place (by simp) (fun _ _ _ _ => rfl)) ?_ (fun _ _ _ _ => rfl)
    exact fun a ha => (h.place (.inbox c) a ha).2.1
  · rintro _ ⟨⟩
  · exact fun _ _ _ _ => ⟨rfl, rfl⟩

/-- A list without repetitions of the completions below the counter. -/
theorem Records.length_le (h : Records m g L) {l : List ℕ} (hl : l.Nodup) (hmem : ∀ a ∈ l, ∃ k, a ∈ L k) :
    l.length ≤ m.brk := by
  have hsub : l ⊆ List.range m.brk := by
    intro a ha
    exact List.mem_range.mpr ((h.stock.cover a).mpr (.inl (hmem a ha)))
  simpa using (List.subperm_of_subset hl hsub).length_le

/-- `drain_inbox` puts the stack, oldest completion first, behind the responses. -/
theorem Records.drainInbox (h : Records m g L) (c : ℕ) (hg : g t = .stack none) :
    ∃ m', m.drainInbox c = some m' ∧ Records m' (Function.update g t (.stack none))
      (Function.update (Function.update L (.inbox c) []) (.responses c)
        (L (.responses c) ++ (L (.inbox c)).reverse)) := by
  have hlinked := h.stock.chains.linked
  have hnodup := h.stock.chains.nodup
  have hsep : ∀ a ∈ L (.inbox c), a ∉ L (.responses c) := by
    intro a ha ha'
    cases h.stock.chains.disjoint _ _ a ha ha'
  have hlen : (L (.inbox c)).length ≤ m.brk := h.length_le (hnodup _) (fun a ha => ⟨_, ha⟩)
  obtain ⟨next₁, hrev, hlinked₁, heq₁⟩ := reverseLoop_linked (hlinked (.inbox c)) (r := []) trivial
    (by rw [List.append_nil]; exact hnodup _) hlen
  rw [List.append_nil] at hrev hlinked₁
  have hresp₁ : Linked next₁ (L (.responses c)) :=
    (hlinked (.responses c)).congr (fun a ha => heq₁ a (fun hm => hsep a hm ha))
  have hboth : (L (.responses c) ++ (L (.inbox c)).reverse).Nodup := by
    rw [List.nodup_append]
    refine ⟨hnodup _, List.nodup_reverse.mpr (hnodup _), ?_⟩
    rintro a ha b hb rfl
    exact hsep a (List.mem_reverse.mp hb) ha
  have hlen' : (L (.inbox c)).reverse.length ≤ m.brk := by simpa using hlen
  obtain ⟨next₂, henq, hlinked₂, heq₂⟩ := enqueueLoop_linked hresp₁ hlinked₁ hboth hlen'
  have heq : ∀ a, a ∉ L (.inbox c) → a ∉ L (.responses c) → next₂ a = m.respNext a := by
    intro a ha ha'
    rw [heq₂ a (by simp [ha, ha']), heq₁ a ha]
  have hdrain : m.drainInbox c = some (({ m with respNext := next₂ } : Mem nIo nW).setConn c
      { m.conns c with
        inbox := none
        respHead := (Ends.of (L (.responses c) ++ (L (.inbox c)).reverse)).head
        respTail := (Ends.of (L (.responses c) ++ (L (.inbox c)).reverse)).tail }) := by
    unfold Mem.drainInbox
    rw [List.head?_nil] at hrev
    simp only [h.inbox c, h.responses c, hrev, henq]
  refine ⟨_, hdrain, h.update ?_ ?_ ?_ ?_ ?_ ?_ ?_ ?_ ?_ ?_⟩
  · have hheld : Function.update (fun u => (g u).held) t none = fun u => (g u).held := by
      rw [Function.update_eq_self_iff, hg]
      rfl
    rw [Grip.held, hheld]
    exact h.stock.splice (by simp) hlinked₂ heq
  · intro d
    by_cases hd : d = c
    · subst hd
      simp
    · simp [hd, h.inbox]
  · intro d
    by_cases hd : d = c
    · subst hd
      simp
    · simpa [hd] using h.responses d
  · exact fun w => by simpa using h.cache w
  · exact fun w => by simpa using h.spare w
  · have := h.stack t
    rw [hg] at this
    simpa using this
  · exact fun u _ => by simp
  · refine place_update (place_update h.place (by simp) (fun _ _ _ _ => rfl)) ?_ (fun _ _ _ _ => rfl)
    intro a ha
    rcases List.mem_append.mp ha with ha | ha
    · exact h.place (.responses c) a ha
    · obtain ⟨hc, href, hresp, -⟩ := h.place (.inbox c) a (List.mem_reverse.mp ha)
      exact ⟨hc, href, hresp⟩
  · rintro _ ⟨⟩
  · intro u _ a ha
    exact ⟨rfl, heq a (h.stock.hand_not_mem u a ha _) (h.stock.hand_not_mem u a ha _)⟩

theorem Records.mem_responses (h : Records m g L) {c a : ℕ} (ha : (m.conns c).respHead = some a) :
    a ∈ L (.responses c) :=
  List.mem_of_mem_head? ((congrArg Ends.head (h.responses c)).symm.trans ha)

/-- The first response is taken off the list. -/
theorem Records.popResponse (h : Records m g L) {c a : ℕ} (ha : (m.conns c).respHead = some a)
    (hg : g t = .stack none) :
    ∃ m', m.popResponse c = some m' ∧ Records m' (Function.update g t (.free none a .release))
      (Function.update L (.responses c) (L (.responses c)).tail) := by
  obtain ⟨l, hl⟩ : ∃ l, L (.responses c) = a :: l := by
    have hhead : (L (.responses c)).head? = some a := (congrArg Ends.head (h.responses c)).symm.trans ha
    exact ⟨_, (List.cons_head?_tail hhead).symm⟩
  have hnext : m.respNext a = l.head? := by
    have := h.stock.chains.linked (.responses c)
    rw [hl] at this
    exact this.tail.1
  have htail : (m.conns c).respTail = (a :: l).getLast? := by
    rw [← hl]
    exact congrArg Ends.tail (h.responses c)
  refine ⟨_, by rw [Mem.popResponse, ha], h.update ?_ ?_ ?_ ?_ ?_ ?_ ?_ ?_ ?_ ?_⟩
  · rw [hl, List.tail_cons]
    exact h.stock.take (by rw [hg]; rfl) hl
  · intro d
    by_cases hd : d = c
    · subst hd
      simpa using h.inbox d
    · simpa [hd] using h.inbox d
  · intro d
    by_cases hd : d = c
    · subst hd
      rw [hl]
      cases l with
      | nil => simp [hnext, Ends.of]
      | cons b l => simp [hnext, htail, Ends.of]
    · simpa [hd] using h.responses d
  · exact fun w => by simpa using h.cache w
  · exact fun w => by simpa using h.spare w
  · have := h.stack t
    rw [hg] at this
    simpa using this
  · exact fun u _ => by simp
  · refine place_update h.place ?_ (fun _ _ _ _ => rfl)
    exact fun b hb => h.place (.responses c) b (List.mem_of_mem_tail hb)
  · rintro _ ⟨⟩
    exact (h.place (.responses c) a (by rw [hl]; exact List.mem_cons_self)).2.1
  · exact fun _ _ _ _ => ⟨rfl, rfl⟩

theorem Records.takeNext (h : Records m g L) {a : ℕ} (hg : g t = .stack (some a)) :
    Records m (Function.update g t (.free (m.respNext a) a .release))
      (Function.update L (.stack t) (L (.stack t)).tail) := by
  obtain ⟨l, hl⟩ : ∃ l, L (.stack t) = a :: l := by
    have hhead := h.stack t
    rw [hg] at hhead
    exact ⟨_, (List.cons_head?_tail hhead.symm).symm⟩
  have hnext : m.respNext a = l.head? := by
    have := h.stock.chains.linked (.stack t)
    rw [hl] at this
    exact this.tail.1
  refine h.update ?_ ?_ ?_ ?_ ?_ ?_ ?_ ?_ ?_ ?_
  · rw [hl, List.tail_cons]
    exact h.stock.take (by rw [hg]; rfl) hl
  · exact fun c => by simpa using h.inbox c
  · exact fun c => by simpa using h.responses c
  · exact fun w => by simpa using h.cache w
  · exact fun w => by simpa using h.spare w
  · simp [hl, hnext]
  · exact fun u hu => by simp [hu]
  · refine place_update h.place ?_ (fun _ _ _ _ => rfl)
    exact fun b hb => h.place (.stack t) b (List.mem_of_mem_tail hb)
  · rintro _ ⟨⟩
    exact h.place (.stack t) a (by rw [hl]; exact List.mem_cons_self)
  · exact fun _ _ _ _ => ⟨rfl, rfl⟩

theorem Records.pushCache (h : Records m g L) {a : ℕ} {rest : Option ℕ} {w : ℕ}
    (hw : (m.completions a).workerId = w) (hg : g t = .free rest a (.cas (m.completionCache w))) :
    Records { m with completionCache := Function.update m.completionCache w (some a) }
      (Function.update g t (.stack rest)) (Function.update L (.cache w) (a :: L (.cache w))) := by
  have hheld : (g t).held = some a := by rw [hg]; rfl
  obtain ⟨href, hnext⟩ : (m.completions a).referring = false ∧ m.respNext a = m.completionCache w := by
    have := h.grip t a hheld
    rwa [hg] at this
  refine h.update ?_ ?_ ?_ ?_ ?_ ?_ ?_ ?_ ?_ ?_
  · exact h.stock.put hheld (by rw [hnext]; exact h.cache w)
  · exact fun c => by simpa using h.inbox c
  · exact fun c => by simpa using h.responses c
  · intro v
    by_cases hv : v = w
    · subst hv
      simp
    · simpa [hv] using h.cache v
  · exact fun v => by simpa using h.spare v
  · have := h.stack t
    rw [hg] at this
    simpa using this
  · exact fun u _ => by simp
  · refine place_update h.place ?_ (fun _ _ _ _ => rfl)
    intro b hb
    rcases List.mem_cons.mp hb with rfl | hb
    · exact href
    · exact h.place (.cache w) b hb
  · rintro _ ⟨⟩
  · exact fun _ _ _ _ => ⟨rfl, rfl⟩

theorem Records.refill (h : Records m g L) {w : Fin nW} (hw : m.localCompletionCache w = none) :
    Records { m with
      localCompletionCache := Function.update m.localCompletionCache w (m.completionCache w)
      completionCache := Function.update m.completionCache w none } g
      (Function.update (Function.update L (.cache w) []) (.spare w) (L (.cache w))) where
  stock := h.stock.move (by simp) (List.head?_eq_none_iff.mp ((h.spare w).symm.trans hw))
  inbox c := by simpa using h.inbox c
  responses c := by simpa using h.responses c
  cache v := by
    by_cases hv : v = w
    · subst hv
      simp
    · simpa [hv] using h.cache v
  spare v := by
    by_cases hv : v = w
    · subst hv
      simpa using h.cache v
    · simpa [hv] using h.spare v
  stack u := by simpa using h.stack u
  place := by
    refine place_update (place_update h.place (by simp) (fun _ _ _ _ => rfl)) ?_ (fun _ _ _ _ => rfl)
    exact fun a ha => h.place (.cache w) a ha
  grip := h.grip

/-- A completion that is filled is in the hands of the worker. -/
theorem Records.fill (h : Records m g L) {w : Fin nW} {a : ℕ} (j : Job) {L' : Place nIo nW → List ℕ}
    (hg : g t = .stack none) (hm : m'.respNext = Function.update m.respNext a none)
    (hx : m'.completions = Function.update m.completions a (.fill w j))
    (hstock : Stock m'.respNext L' (Function.update (fun u => (g u).held) t (some a)) (· < m'.brk))
    (hconns : m'.conns = m.conns) (hcache : m'.completionCache = m.completionCache)
    (hspare : ∀ v, m'.localCompletionCache v = (L' (.spare v)).head?) (hsub : ∀ k, L' k ⊆ L k)
    (hsame : ∀ k, (∀ v, k ≠ .spare v) → L' k = L k) :
    Records m' (Function.update g t (.push j a none)) L' := by
  have hnot : ∀ k, ∀ b ∈ L' k, b ≠ a := by
    rintro k b hb rfl
    exact hstock.hand_not_mem t b (Function.update_self ..) k hb
  refine h.update hstock ?_ ?_ ?_ hspare ?_ ?_ ?_ ?_ ?_
  · intro c
    rw [hconns, hsame _ (by simp)]
    exact h.inbox c
  · intro c
    rw [hconns, hsame _ (by simp)]
    exact h.responses c
  · intro v
    rw [hcache, hsame _ (by simp)]
    exact h.cache v
  · have := h.stack t
    rw [hg] at this
    rw [hsame _ (by simp)]
    exact this
  · exact fun u _ => hsame _ (by simp)
  · intro k b hb
    rw [hx, Function.update_of_ne (hnot k b hb)]
    exact h.place k b (hsub k hb)
  · rintro _ ⟨⟩
    rw [hx, Function.update_self]
    exact ⟨⟨w, rfl⟩, fun _ hnone => by cases hnone⟩
  · intro u hu b hb
    have hne : b ≠ a := by
      rintro rfl
      refine hu (hstock.hand_unique u t b ?_ (Function.update_self ..))
      rw [Function.update_of_ne hu]
      exact hb
    rw [hx, hm, Function.update_of_ne hne, Function.update_of_ne hne]
    exact ⟨rfl, rfl⟩

theorem Records.takeLocal (h : Records m g L) {w : Fin nW} {a : ℕ} (j : Job)
    (ha : m.localCompletionCache w = some a) (hg : g t = .stack none)
    (hm : Op.apply m (.takeLocal w a j) = some m') :
    Records m' (Function.update g t (.push j a none)) (Function.update L (.spare w) (L (.spare w)).tail) := by
  obtain rfl := Option.some.inj hm
  obtain ⟨l, hl⟩ : ∃ l, L (.spare w) = a :: l := ⟨_, (List.cons_head?_tail ((h.spare w).symm.trans ha)).symm⟩
  have hnext : m.respNext a = l.head? := by
    have := h.stock.chains.linked (.spare w)
    rw [hl] at this
    exact this.tail.1
  have hstock := h.stock.take (i := t) (by rw [hg]; rfl) hl
  rw [hl, List.tail_cons]
  refine h.fill (w := w) j hg rfl rfl (hstock.relink (Function.update_self ..) none) rfl rfl ?_ ?_ ?_
  · intro v
    by_cases hv : v = w
    · subst hv
      simpa using hnext
    · simpa [hv] using h.spare v
  · intro k b hb
    by_cases hk : k = .spare w
    · subst hk
      rw [hl]
      exact List.mem_cons_of_mem _ (by simpa using hb)
    · simpa [hk] using hb
  · exact fun k hk => Function.update_of_ne (hk w) ..

theorem Records.malloc (h : Records m g L) {w : Fin nW} (j : Job) (hg : g t = .stack none)
    (hm : Op.apply m (.malloc w j) = some m') :
    Records m' (Function.update g t (.push j m.brk none)) L := by
  obtain rfl := Option.some.inj hm
  have hstock := h.stock.new (i := t) (a := m.brk) (by rw [hg]; rfl) (Nat.lt_irrefl _) none
  have hall : (fun b => b = m.brk ∨ b < m.brk) = (· < m.brk + 1) := by
    funext b
    exact propext ⟨fun hb => by omega, fun hb => by omega⟩
  rw [hall] at hstock
  exact h.fill (w := w) j hg rfl rfl hstock rfl rfl h.spare (fun _ _ hb => hb) (fun _ _ => rfl)

/-- A store to the pointer of a completion in the hands of the thread. -/
theorem Records.link (h : Records m g L) {a : ℕ} {next : Option ℕ} {γ : Grip} (hheld : (g t).held = some a)
    (hγ : γ.held = some a) (hrest : γ.rest = (g t).rest) (hok : γ.Ok (m.completions a) next) :
    Records (m.setNext a next) (Function.update g t γ) L := by
  have heq : Function.update (fun u => (g u).held) t γ.held = fun u => (g u).held := by
    rw [Function.update_eq_self_iff, hγ, hheld]
  refine h.update ?_ h.inbox h.responses h.cache h.spare (hrest.trans (h.stack t)) (fun _ _ => rfl) h.place ?_ ?_
  · rw [heq]
    exact h.stock.relink hheld next
  · intro b hb
    obtain rfl := Option.some.inj (hγ.symm.trans hb)
    simpa using hok
  · intro u hu b hb
    have hne : b ≠ a := by
      rintro rfl
      exact hu (h.stock.hand_unique u t b hb hheld)
    simp [hne]

/-- A thread forgets what it has loaded. -/
theorem Records.retry (h : Records m g L) {γ : Grip} (hheld : γ.held = (g t).held) (hrest : γ.rest = (g t).rest)
    (hok : ∀ a, (g t).held = some a → γ.Ok (m.completions a) (m.respNext a)) :
    Records m (Function.update g t γ) L := by
  have heq : Function.update (fun u => (g u).held) t γ.held = fun u => (g u).held := by
    rw [Function.update_eq_self_iff, hheld]
  refine h.update ?_ h.inbox h.responses h.cache h.spare (hrest.trans (h.stack t)) (fun _ _ => rfl) h.place ?_
    (fun _ _ _ _ => ⟨rfl, rfl⟩)
  · rw [heq]
    exact h.stock
  · exact fun a ha => hok a (hheld.symm.trans ha)

theorem Records.release (h : Records m g L) {a : ℕ} {rest : Option ℕ} (hg : g t = .free rest a .release)
    (hm : Op.apply m (.release a) = some m') : Records m' (Function.update g t (.free rest a .load)) L := by
  obtain rfl := Option.some.inj hm
  have hheld : (g t).held = some a := by rw [hg]; rfl
  have hnot : ∀ k, ∀ b ∈ L k, b ≠ a := by
    rintro k b hb rfl
    exact h.stock.hand_not_mem t b hheld k hb
  have heq : Function.update (fun u => (g u).held) t (some a) = fun u => (g u).held := by
    rw [Function.update_eq_self_iff, hheld]
  refine h.update ?_ (h.inbox_of_lists (lists_update _ _ rfl)) (h.responses_of_lists (lists_update _ _ rfl))
    h.cache h.spare ?_ (fun _ _ => rfl) ?_ ?_ ?_
  · show Stock m.respNext L (Function.update (fun u => (g u).held) t (some a)) (· < m.brk)
    rw [heq]
    exact h.stock
  · have := h.stack t
    rwa [hg] at this
  · intro k b hb
    simpa [hnot k b hb] using h.place k b hb
  · rintro _ ⟨⟩
    simp [Grip.Ok]
  · intro u hu b hb
    have hne : b ≠ a := by
      rintro rfl
      exact hu (h.stock.hand_unique u t b hb hheld)
    simp [hne]

/-- Bytes of the first response are sent. -/
theorem Records.send (h : Records m g L) {c a n : ℕ} (ha : (m.conns c).respHead = some a)
    (hm : Op.apply m (.send c a n) = some m') : Records m' g L := by
  obtain rfl := Option.some.inj hm
  have hmem := h.mem_responses ha
  refine ⟨h.stock, h.inbox, h.responses, h.cache, h.spare, h.stack, ?_, ?_⟩
  · intro k b hb
    by_cases hba : b = a
    · subst hba
      obtain rfl := h.stock.chains.disjoint _ _ b hb hmem
      simpa [Place.Ok] using h.place _ b hb
    · simpa [hba] using h.place k b hb
  · intro t b hb
    have hba : b ≠ a := by
      rintro rfl
      exact h.stock.hand_not_mem t b hb _ hmem
    simpa [hba] using h.grip t b hb

theorem Records.quiet (h : Records m g L) (hq : op.quiet = true) (hm : op.apply m = some m')
    (hacc : ∀ c, op = .accept c → L (.inbox c) = [] ∧ L (.responses c) = []) : Records m' g L := by
  cases op with
  | nothing =>
      obtain rfl := Option.some.inj hm
      exact h
  | conn c cop =>
      obtain rfl := Option.some.inj hm
      exact h.congr rfl rfl rfl rfl rfl (lists_update _ _ (cop.apply_lists _))
  | storeFd c ctx =>
      have hconns := storeFd_conns m c ctx
      obtain rfl := Option.some.inj hm
      refine h.congr ?_ ?_ ?_ ?_ ?_ (fun d => ?_)
      case refine_6 =>
        rw [hconns]
        refine lists_update _ _ ?_ d
        rfl
      all_goals
        cases ctx with
        | none => rfl
        | some i => simp only [Mem.storeFd]; split_ifs <;> rfl
  | accept c =>
      obtain rfl := Option.some.inj hm
      obtain ⟨hi, hr⟩ := hacc c rfl
      refine h.congr rfl rfl rfl rfl rfl (lists_update _ _ ?_)
      have hinbox := h.inbox c
      have hresp := h.responses c
      rw [hi] at hinbox
      rw [hr] at hresp
      exact (Prod.ext hinbox hresp).symm
  | wait | nextEvent | takeRetired | enqueue | dequeue =>
      obtain rfl := Option.some.inj hm
      exact h.congr rfl rfl rfl rfl rfl (fun _ => rfl)
  | _ => cases hq

/-- Every step keeps each completion at one place. -/
theorem Records.step (h : Records m g L) {γ : Grip} (hh : Handles m t op (g t) γ) (hm : op.apply m = some m')
    (hacc : ∀ c, op = .accept c → L (.inbox c) = [] ∧ L (.responses c) = []) :
    Records m' (Function.update g t γ) (places m t L op) := by
  generalize hg : g t = γ₀ at hh
  have hself : Function.update g t γ₀ = g := by rw [← hg]; exact Function.update_eq_self t g
  cases hh with
  | keep hq =>
      have hplaces : places m t L op = L := by cases op <;> first | rfl | cases hq
      rw [hself, hplaces]
      exact h.quiet hq hm hacc
  | @pushRetry j a old =>
      obtain rfl := Option.some.inj hm
      refine h.retry (by rw [hg]; rfl) (by rw [hg]; rfl) (fun b hb => ?_)
      have := h.grip t b hb
      rw [hg] at this
      exact ⟨this.1, fun _ hnone => by cases hnone⟩
  | @freeRetry rest a head =>
      obtain rfl := Option.some.inj hm
      refine h.retry (by rw [hg]; rfl) (by rw [hg]; rfl) (fun b hb => ?_)
      have := h.grip t b hb
      rw [hg] at this
      exact this.1
  | @pushLoad j a old =>
      obtain rfl := Option.some.inj hm
      have hheld : (g t).held = some a := by rw [hg]; rfl
      refine h.link hheld rfl (by rw [hg]; rfl) ?_
      have := h.grip t a hheld
      rw [hg] at this
      exact ⟨this.1, fun _ heq => Option.some.inj heq⟩
  | @freeLoad rest a head =>
      obtain rfl := Option.some.inj hm
      have hheld : (g t).held = some a := by rw [hg]; rfl
      refine h.link hheld rfl (by rw [hg]; rfl) ?_
      have := h.grip t a hheld
      rw [hg] at this
      exact ⟨this, rfl⟩
  | pushInbox =>
      obtain rfl := Option.some.inj hm
      exact h.push hg
  | @takeInbox c =>
      obtain rfl := Option.some.inj hm
      exact h.takeInbox c hg
  | @drainInbox c =>
      obtain ⟨m'', hd, h'⟩ := h.drainInbox c hg
      obtain rfl := Option.some.inj (hd.symm.trans hm)
      exact h'
  | send ha =>
      rw [hself]
      exact h.send ha hm
  | popResponse ha =>
      obtain ⟨m'', hp, h'⟩ := h.popResponse ha hg
      obtain rfl := Option.some.inj (hp.symm.trans hm)
      exact h'
  | takeNext =>
      obtain rfl := Option.some.inj hm
      exact h.takeNext hg
  | release => exact h.release hg hm
  | pushCache =>
      obtain rfl := Option.some.inj hm
      exact h.pushCache rfl hg
  | refill hw =>
      obtain rfl := Option.some.inj hm
      rw [hself]
      exact h.refill hw
  | @takeLocal w a j ha => exact h.takeLocal j ha hg hm
  | @malloc w j => exact h.malloc j hg hm

theorem apply_completions (hm : op.apply m = some m') (a : ℕ) :
    m'.completions a = m.completions a ∨
    (∃ w j, (op = .takeLocal w a j ∨ (op = .malloc w j ∧ a = m.brk)) ∧ m'.completions a = .fill w j) ∨
    (∃ c n, op = .send c a n ∧ m'.completions a = { m.completions a with sent := (m.completions a).sent + n }) ∨
    (op = .release a ∧ m'.completions a = { m.completions a with referring := false }) := by
  cases op with
  | takeLocal w b j =>
      obtain rfl := Option.some.inj hm
      by_cases hab : a = b
      · subst hab
        exact .inr (.inl ⟨w, j, .inl rfl, by simp⟩)
      · exact .inl (by simp [hab])
  | malloc w j =>
      obtain rfl := Option.some.inj hm
      by_cases hab : a = m.brk
      · subst hab
        exact .inr (.inl ⟨w, j, .inr ⟨rfl, rfl⟩, by simp⟩)
      · exact .inl (by simp [hab])
  | send d b n =>
      obtain rfl := Option.some.inj hm
      by_cases hab : a = b
      · subst hab
        exact .inr (.inr (.inl ⟨d, n, rfl, by simp⟩))
      · exact .inl (by simp [hab])
  | release b =>
      obtain rfl := Option.some.inj hm
      by_cases hab : a = b
      · subst hab
        exact .inr (.inr (.inr ⟨rfl, by simp⟩))
      · exact .inl (by simp [hab])
  | storeFd d ctx =>
      obtain ⟨k, l, hk⟩ := storeFd_eq m d ctx
      obtain rfl := hk.symm.trans (Option.some.inj hm)
      exact .inl rfl
  | drainInbox d =>
      obtain ⟨next, ends, rfl⟩ := drainInbox_eq hm
      exact .inl rfl
  | popResponse d =>
      obtain ⟨b, -, rfl⟩ := popResponse_eq hm
      exact .inl rfl
  | _ =>
      obtain rfl := Option.some.inj hm
      exact .inl rfl

/-! ### Reading the places off the memory -/

/-- The completions from a pointer on. -/
def Mem.chain (m : Mem nIo nW) (head : Option ℕ) : List ℕ :=
  (follow m.respNext (fun l a => l ++ [a]) m.brk [] head).getD []

/-- The completions at a place. -/
def contents (m : Mem nIo nW) (g : Thread nIo nW → Grip) : Place nIo nW → List ℕ
  | .inbox c => m.chain (m.conns c).inbox
  | .responses c => m.chain (m.conns c).respHead
  | .cache w => m.chain (m.completionCache w)
  | .spare w => m.chain (m.localCompletionCache w)
  | .stack t => m.chain (g t).rest

theorem Records.chain_eq (h : Records m g L) (k : Place nIo nW) : m.chain (L k).head? = L k := by
  have hlen : (L k).length ≤ m.brk := h.length_le (h.stock.chains.nodup k) (fun a ha => ⟨k, ha⟩)
  rw [Mem.chain, follow_linked (h.stock.chains.linked k) _ _ hlen, foldl_snoc, List.nil_append]
  rfl

theorem Records.contents_eq (h : Records m g L) : contents m g = L := by
  funext k
  cases k with
  | inbox c => rw [contents, h.inbox, h.chain_eq]
  | responses c =>
      have hhead : (m.conns c).respHead = (L (.responses c)).head? := congrArg Ends.head (h.responses c)
      rw [contents, hhead, h.chain_eq]
  | cache w => rw [contents, h.cache, h.chain_eq]
  | spare w => rw [contents, h.spare, h.chain_eq]
  | stack t => rw [contents, h.stack, h.chain_eq]

theorem Records.init (nIo nW : ℕ) :
    Records (Mem.init nIo nW) (fun _ => .stack none) (fun _ => []) where
  stock := by
    refine ⟨⟨fun _ => trivial, fun _ => List.nodup_nil, ?_⟩, ?_, ?_, ?_⟩
    · rintro _ _ _ ⟨⟩
    · rintro _ _ ⟨⟩
    · rintro _ _ _ ⟨⟩
    · intro a
      constructor
      · intro ha
        exact absurd ha (Nat.not_lt_zero a)
      · rintro (⟨_, ⟨⟩⟩ | ⟨_, ⟨⟩⟩)
  inbox _ := rfl
  responses _ := rfl
  cache _ := rfl
  spare _ := rfl
  stack _ := rfl
  place _ _ h := by cases h
  grip _ _ h := by cases h

end records

end Rakaia.Pool
