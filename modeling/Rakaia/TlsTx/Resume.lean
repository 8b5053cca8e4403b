import Rakaia.Lib.Framing
import Rakaia.TlsTx.Write

/-! # Resumption of partial writes (tls)

One writer at a time calls `write_to_csock`, messages are appended behind its back, and `sock_sendmsg` takes
any part of what it is offered or returns `-EAGAIN`, on any buffer and any number of times.  The bytes that
the TCP socket has taken are always a prefix of the messages in queue order, and a message leaves the queue
when its last byte is taken (`resumption`).

`Standing` says what the control block of a message in progress describes: the buffers in front of `cur` were
taken as a whole, and `off` bytes of `cur`. -/

namespace Rakaia.TlsTx

open Lib

/-- The queue of a psock, and the call of `write_to_csock` in progress. -/
structure State where
  txWaitQueue : List TxMsg
  call : Option Pc

inductive Act where
  /-- A message is appended to `tx_wait_queue`. -/
  | append (head : TxSkb) (fragList : List TxSkb)
  /-- `write_to_csock` is called. -/
  | call
  /-- The next step of the call; `r` is what `sock_sendmsg` returns in it. -/
  | run (r : SendResult)

def step (s : State) : Act → Option (State × List Event)
  | .append head fragList =>
      let m := TxMsg.new head fragList
      some ({ s with txWaitQueue := s.txWaitQueue ++ [m] }, [.appended m])
  | .call =>
      match s.call with
      | none => some ({ s with call := some (.peek 0) }, [])
      | some _ => none
  | .run r =>
      match s.call with
      | none => none
      | some pc => (writeToCsock s.txWaitQueue pc r).map (fun x => (⟨x.1, x.2.1.call⟩, x.2.2))

def machine : Machine State Act Event := ⟨⟨[], none⟩, step⟩

/-- Every buffer of a message has a page fragment, and `sock_sendmsg` does not fail for good. -/
def Admissible : Act → Prop
  | .append head fragList => ∀ skb ∈ head :: fragList, skb.frags ≠ []
  | .run (.fail _) => False
  | _ => True

instance : DecidablePred Admissible
  | .append head fragList => inferInstanceAs (Decidable (∀ skb ∈ head :: fragList, skb.frags ≠ []))
  | .call => isTrue trivial
  | .run (.sent _) => isTrue trivial
  | .run .again => isTrue trivial
  | .run (.fail _) => isFalse id

/-! ### Histories -/

def Event.accepted? : Event → List UInt8
  | .accepted bytes => bytes
  | _ => []

def Event.appended? : Event → Option TxMsg
  | .appended m => some m
  | _ => none

def Event.removed? : Event → Option TxMsg
  | .removed m => some m
  | _ => none

/-- The bytes that the TCP socket has taken. -/
def accepted (es : List Event) : List UInt8 := es.flatMap Event.accepted?

/-- The messages appended, in queue order. -/
def appended (es : List Event) : List (List UInt8) := (es.filterMap Event.appended?).map TxMsg.bytes

/-- The messages removed, with their control blocks. -/
def removed (es : List Event) : List TxMsg := es.filterMap Event.removed?

theorem accepted_append (es e : List Event) : accepted (es ++ e) = accepted es ++ accepted e :=
  List.flatMap_append

theorem accepted_nil : accepted [] = [] := rfl

theorem accepted_singleton (bytes : List UInt8) : accepted [.accepted bytes] = bytes := List.append_nil bytes

theorem appended_append (es e : List Event) : appended (es ++ e) = appended es ++ appended e := by
  rw [appended, List.filterMap_append, List.map_append]
  rfl

theorem removed_append (es e : List Event) : removed (es ++ e) = removed es ++ removed e :=
  List.filterMap_append

/-! ### The message in progress -/

/-- The buffers `pre` and `off` bytes of `cur` were taken. -/
structure Standing (m : TxMsg) (pre : List TxSkb) (cur : TxSkb) (post : List TxSkb) (off : ℕ) : Prop where
  skbs : m.skbs = pre ++ cur :: post
  started : m.startedTx = true
  offset : m.fragOffset = UInt32.ofNat off
  sent : m.sent = UInt32.ofNat ((bytesOf pre).length + off)

/-- What was taken of a message that stands so. -/
def taken (pre : List TxSkb) (cur : TxSkb) (off : ℕ) : List UInt8 := bytesOf pre ++ cur.bytes.take off

/-- What was taken of the first message, as the call and the control block have it. -/
def Progress (m : TxMsg) (part : List UInt8) : Option Pc → Prop
  | some (.send _ i count) => ∃ pre cur post off, Standing m pre cur post off ∧ i = pre.length ∧
      0 < count ∧ off + count = cur.bytes.length ∧ part = taken pre cur off
  | some (.dequeue _) => m.sent = UInt32.ofNat m.bytes.length ∧ part = m.bytes
  | _ => (m.startedTx = false ∧ part = []) ∨ ∃ pre cur post off, Standing m pre cur post off ∧
      m.fragSkb = some pre.length ∧ off < cur.bytes.length ∧ part = taken pre cur off

/-- What was taken of the first message in the queue; nothing when there is none. -/
def Part (s : State) (part : List UInt8) : Prop :=
  match s.txWaitQueue with
  | [] => part = [] ∧ (∀ t i c, s.call ≠ some (.send t i c)) ∧ ∀ t, s.call ≠ some (.dequeue t)
  | m :: _ => Progress m part s.call

/-- The history and the state fit together. -/
structure Inv (s : State) (es : List Event) : Prop where
  stream : ∃ part, accepted es = ((removed es).map TxMsg.bytes).flatten ++ part ∧ Part s part
  queue : appended es = (removed es).map TxMsg.bytes ++ s.txWaitQueue.map TxMsg.bytes
  full : ∀ m ∈ removed es, m.sent = UInt32.ofNat m.bytes.length
  fresh : ∀ m ∈ s.txWaitQueue.tail, m.startedTx = false
  frags : ∀ m ∈ s.txWaitQueue, ∀ skb ∈ m.skbs, skb.frags ≠ []

section steps

variable {m : TxMsg} {pre post : List TxSkb} {cur : TxSkb} {off count n : ℕ}
  {part : List UInt8} {t : UInt32}

theorem Standing.bytes_eq (h : Standing m pre cur post off) :
    m.bytes = bytesOf pre ++ cur.bytes ++ bytesOf post := by
  rw [TxMsg.bytes, h.skbs, bytesOf_append, bytesOf_cons, List.append_assoc]

theorem Standing.cur_mem (h : Standing m pre cur post off) : cur ∈ m.skbs := by
  rw [h.skbs]
  exact List.mem_append_right _ List.mem_cons_self

/-- `frag_offset` does not wrap around inside a buffer. -/
theorem Standing.toNat_fragOffset (h : Standing m pre cur post off) (hoff : off < cur.bytes.length) :
    m.fragOffset.toNat = off := by
  rw [h.offset, UInt32.toNat_ofNat_of_lt' (Nat.lt_trans hoff cur.length_lt)]

/-- `sock_sendmsg` takes `n` bytes more. -/
theorem Standing.took (h : Standing m pre cur post off) (n : ℕ) :
    Standing (m.took n) pre cur post (off + n) where
  skbs := h.skbs
  started := h.started
  offset := by rw [TxMsg.took, h.offset, UInt32.ofNat_add]
  sent := by rw [TxMsg.took, h.sent, ← UInt32.ofNat_add, Nat.add_assoc]

/-- The buffer is taken as a whole, and the next one is to be sent. -/
theorem Standing.goTo {nxt : TxSkb} (h : Standing m pre cur (nxt :: post) cur.bytes.length) :
    Standing (m.goTo (pre.length + 1)) (pre ++ [cur]) nxt post 0 where
  skbs := by
    rw [List.append_assoc]
    exact h.skbs
  started := h.started
  offset := rfl
  sent := by
    rw [show (m.goTo (pre.length + 1)).sent = m.sent from rfl, h.sent, bytesOf_append, List.length_append]
    simp [bytesOf]

theorem taken_add (pre : List TxSkb) (cur : TxSkb) (off n : ℕ) :
    taken pre cur (off + n) = taken pre cur off ++ (cur.bytes.drop off).take n := by
  rw [taken, taken, List.take_add, List.append_assoc]

/-- A message of which something is still to be taken is not taken as a whole. -/
theorem Standing.part_lt (h : Standing m pre cur post off) (hoff : off < cur.bytes.length) :
    taken pre cur off <+: m.bytes ∧ (taken pre cur off).length < m.bytes.length := by
  rw [h.bytes_eq, taken, List.append_assoc]
  constructor
  · apply (List.prefix_append_right_inj _).mpr
    exact (List.take_prefix _ _).trans (List.prefix_append _ _)
  · rw [List.length_append, List.length_append, List.length_append, List.length_take]
    omega

/-- The top of the loop: the call goes on where the control block says. -/
theorem peek_spec (rest : List TxMsg) (r : SendResult) (hp : Progress m part (some (.peek t)))
    (hfrags : ∀ skb ∈ m.skbs, skb.frags ≠ []) :
    ∃ m' i c, writeToCsock (m :: rest) (.peek t) r = some (m' :: rest, .goes (.send t i c), []) ∧
      m'.skbs = m.skbs ∧ Progress m' part (some (.send t i c)) := by
  have hlen : ∀ skb ∈ m.skbs, 0 < skb.bytes.length := by
    intro skb hskb
    exact List.length_pos_iff.mpr (TxSkb.bytes_ne_nil (hfrags skb hskb))
  rcases hp with ⟨hstart, rfl⟩ | ⟨pre, cur, post, off, hst, hskb, hoff, rfl⟩
  · have hhead : m.head ∈ m.skbs := List.mem_cons_self
    refine ⟨{ m with fragOffset := 0, sent := 0, startedTx := true }, 0, m.head.bytes.length, ?_, rfl,
      [], m.head, m.fragList, 0, ⟨rfl, rfl, rfl, rfl⟩, rfl, hlen _ hhead, Nat.zero_add _, rfl⟩
    simp [writeToCsock, TxMsg.resume, hstart, TxMsg.skbs, hfrags _ hhead, TxSkb.toNat_msize]
  · refine ⟨m, pre.length, cur.bytes.length - off, ?_, rfl, pre, cur, post, off, hst, rfl, by omega, by omega,
      rfl⟩
    have hget : m.skbs[pre.length]? = some cur := by
      rw [hst.skbs, List.getElem?_append_right (Nat.le_refl _), Nat.sub_self, List.getElem?_cons_zero]
    simp [writeToCsock, TxMsg.resume, hst.started, hskb, hget, hfrags _ hst.cur_mem, hst.toNat_fragOffset hoff,
      TxSkb.toNat_msize]

/-- `sock_sendmsg` takes a part of what it is offered: the call offers the rest, or goes to the next buffer,
or is done with the message. -/
theorem sent_spec (rest : List TxMsg) {i : ℕ} (hp : Progress m part (some (.send t i count)))
    (hfrags : ∀ skb ∈ m.skbs, skb.frags ≠ []) (hn : 0 < n ∧ n ≤ count) :
    ∃ m' pc bs, writeToCsock (m :: rest) (.send t i count) (.sent n) =
        some (m' :: rest, .goes pc, [.accepted bs]) ∧
      m'.skbs = m.skbs ∧ Progress m' (part ++ bs) (some pc) := by
  obtain ⟨pre, cur, post, off, hst, rfl, hpos, hcount, rfl⟩ := hp
  have htook := hst.took n
  have hadd : taken pre cur off ++ (cur.bytes.drop off).take n = taken pre cur (off + n) :=
    (taken_add pre cur off n).symm
  unfold writeToCsock
  simp only [if_pos hn, TxMsg.offered_eq hst.skbs hcount]
  by_cases hmore : 0 < count - n
  · rw [if_pos hmore]
    refine ⟨_, _, _, rfl, rfl, pre, cur, post, off + n, htook, rfl, hmore, by omega, hadd⟩
  · have hall : off + n = cur.bytes.length := by omega
    rw [if_neg hmore, TxMsg.nextSkb_eq hst.skbs]
    rw [hall] at htook hadd
    cases post with
    | nil =>
        refine ⟨_, _, _, rfl, rfl, ?_, ?_⟩
        · rw [htook.sent, htook.bytes_eq]
          simp [bytesOf]
        · rw [hadd, htook.bytes_eq, taken, List.take_length]
          simp [bytesOf]
    | cons nxt post =>
        refine ⟨_, _, _, rfl, rfl, .inr ⟨pre ++ [cur], nxt, post, 0, htook.goTo, ?_, ?_, ?_⟩⟩
        · simp [TxMsg.goTo]
        · have hmem : nxt ∈ m.skbs := by
            rw [hst.skbs]
            simp
          exact List.length_pos_iff.mpr (TxSkb.bytes_ne_nil (hfrags nxt hmem))
        · rw [hadd, taken, taken, List.take_length, bytesOf_append]
          simp [bytesOf]

end steps

/-! ### Whole runs -/

section runs

variable {s s' : State} {es e : List Event}

/-- A message that nothing was taken of. -/
theorem progress_fresh {m : TxMsg} (hm : m.startedTx = false) {call : Option Pc}
    (hsend : ∀ t i c, call ≠ some (.send t i c)) (hdeq : ∀ t, call ≠ some (.dequeue t)) :
    Progress m [] call := by
  cases call with
  | none => exact .inl ⟨hm, rfl⟩
  | some pc =>
      cases pc with
      | peek t => exact .inl ⟨hm, rfl⟩
      | send t i c => exact absurd rfl (hsend t i c)
      | dequeue t => exact absurd rfl (hdeq t)

theorem Inv.append (h : Inv s es) {head : TxSkb} {fragList : List TxSkb}
    (hf : ∀ skb ∈ head :: fragList, skb.frags ≠ []) :
    Inv { s with txWaitQueue := s.txWaitQueue ++ [TxMsg.new head fragList] }
      (es ++ [.appended (TxMsg.new head fragList)]) := by
  have hacc : accepted (es ++ [.appended (TxMsg.new head fragList)]) = accepted es := by
    rw [accepted_append]
    exact List.append_nil _
  have hrem : removed (es ++ [.appended (TxMsg.new head fragList)]) = removed es := by
    rw [removed_append]
    exact List.append_nil _
  constructor
  · obtain ⟨part, heq, hpart⟩ := h.stream
    refine ⟨part, by rw [hacc, hrem]; exact heq, ?_⟩
    unfold Part at hpart ⊢
    cases hq : s.txWaitQueue with
    | nil =>
        rw [hq] at hpart
        obtain ⟨rfl, hsend, hdeq⟩ := hpart
        exact progress_fresh rfl hsend hdeq
    | cons m rest =>
        rw [hq] at hpart
        exact hpart
  · rw [hrem, appended_append, h.queue, List.map_append, List.append_assoc]
    rfl
  · rw [hrem]
    exact h.full
  · intro m hm
    cases hq : s.txWaitQueue with
    | nil => simp [hq] at hm
    | cons m' rest =>
        simp only [hq, List.cons_append, List.tail_cons, List.mem_append, List.mem_singleton] at hm
        rcases hm with hm | rfl
        · exact h.fresh m (by rw [hq]; exact hm)
        · rfl
  · intro m hm
    rcases List.mem_append.mp hm with hm | hm
    · exact h.frags m hm
    · obtain rfl := List.mem_singleton.mp hm
      exact hf

/-- A step on the first message that leaves it in the queue. -/
theorem Inv.onFirst (h : Inv s es) {m m' : TxMsg} {rest : List TxMsg} (hq : s.txWaitQueue = m :: rest)
    (hskbs : m'.skbs = m.skbs) {call : Option Pc} {part : List UInt8}
    (heq : accepted es = ((removed es).map TxMsg.bytes).flatten ++ part) (hrem : removed e = [])
    (happ : appended e = []) (hprog : Progress m' (part ++ accepted e) call) :
    Inv ⟨m' :: rest, call⟩ (es ++ e) := by
  have hbytes : m'.bytes = m.bytes := by
    rw [TxMsg.bytes, hskbs, TxMsg.bytes]
  constructor
  · refine ⟨part ++ accepted e, ?_, hprog⟩
    rw [accepted_append, removed_append, hrem, List.append_nil, heq, List.append_assoc]
  · rw [appended_append, removed_append, happ, hrem, List.append_nil, List.append_nil, h.queue, hq,
      List.map_cons, List.map_cons, hbytes]
  · rw [removed_append, hrem, List.append_nil]
    exact h.full
  · have hfresh := h.fresh
    rwa [hq] at hfresh
  · intro m'' hm''
    have hfrags := h.frags
    rw [hq] at hfrags
    rcases List.mem_cons.mp hm'' with rfl | hm''
    · rw [hskbs]
      exact hfrags m List.mem_cons_self
    · exact hfrags m'' (List.mem_cons_of_mem _ hm'')

/-- The first message is removed. -/
theorem Inv.dequeue (h : Inv s es) {m : TxMsg} {rest : List TxMsg} (hq : s.txWaitQueue = m :: rest)
    {t t' : UInt32} (hc : s.call = some (.dequeue t)) :
    Inv ⟨rest, some (.peek t')⟩ (es ++ [.removed m]) := by
  obtain ⟨part, heq, hpart⟩ := h.stream
  rw [Part, hq, hc] at hpart
  obtain ⟨hsent, rfl⟩ := hpart
  have hrem : removed (es ++ [.removed m]) = removed es ++ [m] := removed_append _ _
  constructor
  · refine ⟨[], ?_, ?_⟩
    · rw [accepted_append, hrem, List.map_append, List.flatten_append, heq]
      simp [accepted, Event.accepted?]
    · cases rest with
      | nil => exact ⟨rfl, by simp, by simp⟩
      | cons m' rest =>
          exact .inl ⟨h.fresh m' (by rw [hq]; exact List.mem_cons_self), rfl⟩
  · have hqueue := h.queue
    rw [hq, List.map_cons] at hqueue
    rw [appended_append, hrem, hqueue, List.map_append, List.append_assoc]
    simp [appended, Event.appended?]
  · intro m' hm'
    rw [hrem] at hm'
    rcases List.mem_append.mp hm' with hm' | hm'
    · exact h.full m' hm'
    · obtain rfl := List.mem_singleton.mp hm'
      exact hsent
  · intro m' hm'
    exact h.fresh m' (by rw [hq]; exact List.mem_of_mem_tail hm')
  · intro m' hm'
    exact h.frags m' (by rw [hq]; exact List.mem_cons_of_mem _ hm')

theorem Inv.run (h : Inv s es) {r : SendResult} (hr : ∀ err, r ≠ .fail err) {pc : Pc} (hc : s.call = some pc)
    {x : List TxMsg × Next × List Event} (hx : writeToCsock s.txWaitQueue pc r = some x) :
    Inv ⟨x.1, x.2.1.call⟩ (es ++ x.2.2) := by
  obtain ⟨part, heq, hpart⟩ := h.stream
  rw [Part, hc] at hpart
  cases hq : s.txWaitQueue with
  | nil =>
      rw [hq] at hx hpart
      obtain ⟨rfl, hsend, hdeq⟩ := hpart
      cases pc with
      | peek t =>
          obtain rfl := Option.some.inj hx
          have hqueue := h.queue
          rw [hq] at hqueue
          rw [List.append_nil]
          exact ⟨⟨[], heq, rfl, by simp [Next.call], by simp [Next.call]⟩, hqueue, h.full, by simp, by simp⟩
      | send t i c => exact absurd rfl (hsend t i c)
      | dequeue t => exact absurd rfl (hdeq t)
  | cons m rest =>
      rw [hq] at hx hpart
      have hfrags := h.frags m (by rw [hq]; exact List.mem_cons_self)
      cases pc with
      | peek t =>
          obtain ⟨m', i, c, hw, hskbs, hprog⟩ := peek_spec rest r hpart hfrags
          obtain rfl := Option.some.inj (hw.symm.trans hx)
          exact h.onFirst hq hskbs heq rfl rfl (by rwa [accepted_nil, List.append_nil])
      | send t i c =>
          cases r with
          | sent n =>
              have hn : 0 < n ∧ n ≤ c := by
                by_contra hn
                simp only [writeToCsock, if_neg hn] at hx
                cases hx
              obtain ⟨m', pc, bs, hw, hskbs, hprog⟩ := sent_spec rest hpart hfrags hn
              obtain rfl := Option.some.inj (hw.symm.trans hx)
              exact h.onFirst hq hskbs heq rfl rfl (by rwa [accepted_singleton])
          | again =>
              obtain rfl := Option.some.inj hx
              obtain ⟨pre, cur, post, off, hst, rfl, hpos, hcount, rfl⟩ := hpart
              have hprog : Progress { m with fragSkb := some pre.length } (taken pre cur off) none :=
                .inr ⟨pre, cur, post, off, ⟨hst.skbs, hst.started, hst.offset, hst.sent⟩, rfl, by omega, rfl⟩
              exact h.onFirst (e := []) hq (show TxMsg.skbs { m with fragSkb := some pre.length } = _ from rfl)
                heq rfl rfl (by rwa [accepted_nil, List.append_nil])
          | fail err => exact absurd rfl (hr err)
      | dequeue t =>
          obtain rfl := Option.some.inj hx
          exact h.dequeue hq hc

theorem Inv.step (h : Inv s es) {a : Act} (ha : Admissible a) (hs : step s a = some (s', e)) :
    Inv s' (es ++ e) := by
  cases a with
  | append head fragList =>
      obtain ⟨rfl, rfl⟩ := Prod.mk.inj (Option.some.inj hs)
      exact h.append ha
  | call =>
      unfold TlsTx.step at hs
      cases hc : s.call with
      | some pc =>
          rw [hc] at hs
          cases hs
      | none =>
          rw [hc] at hs
          obtain ⟨rfl, rfl⟩ := Prod.mk.inj (Option.some.inj hs)
          rw [List.append_nil]
          obtain ⟨part, heq, hpart⟩ := h.stream
          refine ⟨⟨part, heq, ?_⟩, h.queue, h.full, h.fresh, h.frags⟩
          unfold Part at hpart ⊢
          cases hq : s.txWaitQueue with
          | nil =>
              rw [hq] at hpart
              exact ⟨hpart.1, by simp, by simp⟩
          | cons m rest =>
              rw [hq, hc] at hpart
              exact hpart
  | run r =>
      unfold TlsTx.step at hs
      cases hc : s.call with
      | none =>
          rw [hc] at hs
          cases hs
      | some pc =>
          rw [hc] at hs
          obtain ⟨x, hx, heq⟩ := Option.map_eq_some_iff.mp hs
          obtain ⟨rfl, rfl⟩ := Prod.mk.inj heq
          refine h.run ?_ hc hx
          rintro err rfl
          exact ha

theorem inv_of_reach (h : machine.Reach (fun _ a => Admissible a) s es) : Inv s es := by
  have hinit : Inv machine.init [] := by
    refine ⟨⟨[], rfl, rfl, ?_, ?_⟩, rfl, ?_, ?_, ?_⟩
    · intro t i c hc
      cases hc
    · intro t hc
      cases hc
    all_goals
      intro m hm
      cases hm
  exact h.invariant (P := Inv) hinit (fun s es a s' e _ hi ha hs => hi.step ha hs)

end runs

/-! ### The main result -/

theorem TxMsg.length_bytes_pos {m : TxMsg} (hfrags : ∀ skb ∈ m.skbs, skb.frags ≠ []) : 0 < m.bytes.length := by
  have hne := List.length_pos_iff.mpr (TxSkb.bytes_ne_nil (hfrags m.head List.mem_cons_self))
  rw [TxMsg.bytes, TxMsg.skbs, bytesOf_cons, List.length_append]
  omega

/-- What was taken of the first message is less than the message, until it is about to be removed. -/
theorem Progress.part_lt {m : TxMsg} {part : List UInt8} {call : Option Pc} (h : Progress m part call)
    (hfrags : ∀ skb ∈ m.skbs, skb.frags ≠ []) (hdeq : ∀ t, call ≠ some (.dequeue t)) :
    part <+: m.bytes ∧ part.length < m.bytes.length := by
  have hrest : Progress m part none → part <+: m.bytes ∧ part.length < m.bytes.length := by
    rintro (⟨-, rfl⟩ | ⟨pre, cur, post, off, hst, -, hoff, rfl⟩)
    · exact ⟨List.nil_prefix, TxMsg.length_bytes_pos hfrags⟩
    · exact hst.part_lt hoff
  cases call with
  | none => exact hrest h
  | some pc =>
      cases pc with
      | peek t => exact hrest h
      | send t i c =>
          obtain ⟨pre, cur, post, off, hst, -, hpos, hcount, rfl⟩ := h
          exact hst.part_lt (by omega)
      | dequeue t => exact absurd rfl (hdeq t)

section taken

variable {s : State} {es : List Event}

theorem Inv.isPrefix (h : Inv s es) : accepted es <+: (appended es).flatten := by
  obtain ⟨part, heq, hpart⟩ := h.stream
  rw [heq, h.queue, List.flatten_append]
  apply (List.prefix_append_right_inj _).mpr
  cases hq : s.txWaitQueue with
  | nil =>
      rw [Part, hq] at hpart
      rw [hpart.1]
      exact List.nil_prefix
  | cons m rest =>
      rw [Part, hq] at hpart
      rw [List.map_cons, List.flatten_cons]
      refine List.IsPrefix.trans ?_ (List.prefix_append _ _)
      by_cases hdeq : ∀ t, s.call ≠ some (.dequeue t)
      · exact (hpart.part_lt (h.frags m (by rw [hq]; exact List.mem_cons_self)) hdeq).1
      · push Not at hdeq
        obtain ⟨t, ht⟩ := hdeq
        rw [ht] at hpart
        rw [hpart.2]

/-- Unless a message is about to be removed, those removed are those that were taken as a whole. -/
theorem Inv.wholeIn_eq (h : Inv s es) (hdeq : ∀ t, s.call ≠ some (.dequeue t)) :
    wholeIn (appended es) (accepted es).length = (removed es).map TxMsg.bytes := by
  obtain ⟨part, heq, hpart⟩ := h.stream
  rw [heq, h.queue, List.length_append, wholeIn_append, List.append_right_eq_self,
    wholeIn_eq_nil_iff]
  intro bs hbs
  cases hq : s.txWaitQueue with
  | nil =>
      rw [hq] at hbs
      cases hbs
  | cons m rest =>
      rw [hq] at hbs
      obtain rfl := Option.some.inj hbs
      rw [Part, hq] at hpart
      exact (hpart.part_lt (h.frags m (by rw [hq]; exact List.mem_cons_self)) hdeq).2

/-- The message that is about to be removed is the next one that was taken as a whole. -/
theorem Inv.wholeIn_dequeue (h : Inv s es) {t : UInt32} (ht : s.call = some (.dequeue t)) :
    ∃ m rest, s.txWaitQueue = m :: rest ∧ m.sent = UInt32.ofNat m.bytes.length ∧
      wholeIn (appended es) (accepted es).length = (removed es).map TxMsg.bytes ++ [m.bytes] := by
  obtain ⟨part, heq, hpart⟩ := h.stream
  cases hq : s.txWaitQueue with
  | nil =>
      rw [Part, hq] at hpart
      exact absurd ht (hpart.2.2 t)
  | cons m rest =>
      rw [Part, hq, ht] at hpart
      obtain ⟨hsent, rfl⟩ := hpart
      refine ⟨m, rest, rfl, hsent, ?_⟩
      have hnone : wholeIn (rest.map TxMsg.bytes) 0 = [] := by
        rw [wholeIn_eq_nil_iff]
        intro bs hbs
        cases rest with
        | nil => cases hbs
        | cons m' rest =>
            obtain rfl := Option.some.inj hbs
            exact TxMsg.length_bytes_pos (h.frags m' (by rw [hq]; simp))
      rw [heq, h.queue, hq, List.length_append, wholeIn_append, List.map_cons, wholeIn, if_pos (Nat.le_refl _),
        Nat.sub_self, hnone]

/-- A call can always go on. -/
theorem Inv.run_isSome (h : Inv s es) {pc : Pc} (hc : s.call = some pc) :
    (TlsTx.step s (.run .again)).isSome := by
  obtain ⟨part, -, hpart⟩ := h.stream
  unfold TlsTx.step
  simp only [hc, Option.isSome_map]
  cases hq : s.txWaitQueue with
  | nil =>
      rw [Part, hq, hc] at hpart
      cases pc with
      | peek t => rfl
      | send t i c => exact absurd rfl (hpart.2.1 t i c)
      | dequeue t => exact absurd rfl (hpart.2.2 t)
  | cons m rest =>
      rw [Part, hq, hc] at hpart
      cases pc with
      | peek t =>
          have hfrags := h.frags m (by rw [hq]; exact List.mem_cons_self)
          obtain ⟨m', i, c, hw, -, -⟩ := peek_spec rest .again hpart hfrags
          rw [hw]
          rfl
      | send t i c => rfl
      | dequeue t => rfl

end taken

/-- **Resumption of partial writes.**  In every run of appends, calls of `write_to_csock` one at a time, and
partial writes and `-EAGAIN` in any order: the bytes taken by the TCP socket are a prefix of the messages in
queue order; the messages removed from the queue are those all of whose bytes were taken, and the first
message of the queue just before it is removed; a message is removed with `sent` equal to its length as an
`unsigned int`; the others are still in the queue, in order; and a call never gets stuck. -/
theorem resumption {s : State} {es : List Event} (h : machine.Reach (fun _ a => Admissible a) s es) :
    accepted es <+: (appended es).flatten ∧
    ((∀ t, s.call ≠ some (.dequeue t)) →
      wholeIn (appended es) (accepted es).length = (removed es).map TxMsg.bytes) ∧
    (∀ t, s.call = some (.dequeue t) → ∃ m rest, s.txWaitQueue = m :: rest ∧ m.sent = UInt32.ofNat m.bytes.length ∧
      wholeIn (appended es) (accepted es).length = (removed es).map TxMsg.bytes ++ [m.bytes]) ∧
    (∀ m ∈ removed es, m.sent = UInt32.ofNat m.bytes.length) ∧
    appended es = (removed es).map TxMsg.bytes ++ s.txWaitQueue.map TxMsg.bytes ∧
    ∀ pc, s.call = some pc → (step s (.run .again)).isSome := by
  have hi := inv_of_reach h
  exact ⟨hi.isPrefix, hi.wholeIn_eq, fun t ht => hi.wholeIn_dequeue ht, hi.full, hi.queue,
    fun pc hc => hi.run_isSome hc⟩

/-- A message in two buffers is interrupted inside the head and behind it, while another is appended. -/
def interrupted : List Act :=
  [.append ⟨[⟨[1, 2], by decide⟩, ⟨[3], by decide⟩], by decide⟩ [⟨[⟨[4, 5], by decide⟩], by decide⟩], .call,
    .run (.sent 1), .run (.sent 1), .run .again, .append ⟨[⟨[6, 7], by decide⟩], by decide⟩ [], .call, .run (.sent 1),
    .run (.sent 2), .run (.sent 1), .run .again, .call, .run (.sent 1), .run (.sent 2), .run (.sent 1),
    .run (.sent 1), .run (.sent 1), .run .again]

theorem resumption_interrupted : ∃ s es, machine.Reach (fun _ a => Admissible a) s es ∧
    accepted es = [1, 2, 3, 4, 5, 6] ∧ appended es = [[1, 2, 3, 4, 5], [6, 7]] ∧
    (removed es).map TxMsg.bytes = [[1, 2, 3, 4, 5]] := by
  obtain ⟨s, es, hr, hy⟩ := Machine.Reach.of_exec (M := machine) (G := fun _ a => Admissible a)
    (g := fun _ a => decide (Admissible a)) interrupted (fun _ _ _ => of_decide_eq_true)
    (fun r => (r.1.call.isNone, accepted r.2, appended r.2)) (true, [1, 2, 3, 4, 5, 6], [[1, 2, 3, 4, 5], [6, 7]])
    (by decide +kernel)
  simp only [Prod.mk.injEq, Option.isNone_iff_eq_none] at hy
  obtain ⟨hc, hacc, happ⟩ := hy
  refine ⟨s, es, hr, hacc, happ, ?_⟩
  rw [← (resumption hr).2.1 (by simp [hc]), hacc, happ]
  decide

end Rakaia.TlsTx
