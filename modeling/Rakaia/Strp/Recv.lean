import Mathlib.Data.Int.Notation
import Rakaia.Lib.Machine
import Rakaia.SkBuff

/-! # The stream parser

`__strp_recv` cuts the byte stream of a TCP socket into messages.  It clones each buffer that TCP
presents and assembles a message that spans several buffers on the `frag_list` of the first, or,
if the first buffer has a `frag_list` already, of a new head in front of it.  It exists once in each
variant; the variants differ in how the length of a message is found, which is a parameter here
(`Parser`), and in what is done with a complete message, which is an event.

The results of the kernel calls that may fail and the values of `strp_peek_len` come from an oracle.
Statistics, timers and the error report on the lower socket are left out; the parser is never
paused. -/

namespace Rakaia.Strp

open Lib

/-- `struct _strp_msg`: the fields all variants have, and those only some have. -/
structure Stm (τ : Type) where
  fullLen : ℕ
  offset : ℕ
  accumLen : ℕ
  ext : τ

/-- A buffer with its `_strp_msg`. -/
structure Head (τ : Type) where
  skb : SkBuff
  stm : Stm τ

/-- The bytes of the message: `full_len` bytes from `offset` on. -/
def Head.message {τ : Type} (head : Head τ) : List UInt8 :=
  (head.skb.bytes.drop head.stm.offset).take head.stm.fullLen

/-- How a variant finds the length of a message: `parse` gives the `_strp_msg` after the call and the
result, `accept` is done with a length that passed the checks. -/
structure Parser (τ : Type) where
  parse : Stm τ → SkBuff → Stm τ × ℤ
  accept : Stm τ → ℤ → Stm τ

/-- `struct strparser`.  `skb_nextp` is a pointer into the `frag_list` of the head, `none` is the null
pointer. -/
structure Strparser (τ : Type) where
  skbHead : Option (Head τ)
  skbNextp : Option ℕ
  needBytes : ℕ
  stopped : Bool
  interrupted : Bool
  unrecovIntr : Bool

/-- What the kernel says in one round of the loop. -/
structure Round where
  clone : Bool
  unclone : Bool
  peekLen : ℤ

/-- What the kernel says in one call of `__strp_recv`. -/
structure Oracle where
  cloneOrig : Bool
  pull : Bool
  uncloneHead : Bool
  allocHead : Bool
  round : ℕ → Round

/-- What a call does besides changing the parser. -/
inductive Event (τ : Type) where
  /-- The complete message is handed on. -/
  | message (head : Head τ)
  /-- `desc->error` is set. -/
  | error (err : ℤ)
  /-- `desc->count` is set to zero. -/
  | stopReading
  /-- The condition of a `WARN_ON` is true. -/
  | warn
  /-- The null pointer `skb_nextp` is used. -/
  | oops

/-- A call of `read_sock`, which lets `__strp_recv` read one buffer after the other: the fields of its
`read_descriptor_t`, and whether the last call of `__strp_recv` consumed anything. -/
structure ReadSock where
  count : Bool
  error : ℤ
  used : Bool

namespace ReadSock

variable {τ : Type}

/-- The call of `strp_read_sock`. -/
def start : ReadSock := ⟨true, 0, true⟩

/-- The next buffer is read, if there is one. -/
def goesOn (d : ReadSock) : Bool := d.count && d.used

/-- What `__strp_recv` stores in the descriptor. -/
def note (d : ReadSock) : Event τ → ReadSock
  | .error err => { d with error := err }
  | .stopReading => { d with count := false }
  | _ => d

theorem note_error (l : List (Event τ)) (d : ReadSock) (err : ℤ) :
    ((l ++ [Event.error err]).foldl note d).error = err := by
  rw [List.foldl_append]
  rfl

theorem note_count {e : List (Event τ)} (h : .stopReading ∉ e) (d : ReadSock) :
    (e.foldl note d).count = d.count := by
  induction e generalizing d with
  | nil => rfl
  | cons ev e ih =>
      rw [List.foldl_cons, ih (fun hm => h (List.mem_cons_of_mem _ hm))]
      cases ev with
      | stopReading => exact absurd List.mem_cons_self h
      | _ => rfl

/-- Reading that was stopped does not go on. -/
theorem note_count_of_false {d : ReadSock} (hd : d.count = false) (e : List (Event τ)) :
    (e.foldl note d).count = false := by
  induction e generalizing d with
  | nil => exact hd
  | cons ev e ih =>
      refine ih ?_
      cases ev with
      | stopReading => rfl
      | _ => exact hd

theorem note_stopReading {e : List (Event τ)} (h : .stopReading ∈ e) (d : ReadSock) :
    (e.foldl note d).count = false := by
  obtain ⟨l, l', rfl⟩ := List.append_of_mem h
  rw [List.foldl_append, List.foldl_cons]
  exact note_count_of_false rfl l'

end ReadSock

section recv

variable {τ : Type} [Inhabited τ] (P : Parser τ) (maxMsgSize : ℕ)

/-- `strp_parser_err`, which calls `strp_abort_strp`. -/
def Strparser.parserErr (strp : Strparser τ) (err : ℤ) : Strparser τ × List (Event τ) :=
  ({ strp with skbHead := none, stopped := true }, [.error err])

/-- The part of `__strp_recv` before the loop, for a message in progress.  The result is the buffer
to read and the offset to read from; `none` when it returns 0. -/
def prepare (strp : Strparser τ) (orig : SkBuff) (origOffset : ℕ) (o : Oracle) :
    Strparser τ × Option (SkBuff × ℕ) × List (Event τ) :=
  match strp.skbHead with
  | none => (strp, some (orig, origOffset), [])
  | some head =>
      if origOffset ≠ 0 ∧ (o.cloneOrig && o.pull) = false then (strp, none, [.error (-12)])
      else
        let src := if origOffset ≠ 0 then (orig.pull origOffset, 0) else (orig, 0)
        match strp.skbNextp with
        | some _ => (strp, some src, [])
        | none =>
            if o.uncloneHead = false then (strp, none, [.error (-12)])
            else if head.skb.fragList.isEmpty then ({ strp with skbNextp := some 0 }, some src, [])
            else if o.allocHead = false then (strp, none, [.error (-12)])
            else ({ strp with skbHead := some { head with skb := SkBuff.allocSkbForMsg head.skb }
                              skbNextp := some 1 }, some src, [])

/-- The clone `skb` becomes the head of a new message, or joins the head of the message in progress;
`error` when it does not. -/
def join (strp : Strparser τ) (skb : SkBuff) (start : ℕ) (o : Round) :
    Except (Event τ) (Head τ × Strparser τ) :=
  match strp.skbHead with
  | none => .ok (⟨skb, ⟨0, start, 0, default⟩⟩, { strp with skbNextp := none })
  | some head =>
      if skb.fragList.isEmpty = false ∧ o.unclone = false then .error (.error (-12))
      else
        match strp.skbNextp with
        | none => .error .oops
        | some slot =>
            .ok ({ head with skb := head.skb.appendFrag slot skb }, { strp with skbNextp := some (slot + 1) })

/-- What is known about the length of a message. -/
inductive Measured (τ : Type) where
  /-- The header is not complete. -/
  | needHeader (stm : Stm τ)
  | bad (err : ℤ) (interrupted unrecovIntr : Bool)
  | known (stm : Stm τ)

/-- The length of the message: known from an earlier buffer, or parsed and checked.  `skb` is the
buffer that joined last. -/
def measure (head : Head τ) (skb : SkBuff) : Measured τ :=
  if head.stm.fullLen ≠ 0 then .known head.stm
  else
    let r := P.parse head.stm head.skb
    if r.2 = 0 then .needHeader r.1
    else if r.2 < 0 then
      if r.2 = -86 ∧ r.1.accumLen ≠ 0 then .bad (-61) false true else .bad r.2 true false
    else if maxMsgSize < r.2 then .bad (-90) false false
    else if r.2 ≤ (head.skb.len : ℤ) - skb.len - r.1.offset then .bad (-71) false false
    else .known (P.accept r.1 r.2)

/-- A `WARN_ON`. -/
def warnOn (b : Bool) : List (Event τ) := if b then [.warn] else []

/-- The end of a round of the loop. -/
inductive Outcome (τ : Type) where
  /-- The loop is left. -/
  | leave (strp : Strparser τ) (eaten : ℕ) (e : List (Event τ))
  /-- A message is complete. -/
  | again (strp : Strparser τ) (eaten : ℕ) (e : List (Event τ))

/-- One round of the loop, which reads `orig` from byte `origOffset + eaten` on. -/
def round (orig : SkBuff) (origOffset origLen : ℕ) (o : Round) (strp : Strparser τ) (eaten : ℕ) :
    Outcome τ :=
  if o.clone = false then .leave strp eaten [.error (-12)]
  else
    let candLen := origLen - eaten
    match join strp orig (origOffset + eaten) o with
    | .error e => .leave strp eaten [e]
    | .ok (head, strp) =>
        match measure P maxMsgSize head orig with
        | .bad err interrupted unrecovIntr =>
            let r := strp.parserErr err
            .leave { r.1 with interrupted := r.1.interrupted || interrupted
                              unrecovIntr := r.1.unrecovIntr || unrecovIntr } eaten r.2
        | .needHeader stm =>
            let head := { head with stm := { stm with accumLen := stm.accumLen + candLen } }
            .leave { strp with skbHead := some head }
              (eaten + candLen) (warnOn (eaten + candLen != origLen))
        | .known stm =>
            let extra : ℤ := (stm.accumLen + candLen : ℤ) - stm.fullLen
            if extra < 0 then
              let head := { head with stm := { stm with accumLen := stm.accumLen + candLen } }
              if o.peekLen < (stm.fullLen : ℤ) - stm.accumLen then
                .leave { strp with skbHead := some head, needBytes := stm.fullLen - (stm.accumLen + candLen) }
                  (eaten + candLen) [.stopReading]
              else
                .leave { strp with skbHead := some head } (eaten + candLen)
                  (warnOn (eaten + candLen != origLen))
            else
              .again { strp with skbHead := none, needBytes := 0 } ((eaten + candLen : ℤ) - extra).toNat
                (warnOn (decide ((candLen : ℤ) < extra)) ++ [.message { head with stm := stm }])

/-- The loop; `none` when the fuel does not suffice. -/
def loop (orig : SkBuff) (origOffset origLen : ℕ) (o : ℕ → Round) :
    ℕ → Strparser τ → ℕ → Option (Strparser τ × ℕ × List (Event τ))
  | fuel, strp, eaten =>
      if origLen ≤ eaten then some (strp, eaten, [])
      else
        match fuel with
        | 0 => none
        | fuel + 1 =>
            match round P maxMsgSize orig origOffset origLen (o fuel) strp eaten with
            | .leave strp eaten e => some (strp, eaten, e)
            | .again strp eaten e =>
                (loop orig origOffset origLen o fuel strp eaten).map (fun r => (r.1, r.2.1, e ++ r.2.2))

/-- `__strp_recv`: the parser after it, the number of bytes consumed, and what else happens. -/
def strpRecv (strp : Strparser τ) (orig : SkBuff) (origOffset origLen : ℕ) (o : Oracle) :
    Option (Strparser τ × ℕ × List (Event τ)) :=
  match prepare strp orig origOffset o with
  | (strp, none, e) => some (strp, 0, e)
  | (strp, some (orig, origOffset), e) =>
      (loop P maxMsgSize orig origOffset origLen o.round origLen strp 0).map
        (fun r => (r.1, r.2.1, e ++ r.2.2))

/-- The parser, and how far the TCP socket has been read. -/
structure State (τ : Type) where
  strp : Strparser τ
  copied : ℕ

/-- TCP presents a buffer from an offset on. -/
structure Act where
  skb : SkBuff
  offset : ℕ
  oracle : Oracle

def step (s : State τ) (a : Act) : Option (State τ × List (Event τ)) :=
  (strpRecv P maxMsgSize s.strp a.skb a.offset (a.skb.len - a.offset) a.oracle).map
    (fun r => (⟨r.1, s.copied + r.2.1⟩, r.2.2))

/-- The parser after `strp_init`, on a socket of which nothing is read. -/
def State.init : State τ := ⟨⟨none, none, 0, false, false, false⟩, 0⟩

def machine : Machine (State τ) Act (Event τ) := ⟨State.init, step P maxMsgSize⟩

end recv

end Rakaia.Strp
