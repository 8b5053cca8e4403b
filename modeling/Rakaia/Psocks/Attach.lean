import Rakaia.Sched.State

/-! # Attaching TCP sockets

In the plain-tcp variant `rakaia_attach` allocates a psock for a TCP socket, links it into
`rakaia->psock_list`, and then checks whether the socket can be attached at all; the error exits
differ in what they undo.  `rakaia_release` of the last rakaia socket detaches every psock of the
list and frees it.

Psocks and lower sockets have addresses; the address of a psock is not used twice.  The lower sockets
are arbitrary at the start.  A call is one step; what a psock and a TCP socket are used for in between
is left out, except that a lower socket may change its state at any time. -/

namespace Rakaia.Psocks

open Lib

/-- `sk_family`. -/
inductive Family where
  | inet | inet6 | other
deriving DecidableEq, Repr

/-- `sk_protocol`. -/
inductive Protocol where
  | tcp | other
deriving DecidableEq, Repr

/-- `sk_state`. -/
inductive SkState where
  | established | listen | close | other
deriving DecidableEq, Repr

/-- A callback of a lower socket: one that it came with, or one of the module. -/
inductive Callback where
  | null
  | own (id : ℕ)
  | psockDataReady | psockWriteSpace | psockStateChange
deriving DecidableEq, Repr

/-- `sk_user_data`. -/
inductive UserData where
  | null
  | psock (addr : ℕ)
  /-- Set by someone else. -/
  | foreign
deriving DecidableEq, Repr

/-- The fields of a lower socket (`struct sock`) that attaching reads or writes. -/
structure Csk where
  family : Family
  protocol : Protocol
  state : SkState
  userData : UserData
  dataReady : Callback
  writeSpace : Callback
  stateChange : Callback
deriving DecidableEq, Repr

/-- The fields of `struct rakaia_psock` that attaching writes; `kmem_cache_zalloc` clears them. -/
structure Psock where
  sk : Option ℕ
  saveDataReady : Callback
  saveWriteSpace : Callback
  saveStateChange : Callback
deriving DecidableEq, Repr

def Psock.zero : Psock := ⟨none, .null, .null, .null⟩

structure State where
  csk : ℕ → Csk
  heap : ℕ → Psock
  /-- The first address that was never allocated. -/
  brk : ℕ
  /-- The psocks that are allocated. -/
  allocated : List ℕ
  psockList : List ℕ
  rakaiaSocksCnt : ℕ

/-- What `rakaia_attach` returns when it fails. -/
inductive Errno where
  | enomem | einval | eopnotsupp | ealready
deriving DecidableEq, Repr

/-! ### The functions of the source -/

/-- The family and protocol that can be attached. -/
def Csk.isTcp (c : Csk) : Bool := (c.family == .inet || c.family == .inet6) && c.protocol == .tcp

/-- Listeners and closed sockets cannot be attached. -/
def Csk.isOpen (c : Csk) : Bool := !(c.state == .listen || c.state == .close)

namespace State

variable (s : State)

def setCsk (c : ℕ) (k : Csk) : State := { s with csk := Function.update s.csk c k }

def setPsock (a : ℕ) (p : Psock) : State := { s with heap := Function.update s.heap a p }

/-- `kmem_cache_free`. -/
def free (a : ℕ) : State := { s with allocated := s.allocated.erase a }

/-- `kmem_cache_zalloc` and `list_add_rcu`, with the address of the new psock. -/
def publish : State :=
  { s.setPsock s.brk .zero with
    brk := s.brk + 1
    allocated := s.brk :: s.allocated
    psockList := s.brk :: s.psockList }

/-- `psock->sk = csk`. -/
def setSk (a c : ℕ) : State := s.setPsock a { s.heap a with sk := some c }

/-- The psock takes over the callbacks of the lower socket. -/
def hook (a c : ℕ) : State :=
  (s.setPsock a { s.heap a with
      saveDataReady := (s.csk c).dataReady
      saveWriteSpace := (s.csk c).writeSpace
      saveStateChange := (s.csk c).stateChange }).setCsk c { s.csk c with
      userData := .psock a
      dataReady := .psockDataReady
      writeSpace := .psockWriteSpace
      stateChange := .psockStateChange }

end State

/-- `rakaia_attach` on a socket with `csock->sk = sk`, where `kmem_cache_zalloc` succeeds or not and
`strp_init` returns `strpInit`; the result is the state and the error, if any. -/
def rakaiaAttach (s : State) (sk : Option ℕ) (alloc : Bool) (strpInit : Option Errno) :
    State × Option Errno :=
  if alloc = false then (s, some .enomem)
  else
    let psock := s.brk
    let s := s.publish
    match sk with
    | none => (s, some .einval)
    | some c =>
        if (s.csk c).isTcp = false then (s, some .eopnotsupp)
        else if (s.csk c).isOpen = false then (s, some .eopnotsupp)
        else
          let s := s.setSk psock c
          if (s.csk c).userData ≠ .null then (s.free psock, some .ealready)
          else
            match strpInit with
            | some err => (s.free psock, some err)
            | none => (s.hook psock c, none)

/-- `release_psock`; `none` when the psock is not allocated or has no lower socket. -/
def releasePsock (s : State) (a : ℕ) : Option State :=
  if a ∈ s.allocated then
    let psock := s.heap a
    match psock.sk with
    | none => none
    | some c =>
        let s := { s with psockList := s.psockList.erase a }
        let s := s.setCsk c { s.csk c with
          userData := .null
          dataReady := psock.saveDataReady
          writeSpace := psock.saveWriteSpace
          stateChange := psock.saveStateChange }
        -- `call_rcu` frees it later; nothing points to it any more
        some (s.free a)
  else none

/-- The loop of `rakaia_release` over `psock_list`. -/
def releasePsocks (s : State) : List ℕ → Option State
  | [] => some s
  | a :: l =>
      match releasePsock s a with
      | none => none
      | some s' => releasePsocks s' l

/-- `rakaia_release`; `none` when it follows a dangling or null pointer. -/
def rakaiaRelease (s : State) : Option State :=
  let s := { s with rakaiaSocksCnt := s.rakaiaSocksCnt - 1 }
  if s.rakaiaSocksCnt = 0 then releasePsocks s s.psockList else some s

/-! ### Runs -/

/-- One call, or a change of the state of a lower socket. -/
inductive Act where
  | create
  | attach (sk : Option ℕ) (alloc : Bool) (strpInit : Option Errno)
  | release
  | skState (c : ℕ) (state : SkState)

/-- A call of `rakaia_attach` returns. -/
inductive Event where
  | attached (err : Option Errno)
deriving DecidableEq, Repr

/-- A rakaia socket must be open for `rakaia_attach` and `rakaia_release`. -/
def step (s : State) : Act → Option (State × List Event)
  | .create =>
      some (if s.rakaiaSocksCnt < Sched.numRakaiaSockets then
        { s with rakaiaSocksCnt := s.rakaiaSocksCnt + 1 } else s, [])
  | .attach sk alloc strpInit =>
      if s.rakaiaSocksCnt = 0 then none
      else some ((rakaiaAttach s sk alloc strpInit).1, [.attached (rakaiaAttach s sk alloc strpInit).2])
  | .release => if s.rakaiaSocksCnt = 0 then none else (rakaiaRelease s).map (fun s' => (s', []))
  | .skState c state => some (s.setCsk c { s.csk c with state := state }, [])

/-- The lower sockets are given; no psock is allocated. -/
def State.init (csk : ℕ → Csk) : State where
  csk := csk
  heap _ := .zero
  brk := 0
  allocated := []
  psockList := []
  rakaiaSocksCnt := 0

def machine (csk : ℕ → Csk) : Machine State Act Event := ⟨.init csk, step⟩

end Rakaia.Psocks
