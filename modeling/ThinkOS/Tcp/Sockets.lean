import ThinkOS.Lib.Monitor
import ThinkOS.Net.Ip
import ThinkOS.Net.Pcb
import ThinkOS.Tcp.Run

/-!
# The sockets of the stack

The model of `struct tcp_system` and of the calls of `tcp_bind.c` to `tcp_close.c`: the pool of control
blocks, the four lists they are on, the backlogs of the listeners and the ring of blocks that wait for
output. The calls are programs under the mutex of the network, with every exit of the source.

Kernel objects, the buffer pool and the routes belong to others; the state holds what is left of them.
-/

namespace Tcp

open Lib Lib.Prog
open Net (Addr Port INADDR_ANY ntohs)

/-- The lists of `struct tcp_system`. -/
inductive PcbList where
  | free
  | closed
  | listen
  | active
  deriving DecidableEq, Repr

/-- The limits of the build, with the size of the pool and whether connections stay in TIME_WAIT. -/
structure Limits extends Config where
  /-- `NET_TCP_PCB_ACTIVE_MAX` -/
  activeMax : Nat
  /-- `TCP_ENABLE_TIMEWAIT` -/
  timewait : Bool

/-- The limits of a build that sets none of them. -/
def stdLimits : Limits where
  toConfig := stdConfig
  activeMax := 8
  timewait := true

def Limits.defmss (lim : Limits) : Nat := if 1460 < lim.maxrcv then 1460 else lim.maxrcv / 2

def Limits.maxmss (lim : Limits) : Nat := lim.maxsnd

/-- What is left of `struct tcp_pcb` after the fields of `struct tcp_listen_pcb`, in pointers. -/
def TCP_BACKLOG_MAX : Nat := (64 - 20) / 4

def ENOMEM : Int := 12
def ENOTSOCK : Int := 88
def EADDRINUSE : Int := 98

/-- The memory of a control block after `memset`. -/
def Pcb.zero : Pcb where
  tState := .closed
  acknow := false
  delack := false
  sentfin := false
  tMaxseg := 0
  sndSeq := 0
  sndOff := 0
  sndMax := 0
  sndWnd := 0
  rcvAdvWnd := 0
  rcvNxt := 0
  rcvQ := []
  sndQ := []
  rcvd := []
  fins := 0
  base := 0
  top := 0
  wrapped := false

/-- A control block: what `struct tcp_pcb` and `struct tcp_listen_pcb` share, and the fields of each. -/
structure Block where
  inp : Net.Pcb
  tp : Pcb
  /-- `TF_NEEDOUTPUT` -/
  needOutput : Bool
  /-- `snd_q.offs` -/
  sndOffs : Nat
  /-- `t_cond` names a condition variable -/
  cond : Bool
  /-- `t_sem` names a semaphore -/
  semValid : Bool
  /-- the count of the semaphore -/
  sem : Nat
  /-- `t_max` -/
  max : Nat
  /-- `t_head` -/
  head : Nat
  /-- `t_tail` -/
  tail : Nat
  /-- `t_backlog` -/
  backlog : Nat → Option Nat

def Block.zero : Block where
  inp := ⟨0, 0, 0, 0⟩
  tp := Pcb.zero
  needOutput := false
  sndOffs := 0
  cond := false
  semValid := false
  sem := 0
  max := 0
  head := 0
  tail := 0
  backlog := fun _ => none

/-- The blocks that wait for output: `out` of `struct tcp_system`. -/
structure OutRing where
  head : BitVec 16
  tail : BitVec 16
  tp : Nat → Option Nat
  /-- a store went past the end of the ring -/
  stray : Bool

/-- What a call reads of a route and its interface. -/
structure Via where
  ipv4Addr : Addr
  mtu : Nat

/-- `struct tcp_system`, and what is left of the things of others. -/
structure Sockets where
  lists : PcbList → List Nat
  block : Nat → Block
  iss : BitVec 16
  portSeq : BitVec 16
  out : OutRing
  /-- condition variables the kernel can still allocate -/
  conds : Nat
  /-- semaphores the kernel can still allocate -/
  sems : Nat
  /-- bytes that the buffer pool has room for -/
  room : Nat
  routeLookup : Addr → Option Via

namespace Sockets

/-- The state after `tcp_init`, with the given things of others. -/
def init (lim : Limits) (conds sems room : Nat) (routeLookup : Addr → Option Via) : Sockets where
  lists
    | .free => List.range lim.activeMax
    | _ => []
  block _ := Block.zero
  iss := 0
  portSeq := 0
  out := ⟨0, 0, fun _ => none, false⟩
  conds
  sems
  room
  routeLookup

section
variable (s : Sockets) (p : Nat)

def setBlock (b : Block) : Sockets :=
  { s with block := Function.update s.block p b }

def setTp (tp : Pcb) : Sockets := s.setBlock p { s.block p with tp }

def tState : TcpState := (s.block p).tp.tState

/-! ## Lists -/

def pcbInsert (l : PcbList) : Sockets :=
  { s with lists := Function.update s.lists l (s.lists l ++ [p]) }

/-- `__remove`, of a block that is on the list -/
def pcbRemove (l : PcbList) : Sockets :=
  { s with lists := Function.update s.lists l ((s.lists l).erase p) }

def pcbMove (a b : PcbList) : Sockets × Int :=
  if p ∈ s.lists a then ((s.pcbRemove p a).pcbInsert p b, 0) else (s, -1)

end

/-- `pcb_lookup` -/
def pcbLookup (s : Sockets) (q : Net.Pcb) (l : PcbList) : Option Nat :=
  (s.lists l).find? fun p => (s.block p).inp = q

/-- `pcb_wildlookup`: the block of the entry that it finds, which is the first with its addresses. -/
def pcbWildlookup (s : Sockets) (q : Net.Pcb) (l : PcbList) : Option Nat :=
  (Net.pcbWildlookup q ((s.lists l).map fun p => (s.block p).inp)).bind fun pcb =>
    (s.lists l).find? fun p => (s.block p).inp = pcb

/-- `tcp_pcb_new` -/
def tcpPcbNew (s : Sockets) (l : PcbList) : Option (Sockets × Nat) :=
  match s.lists .free with
  | [] => none
  | p :: rest =>
    let s := { s with lists := Function.update s.lists .free rest }
    some ((s.pcbInsert p l).setBlock p Block.zero, p)

/-! ## Output -/

section
variable (lim : Limits) (s : Sockets) (p : Nat)

/-- `tcp_output_sched`, and `tcp_output_enqueue`, which does not signal. -/
def tcpOutputSched : Sockets :=
  if (s.block p).needOutput then
    s
  else
    let i := s.out.head.toNat % lim.activeMax
    let out := { s.out with head := s.out.head + 1, tp := Function.update s.out.tp i (some p) }
    ({ s with out }).setBlock p { s.block p with needOutput := true }

/-- Where `tcp_output_dequeue` finds a block. -/
def outMark : Option Nat :=
  let marks := (List.range (s.out.head - s.out.tail).toNat).map fun i => (s.out.tail + i).toNat
  marks.find? fun mark => s.out.tp (mark % lim.activeMax) = some p

/-- `tcp_output_dequeue`: the entry is looked for modulo the size of the ring, and cleared without. -/
def tcpOutputDequeue : Sockets :=
  match s.outMark lim p with
  | none => s
  | some mark =>
    if mark < lim.activeMax then
      { s with out := { s.out with tp := Function.update s.out.tp mark none } }
    else
      { s with out := { s.out with stray := true } }

end

/-! ## Releasing a block -/

/-- `thinkos_cond_free(tp->t_cond)` -/
def condFree (s : Sockets) (p : Nat) : Sockets :=
  if (s.block p).cond then { s with conds := s.conds + 1 } else s

/-- The beginning of `tcp_pcb_free`: a block that waits for output does not any more. -/
def unqueue (lim : Limits) (s : Sockets) (p : Nat) : Sockets :=
  if (s.block p).needOutput then
    (s.setBlock p { s.block p with needOutput := false }).tcpOutputDequeue lim p
  else s

/-- The loop over the backlog of `mux` in `tcp_pcb_free`: the state after it, and the block that the
loop has left in `tp`. A null pointer in the backlog is read through. -/
def freeBacklog (pcbFree : Sockets → Nat → Option (Sockets × Int)) :
    Nat → Sockets → (mux tp : Nat) → Option (Sockets × Nat)
  | 0, _, _, _ => none
  | n + 1, s, mux, tp =>
    let b := s.block mux
    if b.head = b.tail then
      some (s, tp)
    else
      (b.backlog b.head).bind fun tp =>
        (pcbFree (s.setBlock mux { b with head := b.head + 1 }) tp).bind fun (s, _) =>
          let b := s.block mux
          let s := if b.head = b.max then s.setBlock mux { b with head := 0 } else s
          freeBacklog pcbFree n s mux tp

/-- `tcp_pcb_free`, for a backlog of blocks that is so many levels deep. -/
def tcpPcbFree (lim : Limits) : Nat → Sockets → Nat → Option (Sockets × Int)
  | 0, _, _ => none
  | n + 1, s, p =>
    let s := s.unqueue lim p
    match s.tState p with
    | .listen =>
      (freeBacklog (tcpPcbFree lim n) 256 s p p).map fun (s, tp) =>
        let b := s.block p
        let s := if b.semValid then { s with sems := s.sems + 1 } else s
        (s.setBlock p { b with semValid := false }).pcbMove tp .listen .free
    | .closed => some (s.pcbMove p .closed .free)
    | _ => some (((s.setTp p (s.block p).tp.freeQueues).condFree p).pcbMove p .active .free)

end Sockets

end Tcp
