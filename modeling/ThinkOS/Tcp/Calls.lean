import ThinkOS.Tcp.Sockets

/-!
# The calls of the sockets

`tcp_alloc`, `tcp_bind`, `tcp_listen`, `tcp_connect`, `tcp_accept`, `tcp_send`, `tcp_recv` and
`tcp_close` as programs under the mutex of the network. A null pointer is `none`.
-/

namespace Tcp.Sockets

open Lib Lib.Prog
open Net (Addr Port INADDR_ANY ntohs)

/-- `tcp_alloc` -/
def tcpAlloc : Prog Sockets (Option Nat) := do
  lock
  match (← getState).tcpPcbNew .closed with
  | none =>
    unlock
    return none
  | some (s, p) =>
    setState s
    unlock
    return some p

/-! ## Addresses -/

/-- The loop for a port from 1024 to 33791 that is not in use: the port, and `port_seq` after it. -/
def ephemeral (busy : Port → Bool) : Nat → BitVec 16 → Option (Port × BitVec 16)
  | 0, _ => none
  | n + 1, seq =>
    let port := ntohs ((seq &&& 0x7fff) + 1024)
    if busy port then ephemeral busy n (seq + 1) else some (port, seq + 1)

/-- `can_bind` -/
def canBind (s : Sockets) (addr : Addr) (port : Port) : Bool :=
  (s.pcbLookup ⟨INADDR_ANY, 0, addr, port⟩ .listen).isNone &&
    (s.pcbLookup ⟨INADDR_ANY, 0, addr, port⟩ .closed).isNone

def bound (s : Sockets) (p : Nat) (addr : Addr) (port : Port) : Sockets :=
  s.setBlock p
    { s.block p with inp := { (s.block p).inp with laddr := addr, lport := port } }

/-- `tcp_bind`. After 0x8000 ports the loop has tried them all. -/
def tcpBind (tp : Option Nat) (addr : Addr) (port : Port) : Prog Sockets Int :=
  match tp with
  | none => return -ENOTSOCK
  | some p => do
    if p ∉ (← getState).lists .closed then
      return -ENOTSOCK
    else do
      lock
      let s ← getState
      if port = 0 then
        match ephemeral (fun port => !s.canBind addr port) 0x8000 s.portSeq with
        | none => throw .spins
        | some (port, portSeq) => do
          setState (({ s with portSeq }).bound p addr port)
          unlock
          return 0
      else if !s.canBind addr port then
        -- the mutex is not released
        return -EADDRINUSE
      else do
        setState (s.bound p addr port)
        unlock
        return 0

/-- The number of slots of the backlog; the comparison is one of unsigned numbers. -/
def listenMax (backlog : Int) : Nat :=
  if TCP_BACKLOG_MAX - 1 < (BitVec.ofInt 32 backlog).toNat then TCP_BACKLOG_MAX
  else (BitVec.ofInt 32 backlog).toNat + 1

/-- A closed block becomes a listener. -/
def listening (s : Sockets) (p : Nat) (max : Nat) : Sockets :=
  let b := s.block p
  let s := { s with sems := s.sems - 1 }
  let s := s.setBlock p
    { b with tp := { b.tp with tState := .listen }, max, tail := 0, head := 0, semValid := true, sem := 0 }
  (s.pcbMove p .closed .listen).1

/-- The address is in use by a listener. -/
def inUse (s : Sockets) (p : Nat) : Bool :=
  (s.pcbWildlookup ⟨INADDR_ANY, 0, (s.block p).inp.laddr, (s.block p).inp.lport⟩ .listen).isSome

/-- `tcp_listen` -/
def tcpListen (mux : Option Nat) (backlog : Int) : Prog Sockets Int :=
  match mux with
  | none => return -ENOTSOCK
  | some p => do
    lock
    let s ← getState
    if s.inUse p then do
      unlock
      return -EADDRINUSE
    else
      match s.tState p with
      | .closed =>
        if s.sems = 0 then do
          unlock
          return -ENOMEM
        else do
          setState (s.listening p (listenMax backlog))
          unlock
          return 0
      | .listen => do
        setState (s.pcbInsert p .listen)
        unlock
        return 0
      | _ => do
        unlock
        -- the end of the function, after the chain of states
        unlock
        return 0

/-- `tcp_accept` -/
def tcpAccept (mux : Option Nat) : Prog Sockets (Option Nat) :=
  match mux with
  | none => throw .faults
  | some p => do
    let s ← getState
    -- `thinkos_sem_wait`, without the mutex
    if ¬ (s.block p).semValid then
      return none
    else if (s.block p).sem = 0 then
      throw .waits
    else do
      setState (s.setBlock p { s.block p with sem := (s.block p).sem - 1 })
      lock
      let s ← getState
      if s.tState p ≠ .listen then do
        unlock
        return none
      else do
        let b := s.block p
        let tail := if b.tail + 1 = b.max then 0 else b.tail + 1
        setState (s.setBlock p { b with tail })
        unlock
        return b.backlog b.tail

/-! ## Connecting -/

/-- A block on its way to a peer: the fields that `tcp_connect` sets, and the move to the list of
active blocks. -/
def connecting (s : Sockets) (p : Nat) (inp : Net.Pcb) (mss : Nat) (portSeq : BitVec 16) : Sockets :=
  let iss := s.iss + 1
  let tp := Tcp.tcpConnect mss (iss.setWidth 32 <<< 20)
  let s := { s with portSeq, iss, conds := s.conds - 1 }
  ((s.setBlock p { s.block p with inp, tp, cond := true }).pcbMove p .closed .active).1

/-- One round of the loop of `tcp_connect` that waits for the connection. -/
def connectRound (p : Nat) : Unit → Prog Sockets (Unit ⊕ Int) := fun _ => do
  let s ← getState
  match s.tState p with
  | .closed => do
    setState ((s.condFree p).setTp p (s.block p).tp.freeQueues)
    unlock
    return .inr (-1)
  | .timeWait | .closing | .lastAck | .closeWait => do
    unlock
    return .inr (-1)
  | .established => do
    unlock
    return .inr 0
  | _ => return .inl ()

section
variable (lim : Limits)

/-- `tcp_connect`, from the choice of the local port on. -/
def connectFrom (p : Nat) (addr : Addr) (port : Port) (laddr : Addr) (mss : Nat) :
    Prog Sockets Int := do
  let s ← getState
  match ephemeral (fun lport => (s.pcbLookup ⟨addr, port, laddr, lport⟩ .active).isSome) 0x8000
      s.portSeq with
  | none => throw .spins
  | some (lport, portSeq) =>
    if s.conds = 0 then do
      setState (({ s with portSeq }).setBlock p { s.block p with cond := false })
      unlock
      return -1
    else do
      setState ((s.connecting p ⟨addr, port, laddr, lport⟩ (min mss lim.maxmss) portSeq).tcpOutputSched
        lim p)
      untilDone (connectRound p) ()

/-- `tcp_connect` -/
def tcpConnect (tp : Option Nat) (addr : Addr) (port : Port) : Prog Sockets Int :=
  match tp with
  | none => return -ENOTSOCK
  | some p => do
    if p ∉ (← getState).lists .closed then
      return -ENOTSOCK
    else do
      lock
      let s ← getState
      let laddr := (s.block p).inp.laddr
      match s.routeLookup addr with
      | none =>
        if laddr = INADDR_ANY then do
          unlock
          return -1
        else
          connectFrom lim p addr port laddr lim.defmss
      | some rt =>
        connectFrom lim p addr port (if laddr = INADDR_ANY then rt.ipv4Addr else laddr) (rt.mtu - 40)

/-! ## Data -/

/-- The loop of `tcp_send` over the bytes from `src` on: what is left is not 0 when it has to wait. The
length may be negative, and nothing is added then. -/
def sendFill (p : Nat) (buf : Nat → UInt8) :
    Nat → Sockets → (rem : Int) → (src : Nat) → Sockets × Int × Nat
  | 0, s, rem, src => (s, rem, src)
  | fuel + 1, s, rem, src =>
    if rem = 0 then
      (s, rem, src)
    else
      let data := (List.range rem.toNat).map fun i => buf (src + i)
      let (tp, n) := sendTurn lim.toConfig (s.block p).tp data s.room
      let t := ({ s with room := s.room - n }).setTp p tp
      if lim.maxsnd ≤ (s.block p).tp.sndQ.length then
        -- the limit of the queue
        (t.tcpOutputSched lim p, rem, src)
      else if n = 0 then
        (t, rem, src)
      else
        sendFill p buf fuel t (rem - n) (src + n)

/-- One round of `tcp_send`, from `again` to the next wait. -/
def sendRound (p : Nat) (buf : Nat → UInt8) (len : Int) (nowait : Bool) :
    Int × Nat → Prog Sockets ((Int × Nat) ⊕ Int) := fun (rem, src) => do
  let s ← getState
  match s.tState p with
  | .established =>
    let (s, rem, src) := sendFill lim p buf (rem.toNat + 1) s rem src
    if rem ≠ 0 then do
      setState s
      return .inl (rem, src)
    else do
      let b := s.block p
      if 0 < len then
        if nowait ∨ (b.tp.tMaxseg : Int) ≤ b.tp.sndQ.length - b.sndOffs then
          setState (s.tcpOutputSched lim p)
        else
          setState (s.setTp p { b.tp with delack := true })
      else
        setState s
      unlock
      return .inr len
  | .synRcvd => return .inl (rem, src)
  | _ => do
    unlock
    return .inr (-1)

/-- `tcp_send` -/
def tcpSend (tp : Option Nat) (buf : Nat → UInt8) (len : Int) (nowait : Bool) :
    Prog Sockets Int :=
  match tp with
  | none => return -1
  | some p => do
    lock
    untilDone (sendRound lim p buf len nowait) (len, 0)

/-- One round of `tcp_recv`. A negative length is handed on to `memcpy`. -/
def recvRound (p : Nat) (len : Int) : Unit → Prog Sockets (Unit ⊕ Int) := fun _ => do
  let s ← getState
  let tp := (s.block p).tp
  match tp.tState with
  | .closed => do
    unlock
    return .inr (-1)
  | .timeWait | .closing | .lastAck => do
    unlock
    return .inr 0
  | _ =>
    if tp.rcvQ = [] then
      if tp.tState = .closeWait then do
        unlock
        return .inr 0
      else
        return .inl ()
    else if len < 0 then
      throw .faults
    else do
      let r := Tcp.tcpRecv tp len.toNat
      let s := s.setTp p r.1
      if tp.tState = .finWait1 ∨ tp.tState = .finWait2 ∨ r.1.rcvQ ≠ [] then
        setState s
      else
        setState (s.tcpOutputSched lim p)
      unlock
      return .inr r.2.length

/-- `tcp_recv` -/
def tcpRecv (tp : Option Nat) (len : Int) : Prog Sockets Int :=
  match tp with
  | none => return -1
  | some p =>
    if len = 0 then
      return -1
    else do
      lock
      untilDone (recvRound lim p len) ()

/-! ## Closing -/

/-- The levels of backlogs that a release goes down: there are no more listeners than blocks. -/
def release (s : Sockets) (p : Nat) : Option (Sockets × Int) :=
  s.tcpPcbFree lim (lim.activeMax + 1) p

/-- `ret = tcp_pcb_free(tp); tcpip_net_unlock(); return ret` -/
def closeFree (s : Sockets) (p : Nat) : Prog Sockets Int :=
  match s.release lim p with
  | none => throw .faults
  | some (s, ret) => do
    setState s
    unlock
    return ret

/-- `tcp_close` -/
def tcpClose (tp : Option Nat) : Prog Sockets Int :=
  match tp with
  | none => return -1
  | some p => do
    lock
    let s ← getState
    let b := s.block p
    match b.tp.tState with
    | .listen => closeFree lim s p
    | .timeWait | .closed | .synSent =>
      closeFree lim ((s.condFree p).setBlock p { b with cond := false }) p
    | .synRcvd | .established | .closeWait => do
      setState ((s.setTp p ((Tcp.tcpClose b.tp).getD b.tp)).tcpOutputSched lim p)
      unlock
      return 0
    | _ => do
      unlock
      return -1

end

end Tcp.Sockets

namespace Tcp

open Lib Lib.Prog Sockets
open Net (Addr Port)

inductive Call where
  | alloc
  | bind (tp : Option Nat) (addr : Addr) (port : Port)
  | listen (mux : Option Nat) (backlog : Int)
  | connect (tp : Option Nat) (addr : Addr) (port : Port)
  | accept (mux : Option Nat)
  | send (tp : Option Nat) (buf : Nat → UInt8) (len : Int) (nowait : Bool)
  | recv (tp : Option Nat) (len : Int)
  | close (tp : Option Nat)

def Call.prog (lim : Limits) : Call → Prog Sockets Unit
  | .alloc => done tcpAlloc
  | .bind tp addr port => done (tcpBind tp addr port)
  | .listen mux backlog => done (tcpListen mux backlog)
  | .connect tp addr port => done (Sockets.tcpConnect lim tp addr port)
  | .accept mux => done (tcpAccept mux)
  | .send tp buf len nowait => done (Sockets.tcpSend lim tp buf len nowait)
  | .recv tp len => done (Sockets.tcpRecv lim tp len)
  | .close tp => done (Sockets.tcpClose lim tp)

end Tcp
