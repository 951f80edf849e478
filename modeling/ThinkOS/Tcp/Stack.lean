import ThinkOS.Tcp.Calls

/-!
# The stack at work

What the network and the timers do to the sockets: `tcp_input` from the lookup of the block on,
`tcp_passive_open`, the three timers and the loop of `tcp_tmr_task` over the blocks that wait for
output. With the calls these are the events of the stack, each under the mutex of the network; a call
that waits has done what it does up to there.
-/

namespace Tcp.Sockets

open Lib Lib.Prog

/-! ## Segments -/

/-- The block of a connection that the peer has asked for. -/
def opened (lim : Limits) (s : Sockets) (p : Nat) (q : Net.Pcb) (seg : Seg) : Sockets :=
  let mss := match s.routeLookup q.faddr with
    | none => lim.defmss
    | some rt => rt.mtu - 40
  let iss := s.iss + 1
  let tp := tcpPassiveOpen (min mss lim.maxmss) (iss.setWidth 32 <<< 20) seg
  ({ s with iss }).setBlock p { s.block p with inp := q, tp, cond := true }

/-- A block is put into the backlog, and the semaphore is posted. -/
def waitFor (s : Sockets) (mux p newHead : Nat) : Sockets :=
  let b := s.block mux
  s.setBlock mux
    { b with backlog := Function.update b.backlog b.head (some p), head := newHead, sem := b.sem + 1 }

section
variable (lim : Limits) (s : Sockets)

/-- `tcp_passive_open`, with the output scheduled for the block that it makes. -/
def passiveOpen (mux : Nat) (q : Net.Pcb) (seg : Seg) : Sockets :=
  let b := s.block mux
  let newHead := if b.head + 1 = b.max then 0 else b.head + 1
  if b.tail = newHead ∨ s.conds = 0 then
    s
  else
    match ({ s with conds := s.conds - 1 }).tcpPcbNew .active with
    -- the condition variable is lost
    | none => { s with conds := s.conds - 1 }
    | some (s, p) => ((s.opened lim p q seg).waitFor mux p newHead).tcpOutputSched lim p

/-- `tcp_input` for a segment with the addresses `q`, for which output is called for or not. -/
def tcpSegment (q : Net.Pcb) (seg : Seg) (output : Bool) :
    Option Sockets :=
  match s.pcbLookup q .active with
  | none =>
    match s.pcbWildlookup q .listen with
    | none => some s
    | some mux =>
      if seg.flags.ack ∨ seg.data ≠ [] ∨ ¬ seg.flags.syn ∨ seg.flags.rst then some s
      else some (s.passiveOpen lim mux q seg)
  | some p =>
    match tcpInput true lim.toConfig (s.block p).tp seg s.room with
    | none => (s.release lim p).map Prod.fst
    | some tp =>
      let s := s.setTp p tp
      let s := if tp.tState = .closed then (s.pcbMove p .active .closed).1 else s
      some (if output then s.tcpOutputSched lim p else s)

/-! ## Timers -/

/-- The establishment of a connection has taken too long, or its peer does not answer any more. -/
def giveUp (p : Nat) : Sockets :=
  let s := s.setTp p { (s.block p).tp.freeQueues with tState := .closed }
  (s.pcbMove p .active .closed).1.tcpOutputSched lim p

/-- `tcp_idle_tmr` for a block whose timer has run down; `lost` when the last probe had no answer. -/
def idleFire (p : Nat) (lost : Bool) : Option Sockets :=
  match s.tState p with
  | .synSent | .synRcvd => some (s.giveUp lim p)
  | .established => if lost then some (s.giveUp lim p) else some s
  | .finWait2 => some (s.setTp p { (s.block p).tp with tState := .timeWait })
  | .timeWait => (s.release lim p).map Prod.fst
  | _ => some s

end

/-- `tcp_fast_tmr` and `tcp_rxmt_tmr`: some of the active blocks are put down for output. -/
def timerLoop (lim : Limits) (change : Pcb → Option Pcb) : List Nat → Sockets → Sockets
  | [], s => s
  | p :: ps, s =>
    match change (s.block p).tp with
    | none => timerLoop lim change ps s
    | some tp => timerLoop lim change ps ((s.setTp p tp).tcpOutputSched lim p)

/-- The output of the block in a slot of the ring is done. -/
def outputDone (s : Sockets) (i p : Nat) (tp : Pcb) : Sockets :=
  let out := { s.out with tp := Function.update s.out.tp i none }
  ({ s with out }).setBlock p { s.block p with tp, needOutput := false }

/-- The loop of `tcp_tmr_task` over the output ring from `tail` on. Each answer is that of one
`tcp_output`: those of the interface, and whether it is to be called again. -/
def outputLoop (lim : Limits) :
    Nat → Sockets → BitVec 16 → List (List Bool × Bool) → Option Sockets
  | 0, s, tail, _ => some { s with out := { s.out with tail } }
  | n + 1, s, tail, answers =>
    let i := tail.toNat % lim.activeMax
    match s.out.tp i with
    | none => outputLoop lim n s (tail + 1) answers
    | some p =>
      let b := s.block p
      if ¬ b.needOutput then
        outputLoop lim n s (tail + 1) answers
      else
        match answers with
        | [] => some { s with out := { s.out with tail } }
        | (net, again) :: answers =>
          let tp := tcpOutput lim.toConfig b.tp net
          if again then
            some (({ s with out := { s.out with tail } }).setTp p tp)
          else
            let s := s.outputDone i p tp
            if ¬ lim.timewait ∧ tp.tState = .timeWait then
              (s.release lim p).bind fun (s, _) => outputLoop lim n s (tail + 1) answers
            else
              outputLoop lim n s (tail + 1) answers

end Tcp.Sockets

namespace Tcp

open Lib Lib.Prog

inductive StackEvent where
  | call (c : Call)
  /-- a thread that waits in `tcp_connect` for this block goes on -/
  | wake (p : Nat)
  | segment (q : Net.Pcb) (seg : Seg) (output : Bool)
  /-- `tcp_idle_tmr` at one of the blocks, the next of which it has at hand before -/
  | idle (p : Nat) (lost : Bool)
  /-- `tcp_fast_tmr` -/
  | fast
  /-- `tcp_rxmt_tmr` for the blocks whose timer has run down -/
  | rxmt (fires : Pcb → Bool)
  | output (answers : List (List Bool × Bool))
  /-- others take or give back kernel objects, buffers and routes -/
  | others (conds sems room : Nat) (routeLookup : Net.Addr → Option Via)

/-- The state when a program has run alone, up to its end or to where it waits; none when it goes on for
ever or does what is undefined. -/
def runAlone (x : Prog Sockets Unit) (owned : Bool) (s : Sockets) : Option Sockets :=
  match x ⟨s, owned, false, if owned then [] else [id]⟩ with
  | (.error .spins, _) => none
  | (.error .faults, _) => none
  | (_, m) => some m.state

def Sockets.step (lim : Limits) (s : Sockets) : StackEvent → Option Sockets
  | .call c => runAlone (c.prog lim) false s
  | .wake p => runAlone (done (Sockets.connectRound p ())) true s
  | .segment q seg output => s.tcpSegment lim q seg output
  | .idle p lost => s.idleFire lim p lost
  | .fast =>
    let change := fun tp : Pcb => if tp.delack then some { tp with delack := false, acknow := true } else none
    some (Sockets.timerLoop lim change (s.lists .active) s)
  | .rxmt fires =>
    let change := fun tp => if fires tp then some (tcpRxmtTmr tp) else none
    some (Sockets.timerLoop lim change (s.lists .active) s)
  | .output answers =>
    Sockets.outputLoop lim (s.out.head - s.out.tail).toNat s s.out.tail answers
  | .others conds sems room routeLookup => some { s with conds, sems, room, routeLookup }

def stack (lim : Limits) : System Sockets StackEvent where
  step := Sockets.step lim

end Tcp
