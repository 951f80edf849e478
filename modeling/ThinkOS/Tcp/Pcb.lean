import Mathlib.Tactic.Ring

/-!
# The control block of a connection

The model of `struct tcp_pcb` and of a received segment. The two queues of bytes are lists; what
`mbuf_queue_add` can take depends on the buffer pool, and is a parameter of the functions that call
it. The timers are left out: a timeout may come at any time.
-/

namespace Tcp

/-- The states `TCPS_CLOSED` to `TCPS_TIME_WAIT`. -/
inductive TcpState where
  | closed
  | listen
  | synSent
  | synRcvd
  | established
  | closeWait
  | finWait1
  | closing
  | lastAck
  | finWait2
  | timeWait
  deriving DecidableEq, Repr

/-- The numbers of the states, which the code compares. -/
def TcpState.num : TcpState → Nat
  | .closed => 0
  | .listen => 1
  | .synSent => 2
  | .synRcvd => 3
  | .established => 4
  | .closeWait => 5
  | .finWait1 => 6
  | .closing => 7
  | .lastAck => 8
  | .finWait2 => 9
  | .timeWait => 10

/-- `TCPS_HAVERCVDFIN` -/
def TcpState.haveRcvdFin (s : TcpState) : Bool :=
  TcpState.timeWait.num ≤ s.num

/-- `SEQ_LT` -/
def seqLt (a b : BitVec 32) : Bool := (a - b).toInt < 0

/-- `SEQ_LEQ` -/
def seqLeq (a b : BitVec 32) : Bool := (a - b).toInt ≤ 0

/-- `SEQ_GT` -/
def seqGt (a b : BitVec 32) : Bool := (a - b).toInt > 0

structure Flags where
  fin : Bool := false
  syn : Bool := false
  rst : Bool := false
  psh : Bool := false
  ack : Bool := false
  urg : Bool := false
  deriving DecidableEq, Repr

/-- A received segment, with its fields in host order. -/
structure Seg where
  seq : BitVec 32
  ack : BitVec 32
  flags : Flags
  win : BitVec 16
  /-- the values of its maximum segment size options -/
  mss : List Nat
  data : List UInt8
  /-- a segment is within a packet of the internet protocol -/
  data_lt : data.length < 65536

theorem nil_lt : ([] : List UInt8).length < 65536 := by decide

/-- The limits that are fixed when the stack is built, and the size of a packet of the interface. -/
structure Config where
  maxrcv : Nat
  maxsnd : Nat
  maxwin : Nat
  mtu : Nat
  maxrcv_lt : maxrcv < 65536
  /-- `snd_q.len + 1` fits into 16 bits -/
  maxsnd_lt : maxsnd < 65535

/-- The limits of `tcp.c`, on an interface for packets of 1500 bytes. -/
def stdConfig : Config where
  maxrcv := 2920
  maxsnd := 2920
  maxwin := 2920
  mtu := 1500
  maxrcv_lt := by decide
  maxsnd_lt := by decide

/-- `struct tcp_pcb` -/
structure Pcb where
  tState : TcpState
  /-- `TF_ACKNOW` -/
  acknow : Bool
  /-- `TF_DELACK` -/
  delack : Bool
  /-- `TF_SENTFIN` -/
  sentfin : Bool
  tMaxseg : Nat
  sndSeq : BitVec 32
  sndOff : BitVec 16
  sndMax : BitVec 16
  sndWnd : BitVec 16
  rcvAdvWnd : BitVec 16
  rcvNxt : BitVec 32
  rcvQ : List UInt8
  sndQ : List UInt8
  /-- history: the bytes ever appended to `rcv_q` -/
  rcvd : List UInt8
  /-- history: how often `rcv_nxt` was advanced over a FIN -/
  fins : Nat
  /-- history: how far `snd_seq` has come from the initial sequence number -/
  base : Nat
  /-- history: how many sequence numbers, from the initial one on, were ever sent -/
  top : Nat
  /-- history: an update of `snd_off` or `snd_max` left the range of its 16 bits -/
  wrapped : Bool

namespace Pcb

/-- `snd_nxt` of the functions that compute it: `tp->snd_seq + tp->snd_off`. -/
def sndNxt (tp : Pcb) : BitVec 32 := tp.sndSeq + tp.sndOff.setWidth 32

/-- The local `snd_max` of these functions: `tp->snd_seq + tp->snd_max`. -/
def sndTop (tp : Pcb) : BitVec 32 := tp.sndSeq + tp.sndMax.setWidth 32

/-- `tp->snd_seq = una; tp->snd_off = nxt - tp->snd_seq; tp->snd_max = max - tp->snd_seq` -/
def setSnd (tp : Pcb) (una nxt max : BitVec 32) : Pcb :=
  { tp with
    sndSeq := una
    base := tp.base + (una - tp.sndSeq).toNat
    sndOff := (nxt - una).setWidth 16
    sndMax := (max - una).setWidth 16
    wrapped := tp.wrapped || decide (65536 ≤ (nxt - una).toNat) ||
      decide (65536 ≤ (max - una).toNat) }

/-- `tp->snd_off -= n; tp->snd_max -= n` -/
def subSnd (tp : Pcb) (n : Nat) : Pcb :=
  { tp with
    sndOff := tp.sndOff - BitVec.ofNat 16 n
    sndMax := tp.sndMax - BitVec.ofNat 16 n
    wrapped := tp.wrapped || decide (tp.sndOff.toNat < n) || decide (tp.sndMax.toNat < n) }

/-- `mbuf_queue_add` to `rcv_q` with `room` bytes for it, and `rcv_nxt` goes on. -/
def append (tp : Pcb) (data : List UInt8) (room : Nat) : Pcb :=
  { tp with
    rcvQ := tp.rcvQ ++ data.take room
    rcvd := tp.rcvd ++ data.take room
    rcvNxt := tp.rcvNxt + BitVec.ofNat 32 (data.take room).length }

/-- `mbuf_queue_free` of both queues -/
def freeQueues (tp : Pcb) : Pcb :=
  { tp with rcvQ := [], sndQ := [] }

end Pcb

end Tcp
