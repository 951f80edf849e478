import Mathlib.Data.BitVec
import ThinkOS.Lib.Transition
import ThinkOS.Mbuf.Dgram
import ThinkOS.Net.Ip
import ThinkOS.Net.Pcb

/-!
# The receive queue of a UDP socket

The model of `udp_input` and `udp_recv` for one bound socket: a ring of four datagrams with 8-bit
counters, whose payloads are in lists of network buffers. A packet that the lookup gives to another
socket is not for this one.

`mbuf_list_alloc` does not do what the queue needs when it is asked for no buffer at all, or for more
than there are (`Event.Safe`).
-/

namespace Udp

open List Option Function Lib Mbuf

def NET_UDP_RECV_QUEUE_LEN : Nat := 4

/-- `struct udp_dgram` -/
structure UdpDgram where
  addr : BitVec 32
  port : BitVec 16
  len : BitVec 16
  q : Option Node

/-- `struct udp_pcb` -/
structure UdpPcb where
  uPcb : Net.Pcb
  uIcmpErr : Bool
  uRcvTail : BitVec 8
  uRcvHead : BitVec 8
  uRcvBuf : Nat → UdpDgram

/-- A socket, the buffers of the system, and the list `__udp__.active`. -/
structure Socket where
  mbufs : Mbufs
  up : UdpPcb
  active : List Net.Pcb

/-- What arrives: the length field in host order, the bytes behind the header, and the length `__len`
of the payload of the internet protocol. -/
structure Packet where
  saddr : Net.Addr
  daddr : Net.Addr
  sport : Net.Port
  dport : Net.Port
  len : BitVec 16
  chksum : BitVec 16
  payload : Mem
  ipLen : Int

variable {p : Packet}

/-- The sum that `in_chksum` starts with. -/
def Packet.sum (p : Packet) : BitVec 32 :=
  p.chksum.setWidth 32 + (Net.ntohs p.len).setWidth 32 <<< 1 + p.dport.setWidth 32 +
    p.sport.setWidth 32 + 17#32 <<< 8 + (p.saddr &&& 0xffff) + p.saddr >>> 16 +
    (p.daddr &&& 0xffff) + p.daddr >>> 16

/-- The lookup finds the socket. -/
def Packet.For (p : Packet) (s : Socket) : Prop :=
  Net.pcbWildlookup ⟨p.saddr, p.sport, p.daddr, p.dport⟩ s.active = some s.up.uPcb

/-- There is no checksum, or it is right. The length is compared as an unsigned one. -/
def Packet.SumOk (p : Packet) : Prop :=
  p.chksum ≠ 0 →
    Net.inChksum p.sum p.payload 0 (BitVec.ofInt 32 (p.len.toNat - 8)).toNat = 0x0000ffff

instance (s : Socket) : Decidable (p.For s) := inferInstanceAs (Decidable (_ = _))

instance : Decidable p.SumOk := inferInstanceAs (Decidable (_ → _))

/-- A datagram is put into the slot that `tail` names. -/
def enqueue (s : Socket) (p : Packet) (len : Int) : Option Socket := do
  let up := s.up
  let slot := up.uRcvTail.toNat % NET_UDP_RECV_QUEUE_LEN
  let (m, q) ← s.mbufs.mbufListAlloc len
  match q with
  | some _ =>
    let (m, n) := m.mbufListWrite q (p.payload.bytes 0 len.toNat)
    let dgram : UdpDgram := ⟨p.saddr, p.sport, BitVec.ofNat 16 n, q⟩
    some { s with mbufs := m, up := { up with
      uRcvBuf := Function.update up.uRcvBuf slot dgram, uRcvTail := up.uRcvTail + 1 } }
  | none =>
    let dgram := { up.uRcvBuf slot with q := none }
    some { s with mbufs := m, up := { up with uRcvBuf := Function.update up.uRcvBuf slot dgram } }

/-- `udp_input`: `none` when it does not return. -/
def udpInput (s : Socket) (p : Packet) : Option Socket :=
  let len : Int := p.len.toNat
  if len > p.ipLen then some s
  else if ¬ p.For s then some s
  else
    let len := len - 8
    if ¬ p.SumOk then some s
    else
      let cnt := (s.up.uRcvTail - s.up.uRcvHead).toNat
      if cnt ≥ NET_UDP_RECV_QUEUE_LEN then some s else enqueue s p len

/-- What `udp_recv` gives its caller. -/
inductive Reply where
  | notConn
  | connRefused
  | waits
  | dgram (addr : BitVec 32) (port : BitVec 16) (data : List UInt8)

/-- `udp_recv` with a buffer of `len` bytes, up to where it waits. -/
def udpRecv (s : Socket) (len : Nat) : Option (Socket × Reply) :=
  let up := s.up
  if up.uPcb.lport = 0 then some (s, .notConn)
  else if up.uIcmpErr then some ({ s with up := { up with uIcmpErr := false } }, .connRefused)
  else if up.uRcvHead = up.uRcvTail then some (s, .waits)
  else do
    let dgram := up.uRcvBuf (up.uRcvHead.toNat % NET_UDP_RECV_QUEUE_LEN)
    let n := min dgram.len.toNat len
    let data := s.mbufs.mbufListRead dgram.q n
    let m ← s.mbufs.mbufListFree dgram.q
    some ({ s with mbufs := m, up := { up with uRcvHead := up.uRcvHead + 1 } },
      .dgram dgram.addr dgram.port data)

/-! ## What the queue is for -/

/-- A datagram with its source. -/
structure Datagram where
  addr : BitVec 32
  port : BitVec 16
  data : List UInt8
  deriving DecidableEq

/-- What a buffer of `len` bytes gets of it. -/
def Datagram.cut (d : Datagram) (len : Nat) : Datagram :=
  { d with data := d.data.take len }

/-- The datagram in a packet. -/
def Packet.datagram (p : Packet) : Datagram :=
  ⟨p.saddr, p.sport, p.payload.bytes 0 (p.len.toNat - 8)⟩

inductive Event where
  | input (p : Packet)
  | recv (len : Nat)

/-- A socket with its past: the datagrams that were queued, and those that `udp_recv` returned, each
with the size of the buffer. -/
structure Hist where
  sock : Socket
  queued : List Datagram
  returned : List (Nat × Datagram)

/-- The datagrams in the ring. -/
def Hist.waiting (h : Hist) : Nat := (h.sock.up.uRcvTail - h.sock.up.uRcvHead).toNat

/-- One call. A datagram is queued when `udp_input` moves the tail. -/
def Hist.step (h : Hist) : Event → Option Hist
  | .input p => (udpInput h.sock p).map fun s =>
    { h with
      sock := s
      queued := if s.up.uRcvTail = h.sock.up.uRcvTail then h.queued else h.queued ++ [p.datagram] }
  | .recv len => (udpRecv h.sock len).map fun r =>
    { h with
      sock := r.1
      returned := match r.2 with
        | .dgram addr port data => h.returned ++ [(len, ⟨addr, port, data⟩)]
        | _ => h.returned }

def system : System Hist Event where
  step := Hist.step

/-- The packet is for the socket and in order, and there is a free slot. -/
def Packet.Taken (p : Packet) (h : Hist) : Prop :=
  p.For h.sock ∧ p.SumOk ∧ (p.len.toNat : Int) ≤ p.ipLen ∧ h.waiting < NET_UDP_RECV_QUEUE_LEN

/-- A packet that reaches `mbuf_list_alloc` has a payload, and there are buffers for it. -/
def Event.Safe (h : Hist) : Event → Prop
  | .input p => p.Taken h →
    8 < p.len.toNat ∧ (p.len.toNat - 8 + 123) / 124 ≤ h.sock.mbufs.max - h.sock.mbufs.used
  | .recv _ => True

/-! ## The ring in order -/

/-- The slot `i` holds the datagram `g`, in buffers that are with the holder of this number. -/
structure SlotHolds (m : Mbufs) (cells : Place → List Nat) (i : Nat) (d : UdpDgram) (g : Datagram) :
    Prop where
  chain : Follows m.next d.q (cells (.caller i))
  addr : d.addr = g.addr
  port : d.port = g.port
  len : d.len.toNat = g.data.length
  room : g.data.length ≤ 124 * (cells (.caller i)).length
  data : (m.bytes (cells (.caller i))).take g.data.length = g.data

/-- The slot of the datagram at place `j` of the ring. -/
def UdpPcb.slot (up : UdpPcb) (j : Nat) : Nat := (up.uRcvHead.toNat + j) % 4

/-- The ring holds the datagrams `wait`, and the free slots hold nothing. -/
structure Ring (n : Nat) (s : Socket) (wait : List Datagram) (last : Nat → Option Node)
    (cells : Place → List Nat) : Prop where
  sound : Sound n s.mbufs last cells
  locked : s.mbufs.locked = false
  bound : s.up.uPcb.lport ≠ 0
  noErr : s.up.uIcmpErr = false
  count : s.up.uRcvTail = s.up.uRcvHead + BitVec.ofNat 8 wait.length
  size : wait.length ≤ 4
  slots : ∀ j g, wait[j]? = some g →
    SlotHolds s.mbufs cells (s.up.slot j) (s.up.uRcvBuf (s.up.slot j)) g
  empty : ∀ i, i < 4 → (∀ j < wait.length, s.up.slot j ≠ i) → cells (.caller i) = []

section
variable {n i : Nat} {m m' : Mbufs} {s : Socket} {wait : List Datagram} {last : Nat → Option Node}
  {cells cells' : Place → List Nat} {d : UdpDgram} {g : Datagram} {up : UdpPcb}

theorem UdpPcb.slot_lt (up : UdpPcb) (j : Nat) : up.slot j < 4 := Nat.mod_lt _ (by decide)

theorem UdpPcb.slot_inj {j k : Nat} (hj : j < 4) (hk : k < 4) (h : up.slot j = up.slot k) : j = k := by
  rw [UdpPcb.slot, UdpPcb.slot] at h
  omega

/-- A slot is left alone by what changes only other buffers. -/
theorem SlotHolds.congr (h : SlotHolds m cells i d g) (hcells : cells' (.caller i) = cells (.caller i))
    (hnext : ∀ b ∈ cells (.caller i), m'.next (.buf b) = m.next (.buf b))
    (hdata : ∀ b ∈ cells (.caller i), m'.data (.buf b) = m.data (.buf b)) :
    SlotHolds m' cells' i d g where
  chain := by
    rw [hcells]
    exact h.chain.congr hnext
  addr := h.addr
  port := h.port
  len := h.len
  room := by
    rw [hcells]
    exact h.room
  data := by
    rw [hcells, Mbufs.bytes_congr hdata]
    exact h.data

theorem Ring.waiting (h : Ring n s wait last cells) :
    (s.up.uRcvTail - s.up.uRcvHead).toNat = wait.length := by
  have hsize := h.size
  rw [h.count, add_sub_cancel_left, BitVec.toNat_ofNat, Nat.mod_eq_of_lt (by omega)]

/-- The slot that `tail` names is the one behind the last datagram. -/
theorem Ring.tail_slot (h : Ring n s wait last cells) :
    s.up.uRcvTail.toNat % NET_UDP_RECV_QUEUE_LEN = s.up.slot wait.length := by
  rw [h.count, BitVec.toNat_add, BitVec.toNat_ofNat, UdpPcb.slot, NET_UDP_RECV_QUEUE_LEN]
  omega

theorem Ring.head_slot : s.up.uRcvHead.toNat % NET_UDP_RECV_QUEUE_LEN = s.up.slot 0 := rfl

/-- A datagram in buffers `a` that were free goes to the end of the ring. -/
theorem Ring.put {a b : List Nat} (h : Ring n s wait last cells) (hsize : wait.length < 4)
    (hsplit : cells .free = a ++ b)
    (hsound : Sound n m last (moveAll cells .free (.caller (s.up.slot wait.length)) a))
    (hlocked : m.locked = false) (hchain : Follows m.next d.q a)
    (hnext : ∀ c, c ∉ Node.first .free :: a.map Node.buf → m.next c = s.mbufs.next c)
    (hdata : ∀ c, c ∉ a → m.data (.buf c) = s.mbufs.data (.buf c)) (haddr : d.addr = g.addr)
    (hport : d.port = g.port) (hlen : d.len.toNat = g.data.length)
    (hroom : g.data.length ≤ 124 * a.length) (hbytes : (m.bytes a).take g.data.length = g.data) :
    Ring n { s with mbufs := m, up := { s.up with
      uRcvBuf := update s.up.uRcvBuf (s.up.slot wait.length) d
      uRcvTail := s.up.uRcvTail + 1 } } (wait ++ [g]) last
        (moveAll cells .free (.caller (s.up.slot wait.length)) a) := by
  set slot := s.up.slot wait.length with hslot
  have hother {i : Nat} (hi : i ≠ slot) :
      moveAll cells .free (.caller slot) a (.caller i) = cells (.caller i) :=
    moveAll_of_ne Sum.inr_ne_inl (fun he => hi (Holder.caller.inj (Sum.inr.inj he)))
  have hfresh : ∀ j < wait.length, s.up.slot j ≠ slot := by
    intro j hj he
    have := UdpPcb.slot_inj (by omega) hsize he
    omega
  have hown : moveAll cells .free (.caller slot) a (.caller slot) = a := by
    rw [moveAll_to, h.empty slot (s.up.slot_lt _) hfresh, nil_append]
  -- a buffer of another slot is not among the new ones
  have hapart {i c : Nat} (hc : c ∈ cells (.caller i)) : c ∉ a := by
    intro hca
    have hfree : c ∈ cells .free := by
      rw [hsplit]
      exact mem_append_left b hca
    exact Sum.inr_ne_inl (h.sound.lists.shares.unique hc hfree)
  refine ⟨hsound, hlocked, h.bound, h.noErr, ?_, ?_, ?_, ?_⟩
  · show s.up.uRcvTail + 1 = s.up.uRcvHead + BitVec.ofNat 8 (wait ++ [g]).length
    rw [h.count, length_append, length_singleton, BitVec.ofNat_add, add_assoc]
    rfl
  · rw [length_append, length_singleton]
    omega
  · intro j g' hj
    show SlotHolds m _ (s.up.slot j) (update s.up.uRcvBuf slot d (s.up.slot j)) g'
    rcases Nat.lt_or_ge j wait.length with hlt | hge
    · rw [List.getElem?_append_left hlt] at hj
      rw [update_of_ne (hfresh j hlt)]
      refine (h.slots j g' hj).congr (hother (hfresh j hlt)) (fun c hc => hnext _ ?_) fun c hc =>
        hdata c (hapart hc)
      rw [mem_cons, not_or]
      refine ⟨nofun, fun hmem => ?_⟩
      obtain ⟨c', hc', he⟩ := List.mem_map.mp hmem
      cases he
      exact hapart hc hc'
    · rw [List.getElem?_append_right hge] at hj
      have hj' : j = wait.length := by
        have := (List.getElem?_eq_some_iff.mp hj).1
        rw [length_singleton] at this
        omega
      subst hj'
      rw [Nat.sub_self] at hj
      cases hj
      rw [← hslot, update_self]
      refine ⟨?_, haddr, hport, hlen, ?_, ?_⟩
      · rw [hown]
        exact hchain
      · rw [hown]
        exact hroom
      · rw [hown]
        exact hbytes
  · intro i hi hnone
    have hne : i ≠ slot := fun he => hnone wait.length
      (by rw [length_append, length_singleton]; omega) he.symm
    rw [hother hne]
    exact h.empty i hi fun j hj => hnone j (by rw [length_append]; omega)

theorem Ring.enqueue (h : Ring n s wait last cells) (hsize : wait.length < 4)
    (hlen : 8 < p.len.toNat) (hroom : (p.len.toNat - 8 + 123) / 124 ≤ s.mbufs.max - s.mbufs.used) :
    ∃ s' cells', Udp.enqueue s p (p.len.toNat - 8) = some s' ∧
      Ring n s' (wait ++ [p.datagram]) last cells' ∧ s'.up.uRcvTail = s.up.uRcvTail + 1 := by
  have hused := h.sound.used
  have hmax := h.sound.max
  obtain ⟨l, hl⟩ : ∃ l, l = p.len.toNat - 8 := ⟨_, rfl⟩
  have hint : (p.len.toNat : Int) - 8 = (l : Int) := by omega
  rw [← hl] at hroom
  obtain ⟨k, hk⟩ : ∃ k, k = (l + 123) / 124 := ⟨_, rfl⟩
  obtain ⟨a, ha⟩ : ∃ a, a = (cells .free).take k := ⟨_, rfl⟩
  have halen : a.length = k := by
    rw [ha, length_take, Nat.min_eq_left (by omega)]
  have hsplit : cells .free = a ++ (cells .free).drop k := by
    rw [ha, take_append_drop]
  have hnodup : a.Nodup := (nodup_append.mp (hsplit ▸ h.sound.lists.shares.nodup Place.free)).1
  obtain ⟨x, r, rfl⟩ : ∃ x r, a = x :: r := exists_cons_of_length_pos (by omega)
  obtain ⟨m, hrun, hlocked, hfollows, hsound, hdata, hframe⟩ :=
    h.sound.listTake h.locked hsplit (cons_ne_nil x r) (.caller (s.up.slot wait.length))
  have hsrc : (p.payload.bytes 0 l).length = l := Mem.length_bytes ..
  obtain ⟨data, hwrite, hkeep, hbytes⟩ := mbufListWrite_eq hfollows hnodup
    (by omega : (p.payload.bytes 0 l).length ≤ 124 * (x :: r).length)
  have hdgram : p.datagram = ⟨p.saddr, p.sport, p.payload.bytes 0 l⟩ := by
    rw [Packet.datagram, hl]
  refine ⟨_, _, ?_, h.put hsize hsplit (m := { m with data })
    (d := ⟨p.saddr, p.sport, BitVec.ofNat 16 l, some (.buf x)⟩) { hsound with } hlocked hfollows
    hframe (fun c hc => ?_) ?_ ?_ ?_ ?_ ?_, rfl⟩
  · have hcount : Mbufs.listCount l = ((x :: r).length : Int) := by
      rw [listCount_eq (by omega), halen, hk]
    rw [Udp.enqueue, hint, Mbufs.mbufListAlloc, hcount, hrun]
    simp only [head?_cons, map_some, bind_eq_bind, bind_some, Int.toNat_natCast, h.tail_slot]
    have hwrite' : m.mbufListWrite (some (.buf x)) (p.payload.bytes 0 l) = ({ m with data }, l) := by
      rw [hsrc] at hwrite
      exact hwrite
    rw [hwrite']
  · rw [← hdata]
    exact hkeep c hc
  · rw [hdgram]
  · rw [hdgram]
  · rw [hdgram]
    rw [hsrc, BitVec.toNat_ofNat, Nat.mod_eq_of_lt (by omega)]
  · rw [hdgram]
    show (p.payload.bytes 0 l).length ≤ _
    omega
  · rw [hdgram]
    exact hbytes

theorem slot_succ {j : Nat} :
    ({ up with uRcvHead := up.uRcvHead + 1 } : UdpPcb).slot j = up.slot (j + 1) := by
  have hhead : (up.uRcvHead + 1).toNat = (up.uRcvHead.toNat + 1) % 256 := BitVec.toNat_add ..
  rw [UdpPcb.slot, UdpPcb.slot, hhead]
  omega

theorem Ring.dequeue (h : Ring n s (g :: wait) last cells) {len : Nat} :
    ∃ s' cells', udpRecv s len = some (s', .dgram g.addr g.port (g.data.take len)) ∧
      Ring n s' wait last cells' := by
  have hsize := h.size
  rw [length_cons] at hsize
  have hslot := h.slots 0 g rfl
  set slot := s.up.slot 0 with hdef
  have hne : s.up.uRcvHead ≠ s.up.uRcvTail := by
    intro he
    have hwait := h.waiting
    rw [← he, sub_self, length_cons] at hwait
    exact Nat.succ_ne_zero _ hwait.symm
  obtain ⟨m, hrun, hlocked, hsound, hdata, hframe⟩ := h.sound.mbufListFree h.locked hslot.chain
    (fun _ hi => hi) (h.sound.lists.shares.nodup _)
  set cells' := moveAll cells (.caller slot) .free (cells (.caller slot))
  have hother {i : Nat} (hi : i ≠ slot) : cells' (.caller i) = cells (.caller i) :=
    moveAll_of_ne (fun he => hi (Holder.caller.inj (Sum.inr.inj he))) Sum.inr_ne_inl
  have hread : s.mbufs.mbufListRead (s.up.uRcvBuf slot).q (min (s.up.uRcvBuf slot).len.toNat len) =
      g.data.take len := by
    have hroom := hslot.room
    rw [hslot.len, mbufListRead_eq hslot.chain (by omega), Nat.min_comm, ← take_take, hslot.data]
  have hlater : ∀ j < wait.length, s.up.slot (j + 1) ≠ slot := by
    intro j hj he
    have := UdpPcb.slot_inj (by omega) (by omega) he
    omega
  refine ⟨{ s with mbufs := m, up := { s.up with uRcvHead := s.up.uRcvHead + 1 } }, cells', ?_, hsound, hlocked,
    h.bound, h.noErr, ?_, by omega, ?_, ?_⟩
  · simp only [udpRecv, if_neg h.bound, h.noErr, Bool.false_eq_true, if_false, if_neg hne,
      Ring.head_slot, ← hdef, hread, hrun, bind_eq_bind, bind_some, hslot.addr,
      hslot.port]
  · show s.up.uRcvTail = s.up.uRcvHead + 1 + BitVec.ofNat 8 wait.length
    rw [h.count, length_cons, Nat.add_comm, BitVec.ofNat_add, add_assoc]
    rfl
  · intro j g' hj
    have hlt := (List.getElem?_eq_some_iff.mp hj).1
    rw [slot_succ]
    exact (h.slots (j + 1) g' hj).congr (hother (hlater j hlt))
      (fun c hc => hframe c _ hc fun hc' => hlater j hlt
        (Holder.caller.inj (Sum.inr.inj (h.sound.lists.shares.unique hc hc'))))
      fun c _ => by rw [hdata]
  · intro i hi hnone
    rcases eq_or_ne i slot with rfl | hne'
    · exact moveAll_from Sum.inr_ne_inl (append_nil _).symm
    · rw [hother hne']
      refine h.empty i hi fun j hj he => ?_
      obtain _ | j := j
      · exact hne' he.symm
      · rw [length_cons] at hj
        refine hnone j (by omega) ?_
        rw [slot_succ]
        exact he

end

/-! ## Whole runs -/

/-- The socket has just been bound, with any values of its counters: the ring is empty. -/
def Fresh (n : Nat) (h : Hist) : Prop :=
  h.queued = [] ∧ h.returned = [] ∧ ∃ last cells, Ring n h.sock [] last cells

/-- What was queued was returned in this order, or waits. -/
def Kept (n : Nat) (h : Hist) : Prop :=
  ∃ done wait last cells, Ring n h.sock wait last cells ∧ h.queued = done ++ wait ∧
    done.length = h.returned.length ∧
    h.returned.map Prod.snd = List.zipWith Datagram.cut done (h.returned.map Prod.fst)

section
variable {n : Nat} {h h0 : Hist}

theorem Fresh.kept (hstart : Fresh n h) : Kept n h := by
  obtain ⟨hq, hr, last, cells, hring⟩ := hstart
  exact ⟨[], [], last, cells, hring, hq, by rw [hr]; rfl, by rw [hr]; rfl⟩

theorem udpInput_of_not_taken (hnot : ¬p.Taken h) : udpInput h.sock p = some h.sock := by
  simp only [udpInput]
  split_ifs with h1 h2 h3 h4
  · rfl
  · rfl
  · exact absurd ⟨h2, h3, by omega, by rw [Hist.waiting]; omega⟩ hnot
  · rfl
  · rfl

theorem udpInput_of_taken (htaken : p.Taken h) :
    udpInput h.sock p = enqueue h.sock p (p.len.toNat - 8) := by
  obtain ⟨hfound, hsum, hlen, hwait⟩ := htaken
  rw [Hist.waiting] at hwait
  simp only [udpInput]
  rw [if_neg (by omega), if_neg (not_not.mpr hfound), if_neg (not_not.mpr hsum), if_neg (by omega)]

theorem Kept.input (hk : Kept n h) (p : Packet) (hsafe : (Event.input p).Safe h) :
    ∃ h', h.step (.input p) = some h' ∧ Kept n h' ∧
      (p.Taken h → h'.queued = h.queued ++ [p.datagram] ∧ h'.returned = h.returned) ∧
      (¬p.Taken h → h' = h) := by
  by_cases htaken : p.Taken h
  · obtain ⟨hlen, hroom⟩ := hsafe htaken
    obtain ⟨done, wait, last, cells, hring, hq, hdone, hret⟩ := hk
    have hwait : wait.length < 4 := by
      rw [← hring.waiting]
      exact htaken.2.2.2
    obtain ⟨s', cells', hrun, hring', htail⟩ := hring.enqueue hwait hlen hroom
    have hmoved : s'.up.uRcvTail ≠ h.sock.up.uRcvTail := by
      rw [htail]
      intro he
      exact absurd (add_eq_left.mp he) (by decide)
    refine ⟨{ h with sock := s', queued := h.queued ++ [p.datagram] }, ?_,
      ⟨done, wait ++ [p.datagram], last, cells', hring', ?_, hdone, hret⟩, fun _ => ⟨rfl, rfl⟩,
      fun hnot => absurd htaken hnot⟩
    · rw [Hist.step, udpInput_of_taken htaken, hrun, map_some, if_neg hmoved]
    · show h.queued ++ [p.datagram] = _
      rw [hq, append_assoc]
  · refine ⟨h, ?_, hk, fun ht => absurd ht htaken, fun _ => rfl⟩
    rw [Hist.step, udpInput_of_not_taken htaken, map_some, if_pos rfl]

/-- `udp_recv` waits, or takes the first datagram that was not returned yet. -/
theorem Kept.recv (hk : Kept n h) (len : Nat) :
    ∃ h', h.step (.recv len) = some h' ∧ Kept n h' ∧ (h.waiting = 0 → h' = h) ∧
      (0 < h.waiting → h'.queued = h.queued ∧ ∃ d, h.queued[h.returned.length]? = some d ∧
        h'.returned = h.returned ++ [(len, d.cut len)]) := by
  obtain ⟨done, wait, last, cells, hring, hq, hdone, hret⟩ := hk
  have hwait : h.waiting = wait.length := hring.waiting
  cases wait with
  | nil =>
    have heq : h.sock.up.uRcvHead = h.sock.up.uRcvTail := by
      rw [hring.count]
      exact (add_zero _).symm
    refine ⟨h, ?_, ⟨done, [], last, cells, hring, hq, hdone, hret⟩, fun _ => rfl, fun hpos => ?_⟩
    · simp only [Hist.step, udpRecv, if_neg hring.bound, hring.noErr, Bool.false_eq_true, if_false,
        if_pos heq, map_some]
    · rw [hwait] at hpos
      exact absurd hpos (Nat.lt_irrefl 0)
  | cons d wait =>
    obtain ⟨s', cells', hrun, hring'⟩ := hring.dequeue
    refine ⟨{ h with sock := s', returned := h.returned ++ [(len, d.cut len)] }, ?_,
      ⟨done ++ [d], wait, last, cells', hring', ?_, ?_, ?_⟩, fun hzero => ?_, fun _ => ⟨rfl, d, ?_, rfl⟩⟩
    · rw [Hist.step, hrun]
      rfl
    · show h.queued = _
      rw [hq, append_assoc]
      rfl
    · rw [length_append, length_append, hdone]
      rfl
    · rw [map_append, map_append, hret, zipWith_append (by rw [length_map, hdone])]
      rfl
    · rw [hwait] at hzero
      cases hzero
    · rw [hq, ← hdone, getElem?_append_right le_rfl, Nat.sub_self]
      rfl

theorem Kept.step (hk : Kept n h) {ev : Event} {h' : Hist} (hsafe : ev.Safe h)
    (hstep : h.step ev = some h') : Kept n h' := by
  cases ev with
  | input p =>
    obtain ⟨h1, hrun, hk', -⟩ := hk.input p hsafe
    cases hrun.symm.trans hstep
    exact hk'
  | recv len =>
    obtain ⟨h1, hrun, hk', -⟩ := hk.recv len
    cases hrun.symm.trans hstep
    exact hk'

end

/-! ## Runs of two buffers -/

/-- A bound socket with an empty ring, over a pool of two buffers. -/
def smallSocket : Hist where
  sock :=
    { mbufs := Mbufs.mbufInit 2
      up := ⟨⟨0, 0, 0, 7⟩, false, 254, 254, fun _ => ⟨0, 0, 0, none⟩⟩
      active := [⟨0, 0, 0, 7⟩] }
  queued := []
  returned := []

/-- A packet from port 9 with so many bytes of the value `b`. -/
def packetOf (len : BitVec 16) (b : UInt8) : Packet where
  saddr := 0x0200000a
  daddr := 0x0100000a
  sport := 9
  dport := 7
  len := len
  chksum := 0
  payload := fun _ => b
  ipLen := 1000

theorem fresh_smallSocket : Fresh 2 smallSocket :=
  ⟨rfl, rfl, fun q => some (.first (.queue q)), allFree 2, sound_init (by decide), rfl, by decide, rfl,
    rfl, by decide, nofun, fun _ _ _ => rfl⟩

instance (p : Packet) (h : Hist) : Decidable (p.Taken h) := inferInstanceAs (Decidable (_ ∧ _))

instance (h : Hist) (ev : Event) : Decidable (ev.Safe h) :=
  match ev with
  | .input _ => inferInstanceAs (Decidable (_ → _))
  | .recv _ => inferInstanceAs (Decidable True)

end Udp
