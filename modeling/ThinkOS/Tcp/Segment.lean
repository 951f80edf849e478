import ThinkOS.Net.Ip
import ThinkOS.Tcp.Window

/-!
# The packets of a connection

The part of `tcp_output` and `tcp_respond` that writes a packet, and the test of the checksum at the
beginning of `tcp_input`. The sender adds the addresses of the pseudo header as numbers, the receiver
reads them from the header of the packet. Every segment that a connection emits passes the test.
-/

namespace Tcp

open Lib Net BitVec List Mem Option

def IPPROTO_TCP : BitVec 8 := 6

/-- The fields of `struct tcphdr` that are filled in, as they lie in the memory. -/
structure Tcphdr where
  thSport : BitVec 16
  thDport : BitVec 16
  thSeq : BitVec 32
  thAck : BitVec 32
  thOff : BitVec 4
  thFlags : BitVec 8
  thWin : BitVec 16

/-- The header is filled in at `th`; the checksum and the urgent pointer are zero. -/
def fillTcphdr (m : Mem) (th : Nat) (h : Tcphdr) : Mem :=
  let m := m.store16 th h.thSport
  let m := m.store16 (th + 2) h.thDport
  let m := m.store32 (th + 4) h.thSeq
  let m := m.store32 (th + 8) h.thAck
  let m := m.store8 (th + 12) (h.thOff ++ 0#4)
  let m := m.store8 (th + 13) h.thFlags
  let m := m.store16 (th + 14) h.thWin
  let m := m.store16 (th + 16) 0
  m.store16 (th + 18) 0

/-- The sum of the pseudo header, for `n` bytes behind the header of the packet at `ip`. -/
def pseudoSum (m : Mem) (ip : Nat) (n : BitVec 16) : BitVec 32 :=
  let sum := (ntohs n).setWidth 32 + (IPPROTO_TCP.setWidth 32 <<< 8)
  let sum := sum + ((ipSaddr m ip &&& 0xffff#32) + (ipSaddr m ip >>> 16))
  sum + ((ipDaddr m ip &&& 0xffff#32) + (ipDaddr m ip >>> 16))

/-- What every packet takes from the internet protocol: `ip_defttl`, `ip_deftos`, `ip_sequence`. -/
structure Stamp where
  ttl : BitVec 8
  tos : BitVec 8
  ipSequence : BitVec 16

/-- The packet of `tcp_output` with its headers and the options `opt`, for `n` bytes behind the header
of the internet protocol. -/
def headed (stamp : Stamp) (m : Mem) (ip : Nat) (saddr daddr : BitVec 32) (h : Tcphdr)
    (opt : List UInt8) (n : Nat) : Mem :=
  let th := ip + 20
  let hdrlen := 20 + opt.length
  let m := ipHeader m ip IPPROTO_TCP stamp.ttl stamp.tos stamp.ipSequence saddr daddr
    (BitVec.ofNat 32 n)
  let m := m.storeBytes (th + 20) opt
  fillTcphdr m th { h with thOff := BitVec.ofNat 4 (hdrlen >>> 2) }

/-- The data and the checksum of a packet: `mbuf_queue_get` takes `len` bytes at `off` from the
queue. -/
def summed (m : Mem) (ip hdrlen : Nat) (sndQ : List UInt8) (off len : Nat) : Mem :=
  let th := ip + 20
  let sum := inChksum (pseudoSum m ip (BitVec.ofNat 16 (hdrlen + len))) m th hdrlen
  if len > 0 then
    let data := (sndQ.drop off).take len
    let m := m.storeBytes (th + hdrlen) data
    let sum := inChksum sum m (th + hdrlen) data.length
    m.store16 (th + 16) ((~~~sum).setWidth 16)
  else
    m.store16 (th + 16) ((~~~sum).setWidth 16)

/-- The packet of `tcp_output`, at `ip` in the memory of the interface. -/
def outPacket (stamp : Stamp) (m : Mem) (ip : Nat) (saddr daddr : BitVec 32) (h : Tcphdr)
    (opt sndQ : List UInt8) (off len : Nat) : Mem :=
  let hdrlen := 20 + opt.length
  summed (headed stamp m ip saddr daddr h opt (hdrlen + len)) ip hdrlen sndQ off len

/-- The packet of `tcp_respond`, written over the packet at `ip` with its header `th`: the addresses
and the ports change places. -/
def tcpRespond (stamp : Stamp) (m : Mem) (ip th : Nat) (ack seq : BitVec 32) (flags : BitVec 8) :
    Mem :=
  let daddr := ipSaddr m ip
  let saddr := ipDaddr m ip
  let dport := m.load16 th
  let sport := m.load16 (th + 2)
  let m := ipHeader m ip IPPROTO_TCP stamp.ttl stamp.tos stamp.ipSequence saddr daddr 20
  let th := ip + 20
  let m := fillTcphdr m th
    { thSport := sport, thDport := dport, thSeq := ntohl seq, thAck := ntohl ack
      thOff := 5, thFlags := flags, thWin := 0 }
  let sum := pseudoSum m ip 20
  m.store16 (th + 16) ((~~~inChksum sum m th 20).setWidth 16)

/-- The sum of `tcp_input` over `len` bytes at `th`, `none` when the header is longer than that. -/
def tcpSum (m : Mem) (ip th len : Nat) : Option (BitVec 32) :=
  let hdrlen := 4 * ((m (th + 12)).toNat / 16)
  if len < hdrlen then none
  else
    let sum := (ntohs (BitVec.ofNat 16 len)).setWidth 32 + (IPPROTO_TCP.setWidth 32 <<< 8)
    let sum := inChksum sum m (ip + 12) 8
    let sum := inChksum sum m th hdrlen
    some (if len - hdrlen ≠ 0 then inChksum sum m (th + hdrlen) (len - hdrlen) else sum)

/-- The packet of `n` bytes behind its header passes the checks of `ip_input`, for every frame that
holds it, and the test of `tcp_input`. -/
def Verifies (m : Mem) (ip n : Nat) : Prop :=
  (∀ frame : Int, (n + 20 : Nat) ≤ frame → ipCheck m ip frame = some (20, n + 20)) ∧
    tcpSum m ip (ip + 20) n = some 0xffff

/-! ## What the stores leave -/

section
variable {m : Mem} {ip th hdrlen n : Nat} {h : Tcphdr}

theorem fillTcphdr_ne {i : Nat} (hi : i < th ∨ th + 20 ≤ i) : fillTcphdr m th h i = m i := by
  simp (disch := omega) only [fillTcphdr, store16_ne, store8_ne, store32_ne]

theorem fillTcphdr_sum : (fillTcphdr m th h).load16 (th + 16) = 0 := by
  rw [fillTcphdr, load16_store16_ne (by omega), load16_store16]

theorem fillTcphdr_off : ((fillTcphdr m th h) (th + 12)).toNat / 16 = h.thOff.toNat := by
  have hstore (m : Mem) : m.store8 (th + 12) (h.thOff ++ 0#4) (th + 12) = ⟨h.thOff ++ 0#4⟩ :=
    Function.update_self ..
  simp (disch := omega) only [fillTcphdr, store16_ne, store8_ne, hstore]
  change (h.thOff ++ 0#4).toNat / 16 = _
  rw [toNat_append, Nat.shiftLeft_eq]
  change (h.thOff.toNat * 16 ||| 0) / 16 = _
  rw [Nat.or_zero, Nat.mul_div_cancel _ (by decide)]

/-- The halves of the addresses are the words of the header that the receiver adds. -/
theorem toNat_pseudoSum (m : Mem) (ip : Nat) (n : BitVec 16) :
    (pseudoSum m ip n).toNat = (ntohs n).toNat + 1536 + wordSum m (ip + 12) 8 := by
  have h1 := (m.load16 (ip + 12)).isLt
  have hproto : (IPPROTO_TCP.setWidth 32 <<< 8).toNat = 1536 := by decide
  simp only [pseudoSum, toNat_add, toNat_setWidth, hproto, ipSaddr, ipDaddr,
    toNat_load32_low, toNat_load32_high]
  rw [wordSum, wordSum, wordSum, wordSum, wordSum]
  change _ = (ntohs n).toNat + 1536 + ((m.load16 (ip + 12)).toNat +
    ((m.load16 (ip + 12 + 2)).toNat + ((m.load16 (ip + 16)).toNat +
      ((m.load16 (ip + 16 + 2)).toNat + 0))))
  omega

theorem toNat_startSum (n : BitVec 16) :
    ((ntohs n).setWidth 32 + (IPPROTO_TCP.setWidth 32 <<< 8)).toNat = (ntohs n).toNat + 1536 := by
  have hn := (ntohs n).isLt
  have hproto : (IPPROTO_TCP.setWidth 32 <<< 8).toNat = 1536 := by decide
  rw [toNat_add, toNat_setWidth, hproto]
  omega

theorem toNat_tcpSum (ip : Nat) {len : Nat} (hoff : (m (th + 12)).toNat / 16 * 4 = hdrlen)
    (hhdr : hdrlen ≤ 60) (hlen : hdrlen ≤ len) (hmax : len ≤ 65535) :
    ∃ sum, tcpSum m ip th len = some sum ∧
      sum.toNat = residue 65535 ((ntohs (BitVec.ofNat 16 len)).toNat + 1536 +
        wordSum m (ip + 12) 8 + wordSum m th hdrlen + wordSum m (th + hdrlen) (len - hdrlen)) := by
  have hstart := toNat_startSum (BitVec.ofNat 16 len)
  rw [tcpSum]
  rw [show 4 * ((m (th + 12)).toNat / 16) = hdrlen by omega, if_neg (by omega)]
  refine ⟨_, rfl, ?_⟩
  set start := (ntohs (BitVec.ofNat 16 len)).setWidth 32 + (IPPROTO_TCP.setWidth 32 <<< 8)
  have hle := toNat_inChksum_le start m (ip + 12) (by omega) (by decide : 8 ≤ 65535)
  have h8 := toNat_inChksum_lt start m (ip + 12) (by omega) (by decide : 8 ≤ 65535)
  split
  · rw [toNat_inChksum_inChksum m m (by omega) (by omega) (by omega), h8, Nat.add_assoc,
      residue_residue_add, hstart, Nat.add_assoc, Nat.add_assoc, Nat.add_assoc, Nat.add_assoc,
      Nat.add_assoc]
  · rename_i hzero
    rw [show len - hdrlen = 0 by omega, toNat_inChksum_lt _ m th (by omega) (by omega), h8,
      residue_residue_add, hstart]
    rfl

/-- A packet verifies once the complement of its sum is stored over a checksum of zero. -/
theorem verifies_of_sum {x : BitVec 32} (hhdr : 20 ≤ hdrlen ∧ hdrlen ≤ 60) (hn : hdrlen ≤ n)
    (hmax : n + 20 < 65536)
    (hip : ∀ frame : Int, (n + 20 : Nat) ≤ frame → ipCheck m ip frame = some (20, n + 20))
    (hoff : (m (ip + 20 + 12)).toNat / 16 * 4 = hdrlen) (hzero : m.load16 (ip + 20 + 16) = 0)
    (hx : x.toNat = residue 65535 ((ntohs (BitVec.ofNat 16 n)).toNat + 1536 +
      wordSum m (ip + 12) 8 + wordSum m (ip + 20) hdrlen +
      wordSum m (ip + 20 + hdrlen) (n - hdrlen))) :
    Verifies (m.store16 (ip + 20 + 16) ((~~~x).setWidth 16)) ip n := by
  set m' := m.store16 (ip + 20 + 16) ((~~~x).setWidth 16) with hm'
  have hother {i : Nat} (hi : i ≠ ip + 20 + 16) (hi' : i ≠ ip + 20 + 16 + 1) : m' i = m i :=
    store16_ne hi hi'
  refine ⟨fun frame hframe => ipCheck_congr (hip frame hframe) fun i _ hi =>
    hother (by omega) (by omega), ?_⟩
  have hoff' : (m' (ip + 20 + 12)).toNat / 16 * 4 = hdrlen := by
    rw [hother (by omega) (by omega), hoff]
  obtain ⟨sum, hsum, hnat⟩ := toNat_tcpSum ip hoff' hhdr.2 hn (by omega : n ≤ 65535)
  rw [hsum]
  refine congrArg some (eq_of_toNat_eq ?_)
  have hhead : wordSum m' (ip + 20) hdrlen =
      wordSum m (ip + 20) hdrlen + ((~~~x).setWidth 16).toNat := by
    have hstore := wordSum_store16 m ((~~~x).setWidth 16) 8 (ip + 20) hdrlen (by omega)
    rw [hzero] at hstore
    exact hstore
  have hfirst : wordSum m' (ip + 12) 8 = wordSum m (ip + 12) 8 :=
    wordSum_congr fun i _ hi => hother (by omega) (by omega)
  have hlast : wordSum m' (ip + 20 + hdrlen) (n - hdrlen) =
      wordSum m (ip + 20 + hdrlen) (n - hdrlen) :=
    wordSum_congr fun i hi _ => hother (by omega) (by omega)
  rw [hnat, hfirst, hlast, hhead, ← Nat.add_assoc, Nat.add_right_comm]
  exact residue_add_not hx

end

section
variable {m : Mem} {ip hdrlen off len : Nat} {sndQ : List UInt8}

/-- Data that is there and the checksum complete a packet whose headers are written. -/
theorem summed_verifies (hhdr : 20 ≤ hdrlen ∧ hdrlen ≤ 60) (hmax : hdrlen + len + 20 < 65536)
    (hlen : 0 < len → off + len ≤ sndQ.length)
    (hip : ∀ frame : Int, (hdrlen + len + 20 : Nat) ≤ frame →
      ipCheck m ip frame = some (20, hdrlen + len + 20))
    (hoff : (m (ip + 20 + 12)).toNat / 16 * 4 = hdrlen) (hzero : m.load16 (ip + 20 + 16) = 0) :
    Verifies (summed m ip hdrlen sndQ off len) ip (hdrlen + len) := by
  have hpseudo := toNat_pseudoSum m ip (BitVec.ofNat 16 (hdrlen + len))
  have h8 := wordSum_le m (ip + 12) 8
  rw [summed]
  dsimp only
  split
  case isTrue hpos =>
    have hdata : ((sndQ.drop off).take len).length = len := by
      rw [length_take, length_drop]
      omega
    set data := (sndQ.drop off).take len
    have hother {i : Nat} (hi : i < ip + 20 + hdrlen) :
        m.storeBytes (ip + 20 + hdrlen) data i = m i := storeBytes_ne (.inl hi)
    set m' := m.storeBytes (ip + 20 + hdrlen) data
    have hfirst : wordSum m' (ip + 12) 8 = wordSum m (ip + 12) 8 :=
      wordSum_congr fun i _ hi => hother (by omega)
    have hhead : wordSum m' (ip + 20) hdrlen = wordSum m (ip + 20) hdrlen :=
      wordSum_congr fun i _ hi => hother (by omega)
    refine verifies_of_sum hhdr (by omega) hmax
      (fun frame hframe => ipCheck_congr (hip frame hframe) fun i _ hi => hother (by omega))
      (by rw [hother (by omega), hoff])
      ((load16_congr (hother (by omega)) (hother (by omega))).trans hzero) ?_
    rw [toNat_inChksum_inChksum m m' (by omega) (by omega) (by omega), hpseudo, hdata,
      Nat.add_sub_cancel_left, hfirst, hhead]
  case isFalse hnot =>
    refine verifies_of_sum hhdr (by omega) hmax hip hoff hzero ?_
    rw [toNat_inChksum_lt _ m (ip + 20) (by omega) (by omega), hpseudo,
      show hdrlen + len - hdrlen = 0 by omega]
    rfl

end

section
variable (stamp : Stamp) (m : Mem) (ip : Nat) (saddr daddr : BitVec 32) (h : Tcphdr)
  {opt : List UInt8} {n : Nat}

theorem ipCheck_headed (hn : n + 20 < 65536) (frame : Int) (hframe : (n + 20 : Nat) ≤ frame) :
    ipCheck (headed stamp m ip saddr daddr h opt n) ip frame = some (20, n + 20) := by
  have hnat : (BitVec.ofNat 32 n).toNat = n := by
    rw [toNat_ofNat, Nat.mod_eq_of_lt (by omega)]
  have hcheck := ipCheck_ipHeader m ip IPPROTO_TCP stamp.ttl stamp.tos stamp.ipSequence saddr daddr
    (BitVec.ofNat 32 n) frame (by omega) (by omega)
  rw [hnat] at hcheck
  refine ipCheck_congr hcheck fun i _ hi => ?_
  rw [headed, fillTcphdr_ne (by omega), storeBytes_ne (by omega)]

theorem headed_off (hopt : opt.length % 4 = 0) (hmax : opt.length ≤ 40) :
    (headed stamp m ip saddr daddr h opt n (ip + 20 + 12)).toNat / 16 * 4 = 20 + opt.length := by
  rw [headed, fillTcphdr_off, toNat_ofNat, Nat.shiftRight_eq_div_pow]
  omega

/-- Whatever `tcp_output` writes with options and data that are there verifies. -/
theorem outPacket_verifies {sndQ : List UInt8} {off len : Nat} (hopt : opt.length % 4 = 0)
    (hopt' : opt.length ≤ 40) (hlen : 0 < len → off + len ≤ sndQ.length)
    (hmax : 40 + opt.length + len < 65536) :
    Verifies (outPacket stamp m ip saddr daddr h opt sndQ off len) ip (20 + opt.length + len) :=
  summed_verifies (by omega) (by omega) hlen
    (ipCheck_headed stamp m ip saddr daddr h (by omega))
    (headed_off stamp m ip saddr daddr h hopt hopt') fillTcphdr_sum

/-- What `tcp_respond` writes verifies. -/
theorem tcpRespond_verifies {th : Nat} {ack seq : BitVec 32} {flags : BitVec 8} :
    Verifies (tcpRespond stamp m ip th ack seq flags) ip 20 := by
  have hout : Verifies (outPacket stamp m ip (ipDaddr m ip) (ipSaddr m ip)
      { thSport := m.load16 (th + 2), thDport := m.load16 th, thSeq := ntohl seq
        thAck := ntohl ack, thOff := 5, thFlags := flags, thWin := 0 } [] [] 0 0) ip 20 :=
    outPacket_verifies stamp m ip _ _ _ (by decide) (by decide) (fun h => absurd h (by decide))
      (by decide)
  have hnil (m : Mem) (a : Nat) : m.storeBytes a [] = m := by
    funext i
    exact storeBytes_ne (Nat.lt_or_ge i a)
  rw [outPacket, headed] at hout
  simp only [hnil] at hout
  exact hout

end

/-! ## The segments of `tcp_output` -/

/-- What the passes of `tcp_output` send, for the answers of the interface one after the other. -/
def outTrace (cfg : Config) (idle : Bool) (o : Out) : List Bool → List Emitted
  | [] => []
  | ok :: net =>
    let pass := outPass cfg idle o ok
    ((outEmit cfg idle o ok).map Prod.fst).toList ++
      if pass.2 then outTrace cfg idle pass.1 net else []

/-- A call of `tcp_output`. -/
def tcpOutputTrace (cfg : Config) (tp : Pcb) (net : List Bool) : List Emitted :=
  outTrace cfg (decide (tp.sndTop = tp.sndSeq)) ⟨tp, tp.sndNxt, tp.sndTop⟩ net

section
variable {cfg : Config} {idle ok : Bool} {o : Out}

/-- What is sent lies in the queue and fits into a packet of the interface. -/
structure Emitted.Fits (cfg : Config) (tp : Pcb) (e : Emitted) : Prop where
  queue : e.out.tp.sndQ = tp.sndQ
  syn : e.flags.syn = (outFlags tp.tState).syn
  data : ∃ x l : Nat, e.off = x ∧ e.len = l ∧ (0 < l → x + l ≤ tp.sndQ.length) ∧ l ≤ cfg.mtu - 40

theorem outEmit_fits {x : Nat} {e : Emitted} {again : Bool}
    (hnxt : o.nxt = o.tp.sndSeq + BitVec.ofNat 32 x) (hx : x < 2 ^ 31)
    (h : outEmit cfg idle o ok = some (e, again)) : e.Fits cfg o.tp := by
  obtain ⟨l, hoff, hlen, hmtu, hflags, ⟨ho, -, -, hzero, -⟩ | ⟨ho, -, hle, -⟩⟩ :=
    outEmit_outcome hnxt hx h
  · exact ⟨by rw [ho]; rfl, hflags.1, x, l, hoff, hlen, by omega, hmtu⟩
  · exact ⟨by rw [ho], hflags.1, x, l, hoff, hlen, by omega, hmtu⟩

/-- Where `snd_nxt` and `snd_max` are between the passes. -/
def Near (o : Out) (x y : Nat) : Prop :=
  o.nxt = o.tp.sndSeq + BitVec.ofNat 32 x ∧ o.max = o.tp.sndSeq + BitVec.ofNat 32 y ∧
    x < 65537 ∧ y < 65537

/-- A pass that asks for another one leaves both within the queue and a SYN and a FIN. -/
theorem Near.again {x y : Nat} (h : Near o x y) (hqueue : o.tp.sndQ.length < 65535)
    (hagain : (outPass cfg idle o ok).2 = true) :
    ∃ x' y', Near (outPass cfg idle o ok).1 x' y' := by
  obtain ⟨hnxt, hmax, hx, hy⟩ := h
  have hout : PassOutcome cfg o x (outPass cfg idle o ok) := outPass_outcome idle ok hnxt (by omega)
  generalize outPass cfg idle o ok = r at hout hagain
  cases hout with
  | kept => cases hagain
  | rewound => cases hagain
  | @sent l flags again hstay hlen hflags hmore =>
    have hlt := hmore hagain
    have hend := outEnd_le o.tp.sentfin flags x y l
    rw [outSent_eq cfg o flags hnxt hmax hx hy (by omega)]
    exact ⟨_, _, rfl, rfl, by omega, by omega⟩
  | resent => cases hagain

theorem outTrace_fits {net : List Bool} :
    ∀ (o : Out) (x y : Nat), Near o x y → o.tp.sndQ.length < 65535 →
      ∀ e ∈ outTrace cfg idle o net, e.Fits cfg o.tp := by
  induction net with
  | nil =>
    intro o x y _ _ e he
    cases he
  | cons ok net ih =>
    intro o x y h hqueue e he
    rw [outTrace] at he
    rcases mem_append.mp he with he | he
    · obtain ⟨⟨_, again⟩, hemit, rfl⟩ := map_eq_some_iff.mp (mem_toList.mp he)
      obtain ⟨hnxt, -, hx, -⟩ := h
      exact outEmit_fits hnxt (by omega) hemit
    · split at he
      case isFalse => cases he
      case isTrue hagain =>
        have hsteady := outPass_steady cfg idle o ok
        simp only [Pcb.steady, Prod.mk.injEq] at hsteady
        obtain ⟨hs, -, -, hq, -⟩ := hsteady
        obtain ⟨x', y', hnear⟩ := h.again hqueue hagain
        obtain ⟨hq', hsyn, hdata⟩ := ih _ x' y' hnear (by rw [hq]; exact hqueue) e he
        rw [hq] at hq' hdata
        rw [hs] at hsyn
        exact ⟨hq', hsyn, hdata⟩

end

/-! ## The queue along a run -/

/-- The queue is within its limit, and empty before the connection is open. -/
def Stocked (cfg : Config) (tp : Pcb) : Prop :=
  tp.sndQ.length ≤ cfg.maxsnd ∧ (tp.tState.opening = true → tp.sndQ = [])

section
variable {cfg : Config} {tp tp' : Pcb} {seg : Seg} {room : Nat} {c c' : Conn} {iss : BitVec 32}

theorem Stocked.of_le (h : Stocked cfg tp) (hle : tp'.sndQ.length ≤ tp.sndQ.length)
    (hs : tp'.tState.opening = true → tp.tState.opening = true) : Stocked cfg tp' := by
  refine ⟨Nat.le_trans hle h.1, fun hopen => ?_⟩
  rw [h.2 (hs hopen)] at hle
  exact length_eq_zero_iff.mp (Nat.le_zero.mp hle)

theorem ackState_sndQ {b : Bool} (h : ackState tp b = .go tp' ∨ ackState tp b = .drop (some tp')) :
    tp'.sndQ.length ≤ tp.sndQ.length := by
  rcases h with h | h
  · rcases ackState_go h with rfl | ⟨-, -, rfl⟩ | ⟨-, -, rfl⟩
    · exact le_rfl
    · exact le_rfl
    · exact Nat.zero_le _
  · obtain ⟨-, rfl⟩ := ackState_drop h
    exact le_rfl

/-- An acknowledgment only takes bytes from the queue. -/
theorem ackStage_sndQ {ack : BitVec 32}
    (h : ackStage tp ack = .go tp' ∨ ackStage tp ack = .drop (some tp')) :
    tp'.sndQ.length ≤ tp.sndQ.length := by
  have hout := ackStage_outcome tp ack
  generalize ackStage tp ack = r at h hout
  cases hout with
  | passed =>
    rcases h with h | h
    · rw [Ack.go.inj h]
    · cases h
  | refused =>
    rcases h with h | h
    · cases h
    · rw [some.inj (Ack.drop.inj h)]
  | old =>
    rcases h with h | h
    · rw [← Ack.go.inj h, Pcb.accepted_sndQ]
    · cases h
  | much =>
    rcases h with h | h
    · cases h
    · rw [← some.inj (Ack.drop.inj h)]
  | @new k =>
    have hle := ackState_sndQ h
    have hdrop : (tp.accepted.acked tp.sndOff.toNat tp.sndMax.toNat k).sndQ = tp.sndQ.drop k := by
      rw [Pcb.acked, Pcb.accepted_sndQ]
    rw [hdrop, length_drop] at hle
    omega

theorem step6_sndQ {ti : Ti} {win : BitVec 16} :
    (step6 tp ti win room).sndQ.length ≤ tp.sndQ.length := by
  rcases (step6_snd tp ti win room).2 with h | ⟨-, h⟩
  · rw [h]
  · rw [h]
    exact Nat.zero_le _

theorem InputOutcome.sndQ_le (h : InputOutcome cfg tp seg room tp') :
    tp'.sndQ.length ≤ tp.sndQ.length := by
  cases h with
  | @predictedAck k =>
    rw [Pcb.acked, length_drop]
    omega
  | predictedData => exact le_rfl
  | dropped => exact le_rfl
  | reset => exact Nat.zero_le _
  | refused acknow hstage =>
    have hle := ackStage_sndQ (.inr hstage)
    exact hle
  | processed acknow htrim hack hsyn hstage =>
    have hle := ackStage_sndQ (.inl hstage)
    exact Nat.le_trans (step6_sndQ ..) hle

theorem Stocked.input (h : Stocked cfg tp) (hin : tcpInput true cfg tp seg room = some tp') :
    Stocked cfg tp' := by
  by_cases hs : tp.tState = .synSent
  · rcases tcpInput_synSent hs hin with ⟨hs', -, -, -, hq⟩ | ⟨-, -, -, rfl⟩
    · refine h.of_le (by rw [hq]; exact Nat.zero_le _) fun hopen => ?_
      rw [hs'] at hopen
      cases hopen
    · have hq : (tp.synced seg).sndQ = tp.sndQ := by
        rw [Pcb.synced, tcpParseOptions]
        split <;> rfl
      refine h.of_le (hq ▸ step6_sndQ ..) fun _ => ?_
      rw [hs]
      rfl
  · have hout := tcpInput_outcome hs hin
    refine h.of_le hout.sndQ_le fun hopen => ?_
    have hmoves := hout.moves
    revert hopen hmoves hs
    cases tp.tState <;> cases tp'.tState <;> decide

theorem Stocked.step {ev : Event} (h : Stocked cfg c.tp) (hstep : c.step cfg ev = some c') :
    Stocked cfg c'.tp := by
  cases Conn.step_outcome hstep with
  | input _ hin => exact h.input hin
  | output net =>
    have hsteady := tcpOutput_steady cfg c.tp net
    simp only [Pcb.steady, Prod.mk.injEq] at hsteady
    obtain ⟨hs, -, -, hq, -⟩ := hsteady
    exact h.of_le (by rw [hq]) (by rw [hs]; exact id)
  | @send _ data _ _ _ _ hdata =>
    by_cases hnil : data = []
    · exact h.of_le (by rw [hnil, append_nil]) id
    · obtain ⟨hs, hle⟩ := hdata hnil
      refine ⟨hle, fun hopen => ?_⟩
      rw [show _ = TcpState.established from hs] at hopen
      cases hopen
  | close hclose =>
    rcases tcpClose_cases hclose with rfl | ⟨-, rfl⟩ | ⟨-, rfl⟩
    · exact h
    · exact h.of_le le_rfl (by rintro ⟨⟩)
    · exact h.of_le (Nat.zero_le _) (by rintro ⟨⟩)
  | _ => exact h

theorem Starts.stocked (h : Starts iss tp) : Stocked cfg tp := by
  rcases h with ⟨mss, rfl⟩ | ⟨mss, syn, rfl⟩
  · exact ⟨Nat.zero_le _, fun _ => rfl⟩
  · rw [tcpPassiveOpen, tcpParseOptions]
    split
    · exact ⟨Nat.zero_le _, fun _ => rfl⟩
    · exact ⟨Nat.zero_le _, fun _ => rfl⟩

theorem Starts.stocked_run (h : Starts iss c.tp) (hrun : (system cfg).Run (fun _ _ => True) c c') :
    Stocked cfg c'.tp :=
  hrun.invariant (I := fun c => Stocked cfg c.tp) (fun _ _ _ h _ hs => h.step hs) h.stocked

end

/-! ## The packets of a run -/

/-- The addresses and ports of a control block, as they stand in the headers. -/
structure Peer where
  tLaddr : BitVec 32
  tFaddr : BitVec 32
  tLport : BitVec 16
  tFport : BitVec 16

/-- `th_flags`, from `TH_FIN` to `TH_URG`. -/
def Flags.byte (f : Flags) : BitVec 8 :=
  BitVec.ofNat 8 (f.fin.toNat + 2 * f.syn.toNat + 4 * f.rst.toNat + 8 * f.psh.toNat +
    16 * f.ack.toNat + 32 * f.urg.toNat)

/-- The options of a segment: a SYN has the maximum segment size. -/
def Emitted.opt (e : Emitted) (mss : BitVec 16) : List UInt8 :=
  if e.flags.syn then [2, 4, ⟨(mss >>> 8).setWidth 8⟩, ⟨mss.setWidth 8⟩] else []

/-- The header of a segment. A FIN that is sent once more has its old number. -/
def Emitted.header (cfg : Config) (peer : Peer) (e : Emitted) : Tcphdr :=
  let tp := e.out.tp
  let nxt :=
    if e.flags.fin = true ∧ tp.sentfin = true ∧ e.out.nxt = e.out.max then e.out.nxt - 1
    else e.out.nxt
  let psh := e.len ≠ 0 ∧ e.off + e.len = tp.sndQ.length
  { thSport := peer.tLport
    thDport := peer.tFport
    thSeq := ntohl (if e.len ≠ 0 ∨ e.flags.syn = true ∨ e.flags.fin = true then nxt else e.out.max)
    thAck := ntohl tp.rcvNxt
    thOff := 5
    thFlags := Flags.byte { e.flags with psh := e.flags.psh || decide psh }
    thWin := ntohs (outWindow cfg tp) }

/-- The packet of a segment, written at `ip`. -/
def Emitted.packet (cfg : Config) (peer : Peer) (stamp : Stamp) (mss : BitVec 16) (m : Mem) (ip : Nat)
    (e : Emitted) : Mem :=
  outPacket stamp m ip peer.tLaddr peer.tFaddr (e.header cfg peer) (e.opt mss) e.out.tp.sndQ
    e.off.toNat e.len.toNat

/-- The number of bytes behind the header of the internet protocol. -/
def Emitted.size (e : Emitted) (mss : BitVec 16) : Nat :=
  20 + (e.opt mss).length + e.len.toNat

section
variable {cfg : Config} {tp : Pcb}

theorem length_opt (e : Emitted) (mss : BitVec 16) :
    (e.opt mss).length = if e.flags.syn = true then 4 else 0 := by
  rw [Emitted.opt]
  split <;> rfl

/-- A segment of `tcp_output` verifies, with the queue as it is along a run. -/
theorem Emitted.Fits.verifies {e : Emitted} (h : e.Fits cfg tp) (hstocked : Stocked cfg tp)
    (hmtu : cfg.mtu < 65536) (peer : Peer) (stamp : Stamp) (mss : BitVec 16) (m : Mem) (ip : Nat) :
    Verifies (e.packet cfg peer stamp mss m ip) ip (e.size mss) := by
  obtain ⟨x, l, hoff, hlen, hdata, hmax⟩ := h.data
  have hopt := length_opt e mss
  have hoff' : e.off.toNat = x := by rw [hoff, Int.toNat_natCast]
  have hlen' : e.len.toNat = l := by rw [hlen, Int.toNat_natCast]
  rw [Emitted.packet, Emitted.size, hoff', hlen', h.queue]
  refine outPacket_verifies stamp m ip _ _ _ ?_ ?_ hdata ?_
  · rw [hopt]
    split <;> rfl
  · rw [hopt]
    split <;> decide
  · rw [hopt]
    split
    case isFalse => omega
    case isTrue hsyn =>
      -- a SYN goes without data
      rw [h.syn, (outFlags_eq tp.tState).1] at hsyn
      rw [hstocked.2 hsyn] at hdata
      have hzero : l = 0 := by
        by_contra hne
        have := hdata (by omega)
        rw [length_nil] at this
        omega
      omega

theorem tcpOutputTrace_fits (hstocked : Stocked cfg tp) {net : List Bool} :
    ∀ e ∈ tcpOutputTrace cfg tp net, e.Fits cfg tp := by
  have hoff : tp.sndOff.toNat < 65536 := tp.sndOff.isLt
  have hlimit := cfg.maxsnd_lt
  have hqueue := hstocked.1
  exact outTrace_fits ⟨tp, tp.sndNxt, tp.sndTop⟩ tp.sndOff.toNat tp.sndMax.toNat
    ⟨tp.sndNxt_eq, tp.sndTop_eq, by omega, by omega⟩ (by omega : tp.sndQ.length < 65535)

/-- The checksum: `in_chksum` is the sum of RFC 1071 from every address, and may be taken in pieces
that are cut at an even offset; the headers that `iph_template` and `mk_iphdr` write pass the checks
of `ip_input`; and so do, with the test of `tcp_input`, all answers of `tcp_respond` and all segments
that `tcp_output` emits in any run of a connection. -/
theorem checksum_verifies : (∀ (s : BitVec 16) (m : Mem) (data len : Nat), len ≤ 65535 →
      inChksum (s.setWidth 32) m data len = (rfc1071 s (m.bytes data len)).setWidth 32) ∧
    (∀ (s : BitVec 16) (m m1 m2 : Mem) (data data1 data2 cut len : Nat), cut + len ≤ 65535 →
      cut % 2 = 0 → m.bytes data (cut + len) = m1.bytes data1 cut ++ m2.bytes data2 len →
      inChksum (inChksum (s.setWidth 32) m1 data1 cut) m2 data2 len =
        inChksum (s.setWidth 32) m data (cut + len)) ∧
    (∀ (m : Mem) (ip : Nat) (proto ttl tos : BitVec 8) (ipSequence : BitVec 16)
      (saddr daddr len : BitVec 32) (frame : Int), len.toNat + 20 < 65536 →
      (len.toNat + 20 : Nat) ≤ frame →
      ipCheck (ipHeader m ip proto ttl tos ipSequence saddr daddr len) ip frame =
        some (20, len.toNat + 20)) ∧
    (∀ (stamp : Stamp) (m : Mem) (ip th : Nat) (ack seq : BitVec 32) (flags : BitVec 8),
      Verifies (tcpRespond stamp m ip th ack seq flags) ip 20) ∧
    ∀ (cfg : Config) (iss : BitVec 32) (c c' : Conn) (net : List Bool), cfg.mtu < 65536 →
      Starts iss c.tp → (system cfg).Run (fun _ _ => True) c c' →
      ∀ e ∈ tcpOutputTrace cfg c'.tp net, ∀ (peer : Peer) (stamp : Stamp) (mss : BitVec 16) (m : Mem)
        (ip : Nat), Verifies (e.packet cfg peer stamp mss m ip) ip (e.size mss) := by
  refine ⟨fun s m data len hlen => inChksum_eq_rfc1071 s m data hlen, ?_,
    fun m ip proto ttl tos ipSequence saddr daddr len frame hlen hframe =>
      ipCheck_ipHeader m ip proto ttl tos ipSequence saddr daddr len frame hlen hframe,
    tcpRespond_verifies, ?_⟩
  · intro s m m1 m2 data data1 data2 cut len hlen heven hbytes
    rw [inChksum_eq_rfc1071 s m1 data1 (by omega), inChksum_eq_rfc1071 _ m2 data2 (by omega),
      inChksum_eq_rfc1071 s m data hlen, hbytes,
      rfc1071_append (by rw [length_bytes, heven])]
  · intro cfg iss c c' net hmtu hstart hrun e he peer stamp mss m ip
    have hstocked := hstart.stocked_run hrun
    exact (tcpOutputTrace_fits hstocked e he).verifies hstocked hmtu peer stamp mss m ip

end

/-- The SYN of a connection that `tcp_connect` has made, in a packet of 44 bytes. -/
theorem checksum_verifies_syn :
    ∃ e ∈ tcpOutputTrace stdConfig (tcpConnect 1460 0x100000) [true], e.flags.syn = true ∧
      e.size 1460 = 24 ∧
      Verifies (e.packet stdConfig ⟨0x0100000a, 0x0200000a, 80, 81⟩ ⟨64, 0, 7⟩ 1460 (fun _ => 0) 0)
        0 (e.size 1460) := by
  have hmem : ∃ e ∈ tcpOutputTrace stdConfig (tcpConnect 1460 0x100000) [true],
      e.flags.syn = true ∧ e.size 1460 = 24 := by
    decide
  obtain ⟨e, he, hsyn, hsize⟩ := hmem
  exact ⟨e, he, hsyn, hsize, checksum_verifies.2.2.2.2 stdConfig 0x100000 ⟨tcpConnect 1460 0x100000, []⟩
    ⟨tcpConnect 1460 0x100000, []⟩ [true] (by decide) (.inl ⟨1460, rfl⟩) .refl e he _ _ _ _ _⟩

end Tcp
