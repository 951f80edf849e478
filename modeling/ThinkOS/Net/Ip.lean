import ThinkOS.Net.Checksum

/-!
# The headers of the internet protocol

The model of `ip_input`, and of `iph_template` and `mk_iphdr`, which write the header of a packet. A
header lies in the memory as `struct iphdr` does on a little-endian machine. The handlers of the
transport protocols are known by what they are called with; their answers are a parameter.
-/

namespace Net

open Lib BitVec List Mem

/-- `ntohs`, which is also `htons`. -/
def ntohs (x : BitVec 16) : BitVec 16 := x.setWidth 8 ++ (x >>> 8).setWidth 8

/-- `ntohl`, which is also `htonl`. -/
def ntohl (x : BitVec 32) : BitVec 32 := ntohs (x.setWidth 16) ++ ntohs ((x >>> 16).setWidth 16)

def IP_HEADER_LEN : Nat := 20

/-- The more-fragments flag, as `netinet/ip.h` defines it for a little-endian machine. -/
def IP_MF : BitVec 16 := 0x0020

def INADDR_BROADCAST : BitVec 32 := 0xffffffff

/-! ## The fields of `struct iphdr` -/

section
variable (m : Mem) (ip : Nat)

def ipVer : Nat := (m ip).toNat / 16

def ipHlen : Nat := (m ip).toNat % 16

def ipTotLen : BitVec 16 := m.load16 (ip + 2)

def ipOff : BitVec 16 := m.load16 (ip + 6)

def ipProto : Nat := (m (ip + 9)).toNat

def ipSaddr : BitVec 32 := m.load32 (ip + 12)

def ipDaddr : BitVec 32 := m.load32 (ip + 16)

end

/-! ## `ip_input` -/

/-- The addresses of `struct ifnet`. -/
structure Ifnet where
  ifIpv4Addr : BitVec 32
  ifIpv4Mask : BitVec 32

/-- Who gets the packet. -/
inductive Handler where
  | icmp | udp | tcp | raw
  deriving DecidableEq, Repr

/-- A call of a handler, with the address and the length of what is handed over. -/
structure Call where
  handler : Handler
  start : Nat
  len : Int
  deriving DecidableEq, Repr

/-- The checks of `ip_input` on the header: the length of the header and of the packet, `none` when
the packet is dropped. -/
def ipCheck (m : Mem) (ip : Nat) (len : Int) : Option (Nat × Nat) :=
  if ipVer m ip ≠ 4 then none
  else
    let hdrLen := 4 * ipHlen m ip
    let totLen := (ntohs (ipTotLen m ip)).toNat
    if hdrLen < IP_HEADER_LEN ∨ (hdrLen : Int) > len then none
    else if (totLen : Int) > len then none
    else if ipOff m ip &&& ntohs IP_MF ≠ 0 then none
    else if inChksum 0 m ip hdrLen ≠ 0xffff then none
    else some (hdrLen, totLen)

/-- The handler that the protocol number selects. -/
def ipHandler : Nat → Option Handler
  | 1 => some .icmp
  | 17 => some .udp
  | 6 => some .tcp
  | _ => none

/-- `ip_input`: the handlers called, and the return value. -/
def ipInput (answer : Handler → Int) (ifn : Ifnet) (m : Mem) (ip : Nat) (len : Int) :
    List Call × Int :=
  match ipCheck m ip len with
  | none => ([], -1)
  | some (hdrLen, totLen) =>
    let daddr := ipDaddr m ip
    if daddr ≠ ifn.ifIpv4Addr ∧ daddr ≠ INADDR_BROADCAST ∧
        daddr ≠ ifn.ifIpv4Addr ||| ~~~ifn.ifIpv4Mask then
      ([], -1)
    else
      match ipHandler (ipProto m ip) with
      | none => ([], 0)
      | some handler =>
        let call : Call := ⟨handler, ip + hdrLen, totLen - hdrLen⟩
        if answer handler < 0 then ([call, ⟨.raw, ip, totLen⟩], answer .raw)
        else ([call], answer handler)

/-! ## What is handed over -/

/-- The header is correct: version 4, and the sum of RFC 1071 over it is all ones. -/
def Ipv4Header (m : Mem) (ip : Nat) : Prop :=
  ipVer m ip = 4 ∧ rfc1071 0 (m.bytes ip (4 * ipHlen m ip)) = 0xffff

/-- The datagram is a whole one: in the fragment field, most significant byte first, the bit of the
more-fragments flag and the 13 bits of the offset are zero. -/
def Unfragmented (m : Mem) (ip : Nat) : Prop :=
  (ntohs (ipOff m ip)).getLsbD 13 = false ∧ (ntohs (ipOff m ip)).toNat % 2 ^ 13 = 0

/-- What is handed over lies within the frame of `len` bytes at `ip`. -/
def Call.Within (c : Call) (ip : Nat) (len : Int) : Prop :=
  ip ≤ c.start ∧ 0 ≤ c.len ∧ (c.start - ip : Nat) + c.len ≤ len

section
variable {m : Mem} {ip hdrLen totLen : Nat} {len : Int} {ifn : Ifnet} {answer : Handler → Int}

theorem ipHlen_lt (m : Mem) (ip : Nat) : ipHlen m ip < 16 := Nat.mod_lt _ (by decide)

theorem inChksum_header : inChksum 0 m ip (4 * ipHlen m ip) = 0xffff ↔
      rfc1071 0 (m.bytes ip (4 * ipHlen m ip)) = 0xffff := by
  have hlt := ipHlen_lt m ip
  have heq := inChksum_eq_rfc1071 0 m ip (by omega : 4 * ipHlen m ip ≤ 65535)
  rw [show (0 : BitVec 16).setWidth 32 = 0 from rfl] at heq
  rw [heq]
  constructor
  · intro h
    apply eq_of_toNat_eq
    have hn := congrArg BitVec.toNat h
    rw [toNat_setWidth, Nat.mod_eq_of_lt (by omega)] at hn
    exact hn
  · intro h
    rw [h]
    rfl

theorem ipCheck_eq_some_iff : ipCheck m ip len = some (hdrLen, totLen) ↔
      (hdrLen = 4 * ipHlen m ip ∧ totLen = (ntohs (ipTotLen m ip)).toNat) ∧ Ipv4Header m ip ∧
        20 ≤ hdrLen ∧ (hdrLen : Int) ≤ len ∧ (totLen : Int) ≤ len ∧
          ipOff m ip &&& ntohs IP_MF = 0 := by
  rw [ipCheck, Ipv4Header, ← inChksum_header, IP_HEADER_LEN]
  constructor
  · intro h
    dsimp only at h
    split_ifs at h with h1 h2 h3 h4 h5
    cases h
    exact ⟨⟨rfl, rfl⟩, ⟨not_not.mp h1, not_not.mp h5⟩, by omega, by omega, by omega, not_not.mp h4⟩
  · rintro ⟨⟨rfl, rfl⟩, ⟨hver, hsum⟩, hhdr, hlen, htot, hoff⟩
    rw [if_neg (not_not.mpr hver), if_neg (by omega), if_neg (by omega), if_neg (not_not.mpr hoff),
      if_neg (not_not.mpr hsum)]

/-- The checks look at nothing but the header. -/
theorem ipCheck_congr {m' : Mem} (hcheck : ipCheck m ip len = some (20, totLen))
    (h : ∀ i, ip ≤ i → i < ip + 20 → m' i = m i) : ipCheck m' ip len = some (20, totLen) := by
  have hfirst := h ip (Nat.le_refl ip) (by omega)
  have htot : ipTotLen m' ip = ipTotLen m ip :=
    load16_congr (h _ (by omega) (by omega)) (h _ (by omega) (by omega))
  have hoff : ipOff m' ip = ipOff m ip :=
    load16_congr (h _ (by omega) (by omega)) (h _ (by omega) (by omega))
  have hhlen : ipHlen m' ip = ipHlen m ip := by rw [ipHlen, hfirst, ipHlen]
  rw [ipCheck_eq_some_iff, Ipv4Header] at hcheck ⊢
  obtain ⟨⟨hhdr, hlen⟩, ⟨hver, hsum⟩, hrest⟩ := hcheck
  have hbytes : m'.bytes ip (4 * ipHlen m ip) = m.bytes ip (4 * ipHlen m ip) := by
    rw [← hhdr]
    exact bytes_congr h
  rw [htot, hoff, hhlen, ipVer, hfirst, hbytes]
  exact ⟨⟨hhdr, hlen⟩, ⟨hver, hsum⟩, hrest⟩

/-- The handlers are called for a header that passes the checks; the first call is for what lies
behind the header, the second one for the whole packet. -/
theorem ipInput_calls {c : Call} (h : c ∈ (ipInput answer ifn m ip len).1) :
    ∃ hdrLen totLen, ipCheck m ip len = some (hdrLen, totLen) ∧
      (∃ handler, (⟨handler, ip + hdrLen, totLen - hdrLen⟩ : Call) ∈
        (ipInput answer ifn m ip len).1) ∧
      (c.start = ip + hdrLen ∧ c.len = totLen - hdrLen ∨ c.start = ip ∧ c.len = totLen) := by
  rw [ipInput] at h ⊢
  cases hcheck : ipCheck m ip len with
  | none =>
    rw [hcheck] at h
    cases h
  | some lens =>
    obtain ⟨hdrLen, totLen⟩ := lens
    rw [hcheck] at h
    dsimp only at h ⊢
    refine ⟨hdrLen, totLen, rfl, ?_⟩
    split_ifs at h ⊢ with haddr
    · cases h
    · cases hh : ipHandler (ipProto m ip) with
      | none =>
        rw [hh] at h
        cases h
      | some handler =>
        rw [hh] at h
        dsimp only at h ⊢
        split_ifs at h ⊢
        · refine ⟨⟨handler, mem_cons_self ..⟩, ?_⟩
          rcases mem_cons.mp h with rfl | h
          · exact .inl ⟨rfl, rfl⟩
          · rw [mem_singleton] at h
            subst h
            exact .inr ⟨rfl, rfl⟩
        · refine ⟨⟨handler, mem_cons_self ..⟩, ?_⟩
          rw [mem_singleton] at h
          subst h
          exact .inl ⟨rfl, rfl⟩

/-- Whatever `ip_input` hands over has a correct header and ends within the frame; and all of it is
part of a whole datagram, with a length that is not negative, exactly if the fragment field says so
and the total length is not below the length of the header. -/
theorem ipInput_valid (answer : Handler → Int) (ifn : Ifnet) (m : Mem) (ip : Nat) (len : Int) :
    (∀ c ∈ (ipInput answer ifn m ip len).1, Ipv4Header m ip ∧ (c.start : Int) + c.len ≤ ip + len) ∧
    ((∀ c ∈ (ipInput answer ifn m ip len).1,
        Ipv4Header m ip ∧ Unfragmented m ip ∧ c.Within ip len) ↔
      ((ipInput answer ifn m ip len).1 ≠ [] →
        Unfragmented m ip ∧ 4 * ipHlen m ip ≤ (ntohs (ipTotLen m ip)).toNat)) := by
  constructor
  · intro c hc
    obtain ⟨hdrLen, totLen, hcheck, -, hcall⟩ := ipInput_calls hc
    obtain ⟨-, hhdr, -, hlen, htot, -⟩ := ipCheck_eq_some_iff.mp hcheck
    refine ⟨hhdr, ?_⟩
    rcases hcall with ⟨hs, hl⟩ | ⟨hs, hl⟩
    · rw [hs, hl]
      omega
    · rw [hs, hl]
      omega
  · constructor
    · intro hall hne
      obtain ⟨c, hc⟩ := exists_mem_of_ne_nil _ hne
      obtain ⟨hdrLen, totLen, hcheck, ⟨handler, hmem⟩, -⟩ := ipInput_calls hc
      obtain ⟨⟨rfl, rfl⟩, -⟩ := ipCheck_eq_some_iff.mp hcheck
      obtain ⟨-, hwhole, -, hpos, -⟩ := hall _ hmem
      dsimp only at hpos
      exact ⟨hwhole, by omega⟩
    · intro hcond c hc
      obtain ⟨hdrLen, totLen, hcheck, -, hcall⟩ := ipInput_calls hc
      obtain ⟨hlens, hhdr, -, hlen, htot, -⟩ := ipCheck_eq_some_iff.mp hcheck
      obtain ⟨hwhole, hle⟩ := hcond (ne_nil_of_mem hc)
      refine ⟨hhdr, hwhole, ?_⟩
      rw [← hlens.1, ← hlens.2] at hle
      rcases hcall with ⟨hs, hl⟩ | ⟨hs, hl⟩
      · rw [Call.Within, hs, hl]
        omega
      · rw [Call.Within, hs, hl]
        omega

end

/-- A frame at the address 0. -/
def frameOf (l : List UInt8) : Mem := fun i => l.getD i 0

/-- The header of a packet from 10.0.0.1 to 10.0.0.2 for UDP, with the more-fragments flag. -/
def firstFragment : Mem :=
  frameOf [69, 0, 0, 28, 0, 1, 32, 0, 64, 17, 70, 206, 10, 0, 0, 1, 10, 0, 0, 2]

/-- A header whose total length is 10. -/
def shortPacket : Mem :=
  frameOf [69, 0, 0, 10, 0, 1, 0, 0, 64, 17, 102, 224, 10, 0, 0, 1, 10, 0, 0, 2]

def hostIfn : Ifnet := ⟨0x0200000a, 0x000000ff⟩

theorem ipCheck_firstFragment : ipCheck firstFragment 0 28 = some (20, 28) := by
  rw [ipCheck_eq_some_iff, Ipv4Header]
  decide

theorem ipCheck_shortPacket : ipCheck shortPacket 0 28 = some (20, 10) := by
  rw [ipCheck_eq_some_iff, Ipv4Header]
  decide

/-- The test of the flag is made with its bytes exchanged: the first fragment of a datagram goes to
UDP, and so does a packet with a payload of -10 bytes. -/
theorem ipInput_takes_fragment :
    ((⟨.udp, 20, 8⟩ : Call) ∈ (ipInput (fun _ => 0) hostIfn firstFragment 0 28).1 ∧
      ¬Unfragmented firstFragment 0) ∧
    ((⟨.udp, 20, -10⟩ : Call) ∈ (ipInput (fun _ => 0) hostIfn shortPacket 0 28).1) := by
  rw [ipInput, ipCheck_firstFragment, ipInput, ipCheck_shortPacket, Unfragmented]
  decide

/-! ## Headers that are written -/

/-- `iph_template`, with the counter `ip_sequence`. -/
def iphTemplate (m : Mem) (ip : Nat) (proto ttl tos : BitVec 32) (ipSequence : BitVec 16) :
    Mem × BitVec 16 :=
  let m := m.store32 (ip + 8) ((proto <<< 8) + ttl)
  let m := m.store32 ip
    (((IP_HEADER_LEN : BitVec 32) <<< 24) + ((tos <<< 8) + (4 <<< 4) + (IP_HEADER_LEN >>> 2 : Nat)))
  let ipSequence := ipSequence + 1
  let x := ipSequence.setWidth 32 <<< 16
  let y := x >>> 24
  let x := x <<< 8
  (m.store32 (ip + 4) ((x >>> 16) + y), ipSequence)

/-- `mk_iphdr` -/
def mkIphdr (m : Mem) (ip : Nat) (saddr daddr len : BitVec 32) : Mem :=
  let m := m.store32 (ip + 12) saddr
  let m := m.store32 (ip + 16) daddr
  let len := len + IP_HEADER_LEN
  let tmp := len <<< 24
  let tmp := (len >>> 8) + (tmp >>> 16)
  let m := m.store16 (ip + 2) (tmp.setWidth 16)
  m.store16 (ip + 10) ((~~~inChksum 0 m ip IP_HEADER_LEN).setWidth 16)

section
variable {m : Mem} {ip : Nat} {saddr daddr len : BitVec 32} {ipSequence : BitVec 16}

theorem mkIphdr_ne {i : Nat} (h : i < ip + 2 ∨ ip + 4 ≤ i ∧ i < ip + 10 ∨ ip + 20 ≤ i) :
    mkIphdr m ip saddr daddr len i = m i := by
  rw [mkIphdr, store16_ne (by omega) (by omega), store16_ne (by omega) (by omega),
    store32_ne (by omega), store32_ne (by omega)]

/-- Over a checksum field of zero `mk_iphdr` completes the sum of the header. -/
theorem residue_wordSum_mkIphdr (h : m.load16 (ip + 10) = 0) :
    residue 65535 (wordSum (mkIphdr m ip saddr daddr len) ip 20) = 65535 := by
  rw [mkIphdr]
  set m' := ((m.store32 (ip + 12) saddr).store32 (ip + 16) daddr).store16 (ip + 2) _
  have hzero : m'.load16 (ip + 10) = 0 := by
    rw [load16_store16_ne (by omega), load16_store32_ne (by omega),
      load16_store32_ne (by omega), h]
  have hstore := wordSum_store16 m' ((~~~inChksum 0 m' ip IP_HEADER_LEN).setWidth 16) 5 ip 20
    (by decide)
  rw [hzero] at hstore
  have hsum := toNat_inChksum_lt 0 m' ip (by decide) (by decide : IP_HEADER_LEN ≤ 65535)
  have hdone := residue_add_not hsum
  rw [Nat.add_zero] at hstore
  change residue 65535 (0 + wordSum m' ip 20 + _) = _ at hdone
  rw [Nat.zero_add, ← hstore] at hdone
  exact hdone

theorem toNat_ntohs {x : BitVec 16} : (ntohs x).toNat = x.toNat % 256 * 256 + x.toNat / 256 := by
  have hlow : ((x >>> 8).setWidth 8).toNat = x.toNat / 256 := by
    rw [toNat_setWidth, toNat_ushiftRight, Nat.shiftRight_eq_div_pow]
    omega
  rw [ntohs, toNat_append, hlow, ← Nat.shiftLeft_add_eq_or_of_lt (by omega),
    Nat.shiftLeft_eq, toNat_setWidth]

theorem ipTotLen_mkIphdr (h : len.toNat + 20 < 65536) :
    (ntohs (ipTotLen (mkIphdr m ip saddr daddr len) ip)).toNat = len.toNat + 20 := by
  have hadd : (len + (IP_HEADER_LEN : BitVec 32)).toNat = len.toNat + 20 := by
    rw [toNat_add]
    change (len.toNat + 20) % 2 ^ 32 = _
    omega
  rw [ipTotLen, mkIphdr, load16_store16_ne (by omega), load16_store16, toNat_ntohs]
  generalize len + (IP_HEADER_LEN : BitVec 32) = n at hadd
  have hnum : (((n >>> 8) + (n <<< 24 >>> 16)).setWidth 16).toNat =
      n.toNat % 256 * 256 + n.toNat / 256 := by
    rw [toNat_setWidth, toNat_add, toNat_ushiftRight,
      toNat_ushiftRight, toNat_shiftLeft, Nat.shiftLeft_eq,
      Nat.shiftRight_eq_div_pow, Nat.shiftRight_eq_div_pow]
    omega
  rw [hnum]
  omega

end

section
variable (m : Mem) (ip : Nat) (proto ttl tos : BitVec 8) (ipSequence : BitVec 16)

theorem load16_iphTemplate_chksum :
    (iphTemplate m ip (proto.setWidth 32) (ttl.setWidth 32) (tos.setWidth 32) ipSequence).1.load16
      (ip + 10) = 0 := by
  rw [iphTemplate]
  rw [load16_store32_ne (by omega), load16_store32_ne (by omega), load16_store32_high]
  apply eq_of_toNat_eq
  rw [toNat_setWidth, toNat_ushiftRight, toNat_add, toNat_shiftLeft,
    toNat_setWidth, toNat_setWidth, Nat.shiftLeft_eq, Nat.shiftRight_eq_div_pow]
  change _ = 0
  omega

theorem ipOff_iphTemplate :
    (iphTemplate m ip (proto.setWidth 32) (ttl.setWidth 32) (tos.setWidth 32) ipSequence).1.load16
      (ip + 6) = 0 := by
  rw [iphTemplate]
  rw [load16_store32_high]
  generalize ipSequence + 1 = n
  -- the two bytes of the identification change places
  have hlow : (n.setWidth 32 <<< 16 <<< 8 >>> 16).toNat = n.toNat % 256 * 256 := by
    simp only [toNat_setWidth, toNat_ushiftRight, toNat_shiftLeft,
      Nat.shiftLeft_eq, Nat.shiftRight_eq_div_pow]
    omega
  have hhigh : (n.setWidth 32 <<< 16 >>> 24).toNat = n.toNat / 256 := by
    simp only [toNat_setWidth, toNat_ushiftRight, toNat_shiftLeft,
      Nat.shiftLeft_eq, Nat.shiftRight_eq_div_pow]
    omega
  have hid : n.toNat % 256 * 256 + n.toNat / 256 < 2 ^ 16 := by omega
  apply eq_of_toNat_eq
  rw [toNat_setWidth, toNat_ushiftRight, toNat_add, hlow, hhigh,
    Nat.shiftRight_eq_div_pow, Nat.mod_eq_of_lt (Nat.lt_trans hid (by decide)),
    Nat.div_eq_of_lt hid]
  rfl

theorem iphTemplate_first :
    ((iphTemplate m ip (proto.setWidth 32) (ttl.setWidth 32) (tos.setWidth 32) ipSequence).1
      ip).toNat = 0x45 := by
  rw [iphTemplate]
  dsimp only
  rw [store32_ne (by omega), toNat_eq_load16, load16_store32, toNat_setWidth]
  change ((20#32 <<< 24) + ((tos.setWidth 32 <<< 8) + 64#32 + 5#32)).toNat % 2 ^ 16 % 256 = _
  rw [toNat_add, toNat_add, toNat_add, toNat_shiftLeft,
    toNat_shiftLeft, toNat_setWidth, Nat.shiftLeft_eq, Nat.shiftLeft_eq]
  simp only [toNat_ofNat]
  omega

end

section
variable (m : Mem) (ip : Nat) (proto ttl tos : BitVec 8) (ipSequence : BitVec 16)
  (saddr daddr len : BitVec 32)

/-- The header that `iph_template` and `mk_iphdr` write one after the other. -/
def ipHeader : Mem :=
  mkIphdr (iphTemplate m ip (proto.setWidth 32) (ttl.setWidth 32) (tos.setWidth 32) ipSequence).1 ip
    saddr daddr len

/-- It passes the checks of `ip_input` in every frame that is long enough for it. -/
theorem ipCheck_ipHeader (n : Int) (hlen : len.toNat + 20 < 65536) (hn : (len.toNat + 20 : Nat) ≤ n) :
    ipCheck (ipHeader m ip proto ttl tos ipSequence saddr daddr len) ip n =
      some (20, len.toNat + 20) := by
  have hfirst : (ipHeader m ip proto ttl tos ipSequence saddr daddr len ip).toNat = 0x45 := by
    rw [ipHeader, mkIphdr_ne (by omega), iphTemplate_first]
  have hhlen : ipHlen (ipHeader m ip proto ttl tos ipSequence saddr daddr len) ip = 5 := by
    rw [ipHlen, hfirst]
  have hoff : ipOff (ipHeader m ip proto ttl tos ipSequence saddr daddr len) ip = 0 := by
    rw [ipOff, ipHeader, load16_congr (mkIphdr_ne (by omega)) (mkIphdr_ne (by omega)),
      ipOff_iphTemplate]
  have hsum : rfc1071 0 (Mem.bytes (ipHeader m ip proto ttl tos ipSequence saddr daddr len) ip 20) =
      0xffff := by
    apply eq_of_toNat_eq
    rw [toNat_rfc1071]
    exact (congrArg _ (Nat.zero_add _)).trans
      (residue_wordSum_mkIphdr (load16_iphTemplate_chksum m ip proto ttl tos ipSequence))
  rw [ipCheck_eq_some_iff, Ipv4Header, hhlen, hoff, ipVer, hfirst]
  refine ⟨⟨rfl, (ipTotLen_mkIphdr hlen).symm⟩, ⟨rfl, hsum⟩, Nat.le_refl 20, by omega, hn, ?_⟩
  exact zero_and

end

end Net
