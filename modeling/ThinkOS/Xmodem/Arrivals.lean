import ThinkOS.Xmodem.Receive

/-!
# What the receiver returns

What arrives on a line, byte by byte: packets begin where one is expected, a pause or an error ends a
packet before its time, and after a bad packet nothing is heard up to the next pause. The receiver
returns the data of the packets 1, 2, 3 and so on that arrive in this way, whatever the reads, the
timeouts and the lengths of the calls are.
-/

namespace Xmodem

open List

variable {r : Rcv × (Pc ⊕ Int)} {len cnt : Nat} {ev : Event} {data bs : List UInt8}

open Lib

/-! ## Arrivals -/

/-- A byte, or a pause or an error. -/
inductive Sym where
  | byte (b : UInt8)
  | gap

def Recv.syms : Recv → List Sym
  | .bytes bs => bs.map .byte
  | _ => [.gap]

inductive Phase where
  /-- a packet is expected -/
  | between
  /-- within a packet, of which so many bytes are missing -/
  | inside (got : List UInt8) (need : Nat)
  /-- after a bad packet -/
  | deaf

/-- The data of the packets that have arrived. -/
structure Heard where
  packets : List (List UInt8)
  phase : Phase

variable {h : Heard}

/-- The data of a packet. -/
def payload (crc : Bool) (f : List UInt8) : List UInt8 := (f.drop 3).take (f.length - 3 - fcsLen crc)

theorem payload_frame {crc : Bool} {seq : UInt8} : payload crc (frame crc seq data) = data := by
  have hlen : data.length + 3 + fcsLen crc - 3 - fcsLen crc = data.length := by omega
  rw [payload, length_frame, hlen, frame, append_assoc, drop_append_of_le_length (by simp [header])]
  simp [header]

section
variable (crc : Bool)

/-- A packet is complete: the next one, the last one again, or a bad one. -/
def Heard.complete (h : Heard) (f : List UInt8) : Heard :=
  let data := payload crc f
  if f = frame crc (number h.packets.length) data then ⟨h.packets ++ [data], .between⟩
  else if f = frame crc (number h.packets.length - 1) data then { h with phase := .between }
  else { h with phase := .deaf }

theorem sub_one_ne {n : UInt8} : n - 1 ≠ n := by
  intro h
  have hnat := congrArg UInt8.toNat h
  rw [UInt8.toNat_sub] at hnat
  simp only [UInt8.toNat_one] at hnat
  omega

theorem Heard.complete_repeated (h : Heard) :
    h.complete crc (frame crc (number h.packets.length - 1) data) = { h with phase := .between } := by
  unfold Heard.complete
  rw [payload_frame]
  rw [if_neg, if_pos rfl]
  intro heq
  simp only [frame, header, cons_append, List.cons.injEq] at heq
  exact sub_one_ne heq.2.1

def Heard.absorb (h : Heard) : Sym → Heard
  | .gap => { h with phase := .between }
  | .byte b =>
    match h.phase with
    | .between =>
      if b = STX then { h with phase := .inside [b] (1024 + 2 + fcsLen crc) }
      else if b = SOH then { h with phase := .inside [b] (128 + 2 + fcsLen crc) }
      else h
    | .inside got need =>
      if need ≤ 1 then h.complete crc (got ++ [b]) else { h with phase := .inside (got ++ [b]) (need - 1) }
    | .deaf => h

def Heard.absorbAll (h : Heard) (syms : List Sym) : Heard := syms.foldl (Heard.absorb crc) h

/-- What has arrived with the answers of a line. -/
def heard (line : List Recv) : Heard := Heard.absorbAll crc ⟨[], .between⟩ (line.flatMap Recv.syms)

theorem heard_append {line : List Recv} {r : Recv} :
    heard crc (line ++ [r]) = (heard crc line).absorbAll crc r.syms := by
  simp only [heard, Heard.absorbAll, flatMap_append, foldl_append, flatMap_singleton]

theorem absorbAll_inside (packets : List (List UInt8)) (got bs : List UInt8) {need : Nat}
    (h : bs.length ≤ need) (hpos : 0 < need) :
    Heard.absorbAll crc ⟨packets, .inside got need⟩ (bs.map .byte) =
      if bs.length = need then Heard.complete crc ⟨packets, .inside got need⟩ (got ++ bs)
      else ⟨packets, .inside (got ++ bs) (need - bs.length)⟩ := by
  induction bs generalizing got need with
  | nil =>
    rw [if_neg (by simpa using hpos.ne), append_nil]
    rfl
  | cons b bs ih =>
    rw [length_cons] at h
    rw [map_cons, Heard.absorbAll, foldl_cons, Heard.absorb]
    dsimp only
    by_cases h1 : need ≤ 1
    · have hnil : bs = [] := length_eq_zero_iff.mp (by omega)
      have hneed : need = 1 := by omega
      rw [if_pos h1, hnil, hneed, length_singleton, if_pos rfl]
      rfl
    · rw [if_neg h1]
      refine (ih (got ++ [b]) (by omega : bs.length ≤ need - 1) (by omega)).trans ?_
      rw [append_assoc, singleton_append, length_cons]
      by_cases heq : bs.length = need - 1
      · rw [if_pos heq, if_pos (by omega)]
        rfl
      · rw [if_neg heq, if_neg (by omega), Nat.sub_sub, Nat.add_comm 1]

/-- The packets have 128 or 1024 bytes of data. -/
def Heard.Sized (h : Heard) : Prop :=
  (∀ data ∈ h.packets, data.length = 128 ∨ data.length = 1024) ∧
    ∀ got need, h.phase = .inside got need → 0 < need ∧
      (got.length + need = 128 + 3 + fcsLen crc ∨ got.length + need = 1024 + 3 + fcsLen crc)

variable {crc} in
theorem Heard.Sized.complete (hs : h.Sized crc) {f : List UInt8}
    (hf : f.length = 128 + 3 + fcsLen crc ∨ f.length = 1024 + 3 + fcsLen crc) :
    (h.complete crc f).Sized crc := by
  unfold Heard.complete
  dsimp only
  split
  · refine ⟨fun data hmem => ?_, nofun⟩
    rcases mem_append.mp hmem with hold | hnew
    · exact hs.1 data hold
    · rw [mem_singleton.mp hnew, payload, length_take, length_drop]
      omega
  · split
    · exact ⟨hs.1, nofun⟩
    · exact ⟨hs.1, nofun⟩

variable {crc} in
theorem Heard.Sized.absorb (hs : h.Sized crc) (sym : Sym) : (h.absorb crc sym).Sized crc := by
  cases sym with
  | gap => exact ⟨hs.1, nofun⟩
  | byte b =>
    obtain ⟨packets, phase⟩ := h
    cases phase with
    | between =>
      unfold Heard.absorb
      dsimp only
      split
      · refine ⟨hs.1, ?_⟩
        rintro _ _ ⟨⟩
        exact ⟨by omega, .inr (by rw [length_singleton]; omega)⟩
      · split
        · refine ⟨hs.1, ?_⟩
          rintro _ _ ⟨⟩
          exact ⟨by omega, .inl (by rw [length_singleton]; omega)⟩
        · exact hs
    | inside got need =>
      obtain ⟨hpos, hlen⟩ := hs.2 got need rfl
      unfold Heard.absorb
      dsimp only
      split
      · refine hs.complete ?_
        rw [length_append, length_singleton]
        omega
      · refine ⟨hs.1, ?_⟩
        rintro _ _ ⟨⟩
        rw [length_append, length_singleton]
        omega
    | deaf => exact hs

theorem heard_sized (line : List Recv) : (heard crc line).Sized crc := by
  unfold heard Heard.absorbAll
  generalize line.flatMap Recv.syms = syms
  induction syms using List.reverseRecOn with
  | nil => exact ⟨nofun, nofun⟩
  | append_singleton syms sym ih =>
    rw [foldl_append]
    exact ih.absorb sym

theorem absorbAll_deaf {packets : List (List UInt8)} :
    Heard.absorbAll crc ⟨packets, .deaf⟩ (bs.map .byte) = ⟨packets, .deaf⟩ := by
  induction bs with
  | nil => rfl
  | cons b bs ih => exact ih

end

/-! ## The packet in the buffer -/

section
variable {x : Rcv}

theorem toBitVec_or_eq {p q : UInt8} {c : BitVec 16} :
    p.toBitVec.setWidth 16 <<< 8 ||| q.toBitVec.setWidth 16 = c ↔
      p = ⟨(c >>> 8).setWidth 8⟩ ∧ q = ⟨c.setWidth 8⟩ := by
  constructor
  · rintro rfl
    refine ⟨UInt8.toBitVec_inj.mp ?_, UInt8.toBitVec_inj.mp ?_⟩
    · ext i hi
      interval_cases i <;> simp
    · ext i hi
      interval_cases i <;> simp
  · rintro ⟨rfl, rfl⟩
    ext i hi
    interval_cases i <;> simp

/-- The comparison of the frame check is one with the check of the data. -/
theorem checked_iff : x.checked cnt = true ↔
    x.pkt.bytes (3 + cnt) (fcsLen x.crc) = fcs x.crc (x.pkt.bytes 3 cnt) := by
  unfold Rcv.checked fcs fcsLen
  cases x.crc with
  | true =>
    simp only [if_true, decide_eq_true_eq, foldl_crc16ccitt, toBitVec_or_eq, Mem.bytes, List.cons.injEq,
      and_true]
  | false =>
    simp only [Bool.false_eq_true, if_false, decide_eq_true_eq, Mem.bytes, List.cons.injEq, and_true,
      cksOf]

theorem bytes_packet {m : Mem} {k : Nat} :
    m.bytes 0 (cnt + 3 + k) = [m 0, m 1, m 2] ++ m.bytes 3 cnt ++ m.bytes (3 + cnt) k := by
  rw [Nat.add_comm cnt 3, Mem.bytes_add, Mem.bytes_add, Nat.zero_add, Nat.zero_add]
  rfl

theorem payload_packet : payload x.crc (x.pkt.bytes 0 (cnt + 3 + fcsLen x.crc)) = x.pkt.bytes 3 cnt := by
  unfold payload
  rw [Mem.length_bytes, bytes_packet, append_assoc, drop_append_of_le_length (by simp)]
  have hlen : cnt + 3 + fcsLen x.crc - 3 - fcsLen x.crc = (x.pkt.bytes 3 cnt).length := by
    rw [Mem.length_bytes]
    omega
  rw [hlen]
  simp

/-- The packet in the buffer is the one with a number when its bytes for the number, the complement and
the frame check are right. -/
theorem packet_eq_frame_iff (hstart : x.pkt 0 = if cnt = 1024 then STX else SOH) (n : UInt8) :
    x.pkt.bytes 0 (cnt + 3 + fcsLen x.crc) = frame x.crc n (x.pkt.bytes 3 cnt) ↔
      x.pkt 1 = n ∧ x.pkt 2 = ~~~ n ∧ x.checked cnt = true := by
  rw [bytes_packet, frame, checked_iff]
  have hhead : header n (x.pkt.bytes 3 cnt) = [x.pkt 0, n, ~~~ n] := by
    rw [header, Mem.length_bytes, hstart]
  rw [hhead]
  constructor
  · intro h
    obtain ⟨hleft, hfcs⟩ := append_inj h (by simp)
    obtain ⟨hthree, -⟩ := append_inj hleft (by simp)
    simp only [List.cons.injEq, true_and, and_true] at hthree
    exact ⟨hthree.1, hthree.2, hfcs⟩
  · rintro ⟨h1, h2, h3⟩
    rw [h1, h2, h3]

end

/-! ## One answer of the line -/

/-- The data of the last packet that was not returned yet. -/
def Rcv.pending (x : Rcv) : List UInt8 := x.pkt.bytes (3 + x.dataPos) (x.dataLen - x.dataPos)

/-- The receiver counts the packets that were heard. -/
def Rcv.Counts (x : Rcv) (crc : Bool) (h : Heard) : Prop :=
  x.crc = crc ∧ x.pktno = number h.packets.length

/-- The read that the receiver is at is the one for what was heard. -/
def Rcv.At (x : Rcv) (h : Heard) : Pc → Prop
  | .head => h.phase = .between
  | .packet cnt rem =>
    h.phase = .inside (x.pkt.bytes 0 (cnt + 3 + fcsLen x.crc - rem)) rem ∧
      (0 < rem ∧ rem ≤ cnt + 2 + fcsLen x.crc) ∧ (cnt = 1024 ∨ cnt = 128) ∧
      x.pkt 0 = if cnt = 1024 then STX else SOH
  | .flush => h.phase = .deaf

/-- Where an answer of the line has taken the receiver, from `h` heard before to `h'` heard with it;
`eot` says that the answer ends a transmission. -/
inductive Settled (crc : Bool) (eot : Prop) (h h' : Heard) : Rcv × (Pc ⊕ Int) → Prop
  /-- it reads on -/
  | reads {x : Rcv} {pc : Pc} (hcounts : x.Counts crc h') (hdone : x.dataLen ≤ x.dataPos)
      (hat : x.At h' pc) (hsame : h'.packets = h.packets) : Settled crc eot h h' (x, .inl pc)
  /-- it fails -/
  | fails {x : Rcv} {ret : Int} (hcounts : x.Counts crc h') (hdone : x.dataLen ≤ x.dataPos)
      (hphase : h'.phase = .between) (hsame : h'.packets = h.packets) (hret : ret < 0) :
      Settled crc eot h h' (x, .inr ret)
  /-- the transmission is over -/
  | ends {x : Rcv} (hcounts : x.Counts crc h') (hdone : x.dataLen ≤ x.dataPos)
      (hphase : h'.phase = .between) (hsame : h'.packets = h.packets) (heot : eot) :
      Settled crc eot h h' (x, .inr 0)
  /-- the next packet is there -/
  | takes {x : Rcv} (hcounts : x.Counts crc h') (hpos : x.dataPos < x.dataLen)
      (hphase : h'.phase = .between) (hnew : h'.packets = h.packets ++ [x.pending]) :
      Settled crc eot h h' (x, .inr x.dataLen)

section
variable {sendRet : Nat → Int} {crc : Bool} {eot : Prop} {h' : Heard} {x : Rcv}

/-- `xmodem_rcv_pkt` returns 0 at the end of a transmission only. -/
theorem Settled.eot_of_zero (hr : Settled crc eot h h' r) (hzero : r.2 = .inr 0) : eot := by
  cases hr with
  | reads => cases hzero
  | fails _ _ _ _ hret => exact absurd (Sum.inr.inj hzero) hret.ne
  | ends _ _ _ _ heot => exact heot
  | takes _ hpos =>
    have := Sum.inr.inj hzero
    omega

theorem Settled.start (hcounts : x.Counts crc h') (hdone : x.dataLen ≤ x.dataPos)
    (hphase : h'.phase = .between) (hsame : h'.packets = h.packets) :
    Settled crc eot h h' (x.start sendRet) := by
  unfold Rcv.start Rcv.send
  dsimp only
  split
  · rename_i hret
    exact .fails hcounts hdone hphase hsame hret
  · exact .reads hcounts hdone hphase hsame

theorem Settled.again (hcounts : x.Counts crc h') (hdone : x.dataLen ≤ x.dataPos)
    (hphase : h'.phase = .between) (hsame : h'.packets = h.packets) :
    Settled crc eot h h' (x.again sendRet) := by
  unfold Rcv.again
  dsimp only
  split
  · exact .fails hcounts hdone hphase hsame (by decide)
  · exact Settled.start hcounts hdone hphase hsame

theorem Settled.head (hcounts : x.Counts crc h) (hdone : x.dataLen ≤ x.dataPos)
    (hphase : h.phase = .between) (heot : x.pkt 0 = EOT → eot) :
    Settled crc eot h (h.absorb crc (.byte (x.pkt 0))) (x.head sendRet) := by
  obtain ⟨hcrc, hpktno⟩ := hcounts
  have hrest : ∀ n, n + (if x.crc then 4 else 3) = n + 2 + fcsLen crc := by
    intro n
    rw [← hcrc, fcsLen]
    split <;> rfl
  have hgot : ∀ n, x.pkt.bytes 0 (n + 3 + fcsLen x.crc - (n + 2 + fcsLen crc)) = [x.pkt 0] := by
    intro n
    rw [hcrc, show n + 3 + fcsLen crc - (n + 2 + fcsLen crc) = 1 by omega]
    rfl
  unfold Rcv.head Heard.absorb
  simp only [hphase, hrest]
  by_cases hstx : x.pkt 0 = STX
  · rw [if_pos hstx, if_pos hstx]
    refine .reads ⟨hcrc, hpktno⟩ hdone ⟨?_, ⟨by omega, ?_⟩, .inl rfl, hstx⟩ rfl
    · rw [hgot]
    · rw [hcrc]
  · rw [if_neg hstx, if_neg hstx]
    by_cases hsoh : x.pkt 0 = SOH
    · rw [if_pos hsoh, if_pos hsoh]
      refine .reads ⟨hcrc, hpktno⟩ hdone ⟨?_, ⟨by omega, ?_⟩, .inr rfl, hsoh⟩ rfl
      · rw [hgot]
      · rw [hcrc]
    · rw [if_neg hsoh, if_neg hsoh]
      split
      · rename_i hb
        unfold Rcv.send
        split
        · rename_i hret
          exact .fails ⟨hcrc, hpktno⟩ hdone hphase rfl hret
        · exact .ends ⟨hcrc, hpktno⟩ hdone hphase rfl (heot hb)
      · exact .reads ⟨hcrc, hpktno⟩ hdone hphase rfl

theorem Settled.packet (hcounts : x.Counts crc h) (hdone : x.dataLen ≤ x.dataPos) (hcnt : 0 < cnt)
    (hstart : x.pkt 0 = if cnt = 1024 then STX else SOH) :
    Settled crc eot h (h.complete crc (x.pkt.bytes 0 (cnt + 3 + fcsLen crc)))
      (x.packet sendRet cnt) := by
  obtain ⟨rfl, hpktno⟩ := hcounts
  have hframe := packet_eq_frame_iff hstart
  unfold Rcv.packet Heard.complete
  rw [payload_packet, ← hpktno]
  by_cases hbad : x.pkt 1 ≠ ~~~ x.pkt 2 ∨ ¬ x.checked cnt = true
  · -- no number makes it a packet
    have hno : ∀ n, ¬ (x.pkt 1 = n ∧ x.pkt 2 = ~~~ n ∧ x.checked cnt = true) := by
      rintro n ⟨h1, h2, h3⟩
      rcases hbad with hne | hck
      · rw [h1, h2, UInt8.not_not] at hne
        exact hne rfl
      · exact hck h3
    rw [if_pos hbad, if_neg (mt (hframe _).mp (hno _)), if_neg (mt (hframe _).mp (hno _))]
    exact .reads ⟨rfl, hpktno⟩ hdone rfl rfl
  · rw [if_neg hbad]
    simp only [not_or, not_not] at hbad
    have h2 : x.pkt 2 = ~~~ x.pkt 1 := by rw [hbad.1, UInt8.not_not]
    by_cases hprev : x.pkt 1 = x.pktno - 1
    · have hne : ¬ (x.pkt 1 = x.pktno ∧ x.pkt 2 = ~~~ x.pktno ∧ x.checked cnt = true) := by
        rintro ⟨h1, -⟩
        exact sub_one_ne (hprev.symm.trans h1)
      rw [if_pos hprev, if_neg (mt (hframe _).mp hne),
        if_pos ((hframe _).mpr ⟨hprev, by rw [h2, hprev], hbad.2⟩)]
      exact Settled.start ⟨rfl, hpktno⟩ hdone rfl rfl
    · rw [if_neg hprev]
      by_cases hnext : x.pkt 1 = x.pktno
      · rw [if_neg (not_not.mpr hnext), if_pos ((hframe _).mpr ⟨hnext, by rw [h2, hnext], hbad.2⟩)]
        refine .takes ⟨rfl, ?_⟩ hcnt rfl rfl
        rw [length_append, length_singleton, number_succ, ← hpktno]
      · rw [if_pos hnext, if_neg fun hf => hnext ((hframe _).mp hf).1,
          if_neg fun hf => hprev ((hframe _).mp hf).1]
        exact .reads ⟨rfl, hpktno⟩ hdone rfl rfl

theorem packet_repeated (sendRet : Nat → Int) (hstart : x.pkt 0 = if cnt = 1024 then STX else SOH)
    (hframe : x.pkt.bytes 0 (cnt + 3 + fcsLen x.crc) = frame x.crc (x.pktno - 1) (x.pkt.bytes 3 cnt)) :
    x.packet sendRet cnt = { x with sync := ACK }.start sendRet := by
  obtain ⟨h1, h2, hck⟩ := (packet_eq_frame_iff hstart _).mp hframe
  have hgood : ¬ (x.pkt 1 ≠ ~~~ x.pkt 2 ∨ ¬ x.checked cnt = true) := by
    rw [h1, h2, UInt8.not_not, hck]
    simp
  unfold Rcv.packet
  rw [if_neg hgood, if_pos h1]

/-- The read of the rest of a packet stores it behind what has come of the packet. -/
theorem resume_packet (sendRet : Nat → Int) {rem : Nat} (hat : x.At h (.packet cnt rem))
    (hlen : bs.length ≤ rem) : ∃ k m, k = cnt + 3 + fcsLen x.crc - rem ∧
      m 0 = x.pkt 0 ∧ m.bytes 0 (k + bs.length) = x.pkt.bytes 0 k ++ bs ∧
      x.resume sendRet (.packet cnt rem) (.bytes bs) =
        if bs.length = rem then { x with pkt := m }.packet sendRet cnt
        else ({ x with pkt := m }, .inl (.packet cnt (rem - bs.length))) := by
  obtain ⟨-, ⟨hpos, hle⟩, -⟩ := hat
  obtain ⟨k, hk⟩ : ∃ k, k = cnt + 3 + fcsLen x.crc - rem := ⟨_, rfl⟩
  have hpos' : 1 + (cnt + (if x.crc then 4 else 3) - rem) = 0 + k := by
    have hrest : (if x.crc then 4 else 3) = 2 + fcsLen x.crc := by
      rw [fcsLen]
      split <;> rfl
    omega
  refine ⟨k, x.pkt.storeBytes (0 + k) bs, hk, Mem.storeBytes_ne (.inl (by omega)),
    Mem.bytes_storeBytes_append x.pkt 0 k bs, ?_⟩
  unfold Rcv.resume
  dsimp only
  rw [hpos']
  by_cases hfull : bs.length = rem
  · rw [if_pos hfull, if_pos (by omega : rem - bs.length = 0)]
  · rw [if_neg hfull, if_neg (by omega : ¬ rem - bs.length = 0)]

theorem start_ne_zero : (x.start sendRet).2 ≠ .inr 0 := by
  unfold Rcv.start Rcv.send
  dsimp only
  split
  · rename_i hret
    intro h
    exact absurd (Sum.inr.inj h) hret.ne
  · nofun

/-- **The receiver follows what arrives.** -/
theorem Settled.resume (hcounts : x.Counts crc h) (hdone : x.dataLen ≤ x.dataPos) {pc : Pc} {r : Recv}
    (hat : x.At h pc) (hfits : r.Fits pc.want) :
    Settled crc (pc = .head ∧ r = .bytes [EOT]) h (h.absorbAll crc r.syms)
      (x.resume sendRet pc r) := by
  cases pc with
  | head =>
    cases r with
    | bytes bs =>
      obtain ⟨b, rfl⟩ := length_eq_one_iff.mp (Nat.le_antisymm hfits.2 hfits.1)
      exact Settled.head (x := { x with pkt := x.pkt.storeBytes 0 [b] }) hcounts hdone hat
        fun hb => ⟨rfl, congrArg (Recv.bytes [·]) hb⟩
    | timeout => exact Settled.again hcounts hdone rfl rfl
    | error e => exact .fails hcounts hdone rfl rfl (by have : e < -1 := hfits; omega)
  | packet cnt rem =>
    cases r with
    | bytes bs =>
      obtain ⟨hone, hlen⟩ : 1 ≤ bs.length ∧ bs.length ≤ rem := hfits
      obtain ⟨k, m, hk, hstart', hgot, heq⟩ := resume_packet sendRet hat hlen
      obtain ⟨hphase, ⟨hpos, hle⟩, hcnt, hstart⟩ := hat
      obtain ⟨packets, phase⟩ := h
      obtain ⟨rfl, hpktno⟩ := hcounts
      subst hphase
      rw [heq, Recv.syms, absorbAll_inside _ _ _ _ hlen hpos, ← hk, ← hgot]
      by_cases hfull : bs.length = rem
      · rw [if_pos hfull, if_pos hfull, show k + bs.length = cnt + 3 + fcsLen x.crc by omega]
        exact Settled.packet (x := { x with pkt := m }) ⟨rfl, hpktno⟩ hdone (by omega)
          (hstart'.trans hstart)
      · rw [if_neg hfull, if_neg hfull]
        refine .reads ⟨rfl, hpktno⟩ hdone ⟨?_, ⟨by omega, by dsimp only; omega⟩, hcnt,
          hstart'.trans hstart⟩ rfl
        rw [show cnt + 3 + fcsLen x.crc - (rem - bs.length) = k + bs.length by omega]
    | timeout => exact Settled.again hcounts hdone rfl rfl
    | error e => exact .fails hcounts hdone rfl rfl (by have : e < -1 := hfits; omega)
  | flush =>
    cases r with
    | bytes bs =>
      have hone : 1 ≤ bs.length := hfits.1
      obtain ⟨packets, phase⟩ := h
      subst hat
      unfold Rcv.resume
      dsimp only
      rw [if_neg (by omega : ¬ bs.length = 0), Recv.syms, absorbAll_deaf]
      exact .reads hcounts hdone rfl rfl
    | timeout => exact Settled.again hcounts hdone rfl rfl
    | error e => exact Settled.again hcounts hdone rfl rfl

end

/-! ## Whole runs -/

/-- What the calls have returned and what is still to be returned is what was heard. -/
structure Agrees (crc : Bool) (h : Heard) (s : Session) : Prop where
  counts : s.x.Counts crc h
  out : s.out ++ s.x.pending = h.packets.flatten
  call : match s.call with
    | none => h.phase = .between
    | some (pc, _) => s.x.At h pc ∧ s.x.dataLen ≤ s.x.dataPos

section
variable {sendRet : Nat → Int} {crc : Bool} {h' : Heard} {s s' : Session}

theorem pending_eq_nil {x : Rcv} (hdone : x.dataLen ≤ x.dataPos) : x.pending = [] := by
  rw [Rcv.pending, Nat.sub_eq_zero_of_le hdone]
  rfl

theorem Agrees.of_done (hcounts : s.x.Counts crc h) (hdone : s.x.dataLen ≤ s.x.dataPos)
    (hout : s.out = h.packets.flatten)
    (hcall : match s.call with | none => h.phase = .between | some (pc, _) => s.x.At h pc) :
    Agrees crc h s := by
  refine ⟨hcounts, by rw [pending_eq_nil hdone, append_nil, hout], ?_⟩
  cases hc : s.call with
  | none =>
    rw [hc] at hcall
    exact hcall
  | some c =>
    rw [hc] at hcall
    exact ⟨hcall, hdone⟩

/-- A call returns data at hand, or starts to read. -/
theorem Agrees.enter (hcounts : s.x.Counts crc h) (hout : s.out ++ s.x.pending = h.packets.flatten)
    (hphase : h.phase = .between) (len : Nat) : Agrees crc h (s.enter sendRet len) := by
  unfold Session.enter
  by_cases hrem : 0 < s.x.dataLen - s.x.dataPos
  · rw [if_pos hrem]
    refine ⟨hcounts, ?_, hphase⟩
    rw [← hout]
    obtain ⟨n, hn⟩ : ∃ n, n = min (s.x.dataLen - s.x.dataPos) len := ⟨_, rfl⟩
    simp only [Session.ret, Rcv.pending, ← hn]
    rw [append_assoc, ← Nat.add_assoc 3, ← Mem.bytes_add]
    congr 2
    omega
  · rw [if_neg hrem]
    have hdone : s.x.dataLen ≤ s.x.dataPos := by omega
    have hstart : Settled crc False h h (s.x.start sendRet) := .start hcounts hdone hphase rfl
    rw [pending_eq_nil hdone, append_nil] at hout
    generalize s.x.start sendRet = r at hstart ⊢
    cases hstart with
    | reads hcounts hdone hat hsame => exact .of_done hcounts hdone hout hat
    | fails hcounts hdone hphase hsame hret => exact .of_done hcounts hdone hout hphase
    | ends _ _ _ _ hf => exact hf.elim
    | takes hcounts hpos hphase hnew => exact absurd hnew (by simp)

theorem Agrees.settle {eot : Prop} (hout : s.out = h.packets.flatten)
    (hr : Settled crc eot h h' r) (len : Nat) : Agrees crc h' (s.settle sendRet len r) := by
  cases hr with
  | reads hcounts hdone hat hsame => exact .of_done hcounts hdone (hout.trans (by rw [hsame])) hat
  | @fails x ret hcounts hdone hphase hsame hret =>
    unfold Session.settle
    dsimp only
    rw [if_neg (by omega)]
    exact .of_done hcounts hdone (hout.trans (by rw [hsame])) hphase
  | ends hcounts hdone hphase hsame _ => exact .of_done hcounts hdone (hout.trans (by rw [hsame])) hphase
  | @takes x hcounts hpos hphase hnew =>
    unfold Session.settle
    dsimp only
    rw [if_pos (by omega)]
    -- the loop goes round, and finds the packet
    refine Agrees.enter hcounts ?_ hphase len
    rw [hnew, flatten_append, flatten_singleton, hout]

theorem enter_line : (s.enter sendRet len).line = s.line := by
  unfold Session.enter Session.ret
  dsimp only
  split
  · rfl
  · split <;> rfl

theorem settle_line : (s.settle sendRet len r).line = s.line := by
  unfold Session.settle
  split
  · rfl
  · split
    · exact enter_line
    · rfl

theorem step_line {r : Recv} (hstep : s.step sendRet (.line r) = some s') :
    ∃ pc len, s.call = some (pc, len) ∧ r.Fits pc.want ∧ s'.line = s.line ++ [r] ∧
      s' = { s with line := s.line ++ [r] }.settle sendRet len (s.x.resume sendRet pc r) := by
  obtain ⟨⟨pc, len⟩, hcall, hrest⟩ := Option.bind_eq_some_iff.mp hstep
  obtain ⟨hfits, hrest⟩ := Option.ite_none_right_eq_some.mp hrest
  cases hrest
  exact ⟨pc, len, hcall, hfits, settle_line, rfl⟩

theorem Agrees.step (hs : Agrees crc (heard crc s.line) s) (hstep : s.step sendRet ev = some s') :
    Agrees crc (heard crc s'.line) s' := by
  cases ev with
  | call len =>
    unfold Session.step at hstep
    dsimp only at hstep
    split_ifs at hstep with hcall hlen
    · cases hstep
      have hphase := hs.call
      rw [not_not.mp hcall] at hphase
      exact ⟨hs.counts, hs.out, hphase⟩
    · cases hstep
      have hphase := hs.call
      rw [not_not.mp hcall] at hphase
      rw [enter_line]
      exact .enter hs.counts hs.out hphase len
  | line r =>
    obtain ⟨pc, len, hcall, hfits, hline, rfl⟩ := step_line hstep
    rw [hline, heard_append]
    have hc := hs.call
    rw [hcall] at hc
    have hout := hs.out
    rw [pending_eq_nil hc.2, append_nil] at hout
    exact Agrees.settle (s := { s with line := s.line ++ [r] }) hout
      (.resume hs.counts hc.2 hc.1 hfits) len

theorem settle_start (sendRet : Nat → Int) (y : Rcv) (len : Nat) :
    (s.settle sendRet len (y.start sendRet)).out = s.out ∧ (0 ≤ sendRet y.sends →
        (s.settle sendRet len (y.start sendRet)).x.sent = y.sent ++ [y.sync]) := by
  unfold Rcv.start Rcv.send
  dsimp only
  by_cases hret : sendRet y.sends < 0
  · rw [if_pos hret]
    unfold Session.settle
    dsimp only
    rw [if_neg (by omega : ¬ 0 < sendRet y.sends)]
    exact ⟨rfl, fun h => absurd h (by omega)⟩
  · rw [if_neg hret, if_neg hret]
    exact ⟨rfl, fun _ => rfl⟩

/-- The previous packet again: it is acknowledged, and its data is dropped. -/
theorem Agrees.repeated (hs : Agrees crc (heard crc s.line) s) {got : List UInt8}
    (hphase : (heard crc s.line).phase = .inside got bs.length)
    (hframe : got ++ bs = frame crc (number (heard crc s.line).packets.length - 1) data)
    (hstep : s.step sendRet (.line (.bytes bs)) = some s') :
    s'.out = s.out ∧ (heard crc s'.line).packets = (heard crc s.line).packets ∧
      (0 ≤ sendRet s.x.sends → s'.x.sent = s.x.sent ++ [ACK]) := by
  obtain ⟨pc, len, hcall, hfits, hline, rfl⟩ := step_line hstep
  have hat := hs.call
  rw [hcall] at hat
  obtain ⟨hat, -⟩ := hat
  cases pc with
  | head => exact absurd (hat.symm.trans hphase) nofun
  | flush => exact absurd (hat.symm.trans hphase) nofun
  | packet cnt rem =>
    obtain ⟨k, m, hk, hstart', hgot, heq⟩ := resume_packet sendRet hat (by exact hfits.2)
    obtain ⟨hin, ⟨hpos, hle⟩, -, hstart⟩ := hat
    obtain ⟨rfl, rfl⟩ : got = s.x.pkt.bytes 0 k ∧ bs.length = rem := by
      rw [hk]
      simpa using hphase.symm.trans hin
    obtain ⟨rfl, hpktno⟩ := hs.counts
    have hall : k + bs.length = cnt + 3 + fcsLen s.x.crc := by omega
    have hdata : data = m.bytes 3 cnt := by
      have := congrArg (payload s.x.crc) (hgot.trans hframe)
      rw [payload_frame, hall] at this
      exact this.symm.trans (payload_packet (x := { s.x with pkt := m }))
    have hpackets : (heard s.x.crc (s.line ++ [.bytes bs])).packets = (heard s.x.crc s.line).packets := by
      rw [heard_append, Recv.syms]
      generalize heard s.x.crc s.line = h at hphase hframe ⊢
      obtain ⟨packets, phase⟩ := h
      subst hphase
      rw [absorbAll_inside _ _ _ _ le_rfl hpos, if_pos rfl, hframe, Heard.complete_repeated]
    have hstarts := packet_repeated sendRet (x := { s.x with pkt := m })
      (hstart'.trans hstart) (by rw [← hall, hgot, hframe, hdata, hpktno])
    obtain ⟨hout, hsent⟩ := settle_start (s := { s with line := s.line ++ [.bytes bs] })
      sendRet { s.x with pkt := m, sync := ACK } len
    rw [← hline] at hpackets
    rw [heq, if_pos rfl, hstarts] at hpackets ⊢
    exact ⟨hout, hpackets, hsent⟩

/-- The call under way was made for at least one byte. -/
def Session.Asks (s : Session) : Prop := ∀ pc len, s.call = some (pc, len) → 0 < len

theorem enter_asks (hlen : 0 < len) : (s.enter sendRet len).Asks := by
  unfold Session.enter
  dsimp only
  split
  · exact nofun
  · split
    · rintro pc len ⟨⟩
      exact hlen
    · exact nofun

theorem settle_asks (hlen : 0 < len) : (s.settle sendRet len r).Asks := by
  unfold Session.settle
  split
  · rintro pc len ⟨⟩
    exact hlen
  · split
    · exact enter_asks hlen
    · exact nofun

theorem step_asks (hs : s.Asks) (hstep : s.step sendRet ev = some s') : s'.Asks := by
  cases ev with
  | call len =>
    unfold Session.step at hstep
    dsimp only at hstep
    split_ifs at hstep with hcall hlen
    · cases hstep
      exact nofun
    · cases hstep
      exact enter_asks (by omega)
  | line r =>
    obtain ⟨pc, len, hcall, -, -, rfl⟩ := step_line hstep
    exact settle_asks (hs pc len hcall)

theorem enter_rets (hlen : 0 < len) : (s.enter sendRet len).rets ≠ s.rets ++ [0] := by
  unfold Session.enter
  dsimp only
  split
  · intro h
    have := append_cancel_left h
    simp only [List.cons.injEq, and_true] at this
    omega
  · have hne : (s.x.start sendRet).2 ≠ .inr 0 := start_ne_zero
    generalize s.x.start sendRet = r at hne ⊢
    obtain ⟨x, pc | ret⟩ := r
    · simp
    · intro h
      have := append_cancel_left h
      simp only [List.cons.injEq, and_true] at this
      exact hne (by rw [this])

theorem settle_rets (hlen : 0 < len) (h : (s.settle sendRet len r).rets = s.rets ++ [0]) :
    r.2 = .inr 0 ∧ (s.settle sendRet len r).out = s.out := by
  obtain ⟨x, pc | ret⟩ := r
  · simp [Session.settle] at h
  · unfold Session.settle at h
    dsimp only at h
    split at h
    · exact absurd h (enter_rets (s := { s with x }) hlen)
    · have hret := append_cancel_left h
      simp only [List.cons.injEq, and_true] at hret
      rw [hret]
      exact ⟨rfl, rfl⟩

/-- **A call returns 0** after the byte EOT in the place of a packet, with everything returned. -/
theorem Agrees.returns_zero (hs : Agrees crc (heard crc s.line) s) (hasks : s.Asks)
    (hstep : s.step sendRet ev = some s') (hzero : s'.rets = s.rets ++ [0]) :
    ev = .line (.bytes [EOT]) ∧ (heard crc s.line).phase = .between ∧
      s'.out = (heard crc s'.line).packets.flatten := by
  cases ev with
  | call len =>
    exfalso
    unfold Session.step at hstep
    dsimp only at hstep
    split_ifs at hstep with hcall hlen
    · cases hstep
      exact absurd (append_cancel_left hzero) (by decide)
    · cases hstep
      exact enter_rets (by omega) hzero
  | line r =>
    obtain ⟨pc, len, hcall, hfits, hline, rfl⟩ := step_line hstep
    have hc := hs.call
    rw [hcall] at hc
    obtain ⟨hend, hsame⟩ := settle_rets (s := { s with line := s.line ++ [r] }) (hasks pc len hcall) hzero
    obtain ⟨rfl, rfl⟩ := (Settled.resume hs.counts hc.2 hc.1 hfits).eot_of_zero hend
    have hphase : (heard crc s.line).phase = .between := hc.1
    have hheard : heard crc (s.line ++ [.bytes [EOT]]) = heard crc s.line := by
      rw [heard_append]
      change Heard.absorb crc _ (.byte EOT) = _
      rw [Heard.absorb, hphase]
      rfl
    have hout := hs.out
    rw [pending_eq_nil hc.2, append_nil] at hout
    refine ⟨rfl, hphase, ?_⟩
    rw [hsame, hline, hheard]
    exact hout

theorem agrees_init {pkt : Mem} : Agrees crc (heard crc []) (Session.init crc pkt) :=
  ⟨⟨rfl, rfl⟩, rfl, rfl⟩

theorem agrees_of_run {pkt : Mem}
    (hrun : (receiver sendRet).Run (fun _ _ => True) (Session.init crc pkt) s) :
    Agrees crc (heard crc s.line) s ∧ s.Asks :=
  hrun.invariant (I := fun s => Agrees crc (heard crc s.line) s ∧ s.Asks)
    (fun _ _ _ hs _ hstep => ⟨hs.1.step hstep, step_asks hs.2 hstep⟩) ⟨agrees_init, nofun⟩

end

/-- **The receiver**, along every run with a line that answers its reads in any way: what the calls have
returned, and what is at hand for the next ones, is the data of the packets 1, 2, 3 and so on modulo 256
that have arrived; the packet before again is acknowledged and dropped; and a call returns 0 only for the
byte EOT where a packet is expected, when everything has been returned. -/
theorem receives_packets (sendRet : Nat → Int) (crc : Bool) (pkt : Mem) (s : Session)
    (hrun : (receiver sendRet).Run (fun _ _ => True) (Session.init crc pkt) s) :
    s.out ++ s.x.pending = (heard crc s.line).packets.flatten ∧
    (∀ data ∈ (heard crc s.line).packets, data.length = 128 ∨ data.length = 1024) ∧
    (∀ got bs data s', (heard crc s.line).phase = .inside got bs.length →
      got ++ bs = frame crc (number (heard crc s.line).packets.length - 1) data →
      s.step sendRet (.line (.bytes bs)) = some s' →
      s'.out = s.out ∧ (heard crc s'.line).packets = (heard crc s.line).packets ∧
        (0 ≤ sendRet s.x.sends → s'.x.sent = s.x.sent ++ [ACK])) ∧
    ∀ ev s', s.step sendRet ev = some s' → s'.rets = s.rets ++ [0] →
      ev = .line (.bytes [EOT]) ∧ (heard crc s.line).phase = .between ∧
        s'.out = (heard crc s'.line).packets.flatten := by
  obtain ⟨hs, hasks⟩ := agrees_of_run hrun
  refine ⟨hs.out, (heard_sized crc s.line).1, ?_, ?_⟩
  · intro got bs data s' hphase hframe hstep
    exact hs.repeated hphase hframe hstep
  · intro ev s' hstep hzero
    exact hs.returns_zero hasks hstep hzero

/-- The first packet in two pieces after a pause, in calls for 100 bytes, and the same packet again. -/
def onePacket : List Event :=
  let f := frame false 1 (List.replicate 128 7)
  [.call 100, .line .timeout, .line (.bytes [SOH]), .line (.bytes ((f.drop 1).take 50)),
    .line (.bytes (f.drop 51)), .call 100, .call 100, .line (.bytes [SOH]), .line (.bytes (f.drop 1))]

theorem receives_packets_once :
    ∃ s, (receiver fun _ => 1).Run (fun _ _ => True) (Session.init false fun _ => 0) s ∧
      (heard false s.line).packets.flatten = List.replicate 128 7 ∧ s.rets = [100, 28] ∧
      ∃ s', s.step (fun _ => 1) (.line (.bytes [EOT])) = some s' ∧ s'.rets = [100, 28, 0] ∧
        s'.out = (heard false s'.line).packets.flatten := by
  obtain ⟨s, hrun, hout, hrets, hstep⟩ := System.exists_run_of_exec (M := receiver fun _ => 1)
    (P := fun _ _ => True)
    (fun s => s.out ++ s.x.pending = List.replicate 128 7 ∧ s.rets = [100, 28] ∧
      ((s.step (fun _ => 1) (.line (.bytes [EOT]))).any fun s' => s'.rets = [100, 28, 0]) = true)
    onePacket (Session.init false fun _ => 0) (by decide +kernel)
  obtain ⟨hall, -, -, hzero⟩ := receives_packets (fun _ => 1) false (fun _ => 0) s hrun
  cases hs' : s.step (fun _ => 1) (.line (.bytes [EOT])) with
  | none => simp [hs'] at hstep
  | some s' =>
    rw [hs'] at hstep
    have hrets' : s'.rets = [100, 28, 0] := of_decide_eq_true hstep
    exact ⟨s, hrun, hall.symm.trans hout, hrets, s', hs', hrets',
      (hzero _ s' hs' (by rw [hrets', hrets]; rfl)).2.2⟩

end Xmodem
