import ThinkOS.Xmodem.Send

/-!
# What the sender puts on the line

The answer to a packet is read to the place of its first byte, which is written before the first copy
only: a copy that follows a NAK begins with NAK. With the answers ACK and NAK, what is sent for a block
is its packet and, for each NAK, the packet with NAK in the place of SOH or STX.
-/

namespace Xmodem

open List Option

variable {crc : Bool} {packets : List (List UInt8 × Nat)} {answers : List Recv} {k : Nat}

open Lib

/-- The answer of one byte. -/
def one (b : UInt8) : Recv := .bytes [b]

def modeOf (crc : Bool) : SndState := if crc then .crc else .cks

/-! ## One packet -/

/-- From `s` to `s'` a packet was acknowledged: `bs` was sent, `rest` are the answers left, and the
buffer is as before from `low` on. -/
structure Sent (s s' : Snd) (low : Nat) (bs rest : List UInt8) : Prop where
  seq : s'.seq = s.seq + 1
  oneK : s'.oneK = s.oneK
  dataLen : s'.dataLen = s.dataLen
  dataMax : s'.dataMax = s.dataMax
  pkt : ∀ i, low ≤ i → s'.pkt i = s.pkt i
  answers : s'.answers = rest.map one
  sent : s'.sent = s.sent ++ bs

section
variable {sendRet : Nat → Int} {s s' : Snd} {ret : Int} {pos len : Nat} {as : List UInt8}

theorem send_eq {bs : List UInt8} (h : 0 ≤ (s.send sendRet bs).2) :
    (s.send sendRet bs).1 = { s with sends := s.sends + 1, sent := s.sent ++ bs } := by
  have hret : ¬ sendRet s.sends < 0 := Int.not_lt.mpr h
  simp only [Snd.send, if_neg hret]

theorem copy_eq {fcs : List UInt8} (h : 0 ≤ (s.copy sendRet pos len fcs).2) :
    (s.copy sendRet pos len fcs).1 =
      { s with sends := s.sends + 2, sent := s.sent ++ (s.pkt.bytes pos (len + 3) ++ fcs) } := by
  unfold Snd.copy at h ⊢
  dsimp only at h ⊢
  by_cases hfst : (s.send sendRet (s.pkt.bytes pos (len + 3))).2 < 0
  · rw [if_pos hfst] at h
    exact absurd h (by omega)
  · rw [if_neg hfst] at h ⊢
    rw [send_eq h, send_eq (by omega)]
    simp only [append_assoc]

theorem copies_sent {fcs : List UInt8} {retry : Nat} (has : ∀ a ∈ as, a = ACK ∨ a = NAK)
    (h : s.copies sendRet pos len fcs retry (as.map one) = some (s', ret)) (hret : 0 ≤ ret) :
    ∃ n rest, as = List.replicate n NAK ++ ACK :: rest ∧ s'.state = s.state ∧
      Sent s s' (pos + 1) ((s.pkt pos :: (s.pkt.bytes (pos + 1) (len + 2) ++ fcs)) ++
        (List.replicate n (NAK :: (s.pkt.bytes (pos + 1) (len + 2) ++ fcs))).flatten) rest := by
  induction as generalizing s retry with
  | nil =>
    unfold Snd.copies at h
    simp only [map_nil] at h
    split at h
    · cases h
      omega
    · cases h
  | cons a as ih =>
    rw [map_cons, one, Snd.copies] at h
    dsimp only at h
    by_cases hcopy : (s.copy sendRet pos len fcs).2 < 0
    · rw [if_pos hcopy] at h
      cases h
      omega
    · rw [if_neg hcopy, copy_eq (by omega), length_singleton, if_neg (by decide)] at h
      have hread : ∀ m : Mem, m.storeBytes pos [a] pos = a := by
        intro m
        simp [Mem.storeBytes]
      simp only [hread] at h
      have hfirst : s.pkt.bytes pos (len + 3) = s.pkt pos :: s.pkt.bytes (pos + 1) (len + 2) := rfl
      rcases has a mem_cons_self with rfl | rfl
      · rw [if_pos rfl] at h
        cases h
        refine ⟨0, as, rfl, rfl, rfl, rfl, rfl, rfl, ?_, rfl, ?_⟩
        · intro i hi
          exact Mem.storeBytes_ne (.inr (by simpa using hi))
        · simp [hfirst]
      · rw [if_neg (by decide), if_neg (by decide), if_neg (by decide)] at h
        split at h
        · obtain ⟨t, -, ht⟩ := map_eq_some_iff.mp h
          cases ht
          exact absurd hret (by decide)
        · obtain ⟨n, rest, rfl, hstate, hsent⟩ := ih (fun b hb => has b (mem_cons_of_mem _ hb)) h
          refine ⟨n + 1, rest, rfl, hstate, hsent.seq, hsent.oneK, hsent.dataLen, hsent.dataMax, ?_,
            hsent.answers, ?_⟩
          · intro i hi
            rw [hsent.pkt i hi]
            exact Mem.storeBytes_ne (.inr (by simpa using hi))
          · have htail : (s.pkt.storeBytes pos [NAK]).bytes (pos + 1) (len + 2) =
                s.pkt.bytes (pos + 1) (len + 2) :=
              Mem.bytes_storeBytes_ne (.inr (by simp))
            rw [hsent.sent]
            simp only [hread, htail, hfirst, replicate_succ, flatten_cons, append_assoc,
              cons_append]

/-- The packet with NAK in the place of its first byte, for each copy after the first one. -/
def sentCopies (f : List UInt8) (naks : Nat) : List UInt8 :=
  f ++ (List.replicate naks (NAK :: f.tail)).flatten

theorem check_eq (h : s.state = modeOf crc) {data : List UInt8} : s.check data = fcs crc data := by
  unfold Snd.check fcs
  rw [h, foldl_crc16ccitt]
  cases crc with
  | true =>
    rw [modeOf, if_pos rfl, if_pos rfl, if_pos rfl]
    have hlow : ((crcOf data) &&& 0xff#16).setWidth 8 = (crcOf data).setWidth 8 := by
      ext i hi
      interval_cases i <;> simp
    dsimp only
    rw [hlow]
  | false => rfl

theorem packet_sent (hstate : s.state = modeOf crc) (hans : s.answers = as.map one)
    (has : ∀ a ∈ as, a = ACK ∨ a = NAK) (h : s.packet sendRet pos len = some (s', ret))
    (hret : 0 ≤ ret) : ∃ n rest, as = List.replicate n NAK ++ ACK :: rest ∧ s'.state = s.state ∧
      Sent s s' (pos + 3) (sentCopies (frame crc s.seq (s.pkt.bytes (pos + 3) len)) n) rest := by
  obtain ⟨m, hm⟩ : ∃ m, m = s.pkt.storeBytes pos [if len = 1024 then STX else SOH, s.seq, ~~~ s.seq] :=
    ⟨_, rfl⟩
  have hkeep : ∀ i, pos + 3 ≤ i → m i = s.pkt i := by
    intro i hi
    rw [hm]
    exact Mem.storeBytes_ne (.inr (by simpa using hi))
  have hdata : m.bytes (pos + 3) len = s.pkt.bytes (pos + 3) len :=
    Mem.bytes_congr fun i hi _ => hkeep i hi
  have hhead : m.bytes pos 3 = [if len = 1024 then STX else SOH, s.seq, ~~~ s.seq] := by
    rw [hm]
    exact Mem.bytes_storeBytes _ _ _
  unfold Snd.packet at h
  dsimp only at h
  rw [← hm, hans, hdata, check_eq (by exact hstate)] at h
  obtain ⟨n, rest, rfl, hst, hsent⟩ := copies_sent has h hret
  refine ⟨n, rest, rfl, hst, hsent.seq, hsent.oneK, hsent.dataLen, hsent.dataMax, ?_, hsent.answers, ?_⟩
  · intro i hi
    rw [hsent.pkt i (by omega)]
    exact hkeep i hi
  · have hframe : frame crc s.seq (s.pkt.bytes (pos + 3) len) =
        m pos :: (m.bytes (pos + 1) (len + 2) ++ fcs crc (s.pkt.bytes (pos + 3) len)) := by
      have hsplit : m pos :: m.bytes (pos + 1) (len + 2) = m.bytes pos 3 ++ m.bytes (pos + 3) len := by
        rw [← Mem.bytes_add, Nat.add_comm 3]
        rfl
      rw [← cons_append, hsplit, hhead, hdata, frame, header, Mem.length_bytes]
    rw [sentCopies, hframe]
    exact hsent.sent

/-- The request for a frame check: the letter C, or NAK. -/
def requestOf (crc : Bool) : UInt8 := if crc then 67 else NAK

/-- The answers are the request, after bytes that are not one, and `as`; or the request was read. -/
def Snd.Waits (s : Snd) (crc : Bool) (as : List UInt8) : Prop :=
  (s.state = .idle ∧ ∃ noise : List UInt8, (∀ b ∈ noise, b ≠ CAN ∧ b ≠ 67 ∧ b ≠ NAK) ∧
    s.answers = (noise ++ requestOf crc :: as).map one) ∨
  (s.state = modeOf crc ∧ s.answers = as.map one)

theorem request_eq (s : Snd) (pos : Nat) (crc : Bool) (as : List UInt8) {noise : List UInt8}
    (hnoise : ∀ b ∈ noise, b ≠ CAN ∧ b ≠ 67 ∧ b ≠ NAK) :
    ∃ m : Mem, (∀ i, pos + 3 ≤ i → m i = s.pkt i) ∧
      s.request pos ((noise ++ requestOf crc :: as).map one) =
        some ({ s with pkt := m, state := modeOf crc, answers := as.map one }, 0) := by
  have hread : ∀ (m : Mem) (b : UInt8), m.storeBytes pos [b] pos = b := by
    intro m b
    simp [Mem.storeBytes]
  have hkeep : ∀ (m : Mem) (b : UInt8) i, pos + 3 ≤ i → m.storeBytes pos [b] i = m i := by
    intro m b i hi
    exact Mem.storeBytes_ne (.inr (by rw [length_singleton]; omega))
  induction noise generalizing s with
  | nil =>
    refine ⟨s.pkt.storeBytes pos [requestOf crc], hkeep _ _, ?_⟩
    rw [nil_append, map_cons, one, Snd.request]
    simp only [hread]
    cases crc <;> rfl
  | cons b noise ih =>
    obtain ⟨hcan, hc, hnak⟩ := hnoise b mem_cons_self
    obtain ⟨m, hm, heq⟩ := ih { s with pkt := s.pkt.storeBytes pos [b] }
      (fun b hb => hnoise b (mem_cons_of_mem _ hb))
    refine ⟨m, fun i hi => (hm i hi).trans (hkeep _ _ i hi), ?_⟩
    rw [cons_append, map_cons, one, Snd.request]
    simp only [hread]
    rw [if_neg hcan, if_neg hc, if_neg hnak]
    exact heq

/-- **`xmodem_send_pkt`** with the answers ACK and NAK, when it succeeds. -/
theorem sendPkt_sent (hwaits : s.Waits crc as) (has : ∀ a ∈ as, a = ACK ∨ a = NAK)
    (h : s.sendPkt sendRet pos len = some (s', ret)) (hret : 0 ≤ ret) :
    ∃ n rest, as = List.replicate n NAK ++ ACK :: rest ∧ s'.Waits crc rest ∧
      Sent s s' (pos + 3) (sentCopies (frame crc s.seq (s.pkt.bytes (pos + 3) len)) n) rest := by
  have hmode : modeOf crc ≠ .idle := by cases crc <;> decide
  unfold Snd.sendPkt at h
  rcases hwaits with ⟨hidle, noise, hnoise, hans⟩ | ⟨hstate, hans⟩
  · obtain ⟨m, hm, heq⟩ := request_eq s pos crc as hnoise
    rw [if_pos hidle, hans, heq, bind_some] at h
    dsimp only at h
    rw [if_neg (by decide)] at h
    obtain ⟨n, rest, rfl, hst, hsent⟩ := packet_sent rfl rfl has h hret
    have hdata : m.bytes (pos + 3) len = s.pkt.bytes (pos + 3) len :=
      Mem.bytes_congr fun i hi _ => hm i hi
    refine ⟨n, rest, rfl, .inr ⟨hst, hsent.answers⟩, hsent.seq, hsent.oneK, hsent.dataLen, hsent.dataMax,
      fun i hi => (hsent.pkt i hi).trans (hm i hi), hsent.answers, ?_⟩
    rw [← hdata]
    exact hsent.sent
  · rw [if_neg (by rw [hstate]; exact hmode)] at h
    obtain ⟨n, rest, rfl, hst, hsent⟩ := packet_sent hstate hans has h hret
    exact ⟨n, rest, rfl, .inr ⟨hst.trans hstate, hsent.answers⟩, hsent⟩

end

/-! ## The rounds of the loop -/

section
variable {sendRet : Nat → Int} {s s' : Snd} {ret : Int} {pos len : Nat}

theorem flush_eq (h : s.flush answers = some s') : ∃ pkt answers, s' = { s with pkt, answers } := by
  induction answers generalizing s with
  | nil => cases h
  | cons r answers ih =>
    cases r with
    | bytes bs =>
      unfold Snd.flush at h
      split at h
      · cases h
        exact ⟨_, _, rfl⟩
      · exact ih (s := { s with pkt := s.pkt.storeBytes 3 bs }) h
    | timeout =>
      cases h
      exact ⟨_, _, rfl⟩
    | error e =>
      cases h
      exact ⟨_, _, rfl⟩

end

/-! ## Whole transmissions -/

/-- The answers to a packet. -/
def answersTo (p : List UInt8 × Nat) : List UInt8 := List.replicate p.2 NAK ++ [ACK]

/-- What is on the line for blocks with the numbers of their NAKs, from the packet after `k` packets on;
`copies` makes the copies of a packet. -/
def lineOf (copies : List UInt8 → Nat → List UInt8) (crc : Bool) : Nat → List (List UInt8 × Nat) → List UInt8
  | _, [] => []
  | k, p :: packets => copies (frame crc (number k) p.1) p.2 ++ lineOf copies crc (k + 1) packets

theorem lineOf_append {copies : List UInt8 → Nat → List UInt8} {p : List UInt8 × Nat} :
    lineOf copies crc k (packets ++ [p]) =
      lineOf copies crc k packets ++ copies (frame crc (number (k + packets.length)) p.1) p.2 := by
  induction packets generalizing k with
  | nil => simp [lineOf]
  | cons q packets ih =>
    simp only [cons_append, lineOf, ih, append_assoc, length_cons, Nat.add_assoc, Nat.add_comm 1]

/-- The packets are on the line, and their answers are the first ones of `as`. -/
structure OnLine (crc : Bool) (as : List UInt8) (packets : List (List UInt8 × Nat)) (s : Snd) : Prop where
  answered : ∃ rest, as = packets.flatMap answersTo ++ rest ∧ s.Waits crc rest
  seq : s.seq = number packets.length
  sent : s.sent = lineOf sentCopies crc 0 packets

/-- A sender that has taken `data`: it is in blocks on the line and in the buffer. -/
structure Taken (crc oneK : Bool) (as data : List UInt8) (packets : List (List UInt8 × Nat)) (s : Snd) :
    Prop where
  line : OnLine crc as packets s
  mode : s.oneK = oneK
  max : s.dataMax = if oneK then 1024 else 128
  len : s.dataLen < s.dataMax
  blocks : ∀ p ∈ packets, p.1.length = s.dataMax
  data : (packets.map Prod.fst).flatten ++ s.pkt.bytes 3 s.dataLen = data

/-- A transmission of `data`: the packets and their answers, the blocks and what is on the line when
`copies` makes the copies of a packet. -/
structure Transmitted (copies : List UInt8 → Nat → List UInt8) (crc oneK : Bool) (as data : List UInt8)
    (packets : List (List UInt8 × Nat)) (s : Snd) : Prop where
  answered : ∃ rest, as = packets.flatMap answersTo ++ rest
  blocks : ∀ p ∈ packets, p.1.length = 128 ∨ oneK = true ∧ p.1.length = 1024
  data : ∃ pad < 1024, (packets.map Prod.fst).flatten = data ++ List.replicate pad 0
  sent : s.sent = lineOf copies crc 0 packets ++ [EOT]

section
variable {sendRet : Nat → Int} {s s' : Snd} {ret : Int} {oneK : Bool} {as data : List UInt8}
  {pos fuel dataMax : Nat} (has : ∀ a ∈ as, a = ACK ∨ a = NAK)
include has

theorem OnLine.sendPkt (hs : OnLine crc as packets s) {len : Nat}
    (h : s.sendPkt sendRet pos len = some (s', ret)) (hret : 0 ≤ ret) :
    (∃ n, OnLine crc as (packets ++ [(s.pkt.bytes (pos + 3) len, n)]) s') ∧ s'.oneK = s.oneK ∧
      s'.dataMax = s.dataMax ∧ ∀ i, pos + 3 ≤ i → s'.pkt i = s.pkt i := by
  obtain ⟨⟨rest, rfl, hwaits⟩, hseq, hsent⟩ := hs
  obtain ⟨n, rest, rfl, hwaits', hpkt⟩ :=
    sendPkt_sent hwaits (fun a ha => has a (mem_append_right _ ha)) h hret
  refine ⟨⟨n, ⟨rest, ?_, hwaits'⟩, ?_, ?_⟩, hpkt.oneK, hpkt.dataMax, hpkt.pkt⟩
  · simp [answersTo]
  · rw [hpkt.seq, hseq, length_append, length_singleton, number_succ]
  · rw [hpkt.sent, hsent, lineOf_append, hseq, Nat.zero_add]

theorem Taken.sendPkt (hline : OnLine crc as packets s)
    (hmode : s.oneK = oneK) (hmax : s.dataMax = if oneK then 1024 else 128)
    (hblocks : ∀ p ∈ packets, p.1.length = s.dataMax)
    (hdata : (packets.map Prod.fst).flatten ++ s.pkt.bytes 3 s.dataMax = data)
    (h : s.sendPkt sendRet 0 s.dataMax = some (s', ret)) (hret : 0 ≤ ret) :
    ∃ packets, Taken crc oneK as data packets { s' with dataLen := 0 } := by
  obtain ⟨⟨n, hline'⟩, hmode', hmax', -⟩ := hline.sendPkt has h hret
  refine ⟨packets ++ [(s.pkt.bytes (0 + 3) s.dataMax, n)], ⟨hline'.answered, hline'.seq, hline'.sent⟩,
    hmode'.trans hmode, hmax'.trans hmax, ?_, ?_, ?_⟩
  · show 0 < s'.dataMax
    rw [hmax', hmax]
    split <;> decide
  · intro p hp
    rw [hmax']
    rcases mem_append.mp hp with hold | hnew
    · exact hblocks p hold
    · rw [mem_singleton.mp hnew, Mem.length_bytes]
  · rw [← hdata]
    simp [Mem.bytes]

/-- **`xmodem_snd_loop`** -/
theorem Taken.sndRounds {src : List UInt8} (hs : Taken crc oneK as data packets s)
    (h : s.sndRounds sendRet fuel src = some (s', ret)) (hret : 0 ≤ ret) :
    ∃ packets, Taken crc oneK as (data ++ src) packets s' := by
  induction fuel generalizing s data src packets with
  | zero => cases h
  | succ fuel ih =>
    obtain ⟨n, hn⟩ : ∃ n, n = min src.length (s.dataMax - s.dataLen) := ⟨_, rfl⟩
    unfold Snd.sndRounds at h
    simp only [← hn] at h
    obtain ⟨m, hm⟩ : ∃ m, m = s.pkt.storeBytes (3 + s.dataLen) (src.take n) := ⟨_, rfl⟩
    have hlen : (src.take n).length = n := by
      rw [length_take]
      omega
    have hbuf : (packets.map Prod.fst).flatten ++ m.bytes 3 (s.dataLen + n) = data ++ src.take n := by
      have := Mem.bytes_storeBytes_append s.pkt 3 s.dataLen (src.take n)
      rw [hlen, ← hm] at this
      rw [this, ← append_assoc, hs.data]
    have hrest : data ++ src = data ++ src.take n ++ src.drop n := by
      rw [append_assoc, take_append_drop]
    have hdrop : src.length - n = 0 → src.drop n = [] := by
      intro hz
      exact drop_eq_nil_of_le (by omega)
    rw [← hm] at h
    have hline : OnLine crc as packets { s with pkt := m, dataLen := s.dataLen + n } :=
      ⟨hs.line.answered, hs.line.seq, hs.line.sent⟩
    by_cases hfull : s.dataLen + n = s.dataMax
    · rw [if_pos hfull] at h
      obtain ⟨⟨t, ret'⟩, hpkt, h⟩ := bind_eq_some_iff.mp h
      rw [hfull] at hpkt hbuf hline
      split_ifs at h with hneg hz
      · cases h
        omega
      · obtain ⟨packets', ht⟩ := Taken.sendPkt has hline hs.mode hs.max hs.blocks hbuf hpkt (by omega)
        cases h
        rw [hrest, hdrop hz, append_nil]
        exact ⟨packets', ht⟩
      · obtain ⟨packets', ht⟩ := Taken.sendPkt has hline hs.mode hs.max hs.blocks hbuf hpkt (by omega)
        rw [hrest]
        exact ih ht h
    · rw [if_neg hfull] at h
      have hlt := hs.len
      have ht : Taken crc oneK as (data ++ src.take n) packets { s with pkt := m, dataLen := s.dataLen + n } :=
        ⟨hline, hs.mode, hs.max, by dsimp only; omega, hs.blocks, hbuf⟩
      split_ifs at h with hz
      · cases h
        rw [hrest, hdrop hz, append_nil]
        exact ⟨packets, ht⟩
      · rw [hrest]
        exact ih ht h

omit has in
theorem eotRounds_zero : s.eotRounds sendRet dataMax fuel pos 0 = some (s, 0) := by
  cases fuel <;> rfl

/-- **The loop of `xmodem_snd_eot`**: the rest of the data is sent in blocks, with zeros at the end. -/
theorem OnLine.eotRounds {dataLen : Nat} (hs : OnLine crc as packets s) (hmax : 0 < dataMax)
    (hfuel : dataLen ≤ fuel) (h : s.eotRounds sendRet dataMax fuel pos dataLen = some (s', ret))
    (hret : 0 ≤ ret) : ∃ more pad, OnLine crc as (packets ++ more) s' ∧ (∀ p ∈ more, p.1.length = dataMax) ∧
      pad < dataMax ∧
      (more.map Prod.fst).flatten = s.pkt.bytes (pos + 3) dataLen ++ List.replicate pad 0 := by
  induction fuel generalizing s pos dataLen packets with
  | zero =>
    obtain rfl : dataLen = 0 := by omega
    cases h
    exact ⟨[], 0, by rwa [append_nil], nofun, hmax, rfl⟩
  | succ fuel ih =>
    by_cases hpos : 0 < dataLen
    · unfold Snd.eotRounds at h
      rw [if_pos hpos] at h
      obtain ⟨⟨t, ret'⟩, hpkt, h⟩ := bind_eq_some_iff.mp h
      dsimp only at h
      split_ifs at h with hneg
      · cases h
        omega
      obtain ⟨m, hm⟩ : ∃ m, m = s.pkt.storeBytes (pos + 3 + min dataLen dataMax)
        (List.replicate (dataMax - min dataLen dataMax) 0) := ⟨_, rfl⟩
      rw [← hm] at hpkt
      have hline : OnLine crc as packets { s with pkt := m } := ⟨hs.answered, hs.seq, hs.sent⟩
      obtain ⟨⟨n, ht⟩, -, -, hkeep⟩ := hline.sendPkt has hpkt (by omega)
      by_cases hlast : dataLen < dataMax
      · -- the last block
        rw [Nat.min_eq_left hlast.le] at hm h
        rw [Nat.sub_self, eotRounds_zero] at h
        cases h
        have hbuf : m.bytes (pos + 3) dataMax =
            s.pkt.bytes (pos + 3) dataLen ++ List.replicate (dataMax - dataLen) 0 := by
          have := Mem.bytes_storeBytes_append s.pkt (pos + 3) dataLen
            (List.replicate (dataMax - dataLen) 0)
          rw [← hm, length_replicate, Nat.add_sub_cancel' hlast.le] at this
          exact this
        refine ⟨[(m.bytes (pos + 3) dataMax, n)], dataMax - dataLen, ht, ?_, by omega, ?_⟩
        · intro p hp
          rw [mem_singleton.mp hp, Mem.length_bytes]
        · rw [← hbuf]
          simp
      · -- a block without padding
        rw [Nat.min_eq_right (by omega)] at hm h
        obtain rfl : m = s.pkt := by
          rw [hm, Nat.sub_self]
          funext i
          exact Mem.storeBytes_ne (by simp only [replicate_zero, length_nil]; omega)
        obtain ⟨more, pad, hmore, hlens, hpad, hflat⟩ := ih ht (by omega) h
        refine ⟨(s.pkt.bytes (pos + 3) dataMax, n) :: more, pad, ?_, ?_, hpad, ?_⟩
        · rw [append_assoc, singleton_append] at hmore
          exact hmore
        · intro p hp
          rcases mem_cons.mp hp with rfl | hp
          · exact Mem.length_bytes _ _ _
          · exact hlens p hp
        · have hsame : t.pkt.bytes (pos + dataMax + 3) (dataLen - dataMax) =
              s.pkt.bytes (pos + 3 + dataMax) (dataLen - dataMax) := by
            rw [Nat.add_right_comm]
            exact Mem.bytes_congr fun i hi _ => hkeep i (by omega)
          rw [map_cons, flatten_cons, hflat, hsame, ← append_assoc, ← Mem.bytes_add,
            Nat.add_sub_cancel' (by omega)]
    · obtain rfl : dataLen = 0 := by omega
      rw [eotRounds_zero] at h
      cases h
      exact ⟨[], 0, by rwa [append_nil], nofun, hmax, rfl⟩

/-- **`xmodem_snd_eot`** -/
theorem Taken.sndEot (hs : Taken crc oneK as data packets s)
    (h : s.sndEot sendRet = some (s', ret)) (hret : 0 ≤ ret) :
    ∃ packets, Transmitted sentCopies crc oneK as data packets s' := by
  unfold Snd.sndEot at h
  obtain ⟨⟨t, ret'⟩, hrounds, h⟩ := bind_eq_some_iff.mp h
  dsimp only at h
  by_cases hneg : ret' < 0
  · rw [if_pos hneg] at h
    cases h
    omega
  rw [if_neg hneg] at h
  obtain ⟨dataMax, hmax⟩ : ∃ d, d = if s.dataLen ≤ 1024 - 128 then 128 else s.dataMax := ⟨_, rfl⟩
  rw [← hmax] at hrounds
  have hsizes : ∀ n, n = dataMax ∨ n = s.dataMax → n = 128 ∨ oneK = true ∧ n = 1024 := by
    have := hs.max
    cases oneK with
    | true =>
      rw [if_pos rfl] at this
      intro n hn
      simp only [true_and]
      split at hmax <;> omega
    | false =>
      rw [if_neg (by decide)] at this
      intro n hn
      split at hmax <;> omega
  have hpos : 0 < dataMax ∧ dataMax ≤ 1024 := by
    have := hsizes dataMax (.inl rfl)
    omega
  obtain ⟨more, pad, hmore, hlens, hpad, hflat⟩ :=
    hs.line.eotRounds has hpos.1 le_rfl hrounds (by omega)
  have hsend : (t.send sendRet [EOT]).2 = ret := by
    cases h
    rfl
  cases h
  refine ⟨packets ++ more, ?_, ?_, ⟨pad, by omega, ?_⟩, ?_⟩
  · obtain ⟨rest, hrest, -⟩ := hmore.answered
    exact ⟨rest, hrest⟩
  · intro p hp
    rcases mem_append.mp hp with hold | hnew
    · exact hsizes _ (.inr (hs.blocks p hold))
    · exact hsizes _ (.inl (hlens p hnew))
  · rw [map_append, flatten_append, hflat, ← hs.data, append_assoc]
  · show (t.send sendRet [EOT]).1.sent = _
    rw [send_eq hret, hmore.sent]

theorem Taken.transmit {calls : List (List UInt8)} (hs : Taken crc oneK as data packets s)
    (h : s.transmit sendRet calls = some s') :
    ∃ packets, Transmitted sentCopies crc oneK as (data ++ calls.flatten) packets s' := by
  induction calls generalizing s data packets with
  | nil =>
    obtain ⟨⟨t, ret⟩, heot, h⟩ := bind_eq_some_iff.mp h
    dsimp only at h
    split at h
    · cases h
    · cases h
      rw [flatten_nil, append_nil]
      exact hs.sndEot has heot (by omega)
  | cons src calls ih =>
    obtain ⟨⟨t, ret⟩, hloop, h⟩ := bind_eq_some_iff.mp h
    dsimp only at h
    split at h
    · cases h
    · obtain ⟨packets', ht⟩ := hs.sndRounds has hloop (by omega)
      rw [flatten_cons, ← append_assoc]
      exact ih ht h

end

/-! ## Copies -/

/-- The copies of a packet as they should be. -/
def copiesOf (f : List UInt8) (naks : Nat) : List UInt8 := (List.replicate (naks + 1) f).flatten

theorem frame_eq_cons {seq : UInt8} {data : List UInt8} : frame crc seq data =
      (if data.length = 1024 then STX else SOH) :: seq :: ~~~ seq :: (data ++ fcs crc data) := rfl

/-- What a line begins with, when each packet's copies begin with the packet. -/
theorem lineOf_starts {copies : List UInt8 → Nat → List UInt8} (hcopies : ∀ f n, ∃ r, copies f n = f ++ r)
    (crc : Bool) (k : Nat) (packets : List (List UInt8 × Nat)) :
    ∃ b t, lineOf copies crc k packets ++ [EOT] = b :: t ∧ b ≠ NAK ∧
      (b = EOT ∨ (b = STX ∨ b = SOH) ∧ ∃ t', t = number k :: t') := by
  cases packets with
  | nil => exact ⟨EOT, [], rfl, by decide, .inl rfl⟩
  | cons p packets =>
    obtain ⟨r, hr⟩ := hcopies (frame crc (number k) p.1) p.2
    rw [lineOf, hr, frame_eq_cons]
    refine ⟨_, _, rfl, ?_, .inr ⟨?_, _, rfl⟩⟩
    · split <;> decide
    · split
      · exact .inl rfl
      · exact .inr rfl

theorem number_succ_ne : number (k + 1) ≠ number k := by
  intro h
  have hnat := congrArg UInt8.toNat h
  simp only [number, UInt8.toNat_ofNat'] at hnat
  omega

/-- **The copies tell the answers**: what is sent can be read as packets and copies of them only when there
was no NAK. -/
theorem naks_eq_zero {packets' : List (List UInt8 × Nat)}
    (hsizes : ∀ p ∈ packets, p.1.length = 128 ∨ p.1.length = 1024)
    (hsizes' : ∀ p ∈ packets', p.1.length = 128 ∨ p.1.length = 1024)
    (h : lineOf sentCopies crc k packets ++ [EOT] = lineOf copiesOf crc k packets' ++ [EOT]) :
    ∀ p ∈ packets, p.2 = 0 := by
  have hfirst : ∀ f n, ∃ r, sentCopies f n = f ++ r := fun f n => ⟨_, rfl⟩
  have hcopies : ∀ f n, copiesOf f n = f ++ (List.replicate n f).flatten := fun f n => rfl
  have hfirst' : ∀ f n, ∃ r, copiesOf f n = f ++ r := fun f n => ⟨_, hcopies f n⟩
  induction packets generalizing k packets' with
  | nil => exact nofun
  | cons p packets ih =>
    cases packets' with
    | nil =>
      have := congrArg List.length h
      simp [lineOf, sentCopies] at this
      omega
    | cons q packets' =>
      -- the first bytes tell the lengths of the first packets
      have hlen : p.1.length = q.1.length := by
        have hp := hsizes p mem_cons_self
        have hq := hsizes' q mem_cons_self
        have hhead := congrArg List.head? h
        simp only [lineOf, sentCopies, hcopies, frame_eq_cons, cons_append, head?_cons,
          Option.some.injEq] at hhead
        by_cases h1 : p.1.length = 1024
        · by_contra hne
          rw [if_pos h1, if_neg (by omega)] at hhead
          exact absurd hhead (by decide)
        · by_contra hne
          rw [if_neg h1, if_pos (by omega)] at hhead
          exact absurd hhead (by decide)
      rw [lineOf, lineOf, sentCopies, hcopies] at h
      simp only [append_assoc] at h
      obtain ⟨hframe, hrest⟩ := append_inj h (by rw [length_frame, length_frame, hlen])
      obtain ⟨b, t, heq, hnak, hstart⟩ := lineOf_starts hfirst' crc (k + 1) packets'
      obtain ⟨b', t', heq', hnak', hstart'⟩ := lineOf_starts hfirst crc (k + 1) packets
      have hq : ∀ n, (List.replicate (n + 1) (frame crc (number k) q.1)).flatten =
          (if q.1.length = 1024 then STX else SOH) :: number k ::
            (~~~ number k :: (q.1 ++ fcs crc q.1) ++
              (List.replicate n (frame crc (number k) q.1)).flatten) := fun _ => rfl
      have hzero : p.2 = 0 := by
        by_contra hne
        obtain ⟨n, hn⟩ := Nat.exists_eq_succ_of_ne_zero hne
        rw [hn, replicate_succ, flatten_cons, heq] at hrest
        cases hq2 : q.2 with
        | zero =>
          rw [hq2] at hrest
          exact hnak (List.cons.inj hrest).1.symm
        | succ m =>
          rw [hq2, hq] at hrest
          have := (List.cons.inj hrest).1
          split at this <;> exact absurd this (by decide)
      have hzero' : q.2 = 0 := by
        by_contra hne
        obtain ⟨m, hm⟩ := Nat.exists_eq_succ_of_ne_zero hne
        rw [hzero, hm, hq, replicate_zero, flatten_nil, nil_append, heq'] at hrest
        obtain ⟨hb, ht⟩ := List.cons.inj hrest
        rcases hstart' with heot | ⟨-, u, rfl⟩
        · rw [heot] at hb
          split at hb <;> exact absurd hb (by decide)
        · exact number_succ_ne (List.cons.inj ht).1
      rw [hzero, hzero'] at hrest
      intro r hr
      rcases mem_cons.mp hr with rfl | hr
      · exact hzero
      · exact ih (fun p hp => hsizes p (mem_cons_of_mem _ hp))
          (fun p hp => hsizes' p (mem_cons_of_mem _ hp)) hrest r hr

theorem lineOf_sentCopies (h : ∀ p ∈ packets, p.2 = 0) :
    lineOf sentCopies crc k packets = lineOf copiesOf crc k packets := by
  induction packets generalizing k with
  | nil => rfl
  | cons p packets ih =>
    rw [lineOf, lineOf, ih (fun q hq => h q (mem_cons_of_mem _ hq)), h p mem_cons_self]
    rfl

theorem nak_not_mem_iff : NAK ∉ packets.flatMap answersTo ↔ ∀ p ∈ packets, p.2 = 0 := by
  have hp : ∀ p, NAK ∈ answersTo p ↔ p.2 ≠ 0 := by
    intro p
    rw [answersTo, mem_append, mem_replicate]
    exact ⟨fun h => h.elim And.left fun h => absurd h (by decide), fun h => .inl ⟨h, rfl⟩⟩
  simp only [mem_flatMap, hp, not_exists, not_and, not_not]

theorem taken_init {oneK : Bool} {pkt : Mem} {s : Snd} (h : sndInit oneK pkt answers = some s)
    {as : List UInt8} (hwaits : s.Waits crc as) : Taken crc oneK as [] [] s := by
  obtain ⟨m, answers', rfl⟩ := flush_eq h
  refine ⟨⟨⟨as, rfl, hwaits⟩, rfl, rfl⟩, rfl, rfl, ?_, nofun, rfl⟩
  show 0 < if oneK then 1024 else 128
  split <;> decide

/-- **The sender**, in calls that succeed with the answers ACK and NAK after the request: the blocks are the
data with zeros at the end, and what is on the line is, for each of them, its packet and for each NAK the
packet with NAK in the place of its first byte; so the line holds copies of packets exactly when no packet
was answered by NAK. -/
theorem sends_copies_iff (sendRet : Nat → Int) (crc oneK : Bool) (pkt : Mem) (answers : List Recv)
    (noise as : List UInt8) (calls : List (List UInt8)) (s s' : Snd)
    (hinit : sndInit oneK pkt answers = some s) (hnoise : ∀ b ∈ noise, b ≠ CAN ∧ b ≠ 67 ∧ b ≠ NAK)
    (hanswers : s.answers = (noise ++ requestOf crc :: as).map one)
    (has : ∀ a ∈ as, a = ACK ∨ a = NAK) (h : s.transmit sendRet calls = some s') :
    ∃ packets, Transmitted sentCopies crc oneK as calls.flatten packets s' ∧
      ((∃ packets', Transmitted copiesOf crc oneK as calls.flatten packets' s') ↔
        NAK ∉ packets.flatMap answersTo) := by
  have hidle : s.state = .idle := by
    obtain ⟨_, _, rfl⟩ := flush_eq hinit
    rfl
  obtain ⟨packets, ht⟩ := (taken_init hinit (.inl ⟨hidle, noise, hnoise, hanswers⟩)).transmit has h
  rw [nil_append] at ht
  refine ⟨packets, ht, ?_⟩
  rw [nak_not_mem_iff]
  constructor
  · rintro ⟨packets', ht'⟩
    exact naks_eq_zero (fun p hp => (ht.blocks p hp).imp_right And.right)
      (fun p hp => (ht'.blocks p hp).imp_right And.right) (ht.sent.symm.trans ht'.sent)
  · intro hzero
    exact ⟨packets, ht.answered, ht.blocks, ht.data, by rw [ht.sent, lineOf_sentCopies hzero]⟩

/-- A sender after its start, with a receiver that asks for a remainder and then answers `as`. -/
def asked (as : List UInt8) : Snd where
  oneK := false
  dataMax := 128
  dataLen := 0
  seq := 1
  state := .idle
  pkt := fun _ => 0
  answers := (67 :: as).map one
  sent := []
  sends := 0

theorem sends_copies_iff_acked : ∃ s', (asked [ACK]).transmit (fun _ => 1) [[1, 2], [3]] = some s' ∧
      ∃ packets, Transmitted copiesOf true false [ACK] [1, 2, 3] packets s' := by
  obtain ⟨s', hs'⟩ := isSome_iff_exists.mp
    (by decide +kernel : ((asked [ACK]).transmit (fun _ => 1) [[1, 2], [3]]).isSome = true)
  obtain ⟨packets, ht, hiff⟩ := sends_copies_iff (fun _ => 1) true false (fun _ => 0)
    (.timeout :: [67, ACK].map one) [] [ACK] [[1, 2], [3]] (asked [ACK]) s' rfl nofun rfl (by decide +kernel) hs'
  refine ⟨s', hs', hiff.mpr ?_⟩
  obtain ⟨rest, hrest⟩ := ht.answered
  intro hmem
  have : NAK ∈ [ACK] := by
    rw [hrest]
    exact mem_append_left _ hmem
  exact absurd this (by decide)

/-- **One NAK**: the second copy of the packet begins with NAK. -/
theorem copy_begins_with_nak :
    sndInit false (fun _ => 0) (.timeout :: [67, NAK, ACK].map one) = some (asked [NAK, ACK]) ∧
    ∃ s', (asked [NAK, ACK]).transmit (fun _ => 1) [[1, 2, 3]] = some s' ∧
      (let f := frame true 1 ([1, 2, 3] ++ List.replicate 125 0)
       s'.sent = f ++ NAK :: f.tail ++ [EOT]) ∧
      ¬ ∃ packets, Transmitted copiesOf true false [NAK, ACK] [1, 2, 3] packets s' := by
  refine ⟨rfl, ?_⟩
  have hrun : (((asked [NAK, ACK]).transmit (fun _ => 1) [[1, 2, 3]]).any fun s' =>
      let f := frame true 1 ([1, 2, 3] ++ List.replicate 125 0)
      s'.sent = f ++ NAK :: f.tail ++ [EOT]) = true := by
    decide +kernel
  cases hs' : (asked [NAK, ACK]).transmit (fun _ => 1) [[1, 2, 3]] with
  | none =>
    rw [hs'] at hrun
    cases hrun
  | some s' =>
    rw [hs'] at hrun
    refine ⟨s', rfl, of_decide_eq_true hrun, ?_⟩
    rintro ⟨packets', ht'⟩
    have hwaits : (asked [NAK, ACK]).Waits true [NAK, ACK] := .inl ⟨rfl, [], nofun, rfl⟩
    have hinit : sndInit false (fun _ => 0) (.timeout :: [67, NAK, ACK].map one) = some (asked [NAK, ACK]) :=
      rfl
    obtain ⟨packets, ht⟩ := (taken_init hinit hwaits).transmit (by decide +kernel) hs'
    have hzero := naks_eq_zero (fun p hp => (ht.blocks p hp).imp_right And.right)
      (fun p hp => (ht'.blocks p hp).imp_right And.right) (ht.sent.symm.trans ht'.sent)
    cases packets with
    | nil =>
      obtain ⟨pad, -, hdata⟩ := ht.data
      cases hdata
    | cons p packets =>
      -- its first answer is the NAK
      obtain ⟨rest, hrest⟩ := ht.answered
      rw [flatMap_cons, answersTo, hzero p mem_cons_self] at hrest
      exact absurd (List.cons.inj hrest).1 (by decide)

end Xmodem
