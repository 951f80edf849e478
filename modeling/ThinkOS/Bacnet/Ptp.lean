import Mathlib.Data.List.Basic
import Mathlib.Tactic.Common
import ThinkOS.Bacnet.Crc

/-!
# BACnet point-to-point framing

`bacnet_ptp_frame_send` and `bacnet_ptp_frame_recv` of `bacnet_ptp.c`. The receiver undoes the byte
stuffing as the bytes come in, so what it holds and what it has yet to read are together the frames
as they were before the stuffing.
-/

namespace Bacnet

open List Option

variable {buf : List Byte} {dle : Bool}

def DLE : Byte := 0x10
def XON : Byte := 0x11
def XOFF : Byte := 0x13

def BACNET_PTP_MTU : Nat := 512

/-! ## Sending -/

/-- A byte that does not go on the line as it is. -/
def Special (c : Byte) : Bool := c = DLE || c = XON || c = XOFF

def stuffByte (c : Byte) : List Byte := if Special c then [DLE, c ||| 0x80] else [c]

/-- The six bytes of `hdr`. -/
def ptpHdr (typ : Byte) (len : Nat) : List Byte :=
  let lenHi := BitVec.ofNat 8 (len >>> 8)
  let lenLo := BitVec.ofNat 8 len
  [0x55, 0xff, typ, lenHi, lenLo, ~~~ bacnetCrc8 0xff [typ, lenHi, lenLo]]

/-- The payload and its check bytes. -/
def ptpData (pdu : List Byte) : List Byte :=
  if pdu = [] then []
  else
    let crc := ~~~ bacnetCrc16 0xffff pdu
    pdu ++ [crc.setWidth 8, (crc >>> 8).setWidth 8]

/-- A frame before the stuffing. -/
def ptpPlain (typ : Byte) (pdu : List Byte) : List Byte := ptpHdr typ pdu.length ++ ptpData pdu

/-- `bacnet_ptp_frame_send`: the bytes it stores into its buffer and sends. -/
def ptpFrameSend (typ : Byte) (pdu : List Byte) : List Byte := (ptpPlain typ pdu).flatMap stuffByte

theorem length_stuff {l : List Byte} : (l.flatMap stuffByte).length = l.length + l.countP Special := by
  induction l with
  | nil => rfl
  | cons c l ih =>
    rw [flatMap_cons, length_append, ih, countP_cons, length_cons, stuffByte]
    split <;> simp <;> omega

/-- **The buffer is large enough** for an empty payload, and else if not more than one byte more than
the payload has needs an escape. -/
theorem ptpFrameSend_fits_iff (typ : Byte) (pdu : List Byte) :
    (ptpFrameSend typ pdu).length ≤ 9 + 2 * pdu.length ↔
      pdu = [] ∨ (ptpPlain typ pdu).countP Special ≤ pdu.length + 1 := by
  rw [ptpFrameSend, length_stuff]
  by_cases hp : pdu = []
  · subst hp
    -- the sync bytes and the length need no escape
    have hc : ∀ c : Byte, [0x55, 0xff, typ, 0, 0, c].countP Special ≤ 2 := fun c => by
      simp only [countP_cons, countP_nil, show Special 0x55 = false from rfl,
        show Special 0xff = false from rfl, show Special 0 = false from rfl]
      cases Special typ <;> cases Special c <;> decide
    exact iff_of_true (Nat.le_trans (Nat.add_le_add_left (hc _) 6) (by decide)) (.inl rfl)
  · have hlen : (ptpPlain typ pdu).length = 8 + pdu.length := by
      simp [ptpPlain, ptpHdr, ptpData, hp]
      omega
    rw [hlen, or_iff_right hp]
    omega

/-- A type and a length that need an escape, and sixteen bytes that do. -/
theorem ptp_buffer_overrun :
    9 + 2 * (List.replicate 16 DLE).length < (ptpFrameSend 0x10 (List.replicate 16 DLE)).length := by
  decide +kernel

/-! ## Receiving -/

/-- The loop that undoes the stuffing of the bytes of one read. -/
def destuff : Bool → List Byte → List Byte × Bool
  | dle, [] => ([], dle)
  | true, c :: s => ((c &&& 0x7f) :: (destuff false s).1, (destuff false s).2)
  | false, c :: s =>
    if c = DLE then destuff true s else (c :: (destuff false s).1, (destuff false s).2)

/-- The bytes on the line, in the pieces in which they come in. -/
abbrev Line := List (List Byte)

variable {line : Line}

/-- `serial_recv` of at most `rem` bytes; nothing is a timeout. -/
def serialRecv (rem : Nat) : Line → List Byte × Line
  | [] => ([], [])
  | c :: line => if c.length ≤ rem then (c, line) else (c.take rem, c.drop rem :: line)

theorem serialRecv_flatten (rem : Nat) (line : Line) :
    (serialRecv rem line).1 ++ (serialRecv rem line).2.flatten = line.flatten := by
  cases line with
  | nil => rfl
  | cons c line =>
    rw [serialRecv]
    split
    · rfl
    · simp [← append_assoc]

/-- A loop that reads until there are `need` bytes in the buffer; `none` after a timeout. -/
def ptpFill (need : Nat) (buf : List Byte) (dle : Bool) (line : Line) :
    Option (List Byte × Bool × Line) :=
  if need ≤ buf.length then some (buf, dle, line)
  else
    let r := serialRecv (BACNET_PTP_MTU - buf.length) line
    if _h : r.1 = [] then none
    else ptpFill need (buf ++ (destuff dle r.1).1) (destuff dle r.1).2 r.2
termination_by line.flatten.length
decreasing_by
  rw [← serialRecv_flatten (BACNET_PTP_MTU - buf.length) line, List.length_append]
  have := List.length_pos_iff.mpr (show (serialRecv _ line).1 ≠ [] from _h)
  omega

theorem length_destuff_le (dle : Bool) (s : List Byte) : (destuff dle s).1.length ≤ s.length := by
  fun_induction destuff dle s <;> simp <;> omega

theorem ptpFill_le {need : Nat} {buf' : List Byte} {dle' : Bool} {line' : Line}
    (h : ptpFill need buf dle line = some (buf', dle', line')) :
    need ≤ buf'.length ∧ buf'.length + line'.flatten.length ≤ buf.length + line.flatten.length := by
  fun_induction ptpFill need buf dle line with
  | case1 buf dle line hn =>
    cases h
    exact ⟨hn, le_rfl⟩
  | case2 => cases h
  | case3 buf dle line hn r hr ih =>
    have hlen : r.1.length + r.2.flatten.length = line.flatten.length := by
      rw [← length_append, serialRecv_flatten]
    have hd := length_destuff_le dle r.1
    obtain ⟨h1, h2⟩ := ih h
    rw [length_append] at h2
    exact ⟨h1, by omega⟩

/-- How many bytes are dropped when the first six are not a header. -/
def ptpHdrError (buf : List Byte) : Nat :=
  if buf.getD 0 0 ≠ 0x55 then 1
  else if buf.getD 1 0 ≠ 0xff then 2
  else if buf.getD 5 0 ≠ ~~~ bacnetCrc8 0xff ((buf.drop 2).take 3) then 2
  else 0

/-- The first loop of `bacnet_ptp_frame_recv`, until a header is at the start of the buffer. -/
def ptpHunt (buf : List Byte) (dle : Bool) (line : Line) : Option (List Byte × Bool × Line) :=
  match _h : ptpFill 6 buf dle line with
  | none => none
  | some (buf', dle', line') =>
    if ptpHdrError buf' = 0 then some (buf', dle', line')
    else ptpHunt (buf'.drop (ptpHdrError buf')) dle' line'
termination_by buf.length + line.flatten.length
decreasing_by
  have := ptpFill_le _h
  rw [List.length_drop]
  omega

/-- The receiver between two calls; `cnt` is the length of `buf`. -/
structure PtpRx where
  buf : List Byte
  off : Nat
  dle : Bool

/-- What it holds of the next frame. -/
def PtpRx.held (rx : PtpRx) : List Byte := if rx.off = 0 then [] else rx.buf.drop rx.off

/-- `bacnet_ptp_frame_recv`: `none` after a timeout, and no frame if the data check is wrong. -/
def ptpFrameRecv (rx : PtpRx) (line : Line) : Option (Option (Byte × List Byte) × PtpRx × Line) := do
  let (buf, dle, line) ← ptpHunt rx.held rx.dle line
  let len := (buf.getD 3 0).toNat <<< 8 + (buf.getD 4 0).toNat
  if len = 0 then some (some (buf.getD 2 0, []), ⟨buf, 6, dle⟩, line)
  else
    let (buf, dle, line) ← ptpFill (len + 8) buf dle line
    let chk := buf.getD (len + 7) 0 ++ buf.getD (len + 6) 0
    if ~~~ bacnetCrc16 0xffff ((buf.drop 6).take len) ≠ chk then some (none, ⟨[], 0, false⟩, line)
    else some (some (buf.getD 2 0, (buf.drop 6).take len), ⟨buf, len + 8, dle⟩, line)

/-- The frames that `n` calls return. -/
def ptpRecvAll : Nat → PtpRx → Line → Option (List (Byte × List Byte))
  | 0, _, _ => some []
  | n + 1, rx, line => do
    let (frame, rx, line) ← ptpFrameRecv rx line
    let frame ← frame
    let frames ← ptpRecvAll n rx line
    some (frame :: frames)

/-! ## The round trip -/

theorem destuff_append {a b : List Byte} :
    (destuff dle (a ++ b)).1 = (destuff dle a).1 ++ (destuff (destuff dle a).2 b).1 := by
  fun_induction destuff dle a with
  | case1 => rfl
  | case2 c s ih => exact congrArg _ ih
  | case3 s ih =>
    rw [cons_append, destuff, if_pos rfl]
    exact ih
  | case4 c s hc ih =>
    rw [cons_append, destuff, if_neg hc]
    exact congrArg _ ih

theorem destuff_stuff (l rest : List Byte) :
    (destuff false (l.flatMap stuffByte ++ rest)).1 = l ++ (destuff false rest).1 := by
  induction l with
  | nil => rfl
  | cons c l ih =>
    have hbyte : ∀ c : Byte, Special c = true → (c ||| 0x80) &&& 0x7f = c := by decide +kernel
    rw [flatMap_cons, stuffByte]
    split
    · rename_i hc
      simpa [destuff, ih] using hbyte c hc
    · rename_i hc
      have hne : c ≠ DLE := fun he => hc (by rw [he]; rfl)
      simp [destuff, ih, hne]

theorem ptpFrameSend_bare {typ b : Byte} {pdu : List Byte} (h : b ∈ ptpFrameSend typ pdu) :
    b ≠ XON ∧ b ≠ XOFF := by
  have hbyte : ∀ c : Byte, XON ∉ stuffByte c ∧ XOFF ∉ stuffByte c := by decide +kernel
  obtain ⟨c, -, hb⟩ := mem_flatMap.mp h
  exact ⟨fun he => (hbyte c).1 (he ▸ hb), fun he => (hbyte c).2 (he ▸ hb)⟩

theorem serialRecv_ne {rem : Nat} (hrem : 0 < rem) (hne : ∀ c ∈ line, c ≠ []) :
    ((serialRecv rem line).1 = [] → line = []) ∧ ∀ c ∈ (serialRecv rem line).2, c ≠ [] := by
  cases line with
  | nil => exact ⟨fun _ => rfl, nofun⟩
  | cons c line =>
    obtain ⟨hc, hline⟩ := forall_mem_cons.mp hne
    rw [serialRecv]
    split
    · exact ⟨fun h => absurd h hc, hline⟩
    · refine ⟨fun h => ?_, forall_mem_cons.mpr ⟨fun h => ?_, hline⟩⟩
      · simp [hc] at h
        omega
      · simp at h
        omega

/-- What is held and what is to come stay the same together, and there is enough for the loop. -/
theorem ptpFill_spec {need : Nat} (hmtu : need ≤ BACNET_PTP_MTU) (hne : ∀ c ∈ line, c ≠ [])
    (hall : need ≤ (buf ++ (destuff dle line.flatten).1).length) :
    ∃ buf' dle' line', ptpFill need buf dle line = some (buf', dle', line') ∧ need ≤ buf'.length ∧
      (∀ c ∈ line', c ≠ []) ∧
      buf' ++ (destuff dle' line'.flatten).1 = buf ++ (destuff dle line.flatten).1 := by
  fun_induction ptpFill need buf dle line with
  | case1 buf dle line hn => exact ⟨buf, dle, line, rfl, hn, hne, rfl⟩
  | case2 buf dle line hn r hr =>
    obtain rfl := (serialRecv_ne (by omega) hne).1 hr
    simp [destuff] at hall
    omega
  | case3 buf dle line hn r hr ih =>
    have hflat : r.1 ++ r.2.flatten = line.flatten := serialRecv_flatten _ line
    rw [← hflat, destuff_append, ← append_assoc] at hall ⊢
    exact ih (serialRecv_ne (by omega) hne).2 hall

theorem ptpHunt_of_fill {buf' : List Byte} {dle' : Bool} {line' : Line}
    (h : ptpFill 6 buf dle line = some (buf', dle', line')) (h0 : ptpHdrError buf' = 0) :
    ptpHunt buf dle line = some (buf', dle', line') := by
  rw [ptpHunt]
  split
  · rename_i hn
    cases hn.symm.trans h
  · rename_i hs
    cases hs.symm.trans h
    exact if_pos h0

theorem exists_of_append_eq {a b x y : List Byte} (h : b ++ x = a ++ y) (hl : a.length ≤ b.length) :
    ∃ t, b = a ++ t ∧ t ++ x = y := by
  rcases append_eq_append_iff.mp h with ⟨t, rfl, rfl⟩ | ⟨t, rfl, rfl⟩
  · obtain rfl : t = [] := eq_nil_of_length_eq_zero (by rw [length_append] at hl; omega)
    exact ⟨[], by simp, rfl⟩
  · exact ⟨t, rfl, rfl⟩

theorem halves_append (crc : BitVec 16) : (crc >>> 8).setWidth 8 ++ crc.setWidth 8 = crc := by
  apply BitVec.eq_of_getLsbD_eq
  intro i hi
  rw [BitVec.getLsbD_append]
  by_cases h8 : i < 8
  · simp [h8]
  · simp [h8, show i - 8 < 8 by omega, show 8 + (i - 8) = i by omega]

theorem ptpFrameRecv_spec {rx : PtpRx} {typ : Byte} {pdu rest : List Byte}
    (hlen : pdu.length + 8 ≤ BACNET_PTP_MTU) (hne : ∀ c ∈ line, c ≠ [])
    (h : rx.held ++ (destuff rx.dle line.flatten).1 = ptpPlain typ pdu ++ rest) :
    ∃ rx' line', ptpFrameRecv rx line = some (some (typ, pdu), rx', line') ∧ (∀ c ∈ line', c ≠ []) ∧
      rx'.held ++ (destuff rx'.dle line'.flatten).1 = rest := by
  have hmtu : pdu.length ≤ 504 := by
    unfold BACNET_PTP_MTU at hlen
    omega
  have hhdr : (ptpHdr typ pdu.length).length = 6 := rfl
  obtain ⟨buf, dle, line1, hfill, hbuf, hne1, heq⟩ := ptpFill_spec
    (show 6 ≤ BACNET_PTP_MTU by decide) hne
    (by rw [h, ptpPlain, length_append, length_append]; omega)
  rw [h, ptpPlain, append_assoc] at heq
  obtain ⟨t, rfl, ht⟩ := exists_of_append_eq heq (by omega)
  have hhunt := ptpHunt_of_fill hfill (by simp [ptpHdrError, ptpHdr])
  have hn : ((ptpHdr typ pdu.length ++ t).getD 3 0).toNat <<< 8 +
      ((ptpHdr typ pdu.length ++ t).getD 4 0).toNat = pdu.length := by
    show (BitVec.ofNat 8 _).toNat <<< 8 + (BitVec.ofNat 8 _).toNat = _
    rw [BitVec.toNat_ofNat, BitVec.toNat_ofNat, Nat.shiftLeft_eq, Nat.shiftRight_eq_div_pow]
    omega
  simp only [ptpFrameRecv, hhunt, bind_eq_bind, bind_some, hn]
  by_cases hp : pdu = []
  · subst hp
    exact ⟨_, _, rfl, hne1, ht⟩
  · have hdata : (ptpHdr typ pdu.length ++ ptpData pdu).length = pdu.length + 8 := by
      simp [ptpHdr, ptpData, hp]
    rw [← append_assoc] at heq
    obtain ⟨buf, dle', line2, hfill2, hbuf2, hne2, heq2⟩ := ptpFill_spec hlen hne1
      (by rw [heq, length_append]; omega)
    rw [heq] at heq2
    obtain ⟨t2, rfl, ht2⟩ := exists_of_append_eq heq2 (by omega)
    refine ⟨⟨ptpHdr typ pdu.length ++ ptpData pdu ++ t2, pdu.length + 8, dle'⟩, line2, ?_, hne2, ?_⟩
    · have hpdu : ((ptpHdr typ pdu.length ++ ptpData pdu ++ t2).drop 6).take pdu.length = pdu := by
        simp [ptpHdr, ptpData, hp]
      simp only [hfill2, bind_some, hpdu]
      rw [if_neg (by simpa using hp), if_neg]
      · rfl
      · have hcrc := halves_append (~~~ bacnetCrc16 0xffff pdu)
        rw [not_not]
        refine hcrc.symm.trans (congrArg₂ _ ?_ ?_)
        · simp [ptpHdr, ptpData, hp]
        · simp [ptpHdr, ptpData, hp]
    · rw [PtpRx.held, if_neg (by simp), ← hdata, drop_left]
      exact ht2

/-- **What is sent is received**, in whatever pieces it comes in. -/
theorem ptp_round_trip {frames : List (Byte × List Byte)} {line : Line}
    (hlen : ∀ f ∈ frames, f.2.length + 8 ≤ BACNET_PTP_MTU) (hne : ∀ c ∈ line, c ≠ [])
    (hline : line.flatten = frames.flatMap fun f => ptpFrameSend f.1 f.2) :
    ptpRecvAll frames.length ⟨[], 0, false⟩ line = some frames ∧
      ∀ b ∈ line.flatten, b ≠ XON ∧ b ≠ XOFF := by
  have hall : ∀ (frames : List (Byte × List Byte)) (rx : PtpRx) (line : Line),
      (∀ f ∈ frames, f.2.length + 8 ≤ BACNET_PTP_MTU) → (∀ c ∈ line, c ≠ []) →
      rx.held ++ (destuff rx.dle line.flatten).1 = frames.flatMap (fun f => ptpPlain f.1 f.2) →
      ptpRecvAll frames.length rx line = some frames := by
    intro frames
    induction frames with
    | nil => intros; rfl
    | cons f frames ih =>
      intro rx line hlen hne h
      obtain ⟨hf, hlen⟩ := forall_mem_cons.mp hlen
      obtain ⟨rx', line', hrecv, hne', h'⟩ := ptpFrameRecv_spec hf hne h
      simp [ptpRecvAll, hrecv, ih rx' line' hlen hne' h']
  refine ⟨hall frames _ line hlen hne ?_, fun b hb => ?_⟩
  · have hplain : line.flatten = (frames.flatMap fun f => ptpPlain f.1 f.2).flatMap stuffByte := by
      rw [hline, flatMap_assoc]
      rfl
    have h := destuff_stuff (frames.flatMap fun f => ptpPlain f.1 f.2) []
    rw [append_nil, ← hplain] at h
    simpa [PtpRx.held, destuff] using h
  · rw [hline] at hb
    obtain ⟨f, -, hb⟩ := mem_flatMap.mp hb
    exact ptpFrameSend_bare hb

/-- Two frames, the second one with an escape that is cut by a read. -/
theorem ptp_round_trip_cut :
    ptpRecvAll 2 ⟨[], 0, false⟩ (((ptpFrameSend 1 []) ++ (ptpFrameSend 2 [XON])).map ([·])) =
      some [(1, []), (2, [XON])] := by
  exact (@ptp_round_trip [(1, []), (2, [XON])] _ (by decide) (by decide +kernel) (by decide +kernel)).1

end Bacnet
