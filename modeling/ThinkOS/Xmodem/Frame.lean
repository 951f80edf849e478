import ThinkOS.Lib.Crc
import Mathlib.Tactic.Common
import Mathlib.Tactic.IntervalCases

/-!
# Packets of XMODEM

The control bytes, the two frame checks of `crc.h` and `xmodem_snd.c`, and the packet that the sender
and the receiver agree on: a start byte, a number, its complement, 128 or 1024 bytes and their check.
-/

namespace Xmodem

open BitVec List

variable {a b : BitVec 16}

open Lib

def SOH : UInt8 := 0x01
def STX : UInt8 := 0x02
def EOT : UInt8 := 0x04
def ACK : UInt8 := 0x06
def NAK : UInt8 := 0x15
def CAN : UInt8 := 0x18

/-! ## Frame checks -/

/-- The last three lines of `__crc16ccitt`, with the byte in the low half. -/
def crcMix (crc : BitVec 16) : BitVec 16 :=
  let crc := crc ^^^ ((crc &&& 0xff#16) >>> 4)
  let crc := crc ^^^ ((crc &&& 0x0f#16) <<< 12)
  crc ^^^ ((crc &&& 0xff#16) <<< 5)

/-- `__crc16ccitt` -/
def crc16ccitt (crc : BitVec 16) (c : UInt8) : BitVec 16 :=
  let crc := (crc >>> 8) ||| ((crc &&& 0xff#16) <<< 8)
  crcMix (crc ^^^ c.toBitVec.setWidth 16)

/-- The polynomial x¹⁶ + x¹² + x⁵ + 1, without its first term. -/
def crcPoly : BitVec 16 := 0x1021

/-- The division for one byte: it is put on top of the register, and eight bits leave it. -/
def crcByte (crc : BitVec 16) (c : UInt8) : BitVec 16 :=
  Crc.shifts crcPoly 8 (crc ^^^ c.toBitVec.setWidth 16 <<< 8)

theorem mask_byte : (a <<< 8 ^^^ b) &&& 0xff#16 = b &&& 0xff#16 := by
  ext i hi
  interval_cases i <;> simp

theorem mask_nibble : (a <<< 8 ^^^ b) &&& 0x0f#16 = b &&& 0x0f#16 := by
  ext i hi
  interval_cases i <;> simp

theorem crcMix_xor : crcMix (a <<< 8 ^^^ b) = a <<< 8 ^^^ crcMix b := by
  unfold crcMix
  simp only [xor_assoc, mask_byte, mask_nibble]

theorem swap_eq {crc : BitVec 16} : (crc >>> 8) ||| ((crc &&& 0xff#16) <<< 8) = crc <<< 8 ^^^ crc >>> 8 := by
  ext i hi
  interval_cases i <;> simp

theorem halves_eq {crc : BitVec 16} : crc = (crc >>> 8) <<< 8 ^^^ (crc &&& 0xff#16) := by
  ext i hi
  interval_cases i <;> simp

theorem crcMix_byte : ∀ y : BitVec 8,
    crcMix (y.setWidth 16) = Crc.shifts crcPoly 8 (y.setWidth 16 <<< 8) := by
  decide +kernel

/-- **`__crc16ccitt` divides by the polynomial.** -/
theorem crc16ccitt_eq (crc : BitVec 16) (c : UInt8) : crc16ccitt crc c = crcByte crc c := by
  unfold crcByte
  obtain ⟨y, hy⟩ : ∃ y : BitVec 8, y.setWidth 16 = crc >>> 8 ^^^ c.toBitVec.setWidth 16 := by
    refine ⟨(crc >>> 8 ^^^ c.toBitVec.setWidth 16).setWidth 8, ?_⟩
    ext i hi
    interval_cases i <;> simp
  have hlow : Crc.shifts crcPoly 8 (crc &&& 0xff#16) = crc <<< 8 := by
    rw [Crc.shifts_eq_shiftLeft]
    · ext i hi
      interval_cases i <;> simp
    · have : (crc &&& 0xff#16).toNat ≤ 255 := by
        rw [BitVec.toNat_and]
        exact Nat.and_le_right
      omega
  calc crc16ccitt crc c
      = crcMix (crc <<< 8 ^^^ y.setWidth 16) := by
        rw [crc16ccitt, swap_eq, hy, BitVec.xor_assoc]
    _ = crc <<< 8 ^^^ Crc.shifts crcPoly 8 (y.setWidth 16 <<< 8) := by
        rw [crcMix_xor, crcMix_byte]
    _ = Crc.shifts crcPoly 8 ((crc &&& 0xff#16) ^^^ (crc >>> 8 ^^^ c.toBitVec.setWidth 16) <<< 8) := by
        rw [Crc.shifts_xor, hlow, hy]
    _ = Crc.shifts crcPoly 8 (crc ^^^ c.toBitVec.setWidth 16 <<< 8) := by
        rw [BitVec.shiftLeft_xor_distrib, ← BitVec.xor_assoc, BitVec.xor_comm (crc &&& 0xff#16),
          ← halves_eq]

/-- The remainder of a string of bytes. -/
def crcOf (data : List UInt8) : BitVec 16 := data.foldl crcByte 0

/-- The loop `crc = CRC16CCITT(crc, cp[i])` over a block. -/
theorem foldl_crc16ccitt (data : List UInt8) : data.foldl crc16ccitt 0 = crcOf data := by
  rw [crcOf, show crc16ccitt = crcByte from funext₂ crc16ccitt_eq]

/-- The sum of a string of bytes. -/
def cksOf (data : List UInt8) : UInt8 := data.foldl (· + ·) 0

/-- The bytes of a frame check. -/
def fcs (crc : Bool) (data : List UInt8) : List UInt8 :=
  if crc then [⟨(crcOf data >>> 8).setWidth 8⟩, ⟨(crcOf data).setWidth 8⟩] else [cksOf data]

def fcsLen (crc : Bool) : Nat := if crc then 2 else 1

@[simp] theorem length_fcs {crc : Bool} {data : List UInt8} : (fcs crc data).length = fcsLen crc := by
  cases crc <;> rfl

/-! ## Packets -/

/-- The number of the packet after `k` packets: they are counted from 1, modulo 256. -/
def number (k : Nat) : UInt8 := UInt8.ofNat (k + 1)

theorem number_succ {k : Nat} : number (k + 1) = number k + 1 := by
  unfold number
  rw [UInt8.ofNat_add]
  rfl

def header (seq : UInt8) (data : List UInt8) : List UInt8 :=
  [if data.length = 1024 then STX else SOH, seq, ~~~seq]

/-- The packet for a block. -/
def frame (crc : Bool) (seq : UInt8) (data : List UInt8) : List UInt8 :=
  header seq data ++ data ++ fcs crc data

@[simp] theorem length_frame {crc : Bool} {seq : UInt8} {data : List UInt8} :
    (frame crc seq data).length = data.length + 3 + fcsLen crc := by
  simp only [frame, header, length_append, length_cons, length_nil, length_fcs]
  omega

end Xmodem
