import Mathlib.Data.BitVec

/-!
# Remainders by a polynomial

The division of a bit string by a polynomial over the field of two elements, most significant bit
first: the register moves up by one place for each bit, and the polynomial is taken off when a one
leaves it. This is linear in the register.
-/

namespace Lib.Crc

open BitVec

section
variable {w : Nat} (poly : BitVec w)

/-- One bit of the division. -/
def shift (c : BitVec w) : BitVec w := (c <<< 1) ^^^ if c.msb then poly else 0

def shifts : Nat → BitVec w → BitVec w
  | 0, c => c
  | n + 1, c => shift poly (shifts n c)

theorem shift_xor {a b : BitVec w} : shift poly (a ^^^ b) = shift poly a ^^^ shift poly b := by
  unfold shift
  rw [BitVec.shiftLeft_xor_distrib, BitVec.msb_xor]
  cases a.msb <;> cases b.msb
  · simp
  · simp only [Bool.false_xor, if_true, Bool.false_eq_true, if_false, BitVec.ofNat_eq_ofNat, BitVec.xor_zero]
    ac_rfl
  · simp only [Bool.xor_false, if_true, Bool.false_eq_true, if_false, BitVec.ofNat_eq_ofNat, BitVec.xor_zero]
    ac_rfl
  · have hself : poly ^^^ poly = 0#w := BitVec.xor_self
    calc (a <<< 1 ^^^ b <<< 1) ^^^ (if (true ^^ true) = true then poly else 0)
        = (a <<< 1 ^^^ b <<< 1) ^^^ (poly ^^^ poly) := by rw [hself]; rfl
      _ = (a <<< 1 ^^^ poly) ^^^ (b <<< 1 ^^^ poly) := by ac_rfl

theorem shifts_xor {n : Nat} {a b : BitVec w} :
    shifts poly n (a ^^^ b) = shifts poly n a ^^^ shifts poly n b := by
  induction n with
  | zero => rfl
  | succ n ih => rw [shifts, ih, shift_xor, shifts, shifts]

/-- As long as no one leaves the register, it only moves. -/
theorem shifts_eq_shiftLeft {c : BitVec w} {n : Nat} (h : c.toNat * 2 ^ n < 2 ^ w) :
    shifts poly n c = c <<< n := by
  induction n with
  | zero => rw [shifts, shiftLeft_zero]
  | succ n ih =>
    have hlt : c.toNat * 2 ^ n * 2 < 2 ^ w := by
      rw [Nat.mul_assoc, ← Nat.pow_succ]
      exact h
    have hmsb : (c <<< n).msb = false := by
      rw [msb_eq_false_iff_two_mul_lt, toNat_shiftLeft, Nat.shiftLeft_eq,
        Nat.mod_eq_of_lt (by omega)]
      omega
    rw [shifts, ih (by omega), shift, hmsb, shiftLeft_add]
    simp

end

end Lib.Crc
