import Mathlib.Data.BitVec

/-!
# Serial numbers

Sequence numbers of 32 bits that wrap around, compared by the sign of their difference.
-/

namespace Lib

variable {x : Nat} {a : BitVec 32}

theorem ofNat_sub_ofNat {y : Nat} :
    BitVec.ofNat 32 x - BitVec.ofNat 32 y = BitVec.ofInt 32 (x - y) := by
  rw [Int.sub_eq_add_neg, BitVec.ofInt_add, BitVec.ofInt_neg, BitVec.ofInt_natCast,
    BitVec.ofInt_natCast, BitVec.sub_eq_add_neg]

/-- The difference of two numbers at distances `x` and `y` from a third. -/
theorem toInt_add_sub_add {y : Nat} (a : BitVec 32) (hx : x < 2 ^ 31) (hy : y < 2 ^ 31) :
    ((a + BitVec.ofNat 32 x) - (a + BitVec.ofNat 32 y)).toInt = x - y := by
  have hcancel : (a + BitVec.ofNat 32 x) - (a + BitVec.ofNat 32 y) =
      BitVec.ofNat 32 x - BitVec.ofNat 32 y := add_sub_add_left_eq_sub ..
  rw [hcancel, ofNat_sub_ofNat, BitVec.toInt_ofInt_eq_self (by decide) (by omega) (by omega)]

theorem toInt_add_sub {k : Nat} (hk : k < 2 ^ 31) : ((a + BitVec.ofNat 32 k) - a).toInt = k := by
  have hcancel : (a + BitVec.ofNat 32 k) - a = BitVec.ofNat 32 k := add_sub_cancel_left ..
  rw [hcancel, ← BitVec.ofInt_natCast, BitVec.toInt_ofInt_eq_self (by decide) (by omega) (by omega)]

theorem ofNat_toNat_of_pos {d : BitVec 32} (h : 0 < d.toInt) :
    d = BitVec.ofNat 32 d.toInt.toNat ∧ d.toInt.toNat < 2 ^ 31 := by
  have hlt := BitVec.toInt_lt (x := d)
  refine ⟨?_, by omega⟩
  rw [← BitVec.ofInt_natCast, Int.toNat_of_nonneg (Int.le_of_lt h), BitVec.ofInt_toInt]

/-- A number after `a` and not after `a + x`, for a small `x`, is one of those between. -/
theorem exists_between {b : BitVec 32} (hx : x < 2 ^ 31) (h : 0 < (b - a).toInt)
    (h' : (b - (a + BitVec.ofNat 32 x)).toInt ≤ 0) :
    ∃ k, 0 < k ∧ k ≤ x ∧ b = a + BitVec.ofNat 32 k := by
  obtain ⟨hd, hlt⟩ := ofNat_toNat_of_pos h
  have hb : b = a + BitVec.ofNat 32 (b - a).toInt.toNat := by
    rw [← hd]
    exact (add_sub_cancel ..).symm
  refine ⟨(b - a).toInt.toNat, by omega, ?_, hb⟩
  rw [hb, toInt_add_sub_add a hlt hx] at h'
  omega

/-- The same for a number not before `a`: the one half of the range away is ruled out by `x`. -/
theorem exists_between_of_not_gt {b : BitVec 32} (hpos : 0 < x) (hx : x < 2 ^ 31) (hne : b ≠ a)
    (h : (a - b).toInt ≤ 0) (h' : (b - (a + BitVec.ofNat 32 x)).toInt ≤ 0) :
    ∃ k, 0 < k ∧ k ≤ x ∧ b = a + BitVec.ofNat 32 k := by
  refine exists_between hx ?_ h'
  have hb : b = a + (b - a) := (add_sub_cancel ..).symm
  generalize hd : b - a = d at *
  subst hb
  have hd0 : d.toNat ≠ 0 := by
    intro h0
    have hzero : d = 0 := BitVec.eq_of_toNat_eq h0
    exact hne (by rw [hzero, add_zero])
  have hneg : a - (a + d) = -d := by
    rw [← sub_sub, sub_self, zero_sub]
  have hsub : (a + d) - (a + BitVec.ofNat 32 x) = d - BitVec.ofNat 32 x :=
    add_sub_add_left_eq_sub ..
  have hlt := d.isLt
  rw [hneg, BitVec.toInt_eq_toNat_cond, BitVec.toNat_neg] at h
  rw [hsub, BitVec.toInt_eq_toNat_cond, BitVec.toNat_sub, BitVec.toNat_ofNat] at h'
  rw [BitVec.toInt_eq_toNat_cond]
  split at h <;> split at h' <;> split <;> omega

theorem add_sub_add_of_le {k : Nat} (a : BitVec 32) (h : k ≤ x) :
    (a + BitVec.ofNat 32 x) - (a + BitVec.ofNat 32 k) = BitVec.ofNat 32 (x - k) := by
  have hcancel : (a + BitVec.ofNat 32 x) - (a + BitVec.ofNat 32 k) =
      BitVec.ofNat 32 x - BitVec.ofNat 32 k := add_sub_add_left_eq_sub ..
  rw [hcancel, ofNat_sub_ofNat, ← Int.ofNat_sub h, BitVec.ofInt_natCast]

end Lib
