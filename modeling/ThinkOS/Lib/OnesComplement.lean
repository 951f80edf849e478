import Mathlib.Tactic.Ring

/-!
# Sums with end-around carry

Addition of `w`-bit words in which the carry out of the top is added at the bottom. A sum of words
is the representative of the sum of numbers modulo `2 ^ w - 1` that is zero only when everything
added is zero.
-/

namespace Lib

open BitVec

/-- The representative of `n` modulo `m` among `1, …, m`, and 0 for 0. -/
def residue (m n : Nat) : Nat :=
  if n = 0 then 0 else (n - 1) % m + 1

section
variable {m a b n : Nat}

theorem residue_of_pos (h : 0 < n) : residue m n = (n - 1) % m + 1 :=
  if_neg (by omega)

theorem residue_pos (h : 0 < n) : 0 < residue m n := by
  rw [residue_of_pos h]
  omega

theorem residue_of_le (h : n ≤ m) : residue m n = n := by
  rcases Nat.eq_zero_or_pos n with rfl | hn
  · rfl
  · rw [residue_of_pos hn, Nat.mod_eq_of_lt (by omega)]
    omega

theorem residue_le (hm : 0 < m) (n : Nat) : residue m n ≤ m := by
  rcases Nat.eq_zero_or_pos n with rfl | hn
  · exact Nat.zero_le m
  · rw [residue_of_pos hn]
    exact Nat.mod_lt _ hm

theorem residue_add_self (h : 0 < n) : residue m (n + m) = residue m n := by
  rw [residue_of_pos h, residue_of_pos (by omega), show n + m - 1 = n - 1 + m by omega,
    Nat.add_mod_right]

theorem residue_add_mul (h : 0 < n) {k : Nat} : residue m (n + m * k) = residue m n := by
  induction k with
  | zero => rw [Nat.mul_zero, Nat.add_zero]
  | succ k ih => rw [Nat.mul_succ, ← Nat.add_assoc, residue_add_self (by omega), ih]

/-- A number is its representative and a multiple of the modulus. -/
theorem exists_eq_residue (m n : Nat) : ∃ k, n = residue m n + m * k := by
  rcases Nat.eq_zero_or_pos n with rfl | hn
  · exact ⟨0, rfl⟩
  · refine ⟨(n - 1) / m, ?_⟩
    rw [residue_of_pos hn]
    have := Nat.mod_add_div (n - 1) m
    omega

theorem residue_residue_add : residue m (residue m a + b) = residue m (a + b) := by
  rcases Nat.eq_zero_or_pos a with rfl | ha
  · rfl
  · obtain ⟨k, hk⟩ := exists_eq_residue m a
    have hpos := residue_pos (m := m) ha
    calc residue m (residue m a + b)
        = residue m (residue m a + b + m * k) := (residue_add_mul (by omega)).symm
      _ = residue m (a + b) := by
        rw [Nat.add_right_comm, ← hk]

/-- What a sum lacks to the modulus completes it. -/
theorem residue_add_complement (hm : 0 < m) : residue m (n + (m - residue m n)) = m := by
  have hle := residue_le hm n
  rw [← residue_residue_add, Nat.add_sub_cancel' hle, residue_of_le (Nat.le_refl m)]

end

/-- Addition with end-around carry. -/
def onesAdd {w : Nat} (a b : BitVec w) : BitVec w :=
  if a.toNat + b.toNat < 2 ^ w then a + b else a + b + 1

theorem toNat_onesAdd {w : Nat} {a b : BitVec w} :
    (onesAdd a b).toNat = residue (2 ^ w - 1) (a.toNat + b.toNat) := by
  have ha := a.isLt
  have hb := b.isLt
  rw [onesAdd]
  split
  case isTrue h =>
    rw [residue_of_le (by omega), toNat_add, Nat.mod_eq_of_lt h]
  case isFalse h =>
    have hcarry : a.toNat + b.toNat = (a.toNat + b.toNat - (2 ^ w - 1)) + (2 ^ w - 1) := by omega
    have hsum : (a + b).toNat = a.toNat + b.toNat - 2 ^ w := by
      rw [toNat_add, Nat.mod_eq_sub_mod (by omega), Nat.mod_eq_of_lt (by omega)]
    have hw : w ≠ 0 := by
      rintro rfl
      omega
    have hone : (1 : BitVec w).toNat = 1 := toNat_one (Nat.pos_of_ne_zero hw)
    rw [hcarry, residue_add_self (by omega), residue_of_le (by omega), toNat_add, hsum, hone,
      Nat.mod_eq_of_lt (by omega)]
    omega

end Lib
