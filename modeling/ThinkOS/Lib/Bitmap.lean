import Mathlib.Tactic.Ring

/-!
# Bit maps held in an array of words

A bit map is an array of words addressed bit by bit, as a bit-band alias region
does: bit `i` is bit `i % w` of word `i / w`. `rd` and `wr` read and write one bit,
`lowBit` is the index of the lowest set bit of a word (its width when the word is
zero), which is what counting the leading zeros of the reversed word gives.

    (b.wr i v).rd j = if i = j then v else b.rd j  (Bitmap.rd_wr)
    lowBit x < w → x.getLsbD (lowBit x)  (getLsbD_lowBit)
-/

namespace Lib

open BitVec Function List

/-! ## Words -/

section
variable {w : Nat} {i : Nat} {x : BitVec w}

/-- Index of the lowest set bit, or `w` when there is none. -/
def lowBit (x : BitVec w) : Nat := (List.range w).findIdx x.getLsbD

theorem lowBit_le (x : BitVec w) : lowBit x ≤ w := by
  have h : lowBit x ≤ (List.range w).length := findIdx_le_length
  simpa using h

theorem getLsbD_lowBit (h : lowBit x < w) : x.getLsbD (lowBit x) = true := by
  have hl : (List.range w).findIdx x.getLsbD < (List.range w).length := by
    simpa [lowBit] using h
  have := findIdx_getElem (w := hl)
  simpa [lowBit] using this

theorem getLsbD_of_lt_lowBit (x : BitVec w) (i : Nat) (h : i < lowBit x) : x.getLsbD i = false := by
  have hx := not_of_lt_findIdx h
  simpa using hx

theorem lowBit_eq_width_iff (x : BitVec w) : lowBit x = w ↔ x = 0#w := by
  constructor
  · intro h
    apply eq_of_getLsbD_eq
    intro i hi
    rw [getLsbD_of_lt_lowBit x i (by omega)]
    simp
  · rintro rfl
    apply Nat.le_antisymm (lowBit_le _)
    apply Nat.le_of_not_lt
    intro h
    have := getLsbD_lowBit h
    simp at this

theorem lowBit_le_of_getLsbD (x : BitVec w) (h : x.getLsbD i = true) : lowBit x ≤ i := by
  apply Nat.le_of_not_lt
  intro hlt
  rw [getLsbD_of_lt_lowBit x i hlt] at h
  cases h

/-- Number of zero bits above the highest set bit. -/
def leadingZeros (x : BitVec w) : Nat := (List.range w).findIdx fun i => x.getLsbD (w - 1 - i)

theorem getLsbD_leadingZeros (x : BitVec w) (h : leadingZeros x < w) :
    x.getLsbD (w - 1 - leadingZeros x) = true := by
  have hl : (List.range w).findIdx (fun i => x.getLsbD (w - 1 - i)) < (List.range w).length := by
    simpa [leadingZeros] using h
  have := findIdx_getElem (w := hl)
  simpa [leadingZeros] using this

theorem getLsbD_of_lt_leadingZeros (h : i < leadingZeros x) : x.getLsbD (w - 1 - i) = false := by
  have hle : leadingZeros x ≤ (List.range w).length := findIdx_le_length
  rw [length_range] at hle
  have hx := not_of_lt_findIdx h
  simpa using hx

theorem getLsbD_one_shiftLeft {n : Nat} :
    (1#w <<< n).getLsbD i = (decide (i = n) && decide (i < w)) := by
  rw [getLsbD_shiftLeft, getLsbD_one]
  by_cases h1 : i < w
  · by_cases h2 : i = n
    · subst h2
      simp [h1]
      omega
    · rcases Nat.lt_or_gt_of_ne h2 with h | h
      · simp [h, h2]
      · have : i - n ≠ 0 := by omega
        simp [this, h2]
  · simp [h1]

theorem and_one_shiftLeft_eq_zero_iff (hi : i < w) :
    x &&& 1#w <<< i = 0#w ↔ x.getLsbD i = false := by
  constructor
  · intro h
    have hb := congrArg (fun y => y.getLsbD i) h
    simpa [getLsbD_one_shiftLeft, hi] using hb
  · intro h
    apply eq_of_getLsbD_eq
    intro j hj
    rw [getLsbD_and, getLsbD_one_shiftLeft]
    by_cases he : j = i
    · simp [he, h]
    · simp [he]

/-- A word of two-bit fields: a mask for field `i` has no bit in field `j`. -/
theorem getLsbD_fieldMask (hx : x.toNat < 4) {j b : Nat} (hb : b < 2) (hj : j * 2 + b < w) :
    (x <<< (i * 2)).getLsbD (j * 2 + b) = (decide (j = i) && x.getLsbD b) := by
  rw [getLsbD_shiftLeft]
  rcases Nat.lt_trichotomy j i with h | h | h
  · simp [show j * 2 + b < i * 2 by omega, show j ≠ i by omega]
  · subst h
    simp [hj]
  · have hz : x.getLsbD (j * 2 + b - i * 2) = false := by
      rw [← testBit_toNat]
      apply Nat.testBit_lt_two_pow
      calc x.toNat < 2 ^ 2 := hx
        _ ≤ 2 ^ (j * 2 + b - i * 2) := Nat.pow_le_pow_right (by decide) (by omega)
    simp [hz, show j ≠ i by omega]

/-- `x` with bit `i` set or cleared. -/
def setBit (x : BitVec w) (i : Nat) (v : Bool) : BitVec w :=
  if v then x ||| 1#w <<< i else x &&& ~~~(1#w <<< i)

theorem getLsbD_setBit {j : Nat} {v : Bool} (hj : j < w) :
    (setBit x i v).getLsbD j = if i = j then v else x.getLsbD j := by
  unfold setBit
  cases v with
  | true =>
    rw [if_pos rfl, getLsbD_or, getLsbD_one_shiftLeft]
    by_cases h : i = j
    · simp [h, hj]
    · simp [h, Ne.symm h]
  | false =>
    rw [if_neg (by decide), getLsbD_and, getLsbD_not, getLsbD_one_shiftLeft]
    by_cases h : i = j
    · simp [h, hj]
    · simp [h, Ne.symm h, hj]

end

/-! ## Bit maps -/

/-- An array of 32-bit words read and written one bit at a time. -/
abbrev Bitmap := Nat → BitVec 32

namespace Bitmap

def rd (b : Bitmap) (i : Nat) : Bool := (b (i / 32)).getLsbD (i % 32)

def wr (b : Bitmap) (i : Nat) (v : Bool) : Bitmap :=
  Function.update b (i / 32) (setBit (b (i / 32)) (i % 32) v)

theorem rd_wr {b : Bitmap} {i j : Nat} {v : Bool} :
    (b.wr i v).rd j = if i = j then v else b.rd j := by
  unfold rd wr
  by_cases hw : j / 32 = i / 32
  · rw [hw, update_self, getLsbD_setBit (by omega)]
    by_cases h : i = j
    · simp [h]
    · rw [if_neg (by omega), if_neg h]
  · rw [update_of_ne hw, if_neg (by rintro rfl; exact hw rfl)]

theorem wr_word (b : Bitmap) (i n : Nat) (v : Bool) (h : n ≠ i / 32) : b.wr i v n = b n := by
  unfold wr
  rw [update_of_ne h]

theorem ext_rd {a b : Bitmap} (h : ∀ i, a.rd i = b.rd i) : a = b := by
  funext n
  apply eq_of_getLsbD_eq
  intro i hi
  have := h (32 * n + i)
  unfold rd at this
  rwa [show (32 * n + i) / 32 = n by omega, show (32 * n + i) % 32 = i by omega] at this

end Bitmap

end Lib
