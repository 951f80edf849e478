import Mathlib.Tactic.Ring

/-!
# Clock values as text

`fmt_clk_3`, `fmt_clk_6` and `fmt_clk_9` print a 32.32 fixed-point number with 3, 6 or 9 decimals. The
fraction is rounded by itself: when it rounds up to 1 the integer part does not get the carry.
-/

namespace Clock

open BitVec

/-- `%d` and `%0nd` of `sprintf`, for a field of `n` characters. -/
def fmtD (n : Nat) (v : BitVec 32) : List Char :=
  if v.slt 0 then '-' :: (Nat.toDigits 10 (-v).toNat).leftpad (n - 1) '0'
  else (Nat.toDigits 10 v.toNat).leftpad n '0'

/-- The low half of `x` in units of `1 / scale`, rounded. -/
def fracOf (scale x : BitVec 64) : BitVec 32 :=
  (((x &&& 0xffffffff#64) * scale + 1#64 <<< 31) >>> 32).setWidth 32

def fmtClk (n : Nat) (scale x : BitVec 64) : List Char :=
  let neg := x.slt 0
  let x := if neg then -x else x
  let dec := (x.sshiftRight 32).setWidth 32
  (if neg then ['-'] else []) ++ fmtD 0 dec ++ '.' :: fmtD n (fracOf scale x)

def fmtClk3 : BitVec 64 → List Char := fmtClk 3 1000

def fmtClk6 : BitVec 64 → List Char := fmtClk 6 1000000

def fmtClk9 : BitVec 64 → List Char := fmtClk 9 1000000000

/-- `x / 2 ^ 32` rounded to `n` decimals, ties upward, in decimal notation. -/
def rounded (n : Nat) (x : Int) : List Char :=
  let q := (x.natAbs * 10 ^ n + 2 ^ 31) / 2 ^ 32
  (if x < 0 then ['-'] else []) ++ Nat.toDigits 10 (q / 10 ^ n) ++
    '.' :: (Nat.toDigits 10 (q % 10 ^ n)).leftpad n '0'

/-- The fraction does not round up to 1. -/
def Below (n : Nat) (x : Int) : Prop :=
  x.natAbs % 2 ^ 32 * 10 ^ n + 2 ^ 31 < 10 ^ n * 2 ^ 32

theorem fmtD_of_lt {n : Nat} {v : BitVec 32} (h : v.toNat < 2 ^ 31) :
    fmtD n v = (Nat.toDigits 10 v.toNat).leftpad n '0' := by
  rw [fmtD, if_neg]
  simp [BitVec.slt, BitVec.toInt_eq_toNat_cond]
  omega

theorem toNat_fracOf {scale x : BitVec 64} (hs : scale.toNat < 2 ^ 30) :
    (fracOf scale x).toNat = (x.toNat % 2 ^ 32 * scale.toNat + 2 ^ 31) / 2 ^ 32 ∧
      (fracOf scale x).toNat < 2 ^ 31 := by
  have hmul : x.toNat % 2 ^ 32 * scale.toNat ≤ 2 ^ 32 * 2 ^ 30 := Nat.mul_le_mul (by omega) hs.le
  have hand : (x &&& 0xffffffff#64).toNat = x.toNat % 2 ^ 32 := Nat.and_two_pow_sub_one_eq_mod _ 32
  rw [fracOf, toNat_setWidth, toNat_ushiftRight, Nat.shiftRight_eq_div_pow, toNat_add, toNat_mul, hand,
    show (1#64 <<< 31).toNat = 2 ^ 31 from rfl]
  omega

theorem fmtClk_eq {n : Nat} {scale x : BitVec 64} (hx : x.toInt ≠ -2 ^ 63) (hs : scale.toNat < 2 ^ 30) :
    fmtClk n scale x = (if x.toInt < 0 then ['-'] else []) ++ Nat.toDigits 10 (x.toInt.natAbs / 2 ^ 32) ++
      '.' :: (Nat.toDigits 10 ((x.toInt.natAbs % 2 ^ 32 * scale.toNat + 2 ^ 31) / 2 ^ 32)).leftpad n '0' := by
  have hcond := toInt_eq_toNat_cond x
  obtain ⟨y, hy, hyx, hlt⟩ : ∃ y, (if x.slt 0 then -x else x) = y ∧ y.toNat = x.toInt.natAbs ∧
      y.toNat < 2 ^ 63 := by
    refine ⟨_, rfl, ?_⟩
    rw [show x.slt 0 = decide (x.toInt < 0) from rfl]
    by_cases h : x.toInt < 0
    · rw [decide_eq_true h, if_pos rfl, toNat_neg]
      split at hcond <;> omega
    · rw [decide_eq_false h, if_neg Bool.false_ne_true]
      split at hcond <;> omega
  have hdec : ((y.sshiftRight 32).setWidth 32).toNat = y.toNat / 2 ^ 32 := by
    rw [sshiftRight_eq_of_msb_false (msb_eq_false_iff_two_mul_lt.mpr (by omega)), toNat_setWidth,
      toNat_ushiftRight, Nat.shiftRight_eq_div_pow]
    omega
  simp only [fmtClk]
  rw [hy, fmtD_of_lt (by omega), fmtD_of_lt (toNat_fracOf hs).2, hdec, (toNat_fracOf hs).1, hyx]
  simp [BitVec.slt, List.leftpad]

/-- The text is the rounded one as long as nothing is carried out of the fraction. -/
theorem fmtClk_eq_rounded_iff {n : Nat} {scale x : BitVec 64} (hx : x.toInt ≠ -2 ^ 63)
    (hs : scale.toNat < 2 ^ 30) (hn : scale.toNat = 10 ^ n)
    (hone : Nat.toDigits 10 (10 ^ n) = '1' :: List.replicate n '0')
    (hzero : (Nat.toDigits 10 0).leftpad n '0' = List.replicate n '0') :
    fmtClk n scale x = rounded n x.toInt ↔ Below n x.toInt := by
  rw [fmtClk_eq hx hs, hn, rounded, Below]
  generalize x.toInt.natAbs = a
  have hpos : 0 < 10 ^ n := Nat.pow_pos (by decide)
  have hq : (a * 10 ^ n + 2 ^ 31) / 2 ^ 32 =
      (a % 2 ^ 32 * 10 ^ n + 2 ^ 31) / 2 ^ 32 + 10 ^ n * (a / 2 ^ 32) := by
    conv_lhs => rw [← Nat.div_add_mod a (2 ^ 32)]
    rw [← Nat.add_mul_div_left _ _ (Nat.two_pow_pos 32)]
    congr 1; ring
  have hle : a % 2 ^ 32 * 10 ^ n ≤ (2 ^ 32 - 1) * 10 ^ n := Nat.mul_le_mul_right _ (by omega)
  rw [hq]
  generalize hf : (a % 2 ^ 32 * 10 ^ n + 2 ^ 31) / 2 ^ 32 = f
  constructor
  · intro h
    by_contra hge
    obtain rfl : f = 10 ^ n := by omega
    rw [Nat.add_mul_mod_self_left, Nat.mod_self, hone, hzero] at h
    have hc := congrArg (fun l => l.reverse[n]?) h
    simp [List.leftpad] at hc
  · intro h
    have hlt : f < 10 ^ n := by omega
    rw [Nat.add_mul_div_left _ _ hpos, Nat.add_mul_mod_self_left, Nat.div_eq_of_lt hlt,
      Nat.mod_eq_of_lt hlt, Nat.zero_add]

theorem fmt_clk_rounds (x : BitVec 64) (hx : x.toInt ≠ -2 ^ 63) :
    (fmtClk3 x = rounded 3 x.toInt ↔ Below 3 x.toInt) ∧
    (fmtClk6 x = rounded 6 x.toInt ↔ Below 6 x.toInt) ∧
    (fmtClk9 x = rounded 9 x.toInt ↔ Below 9 x.toInt) :=
  ⟨fmtClk_eq_rounded_iff hx (by decide) rfl (by decide) (by decide),
    fmtClk_eq_rounded_iff hx (by decide) rfl (by decide) (by decide),
    fmtClk_eq_rounded_iff hx (by decide) rfl (by decide) (by decide)⟩

/-- A second and a half before zero. -/
theorem fmt_clk_rounds_half : fmtClk3 (-0x180000000) = "-1.500".toList ∧
    (fmtClk3 (-0x180000000) = rounded 3 (-0x180000000) ↔ Below 3 (-0x180000000)) :=
  ⟨by decide +kernel, (fmt_clk_rounds (-0x180000000) (by decide)).1⟩

theorem fmt_clk_carry : fmtClk3 0xffffffff = "0.1000".toList ∧
    rounded 3 (0xffffffff : BitVec 64).toInt = "1.000".toList := by
  decide +kernel

end Clock
