import Mathlib.Data.BitVec
import Mathlib.Data.Nat.Sqrt
import Mathlib.Tactic.Linarith
import Mathlib.Tactic.Ring

/-!
# Integer square roots

`u32sqrt` and `u64sqrt` of `isqrt.c` and `__isqrt` of `microjs_lib.c` have one loop, which takes two bits
of its argument in a round. The root is kept twice its size in 32 bits, so the last round of `u64sqrt`
loses a bit of a root of 32 bits.
-/

namespace Util

open Nat (sqrt)
open Option

/-- What a store into `w` bits keeps of a value. -/
def wrap (w n : Nat) : Option Nat := some (n % 2 ^ w)

/-- A store that does not go through if the value has more than `w` bits. -/
def fit (w n : Nat) : Option Nat := if n < 2 ^ w then some n else none

section
variable (store : Nat → Nat → Option Nat)

/-- A round, for an argument and a remainder of `w` bits: the argument, the remainder and the root. -/
def sqrtRound (w x rem root : Nat) : Option (Nat × Nat × Nat) := do
  let root ← store 32 (root <<< 1)
  let rem ← store w ((← store w (rem <<< 2)) + x >>> (w - 2))
  -- the two bits that were read leave the argument
  let x := x <<< 2 % 2 ^ w
  let root ← store 32 (root + 1)
  if root ≤ rem then some (x, rem - root, ← store 32 (root + 1)) else some (x, rem, root - 1)

def sqrtLoop (w : Nat) : Nat → Nat → Nat → Nat → Option Nat
  | 0, _, _, root => some (root >>> 1)
  | n + 1, x, rem, root => do
    let (x, rem, root) ← sqrtRound store w x rem root
    sqrtLoop w n x rem root

def u32sqrt (x : BitVec 32) : Option Nat :=
  sqrtLoop store 32 16 x.toNat 0 0

/-- `__isqrt`, with its argument and its result in `argv[0]`. -/
def isqrt (x : BitVec 32) : Option Nat :=
  sqrtLoop store 32 16 x.toNat 0 0

def u64sqrt (x : BitVec 64) : Option Nat :=
  sqrtLoop store 64 32 x.toNat 0 0

end

/-- The function returns the root of `x` rounded down, and every value it stores fits. -/
def FloorRoot (f : (Nat → Nat → Option Nat) → Option Nat) (x : Nat) : Prop :=
  ∃ r, f wrap = some r ∧ f fit = some r ∧ r * r ≤ x ∧ x < (r + 1) * (r + 1)

/-- The root of a number with two more bits. -/
theorem sqrt_next {y d : Nat} (hd : d < 4) : sqrt (4 * y + d) =
    if (2 * sqrt y + 1) * (2 * sqrt y + 1) ≤ 4 * y + d then 2 * sqrt y + 1
    else 2 * sqrt y := by
  have hle := Nat.sqrt_le y
  have hlt := Nat.lt_succ_sqrt y
  symm
  rw [Nat.eq_sqrt]
  split <;> constructor <;> nlinarith

section
variable {store : Nat → Nat → Option Nat} (hstore : ∀ w n, n < 2 ^ w → store w n = some n)
include hstore

theorem sqrtRound_eq {w y d t p q : Nat} (hp : t < p) (hq : 0 < q) (hpq : p * q = 2 ^ w) (hd : d < 4)
    (hroot : 4 * sqrt y + 2 < 2 ^ 32) (hrem : 8 * sqrt y + 3 < 2 ^ (w + 2)) :
    sqrtRound store (w + 2) ((d * p + t) * q) (y - sqrt y * sqrt y) (2 * sqrt y) =
      some (t * (4 * q), 4 * y + d - sqrt (4 * y + d) * sqrt (4 * y + d),
        2 * sqrt (4 * y + d)) := by
  have hle := Nat.sqrt_le y
  have hlt := Nat.sqrt_le_add y
  have htq : t * q < p * q := Nat.mul_lt_mul_of_pos_right hp hq
  have hx : (d * p + t) * q = t * q + p * q * d := by ring
  have hnext : ((d * p + t) * q) >>> w = d := by
    rw [Nat.shiftRight_eq_div_pow, ← hpq, hx, Nat.add_mul_div_left _ _ (by omega), Nat.div_eq_of_lt htq,
      Nat.zero_add]
  have hleft : (d * p + t) * q * 2 ^ 2 % 2 ^ (w + 2) = t * (4 * q) := by
    rw [Nat.pow_add, ← hpq, hx,
      show (t * q + p * q * d) * 2 ^ 2 = t * (4 * q) + p * q * 2 ^ 2 * d by ring,
      Nat.add_mul_mod_self_left, Nat.mod_eq_of_lt (by linarith)]
  rw [sqrt_next hd]
  generalize sqrt y = r at *
  have hsq : (2 * r + 1) * (2 * r + 1) = 4 * (r * r) + (4 * r + 1) := by ring
  have hsq' : 2 * r * (2 * r) = 4 * (r * r) := by ring
  simp only [sqrtRound, Nat.add_sub_cancel, hnext, Nat.shiftLeft_eq, hleft, bind_eq_bind]
  rw [hstore 32 _ (by omega), hstore _ (_ * 2 ^ 2) (by omega), bind_some, bind_some,
    hstore _ (_ + d) (by omega), bind_some, hstore 32 (_ + 1) (by omega), bind_some]
  by_cases h : (2 * r + 1) * (2 * r + 1) ≤ 4 * y + d
  · rw [if_pos h, if_pos (by omega), hstore 32 _ (by omega), bind_some, hsq]
    congr 3 <;> omega
  · rw [if_neg h, if_neg (by omega), hsq']
    congr 3 <;> omega

theorem sqrtLoop_eq {w n b y t : Nat} (hb : 4 * b ≤ 2 ^ 32) (hw : 8 * b ≤ 2 ^ (w + 2)) (hn : 2 * n ≤ w + 2)
    (hv : y * 4 ^ n + t < 4 * (b * b)) (ht : t < 4 ^ n) :
    sqrtLoop store (w + 2) n (t * 2 ^ (w + 2 - 2 * n)) (y - sqrt y * sqrt y) (2 * sqrt y) =
      some (sqrt (y * 4 ^ n + t)) := by
  induction n generalizing y t with
  | zero =>
    obtain rfl : t = 0 := by omega
    simp [sqrtLoop, Nat.shiftRight_eq_div_pow]
  | succ n ih =>
    have hpos : 0 < 4 ^ n := Nat.pow_pos (by decide)
    have hsplit : y * 4 ^ (n + 1) + t = (4 * y + t / 4 ^ n) * 4 ^ n + t % 4 ^ n := by
      conv_lhs => rw [← Nat.div_add_mod t (4 ^ n)]
      ring
    have hyb : y < b * b := by
      have := Nat.le_mul_of_pos_right y hpos
      have : y * 4 ^ (n + 1) = 4 * (y * 4 ^ n) := by ring
      omega
    have hroot : sqrt y < b := Nat.sqrt_lt.mpr hyb
    have hpq : 4 ^ n * 2 ^ (w - 2 * n) = 2 ^ w := by
      rw [show 4 = 2 ^ 2 from rfl, ← Nat.pow_mul, ← Nat.pow_add, Nat.add_sub_cancel' (by omega)]
    have hq : 4 * 2 ^ (w - 2 * n) = 2 ^ (w + 2 - 2 * n) := by
      rw [show 4 = 2 ^ 2 from rfl, ← Nat.pow_add]
      congr 1; omega
    have hround := sqrtRound_eq hstore (Nat.mod_lt t hpos) (Nat.two_pow_pos _) hpq
      (Nat.div_lt_of_lt_mul (by rwa [← Nat.pow_succ])) (by omega) (by omega) (y := y)
    rw [Nat.mul_comm (t / _), Nat.div_add_mod, hq] at hround
    rw [sqrtLoop, show w + 2 - 2 * (n + 1) = w - 2 * n by omega, hround, hsplit]
    exact ih (by omega) (hsplit ▸ hv) (Nat.mod_lt t hpos)

theorem sqrtLoop_spec {w n v b : Nat} (hb : 4 * b ≤ 2 ^ 32) (hw : 8 * b ≤ 2 ^ (w + 2)) (hn : 2 * n = w + 2)
    (hv : v < 4 * (b * b)) (hvw : v < 4 ^ n) : sqrtLoop store (w + 2) n v 0 0 = some (sqrt v) := by
  simpa [hn] using sqrtLoop_eq hstore hb hw hn.le (y := 0) (t := v) (by omega) hvw

end

/-- A root in range is found, and the run that checks its stores finds the same. -/
theorem floorRoot_of_lt {w n v : Nat} (b : Nat) (hb : 4 * b ≤ 2 ^ 32) (hw : 8 * b ≤ 2 ^ (w + 2))
    (hn : 2 * n = w + 2) (hv : v < 4 * (b * b)) (hvw : v < 4 ^ n) :
    FloorRoot (fun store => sqrtLoop store (w + 2) n v 0 0) v := by
  refine ⟨_, sqrtLoop_spec (fun w n h => ?_) hb hw hn hv hvw,
    sqrtLoop_spec (fun w n h => if_pos h) hb hw hn hv hvw, Nat.sqrt_le v, Nat.lt_succ_sqrt v⟩
  rw [wrap, Nat.mod_eq_of_lt h]

theorem sqrtLoop_wrap_lt {w n x rem root r : Nat} (hroot : root < 2 ^ 32)
    (h : sqrtLoop wrap w n x rem root = some r) : r < 2 ^ 31 := by
  induction n generalizing x rem root with
  | zero =>
    cases h
    rw [Nat.shiftRight_eq_div_pow]
    omega
  | succ n ih =>
    simp only [sqrtLoop, sqrtRound, wrap, bind_eq_bind, bind_some] at h
    split at h
    · exact ih (Nat.mod_lt _ (Nat.two_pow_pos 32)) h
    · exact ih ((Nat.sub_le _ 1).trans_lt (Nat.mod_lt _ (Nat.two_pow_pos 32))) h

theorem isqrt_floor_iff (a b : BitVec 32) (x : BitVec 64) :
    FloorRoot (u32sqrt · a) a.toNat ∧ FloorRoot (isqrt · b) b.toNat ∧
      (FloorRoot (u64sqrt · x) x.toNat ↔ x.toNat < 2 ^ 62) := by
  have h32 (x : BitVec 32) : FloorRoot (u32sqrt · x) x.toNat :=
    floorRoot_of_lt (2 ^ 15) (by decide) (by decide) rfl (by omega) x.isLt
  refine ⟨h32 a, h32 b, fun h => ?_, fun h => ?_⟩
  · obtain ⟨r, hr, -, -, hlt⟩ := h
    have hr := sqrtLoop_wrap_lt (by decide) hr
    exact hlt.trans_le ((Nat.mul_le_mul hr hr).trans (by decide))
  · exact floorRoot_of_lt (2 ^ 30) (by decide) (by decide) rfl (by omega) x.isLt

theorem u64sqrt_zero : u64sqrt wrap (2 ^ 62) = some 0 ∧ ¬ FloorRoot (u64sqrt · (2 ^ 62)) (2 ^ 62) := by
  have h : u64sqrt wrap (2 ^ 62) = some 0 := by decide +kernel
  refine ⟨h, ?_⟩
  rintro ⟨r, hr, -, -, hlt⟩
  obtain rfl : 0 = r := some.inj (h.symm.trans hr)
  exact absurd hlt (by decide)

end Util
