import Mathlib.Tactic.Ring

/-!
# Little-endian memory

A memory of bytes, with loads and stores of half words and words, least significant byte first.
-/

namespace Lib

open BitVec Function List

abbrev Mem := Nat → UInt8

namespace Mem

section
variable (m : Mem) (a : Nat)

def load16 : BitVec 16 :=
  (m (a + 1)).toBitVec ++ (m a).toBitVec

def load32 : BitVec 32 :=
  m.load16 (a + 2) ++ m.load16 a

def store8 (v : BitVec 8) : Mem :=
  Function.update m a ⟨v⟩

def store16 (v : BitVec 16) : Mem :=
  (m.store8 a (v.setWidth 8)).store8 (a + 1) ((v >>> 8).setWidth 8)

def store32 (v : BitVec 32) : Mem :=
  (m.store16 a (v.setWidth 16)).store16 (a + 2) ((v >>> 16).setWidth 16)

/-- The bytes of `l` are copied to the address `a`. -/
def storeBytes (l : List UInt8) : Mem :=
  fun i => if a ≤ i then (l[i - a]?).getD (m i) else m i

end

/-- The `n` bytes from the address `a` on. -/
def bytes (m : Mem) (a : Nat) : Nat → List UInt8
  | 0 => []
  | n + 1 => m a :: bytes m (a + 1) n

section
variable {m m' : Mem} {a b n : Nat} {v : BitVec 32}

@[simp] theorem length_bytes (m : Mem) (a n : Nat) : (m.bytes a n).length = n := by
  induction n generalizing a with
  | zero => rfl
  | succ n ih => rw [bytes, length_cons, ih]

theorem bytes_add (m : Mem) (a k n : Nat) :
    m.bytes a (k + n) = m.bytes a k ++ m.bytes (a + k) n := by
  induction k generalizing a with
  | zero => rw [Nat.zero_add, Nat.add_zero, bytes, List.nil_append]
  | succ k ih => rw [Nat.succ_add, bytes, bytes, ih, List.cons_append, Nat.add_assoc a 1 k,
      Nat.add_comm 1 k]

theorem bytes_congr (h : ∀ i, a ≤ i → i < a + n → m i = m' i) : m.bytes a n = m'.bytes a n := by
  induction n generalizing a with
  | zero => rfl
  | succ n ih =>
    rw [bytes, bytes, h a (Nat.le_refl a) (by omega), ih fun i hi hi' => h i (by omega) (by omega)]

theorem store8_ne {v : BitVec 8} (h : b ≠ a) : m.store8 a v b = m b :=
  update_of_ne h ..

theorem store16_ne {v : BitVec 16} (h : b ≠ a) (h' : b ≠ a + 1) : m.store16 a v b = m b := by
  rw [store16, store8_ne h', store8_ne h]

theorem store32_ne (h : b < a ∨ a + 4 ≤ b) : m.store32 a v b = m b := by
  rw [store32, store16_ne (by omega) (by omega), store16_ne (by omega) (by omega)]

theorem storeBytes_ne {l : List UInt8} (h : b < a ∨ a + l.length ≤ b) :
    m.storeBytes a l b = m b := by
  rw [storeBytes]
  split
  · rw [List.getElem?_eq_none (by omega), Option.getD_none]
  · rfl

theorem bytes_storeBytes_ne {l : List UInt8} (h : a + n ≤ b ∨ b + l.length ≤ a) :
    (m.storeBytes b l).bytes a n = m.bytes a n :=
  bytes_congr fun i _ _ => storeBytes_ne (by omega)

theorem bytes_eq_map : m.bytes a n = (List.range n).map fun i => m (a + i) := by
  induction n generalizing a with
  | zero => rfl
  | succ n ih =>
    rw [bytes, ih, range_succ_eq_map, map_cons, map_map]
    simp only [comp_def, Nat.add_assoc, Nat.add_comm 1]
    rfl

theorem bytes_storeBytes (m : Mem) (a : Nat) (l : List UInt8) :
    (m.storeBytes a l).bytes a l.length = l := by
  rw [bytes_eq_map]
  refine ext_getElem (by simp) fun i hi hi' => ?_
  simp [storeBytes, hi']

theorem bytes_storeBytes_append (m : Mem) (a k : Nat) (l : List UInt8) :
    (m.storeBytes (a + k) l).bytes a (k + l.length) = m.bytes a k ++ l := by
  rw [bytes_add, bytes_storeBytes]
  congr 1
  exact bytes_storeBytes_ne (.inl (Nat.le_refl _))

theorem load16_congr (h : m a = m' a) (h' : m (a + 1) = m' (a + 1)) : m.load16 a = m'.load16 a := by
  rw [load16, load16, h, h']

@[simp] theorem load16_store16 {v : BitVec 16} : (m.store16 a v).load16 a = v := by
  have hlow : m.store16 a v a = ⟨v.setWidth 8⟩ := by
    rw [store16, store8_ne (by omega)]
    exact update_self ..
  have hhigh : m.store16 a v (a + 1) = ⟨(v >>> 8).setWidth 8⟩ := update_self ..
  rw [load16, hlow, hhigh]
  apply eq_of_toNat_eq
  simp only [toNat_append, toNat_setWidth, toNat_ushiftRight]
  rw [← Nat.shiftLeft_add_eq_or_of_lt (Nat.mod_lt _ (by decide))]
  omega

theorem load16_store16_ne {v : BitVec 16} (h : b + 2 ≤ a ∨ a + 2 ≤ b) :
    (m.store16 a v).load16 b = m.load16 b :=
  load16_congr (store16_ne (by omega) (by omega)) (store16_ne (by omega) (by omega))

theorem load16_store32 : (m.store32 a v).load16 a = v.setWidth 16 := by
  rw [store32, load16_store16_ne (by omega), load16_store16]

theorem load16_store32_high : (m.store32 a v).load16 (a + 2) = (v >>> 16).setWidth 16 := by
  rw [store32, load16_store16]

theorem load16_store32_ne (h : b + 2 ≤ a ∨ a + 4 ≤ b) : (m.store32 a v).load16 b = m.load16 b := by
  rw [store32, load16_store16_ne (by omega), load16_store16_ne (by omega)]

theorem toNat_load16 : (m.load16 a).toNat = (m a).toNat + (m (a + 1)).toNat * 256 := by
  have h := (m a).toBitVec.isLt
  rw [load16, toNat_append, ← Nat.shiftLeft_add_eq_or_of_lt h, Nat.shiftLeft_eq, Nat.add_comm]
  rfl

theorem toNat_load32_low : (m.load32 a &&& 0xffff#32).toNat = (m.load16 a).toNat := by
  have h := (m.load16 a).isLt
  rw [toNat_and, load32, toNat_append, ← Nat.shiftLeft_add_eq_or_of_lt h, Nat.shiftLeft_eq]
  refine (Nat.and_two_pow_sub_one_eq_mod _ 16).trans ?_
  omega

theorem toNat_load32_high : (m.load32 a >>> 16).toNat = (m.load16 (a + 2)).toNat := by
  have h := (m.load16 a).isLt
  rw [toNat_ushiftRight, load32, toNat_append, ← Nat.shiftLeft_add_eq_or_of_lt h,
    Nat.shiftLeft_eq, Nat.shiftRight_eq_div_pow]
  omega

theorem toNat_eq_load16 : (m a).toNat = (m.load16 a).toNat % 256 := by
  have h := (m a).toBitVec.isLt
  change (m a).toNat < 256 at h
  rw [toNat_load16, Nat.add_mul_mod_self_right, Nat.mod_eq_of_lt h]

end

end Mem

end Lib
