import Mathlib.Tactic.IntervalCases

/-!
# A register of four bytes

Bytes are shifted into 32 bits. The register holds the last four of them, so it has the value of four
bytes (the first of them not zero) exactly when these are the last ones that were shifted in.
-/

namespace Lib

variable {bs : List UInt8}

open BitVec List

def push (p : BitVec 32) (b : UInt8) : BitVec 32 := p <<< 8 ||| b.toBitVec.setWidth 32

/-- The register after bytes, from zero on. -/
def window (bs : List UInt8) : BitVec 32 := bs.foldl push 0

theorem window_append_singleton {b : UInt8} : window (bs ++ [b]) = push (window bs) b := by
  rw [window, foldl_append]
  rfl

theorem toNat_push {p : BitVec 32} {b : UInt8} :
    (push p b).toNat = p.toNat * 256 % 2 ^ 32 + b.toNat := by
  have hdisj : p <<< 8 &&& b.toBitVec.setWidth 32 = 0#32 := by
    ext i hi
    interval_cases i <;> simp
  rw [push, ← add_eq_or_of_and_eq_zero _ _ hdisj, toNat_add, toNat_shiftLeft, toNat_setWidth]
  have hb : b.toBitVec.toNat = b.toNat := rfl
  rw [hb, Nat.shiftLeft_eq]
  omega

/-- The first byte of four is not there yet. -/
theorem window_lt (h : bs.length < 4) : (window bs).toNat < 2 ^ 24 := by
  have hb : ∀ b : UInt8, b.toNat < 256 := fun b => b.toNat_lt
  have h0 : (0 : BitVec 32).toNat = 0 := rfl
  match bs, h with
  | [], _ => decide
  | [a], _ =>
    simp only [window, foldl_cons, foldl_nil, toNat_push, h0]
    have := hb a
    omega
  | [a, b], _ =>
    simp only [window, foldl_cons, foldl_nil, toNat_push, h0]
    have := hb a
    have := hb b
    omega
  | [a, b, c], _ =>
    simp only [window, foldl_cons, foldl_nil, toNat_push, h0]
    have := hb a
    have := hb b
    have := hb c
    omega

/-- Only the last four bytes count. -/
theorem window_append (bs : List UInt8) (a b c d : UInt8) : (window (bs ++ [a, b, c, d])).toNat =
      a.toNat * 2 ^ 24 + b.toNat * 2 ^ 16 + c.toNat * 2 ^ 8 + d.toNat := by
  have : bs ++ [a, b, c, d] = (((bs ++ [a]) ++ [b]) ++ [c]) ++ [d] := by simp
  rw [this]
  simp only [window_append_singleton, toNat_push]
  have ha := a.toNat_lt
  have hb := b.toNat_lt
  have hc := c.toNat_lt
  omega

theorem window_eq_iff {a : UInt8} (ha : a ≠ 0) {b c d : UInt8} :
    window bs = window [a, b, c, d] ↔ [a, b, c, d] <:+ bs := by
  have hval := window_append [] a b c d
  rw [nil_append] at hval
  constructor
  · intro h
    by_cases hlen : bs.length < 4
    · have hlt := window_lt hlen
      have hpos : 0 < a.toNat := Nat.pos_of_ne_zero fun h0 => ha (UInt8.toNat_inj.mp h0)
      rw [h, hval] at hlt
      omega
    · -- the last four bytes have the same value
      obtain ⟨pre, w, x, y, z, rfl⟩ : ∃ pre w x y z, bs = pre ++ [w, x, y, z] := by
        have hdrop : (bs.drop (bs.length - 4)).length = 4 := by
          rw [length_drop]
          omega
        match hl : bs.drop (bs.length - 4), hdrop with
        | [w, x, y, z], _ => exact ⟨bs.take (bs.length - 4), w, x, y, z, by rw [← hl, take_append_drop]⟩
      have hnat := congrArg BitVec.toNat h
      rw [window_append, hval] at hnat
      have hb : ∀ b : UInt8, b.toNat < 256 := fun b => b.toNat_lt
      have := hb a
      have := hb b
      have := hb c
      have := hb d
      have := hb w
      have := hb x
      have := hb y
      have := hb z
      obtain rfl : w = a := UInt8.toNat_inj.mp (by omega)
      obtain rfl : x = b := UInt8.toNat_inj.mp (by omega)
      obtain rfl : y = c := UInt8.toNat_inj.mp (by omega)
      obtain rfl : z = d := UInt8.toNat_inj.mp (by omega)
      exact suffix_append _ _
  · rintro ⟨pre, rfl⟩
    exact eq_of_toNat_eq (by rw [window_append, hval])

end Lib
