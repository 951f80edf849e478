import ThinkOS.Lib.Memory
import ThinkOS.Lib.OnesComplement

/-!
# The internet checksum

The model of `in_chksum.c`: words are added into 32 bits without looking at carries, sixteen bytes at
a time and then what is left, and the carries are folded in at the end. Words are read as half words
from an even address and byte by byte from an odd one. `rfc1071` is the sum of RFC 1071, with the
carry taken around in every addition.
-/

namespace Net

open Lib BitVec

variable {sum : BitVec 32}

/-! ## `in_chksum` -/

/-- The variables of `in_chksum`: `__sum`, the pointer `hp` or `cp`, and `__len`. -/
structure Acc where
  sum : BitVec 32
  p : Nat
  len : Nat

/-- `n` words from `p` on are added. -/
def addWords (load : Nat → BitVec 32) : Nat → BitVec 32 → Nat → BitVec 32
  | 0, sum, _ => sum
  | n + 1, sum, p => addWords load n (sum + load p) (p + 2)

/-- `n` words are added, and the pointer moves over them. -/
def Acc.take (load : Nat → BitVec 32) (n : Nat) (a : Acc) : Acc where
  sum := addWords load n a.sum a.p
  p := a.p + 2 * n
  len := a.len - 2 * n

/-- `while (__len >= (8 * sizeof(uint16_t)))` -/
def Acc.loop (load : Nat → BitVec 32) (a : Acc) : Acc :=
  if 16 ≤ a.len then (a.take load 8).loop load else a
termination_by a.len
decreasing_by
  simp only [Acc.take]
  omega

/-- `if (__len >= (n * sizeof(uint16_t)))` -/
def Acc.rest (load : Nat → BitVec 32) (n : Nat) (a : Acc) : Acc :=
  if 2 * n ≤ a.len then a.take load n else a

theorem toNat_fold_step :
    ((sum &&& 0xffff#32) + (sum >>> 16)).toNat = sum.toNat % 65536 + sum.toNat / 65536 := by
  have hmask : (sum &&& 0xffff#32).toNat = sum.toNat % 65536 := by
    rw [toNat_and]
    exact Nat.and_two_pow_sub_one_eq_mod sum.toNat 16
  have hhigh : (sum >>> 16).toNat = sum.toNat / 65536 := by
    rw [toNat_ushiftRight, Nat.shiftRight_eq_div_pow]
  rw [toNat_add, hmask, hhigh, Nat.mod_eq_of_lt (by omega)]

theorem ushiftRight_eq_zero_iff : sum >>> 16 = 0 ↔ sum.toNat < 65536 := by
  rw [← toNat_inj, toNat_ushiftRight, Nat.shiftRight_eq_div_pow]
  change sum.toNat / 65536 = 0 ↔ _
  omega

/-- `while (__sum >> 16)` -/
def fold (sum : BitVec 32) : BitVec 32 :=
  if sum >>> 16 = 0 then sum else fold ((sum &&& 0xffff#32) + (sum >>> 16))
termination_by sum.toNat
decreasing_by
  rename_i h
  rw [ushiftRight_eq_zero_iff] at h
  rw [toNat_fold_step]
  omega

/-- A word read with `hp[i]`. -/
def halfWord (m : Mem) (p : Nat) : BitVec 32 := (m.load16 p).setWidth 32

/-- A word read with `cp[i] + (cp[i + 1] << 8)`. -/
def bytePair (m : Mem) (p : Nat) : BitVec 32 :=
  (m p).toBitVec.setWidth 32 + ((m (p + 1)).toBitVec.setWidth 32 <<< 8)

/-- `in_chksum` -/
def inChksum (sum : BitVec 32) (m : Mem) (data len : Nat) : BitVec 32 :=
  let load := if data % 2 = 0 then halfWord m else bytePair m
  let a := Acc.loop load ⟨sum, data, len⟩
  let a := ((a.rest load 4).rest load 2).rest load 1
  fold (if a.len ≠ 0 then a.sum + (m a.p).toBitVec.setWidth 32 else a.sum)

/-! ## The sum as a number -/

/-- The sum of the words in `len` bytes from `p` on, a last odd byte standing for itself. -/
def wordSum (m : Mem) : Nat → Nat → Nat
  | _, 0 => 0
  | p, 1 => (m p).toNat
  | p, n + 2 => (m.load16 p).toNat + wordSum m (p + 2) n

section
variable {m m' : Mem} {p len n : Nat} {load : Nat → BitVec 32} {a : Acc}

theorem wordSum_le (m : Mem) (p len : Nat) : 2 * wordSum m p len ≤ 65535 * (len + 1) := by
  fun_induction wordSum m p len with
  | case1 p => omega
  | case2 p =>
    have := (m p).toBitVec.isLt
    change (m p).toNat < 256 at this
    omega
  | case3 p n ih =>
    omega

theorem wordSum_words :
    ∀ n rest, wordSum m p (2 * n + rest) = wordSum m p (2 * n) + wordSum m (p + 2 * n) rest := by
  intro n
  induction n generalizing p with
  | zero =>
    intro rest
    rw [Nat.mul_zero, Nat.zero_add, Nat.add_zero, wordSum, Nat.zero_add]
  | succ n ih =>
    intro rest
    have hsplit : 2 * (n + 1) + rest = 2 * n + rest + 2 := by omega
    rw [hsplit, wordSum, ih, Nat.mul_succ, wordSum, Nat.add_assoc p 2, Nat.add_comm 2 (2 * n),
      Nat.add_assoc]

theorem wordSum_congr (h : ∀ i, p ≤ i → i < p + len → m i = m' i) :
    wordSum m p len = wordSum m' p len := by
  fun_induction wordSum m p len with
  | case1 p => rw [wordSum]
  | case2 p => rw [wordSum, h p (Nat.le_refl p) (by omega)]
  | case3 p n ih =>
    have hword : m.load16 p = m'.load16 p :=
      Mem.load16_congr (h p (by omega) (by omega)) (h (p + 1) (by omega) (by omega))
    rw [wordSum, hword, ih fun i hi hi' => h i (by omega) (by omega)]

theorem wordSum_store16 (m : Mem) (v : BitVec 16) : ∀ k p len, 2 * k + 2 ≤ len →
      wordSum (m.store16 (p + 2 * k) v) p len + (m.load16 (p + 2 * k)).toNat =
        wordSum m p len + v.toNat := by
  intro k
  induction k with
  | zero =>
    intro p len h
    obtain ⟨n, rfl⟩ : ∃ n, len = n + 2 := ⟨len - 2, by omega⟩
    have htail : wordSum (m.store16 p v) (p + 2) n = wordSum m (p + 2) n :=
      wordSum_congr fun i hi _ => Mem.store16_ne (by omega) (by omega)
    rw [Nat.mul_zero, Nat.add_zero, wordSum, wordSum, Mem.load16_store16, htail]
    omega
  | succ k ih =>
    intro p len h
    obtain ⟨n, rfl⟩ : ∃ n, len = n + 2 := ⟨len - 2, by omega⟩
    have hstep := ih (p + 2) n (by omega)
    rw [show p + 2 + 2 * k = p + 2 * (k + 1) by omega] at hstep
    rw [wordSum, wordSum, Mem.load16_store16_ne (by omega)]
    omega

theorem toNat_halfWord (m : Mem) (p : Nat) : (halfWord m p).toNat = (m.load16 p).toNat := by
  rw [halfWord, toNat_setWidth, Nat.mod_eq_of_lt]
  omega

theorem toNat_bytePair (m : Mem) (p : Nat) : (bytePair m p).toNat = (m.load16 p).toNat := by
  rw [Mem.toNat_load16, bytePair, toNat_add, toNat_shiftLeft, toNat_setWidth,
    toNat_setWidth, Nat.shiftLeft_eq]
  change _ = (m p).toBitVec.toNat + (m (p + 1)).toBitVec.toNat * 256
  omega

theorem toNat_addWords (hload : ∀ p, (load p).toNat = (m.load16 p).toNat) :
    ∀ n (sum : BitVec 32) p, sum.toNat + wordSum m p (2 * n) < 2 ^ 32 →
      (addWords load n sum p).toNat = sum.toNat + wordSum m p (2 * n) := by
  intro n
  induction n with
  | zero =>
    intro sum p _
    rfl
  | succ n ih =>
    intro sum p h
    rw [Nat.mul_succ, wordSum] at h ⊢
    have hsum : (sum + load p).toNat = sum.toNat + (m.load16 p).toNat := by
      rw [toNat_add, hload, Nat.mod_eq_of_lt (by omega)]
    rw [addWords, ih _ _ (by omega), hsum, Nat.add_assoc]

/-- The sum that will be reached from here. -/
def Acc.total (m : Mem) (a : Acc) : Nat := a.sum.toNat + wordSum m a.p a.len

theorem Acc.total_take (hload : ∀ p, (load p).toNat = (m.load16 p).toNat) (hn : 2 * n ≤ a.len)
    (h : a.total m < 2 ^ 32) : (a.take load n).total m = a.total m := by
  have hsplit : wordSum m a.p a.len =
      wordSum m a.p (2 * n) + wordSum m (a.p + 2 * n) (a.len - 2 * n) := by
    rw [← wordSum_words, Nat.add_sub_cancel' hn]
  have hsum : (a.take load n).sum.toNat = a.sum.toNat + wordSum m a.p (2 * n) := by
    rw [Acc.total] at h
    exact toNat_addWords hload _ _ _ (by omega)
  rw [Acc.total, Acc.total, hsum, hsplit, Nat.add_assoc]
  rfl

theorem Acc.total_rest (hload : ∀ p, (load p).toNat = (m.load16 p).toNat) (n : Nat)
    (h : a.total m < 2 ^ 32) : (a.rest load n).total m = a.total m := by
  rw [Acc.rest]
  split
  case isTrue hn => exact Acc.total_take hload hn h
  case isFalse => rfl

theorem Acc.len_rest (load : Nat → BitVec 32) (n : Nat) (h : a.len < 4 * n) :
    (a.rest load n).len < 2 * n := by
  rw [Acc.rest]
  split
  · simp only [Acc.take]
    omega
  · omega

theorem Acc.loop_spec (hload : ∀ p, (load p).toNat = (m.load16 p).toNat) (h : a.total m < 2 ^ 32) :
    (a.loop load).total m = a.total m ∧ (a.loop load).len < 16 := by
  fun_induction Acc.loop load a with
  | case1 a hlen ih =>
    have htake := Acc.total_take (n := 8) hload hlen h
    obtain ⟨htotal, hend⟩ := ih (by rw [htake]; exact h)
    exact ⟨htotal.trans htake, hend⟩
  | case2 a hlen => exact ⟨rfl, Nat.lt_of_not_le hlen⟩

theorem toNat_fold : (fold sum).toNat = residue 65535 sum.toNat := by
  fun_induction fold sum with
  | case1 sum h =>
    rw [ushiftRight_eq_zero_iff] at h
    rw [residue_of_le (by omega)]
  | case2 sum h ih =>
    rw [ushiftRight_eq_zero_iff] at h
    have hsplit : sum.toNat =
        sum.toNat % 65536 + sum.toNat / 65536 + 65535 * (sum.toNat / 65536) := by omega
    rw [ih, toNat_fold_step]
    conv_rhs => rw [hsplit]
    rw [residue_add_mul (by omega)]

/-- As long as 32 bits hold the sum, `in_chksum` is its representative modulo 65535. -/
theorem toNat_inChksum (sum : BitVec 32) (m : Mem) (data len : Nat)
    (h : sum.toNat + wordSum m data len < 2 ^ 32) :
    (inChksum sum m data len).toNat = residue 65535 (sum.toNat + wordSum m data len) := by
  simp only [inChksum]
  set load := if data % 2 = 0 then halfWord m else bytePair m with hdef
  have hload : ∀ p, (load p).toNat = (m.load16 p).toNat := by
    intro p
    rw [hdef]
    split
    · exact toNat_halfWord m p
    · exact toNat_bytePair m p
  have hbound : (⟨sum, data, len⟩ : Acc).total m < 2 ^ 32 := h
  obtain ⟨ht, hlen⟩ := Acc.loop_spec hload hbound
  set a := Acc.loop load ⟨sum, data, len⟩
  have h4 := Acc.total_rest hload 4 (ht ▸ hbound)
  have h2 := Acc.total_rest hload 2 (h4 ▸ ht ▸ hbound)
  have h1 := Acc.total_rest hload 1 (h2 ▸ h4 ▸ ht ▸ hbound)
  have hlast := Acc.len_rest load 1 (Acc.len_rest load 2 (Acc.len_rest load 4 hlen))
  set e := ((a.rest load 4).rest load 2).rest load 1
  have htotal : e.total m = sum.toNat + wordSum m data len := h1.trans (h2.trans (h4.trans ht))
  rw [toNat_fold, ← htotal]
  rcases e with ⟨esum, ep, elen⟩
  rw [Acc.total] at htotal ⊢
  dsimp only at hlast htotal ⊢
  -- at most the odd byte is left
  match elen, hlast, htotal with
  | 0, _, _ => rfl
  | 1, _, htotal =>
    have hb := (m ep).toBitVec.isLt
    rw [wordSum] at htotal ⊢
    rw [if_pos Nat.one_ne_zero, toNat_add, toNat_setWidth]
    change residue 65535 ((esum.toNat + (m ep).toNat % 2 ^ 32) % 2 ^ 32) = _
    rw [Nat.mod_eq_of_lt (by omega : (m ep).toNat < 2 ^ 32), Nat.mod_eq_of_lt (by omega)]

/-- A string that fits into a datagram never makes the sum overflow. -/
theorem wordSum_lt (m : Mem) (p : Nat) (hlen : len ≤ 65535) : wordSum m p len < 2 ^ 31 := by
  have := wordSum_le m p len
  omega

theorem toNat_inChksum_lt (sum : BitVec 32) (m : Mem) (data : Nat) (hsum : sum.toNat < 2 ^ 31)
    (hlen : len ≤ 65535) :
    (inChksum sum m data len).toNat = residue 65535 (sum.toNat + wordSum m data len) := by
  have := wordSum_lt m data hlen
  exact toNat_inChksum sum m data len (by omega)

theorem toNat_inChksum_le (sum : BitVec 32) (m : Mem) (data : Nat) (hsum : sum.toNat < 2 ^ 31)
    (hlen : len ≤ 65535) : (inChksum sum m data len).toNat ≤ 65535 := by
  rw [toNat_inChksum_lt sum m data hsum hlen]
  exact residue_le (by decide) _

theorem toNat_inChksum_inChksum (m m' : Mem) {p' : Nat} (hsum : sum.toNat < 2 ^ 31)
    (hlen : len ≤ 65535) (hn : n ≤ 65535) : (inChksum (inChksum sum m p len) m' p' n).toNat =
      residue 65535 (sum.toNat + wordSum m p len + wordSum m' p' n) := by
  have hle := toNat_inChksum_le sum m p hsum hlen
  rw [toNat_inChksum_lt _ m' p' (by omega) hn, toNat_inChksum_lt sum m p hsum hlen,
    residue_residue_add]

/-- The complement of a sum, added to it, gives all ones. -/
theorem residue_add_not {x : BitVec 32} (h : x.toNat = residue 65535 n) :
    residue 65535 (n + ((~~~x).setWidth 16).toNat) = 65535 := by
  have hle := residue_le (by decide : 0 < 65535) n
  have hnot : ((~~~x).setWidth 16).toNat = 65535 - residue 65535 n := by
    rw [toNat_setWidth, toNat_not, h]
    omega
  rw [hnot, residue_add_complement (by decide)]

/-! ## RFC 1071 -/

/-- A word of two bytes, the first one the lower. -/
def leWord (b c : UInt8) : BitVec 16 := c.toBitVec ++ b.toBitVec

/-- The one's complement sum of RFC 1071 over a string of bytes, in little-endian words: a last odd
byte is filled up with zero. -/
def rfc1071 (s : BitVec 16) : List UInt8 → BitVec 16
  | [] => s
  | [b] => onesAdd s (leWord b 0)
  | b :: c :: l => rfc1071 (onesAdd s (leWord b c)) l

theorem toNat_rfc1071 : ∀ s : BitVec 16,
    (rfc1071 s (m.bytes p len)).toNat = residue 65535 (s.toNat + wordSum m p len) := by
  fun_induction wordSum m p len with
  | case1 p =>
    intro s
    rw [Mem.bytes, rfc1071, Nat.add_zero, residue_of_le (by omega)]
  | case2 p =>
    intro s
    have hodd : (leWord (m p) 0).toNat = (m p).toNat := by
      rw [leWord, toNat_append]
      exact Nat.zero_or _
    rw [Mem.bytes, Mem.bytes, rfc1071, toNat_onesAdd, hodd]
    rfl
  | case3 p n ih =>
    intro s
    have hadd : (onesAdd s (leWord (m p) (m (p + 1)))).toNat =
        residue 65535 (s.toNat + (m.load16 p).toNat) := toNat_onesAdd ..
    rw [Mem.bytes, Mem.bytes, rfc1071, ih, hadd, residue_residue_add, Nat.add_assoc]

theorem rfc1071_append {s : BitVec 16} {l l' : List UInt8} (h : l.length % 2 = 0) :
    rfc1071 s (l ++ l') = rfc1071 (rfc1071 s l) l' := by
  fun_induction rfc1071 s l with
  | case1 s => rfl
  | case2 s b => cases h
  | case3 s b c l ih =>
    rw [List.cons_append, List.cons_append, rfc1071]
    simp only [List.length_cons] at h
    exact ih (by omega)

/-- `in_chksum` from any address is the sum of RFC 1071. -/
theorem inChksum_eq_rfc1071 (s : BitVec 16) (m : Mem) (data : Nat) (hlen : len ≤ 65535) :
    inChksum (s.setWidth 32) m data len = (rfc1071 s (m.bytes data len)).setWidth 32 := by
  have hsum : (s.setWidth 32).toNat = s.toNat := by
    rw [toNat_setWidth, Nat.mod_eq_of_lt (by omega)]
  apply eq_of_toNat_eq
  rw [toNat_inChksum_lt _ m data (by omega) hlen, hsum, toNat_setWidth, toNat_rfc1071,
    Nat.mod_eq_of_lt]
  exact Nat.lt_of_le_of_lt (residue_le (by decide) _) (by decide)

end

end Net
