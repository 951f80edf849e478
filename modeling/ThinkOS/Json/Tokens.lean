import Mathlib.Tactic.IntervalCases
import ThinkOS.Json.Values

/-!
# Tokens and values

The tokens of the buffer as items, with the bytes of each. `microjs_json_get_val` reads an item back,
unless it is an integer of more than 16 bits, whose code is the one of the label 0, or a label with an
index from 40 on, whose code is the one of a string.
-/

namespace Json

open BitVec List Option

variable {x : BitVec 32}

open Lib

inductive Item where
  | str (offs len : Nat)
  | label (j : Nat)
  | int (x : BitVec 32)
  /-- a token of one byte -/
  | tok (t : Nat)

def Item.bytes : Item → List UInt8
  | .str offs len => [UInt8.ofNat (tokString + len), UInt8.ofNat offs, UInt8.ofNat (offs >>> 8)]
  | .label j => [UInt8.ofNat (tokLabel + j)]
  | .int x => UInt8.ofNat (intToken x).1 :: (intToken x).2
  | .tok t => [UInt8.ofNat t]

/-- The value of a token of one byte. -/
def tokValue (t : Nat) : Value :=
  if t = tokNull then .null
  else if t = tokLeftbrace then .object
  else if t = tokLeftbracket then .array
  else if t = tokRightbrace then .endObject
  else if t = tokRightbracket then .endArray
  else if t = tokFalse then .bool false
  else if t = tokTrue then .bool true
  else .stop

def Item.value (txt : List UInt8) (lbl : List (List UInt8)) : Item → Value
  | .str offs len => .str ((txt.drop offs).take len)
  | .label j => .label (if j < lbl.length then some j else none)
  | .int x => .int x
  | .tok t => tokValue t

/-- What the scanner makes. -/
def Item.Wf (lbl : List (List UInt8)) : Item → Prop
  | .str offs len => offs < 65536 ∧ len ≤ stringLenMax
  | .label j => j ≤ lbl.length
  | .int _ => True
  | .tok t => 1 ≤ t ∧ t ≤ tokTrue

/-- The values whose tokens are read back. -/
def Value.Fits (lbl : List (List UInt8)) : Value → Prop
  | .int x => x.toNat < 65536
  | .label index => index.getD lbl.length < labelLstMax
  | _ => True

instance (lbl : List (List UInt8)) : (v : Value) → Decidable (v.Fits lbl)
  | .int _ => inferInstanceAs (Decidable (_ < _))
  | .label _ => inferInstanceAs (Decidable (_ < _))
  | .str _ | .bool _ | .null | .object | .array | .endObject | .endArray | .stop =>
    inferInstanceAs (Decidable True)

/-- The value that a call of `microjs_json_get_val` tells. -/
def meaning (txt : List UInt8) : Nat × Val → Option Value
  | (ret, .str dat len) => if ret = jsonString then some (.str ((txt.drop dat).take len)) else none
  | (ret, .lbl sz id) => if ret = jsonLabel then some (.label (sz.map fun _ => id)) else none
  | (ret, .u32 x) => if ret = jsonInteger then some (.int x) else none
  | (ret, .logic b) => if ret = jsonBoolean then some (.bool b) else none
  | (ret, .none) => if 1 ≤ ret ∧ ret ≤ 6 then some (tokValue ret) else none

/-! ## Integers -/

theorem mask8_iff (x : BitVec 32) : x &&& 0xffffff00#32 = 0 ↔ x.toNat < 256 := by
  have heq : x &&& 0xffffff00#32 = (x >>> 8) <<< 8 := by
    ext i hi
    interval_cases i <;> simp
  rw [heq, ← toNat_inj, toNat_shiftLeft, toNat_ushiftRight, Nat.shiftRight_eq_div_pow,
    Nat.shiftLeft_eq]
  show x.toNat / 256 * 256 % 4294967296 = 0 ↔ x.toNat < 256
  omega

theorem mask16_iff (x : BitVec 32) : x &&& 0xffff0000#32 = 0 ↔ x.toNat < 65536 := by
  have heq : x &&& 0xffff0000#32 = (x >>> 16) <<< 16 := by
    ext i hi
    interval_cases i <;> simp
  rw [heq, ← toNat_inj, toNat_shiftLeft, toNat_ushiftRight, Nat.shiftRight_eq_div_pow,
    Nat.shiftLeft_eq]
  show x.toNat / 65536 * 65536 % 4294967296 = 0 ↔ x.toNat < 65536
  omega

theorem intToken_small (h : x.toNat < 256) : intToken x = (tokInt8, [byteOf x 0]) := by
  rw [intToken, if_pos ((mask8_iff x).mpr h)]

theorem intToken_medium (h : x.toNat < 65536) (h' : ¬ x.toNat < 256) :
    intToken x = (tokInt16, [byteOf x 0, byteOf x 1]) := by
  rw [intToken, if_neg (mt (mask8_iff x).mp h'), if_pos ((mask16_iff x).mpr h)]

/-- The token of 24 bits is never made: its test is the one of 8 bits again. -/
theorem intToken_large (h : ¬ x.toNat < 65536) :
    intToken x = (tokInt32, [byteOf x 0, byteOf x 1, byteOf x 2, byteOf x 3]) := by
  have h8 : ¬ x &&& 0xffffff00#32 = 0 := mt (mask8_iff x).mp (by omega)
  rw [intToken, if_neg h8, if_neg (mt (mask16_iff x).mp h), if_neg h8]

theorem byteOf_small (h : x.toNat < 256) : (byteOf x 0).toBitVec.setWidth 32 = x := by
  apply eq_of_toNat_eq
  simp only [byteOf, Nat.mul_zero, ushiftRight_zero, toNat_setWidth]
  omega

theorem byteOf_medium (h : x.toNat < 65536) :
    (byteOf x 0).toBitVec.setWidth 32 ||| (byteOf x 1).toBitVec.setWidth 32 <<< 8 = x := by
  have hand : x &&& 0xffff#32 = x := by
    apply eq_of_toNat_eq
    rw [toNat_and, show (0xffff#32).toNat = 2 ^ 16 - 1 from rfl, Nat.and_two_pow_sub_one_eq_mod]
    exact Nat.mod_eq_of_lt h
  rw [← hand]
  ext i hi
  interval_cases i <;> simp [byteOf]

/-! ## Reading an item back -/

section
variable {p : Parser} {item : Item}

theorem get_of_bytes {m : Mem} {a k : Nat} {b : UInt8} {bs : List UInt8} (h : m.bytes a bs.length = bs)
    (hk : bs[k]? = some b) : m (a + k) = b := by
  have hlt : k < bs.length := (List.getElem?_eq_some_iff.mp hk).1
  rw [← h, Mem.bytes_eq_map, List.getElem?_map, List.getElem?_range hlt] at hk
  exact some.inj hk

theorem offs_eq {offs : Nat} (h : offs < 65536) :
    (UInt8.ofNat offs).toNat ||| (UInt8.ofNat (offs >>> 8)).toNat <<< 8 = offs := by
  rw [UInt8.toNat_ofNat', UInt8.toNat_ofNat', Nat.shiftRight_eq_div_pow]
  have hlt : offs % 2 ^ 8 < 2 ^ 8 := Nat.mod_lt _ (by decide)
  rw [Nat.or_comm, Nat.shiftLeft_eq, Nat.mul_comm, ← Nat.two_pow_add_eq_or_of_lt hlt]
  omega

/-- What is read at a token of a string, a label, an integer of 8 or 16 bits, and of one byte. -/
theorem jsonGetVal_string {len : Nat} (h : (p.tok p.idx).toNat = tokString + len) :
    p.jsonGetVal = ({ p with idx := u16 (p.idx + 1 + 2) }, jsonString,
      .str ((p.tok (p.idx + 1)).toNat ||| (p.tok (p.idx + 1 + 1)).toNat <<< 8) len) := by
  unfold Parser.jsonGetVal
  rw [h, if_pos (Nat.le_add_right _ _), Nat.add_sub_cancel_left]

theorem jsonGetVal_label {j : Nat} (h : (p.tok p.idx).toNat = tokLabel + j) (hj : j < labelLstMax) :
    p.jsonGetVal = ({ p with idx := u16 (p.idx + 1) }, jsonLabel, .lbl p.lbl[j]? j) := by
  have hlt : ¬ tokString ≤ tokLabel + j := by
    simp only [tokString, tokLabel, stringLenMax, labelLstMax] at hj ⊢
    omega
  unfold Parser.jsonGetVal
  rw [h, if_neg hlt, if_pos (Nat.le_add_right _ _), Nat.add_sub_cancel_left]

theorem jsonGetVal_int8 (h : (p.tok p.idx).toNat = tokInt8) :
    p.jsonGetVal = ({ p with idx := u16 (p.idx + 1 + 1) }, jsonInteger, .u32 (byteAt p.tok (p.idx + 1) 0)) := by
  unfold Parser.jsonGetVal
  rw [h, if_neg (by decide), if_neg (by decide), if_pos (by decide), if_neg (by decide)]

theorem jsonGetVal_int16 (h : (p.tok p.idx).toNat = tokInt16) :
    p.jsonGetVal = ({ p with idx := u16 (p.idx + 1 + 2) }, jsonInteger,
      .u32 (byteAt p.tok (p.idx + 1) 0 ||| byteAt p.tok (p.idx + 1 + 1) 1)) := by
  unfold Parser.jsonGetVal
  rw [h, if_neg (by decide), if_neg (by decide), if_pos (by decide), if_pos (by decide), if_neg (by decide)]

theorem jsonGetVal_tok {t : Nat} (h : (p.tok p.idx).toNat = t) (ht : t ≤ tokTrue) :
    p.jsonGetVal.1 = { p with idx := u16 (p.idx + 1) } ∧
      meaning p.txt p.jsonGetVal.2 = if 1 ≤ t then some (tokValue t) else none := by
  change t ≤ 8 at ht
  unfold Parser.jsonGetVal
  rw [h]
  interval_cases t <;> exact ⟨rfl, rfl⟩

/-- **A token is read back.** -/
theorem jsonGetVal_fits (hbytes : p.tok.bytes p.idx item.bytes.length = item.bytes) (hwf : item.Wf p.lbl)
    (hidx : p.idx + item.bytes.length < 65536) (hfits : (item.value p.txt p.lbl).Fits p.lbl) :
    p.jsonGetVal.1 = { p with idx := p.idx + item.bytes.length } ∧
      meaning p.txt p.jsonGetVal.2 = some (item.value p.txt p.lbl) := by
  have hget := fun {k b} => get_of_bytes (k := k) (b := b) hbytes
  have hu16 : u16 (p.idx + item.bytes.length) = p.idx + item.bytes.length := Nat.mod_eq_of_lt hidx
  cases item with
  | str offs len =>
    obtain ⟨hoffs, hlen⟩ := hwf
    have h0 : p.tok p.idx = UInt8.ofNat (tokString + len) := hget (k := 0) rfl
    have h1 : p.tok (p.idx + 1) = UInt8.ofNat offs := hget rfl
    have h2 : p.tok (p.idx + 1 + 1) = UInt8.ofNat (offs >>> 8) := hget (k := 2) rfl
    have htok : (p.tok p.idx).toNat = tokString + len := by
      rw [h0, UInt8.toNat_ofNat']
      exact Nat.mod_eq_of_lt (by simp only [tokString, stringLenMax] at hlen ⊢; omega)
    rw [jsonGetVal_string htok, h1, h2, offs_eq hoffs]
    exact ⟨by rw [← hu16]; rfl, rfl⟩
  | label j =>
    have hj : j < labelLstMax := by
      change (if j < p.lbl.length then some j else none).getD p.lbl.length < labelLstMax at hfits
      have : j ≤ p.lbl.length := hwf
      split at hfits
      · exact hfits
      · exact (show p.lbl.length < labelLstMax from hfits).trans_le' this
    have h0 : p.tok p.idx = UInt8.ofNat (tokLabel + j) := hget (k := 0) rfl
    have htok : (p.tok p.idx).toNat = tokLabel + j := by
      rw [h0, UInt8.toNat_ofNat']
      exact Nat.mod_eq_of_lt (by simp only [tokLabel, tokString, stringLenMax, labelLstMax] at hj ⊢; omega)
    rw [jsonGetVal_label htok hj]
    refine ⟨by rw [← hu16]; rfl, ?_⟩
    show some (Value.label (p.lbl[j]?.map fun _ => j)) = some (.label (if j < p.lbl.length then some j else none))
    by_cases hlt : j < p.lbl.length
    · rw [List.getElem?_eq_getElem hlt, if_pos hlt]
      rfl
    · rw [List.getElem?_eq_none (by omega), if_neg hlt]
      rfl
  | int x =>
    have hx : x.toNat < 65536 := hfits
    by_cases hsmall : x.toNat < 256
    · have hb : (Item.int x).bytes = [UInt8.ofNat tokInt8, byteOf x 0] := by
        rw [Item.bytes, intToken_small hsmall]
      have h0 : p.tok p.idx = UInt8.ofNat tokInt8 := hget (k := 0) (by rw [hb]; rfl)
      have h1 : p.tok (p.idx + 1) = byteOf x 0 := hget (by rw [hb]; rfl)
      rw [jsonGetVal_int8 (by rw [h0]; rfl), byteAt, h1]
      refine ⟨by rw [← hu16, hb]; rfl, ?_⟩
      show some (Value.int ((byteOf x 0).toBitVec.setWidth 32 <<< 0)) = some (.int x)
      rw [shiftLeft_zero, byteOf_small hsmall]
    · have hb : (Item.int x).bytes = [UInt8.ofNat tokInt16, byteOf x 0, byteOf x 1] := by
        rw [Item.bytes, intToken_medium hx hsmall]
      have h0 : p.tok p.idx = UInt8.ofNat tokInt16 := hget (k := 0) (by rw [hb]; rfl)
      have h1 : p.tok (p.idx + 1) = byteOf x 0 := hget (by rw [hb]; rfl)
      have h2 : p.tok (p.idx + 1 + 1) = byteOf x 1 := hget (k := 2) (by rw [hb]; rfl)
      rw [jsonGetVal_int16 (by rw [h0]; rfl), byteAt, byteAt, h1, h2]
      refine ⟨by rw [← hu16, hb]; rfl, ?_⟩
      show some (Value.int ((byteOf x 0).toBitVec.setWidth 32 <<< 0 |||
        (byteOf x 1).toBitVec.setWidth 32 <<< 8)) = some (.int x)
      rw [shiftLeft_zero, byteOf_medium hx]
  | tok t =>
    obtain ⟨h1, h8⟩ := hwf
    have h0 : p.tok p.idx = UInt8.ofNat t := hget (k := 0) rfl
    have htok : (p.tok p.idx).toNat = t := by
      rw [h0, UInt8.toNat_ofNat']
      exact Nat.mod_eq_of_lt (by simp only [tokTrue] at h8; omega)
    obtain ⟨hp, hm⟩ := jsonGetVal_tok htok h8
    rw [if_pos h1] at hm
    exact ⟨by rw [hp, ← hu16]; rfl, hm⟩

/-- **The others are not**: their code is one of another kind, or of another label. -/
theorem jsonGetVal_not_fits (hbytes : p.tok.bytes p.idx item.bytes.length = item.bytes)
    (hwf : item.Wf p.lbl) (hfits : ¬ (item.value p.txt p.lbl).Fits p.lbl) :
    meaning p.txt p.jsonGetVal.2 ≠ some (item.value p.txt p.lbl) := by
  have hget := fun {k b} => get_of_bytes (k := k) (b := b) hbytes
  cases item with
  | str offs len => exact absurd trivial hfits
  | label j =>
    have hle : j ≤ p.lbl.length := hwf
    have hj : labelLstMax ≤ j := by
      change ¬ (if j < p.lbl.length then some j else none).getD p.lbl.length < labelLstMax at hfits
      split at hfits
      · exact Nat.not_lt.mp hfits
      · have : ¬ p.lbl.length < labelLstMax := hfits
        omega
    change _ ≠ some (Value.label (if j < p.lbl.length then some j else none))
    obtain ⟨b, hb⟩ : ∃ b, (p.tok p.idx).toNat = b := ⟨_, rfl⟩
    by_cases hstr : tokString ≤ b
    · rw [jsonGetVal_string (show (p.tok p.idx).toNat = tokString + (b - tokString) by omega)]
      intro h
      cases h
    · by_cases hlbl : tokLabel ≤ b
      · have hlt : b - tokLabel < labelLstMax := by
          simp only [tokString, tokLabel, stringLenMax, labelLstMax] at hstr hlbl ⊢
          omega
        rw [jsonGetVal_label (j := b - tokLabel) (by omega) hlt]
        show some (Value.label (p.lbl[b - tokLabel]?.map fun _ => b - tokLabel)) ≠ _
        rw [List.getElem?_eq_getElem (by omega)]
        intro h
        simp only [map_some, Option.some.injEq, Value.label.injEq] at h
        split at h
        · have := some.inj h
          omega
        · cases h
      · have hlt : b < 15 := Nat.not_le.mp hlbl
        unfold Parser.jsonGetVal
        rw [hb]
        interval_cases b <;> (intro h; cases h)
  | int x =>
    have hb : (Item.int x).bytes = UInt8.ofNat tokInt32 :: [byteOf x 0, byteOf x 1, byteOf x 2, byteOf x 3] := by
      rw [Item.bytes, intToken_large hfits]
    have h0 : p.tok p.idx = UInt8.ofNat tokInt32 := hget (k := 0) (by rw [hb]; rfl)
    -- the code of the label 0
    rw [jsonGetVal_label (j := 0) (by rw [h0]; rfl) (by decide)]
    intro h
    cases h
  | tok t =>
    obtain ⟨h1, h8⟩ := hwf
    change t ≤ 8 at h8
    interval_cases t <;> exact absurd trivial hfits

/-- Calls of `microjs_json_get_val`. -/
def Parser.readings : Nat → Parser → List (Option Value)
  | 0, _ => []
  | k + 1, p => meaning p.txt p.jsonGetVal.2 :: p.jsonGetVal.1.readings k

/-- **The tokens are read back** exactly when their values fit. -/
theorem readings_eq_iff {items : List Item}
    (hbytes : p.tok.bytes p.idx (items.flatMap Item.bytes).length = items.flatMap Item.bytes)
    (hwf : ∀ item ∈ items, item.Wf p.lbl) (hidx : p.idx + (items.flatMap Item.bytes).length < 65536) :
    p.readings items.length = items.map (fun item => some (item.value p.txt p.lbl)) ↔
      ∀ item ∈ items, (item.value p.txt p.lbl).Fits p.lbl := by
  induction items generalizing p with
  | nil => exact ⟨fun _ => nofun, fun _ => rfl⟩
  | cons item items ih =>
    rw [flatMap_cons, length_append] at hidx
    rw [flatMap_cons, length_append, Mem.bytes_add] at hbytes
    obtain ⟨hfirst, hrest⟩ := append_inj hbytes (Mem.length_bytes _ _ _)
    have hwf0 := hwf item mem_cons_self
    rw [length_cons, Parser.readings, map_cons, List.cons.injEq, forall_mem_cons]
    by_cases hfits : (item.value p.txt p.lbl).Fits p.lbl
    · obtain ⟨hp, hm⟩ := jsonGetVal_fits hfirst hwf0 (by omega) hfits
      have := ih (p := { p with idx := p.idx + item.bytes.length }) hrest
        (fun item hitem => hwf item (mem_cons_of_mem _ hitem)) (by dsimp only; omega)
      rw [hp, hm]
      exact ⟨fun h => ⟨hfits, this.mp h.2⟩, fun h => ⟨rfl, this.mpr h.2⟩⟩
    · exact ⟨fun h => absurd h.1 (jsonGetVal_not_fits hfirst hwf0 hfits), fun h => absurd h.1 hfits⟩

end

end Json
