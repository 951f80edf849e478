import Mathlib.Tactic.IntervalCases
import ThinkOS.MicroJS.Items
import ThinkOS.MicroJS.Vm

/-!
# MicroJS: constants and operands in the code

`encode_int` picks the shortest of four instructions for a constant; the optimizer's `is_constant`
and the machine read back the value from each of them. Operands of 12 bits are split over two bytes.
-/

namespace MicroJS

open BitVec

variable {x : Word} {code : Nat → Byte} {bs : List Byte} {opc : Byte} {p : Nat}

open Segment

/-! ## Constants -/

/-- One instruction that pushes the constant `v`. -/
inductive Pushes : List Byte → Word → Prop where
  | i4 (n : BitVec 4) : Pushes [OPC_I4 + n.setWidth 8] (n.signExtend 32)
  | i8 (b : Byte) : Pushes [OPC_I8, b] (b.signExtend 32)
  | i16 (b0 b1 : Byte) : Pushes [OPC_I16, b0, b1] ((b1 ++ b0).signExtend 32)
  | i32 (b0 b1 b2 b3 : Byte) : Pushes [OPC_I32, b0, b1, b2, b3] (b3 ++ b2 ++ b1 ++ b0)

theorem byteOf_zero : Sdt.byteOf x 0 = x.setWidth 8 := by simp [Sdt.byteOf]

theorem byteOf_append : Sdt.byteOf x 1 ++ Sdt.byteOf x 0 = x.setWidth 16 := by
  apply eq_of_getLsbD_eq
  intro i hi
  simp only [Sdt.byteOf, getLsbD_append, getLsbD_setWidth, getLsbD_ushiftRight]
  split <;> grind

theorem byteOf_append4 :
    Sdt.byteOf x 3 ++ Sdt.byteOf x 2 ++ Sdt.byteOf x 1 ++ Sdt.byteOf x 0 = x := by
  apply eq_of_getLsbD_eq
  intro i hi
  simp only [Sdt.byteOf, getLsbD_append, getLsbD_setWidth, getLsbD_ushiftRight]
  split
  · grind
  · split
    · grind
    · split <;> grind

/-- A word that fits in `w` bits is the extension of its low bits. -/
theorem signExtend_setWidth {w : Nat} (hw : w ≤ 32) (hx : x.toInt.bmod (2 ^ w) = x.toInt) :
    (x.setWidth w).signExtend 32 = x := by
  apply eq_of_toInt_eq
  rw [toInt_signExtend_of_le hw, toInt_setWidth, ← hx, toInt_eq_toNat_bmod x]
  exact (Int.bmod_bmod_of_dvd (by exact_mod_cast Nat.pow_dvd_pow 2 hw)).symm

theorem pushes_i4 (hl : -8 ≤ x.toInt) (hu : x.toInt < 8) :
    Pushes [OPC_I4 + (Sdt.byteOf x 0 &&& 0x0f)] x := by
  have h := Pushes.i4 (x.setWidth 4)
  rw [signExtend_setWidth (by decide) (by rw [Int.bmod_def]; omega)] at h
  have hb : Sdt.byteOf x 0 &&& 0x0f = (x.setWidth 4).setWidth 8 := by
    rw [byteOf_zero]
    apply eq_of_getLsbD_eq
    intro i hi
    have : i = 0 ∨ i = 1 ∨ i = 2 ∨ i = 3 ∨ i = 4 ∨ i = 5 ∨ i = 6 ∨ i = 7 := by omega
    rcases this with rfl | rfl | rfl | rfl | rfl | rfl | rfl | rfl <;> simp
  rwa [hb]

theorem pushes_i8 (hl : -128 ≤ x.toInt) (hu : x.toInt < 128) :
    Pushes [OPC_I8, Sdt.byteOf x 0] x := by
  have h := Pushes.i8 (x.setWidth 8)
  rw [signExtend_setWidth (by decide) (by rw [Int.bmod_def]; omega)] at h
  rwa [byteOf_zero]

theorem pushes_i16 (hl : -32768 ≤ x.toInt) (hu : x.toInt < 32768) :
    Pushes [OPC_I16, Sdt.byteOf x 0, Sdt.byteOf x 1] x := by
  have h := Pushes.i16 (Sdt.byteOf x 0) (Sdt.byteOf x 1)
  rwa [byteOf_append, signExtend_setWidth (by decide) (by rw [Int.bmod_def]; omega)] at h

theorem pushes_i32 :
    Pushes [OPC_I32, Sdt.byteOf x 0, Sdt.byteOf x 1, Sdt.byteOf x 2, Sdt.byteOf x 3] x := by
  have h := Pushes.i32 (Sdt.byteOf x 0) (Sdt.byteOf x 1) (Sdt.byteOf x 2) (Sdt.byteOf x 3)
  rwa [byteOf_append4] at h

theorem byteOf_and (hl : 0 ≤ x.toInt) (hu : x.toInt < 8) :
    Sdt.byteOf x 0 = Sdt.byteOf x 0 &&& 0x0f := by
  have hx : x = BitVec.ofInt 32 x.toInt := ofInt_toInt.symm
  generalize x.toInt = n at *
  subst hx
  interval_cases n <;> rfl

/-- **`encode_int` keeps the value.** -/
theorem pushes_intBytes : Pushes (Sdt.intBytes x) x := by
  unfold Sdt.intBytes
  split
  · split
    · split
      · split
        · rw [byteOf_and (by assumption) (by assumption)]
          exact pushes_i4 (by omega) (by omega)
        · exact pushes_i8 (by omega) (by omega)
      · exact pushes_i16 (by omega) (by omega)
    · exact pushes_i32
  · split
    · split
      · split
        · exact pushes_i4 (by omega) (by omega)
        · exact pushes_i8 (by omega) (by omega)
      · exact pushes_i16 (by omega) (by omega)
    · exact pushes_i32

theorem pushes_bytes (c : Const) : Pushes c.bytes c.value := by
  cases c with
  | int v => exact pushes_intBytes
  | idx n =>
    by_cases hn : n < 4
    · have h := Pushes.i4 (BitVec.ofNat 4 n)
      interval_cases n <;> exact h
    · simp only [Const.bytes, Const.value, if_neg hn]
      exact Pushes.i8 _

/-- The optimizing compiler has one instruction for a literal. -/
theorem pushes_litBytes {c : Const} {k : Nat} : Pushes (litBytes true c k) (negs k c.value) := by
  unfold litBytes
  rw [if_pos rfl]
  split
  · rename_i hk
    subst hk
    exact pushes_bytes c
  · exact pushes_intBytes

/-- **`is_constant` reads the value back.** -/
theorem isConstant_of_pushes {v : Word} (h : Pushes bs v) (hs : Stores code p bs) :
    Sdt.isConstant code p = some v := by
  unfold Sdt.isConstant
  cases h with
  | i4 n =>
    rw [show code p = _ from hs 0 _ rfl]
    have hn : ∀ n : BitVec 4, (OPC_I4 + n.setWidth 8) &&& 0xf0 = OPC_I4 ∧
        (OPC_I4 + n.setWidth 8).setWidth 4 = n := by decide
    rw [if_pos (hn n).1, (hn n).2]
  | i8 b =>
    rw [show code p = _ from hs 0 _ rfl, hs 1 _ rfl]
    rfl
  | i16 b0 b1 =>
    rw [show code p = _ from hs 0 _ rfl, hs 1 _ rfl, hs 2 _ rfl]
    rfl
  | i32 b0 b1 b2 b3 =>
    rw [show code p = _ from hs 0 _ rfl, hs 1 _ rfl, hs 2 _ rfl, hs 3 _ rfl, hs 4 _ rfl]
    rfl

/-- The opcodes of the constants. -/
def constOpc (b : Byte) : Bool := b &&& 0xf0 == OPC_I4 || b == OPC_I8 || b == OPC_I16 || b == OPC_I32

/-- Whether there is a constant depends on the opcode only. -/
theorem isConstant_eq_none_iff : Sdt.isConstant code p = none ↔ constOpc (code p) = false := by
  unfold Sdt.isConstant constOpc
  dsimp only
  split_ifs <;> simp_all

/-! ## Operands -/

/-- The opcodes with an operand of 12 bits. -/
def operandOpc : List Byte := [OPC_LD, OPC_ST, OPC_PUSHX, OPC_JMP, OPC_JEQ]

theorem constOpc_operand (h : opc ∈ operandOpc) {x : Int} :
    constOpc (opc + BitVec.ofInt 8 (x % 16)) = false := by
  have hl : 0 ≤ x % 16 := by omega
  have hu : x % 16 < 16 := by omega
  generalize x % 16 = n at *
  have : ∀ opc ∈ operandOpc, ∀ n : Nat, n < 16 → constOpc (opc + BitVec.ofInt 8 n) = false := by decide
  obtain ⟨n, rfl⟩ := Int.eq_ofNat_of_zero_le hl
  exact this opc h n (by omega)

/-! ## The layout of the control statements

The bytes of a control statement are its parts' bytes and the operands of its jumps; the offset of a
jump is counted from the end of its instruction. -/

section
variable {opt : Bool}

@[simp] theorem size_jmp (d : Int) : (format opt).size (.jmp d) = 2 := rfl

@[simp] theorem size_jeq (d : Int) : (format opt).size (.jeq d) = 2 := rfl

@[simp] theorem size_pushx (d : Int) : (format opt).size (.pushx d) = 2 := rfl

@[simp] theorem size_leave (d : Int) : (format opt).size (.leave d) = 2 := rfl

@[simp] theorem size_xpt : (format opt).size .xpt = 1 := rfl

@[simp] theorem size_finish : (format opt).size .finish = 2 := rfl

@[simp] theorem size_ret : (format opt).size .ret = 1 := rfl

/-- The instruction of a relative jump. -/
def Item.relOpc : Item → Option Byte
  | .jmp _ | .leave _ => some OPC_JMP
  | .jeq _ => some OPC_JEQ
  | _ => none

variable {base addr : Nat} {x y c a b e : List Item} {it : Item} {d : Int}

theorem placed_instr (hj : it.jump = none) (hb : ∀ a, it.bytes opt a 0 = bs)
    (ha : base + (format opt).length x = addr) (hs : Stores code addr bs) :
    (format opt).Placed code base x it y := by
  refine Format.placed_plain hj ?_
  rw [ha, show (format opt).bytes it addr 0 = bs from hb addr]
  exact hs

theorem placed_rel {off : Int} (hit : it.relOpc = some opc) (hj : it.jump = some d)
    (p q : List Item) (hpq : x ++ it :: y = p ++ q) (hd : (p.length : Int) = x.length + 1 + d)
    (ha : base + (format opt).length x = addr)
    (hoff : ((base + (format opt).length p : Nat) : Int) - (addr + 2) = off)
    (hs : Stores code addr (Sdt.operand opc off)) : (format opt).Placed code base x it y := by
  refine Format.placed_jump hj (lands_of_eq hpq hd) ?_
  rw [ha, ← hoff] at *
  cases it <;> cases hit <;> exact hs

theorem placed_pushx {t : Nat} (p q : List Item) (hpq : x ++ .pushx d :: y = p ++ q)
    (hd : (p.length : Int) = x.length + 1 + d) (ha : base + (format opt).length x = addr)
    (ht : base + (format opt).length p = t) (hs : Stores code addr (Sdt.operand OPC_PUSHX t)) :
    (format opt).Placed code base x (.pushx d) y := by
  refine Format.placed_jump rfl (lands_of_eq hpq hd) ?_
  rw [ha, ht]
  exact hs

@[simp] theorem length_operand (opc : Byte) (x : Int) : (Sdt.operand opc x).length = 2 := rfl

theorem holds_ifItems (h : (format opt).Laid code base
    [.seg c, .raw (Sdt.operand OPC_JEQ ((format opt).length b)), .seg b]) :
    (format opt).Holds code base (ifItems c b) := by
  obtain ⟨hc, hj, hb, -⟩ := h
  refine every_append (hc.every rfl) (every_cons ?_ (hb.every (by simp; omega)))
  · exact placed_rel rfl rfl (c ++ .jeq b.length :: b) [] (by simp) (by simp; omega) rfl
      (by simp; omega) hj

theorem holds_ifElseItems (h : (format opt).Laid code base
    [.seg c, .raw (Sdt.operand OPC_JEQ ((format opt).length b + 2)), .seg b,
      .raw (Sdt.operand OPC_JMP ((format opt).length e)), .seg e]) :
    (format opt).Holds code base (ifElseItems c b e) := by
  obtain ⟨hc, hj, hb, hk, he, -⟩ := h
  refine every_append (every_append (hc.every rfl)
    (every_cons ?_ (hb.every (by simp; omega)))) (every_cons ?_ (he.every (by simp; omega)))
  · exact placed_rel rfl rfl (c ++ .jeq (b.length + 1) :: b ++ [.jmp e.length]) e (by simp)
      (by simp; omega) rfl (by simp; omega) hj
  · exact placed_rel rfl rfl (c ++ .jeq (b.length + 1) :: b ++ .jmp e.length :: e) [] (by simp)
      (by simp; omega) (by simp; omega) (by simp; omega) hk

theorem holds_whileItems (h : (format opt).Laid code base
    [.seg c, .raw (Sdt.operand OPC_JEQ ((format opt).length b + 2)), .seg b,
      .raw (Sdt.operand OPC_JMP (-((format opt).length c + 2 + (format opt).length b + 2)))]) :
    (format opt).Holds code base (whileItems c b) := by
  obtain ⟨hc, hj, hb, hk, -⟩ := h
  refine every_append (every_append (hc.every rfl)
    (every_cons ?_ (hb.every (by simp; omega)))) (every_singleton ?_)
  · exact placed_rel rfl rfl
      (c ++ .jeq (b.length + 1) :: b ++ [.jmp (-(c.length + 1 + b.length + 1))]) [] (by simp)
      (by simp; omega) rfl (by simp; omega) hj
  · exact placed_rel rfl rfl []
      (c ++ .jeq (b.length + 1) :: b ++ [.jmp (-(c.length + 1 + b.length + 1))]) (by simp)
      (by simp; omega) (by simp; omega) (by simp; omega) hk

theorem holds_forItems (h : (format opt).Laid code base
    [.seg c, .raw (Sdt.operand OPC_JEQ (2 + (format opt).length a + 2 + (format opt).length b + 2)),
      .raw (Sdt.operand OPC_JMP ((format opt).length a + 2)), .seg a,
      .raw (Sdt.operand OPC_JMP (-((format opt).length c + 4 + (format opt).length a + 2))), .seg b,
      .raw (Sdt.operand OPC_JMP (-((format opt).length a + 2 + (format opt).length b + 2)))]) :
    (format opt).Holds code base (forItems c a b) := by
  obtain ⟨hc, hj, hj2, ha, hk, hb, hl, -⟩ := h
  refine every_append (every_append (every_append (hc.every rfl)
    (every_cons ?_ (every_cons ?_ (ha.every (by simp; omega)))))
    (every_cons ?_ (hb.every (by simp; omega))))
    (every_singleton ?_)
  · exact placed_rel rfl rfl (forItems c a b) [] (by simp [forItems]) (by simp [forItems]; omega) rfl
      (by simp [forItems]; omega) hj
  · exact placed_rel rfl rfl
      (c ++ .jeq (1 + a.length + 1 + b.length + 1) :: .jmp (a.length + 1) :: a ++
        [.jmp (-(c.length + 2 + a.length + 1))])
      (b ++ [.jmp (-(a.length + 1 + b.length + 1))]) (by simp) (by simp; omega) (by simp; omega)
      (by simp; omega) hj2
  · exact placed_rel rfl rfl [] (forItems c a b) (by simp [forItems]) (by simp; omega)
      (by simp; omega) (by simp; omega) hk
  · exact placed_rel rfl rfl
      (c ++ [.jeq (1 + a.length + 1 + b.length + 1), .jmp (a.length + 1)])
      (a ++ .jmp (-(c.length + 2 + a.length + 1)) :: b ++ [.jmp (-(a.length + 1 + b.length + 1))])
      (by simp) (by simp; omega) (by simp; omega) (by simp; omega) hl

theorem holds_tryItems (h : (format opt).Laid code base
    [.raw (Sdt.operand OPC_PUSHX ((base + 2 + (format opt).length b + 2 : Nat) : Int)), .seg b,
      .raw (Sdt.operand OPC_JMP 1), .raw [OPC_XPT]]) :
    (format opt).Holds code base (tryItems b) := by
  obtain ⟨hp, hb, hj, hx, -⟩ := h
  refine every_append (every_cons ?_ (hb.every (by simp))) (every_cons ?_ (every_singleton ?_))
  · exact placed_pushx (.pushx (b.length + 1) :: b ++ [.leave 1]) [.xpt] (by simp) (by simp; omega)
      (by simp) (by simp; omega) hp
  · exact placed_rel rfl rfl (.pushx (b.length + 1) :: b ++ [.leave 1, .xpt]) [] (by simp)
      (by simp; omega) (by simp; omega) (by simp; omega) hj
  · exact placed_instr rfl (fun _ => rfl) (by simp; omega) hx

theorem holds_tryCatchItems (h : (format opt).Laid code base
    [.raw (Sdt.operand OPC_PUSHX ((base + 2 + (format opt).length b + 2 : Nat) : Int)), .seg b,
      .raw (Sdt.operand OPC_JMP ((format opt).length e)), .seg e]) :
    (format opt).Holds code base (tryCatchItems b e) := by
  obtain ⟨hp, hb, hj, hh, -⟩ := h
  refine every_append (every_cons ?_ (hb.every (by simp)))
    (every_cons ?_ (hh.every (by simp; omega)))
  · exact placed_pushx (.pushx (b.length + 1) :: b ++ [.leave e.length]) e (by simp) (by simp; omega)
      (by simp) (by simp; omega) hp
  · exact placed_rel rfl rfl (.pushx (b.length + 1) :: b ++ .leave e.length :: e) [] (by simp)
      (by simp; omega) (by simp; omega) (by simp; omega) hj

theorem holds_wholeItems (h : (format opt).Laid code 0
    [.raw (Sdt.operand OPC_PUSHX ((2 + (format opt).length b + 2 : Nat) : Int)), .seg b,
      .raw [OPC_POP, OPC_ABT], .raw [OPC_RET]]) :
    (format opt).Holds code 0 (wholeItems b) := by
  obtain ⟨hp, hb, hf, hr, -⟩ := h
  refine every_append (every_cons ?_ (hb.every (by simp))) (every_cons ?_ (every_singleton ?_))
  · exact placed_pushx (.pushx (b.length + 1) :: b ++ [.finish]) [.ret] (by simp) (by simp; omega)
      (by simp) (by simp; omega) hp
  · exact placed_instr rfl (fun _ => rfl) (by simp) hf
  · exact placed_instr rfl (fun _ => rfl) (by simp; omega) hr

end

end MicroJS
