import ThinkOS.MicroJS.Encode

/-!
# MicroJS: the instructions of the machine

What one turn of `microjs_exec` does for the bytes of each instruction. The operand of 12 bits is
read back as the stored number modulo 4096; jumps read it as a signed distance.
-/

namespace MicroJS

variable {x : Int}

open Segment BitVec

/-! ## Operands -/

section
variable {code : Nat → Byte} {a : Nat} {opc : Byte} {x : Int}

/-- The machine's view of a stored operand: the group of the opcode and the 12 bits. -/
theorem operand_read (hopc : opc ∈ operandOpc) (hs : Stores code a (Sdt.operand opc x)) :
    (code a).toNat / 16 = opc.toNat / 16 ∧
      (code (a + 1)).toNat * 16 + (code a).toNat % 16 = (x % 4096).toNat := by
  have h0 : code a = opc + BitVec.ofInt 8 (x % 16) := hs 0 _ rfl
  have h1 : code (a + 1) = BitVec.ofInt 8 (x / 16) := hs 1 _ rfl
  have hl : ∀ opc ∈ operandOpc, opc.toNat % 16 = 0 ∧ opc.toNat < 240 := by decide
  have hb := hl opc hopc
  rw [h0, h1, toNat_add, toNat_ofInt, toNat_ofInt]
  omega

end

/-- The signed reading of 12 bits is the number itself exactly in the range of 12 bits. -/
theorem signExt12_eq_iff : signExt12 (x % 4096).toNat = x ↔ -2048 ≤ x ∧ x < 2048 := by
  unfold signExt12
  rw [toInt_ofNat', Int.bmod_def]
  omega

/-! ## Instructions -/

/-- The value of a unary operation. -/
def UnOp.eval : UnOp → Word → Word
  | .inv, v => ~~~v
  | .minus, v => -v
  | .not, v => if v = 0 then 1 else 0

namespace Vm

section
variable {H : Host} {code : Nat → Byte} {s : Vm} {addr : Nat} {xp : Int} {o : IntOp} {r0 : Word}
  {st : List Word} {r1 : Word}

theorem step_misc {k : Nat} (hk : k < 16) (h : code s.pc = BitVec.ofNat 8 k) :
    step H code s = misc H code k s := by
  have hn : (code s.pc).toNat = k := by
    rw [h, toNat_ofNat]
    omega
  unfold step
  simp only [hn, show k / 16 = 0 by omega, show k % 16 = k by omega]

theorem step_const {bs : List Byte} {v : Word} (h : Pushes bs v) (hs : Stores code s.pc bs) :
    step H code s = .next { s with pc := s.pc + bs.length, stack := v :: s.stack } := by
  cases h with
  | i4 n =>
    have h0 : code s.pc = _ := hs 0 _ rfl
    have hn : ∀ n : BitVec 4, (OPC_I4 + n.setWidth 8).toNat / 16 = 1 ∧
        BitVec.ofNat 4 ((OPC_I4 + n.setWidth 8).toNat % 16) = n := by decide
    unfold step
    simp only [h0, (hn n).1, (hn n).2]
    rfl
  | i8 b =>
    rw [step_misc (k := 6) (by decide) (hs 0 _ rfl)]
    simp only [misc, show code (s.pc + 1) = b from hs 1 _ rfl]
    rfl
  | i16 b0 b1 =>
    rw [step_misc (k := 7) (by decide) (hs 0 _ rfl)]
    simp only [misc, show code (s.pc + 1) = b0 from hs 1 _ rfl,
      show code (s.pc + 2) = b1 from hs 2 _ rfl]
    rfl
  | i32 b0 b1 b2 b3 =>
    rw [step_misc (k := 8) (by decide) (hs 0 _ rfl)]
    simp only [misc, show code (s.pc + 1) = b0 from hs 1 _ rfl,
      show code (s.pc + 2) = b1 from hs 2 _ rfl, show code (s.pc + 3) = b2 from hs 3 _ rfl,
      show code (s.pc + 4) = b3 from hs 4 _ rfl]
    rfl

theorem step_bin (h : code s.pc = o.opc) {r2 : Word} (hst : s.stack = r0 :: r1 :: st)
    (hv : o.eval H r1 r0 = some r2) :
    step H code s = .next { s with pc := s.pc + 1, stack := r2 :: st } := by
  have hn : o.opc.toNat / 16 = 2 ∧ IntOp.ofNat (o.opc.toNat % 16) = o := by cases o <;> decide
  unfold step
  simp only [h, hn.1, hn.2, hst, hv]

theorem step_bin_fault (h : code s.pc = o.opc) (hst : s.stack = r0 :: r1 :: st)
    (hv : o.eval H r1 r0 = none) : step H code s = .fault := by
  have hn : o.opc.toNat / 16 = 2 ∧ IntOp.ofNat (o.opc.toNat % 16) = o := by cases o <;> decide
  unfold step
  simp only [h, hn.1, hn.2, hst, hv]

theorem step_un {o : UnOp} (h : code s.pc = o.opc) (hst : s.stack = r0 :: st) :
    step H code s = .next { s with pc := s.pc + 1, stack := o.eval r0 :: st } := by
  cases o with
  | inv =>
    rw [step_misc (k := 4) (by decide) h]
    simp only [misc, hst]
    rfl
  | minus =>
    rw [step_misc (k := 5) (by decide) h]
    simp only [misc, hst]
    rfl
  | not =>
    rw [step_misc (k := 12) (by decide) h]
    simp only [misc, hst]
    rfl

theorem step_fuse {f : Fuse} (h : code s.pc = f.opc) {r : Word} (hst : s.stack = r0 :: st)
    (hv : f.intOp.eval H r0 f.operand = some r) :
    step H code s = .next { s with pc := s.pc + 1, stack := r :: st } := by
  cases f with
  | inc =>
    rw [step_misc (k := 10) (by decide) h]
    cases hv
    simp only [misc, hst]
    rfl
  | dec =>
    rw [step_misc (k := 11) (by decide) h]
    cases hv
    simp only [misc, hst]
    rfl
  | isZero =>
    rw [step_misc (k := 12) (by decide) h]
    cases hv
    simp only [misc, hst]
    rfl

theorem step_pop (h : code s.pc = OPC_POP) (hst : s.stack = r0 :: st) :
    step H code s = .next { s with pc := s.pc + 1, stack := st } := by
  rw [step_misc (k := 3) (by decide) h]
  simp only [misc, hst]

theorem step_abt (h : code s.pc = OPC_ABT) : step H code s = .done 0 { s with pc := s.pc + 1 } := by
  rw [step_misc (k := 0) (by decide) h]
  simp only [misc]

theorem step_ret (h : code s.pc = OPC_RET) (hst : s.stack = r0 :: st) :
    step H code s = .done r0 { s with pc := s.pc + 1, stack := st } := by
  rw [step_misc (k := 1) (by decide) h]
  simp only [misc, hst]

theorem step_xpt (h : code s.pc = OPC_XPT) (hst : s.stack = r1 :: st) :
    step H code s = raise H { s with pc := s.pc + 1, stack := st } r1 := by
  rw [step_misc (k := 2) (by decide) h]
  simp only [misc, hst]

theorem step_ext {xid n : Nat} (h : Stores code s.pc [OPC_EXT, BitVec.ofNat 8 xid, BitVec.ofNat 8 n])
    (hx : xid < 256) (hn : n < 256) (hlen : n ≤ s.stack.length) :
    step H code s = (match H.ext (⟨xid, (s.stack.take n).reverse⟩ :: s.calls) with
      | .fail r1 => raise H { s with pc := s.pc + 3,
                                     calls := ⟨xid, (s.stack.take n).reverse⟩ :: s.calls } r1
      | .ret vals => .next { s with pc := s.pc + 3, stack := vals.reverse ++ s.stack.drop n,
                                    calls := ⟨xid, (s.stack.take n).reverse⟩ :: s.calls }) := by
  have hx' : (code (s.pc + 1)).toNat = xid := by
    rw [h 1 _ rfl, toNat_ofNat]
    omega
  have hn' : (code (s.pc + 2)).toNat = n := by
    rw [h 2 _ rfl, toNat_ofNat]
    omega
  rw [step_misc (k := 9) (by decide) (h 0 _ rfl)]
  cases hext : H.ext (⟨xid, (s.stack.take n).reverse⟩ :: s.calls) <;>
    simp only [misc, hx', hn', if_neg (Nat.not_lt.mpr hlen), hext]

theorem step_ld (h : Stores code s.pc (Sdt.operand OPC_LD x)) : step H code s =
      .next { s with pc := s.pc + 2, stack := s.data (x % 4096).toNat :: s.stack } := by
  obtain ⟨hg, hr⟩ := operand_read (by decide) h
  unfold step
  simp only [hg, hr]
  rfl

theorem step_st (h : Stores code s.pc (Sdt.operand OPC_ST x)) (hst : s.stack = r0 :: st) :
    step H code s = .next { s with pc := s.pc + 2, stack := st,
                                   data := Function.update s.data (x % 4096).toNat r0 } := by
  obtain ⟨hg, hr⟩ := operand_read (by decide) h
  unfold step
  simp only [hg, hr, hst]
  rfl

theorem step_pushx (h : Stores code s.pc (Sdt.operand OPC_PUSHX x)) :
    step H code s = .next { s with pc := s.pc + 2,
                                   stack := frameWord H s.xp (x % 4096).toNat :: s.stack,
                                   xp := s.stack.length + 1 } := by
  obtain ⟨hg, hr⟩ := operand_read (by decide) h
  unfold step
  simp only [hg, hr]
  rfl

theorem step_jmp (h : Stores code s.pc (Sdt.operand OPC_JMP x)) :
    step H code s = goto { s with pc := s.pc + 2 } (s.pc + 2 + signExt12 (x % 4096).toNat) := by
  obtain ⟨hg, hr⟩ := operand_read (by decide) h
  unfold step
  simp only [hg, hr]
  rfl

theorem step_jeq (h : Stores code s.pc (Sdt.operand OPC_JEQ x)) (hst : s.stack = r0 :: st) :
    step H code s =
      if r0 = 0 then
        goto { s with pc := s.pc + 2, stack := st } (s.pc + 2 + signExt12 (x % 4096).toNat)
      else .next { s with pc := s.pc + 2, stack := st } := by
  obtain ⟨hg, hr⟩ := operand_read (by decide) h
  unfold step
  simp only [hg, hr, hst]
  rfl

theorem goto_ofNat {t : Nat} : goto s t = .next { s with pc := t } := by
  unfold goto
  rw [if_neg (by omega)]
  rfl

/-! ## Exceptions -/

/-- A frame holds the handler in its low half and the frame before it in its high half. -/
theorem toNat_frameWord (ha : addr < 65536) :
    (frameWord H xp addr).toNat = ((H.base + xp) % 65536).toNat * 65536 + addr := by
  unfold frameWord
  have hs : (BitVec.ofInt 32 (H.base + xp) <<< 16).toNat =
      ((H.base + xp) % 65536).toNat <<< 16 := by
    rw [toNat_shiftLeft, toNat_ofInt, Nat.shiftLeft_eq, Nat.shiftLeft_eq]
    omega
  rw [toNat_or, hs, toNat_ofNat, Nat.mod_eq_of_lt (by omega), Nat.or_comm,
    ← Nat.shiftLeft_add_eq_or_of_lt (by omega), Nat.shiftLeft_eq]

/-- The machine finds in a frame the handler and the frame before it. -/
theorem frameWord_read (ha : addr < 65536) (hl : -32768 ≤ H.base + xp) (hu : H.base + xp < 32768) :
    (frameWord H xp addr).toNat % 65536 = addr ∧
      ((frameWord H xp addr).sshiftRight 16).toInt - H.base = xp := by
  have h : (frameWord H xp addr).toNat = _ := toNat_frameWord ha
  constructor
  · omega
  · rw [toInt_sshiftRight, toInt_eq_toNat_bmod, h, Int.shiftRight_eq_div_pow, Int.bmod_def]
    push_cast
    omega

theorem raise_frame {ts fs : List Word} (hst : s.stack = ts ++ frameWord H xp addr :: fs)
    (hxp : s.xp = fs.length + 1) (ha : addr < 65536) (hl : -32768 ≤ H.base + xp)
    (hu : H.base + xp < 32768) :
    raise H s r1 = .next { s with pc := addr, stack := r1 :: fs, xp := xp } := by
  obtain ⟨hpc, hx⟩ := frameWord_read ha hl hu
  have hd : s.stack.drop (s.stack.length - s.xp.toNat) = frameWord H xp addr :: fs := by
    rw [hst, hxp]
    apply List.drop_left'
    simp
  unfold raise
  rw [if_pos (by rw [hst, hxp]; simp; omega), hd]
  simp only [hpc, hx]

end

end Vm

end MicroJS
