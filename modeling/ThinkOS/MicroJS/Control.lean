import ThinkOS.MicroJS.Emit

/-!
# MicroJS: back-patched jumps

The control statements reserve a jump before its target is known and store its operand later. Each
section follows the states of one statement from the condition to the last patch.
-/

namespace MicroJS

open Function Option

variable {a loop cond y : Nat} {ic ib : List Item}

open Segment

/-- An opcode at the end of the code, with room for its operand. -/
structure Reserves (E : Env) (opc : Byte) (m m' : Sdt) : Prop where
  code : m'.code = Function.update m.code m.pc opc
  pc : m'.pc = m.pc + 2
  spc : E.opt = true → m'.spc = m.pc

/-- The operand `x` stored at `a`. -/
structure Patches (a : Nat) (x : Int) (m m' : Sdt) : Prop where
  code : m'.code = (m.patch a x).code
  pc : m'.pc = m.pc
  spc : m'.spc = m.spc

/-- A jump at the end of the code whose operand is known. -/
structure Jumps (E : Env) (x : Int) (m m' : Sdt) : Prop where
  code : m'.code = write m.code m.pc (Sdt.operand OPC_JMP x)
  pc : m'.pc = m.pc + 2
  spc : E.opt = true → m'.spc = m.pc

section
variable {E : Env} {S S1 S' : Static} {m m0 m1 m2 m3 m' : Sdt} {x : Int} {opc : Byte}

theorem Reserves.at_pc (h : Reserves E opc m m') : m'.code m.pc = opc := by
  rw [h.code, update_self]

theorem Patches.of_ne (h : Patches a x m m') (hy : y ≠ a) (hy' : y ≠ a + 1) :
    m'.code y = m.code y := by
  rw [h.code, Sdt.patch]
  dsimp only
  rw [update_of_ne hy', update_of_ne hy]

theorem Patches.stores (h : Patches a x m m') (ha : m.code a = opc) :
    Stores m'.code a (Sdt.operand opc x) := by
  have h0 : m'.code a = opc + BitVec.ofInt 8 (x % 16) := by
    rw [h.code, Sdt.patch]
    dsimp only
    rw [update_of_ne (by omega), update_self, ha]
  have h1 : m'.code (a + 1) = BitVec.ofInt 8 (x / 16) := by
    rw [h.code, Sdt.patch]
    exact update_self _ _ _
  intro k b hk
  match k, hk with
  | 0, hk => exact h0.trans (some.inj hk)
  | 1, hk => exact h1.trans (some.inj hk)

theorem Jumps.stores (h : Jumps E x m m') : Stores m'.code m.pc (Sdt.operand OPC_JMP x) := by
  rw [h.code]
  exact stores_write _ _ _

theorem Jumps.saved (h : Jumps E x m m') (hS : S.saved = none) : Saved E S m' :=
  saved_instr hS h.stores (by rw [h.pc]; omega) h.spc (constOpc_operand (by decide))

theorem Reserves.saved (h : Reserves E opc m m') (ho : opc ∈ operandOpc) (hS : S.saved = none) :
    Saved E S m' := by
  have hb : constOpc opc = false := by
    have : ∀ opc ∈ operandOpc, constOpc opc = false := by decide
    exact this opc ho
  have hst : Stores m'.code m.pc [opc] := by
    intro k b hk
    obtain ⟨rfl, rfl⟩ : k = 0 ∧ b = opc := by
      cases k with
      | zero => exact ⟨rfl, (some.inj hk).symm⟩
      | succ k => simp at hk
    exact h.at_pc
  exact saved_instr hS hst (by rw [h.pc]; omega) h.spc hb

/-- A patch does not touch what the optimizer looks at. -/
theorem Saved.patch (hsv : Saved E S m) (hp : Patches a x m m') (ha : m.code a ∈ operandOpc)
    (hspc : E.opt = true → m.spc = a ∨ a + 2 ≤ m.spc) : Saved E S m' := by
  intro ho
  have hconst := hsv.isConstant ho
  have hsv := hsv ho
  have hnone : m.spc = a → Sdt.isConstant m.code m.spc = none := by
    intro h
    rw [isConstant_eq_none_iff, h]
    have : ∀ opc ∈ operandOpc, constOpc opc = false := by decide
    exact this _ ha
  split at hsv
  · rw [hp.pc, hp.spc, isConstant_eq_none_iff]
    refine ⟨hsv.1, ?_⟩
    rcases hspc ho with h | h
    · rw [h, show m'.code a = m.code a + BitVec.ofInt 8 (x % 16) from hp.stores rfl 0 _ rfl]
      exact constOpc_operand ha
    · rw [hp.of_ne (by omega) (by omega)]
      exact isConstant_eq_none_iff.mp hsv.2
  · rename_i c k fresh hs
    rcases hspc ho with h | h
    · rw [hnone h, hs] at hconst
      cases hconst
    · rw [hp.pc, hp.spc]
      exact ⟨hsv.1.congr fun y hy _ => hp.of_ne (by omega) (by omega), hsv.2⟩

@[simp] def plainPart : Part Item Byte → Bool
  | .seg is => is.all Item.plain
  | _ => true

/-- From `m` to `m'` the parts `ps` were stored. -/
structure Grown (E : Env) (m m' : Sdt) (ps : List (Part Item Byte)) : Prop where
  pc : m'.pc = m.pc + (format E.opt).extent ps
  keep : ∀ y < m.pc, m'.code y = m.code y
  laid : (format E.opt).Laid m'.code m.pc ps
  above : ps.all plainPart = true → ∀ y, m'.pc ≤ y → m'.code y = m.code y

section
variable {ps qs : List (Part Item Byte)} {is : List Item}

theorem Grown.trans (h : Grown E m m1 ps) (h' : Grown E m1 m' qs) : Grown E m m' (ps ++ qs) := by
  have hpc := h.pc
  refine ⟨?_, fun y hy => ?_, Format.laid_append.mpr ⟨h.laid.congr fun y _ hy => ?_, ?_⟩,
    fun hp y hy => ?_⟩
  · rw [h'.pc, hpc, Format.extent_append, Nat.add_assoc]
  · rw [h'.keep y (by omega), h.keep y hy]
  · exact h'.keep y (by omega)
  · rw [← hpc]
    exact h'.laid
  · rw [List.all_append, Bool.and_eq_true] at hp
    rw [h'.above hp.2 y hy, h.above hp.1 y (by rw [h'.pc] at hy; omega)]

theorem Emits.grown (h : Emits E m m' is) : Grown E m m' [.seg is] :=
  ⟨h.pc, h.keep, ⟨h.holds, trivial⟩, fun hp => h.above (by simpa using hp)⟩

theorem Grown.emits (h : Grown E m m' ps) (hps : (format E.opt).extent ps = (format E.opt).length is ∧
      ps.all plainPart = is.all Item.plain)
    (hh : (format E.opt).Holds m'.code m.pc is) : Emits E m m' is :=
  ⟨by rw [h.pc, hps.1], h.keep, hh, hps.2 ▸ h.above⟩

theorem grown_update (hcode : m'.code = update m.code m.pc opc) (hpc : m'.pc = m.pc + 2) :
    Grown E m m' [.hole opc] := by
  refine ⟨hpc, fun y hy => ?_, ⟨by rw [hcode, update_self], trivial⟩, fun _ y hy => ?_⟩
  · rw [hcode, update_of_ne hy.ne]
  · rw [hcode, update_of_ne (by omega)]

theorem Reserves.grown (h : Reserves E opc m m') : Grown E m m' [.hole opc] := grown_update h.code h.pc

theorem grown_write {bs : List Byte} (hcode : m'.code = write m.code m.pc bs)
    (hpc : m'.pc = m.pc + bs.length) : Grown E m m' [.raw bs] :=
  ⟨hpc, fun y hy => by rw [hcode, write_of_lt _ hy], ⟨by rw [hcode]; exact stores_write _ _ _, trivial⟩,
    fun _ y hy => by rw [hcode, write_of_le _ (hpc ▸ hy)]⟩

theorem Jumps.grown (h : Jumps E x m m') : Grown E m m' [.raw (Sdt.operand OPC_JMP x)] :=
  grown_write h.code h.pc

theorem Grown.patch (ps : List (Part Item Byte)) (h : Grown E m m1 (ps ++ .hole opc :: qs))
    (hp : Patches a x m1 m') (ha : a = m.pc + (format E.opt).extent ps) :
    Grown E m m' (ps ++ .raw (Sdt.operand opc x) :: qs) := by
  obtain ⟨hps, hopc, hqs⟩ := Format.laid_append.mp h.laid
  subst ha
  have hpc := h.pc
  rw [Format.extent_append, Format.extent] at hpc
  refine ⟨?_, fun y hy => ?_, Format.laid_append.mpr ⟨hps.congr fun y _ hy => ?_, ?_, ?_⟩,
    fun hplain y hy => ?_⟩
  · rw [hp.pc, hpc, Format.extent_append]
    rfl
  · rw [hp.of_ne (by omega) (by omega), h.keep y hy]
  · exact hp.of_ne (by omega) (by omega)
  · exact hp.stores hopc
  · exact hqs.congr fun y hy _ => hp.of_ne (by omega) (by omega)
  · rw [hp.pc] at hy
    rw [hp.of_ne (by omega) (by omega), h.above (by simpa using hplain) y hy]

end

theorem knows_reserve {e : Entry} (hK : Knows S m0) (he : e.inner = true)
    (hcode : m0.code = m.code) (hpc : m0.pc = m.pc)
    (h : ((m0.save E).reserve opc).symPush e = .ok m') :
    Knows S m' ∧ m'.tab.core = m0.tab.core.push e ∧ Reserves E opc m m' := by
  have hK1 : Knows S ((m0.save E).reserve opc) := by
    refine hK.alike ?_
    rw [Sdt.save_eq]
    exact ⟨rfl, rfl, rfl⟩
  obtain ⟨hK', hc, h1, h2, h3⟩ := knows_push hK1 he h
  rw [Sdt.save_eq] at h1 h2 h3 hc
  refine ⟨hK', hc, ⟨?_, ?_, fun ho => ?_⟩⟩
  · rw [h1, ← hcode, ← hpc]
    rfl
  · rw [h2, ← hpc]
    rfl
  · rw [h3, ← hpc]
    exact if_pos ho

end

/-! ## `if` -/

section
variable {E : Env} {S S1 S2 S' : Static} {m m1 m2 m3 m4 m5 m' : Sdt} {c : Symtab.Core}

theorem knows_ifCond (hK : Knows S m) (h : Action.opIfCond.run E m = .ok m') :
    Knows S m' ∧ m'.tab.core = m.tab.core.push (.ref m.pc) ∧ Reserves E OPC_JEQ m m' :=
  knows_reserve hK rfl rfl rfl (act_ok h)

/-- `op_if_end`, which is `op_catch_end` too. -/
theorem knows_patchRef (hK : Knows S m) (hc : m.tab.core = c.push (.ref a))
    (h : m.opPatchRef = .ok m') :
    Knows S m' ∧ m'.tab.core = c ∧ Patches a ((m.pc : Int) - 2 - a) m m' := by
  obtain ⟨t, hc', hK', h⟩ := knows_pop hK hc rfl h rfl
  cases h
  exact ⟨hK'.alike ⟨rfl, rfl, rfl⟩, hc', ⟨rfl, rfl, rfl⟩⟩

/-- The condition, the jump over the body, the body; the jump's operand is stored last. -/
theorem emitted_ifThen (hc : Emitted E S S1 m m1 ic) (hr : Reserves E OPC_JEQ m1 m2)
    (hb : Emitted E S1.plain S' m2 m3 ib) (hp : Patches m1.pc ((m3.pc : Int) - 2 - m1.pc) m3 m')
    (hK : Knows S' m') : Emitted E S S' m m' (ifItems ic ib) := by
  refine ⟨hK, hc.grows.trans { hb.grows with },
    fun hs => hc.safe (hb.safe hs), fun hs hsv => ?_⟩
  obtain ⟨hec, -, -⟩ := hc.code (fun ho => hb.safe (hs ho)) hsv
  obtain ⟨heb, hsv3, hspc3⟩ := hb.code hs (hr.saved (by decide) rfl)
  have hpc1 := hec.pc
  have hpc2 := hr.pc
  have hpc3 := heb.pc
  have h : Grown E m m3 [.seg ic, .hole OPC_JEQ, .seg ib] := (hec.grown.trans hr.grown).trans heb.grown
  have hcond : m3.code m1.pc = OPC_JEQ := by
    rw [hpc1]
    exact h.laid.2.1
  have h' := h.patch [.seg ic] hp hpc1
  rw [show (m3.pc : Int) - 2 - m1.pc = (format E.opt).length ib by omega] at h'
  have hspc : E.opt = true → m3.spc = m1.pc ∨ m1.pc + 2 ≤ m3.spc := by
    intro ho
    have := hr.spc ho
    have := hspc3 ho
    omega
  refine ⟨h'.emits (by simp [Format.extent, ifItems]) (holds_ifItems h'.laid),
    hsv3.patch hp (by rw [hcond]; decide) hspc, fun ho => .inr ?_⟩
  have := hspc ho
  rw [hp.spc]
  omega

theorem knows_ifElse (hK : Knows S m) (hc : m.tab.core = c.push (.ref a))
    (h : Action.opIfElse.run E m = .ok m') : Knows S m' ∧ m'.tab.core = c.push (.ref m.pc) ∧
      ∃ mp, Patches a ((m.pc : Int) - a) m mp ∧ Reserves E OPC_JMP mp m' := by
  obtain ⟨t, hc', hK', h⟩ := knows_pop hK hc rfl (act_ok h) rfl
  dsimp only at h
  rw [Sdt.save_eq] at h
  obtain ⟨hK'', hc'', h1, h2, h3⟩ := knows_push (S := S) (by exact hK'.alike ⟨rfl, rfl, rfl⟩) (by rfl) h
  refine ⟨hK'', hc''.trans (by rw [← hc']; rfl), (m.withTab t).patch a ((m.pc : Int) - a),
    ⟨rfl, rfl, rfl⟩, ⟨h1, h2, fun ho => ?_⟩⟩
  rw [h3]
  exact if_pos ho

/-- The jump over the `else` part is reserved when the operand of the first one is stored. -/
theorem emitted_ifElse {mp : Sdt} {ie : List Item} (hc : Emitted E S S1 m m1 ic)
    (hr : Reserves E OPC_JEQ m1 m2) (hb : Emitted E S1.plain S2 m2 m3 ib)
    (hp : Patches m1.pc ((m3.pc : Int) - m1.pc) m3 mp) (hr' : Reserves E OPC_JMP mp m4)
    (he : Emitted E S2.plain S' m4 m5 ie) (hp' : Patches m3.pc ((m5.pc : Int) - 2 - m3.pc) m5 m')
    (hK : Knows S' m') : Emitted E S S' m m' (ifElseItems ic ib ie) := by
  have hgr : S1.Grows S' := Static.Grows.trans { hb.grows with }
    { he.grows with }
  refine ⟨hK, hc.grows.trans hgr, fun hs => hc.safe (hb.safe (he.safe hs)), fun hs hsv => ?_⟩
  obtain ⟨hec, -, -⟩ := hc.code (fun ho => hb.safe (he.safe (hs ho))) hsv
  obtain ⟨heb, -, -⟩ := hb.code (fun ho => he.safe (hs ho)) (hr.saved (by decide) rfl)
  obtain ⟨hee, hsv5, hspc5⟩ := he.code hs (hr'.saved (by decide) rfl)
  have hpc1 := hec.pc
  have hpc2 := hr.pc
  have hpc3 := heb.pc
  have hpcp := hp.pc
  have hpc4 := hr'.pc
  have hpc5 := hee.pc
  have h : Grown E m m3 [.seg ic, .hole OPC_JEQ, .seg ib] := (hec.grown.trans hr.grown).trans heb.grown
  have h' := ((h.patch [.seg ic] hp hpc1).trans hr'.grown).trans hee.grown
  have hjmp : m5.code m3.pc = OPC_JMP := by
    rw [hpc3, hpc2, hpc1]
    exact h'.laid.2.2.2.1
  have h'' := h'.patch [.seg ic, .raw (Sdt.operand OPC_JEQ ((m3.pc : Int) - m1.pc)), .seg ib] hp' h.pc
  rw [show (m3.pc : Int) - m1.pc = (format E.opt).length ib + 2 by omega,
    show (m5.pc : Int) - 2 - m3.pc = (format E.opt).length ie by omega] at h''
  have hspc : E.opt = true → m5.spc = m3.pc ∨ m3.pc + 2 ≤ m5.spc := by
    intro ho
    have := hr'.spc ho
    have := hspc5 ho
    omega
  refine ⟨h''.emits (by simp [Format.extent, ifElseItems]) (holds_ifElseItems h''.laid),
    hsv5.patch hp' (by rw [hjmp]; decide) hspc, fun ho => .inr ?_⟩
  have := hspc ho
  rw [hp'.spc]
  omega

end

/-! ## `while` -/

section
variable {E : Env} {S S1 S2 S' : Static} {m m1 m2 m3 m4 m5 m' mp mq : Sdt} {c : Symtab.Core}
  {a0 a1 a2 a3 : Nat}

section
variable (hK : Knows S m)
include hK

theorem emitted_whileBegin (h : Action.opWhileBegin.run E m = .ok m') :
    Emitted E S S m m' [] ∧ m'.tab.core = m.tab.core.push (.wld m.pc 0) ∧ m'.pc = m.pc := by
  obtain ⟨hK', hc, h1, h2, h3⟩ := knows_push hK rfl (act_ok h)
  exact ⟨.silent hK' h1 h2 h3, hc, h2⟩

theorem knows_whileCond (hc : m.tab.core = c.push (.wld loop cond))
    (h : Action.opWhileCond.run E m = .ok m') :
    Knows S m' ∧ m'.tab.core = c.push (.wld loop m.pc) ∧ Reserves E OPC_JEQ m m' := by
  obtain ⟨t, hc', hK', h⟩ := knows_pop hK hc rfl (act_ok h) rfl
  obtain ⟨hK'', hc'', hr⟩ := knows_reserve (m := m) hK' rfl rfl rfl h
  exact ⟨hK'', by rw [hc'', hc'], hr⟩

theorem knows_whileEnd (hc : m.tab.core = c.push (.wld loop cond))
    (h : Action.opWhileEnd.run E m = .ok m') :
    Knows S m' ∧ m'.tab.core = c ∧ ∃ mp, Patches cond ((m.pc : Int) - cond) m mp ∧
      Jumps E ((loop : Int) - (m.pc + 2)) mp m' := by
  obtain ⟨t, hc', hK', h⟩ := knows_pop hK hc rfl (act_ok h) rfl
  dsimp only at h
  rw [Sdt.save_eq, Sdt.emits_eq] at h
  cases h
  exact ⟨hK'.alike ⟨rfl, rfl, rfl⟩, hc', (m.withTab t).patch cond ((m.pc : Int) - cond),
    ⟨rfl, rfl, rfl⟩, ⟨rfl, rfl, fun ho => if_pos ho⟩⟩

omit hK in
theorem emitted_while (hc : Emitted E S S1 m m1 ic) (hr : Reserves E OPC_JEQ m1 m2)
    (hb : Emitted E S1.plain S' m2 m3 ib) (hp : Patches m1.pc ((m3.pc : Int) - m1.pc) m3 mp)
    (hj : Jumps E ((m.pc : Int) - (m3.pc + 2)) mp m') (hK : Knows S' m') :
    Emitted E S S'.plain m m' (whileItems ic ib) := by
  refine ⟨hK.congr rfl, hc.grows.trans { hb.grows with },
    fun hs => hc.safe (hb.safe hs), fun hs hsv => ?_⟩
  obtain ⟨hec, -, -⟩ := hc.code (fun ho => hb.safe (hs ho)) hsv
  obtain ⟨heb, -, -⟩ := hb.code hs (hr.saved (by decide) rfl)
  have hpc1 := hec.pc
  have hpc2 := hr.pc
  have hpc3 := heb.pc
  have hpcp := hp.pc
  have h : Grown E m m3 [.seg ic, .hole OPC_JEQ, .seg ib] := (hec.grown.trans hr.grown).trans heb.grown
  have h' := (h.patch [.seg ic] hp hpc1).trans hj.grown
  rw [show (m3.pc : Int) - m1.pc = (format E.opt).length ib + 2 by omega,
    show (m.pc : Int) - (m3.pc + 2) =
      -((format E.opt).length ic + 2 + (format E.opt).length ib + 2) by omega] at h'
  refine ⟨h'.emits (by simp [Format.extent, whileItems]) (holds_whileItems h'.laid),
    hj.saved rfl, fun ho => .inr ?_⟩
  have := hj.spc ho
  omega

/-! ## `for` -/

theorem emitted_forInit (h : Action.opForInit.run E m = .ok m') :
    Emitted E S S m m' [] ∧ m'.tab.core = m.tab.core.push (.fld m.pc 0 0 0) ∧ m'.pc = m.pc := by
  obtain ⟨hK', hc, h1, h2, h3⟩ := knows_push hK rfl (act_ok h)
  exact ⟨.silent hK' h1 h2 h3, hc, h2⟩

section
variable (hc : m.tab.core = c.push (.fld a0 a1 a2 a3))
include hc

/-- `op_for_cond` reserves two jumps: out of the loop, and over the increments to the body. -/
theorem knows_forCond (h : Action.opForCond.run E m = .ok m') :
    Knows S m' ∧ m'.tab.core = c.push (.fld a0 m.pc (m.pc + 2) (m.pc + 4)) ∧
      ∃ mr, Grown E m mr [.hole OPC_JEQ] ∧ Reserves E OPC_JMP mr m' := by
  obtain ⟨t, hc', hK', h⟩ := knows_pop hK hc rfl (act_ok h) rfl
  dsimp only at h
  rw [Sdt.save_eq] at h
  obtain ⟨hK'', hc'', h1, h2, h3⟩ :=
    knows_push (S := S) (by exact hK'.alike ⟨rfl, rfl, rfl⟩) (by rfl) h
  refine ⟨hK'', hc''.trans (by rw [← hc']; rfl), (m.withTab t).reserve OPC_JEQ,
    grown_update rfl rfl, ⟨h1, h2, fun ho => ?_⟩⟩
  rw [h3]
  exact if_pos ho

theorem knows_forAfter (h : Action.opForAfter.run E m = .ok m') :
    Knows S m' ∧ m'.tab.core = c.push (.fld a0 a1 a2 a3) ∧
      ∃ mp, Patches a2 ((m.pc : Int) - a2) m mp ∧ Jumps E ((a0 : Int) - (m.pc + 2)) mp m' := by
  obtain ⟨t, hc', hK', h⟩ := knows_pop hK hc rfl (act_ok h) rfl
  dsimp only at h
  rw [Sdt.save_eq, Sdt.emits_eq] at h
  obtain ⟨hK'', hc'', h1, h2, h3⟩ :=
    knows_push (S := S) (by exact hK'.alike ⟨rfl, rfl, rfl⟩) (by rfl) h
  refine ⟨hK'', hc''.trans (by rw [← hc']; rfl), (m.withTab t).patch a2 ((m.pc : Int) - a2),
    ⟨rfl, rfl, rfl⟩, ⟨h1, h2, fun ho => ?_⟩⟩
  rw [h3]
  exact if_pos ho

theorem knows_forEnd (h : Action.opForEnd.run E m = .ok m') : Knows S m' ∧ m'.tab.core = c ∧
      ∃ mp, Patches a1 ((m.pc : Int) - a1) m mp ∧ Jumps E ((a3 : Int) - (m.pc + 2)) mp m' := by
  obtain ⟨t, hc', hK', h⟩ := knows_pop hK hc rfl (act_ok h) rfl
  dsimp only at h
  rw [Sdt.save_eq, Sdt.emits_eq] at h
  cases h
  exact ⟨hK'.alike ⟨rfl, rfl, rfl⟩, hc', (m.withTab t).patch a1 ((m.pc : Int) - a1),
    ⟨rfl, rfl, rfl⟩, ⟨rfl, rfl, fun ho => if_pos ho⟩⟩

end

omit hK in
theorem emitted_for {mr : Sdt} {ia : List Item} (hc : Emitted E S S1 m m1 ic)
    (hg : Grown E m1 mr [.hole OPC_JEQ]) (hr : Reserves E OPC_JMP mr m2)
    (ha : Emitted E S1.plain S2 m2 m3 ia)
    (hp : Patches (m1.pc + 2) ((m3.pc : Int) - (m1.pc + 2 : Nat)) m3 mp)
    (hj : Jumps E ((m.pc : Int) - (m3.pc + 2)) mp m4) (hb : Emitted E S2.plain S' m4 m5 ib)
    (hq : Patches m1.pc ((m5.pc : Int) - m1.pc) m5 mq)
    (hk : Jumps E (((m1.pc + 4 : Nat) : Int) - (m5.pc + 2)) mq m') (hK : Knows S' m') :
    Emitted E S S'.plain m m' (forItems ic ia ib) := by
  have hgr : S1.Grows S' := Static.Grows.trans { ha.grows with }
    { hb.grows with }
  refine ⟨hK.congr rfl, hc.grows.trans { hgr with },
    fun hs => hc.safe (ha.safe (hb.safe hs)), fun hs hsv => ?_⟩
  obtain ⟨hec, -, -⟩ := hc.code (fun ho => ha.safe (hb.safe (hs ho))) hsv
  obtain ⟨hea, -, -⟩ := ha.code (fun ho => hb.safe (hs ho)) (hr.saved (by decide) rfl)
  obtain ⟨heb, -, -⟩ := hb.code hs (hj.saved rfl)
  have hpc1 := hec.pc
  have hpc2 := hr.pc
  have hpc3 := hea.pc
  have hpcp := hp.pc
  have hpc4 := hj.pc
  have hpc5 := heb.pc
  have hpcq := hq.pc
  have hrp : mr.pc = m1.pc + 2 := hg.pc
  -- the jump over the increments is complete before the body, the one out of the loop after it
  have h : Grown E m m3 [.seg ic, .hole OPC_JEQ, .hole OPC_JMP, .seg ia] :=
    (hec.grown.trans hg).trans (hr.grown.trans hea.grown)
  have h' := ((h.patch [.seg ic, .hole OPC_JEQ] hp (by simp [Format.extent]; omega)).trans
    hj.grown).trans heb.grown
  have h'' := (h'.patch [.seg ic] hq hpc1).trans hk.grown
  rw [show (m5.pc : Int) - m1.pc =
      2 + (format E.opt).length ia + 2 + (format E.opt).length ib + 2 by omega,
    show (m3.pc : Int) - (m1.pc + 2 : Nat) = (format E.opt).length ia + 2 by omega,
    show (m.pc : Int) - (m3.pc + 2) =
      -((format E.opt).length ic + 4 + (format E.opt).length ia + 2) by omega,
    show ((m1.pc + 4 : Nat) : Int) - (m5.pc + 2) =
      -((format E.opt).length ia + 2 + (format E.opt).length ib + 2) by omega] at h''
  refine ⟨h''.emits (by simp [Format.extent, forItems]) (holds_forItems h''.laid),
    hk.saved rfl, fun ho => .inr ?_⟩
  have := hk.spc ho
  omega

/-! ## `try` -/

theorem knows_tryBegin (h : Action.opTryBegin.run E m = .ok m') :
    Knows S m' ∧ m'.tab.core = m.tab.core.push (.ref m.pc) ∧ Reserves E OPC_PUSHX m m' := by
  have h : (((m.save E).reserve OPC_PUSHX).tgtStackPush).symPush (.ref m.pc) = .ok m' := act_ok h
  rw [Sdt.save_eq] at h
  obtain ⟨hK', hc, h1, h2, h3⟩ :=
    knows_push (S := S) (by exact hK.alike ⟨rfl, rfl, rfl⟩) (by rfl) h
  refine ⟨hK', hc.trans rfl, ⟨h1, h2, fun ho => ?_⟩⟩
  rw [h3]
  exact if_pos ho

theorem knows_tryEnd (hc : m.tab.core = c.push (.ref a)) (h : Action.opTryEnd.run E m = .ok m') :
    Knows S m' ∧ m'.tab.core = c ∧ ∃ mj mp, Jumps E 1 m mj ∧
      Patches a ((m.pc + 2 : Nat) : Int) mj mp ∧ Grown E mp m' [.raw [OPC_XPT]] ∧
      m'.spc = mp.spc := by
  obtain ⟨t, hc', hK', h⟩ := knows_pop hK hc rfl (act_ok h) rfl
  dsimp only at h
  rw [Sdt.save_eq, Sdt.emits_eq, Sdt.emit_eq, Sdt.emits_eq] at h
  have he := Sdt.est_pop h
  rw [he]
  refine ⟨hK'.alike ⟨rfl, rfl, rfl⟩, hc', ((m.withTab t).save E).emits (Sdt.operand OPC_JMP 1),
    (((m.withTab t).save E).emits (Sdt.operand OPC_JMP 1)).patch a ((m.pc + 2 : Nat) : Int), ?_,
    ⟨rfl, rfl, rfl⟩, ?_, ?_⟩
  · rw [Sdt.save_eq, Sdt.emits_eq]
    exact ⟨rfl, rfl, fun ho => if_pos ho⟩
  · rw [Sdt.save_eq, Sdt.emits_eq]
    exact grown_write rfl rfl
  · rw [Sdt.save_eq, Sdt.emits_eq]
    rfl

theorem knows_catch (hc : m.tab.core = c.push (.ref a)) (h : Action.opCatch.run E m = .ok m') :
    Knows S m' ∧ m'.tab.core = c.push (.ref m.pc) ∧ ∃ mr, Reserves E OPC_JMP m mr ∧
      Patches a ((m.pc + 2 : Nat) : Int) mr m' := by
  obtain ⟨t, hc', hK', h⟩ := knows_pop hK hc rfl (act_ok h) rfl
  obtain ⟨mr, hr, h⟩ := exists_of_bind_ok h
  obtain ⟨hK'', hc'', hres⟩ := knows_reserve (m := m) hK' rfl rfl rfl hr
  cases h
  refine ⟨hK''.alike ⟨rfl, rfl, rfl⟩, ?_, mr, hres, ?_⟩
  · exact hc''.trans (by rw [hc'])
  · rw [hres.pc]
    exact ⟨rfl, rfl, rfl⟩

end

/-- Without a handler of its own a `try` statement raises the exception again. -/
theorem emitted_try {mj : Sdt} (hg : S.Grows S') (hr : Reserves E OPC_PUSHX m m1)
    (hb : Emitted E S.plain S' m1 m2 ib) (hj : Jumps E 1 m2 mj)
    (hp : Patches m.pc ((m2.pc + 2 : Nat) : Int) mj mp) (hx : Grown E mp m' [.raw [OPC_XPT]])
    (hspc : m'.spc = mp.spc) (hK : Knows S' m') : Emitted E S S'.plain m m' (tryItems ib) := by
  refine ⟨hK.congr rfl, { hg with }, hb.safe, fun hs _ => ?_⟩
  obtain ⟨heb, -, -⟩ := hb.code hs (hr.saved (by decide) rfl)
  have hpc1 := hr.pc
  have hpc2 := heb.pc
  have hpcj := hj.pc
  have hpcp := hp.pc
  have h : Grown E m mj [.hole OPC_PUSHX, .seg ib, .raw (Sdt.operand OPC_JMP 1)] :=
    (hr.grown.trans heb.grown).trans hj.grown
  have h' := (h.patch [] hp rfl).trans hx
  have hjst : Stores m'.code m2.pc (Sdt.operand OPC_JMP 1) := by
    rw [hpc2, hpc1]
    exact h'.laid.2.2.1
  rw [show m2.pc + 2 = m.pc + 2 + (format E.opt).length ib + 2 by omega] at h'
  have hs' : E.opt = true → m'.spc = m2.pc := fun ho => by rw [hspc, hp.spc, hj.spc ho]
  have hpc : m'.pc = mp.pc + 1 := hx.pc
  refine ⟨h'.emits (by simp [Format.extent, tryItems]) (holds_tryItems h'.laid),
    saved_instr rfl hjst (by omega) hs' (constOpc_operand (by decide)), fun ho => .inr ?_⟩
  have := hs' ho
  omega

/-- The body, the jump over the handler, the handler. -/
theorem emitted_tryCatch {mr : Sdt} {ih : List Item} (hg : S.Grows S')
    (hr : Reserves E OPC_PUSHX m m1) (hb : Emitted E S.plain S1 m1 m2 ib)
    (hr' : Reserves E OPC_JMP m2 mr) (hp : Patches m.pc ((m2.pc + 2 : Nat) : Int) mr m3)
    (hh : Emitted E S1.plain S' m3 m4 ih) (hp' : Patches m2.pc ((m4.pc : Int) - 2 - m2.pc) m4 m')
    (hK : Knows S' m') : Emitted E S S' m m' (tryCatchItems ib ih) := by
  refine ⟨hK, hg, fun hs => hb.safe (hh.safe hs), fun hs _ => ?_⟩
  have hs1 : E.opt = true → S1.safe = true := fun ho => hh.safe (hs ho)
  obtain ⟨heb, -, -⟩ := hb.code hs1 (hr.saved (by decide) rfl)
  have hpc1 := hr.pc
  have hpc2 := heb.pc
  have h : Grown E m mr [.hole OPC_PUSHX, .seg ib, .hole OPC_JMP] :=
    (hr.grown.trans heb.grown).trans hr'.grown
  have hsv3 : Saved E S1.plain m3 := by
    refine (hr'.saved (S := S1.plain) (by decide) rfl).patch hp ?_ fun ho => ?_
    · rw [show mr.code m.pc = OPC_PUSHX from h.laid.1]
      decide
    · have := hr'.spc ho
      exact .inr (by omega)
  obtain ⟨heh, hsv4, hspc4⟩ := hh.code hs hsv3
  have hpcr := hr'.pc
  have hpc3 := hp.pc
  have hpc4 := heh.pc
  have h' := (h.patch [] hp rfl).trans heh.grown
  have hjmp : m4.code m2.pc = OPC_JMP := by
    rw [hpc2, hpc1]
    exact h'.laid.2.2.1
  have h'' := h'.patch [.raw (Sdt.operand OPC_PUSHX ((m2.pc + 2 : Nat) : Int)), .seg ib] hp'
    (by simp [Format.extent]; omega)
  rw [show m2.pc + 2 = m.pc + 2 + (format E.opt).length ib + 2 by omega,
    show (m4.pc : Int) - 2 - m2.pc = (format E.opt).length ih by omega] at h''
  have hspc : E.opt = true → m4.spc = m2.pc ∨ m2.pc + 2 ≤ m4.spc := by
    intro ho
    have := hr'.spc ho
    have := hp.spc
    have := hspc4 ho
    omega
  refine ⟨h''.emits (by simp [Format.extent, tryCatchItems]) (holds_tryCatchItems h''.laid),
    hsv4.patch hp' (by rw [hjmp]; decide) hspc, fun ho => .inr ?_⟩
  have := hspc ho
  rw [hp'.spc]
  omega

end

end MicroJS
