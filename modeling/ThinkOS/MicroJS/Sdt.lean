import ThinkOS.MicroJS.Symtab

/-!
# MicroJS: the syntax-directed translator

The semantic actions of `microjs_sdt.c` and the compiler they are part of. `Env.opt` is
`MICROJS_OPTIMIZATION_ENABLED`. Code positions stay below the size of the code buffer, which the
compiler checks after every action; the other 16-bit counters wrap as in the source.
-/

namespace MicroJS

/-! ## Opcodes (`microjs-rt.h`) -/

def OPC_ABT : Byte := 0
def OPC_RET : Byte := 1
def OPC_XPT : Byte := 2
def OPC_POP : Byte := 3
def OPC_INV : Byte := 4
def OPC_NEG : Byte := 5
def OPC_I8 : Byte := 6
def OPC_I16 : Byte := 7
def OPC_I32 : Byte := 8
def OPC_EXT : Byte := 9
def OPC_INC : Byte := 10
def OPC_DEC : Byte := 11
def OPC_NOT : Byte := 12
def OPC_I4 : Byte := 0x10
def INTOP : Byte := 0x20
def OPC_ISP : Byte := 0x30
def OPC_LD : Byte := 0x40
def OPC_ST : Byte := 0x50
def OPC_PUSHX : Byte := 0x60
def OPC_JMP : Byte := 0x70
def OPC_JEQ : Byte := 0x80

/-- The binary integer operations, in the order of their opcodes from `INTOP` on. -/
inductive IntOp where
  | add | sub | mul | div | mod | asr | shl | or | and | xor | lt | gt | eq | ne | le | ge
  deriving DecidableEq

def IntOp.opc (o : IntOp) : Byte := INTOP + BitVec.ofNat 8 o.ctorIdx

/-! ## State -/

/-- What the compiler is configured with: the optimization switch, the library, the string pool
(its answer to `cstr_add` given the strings added before), the sizes of the code buffer and of the
parser's stack. -/
structure Env where
  opt : Bool
  lib : LibDef
  cstrAdd : List Name → Name → Int
  cdsz : Nat
  room : Nat

/-- `struct microjs_sdt`; the parser's stack and tokens are those of the parsing machine. -/
structure Sdt where
  tab : Symtab
  code : Nat → Byte
  pc : Nat
  spc : Nat
  stackPos : Nat
  dataPos : Nat
  strs : List Name

namespace Sdt

variable (E : Env) (m : Sdt)

/-! ### Target memory -/

/-- `data_alloc32`: the address, and the state after it. -/
def dataAlloc32 : Nat × Sdt :=
  let addr := (m.dataPos + 3) / 4 * 4
  let pos := (addr + 4) % 65536
  (addr, { m with dataPos := pos, tab := { m.tab with dataSz := max m.tab.dataSz pos } })

/-- `tgt_stack_push`. -/
def tgtStackPush : Sdt :=
  let pos := (m.stackPos + 4) % 65536
  { m with stackPos := pos, tab := { m.tab with stackSz := max m.tab.stackSz pos } }

/-- `tgt_stack_pop`. -/
def tgtStackPop : Except Err Sdt :=
  if m.stackPos = 0 then .error .stackUnderflow
  else .ok { m with stackPos := (m.stackPos + 65532) % 65536 }

/-- `tgt_stack_adjust`: `stack_sz` is left alone. -/
def tgtStackAdjust (cnt : Int) : Except Err Sdt :=
  let addr := (m.stackPos : Int) + cnt * 4
  if addr < 0 then .error .stackUnderflow
  else .ok { m with stackPos := addr.toNat % 65536 }

/-! ### Code generation -/

def emit (b : Byte) : Sdt :=
  { m with code := Function.update m.code m.pc b, pc := m.pc + 1 }

def emits (bs : List Byte) : Sdt := bs.foldl emit m

/-- `spc = pc`, in the optimizing compiler. -/
def save : Sdt := if E.opt then { m with spc := m.pc } else m

/-- Byte `i` of a word. -/
def byteOf (x : Word) (i : Nat) : Byte := (x >>> (8 * i)).setWidth 8

/-- The instruction that `encode_int` chooses. -/
def intBytes (x : Word) : List Byte :=
  if 0 ≤ x.toInt then
    if x.toInt < 32768 then
      if x.toInt < 128 then
        if x.toInt < 8 then [OPC_I4 + byteOf x 0] else [OPC_I8, byteOf x 0]
      else [OPC_I16, byteOf x 0, byteOf x 1]
    else [OPC_I32, byteOf x 0, byteOf x 1, byteOf x 2, byteOf x 3]
  else if -32768 ≤ x.toInt then
    if -128 ≤ x.toInt then
      if -8 ≤ x.toInt then [OPC_I4 + (byteOf x 0 &&& 0x0f)] else [OPC_I8, byteOf x 0]
    else [OPC_I16, byteOf x 0, byteOf x 1]
  else [OPC_I32, byteOf x 0, byteOf x 1, byteOf x 2, byteOf x 3]

/-- `encode_int`. -/
def encodeInt (x : Word) : Sdt := (m.save E).emits (intBytes x)

/-- `is_constant`: the value of the constant instruction at `p`. -/
def isConstant (code : Nat → Byte) (p : Nat) : Option Word :=
  let opc := code p
  if opc &&& 0xf0 = OPC_I4 then some ((opc.setWidth 4).signExtend 32)
  else if opc = OPC_I8 then some ((code (p + 1)).signExtend 32)
  else if opc = OPC_I16 then some ((code (p + 2) ++ code (p + 1)).signExtend 32)
  else if opc = OPC_I32 then some (code (p + 4) ++ code (p + 3) ++ code (p + 2) ++ code (p + 1))
  else none

/-- Two bytes with a 4-bit and an 8-bit part of an operand. -/
def operand (opc : Byte) (x : Int) : List Byte :=
  [opc + BitVec.ofInt 8 (x % 16), BitVec.ofInt 8 (x / 16)]

/-- An opcode whose operand is stored later. -/
def reserve (opc : Byte) : Sdt :=
  { m with code := Function.update m.code m.pc opc, pc := m.pc + 2 }

/-- Storing the operand at `a`. -/
def patch (a : Nat) (x : Int) : Sdt :=
  let low := Function.update m.code a (m.code a + BitVec.ofInt 8 (x % 16))
  { m with code := Function.update low (a + 1) (BitVec.ofInt 8 (x / 16)) }

def withTab (t : Symtab) : Sdt := { m with tab := t }

/-- Pushing a descriptor. -/
def symPush (e : Entry) : Except Err Sdt := (m.tab.push e).map m.withTab

/-! ### Names and scopes -/

/-- `op_push_tmp`. -/
def opPushTmp (tok : Token) (m : Sdt) : Except Err Sdt := m.symPush (.tmp tok.s)

/-- `op_pop_tmp`. -/
def opPopTmp : Except Err Sdt := m.tab.popTmp.map fun p => m.withTab p.2

/-- `op_blk_open`. -/
def opBlkOpen : Except Err Sdt := do
  let m ← m.symPush (.addr m.dataPos)
  m.tab.sfPush.map m.withTab

/-- `op_blk_close`. -/
def opBlkClose : Except Err Sdt := do
  let (pos, t) ← m.tab.sfPop.popAddr
  .ok { m with tab := t, dataPos := pos }

/-! ### Variables -/

/-- `op_var_decl`. -/
def opVarDecl (tok : Token) (m : Sdt) : Except Err Sdt :=
  if m.tab.objScopeLookup tok.s then .ok m
  else
    let (addr, m) := m.dataAlloc32
    (m.tab.objNew tok.s addr).map m.withTab

/-- The address field of a load or store. -/
def varField (o : Obj) : Int := ((o.addr / 4) % 4096 : Nat)

/-- `op_var_eval`. -/
def opVarEval : Except Err Sdt := do
  let (s, t) ← m.tab.popTmp
  match t.objLookup s with
  | none => .error .varUnknown
  | some o => .ok (((m.withTab t).save E).emits (operand OPC_LD (varField o))).tgtStackPush

/-- `op_var_assign`. -/
def opVarAssign : Except Err Sdt := do
  let (s, t) ← m.tab.popTmp
  match t.objLookup s with
  | none => .error .varUnknown
  | some o => (((m.withTab t).save E).emits (operand OPC_ST (varField o))).tgtStackPop

/-! ### Objects of the library -/

/-- An external call with `n` arguments. -/
def ext (xid n : Nat) : Sdt :=
  m.emits [OPC_EXT, BitVec.ofNat 8 xid, BitVec.ofNat 8 n]

/-- The external named by a temporary symbol. -/
def popExtern : Except Err (Nat × ExtDef × Sdt) := do
  let (s, t) ← m.tab.popTmp
  match E.lib.lookup s with
  | none => .error .externUnknown
  | some xid =>
    match E.lib.xdef[xid]? with
    | none => .error .externUnknown
    | some x => .ok (xid, x, m.withTab t)

/-- `op_object_get`. -/
def opObjectGet : Except Err Sdt := do
  let (xid, x, m) ← m.popExtern E
  if x.type ≠ .object then .error .externNotObject
  else if x.isArray then .error .externNotScalar
  else
    let m := if x.isSingleton then m.encodeInt E (BitVec.ofInt 32 x.inst) else m.ext xid 0
    m.tgtStackPush.symPush (.cld x.cdef)

/-- `op_array_xlat`. -/
def opArrayXlat : Except Err Sdt := do
  let (xid, x, m) ← m.popExtern E
  if x.type ≠ .object then .error .externNotObject
  else if !x.isArray then .error .externNotArray
  else
    let m :=
      if x.isSizeoffs then
        let m := if x.size > 1 then
          (m.encodeInt E (BitVec.ofNat 32 x.size)).emit (IntOp.mul.opc) else m
        if x.offs ≠ 0 then (m.encodeInt E (BitVec.ofInt 32 x.offs)).emit (IntOp.add.opc) else m
      else m.ext xid 1
    m.symPush (.cld x.cdef)

/-- `class_member_pop`. -/
def classMemberPop : Except Err (Nat × ExtDef × Sdt) := do
  let (s, t) ← m.tab.popTmp
  let (cid, t) ← t.popCld
  match E.lib.memberLookup cid s with
  | none => .error .externUnknown
  | some xid =>
    match E.lib.xdef[xid]? with
    | none => .error .externUnknown
    | some x => if !x.isMember then .error .externNotMember else .ok (xid, x, m.withTab t)

/-- The body shared by the reads and writes of an attribute: the checks of the member, the call
with `n` arguments and what it changes of the stack estimate. -/
def attrAccess (array write : Bool) (n : Nat) (m : Sdt) : Except Err Sdt := do
  let (xid, x, m) ← m.classMemberPop E
  if x.type ≠ .integer then .error .externNotInteger
  else if write && x.isReadonly then .error .externReadonly
  else if x.isArray && !array then .error .externNotScalar
  else if !x.isArray && array then .error .externNotArray
  else if write then (m.ext xid n).tgtStackAdjust (-n) else .ok (m.ext xid n)

/-- `op_attr_eval`. -/
def opAttrEval : Except Err Sdt := m.attrAccess E false false 1

/-- `op_array_eval`: the two values on the stack become one, which the estimate does not see. -/
def opArrayEval : Except Err Sdt := m.attrAccess E true false 2

/-- `op_attr_assign`. -/
def opAttrAssign : Except Err Sdt := m.attrAccess E false true 2

/-- `op_array_assign`. -/
def opArrayAssign : Except Err Sdt := m.attrAccess E true true 3

/-! ### Calls -/

/-- `op_method_lookup`. -/
def opMethodLookup : Except Err Sdt := do
  let (xid, x, m) ← m.classMemberPop E
  if x.type ≠ .function then .error .externNotFunction
  else m.symPush (.call ⟨xid, 1, x.argmin, x.argmax, x.ret⟩)

/-- `op_function_lookup`. -/
def opFunctionLookup : Except Err Sdt := do
  let (xid, x, m) ← m.popExtern E
  if x.type ≠ .function then .error .externNotFunction
  else m.symPush (.call ⟨xid, 0, x.argmin, x.argmax, x.ret⟩)

/-- `op_arg`: the count has 8 bits. -/
def opArg : Except Err Sdt := do
  let (c, t) ← m.tab.popCall
  (m.withTab t).symPush (.call { c with argcnt := (c.argcnt + 1) % 256 })

/-- `op_call`. -/
def opCall : Except Err Sdt := do
  let (c, t) ← m.tab.popCall
  if c.argcnt < c.argmin then .error .argMissing
  else if c.argcnt > c.argmax then .error .tooManyArgs
  else
    let m ← (((m.withTab t).save E).ext c.xid c.argcnt).tgtStackAdjust (c.retcnt - c.argcnt)
    m.symPush (.call c)

/-- Dropping `n` values from the target's stack. -/
def discard (n : Int) : Sdt :=
  if n > 0 then
    if n > 1 then (m.save E).emits [OPC_ISP, BitVec.ofInt 8 n] else (m.save E).emit OPC_POP
  else m

/-- `op_ret_discard`. -/
def opRetDiscard : Except Err Sdt := do
  let (c, t) ← m.tab.popCall
  ((m.withTab t).discard E c.retcnt).tgtStackAdjust (-c.retcnt)

/-- `op_call_ret`. -/
def opCallRet : Except Err Sdt := do
  let (c, t) ← m.tab.popCall
  if c.retcnt < 1 then .error .retCountMismatch
  else if c.retcnt - 1 > 0 then
    ((m.withTab t).discard E (c.retcnt - 1)).tgtStackAdjust (-(c.retcnt - 1))
  else .ok (m.withTab t)

/-! ### Operators -/

/-- An operator without a shortcut. -/
def opBin (o : IntOp) (m : Sdt) : Except Err Sdt := ((m.save E).emit o.opc).tgtStackPop

/-- Whether the instruction saved last is the constant `v`, in the optimizing compiler. -/
def constIs (v : Word) : Bool := E.opt && isConstant m.code m.spc == some v

/-- Back to the saved position. -/
def rollback : Sdt := { m with pc := m.spc }

/-- `op_equ`: the shortcut leaves the stack estimate as it is. -/
def opEqu : Except Err Sdt :=
  if m.constIs E 0 then .ok (m.rollback.emit OPC_NOT) else m.opBin E .eq

/-- `op_add`. -/
def opAdd : Except Err Sdt :=
  if m.constIs E 1 then (m.rollback.emit OPC_INC).tgtStackPop else m.opBin E .add

/-- `op_sub`. -/
def opSub : Except Err Sdt :=
  if m.constIs E 1 then (m.rollback.emit OPC_DEC).tgtStackPop else m.opBin E .sub

/-- `op_inv` and `op_not`. -/
def opUn (opc : Byte) (m : Sdt) : Except Err Sdt := .ok ((m.save E).emit opc)

/-- `op_minus`. -/
def opMinus : Except Err Sdt :=
  match E.opt, isConstant m.code m.spc with
  | true, some v => .ok (m.rollback.encodeInt E (-v))
  | _, _ => .ok ((m.save E).emit OPC_NEG)

/-! ### Constants -/

/-- `op_push_false` and `op_push_true`. -/
def opPushBool (b : Bool) (m : Sdt) : Except Err Sdt :=
  .ok ((m.save E).emit (OPC_I4 + if b then 1 else 0)).tgtStackPush

/-- `op_push_string`. -/
def opPushString (tok : Token) (m : Sdt) : Except Err Sdt :=
  let isz := E.cstrAdd m.strs tok.s
  if isz < 0 then .error (.strbuf isz)
  else
    let m := { m with strs := m.strs ++ [tok.s] }
    .ok ((m.save E).emits
      (if isz < 4 then [OPC_I4 + BitVec.ofInt 8 isz] else [OPC_I8, BitVec.ofInt 8 isz])).tgtStackPush

/-- `op_push_int`. -/
def opPushInt (tok : Token) (m : Sdt) : Except Err Sdt := .ok (m.encodeInt E tok.u32).tgtStackPush

/-! ### Exceptions -/

/-- `op_patch_ref`, which is `op_if_end` and `op_catch_end`. -/
def opPatchRef : Except Err Sdt := do
  let (a, t) ← m.tab.popRef
  .ok ((m.withTab t).patch a ((m.pc : Int) - 2 - a))

/-- `op_try_begin`. -/
def opTryBegin : Except Err Sdt :=
  (((m.save E).reserve OPC_PUSHX).tgtStackPush).symPush (.ref m.pc)

/-- `op_try_end`. -/
def opTryEnd : Except Err Sdt := do
  let (a, t) ← m.tab.popRef
  let m := ((m.withTab t).save E).emits (operand OPC_JMP 1)
  let m := m.patch a m.pc
  (m.emit OPC_XPT).tgtStackPop

/-- `op_catch`. -/
def opCatch : Except Err Sdt := do
  let (a, t) ← m.tab.popRef
  let pc := m.pc
  let m ← (((m.withTab t).save E).reserve OPC_JMP).symPush (.ref pc)
  .ok (m.patch a m.pc)

/-- `op_throw`. -/
def opThrow : Except Err Sdt := .ok ((m.save E).emit OPC_XPT)

/-! ### Conditionals and loops -/

/-- `op_if_cond`. -/
def opIfCond : Except Err Sdt := ((m.save E).reserve OPC_JEQ).symPush (.ref m.pc)

/-- `op_if_else`. -/
def opIfElse : Except Err Sdt := do
  let (a, t) ← m.tab.popRef
  let m := ((m.withTab t).save E).patch a ((m.pc : Int) - a)
  (m.reserve OPC_JMP).symPush (.ref m.pc)

/-- `op_while_begin`; the condition's position is stored by `op_while_cond`. -/
def opWhileBegin : Except Err Sdt := m.symPush (.wld m.pc 0)

/-- `op_while_cond`. -/
def opWhileCond : Except Err Sdt := do
  let ((loop, _), t) ← m.tab.popWld
  (((m.withTab t).save E).reserve OPC_JEQ).symPush (.wld loop m.pc)

/-- `op_while_end`. -/
def opWhileEnd : Except Err Sdt := do
  let ((loop, cond), t) ← m.tab.popWld
  let m := ((m.withTab t).patch cond ((m.pc : Int) - cond)).save E
  .ok (m.emits (operand OPC_JMP ((loop : Int) - (m.pc + 2))))

/-- `op_for_init`. -/
def opForInit : Except Err Sdt := m.symPush (.fld m.pc 0 0 0)

/-- `op_for_cond`. -/
def opForCond : Except Err Sdt := do
  let ((a0, _, _, _), t) ← m.tab.popFld
  let a1 := m.pc
  let m := ((m.withTab t).reserve OPC_JEQ).save E
  let a2 := m.pc
  let m := m.reserve OPC_JMP
  m.symPush (.fld a0 a1 a2 m.pc)

/-- `op_for_after`. -/
def opForAfter : Except Err Sdt := do
  let ((a0, a1, a2, a3), t) ← m.tab.popFld
  let m := ((m.withTab t).patch a2 ((m.pc : Int) - a2)).save E
  (m.emits (operand OPC_JMP ((a0 : Int) - (m.pc + 2)))).symPush (.fld a0 a1 a2 a3)

/-- `op_for_end`. -/
def opForEnd : Except Err Sdt := do
  let ((_, a1, _, a3), t) ← m.tab.popFld
  let m := ((m.withTab t).save E).patch a1 ((m.pc : Int) - a1)
  .ok (m.emits (operand OPC_JMP ((a3 : Int) - (m.pc + 2))))

/-! ## The compiler -/

/-- The table `op` of the actions. -/
def op (a : Action) (tok : Token) : Sdt → Except Err Sdt :=
  match a with
  | .opPushTmp => opPushTmp tok
  | .opPopTmp => opPopTmp
  | .opVarDecl => opVarDecl tok
  | .opVarEval => opVarEval E
  | .opVarAssign => opVarAssign E
  | .opArrayXlat => opArrayXlat E
  | .opObjectGet => opObjectGet E
  | .opAttrEval => opAttrEval E
  | .opArrayEval => opArrayEval E
  | .opAttrAssign => opAttrAssign E
  | .opArrayAssign => opArrayAssign E
  | .opMethodLookup => opMethodLookup E
  | .opFunctionLookup => opFunctionLookup E
  | .opArg => opArg
  | .opCall => opCall E
  | .opCallRet => opCallRet E
  | .opRetDiscard => opRetDiscard E
  | .opEqu => opEqu E
  | .opNeq => opBin E .ne
  | .opLt => opBin E .lt
  | .opGt => opBin E .gt
  | .opGte => opBin E .ge
  | .opLte => opBin E .le
  | .opShl => opBin E .shl
  | .opAsr => opBin E .asr
  | .opAdd => opAdd E
  | .opSub => opSub E
  | .opXor => opBin E .xor
  | .opOr => opBin E .or
  | .opMul => opBin E .mul
  | .opDiv => opBin E .div
  | .opMod => opBin E .mod
  | .opAnd => opBin E .and
  | .opInv => opUn E OPC_INV
  | .opNot => opUn E OPC_NOT
  | .opLogicAnd => opBin E .and
  | .opLogicOr => opBin E .or
  | .opMinus => opMinus E
  | .opPushInt => opPushInt E tok
  | .opPushTrue => opPushBool E true
  | .opPushFalse => opPushBool E false
  | .opWhileBegin => opWhileBegin
  | .opWhileCond => opWhileCond E
  | .opWhileEnd => opWhileEnd E
  | .opIfCond => opIfCond E
  | .opIfElse => opIfElse E
  | .opIfEnd => opPatchRef
  | .opForInit => opForInit
  | .opForCond => opForCond E
  | .opForAfter => opForAfter E
  | .opForEnd => opForEnd E
  | .opPushString => opPushString E tok
  | .opBlkOpen => opBlkOpen
  | .opBlkClose => opBlkClose
  | .opTryBegin => opTryBegin E
  | .opTryEnd => opTryEnd E
  | .opCatch => opCatch E
  | .opCatchEnd => opPatchRef
  | .opThrow => opThrow E

/-- An action, and the check of the code buffer after it. -/
def act (a : Action) (tok : Token) (m : Sdt) : Except Err Sdt :=
  match op E a tok m with
  | .error e => .error e
  | .ok m => if m.pc ≥ E.cdsz then .error .codeMemOverflow else .ok m

end Sdt

/-- The parsing machine of `microjs_compile`. -/
def parser (E : Env) : Predictive.Parser Term NonTerm Action Token (List Char) Sdt Err where
  typ := Token.typ
  next := lexerScan
  predict := microjsLlPush
  act := Sdt.act E
  unexpected := .unexpectedSymbol
  noRule t := if t = .eof then .unexpectedEof else .syntaxError
  overflow := .sdtStackOverflow
  room := E.room

/-- `microjs_compile`, for at most `n` turns of its loop. -/
def microjsCompile (E : Env) (n : Nat) (m : Sdt) (txt : List Char) : Option (Except Err Sdt) :=
  if txt.length = 0 then some (.ok m)
  else match lexerScan (lexerOpen txt) with
    | .error e => some (.error e)
    | .ok (look, lex) =>
      ((parser E).run n microjsLlStart ⟨{ typ := .eof }, look, lex, m⟩).map (Except.map fun f => f.st)

/-- `microjs_sdt_init` and `microjs_sdt_begin` with a new symbol table: the default exception handler
comes first, with the address that `microjs_sdt_end` stores. -/
def microjsSdtBegin (E : Env) (top : Nat) (code : Nat → Byte) : Except Err Sdt :=
  let m : Sdt :=
    { tab := Symtab.init top, code := code, pc := 0, spc := 0, stackPos := 0, dataPos := 0, strs := [] }
  (m.symPush (.ref 0)).map fun m => ((m.save E).reserve OPC_PUSHX).tgtStackPush

/-- `microjs_sdt_end`. -/
def microjsSdtEnd (E : Env) (m : Sdt) : Except Err Sdt := do
  if m.pc + 3 > E.cdsz then .error .codeMemOverflow
  else
    let m ← m.tgtStackPop
    let m := m.emits [OPC_POP, OPC_ABT]
    match m.tab.stack.getLast? with
    | some (.ref a) => .ok ((m.patch a m.pc).emit OPC_RET)
    | _ => .error .corrupt

/-- The three steps of a compilation, for at most `n` turns of the parser. -/
def compile (E : Env) (top : Nat) (code : Nat → Byte) (n : Nat) (txt : List Char) :
    Option (Except Err Sdt) :=
  match microjsSdtBegin E top code with
  | .error e => some (.error e)
  | .ok m => (microjsCompile E n m txt).map fun r => r.bind (microjsSdtEnd E)

end MicroJS
