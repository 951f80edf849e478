import ThinkOS.Lib.Segment
import ThinkOS.MicroJS.Tree

/-!
# MicroJS: relocatable code

The code of a tree as a list of items with relative jumps. The list is the same for the two
compilers that `MICROJS_OPTIMIZATION_ENABLED` selects: a literal keeps the minus signs before it and
an operation with a literal operand that has a shortcut is one item (`fuse`); what differs is the
format that stores the items. `Static` is what the translation of a tree knows at compile time.
-/

namespace MicroJS

open Segment

/-! ## Items -/

/-- A constant: a number, or the index of a string. -/
inductive Const where
  | int (v : Word)
  | idx (n : Nat)
  deriving DecidableEq

namespace Const

def bytes : Const → List Byte
  | .int v => Sdt.intBytes v
  | .idx n => if n < 4 then [OPC_I4 + BitVec.ofNat 8 n] else [OPC_I8, BitVec.ofNat 8 n]

/-- The value that the constant's instruction pushes. -/
def value : Const → Word
  | .int v => v
  | .idx n => if n < 4 then BitVec.ofNat 32 n else (BitVec.ofNat 8 n).signExtend 32

end Const

/-- `v` after `k` minus signs. -/
def negs (k : Nat) (v : Word) : Word := if k % 2 = 0 then v else -v

/-- An operation that has an instruction of its own for one constant as its right operand. -/
inductive Fuse where
  | inc | dec | isZero
  deriving DecidableEq

namespace Fuse

/-- The constant. -/
def operand : Fuse → Word
  | .inc | .dec => 1
  | .isZero => 0

def intOp : Fuse → IntOp
  | .inc => .add
  | .dec => .sub
  | .isZero => .eq

def opc : Fuse → Byte
  | .inc => OPC_INC
  | .dec => OPC_DEC
  | .isZero => OPC_NOT

end Fuse

inductive Item where
  /-- a constant with minus signs before it -/
  | lit (c : Const) (k : Nat)
  /-- an operation with such a constant -/
  | fuse (f : Fuse) (c : Const) (k : Nat)
  | ld (addr : Nat)
  | st (addr : Nat)
  | bin (o : IntOp)
  | un (o : UnOp)
  /-- a call with `n` arguments that returns `r` values -/
  | ext (xid n : Nat) (r : Int)
  | pop
  | isp (n : Int)
  | xpt
  | jmp (d : Int)
  | jeq (d : Int)
  /-- an exception frame; the jump is to its handler -/
  | pushx (d : Int)
  /-- the jump at the end of a `try` body, over the handler that comes next -/
  | leave (d : Int)
  /-- the end of the program, before the default handler -/
  | finish
  | ret
  deriving DecidableEq

namespace Item

def jump : Item → Option Int
  | .jmp d | .jeq d | .pushx d | .leave d => some d
  | _ => none

end Item

def UnOp.opc : UnOp → Byte
  | .inv => OPC_INV
  | .minus => OPC_NEG
  | .not => OPC_NOT

/-- The instructions for a constant with `k` minus signs. -/
def litBytes (opt : Bool) (c : Const) (k : Nat) : List Byte :=
  if opt then if k = 0 then c.bytes else Sdt.intBytes (negs k c.value)
  else c.bytes ++ List.replicate k OPC_NEG

/-- The bytes of an item at `a` whose jump goes to `t`. -/
def Item.bytes (opt : Bool) (it : Item) (a t : Nat) : List Byte :=
  match it with
  | .lit c k => litBytes opt c k
  | .fuse f c k => if opt then [f.opc] else litBytes opt c k ++ [f.intOp.opc]
  | .ld addr => Sdt.operand OPC_LD ((addr / 4 % 4096 : Nat) : Int)
  | .st addr => Sdt.operand OPC_ST ((addr / 4 % 4096 : Nat) : Int)
  | .bin o => [o.opc]
  | .un o => [o.opc]
  | .ext xid n _ => [OPC_EXT, BitVec.ofNat 8 xid, BitVec.ofNat 8 n]
  | .pop => [OPC_POP]
  | .isp n => [OPC_ISP, BitVec.ofInt 8 n]
  | .xpt => [OPC_XPT]
  | .jmp _ | .leave _ => Sdt.operand OPC_JMP ((t : Int) - (a + 2))
  | .jeq _ => Sdt.operand OPC_JEQ ((t : Int) - (a + 2))
  | .pushx _ => Sdt.operand OPC_PUSHX t
  | .finish => [OPC_POP, OPC_ABT]
  | .ret => [OPC_RET]

/-- No shortcut of the optimizer was taken for the item. -/
@[simp] def Item.plain : Item → Bool
  | .lit _ (_ + 1) | .fuse _ _ _ => false
  | _ => true

theorem Item.bytes_plain {it : Item} (h : it.plain = true) : it.bytes true = it.bytes false := by
  funext a t
  match it, h with
  | .lit c 0, _ => simp [Item.bytes, litBytes]
  | .ld _, _ | .st _, _ | .bin _, _ | .un _, _ | .ext _ _ _, _ | .pop, _ | .isp _, _ | .xpt, _
  | .jmp _, _ | .jeq _, _ | .pushx _, _ | .leave _, _ | .finish, _ | .ret, _ => rfl

/-- The format of the code, with or without `MICROJS_OPTIMIZATION_ENABLED`. -/
def format (opt : Bool) : Format Item Byte where
  size it := (it.bytes opt 0 0).length
  jump := Item.jump
  bytes := Item.bytes opt
  length_bytes it a t := by cases it <;> rfl

/-! ## What the translator knows -/

/-- The objects in scope with the positions of their records, the end of the records and where those
of the innermost scope start, the next data address, the strings so far; and for the optimizer the
literal at the saved position, with whether it is still the last instruction, and whether each
shortcut so far was taken for the last instruction. -/
structure Static where
  objs : List Obj
  bp : Nat
  base : Nat
  dataPos : Nat
  strs : List Name
  saved : Option (Const × Nat × Bool)
  safe : Bool

namespace Static

def init : Static :=
  { objs := [], bp := 0, base := 0, dataPos := 0, strs := [], saved := none, safe := true }

section
variable (S : Static)

def lookup (s : Name) : Option Nat :=
  (S.objs.find? fun o => o.nm == s).map Obj.addr

/-- After an instruction whose position is saved. -/
def plain : Static := { S with saved := none }

/-- After a literal. -/
def const (c : Const) (k : Nat) : Static := { S with saved := some (c, k, true) }

/-- After an instruction whose position is not saved. -/
def past : Static := { S with saved := S.saved.map fun p => (p.1, p.2.1, false) }

/-- At a shortcut for the constants that `f` selects. -/
def check (f : Word → Bool) : Static :=
  { S with safe := S.safe && S.saved.all fun p => !f (negs p.2.1 p.1.value) || p.2.2 }

/-- A new variable, unless the scope has it. -/
def declare (s : Name) : Static :=
  if S.objs.any fun o => S.base ≤ o.pos && o.nm == s then S
  else
    let addr := (S.dataPos + 3) / 4 * 4
    { S with objs := ⟨S.bp, s, addr⟩ :: S.objs, bp := S.bp + (6 + s.length + 1),
             dataPos := (addr + 4) % 65536 }

def openScope : Static := { S with base := S.bp }

end

/-- Back to the scope `S` from a scope inside. -/
def close (S S' : Static) : Static :=
  { S' with objs := S.objs, bp := S.bp, base := S.base, dataPos := S.dataPos }

end Static

/-! ## The items of a tree -/

def BinOp.intOp : BinOp → IntOp
  | .or | .logicOr => .or
  | .xor => .xor
  | .and | .logicAnd => .and
  | .lt => .lt | .gt => .gt | .equ => .eq | .neq => .ne | .gte => .ge | .lte => .le
  | .shl => .shl | .asr => .asr | .add => .add | .sub => .sub | .div => .div | .mod => .mod
  | .mul => .mul

def BinOp.fuse : BinOp → Option Fuse
  | .add => some .inc
  | .sub => some .dec
  | .equ => some .isZero
  | _ => none

/-- An operation after its operands. -/
def binItems (o : BinOp) (l r : List Item) : List Item :=
  match o.fuse, r with
  | some f, [.lit c k] =>
    if negs k c.value = f.operand then l ++ [.fuse f c k] else l ++ r ++ [.bin o.intOp]
  | _, _ => l ++ r ++ [.bin o.intOp]

/-- A unary operation after its operand, with the static state after it. -/
def unItems (o : UnOp) (is : List Item) (S : Static) : List Item × Static :=
  match o, is with
  | .minus, [.lit c k] => ([.lit c (k + 1)], (S.check fun _ => true).const c (k + 1))
  | .minus, is => (is ++ [.un .minus], (S.check fun _ => true).plain)
  | o, is => (is ++ [.un o], S.plain)

/-- Whether the shortcut of `o` is taken for the constant `v`. -/
def BinOp.folds (o : BinOp) (v : Word) : Bool := o.fuse.any fun f => v == f.operand

/-- Dropping `n` values. -/
def discardItems (n : Int) : List Item := if n > 0 then if n > 1 then [.isp n] else [.pop] else []

namespace LibDef

variable (L : LibDef)

/-- The external `s`, with its number. -/
def external (s : Name) : Option (Nat × ExtDef) :=
  (L.lookup s).bind fun i => (L.xdef[i]?).map fun x => (i, x)

/-- The member `s` of the class `cid`. -/
def member (cid : Nat) (s : Name) : Option (Nat × ExtDef) :=
  ((L.memberLookup cid s).bind fun i => (L.xdef[i]?).map fun x => (i, x)).filter fun p => p.2.isMember

/-- An attribute: a scalar or an array of integers. -/
def attr (array : Bool) (cid : Nat) (s : Name) : Option Nat :=
  ((L.member cid s).filter fun p => p.2.type = .integer ∧ p.2.isArray = array).map Prod.fst

/-- A function, with its number. -/
def function (s : Name) : Option (Nat × ExtDef) := (L.external s).filter fun p => p.2.type = .function

/-- A method. -/
def method (cid : Nat) (s : Name) : Option (Nat × ExtDef) :=
  (L.member cid s).filter fun p => p.2.type = .function

/-- An object or an array of objects. -/
def object (array : Bool) (s : Name) : Option (Nat × ExtDef) :=
  (L.external s).filter fun p => p.2.type = .object ∧ p.2.isArray = array

end LibDef

/-- The object of a name: a constant for a singleton, else a call. -/
def objectItems (xid : Nat) (x : ExtDef) (S : Static) : List Item × Static :=
  if x.isSingleton then
    ([.lit (.int (BitVec.ofInt 32 x.inst)) 0], S.const (.int (BitVec.ofInt 32 x.inst)) 0)
  else ([.ext xid 0 1], S.past)

/-- An index times `v`, or plus `v`. -/
def scaleItems (o : IntOp) (v : Word) (S : Static) : List Item × Static :=
  ([.lit (.int v) 0, .bin o], (S.const (.int v) 0).past)

/-- From an index to the object: by the size and the offset of the elements, else by a call. -/
def xlatItems (xid : Nat) (x : ExtDef) (S : Static) : List Item × Static :=
  if x.isSizeoffs then
    let p := if x.size > 1 then scaleItems .mul (BitVec.ofNat 32 x.size) S else ([], S)
    let q := if x.offs ≠ 0 then scaleItems .add (BitVec.ofInt 32 x.offs) p.2 else ([], p.2)
    (p.1 ++ q.1, q.2)
  else ([.ext xid 1 1], S.past)

/-- A call of `x` with `n` arguments. -/
def callItems (xid : Nat) (x : ExtDef) (n : Nat) : Option (List Item) :=
  if x.argmin ≤ n ∧ n ≤ x.argmax then some [.ext xid n x.ret] else none

section
variable (L : LibDef) (cstr : List Name → Name → Int)

def Args.length : Args → Nat
  | .nil => 0
  | .cons _ as => as.length + 1

mutual

def Exp.items : Exp → Static → Option (List Item × Static)
  | .int v, S => some ([.lit (.int v) 0], S.const (.int v) 0)
  | .char v, S => some ([.lit (.int v) 0], S.const (.int v) 0)
  | .str s, S =>
    let n := cstr S.strs s
    if n < 0 then none
    else some ([.lit (.idx n.toNat) 0], { S with strs := S.strs ++ [s] }.const (.idx n.toNat) 0)
  | .bool b, S =>
    let v : Word := if b then 1 else 0
    some ([.lit (.int v) 0], S.const (.int v) 0)
  | .var s, S => do
    let a ← S.lookup s
    some ([.ld a], S.plain)
  | .paren e, S => e.items S
  | .un o e, S => do
    let (is, S) ← e.items S
    some (unItems o is S)
  | .bin o l r, S => do
    let (il, S) ← l.items S
    let (ir, S) ← r.items S
    some (binItems o il ir, (S.check o.folds).plain)
  | .call s as, S => do
    let (xid, x) ← L.function s
    let (is, S) ← as.items S
    let call ← callItems xid x (as.length % 256)
    if x.ret < 1 then none else some (is ++ call ++ discardItems (x.ret - 1), S.plain)
  | .attr o s, S => do
    let (is, cid, S) ← o.items S
    let xid ← L.attr false cid s
    some (is ++ [.ext xid 1 1], S.past)
  | .elem o s i, S => do
    let (is, cid, S) ← o.items S
    let (ii, S) ← i.items S
    let xid ← L.attr true cid s
    some (is ++ ii ++ [.ext xid 2 1], S.past)
  | .method o s as, S => do
    let (is, cid, S) ← o.items S
    let (xid, x) ← L.method cid s
    let (ia, S) ← as.items S
    let call ← callItems xid x ((1 + as.length) % 256)
    if x.ret < 1 then none else some (is ++ ia ++ call ++ discardItems (x.ret - 1), S.plain)

/-- With the class of the object. -/
def Base.items : Base → Static → Option (List Item × Nat × Static)
  | .obj s, S => do
    let (xid, x) ← L.object false s
    let (is, S) := objectItems xid x S
    some (is, x.cdef, S)
  | .item s i, S => do
    let (ii, S) ← i.items S
    let (xid, x) ← L.object true s
    let (is, S) := xlatItems xid x S
    some (ii ++ is, x.cdef, S)

def Args.items : Args → Static → Option (List Item × Static)
  | .nil, S => some ([], S)
  | .cons e as, S => do
    let (is, S) ← e.items S
    let (ia, S) ← as.items S
    some (is ++ ia, S)

end

/-- A store. -/
def storeItems (s : Name) (S : Static) : Option (List Item × Static) :=
  (S.lookup s).map fun a => ([.st a], S.plain)

def Simple.items : Simple → Static → Option (List Item × Static)
  | .assign s e, S => do
    let (is, S) ← e.items L cstr S
    let (st, S) ← storeItems s S
    some (is ++ st, S)
  | .call s as, S => do
    let (xid, x) ← L.function s
    let (is, S) ← as.items L cstr S
    let call ← callItems xid x (as.length % 256)
    some (is ++ call ++ discardItems x.ret, S.plain)
  | .attr o s e, S => do
    let (is, cid, S) ← o.items L cstr S
    let (ie, S) ← e.items L cstr S
    let xid ← L.attr false cid s
    some (is ++ ie ++ [.ext xid 2 0], S.past)
  | .elem o s i e, S => do
    let (is, cid, S) ← o.items L cstr S
    let (ii, S) ← i.items L cstr S
    let (ie, S) ← e.items L cstr S
    let xid ← L.attr true cid s
    some (is ++ ii ++ ie ++ [.ext xid 3 0], S.past)
  | .method o s as, S => do
    let (is, cid, S) ← o.items L cstr S
    let (xid, x) ← L.method cid s
    let (ia, S) ← as.items L cstr S
    let call ← callItems xid x ((1 + as.length) % 256)
    some (is ++ ia ++ call ++ discardItems x.ret, S.plain)

def simpleItems : List Simple → Static → Option (List Item × Static)
  | [], S => some ([], S)
  | s :: ss, S => do
    let (is, S) ← s.items L cstr S
    let (iss, S) ← simpleItems ss S
    some (is ++ iss, S)

def varItems : Name × Option Exp → Static → Option (List Item × Static)
  | (s, none), S => some ([], S.declare s)
  | (s, some e), S => do
    let (is, S) ← e.items L cstr (S.declare s)
    let (st, S) ← storeItems s S
    some (is ++ st, S)

def varsItems : List (Name × Option Exp) → Static → Option (List Item × Static)
  | [], S => some ([], S)
  | v :: vs, S => do
    let (is, S) ← varItems L cstr v S
    let (iss, S) ← varsItems vs S
    some (is ++ iss, S)

def Semi.items : Semi → Static → Option (List Item × Static)
  | .throw_ e, S => do
    let (is, S) ← e.items L cstr S
    some (is ++ [.xpt], S.plain)
  | .vars v vs, S => varsItems L cstr (v :: vs) S
  | .simple s, S => s.items L cstr S

/-! The control statements; a distance counts the items between the jump and its target. -/

/-- `b`, unless the value of `c` is zero. -/
def ifItems (c b : List Item) : List Item := c ++ .jeq b.length :: b

def ifElseItems (c b e : List Item) : List Item := c ++ .jeq (b.length + 1) :: b ++ .jmp e.length :: e

def whileItems (c b : List Item) : List Item :=
  c ++ .jeq (b.length + 1) :: b ++ [.jmp (-(c.length + 1 + b.length + 1))]

/-- The increments stand before the body. -/
def forItems (c a b : List Item) : List Item :=
  c ++ .jeq (1 + a.length + 1 + b.length + 1) :: .jmp (a.length + 1) :: a ++
    .jmp (-(c.length + 2 + a.length + 1)) :: b ++ [.jmp (-(a.length + 1 + b.length + 1))]

def tryItems (b : List Item) : List Item := .pushx (b.length + 1) :: b ++ [.leave 1, .xpt]

def tryCatchItems (b h : List Item) : List Item :=
  .pushx (b.length + 1) :: b ++ .leave h.length :: h

mutual

def Stat.items : Stat → Static → Option (List Item × Static)
  | .for_ init cond after body, S => do
    let (ii, S) ← simpleItems L cstr init S
    let (ic, S) ← cond.items L cstr S
    let (ia, S) ← simpleItems L cstr after S.plain
    let (ib, S') ← body.items S.plain.openScope
    some (ii ++ forItems ic ia ib, (S.close S').plain)
  | .while_ cond body, S => do
    let (ic, S) ← cond.items L cstr S
    let (ib, S') ← body.items S.plain.openScope
    some (whileItems ic ib, (S.close S').plain)
  | .ifThen cond body, S => do
    let (ic, S) ← cond.items L cstr S
    let (ib, S') ← body.items S.plain.openScope
    some (ifItems ic ib, S.close S')
  | .ifElse cond body els, S => do
    let (ic, S) ← cond.items L cstr S
    let (ib, S') ← body.items S.plain.openScope
    let (ie, S') ← els.items (S.close S').plain.openScope
    some (ifElseItems ic ib ie, S.close S')
  | .try_ body, S => do
    let (ib, S') ← body.items S.plain.openScope
    some (tryItems ib, (S.close S').plain)
  | .tryCatch body s handler, S => do
    let (ib, S') ← body.items S.plain.openScope
    let (st, S') ← storeItems s ((S.close S').plain.openScope.declare s)
    let (ih, S') ← handler.items S'
    some (tryCatchItems ib (st ++ ih), S.close S')

def Block.items : Block → Static → Option (List Item × Static)
  | .nil, S => some ([], S)
  | .stat s b, S => do
    let (is, S) ← s.items S
    let (ib, S) ← b.items S
    some (is ++ ib, S)
  | .semi s b, S => do
    let (is, S) ← s.items L cstr S
    let (ib, S) ← b.items S
    some (is ++ ib, S)

end

def Program.items : Program → Static → Option (List Item × Static)
  | .eof, S => some ([], S)
  | .stat s p, S => do
    let (is, S) ← s.items L cstr S
    let (ip, S) ← p.items S
    some (is ++ ip, S)
  | .semi s p, S => do
    let (is, S) ← s.items L cstr S
    let (ip, S) ← p.items S
    some (is ++ ip, S)
  | .last s, S => s.items L cstr S
  | .block b p, S => do
    let (is, S') ← b.items L cstr S.openScope
    let (ip, S) ← p.items (S.close S')
    some (is ++ ip, S)

end

/-- The whole code: the default handler's frame, the program and its end. -/
def wholeItems (is : List Item) : List Item := .pushx (is.length + 1) :: is ++ [.finish, .ret]

end MicroJS
