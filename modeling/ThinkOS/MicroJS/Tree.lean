import ThinkOS.MicroJS.Sdt

/-!
# MicroJS: parse trees

The trees of `microjs.gr`, with their token sequences and the translation the grammar prescribes:
`emit` runs the actions in the order in which the rules place them. `Exp.Parsed` says which operator
trees the grammar allows. All binary operators are right-recursive there, so that the right operand
may be a tree of the same class and the left one may not.
-/

namespace MicroJS

/-- A token without a value. -/
def tk (t : Term) : Token := { typ := t }

def idTok (s : Name) : Token := { typ := .id, s := s }

inductive UnOp where
  | inv | minus | not
  deriving DecidableEq

inductive BinOp where
  | or | logicOr | xor | and | logicAnd | lt | gt | equ | neq | gte | lte | shl | asr | add | sub
  | div | mod | mul
  deriving DecidableEq

namespace UnOp

def term : UnOp → Term
  | .inv => .tilde
  | .minus => .minus
  | .not => .not

def action : UnOp → Action
  | .inv => .opInv
  | .minus => .opMinus
  | .not => .opNot

end UnOp

namespace BinOp

def term : BinOp → Term
  | .or => .bar | .logicOr => .logicor | .xor => .caret | .and => .ampersand
  | .logicAnd => .logicand | .lt => .lessthen | .gt => .greatthen | .equ => .equ | .neq => .neq
  | .gte => .gte | .lte => .lte | .shl => .shl | .asr => .asr | .add => .plus | .sub => .minus
  | .div => .slash | .mod => .percent | .mul => .star

def action : BinOp → Action
  | .or => .opOr | .logicOr => .opLogicOr | .xor => .opXor | .and => .opAnd
  | .logicAnd => .opLogicAnd | .lt => .opLt | .gt => .opGt | .equ => .opEqu | .neq => .opNeq
  | .gte => .opGte | .lte => .opLte | .shl => .opShl | .asr => .opAsr | .add => .opAdd
  | .sub => .opSub | .div => .opDiv | .mod => .opMod | .mul => .opMul

/-- The precedence class, from the loosest on: `exp`, `and_exp`, `relational_exp`, `shift_exp`,
`additive_exp`, `div_exp`, `mult_exp`. -/
def level : BinOp → Nat
  | .or | .logicOr | .xor => 0
  | .and | .logicAnd => 1
  | .lt | .gt | .equ | .neq | .gte | .lte => 2
  | .shl | .asr => 3
  | .add | .sub => 4
  | .div | .mod => 5
  | .mul => 6

end BinOp

mutual

/-- An expression. -/
inductive Exp where
  | int (v : Word)
  | char (v : Word)
  | str (s : Name)
  | bool (b : Bool)
  | var (s : Name)
  | paren (e : Exp)
  | un (o : UnOp) (e : Exp)
  | bin (o : BinOp) (l r : Exp)
  | call (s : Name) (as : Args)
  | attr (o : Base) (s : Name)
  | elem (o : Base) (s : Name) (i : Exp)
  | method (o : Base) (s : Name) (as : Args)

/-- An object of the library: named, or an element of a named array. -/
inductive Base where
  | obj (s : Name)
  | item (s : Name) (i : Exp)

/-- The arguments of a call. -/
inductive Args where
  | nil
  | cons (e : Exp) (as : Args)

end

/-- A statement that starts with an identifier. -/
inductive Simple where
  | assign (s : Name) (e : Exp)
  | call (s : Name) (as : Args)
  | attr (o : Base) (s : Name) (e : Exp)
  | elem (o : Base) (s : Name) (i e : Exp)
  | method (o : Base) (s : Name) (as : Args)

/-- A statement that ends with a semicolon. -/
inductive Semi where
  | throw_ (e : Exp)
  | vars (v : Name × Option Exp) (vs : List (Name × Option Exp))
  | simple (s : Simple)

mutual

inductive Stat where
  | for_ (init : List Simple) (cond : Exp) (after : List Simple) (body : Block)
  | while_ (cond : Exp) (body : Block)
  | ifThen (cond : Exp) (body : Block)
  | ifElse (cond : Exp) (body els : Block)
  | try_ (body : Block)
  | tryCatch (body : Block) (s : Name) (handler : Block)

/-- The statements between two braces. -/
inductive Block where
  | nil
  | stat (s : Stat) (b : Block)
  | semi (s : Semi) (b : Block)

end

/-- A program; the last semicolon may be missing. -/
inductive Program where
  | eof
  | stat (s : Stat) (p : Program)
  | semi (s : Semi) (p : Program)
  | last (s : Semi)
  | block (b : Block) (p : Program)

/-! ## Tokens -/

mutual

def Exp.tokens : Exp → List Token
  | .int v => [{ typ := .int, u32 := v }]
  | .char v => [{ typ := .char, u32 := v }]
  | .str s => [{ typ := .string, s := s }]
  | .bool b => [tk (if b then .true_ else .false_)]
  | .var s => [idTok s]
  | .paren e => tk .lparen :: e.tokens ++ [tk .rparen]
  | .un o e => tk o.term :: e.tokens
  | .bin o l r => l.tokens ++ tk o.term :: r.tokens
  | .call s as => idTok s :: tk .lparen :: as.tokens ++ [tk .rparen]
  | .attr o s => o.tokens ++ [idTok s]
  | .elem o s i => o.tokens ++ idTok s :: tk .lbracket :: i.tokens ++ [tk .rbracket]
  | .method o s as => o.tokens ++ idTok s :: tk .lparen :: as.tokens ++ [tk .rparen]

/-- With the dot that follows. -/
def Base.tokens : Base → List Token
  | .obj s => [idTok s, tk .dot]
  | .item s i => idTok s :: tk .lbracket :: i.tokens ++ [tk .rbracket, tk .dot]

def Args.tokens : Args → List Token
  | .nil => []
  | .cons e .nil => e.tokens
  | .cons e as => e.tokens ++ tk .comma :: as.tokens

end

def Simple.tokens : Simple → List Token
  | .assign s e => idTok s :: tk .equals :: e.tokens
  | .call s as => idTok s :: tk .lparen :: as.tokens ++ [tk .rparen]
  | .attr o s e => o.tokens ++ idTok s :: tk .equals :: e.tokens
  | .elem o s i e =>
    o.tokens ++ idTok s :: tk .lbracket :: i.tokens ++ tk .rbracket :: tk .equals :: e.tokens
  | .method o s as => o.tokens ++ idTok s :: tk .lparen :: as.tokens ++ [tk .rparen]

/-- A list of statements separated by commas. -/
def simpleTokens : List Simple → List Token
  | [] => []
  | [s] => s.tokens
  | s :: ss => s.tokens ++ tk .comma :: simpleTokens ss

def varTokens : Name × Option Exp → List Token
  | (s, none) => [idTok s]
  | (s, some e) => idTok s :: tk .equals :: e.tokens

def Semi.tokens : Semi → List Token
  | .throw_ e => tk .throw_ :: e.tokens
  | .vars v vs => tk .var_ :: varTokens v ++ vs.flatMap fun v => tk .comma :: varTokens v
  | .simple s => s.tokens

mutual

def Stat.tokens : Stat → List Token
  | .for_ init cond after body =>
    tk .for_ :: tk .lparen :: simpleTokens init ++ tk .semicolon :: cond.tokens ++
      tk .semicolon :: simpleTokens after ++ tk .rparen :: tk .lbrace :: body.tokens ++ [tk .rbrace]
  | .while_ cond body =>
    tk .while_ :: tk .lparen :: cond.tokens ++ tk .rparen :: tk .lbrace :: body.tokens ++ [tk .rbrace]
  | .ifThen cond body =>
    tk .if_ :: tk .lparen :: cond.tokens ++ tk .rparen :: tk .lbrace :: body.tokens ++ [tk .rbrace]
  | .ifElse cond body els =>
    tk .if_ :: tk .lparen :: cond.tokens ++ tk .rparen :: tk .lbrace :: body.tokens ++
      tk .rbrace :: tk .else_ :: tk .lbrace :: els.tokens ++ [tk .rbrace]
  | .try_ body => tk .try_ :: tk .lbrace :: body.tokens ++ [tk .rbrace]
  | .tryCatch body s handler =>
    tk .try_ :: tk .lbrace :: body.tokens ++ tk .rbrace :: tk .catch_ :: tk .lparen :: idTok s ::
      tk .rparen :: tk .lbrace :: handler.tokens ++ [tk .rbrace]

def Block.tokens : Block → List Token
  | .nil => []
  | .stat s b => s.tokens ++ b.tokens
  | .semi s b => s.tokens ++ tk .semicolon :: b.tokens

end

/-- With the end of the text. -/
def Program.tokens : Program → List Token
  | .eof => [tk .eof]
  | .stat s p => s.tokens ++ p.tokens
  | .semi s p => s.tokens ++ tk .semicolon :: p.tokens
  | .last s => s.tokens ++ [tk .eof]
  | .block b p => tk .lbrace :: b.tokens ++ tk .rbrace :: p.tokens

/-! ## The operator trees of the grammar -/

/-- The precedence class of an expression's top operator. -/
def Exp.level : Exp → Nat
  | .bin o _ _ => o.level
  | .un _ _ => 7
  | _ => 8

mutual

/-- The trees of the right-recursive rules: the left operand binds tighter than the operator. -/
def Exp.Parsed : Exp → Prop
  | .int _ | .char _ | .str _ | .bool _ | .var _ => True
  | .paren e => e.Parsed
  | .un _ e => e.Parsed ∧ 7 ≤ e.level
  | .bin o l r => l.Parsed ∧ r.Parsed ∧ o.level < l.level ∧ o.level ≤ r.level
  | .call _ as => as.Parsed
  | .attr o _ => o.Parsed
  | .elem o _ i => o.Parsed ∧ i.Parsed
  | .method o _ as => o.Parsed ∧ as.Parsed

def Base.Parsed : Base → Prop
  | .obj _ => True
  | .item _ i => i.Parsed

def Args.Parsed : Args → Prop
  | .nil => True
  | .cons e as => e.Parsed ∧ as.Parsed

end

def Simple.Parsed : Simple → Prop
  | .assign _ e => e.Parsed
  | .call _ as => as.Parsed
  | .attr o _ e => o.Parsed ∧ e.Parsed
  | .elem o _ i e => o.Parsed ∧ i.Parsed ∧ e.Parsed
  | .method o _ as => o.Parsed ∧ as.Parsed

def Semi.Parsed : Semi → Prop
  | .throw_ e => e.Parsed
  | .vars v vs => ∀ x ∈ v :: vs, ∀ e ∈ x.2, e.Parsed
  | .simple s => s.Parsed

mutual

def Stat.Parsed : Stat → Prop
  | .for_ init cond after body =>
    (∀ s ∈ init, s.Parsed) ∧ cond.Parsed ∧ (∀ s ∈ after, s.Parsed) ∧ body.Parsed
  | .while_ cond body => cond.Parsed ∧ body.Parsed
  | .ifThen cond body => cond.Parsed ∧ body.Parsed
  | .ifElse cond body els => cond.Parsed ∧ body.Parsed ∧ els.Parsed
  | .try_ body => body.Parsed
  | .tryCatch body _ handler => body.Parsed ∧ handler.Parsed

def Block.Parsed : Block → Prop
  | .nil => True
  | .stat s b => s.Parsed ∧ b.Parsed
  | .semi s b => s.Parsed ∧ b.Parsed

end

def Program.Parsed : Program → Prop
  | .eof => True
  | .stat s p => s.Parsed ∧ p.Parsed
  | .semi s p => s.Parsed ∧ p.Parsed
  | .last s => s.Parsed
  | .block b p => b.Parsed ∧ p.Parsed

/-! ## Translation -/

section
variable (E : Env)

/-- An action that reads no token. -/
def Action.run (a : Action) (m : Sdt) : Except Err Sdt := m.act E a (tk .eof)

/-- An action on the identifier `s`. -/
def Action.on (a : Action) (s : Name) (m : Sdt) : Except Err Sdt := m.act E a (idTok s)

mutual

def Exp.emit : Exp → Sdt → Except Err Sdt
  | .int v, m => m.act E .opPushInt { typ := .int, u32 := v }
  | .char v, m => m.act E .opPushInt { typ := .char, u32 := v }
  | .str s, m => m.act E .opPushString { typ := .string, s := s }
  | .bool b, m => (if b then Action.opPushTrue else .opPushFalse).run E m
  | .var s, m => do
    let m ← Action.opPushTmp.on E s m
    Action.opVarEval.run E m
  | .paren e, m => e.emit m
  | .un o e, m => do
    let m ← e.emit m
    o.action.run E m
  | .bin o l r, m => do
    let m ← l.emit m
    let m ← r.emit m
    o.action.run E m
  | .call s as, m => do
    let m ← Action.opPushTmp.on E s m
    let m ← Action.opFunctionLookup.run E m
    let m ← as.emit m
    let m ← Action.opCall.run E m
    Action.opCallRet.run E m
  | .attr o s, m => do
    let m ← o.emit m
    let m ← Action.opPushTmp.on E s m
    Action.opAttrEval.run E m
  | .elem o s i, m => do
    let m ← o.emit m
    let m ← Action.opPushTmp.on E s m
    let m ← i.emit m
    Action.opArrayEval.run E m
  | .method o s as, m => do
    let m ← o.emit m
    let m ← Action.opPushTmp.on E s m
    let m ← Action.opMethodLookup.run E m
    let m ← as.emit m
    let m ← Action.opCall.run E m
    Action.opCallRet.run E m

def Base.emit : Base → Sdt → Except Err Sdt
  | .obj s, m => do
    let m ← Action.opPushTmp.on E s m
    Action.opObjectGet.run E m
  | .item s i, m => do
    let m ← Action.opPushTmp.on E s m
    let m ← i.emit m
    Action.opArrayXlat.run E m

def Args.emit : Args → Sdt → Except Err Sdt
  | .nil, m => .ok m
  | .cons e as, m => do
    let m ← e.emit m
    let m ← Action.opArg.run E m
    as.emit m

end

def Simple.emit : Simple → Sdt → Except Err Sdt
  | .assign s e, m => do
    let m ← Action.opPushTmp.on E s m
    let m ← e.emit E m
    Action.opVarAssign.run E m
  | .call s as, m => do
    let m ← Action.opPushTmp.on E s m
    let m ← Action.opFunctionLookup.run E m
    let m ← as.emit E m
    let m ← Action.opCall.run E m
    Action.opRetDiscard.run E m
  | .attr o s e, m => do
    let m ← o.emit E m
    let m ← Action.opPushTmp.on E s m
    let m ← e.emit E m
    Action.opAttrAssign.run E m
  | .elem o s i e, m => do
    let m ← o.emit E m
    let m ← Action.opPushTmp.on E s m
    let m ← i.emit E m
    let m ← e.emit E m
    Action.opArrayAssign.run E m
  | .method o s as, m => do
    let m ← o.emit E m
    let m ← Action.opPushTmp.on E s m
    let m ← Action.opMethodLookup.run E m
    let m ← as.emit E m
    let m ← Action.opCall.run E m
    Action.opRetDiscard.run E m

def simpleEmit : List Simple → Sdt → Except Err Sdt
  | [], m => .ok m
  | s :: ss, m => do
    let m ← s.emit E m
    simpleEmit ss m

def varEmit : Name × Option Exp → Sdt → Except Err Sdt
  | (s, none), m => do
    let m ← Action.opVarDecl.on E s m
    let m ← Action.opPushTmp.on E s m
    Action.opPopTmp.run E m
  | (s, some e), m => do
    let m ← Action.opVarDecl.on E s m
    let m ← Action.opPushTmp.on E s m
    let m ← e.emit E m
    Action.opVarAssign.run E m

def varsEmit : List (Name × Option Exp) → Sdt → Except Err Sdt
  | [], m => .ok m
  | v :: vs, m => do
    let m ← varEmit E v m
    varsEmit vs m

def Semi.emit : Semi → Sdt → Except Err Sdt
  | .throw_ e, m => do
    let m ← e.emit E m
    Action.opThrow.run E m
  | .vars v vs, m => varsEmit E (v :: vs) m
  | .simple s, m => s.emit E m

mutual

def Stat.emit : Stat → Sdt → Except Err Sdt
  | .for_ init cond after body, m => do
    let m ← simpleEmit E init m
    let m ← Action.opForInit.run E m
    let m ← cond.emit E m
    let m ← Action.opForCond.run E m
    let m ← simpleEmit E after m
    let m ← Action.opForAfter.run E m
    let m ← Action.opBlkOpen.run E m
    let m ← body.emit m
    let m ← Action.opBlkClose.run E m
    Action.opForEnd.run E m
  | .while_ cond body, m => do
    let m ← Action.opWhileBegin.run E m
    let m ← cond.emit E m
    let m ← Action.opWhileCond.run E m
    let m ← Action.opBlkOpen.run E m
    let m ← body.emit m
    let m ← Action.opBlkClose.run E m
    Action.opWhileEnd.run E m
  | .ifThen cond body, m => do
    let m ← cond.emit E m
    let m ← Action.opIfCond.run E m
    let m ← Action.opBlkOpen.run E m
    let m ← body.emit m
    let m ← Action.opBlkClose.run E m
    Action.opIfEnd.run E m
  | .ifElse cond body els, m => do
    let m ← cond.emit E m
    let m ← Action.opIfCond.run E m
    let m ← Action.opBlkOpen.run E m
    let m ← body.emit m
    let m ← Action.opBlkClose.run E m
    let m ← Action.opIfElse.run E m
    let m ← Action.opBlkOpen.run E m
    let m ← els.emit m
    let m ← Action.opBlkClose.run E m
    Action.opIfEnd.run E m
  | .try_ body, m => do
    let m ← Action.opTryBegin.run E m
    let m ← Action.opBlkOpen.run E m
    let m ← body.emit m
    let m ← Action.opBlkClose.run E m
    Action.opTryEnd.run E m
  | .tryCatch body s handler, m => do
    let m ← Action.opTryBegin.run E m
    let m ← Action.opBlkOpen.run E m
    let m ← body.emit m
    let m ← Action.opBlkClose.run E m
    let m ← Action.opCatch.run E m
    let m ← Action.opBlkOpen.run E m
    let m ← Action.opVarDecl.on E s m
    let m ← Action.opPushTmp.on E s m
    let m ← Action.opVarAssign.run E m
    let m ← handler.emit m
    let m ← Action.opBlkClose.run E m
    Action.opCatchEnd.run E m

def Block.emit : Block → Sdt → Except Err Sdt
  | .nil, m => .ok m
  | .stat s b, m => do
    let m ← s.emit m
    b.emit m
  | .semi s b, m => do
    let m ← s.emit E m
    b.emit m

end

def Program.emit : Program → Sdt → Except Err Sdt
  | .eof, m => .ok m
  | .stat s p, m => do
    let m ← s.emit E m
    p.emit m
  | .semi s p, m => do
    let m ← s.emit E m
    p.emit m
  | .last s, m => s.emit E m
  | .block b p, m => do
    let m ← Action.opBlkOpen.run E m
    let m ← b.emit E m
    let m ← Action.opBlkClose.run E m
    p.emit m

end

end MicroJS
