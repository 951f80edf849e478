import ThinkOS.Lib.Predictive

/-!
# MicroJS: the LL(1) tables

The symbols and tables of `microjs_ll.h` and `microjs_ll.c`. Terminals, nonterminals and semantic
actions keep the header's names and order; `predictVec` and `ruleVec` are the predict sets and the
rules, and `microjsLlPush` selects a rule with the source's binary search.
-/

namespace MicroJS

/-- The terminals `T_…`, in the order of their numbers. -/
inductive Term where
  | eof | dot | comma | semicolon | colon | plus | minus | star | slash | percent | ampersand
  | bar | caret | tilde | exclam | quest | equals | lessthen | greatthen | lbracket | rbracket
  | lparen | rparen | lbrace | rbrace | gte | lte | equ | neq | asr | shl | logicor | logicand
  | catch_ | else_ | false_ | for_ | if_ | throw_ | true_ | try_ | var_ | while_ | id | int
  | char | string | err | not
  deriving DecidableEq

/-- The nonterminals `N_…`. -/
inductive NonTerm where
  | program | stat | semiStat | semiList | compoundStat | varList | var_ | varList1
  | varAssignOpt | exp | assignOrCall1 | functionCall | attrAssign | attrAssign2 | methodCall
  | argListOpt | argList | argList1 | expLstOpt | expLst | expLst1 | andExp | orExp
  | relationalExp | andExp1 | shiftExp | relationalExp1 | additiveExp | shiftExp1 | divExp
  | additiveExp1 | multExp | divExp1 | unaryExp | multExp1 | primaryExp | idEval | idEval1
  | attrEval | attrEval1 | statList | condition | elseOpt | catchOpt
  deriving DecidableEq

/-- The semantic actions `A_OP_…`. -/
inductive Action where
  | opVarDecl | opPushTmp | opPopTmp | opVarAssign | opRetDiscard | opArrayXlat | opObjectGet
  | opAttrAssign | opArrayAssign | opMethodLookup | opCall | opFunctionLookup | opArg | opOr
  | opLogicOr | opXor | opAnd | opLogicAnd | opLt | opGt | opEqu | opNeq | opGte | opLte | opShl
  | opAsr | opAdd | opSub | opDiv | opMod | opMul | opInv | opMinus | opNot | opPushInt
  | opPushString | opPushTrue | opPushFalse | opVarEval | opCallRet | opAttrEval | opArrayEval
  | opBlkOpen | opBlkClose | opForInit | opForCond | opForAfter | opForEnd | opWhileBegin
  | opWhileCond | opWhileEnd | opIfCond | opIfEnd | opTryBegin | opThrow | opIfElse | opTryEnd
  | opCatch | opCatchEnd
  deriving DecidableEq

/-- The number of a terminal in `microjs_ll.h`. -/
def Term.num (t : Term) : Nat := t.ctorIdx

abbrev Symbol := Predictive.Sym Term NonTerm Action

/-- The predict set of a rule that begins with an operand. -/
def operandVec (rule : Nat) : List (Term × Nat) :=
  [.minus, .tilde, .lparen, .false_, .true_, .id, .int, .char, .string, .not].map fun t => (t, rule)

/-- The predict sets: for each nonterminal the lookahead tokens and their rules, by token number. -/
def predictVec : NonTerm → List (Term × Nat)
  | .program => [
      (.eof, 0), (.lbrace, 3), (.for_, 1), (.if_, 1), (.throw_, 2), (.try_, 1), (.var_, 2),
      (.while_, 1), (.id, 2)]
  | .stat => [(.for_, 88), (.if_, 90), (.try_, 91), (.while_, 89)]
  | .semiStat => [(.throw_, 93), (.var_, 94), (.id, 95)]
  | .semiList => [(.eof, 4), (.semicolon, 5)]
  | .compoundStat => [(.lbrace, 84)]
  | .varList => [(.id, 6)]
  | .var_ => [(.id, 9)]
  | .varList1 => [(.eof, 7), (.comma, 8), (.semicolon, 7)]
  | .varAssignOpt => [(.eof, 10), (.comma, 10), (.semicolon, 10), (.equals, 11)]
  | .exp => operandVec 32
  | .assignOrCall1 => [(.dot, 15), (.equals, 12), (.lbracket, 14), (.lparen, 13)]
  | .functionCall => [(.lparen, 21)]
  | .attrAssign => [(.id, 16)]
  | .attrAssign2 => [(.equals, 17), (.lbracket, 18), (.lparen, 19)]
  | .methodCall => [(.lparen, 20)]
  | .argListOpt => [
      (.minus, 23), (.tilde, 23), (.lparen, 23), (.rparen, 22), (.false_, 23), (.true_, 23),
      (.id, 23), (.int, 23), (.char, 23), (.string, 23), (.not, 23)]
  | .argList => operandVec 24
  | .argList1 => [(.comma, 26), (.rparen, 25)]
  | .expLstOpt => [(.semicolon, 27), (.rparen, 27), (.id, 28)]
  | .expLst => [(.id, 29)]
  | .expLst1 => [(.comma, 31), (.semicolon, 30), (.rparen, 30)]
  | .andExp => operandVec 37
  | .orExp => [
      (.eof, 33), (.comma, 33), (.semicolon, 33), (.bar, 34), (.caret, 36), (.rbracket, 33),
      (.rparen, 33), (.logicor, 35)]
  | .relationalExp => operandVec 41
  | .andExp1 => [
      (.eof, 38), (.comma, 38), (.semicolon, 38), (.ampersand, 39), (.bar, 38), (.caret, 38),
      (.rbracket, 38), (.rparen, 38), (.logicor, 38), (.logicand, 40)]
  | .shiftExp => operandVec 49
  | .relationalExp1 => [
      (.eof, 42), (.comma, 42), (.semicolon, 42), (.ampersand, 42), (.bar, 42), (.caret, 42),
      (.lessthen, 43), (.greatthen, 44), (.rbracket, 42), (.rparen, 42), (.gte, 47), (.lte, 48),
      (.equ, 45), (.neq, 46), (.logicor, 42), (.logicand, 42)]
  | .additiveExp => operandVec 53
  | .shiftExp1 => [
      (.eof, 50), (.comma, 50), (.semicolon, 50), (.ampersand, 50), (.bar, 50), (.caret, 50),
      (.lessthen, 50), (.greatthen, 50), (.rbracket, 50), (.rparen, 50), (.gte, 50), (.lte, 50),
      (.equ, 50), (.neq, 50), (.asr, 52), (.shl, 51), (.logicor, 50), (.logicand, 50)]
  | .divExp => operandVec 57
  | .additiveExp1 => [
      (.eof, 54), (.comma, 54), (.semicolon, 54), (.plus, 55), (.minus, 56), (.ampersand, 54),
      (.bar, 54), (.caret, 54), (.lessthen, 54), (.greatthen, 54), (.rbracket, 54),
      (.rparen, 54), (.gte, 54), (.lte, 54), (.equ, 54), (.neq, 54), (.asr, 54), (.shl, 54),
      (.logicor, 54), (.logicand, 54)]
  | .multExp => operandVec 61
  | .divExp1 => [
      (.eof, 58), (.comma, 58), (.semicolon, 58), (.plus, 58), (.minus, 58), (.slash, 59),
      (.percent, 60), (.ampersand, 58), (.bar, 58), (.caret, 58), (.lessthen, 58),
      (.greatthen, 58), (.rbracket, 58), (.rparen, 58), (.gte, 58), (.lte, 58), (.equ, 58),
      (.neq, 58), (.asr, 58), (.shl, 58), (.logicor, 58), (.logicand, 58)]
  | .unaryExp => [
      (.minus, 66), (.tilde, 65), (.lparen, 64), (.false_, 64), (.true_, 64), (.id, 64),
      (.int, 64), (.char, 64), (.string, 64), (.not, 67)]
  | .multExp1 => [
      (.eof, 62), (.comma, 62), (.semicolon, 62), (.plus, 62), (.minus, 62), (.star, 63),
      (.slash, 62), (.percent, 62), (.ampersand, 62), (.bar, 62), (.caret, 62), (.lessthen, 62),
      (.greatthen, 62), (.rbracket, 62), (.rparen, 62), (.gte, 62), (.lte, 62), (.equ, 62),
      (.neq, 62), (.asr, 62), (.shl, 62), (.logicor, 62), (.logicand, 62)]
  | .primaryExp => [
      (.lparen, 68), (.false_, 73), (.true_, 72), (.id, 74), (.int, 69), (.char, 70),
      (.string, 71)]
  | .idEval => [(.id, 75)]
  | .idEval1 => [
      (.eof, 76), (.dot, 79), (.comma, 76), (.semicolon, 76), (.plus, 76), (.minus, 76),
      (.star, 76), (.slash, 76), (.percent, 76), (.ampersand, 76), (.bar, 76), (.caret, 76),
      (.lessthen, 76), (.greatthen, 76), (.lbracket, 78), (.rbracket, 76), (.lparen, 77),
      (.rparen, 76), (.gte, 76), (.lte, 76), (.equ, 76), (.neq, 76), (.asr, 76), (.shl, 76),
      (.logicor, 76), (.logicand, 76)]
  | .attrEval => [(.id, 80)]
  | .attrEval1 => [
      (.eof, 81), (.comma, 81), (.semicolon, 81), (.plus, 81), (.minus, 81), (.star, 81),
      (.slash, 81), (.percent, 81), (.ampersand, 81), (.bar, 81), (.caret, 81), (.lessthen, 81),
      (.greatthen, 81), (.lbracket, 83), (.rbracket, 81), (.lparen, 82), (.rparen, 81),
      (.gte, 81), (.lte, 81), (.equ, 81), (.neq, 81), (.asr, 81), (.shl, 81), (.logicor, 81),
      (.logicand, 81)]
  | .statList => [
      (.rbrace, 85), (.for_, 86), (.if_, 86), (.throw_, 87), (.try_, 86), (.var_, 87),
      (.while_, 86), (.id, 87)]
  | .condition => [(.lparen, 92)]
  | .elseOpt => [
      (.eof, 96), (.lbrace, 96), (.rbrace, 96), (.else_, 97), (.for_, 96), (.if_, 96),
      (.throw_, 96), (.try_, 96), (.var_, 96), (.while_, 96), (.id, 96)]
  | .catchOpt => [
      (.eof, 98), (.lbrace, 98), (.rbrace, 98), (.catch_, 99), (.for_, 98), (.if_, 98),
      (.throw_, 98), (.try_, 98), (.var_, 98), (.while_, 98), (.id, 98)]

/-- The rules, by number. -/
def ruleVec : List (List Symbol) := [
  [.t .eof],
  [.n .stat, .n .program],
  [.n .semiStat, .n .semiList],
  [.n .compoundStat, .n .program],
  [.t .eof],
  [.t .semicolon, .n .program],
  [.n .var_, .n .varList1],
  [],
  [.t .comma, .n .varList],
  [.t .id, .a .opVarDecl, .a .opPushTmp, .n .varAssignOpt],
  [.a .opPopTmp],
  [.t .equals, .n .exp, .a .opVarAssign],
  [.t .equals, .n .exp, .a .opVarAssign],
  [.n .functionCall, .a .opRetDiscard],
  [.t .lbracket, .n .exp, .t .rbracket, .a .opArrayXlat, .t .dot, .n .attrAssign],
  [.t .dot, .a .opObjectGet, .n .attrAssign],
  [.t .id, .a .opPushTmp, .n .attrAssign2],
  [.t .equals, .n .exp, .a .opAttrAssign],
  [.t .lbracket, .n .exp, .t .rbracket, .t .equals, .n .exp, .a .opArrayAssign],
  [.n .methodCall, .a .opRetDiscard],
  [.a .opMethodLookup, .t .lparen, .n .argListOpt, .t .rparen, .a .opCall],
  [.a .opFunctionLookup, .t .lparen, .n .argListOpt, .t .rparen, .a .opCall],
  [],
  [.n .argList],
  [.n .exp, .a .opArg, .n .argList1],
  [],
  [.t .comma, .n .argList],
  [],
  [.n .expLst],
  [.t .id, .a .opPushTmp, .n .assignOrCall1, .n .expLst1],
  [],
  [.t .comma, .n .expLst],
  [.n .andExp, .n .orExp],
  [],
  [.t .bar, .n .exp, .a .opOr],
  [.t .logicor, .n .exp, .a .opLogicOr],
  [.t .caret, .n .exp, .a .opXor],
  [.n .relationalExp, .n .andExp1],
  [],
  [.t .ampersand, .n .andExp, .a .opAnd],
  [.t .logicand, .n .andExp, .a .opLogicAnd],
  [.n .shiftExp, .n .relationalExp1],
  [],
  [.t .lessthen, .n .relationalExp, .a .opLt],
  [.t .greatthen, .n .relationalExp, .a .opGt],
  [.t .equ, .n .relationalExp, .a .opEqu],
  [.t .neq, .n .relationalExp, .a .opNeq],
  [.t .gte, .n .relationalExp, .a .opGte],
  [.t .lte, .n .relationalExp, .a .opLte],
  [.n .additiveExp, .n .shiftExp1],
  [],
  [.t .shl, .n .shiftExp, .a .opShl],
  [.t .asr, .n .shiftExp, .a .opAsr],
  [.n .divExp, .n .additiveExp1],
  [],
  [.t .plus, .n .additiveExp, .a .opAdd],
  [.t .minus, .n .additiveExp, .a .opSub],
  [.n .multExp, .n .divExp1],
  [],
  [.t .slash, .n .divExp, .a .opDiv],
  [.t .percent, .n .divExp, .a .opMod],
  [.n .unaryExp, .n .multExp1],
  [],
  [.t .star, .n .multExp, .a .opMul],
  [.n .primaryExp],
  [.t .tilde, .n .unaryExp, .a .opInv],
  [.t .minus, .n .unaryExp, .a .opMinus],
  [.t .not, .n .unaryExp, .a .opNot],
  [.t .lparen, .n .exp, .t .rparen],
  [.t .int, .a .opPushInt],
  [.t .char, .a .opPushInt],
  [.t .string, .a .opPushString],
  [.t .true_, .a .opPushTrue],
  [.t .false_, .a .opPushFalse],
  [.n .idEval],
  [.t .id, .a .opPushTmp, .n .idEval1],
  [.a .opVarEval],
  [.n .functionCall, .a .opCallRet],
  [.t .lbracket, .n .exp, .t .rbracket, .a .opArrayXlat, .t .dot, .n .attrEval],
  [.t .dot, .a .opObjectGet, .n .attrEval],
  [.t .id, .a .opPushTmp, .n .attrEval1],
  [.a .opAttrEval],
  [.n .methodCall, .a .opCallRet],
  [.t .lbracket, .n .exp, .t .rbracket, .a .opArrayEval],
  [.t .lbrace, .a .opBlkOpen, .n .statList, .t .rbrace, .a .opBlkClose],
  [],
  [.n .stat, .n .statList],
  [.n .semiStat, .t .semicolon, .n .statList],
  [.t .for_, .t .lparen, .n .expLstOpt, .t .semicolon, .a .opForInit, .n .exp, .a .opForCond,
    .t .semicolon, .n .expLstOpt, .a .opForAfter, .t .rparen, .n .compoundStat, .a .opForEnd],
  [.t .while_, .a .opWhileBegin, .n .condition, .a .opWhileCond, .n .compoundStat, .a .opWhileEnd],
  [.t .if_, .n .condition, .a .opIfCond, .n .compoundStat, .n .elseOpt, .a .opIfEnd],
  [.t .try_, .a .opTryBegin, .n .compoundStat, .n .catchOpt],
  [.t .lparen, .n .exp, .t .rparen],
  [.t .throw_, .n .exp, .a .opThrow],
  [.t .var_, .n .varList],
  [.t .id, .a .opPushTmp, .n .assignOrCall1],
  [],
  [.t .else_, .a .opIfElse, .n .compoundStat],
  [.a .opTryEnd],
  [.t .catch_, .a .opCatch, .a .opBlkOpen, .t .lparen, .t .id, .a .opVarDecl, .a .opPushTmp,
    .a .opVarAssign, .t .rparen, .t .lbrace, .n .statList, .t .rbrace, .a .opBlkClose,
    .a .opCatchEnd]]

/-- The loop of the binary search; `fuel` bounds its turns. -/
def searchRule (vec : List (Term × Nat)) (tok : Term) : Nat → Nat → Nat → Nat
  | 0, imin, _ => imin
  | fuel + 1, imin, imax =>
    if imin < imax then
      let imid := (imin + imax) / 2
      if (vec[imid - 1]?).any (fun p => p.1.num < tok.num) then searchRule vec tok fuel (imid + 1) imax
      else searchRule vec tok fuel imin imid
    else imin

/-- `microjs_ll_push`: the symbols that replace the nonterminal `sym` on the stack. -/
def microjsLlPush (sym : NonTerm) (tok : Term) : Option (List Symbol) :=
  let vec := predictVec sym
  match vec[searchRule vec tok vec.length 1 vec.length - 1]? with
  | some (t, r) => if t ≠ tok then none else ruleVec[r]?
  | none => none

/-- `microjs_ll_start`. -/
def microjsLlStart : List Symbol := [.n .program, .t .eof]

/-- The rule numbers of a nonterminal. -/
def NonTerm.rules (n : NonTerm) : List Nat :=
  (List.range ruleVec.length).filter fun r => (predictVec n).any fun p => p.2 == r

/-- All terminals. -/
def Term.all : List Term := [
  .eof, .dot, .comma, .semicolon, .colon, .plus, .minus, .star, .slash, .percent, .ampersand,
  .bar, .caret, .tilde, .exclam, .quest, .equals, .lessthen, .greatthen, .lbracket, .rbracket,
  .lparen, .rparen, .lbrace, .rbrace, .gte, .lte, .equ, .neq, .asr, .shl, .logicor, .logicand,
  .catch_, .else_, .false_, .for_, .if_, .throw_, .true_, .try_, .var_, .while_, .id, .int,
  .char, .string, .err, .not]

/-- All nonterminals. -/
def NonTerm.all : List NonTerm := [
  .program, .stat, .semiStat, .semiList, .compoundStat, .varList, .var_, .varList1,
  .varAssignOpt, .exp, .assignOrCall1, .functionCall, .attrAssign, .attrAssign2, .methodCall,
  .argListOpt, .argList, .argList1, .expLstOpt, .expLst, .expLst1, .andExp, .orExp,
  .relationalExp, .andExp1, .shiftExp, .relationalExp1, .additiveExp, .shiftExp1, .divExp,
  .additiveExp1, .multExp, .divExp1, .unaryExp, .multExp1, .primaryExp, .idEval, .idEval1,
  .attrEval, .attrEval1, .statList, .condition, .elseOpt, .catchOpt]

theorem Term.mem_all (t : Term) : t ∈ Term.all := by cases t <;> decide

theorem NonTerm.mem_all (n : NonTerm) : n ∈ NonTerm.all := by cases n <;> decide

/-- The search finds what a scan of the predict set finds. -/
theorem microjsLlPush_eq {n : NonTerm} {t : Term} :
    microjsLlPush n t = ((predictVec n).lookup t).bind fun r => ruleVec[r]? := by
  have h : ∀ n ∈ NonTerm.all, ∀ t ∈ Term.all,
      microjsLlPush n t = ((predictVec n).lookup t).bind fun r => ruleVec[r]? := by
    decide +kernel
  exact h n n.mem_all t t.mem_all

/-- What replaces a nonterminal is one of its rules. -/
theorem exists_rule_of_microjsLlPush {n : NonTerm} {t : Term} {γ : List Symbol}
    (h : microjsLlPush n t = some γ) : ∃ r ∈ n.rules, ruleVec[r]? = some γ := by
  rw [microjsLlPush_eq] at h
  obtain ⟨r, hr, hγ⟩ := Option.bind_eq_some_iff.mp h
  refine ⟨r, ?_, hγ⟩
  obtain ⟨l1, l2, hl, -⟩ := List.lookup_eq_some_iff.mp hr
  rw [NonTerm.rules, List.mem_filter, List.mem_range]
  exact ⟨(List.getElem?_eq_some_iff.mp hγ).1, List.any_eq_true.mpr ⟨(t, r), by simp [hl], by simp⟩⟩

end MicroJS
