import ThinkOS.Lib.LL1
import ThinkOS.MicroJS.Sdt

/-!
# MicroJS: the language of the parser

`productions` is the grammar of `microjs.gr`, from which the tables of `microjs_ll.c` were made.
The FIRST and FOLLOW sets below fit the grammar and the tables (`microjs_ll1`), so the parsing
machine of `microjs_compile` does just what the leftmost derivations of the grammar say.
-/

namespace MicroJS

open Predictive List

/-- The alternatives of each nonterminal, in the order of `microjs.gr`. -/
def productions : NonTerm → List (List Symbol)
  | .program => [
      [.t .eof],
      [.n .stat, .n .program],
      [.n .semiStat, .n .semiList],
      [.n .compoundStat, .n .program]]
  | .semiList => [[.t .eof], [.t .semicolon, .n .program]]
  -- variables
  | .varList => [[.n .var_, .n .varList1]]
  | .varList1 => [[], [.t .comma, .n .varList]]
  | .var_ => [[.t .id, .a .opVarDecl, .a .opPushTmp, .n .varAssignOpt]]
  | .varAssignOpt => [[.a .opPopTmp], [.t .equals, .n .exp, .a .opVarAssign]]
  | .assignOrCall1 => [
      [.t .equals, .n .exp, .a .opVarAssign],
      [.n .functionCall, .a .opRetDiscard],
      [.t .lbracket, .n .exp, .t .rbracket, .a .opArrayXlat, .t .dot, .n .attrAssign],
      [.t .dot, .a .opObjectGet, .n .attrAssign]]
  | .attrAssign => [[.t .id, .a .opPushTmp, .n .attrAssign2]]
  | .attrAssign2 => [
      [.t .equals, .n .exp, .a .opAttrAssign],
      [.t .lbracket, .n .exp, .t .rbracket, .t .equals, .n .exp, .a .opArrayAssign],
      [.n .methodCall, .a .opRetDiscard]]
  -- method calls and function calls
  | .methodCall => [
      [.a .opMethodLookup, .t .lparen, .n .argListOpt, .t .rparen, .a .opCall]]
  | .functionCall => [
      [.a .opFunctionLookup, .t .lparen, .n .argListOpt, .t .rparen, .a .opCall]]
  | .argListOpt => [[], [.n .argList]]
  | .argList => [[.n .exp, .a .opArg, .n .argList1]]
  | .argList1 => [[], [.t .comma, .n .argList]]
  -- expressions
  | .expLstOpt => [[], [.n .expLst]]
  | .expLst => [[.t .id, .a .opPushTmp, .n .assignOrCall1, .n .expLst1]]
  | .expLst1 => [[], [.t .comma, .n .expLst]]
  | .exp => [[.n .andExp, .n .orExp]]
  | .orExp => [
      [],
      [.t .bar, .n .exp, .a .opOr],
      [.t .logicor, .n .exp, .a .opLogicOr],
      [.t .caret, .n .exp, .a .opXor]]
  | .andExp => [[.n .relationalExp, .n .andExp1]]
  | .andExp1 => [
      [],
      [.t .ampersand, .n .andExp, .a .opAnd],
      [.t .logicand, .n .andExp, .a .opLogicAnd]]
  | .relationalExp => [[.n .shiftExp, .n .relationalExp1]]
  | .relationalExp1 => [
      [],
      [.t .lessthen, .n .relationalExp, .a .opLt],
      [.t .greatthen, .n .relationalExp, .a .opGt],
      [.t .equ, .n .relationalExp, .a .opEqu],
      [.t .neq, .n .relationalExp, .a .opNeq],
      [.t .gte, .n .relationalExp, .a .opGte],
      [.t .lte, .n .relationalExp, .a .opLte]]
  | .shiftExp => [[.n .additiveExp, .n .shiftExp1]]
  | .shiftExp1 => [
      [],
      [.t .shl, .n .shiftExp, .a .opShl],
      [.t .asr, .n .shiftExp, .a .opAsr]]
  | .additiveExp => [[.n .divExp, .n .additiveExp1]]
  | .additiveExp1 => [
      [],
      [.t .plus, .n .additiveExp, .a .opAdd],
      [.t .minus, .n .additiveExp, .a .opSub]]
  | .divExp => [[.n .multExp, .n .divExp1]]
  | .divExp1 => [
      [],
      [.t .slash, .n .divExp, .a .opDiv],
      [.t .percent, .n .divExp, .a .opMod]]
  | .multExp => [[.n .unaryExp, .n .multExp1]]
  | .multExp1 => [[], [.t .star, .n .multExp, .a .opMul]]
  | .unaryExp => [
      [.n .primaryExp],
      [.t .tilde, .n .unaryExp, .a .opInv],
      [.t .minus, .n .unaryExp, .a .opMinus],
      [.t .not, .n .unaryExp, .a .opNot]]
  | .primaryExp => [
      [.t .lparen, .n .exp, .t .rparen],
      [.t .int, .a .opPushInt],
      [.t .char, .a .opPushInt],
      [.t .string, .a .opPushString],
      [.t .true_, .a .opPushTrue],
      [.t .false_, .a .opPushFalse],
      [.n .idEval]]
  | .idEval => [[.t .id, .a .opPushTmp, .n .idEval1]]
  | .idEval1 => [
      [.a .opVarEval],
      [.n .functionCall, .a .opCallRet],
      [.t .lbracket, .n .exp, .t .rbracket, .a .opArrayXlat, .t .dot, .n .attrEval],
      [.t .dot, .a .opObjectGet, .n .attrEval]]
  | .attrEval => [[.t .id, .a .opPushTmp, .n .attrEval1]]
  | .attrEval1 => [
      [.a .opAttrEval],
      [.n .methodCall, .a .opCallRet],
      [.t .lbracket, .n .exp, .t .rbracket, .a .opArrayEval]]
  -- statements
  | .compoundStat => [[.t .lbrace, .a .opBlkOpen, .n .statList, .t .rbrace, .a .opBlkClose]]
  | .statList => [
      [],
      [.n .stat, .n .statList],
      [.n .semiStat, .t .semicolon, .n .statList]]
  | .stat => [
      [.t .for_, .t .lparen, .n .expLstOpt, .t .semicolon, .a .opForInit, .n .exp, .a .opForCond,
        .t .semicolon, .n .expLstOpt, .a .opForAfter, .t .rparen, .n .compoundStat, .a .opForEnd],
      [.t .while_, .a .opWhileBegin, .n .condition, .a .opWhileCond, .n .compoundStat,
        .a .opWhileEnd],
      [.t .if_, .n .condition, .a .opIfCond, .n .compoundStat, .n .elseOpt, .a .opIfEnd],
      [.t .try_, .a .opTryBegin, .n .compoundStat, .n .catchOpt]]
  | .condition => [[.t .lparen, .n .exp, .t .rparen]]
  | .semiStat => [
      [.t .throw_, .n .exp, .a .opThrow],
      [.t .var_, .n .varList],
      [.t .id, .a .opPushTmp, .n .assignOrCall1]]
  | .elseOpt => [[], [.t .else_, .a .opIfElse, .n .compoundStat]]
  | .catchOpt => [
      [.a .opTryEnd],
      [.t .catch_, .a .opCatch, .a .opBlkOpen, .t .lparen, .t .id, .a .opVarDecl, .a .opPushTmp,
        .a .opVarAssign, .t .rparen, .t .lbrace, .n .statList, .t .rbrace, .a .opBlkClose,
        .a .opCatchEnd]]

/-! ### The sets of the grammar -/

def NonTerm.nullable : NonTerm → Bool
  | .varList1 | .varAssignOpt | .argListOpt | .argList1 | .expLstOpt | .expLst1 => true
  | .orExp | .andExp1 | .relationalExp1 | .shiftExp1 | .additiveExp1 | .divExp1 | .multExp1 => true
  | .idEval1 | .attrEval1 | .statList | .elseOpt | .catchOpt => true
  | _ => false

def NonTerm.first : NonTerm → List Term
  | .program => [.eof, .lbrace, .for_, .if_, .throw_, .try_, .var_, .while_, .id]
  | .semiList => [.eof, .semicolon]
  | .stat => [.for_, .if_, .try_, .while_]
  | .semiStat => [.throw_, .var_, .id]
  | .statList => [.for_, .if_, .throw_, .try_, .var_, .while_, .id]
  | .compoundStat => [.lbrace]
  | .elseOpt => [.else_]
  | .catchOpt => [.catch_]
  | .varList | .var_ | .attrAssign | .expLstOpt | .expLst | .idEval | .attrEval => [.id]
  | .varList1 | .argList1 | .expLst1 => [.comma]
  | .varAssignOpt => [.equals]
  | .assignOrCall1 => [.dot, .equals, .lbracket, .lparen]
  | .attrAssign2 => [.equals, .lbracket, .lparen]
  | .functionCall | .methodCall | .condition => [.lparen]
  | .idEval1 => [.dot, .lbracket, .lparen]
  | .attrEval1 => [.lbracket, .lparen]
  | .orExp => [.bar, .caret, .logicor]
  | .andExp1 => [.ampersand, .logicand]
  | .relationalExp1 => [.lessthen, .greatthen, .gte, .lte, .equ, .neq]
  | .shiftExp1 => [.asr, .shl]
  | .additiveExp1 => [.plus, .minus]
  | .divExp1 => [.slash, .percent]
  | .multExp1 => [.star]
  | .primaryExp => [.lparen, .false_, .true_, .id, .int, .char, .string]
  | .exp | .argListOpt | .argList | .andExp | .relationalExp | .shiftExp | .additiveExp | .divExp
  | .multExp | .unaryExp =>
    [.minus, .tilde, .lparen, .false_, .true_, .id, .int, .char, .string, .not]

/-- What comes behind an operand of an operator: what comes behind the expression, and the operators
that bind as strong or weaker. -/
def NonTerm.follow : NonTerm → List Term
  | .program | .semiList => [.eof]
  | .stat | .elseOpt | .catchOpt =>
    [.eof, .lbrace, .rbrace, .for_, .if_, .throw_, .try_, .var_, .while_, .id]
  | .compoundStat =>
    [.eof, .lbrace, .rbrace, .catch_, .else_, .for_, .if_, .throw_, .try_, .var_, .while_, .id]
  | .statList => [.rbrace]
  | .condition => [.lbrace]
  | .semiStat | .varList | .varList1 => [.eof, .semicolon]
  | .var_ | .varAssignOpt => [.eof, .comma, .semicolon]
  | .assignOrCall1 | .attrAssign | .attrAssign2 => [.eof, .comma, .semicolon, .rparen]
  | .argListOpt | .argList | .argList1 => [.rparen]
  | .expLstOpt | .expLst | .expLst1 => [.semicolon, .rparen]
  | .exp | .orExp => exps
  | .andExp | .andExp1 => ands
  | .relationalExp | .relationalExp1 => relationals
  | .shiftExp | .shiftExp1 => shifts
  | .additiveExp | .additiveExp1 => additives
  | .divExp | .divExp1 => divs
  | .multExp | .multExp1 => mults
  | .functionCall | .methodCall | .unaryExp | .primaryExp | .idEval | .idEval1 | .attrEval
  | .attrEval1 => .star :: mults
where
  exps : List Term := [.eof, .comma, .semicolon, .rbracket, .rparen]
  ands : List Term := .bar :: .caret :: .logicor :: exps
  relationals : List Term := .ampersand :: .logicand :: ands
  shifts : List Term := .lessthen :: .greatthen :: .gte :: .lte :: .equ :: .neq :: relationals
  additives : List Term := .asr :: .shl :: shifts
  divs : List Term := .plus :: .minus :: additives
  mults : List Term := .slash :: .percent :: divs

def sets : Sets Term NonTerm := ⟨NonTerm.nullable, NonTerm.first, NonTerm.follow⟩

/-- The tables of `microjs_ll.c` are LL(1) tables of the grammar. -/
theorem microjs_ll1 : LL1 sets productions microjsLlPush := by
  have hnull : ∀ x ∈ NonTerm.all, ∀ γ ∈ productions x,
      sets.nulls γ = true → sets.nullable x = true := by decide +kernel
  have hfirst : ∀ x ∈ NonTerm.all, ∀ γ ∈ productions x,
      ∀ t ∈ sets.starts [] γ, t ∈ sets.first x := by decide +kernel
  have hfollow : ∀ x ∈ NonTerm.all, ∀ γ ∈ productions x,
      sets.Fits (sets.follow x) γ := by decide +kernel
  have hpredicts : ∀ x ∈ NonTerm.all, ∀ γ ∈ productions x,
      ∀ t ∈ sets.starts (sets.follow x) γ, microjsLlPush x t = some γ := by decide +kernel
  have hrule : ∀ x ∈ NonTerm.all, ∀ r ∈ x.rules, ∀ γ ∈ ruleVec[r]?, γ ∈ productions x := by
    decide +kernel
  refine ⟨fun x => hnull x x.mem_all, fun x => hfirst x x.mem_all, fun x => hfollow x x.mem_all,
    fun x => hpredicts x x.mem_all, fun x t γ h => ?_⟩
  obtain ⟨r, hr, hγ⟩ := exists_rule_of_microjsLlPush h
  exact hrule x x.mem_all r hr γ hγ

theorem fits_microjsLlStart (F : List Term) : sets.Fits F microjsLlStart := by
  refine ⟨fun t ht => ?_, trivial⟩
  cases mem_singleton.mp ht
  decide

/-! ### The language -/

/-- The nonterminals that do not reach the end of the program. -/
def NonTerm.inner : NonTerm → Bool
  | .program | .semiList => false
  | _ => true

/-- A program ends with the end of the text, and that comes nowhere else in it. -/
theorem program_marked {v : List (Term ⊕ Action)} (h : Yields productions [.n .program] v) :
    ∃ w, Predictive.tokens v = w ++ [.eof] ∧ .eof ∉ w := by
  have hin : ∀ x ∈ NonTerm.all, x.inner = true → ∀ δ ∈ productions x, ∀ s ∈ δ,
      s.unmarked .eof NonTerm.inner = true := by decide +kernel
  have hout : ∀ x ∈ NonTerm.all, x.inner = false → ∀ δ ∈ productions x,
      marked .eof NonTerm.inner δ = true := by decide +kernel
  exact h.marked (fun x => hin x x.mem_all) (fun x => hout x x.mem_all) rfl

/-- The parser of `microjs_compile` takes the tokens `ws` of a text and runs the actions `as`, where
no action fails and the stack has room. -/
def Accepts (ws : List Term) (as : List Action) : Prop :=
  ∃ r n f', { recorder microjsLlPush .eof with room := r }.run n microjsLlStart (feed .eof ws) =
    some (.ok f') ∧ f'.st = as

/-- What is accepted is derived from `program`, and the end of the text comes once more. -/
theorem accepts_iff_yields {ws : List Term} (hws : .eof ∉ ws) (as : List Action) : Accepts ws as ↔
      ∃ v : List (Term ⊕ Action), Yields productions [.n .program] v ∧
        Predictive.tokens v = ws ++ [.eof] ∧ Predictive.actions v = as := by
  have hrun : Accepts ws as ↔ ∃ v, Yields productions microjsLlStart v ∧
      ∃ f', (recorder microjsLlPush .eof).Performs v (feed .eof ws) f' ∧ f'.st = as := by
    constructor
    · rintro ⟨r, n, f', hn, hst⟩
      obtain ⟨v, hv, hp⟩ := (Parser.exists_run_iff microjs_ll1 fits_microjsLlStart).mp ⟨r, n, hn⟩
      exact ⟨v, hv, f', hp, hst⟩
    · rintro ⟨v, hv, f', hp, hst⟩
      obtain ⟨r, n, hn⟩ := (Parser.exists_run_iff microjs_ll1 fits_microjsLlStart).mpr ⟨v, hv, hp⟩
      exact ⟨r, n, f', hn, hst⟩
  simp only [hrun, feed, performs_recorder, nil_append]
  constructor
  · rintro ⟨v, hv, hread, rfl⟩
    replace hv : Yields productions ([.n .program] ++ [.t .eof]) v := hv
    obtain ⟨v1, v2, rfl, hv1, hv2⟩ := hv.split
    cases hv2 with
    | t hnil =>
      cases hnil
      obtain ⟨w, hw, he⟩ := program_marked hv1
      rw [tokens_append, hw, append_assoc] at hread
      obtain rfl := (reads_marked hws he).mp hread
      exact ⟨v1, hv1, hw, by simp⟩
  · rintro ⟨v, hv, htok, rfl⟩
    have hend : Yields productions [.t .eof] [.inl .eof] := .t .nil
    refine ⟨_, hv.append hend, ?_, by simp⟩
    rw [tokens_append, htok, append_assoc]
    exact (reads_marked hws hws).mpr rfl

/-- **The parser is exact.**  For the tokens of a text, the end of which the scanner repeats, it
accepts just what the start symbol derives, and runs the actions of the leftmost derivation in
their order; the accepted texts are the words of the grammar's language. -/
theorem parser_exact (ws : List Term) (hws : .eof ∉ ws) :
    (∀ as, Accepts ws as ↔ ∃ v, Relation.ReflTransGen (Leftmost productions) [.n .program]
        (v.map Sym.ofSum) ∧ Predictive.tokens v = ws ++ [.eof] ∧ Predictive.actions v = as) ∧
      ((∃ as, Accepts ws as) ↔ ws ++ [.eof] ∈ (cfg productions NonTerm.all .program).language) := by
  have haccepts := accepts_iff_yields hws
  refine ⟨fun as => by simp only [haccepts, leftmost_iff_yields], ?_⟩
  rw [mem_language_iff_yields NonTerm.mem_all]
  constructor
  · rintro ⟨as, h⟩
    obtain ⟨v, hv, htok, -⟩ := (haccepts as).mp h
    exact ⟨v, hv, htok⟩
  · rintro ⟨v, hv, htok⟩
    exact ⟨Predictive.actions v, (haccepts _).mpr ⟨v, hv, htok, rfl⟩⟩

/-- `var x` is a program; its actions declare `x` and drop the name again. -/
theorem parser_exact_var : .eof ∉ [Term.var_, .id] ∧
    Accepts [.var_, .id] [.opVarDecl, .opPushTmp, .opPopTmp] ∧
    [Term.var_, .id] ++ [.eof] ∈ (cfg productions NonTerm.all .program).language := by
  have hws : .eof ∉ [Term.var_, .id] := by decide
  have haccepts : Accepts [.var_, .id] [.opVarDecl, .opPushTmp, .opPopTmp] := by
    refine ⟨8, 20, ⟨.eof, .eof, [], [.opVarDecl, .opPushTmp, .opPopTmp]⟩, ?_, rfl⟩
    rfl
  exact ⟨hws, haccepts, (parser_exact _ hws).2.mp ⟨_, haccepts⟩⟩

end MicroJS
