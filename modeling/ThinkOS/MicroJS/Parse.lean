import Mathlib.Tactic.FinCases
import ThinkOS.MicroJS.Tree

/-!
# MicroJS: the parser builds the trees of the grammar

The parsing machine works through a stack of symbols; `exists_program` says what it has done when it
ends: it has read the tokens of a tree of `microjs.gr` and run that tree's translation. Each
nonterminal has its part of a tree (`Spec`), and `spec_of_predict` goes through the rules of
`ruleVec` once.
-/

namespace MicroJS

open Predictive Predictive.Parser List

abbrev Feed := Predictive.Feed Token (List Char) Sdt

/-- Where the scanner is: the lookahead token and the text after it. -/
def pos (f : Feed) : Token × List Char := (f.look, f.lex)

/-- A token without the fields that its class does not use. -/
def Token.norm (k : Token) : Token :=
  match k.typ with
  | .id | .string => { typ := k.typ, s := k.s }
  | .int | .char => { typ := k.typ, u32 := k.u32 }
  | t => tk t

/-- The scanner delivers the tokens `ks` and then stands at `q`. -/
def Reads : List Token → Token × List Char → Token × List Char → Prop
  | [], p, q => q = p
  | k :: ks, p, q => p.1.norm = k ∧ ∃ p', lexerScan p.2 = .ok p' ∧ Reads ks p' q

theorem Reads.append {ks ls : List Token} {p q r : Token × List Char} (h : Reads ks p q)
    (h' : Reads ls q r) : Reads (ks ++ ls) p r := by
  induction ks generalizing p with
  | nil =>
    cases h
    exact h'
  | cons k ks ih =>
    obtain ⟨hk, p', hp, h⟩ := h
    exact ⟨hk, p', hp, ih h⟩

/-- The terminals whose tokens carry nothing. -/
def Term.plain (t : Term) : Bool :=
  match t with
  | .id | .string | .int | .char => false
  | _ => true

/-- The actions that read the token matched last. -/
def Action.readsToken (a : Action) : Bool :=
  match a with
  | .opPushTmp | .opVarDecl | .opPushInt | .opPushString => true
  | _ => false

section
variable {E : Env} {f f1 f2 f3 f' : Feed} {a : Action} {q : Token × List Char} {t : Term}
  {ks : List Token}

theorem act_congr (ha : a.readsToken = false) {k k' : Token} {m : Sdt} :
    m.act E a k = m.act E a k' := by
  cases a <;> first | rfl | cases ha

theorem matches_st (h : (parser E).Matches t f f1) : f1.st = f.st := by
  obtain ⟨-, k, l, -, rfl⟩ := h
  rfl

theorem matches_last (h : (parser E).Matches t f f1) : f1.last = f.look := by
  obtain ⟨-, k, l, -, rfl⟩ := h
  rfl

theorem matches_reads (h : (parser E).Matches t f f1) (ht : t.plain = true)
    (hr : Reads ks (pos f1) q) : Reads (tk t :: ks) (pos f) q := by
  obtain ⟨hk, k, l, hl, rfl⟩ := h
  refine ⟨?_, (k, l), hl, hr⟩
  have hk : f.look.typ = t := hk
  unfold pos Token.norm
  rw [hk]
  cases t <;> first | rfl | cases ht

theorem matches_readsId (h : (parser E).Matches .id f f1) (hr : Reads ks (pos f1) q) :
    Reads (idTok f.look.s :: ks) (pos f) q := by
  obtain ⟨hk, k, l, hl, rfl⟩ := h
  refine ⟨?_, (k, l), hl, hr⟩
  have hk : f.look.typ = .id := hk
  unfold pos Token.norm
  rw [hk]
  rfl

section
variable (h : (parser E).Acts a f f1)
include h

theorem acts_pos : pos f1 = pos f := by
  obtain ⟨st, -, rfl⟩ := h
  rfl

theorem acts_last : f1.last = f.last := by
  obtain ⟨st, -, rfl⟩ := h
  rfl

theorem acts_act : f.st.act E a f.last = .ok f1.st := by
  obtain ⟨st, ha, rfl⟩ := h
  exact ha

theorem acts_run (ha : a.readsToken = false) : a.run E f.st = .ok f1.st :=
  (act_congr ha).trans (acts_act h)

end

theorem acts_pushTmp (h : (parser E).Acts .opPushTmp f f1) :
    Action.opPushTmp.on E f.last.s f.st = .ok f1.st := acts_act h

theorem acts_varDecl (h : (parser E).Acts .opVarDecl f f1) :
    Action.opVarDecl.on E f.last.s f.st = .ok f1.st := acts_act h

end

/-! ## What each nonterminal does -/

section
variable (E : Env)

/-- From `f` to `f'` the tokens `ks` are read and the state is translated by `em`. -/
def Yields (ks : List Token) (em : Sdt → Except Err Sdt) (f f' : Feed) : Prop :=
  Reads ks (pos f) (pos f') ∧ em f.st = .ok f'.st

/-- An expression whose operators are at least of class `n`. -/
def ExpAt (n : Nat) (f f' : Feed) : Prop :=
  ∃ e : Exp, e.Parsed ∧ n ≤ e.level ∧ Yields e.tokens (e.emit E) f f'

/-- The rest of an expression of class `n` after its first operand. -/
def TailAt (n : Nat) (f f' : Feed) : Prop :=
  f' = f ∨ ∃ (o : BinOp) (e : Exp), o.level = n ∧ e.Parsed ∧ n ≤ e.level ∧
    Yields (tk o.term :: e.tokens) (fun m => e.emit E m >>= o.action.run E) f f'

/-- A kind of trees: those of it the parser builds, their tokens and their translation. -/
structure Kind (α : Type) where
  Parsed : α → Prop
  tokens : α → List Token
  emit : α → Sdt → Except Err Sdt

def operand : Kind Exp := ⟨fun e => e.Parsed ∧ 8 ≤ e.level, Exp.tokens, Exp.emit E⟩

def statement : Kind Simple := ⟨Simple.Parsed, Simple.tokens, Simple.emit E⟩

/-- The rest of a tree after its identifier. -/
def IdTail {α : Type} (K : Kind α) (f f' : Feed) : Prop :=
  ∃ (mk : Name → α) (ks : List Token), Reads ks (pos f) (pos f') ∧
    ∀ s, K.Parsed (mk s) ∧ K.tokens (mk s) = idTok s :: ks ∧
      ∀ m, Action.opPushTmp.on E s m = .ok f.st → K.emit (mk s) m = .ok f'.st

/-- The rest of a tree after the object it is about. -/
def AttrTail {α : Type} (K : Kind α) (f f' : Feed) : Prop :=
  ∃ (mk : Base → α) (ks : List Token), Reads ks (pos f) (pos f') ∧
    ∀ o, o.Parsed → K.Parsed (mk o) ∧ K.tokens (mk o) = o.tokens ++ ks ∧
      ∀ m, o.emit E m = .ok f.st → K.emit (mk o) m = .ok f'.st

/-- The rest of a tree after an attribute's name. -/
def MemberTail {α : Type} (K : Kind α) (f f' : Feed) : Prop :=
  ∃ (mk : Base → Name → α) (ks : List Token), Reads ks (pos f) (pos f') ∧
    ∀ o s, o.Parsed → K.Parsed (mk o s) ∧ K.tokens (mk o s) = o.tokens ++ idTok s :: ks ∧
      ∀ m m1, o.emit E m = .ok m1 → Action.opPushTmp.on E s m1 = .ok f.st →
        K.emit (mk o s) m = .ok f'.st

/-- A call, from the lookup of its function on. -/
def CallAt (lookup : Action) (f f' : Feed) : Prop :=
  ∃ as : Args, as.Parsed ∧ Reads (tk .lparen :: as.tokens ++ [tk .rparen]) (pos f) (pos f') ∧
    ∃ m1 m2, lookup.run E f.st = .ok m1 ∧ as.emit E m1 = .ok m2 ∧ Action.opCall.run E m2 = .ok f'.st

section
variable (f f' : Feed)

def ArgsAt : Prop := ∃ as : Args, as.Parsed ∧ Yields as.tokens (as.emit E) f f'

def SimplesAt : Prop :=
  ∃ l : List Simple, (∀ s ∈ l, s.Parsed) ∧ Yields (simpleTokens l) (simpleEmit E l) f f'

/-- The initial value of a variable, after its declaration. -/
def InitAt : Prop :=
  ∃ (i : Option Exp) (ks : List Token), Reads ks (pos f) (pos f') ∧ (∀ e ∈ i, e.Parsed) ∧
    ∀ s, varTokens (s, i) = idTok s :: ks ∧ ∀ m m1, Action.opVarDecl.on E s m = .ok m1 →
      Action.opPushTmp.on E s m1 = .ok f.st → varEmit E (s, i) m = .ok f'.st

def VarAt : Prop :=
  ∃ v : Name × Option Exp, (∀ e ∈ v.2, e.Parsed) ∧ Yields (varTokens v) (varEmit E v) f f'

/-- The variables after the first. -/
def VarsAt : Prop :=
  ∃ vs : List (Name × Option Exp), (∀ v ∈ vs, ∀ e ∈ v.2, e.Parsed) ∧
    Yields (vs.flatMap fun v => tk .comma :: varTokens v) (varsEmit E vs) f f'

def VarListAt : Prop :=
  ∃ (v : Name × Option Exp) (vs : List (Name × Option Exp)), (∀ x ∈ v :: vs, ∀ e ∈ x.2, e.Parsed) ∧
    Yields (varTokens v ++ vs.flatMap fun v => tk .comma :: varTokens v) (varsEmit E (v :: vs)) f f'

def ArgsTail : Prop :=
  f' = f ∨ ∃ (e : Exp) (as : Args), e.Parsed ∧ as.Parsed ∧
    Yields (tk .comma :: (Args.cons e as).tokens) ((Args.cons e as).emit E) f f'

def SimplesTail : Prop :=
  f' = f ∨ ∃ (s : Simple) (l : List Simple), (∀ x ∈ s :: l, x.Parsed) ∧
    Yields (tk .comma :: simpleTokens (s :: l)) (simpleEmit E (s :: l)) f f'

def StatsAt : Prop := ∃ b : Block, b.Parsed ∧ Yields b.tokens (b.emit E) f f'

end

/-- A block with its scope. -/
def Scoped (b : Block) (m m' : Sdt) : Prop :=
  ∃ m1 m2, Action.opBlkOpen.run E m = .ok m1 ∧ b.emit E m1 = .ok m2 ∧
    Action.opBlkClose.run E m2 = .ok m'

def BlockAt (f f' : Feed) : Prop :=
  ∃ b : Block, b.Parsed ∧ Reads (tk .lbrace :: b.tokens ++ [tk .rbrace]) (pos f) (pos f') ∧
    Scoped E b f.st f'.st

def ElseAt (f f' : Feed) : Prop :=
  f' = f ∨ ∃ b : Block, b.Parsed ∧
    Reads (tk .else_ :: tk .lbrace :: b.tokens ++ [tk .rbrace]) (pos f) (pos f') ∧
    ∃ m1, Action.opIfElse.run E f.st = .ok m1 ∧ Scoped E b m1 f'.st

/-- The translation of a handler: its variable receives the exception code. -/
def catchEmit (s : Name) (b : Block) (m : Sdt) : Except Err Sdt := do
  let m ← Action.opCatch.run E m
  let m ← Action.opBlkOpen.run E m
  let m ← Action.opVarDecl.on E s m
  let m ← Action.opPushTmp.on E s m
  let m ← Action.opVarAssign.run E m
  let m ← b.emit E m
  let m ← Action.opBlkClose.run E m
  Action.opCatchEnd.run E m

def CatchAt (f f' : Feed) : Prop :=
  Yields [] (Action.opTryEnd.run E) f f' ∨ ∃ (s : Name) (b : Block), b.Parsed ∧
    Yields (tk .catch_ :: tk .lparen :: idTok s :: tk .rparen :: tk .lbrace :: b.tokens ++
      [tk .rbrace]) (catchEmit E s b) f f'

def StatAt (f f' : Feed) : Prop := ∃ s : Stat, s.Parsed ∧ Yields s.tokens (s.emit E) f f'

def SemiAt (f f' : Feed) : Prop := ∃ s : Semi, s.Parsed ∧ Yields s.tokens (s.emit E) f f'

def ProgramAt (f f' : Feed) : Prop := ∃ p : Program, p.Parsed ∧ Yields p.tokens (p.emit E) f f'

/-- What follows a statement that may end with a semicolon. -/
def ProgramTail (f f' : Feed) : Prop :=
  Yields [tk .eof] .ok f f' ∨ ∃ p : Program, p.Parsed ∧
    Yields (tk .semicolon :: p.tokens) (p.emit E) f f'

/-- The part of a tree that a nonterminal stands for. -/
def Spec : NonTerm → Feed → Feed → Prop
  | .program => ProgramAt E
  | .stat => StatAt E
  | .semiStat => SemiAt E
  | .semiList => ProgramTail E
  | .compoundStat => BlockAt E
  | .varList => VarListAt E
  | .var_ => VarAt E
  | .varList1 => VarsAt E
  | .varAssignOpt => InitAt E
  | .exp => ExpAt E 0
  | .assignOrCall1 => IdTail E (statement E)
  | .functionCall => CallAt E .opFunctionLookup
  | .attrAssign => AttrTail E (statement E)
  | .attrAssign2 => MemberTail E (statement E)
  | .methodCall => CallAt E .opMethodLookup
  | .argListOpt => ArgsAt E
  | .argList => fun f f' => ∃ (e : Exp) (as : Args), e.Parsed ∧ as.Parsed ∧
      Yields (Args.cons e as).tokens ((Args.cons e as).emit E) f f'
  | .argList1 => ArgsTail E
  | .expLstOpt => SimplesAt E
  | .expLst => fun f f' => ∃ (s : Simple) (l : List Simple), (∀ x ∈ s :: l, x.Parsed) ∧
      Yields (simpleTokens (s :: l)) (simpleEmit E (s :: l)) f f'
  | .expLst1 => SimplesTail E
  | .andExp => ExpAt E 1
  | .orExp => TailAt E 0
  | .relationalExp => ExpAt E 2
  | .andExp1 => TailAt E 1
  | .shiftExp => ExpAt E 3
  | .relationalExp1 => TailAt E 2
  | .additiveExp => ExpAt E 4
  | .shiftExp1 => TailAt E 3
  | .divExp => ExpAt E 5
  | .additiveExp1 => TailAt E 4
  | .multExp => ExpAt E 6
  | .divExp1 => TailAt E 5
  | .unaryExp => ExpAt E 7
  | .multExp1 => TailAt E 6
  | .primaryExp => ExpAt E 8
  | .idEval => ExpAt E 8
  | .idEval1 => IdTail E (operand E)
  | .attrEval => AttrTail E (operand E)
  | .attrEval1 => MemberTail E (operand E)
  | .statList => StatsAt E
  | .condition => fun f f' => ∃ e : Exp, e.Parsed ∧
      Yields (tk .lparen :: e.tokens ++ [tk .rparen]) (e.emit E) f f'
  | .elseOpt => ElseAt E
  | .catchOpt => CatchAt E

end

/-! ## The rules -/

theorem ok_bind {ε α β : Type} {x : Except ε α} {g : α → Except ε β} {a : α} {b : β}
    (hx : x = .ok a) (hg : g a = .ok b) : (x >>= g) = .ok b := by
  rw [hx]
  exact hg

/-- The symbols of a rule, with what its nonterminals stand for. -/
abbrev Rule (E : Env) (γ : List Symbol) (f f' : Feed) : Prop := (parser E).Follows (Spec E) γ f f'

section
variable {E : Env} {f f1 f2 f3 f' : Feed} {ks ls : List Token} {em em' : Sdt → Except Err Sdt}
  {t : Term} {a lookup : Action} {n : Nat}

namespace Yields

theorem tok (hm : (parser E).Matches t f f1) (ht : t.plain = true) (h : Yields ks em f1 f') :
    Yields (tk t :: ks) em f f' := by
  refine ⟨matches_reads hm ht h.1, ?_⟩
  rw [← matches_st hm]
  exact h.2

theorem seq (h : Yields ks em f f1) (h' : Yields ls em' f1 f') :
    Yields (ks ++ ls) (fun m => em m >>= em') f f' :=
  ⟨h.1.append h'.1, ok_bind h.2 h'.2⟩

theorem of_act (ha : (parser E).Acts a f f') (hr : a.readsToken = false) :
    Yields [] (a.run E) f f' := ⟨acts_pos ha, acts_run ha hr⟩

theorem act (ha : (parser E).Acts a f f1) (hr : a.readsToken = false) (h : Yields ks em f1 f') :
    Yields ks (fun m => a.run E m >>= em) f f' := (of_act ha hr).seq h

theorem then_act (h : Yields ks em f f1) (ha : (parser E).Acts a f1 f')
    (hr : a.readsToken = false) : Yields ks (fun m => em m >>= a.run E) f f' := by
  refine ⟨?_, ok_bind h.2 (acts_run ha hr)⟩
  rw [acts_pos ha]
  exact h.1

theorem then_tok (h : Yields ks em f f1) (hm : (parser E).Matches t f1 f')
    (ht : t.plain = true) : Yields (ks ++ [tk t]) em f f' := by
  refine ⟨h.1.append (matches_reads hm ht rfl), ?_⟩
  rw [matches_st hm]
  exact h.2

theorem cast (h : Yields ks em f f') (hk : ks = ls) : Yields ls em f f' := hk ▸ h

end Yields

theorem ExpAt.bin (h : ∃ f1, ExpAt E (n + 1) f f1 ∧ ∃ f2, TailAt E n f1 f2 ∧ f' = f2) :
    ExpAt E n f f' := by
  obtain ⟨f1, ⟨l, hl, hlev, hy⟩, f2, ht, rfl⟩ := h
  obtain rfl | ⟨o, r, rfl, hp, hrev, hy'⟩ := ht
  · exact ⟨l, hl, by omega, hy⟩
  · exact ⟨.bin o l r, ⟨hl, hp, hlev, hrev⟩, le_rfl, hy.seq hy'⟩

theorem TailAt.op (o : BinOp) (h : ∃ f1, (parser E).Matches o.term f f1 ∧ ∃ f2,
    ExpAt E o.level f1 f2 ∧ ∃ f3, (parser E).Acts o.action f2 f3 ∧ f' = f3) :
    TailAt E o.level f f' := by
  obtain ⟨f1, hm, f2, ⟨e, hp, hlev, hy⟩, f3, ha, rfl⟩ := h
  exact .inr ⟨o, e, rfl, hp, hlev,
    (hy.then_act ha (by cases o <;> rfl)).tok hm (by cases o <;> rfl)⟩

theorem ExpAt.un (o : UnOp) (h : Rule E [.t o.term, .n .unaryExp, .a o.action] f f') :
    ExpAt E 7 f f' := by
  obtain ⟨f1, hm, f2, ⟨e, hp, hlev, hy⟩, f3, ha, rfl⟩ := h
  exact ⟨.un o e, ⟨hp, hlev⟩, le_rfl,
    (hy.then_act ha (by cases o <;> rfl)).tok hm (by cases o <;> rfl)⟩

/-! ### Operands -/

theorem ExpAt.leaf (e : Exp) (hp : e.Parsed) (hlev : 8 ≤ e.level)
    (ht : f.look.typ = t → e.tokens = [f.look.norm]) (he : ∀ m, e.emit E m = m.act E a f.look)
    (h : Rule E [.t t, .a a] f f') : ExpAt E 8 f f' := by
  obtain ⟨f1, ⟨hk, k, l, hl, rfl⟩, f2, ha, rfl⟩ := h
  refine ⟨e, hp, hlev, ?_, ?_⟩
  · rw [acts_pos ha, ht hk]
    exact ⟨rfl, (k, l), hl, rfl⟩
  · rw [he]
    exact acts_act ha

theorem ExpAt.int (h : Rule E [.t .int, .a .opPushInt] f f') : ExpAt E 8 f f' :=
  .leaf (.int f.look.u32) trivial le_rfl (fun hk => by rw [Token.norm, hk]; rfl) (fun _ => rfl) h

theorem ExpAt.char (h : Rule E [.t .char, .a .opPushInt] f f') : ExpAt E 8 f f' :=
  .leaf (.char f.look.u32) trivial le_rfl (fun hk => by rw [Token.norm, hk]; rfl) (fun _ => rfl) h

theorem ExpAt.str (h : Rule E [.t .string, .a .opPushString] f f') : ExpAt E 8 f f' :=
  .leaf (.str f.look.s) trivial le_rfl (fun hk => by rw [Token.norm, hk]; rfl) (fun _ => rfl) h

theorem ExpAt.bool (b : Bool) (h : Rule E [.t (if b then .true_ else .false_),
    .a (if b then .opPushTrue else .opPushFalse)] f f') : ExpAt E 8 f f' := by
  refine .leaf (.bool b) trivial le_rfl (fun hk => ?_) (fun m => ?_) h
  · rw [Token.norm, hk]
    cases b <;> rfl
  · cases b <;> rfl

theorem ExpAt.paren (h : Rule E [.t .lparen, .n .exp, .t .rparen] f f') : ExpAt E 8 f f' := by
  obtain ⟨f1, hm, f2, ⟨e, hp, -, hy⟩, f3, hm', rfl⟩ := h
  exact ⟨.paren e, hp, le_rfl, (hy.then_tok hm' rfl).tok hm rfl⟩

theorem pushes_ident (hm : (parser E).Matches .id f f1) (ha : (parser E).Acts .opPushTmp f1 f2) :
    Action.opPushTmp.on E f.look.s f.st = .ok f2.st ∧ ∀ {ks q}, Reads ks (pos f2) q →
      Reads (idTok f.look.s :: ks) (pos f) q := by
  refine ⟨?_, fun hr => ?_⟩
  · rw [← matches_st hm, ← matches_last hm]
    exact acts_pushTmp ha
  · rw [acts_pos ha] at hr
    exact matches_readsId hm hr

theorem IdTail.tree {α : Type} {K : Kind α} (hm : (parser E).Matches .id f f1)
    (ha : (parser E).Acts .opPushTmp f1 f2) (ht : IdTail E K f2 f') :
    ∃ x, K.Parsed x ∧ Yields (K.tokens x) (K.emit x) f f' := by
  obtain ⟨mk, ks, hr, h⟩ := ht
  obtain ⟨hon, hreads⟩ := pushes_ident hm ha
  obtain ⟨hp, htok, hem⟩ := h f.look.s
  refine ⟨mk f.look.s, hp, ?_, hem _ hon⟩
  rw [htok]
  exact hreads hr

theorem ExpAt.ident (h : Rule E [.t .id, .a .opPushTmp, .n .idEval1] f f') : ExpAt E 8 f f' := by
  obtain ⟨f1, hm, f2, ha, f3, ht, rfl⟩ := h
  obtain ⟨e, ⟨hp, hlev⟩, hy⟩ := IdTail.tree hm ha ht
  exact ⟨e, hp, hlev, hy⟩

theorem IdTail.var (h : Rule E [.a .opVarEval] f f') : IdTail E (operand E) f f' := by
  obtain ⟨f1, ha, rfl⟩ := h
  exact ⟨.var, [], acts_pos ha, fun s => ⟨⟨trivial, le_rfl⟩, rfl, fun m hm =>
    ok_bind hm (acts_run ha rfl)⟩⟩

theorem CallAt.mk (hl : lookup.readsToken = false)
    (h : Rule E [.a lookup, .t .lparen, .n .argListOpt, .t .rparen, .a .opCall] f f') :
    CallAt E lookup f f' := by
  obtain ⟨f1, ha, f2, hm, f3, ⟨as, hp, hy⟩, f4, hm', f5, hc, rfl⟩ := h
  have hy := (hy.then_tok hm' rfl).tok hm rfl
  refine ⟨as, hp, ?_, f1.st, f4.st, acts_run ha hl, hy.2, acts_run hc rfl⟩
  rw [acts_pos hc, ← acts_pos ha]
  exact hy.1

theorem CallAt.then_act (h : CallAt E lookup f f1) (ha : (parser E).Acts a f1 f')
    (hr : a.readsToken = false) :
    ∃ as : Args, as.Parsed ∧ Yields (tk .lparen :: as.tokens ++ [tk .rparen])
      (fun m => lookup.run E m >>= fun m => as.emit E m >>= fun m => Action.opCall.run E m >>=
        a.run E) f f' := by
  obtain ⟨as, hp, hreads, m1, m2, h1, h2, h3⟩ := h
  refine ⟨as, hp, ?_, ok_bind h1 (ok_bind h2 (ok_bind h3 (acts_run ha hr)))⟩
  rw [acts_pos ha]
  exact hreads

theorem IdTail.call (h : Rule E [.n .functionCall, .a .opCallRet] f f') :
    IdTail E (operand E) f f' := by
  obtain ⟨f1, hc, f2, ha, rfl⟩ := h
  obtain ⟨as, hp, hr, hem⟩ := hc.then_act ha rfl
  exact ⟨fun s => .call s as, _, hr, fun s => ⟨⟨hp, le_rfl⟩, rfl, fun m hm => ok_bind hm hem⟩⟩

theorem reads_object (hm : (parser E).Matches .dot f f1) (ha : (parser E).Acts .opObjectGet f1 f2)
    (hr : Reads ks (pos f2) (pos f')) : Reads (tk .dot :: ks) (pos f) (pos f') ∧
      ∀ {s m}, Action.opPushTmp.on E s m = .ok f.st → (Base.obj s).emit E m = .ok f2.st := by
  rw [acts_pos ha] at hr
  refine ⟨matches_reads hm rfl hr, fun hs => ok_bind hs ?_⟩
  rw [← matches_st hm]
  exact acts_run ha rfl

theorem reads_item {f4 f5 : Feed} (hm : (parser E).Matches .lbracket f f1) (he : ExpAt E 0 f1 f2)
    (hm' : (parser E).Matches .rbracket f2 f3) (ha : (parser E).Acts .opArrayXlat f3 f4)
    (hd : (parser E).Matches .dot f4 f5) (hr : Reads ks (pos f5) (pos f')) : ∃ i : Exp, i.Parsed ∧
      Reads (tk .lbracket :: i.tokens ++ tk .rbracket :: tk .dot :: ks) (pos f) (pos f') ∧
      ∀ {s m}, Action.opPushTmp.on E s m = .ok f.st → (Base.item s i).emit E m = .ok f5.st := by
  obtain ⟨i, hi, -, hy⟩ := he
  have hd' := matches_reads hd rfl hr
  rw [acts_pos ha] at hd'
  have hy := (hy.then_tok hm' rfl).tok hm rfl
  refine ⟨i, hi, ?_, fun hs => ok_bind hs (ok_bind hy.2 ?_)⟩
  · simpa using hy.1.append hd'
  · rw [matches_st hd]
    exact acts_run ha rfl

section
variable {α : Type} {K : Kind α} {n : NonTerm}

theorem IdTail.obj (hn : Spec E n = AttrTail E K)
    (h : Rule E [.t .dot, .a .opObjectGet, .n n] f f') : IdTail E K f f' := by
  obtain ⟨f1, hm, f2, ha, f3, ht, rfl⟩ := h
  rw [hn] at ht
  obtain ⟨mk, ks, hr, h⟩ := ht
  obtain ⟨hreads, hobj⟩ := reads_object hm ha hr
  refine ⟨fun s => mk (.obj s), tk .dot :: ks, hreads, fun s => ?_⟩
  obtain ⟨hp, htok, hem⟩ := h (.obj s) trivial
  exact ⟨hp, htok, fun m hs => hem m (hobj hs)⟩

theorem IdTail.item (hn : Spec E n = AttrTail E K) (h : Rule E [.t .lbracket, .n .exp, .t .rbracket,
    .a .opArrayXlat, .t .dot, .n n] f f') : IdTail E K f f' := by
  obtain ⟨f1, hm, f2, he, f3, hm', f4, ha, f5, hd, f6, ht, rfl⟩ := h
  rw [hn] at ht
  obtain ⟨mk, ks, hr, h⟩ := ht
  obtain ⟨i, hi, hreads, hitem⟩ := reads_item hm he hm' ha hd hr
  refine ⟨fun s => mk (.item s i), _, hreads, fun s => ?_⟩
  obtain ⟨hp, htok, hem⟩ := h (.item s i) hi
  exact ⟨hp, by simp [htok, Base.tokens], fun m hs => hem m (hitem hs)⟩

theorem AttrTail.mk (hn : Spec E n = MemberTail E K)
    (h : Rule E [.t .id, .a .opPushTmp, .n n] f f') : AttrTail E K f f' := by
  obtain ⟨f1, hm, f2, ha, f3, ht, rfl⟩ := h
  rw [hn] at ht
  obtain ⟨mk, ks, hr, h⟩ := ht
  obtain ⟨hon, hreads⟩ := pushes_ident hm ha
  refine ⟨fun o => mk o f.look.s, idTok f.look.s :: ks, hreads hr, fun o ho => ?_⟩
  obtain ⟨hp, htok, hem⟩ := h o f.look.s ho
  exact ⟨hp, htok, fun m hem' => hem m _ hem' hon⟩

end

theorem MemberTail.attr (h : Rule E [.a .opAttrEval] f f') : MemberTail E (operand E) f f' := by
  obtain ⟨f1, ha, rfl⟩ := h
  exact ⟨.attr, [], acts_pos ha, fun o s ho => ⟨⟨ho, le_rfl⟩, rfl, fun m m1 hm hs =>
    ok_bind hm (ok_bind hs (acts_run ha rfl))⟩⟩

theorem MemberTail.method (h : Rule E [.n .methodCall, .a .opCallRet] f f') :
    MemberTail E (operand E) f f' := by
  obtain ⟨f1, hc, f2, ha, rfl⟩ := h
  obtain ⟨as, hp, hr, hem⟩ := hc.then_act ha rfl
  exact ⟨fun o s => .method o s as, _, hr, fun o s ho => ⟨⟨⟨ho, hp⟩, le_rfl⟩, by simp [operand, Exp.tokens],
    fun m m1 hm hs => ok_bind hm (ok_bind hs hem)⟩⟩

theorem MemberTail.elem (h : Rule E [.t .lbracket, .n .exp, .t .rbracket, .a .opArrayEval] f f') :
    MemberTail E (operand E) f f' := by
  obtain ⟨f1, hm, f2, ⟨i, hi, -, hy⟩, f3, hm', f4, ha, rfl⟩ := h
  obtain ⟨hr, hem⟩ := ((hy.then_tok hm' rfl).tok hm rfl).then_act ha rfl
  exact ⟨fun o s => .elem o s i, _, hr, fun o s ho => ⟨⟨⟨ho, hi⟩, le_rfl⟩, by simp [operand, Exp.tokens],
    fun m m1 hm hs => ok_bind hm (ok_bind hs hem)⟩⟩

theorem ArgsAt.cons (h : Rule E [.n .exp, .a .opArg, .n .argList1] f f') : Spec E .argList f f' := by
  obtain ⟨f1, ⟨e, hp, -, hy⟩, f2, ha, f3, ht, rfl⟩ := h
  obtain rfl | ⟨e', as, hp', has, hy'⟩ := ht
  · have hy : Yields (e.tokens ++ []) _ f f' := hy.seq (.act ha rfl ⟨rfl, rfl⟩)
    exact ⟨e, .nil, hp, trivial, hy.cast (by simp [Args.tokens])⟩
  · exact ⟨e, .cons e' as, hp, ⟨hp', has⟩, hy.seq (.act ha rfl hy')⟩

theorem ArgsTail.mk (h : Rule E [.t .comma, .n .argList] f f') : ArgsTail E f f' := by
  obtain ⟨f1, hm, f2, ⟨e, as, hp, has, hy⟩, rfl⟩ := h
  exact .inr ⟨e, as, hp, has, hy.tok hm rfl⟩

/-! ### Statements that start with an identifier -/

theorem IdTail.assign (h : Rule E [.t .equals, .n .exp, .a .opVarAssign] f f') :
    IdTail E (statement E) f f' := by
  obtain ⟨f1, hm, f2, ⟨e, hp, -, hy⟩, f3, ha, rfl⟩ := h
  obtain ⟨hr, hem⟩ := (hy.then_act ha rfl).tok hm rfl
  exact ⟨fun s => .assign s e, _, hr, fun s => ⟨hp, rfl, fun m hs => ok_bind hs hem⟩⟩

theorem IdTail.callStat (h : Rule E [.n .functionCall, .a .opRetDiscard] f f') :
    IdTail E (statement E) f f' := by
  obtain ⟨f1, hc, f2, ha, rfl⟩ := h
  obtain ⟨as, hp, hr, hem⟩ := hc.then_act ha rfl
  exact ⟨fun s => .call s as, _, hr, fun s => ⟨hp, rfl, fun m hm => ok_bind hm hem⟩⟩

theorem MemberTail.assign (h : Rule E [.t .equals, .n .exp, .a .opAttrAssign] f f') :
    MemberTail E (statement E) f f' := by
  obtain ⟨f1, hm, f2, ⟨e, hp, -, hy⟩, f3, ha, rfl⟩ := h
  obtain ⟨hr, hem⟩ := (hy.then_act ha rfl).tok hm rfl
  exact ⟨fun o s => .attr o s e, _, hr, fun o s ho => ⟨⟨ho, hp⟩, rfl, fun m m1 hm hs =>
    ok_bind hm (ok_bind hs hem)⟩⟩

theorem MemberTail.elemAssign (h : Rule E [.t .lbracket, .n .exp, .t .rbracket, .t .equals, .n .exp,
    .a .opArrayAssign] f f') : MemberTail E (statement E) f f' := by
  obtain ⟨f1, hm, f2, ⟨i, hpi, -, hi⟩, f3, hm', f4, hq, f5, ⟨e, hp, -, he⟩, f6, ha, rfl⟩ := h
  obtain ⟨hr, hem⟩ := (hi.seq (((he.then_act ha rfl).tok hq rfl).tok hm' rfl)).tok hm rfl
  exact ⟨fun o s => .elem o s i e, _, hr, fun o s ho => ⟨⟨ho, hpi, hp⟩, by simp [statement, Simple.tokens],
    fun m m1 hm hs => ok_bind hm (ok_bind hs hem)⟩⟩

theorem MemberTail.methodStat (h : Rule E [.n .methodCall, .a .opRetDiscard] f f') :
    MemberTail E (statement E) f f' := by
  obtain ⟨f1, hc, f2, ha, rfl⟩ := h
  obtain ⟨as, hp, hr, hem⟩ := hc.then_act ha rfl
  exact ⟨fun o s => .method o s as, _, hr, fun o s ho => ⟨⟨ho, hp⟩, by simp [statement, Simple.tokens],
    fun m m1 hm hs => ok_bind hm (ok_bind hs hem)⟩⟩

theorem SimplesAt.cons (h : Rule E [.t .id, .a .opPushTmp, .n .assignOrCall1, .n .expLst1] f f') :
    Spec E .expLst f f' := by
  obtain ⟨f1, hm, f2, ha, f3, ht, f4, hl, rfl⟩ := h
  obtain ⟨s, hs, hy⟩ := IdTail.tree hm ha ht
  obtain rfl | ⟨s', l, hp, hy'⟩ := hl
  · exact ⟨s, [], forall_mem_singleton.mpr hs, hy.1, ok_bind hy.2 rfl⟩
  · exact ⟨s, s' :: l, forall_mem_cons.mpr ⟨hs, hp⟩, hy.seq hy'⟩

theorem SimplesTail.mk (h : Rule E [.t .comma, .n .expLst] f f') : SimplesTail E f f' := by
  obtain ⟨f1, hm, f2, ⟨s, l, hp, hy⟩, rfl⟩ := h
  exact .inr ⟨s, l, hp, hy.tok hm rfl⟩

/-! ### Declarations -/

theorem InitAt.none (h : Rule E [.a .opPopTmp] f f') : InitAt E f f' := by
  obtain ⟨f1, ha, rfl⟩ := h
  exact ⟨.none, [], acts_pos ha, by simp,
    fun s => ⟨rfl, fun m m1 hm hs => ok_bind hm (ok_bind hs (acts_run ha rfl))⟩⟩

theorem InitAt.some (h : Rule E [.t .equals, .n .exp, .a .opVarAssign] f f') : InitAt E f f' := by
  obtain ⟨f1, hm, f2, ⟨e, hp, -, hy⟩, f3, ha, rfl⟩ := h
  obtain ⟨hr, hem⟩ := (hy.then_act ha rfl).tok hm rfl
  exact ⟨.some e, _, hr, by simpa using hp,
    fun s => ⟨rfl, fun m m1 hm hs => ok_bind hm (ok_bind hs hem)⟩⟩

theorem declares_ident (hm : (parser E).Matches .id f f1) (hd : (parser E).Acts .opVarDecl f1 f2)
    (ha : (parser E).Acts .opPushTmp f2 f3) : Action.opVarDecl.on E f.look.s f.st = .ok f2.st ∧
      Action.opPushTmp.on E f.look.s f2.st = .ok f3.st ∧ ∀ {ks q}, Reads ks (pos f3) q →
      Reads (idTok f.look.s :: ks) (pos f) q := by
  refine ⟨?_, ?_, fun hr => ?_⟩
  · rw [← matches_st hm, ← matches_last hm]
    exact acts_varDecl hd
  · rw [← matches_last hm, ← acts_last hd]
    exact acts_pushTmp ha
  · rw [acts_pos ha, acts_pos hd] at hr
    exact matches_readsId hm hr

theorem VarAt.mk (h : Rule E [.t .id, .a .opVarDecl, .a .opPushTmp, .n .varAssignOpt] f f') :
    VarAt E f f' := by
  obtain ⟨f1, hm, f2, hd, f3, ha, f4, ⟨i, ks, hr, hp, h⟩, rfl⟩ := h
  obtain ⟨hdecl, hpush, hreads⟩ := declares_ident hm hd ha
  obtain ⟨htok, hem⟩ := h f.look.s
  refine ⟨(f.look.s, i), hp, ?_, hem _ f2.st hdecl hpush⟩
  rw [htok]
  exact hreads hr

theorem VarListAt.mk (h : Rule E [.n .var_, .n .varList1] f f') : VarListAt E f f' := by
  obtain ⟨f1, ⟨v, hp, hy⟩, f2, ⟨vs, hps, hys⟩, rfl⟩ := h
  exact ⟨v, vs, forall_mem_cons.mpr ⟨hp, hps⟩, hy.seq hys⟩

theorem VarsAt.mk (h : Rule E [.t .comma, .n .varList] f f') : VarsAt E f f' := by
  obtain ⟨f1, hm, f2, ⟨v, vs, hp, hy⟩, rfl⟩ := h
  exact ⟨v :: vs, hp, hy.tok hm rfl⟩

/-! ### Statements -/

theorem BlockAt.mk (h : Rule E [.t .lbrace, .a .opBlkOpen, .n .statList, .t .rbrace, .a .opBlkClose]
    f f') : BlockAt E f f' := by
  obtain ⟨f1, hm, f2, ho, f3, ⟨b, hp, hr, hem⟩, f4, hm', f5, hc, rfl⟩ := h
  refine ⟨b, hp, ?_, f2.st, f3.st, ?_, hem, ?_⟩
  · rw [acts_pos hc]
    rw [acts_pos ho] at hr
    exact matches_reads hm rfl (hr.append (matches_reads hm' rfl rfl))
  · rw [← matches_st hm]
    exact acts_run ho rfl
  · rw [← matches_st hm']
    exact acts_run hc rfl

theorem BlockAt.seq (h : BlockAt E f f1) : ∃ b : Block, b.Parsed ∧
    ∀ {ks em f'}, Yields ks em f1 f' → Yields (tk .lbrace :: b.tokens ++ tk .rbrace :: ks)
      (fun m => Action.opBlkOpen.run E m >>= fun m => b.emit E m >>= fun m =>
        Action.opBlkClose.run E m >>= em) f f' := by
  obtain ⟨b, hp, hr, m1, m2, h1, h2, h3⟩ := h
  refine ⟨b, hp, fun hy => ⟨?_, ok_bind h1 (ok_bind h2 (ok_bind h3 hy.2))⟩⟩
  simpa using hr.append hy.1

theorem condition_mk (h : Rule E [.t .lparen, .n .exp, .t .rparen] f f') :
    Spec E .condition f f' := by
  obtain ⟨f1, hm, f2, ⟨e, hp, -, hy⟩, f3, hm', rfl⟩ := h
  exact ⟨e, hp, (hy.then_tok hm' rfl).tok hm rfl⟩

theorem ElseAt.mk (h : Rule E [.t .else_, .a .opIfElse, .n .compoundStat] f f') :
    ElseAt E f f' := by
  obtain ⟨f1, hm, f2, ha, f3, ⟨b, hp, hr, hs⟩, rfl⟩ := h
  rw [acts_pos ha] at hr
  refine .inr ⟨b, hp, matches_reads hm rfl hr, f2.st, ?_, hs⟩
  rw [← matches_st hm]
  exact acts_run ha rfl

theorem StatAt.for_ (h : Rule E [.t .for_, .t .lparen, .n .expLstOpt, .t .semicolon, .a .opForInit,
    .n .exp, .a .opForCond, .t .semicolon, .n .expLstOpt, .a .opForAfter, .t .rparen,
    .n .compoundStat, .a .opForEnd] f f') : StatAt E f f' := by
  obtain ⟨f1, hm, f2, hm1, f3, ⟨init, hpi, hi⟩, f4, hm2, f5, hai, f6, ⟨cond, hpc, -, hc⟩, f7, hac,
    f8, hm3, f9, ⟨after, hpa, ha⟩, g1, haa, g2, hm4, g3, hb, g4, hae, rfl⟩ := h
  obtain ⟨body, hpb, hb⟩ := hb.seq
  have hbody := ((hb (.of_act hae rfl)).tok hm4 rfl).act haa rfl
  have hrest := (((ha.seq hbody).tok hm3 rfl).act hac rfl)
  have hy := (hi.seq (((hc.seq hrest).act hai rfl).tok hm2 rfl)).tok hm1 rfl
  exact ⟨.for_ init cond after body, ⟨hpi, hpc, hpa, hpb⟩,
    (hy.tok hm rfl).cast (by simp [Stat.tokens])⟩

theorem StatAt.while_ (h : Rule E [.t .while_, .a .opWhileBegin, .n .condition, .a .opWhileCond,
    .n .compoundStat, .a .opWhileEnd] f f') : StatAt E f f' := by
  obtain ⟨f1, hm, f2, hab, f3, ⟨cond, hpc, hc⟩, f4, hac, f5, hb, f6, hae, rfl⟩ := h
  obtain ⟨body, hpb, hb⟩ := hb.seq
  have hy := (hc.seq ((hb (.of_act hae rfl)).act hac rfl)).act hab rfl
  exact ⟨.while_ cond body, ⟨hpc, hpb⟩, (hy.tok hm rfl).cast (by simp [Stat.tokens])⟩

theorem StatAt.if_ (h : Rule E [.t .if_, .n .condition, .a .opIfCond, .n .compoundStat, .n .elseOpt,
    .a .opIfEnd] f f') : StatAt E f f' := by
  obtain ⟨f1, hm, f2, ⟨cond, hpc, hc⟩, f3, hac, f4, hb, f5, hel, f6, hae, rfl⟩ := h
  obtain ⟨body, hpb, hb⟩ := hb.seq
  have hend := Yields.of_act hae rfl
  obtain rfl | ⟨els, hpe, hr, m1, hif, m2, m3, h1, h2, h3⟩ := hel
  · have hy := hc.seq ((hb hend).act hac rfl)
    exact ⟨.ifThen cond body, ⟨hpc, hpb⟩, (hy.tok hm rfl).cast (by simp [Stat.tokens])⟩
  · have hels : Yields _ (fun m => Action.opIfElse.run E m >>= fun m => Action.opBlkOpen.run E m >>=
        fun m => els.emit E m >>= fun m => Action.opBlkClose.run E m >>= Action.opIfEnd.run E) f4 f' :=
      ⟨hr.append hend.1, ok_bind hif (ok_bind h1 (ok_bind h2 (ok_bind h3 hend.2)))⟩
    have hy := hc.seq ((hb hels).act hac rfl)
    exact ⟨.ifElse cond body els, ⟨hpc, hpb, hpe⟩, (hy.tok hm rfl).cast (by simp [Stat.tokens])⟩

theorem CatchAt.end_ (h : Rule E [.a .opTryEnd] f f') : CatchAt E f f' := by
  obtain ⟨f1, ha, rfl⟩ := h
  exact .inl (.of_act ha rfl)

theorem CatchAt.mk (h : Rule E [.t .catch_, .a .opCatch, .a .opBlkOpen, .t .lparen, .t .id,
    .a .opVarDecl, .a .opPushTmp, .a .opVarAssign, .t .rparen, .t .lbrace, .n .statList, .t .rbrace,
    .a .opBlkClose, .a .opCatchEnd] f f') : CatchAt E f f' := by
  obtain ⟨f1, hm, f2, hc, f3, ho, f4, hm1, f5, hm2, f6, hd, f7, hpt, f8, ha, f9, hm3, g1, hm4, g2,
    ⟨b, hp, hy⟩, g3, hm5, g4, hcl, g5, he, rfl⟩ := h
  have hend : Yields [tk .rbrace] _ g2 f' :=
    ((Yields.of_act he rfl).act hcl rfl).tok hm5 rfl
  have hy := (((hy.seq hend).tok hm4 rfl).tok hm3 rfl).act ha rfl
  obtain ⟨hdecl, hpush, hreads⟩ := declares_ident hm2 hd hpt
  refine .inr ⟨f4.look.s, b, hp, (Yields.act hc rfl (.act ho rfl (.tok hm1 rfl ?_))).tok hm rfl⟩
  exact ⟨hreads hy.1, ok_bind hdecl (ok_bind hpush hy.2)⟩

theorem StatAt.try_ (h : Rule E [.t .try_, .a .opTryBegin, .n .compoundStat, .n .catchOpt] f f') :
    StatAt E f f' := by
  obtain ⟨f1, hm, f2, ha, f3, hb, f4, hc, rfl⟩ := h
  obtain ⟨body, hpb, hb⟩ := hb.seq
  obtain hc | ⟨s, b, hp, hc⟩ := hc
  · exact ⟨.try_ body, hpb, (((hb hc).act ha rfl).tok hm rfl).cast (by simp [Stat.tokens])⟩
  · exact ⟨.tryCatch body s b, ⟨hpb, hp⟩,
      (((hb hc).act ha rfl).tok hm rfl).cast (by simp [Stat.tokens])⟩

theorem SemiAt.throw_ (h : Rule E [.t .throw_, .n .exp, .a .opThrow] f f') : SemiAt E f f' := by
  obtain ⟨f1, hm, f2, ⟨e, hp, -, hy⟩, f3, ha, rfl⟩ := h
  exact ⟨.throw_ e, hp, (hy.then_act ha rfl).tok hm rfl⟩

theorem SemiAt.vars (h : Rule E [.t .var_, .n .varList] f f') : SemiAt E f f' := by
  obtain ⟨f1, hm, f2, ⟨v, vs, hp, hy⟩, rfl⟩ := h
  exact ⟨.vars v vs, hp, hy.tok hm rfl⟩

theorem SemiAt.simple (h : Rule E [.t .id, .a .opPushTmp, .n .assignOrCall1] f f') :
    SemiAt E f f' := by
  obtain ⟨f1, hm, f2, ha, f3, ht, rfl⟩ := h
  obtain ⟨s, hs, hy⟩ := IdTail.tree hm ha ht
  exact ⟨.simple s, hs, hy⟩

theorem StatsAt.stat (h : Rule E [.n .stat, .n .statList] f f') : StatsAt E f f' := by
  obtain ⟨f1, ⟨s, hs, hy⟩, f2, ⟨b, hb, hy'⟩, rfl⟩ := h
  exact ⟨.stat s b, ⟨hs, hb⟩, hy.seq hy'⟩

theorem StatsAt.semi (h : Rule E [.n .semiStat, .t .semicolon, .n .statList] f f') :
    StatsAt E f f' := by
  obtain ⟨f1, ⟨s, hs, hy⟩, f2, hm, f3, ⟨b, hb, hy'⟩, rfl⟩ := h
  exact ⟨.semi s b, ⟨hs, hb⟩, hy.seq (hy'.tok hm rfl)⟩

theorem ProgramAt.stat (h : Rule E [.n .stat, .n .program] f f') : ProgramAt E f f' := by
  obtain ⟨f1, ⟨s, hs, hy⟩, f2, ⟨p, hp, hy'⟩, rfl⟩ := h
  exact ⟨.stat s p, ⟨hs, hp⟩, hy.seq hy'⟩

theorem ProgramAt.semi (h : Rule E [.n .semiStat, .n .semiList] f f') : ProgramAt E f f' := by
  obtain ⟨f1, ⟨s, hs, hr, hem⟩, f2, hl, rfl⟩ := h
  obtain ⟨hr', hem'⟩ | ⟨p, hp, hy'⟩ := hl
  · obtain hst : f1.st = f'.st := Except.ok.inj hem'
    refine ⟨.last s, hs, hr.append hr', ?_⟩
    rw [← hst]
    exact hem
  · exact ⟨.semi s p, ⟨hs, hp⟩, Yields.seq ⟨hr, hem⟩ hy'⟩

theorem ProgramAt.block (h : Rule E [.n .compoundStat, .n .program] f f') : ProgramAt E f f' := by
  obtain ⟨f1, hb, f2, ⟨p, hp, hy⟩, rfl⟩ := h
  obtain ⟨b, hpb, hb⟩ := hb.seq
  exact ⟨.block b p, ⟨hpb, hp⟩, (hb hy).cast (by simp [Program.tokens])⟩

theorem yields_eof (hm : (parser E).Matches .eof f f') : Yields [tk .eof] .ok f f' :=
  ⟨matches_reads hm rfl rfl, congrArg Except.ok (matches_st hm).symm⟩

theorem ProgramTail.semi (h : Rule E [.t .semicolon, .n .program] f f') : ProgramTail E f f' := by
  obtain ⟨f1, hm, f2, ⟨p, hp, hy⟩, rfl⟩ := h
  exact .inr ⟨p, hp, hy.tok hm rfl⟩

/-! ## The tables -/

/-- **Each rule builds its part of the tree.** -/
theorem spec_of_predict {n : NonTerm} {γ : List Symbol}
    (hp : microjsLlPush n f.look.typ = some γ) (h : Rule E γ f f') : Spec E n f f' := by
  have hγ : γ ∈ n.rules.filterMap (ruleVec[·]?) :=
    List.mem_filterMap.mpr (exists_rule_of_microjsLlPush hp)
  cases n with
  | program =>
    fin_cases hγ
    · obtain ⟨_, hm, rfl⟩ := h
      exact ⟨.eof, trivial, yields_eof hm⟩
    · exact ProgramAt.stat h
    · exact ProgramAt.semi h
    · exact ProgramAt.block h
  | stat =>
    fin_cases hγ
    · exact StatAt.for_ h
    · exact StatAt.while_ h
    · exact StatAt.if_ h
    · exact StatAt.try_ h
  | semiStat =>
    fin_cases hγ
    · exact SemiAt.throw_ h
    · exact SemiAt.vars h
    · exact SemiAt.simple h
  | semiList =>
    fin_cases hγ
    · obtain ⟨_, hm, rfl⟩ := h
      exact .inl (yields_eof hm)
    · exact ProgramTail.semi h
  | compoundStat =>
    fin_cases hγ
    exact BlockAt.mk h
  | varList =>
    fin_cases hγ
    exact VarListAt.mk h
  | var_ =>
    fin_cases hγ
    exact VarAt.mk h
  | varList1 =>
    fin_cases hγ
    · cases h
      exact ⟨[], by simp, rfl, rfl⟩
    · exact VarsAt.mk h
  | varAssignOpt =>
    fin_cases hγ
    · exact InitAt.none h
    · exact InitAt.some h
  | assignOrCall1 =>
    fin_cases hγ
    · exact IdTail.assign h
    · exact IdTail.callStat h
    · exact IdTail.item rfl h
    · exact IdTail.obj rfl h
  | functionCall | methodCall =>
    fin_cases hγ
    exact CallAt.mk rfl h
  | attrAssign =>
    fin_cases hγ
    exact AttrTail.mk rfl h
  | attrAssign2 =>
    fin_cases hγ
    · exact MemberTail.assign h
    · exact MemberTail.elemAssign h
    · exact MemberTail.methodStat h
  | argListOpt =>
    fin_cases hγ
    · cases h
      exact ⟨.nil, trivial, rfl, rfl⟩
    · obtain ⟨_, ⟨e, as, he, has, hy⟩, rfl⟩ := h
      exact ⟨.cons e as, ⟨he, has⟩, hy⟩
  | argList =>
    fin_cases hγ
    exact ArgsAt.cons h
  | argList1 =>
    fin_cases hγ
    · exact .inl h
    · exact ArgsTail.mk h
  | expLstOpt =>
    fin_cases hγ
    · cases h
      exact ⟨[], by simp, rfl, rfl⟩
    · obtain ⟨_, ⟨s, l, hp, hy⟩, rfl⟩ := h
      exact ⟨s :: l, hp, hy⟩
  | expLst =>
    fin_cases hγ
    exact SimplesAt.cons h
  | expLst1 =>
    fin_cases hγ
    · exact .inl h
    · exact SimplesTail.mk h
  | exp | andExp | relationalExp | shiftExp | additiveExp | divExp | multExp =>
    fin_cases hγ
    exact ExpAt.bin h
  | orExp =>
    fin_cases hγ
    · exact .inl h
    · exact TailAt.op .or h
    · exact TailAt.op .logicOr h
    · exact TailAt.op .xor h
  | andExp1 =>
    fin_cases hγ
    · exact .inl h
    · exact TailAt.op .and h
    · exact TailAt.op .logicAnd h
  | relationalExp1 =>
    fin_cases hγ
    · exact .inl h
    · exact TailAt.op .lt h
    · exact TailAt.op .gt h
    · exact TailAt.op .equ h
    · exact TailAt.op .neq h
    · exact TailAt.op .gte h
    · exact TailAt.op .lte h
  | shiftExp1 =>
    fin_cases hγ
    · exact .inl h
    · exact TailAt.op .shl h
    · exact TailAt.op .asr h
  | additiveExp1 =>
    fin_cases hγ
    · exact .inl h
    · exact TailAt.op .add h
    · exact TailAt.op .sub h
  | divExp1 =>
    fin_cases hγ
    · exact .inl h
    · exact TailAt.op .div h
    · exact TailAt.op .mod h
  | multExp1 =>
    fin_cases hγ
    · exact .inl h
    · exact TailAt.op .mul h
  | unaryExp =>
    fin_cases hγ
    · obtain ⟨_, ⟨e, hp, hlev, hy⟩, rfl⟩ := h
      exact ⟨e, hp, by omega, hy⟩
    · exact ExpAt.un .inv h
    · exact ExpAt.un .minus h
    · exact ExpAt.un .not h
  | primaryExp =>
    fin_cases hγ
    · exact ExpAt.paren h
    · exact ExpAt.int h
    · exact ExpAt.char h
    · exact ExpAt.str h
    · exact ExpAt.bool true h
    · exact ExpAt.bool false h
    · obtain ⟨_, h1, rfl⟩ := h
      exact h1
  | idEval =>
    fin_cases hγ
    exact ExpAt.ident h
  | idEval1 =>
    fin_cases hγ
    · exact IdTail.var h
    · exact IdTail.call h
    · exact IdTail.item rfl h
    · exact IdTail.obj rfl h
  | attrEval =>
    fin_cases hγ
    exact AttrTail.mk rfl h
  | attrEval1 =>
    fin_cases hγ
    · exact MemberTail.attr h
    · exact MemberTail.method h
    · exact MemberTail.elem h
  | statList =>
    fin_cases hγ
    · cases h
      exact ⟨.nil, trivial, rfl, rfl⟩
    · exact StatsAt.stat h
    · exact StatsAt.semi h
  | condition =>
    fin_cases hγ
    exact condition_mk h
  | elseOpt =>
    fin_cases hγ
    · exact .inl h
    · exact ElseAt.mk h
  | catchOpt =>
    fin_cases hγ
    · exact CatchAt.end_ h
    · exact CatchAt.mk h

/-- **A successful parse is the translation of a tree.**  The machine has read the tree's tokens, and
one more that reads as the end of the text. -/
theorem exists_program_of_run (h : (parser E).run n microjsLlStart f = some (.ok f')) :
    ∃ p : Program, p.Parsed ∧ Yields (p.tokens ++ [tk .eof]) (p.emit E) f f' := by
  have hn : ∀ {x γ} {f f' : Feed}, (parser E).predict x ((parser E).typ f.look) = some γ →
      (parser E).Follows (Spec E) γ f f' → Spec E x f f' := spec_of_predict
  obtain ⟨f1, ⟨p, hp, hr, hem⟩, f2, hm, rfl⟩ := follows_of_run hn h
  refine ⟨p, hp, hr.append (matches_reads hm rfl rfl), ?_⟩
  rw [matches_st hm]
  exact hem

/-- The scanner delivers the tokens `ks` from the start of a text. -/
def Lexes (txt : List Char) (ks : List Token) : Prop :=
  ∃ p q, lexerScan (lexerOpen txt) = .ok p ∧ Reads ks p q

/-- **What `microjs_compile` does.** -/
theorem exists_program_of_microjsCompile {m m' : Sdt} {txt : List Char}
    (h : microjsCompile E n m txt = some (.ok m')) :
    ∃ p : Program, p.Parsed ∧ Lexes txt (p.tokens ++ [tk .eof]) ∧ p.emit E m = .ok m' := by
  unfold microjsCompile at h
  split at h
  · rename_i htxt
    -- an empty text is not scanned at all; its tree is the empty program
    cases length_eq_zero_iff.mp htxt
    cases h
    exact ⟨.eof, trivial, ⟨(tk .eof, []), (tk .eof, []), rfl, rfl, _, rfl, rfl, _, rfl, rfl⟩, rfl⟩
  · split at h
    · cases h
    · rename_i look lex hscan
      obtain ⟨r, hrun, hr⟩ := Option.map_eq_some_iff.mp h
      cases r with
      | error e => cases hr
      | ok f' =>
        cases hr
        obtain ⟨p, hp, hreads, hem⟩ := exists_program_of_run hrun
        exact ⟨p, hp, ⟨(look, lex), _, hscan, hreads⟩, hem⟩

end

end MicroJS
