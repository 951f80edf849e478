import Mathlib.Order.Filter.AtTopBot.Basic
import ThinkOS.MicroJS.Parse

/-!
# MicroJS: a text has one tree

A parser by recursive descent gives a tree back from its tokens, so that two trees of the grammar with
the same tokens are equal. It trusts the tokens to be those of a tree. With enough steps (`∀ᶠ`) it reads
a tree where what follows does not continue it: an expression of a precedence class ends where no
operator of the class or a tighter one, no call, index or member access follows (`Stop`).
-/

namespace MicroJS

open List Option

variable {txt : List Char} {r : List Token} {p p' : Program}

open Filter

/-! ## The parser -/

/-- The class of the next token. -/
def next : List Token → Term
  | [] => .err
  | k :: _ => k.typ

/-- The name of the next token. -/
def nameOf : List Token → Name
  | [] => []
  | k :: _ => k.s

@[simp] theorem next_cons (k : Token) (ks : List Token) : next (k :: ks) = k.typ := rfl

@[simp] theorem nameOf_cons (k : Token) (ks : List Token) : nameOf (k :: ks) = k.s := rfl

@[simp] theorem typ_tk (t : Term) : (tk t).typ = t := rfl

@[simp] theorem typ_idTok {s : Name} : (idTok s).typ = .id := rfl

@[simp] theorem s_idTok (s : Name) : (idTok s).s = s := rfl

def UnOp.ofTerm (t : Term) : Option UnOp := [UnOp.inv, .minus, .not].find? fun o => o.term = t

def BinOp.ofTerm (t : Term) : Option BinOp :=
  [BinOp.or, .logicOr, .xor, .and, .logicAnd, .lt, .gt, .equ, .neq, .gte, .lte, .shl, .asr, .add, .sub,
    .div, .mod, .mul].find? fun o => o.term = t

mutual

/-- An expression of the class `n`. -/
def parseExp : Nat → Nat → List Token → Option (Exp × List Token)
  | 0, _, _ => none
  | f + 1, n, ks =>
    if n < 7 then do
      let (l, ks) ← parseExp f (n + 1) ks
      match (BinOp.ofTerm (next ks)).filter fun o => o.level = n with
      | some o => do
        let (r, ks) ← parseExp f n ks.tail
        some (.bin o l r, ks)
      | none => some (l, ks)
    else parseUnit f ks

/-- An expression that is no binary operator. -/
def parseUnit : Nat → List Token → Option (Exp × List Token)
  | 0, _ | _, [] => none
  | f + 1, k :: ks =>
    match k.typ with
    | .int => some (.int k.u32, ks)
    | .char => some (.char k.u32, ks)
    | .string => some (.str k.s, ks)
    | .true_ => some (.bool true, ks)
    | .false_ => some (.bool false, ks)
    | .lparen => do
      let (e, ks) ← parseExp f 0 ks
      some (.paren e, ks.tail)
    | .id =>
      match next ks with
      | .lparen => do
        let (as, ks) ← parseArgs f ks.tail
        some (.call k.s as, ks.tail)
      | .dot => parseMember f (.obj k.s) ks.tail
      | .lbracket => do
        let (i, ks) ← parseExp f 0 ks.tail
        parseMember f (.item k.s i) (ks.drop 2)
      | _ => some (.var k.s, ks)
    | t => do
      let o ← UnOp.ofTerm t
      let (e, ks) ← parseExp f 7 ks
      some (.un o e, ks)

/-- A member of the object `o`. -/
def parseMember : Nat → Base → List Token → Option (Exp × List Token)
  | 0, _, _ => none
  | f + 1, o, ks =>
    match next ks.tail with
    | .lparen => do
      let (as, ks') ← parseArgs f (ks.drop 2)
      some (.method o (nameOf ks) as, ks'.tail)
    | .lbracket => do
      let (i, ks') ← parseExp f 0 (ks.drop 2)
      some (.elem o (nameOf ks) i, ks'.tail)
    | _ => some (.attr o (nameOf ks), ks.tail)

def parseArgs : Nat → List Token → Option (Args × List Token)
  | 0, _ => none
  | f + 1, ks =>
    if next ks = .rparen then some (.nil, ks)
    else do
      let (e, ks) ← parseExp f 0 ks
      if next ks = .comma then do
        let (as, ks) ← parseArgs f ks.tail
        some (.cons e as, ks)
      else some (.cons e .nil, ks)

end

/-! ## Expressions -/

/-- A token of this class does not continue an expression of the class `n`. -/
def Stop (n : Nat) (r : List Token) : Prop :=
  next r ≠ .lparen ∧ next r ≠ .lbracket ∧ next r ≠ .dot ∧ ∀ o ∈ BinOp.ofTerm (next r), o.level < n

theorem Stop.mono {n m : Nat} (h : Stop n r) (hnm : n ≤ m) : Stop m r :=
  ⟨h.1, h.2.1, h.2.2.1, fun o ho => (h.2.2.2 o ho).trans_le hnm⟩

theorem BinOp.ofTerm_term (o : BinOp) : ofTerm o.term = some o := by cases o <;> rfl

theorem stop_op {o : BinOp} {n : Nat} (h : o.level < n) (r : List Token) :
    Stop n (tk o.term :: r) := by
  refine ⟨?_, ?_, ?_, ?_⟩
  · cases o <;> nofun
  · cases o <;> nofun
  · cases o <;> nofun
  · intro o' ho
    rw [show next (tk o.term :: r) = o.term from rfl, o.ofTerm_term] at ho
    cases ho
    exact h

/-- The tokens that end expressions of all classes. -/
def Term.ends (t : Term) : Bool :=
  match t with
  | .rparen | .rbracket | .semicolon | .comma | .eof => true
  | _ => false

theorem stop_ends (h : (next r).ends = true) (n : Nat) : Stop n r := by
  unfold Stop
  generalize next r = t at *
  cases t <;> first
    | (cases h; done)
    | exact ⟨nofun, nofun, nofun, nofun⟩

theorem eventually_succ {P : Nat → Prop} (h : ∀ᶠ f in atTop, P (f + 1)) : ∀ᶠ f in atTop, P f := by
  rw [← map_add_atTop_eq_nat 1]
  exact eventually_map.mpr h

section
variable {n m : Nat} {e : Exp} {ks : List Token}

/-- What is an expression of the next class and ends there is one of this class. -/
theorem parses_of_succ (h : ∀ᶠ f in atTop, parseExp f (n + 1) ks = some (e, r)) (hn : n < 7)
    (hr : Stop n r) : ∀ᶠ f in atTop, parseExp f n ks = some (e, r) := by
  have hop : (BinOp.ofTerm (next r)).filter (fun o => o.level = n) = none := by
    rw [filter_eq_none_iff]
    intro o ho
    have := hr.2.2.2 o ho
    simp
    omega
  refine eventually_succ ?_
  filter_upwards [h] with f h
  simp [parseExp, hn, h, hop]

theorem parses_of_le (h : ∀ᶠ f in atTop, parseExp f m ks = some (e, r)) (hnm : n ≤ m) (hm : m ≤ 7)
    (hr : Stop n r) : ∀ᶠ f in atTop, parseExp f n ks = some (e, r) := by
  obtain ⟨k, rfl⟩ := Nat.exists_eq_add_of_le hnm
  induction k generalizing n with
  | zero => exact h
  | succ k ih =>
    rw [Nat.add_comm k, ← Nat.add_assoc] at h
    exact parses_of_succ (ih (hr.mono (by omega)) h (by omega) (by omega)) (by omega) hr

theorem parses_of_unit (h : ∀ᶠ f in atTop, parseUnit f ks = some (e, r)) (hr : Stop n r) :
    ∀ᶠ f in atTop, parseExp f n ks = some (e, r) := by
  have hunit : ∀ m, 7 ≤ m → ∀ᶠ f in atTop, parseExp f m ks = some (e, r) := by
    intro m hm
    refine eventually_succ ?_
    filter_upwards [h] with f h
    rw [parseExp, if_neg (by omega), h]
  by_cases hn : 7 ≤ n
  · exact hunit n hn
  · exact parses_of_le (hunit 7 le_rfl) (by omega) le_rfl hr

end

theorem Exp.next_ne : ∀ (e : Exp) (r : List Token), next (e.tokens ++ r) ≠ .rparen
  | .bin o l _, r => by
    simp only [Exp.tokens, append_assoc]
    exact l.next_ne _
  | .bool b, r => by cases b <;> rintro ⟨⟩
  | .un o e, r => by cases o <;> rintro ⟨⟩
  | .attr o _, r | .elem o _ _, r | .method o _ _, r => by cases o <;> rintro ⟨⟩
  | .int _, r | .char _, r | .str _, r | .var _, r | .paren _, r | .call _ _, r => by rintro ⟨⟩

mutual

theorem Exp.parses : ∀ (e : Exp) {n : Nat} {r : List Token}, e.Parsed → n ≤ e.level → Stop n r →
    ∀ᶠ f in atTop, parseExp f n (e.tokens ++ r) = some (e, r)
  | .int v, n, r, hp, hn, hr => parses_of_unit (eventually_succ (.of_forall fun f => rfl)) hr
  | .char v, n, r, hp, hn, hr => parses_of_unit (eventually_succ (.of_forall fun f => rfl)) hr
  | .str s, n, r, hp, hn, hr => parses_of_unit (eventually_succ (.of_forall fun f => rfl)) hr
  | .bool b, n, r, hp, hn, hr => by
    refine parses_of_unit (eventually_succ (.of_forall fun f => ?_)) hr
    cases b <;> rfl
  | .var s, n, r, hp, hn, hr => by
    refine parses_of_unit (eventually_succ (.of_forall fun f => ?_)) hr
    obtain ⟨h1, h2, h3, -⟩ := hr
    simp only [parseUnit, Exp.tokens, cons_append, nil_append, typ_idTok]
    rfl
  | .paren e, n, r, hp, hn, hr => by
    refine parses_of_unit (eventually_succ ?_) hr
    filter_upwards [e.parses (r := tk .rparen :: r) hp (Nat.zero_le _) (stop_ends rfl 0)] with f h
    simp [parseUnit, Exp.tokens, h]
  | .un o e, n, r, hp, hn, hr => by
    refine parses_of_unit (eventually_succ ?_) hr
    filter_upwards [e.parses hp.1 hp.2 (hr.mono hn)] with f h
    cases o <;> simp [parseUnit, Exp.tokens, UnOp.term, UnOp.ofTerm, h]
  | .bin o l r', n, r, hp, hn, hr => by
    obtain ⟨hl, hr', hol, hor⟩ := hp
    have ho : o.level < 7 := by cases o <;> decide
    refine parses_of_le (m := o.level) (eventually_succ ?_) hn ho.le hr
    filter_upwards [l.parses hl hol (stop_op (Nat.lt_succ_self _) (r'.tokens ++ r)),
      r'.parses hr' hor (hr.mono hn)] with f h1 h2
    simp [parseExp, ho, Exp.tokens, h1, o.ofTerm_term, filter_some, h2]
  | .call s as, n, r, hp, hn, hr => by
    refine parses_of_unit (eventually_succ ?_) hr
    filter_upwards [as.parses (r := r) hp] with f h
    simp [parseUnit, Exp.tokens, h]
  | .attr o s, n, r, hp, hn, hr => by
    rw [Exp.tokens, append_assoc]
    refine parses_of_unit (o.parses hp (eventually_succ (.of_forall fun f => ?_))) hr
    obtain ⟨h1, h2, h3, -⟩ := hr
    simp only [parseMember, cons_append, nil_append, tail_cons]
    rfl
  | .elem o s i, n, r, hp, hn, hr => by
    rw [Exp.tokens, append_assoc, append_assoc]
    refine parses_of_unit (o.parses hp.1 (eventually_succ ?_)) hr
    filter_upwards [i.parses (r := tk .rbracket :: r) hp.2 (Nat.zero_le _) (stop_ends rfl 0)] with f h
    simp [parseMember, h]
  | .method o s as, n, r, hp, hn, hr => by
    rw [Exp.tokens, append_assoc, append_assoc]
    refine parses_of_unit (o.parses hp.1 (eventually_succ ?_)) hr
    filter_upwards [as.parses (r := r) hp.2] with f h
    simp [parseMember, h]

theorem Base.parses : ∀ (o : Base) {e : Exp} {ks r : List Token}, o.Parsed →
    (∀ᶠ f in atTop, parseMember f o ks = some (e, r)) →
    ∀ᶠ f in atTop, parseUnit f (o.tokens ++ ks) = some (e, r)
  | .obj s, e, ks, r, hp, h => by
    refine eventually_succ ?_
    filter_upwards [h] with f h
    simp [parseUnit, Base.tokens, h]
  | .item s i, e, ks, r, hp, h => by
    refine eventually_succ ?_
    filter_upwards [h, i.parses (r := tk .rbracket :: tk .dot :: ks) hp (Nat.zero_le _)
      (stop_ends rfl 0)] with f h h1
    simp [parseUnit, Base.tokens, h, h1]

theorem Args.parses : ∀ (as : Args) {r : List Token}, as.Parsed →
    ∀ᶠ f in atTop, parseArgs f (as.tokens ++ tk .rparen :: r) = some (as, tk .rparen :: r)
  | .nil, r, hp => eventually_succ (.of_forall fun f => rfl)
  | .cons e .nil, r, hp => by
    refine eventually_succ ?_
    filter_upwards [e.parses (r := tk .rparen :: r) hp.1 (Nat.zero_le _) (stop_ends rfl 0)] with f h
    simp [parseArgs, Args.tokens, e.next_ne, h]
  | .cons e (.cons e' as), r, hp => by
    refine eventually_succ ?_
    filter_upwards [e.parses (r := tk .comma :: ((Args.cons e' as).tokens ++ tk .rparen :: r)) hp.1
      (Nat.zero_le _) (stop_ends rfl 0), (Args.cons e' as).parses (r := r) hp.2] with f h h'
    simp only [parseArgs, Args.tokens]
    simp [e.next_ne, h, h']

end

theorem Exp.unique {e e' : Exp} (hp : e.Parsed) (hp' : e'.Parsed) (h : e.tokens = e'.tokens) : e = e' := by
  have hstop : Stop 0 [] := ⟨nofun, nofun, nofun, nofun⟩
  obtain ⟨f, hf, hf'⟩ := ((e.parses hp (Nat.zero_le _) hstop).and
    (e'.parses hp' (Nat.zero_le _) hstop)).exists
  rw [h, hf'] at hf
  exact (congrArg Prod.fst (some.inj hf)).symm

/-! ## Statements -/

/-- What starts with a token: a block's end, a statement of one of the two kinds, a block, the end of
the text. -/
def Term.starts (t : Term) : Nat :=
  match t with
  | .rbrace => 0
  | .for_ | .while_ | .if_ | .try_ => 1
  | .throw_ | .var_ | .id => 2
  | .lbrace => 3
  | .eof => 4
  | _ => 5

/-- The statement with this target and value. -/
def Simple.of : Exp → Option Exp → Option Simple
  | .var s, some e => some (.assign s e)
  | .call s as, none => some (.call s as)
  | .attr o s, some e => some (.attr o s e)
  | .elem o s i, some e => some (.elem o s i e)
  | .method o s as, none => some (.method o s as)
  | _, _ => none

/-- The value that may follow a target. -/
def parseValue (f : Nat) (ks : List Token) : Option (Option Exp × List Token) :=
  if next ks = .equals then (parseExp f 0 ks.tail).map fun x => (some x.1, x.2) else some (none, ks)

def parseSimple (f : Nat) (ks : List Token) : Option (Simple × List Token) := do
  let (t, ks) ← parseExp f 8 ks
  let (v, ks) ← parseValue f ks
  (Simple.of t v).map fun s => (s, ks)

def parseSimples : Nat → List Token → Option (List Simple × List Token)
  | 0, _ => none
  | f + 1, ks =>
    if next ks = .id then do
      let (s, ks) ← parseSimple f ks
      if next ks = .comma then do
        let (ss, ks) ← parseSimples f ks.tail
        some (s :: ss, ks)
      else some ([s], ks)
    else some ([], ks)

/-- The declarations after the first one. -/
def parseVars : Nat → List Token → Option (List (Name × Option Exp) × List Token)
  | 0, _ => none
  | f + 1, ks =>
    if next ks = .comma then do
      let (v, ks') ← parseValue f (ks.drop 2)
      let (vs, ks') ← parseVars f ks'
      some ((nameOf ks.tail, v) :: vs, ks')
    else some ([], ks)

def parseSemi (f : Nat) (ks : List Token) : Option (Semi × List Token) :=
  match next ks with
  | .throw_ => (parseExp f 0 ks.tail).map fun x => (.throw_ x.1, x.2)
  | .var_ => do
    let (v, ks') ← parseValue f (ks.drop 2)
    let (vs, ks') ← parseVars f ks'
    some (.vars (nameOf ks.tail, v) vs, ks')
  | _ => (parseSimple f ks).map fun x => (.simple x.1, x.2)

mutual

def parseStat : Nat → List Token → Option (Stat × List Token)
  | 0, _ => none
  | f + 1, ks =>
    match next ks with
    | .for_ => do
      let (init, ks) ← parseSimples f (ks.drop 2)
      let (c, ks) ← parseExp f 0 ks.tail
      let (after, ks) ← parseSimples f ks.tail
      let (b, ks) ← parseBlock f (ks.drop 2)
      some (.for_ init c after b, ks.tail)
    | .while_ => do
      let (c, ks) ← parseExp f 0 (ks.drop 2)
      let (b, ks) ← parseBlock f (ks.drop 2)
      some (.while_ c b, ks.tail)
    | .if_ => do
      let (c, ks) ← parseExp f 0 (ks.drop 2)
      let (b, ks) ← parseBlock f (ks.drop 2)
      if next ks.tail = .else_ then do
        let (e, ks) ← parseBlock f (ks.drop 3)
        some (.ifElse c b e, ks.tail)
      else some (.ifThen c b, ks.tail)
    | _ => do
      let (b, ks) ← parseBlock f (ks.drop 2)
      if next ks.tail = .catch_ then do
        let (h, ks') ← parseBlock f (ks.drop 6)
        some (.tryCatch b (nameOf (ks.drop 3)) h, ks'.tail)
      else some (.try_ b, ks.tail)

def parseBlock : Nat → List Token → Option (Block × List Token)
  | 0, _ => none
  | f + 1, ks =>
    match (next ks).starts with
    | 0 => some (.nil, ks)
    | 1 => do
      let (s, ks) ← parseStat f ks
      let (b, ks) ← parseBlock f ks
      some (.stat s b, ks)
    | _ => do
      let (s, ks) ← parseSemi f ks
      let (b, ks) ← parseBlock f ks.tail
      some (.semi s b, ks)

end

def parseProgram : Nat → List Token → Option Program
  | 0, _ => none
  | f + 1, ks =>
    match (next ks).starts with
    | 1 => do
      let (s, ks) ← parseStat f ks
      (parseProgram f ks).map (.stat s)
    | 2 => do
      let (s, ks) ← parseSemi f ks
      if next ks = .eof then some (.last s) else (parseProgram f ks.tail).map (.semi s)
    | 3 => do
      let (b, ks) ← parseBlock f ks.tail
      (parseProgram f ks.tail).map (.block b)
    | _ => some .eof

/-! ## Statements are read back -/

/-- The value that may follow a target. -/
def valueTokens : Option Exp → List Token
  | none => []
  | some e => tk .equals :: e.tokens

def Simple.target : Simple → Exp
  | .assign s _ => .var s
  | .call s as => .call s as
  | .attr o s _ => .attr o s
  | .elem o s i _ => .elem o s i
  | .method o s as => .method o s as

def Simple.value : Simple → Option Exp
  | .assign _ e | .attr _ _ e | .elem _ _ _ e => some e
  | .call _ _ | .method _ _ _ => none

theorem Simple.tokens_eq (s : Simple) : s.tokens = s.target.tokens ++ valueTokens s.value := by
  cases s <;> simp [Simple.tokens, Simple.target, Simple.value, Exp.tokens, valueTokens]

theorem Simple.parsed_target {s : Simple} (h : s.Parsed) :
    s.target.Parsed ∧ 8 ≤ s.target.level ∧ ∀ x ∈ s.value, x.Parsed := by
  cases s with
  | assign s e => exact ⟨trivial, le_rfl, fun _ hx => by cases hx; exact h⟩
  | call s as => exact ⟨h, le_rfl, nofun⟩
  | attr o s e => exact ⟨h.1, le_rfl, fun _ hx => by cases hx; exact h.2⟩
  | elem o s i e => exact ⟨⟨h.1, h.2.1⟩, le_rfl, fun _ hx => by cases hx; exact h.2.2⟩
  | method o s as => exact ⟨h, le_rfl, nofun⟩

theorem Simple.next_eq (s : Simple) (r : List Token) : next (s.tokens ++ r) = .id := by
  cases s with
  | attr o n e => cases o <;> rfl
  | elem o n i e => cases o <;> rfl
  | method o n as => cases o <;> rfl
  | _ => rfl

theorem Semi.starts_eq (s : Semi) (r : List Token) : (next (s.tokens ++ r)).starts = 2 := by
  cases s with
  | simple s => exact congrArg Term.starts (s.next_eq r)
  | _ => rfl

theorem Stat.starts_eq (s : Stat) (r : List Token) : (next (s.tokens ++ r)).starts = 1 := by
  cases s <;> rfl

theorem ne_of_ends {t : Term} (hr : (next r).ends = true) (ht : t.ends = false) : next r ≠ t := by
  rintro rfl
  rw [hr] at ht
  cases ht

theorem value_parses {v : Option Exp} (hp : ∀ x ∈ v, x.Parsed) (hr : (next r).ends = true) :
    ∀ᶠ f in atTop, parseValue f (valueTokens v ++ r) = some (v, r) := by
  cases v with
  | none => exact .of_forall fun f => if_neg (ne_of_ends hr rfl)
  | some e =>
    filter_upwards [e.parses (hp e rfl) (Nat.zero_le _) (stop_ends hr 0)] with f h
    simp [parseValue, valueTokens, h]

theorem stop_value (v : Option Exp) (hr : (next r).ends = true) : Stop 8 (valueTokens v ++ r) := by
  cases v with
  | none => exact stop_ends hr 8
  | some e => exact ⟨nofun, nofun, nofun, nofun⟩

theorem Simple.parses (s : Simple) (hp : s.Parsed) (hr : (next r).ends = true) :
    ∀ᶠ f in atTop, parseSimple f (s.tokens ++ r) = some (s, r) := by
  obtain ⟨hpt, hl, hpv⟩ := parsed_target hp
  have hof : Simple.of s.target s.value = some s := by cases s <;> rfl
  filter_upwards [s.target.parses hpt hl (stop_value s.value hr), value_parses hpv hr] with f h1 h2
  simp [parseSimple, s.tokens_eq, h1, h2, hof]

theorem simples_parses (hr : (next r).ends = true) (hc : next r ≠ .comma) : ∀ (ss : List Simple),
    (∀ s ∈ ss, s.Parsed) → ∀ᶠ f in atTop, parseSimples f (simpleTokens ss ++ r) = some (ss, r)
  | [], hp => eventually_succ (.of_forall fun f => if_neg (ne_of_ends hr rfl))
  | [s], hp => by
    refine eventually_succ ?_
    filter_upwards [s.parses (hp s mem_cons_self) hr] with f h
    simp [parseSimples, simpleTokens, s.next_eq, h, hc]
  | s :: s' :: ss, hp => by
    refine eventually_succ ?_
    filter_upwards [s.parses (r := tk .comma :: (simpleTokens (s' :: ss) ++ r))
      (hp s mem_cons_self) rfl,
      simples_parses hr hc (s' :: ss) fun x hx => hp x (mem_cons_of_mem _ hx)] with f h h'
    simp only [parseSimples, simpleTokens]
    simp [s.next_eq, h, h']

theorem varTokens_eq (v : Name × Option Exp) : varTokens v = idTok v.1 :: valueTokens v.2 := by
  obtain ⟨s, e | e⟩ := v <;> rfl

theorem vars_ends (hr : (next r).ends = true) (vs : List (Name × Option Exp)) :
    (next ((vs.flatMap fun v => tk .comma :: varTokens v) ++ r)).ends = true := by
  cases vs with
  | nil => exact hr
  | cons v vs => rfl

theorem vars_parses (hr : (next r).ends = true) (hc : next r ≠ .comma) :
    ∀ (vs : List (Name × Option Exp)), (∀ x ∈ vs, ∀ e ∈ x.2, e.Parsed) →
    ∀ᶠ f in atTop, parseVars f ((vs.flatMap fun v => tk .comma :: varTokens v) ++ r) = some (vs, r)
  | [], hp => eventually_succ (.of_forall fun f => if_neg hc)
  | v :: vs, hp => by
    refine eventually_succ ?_
    filter_upwards [value_parses (hp _ mem_cons_self) (vars_ends hr vs),
      vars_parses hr hc vs fun x hx => hp x (mem_cons_of_mem _ hx)] with f h h'
    simp [parseVars, varTokens_eq v, h, h']

theorem Semi.parses (s : Semi) (hp : s.Parsed) (hr : (next r).ends = true) (hc : next r ≠ .comma) :
    ∀ᶠ f in atTop, parseSemi f (s.tokens ++ r) = some (s, r) := by
  cases s with
  | throw_ e =>
    filter_upwards [e.parses hp (Nat.zero_le _) (stop_ends hr 0)] with f h
    simp [parseSemi, Semi.tokens, h]
  | vars v vs =>
    filter_upwards [value_parses (hp v mem_cons_self) (vars_ends hr vs),
      vars_parses hr hc vs fun x hx => hp x (mem_cons_of_mem _ hx)] with f h h'
    simp [parseSemi, Semi.tokens, varTokens_eq v, h, h']
  | simple s =>
    filter_upwards [s.parses hp hr] with f h
    simp [parseSemi, Semi.tokens, s.next_eq, h]

theorem Block.starts_le (b : Block) : (next (b.tokens ++ tk .rbrace :: r)).starts ≤ 2 := by
  cases b with
  | nil => exact Nat.zero_le 2
  | stat s b =>
    rw [Block.tokens, append_assoc, s.starts_eq]
    decide
  | semi s b =>
    rw [Block.tokens, append_assoc, s.starts_eq]

theorem cond_parses {c : Exp} (hp : c.Parsed) (r : List Token) :
    ∀ᶠ f in atTop, parseExp f 0 (c.tokens ++ tk .rparen :: r) = some (c, tk .rparen :: r) :=
  c.parses hp (Nat.zero_le _) (stop_ends rfl 0)

mutual

theorem Stat.parses : ∀ (s : Stat) {r : List Token}, s.Parsed → (next r).starts < 5 →
    ∀ᶠ f in atTop, parseStat f (s.tokens ++ r) = some (s, r)
  | .for_ init cond after body, r, hp, hr => by
    obtain ⟨hi, hc, ha, hb⟩ := hp
    refine eventually_succ ?_
    filter_upwards [simples_parses (r := tk .semicolon :: (cond.tokens ++ tk .semicolon ::
        (simpleTokens after ++ tk .rparen :: tk .lbrace :: (body.tokens ++ tk .rbrace :: r)))) rfl nofun init hi,
      cond.parses (r := tk .semicolon ::
        (simpleTokens after ++ tk .rparen :: tk .lbrace :: (body.tokens ++ tk .rbrace :: r))) hc
        (Nat.zero_le _) (stop_ends rfl 0),
      simples_parses (r := tk .rparen :: tk .lbrace :: (body.tokens ++ tk .rbrace :: r)) rfl nofun after ha,
      body.parses (r := r) hb] with f h1 h2 h3 h4
    simp [parseStat, Stat.tokens, h1, h2, h3, h4]
  | .while_ cond body, r, hp, hr => by
    refine eventually_succ ?_
    filter_upwards [cond_parses hp.1 (tk .lbrace :: (body.tokens ++ tk .rbrace :: r)),
      body.parses (r := r) hp.2] with f h1 h2
    simp [parseStat, Stat.tokens, h1, h2]
  | .ifThen cond body, r, hp, hr => by
    have hne : next r ≠ .else_ := fun h => by simp [h, Term.starts] at hr
    refine eventually_succ ?_
    filter_upwards [cond_parses hp.1 (tk .lbrace :: (body.tokens ++ tk .rbrace :: r)),
      body.parses (r := r) hp.2] with f h1 h2
    simp [parseStat, Stat.tokens, h1, h2, hne]
  | .ifElse cond body els, r, hp, hr => by
    obtain ⟨hc, hb, he⟩ := hp
    refine eventually_succ ?_
    filter_upwards [cond_parses hc (tk .lbrace :: (body.tokens ++ tk .rbrace :: tk .else_ :: tk .lbrace ::
        (els.tokens ++ tk .rbrace :: r))),
      body.parses (r := tk .else_ :: tk .lbrace :: (els.tokens ++ tk .rbrace :: r)) hb,
      els.parses (r := r) he] with f h1 h2 h3
    simp [parseStat, Stat.tokens, h1, h2, h3]
  | .try_ body, r, hp, hr => by
    have hne : next r ≠ .catch_ := fun h => by simp [h, Term.starts] at hr
    refine eventually_succ ?_
    filter_upwards [body.parses (r := r) hp] with f h
    simp [parseStat, Stat.tokens, h, hne]
  | .tryCatch body s handler, r, hp, hr => by
    refine eventually_succ ?_
    filter_upwards [body.parses (r := tk .catch_ :: tk .lparen :: idTok s :: tk .rparen :: tk .lbrace ::
      (handler.tokens ++ tk .rbrace :: r)) hp.1, handler.parses (r := r) hp.2] with f h1 h2
    simp [parseStat, Stat.tokens, h1, h2]

theorem Block.parses : ∀ (b : Block) {r : List Token}, b.Parsed →
    ∀ᶠ f in atTop, parseBlock f (b.tokens ++ tk .rbrace :: r) = some (b, tk .rbrace :: r)
  | .nil, r, hp => eventually_succ (.of_forall fun f => rfl)
  | .stat s b, r, hp => by
    refine eventually_succ ?_
    filter_upwards [s.parses hp.1 ((b.starts_le (r := r)).trans_lt (by decide)),
      b.parses (r := r) hp.2] with f h h'
    simp [parseBlock, Block.tokens, s.starts_eq, h, h']
  | .semi s b, r, hp => by
    refine eventually_succ ?_
    filter_upwards [s.parses (r := tk .semicolon :: (b.tokens ++ tk .rbrace :: r)) hp.1 rfl nofun,
      b.parses (r := r) hp.2] with f h h'
    simp [parseBlock, Block.tokens, s.starts_eq, h, h']

end

theorem Program.starts_le (p : Program) (r : List Token) : (next (p.tokens ++ r)).starts < 5 := by
  cases p with
  | stat s p => simp [Program.tokens, s.starts_eq]
  | semi s p => simp [Program.tokens, s.starts_eq]
  | last s => simp [Program.tokens, s.starts_eq]
  | eof => exact (by decide : 4 < 5)
  | block b p => exact (by decide : 3 < 5)

/-- **A program is read back.** -/
theorem Program.parses : ∀ (p : Program) (r : List Token), p.Parsed →
    ∀ᶠ f in atTop, parseProgram f (p.tokens ++ r) = some p
  | .eof, r, hp => eventually_succ (.of_forall fun f => rfl)
  | .stat s p, r, hp => by
    refine eventually_succ ?_
    filter_upwards [s.parses hp.1 (p.starts_le r), p.parses r hp.2] with f h h'
    simp [parseProgram, Program.tokens, s.starts_eq, h, h']
  | .semi s p, r, hp => by
    refine eventually_succ ?_
    filter_upwards [s.parses (r := tk .semicolon :: (p.tokens ++ r)) hp.1 rfl (by rintro ⟨⟩),
      p.parses r hp.2] with f h h'
    simp [parseProgram, Program.tokens, s.starts_eq, h, h']
  | .last s, r, hp => by
    refine eventually_succ ?_
    filter_upwards [s.parses (r := tk .eof :: r) hp rfl (by rintro ⟨⟩)] with f h
    simp [parseProgram, Program.tokens, s.starts_eq, h]
  | .block b p, r, hp => by
    refine eventually_succ ?_
    filter_upwards [b.parses (r := p.tokens ++ r) hp.1, p.parses r hp.2] with f h h'
    simp [parseProgram, Program.tokens, Term.starts, h, h']

theorem Program.unique {r' : List Token} (hp : p.Parsed) (hp' : p'.Parsed)
    (h : p.tokens ++ r = p'.tokens ++ r') : p = p' := by
  obtain ⟨f, hf, hf'⟩ := ((p.parses r hp).and (p'.parses r' hp')).exists
  rw [h, hf'] at hf
  exact (some.inj hf).symm

/-- The scanner reads one sequence of tokens. -/
theorem Reads.compare : ∀ {ks ls : List Token} {p q q' : Token × List Char}, Reads ks p q →
    Reads ls p q' → ∃ r r', ks ++ r = ls ++ r'
  | [], ls, p, q, q', _, _ => ⟨ls, [], by simp⟩
  | k :: ks, [], p, q, q', _, _ => ⟨[], k :: ks, by simp⟩
  | k :: ks, l :: ls, p, q, q', h, h' => by
    obtain ⟨hk, p1, hp1, h⟩ := h
    obtain ⟨hl, p2, hp2, h'⟩ := h'
    rw [hp1] at hp2
    cases hp2
    obtain ⟨r, r', hr⟩ := Reads.compare h h'
    exact ⟨r, r', by rw [← hk, ← hl, cons_append, cons_append, hr]⟩

/-- **A text has one tree.** -/
theorem program_eq_of_lexes {ks ks' : List Token} (hp : p.Parsed) (hp' : p'.Parsed)
    (h : Lexes txt (p.tokens ++ ks)) (h' : Lexes txt (p'.tokens ++ ks')) : p = p' := by
  obtain ⟨x, q, hx, hr⟩ := h
  obtain ⟨x', q', hx', hr'⟩ := h'
  rw [hx] at hx'
  cases hx'
  obtain ⟨r, r', he⟩ := hr.compare hr'
  rw [append_assoc, append_assoc] at he
  exact Program.unique hp hp' he

/-- `Reads`, evaluated. -/
def readsAll : List Token → Token × List Char → Bool
  | [], _ => true
  | k :: ks, p => p.1.norm == k && match lexerScan p.2 with
    | .ok p' => readsAll ks p'
    | .error _ => false

theorem exists_reads_of_readsAll : ∀ {ks : List Token} {p : Token × List Char},
    readsAll ks p = true → ∃ q, Reads ks p q
  | [], p, _ => ⟨p, rfl⟩
  | k :: ks, p, h => by
    obtain ⟨hk, h⟩ := (Bool.and_eq_true _ _).mp h
    split at h
    · rename_i p' hp'
      obtain ⟨q, hq⟩ := exists_reads_of_readsAll h
      exact ⟨q, eq_of_beq hk, p', hp', hq⟩
    · cases h

/-- `Lexes`, evaluated. -/
def lexesAll (txt : List Char) (ks : List Token) : Bool :=
  match lexerScan (lexerOpen txt) with
  | .ok p => readsAll ks p
  | .error _ => false

theorem lexes_of_lexesAll {ks : List Token} (h : lexesAll txt ks = true) : Lexes txt ks := by
  unfold lexesAll at h
  split at h
  · rename_i p hp
    obtain ⟨q, hq⟩ := exists_reads_of_readsAll h
    exact ⟨p, q, hp, hq⟩
  · cases h

end MicroJS
