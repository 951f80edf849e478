import Mathlib.Data.List.Basic

/-!
# Predictive parsers with actions

A nonrecursive predictive parser keeps a stack of grammar symbols: terminals to be matched,
nonterminals to be expanded by the rule that the lookahead token selects, and semantic actions to
be run. `run` is that machine; `Follows` reads a stack as a sequence of requirements, one for each
symbol, and `follows_of_run` is the rule the proofs about a grammar use: what the rules of a grammar
establish for each nonterminal, every successful run establishes.
-/

namespace Predictive

/-- A grammar symbol: a terminal, a nonterminal or a semantic action. -/
inductive Sym (T N A : Type) where
  | t (x : T)
  | n (x : N)
  | a (x : A)
  deriving DecidableEq, Repr

/-- A grammar with actions on a state `σ`, a scanner with state `L` that delivers tokens `K`, and
the errors of the machine. -/
structure Parser (T N A K L σ ε : Type) where
  typ : K → T
  next : L → Except ε (K × L)
  predict : N → T → Option (List (Sym T N A))
  act : A → K → σ → Except ε σ
  unexpected : ε
  noRule : T → ε
  overflow : ε
  /-- the number of symbols the stack can hold -/
  room : Nat

/-- What the machine works on besides its stack: the token matched last, the lookahead token, the
scanner and the state of the actions. -/
@[ext]
structure Feed (K L σ : Type) where
  last : K
  look : K
  lex : L
  st : σ

variable {T N A K L σ ε : Type} [DecidableEq T]

namespace Parser

variable (P : Parser T N A K L σ ε)

/-- One turn of the machine, for the symbol `x` taken from the top of the stack. -/
def step (x : Sym T N A) (rest : List (Sym T N A)) (f : Feed K L σ) :
    Except ε (List (Sym T N A) × Feed K L σ) :=
  match x with
  | .t x =>
    if P.typ f.look ≠ x then .error P.unexpected
    else match P.next f.lex with
      | .error e => .error e
      | .ok (k, l) => .ok (rest, ⟨f.look, k, l, f.st⟩)
  | .a x =>
    match P.act x f.last f.st with
    | .error e => .error e
    | .ok st => .ok (rest, { f with st := st })
  | .n x =>
    match P.predict x (P.typ f.look) with
    | none => .error (P.noRule (P.typ f.look))
    | some γ => if P.room < (γ ++ rest).length then .error P.overflow else .ok (γ ++ rest, f)

/-- The machine, for at most `n` turns; `none` when they do not suffice. -/
def run : Nat → List (Sym T N A) → Feed K L σ → Option (Except ε (Feed K L σ))
  | _, [], f => some (.ok f)
  | 0, _ :: _, _ => none
  | n + 1, x :: rest, f =>
    match P.step x rest f with
    | .error e => some (.error e)
    | .ok (γ, f') => run n γ f'

/-- Matching the terminal `x`. -/
def Matches (x : T) (f f' : Feed K L σ) : Prop :=
  P.typ f.look = x ∧ ∃ k l, P.next f.lex = .ok (k, l) ∧ f' = ⟨f.look, k, l, f.st⟩

/-- Running the action `x`. -/
def Acts (x : A) (f f' : Feed K L σ) : Prop :=
  ∃ st, P.act x f.last f.st = .ok st ∧ f' = { f with st := st }

/-- The symbols of a stack, one after the other; a nonterminal `n` does what `S n` says. -/
def Follows (S : N → Feed K L σ → Feed K L σ → Prop) :
    List (Sym T N A) → Feed K L σ → Feed K L σ → Prop
  | [], f, f' => f' = f
  | .t x :: γ, f, f' => ∃ f1, P.Matches x f f1 ∧ Follows S γ f1 f'
  | .a x :: γ, f, f' => ∃ f1, P.Acts x f f1 ∧ Follows S γ f1 f'
  | .n x :: γ, f, f' => ∃ f1, S x f f1 ∧ Follows S γ f1 f'

variable {P} {S : N → Feed K L σ → Feed K L σ → Prop}

omit [DecidableEq T] in
theorem follows_append {γ δ : List (Sym T N A)} {f f' : Feed K L σ}
    (h : P.Follows S (γ ++ δ) f f') : ∃ f1, P.Follows S γ f f1 ∧ P.Follows S δ f1 f' := by
  induction γ generalizing f with
  | nil => exact ⟨f, rfl, h⟩
  | cons x γ ih =>
    cases x with
    | t x =>
      obtain ⟨f1, hx, h⟩ := h
      obtain ⟨f2, hγ, hδ⟩ := ih h
      exact ⟨f2, ⟨f1, hx, hγ⟩, hδ⟩
    | a x =>
      obtain ⟨f1, hx, h⟩ := h
      obtain ⟨f2, hγ, hδ⟩ := ih h
      exact ⟨f2, ⟨f1, hx, hγ⟩, hδ⟩
    | n x =>
      obtain ⟨f1, hx, h⟩ := h
      obtain ⟨f2, hγ, hδ⟩ := ih h
      exact ⟨f2, ⟨f1, hx, hγ⟩, hδ⟩

/-- **The rule for grammars.**  If each rule `n → γ`, chosen by the lookahead token, establishes
`S n` from what its symbols do, then a successful run does what the symbols of its stack say. -/
theorem follows_of_run
    (hn : ∀ {x γ f f'}, P.predict x (P.typ f.look) = some γ → P.Follows S γ f f' → S x f f')
    {n : Nat} {γ : List (Sym T N A)} {f f' : Feed K L σ}
    (h : P.run n γ f = some (.ok f')) : P.Follows S γ f f' := by
  induction n generalizing γ f with
  | zero =>
    cases γ with
    | nil => cases h; rfl
    | cons x γ => cases h
  | succ n ih =>
    cases γ with
    | nil => cases h; rfl
    | cons x γ =>
      rw [run] at h
      cases x with
      | t x =>
        simp only [step] at h
        split at h
        · cases h
        · rename_i _ _ hs
          split at hs
          · cases hs
          · rename_i ht
            split at hs
            · cases hs
            · rename_i hl
              cases hs
              exact ⟨_, ⟨not_not.mp ht, _, _, hl, rfl⟩, ih h⟩
      | a x =>
        simp only [step] at h
        split at h
        · cases h
        · rename_i _ _ hs
          split at hs
          · cases hs
          · rename_i ha
            cases hs
            exact ⟨_, ⟨_, ha, rfl⟩, ih h⟩
      | n x =>
        simp only [step] at h
        split at h
        · cases h
        · rename_i _ _ hs
          split at hs
          · cases hs
          · rename_i hp
            split at hs
            · cases hs
            · cases hs
              -- the expansion's symbols come first, then the rest of the stack
              obtain ⟨f1, hγ, hrest⟩ := follows_append (ih h)
              exact ⟨f1, hn hp hγ, hrest⟩

end Parser

end Predictive
