import Mathlib.Computability.ContextFreeGrammar
import ThinkOS.Lib.Predictive

/-!
# Leftmost derivations of grammars with actions

A grammar gives every nonterminal its alternatives, which are lists of terminals, nonterminals and
semantic actions. `Leftmost` rewrites the leftmost nonterminal of a sentential form; what is
derived in the end is a list of terminals and actions. `Yields` is the same relation read from the
front of the sentential form, the way a predictive parser works its stack off, and
`leftmost_iff_yields` says that they agree. Without its actions such a grammar is a context-free
grammar, and `mem_language_iff_yields` says that the derivations give the words of its language.
-/

namespace Predictive

open List

variable {T N A : Type} {v : List (T ⊕ A)} {inner : N → Bool}

/-- A terminal or an action as a symbol. -/
def Sym.ofSum : T ⊕ A → Sym T N A
  | .inl x => .t x
  | .inr x => .a x

/-- The terminals of a derived list. -/
def tokens (v : List (T ⊕ A)) : List T := v.filterMap Sum.getLeft?

/-- The actions of a derived list. -/
def actions (v : List (T ⊕ A)) : List A := v.filterMap Sum.getRight?

@[simp] theorem tokens_nil : tokens ([] : List (T ⊕ A)) = [] := rfl
@[simp] theorem tokens_inl {x : T} : tokens (.inl x :: v) = x :: tokens v := rfl
@[simp] theorem tokens_inr {x : A} : tokens (.inr x :: v) = tokens v := rfl
@[simp] theorem tokens_append {u : List (T ⊕ A)} : tokens (u ++ v) = tokens u ++ tokens v :=
  filterMap_append

@[simp] theorem actions_nil : actions ([] : List (T ⊕ A)) = [] := rfl
@[simp] theorem actions_inl {x : T} : actions (.inl x :: v) = actions v := rfl
@[simp] theorem actions_inr {x : A} : actions (.inr x :: v) = x :: actions v := rfl
@[simp] theorem actions_append (u v : List (T ⊕ A)) : actions (u ++ v) = actions u ++ actions v :=
  filterMap_append

/-- One step of a leftmost derivation: only terminals and actions stand before the nonterminal that
is replaced. -/
inductive Leftmost (rules : N → List (List (Sym T N A))) :
    List (Sym T N A) → List (Sym T N A) → Prop
  | step (α : List (T ⊕ A)) {x : N} {γ : List (Sym T N A)} (β : List (Sym T N A))
      (h : γ ∈ rules x) :
      Leftmost rules (α.map Sym.ofSum ++ .n x :: β) (α.map Sym.ofSum ++ (γ ++ β))

/-- What a sentential form derives, symbol by symbol from its front. -/
inductive Yields (rules : N → List (List (Sym T N A))) : List (Sym T N A) → List (T ⊕ A) → Prop
  | nil : Yields rules [] []
  | t {x : T} {γ : List (Sym T N A)} {v : List (T ⊕ A)} (h : Yields rules γ v) :
      Yields rules (.t x :: γ) (.inl x :: v)
  | a {x : A} {γ : List (Sym T N A)} {v : List (T ⊕ A)} (h : Yields rules γ v) :
      Yields rules (.a x :: γ) (.inr x :: v)
  | n {x : N} {δ γ : List (Sym T N A)} {v : List (T ⊕ A)} (hδ : δ ∈ rules x)
      (h : Yields rules (δ ++ γ) v) : Yields rules (.n x :: γ) v

variable {rules : N → List (List (Sym T N A))} {γ δ : List (Sym T N A)} {u v : List (T ⊕ A)}

theorem Yields.ofSum (v : List (T ⊕ A)) : Yields rules (v.map Sym.ofSum) v := by
  induction v with
  | nil => exact .nil
  | cons s v ih =>
    cases s with
    | inl x => exact .t ih
    | inr x => exact .a ih

theorem Yields.append (hγ : Yields rules γ u) (hδ : Yields rules δ v) :
    Yields rules (γ ++ δ) (u ++ v) := by
  induction hγ with
  | nil => exact hδ
  | t _ ih => exact .t ih
  | a _ ih => exact .a ih
  | n hx _ ih => exact .n hx (append_assoc .. ▸ ih)

/-- What a concatenation derives splits into what its parts derive. -/
theorem Yields.split (h : Yields rules (γ ++ δ) v) :
    ∃ v1 v2, v = v1 ++ v2 ∧ Yields rules γ v1 ∧ Yields rules δ v2 := by
  generalize hε : γ ++ δ = ε at h
  induction h generalizing γ with
  | nil =>
    obtain ⟨rfl, rfl⟩ := append_eq_nil_iff.mp hε
    exact ⟨[], [], rfl, .nil, .nil⟩
  | t h ih =>
    rcases append_eq_cons_iff.mp hε with ⟨rfl, rfl⟩ | ⟨γ', rfl, rfl⟩
    · exact ⟨[], _, rfl, .nil, .t h⟩
    · obtain ⟨v1, v2, rfl, h1, h2⟩ := ih rfl
      exact ⟨_ :: v1, v2, rfl, .t h1, h2⟩
  | a h ih =>
    rcases append_eq_cons_iff.mp hε with ⟨rfl, rfl⟩ | ⟨γ', rfl, rfl⟩
    · exact ⟨[], _, rfl, .nil, .a h⟩
    · obtain ⟨v1, v2, rfl, h1, h2⟩ := ih rfl
      exact ⟨_ :: v1, v2, rfl, .a h1, h2⟩
  | n hx h ih =>
    rcases append_eq_cons_iff.mp hε with ⟨rfl, rfl⟩ | ⟨γ', rfl, rfl⟩
    · exact ⟨[], _, rfl, .nil, .n hx h⟩
    · obtain ⟨v1, v2, rfl, h1, h2⟩ := ih (append_assoc ..)
      exact ⟨v1, v2, rfl, .n hx h1, h2⟩

/-- A nonterminal can be put back for one of its alternatives, wherever that stands. -/
theorem Yields.fold {x : N} {α β : List (Sym T N A)} (hγ : γ ∈ rules x)
    (h : Yields rules (α ++ (γ ++ β)) v) : Yields rules (α ++ .n x :: β) v := by
  obtain ⟨v1, v2, rfl, h1, h2⟩ := h.split
  exact h1.append (.n hγ h2)

/-- A derivation goes on behind a terminal or an action. -/
theorem Leftmost.cons (s : T ⊕ A) (h : Leftmost rules γ δ) :
    Leftmost rules (Sym.ofSum s :: γ) (Sym.ofSum s :: δ) := by
  obtain ⟨α, β, hx⟩ := h
  exact .step (s :: α) β hx

theorem leftmost_cons (s : T ⊕ A) (h : Relation.ReflTransGen (Leftmost rules) γ δ) :
    Relation.ReflTransGen (Leftmost rules) (Sym.ofSum s :: γ) (Sym.ofSum s :: δ) :=
  h.lift _ fun _ _ => .cons s

/-- The leftmost derivations of a list of terminals and actions, read from the front. -/
theorem leftmost_iff_yields :
    Relation.ReflTransGen (Leftmost rules) γ (v.map Sym.ofSum) ↔ Yields rules γ v := by
  constructor
  · intro h
    induction h using Relation.ReflTransGen.head_induction_on with
    | refl => exact .ofSum v
    | head hstep _ ih =>
      obtain ⟨α, β, hx⟩ := hstep
      exact ih.fold hx
  · intro h
    induction h with
    | nil => exact .refl
    | t _ ih => exact leftmost_cons (.inl _) ih
    | a _ ih => exact leftmost_cons (.inr _) ih
    | n hx _ ih => exact .head (.step [] _ hx) ih

/-! ### Words that end with a marker -/

/-- A symbol that derives no marker `e`: another terminal, a nonterminal of `inner` or an action. -/
def Sym.unmarked [DecidableEq T] (e : T) (inner : N → Bool) : Sym T N A → Bool
  | .t x => x ≠ e
  | .n x => inner x
  | .a _ => true

/-- A sentential form whose last symbol, and no other one, derives the marker: it is the marker, or
a nonterminal that is not one of `inner`. -/
def marked [DecidableEq T] (e : T) (inner : N → Bool) : List (Sym T N A) → Bool
  | [] => false
  | [s] => !s.unmarked e inner
  | s :: s' :: γ => s.unmarked e inner && marked e inner (s' :: γ)

theorem marked_cons [DecidableEq T] {e : T} {s : Sym T N A} (hγ : γ ≠ []) :
    marked e inner (s :: γ) = (s.unmarked e inner && marked e inner γ) := by
  cases γ with
  | nil => exact absurd rfl hγ
  | cons s' γ => rfl

theorem marked_append [DecidableEq T] {e : T} (hδ : ∀ s ∈ δ, s.unmarked e inner = true)
    (hγ : marked e inner γ = true) : marked e inner (δ ++ γ) = true := by
  induction δ with
  | nil => exact hγ
  | cons s δ ih =>
    have hne : δ ++ γ ≠ [] := by
      intro h
      rw [(append_eq_nil_iff.mp h).2] at hγ
      cases hγ
    rw [cons_append, marked_cons hne, Bool.and_eq_true]
    exact ⟨hδ s mem_cons_self, ih fun s hs => hδ s (mem_cons_of_mem _ hs)⟩

/-- If the alternatives of the inner nonterminals derive no marker, and the others derive it at
their end, then the marker stands at the end of what is derived and nowhere else. -/
theorem Yields.marked [DecidableEq T] {e : T}
    (hin : ∀ x, inner x = true → ∀ δ ∈ rules x, ∀ s ∈ δ, s.unmarked e inner = true)
    (hout : ∀ x, inner x = false → ∀ δ ∈ rules x, Predictive.marked e inner δ = true)
    (h : Yields rules γ v) (hγ : Predictive.marked e inner γ = true) :
    ∃ w, tokens v = w ++ [e] ∧ e ∉ w := by
  induction h with
  | nil => cases hγ
  | @t x γ v h ih =>
    by_cases hnil : γ = []
    · subst hnil
      cases h
      have hx : x = e := by simpa [Predictive.marked, Sym.unmarked] using hγ
      exact ⟨[], by rw [hx]; rfl, not_mem_nil⟩
    · rw [marked_cons hnil, Bool.and_eq_true] at hγ
      have hx : x ≠ e := of_decide_eq_true hγ.1
      obtain ⟨w, hw, he⟩ := ih hγ.2
      refine ⟨x :: w, by rw [tokens_inl, hw]; rfl, ?_⟩
      rw [mem_cons, not_or]
      exact ⟨hx.symm, he⟩
  | @a x γ v h ih =>
    by_cases hnil : γ = []
    · subst hnil
      cases hγ
    · rw [marked_cons hnil, Bool.and_eq_true] at hγ
      exact ih hγ.2
  | @n x δ γ v hδ h ih =>
    by_cases hnil : γ = []
    · subst hnil
      have hx : inner x = false := by simpa [Predictive.marked, Sym.unmarked] using hγ
      rw [append_nil] at ih
      exact ih (hout x hx δ hδ)
    · rw [marked_cons hnil, Bool.and_eq_true] at hγ
      exact ih (marked_append (hin x hγ.1 δ hδ) hγ.2)

/-! ### The language -/

/-- A symbol of a grammar with actions as one of a context-free grammar; an action is none. -/
def Sym.plain : Sym T N A → Option (Symbol T N)
  | .t x => some (.terminal x)
  | .n x => some (.nonterminal x)
  | .a _ => none

/-- A sentential form without nonterminals is a list of terminals and actions. -/
theorem exists_ofSum {w : List T} (h : γ.filterMap Sym.plain = w.map .terminal) :
    ∃ v : List (T ⊕ A), γ = v.map Sym.ofSum ∧ tokens v = w := by
  induction γ generalizing w with
  | nil =>
    cases w with
    | nil => exact ⟨[], rfl, rfl⟩
    | cons t w => cases h
  | cons s γ ih =>
    cases s with
    | t x =>
      cases w with
      | nil => cases h
      | cons t w =>
        obtain ⟨ht, hw⟩ := List.cons.inj h
        obtain ⟨v, rfl, rfl⟩ := ih hw
        cases ht
        exact ⟨.inl x :: v, rfl, rfl⟩
    | n x =>
      cases w with
      | nil => cases h
      | cons t w => cases (List.cons.inj h).1
    | a x =>
      obtain ⟨v, rfl, rfl⟩ := ih h
      exact ⟨.inr x :: v, rfl, rfl⟩

/-- The alternatives of the nonterminals `all`, without their actions, as a context-free
grammar. -/
abbrev cfg [DecidableEq T] [DecidableEq N] (rules : N → List (List (Sym T N A))) (all : List N)
    (start : N) : ContextFreeGrammar T where
  NT := N
  initial := start
  rules := (all.flatMap fun x => (rules x).map fun γ => ⟨x, γ.filterMap Sym.plain⟩).toFinset

variable [DecidableEq T] [DecidableEq N] {all : List N} {start : N}

theorem mem_cfg_rules {r : ContextFreeRule T N} : r ∈ (cfg rules all start).rules ↔
      ∃ x ∈ all, ∃ γ ∈ rules x, ⟨x, γ.filterMap Sym.plain⟩ = r := by
  simp only [mem_toFinset, mem_flatMap, mem_map]

theorem Yields.derives (hall : ∀ x, x ∈ all) (h : Yields rules γ v) :
    (cfg rules all start).Derives (γ.filterMap Sym.plain) ((tokens v).map .terminal) := by
  induction h with
  | nil => exact .refl _
  | t _ ih => exact ih.append_left [.terminal _]
  | a _ ih => exact ih
  | @n x δ γ v hδ _ ih =>
    have hr : (cfg rules all start).Produces [.nonterminal x] (δ.filterMap Sym.plain) :=
      ⟨_, mem_cfg_rules.mpr ⟨x, hall x, δ, hδ, rfl⟩, ContextFreeRule.Rewrites.input_output⟩
    rw [filterMap_append] at ih
    exact (hr.append_right _).trans_derives ih

theorem yields_of_derives {s : List (Symbol T N)} {w : List T}
    (h : (cfg rules all start).Derives s (w.map .terminal))
    (hγ : γ.filterMap Sym.plain = s) : ∃ v, Yields rules γ v ∧ tokens v = w := by
  induction h using Relation.ReflTransGen.head_induction_on generalizing γ with
  | refl =>
    obtain ⟨v, rfl, rfl⟩ := exists_ofSum hγ
    exact ⟨v, .ofSum v, rfl⟩
  | head hstep _ ih =>
    obtain ⟨r, hr, hrw⟩ := hstep
    obtain ⟨x, -, δ, hδ, rfl⟩ := mem_cfg_rules.mp hr
    obtain ⟨p, q, rfl, rfl⟩ := hrw.exists_parts
    -- the nonterminal that is replaced stands in `γ` too
    rw [append_assoc] at hγ
    obtain ⟨α, β', rfl, rfl, hβ'⟩ := filterMap_eq_append_iff.mp hγ
    obtain ⟨β1, s, β, rfl, hβ1, hs, rfl⟩ := filterMap_eq_cons_iff.mp hβ'
    obtain rfl : s = .n x := by
      cases s with
      | t y => cases hs
      | n y => cases hs; rfl
      | a y => cases hs
    have hnil : β1.filterMap Sym.plain = [] := filterMap_eq_nil_iff.mpr hβ1
    obtain ⟨v, hv, hw⟩ := ih (γ := (α ++ β1) ++ (δ ++ β)) (by
      simp [filterMap_append, hnil])
    refine ⟨v, ?_, hw⟩
    have := hv.fold hδ
    rwa [append_assoc] at this

/-- The words of the language are the terminals of what the start symbol derives. -/
theorem mem_language_iff_yields (hall : ∀ x, x ∈ all) {w : List T} :
    w ∈ (cfg rules all start).language ↔ ∃ v, Yields rules [.n start] v ∧ tokens v = w := by
  rw [ContextFreeGrammar.mem_language_iff]
  constructor
  · intro h
    exact yields_of_derives h rfl
  · rintro ⟨v, hv, rfl⟩
    exact hv.derives hall

end Predictive
