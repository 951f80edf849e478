import ThinkOS.Lib.Derivation

/-!
# LL(1) tables

`Sets` are FIRST and FOLLOW sets, given as a certificate; `LL1` collects the finitely many
conditions under which they, and a table of predictions, fit a grammar. Under these conditions the
predictive parser is exact (`exists_run_iff`): with enough room on its stack it succeeds just when
the stack derives a list of terminals and actions that can be performed one after the other, the
terminals matched and the actions run. `recorder` is the parser on a given list of tokens whose
actions only note that they were run.
-/

namespace Predictive

open List

variable {T N A K L σ ε : Type}

/-- Which nonterminals derive the empty word, which terminals a nonterminal's words begin with, and
which come behind it. -/
structure Sets (T N : Type) where
  nullable : N → Bool
  first : N → List T
  follow : N → List T

namespace Sets

variable (S : Sets T N)

/-- Whether a sentential form derives the empty word. -/
def nulls : List (Sym T N A) → Bool
  | [] => true
  | .t _ :: _ => false
  | .a _ :: γ => nulls γ
  | .n x :: γ => S.nullable x && nulls γ

/-- The terminals that can come first where a sentential form is followed by one of `F`. -/
def starts (F : List T) : List (Sym T N A) → List T
  | [] => F
  | .t x :: _ => [x]
  | .a _ :: γ => starts F γ
  | .n x :: γ => S.first x ++ if S.nullable x then starts F γ else []

/-- Behind every nonterminal of a sentential form that is followed by one of `F` come only
terminals of its FOLLOW set. -/
def Fits (F : List T) : List (Sym T N A) → Prop
  | [] => True
  | .t _ :: γ => Fits F γ
  | .a _ :: γ => Fits F γ
  | .n x :: γ => (∀ t ∈ S.starts F γ, t ∈ S.follow x) ∧ Fits F γ

instance decidableFits [DecidableEq T] (F : List T) :
    (γ : List (Sym T N A)) → Decidable (S.Fits F γ)
  | [] => .isTrue trivial
  | .t _ :: γ => decidableFits F γ
  | .a _ :: γ => decidableFits F γ
  | .n x :: γ =>
    have := decidableFits F γ
    inferInstanceAs (Decidable ((∀ t ∈ S.starts F γ, t ∈ S.follow x) ∧ S.Fits F γ))

variable {S} {F G : List T} {γ δ : List (Sym T N A)}

theorem starts_append : S.starts F (γ ++ δ) = S.starts (S.starts F δ) γ := by
  induction γ with
  | nil => rfl
  | cons s γ ih =>
    cases s with
    | t x => rfl
    | a x => exact ih
    | n x => simp only [cons_append, starts, ih]

/-- A first terminal comes from the sentential form itself, or from behind it. -/
theorem mem_starts {t : T} (h : t ∈ S.starts F γ) :
    t ∈ S.starts [] γ ∨ S.nulls γ = true ∧ t ∈ F := by
  induction γ with
  | nil => exact .inr ⟨rfl, h⟩
  | cons s γ ih =>
    cases s with
    | t x => exact .inl h
    | a x => exact ih h
    | n x =>
      simp only [starts, nulls, mem_append] at h ⊢
      rcases h with h | h
      · exact .inl (.inl h)
      · split at h
        · rename_i hx
          rw [hx]
          exact (ih h).imp .inr id
        · cases h

theorem starts_mono (hFG : ∀ t ∈ F, t ∈ G) {t : T} (h : t ∈ S.starts F γ) : t ∈ S.starts G γ := by
  induction γ with
  | nil => exact hFG t h
  | cons s γ ih =>
    cases s with
    | t x => exact h
    | a x => exact ih h
    | n x =>
      simp only [starts, mem_append] at h ⊢
      refine h.imp id fun h => ?_
      split at h
      · rename_i hx
        rw [if_pos hx]
        exact ih h
      · cases h

theorem Fits.mono (hFG : ∀ t ∈ F, t ∈ G) (h : S.Fits G γ) : S.Fits F γ := by
  induction γ with
  | nil => trivial
  | cons s γ ih =>
    cases s with
    | t x => exact ih h
    | a x => exact ih h
    | n x => exact ⟨fun t ht => h.1 t (starts_mono hFG ht), ih h.2⟩

theorem Fits.append (hδ : S.Fits (S.starts F γ) δ) (hγ : S.Fits F γ) : S.Fits F (δ ++ γ) := by
  induction δ with
  | nil => exact hγ
  | cons s δ ih =>
    cases s with
    | t x => exact ih hδ
    | a x => exact ih hδ
    | n x =>
      refine ⟨fun t ht => hδ.1 t ?_, ih hδ.2⟩
      replace ht : t ∈ S.starts F (δ ++ γ) := ht
      rwa [starts_append] at ht

end Sets

/-- The sets and the table of predictions `predict` fit the grammar. -/
structure LL1 (S : Sets T N) (rules : N → List (List (Sym T N A)))
    (predict : N → T → Option (List (Sym T N A))) : Prop where
  nullable : ∀ x, ∀ γ ∈ rules x, S.nulls γ = true → S.nullable x = true
  first : ∀ x, ∀ γ ∈ rules x, ∀ t ∈ S.starts [] γ, t ∈ S.first x
  follow : ∀ x, ∀ γ ∈ rules x, S.Fits (S.follow x) γ
  /-- an alternative is predicted by all terminals that its words can begin with -/
  predicts : ∀ x, ∀ γ ∈ rules x, ∀ t ∈ S.starts (S.follow x) γ, predict x t = some γ
  /-- only alternatives are predicted -/
  rule : ∀ x t γ, predict x t = some γ → γ ∈ rules x

namespace Parser

variable {P : Parser T N A K L σ ε} {S : Sets T N} {rules : N → List (List (Sym T N A))}
  {F : List T} {γ : List (Sym T N A)} {v : List (T ⊕ A)} {f f' : Feed K L σ}

/-- The terminals matched and the actions run, one after the other. -/
def Performs (P : Parser T N A K L σ ε) : List (T ⊕ A) → Feed K L σ → Feed K L σ → Prop
  | [], f, f' => f' = f
  | .inl x :: v, f, f' => ∃ f1, P.Matches x f f1 ∧ Performs P v f1 f'
  | .inr x :: v, f, f' => ∃ f1, P.Acts x f f1 ∧ Performs P v f1 f'

theorem Performs.append {u : List (T ⊕ A)} {f1 : Feed K L σ} (hu : P.Performs u f f1)
    (hv : P.Performs v f1 f') : P.Performs (u ++ v) f f' := by
  induction u generalizing f with
  | nil => cases hu; exact hv
  | cons s u ih =>
    cases s with
    | inl x =>
      obtain ⟨f2, hx, hu⟩ := hu
      exact ⟨f2, hx, ih hu⟩
    | inr x =>
      obtain ⟨f2, hx, hu⟩ := hu
      exact ⟨f2, hx, ih hu⟩

/-- Performing needs no room on the stack. -/
theorem Performs.of_room {r : Nat} (h : { P with room := r }.Performs v f f') :
    P.Performs v f f' := by
  induction v generalizing f with
  | nil => exact h
  | cons s v ih =>
    cases s with
    | inl x =>
      obtain ⟨f1, hx, h⟩ := h
      exact ⟨f1, hx, ih h⟩
    | inr x =>
      obtain ⟨f1, hx, h⟩ := h
      exact ⟨f1, hx, ih h⟩

/-- What a stack does, where each of its nonterminals performs something it derives. -/
theorem exists_yields_of_follows
    (h : P.Follows (fun x f f' => ∃ v, Yields rules [.n x] v ∧ P.Performs v f f') γ f f') :
    ∃ v, Yields rules γ v ∧ P.Performs v f f' := by
  induction γ generalizing f with
  | nil => exact ⟨[], .nil, h⟩
  | cons s γ ih =>
    cases s with
    | t x =>
      obtain ⟨f1, hx, h⟩ := h
      obtain ⟨v, hv, hp⟩ := ih h
      exact ⟨.inl x :: v, .t hv, f1, hx, hp⟩
    | a x =>
      obtain ⟨f1, hx, h⟩ := h
      obtain ⟨v, hv, hp⟩ := ih h
      exact ⟨.inr x :: v, .a hv, f1, hx, hp⟩
    | n x =>
      obtain ⟨f1, ⟨u, hu, hx⟩, h⟩ := h
      obtain ⟨v, hv, hp⟩ := ih h
      exact ⟨u ++ v, hu.append hv, hx.append hp⟩

/-- A successful run performs what its stack derives. -/
theorem exists_yields_of_run [DecidableEq T]
    (hrule : ∀ x t δ, P.predict x t = some δ → δ ∈ rules x) {n : Nat}
    (h : P.run n γ f = some (.ok f')) : ∃ v, Yields rules γ v ∧ P.Performs v f f' := by
  refine exists_yields_of_follows (follows_of_run (fun {x δ f f'} hx hδ => ?_) h)
  obtain ⟨v, hv, hp⟩ := exists_yields_of_follows hδ
  exact ⟨v, .n (hrule x _ δ hx) (by rwa [append_nil]), hp⟩

/-- The lookahead token is one that the stack can begin with. -/
theorem look_mem_starts (hS : LL1 S rules P.predict) (h : Yields rules γ v)
    (hp : P.Performs v f f') (hF : P.typ f'.look ∈ F) : P.typ f.look ∈ S.starts F γ := by
  induction h generalizing f with
  | nil => cases hp; exact hF
  | t _ _ =>
    obtain ⟨f1, hx, -⟩ := hp
    exact mem_singleton.mpr hx.1
  | a _ ih =>
    obtain ⟨f1, ⟨st, -, rfl⟩, hp⟩ := hp
    have := ih hp
    exact this
  | @n x δ γ v hδ _ ih =>
    have ht := ih hp
    rw [Sets.starts_append] at ht
    rw [Sets.starts, mem_append]
    rcases Sets.mem_starts ht with ht | ⟨hnull, ht⟩
    · exact .inl (hS.first x δ hδ _ ht)
    · rw [if_pos (hS.nullable x δ hδ hnull)]
      exact .inr ht

variable [DecidableEq T]

theorem step_of_matches {x : T} (h : P.Matches x f f') : P.step (.t x) γ f = .ok (γ, f') := by
  obtain ⟨hx, k, l, hl, rfl⟩ := h
  simp only [step, hx, ne_eq, not_true_eq_false, if_false, hl]

theorem step_of_acts {x : A} (h : P.Acts x f f') : P.step (.a x) γ f = .ok (γ, f') := by
  obtain ⟨st, hst, rfl⟩ := h
  simp only [step, hst]

theorem step_of_predict {x : N} {δ : List (Sym T N A)} (h : P.predict x (P.typ f.look) = some δ)
    (hroom : (δ ++ γ).length ≤ P.room) : P.step (.n x) γ f = .ok (δ ++ γ, f) := by
  simp only [step, h, if_neg (Nat.not_lt.mpr hroom)]

theorem run_succ {n : Nat} {s : Sym T N A} {δ : List (Sym T N A)} {f1 : Feed K L σ}
    (h : P.step s γ f = .ok (δ, f1)) : P.run (n + 1) (s :: γ) f = P.run n δ f1 := by
  rw [run, h]

/-- With enough room, what the stack derives and can be performed is what the machine does: the
lookahead token predicts each time the alternative that the derivation takes. -/
theorem exists_run_of_yields (hS : LL1 S rules P.predict) (h : Yields rules γ v)
    (hfit : S.Fits F γ) (hp : P.Performs v f f') (hF : P.typ f'.look ∈ F) :
    ∃ room n, ∀ r, room ≤ r → { P with room := r }.run n γ f = some (.ok f') := by
  induction h generalizing f with
  | nil =>
    cases hp
    exact ⟨0, 0, fun _ _ => rfl⟩
  | t _ ih =>
    obtain ⟨f1, hx, hp⟩ := hp
    obtain ⟨room, n, hn⟩ := ih hfit hp
    refine ⟨room, n + 1, fun r hr => ?_⟩
    rw [run_succ (P := { P with room := r }) (step_of_matches hx)]
    exact hn r hr
  | a _ ih =>
    obtain ⟨f1, hx, hp⟩ := hp
    obtain ⟨room, n, hn⟩ := ih hfit hp
    refine ⟨room, n + 1, fun r hr => ?_⟩
    rw [run_succ (P := { P with room := r }) (step_of_acts hx)]
    exact hn r hr
  | @n x δ γ v hδ hv ih =>
    have hfit' : S.Fits F (δ ++ γ) := ((hS.follow x δ hδ).mono hfit.1).append hfit.2
    have hlook : P.typ f.look ∈ S.starts (S.follow x) δ := by
      have := look_mem_starts hS hv hp hF
      rw [Sets.starts_append] at this
      exact Sets.starts_mono hfit.1 this
    obtain ⟨room, n, hn⟩ := ih hfit' hp
    refine ⟨max (δ ++ γ).length room, n + 1, fun r hr => ?_⟩
    have hstep : { P with room := r }.step (.n x) γ f = .ok (δ ++ γ, f) :=
      step_of_predict (hS.predicts x δ hδ _ hlook) (le_of_max_le_left hr)
    rw [run_succ hstep]
    exact hn r (le_of_max_le_right hr)

/-- **The machine is exact**: given room, it succeeds just with what its stack derives. -/
theorem exists_run_iff (hS : LL1 S rules P.predict) (hfit : ∀ F, S.Fits F γ) :
    (∃ r n, { P with room := r }.run n γ f = some (.ok f')) ↔
      ∃ v, Yields rules γ v ∧ P.Performs v f f' := by
  constructor
  · rintro ⟨r, n, h⟩
    obtain ⟨v, hv, hp⟩ := exists_yields_of_run (P := { P with room := r }) hS.rule h
    exact ⟨v, hv, hp.of_room⟩
  · rintro ⟨v, hv, hp⟩
    obtain ⟨room, n, hn⟩ := exists_run_of_yields hS hv (hfit _) hp (mem_singleton_self _)
    exact ⟨room, n, hn room le_rfl⟩

end Parser

/-! ### Tokens and actions alone -/

/-- The machine on a list of tokens, behind which comes `e` again and again; its actions never fail
and are noted in the order in which they run. -/
def recorder (predict : N → T → Option (List (Sym T N A))) (e : T) :
    Parser T N A T (List T) (List A) Unit where
  typ := id
  next l := .ok (l.headD e, l.tail)
  predict := predict
  act x _ st := .ok (st ++ [x])
  unexpected := ()
  noRule _ := ()
  overflow := ()
  room := 0

/-- What the recorder starts with for the tokens `ws`. -/
def feed (e : T) (ws : List T) : Feed T (List T) (List A) := ⟨e, ws.headD e, ws.tail, []⟩

/-- The tokens `ts` are the first ones of `ws`, `e`, `e`, … -/
def Reads (e : T) : List T → List T → Prop
  | _, [] => True
  | ws, t :: ts => ws.headD e = t ∧ Reads e ws.tail ts

theorem performs_recorder {predict : N → T → Option (List (Sym T N A))} {e k : T} {ws : List T}
    {st as : List A} {v : List (T ⊕ A)} :
    (∃ f', (recorder predict e).Performs v ⟨k, ws.headD e, ws.tail, st⟩ f' ∧ f'.st = as) ↔
      Reads e ws (tokens v) ∧ st ++ actions v = as := by
  induction v generalizing k ws st with
  | nil =>
    simp only [Parser.Performs, tokens_nil, actions_nil, Reads, append_nil, true_and,
      exists_eq_left]
  | cons s v ih =>
    cases s with
    | inl x =>
      simp only [tokens_inl, actions_inl, Reads, and_assoc, ← ih (k := ws.headD e)]
      constructor
      · rintro ⟨f', ⟨_, ⟨hx, _, _, hl, rfl⟩, hp⟩, hst⟩
        cases hl
        exact ⟨hx, f', hp, hst⟩
      · rintro ⟨hx, f', hp, hst⟩
        exact ⟨f', ⟨_, ⟨hx, _, _, rfl, rfl⟩, hp⟩, hst⟩
    | inr x =>
      rw [tokens_inr, actions_inr, append_cons, ← ih (k := k)]
      constructor
      · rintro ⟨f', ⟨_, ⟨_, hact, rfl⟩, hp⟩, hst⟩
        cases hact
        exact ⟨f', hp, hst⟩
      · rintro ⟨f', hp, hst⟩
        exact ⟨f', ⟨_, ⟨_, rfl, rfl⟩, hp⟩, hst⟩

/-- Words that end with the marker are read from tokens without it only as a whole. -/
theorem reads_marked {e : T} {ws w : List T} (hws : e ∉ ws) (hw : e ∉ w) :
    Reads e ws (w ++ [e, e]) ↔ w = ws := by
  induction w generalizing ws with
  | nil =>
    cases ws with
    | nil => simp [Reads]
    | cons t ws =>
      have ht : t ≠ e := fun h => hws (h ▸ mem_cons_self)
      simp [Reads, ht]
  | cons x w ih =>
    rw [mem_cons, not_or] at hw
    cases ws with
    | nil => simp [Reads, hw.1]
    | cons t ws =>
      rw [mem_cons, not_or] at hws
      rw [cons_append, Reads, headD_cons, tail_cons, ih hws.2 hw.2, cons_eq_cons]
      exact and_congr_left' eq_comm

end Predictive
