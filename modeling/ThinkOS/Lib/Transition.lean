/-!
# Runs of a transition system

A system is a partial step function on labelled events. `Run M P s t` says that `t`
is reached from `s` by steps that all meet the condition `P` (on the state the step
starts from and its event); `exec` replays a list of events that meet it.

    every invariant of the steps that meet P holds along Run M P       (Run.invariant)
    a replay that ends in a state with Q is a run to such a state      (exists_run_of_exec)
-/

namespace Lib

/-- Partial deterministic steps labelled by events; `none` when an event cannot happen. -/
structure System (σ ε : Type) where
  step : σ → ε → Option σ

namespace System

section
variable {σ ε : Type} (M : System σ ε) (P : σ → ε → Prop)

/-- Reachability by steps that meet `P`. -/
inductive Run (s : σ) : σ → Prop
  | refl : Run s s
  | snoc {t u : σ} {e : ε} : Run s t → P t e → M.step t e = some u → Run s u

/-- Replay of a list of events, each of which must meet `P` and be possible. -/
def exec [∀ s e, Decidable (P s e)] : σ → List ε → Option σ
  | s, [] => some s
  | s, e :: es => if P s e then (M.step s e).bind fun t => exec t es else none

variable {M P}

theorem Run.head {s t u : σ} {e : ε} (hp : P s e) (he : M.step s e = some t)
    (hr : Run M P t u) : Run M P s u := by
  induction hr with
  | refl => exact .snoc .refl hp he
  | snoc _ hp' he' ih => exact .snoc ih hp' he'

/-- Invariant rule: what every step that meets `P` preserves holds along every run. -/
theorem Run.invariant {I : σ → Prop} (hstep : ∀ s e t, I s → P s e → M.step s e = some t → I t)
    {s t : σ} (hr : Run M P s t) (hs : I s) : I t := by
  induction hr with
  | refl => exact hs
  | snoc _ hp he ih => exact hstep _ _ _ ih hp he

theorem run_of_exec [∀ s e, Decidable (P s e)] {es : List ε} :
    ∀ s t : σ, M.exec P s es = some t → Run M P s t := by
  induction es with
  | nil =>
    intro s t h
    cases h
    exact .refl
  | cons e es ih =>
    intro s t h
    unfold exec at h
    split at h
    · obtain ⟨u, hu, ht⟩ := Option.bind_eq_some_iff.mp h
      exact Run.head ‹_› hu (ih u t ht)
    · cases h

/-- A replay whose last state satisfies `Q`, as a run. -/
theorem exists_run_of_exec [∀ s e, Decidable (P s e)] (Q : σ → Prop) [DecidablePred Q]
    (es : List ε) (s : σ) (h : (M.exec P s es).any (fun t => decide (Q t)) = true) :
    ∃ t, Run M P s t ∧ Q t := by
  cases ht : M.exec P s es with
  | none => simp [ht] at h
  | some t => exact ⟨t, run_of_exec s t ht, by simpa [ht] using h⟩

end

end System

end Lib
