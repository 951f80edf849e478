import Mathlib.Tactic.Common

/-!
# Deterministic machines in lockstep

A machine steps from state to state until it ends with a result or has no defined behaviour. When
each step of one machine is matched by one or more steps of another, the two end with the same
results, and whatever holds of the states passed through holds of every state the second reaches.

    R s t → (M.Ends s r ↔ N.Ends t r)  (Lockstep.ends_iff)
    R s t → N.run k t = some u → Q u  (Lockstep.cover)
-/

namespace Lib

/-- Each state steps to another one or ends with a result; `none` is no defined behaviour. -/
structure Machine (σ ρ : Type) where
  step : σ → Option (σ ⊕ ρ)

namespace Machine

variable {σ τ ρ : Type} {s t u : σ} {n k : Nat} {r : ρ}

section
variable (M : Machine σ ρ)

/-- The state after `n` steps. -/
def run : Nat → σ → Option σ
  | 0, s => some s
  | n + 1, s =>
    match M.step s with
    | some (.inl t) => run n t
    | _ => none

/-- The machine comes from `s` to an end with the result `r`. -/
def Ends (s : σ) (r : ρ) : Prop := ∃ n t, M.run n s = some t ∧ M.step t = some (.inr r)

/-- One or more steps, from states that meet `Q`. -/
inductive Via (Q : σ → Prop) : σ → σ → Prop
  | one {s t : σ} : Q s → M.step s = some (.inl t) → Via Q s t
  | cons {s t u : σ} : Q s → M.step s = some (.inl t) → Via Q t u → Via Q s u

/-- Steps through states that meet `Q`, to an end with a result or, for `none`, to no defined
behaviour. -/
inductive HaltsVia (Q : σ → Prop) (o : Option ρ) : σ → Prop
  | here {s : σ} : Q s → M.step s = o.map .inr → HaltsVia Q o s
  | cons {s t : σ} : Q s → M.step s = some (.inl t) → HaltsVia Q o t → HaltsVia Q o s

variable {M}

theorem run_succ_of_step (h : M.step s = some (.inl t)) : M.run (n + 1) s = M.run n t := by
  simp only [run, h]

/-- What every step keeps holds of every state reached. -/
theorem run_invariant {I : σ → Prop} (hI : ∀ s t, I s → M.step s = some (.inl t) → I t)
    (h : M.run n s = some t) (hs : I s) : I t := by
  induction n generalizing s with
  | zero =>
    cases h
    exact hs
  | succ n ih =>
    unfold run at h
    split at h
    · rename_i u hu
      exact ih h (hI s u hs hu)
    · cases h

theorem run_add {m : Nat} (h : M.run m s = some t) : M.run (m + n) s = M.run n t := by
  induction m generalizing s with
  | zero =>
    cases h
    rw [Nat.zero_add]
  | succ m ih =>
    unfold run at h
    split at h
    · rename_i u hu
      rw [Nat.succ_add, run_succ_of_step hu, ih h]
    · cases h

theorem run_succ_eq_some :
    M.run (n + 1) s = some u ↔ ∃ t, M.run n s = some t ∧ M.step t = some (.inl u) := by
  induction n generalizing s with
  | zero =>
    simp only [run]
    split <;> simp_all
  | succ n ih =>
    match h : M.step s with
    | some (.inl t) => rw [run_succ_of_step h, ih, run_succ_of_step h]
    | some (.inr r) => simp [run, h]
    | none => simp [run, h]

variable {Q : σ → Prop} {o : Option ρ}

theorem Via.trans (h : M.Via Q s t) (h' : M.Via Q t u) : M.Via Q s u := by
  induction h with
  | one hq hst => exact .cons hq hst h'
  | cons hq hst _ ih => exact .cons hq hst (ih h')

theorem Via.exists_run (h : M.Via Q s t) : ∃ n, M.run n s = some t := by
  induction h with
  | one _ hst => exact ⟨1, by rw [run_succ_of_step hst]; rfl⟩
  | cons _ hst _ ih =>
    obtain ⟨n, hn⟩ := ih
    exact ⟨n + 1, by rw [run_succ_of_step hst, hn]⟩

/-- A state reached from the start of a path is on the path or reached from its end. -/
theorem Via.split (h : M.Via Q s t) (hk : M.run k s = some u) :
    (Q u ∧ ∃ v, M.step u = some (.inl v)) ∨ ∃ j < k, M.run j t = some u := by
  induction h generalizing k with
  | one hq hst =>
    cases k with
    | zero =>
      cases hk
      exact .inl ⟨hq, _, hst⟩
    | succ k =>
      rw [run_succ_of_step hst] at hk
      exact .inr ⟨k, by omega, hk⟩
  | cons hq hst _ ih =>
    cases k with
    | zero =>
      cases hk
      exact .inl ⟨hq, _, hst⟩
    | succ k =>
      rw [run_succ_of_step hst] at hk
      rcases ih hk with hu | ⟨j, hj, hu⟩
      · exact .inl hu
      · exact .inr ⟨j, by omega, hu⟩

theorem HaltsVia.of_run (h : M.HaltsVia Q o s) (hk : M.run k s = some u) :
    Q u ∧ ((∃ v, M.step u = some (.inl v)) ∨ M.step u = o.map .inr) := by
  induction h generalizing k with
  | here hq hst =>
    cases k with
    | zero =>
      cases hk
      exact ⟨hq, .inr hst⟩
    | succ k =>
      unfold run at hk
      rw [hst] at hk
      cases o <;> cases hk
  | cons hq hst _ ih =>
    cases k with
    | zero =>
      cases hk
      exact ⟨hq, .inl ⟨_, hst⟩⟩
    | succ k =>
      rw [run_succ_of_step hst] at hk
      exact ih hk

theorem HaltsVia.ends (h : M.HaltsVia Q (some r) s) : M.Ends s r := by
  induction h with
  | here _ hst => exact ⟨0, _, rfl, hst⟩
  | cons _ hst _ ih =>
    obtain ⟨n, u, hn, hu⟩ := ih
    exact ⟨n + 1, u, by rw [run_succ_of_step hst, hn], hu⟩

end

/-- Each step of `M` is matched by one or more steps of `N` between related states, each end by the
same end; the states of `N` on the way meet `Q`. -/
structure Lockstep (M : Machine σ ρ) (N : Machine τ ρ) (R : σ → τ → Prop) (Q : τ → Prop) : Prop where
  next : ∀ s t s', R s t → M.step s = some (.inl s') → ∃ t', N.Via Q t t' ∧ R s' t'
  halt : ∀ s t o, R s t → M.step s = o.map .inr → N.HaltsVia Q o t

namespace Lockstep

variable {M : Machine σ ρ} {N : Machine τ ρ} {R : σ → τ → Prop} {Q : τ → Prop} {t : τ}

/-- A step or a halt. -/
theorem step_cases (s : σ) :
    (∃ s', M.step s = some (.inl s')) ∨ ∃ o : Option ρ, M.step s = o.map .inr := by
  match h : M.step s with
  | none => exact .inr ⟨none, rfl⟩
  | some (.inl s') => exact .inl ⟨s', rfl⟩
  | some (.inr r) => exact .inr ⟨some r, rfl⟩

variable (L : Lockstep M N R Q) (h : R s t)
include L h

/-- **A state that the second machine reaches** is on its way, or both machines halt alike. -/
theorem cover {u : τ} (hk : N.run k t = some u) :
    Q u ∧ ((∃ v, N.step u = some (.inl v)) ∨
      ∃ n s' o, M.run n s = some s' ∧ M.step s' = Option.map .inr o ∧ N.step u = o.map .inr) := by
  -- the steps of `N` that are left get fewer with each step of `M`
  induction k using Nat.strongRecOn generalizing s t with
  | ind k ih =>
    rcases step_cases s with ⟨s', hs'⟩ | ⟨o, ho⟩
    · obtain ⟨t', hvia, hR⟩ := L.next s t s' h hs'
      rcases hvia.split hk with ⟨hq, hv⟩ | ⟨j, hj, hu⟩
      · exact ⟨hq, .inl hv⟩
      · obtain ⟨hq, hv | ⟨n, s1, o, hn, hs1⟩⟩ := ih j hj hR hu
        · exact ⟨hq, .inl hv⟩
        · exact ⟨hq, .inr ⟨n + 1, s1, o, by rw [run_succ_of_step hs', hn], hs1⟩⟩
    · obtain ⟨hq, hv | hv⟩ := (L.halt s t o h ho).of_run hk
      · exact ⟨hq, .inl hv⟩
      · exact ⟨hq, .inr ⟨0, s, o, rfl, ho, hv⟩⟩

/-- The second machine reaches a state related to each one that the first reaches. -/
theorem reaches {s' : σ} (hn : M.run n s = some s') :
    ∃ k t', N.run k t = some t' ∧ R s' t' := by
  induction n generalizing s t with
  | zero =>
    cases hn
    exact ⟨0, t, rfl, h⟩
  | succ n ih =>
    unfold run at hn
    split at hn
    · rename_i s1 hs1
      obtain ⟨t1, hvia, hR⟩ := L.next s t s1 h hs1
      obtain ⟨j, hj⟩ := hvia.exists_run
      obtain ⟨k, t', hk, hR'⟩ := ih hR hn
      exact ⟨j + k, t', by rw [run_add hj, hk], hR'⟩
    · cases hn

theorem ends_of_ends (he : M.Ends s r) : N.Ends t r := by
  obtain ⟨n, s', hn, hr⟩ := he
  obtain ⟨k, t', hk, hR⟩ := L.reaches h hn
  obtain ⟨j, u, hj, hu⟩ := (L.halt s' t' (some r) hR hr).ends
  exact ⟨k + j, u, by rw [run_add hk, hj], hu⟩

/-- Where the second machine halts, the first one does. -/
theorem halts {u : τ} (hk : N.run k t = some u) {o : Option ρ} (hu : N.step u = o.map .inr) :
    ∃ n s', M.run n s = some s' ∧ M.step s' = o.map .inr := by
  rcases (L.cover h hk).2 with ⟨v, hv⟩ | ⟨n, s', o', hn, hs', hu'⟩
  · rw [hu] at hv
    cases o <;> cases hv
  · have ho : o' = o := (Option.map_inj_right fun _ _ => Sum.inr.inj).mp (hu'.symm.trans hu)
    exact ⟨n, s', hn, ho ▸ hs'⟩

theorem ends_iff : M.Ends s r ↔ N.Ends t r := by
  refine ⟨L.ends_of_ends h, ?_⟩
  rintro ⟨k, u, hk, hu⟩
  exact L.halts (o := some r) h hk hu

end Lockstep

end Machine

end Lib
