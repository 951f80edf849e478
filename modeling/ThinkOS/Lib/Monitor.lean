import Mathlib.Tactic.Common

/-!
# Programs under a mutex

A call of a monitor: a program over a state that a mutex protects. Other threads change the state
whenever the mutex is free; what they do before the thread gets the mutex is one of its `turns`, so a
call that has used up its turns is still waiting.

    x.Spec P Q E       from a state with P the program ends with Q, or stops with E
    x.Moves b b'       it starts with the mutex owned as in b and ends with it as in b', and on the
                       way never releases a mutex that it does not own
-/

namespace Lib

/-- Why a call does not return. -/
inductive Stop where
  /-- it waits: for the mutex, on a condition variable or on a semaphore -/
  | waits
  /-- it stays in a loop that waits for nothing -/
  | spins
  /-- it does what the language leaves undefined -/
  | faults
  deriving DecidableEq

/-- The mutex as a thread sees it, with the state that it protects. -/
structure Monitor (σ : Type) where
  state : σ
  owned : Bool
  /-- the thread has unlocked the mutex when it did not own it -/
  broken : Bool
  /-- what the other threads do before each time at which the thread gets the mutex -/
  turns : List (σ → σ)

/-- Programs of a thread: they return a value or stop. -/
abbrev Prog (σ : Type) := ExceptT Stop (StateM (Monitor σ))

namespace Prog

section
variable {σ α β : Type} {m : Monitor σ}

def getState : Prog σ σ := do return (← get).state

def setState (s : σ) : Prog σ Unit := modify fun m => { m with state := s }

def lock : Prog σ Unit := do
  match (← get).turns with
  | [] => throw .waits
  | f :: turns => modify fun m => { m with state := f m.state, owned := true, turns }

def unlock : Prog σ Unit :=
  modify fun m => if m.owned then { m with owned := false } else { m with broken := true }

/-- A wait that releases the mutex, and takes it again before it returns. -/
def wait : Prog σ Unit := do
  unlock
  lock

/-- A loop that waits between its rounds; each wait takes one of the turns. -/
def rounds (body : β → Prog σ (β ⊕ α)) : Nat → β → Prog σ α
  | 0, _ => throw .waits
  | n + 1, b => do
    match ← body b with
    | .inl b =>
      wait
      rounds body n b
    | .inr a => pure a

/-- As many rounds as there are turns left, and the one before the first of them. -/
def untilDone (body : β → Prog σ (β ⊕ α)) (b : β) : Prog σ α := do
  rounds body ((← get).turns.length + 1) b

/-- The program without its value. -/
def done (x : Prog σ α) : Prog σ Unit := do
  let _ ← x
  return ()

/-! ## Running a program -/

theorem run_bind {x : Prog σ α} (f : α → Prog σ β) : (x >>= f) m = match x m with
      | (.ok a, m') => f a m'
      | (.error e, m') => (.error e, m') := by
  change ExceptT.bind x f m = _
  unfold ExceptT.bind ExceptT.mk
  change StateT.bind x (ExceptT.bindCont f) m = _
  unfold StateT.bind
  cases x m with
  | mk r m' => cases r <;> rfl

@[simp] theorem run_pure (a : α) : (pure a : Prog σ α) m = (.ok a, m) := rfl

@[simp] theorem run_throw (e : Stop) (m : Monitor σ) : (throw e : Prog σ α) m = (.error e, m) := rfl

@[simp] theorem run_getState : getState m = (.ok m.state, m) := rfl

@[simp] theorem run_setState (s : σ) : setState s m = (.ok (), { m with state := s }) := rfl

@[simp] theorem run_lock_nil {s : σ} {b c : Bool} : lock ⟨s, b, c, []⟩ = (.error .waits, ⟨s, b, c, []⟩) :=
  rfl

@[simp] theorem run_lock_cons {s : σ} {b c : Bool} {f : σ → σ} {turns : List (σ → σ)} :
    lock ⟨s, b, c, f :: turns⟩ = (.ok (), ⟨f s, true, c, turns⟩) := rfl

@[simp] theorem run_unlock {s : σ} {b c : Bool} {turns : List (σ → σ)} :
    unlock ⟨s, b, c, turns⟩ = (.ok (), ⟨s, false, c || !b, turns⟩) := by
  cases b <;> cases c <;> rfl

/-! ## Specifications -/

def Spec (P : Monitor σ → Prop) (x : Prog σ α) (Q : α → Monitor σ → Prop) (E : Monitor σ → Prop) :
    Prop :=
  ∀ m, P m → match x m with
    | (.ok a, m') => Q a m'
    | (.error _, m') => E m'

variable {P P' E : Monitor σ → Prop} {Q : α → Monitor σ → Prop} {body : β → Prog σ (β ⊕ α)}
  {x : Prog σ α} {b' : α → Bool} {b : Bool} {a : α} {f : α → Prog σ β} {m : Monitor σ} {s : σ}
  {e : Stop}

theorem Spec.pure (h : ∀ m, P m → Q a m) : Spec P (Pure.pure a) Q E := h

theorem Spec.throw (h : ∀ m, P m → E m) : Spec P (throw e : Prog σ α) Q E := h

theorem Spec.bind {R : β → Monitor σ → Prop} (hx : Spec P x Q E) (hf : ∀ a, Spec (Q a) (f a) R E) :
    Spec P (x >>= f) R E := by
  intro m hm
  have h := hx m hm
  rw [run_bind]
  cases hr : x m with
  | mk r m' =>
    rw [hr] at h
    cases r with
    | error e => exact h
    | ok a => exact hf a m' h

section
variable {R : β ⊕ α → Monitor σ → Prop} (hbody : ∀ b, Spec P (body b) R E)
  (hwait : ∀ b, Spec (R (.inl b)) wait (fun _ => P) E) (hstop : ∀ m, P m → E m)
include hbody hwait hstop

/-- A loop keeps what holds before each round, and ends with what its last round ends with. -/
theorem Spec.rounds {n : Nat} (b : β) : Spec P (rounds body n b) (fun a => R (.inr a)) E := by
  induction n generalizing b with
  | zero => exact Spec.throw hstop
  | succ n ih =>
    refine Spec.bind (hbody b) fun r => ?_
    cases r with
    | inl b => exact Spec.bind (hwait b) fun _ => ih b
    | inr a => exact Spec.pure fun _ h => h

theorem Spec.untilDone (b : β) : Spec P (untilDone body b) (fun a => R (.inr a)) E :=
  fun m hm => Spec.rounds hbody hwait hstop b m hm

end

/-! ## The mutex -/

/-- The mutex is owned or not, and was never released without being owned. -/
def Held (b : Bool) (m : Monitor σ) : Prop := m.owned = b ∧ m.broken = false

/-- The program takes and releases the mutex in turn, and leaves it owned as its value says. -/
def Moves (b : Bool) (x : Prog σ α) (b' : α → Bool) : Prop :=
  Spec (Held b) x (fun a => Held (b' a)) fun m => m.broken = false

theorem Moves.pure (h : b' a = b) : Moves b (Pure.pure a : Prog σ α) b' :=
  Spec.pure fun _ hm => ⟨hm.1.trans h.symm, hm.2⟩

theorem Moves.throw : Moves b (throw e : Prog σ α) b' :=
  Spec.throw fun _ h => h.2

theorem Moves.bind {b'' : β → Bool} (hx : Moves b x b') (hf : ∀ a, Moves (b' a) (f a) b'') :
    Moves b (x >>= f) b'' :=
  Spec.bind hx hf

theorem Moves.getState : Moves b (getState : Prog σ σ) fun _ => b := fun _ hm => hm

theorem Moves.setState : Moves b (setState s) fun _ => b := fun _ hm => hm

theorem Moves.lock : Moves b (lock : Prog σ Unit) fun _ => true := by
  rintro ⟨s, o, c, turns⟩ hm
  cases turns with
  | nil => exact hm.2
  | cons g turns => exact ⟨rfl, hm.2⟩

theorem Moves.unlock : Moves true (unlock : Prog σ Unit) fun _ => false := by
  rintro ⟨s, o, c, turns⟩ ⟨rfl, rfl⟩
  exact ⟨rfl, rfl⟩

theorem Moves.wait : Moves true (wait : Prog σ Unit) fun _ => true :=
  Moves.bind Moves.unlock fun _ => Moves.lock

theorem Moves.leave (h : b' a = false) : Moves true (do Prog.unlock; return a : Prog σ α) b' :=
  Moves.bind Moves.unlock fun _ => Moves.pure h

theorem Moves.setLeave (h : b' a = false) :
    Moves true (do Prog.setState s; Prog.unlock; return a : Prog σ α) b' :=
  Moves.bind Moves.setState fun _ => Moves.leave h

/-- A loop that waits with the mutex owned, and releases it before it ends. -/
theorem Moves.untilDone (hbody : ∀ b, Moves true (body b) Sum.isLeft) (b : β) :
    Moves true (untilDone body b) fun _ => false :=
  Spec.untilDone hbody (fun _ => Moves.wait) (fun _ h => h.2) b

/-- From this start the program returns without the mutex, and never releases one that it does not
own. -/
def Disciplined (x : Prog σ α) (m : Monitor σ) : Prop :=
  (x m).2.broken = false ∧ ∀ a, (x m).1 = .ok a → (x m).2.owned = false

theorem Moves.disciplined (hx : Moves false x fun _ => false) (hm : Held false m) :
    Disciplined x m := by
  have h := hx m hm
  unfold Disciplined
  cases hr : x m with
  | mk r m' =>
    rw [hr] at h
    cases r with
    | error e => exact ⟨h, fun a ha => (nomatch ha)⟩
    | ok a => exact ⟨h.2, fun _ _ => h.1⟩

theorem disciplined_done : Disciplined (done x) m ↔ Disciplined x m := by
  unfold Disciplined done
  rw [run_bind]
  cases x m with
  | mk r m' => cases r <;> simp

/-! ## The state -/

/-- The state has a property that the other threads keep. -/
def Within (I : σ → Prop) (m : Monitor σ) : Prop := I m.state ∧ ∀ f ∈ m.turns, ∀ s, I s → I (f s)

def Keeps (I : σ → Prop) (x : Prog σ α) : Prop := Spec (Within I) x (fun _ => Within I) (Within I)

variable {I : σ → Prop}

theorem Keeps.pure : Keeps I (Pure.pure a) := Spec.pure fun _ h => h

theorem Keeps.throw : Keeps I (throw e : Prog σ α) := Spec.throw fun _ h => h

theorem Keeps.getState {f : σ → Prog σ β} (hf : ∀ s, I s → Keeps I (f s)) :
    Keeps I (getState >>= f) :=
  fun m hm => hf m.state hm.1 m hm

theorem Keeps.bind (hx : Keeps I x) (hf : ∀ a, Keeps I (f a)) : Keeps I (x >>= f) :=
  Spec.bind hx hf

theorem Keeps.setState (hs : I s) : Keeps I (setState s) := fun _ hm => ⟨hs, hm.2⟩

theorem Keeps.lock : Keeps I (lock : Prog σ Unit) := by
  rintro ⟨s, o, c, turns⟩ hm
  cases turns with
  | nil => exact hm
  | cons g turns =>
    exact ⟨hm.2 g List.mem_cons_self s hm.1, fun f hf => hm.2 f (List.mem_cons_of_mem g hf)⟩

theorem Keeps.unlock : Keeps I (unlock : Prog σ Unit) := by
  rintro ⟨s, o, c, turns⟩ hm
  rw [run_unlock]
  exact hm

theorem Keeps.state (hx : Keeps I x) (hm : Within I m) : I (x m).2.state := by
  have h := hx m hm
  cases hr : x m with
  | mk r m' =>
    rw [hr] at h
    cases r with
    | error e => exact h.1
    | ok a => exact h.1

theorem Keeps.leave : Keeps I (do Prog.unlock; return a : Prog σ α) :=
  Keeps.bind Keeps.unlock fun _ => Keeps.pure

theorem Keeps.setLeave (hs : I s) :
    Keeps I (do Prog.setState s; Prog.unlock; return a : Prog σ α) :=
  Keeps.bind (Keeps.setState hs) fun _ => Keeps.leave

theorem Keeps.untilDone (hbody : ∀ b, Keeps I (body b)) (b : β) : Keeps I (untilDone body b) :=
  Spec.untilDone hbody (fun _ => Keeps.bind Keeps.unlock fun _ => Keeps.lock) (fun _ h => h) b

end

end Prog

end Lib
