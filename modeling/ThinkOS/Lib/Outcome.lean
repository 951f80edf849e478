/-!
# Computations that may fail

`Gives x P`: whatever `x` returns has the property `P`. There is one rule for each construct of a
`do` block, so that a proof about such a block follows its text.
-/

namespace Lib

open Option

variable {α β : Type} {x : Option α} {Q : α → Prop} {P : β → Prop}

def Gives (x : Option α) (Q : α → Prop) : Prop := ∀ a, x = some a → Q a

theorem Gives.self : Gives x fun a => x = some a := fun _ h => h

theorem Gives.ret {b : β} (h : P b) : Gives (some b) P := by
  rintro _ ⟨⟩
  exact h

theorem Gives.bind {f : α → Option β} (hx : Gives x Q) (hf : ∀ a, Q a → Gives (f a) P) :
    Gives (x.bind f) P := by
  intro b h
  obtain ⟨a, ha, hb⟩ := bind_eq_some_iff.mp h
  exact hf a (hx a ha) b hb

theorem Gives.unless {c : Prop} [Decidable c] {y : Option β} (h : ¬c → Gives y P) :
    Gives (if c then none else y) P := by
  intro b hb
  obtain ⟨hc, hb⟩ := ite_none_left_eq_some.mp hb
  exact h hc b hb

theorem Gives.filter {p : α → Bool} (h : Gives x Q) :
    Gives (x.filter p) fun a => Q a ∧ p a = true := by
  intro a ha
  obtain ⟨ha, hp⟩ := filter_eq_some_iff.mp ha
  exact ⟨h a ha, hp⟩

theorem Gives.map {f : α → β} (h : Gives x fun a => P (f a)) : Gives (x.map f) P := by
  intro b hb
  obtain ⟨a, ha, rfl⟩ := map_eq_some_iff.mp hb
  exact h a ha

end Lib
