import Mathlib.Tactic.Ring

/-!
# Segments of code with relative jumps

Code is a list of items; a jump names its target by a distance in items. `Every` says something of
every item of a segment, given what stands before and after it, and composes along `++`. `Lands`
names the target of a jump by the code before it, so that any quantity added up along the code has
its value at the target: the address in the memory (`Format`), or a type such as the depth of a
stack (`Flow`). Both are stated for a segment alone and move with it into any context.
-/

namespace Segment

open List

variable {ι : Type} {b : List ι}

/-- `Q` holds of every item of `b`, which stands between `a` and `c`. -/
def Every (Q : List ι → ι → List ι → Prop) : List ι → List ι → List ι → Prop
  | _, [], _ => True
  | a, it :: b, c => Q a it (b ++ c) ∧ Every Q (a ++ [it]) b c

section Every
variable {Q Q' : List ι → ι → List ι → Prop} {a b b' c : List ι} {it : ι}

theorem every_append (h : Every Q a b (b' ++ c)) (h' : Every Q (a ++ b) b' c) :
    Every Q a (b ++ b') c := by
  induction b generalizing a with
  | nil => simpa using h'
  | cons x b ih =>
    obtain ⟨hx, h⟩ := h
    refine ⟨by simpa using hx, ih h (by simpa using h')⟩

theorem every_cons (h : Q a it (b ++ c)) (h' : Every Q (a ++ [it]) b c) : Every Q a (it :: b) c :=
  ⟨h, h'⟩

theorem every_singleton (h : Q a it c) : Every Q a [it] c := ⟨h, trivial⟩

/-- An item in the middle of a segment. -/
theorem Every.item {x y : List ι} (h : Every Q a (x ++ it :: y) c) : Q (a ++ x) it (y ++ c) := by
  induction x generalizing a with
  | nil => simpa using h.1
  | cons z x ih => simpa using ih h.2

theorem Every.at {i : Nat} (h : Every Q [] b []) (hi : b[i]? = some it) :
    Q (b.take i) it (b.drop (i + 1)) := by
  obtain ⟨hlt, rfl⟩ := List.getElem?_eq_some_iff.mp hi
  have hb : b = b.take i ++ b[i] :: b.drop (i + 1) := by
    rw [← drop_eq_getElem_cons hlt, take_append_drop]
  have hq : Q ([] ++ b.take i) b[i] (b.drop (i + 1) ++ []) := Every.item (by rw [← hb]; exact h)
  simpa using hq

theorem Every.imp {a1 c1 a2 c2 : List ι} (h : Every Q a1 b c1)
    (hQ : ∀ x it y, b = x ++ it :: y → Q (a1 ++ x) it (y ++ c1) → Q' (a2 ++ x) it (y ++ c2)) :
    Every Q' a2 b c2 := by
  induction b generalizing a1 a2 with
  | nil => trivial
  | cons z b ih =>
    refine ⟨by simpa using hQ [] z b rfl (by simpa using h.1), ih h.2 fun x it y hb hq => ?_⟩
    subst hb
    simpa using hQ (z :: x) it y rfl (by simpa using hq)

end Every

/-- A jump over `d` items, from between `a` and `c`, goes to the end of `p`. -/
def Lands (a : List ι) (it : ι) (c : List ι) (d : Int) (p : List ι) : Prop :=
  (p.length : Int) = a.length + 1 + d ∧ p <+: a ++ it :: c

section Lands
variable {a c p : List ι} {it : ι} {d : Int}

theorem lands_of_eq {q : List ι} (h : a ++ it :: c = p ++ q)
    (hd : (p.length : Int) = a.length + 1 + d) : Lands a it c d p := ⟨hd, ⟨q, h.symm⟩⟩

theorem Lands.shift (h : Lands a it c d p) (x y : List ι) : Lands (x ++ a) it (c ++ y) d (x ++ p) := by
  obtain ⟨hl, q, hq⟩ := h
  refine ⟨by simp [hl]; omega, q ++ y, ?_⟩
  rw [append_assoc, ← append_assoc p, hq]
  simp

theorem Lands.take {i : Nat} (h : Lands (b.take i) it (b.drop (i + 1)) d p) (hi : b[i]? = some it) :
    p = b.take (i + 1 + d).toNat := by
  obtain ⟨hlt, rfl⟩ := List.getElem?_eq_some_iff.mp hi
  obtain ⟨hl, q, hq⟩ := h
  rw [← drop_eq_getElem_cons hlt, take_append_drop] at hq
  rw [length_take_of_le (Nat.le_of_lt hlt)] at hl
  rw [← hq, ← hl, Int.toNat_natCast, take_left]

end Lands

/-! ## Layout -/

/-- How items are stored: their sizes, their jumps, and the bytes of an item at a given address with
a given target. -/
structure Format (ι β : Type) where
  size : ι → Nat
  jump : ι → Option Int
  bytes : ι → Nat → Nat → List β
  length_bytes : ∀ it at_ to_, (bytes it at_ to_).length = size it

/-- The list `bs` stands at `a` in the memory. -/
def Stores {β : Type} (code : Nat → β) (a : Nat) (bs : List β) : Prop :=
  ∀ k b, bs[k]? = some b → code (a + k) = b

theorem Stores.congr {β : Type} {code code' : Nat → β} {a : Nat} {bs : List β}
    (h : Stores code a bs) (hc : ∀ x, a ≤ x → x < a + bs.length → code' x = code x) :
    Stores code' a bs := by
  intro k b hk
  obtain ⟨hlt, -⟩ := List.getElem?_eq_some_iff.mp hk
  rw [hc _ (by omega) (by omega)]
  exact h k b hk

theorem Stores.eq {β : Type} {code code' : Nat → β} {a k : Nat} {bs : List β} (h : Stores code a bs)
    (h' : Stores code' a bs) (hk : k < bs.length) : code (a + k) = code' (a + k) :=
  (h k _ (getElem?_eq_getElem hk)).trans (h' k _ (getElem?_eq_getElem hk)).symm

theorem stores_append {β : Type} {code : Nat → β} {a : Nat} {bs bs' : List β} (h : Stores code a bs)
    (h' : Stores code (a + bs.length) bs') : Stores code a (bs ++ bs') := by
  intro k b hk
  rw [getElem?_append] at hk
  split at hk
  · exact h k b hk
  · rename_i hlt
    have := h' (k - bs.length) b hk
    rwa [show a + bs.length + (k - bs.length) = a + k by omega] at this

namespace Format

variable {β : Type} (F : Format ι β)

/-- The number of bytes of a segment. -/
def length (is : List ι) : Nat := (is.map F.size).sum

@[simp] theorem length_nil : F.length [] = 0 := rfl

@[simp] theorem length_cons (it : ι) (is : List ι) : F.length (it :: is) = F.size it + F.length is := by
  simp [length]

@[simp] theorem length_append (a b : List ι) : F.length (a ++ b) = F.length a + F.length b := by
  simp [length]

/-- The item between `a` and `c` is stored, in code that starts at `base`. -/
def Placed (code : Nat → β) (base : Nat) (a : List ι) (it : ι) (c : List ι) : Prop :=
  match F.jump it with
  | none => Stores code (base + F.length a) (F.bytes it (base + F.length a) 0)
  | some d => ∃ p, Lands a it c d p ∧
      Stores code (base + F.length a) (F.bytes it (base + F.length a) (base + F.length p))

/-- The segment `is` is stored at `base`, and its jumps stay inside. -/
def Holds (code : Nat → β) (base : Nat) (is : List ι) : Prop := Every (F.Placed code base) [] is []

variable {F} {code code' : Nat → β} {base : Nat} {c : List ι} {it : ι}

theorem placed_plain {a : List ι} (hj : F.jump it = none)
    (h : Stores code (base + F.length a) (F.bytes it (base + F.length a) 0)) :
    F.Placed code base a it c := by
  unfold Placed
  rw [hj]
  exact h

theorem placed_jump {a p : List ι} {d : Int} (hj : F.jump it = some d) (hl : Lands a it c d p)
    (h : Stores code (base + F.length a) (F.bytes it (base + F.length a) (base + F.length p))) :
    F.Placed code base a it c := by
  unfold Placed
  rw [hj]
  exact ⟨p, hl, h⟩

theorem Placed.shift {x y a : List ι} (h : F.Placed code (base + F.length x) a it c) :
    F.Placed code base (x ++ a) it (c ++ y) := by
  have hlen : base + F.length (x ++ a) = base + F.length x + F.length a := by
    rw [length_append, Nat.add_assoc]
  unfold Placed at h
  split at h
  · rename_i hj
    exact placed_plain hj (hlen ▸ h)
  · rename_i d hj
    obtain ⟨p, hl, hs⟩ := h
    refine placed_jump hj (hl.shift x y) ?_
    rw [hlen, length_append, ← Nat.add_assoc]
    exact hs

/-- A segment stored by itself is stored as a part of any code around it. -/
theorem Holds.every {a : List ι} {addr : Nat} (h : F.Holds code addr b)
    (ha : base + F.length a = addr) : Every (F.Placed code base) a b c := by
  refine Every.imp h fun x it y _ hq => ?_
  rw [nil_append, append_nil] at hq
  subst ha
  exact hq.shift

theorem holds_nil : F.Holds code base [] := trivial

theorem holds_append {a : List ι} (ha : F.Holds code base a)
    (hb : F.Holds code (base + F.length a) b) : F.Holds code base (a ++ b) := by
  exact every_append (ha.every rfl) (hb.every rfl)

theorem Holds.congr {is : List ι} (h : F.Holds code base is)
    (hc : ∀ x, base ≤ x → x < base + F.length is → code' x = code x) : F.Holds code' base is := by
  refine Every.imp h fun x it y hb hq => ?_
  have hlen : F.length is = F.length x + F.size it + F.length y := by simp [hb, Nat.add_assoc]
  have hst : ∀ t, Stores code (base + F.length x) (F.bytes it (base + F.length x) t) →
      Stores code' (base + F.length x) (F.bytes it (base + F.length x) t) := by
    intro t hs
    refine hs.congr fun z h1 h2 => hc z (by omega) ?_
    rw [F.length_bytes] at h2
    omega
  unfold Placed at hq ⊢
  split
  · rename_i hj
    rw [hj] at hq
    exact hst _ hq
  · rename_i d hj
    rw [hj] at hq
    obtain ⟨p, hl, hs⟩ := hq
    exact ⟨p, hl, hst _ hs⟩

end Format

/-! ### Code that is not complete -/

/-- A stretch of memory: a segment, bytes, or two bytes of which the first is known. -/
inductive Part (ι β : Type) where
  | seg (is : List ι)
  | raw (bs : List β)
  | hole (b : β)

namespace Format

variable {β : Type} (F : Format ι β)

def extent : List (Part ι β) → Nat
  | [] => 0
  | .seg is :: ps => F.length is + extent ps
  | .raw bs :: ps => bs.length + extent ps
  | .hole _ :: ps => 2 + extent ps

/-- The parts stand one after another from `a` on. -/
def Laid (code : Nat → β) : Nat → List (Part ι β) → Prop
  | _, [] => True
  | a, .seg is :: ps => F.Holds code a is ∧ Laid code (a + F.length is) ps
  | a, .raw bs :: ps => Stores code a bs ∧ Laid code (a + bs.length) ps
  | a, .hole b :: ps => code a = b ∧ Laid code (a + 2) ps

variable {F} {code code' : Nat → β} {a : Nat} {ps qs : List (Part ι β)}

theorem extent_append : F.extent (ps ++ qs) = F.extent ps + F.extent qs := by
  induction ps with
  | nil => simp [extent]
  | cons p ps ih => cases p <;> simp [extent, ih, Nat.add_assoc]

theorem laid_append :
    F.Laid code a (ps ++ qs) ↔ F.Laid code a ps ∧ F.Laid code (a + F.extent ps) qs := by
  induction ps generalizing a with
  | nil => simp [Laid, extent]
  | cons p ps ih => cases p <;> simp [Laid, extent, ih, Nat.add_assoc, and_assoc]

theorem Laid.congr (h : F.Laid code a ps) (hc : ∀ x, a ≤ x → x < a + F.extent ps → code' x = code x) :
    F.Laid code' a ps := by
  induction ps generalizing a with
  | nil => trivial
  | cons p ps ih =>
    cases p with
    | seg is =>
      rw [extent] at hc
      exact ⟨h.1.congr fun x h1 h2 => hc x h1 (by omega), ih h.2 fun x h1 h2 => hc x (by omega) (by omega)⟩
    | raw bs =>
      rw [extent] at hc
      exact ⟨h.1.congr fun x h1 h2 => hc x h1 (by omega), ih h.2 fun x h1 h2 => hc x (by omega) (by omega)⟩
    | hole b =>
      rw [extent] at hc
      exact ⟨(hc a (by omega) (by omega)).trans h.1, ih h.2 fun x h1 h2 => hc x (by omega) (by omega)⟩

end Format

/-! ## Types -/

/-- A typing discipline that is read along the code: the type after an item (at a given index), what
an item asks of the type before it, and what its jump asks of the type at the target. -/
structure Flow (ι τ : Type) where
  next : Nat → ι → τ → τ
  jump : ι → Option Int
  ok : ι → τ → Prop
  lands : ι → τ → τ → Prop

namespace Flow

variable {τ : Type} (F : Flow ι τ)

/-- The type after a segment that starts at the index `o` with the type `t`. -/
def after : Nat → τ → List ι → τ
  | _, t, [] => t
  | o, t, it :: is => after (o + 1) (F.next o it t) is

@[simp] theorem after_nil (o : Nat) (t : τ) : F.after o t [] = t := rfl

@[simp] theorem after_cons (o : Nat) (t : τ) (it : ι) (is : List ι) :
    F.after o t (it :: is) = F.after (o + 1) (F.next o it t) is := rfl

@[simp] theorem after_append {o : Nat} (t : τ) {a : List ι} :
    F.after o t (a ++ b) = F.after (o + a.length) (F.after o t a) b := by
  induction a generalizing o t with
  | nil => simp
  | cons it a ih => simp [ih, Nat.add_assoc, Nat.add_comm 1]

/-- The item between `a` and `c` is well typed, in code that starts at `o` with `t`. -/
def Ok (o : Nat) (t : τ) (a : List ι) (it : ι) (c : List ι) : Prop :=
  F.ok it (F.after o t a) ∧
    ∀ d, F.jump it = some d → ∃ p, Lands a it c d p ∧ F.lands it (F.after o t a) (F.after o t p)

/-- The segment `is` is well typed, and its jumps stay inside. -/
def Typed (o : Nat) (t : τ) (is : List ι) : Prop := Every (F.Ok o t) [] is []

variable {F} {o o' : Nat} {t t' : τ} {a b c : List ι} {it : ι}

theorem ok_plain (h : F.ok it (F.after o t a)) (hj : F.jump it = none) : F.Ok o t a it c :=
  ⟨h, fun d hd => by rw [hj] at hd; cases hd⟩

theorem ok_jump {d : Int} (h : F.ok it (F.after o t a)) (hj : F.jump it = some d) {p q : List ι}
    (hpq : a ++ it :: c = p ++ q) (hd : (p.length : Int) = a.length + 1 + d)
    (hl : F.lands it (F.after o t a) (F.after o t p)) : F.Ok o t a it c := by
  refine ⟨h, fun d' hd' => ?_⟩
  rw [hj] at hd'
  cases hd'
  exact ⟨p, lands_of_eq hpq hd, hl⟩

theorem Ok.shift {x y : List ι} (h : F.Ok (o + x.length) (F.after o t x) a it c) :
    F.Ok o t (x ++ a) it (c ++ y) := by
  obtain ⟨hok, hj⟩ := h
  refine ⟨by rwa [after_append], fun d hd => ?_⟩
  obtain ⟨p, hl, ht⟩ := hj d hd
  exact ⟨x ++ p, hl.shift x y, by rwa [after_append, after_append]⟩

/-- A well-typed segment is well typed as a part of any code around it. -/
theorem Typed.every (h : F.Typed o' t' b) (ho : o + a.length = o') (ht : F.after o t a = t') :
    Every (F.Ok o t) a b c := by
  refine Every.imp h fun x it y _ hq => ?_
  rw [nil_append, append_nil] at hq
  subst ho ht
  exact hq.shift

theorem typed_nil : F.Typed o t [] := trivial

theorem typed_singleton (h : F.ok it t) (hj : F.jump it = none) : F.Typed o t [it] :=
  every_singleton (ok_plain h hj)

theorem typed_append (ha : F.Typed o t a) (hb : F.Typed (o + a.length) (F.after o t a) b) :
    F.Typed o t (a ++ b) :=
  every_append (ha.every rfl rfl) (hb.every rfl rfl)

section
variable {P : List ι} {i : Nat}

theorem after_take_succ (hi : P[i]? = some it) :
    F.after o t (P.take (i + 1)) = F.next (o + i) it (F.after o t (P.take i)) := by
  obtain ⟨hlt, rfl⟩ := List.getElem?_eq_some_iff.mp hi
  rw [take_succ_eq_append_getElem hlt, after_append, length_take_of_le (Nat.le_of_lt hlt)]
  rfl

/-- What a well-typed item asks of the types before it and at its target. -/
theorem Typed.at (h : F.Typed o t P) (hi : P[i]? = some it) :
    F.ok it (F.after o t (P.take i)) ∧ ∀ d, F.jump it = some d →
      0 ≤ i + 1 + d ∧ i + 1 + d ≤ P.length ∧
        F.lands it (F.after o t (P.take i)) (F.after o t (P.take (i + 1 + d).toNat)) := by
  obtain ⟨hok, hj⟩ := Every.at h hi
  refine ⟨hok, fun d hd => ?_⟩
  obtain ⟨p, hl, ht⟩ := hj d hd
  have hp := hl.take hi
  obtain ⟨hlt, rfl⟩ := List.getElem?_eq_some_iff.mp hi
  obtain ⟨hlen, -⟩ := hl
  rw [length_take_of_le (Nat.le_of_lt hlt)] at hlen
  have hle : p.length ≤ P.length := by
    rw [hp, length_take]
    omega
  exact ⟨by omega, by omega, hp ▸ ht⟩

end

end Flow

end Segment
