import ThinkOS.Json.Parser

/-!
# The values of a text

A text is spelled by lexemes, each as long as it can be, with blanks between them. The lexemes of an
object give its values: a string in front of a colon is a label.
-/

namespace Json

/-! ## Lexemes -/

inductive Lex where
  | str (s : List UInt8)
  | sym (s : List UInt8)
  | num (neg : Bool) (digits : List UInt8)
  | colon
  | comma
  /-- an opening bracket, or brace -/
  | opening (array : Bool)
  /-- a closing bracket, or brace -/
  | closing (array : Bool)

/-- The lexemes of one character. -/
def markOf (c : UInt8) : Option Lex :=
  if c = 58 then some .colon
  else if c = 44 then some .comma
  else if c = 91 then some (.opening true)
  else if c = 123 then some (.opening false)
  else if c = 93 then some (.closing true)
  else if c = 125 then some (.closing false)
  else none

/-- A text is spelled by lexemes up to a rest. -/
inductive Spells : List UInt8 → List Lex → List UInt8 → Prop
  | nil {t : List UInt8} : Spells t [] t
  | blank {c : UInt8} {t r : List UInt8} {ls : List Lex} (hc : isSpace c = true) (h : Spells t ls r) :
      Spells (c :: t) ls r
  | str {qt : UInt8} {s t r : List UInt8} {ls : List Lex} (hqt : qt = 39 ∨ qt = 34) (hs : qt ∉ s)
      (h : Spells t ls r) : Spells (qt :: (s ++ qt :: t)) (.str s :: ls) r
  | sym {c : UInt8} {s t r : List UInt8} {ls : List Lex} (hc : isSymbol c = true)
      (hs : ∀ b ∈ s, isWord b = true) (ht : ∀ b ∈ t.head?, isWord b = false) (h : Spells t ls r) :
      Spells (c :: (s ++ t)) (.sym (c :: s) :: ls) r
  | num {neg : Bool} {d : UInt8} {ds t r : List UInt8} {ls : List Lex} (hd : isDigit d = true)
      (hds : ∀ b ∈ ds, isDigit b = true) (ht : ∀ b ∈ t.head?, isDigit b = false) (h : Spells t ls r) :
      Spells ((if neg then [45] else []) ++ d :: (ds ++ t)) (.num neg (d :: ds) :: ls) r
  | mark {c : UInt8} {l : Lex} {t r : List UInt8} {ls : List Lex} (hc : markOf c = some l)
      (h : Spells t ls r) : Spells (c :: t) (l :: ls) r

/-! ## Values -/

inductive Value where
  | str (s : List UInt8)
  /-- a label, with its index when it is in the list -/
  | label (index : Option Nat)
  | int (x : BitVec 32)
  | bool (b : Bool)
  | null
  | object
  | array
  | endObject
  | endArray
  | stop
  deriving DecidableEq

/-- The number that digits spell. -/
def natOf (digits : List UInt8) : Nat := digits.foldl (fun n d => 10 * n + (d.toNat - 48)) 0

/-- The value of a literal, modulo 2^32. -/
def intOf (neg : Bool) (digits : List UInt8) : BitVec 32 :=
  BitVec.ofInt 32 (if neg then -(natOf digits : Int) else natOf digits)

/-- The index of a label, when it is in the list. -/
def indexOf (lbl : List (List UInt8)) (s : List UInt8) : Option Nat := lbl.findIdx? (· == s)

/-- What was read of an object: the values, and the brackets that are open (`true` for an array). -/
structure Reading where
  values : List Value
  stack : List Bool

/-- A lexeme of the object, which is not over before its last brace. -/
def Reading.step (lbl : List (List UInt8)) (r : Reading) (l : Lex) : Option Reading :=
  if r.values ≠ [] ∧ r.stack = [] then none
  else
    match l with
    | .str s => some { r with values := r.values ++ [.str s] }
    | .sym s =>
      if s = trueText then some { r with values := r.values ++ [.bool true] }
      else if s = falseText then some { r with values := r.values ++ [.bool false] }
      else if s = nullText then some { r with values := r.values ++ [.null] }
      else none
    | .num neg digits => some { r with values := r.values ++ [.int (intOf neg digits)] }
    | .colon =>
      match r.values.getLast? with
      | some (.str s) => some { r with values := r.values.dropLast ++ [.label (indexOf lbl s)] }
      | _ => none
    | .comma => some r
    | .opening array =>
      some ⟨r.values ++ [if array then .array else .object], array :: r.stack⟩
    | .closing array =>
      match r.stack with
      | a :: stack =>
        if a = array then some ⟨r.values ++ [if array then .endArray else .endObject], stack⟩ else none
      | [] => none

/-- The values of an object. -/
def Reading.run (lbl : List (List UInt8)) (r : Reading) (ls : List Lex) : Option Reading :=
  ls.foldlM (Reading.step lbl) r

variable {lbl : List (List UInt8)} {vs vs' : List Value} {ls : List Lex} {text r txt t : List UInt8}

theorem Reading.run_append {r : Reading} {ls' : List Lex} :
    r.run lbl (ls ++ ls') = (r.run lbl ls).bind fun r => r.run lbl ls' := by
  rw [Reading.run, List.foldlM_append]
  rfl

/-- The values of the object that a text begins with. -/
def ObjectOf (lbl : List (List UInt8)) (txt : List UInt8) (vs : List Value) : Prop :=
  vs ≠ [] ∧ ∃ ls rest, Spells txt ls rest ∧ Reading.run lbl ⟨[], []⟩ ls = some ⟨vs, []⟩

/-! ## A text has one reading -/

/-- The first lexeme of a text, or a blank, and what follows it. -/
def firstOf : List UInt8 → Option (Option Lex × List UInt8)
  | [] => none
  | c :: t =>
    if isSpace c then some (none, t)
    else if c = 39 ∨ c = 34 then (quoteLen c t).map fun j => (some (.str (t.take j)), t.drop (j + 1))
    else if isSymbol c then some (some (.sym (c :: t.takeWhile isWord)), t.dropWhile isWord)
    else if isDigit c then some (some (.num false (c :: t.takeWhile isDigit)), t.dropWhile isDigit)
    else if c = 45 then
      match t with
      | [] => none
      | d :: t => some (some (.num true (d :: t.takeWhile isDigit)), t.dropWhile isDigit)
    else (markOf c).map fun l => (some l, t)

theorem quoteLen_append {qt : UInt8} {s : List UInt8} (hs : qt ∉ s) :
    quoteLen qt (s ++ qt :: t) = some s.length := by
  induction s with
  | nil =>
    show quoteLen qt (qt :: t) = some 0
    rw [quoteLen, if_pos rfl]
  | cons b s ih =>
    rw [List.mem_cons, not_or] at hs
    rw [List.cons_append, quoteLen, if_neg (Ne.symm hs.1), ih hs.2]
    rfl

theorem takeWhile_of_head {p : UInt8 → Bool} {s : List UInt8} (hs : ∀ b ∈ s, p b = true)
    (ht : ∀ b ∈ t.head?, p b = false) : (s ++ t).takeWhile p = s ∧ (s ++ t).dropWhile p = t := by
  rw [List.takeWhile_append_of_pos hs, List.dropWhile_append_of_pos hs]
  cases t with
  | nil => exact ⟨List.append_nil s, rfl⟩
  | cons b t =>
    have hb : ¬ p b = true := by rw [ht b rfl]; decide
    rw [List.takeWhile_cons_of_neg hb, List.dropWhile_cons_of_neg hb, List.append_nil]
    exact ⟨rfl, rfl⟩

theorem char_classes (c : UInt8) : ((c = 39 ∨ c = 34) → isSpace c = false) ∧
    (isSymbol c = true → isSpace c = false ∧ ¬ (c = 39 ∨ c = 34)) ∧
    (isDigit c = true → isSpace c = false ∧ ¬ (c = 39 ∨ c = 34) ∧ isSymbol c = false) := by
  have hall : ∀ n : Fin 256, ((UInt8.ofFin n = 39 ∨ UInt8.ofFin n = 34) → isSpace (.ofFin n) = false) ∧
      (isSymbol (.ofFin n) = true → isSpace (.ofFin n) = false ∧ ¬ (UInt8.ofFin n = 39 ∨ UInt8.ofFin n = 34)) ∧
      (isDigit (.ofFin n) = true → isSpace (.ofFin n) = false ∧ ¬ (UInt8.ofFin n = 39 ∨ UInt8.ofFin n = 34) ∧
        isSymbol (.ofFin n) = false) := by decide +kernel
  exact hall c.toFin

theorem firstOf_mark {c : UInt8} {l : Lex} (hc : markOf c = some l) :
    firstOf (c :: t) = some (some l, t) := by
  have hchar : c = 58 ∨ c = 44 ∨ c = 91 ∨ c = 123 ∨ c = 93 ∨ c = 125 := by
    unfold markOf at hc
    split_ifs at hc
    all_goals tauto
  have hrest : firstOf (c :: t) = (markOf c).map fun l => (some l, t) := by
    rcases hchar with rfl | rfl | rfl | rfl | rfl | rfl <;> rfl
  rw [hrest, hc]
  rfl

/-- A text that is spelled by lexemes is spelled by its first one and the others. -/
theorem Spells.first (h : Spells text ls r) :
    ls = [] ∨ ∃ o t ls', firstOf text = some (o, t) ∧ ls = o.toList ++ ls' ∧ Spells t ls' r ∧
      t.length < text.length := by
  cases h with
  | nil => exact .inl rfl
  | blank hc h =>
    refine .inr ⟨none, _, _, ?_, rfl, h, by simp⟩
    rw [firstOf.eq_def]
    dsimp only
    rw [if_pos hc]
  | @str qt s t _ _ hqt hs h =>
    refine .inr ⟨some (.str s), t, _, ?_, rfl, h,
      by simp only [List.length_append, List.length_cons]; omega⟩
    rw [firstOf.eq_def]
    dsimp only
    rw [(char_classes qt).1 hqt, if_neg (by decide), if_pos hqt, quoteLen_append hs]
    simp
  | @sym c s t _ _ hc hs ht h =>
    obtain ⟨hspace, hqt⟩ := (char_classes c).2.1 hc
    refine .inr ⟨some (.sym (c :: s)), t, _, ?_, rfl, h,
      by simp only [List.length_append, List.length_cons]; omega⟩
    obtain ⟨h1, h2⟩ := takeWhile_of_head hs ht
    rw [firstOf.eq_def]
    dsimp only
    rw [hspace, if_neg (by decide), if_neg hqt, if_pos hc, h1, h2]
  | @num neg d ds t _ _ hd hds ht h =>
    obtain ⟨hspace, hqt, hsym⟩ := (char_classes d).2.2 hd
    refine .inr ⟨some (.num neg (d :: ds)), t, _, ?_, rfl, h,
      by simp only [List.length_append, List.length_cons]; omega⟩
    obtain ⟨h1, h2⟩ := takeWhile_of_head hds ht
    cases neg with
    | true =>
      show some (some (Lex.num true (d :: (ds ++ t).takeWhile isDigit)), (ds ++ t).dropWhile isDigit) = _
      rw [h1, h2]
    | false =>
      show firstOf (d :: (ds ++ t)) = _
      rw [firstOf.eq_def]
      dsimp only
      rw [hspace, if_neg (by decide), if_neg hqt, hsym, if_neg (by decide), if_pos hd, h1, h2]
  | @mark c l t _ _ hc h => exact .inr ⟨some l, t, _, firstOf_mark hc, rfl, h, by simp⟩

/-- After the last brace there is no step. -/
theorem Reading.run_closed {st : List Bool} (hvs : vs ≠ [])
    (h : Reading.run lbl ⟨vs, []⟩ ls = some ⟨vs', st⟩) : vs' = vs := by
  cases ls with
  | nil =>
    cases h
    rfl
  | cons l ls =>
    rw [Reading.run, List.foldlM_cons, Reading.step.eq_def, if_pos ⟨hvs, rfl⟩] at h
    cases h

theorem Spells.values_unique (hvs : vs ≠ []) (hvs' : vs' ≠ []) {n : Nat} :
    ∀ {text r r' : List UInt8} {ls ls' : List Lex} {r0 : Reading}, text.length < n → Spells text ls r →
      Spells text ls' r' → r0.run lbl ls = some ⟨vs, []⟩ → r0.run lbl ls' = some ⟨vs', []⟩ → vs = vs' := by
  induction n with
  | zero => exact fun hlt => absurd hlt (Nat.not_lt_zero _)
  | succ n ih =>
    intro text r r' ls ls' r0 hn h h' hrun hrun'
    rcases h.first with rfl | ⟨o, t, ls, hfirst, rfl, hs, hlt⟩
    · cases hrun
      exact (Reading.run_closed hvs hrun').symm
    rcases h'.first with rfl | ⟨o', t', ls', hfirst', rfl, hs', hlt'⟩
    · cases hrun'
      exact Reading.run_closed hvs' hrun
    rw [hfirst] at hfirst'
    cases hfirst'
    -- both have passed the same lexeme
    rw [Reading.run_append] at hrun hrun'
    obtain ⟨r1, h1, hrun⟩ := Option.bind_eq_some_iff.mp hrun
    rw [h1] at hrun'
    exact ih (by omega) hs hs' hrun hrun'

/-- **A text has one reading.** -/
theorem ObjectOf.unique (h : ObjectOf lbl txt vs) (h' : ObjectOf lbl txt vs') : vs = vs' := by
  obtain ⟨hvs, ls, r, hs, hrun⟩ := h
  obtain ⟨hvs', ls', r', hs', hrun'⟩ := h'
  exact Spells.values_unique hvs hvs' (Nat.lt_succ_self _) hs hs' hrun hrun'

/-! ## The buffer that a text needs -/

/-- The bytes that a lexeme takes in the buffer, at most. -/
def Lex.room : Lex → Nat
  | .str _ => 3
  | .sym _ => 1
  | .num _ _ => 5
  | .colon => 0
  | .comma => 0
  | .opening _ => 2
  | .closing _ => 1

def roomOf (ls : List Lex) : Nat := (ls.map Lex.room).sum

@[simp] theorem roomOf_append {ls' : List Lex} : roomOf (ls ++ ls') = roomOf ls + roomOf ls' := by
  simp [roomOf]

/-- A buffer is large enough for a text: it has room for its tokens, and eight bytes more. -/
def LargeEnough (size : Nat) (txt : List UInt8) : Prop :=
  ∀ ls r, Spells txt ls r → roomOf ls + 8 ≤ size

theorem roomOf_le (h : Spells text ls r) : roomOf ls ≤ 5 * text.length := by
  induction h with
  | nil => exact Nat.zero_le _
  | blank hc h ih =>
    rw [List.length_cons]
    omega
  | str hqt hs h ih =>
    simp only [roomOf, List.map_cons, List.sum_cons, Lex.room, List.length_cons, List.length_append] at ih ⊢
    omega
  | sym hc hs ht h ih =>
    simp only [roomOf, List.map_cons, List.sum_cons, Lex.room, List.length_cons, List.length_append] at ih ⊢
    omega
  | num hd hds ht h ih =>
    simp only [roomOf, List.map_cons, List.sum_cons, Lex.room, List.length_cons, List.length_append] at ih ⊢
    omega
  | @mark c l t r ls hc h ih =>
    have hl : l.room ≤ 2 := by
      cases l with
      | str s => exact absurd hc (by unfold markOf; split_ifs <;> nofun)
      | num neg digits => exact absurd hc (by unfold markOf; split_ifs <;> nofun)
      | _ => simp [Lex.room]
    simp only [roomOf, List.map_cons, List.sum_cons, List.length_cons] at ih ⊢
    omega

/-- Five bytes for a character are enough. -/
theorem largeEnough_of_length {size : Nat} (h : 5 * txt.length + 8 ≤ size) :
    LargeEnough size txt := by
  intro ls r hs
  have := roomOf_le hs
  omega

end Json
