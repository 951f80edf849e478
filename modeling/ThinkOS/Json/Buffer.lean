import ThinkOS.Json.RoundTrip

/-!
# The two ends of the token buffer

The tokens grow from the start of the buffer and the open brackets from its end. The scanner tests the
room for every token, but not for a bracket before it is pushed, and for eight bytes of a symbol only.
Where these two are no danger, the ends stay apart, and a buffer that is too small is reported.
-/

namespace Json

open Lib List Mem

/-! ## Rounds that keep the ends apart -/

namespace Lexer

/-- The tokens end before the brackets, and these in the buffer; a string is a token of three bytes. -/
structure Apart (top : Nat) (x : Lexer) : Prop where
  cnt : x.cnt ≤ x.sp
  sp : x.sp ≤ top
  str : x.tok = tokString → 3 ≤ x.cnt

/-- From `x` to `x'` neither a token, except a string that becomes a label, nor an open bracket nor
anything outside the buffer has been overwritten. -/
structure Safe (top : Nat) (x x' : Lexer) : Prop where
  apart : x'.Apart top
  brackets : ∀ a, x.sp ≤ a → x'.sp ≤ a → x'.mem a = x.mem a
  tokens : ∀ a, a < x.cnt → x.cnt ≤ x'.cnt ∨ a + 1 < x'.cnt → x'.mem a = x.mem a

/-- The same contents in two buffers of the sizes `top` and `top'`. -/
structure Twin (top top' : Nat) (x y : Lexer) : Prop where
  le : top ≤ top'
  lt : top' < 2 ^ 32
  tok : x.tok = y.tok
  cnt : x.cnt = y.cnt
  sp : x.sp + top' = y.sp + top
  tokens : ∀ a, a < x.cnt → x.mem a = y.mem a
  brackets : ∀ a, x.sp ≤ a → a < top → x.mem a = y.mem (a + top' - top)

/-- `x'` is safe after `x`, and `y'` has the same in the larger buffer. -/
structure Keeps (top top' : Nat) (x x' y' : Lexer) : Prop where
  safe : x.Safe top x'
  twin : x'.Twin top top' y'

/-- There is room for a bracket, and for all of a symbol if there is room for eight bytes. -/
def Roomy (x : Lexer) (c : UInt8) (rest : List UInt8) : Prop :=
  (c = 91 ∨ c = 123 → x.cnt < x.sp) ∧
    (isSymbol c = true → 8 ≤ x.room → (c :: rest.takeWhile isWord).length + 2 ≤ x.room)

instance (x : Lexer) (c : UInt8) (rest : List UInt8) : Decidable (x.Roomy c rest) :=
  inferInstanceAs (Decidable (_ ∧ _))

end Lexer

def Round.lexer : Round → Lexer
  | .go x _ | .done x _ | .fail x _ _ => x

/-- A round from `x` is safe and has the same outcome in the larger buffer, or reports an overflow. -/
inductive Round.Good (top top' : Nat) (x : Lexer) : Round → Round → Prop where
  | go {x' y' : Lexer} {n : Nat} (h : x.Keeps top top' x' y') : Good top top' x (.go x' n) (.go y' n)
  | done {x' y' : Lexer} {n : Nat} (h : x.Keeps top top' x' y') :
    Good top top' x (.done x' n) (.done y' n)
  | fail {x' y' : Lexer} {n : Nat} {err : Int} (h : x.Keeps top top' x' y') :
    Good top top' x (.fail x' n err) (.fail y' n err)
  | overflow {x' : Lexer} {n : Nat} {r : Round} (h : x.Safe top x') :
    Good top top' x (.fail x' n tokenBufOvf) r

section
variable {top top' t k n p c i : Nat} {x y x1 y1 : Lexer} {bs rest txt : List UInt8}
  {lbl : List (List UInt8)}

theorem Lexer.Apart.keeps (h : x.Apart top) (ht : x.Twin top top' y) : x.Keeps top top' x y :=
  ⟨⟨h, fun _ _ _ => rfl, fun _ _ _ => rfl⟩, ht⟩

theorem Lexer.Keeps.room (h : x.Keeps top top' x1 y1) :
    x1.room = x1.sp - x1.cnt ∧ x1.room ≤ y1.room := by
  obtain ⟨hcnt, hsp, -⟩ := h.safe.apart
  obtain ⟨hle, hlt, -, hc, hs, -, -⟩ := h.twin
  unfold Lexer.room
  omega

theorem Lexer.Twin.ends (h : x.Twin top top' y) : (if x.sp ≠ top then bracketMismatch else ok) =
    if y.sp ≠ top' then bracketMismatch else ok := by
  have := h.sp
  simp only [show x.sp ≠ top ↔ y.sp ≠ top' by omega]

theorem Round.Good.ite {P : Prop} [Decidable P] {r s r' s' : Round}
    (hr : P → Round.Good top top' x r r') (hs : ¬ P → Round.Good top top' x s s') :
    Round.Good top top' x (if P then r else s) (if P then r' else s') := by
  split
  · exact hr ‹P›
  · exact hs ‹¬ P›

section
variable (h : x.Keeps top top' x1 y1) (hx : x1.cnt = x.cnt)
include h hx

/-- A store below the brackets that ends or follows the tokens, or one in the last token that makes it
shorter. -/
theorem Lexer.Keeps.store (hb : p + bs.length ≤ x1.sp) (hc : c ≤ x1.sp)
    (hp : x.cnt ≤ p ∧ x.cnt ≤ c ∨ c < x.cnt ∧ c ≤ p + 1)
    (hc' : c ≤ x.cnt ∨ p = x.cnt ∧ c ≤ p + bs.length) (hstr : t = tokString → 3 ≤ c) :
    x.Keeps top top' { x1 with mem := x1.mem.storeBytes p bs, cnt := c, tok := t }
      { y1 with mem := y1.mem.storeBytes p bs, cnt := c, tok := t } := by
  obtain ⟨hs, ht⟩ := h
  refine ⟨⟨⟨hc, hs.apart.sp, hstr⟩, ?_, ?_⟩, ht.le, ht.lt, rfl, rfl, ht.sp, ?_, ?_⟩
  · intro a ha ha'
    have ha' : x1.sp ≤ a := ha'
    exact (storeBytes_ne (by omega)).trans (hs.brackets a ha ha')
  · intro a ha hk
    have hk : x.cnt ≤ c ∨ a + 1 < c := hk
    exact (storeBytes_ne (by omega)).trans (hs.tokens a ha (by omega))
  · intro a ha
    have ha : a < c := ha
    show x1.mem.storeBytes p bs a = y1.mem.storeBytes p bs a
    by_cases hin : p ≤ a ∧ a < p + bs.length
    · unfold Mem.storeBytes
      rw [if_pos hin.1, if_pos hin.1, getElem?_eq_getElem (by omega)]
      rfl
    · rw [storeBytes_ne (by omega), storeBytes_ne (by omega)]
      exact ht.tokens a (by omega)
  · intro a ha hlt
    have ha : x1.sp ≤ a := ha
    have hle := ht.le
    show x1.mem.storeBytes p bs a = y1.mem.storeBytes p bs (a + top' - top)
    rw [storeBytes_ne (by omega), storeBytes_ne (by omega), ht.brackets a ha hlt]

theorem Lexer.Keeps.put (hb : x1.cnt + bs.length ≤ x1.sp) (hstr : t = tokString → 3 ≤ bs.length) :
    x.Keeps top top' { x1.put bs with tok := t } { y1.put bs with tok := t } := by
  have hstr' : t = tokString → 3 ≤ x1.cnt + bs.length := fun ht => by have := hstr ht; omega
  unfold Lexer.put
  rw [← h.twin.cnt]
  exact h.store hx hb hb (.inl ⟨hx.ge, hx.ge.trans (Nat.le_add_right ..)⟩) (.inr ⟨hx, le_rfl⟩) hstr'

/-- From the label `push` on. -/
theorem good_push (hstr : t ≠ tokString) : Round.Good top top' x (x1.push t n) (y1.push t n) := by
  obtain ⟨hroom, hroom'⟩ := h.room
  unfold Lexer.push
  simp only [show ∀ x : Lexer, ({ x with tok := t } : Lexer).room = x.room from fun _ => rfl]
  split
  · exact .overflow ⟨⟨h.safe.apart.cnt, h.safe.apart.sp, fun h => absurd h hstr⟩, h.safe.brackets,
      h.safe.tokens⟩
  · rw [if_neg (by omega)]
    exact .go (h.put hx (by simp; omega) fun h => absurd h hstr)

end

section
variable (h : x.Keeps top top' x y)
include h

theorem good_string {qt : UInt8} :
    Round.Good top top' x (x.stringRound i qt rest) (y.stringRound i qt rest) := by
  obtain ⟨hroom, hroom'⟩ := h.room
  unfold Lexer.stringRound
  cases quoteLen qt rest with
  | none => exact .fail h
  | some j =>
    dsimp only
    split
    · exact .fail h
    · split
      · exact .overflow h.safe
      · rw [if_neg (by omega)]
        exact .go (h.put rfl (by simp; omega) fun _ => by simp)

theorem good_number {neg : Bool} {c : UInt8} :
    Round.Good top top' x (x.numberRound neg c rest) (y.numberRound neg c rest) := by
  obtain ⟨hroom, hroom'⟩ := h.room
  unfold Lexer.numberRound
  dsimp only
  split
  · exact .overflow h.safe
  · rw [if_neg (show ¬ y.room < 5 by omega)]
    refine .go (h.put rfl ?_ fun h => absurd h intToken_ne_string)
    have hlen := Nat.succ_le_succ (length_intToken (if neg = true then
      -(c :: rest.takeWhile isDigit).foldl decimal 0 else (c :: rest.takeWhile isDigit).foldl decimal 0))
    exact (Nat.add_le_add_left hlen _).trans (by omega)

theorem good_symbol {c : UInt8} (hc : 8 ≤ x.room → (c :: rest.takeWhile isWord).length + 2 ≤ x.room) :
    Round.Good top top' x (x.symbolRound c rest) (y.symbolRound c rest) := by
  obtain ⟨hroom, hroom'⟩ := h.room
  unfold Lexer.symbolRound
  split
  · exact .overflow h.safe
  · rw [if_neg (show ¬ y.room < 8 by omega)]
    have hfit := hc (by omega)
    dsimp only
    generalize c :: rest.takeWhile isWord = s at hfit ⊢
    -- the copy is behind the tokens and in front of the brackets
    have h1 : x.Keeps top top' { x with mem := x.mem.storeBytes (x.cnt + 1) (s ++ [0]) }
        { y with mem := y.mem.storeBytes (y.cnt + 1) (s ++ [0]) } := by
      obtain ⟨tok, mem, cnt, sp⟩ := y
      obtain ⟨rfl, rfl⟩ : x.tok = tok ∧ x.cnt = cnt := ⟨h.twin.tok, h.twin.cnt⟩
      exact h.store rfl (by simp; omega) h.safe.apart.cnt (by omega) (by omega) h.safe.apart.str
    split_ifs
    · exact good_push h1 rfl (by decide)
    · exact good_push h1 rfl (by decide)
    · exact good_push h1 rfl (by decide)
    · exact .fail h1

theorem good_opening (hc : x.cnt < x.sp) (hstr : t ≠ tokString) :
    Round.Good top top' x (x.opening t k) (y.opening t k) := by
  obtain ⟨⟨⟨hcnt, hsp, hs⟩, -, -⟩, ht⟩ := h
  have hcnt' := ht.cnt
  have hsp' := ht.sp
  have hle := ht.le
  refine good_push ⟨⟨⟨?_, ?_, hs⟩, ?_, ?_⟩, hle, ht.lt, ht.tok, hcnt', ?_, ?_, ?_⟩ rfl hstr
  · show x.cnt ≤ x.sp - 1
    omega
  · show x.sp - 1 ≤ top
    omega
  · intro a ha _
    exact storeBytes_ne (by simp; omega)
  · intro a ha _
    exact storeBytes_ne (by omega)
  · show x.sp - 1 + top' = y.sp - 1 + top
    omega
  · intro a ha
    have ha : a < x.cnt := ha
    refine (storeBytes_ne (by omega)).trans ((ht.tokens a ha).trans ?_)
    exact (storeBytes_ne (by omega)).symm
  · intro a ha hlt
    have ha : x.sp - 1 ≤ a := ha
    show x.mem.storeBytes (x.sp - 1) [UInt8.ofNat k] a =
      y.mem.storeBytes (y.sp - 1) [UInt8.ofNat k] (a + top' - top)
    by_cases heq : a = x.sp - 1
    · rw [show a + top' - top = y.sp - 1 by omega, heq]
      simp [Mem.storeBytes]
    · rw [storeBytes_ne (by simp; omega), storeBytes_ne (by simp; omega)]
      exact ht.brackets a (by omega) hlt

theorem good_pop (hstr : t ≠ tokString) :
    Round.Good top top' x (x.pop top t) (y.pop top' t) := by
  have hsp := h.twin.sp
  obtain ⟨hcnt, hsp', -⟩ := h.safe.apart
  unfold Lexer.pop
  split
  · rw [if_pos (show y.sp = top' by omega)]
    exact .fail h
  · rw [if_neg (show ¬ y.sp = top' by omega)]
    have hclose : y.mem y.sp = x.mem x.sp := by
      rw [h.twin.brackets x.sp le_rfl (by omega)]
      congr 1
      omega
    have h1 : x.Keeps top top' { x with sp := x.sp + 1, tok := t }
        { y with sp := y.sp + 1, tok := t } := by
      refine ⟨⟨⟨Nat.le_succ_of_le hcnt, ?_, fun h => absurd h hstr⟩, fun _ _ _ => rfl, fun _ _ _ => rfl⟩,
        h.twin.le, h.twin.lt, rfl, h.twin.cnt, ?_, h.twin.tokens,
        fun a ha => h.twin.brackets a (Nat.le_of_succ_le ha)⟩
      · show x.sp + 1 ≤ top
        omega
      · show x.sp + 1 + top' = y.sp + 1 + top
        omega
    obtain ⟨hroom, hroom'⟩ := h1.room
    dsimp only at hroom hroom' ⊢
    rw [hclose]
    split
    · exact .fail h1
    · split
      · rw [if_pos (show y.sp + 1 = top' by omega)]
        split
        · exact .overflow h1.safe
        · rw [if_neg (show ¬ ({ y with sp := y.sp + 1, tok := t } : Lexer).room < 2 by omega)]
          exact .done (h1.put rfl (by simp; omega) fun h => absurd h hstr)
      · rw [if_neg (show ¬ y.sp + 1 = top' by omega)]
        exact good_push h1 rfl hstr

theorem good_colon :
    Round.Good top top' x (x.colon txt lbl) (y.colon txt lbl) := by
  unfold Lexer.colon
  rw [← h.twin.tok]
  split
  · rename_i hstr
    have hlen := h.safe.apart.str hstr
    have hcnt := h.safe.apart.cnt
    -- the three bytes of the string are the same in both
    rw [← h.twin.cnt, ← h.twin.tokens (x.cnt - 3) (by omega), ← h.twin.tokens (x.cnt - 2) (by omega),
      ← h.twin.tokens (x.cnt - 1) (by omega)]
    exact .go (h.store rfl (by simp; omega) (by omega) (by omega) (by omega)
      fun h => absurd h (show tokLabel ≠ tokString by decide))
  · exact .fail h

/-- **A round that has room for a bracket or a symbol is safe, and the same as in a larger buffer
unless it reports an overflow.** -/
theorem good_round {c : UInt8} (hc : x.Roomy c rest) :
    Round.Good top top' x (x.round txt lbl top i c rest) (y.round txt lbl top' i c rest) := by
  refine .ite (fun _ => .go h) fun _ => .ite (fun _ => good_string h) fun _ => ?_
  refine .ite (fun hk => good_symbol h (hc.2 hk)) fun _ => .ite (fun _ => good_number h) fun _ => ?_
  refine .ite (fun _ => ?_) fun _ => .ite (fun _ => good_colon h) fun _ => ?_
  · cases rest with
    | nil => exact .fail h
    | cons d rest => exact .ite (fun _ => good_number h) fun _ => .fail h
  · refine .ite (fun _ => .go h) fun _ => ?_
    refine .ite (fun hk => good_opening h (hc.1 (.inl hk)) (by decide)) fun _ => ?_
    refine .ite (fun hk => good_opening h (hc.1 (.inr hk)) (by decide)) fun _ => ?_
    refine .ite (fun _ => good_pop h (by decide)) fun _ => ?_
    exact .ite (fun _ => good_pop h (by decide)) fun _ => .fail h

end

end

/-! ## Runs of the scanner -/

section
variable (txt : List UInt8) (lbl : List (List UInt8)) (top : Nat)

/-- `P` holds of every round, of what is before it and of what it leaves. -/
def Along (P : Lexer → UInt8 → List UInt8 → Lexer → Prop) : Nat → Lexer → Nat → List UInt8 → Prop
  | _, _, _, [] => True
  | 0, _, _, _ => True
  | fuel + 1, x, i, c :: rest =>
    P x c rest (x.round txt lbl top i c rest).lexer ∧
      match x.round txt lbl top i c rest with
      | .go x n => Along P fuel x (i + n) ((c :: rest).drop n)
      | _ => True

variable {txt lbl top}

theorem scanRounds_good {top' fuel i : Nat} {x y : Lexer} {rest : List UInt8}
    (h : x.Keeps top top' x y)
    (hall : Along txt lbl top (fun x c rest _ => x.Roomy c rest) fuel x i rest) :
    let r := scanRounds txt lbl top fuel x i rest
    let r' := scanRounds txt lbl top' fuel y i rest
    Along txt lbl top (fun x _ _ x' => x.Apart top ∧ x.Safe top x') fuel x i rest ∧ r.1.Apart top ∧
      (r.2.2 = tokenBufOvf ∨ r.2 = r'.2 ∧ r.1.Twin top top' r'.1) := by
  intro r r'
  induction fuel generalizing x y i rest with
  | zero =>
    cases rest with
    | nil => exact ⟨trivial, h.safe.apart, .inr ⟨congrArg (Prod.mk i) h.twin.ends, h.twin⟩⟩
    | cons c rest => exact ⟨trivial, h.safe.apart, .inr ⟨rfl, h.twin⟩⟩
  | succ fuel ih =>
    cases rest with
    | nil => exact ⟨trivial, h.safe.apart, .inr ⟨congrArg (Prod.mk i) h.twin.ends, h.twin⟩⟩
    | cons c rest =>
      obtain ⟨hroomy, hall⟩ := hall
      have hgood : Round.Good top top' x (x.round txt lbl top i c rest)
          (y.round txt lbl top' i c rest) := good_round h hroomy
      simp only [r, r', Along, scanRounds]
      generalize x.round txt lbl top i c rest = s at *
      generalize y.round txt lbl top' i c rest = s' at *
      cases hgood with
      | go h' =>
        obtain ⟨hs, hrest⟩ := ih (h'.safe.apart.keeps h'.twin) hall
        exact ⟨⟨⟨h.safe.apart, h'.safe⟩, hs⟩, hrest⟩
      | done h' => exact ⟨⟨⟨h.safe.apart, h'.safe⟩, trivial⟩, h'.safe.apart, .inr ⟨rfl, h'.twin⟩⟩
      | fail h' => exact ⟨⟨⟨h.safe.apart, h'.safe⟩, trivial⟩, h'.safe.apart, .inr ⟨rfl, h'.twin⟩⟩
      | overflow h' => exact ⟨⟨⟨h.safe.apart, h'⟩, trivial⟩, h'.apart, .inl rfl⟩

end

/-- `P` holds of every round of `microjs_json_scan`. -/
def Parser.Throughout (p : Parser) (P : Lexer → UInt8 → List UInt8 → Lexer → Prop) : Prop :=
  let rest := (p.txt.take p.len).drop p.fin
  Along p.txt p.lbl p.top P rest.length ⟨tokNull, p.tok, p.cnt, p.sp⟩ p.fin rest

theorem jsonScan_fields {p : Parser} {r : Lexer × Nat × Int}
    (hr : scanRounds p.txt p.lbl p.top ((p.txt.take p.len).drop p.fin).length
      ⟨tokNull, p.tok, p.cnt, p.sp⟩ p.fin ((p.txt.take p.len).drop p.fin) = r) :
    p.jsonScan.2 = r.2.2 ∧ p.jsonScan.1.tok = r.1.mem ∧ p.jsonScan.1.cnt = u16 r.1.cnt ∧
      p.jsonScan.1.sp = u16 r.1.sp := by
  simp only [Parser.jsonScan, hr]
  split
  · rename_i hok
    exact ⟨hok.symm, rfl, rfl, rfl⟩
  · exact ⟨rfl, rfl, rfl, rfl⟩

theorem Parser.scan_good {p p' : Parser} (hlt : p'.top < 65536)
    (h : Lexer.Keeps p.top p'.top ⟨tokNull, p.tok, p.cnt, p.sp⟩ ⟨tokNull, p.tok, p.cnt, p.sp⟩
      ⟨tokNull, p'.tok, p'.cnt, p'.sp⟩)
    (htxt : p'.txt = p.txt) (hlbl : p'.lbl = p.lbl) (hlen : p'.len = p.len) (hfin : p'.fin = p.fin)
    (hall : p.Throughout fun x c rest _ => x.Roomy c rest) :
    (p.Throughout fun x _ _ x' => x.Apart p.top ∧ x.Safe p.top x') ∧
      p.jsonScan.1.cnt ≤ p.jsonScan.1.sp ∧ p.jsonScan.1.sp ≤ p.top ∧
      (p.jsonScan.2 = tokenBufOvf ∨ p.jsonScan.2 = p'.jsonScan.2 ∧
        p.jsonScan.1.cnt = p'.jsonScan.1.cnt ∧
        ∀ a, a < p.jsonScan.1.cnt → p.jsonScan.1.tok a = p'.jsonScan.1.tok a) := by
  obtain ⟨hs, ⟨hcnt, hsp, -⟩, hr⟩ := scanRounds_good h hall
  obtain ⟨he, hm, hc, hp⟩ := jsonScan_fields rfl
  obtain ⟨he', hm', hc', -⟩ := jsonScan_fields rfl
  have hle := h.twin.le
  rw [htxt, hlbl, hlen, hfin] at he' hm' hc'
  rw [he, hm, hc, hp, he', hm', hc']
  unfold u16
  rw [Nat.mod_eq_of_lt (by omega), Nat.mod_eq_of_lt (by omega)]
  refine ⟨hs, hcnt, hsp, hr.imp id fun ⟨hret, htw⟩ => ?_⟩
  rw [← htw.cnt, Nat.mod_eq_of_lt (by omega), hret]
  exact ⟨rfl, rfl, htw.tokens⟩

/-- The parser after `microjs_json_init` with a buffer of `size` bytes and `microjs_json_open`. -/
def opened (tok : Mem) (size : Nat) (lbl : List (List UInt8)) (txt : List UInt8) : Parser :=
  ((jsonInit tok size lbl).jsonOpen txt).1

section
variable {tok : Mem} {size size' : Nat} {lbl : List (List UInt8)} {txt : List UInt8}

theorem head_of_open (hopen : ((jsonInit tok size lbl).jsonOpen txt).2 = ok) :
    (txt.drop (txt.takeWhile isSpace).length).head? = some 123 := by
  unfold Parser.jsonOpen at hopen
  dsimp only at hopen
  split at hopen
  · cases hopen
  · rename_i hd
    split at hopen
    · cases hopen
    · rename_i hc
      rw [hd, head?_cons, Decidable.not_not.mp hc]

theorem opened_eq (h : (txt.drop (txt.takeWhile isSpace).length).head? = some 123) :
    opened tok size lbl txt =
    { idx := 0, cnt := 1, sp := u16 size - 1, top := u16 size, txt, lbl, off := 0, len := u16 txt.length,
      fin := u16 ((txt.takeWhile isSpace).length + 1),
      tok := ((jsonInit tok size lbl).tok.storeBytes 0 [UInt8.ofNat tokLeftbrace]).storeBytes
        (u16 size - 1) [UInt8.ofNat tokRightbrace] } := by
  obtain ⟨rest, h⟩ := head?_eq_some_iff.mp h
  unfold opened Parser.jsonOpen
  dsimp only
  rw [h]
  rfl

theorem keeps_opened {m m' : Mem} {top top' : Nat} (h : 2 ≤ top) (hle : top ≤ top')
    (hlt : top' < 65536) {k b : UInt8} :
    Lexer.Keeps top top' ⟨tokNull, (m.storeBytes 0 [k]).storeBytes (top - 1) [b], 1, top - 1⟩
      ⟨tokNull, (m.storeBytes 0 [k]).storeBytes (top - 1) [b], 1, top - 1⟩
      ⟨tokNull, (m'.storeBytes 0 [k]).storeBytes (top' - 1) [b], 1, top' - 1⟩ := by
  refine Lexer.Apart.keeps ⟨by dsimp only; omega, Nat.sub_le ..,
    fun h => absurd h (show tokNull ≠ tokString by decide)⟩
    ⟨hle, by omega, rfl, rfl, by dsimp only; omega, ?_, ?_⟩
  · intro a ha
    obtain rfl : a = 0 := Nat.lt_one_iff.mp ha
    simp [Mem.storeBytes, show top - 1 ≠ 0 by omega, show top' - 1 ≠ 0 by omega]
  · intro a ha hlt
    have ha : top - 1 ≤ a := ha
    obtain rfl : a = top - 1 := by omega
    simp [Mem.storeBytes, show top - 1 + top' - top = top' - 1 by omega]

/-- **In every run in which there is room for each bracket and each symbol, tokens and brackets stay
apart, and the run is the one in any larger buffer unless it reports an overflow.** -/
theorem scan_keeps_apart (hsize : 2 ≤ u16 size) (hle : u16 size ≤ u16 size')
    (hopen : ((jsonInit tok size lbl).jsonOpen txt).2 = ok)
    (hall : (opened tok size lbl txt).Throughout fun x c rest _ => x.Roomy c rest) :
    let p := opened tok size lbl txt
    let q := opened tok size' lbl txt
    (p.Throughout fun x _ _ x' => x.Apart p.top ∧ x.Safe p.top x') ∧
      p.jsonScan.1.cnt ≤ p.jsonScan.1.sp ∧ p.jsonScan.1.sp ≤ p.top ∧
      (p.jsonScan.2 = tokenBufOvf ∨ p.jsonScan.2 = q.jsonScan.2 ∧
        p.jsonScan.1.cnt = q.jsonScan.1.cnt ∧
        ∀ a, a < p.jsonScan.1.cnt → p.jsonScan.1.tok a = q.jsonScan.1.tok a) := by
  have hlt : u16 size' < 65536 := Nat.mod_lt _ (by decide)
  have hhead := head_of_open hopen
  rw [opened_eq hhead] at hall
  rw [opened_eq hhead, opened_eq hhead]
  exact Parser.scan_good hlt (keeps_opened hsize hle hlt) rfl rfl rfl rfl hall

end

instance {txt : List UInt8} {lbl : List (List UInt8)} {top : Nat}
    {P : Lexer → UInt8 → List UInt8 → Lexer → Prop} [∀ x c rest x', Decidable (P x c rest x')]
    (fuel : Nat) (x : Lexer) (i : Nat) (rest : List UInt8) :
    Decidable (Along txt lbl top P fuel x i rest) := by
  induction fuel generalizing x i rest with
  | zero => cases rest <;> exact .isTrue trivial
  | succ fuel ih =>
    cases rest with
    | nil => exact .isTrue trivial
    | cons c rest =>
      unfold Along
      cases x.round txt lbl top i c rest <;> infer_instance

/-- `{'a':[1,true]}` -/
def smallText : List UInt8 := [123, 39, 97, 39, 58, 91, 49, 44, 116, 114, 117, 101, 93, 125]

theorem scan_keeps_apart_small : let p := opened (fun _ => 0) 16 [] smallText
    p.jsonScan.2 = ok ∧ p.jsonScan.1.cnt = 9 ∧
    p.Throughout fun x _ _ x' => x.Apart p.top ∧ x.Safe p.top x' := by
  intro p
  have hrun : p.jsonScan.2 = ok ∧ p.jsonScan.1.cnt = 9 := by decide +kernel
  have hall : p.Throughout fun x c rest _ => x.Roomy c rest := by
    unfold Parser.Throughout
    decide +kernel
  exact ⟨hrun.1, hrun.2, (scan_keeps_apart (by decide) le_rfl (by decide +kernel) hall).1⟩

/-- `{[` in two bytes: the bracket is pushed below the tokens, and nothing is reported. -/
theorem bracket_overwrites_token : let p := opened (fun _ => 0) 2 [] [123, 91]
    p.jsonScan.2 ≠ tokenBufOvf ∧ p.jsonScan.1.sp < p.jsonScan.1.cnt ∧
      ¬ p.Throughout fun x _ _ x' => x.Apart p.top ∧ x.Safe p.top x' := by
  intro p
  have hrun : p.jsonScan.2 ≠ tokenBufOvf ∧ p.jsonScan.1.sp < p.jsonScan.1.cnt := by decide +kernel
  refine ⟨hrun.1, hrun.2, fun h => ?_⟩
  exact absurd h.1.2.apart.cnt (by decide +kernel)

end Json
