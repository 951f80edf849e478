import ThinkOS.Json.Tokens

/-!
# From the text to the values

Each round of `microjs_json_scan` passes a lexeme of the text and adds the token of its value; so after a
scan that succeeds the tokens are those of the values, and reading them gives the values when these fit.
-/

namespace Json

open List UInt8

variable {ls : List Lex} {digits : List UInt8} {items' front : List Item} {qt d : UInt8} {i : Nat}

open Lib

/-- The byte for a bracket that is open. -/
def closingByte (array : Bool) : UInt8 := UInt8.ofNat (if array then tokRightbracket else tokRightbrace)

/-- The scanner has made the tokens `items`, and the brackets `st` are open. -/
structure Scanned (lbl : List (List UInt8)) (top : Nat) (x : Lexer) (items : List Item) (st : List Bool) :
    Prop where
  bytes : x.mem.bytes 0 x.cnt = items.flatMap Item.bytes
  wf : ∀ item ∈ items, item.Wf lbl
  last : x.tok = tokString → ∃ front offs len, items = front ++ [.str offs len]
  sp : x.sp ≤ top
  stack : x.mem.bytes x.sp (top - x.sp) = st.map closingByte
  room : x.cnt + (top - x.sp) + 8 ≤ top

/-- There is room for what follows. -/
def Roomy (top : Nat) (x : Lexer) (rest : List UInt8) : Prop :=
  ∀ ls r, Spells rest ls r → x.cnt + (top - x.sp) + roomOf ls + 8 ≤ top

section
variable {lbl : List (List UInt8)} {top : Nat} {x : Lexer} {items : List Item} {st : List Bool}

section
variable (h : Scanned lbl top x items st)
include h

theorem Scanned.room_eq (htop : top < 65536) : x.room = x.sp - x.cnt := by
  have := h.room
  have := h.sp
  unfold Lexer.room
  omega

theorem Scanned.put (item : Item) (tok : Nat) (hwf : item.Wf lbl)
    (htok : tok = tokString → ∃ offs len, item = .str offs len)
    (hroom : x.cnt + item.bytes.length + (top - x.sp) + 8 ≤ top) :
    Scanned lbl top { x.put item.bytes with tok } (items ++ [item]) st := by
  have hsp := h.sp
  refine ⟨?_, ?_, ?_, hsp, ?_, by dsimp only [Lexer.put]; omega⟩
  · have := Mem.bytes_storeBytes_append x.mem 0 x.cnt item.bytes
    rw [Nat.zero_add] at this
    dsimp only [Lexer.put]
    rw [this, h.bytes, flatMap_append, flatMap_singleton]
  · intro it hit
    rcases mem_append.mp hit with hold | hnew
    · exact h.wf it hold
    · rw [mem_singleton.mp hnew]
      exact hwf
  · intro ht
    obtain ⟨offs, len, rfl⟩ := htok ht
    exact ⟨items, offs, len, rfl⟩
  · rw [← h.stack]
    exact Mem.bytes_storeBytes_ne (by dsimp only [Lexer.put]; omega)

/-- Bytes between the tokens and the brackets are of no matter. -/
theorem Scanned.scratch (a : Nat) (bs : List UInt8) (ha : x.cnt ≤ a) (hb : a + bs.length ≤ x.sp) :
    Scanned lbl top { x with mem := x.mem.storeBytes a bs } items st := by
  refine ⟨?_, h.wf, h.last, h.sp, ?_, h.room⟩
  · rw [← h.bytes]
    exact Mem.bytes_storeBytes_ne (by dsimp only; omega)
  · rw [← h.stack]
    exact Mem.bytes_storeBytes_ne (by dsimp only; omega)

theorem Scanned.opening (array : Bool) {closing : Nat}
    (hclosing : UInt8.ofNat closing = closingByte array)
    (hroom : x.cnt + (top - x.sp) + 1 + 8 ≤ top) : Scanned lbl top
      { x with mem := x.mem.storeBytes (x.sp - 1) [UInt8.ofNat closing], sp := x.sp - 1 } items
      (array :: st) := by
  have hsp := h.sp
  refine ⟨?_, h.wf, h.last, by dsimp only; omega, ?_, by dsimp only; omega⟩
  · rw [← h.bytes]
    exact Mem.bytes_storeBytes_ne (by dsimp only; omega)
  · dsimp only
    have hlen : top - (x.sp - 1) = 1 + (top - x.sp) := by omega
    have hone := Mem.bytes_storeBytes x.mem (x.sp - 1) [UInt8.ofNat closing]
    rw [length_singleton] at hone
    rw [hlen, Mem.bytes_add, hone, Nat.sub_add_cancel (by omega), map_cons, ← h.stack, hclosing, singleton_append]
    congr 1
    exact Mem.bytes_storeBytes_ne (by rw [length_singleton]; omega)

end

theorem Scanned.closing {array : Bool} (h : Scanned lbl top x items (array :: st)) {tok : Nat}
    (htok : tok ≠ tokString) :
    x.mem x.sp = closingByte array ∧ Scanned lbl top { x with sp := x.sp + 1, tok } items st := by
  have hstack := h.stack
  have hlen : top - x.sp = st.length + 1 := by
    have := congrArg List.length hstack
    rwa [Mem.length_bytes, length_map, length_cons] at this
  rw [hlen, Mem.bytes, map_cons, List.cons.injEq] at hstack
  refine ⟨hstack.1, h.bytes, h.wf, fun ht => absurd ht htok, by dsimp only; omega, ?_, ?_⟩
  · rw [← hstack.2]
    dsimp only
    congr 1
    omega
  · have := h.room
    dsimp only
    omega

end

/-! ## Rounds -/

/-- The values of the tokens. -/
def valuesOf (txt : List UInt8) (lbl : List (List UInt8)) (items : List Item) : List Value :=
  items.map (Item.value txt lbl)

/-- A round passes `n` characters of `text`, which are spelled by `ls`, and leaves the tokens `items'` and
the open brackets `st'`. -/
structure Passes (txt : List UInt8) (lbl : List (List UInt8)) (top : Nat) (x : Lexer) (items : List Item)
    (st : List Bool) (text : List UInt8) (x' : Lexer) (n : Nat) (ls : List Lex) (items' : List Item)
    (st' : List Bool) : Prop where
  pos : 1 ≤ n
  spells : ∀ ls' r, Spells (text.drop n) ls' r → Spells text (ls ++ ls') r
  run : Reading.run lbl ⟨valuesOf txt lbl items, st⟩ ls = some ⟨valuesOf txt lbl items', st'⟩
  items : items' ≠ []
  scanned : Scanned lbl top x' items' st'
  room : x'.cnt + (top - x'.sp) ≤ x.cnt + (top - x.sp) + roomOf ls

section
variable {txt text rest : List UInt8} {lbl : List (List UInt8)} {top n : Nat} {x x' : Lexer}
  {items : List Item} {st st' : List Bool} {c : UInt8}

theorem Roomy.of_passes (h : Roomy top x text)
    (hp : Passes txt lbl top x items st text x' n ls items' st') : Roomy top x' (text.drop n) := by
  intro ls' r hs
  have := h _ r (hp.spells ls' r hs)
  have := hp.room
  rw [roomOf_append] at *
  omega

theorem Roomy.lex (h : Roomy top x text) {l : Lex}
    (hspells : ∀ ls r, Spells (text.drop n) ls r → Spells text (l :: ls) r) :
    x.cnt + (top - x.sp) + l.room + 8 ≤ top := by
  have := h _ _ (hspells [] _ .nil)
  simpa [roomOf] using this

theorem passes_put (l : Lex) (item : Item) (h : Scanned lbl top x items st) (hst : st ≠ [])
    (hroomy : Roomy top x text) {tok : Nat} (hn : 1 ≤ n)
    (hspells : ∀ ls r, Spells (text.drop n) ls r → Spells text (l :: ls) r)
    (hstep : ∀ r : Reading, r.stack ≠ [] →
      r.step lbl l = some { r with values := r.values ++ [item.value txt lbl] })
    (hwf : item.Wf lbl) (htok : tok = tokString → ∃ offs len, item = .str offs len)
    (hlen : item.bytes.length ≤ l.room) :
    Passes txt lbl top x items st text { x.put item.bytes with tok } n [l] (items ++ [item]) st := by
  have hroom := hroomy.lex hspells
  refine ⟨hn, hspells, ?_, by simp, h.put item tok hwf htok (by omega), ?_⟩
  · show (Reading.step lbl _ l).bind (fun r => some r) = _
    rw [hstep _ hst, valuesOf, valuesOf, map_append]
    rfl
  · simp only [Lexer.put, roomOf, map_cons, map_nil, sum_cons, sum_nil]
    omega

section
variable (txt : List UInt8) (lbl : List (List UInt8)) (top : Nat)

/-- What a round that goes on has done. -/
def Goes (x : Lexer) (items : List Item)
    (st : List Bool) (text : List UInt8) (x' : Lexer) (n : Nat) : Prop :=
  ∃ ls items' st', Passes txt lbl top x items st text x' n ls items' st' ∧ st' ≠ []

/-- What the last round has done, at the brace that closes the object. -/
def Ends (items : List Item) (st : List Bool)
    (text : List UInt8) (x' : Lexer) (n : Nat) : Prop :=
  ∃ l items', Spells text [l] (text.drop n) ∧
    Reading.run lbl ⟨valuesOf txt lbl items, st⟩ [l] = some ⟨valuesOf txt lbl items', []⟩ ∧
    items' ≠ [] ∧ (∀ item ∈ items', item.Wf lbl) ∧
    x'.mem.bytes 0 x'.cnt = (items' ++ [Item.tok tokStop]).flatMap Item.bytes ∧ x'.cnt ≤ top

/-- What a round from `x` has done with `text`: it goes on, it ends the scan, or it fails. -/
def Round.Means (x : Lexer) (items : List Item)
    (st : List Bool) (text : List UInt8) : Round → Prop
  | .go x' n => Goes txt lbl top x items st text x' n
  | .done x' n => Ends txt lbl top items st text x' n
  | .fail _ _ err => err ≠ ok

end

theorem Round.Means.ite {P : Prop} [Decidable P] {r s : Round}
    (hr : P → r.Means txt lbl top x items st text) (hs : ¬ P → s.Means txt lbl top x items st text) :
    (if P then r else s).Means txt lbl top x items st text := by
  split
  · exact hr ‹P›
  · exact hs ‹¬ P›

theorem quoteLen_some {j : Nat} (h : quoteLen qt rest = some j) :
    ∃ s t, rest = s ++ qt :: t ∧ s.length = j ∧ qt ∉ s := by
  induction rest generalizing j with
  | nil => cases h
  | cons c rest ih =>
    unfold quoteLen at h
    split at h
    · rename_i hc
      cases h
      exact ⟨[], rest, by rw [hc]; rfl, rfl, by simp⟩
    · rename_i hc
      obtain ⟨k, hk, rfl⟩ := Option.map_eq_some_iff.mp h
      obtain ⟨s, t, rfl, hs, hqt⟩ := ih hk
      refine ⟨c :: s, t, rfl, by rw [length_cons, hs], ?_⟩
      rw [mem_cons, not_or]
      exact ⟨fun heq => hc heq.symm, hqt⟩

/-- **A string.** -/
theorem stringRound_means (h : Scanned lbl top x items st) (hst : st ≠ [])
    (hroomy : Roomy top x (qt :: rest)) (htext : txt.drop i = qt :: rest)
    (hlen : txt.length < 65536) (hqt : qt = 39 ∨ qt = 34) :
    (x.stringRound i qt rest).Means txt lbl top x items st (qt :: rest) := by
  unfold Lexer.stringRound
  split
  · exact (by decide : unclosedString ≠ ok)
  · rename_i j hj
    obtain ⟨s, t, rfl, rfl, hs⟩ := quoteLen_some hj
    refine .ite (fun _ => (by decide : stringTooLong ≠ ok)) fun hmax => .ite
      (fun _ => (by decide : tokenBufOvf ≠ ok)) fun _ => ?_
    have hi : i < txt.length := by
      by_contra hge
      rw [drop_eq_nil_of_le (by omega)] at htext
      cases htext
    have hvalue : (Item.str (i + 1) s.length).value txt lbl = .str s := by
      rw [Item.value, ← drop_drop, htext, drop_one, tail_cons, take_left]
    refine ⟨_, _, st, passes_put (.str s) (.str (i + 1) s.length) h hst hroomy (by omega) ?_ ?_
      ⟨by omega, by omega⟩ (fun _ => ⟨_, _, rfl⟩) le_rfl, hst⟩
    · intro ls r hspells
      have hdrop : (qt :: (s ++ qt :: t)).drop (s.length + 2) = t := by simp
      rw [hdrop] at hspells
      exact .str hqt hs hspells
    · intro r hr
      rw [hvalue, Reading.step, if_neg (fun hc => hr hc.2)]

theorem takeWhile_spec (p : UInt8 → Bool) (rest : List UInt8) :
    ∃ s t, rest = s ++ t ∧ rest.takeWhile p = s ∧ (∀ b ∈ s, p b = true) ∧ ∀ b ∈ t.head?, p b = false := by
  refine ⟨rest.takeWhile p, rest.dropWhile p, takeWhile_append_dropWhile.symm, rfl, ?_, ?_⟩
  · intro b hb
    exact all_eq_true.mp all_takeWhile b hb
  · intro b hb
    have := head?_dropWhile_not p rest
    rw [Option.mem_def.mp hb] at this
    exact this

theorem ne_tokString {tok : Nat} (h : 1 ≤ tok ∧ tok ≤ tokTrue) : tok ≠ tokString := by
  have : tokString = 55 := rfl
  have : tokTrue = 8 := rfl
  omega

theorem symbolRound_means (h : Scanned lbl top x items st) (hst : st ≠ [])
    (hroomy : Roomy top x (c :: rest)) (htop : top < 65536) (hc : isSymbol c = true) :
    (x.symbolRound c rest).Means txt lbl top x items st (c :: rest) := by
  obtain ⟨s, t, rfl, hs, hword, ht⟩ := takeWhile_spec isWord rest
  unfold Lexer.symbolRound
  rw [hs]
  refine .ite (fun _ => (by decide : tokenBufOvf ≠ ok)) fun hroom => ?_
  rw [h.room_eq htop] at hroom
  have hdrop : (c :: (s ++ t)).drop (c :: s).length = t := by simp
  have hspells : ∀ ls r, Spells ((c :: (s ++ t)).drop (c :: s).length) ls r →
      Spells (c :: (s ++ t)) (.sym (c :: s) :: ls) r := by
    intro ls r hr
    rw [hdrop] at hr
    exact .sym hc hword ht hr
  -- each of the three words is short, and so the copy of it ends in front of the brackets
  have hmeans : ∀ tok, (c :: s).length ≤ 5 → (1 ≤ tok ∧ tok ≤ tokTrue) →
      (∀ r : Reading, r.stack ≠ [] → r.step lbl (.sym (c :: s)) =
          some { r with values := r.values ++ [(Item.tok tok).value txt lbl] }) →
      ({ x with mem := x.mem.storeBytes (x.cnt + 1) (c :: s ++ [0]) }.push tok (c :: s).length).Means
        txt lbl top x items st (c :: (s ++ t)) := by
    intro tok hlen htok hstep
    have hscratch := h.scratch (x.cnt + 1) (c :: s ++ [0]) (by omega)
      (by rw [length_append, length_singleton]; omega)
    refine .ite (fun _ => (by decide : tokenBufOvf ≠ ok)) fun _ => ?_
    have hp := passes_put (.sym (c :: s)) (.tok tok) hscratch hst hroomy (by simp) hspells hstep htok
      (fun he => absurd he (ne_tokString htok)) le_rfl
    exact ⟨_, _, st, { hp with }, hst⟩
  refine .ite (fun htrue => ?_) fun htrue => .ite (fun hfalse => ?_) fun hfalse => .ite (fun hnull => ?_)
    fun _ => (by decide : invalidSymbol ≠ ok)
  · refine hmeans tokTrue (by rw [htrue]; decide) (by decide) fun r hr => ?_
    rw [Reading.step, if_neg (fun hc => hr hc.2), if_pos htrue]
    rfl
  · refine hmeans tokFalse (by rw [hfalse]; decide) (by decide) fun r hr => ?_
    rw [Reading.step, if_neg (fun hc => hr hc.2), if_neg htrue, if_pos hfalse]
    rfl
  · refine hmeans tokNull (by rw [hnull]; decide) (by decide) fun r hr => ?_
    rw [Reading.step, if_neg (fun hc => hr hc.2), if_neg htrue, if_neg hfalse, if_pos hnull]
    rfl

theorem decimal_ofNat (n : Nat) (hd : isDigit d = true) :
    decimal (BitVec.ofNat 32 n) d = BitVec.ofNat 32 (10 * n + (d.toNat - 48)) := by
  have hle : 48 ≤ d.toNat ∧ d.toNat ≤ 57 := by
    simp only [isDigit, Bool.and_eq_true, decide_eq_true_eq, le_iff_toNat_le] at hd
    exact hd
  apply BitVec.eq_of_toNat_eq
  have hb : d.toBitVec.toNat = d.toNat := rfl
  simp only [decimal, BitVec.toNat_add, BitVec.toNat_sub, BitVec.toNat_shiftLeft, BitVec.toNat_ofNat,
    BitVec.toNat_setWidth, Nat.shiftLeft_eq, hb]
  omega

theorem foldl_decimal (h : ∀ d ∈ digits, isDigit d = true) (n : Nat) :
    digits.foldl decimal (BitVec.ofNat 32 n) =
      BitVec.ofNat 32 (digits.foldl (fun n d => 10 * n + (d.toNat - 48)) n) := by
  induction digits generalizing n with
  | nil => rfl
  | cons d ds ih =>
    rw [foldl_cons, foldl_cons, decimal_ofNat n (h d mem_cons_self)]
    exact ih (fun d hd => h d (mem_cons_of_mem _ hd)) _

/-- The decimal loop computes the value of the literal modulo 2^32. -/
theorem intOf_eq (neg : Bool) (h : ∀ d ∈ digits, isDigit d = true) :
    (if neg then -(digits.foldl decimal 0) else digits.foldl decimal 0) = intOf neg digits := by
  have hval : digits.foldl decimal 0 = BitVec.ofNat 32 (natOf digits) := foldl_decimal h 0
  rw [hval, intOf]
  cases neg with
  | true =>
    rw [if_pos rfl, if_pos rfl, BitVec.ofInt_neg, BitVec.ofInt_natCast]
  | false =>
    rw [if_neg (by decide), if_neg (by decide), BitVec.ofInt_natCast]

theorem length_intToken (v : BitVec 32) : (intToken v).2.length ≤ 4 := by
  unfold intToken
  split_ifs <;> simp

theorem intToken_ne_string {v : BitVec 32} : (intToken v).1 ≠ tokString := by
  unfold intToken
  split_ifs <;> simp [tokInt8, tokInt16, tokInt32, tokString, stringLenMax]

theorem numberRound_means {neg : Bool} (h : Scanned lbl top x items st) (hst : st ≠ [])
    (hroomy : Roomy top x ((if neg then [45] else []) ++ d :: rest)) (hd : isDigit d = true) :
    (x.numberRound neg d rest).Means txt lbl top x items st ((if neg then [45] else []) ++ d :: rest) := by
  obtain ⟨ds, t, rfl, hds, hdigits, ht⟩ := takeWhile_spec isDigit rest
  have hall : ∀ b ∈ d :: ds, isDigit b = true := forall_mem_cons.mpr ⟨hd, hdigits⟩
  unfold Lexer.numberRound
  rw [hds]
  dsimp only
  rw [intOf_eq neg hall]
  refine .ite (fun _ => (by decide : tokenBufOvf ≠ ok)) fun _ => ?_
  refine ⟨_, _, st, passes_put (.num neg (d :: ds)) (.int (intOf neg (d :: ds))) h hst hroomy ?_ ?_ ?_
    trivial ?_ ?_, hst⟩
  · rw [length_cons]
    omega
  · intro ls r hr
    have hdrop : ((if neg then [45] else []) ++ d :: (ds ++ t)).drop
        ((d :: ds).length + if neg then 1 else 0) = t := by
      cases neg <;> simp
    rw [hdrop] at hr
    exact .num hd hdigits ht hr
  · intro r hr
    rw [Reading.step, if_neg (fun hc => hr hc.2)]
    rfl
  · intro htok
    exact absurd htok intToken_ne_string
  · rw [Item.bytes, length_cons]
    exact Nat.succ_le_succ (length_intToken _)

theorem value_label {lbl : List (List UInt8)} {txt s : List UInt8} :
    (Item.label (lbl.findIdx fun cp => cp == s)).value txt lbl = .label (indexOf lbl s) := by
  rw [Item.value, indexOf]
  congr 1
  by_cases hlt : (lbl.findIdx fun cp => cp == s) < lbl.length
  · rw [if_pos hlt]
    exact (findIdx?_eq_some_iff_findIdx_eq.mpr ⟨hlt, rfl⟩).symm
  · rw [if_neg hlt]
    have hle : (lbl.findIdx fun cp => cp == s) ≤ lbl.length := findIdx_le_length
    exact (findIdx?_eq_none_iff_findIdx_eq.mpr (by omega)).symm

theorem Scanned.last_string {offs len : Nat} (h : Scanned lbl top x (front ++ [.str offs len]) st) :
    ∃ k, x.cnt = k + 3 ∧ x.mem.bytes 0 k = front.flatMap Item.bytes ∧
      x.mem k = UInt8.ofNat (tokString + len) ∧ x.mem (k + 1) = UInt8.ofNat offs ∧
      x.mem (k + 2) = UInt8.ofNat (offs >>> 8) := by
  obtain ⟨k, hk⟩ : ∃ k, k = (front.flatMap Item.bytes).length := ⟨_, rfl⟩
  have hbytes := h.bytes
  rw [flatMap_append, flatMap_singleton] at hbytes
  have hcnt : x.cnt = k + 3 := by
    have := congrArg List.length hbytes
    rwa [Mem.length_bytes, length_append, ← hk] at this
  rw [hcnt, Mem.bytes_add, Nat.zero_add] at hbytes
  obtain ⟨hfront, hstr⟩ := append_inj hbytes (by rw [Mem.length_bytes, hk])
  have hget : x.mem.bytes k (Item.str offs len).bytes.length = (Item.str offs len).bytes := hstr
  exact ⟨k, hcnt, hfront, get_of_bytes (k := 0) hget rfl, get_of_bytes (k := 1) hget rfl,
    get_of_bytes (k := 2) hget rfl⟩

theorem Scanned.label {offs len j k : Nat} (h : Scanned lbl top x (front ++ [.str offs len]) st)
    (hj : j ≤ lbl.length) (hcnt : x.cnt = k + 3)
    (hfront : x.mem.bytes 0 k = front.flatMap Item.bytes) : Scanned lbl top
      { x with
        cnt := k + 1
        tok := tokLabel
        mem := x.mem.storeBytes k [UInt8.ofNat (tokLabel + j)] } (front ++ [.label j]) st := by
  have hroom := h.room
  have hsp := h.sp
  refine ⟨?_, ?_, fun ht => absurd ht (show tokLabel ≠ tokString by decide), hsp, ?_, by dsimp only; omega⟩
  · have := Mem.bytes_storeBytes_append x.mem 0 k (Item.label j).bytes
    rw [Nat.zero_add, hfront] at this
    rw [flatMap_append, flatMap_singleton]
    exact this
  · intro item hitem
    rcases mem_append.mp hitem with hold | hnew
    · exact h.wf item (mem_append_left _ hold)
    · rw [mem_singleton.mp hnew]
      exact hj
  · rw [← h.stack]
    exact Mem.bytes_storeBytes_ne (by rw [length_singleton]; dsimp only; omega)

theorem colon_means (h : Scanned lbl top x items st) (hst : st ≠ []) :
    (x.colon txt lbl).Means txt lbl top x items st (58 :: rest) := by
  unfold Lexer.colon
  by_cases htok : x.tok = tokString
  · obtain ⟨front, offs, len, rfl⟩ := h.last htok
    obtain ⟨hoffs, hlen⟩ := h.wf (.str offs len) (by simp)
    obtain ⟨k, hcnt, hfront, h0, h1, h2⟩ := h.last_string
    have hn : (UInt8.ofNat (tokString + len)).toNat - tokString = len := by
      rw [toNat_ofNat', Nat.mod_eq_of_lt, Nat.add_sub_cancel_left]
      simp only [tokString, stringLenMax] at hlen ⊢
      omega
    rw [if_pos htok]
    dsimp only
    rw [hcnt, show k + 3 - 3 = k by omega, show k + 3 - 2 = k + 1 by omega,
      show k + 3 - 1 = k + 2 by omega, h0, h1, h2, hn, offs_eq hoffs, Nat.add_sub_cancel]
    refine ⟨[.colon], _, st, ⟨le_rfl, fun ls r hr => .mark rfl hr, ?_, by simp,
      h.label findIdx_le_length hcnt hfront, ?_⟩, hst⟩
    · show (Reading.step lbl _ .colon).bind (fun r => some r) = _
      rw [Reading.step, if_neg (fun hc => hst hc.2), valuesOf, valuesOf, map_append, map_append,
        map_singleton, map_singleton, value_label]
      simp only [getLast?_concat, dropLast_concat, Item.value, Option.bind_some]
    · dsimp only
      omega
  · rw [if_neg htok]
    exact (by decide : invalidLabel ≠ ok)

theorem opening_means {array : Bool} {tok closing : Nat} (h : Scanned lbl top x items st)
    (hroomy : Roomy top x (c :: rest)) (hst : st ≠ []) (hc : markOf c = some (.opening array))
    (hclosing : UInt8.ofNat closing = closingByte array)
    (htok : (1 ≤ tok ∧ tok ≤ tokTrue) ∧ tokValue tok = if array then .array else .object) :
    (x.opening tok closing).Means txt lbl top x items st (c :: rest) := by
  have hspells : ∀ ls r, Spells ((c :: rest).drop 1) ls r → Spells (c :: rest) (.opening array :: ls) r :=
    fun ls r hr => .mark hc hr
  have hroom := hroomy.lex hspells
  have hroom' : x.cnt + (top - x.sp) + 2 + 8 ≤ top := hroom
  have ho := h.opening array hclosing (by omega)
  refine .ite (fun _ => (by decide : tokenBufOvf ≠ ok)) fun _ => ?_
  have hput := ho.put (.tok tok) tok htok.1 (fun he => absurd he (ne_tokString htok.1))
    (show x.cnt + 1 + (top - (x.sp - 1)) + 8 ≤ top by omega)
  refine ⟨[.opening array], items ++ [Item.tok tok], array :: st, ⟨le_rfl, hspells, ?_, by simp,
    hput, ?_⟩, by simp⟩
  · show (Reading.step lbl _ (.opening array)).bind (fun r => some r) = _
    rw [Reading.step, if_neg (fun hc => hst hc.2), valuesOf, valuesOf, map_append,
      map_singleton, Item.value, htok.2]
    rfl
  · show x.cnt + 1 + (top - (x.sp - 1)) ≤ x.cnt + (top - x.sp) + 2
    omega

/-- The token of a closing bracket. -/
def closingTok (array : Bool) : Nat := if array then tokRightbracket else tokRightbrace

theorem closingTok_bounds {array : Bool} : 1 ≤ closingTok array ∧ closingTok array ≤ tokTrue := by
  cases array <;> decide

theorem tokValue_closingTok {array : Bool} :
    tokValue (closingTok array) = if array then .endArray else .endObject := by
  cases array <;> rfl

theorem closingByte_inj {a b : Bool} (h : closingByte a = UInt8.ofNat (closingTok b)) : a = b := by
  cases a <;> cases b <;> first | rfl | exact absurd h (by decide)

theorem run_closing {array : Bool} {st : List Bool} {items : List Item} :
    Reading.run lbl ⟨valuesOf txt lbl items, array :: st⟩ [.closing array] =
      some ⟨valuesOf txt lbl (items ++ [.tok (closingTok array)]), st⟩ := by
  show (Reading.step lbl _ (.closing array)).bind (fun r => some r) = _
  rw [Reading.step, if_neg (fun hc => cons_ne_nil _ _ hc.2)]
  dsimp only
  rw [if_pos rfl, Option.bind_some, valuesOf, valuesOf, map_append, map_singleton, Item.value,
    tokValue_closingTok]

theorem Scanned.length_st (h : Scanned lbl top x items st) : top - x.sp = st.length := by
  have := congrArg List.length h.stack
  rwa [Mem.length_bytes, length_map] at this

/-- **A closing bracket**, with others open around it or as the end of the object. -/
theorem pop_means {array : Bool} (h : Scanned lbl top x items st)
    (hroomy : Roomy top x (c :: rest)) (hst : st ≠ []) (hc : markOf c = some (.closing array)) :
    (x.pop top (closingTok array)).Means txt lbl top x items st (c :: rest) := by
  have hspells : ∀ ls r, Spells ((c :: rest).drop 1) ls r → Spells (c :: rest) (.closing array :: ls) r :=
    fun ls r hr => .mark hc hr
  have hroom : x.cnt + (top - x.sp) + 1 + 8 ≤ top := hroomy.lex hspells
  obtain ⟨a, st, rfl⟩ := exists_cons_of_ne_nil hst
  obtain ⟨hclosing, h1⟩ := h.closing (ne_tokString closingTok_bounds)
  have hlen : top - (x.sp + 1) = st.length := h1.length_st
  have hle : x.sp + 1 ≤ top := h1.sp
  unfold Lexer.pop
  rw [hclosing]
  refine .ite (fun _ => (by decide : emptyStack ≠ ok)) fun _ => .ite
    (fun _ => (by decide : bracketMismatch ≠ ok)) fun hne => .ite (fun htop => ?_) fun htop => ?_
  · obtain rfl := closingByte_inj (not_not.mp hne)
    obtain rfl : st = [] := eq_nil_of_length_eq_zero (by dsimp only at htop; omega)
    refine .ite (fun _ => (by decide : tokenBufOvf ≠ ok)) fun _ => ?_
    refine ⟨.closing a, items ++ [Item.tok (closingTok a)], .mark hc .nil, run_closing, by simp,
      ?_, ?_, ?_⟩
    · intro item hitem
      rcases mem_append.mp hitem with hold | hnew
      · exact h.wf item hold
      · rw [mem_singleton.mp hnew]
        exact closingTok_bounds
    · have := Mem.bytes_storeBytes_append x.mem 0 x.cnt [UInt8.ofNat (closingTok a), UInt8.ofNat tokStop]
      rw [Nat.zero_add, h.bytes] at this
      rw [append_assoc, flatMap_append]
      exact this
    · show x.cnt + 2 ≤ top
      omega
  · obtain rfl := closingByte_inj (not_not.mp hne)
    refine .ite (fun _ => (by decide : tokenBufOvf ≠ ok)) fun _ => ?_
    have hput := h1.put (.tok (closingTok a)) (closingTok a) closingTok_bounds
      (fun he => absurd he (ne_tokString closingTok_bounds))
      (show x.cnt + 1 + (top - (x.sp + 1)) + 8 ≤ top by omega)
    refine ⟨[.closing a], items ++ [Item.tok (closingTok a)], st,
      ⟨le_rfl, hspells, run_closing, by simp, hput, ?_⟩, ?_⟩
    · show x.cnt + 1 + (top - (x.sp + 1)) ≤ x.cnt + (top - x.sp) + 1
      omega
    · rintro rfl
      exact htop (by dsimp only; rw [length_nil] at hlen; omega)

theorem means_skip (ls : List Lex) (h : Scanned lbl top x items st) (hitems : items ≠ [])
    (hst : st ≠ []) (hspells : ∀ ls' r, Spells rest ls' r → Spells (c :: rest) (ls ++ ls') r)
    (hrun : Reading.run lbl ⟨valuesOf txt lbl items, st⟩ ls = some ⟨valuesOf txt lbl items, st⟩) :
    (Round.go x 1).Means txt lbl top x items st (c :: rest) :=
  ⟨ls, items, st, ⟨le_rfl, hspells, hrun, hitems, h, by omega⟩, hst⟩

/-- **A round passes lexemes of the text, or the brace that closes the object, or fails.** -/
theorem round_means (h : Scanned lbl top x items st) (hitems : items ≠ []) (hst : st ≠ [])
    (hroomy : Roomy top x (c :: rest)) (htop : top < 65536) (htext : txt.drop i = c :: rest)
    (hlen : txt.length < 65536) :
    (x.round txt lbl top i c rest).Means txt lbl top x items st (c :: rest) := by
  refine .ite (fun hc => means_skip [] h hitems hst (fun ls r => .blank hc) rfl) fun _ => ?_
  refine .ite (fun hc => stringRound_means h hst hroomy htext hlen hc) fun _ => ?_
  refine .ite (fun hc => symbolRound_means h hst hroomy htop hc) fun _ => ?_
  refine .ite (fun hc => numberRound_means h hst hroomy hc) fun _ => ?_
  refine .ite (fun hc => ?_) fun _ => .ite (fun hc => ?_) fun _ => .ite (fun hc => ?_) fun _ => ?_
  · subst hc
    cases rest with
    | nil => exact (by decide : invalidSymbol ≠ ok)
    | cons d rest =>
      exact .ite (fun hd => numberRound_means h hst hroomy hd)
        fun _ => (by decide : unexpectedChar ≠ ok)
  · subst hc
    exact colon_means h hst
  · refine means_skip [.comma] h hitems hst (fun ls r => .mark (by rw [hc]; rfl)) ?_
    show (Reading.step lbl _ .comma).bind (fun r => some r) = _
    rw [Reading.step, if_neg (fun hc => hst hc.2)]
    rfl
  refine .ite (fun hc => ?_) fun _ => .ite (fun hc => ?_) fun _ => .ite (fun hc => ?_) fun _ =>
    .ite (fun hc => ?_) fun _ => (by decide : unexpectedChar ≠ ok)
  · exact opening_means h hroomy hst (by rw [hc]; rfl) rfl ⟨by decide, rfl⟩
  · exact opening_means h hroomy hst (by rw [hc]; rfl) rfl ⟨by decide, rfl⟩
  · exact pop_means h hroomy hst (by rw [hc]; rfl)
  · exact pop_means h hroomy hst (by rw [hc]; rfl)

/-- The scanner has passed the object: its tokens are those of the values, with a stop behind them. -/
def Complete (txt : List UInt8) (lbl : List (List UInt8)) (top : Nat) (r : Reading) (text : List UInt8)
    (x' : Lexer) : Prop :=
  ∃ ls rest items', Spells text ls rest ∧ r.run lbl ls = some ⟨valuesOf txt lbl items', []⟩ ∧
    items' ≠ [] ∧ (∀ item ∈ items', item.Wf lbl) ∧
    x'.mem.bytes 0 x'.cnt = (items' ++ [Item.tok tokStop]).flatMap Item.bytes ∧ x'.cnt ≤ top

theorem Complete.passes {x'' : Lexer} (hp : Passes txt lbl top x items st text x' n ls items' st')
    (h : Complete txt lbl top ⟨valuesOf txt lbl items', st'⟩ (text.drop n) x'') :
    Complete txt lbl top ⟨valuesOf txt lbl items, st⟩ text x'' := by
  obtain ⟨ls', rest, items'', hspells, hrun, hend⟩ := h
  refine ⟨ls ++ ls', rest, items'', hp.spells ls' rest hspells, ?_, hend⟩
  rw [Reading.run_append, hp.run]
  exact hrun

theorem Scanned.scanRounds_nil (h : Scanned lbl top x items st) (hst : st ≠ []) {fuel i i' : Nat} :
    scanRounds txt lbl top fuel x i [] ≠ (x', i', ok) := by
  have hsp : x.sp ≠ top := by
    intro heq
    have := h.length_st
    rw [heq, Nat.sub_self] at this
    exact hst (eq_nil_of_length_eq_zero this.symm)
  unfold scanRounds
  rw [if_pos hsp]
  intro heq
  exact absurd (congrArg (·.2.2) heq) (by decide : bracketMismatch ≠ ok)

/-- **The scanner passes an object.** -/
theorem scanRounds_complete (htop : top < 65536) (hlen : txt.length < 65536) {i' : Nat} {fuel : Nat} :
    ∀ {x : Lexer} {i : Nat} {text : List UInt8} {items : List Item} {st : List Bool},
      Scanned lbl top x items st → items ≠ [] → st ≠ [] → Roomy top x text → txt.drop i = text →
      text.length ≤ fuel → scanRounds txt lbl top fuel x i text = (x', i', ok) →
      Complete txt lbl top ⟨valuesOf txt lbl items, st⟩ text x' := by
  induction fuel with
  | zero =>
    intro x i text items st h _ hst _ _ hfuel hscan
    obtain rfl := eq_nil_of_length_eq_zero (Nat.le_zero.mp hfuel)
    exact absurd hscan (h.scanRounds_nil hst)
  | succ fuel ih =>
    intro x i text items st h hitems hst hroomy htext hfuel hscan
    cases text with
    | nil => exact absurd hscan (h.scanRounds_nil hst)
    | cons c rest =>
      unfold scanRounds at hscan
      have hr := round_means h hitems hst hroomy htop htext hlen
      split at hscan
      · rename_i x1 n hround
        rw [hround] at hr
        obtain ⟨ls, items1, st1, hp, hst1⟩ := hr
        refine .passes hp (ih hp.scanned hp.items hst1 (hroomy.of_passes hp) ?_ ?_ hscan)
        · rw [← drop_drop, htext]
        · have := hp.pos
          rw [length_drop]
          omega
      · rename_i x1 n hround
        rw [hround] at hr
        cases hscan
        obtain ⟨l, items', hends⟩ := hr
        exact ⟨[l], _, items', hends⟩
      · rename_i x1 n err hround
        rw [hround] at hr
        have herr : err = ok := congrArg (fun r => r.2.2) hscan
        exact absurd herr hr

end

/-! ## The round trip -/

section
variable {lbl : List (List UInt8)} {txt : List UInt8} {tok : Mem} {size : Nat} {p1 p2 : Parser}

theorem spells_blanks {bs t r : List UInt8} (hbs : ∀ b ∈ bs, isSpace b = true) (h : Spells t ls r) :
    Spells (bs ++ t) ls r := by
  induction bs with
  | nil => exact h
  | cons b bs ih =>
    exact .blank (hbs b mem_cons_self) (ih fun b hb => hbs b (mem_cons_of_mem _ hb))

section
variable (hlen : txt.length < 65536) (hlarge : LargeEnough (u16 size) txt)
  (hopen : (jsonInit tok size lbl).jsonOpen txt = (p1, ok))
include hlen hlarge hopen

theorem jsonOpen_ok : ∃ bs rest, txt = bs ++ 123 :: rest ∧ (∀ b ∈ bs, isSpace b = true) ∧
      p1.idx = 0 ∧ p1.top = u16 size ∧ p1.txt = txt ∧ p1.len = txt.length ∧ p1.lbl = lbl ∧
      p1.fin = bs.length + 1 ∧
      Scanned lbl (u16 size) ⟨tokNull, p1.tok, p1.cnt, p1.sp⟩ [.tok tokLeftbrace] [false] ∧
      Roomy (u16 size) ⟨tokNull, p1.tok, p1.cnt, p1.sp⟩ rest := by
  obtain ⟨bs, t, rfl, hbs, hblank, -⟩ := takeWhile_spec isSpace txt
  unfold Parser.jsonOpen jsonInit at hopen
  dsimp only at hopen
  rw [hbs, drop_left] at hopen
  cases t with
  | nil => exact absurd (congrArg (·.2) hopen) (by decide : emptyFile ≠ ok)
  | cons c rest =>
    dsimp only at hopen
    by_cases hc : c = 123
    · subst hc
      rw [if_neg (not_not.mpr rfl)] at hopen
      cases hopen
      have hspells : ∀ ls r, Spells rest ls r → Spells (bs ++ 123 :: rest) (.opening false :: ls) r :=
        fun ls r hr => spells_blanks hblank (.mark rfl hr)
      have hroom : 2 + 8 ≤ u16 size := hlarge _ _ (hspells [] rest .nil)
      rw [length_append, length_cons] at hlen
      have hempty : Scanned lbl (u16 size)
          ⟨tokNull, tok.storeBytes 0 (List.replicate (u16 size) 0), 0, u16 size⟩ [] [] :=
        ⟨rfl, nofun, fun h => absurd h (show tokNull ≠ tokString by decide), le_rfl,
          by rw [Nat.sub_self]; rfl, by dsimp only; omega⟩
      have hput := hempty.put (.tok tokLeftbrace) tokNull
        (show 1 ≤ tokLeftbrace ∧ tokLeftbrace ≤ tokTrue by decide) (fun h => absurd h (by decide))
        (show 0 + 1 + (u16 size - u16 size) + 8 ≤ u16 size by omega)
      refine ⟨bs, rest, rfl, hblank, rfl, rfl, rfl, Nat.mod_eq_of_lt (by simp; omega), rfl,
        Nat.mod_eq_of_lt (by omega), hput.opening false rfl ?_, ?_⟩
      · show 0 + 1 + (u16 size - u16 size) + 1 + 8 ≤ u16 size
        omega
      · intro ls r hr
        have : 2 + roomOf ls + 8 ≤ u16 size := hlarge _ _ (hspells ls r hr)
        show 0 + 1 + (u16 size - (u16 size - 1)) + roomOf ls + 8 ≤ u16 size
        omega
    · rw [if_pos hc] at hopen
      exact absurd (congrArg (·.2) hopen) (by decide : objectExpected ≠ ok)

theorem jsonScan_ok (hscan : p1.jsonScan = (p2, ok)) : p2.idx = 0 ∧ p2.txt = txt ∧ p2.lbl = lbl ∧
      ∃ items, ObjectOf lbl txt (valuesOf txt lbl items) ∧ (∀ item ∈ items, item.Wf lbl) ∧
        p2.tok.bytes 0 ((items ++ [Item.tok tokStop]).flatMap Item.bytes).length =
          (items ++ [Item.tok tokStop]).flatMap Item.bytes ∧
        ((items ++ [Item.tok tokStop]).flatMap Item.bytes).length < 65536 := by
  obtain ⟨bs, rest, htxt, hblank, hidx, htop, hptxt, hplen, hlbl, hfin, h, hroomy⟩ :=
    jsonOpen_ok hlen hlarge hopen
  have htop' : u16 size < 65536 := Nat.mod_lt _ (by decide)
  have hdrop : txt.drop (bs.length + 1) = rest := by
    rw [htxt, ← drop_drop, drop_left]
    rfl
  unfold Parser.jsonScan at hscan
  dsimp only at hscan
  rw [hptxt, hplen, hlbl, htop, hfin, take_length, hdrop] at hscan
  obtain ⟨⟨x, i, err⟩, hrounds⟩ :
      ∃ y, scanRounds txt lbl (u16 size) rest.length ⟨tokNull, p1.tok, p1.cnt, p1.sp⟩ (bs.length + 1) rest = y :=
    ⟨_, rfl⟩
  rw [hrounds] at hscan
  by_cases herr : err = ok
  · rw [if_pos herr] at hscan
    cases hscan
    subst herr
    obtain ⟨ls, r, items, hspells, hrun, hne, hwf, hbytes, hcnt⟩ :=
      scanRounds_complete htop' hlen h (by simp) (by simp) hroomy hdrop le_rfl hrounds
    have hsize := congrArg List.length hbytes
    rw [Mem.length_bytes] at hsize
    refine ⟨hidx, rfl, rfl, items, ⟨?_, .opening false :: ls, r, ?_, ?_⟩, hwf, ?_, ?_⟩
    · exact fun heq => hne (map_eq_nil_iff.mp heq)
    · rw [htxt]
      exact spells_blanks hblank (.mark rfl hspells)
    · rw [← hrun]
      rfl
    · rw [← hsize]
      exact hbytes
    · omega
  · rw [if_neg herr] at hscan
    exact absurd (congrArg (·.2) hscan) herr

end

/-- **The round trip.** -/
theorem json_round_trip_iff (tok : Mem) (size : Nat) (lbl : List (List UInt8)) (txt : List UInt8)
    (p1 p2 : Parser) (hlen : txt.length < 65536) (hlarge : LargeEnough (u16 size) txt)
    (hopen : (jsonInit tok size lbl).jsonOpen txt = (p1, ok)) (hscan : p1.jsonScan = (p2, ok)) :
    ∃ vs, ObjectOf lbl txt vs ∧ (∀ vs', ObjectOf lbl txt vs' → vs' = vs) ∧
      (p2.readings (vs.length + 1) = (vs ++ [Value.stop]).map some ↔ ∀ v ∈ vs, v.Fits lbl) := by
  obtain ⟨hidx, htxt, hlbl, items, hobj, hwf, hbytes, hsize⟩ := jsonScan_ok hlen hlarge hopen hscan
  refine ⟨_, hobj, fun vs' h => h.unique hobj, ?_⟩
  have hstop : ∀ item ∈ items ++ [Item.tok tokStop], item.Wf p2.lbl := by
    rw [hlbl]
    exact forall_mem_append.mpr ⟨hwf, by simp [Item.Wf]; decide⟩
  have hread := readings_eq_iff (p := p2) (by rw [hidx]; exact hbytes) hstop (by omega)
  rw [htxt, hlbl, length_append, length_singleton, forall_mem_append] at hread
  have hmap : (valuesOf txt lbl items ++ [Value.stop]).map some =
      (items ++ [Item.tok tokStop]).map fun item => some (item.value txt lbl) := by
    rw [valuesOf, map_append, map_append, map_map]
    rfl
  rw [hmap, valuesOf, length_map, hread, forall_mem_map]
  exact ⟨fun h => h.1, fun h => ⟨h, fun item hitem => by
    rw [mem_singleton.mp hitem]; trivial⟩⟩

/-- The parser after `microjs_json_open` and `microjs_json_scan`. -/
def scanned (size : Nat) (lbl : List (List UInt8)) (txt : List UInt8) : Parser :=
  ((jsonInit (fun _ => 0) size lbl).jsonOpen txt).1.jsonScan.1

theorem json_round_trip_small : ∃ vs, ObjectOf [[97]] [123, 34, 97, 34, 58, 49, 125] vs ∧
      (∀ vs', ObjectOf [[97]] [123, 34, 97, 34, 58, 49, 125] vs' → vs' = vs) ∧
      ((scanned 64 [[97]] [123, 34, 97, 34, 58, 49, 125]).readings (vs.length + 1) =
        (vs ++ [Value.stop]).map some ↔ ∀ v ∈ vs, v.Fits [[97]]) :=
  json_round_trip_iff (fun _ => 0) 64 [[97]] [123, 34, 97, 34, 58, 49, 125] _ _ (by decide)
    (largeEnough_of_length (by decide)) (Prod.ext rfl (by decide +kernel)) (Prod.ext rfl (by decide +kernel))

/-- The text `{"a":65536}`. -/
def largeText : List UInt8 := [123, 34, 97, 34, 58, 54, 53, 53, 51, 54, 125]

/-- An integer of more than 16 bits is read back as the first label: the two tokens have one code. -/
theorem large_int_read_as_label : ((jsonInit (fun _ => 0) 64 [[97]]).jsonOpen largeText).2 = ok ∧
      ((jsonInit (fun _ => 0) 64 [[97]]).jsonOpen largeText).1.jsonScan.2 = ok ∧
      LargeEnough (u16 64) largeText ∧
      ObjectOf [[97]] largeText [.object, .label (some 0), .int 65536, .endObject] ∧
      (scanned 64 [[97]] largeText).readings 3 =
        [some .object, some (.label (some 0)), some (.label (some 0))] := by
  refine ⟨by decide +kernel, by decide +kernel, largeEnough_of_length (by decide), ⟨by simp, ?_⟩,
    by decide +kernel⟩
  refine ⟨[.opening false, .str [97], .colon, .num false [54, 53, 53, 51, 54], .closing false], [], ?_, rfl⟩
  have hclosing : Spells [125] [.closing false] [] := .mark rfl .nil
  have hnum : Spells [54, 53, 53, 51, 54, 125] [.num false [54, 53, 53, 51, 54], .closing false] [] :=
    @Spells.num false 54 [53, 53, 51, 54] [125] [] _ rfl (by decide +kernel) (by decide +kernel) hclosing
  have hstr : Spells [34, 97, 34, 58, 54, 53, 53, 51, 54, 125]
      [.str [97], .colon, .num false [54, 53, 53, 51, 54], .closing false] [] :=
    @Spells.str 34 [97] _ [] _ (.inr rfl) (by decide) (.mark rfl hnum)
  exact .mark rfl hstr

end

end Json
