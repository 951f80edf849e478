import ThinkOS.MicroJS.Encode

/-!
# MicroJS: what the translator leaves in the code buffer

The translation of a tree stores the tree's items (`Emitted`). What an action knows at compile time is
kept by `Knows`; what the optimizing compiler finds at its saved position by `Saved`. The code is the
items' code as long as every shortcut of the optimizer was taken for the last instruction
(`Static.safe`); without the optimizer this is no condition.
-/

namespace MicroJS

open List Function

variable {s : Name} {ε α β : Type} {x : Except ε α} {k xid : Nat} {g : α → Except ε β} {e : Entry}
  {o : BinOp} {b : β} {bs : List Byte} {m m' m2 : Sdt} {v : Word} {f : Fuse} {n : Int}

open Segment

theorem exists_of_bind_ok (h : (x >>= g) = .ok b) : ∃ a, x = .ok a ∧ g a = .ok b := by
  cases x with
  | error e => cases h
  | ok a => exact ⟨a, rfl, h⟩

theorem bind_eq_ok : (x >>= g) = .ok b ↔ ∃ a, x = .ok a ∧ g a = .ok b :=
  ⟨exists_of_bind_ok, fun ⟨_, hx, hg⟩ => hx ▸ hg⟩

theorem ok_of_guard {p : Prop} [Decidable p] {e : ε} {a : α} (h : (if p then .error e else x) = .ok a) :
    ¬p ∧ x = .ok a := by
  split at h
  · cases h
  · exact ⟨‹_›, h⟩

theorem exists_of_map_ok {g : α → β} (h : x.map g = .ok b) : ∃ a, x = .ok a ∧ g a = b := by
  cases x with
  | error e => cases h
  | ok a => exact ⟨a, rfl, Except.ok.inj h⟩

/-! ## The symbol table -/

/-- Everything but a scope's frame. -/
def Entry.inner : Entry → Bool
  | .sf _ _ => false
  | _ => true

namespace Symtab

variable {t t' : Symtab}

theorem push_ok (h : t.push e = .ok t') :
    e.size ≤ t.sp ∧ t' = { t with sp := t.sp - e.size, stack := e :: t.stack } := by
  unfold push at h
  split at h
  · cases h
  · exact ⟨by omega, (Except.ok.inj h).symm⟩

theorem popAs_ok {kind : Entry → Option α} {x : α} (h : t.popAs kind = .ok (x, t')) :
    ∃ e rest, t.stack = e :: rest ∧ kind e = some x ∧
      t' = { t with sp := t.sp + e.size, stack := rest } := by
  unfold popAs pop at h
  split at h
  · cases h
  · rename_i e t1 hp
    obtain ⟨-, hp⟩ := ok_of_guard hp
    split at hp
    · rename_i hst
      cases hp
      split at h
      · rename_i hk
        cases h
        exact ⟨_, _, hst, hk, rfl⟩
      · cases h
    · cases hp

theorem objNew_ok {addr : Nat} (h : t.objNew s addr = .ok t') :
    t' = { t with bp := t.bp + (6 + s.length + 1), objs := ⟨t.bp, s, addr⟩ :: t.objs } := by
  unfold objNew at h
  obtain ⟨-, h⟩ := ok_of_guard h
  split at h
  · cases h
  · exact (Except.ok.inj h).symm

/-- The frame pointer, the end of the buffer and the descriptors; the stack pointer follows from
these. -/
structure Core where
  fp : Nat
  top : Nat
  stack : List Entry

def core (t : Symtab) : Core := ⟨t.fp, t.top, t.stack⟩

def Core.push (c : Core) (e : Entry) : Core := { c with stack := e :: c.stack }

/-- The descriptors fill the buffer's upper part. -/
def Full (t : Symtab) : Prop := t.sp + (t.stack.map Entry.size).sum = t.top

theorem Full.push (ht : t.Full) (h : t.push e = .ok t') : t'.Full := by
  obtain ⟨hle, rfl⟩ := push_ok h
  unfold Full at *
  simp only [map_cons, sum_cons]
  omega

theorem scopeBp_push (he : e.inner = true) (h : t.push e = .ok t') : t'.scopeBp = t.scopeBp := by
  obtain ⟨-, rfl⟩ := push_ok h
  cases e <;> first | rfl | cases he

theorem scopeBp_cons {rest : List Entry} (he : e.inner = true) (ht : t.stack = e :: rest) {n : Nat} :
    ({ t with sp := n, stack := rest } : Symtab).scopeBp = t.scopeBp := by
  unfold scopeBp
  rw [ht]
  cases e <;> first | rfl | cases he

end Symtab

/-! ## Writing code -/

/-- The memory with `bs` at `a`. -/
def write (code : Nat → Byte) : Nat → List Byte → (Nat → Byte)
  | _, [] => code
  | a, b :: bs => write (Function.update code a b) (a + 1) bs

theorem write_of_le {code : Nat → Byte} {a x : Nat} (bs : List Byte) (h : a + bs.length ≤ x) :
    write code a bs x = code x := by
  induction bs generalizing code a with
  | nil => rfl
  | cons b bs ih =>
    rw [length_cons] at h
    rw [write, ih (by omega), update_of_ne (by omega)]

theorem write_of_lt {code : Nat → Byte} {a x : Nat} (bs : List Byte) (h : x < a) :
    write code a bs x = code x := by
  induction bs generalizing code a with
  | nil => rfl
  | cons b bs ih =>
    rw [write, ih (by omega), update_of_ne (by omega)]

theorem stores_write (code : Nat → Byte) (a : Nat) (bs : List Byte) :
    Stores (write code a bs) a bs := by
  induction bs generalizing code a with
  | nil =>
    intro k b hk
    simp at hk
  | cons b bs ih =>
    intro k c hk
    cases k with
    | zero =>
      obtain rfl : b = c := by simpa using hk
      rw [write, write_of_lt bs (by omega)]
      exact update_self _ _ _
    | succ k =>
      rw [write, show a + (k + 1) = a + 1 + k by omega]
      exact ih _ _ k c (by simpa using hk)

namespace Sdt

theorem emits_eq :
    m.emits bs = { m with code := write m.code m.pc bs, pc := m.pc + bs.length } := by
  induction bs generalizing m with
  | nil => rfl
  | cons b bs ih =>
    rw [show m.emits (b :: bs) = (m.emit b).emits bs from rfl, ih]
    simp only [emit, write, length_cons, Nat.add_assoc, Nat.add_comm 1]

theorem emit_eq {b : Byte} : m.emit b = m.emits [b] := rfl

theorem save_eq {E : Env} : m.save E = { m with spc := if E.opt then m.pc else m.spc } := by
  unfold save
  split <;> rfl

/-- Only the estimate of the target's stack differs. -/
def Est (m m' : Sdt) : Prop :=
  m' = { m with stackPos := m'.stackPos, tab := { m.tab with stackSz := m'.tab.stackSz } }

theorem est_push : m.Est m.tgtStackPush := rfl

theorem est_pop (h : m.tgtStackPop = .ok m') : m.Est m' := by
  unfold tgtStackPop at h
  split at h
  · cases h
  · cases h
    rfl

theorem est_adjust (h : m.tgtStackAdjust n = .ok m') : m.Est m' := by
  unfold tgtStackAdjust at h
  obtain ⟨-, h⟩ := ok_of_guard h
  cases h
  rfl

end Sdt

/-! ## What is known at compile time -/

/-- The translator's state `m` is described by `S`. -/
structure Knows (S : Static) (m : Sdt) : Prop where
  full : m.tab.Full
  objs : m.tab.objs = S.objs
  bp : m.tab.bp = S.bp
  base : m.tab.scopeBp = S.base
  pos : m.dataPos = S.dataPos
  strs : m.strs = S.strs
  lt : ∀ o ∈ S.objs, o.pos < S.bp

/-- Two states that differ in their code and in the estimate of the stack only. -/
structure Alike (m m' : Sdt) : Prop where
  tab : m'.tab = { m.tab with stackSz := m'.tab.stackSz }
  pos : m'.dataPos = m.dataPos
  strs : m'.strs = m.strs

namespace Knows

variable {S : Static}

theorem alike (h : Knows S m) (ha : Alike m m') : Knows S m' := by
  have htab := ha.tab
  constructor
  · rw [htab]
    exact h.full
  · rw [htab]
    exact h.objs
  · rw [htab]
    exact h.bp
  · rw [htab]
    exact h.base
  · exact ha.pos.trans h.pos
  · exact ha.strs.trans h.strs
  · exact h.lt

theorem congr {S' : Static} (h : Knows S m)
    (hS : S' = { S with saved := S'.saved, safe := S'.safe }) : Knows S' m := by
  rw [hS]
  exact { h with }

theorem plain (h : Knows S m) : Knows S.plain m := h.congr rfl

end Knows

/-- `S'` has the objects of `S` and newer ones of the same scope. -/
structure Static.Grows (S S' : Static) : Prop where
  objs : ∃ new, S'.objs = new ++ S.objs ∧ ∀ o ∈ new, S.bp ≤ o.pos
  bp : S.bp ≤ S'.bp
  base : S'.base = S.base

namespace Static.Grows

variable {S S1 S' : Static}

theorem refl (S : Static) : S.Grows S := ⟨⟨[], rfl, by simp⟩, le_rfl, rfl⟩

theorem trans (h : S.Grows S1) (h' : S1.Grows S') : S.Grows S' := by
  obtain ⟨new, hn, hp⟩ := h.objs
  obtain ⟨new', hn', hp'⟩ := h'.objs
  refine ⟨⟨new' ++ new, ?_, ?_⟩, h.bp.trans h'.bp, h'.base.trans h.base⟩
  · rw [hn', hn, append_assoc]
  · intro o ho
    rcases mem_append.mp ho with ho | ho
    · exact h.bp.trans (hp' o ho)
    · exact hp o ho

end Static.Grows

/-- What the optimizing compiler finds at its saved position: the literal of `S.saved`, the last
instruction if it is marked so, or no constant. -/
def Saved (E : Env) (S : Static) (m : Sdt) : Prop :=
  E.opt = true →
    match S.saved with
    | none => m.spc < m.pc ∧ Sdt.isConstant m.code m.spc = none
    | some (c, k, fresh) =>
      Stores m.code m.spc (litBytes true c k) ∧ m.spc + (litBytes true c k).length ≤ m.pc ∧
        (fresh = true → m.spc + (litBytes true c k).length = m.pc)

/-! ## Emitted code -/

/-- From `m` to `m'` the items `is` were stored. -/
structure Emits (E : Env) (m m' : Sdt) (is : List Item) : Prop where
  pc : m'.pc = m.pc + (format E.opt).length is
  keep : ∀ a < m.pc, m'.code a = m.code a
  holds : (format E.opt).Holds m'.code m.pc is
  above : is.all Item.plain = true → ∀ a, m'.pc ≤ a → m'.code a = m.code a

theorem Emits.trans {E : Env} {m1 : Sdt} {a b : List Item} (h : Emits E m m1 a)
    (h' : Emits E m1 m' b) : Emits E m m' (a ++ b) := by
  refine ⟨?_, fun x hx => ?_, Format.holds_append (h.holds.congr fun x h1 h2 => ?_) ?_,
    fun hp x hx => ?_⟩
  · rw [h'.pc, h.pc, Format.length_append, Nat.add_assoc]
  · rw [h'.keep x (by rw [h.pc]; omega), h.keep x hx]
  · exact h'.keep x (by rw [h.pc]; omega)
  · rw [← h.pc]
    exact h'.holds
  · rw [all_append, Bool.and_eq_true] at hp
    rw [h'.above hp.2 x hx, h.above hp.1 x (by rw [h'.pc] at hx; omega)]

/-- The code's part of a translation step: the items, what the optimizer finds at its saved position,
and that this position is the old one or a new one. -/
structure Coded (E : Env) (S' : Static) (m m' : Sdt) (is : List Item) : Prop where
  emits : Emits E m m' is
  saved : Saved E S' m'
  spc : E.opt = true → m'.spc = m.spc ∨ m.pc ≤ m'.spc

/-- **A part of the translation.**  It leads from what `S` says to what `S'` says, and stores `is` if
the optimizer's shortcuts were taken for the last instruction. -/
structure Emitted (E : Env) (S S' : Static) (m m' : Sdt) (is : List Item) : Prop where
  know : Knows S' m'
  grows : S.Grows S'
  safe : S'.safe = true → S.safe = true
  code : (E.opt = true → S'.safe = true) → Saved E S m → Coded E S' m m' is

section
variable {E : Env} {S S1 S' : Static} {m1 : Sdt} {a b is : List Item} {c : Const} {it : Item}

theorem Emitted.trans (h : Emitted E S S1 m m1 a) (h' : Emitted E S1 S' m1 m' b) :
    Emitted E S S' m m' (a ++ b) := by
  refine ⟨h'.know, h.grows.trans h'.grows, fun hs => h.safe (h'.safe hs), fun hs hsv => ?_⟩
  obtain ⟨he, hsv, hspc⟩ := h.code (fun ho => h'.safe (hs ho)) hsv
  obtain ⟨he', hsv', hspc'⟩ := h'.code hs hsv
  refine ⟨he.trans he', hsv', fun ho => ?_⟩
  have hpc := he.pc
  rcases hspc' ho with h2 | h2
  · rw [h2]
    exact hspc ho
  · exact .inr (by omega)

theorem Emitted.silent (hK : Knows S m') (hcode : m'.code = m.code) (hpc : m'.pc = m.pc)
    (hspc : m'.spc = m.spc) : Emitted E S S m m' [] := by
  refine ⟨hK, .refl S, id, fun _ hsv => ⟨⟨by simp [hpc], fun a _ => by rw [hcode],
    Format.holds_nil, fun _ a _ => by rw [hcode]⟩, ?_, fun _ => .inl hspc⟩⟩
  unfold Saved at *
  rw [hcode, hpc, hspc]
  exact hsv

theorem Emits.of_item (hj : it.jump = none) (hpc : m'.pc = m.pc + (it.bytes E.opt m.pc 0).length)
    (hkeep : ∀ a < m.pc, m'.code a = m.code a) (hst : Stores m'.code m.pc (it.bytes E.opt m.pc 0))
    (habove : it.plain = true → ∀ a, m'.pc ≤ a → m'.code a = m.code a) : Emits E m m' [it] := by
  refine ⟨?_, hkeep, every_singleton (Format.placed_plain hj hst), fun hp => habove (by simpa using hp)⟩
  rw [hpc, show (it.bytes E.opt m.pc 0).length = (format E.opt).size it from
    (format E.opt).length_bytes it m.pc 0]
  simp

theorem emits_item (hj : it.jump = none)
    (hcode : m'.code = write m.code m.pc (it.bytes E.opt m.pc 0))
    (hpc : m'.pc = m.pc + (it.bytes E.opt m.pc 0).length) : Emits E m m' [it] := by
  refine .of_item hj hpc (fun a ha => ?_) ?_ fun _ a ha => ?_
  · rw [hcode, write_of_lt _ ha]
  · rw [hcode]
    exact stores_write _ _ _
  · rw [hcode, write_of_le _ (hpc ▸ ha)]

theorem saved_instr {b : Byte} {p : Nat} (hS : S.saved = none) (hcode : Stores m.code p (b :: bs))
    (hpc : p < m.pc) (hspc : E.opt = true → m.spc = p) (hb : constOpc b = false) : Saved E S m := by
  intro ho
  rw [hS]
  show m.spc < m.pc ∧ _
  rw [isConstant_eq_none_iff, hspc ho, show m.code p = b from hcode 0 b rfl]
  exact ⟨hpc, hb⟩

/-- What is before the end of the code stays there. -/
theorem Saved.past (hsv : Saved E S m) (hle : m.pc ≤ m'.pc) (hspc : m'.spc = m.spc)
    (hkeep : ∀ a < m.pc, m'.code a = m.code a) : Saved E S.past m' := by
  intro ho
  have hsv := hsv ho
  unfold Static.past
  dsimp only
  split at hsv
  · rename_i hs
    rw [hs]
    show m'.spc < m'.pc ∧ _
    obtain ⟨hlt, hn⟩ := hsv
    rw [isConstant_eq_none_iff] at hn ⊢
    rw [hspc, hkeep _ hlt]
    exact ⟨by omega, hn⟩
  · rename_i c k fresh hs
    rw [hs]
    obtain ⟨hst, hlen, -⟩ := hsv
    show Stores _ _ (litBytes true c k) ∧ _ + (litBytes true c k).length ≤ _ ∧ (false = true → _)
    refine ⟨?_, by omega, fun h => by cases h⟩
    rw [hspc]
    exact hst.congr fun x _ h2 => hkeep x (by omega)

/-! ## Actions -/

theorem act_ok {x : Action} {k : Token} (h : m.act E x k = .ok m') : Sdt.op E x k m = .ok m' := by
  unfold Sdt.act at h
  split at h
  · cases h
  · rename_i m1 hop
    split at h
    · cases h
    · cases h
      exact hop

theorem knows_push (hK : Knows S m) (he : e.inner = true) (h : m.symPush e = .ok m') :
    Knows S m' ∧ m'.tab.core = m.tab.core.push e ∧ m'.code = m.code ∧ m'.pc = m.pc ∧
      m'.spc = m.spc := by
  obtain ⟨t, ht, rfl⟩ := exists_of_map_ok h
  have hsc := Symtab.scopeBp_push he ht
  have hf := hK.full.push ht
  obtain ⟨-, rfl⟩ := Symtab.push_ok ht
  exact ⟨{ hK with full := hf, base := hsc.trans hK.base }, rfl, rfl, rfl, rfl⟩

theorem Emitted.push (h1 : Emitted E S S1 m m1 is) (he : e.inner = true) (h : m1.symPush e = .ok m') :
    Emitted E S S1 m m' is ∧ m'.tab.core = m1.tab.core.push e := by
  obtain ⟨hK, hc, hcode, hpc, hspc⟩ := knows_push h1.know he h
  exact ⟨append_nil is ▸ h1.trans (.silent hK hcode hpc hspc), hc⟩

theorem knows_pop {β : Type} {kind : Entry → Option α} {g : α × Symtab → Except Err β} {b : β} {x : α}
    {c : Symtab.Core} (hK : Knows S m) (hc : m.tab.core = c.push e) (he : e.inner = true)
    (h : (m.tab.popAs kind >>= g) = .ok b) (hx : kind e = some x) :
    ∃ t, (m.withTab t).tab.core = c ∧ Knows S (m.withTab t) ∧ g (x, t) = .ok b := by
  obtain ⟨⟨x', t⟩, hp, h⟩ := exists_of_bind_ok h
  obtain ⟨e', rest, hst, hk, rfl⟩ := Symtab.popAs_ok hp
  have hst' : m.tab.stack = e :: c.stack := congrArg Symtab.Core.stack hc
  obtain ⟨rfl, rfl⟩ := List.cons.inj (hst.symm.trans hst')
  have hfp : m.tab.fp = c.fp := congrArg Symtab.Core.fp hc
  have htop : m.tab.top = c.top := congrArg Symtab.Core.top hc
  rw [hk, Option.some.injEq] at hx
  refine ⟨_, by simp [Symtab.core, Sdt.withTab, hfp, htop], ?_, hx ▸ h⟩
  refine { hK with full := ?_, base := (Symtab.scopeBp_cons he hst).trans hK.base }
  have hf := hK.full
  unfold Symtab.Full at *
  rw [hst, map_cons, sum_cons] at hf
  simp only [Sdt.withTab]
  omega

theorem Sdt.Est.core (h : m.Est m') : m'.tab.core = m.tab.core := by
  rw [h]
  rfl

section
variable {m0 : Sdt}

/-- Bytes at the end of the code, from a state `m0` that differs from `m` in the symbol table. -/
theorem Sdt.Est.stored (hm : ((m0.save E).emits bs).Est m') (hcode : m0.code = m.code)
    (hpc : m0.pc = m.pc) : Alike m0 m' ∧ m'.code = write m.code m.pc bs ∧ m'.pc = m.pc + bs.length ∧
      (E.opt = true → m'.spc = m.pc) := by
  rw [Sdt.save_eq, Sdt.emits_eq] at hm
  rw [hm, ← hcode, ← hpc]
  exact ⟨⟨rfl, rfl, rfl⟩, rfl, rfl, fun ho => if_pos ho⟩

variable (hK : Knows S m0) (hcode : m0.code = m.code) (hpc : m0.pc = m.pc)
include hK hcode hpc

theorem Emitted.instr (hm : ((m0.save E).emits (it.bytes E.opt m.pc 0)).Est m') (hj : it.jump = none)
    (hn : ∃ b bs, it.bytes E.opt m.pc 0 = b :: bs ∧ constOpc b = false) :
    Emitted E S S.plain m m' [it] := by
  obtain ⟨ha, hcode, hpc, hspc⟩ := hm.stored hcode hpc
  refine ⟨(hK.alike ha).congr rfl, ⟨⟨[], rfl, by simp⟩, le_rfl, rfl⟩, id, fun _ _ =>
    ⟨emits_item hj hcode hpc, ?_, fun ho => .inr (hspc ho).ge⟩⟩
  obtain ⟨b, bs, hb, hn⟩ := hn
  rw [hb] at hcode hpc
  have hst : Stores m'.code m.pc (b :: bs) := by
    rw [hcode]
    exact stores_write _ _ _
  exact saved_instr rfl hst (by rw [hpc]; simp) hspc hn

theorem Emitted.constInstr (hm : ((m0.save E).emits c.bytes).Est m') :
    Emitted E S (S.const c 0) m m' [.lit c 0] := by
  have hb : ∀ opt, litBytes opt c 0 = c.bytes := fun opt => by simp [litBytes]
  obtain ⟨ha, hcode, hpc, hspc⟩ := hm.stored hcode hpc
  rw [← hb E.opt] at hcode hpc
  refine ⟨(hK.alike ha).congr rfl, ⟨⟨[], rfl, by simp⟩, le_rfl, rfl⟩, id, fun _ _ =>
    ⟨emits_item rfl hcode hpc, fun ho => ?_, fun ho => .inr (hspc ho).ge⟩⟩
  rw [ho] at hcode hpc
  show Stores _ _ (litBytes true c 0) ∧ _ + (litBytes true c 0).length ≤ _ ∧
    (true = true → _ + (litBytes true c 0).length = _)
  rw [hspc ho, hpc, hcode]
  exact ⟨stores_write _ _ _, le_rfl, fun _ => rfl⟩

theorem Emitted.pastInstr (hspc : m0.spc = m.spc)
    (hm : (m0.emits (it.bytes E.opt m.pc 0)).Est m') (hj : it.jump = none) :
    Emitted E S S.past m m' [it] := by
  rw [Sdt.emits_eq] at hm
  have ha : Alike m0 m' ∧ m'.spc = m.spc ∧ Emits E m m' [it] := by
    refine ⟨?_, by rw [hm, ← hspc], emits_item hj (by rw [hm, ← hcode, ← hpc]) (by rw [hm, ← hpc])⟩
    rw [hm]
    exact ⟨rfl, rfl, rfl⟩
  obtain ⟨ha, hspc, he⟩ := ha
  exact ⟨(hK.alike ha).congr rfl, ⟨⟨[], rfl, by simp⟩, le_rfl, rfl⟩, id, fun _ hsv =>
    ⟨he, hsv.past (by rw [he.pc]; omega) hspc he.keep, fun _ => .inl hspc⟩⟩

end

theorem core_emits : (m.emits bs).tab = m.tab := by rw [Sdt.emits_eq]

theorem core_save : (m.save E).tab = m.tab := by rw [Sdt.save_eq]

theorem Const.bytes_idx {n : Nat} : Const.bytes (.idx n) =
    if (n : Int) < 4 then [OPC_I4 + BitVec.ofInt 8 n] else [OPC_I8, BitVec.ofInt 8 n] := by
  unfold Const.bytes
  simp only [Nat.cast_lt_ofNat, BitVec.ofInt_natCast]

section
variable (hK : Knows S m)
include hK

theorem emitted_pushTmp (h : Action.opPushTmp.on E s m = .ok m') :
    Emitted E S S m m' [] ∧ m'.tab.core = m.tab.core.push (.tmp s) :=
  (Emitted.silent hK rfl rfl rfl).push rfl (act_ok h)

theorem lookup_eq : S.lookup s = (m.tab.objLookup s).map Obj.addr := by
  unfold Static.lookup Symtab.objLookup
  rw [hK.objs]

theorem emitted_varEval {c : Symtab.Core} (hc : m.tab.core = c.push (.tmp s))
    (h : Action.opVarEval.run E m = .ok m') :
    ∃ a, S.lookup s = some a ∧ Emitted E S S.plain m m' [.ld a] ∧ m'.tab.core = c := by
  obtain ⟨t, hc', hK', h⟩ := knows_pop hK hc rfl (act_ok h) rfl
  dsimp only at h
  split at h
  · cases h
  · rename_i o ho
    cases h
    refine ⟨o.addr, ?_, ?_, ?_⟩
    · rw [lookup_eq hK']
      exact congrArg _ ho
    · exact .instr hK' rfl rfl Sdt.est_push rfl ⟨_, _, rfl, constOpc_operand (by decide)⟩
    · exact (Sdt.est_push.core).trans (by rw [core_emits, core_save]; exact hc')

theorem emitted_varAssign {c : Symtab.Core} (hc : m.tab.core = c.push (.tmp s))
    (h : Action.opVarAssign.run E m = .ok m') :
    ∃ a, S.lookup s = some a ∧ Emitted E S S.plain m m' [.st a] ∧ m'.tab.core = c := by
  obtain ⟨t, hc', hK', h⟩ := knows_pop hK hc rfl (act_ok h) rfl
  dsimp only at h
  split at h
  · cases h
  · rename_i o ho
    have he := Sdt.est_pop h
    refine ⟨o.addr, ?_, ?_, ?_⟩
    · rw [lookup_eq hK']
      exact congrArg _ ho
    · exact .instr hK' rfl rfl he rfl ⟨_, _, rfl, constOpc_operand (by decide)⟩
    · rw [he.core, core_emits, core_save]
      exact hc'

/-! ### Constants -/

theorem emitted_pushInt {k : Token} (h : m.act E .opPushInt k = .ok m') :
    Emitted E S (S.const (.int k.u32) 0) m m' [.lit (.int k.u32) 0] ∧ m'.tab.core = m.tab.core := by
  have h : Except.ok (m.encodeInt E k.u32).tgtStackPush = Except.ok m' := act_ok h
  cases h
  refine ⟨.constInstr hK rfl rfl Sdt.est_push, ?_⟩
  rw [Sdt.est_push.core, Sdt.encodeInt, core_emits, core_save]

theorem emitted_pushBool {b : Bool} (h : m.opPushBool E b = .ok m') :
    Emitted E S (S.const (.int (if b then 1 else 0)) 0) m m' [.lit (.int (if b then 1 else 0)) 0] ∧
      m'.tab.core = m.tab.core := by
  have hb : Const.bytes (.int (if b then 1 else 0)) = [OPC_I4 + if b then 1 else 0] := by
    cases b <;> rfl
  cases h
  refine ⟨.constInstr hK rfl rfl ?_, ?_⟩
  · rw [hb]
    exact Sdt.est_push
  · rw [Sdt.est_push.core, Sdt.emit_eq, core_emits, core_save]

theorem emitted_pushString {k : Token} (h : m.act E .opPushString k = .ok m') :
    0 ≤ E.cstrAdd S.strs k.s ∧
      Emitted E S ({ S with strs := S.strs ++ [k.s] }.const (.idx (E.cstrAdd S.strs k.s).toNat) 0) m m'
        [.lit (.idx (E.cstrAdd S.strs k.s).toNat) 0] ∧ m'.tab.core = m.tab.core := by
  have h : m.opPushString E k = .ok m' := act_ok h
  unfold Sdt.opPushString at h
  rw [hK.strs] at h
  obtain ⟨hn, h⟩ := ok_of_guard h
  obtain ⟨n, hn'⟩ := Int.eq_ofNat_of_zero_le (not_lt.mp hn)
  rw [hn'] at h ⊢
  cases h
  have hK' : Knows { S with strs := S.strs ++ [k.s] } { m with strs := S.strs ++ [k.s] } :=
    { hK with strs := rfl }
  refine ⟨by omega, ?_, ?_⟩
  · have he : Emitted E { S with strs := S.strs ++ [k.s] } _ m _ [.lit (.idx n) 0] :=
      .constInstr hK' rfl rfl Sdt.est_push
    rw [Const.bytes_idx] at he
    exact ⟨he.know, { he.grows with }, he.safe, he.code⟩
  · rw [Sdt.est_push.core, core_emits, core_save]

end

/-! ### Operators -/

theorem bin_ok (h : o.action.run E m = .ok m') :
    (∃ f, o.fuse = some f ∧ m.constIs E f.operand = true ∧ (m.rollback.emit f.opc).Est m') ∨
      ((∀ f, o.fuse = some f → m.constIs E f.operand = false) ∧
        ((m.save E).emit o.intOp.opc).Est m') := by
  have h := act_ok h
  have hfuse : ∀ f : Fuse, o.fuse = some f → (if m.constIs E f.operand then
      .ok (m.rollback.emit f.opc) else m.opBin E o.intOp) = Except.ok m' ∨
      (if m.constIs E f.operand then (m.rollback.emit f.opc).tgtStackPop else m.opBin E o.intOp) =
        .ok m' := by
    intro f hf
    cases o <;> cases hf
    · exact .inl h
    · exact .inr h
    · exact .inr h
  have hplain : o.fuse = none → m.opBin E o.intOp = .ok m' := by
    intro hf
    cases o <;> first | exact h | cases hf
  cases hf : o.fuse with
  | none => exact .inr ⟨by simp, Sdt.est_pop (hplain hf)⟩
  | some f =>
    cases hc : m.constIs E f.operand with
    | true =>
      refine .inl ⟨f, rfl, hc, ?_⟩
      rcases hfuse f hf with h | h
      · rw [if_pos hc] at h
        cases h
        rfl
      · rw [if_pos hc] at h
        exact Sdt.est_pop h
    | false =>
      refine .inr ⟨fun g hg => by cases hg; exact hc, ?_⟩
      rcases hfuse f hf with h | h <;>
      · rw [if_neg (by simp [hc])] at h
        exact Sdt.est_pop h

theorem Saved.isConstant (hsv : Saved E S m) (ho : E.opt = true) :
    Sdt.isConstant m.code m.spc = S.saved.map fun p => negs p.2.1 p.1.value := by
  have hsv := hsv ho
  split at hsv
  · rename_i hs
    rw [hs]
    exact hsv.2
  · rename_i c k fresh hs
    rw [hs]
    exact isConstant_of_pushes pushes_litBytes hsv.1

theorem constIs_iff :
    m.constIs E v = true ↔ E.opt = true ∧ Sdt.isConstant m.code m.spc = some v := by
  simp [Sdt.constIs]

/-- The literal at the saved position is the last instruction exactly when it is all there is. -/
def Tails (is : List Item) (S : Static) : Prop :=
  ∀ c k, S.saved = some (c, k, true) ↔ is = [.lit c k]

theorem Emits.stores (h : Emits E m m' [it]) (hj : it.jump = none) :
    Stores m'.code m.pc (it.bytes E.opt m.pc 0) := by
  have hp := (Every.item (x := []) (y := []) h.holds)
  unfold Format.Placed at hp
  rw [show (format E.opt).jump it = none from hj] at hp
  exact hp

theorem Emits.extend {it' : Item} {b : Byte} (h : Emits E m m1 [it]) (hj : it.jump = none)
    (hj' : it'.jump = none ∧ it'.plain = false) (hb : it'.bytes E.opt m.pc 0 = it.bytes E.opt m.pc 0 ++ [b])
    (hcode : m'.code = write m1.code m1.pc [b]) (hpc : m'.pc = m1.pc + 1) : Emits E m m' [it'] := by
  have hpc1 : m1.pc = m.pc + (it.bytes E.opt m.pc 0).length := by
    rw [h.pc, show (it.bytes E.opt m.pc 0).length = (format E.opt).size it from
      (format E.opt).length_bytes it m.pc 0]
    simp
  refine .of_item hj'.1 ?_ (fun a ha => ?_) ?_ fun hp => by rw [hj'.2] at hp; cases hp
  · rw [hpc, hpc1, hb, length_append]
    rfl
  · rw [hcode, write_of_lt _ (by omega), h.keep a ha]
  · rw [hb, hcode]
    refine stores_append ((h.stores hj).congr fun x _ hx => write_of_lt _ (by omega)) ?_
    rw [← hpc1]
    exact stores_write _ _ _

/-- The shortcut of the optimizing compiler, for a literal that is the last instruction. -/
theorem emits_fold (ho : E.opt = true) (h : Emits E m m1 [.lit c k])
    (hlen : m1.spc + (litBytes true c k).length = m1.pc) (hj : it.jump = none ∧ it.plain = false)
    (hcode : m'.code = write m1.code m1.spc (it.bytes E.opt m.pc 0))
    (hpc : m'.pc = m1.spc + (it.bytes E.opt m.pc 0).length) :
    m1.spc = m.pc ∧ Emits E m m' [it] := by
  have hspc : m1.spc = m.pc := by
    have hp := h.pc
    rw [show (format E.opt).length [.lit c k] = (litBytes true c k).length by
      simp [format, Item.bytes, ho]] at hp
    omega
  rw [hspc] at hcode hpc
  refine ⟨hspc, .of_item hj.1 hpc (fun a ha => ?_) ?_ fun hp => by rw [hj.2] at hp; cases hp⟩
  · rw [hcode, write_of_lt _ ha, h.keep a ha]
  · rw [hcode]
    exact stores_write _ _ _

theorem safe_check {f : Word → Bool} (h : (S.check f).safe = true) :
    S.safe = true ∧ ∀ c k fresh, S.saved = some (c, k, fresh) → f (negs k c.value) = true →
      fresh = true := by
  simp only [Static.check, Bool.and_eq_true] at h
  refine ⟨h.1, fun c k fresh hs hf => ?_⟩
  have h2 := h.2
  rw [hs] at h2
  simpa [hf] using h2

/-- A binary operation's items are its shortcut's or the operands' and the instruction's. -/
theorem binItems_cases (o : BinOp) (l r : List Item) :
    (∃ f c k, o.fuse = some f ∧ r = [.lit c k] ∧ negs k c.value = f.operand ∧
      binItems o l r = l ++ [.fuse f c k]) ∨ binItems o l r = l ++ r ++ [.bin o.intOp] := by
  unfold binItems
  split
  · rename_i f c k hf
    split
    · rename_i hv
      exact .inl ⟨f, c, k, hf, rfl, hv, rfl⟩
    · exact .inr rfl
  · exact .inr rfl

theorem binItems_fuse (hf : o.fuse = some f) (hv : negs k c.value = f.operand) {l : List Item} :
    binItems o l [.lit c k] = l ++ [.fuse f c k] := by
  simp [binItems, hf, hv]

/-- Where a safe shortcut is taken, the operand is one literal, the last instruction. -/
theorem lit_of_fold {g : Word → Bool} (ho : E.opt = true) (hsv : Saved E S m) (ht : Tails is S)
    (hs : (S.check g).safe = true) (hcv : Sdt.isConstant m.code m.spc = some v) (hg : g v = true) :
    ∃ c k, is = [.lit c k] ∧ negs k c.value = v ∧ m.spc + (litBytes true c k).length = m.pc := by
  rw [hsv.isConstant ho] at hcv
  obtain ⟨⟨c, k, fresh⟩, hsaved, hv⟩ := Option.map_eq_some_iff.mp hcv
  have hfresh : fresh = true := (safe_check hs).2 c k fresh hsaved (by rw [hv]; exact hg)
  subst hfresh
  have hlen := hsv ho
  rw [hsaved] at hlen
  exact ⟨c, k, (ht c k).mp hsaved, hv, hlen.2.2 rfl⟩

theorem emits_bin_fold (ho : E.opt = true) (h : Emits E m m1 [.lit c k])
    (hlen : m1.spc + (litBytes true c k).length = m1.pc) (he : (m1.rollback.emit f.opc).Est m')
    (hS : S'.saved = none) : Coded E S' m m' [.fuse f c k] := by
  rw [Sdt.emit_eq, Sdt.emits_eq] at he
  have hb : (Item.fuse f c k).bytes E.opt m.pc 0 = [f.opc] := by simp [Item.bytes, ho]
  have hf : m1.spc = m.pc ∧ Emits E m m' [.fuse f c k] :=
    emits_fold ho h hlen ⟨rfl, rfl⟩ (by rw [hb, he]; rfl) (by rw [hb, he]; rfl)
  have hspc : m'.spc = m.pc := by
    rw [he]
    exact hf.1
  refine ⟨hf.2, ?_, fun _ => .inr hspc.ge⟩
  have hst : Stores m'.code m.pc [f.opc] := by
    rw [← hb]
    exact hf.2.stores rfl
  refine saved_instr hS hst ?_ (fun _ => hspc) (by cases f <;> rfl)
  rw [he]
  show m.pc < m1.spc + 1
  omega

/-- **A binary operation**, after its operands. -/
theorem emitted_bin {S2 : Static} {il ir : List Item} (hl : Emitted E S S1 m m1 il)
    (hr : Emitted E S1 S2 m1 m2 ir) (ht : Tails ir S2) (h : o.action.run E m2 = .ok m') :
    Emitted E S (S2.check o.folds).plain m m' (binItems o il ir) ∧ m'.tab.core = m2.tab.core := by
  have hK : Alike m2 m' ∧ m'.tab.core = m2.tab.core := by
    rcases bin_ok h with ⟨f, -, -, he⟩ | ⟨-, he⟩
    · rw [Sdt.emit_eq, Sdt.emits_eq] at he
      rw [he]
      exact ⟨⟨rfl, rfl, rfl⟩, rfl⟩
    · rw [Sdt.emit_eq, Sdt.save_eq, Sdt.emits_eq] at he
      rw [he]
      exact ⟨⟨rfl, rfl, rfl⟩, rfl⟩
  refine ⟨⟨(hr.know.alike hK.1).congr rfl, ?_, fun hs => ?_, fun hs hsv => ?_⟩, hK.2⟩
  · obtain ⟨hobjs, hbp, hbase⟩ := hl.grows.trans hr.grows
    exact ⟨hobjs, hbp, hbase⟩
  · exact hl.safe (hr.safe (safe_check hs).1)
  have hs2 : E.opt = true → S2.safe = true := fun ho => (safe_check (hs ho)).1
  obtain ⟨hel, hsv1, -⟩ := hl.code (fun ho => hr.safe (hs2 ho)) hsv
  obtain ⟨her, hsv2, -⟩ := hr.code hs2 hsv1
  have hle1 := hel.pc
  have hle2 := her.pc
  rcases bin_ok h with ⟨f, hf, hcon, he⟩ | ⟨hcon, he⟩
  · obtain ⟨ho, hcv⟩ := constIs_iff.mp hcon
    obtain ⟨c, k, rfl, hv, hlen⟩ := lit_of_fold ho hsv2 ht (hs ho) hcv (by simp [BinOp.folds, hf])
    have hfold : Coded E (S2.check o.folds).plain m1 m' [.fuse f c k] :=
      emits_bin_fold ho her hlen he rfl
    have hspc : m'.spc = m1.pc := by
      have := her.pc
      rw [show (format E.opt).length [.lit c k] = (litBytes true c k).length by
        simp [format, Item.bytes, ho]] at this
      rw [Sdt.emit_eq, Sdt.emits_eq] at he
      rw [he]
      show m2.spc = m1.pc
      omega
    rw [binItems_fuse hf hv]
    exact ⟨hel.trans hfold.emits, hfold.saved, fun _ => .inr (by omega)⟩
  · rw [Sdt.emit_eq] at he
    obtain ⟨-, hcode, hpc, hspc⟩ := he.stored rfl rfl
    refine ⟨?_, ?_, fun ho => .inr (by have := hspc ho; omega)⟩
    · rcases binItems_cases o il ir with ⟨f, c, k, hf, rfl, hv, hi⟩ | hi
      · rw [hi]
        cases ho : E.opt with
        | true =>
          -- the optimizer would have seen the literal
          have hcv := hsv2.isConstant ho
          rw [(ht c k).mpr rfl] at hcv
          have := constIs_iff.mpr ⟨ho, hcv.trans (congrArg some hv)⟩
          rw [hcon f hf] at this
          cases this
        | false =>
          have hop : o.intOp = f.intOp := by cases o <;> cases hf <;> rfl
          refine hel.trans (her.extend rfl ⟨rfl, rfl⟩ ?_ hcode hpc)
          simp [Item.bytes, ho, hop]
      · rw [hi]
        exact (hel.trans her).trans (emits_item rfl hcode hpc)
    · have hst : Stores m'.code m2.pc [o.intOp.opc] := by
        rw [hcode]
        exact stores_write _ _ _
      exact saved_instr rfl hst (by rw [hpc]; simp) hspc (by cases o <;> rfl)

theorem negs_succ : negs (k + 1) v = -negs k v := by
  unfold negs
  by_cases hk : k % 2 = 0
  · rw [if_neg (by omega), if_pos hk]
  · rw [if_pos (by omega), if_neg hk, BitVec.neg_neg]

theorem minus_ok (h : Action.opMinus.run E m = .ok m') :
    (∃ v, E.opt = true ∧ Sdt.isConstant m.code m.spc = some v ∧ m' = m.rollback.encodeInt E (-v)) ∨
      ((E.opt = true → Sdt.isConstant m.code m.spc = none) ∧ m' = (m.save E).emit OPC_NEG) := by
  have h : m.opMinus E = .ok m' := act_ok h
  unfold Sdt.opMinus at h
  split at h
  · rename_i v ho hv
    exact .inl ⟨v, ho, hv, (Except.ok.inj h).symm⟩
  · rename_i hn
    refine .inr ⟨fun ho => ?_, (Except.ok.inj h).symm⟩
    cases hv : Sdt.isConstant m.code m.spc with
    | none => rfl
    | some v => exact absurd hv (hn v ho)

theorem unItems_minus (is : List Item) (S : Static) : (∃ c k, is = [.lit c k] ∧
      unItems .minus is S = ([.lit c (k + 1)], (S.check fun _ => true).const c (k + 1))) ∨
      ((∀ c k, is ≠ [.lit c k]) ∧
        unItems .minus is S = (is ++ [.un .minus], (S.check fun _ => true).plain)) := by
  by_cases h : ∃ c k, is = [.lit c k]
  · obtain ⟨c, k, rfl⟩ := h
    exact .inl ⟨c, k, rfl, rfl⟩
  · have hne : ∀ c k, is ≠ [.lit c k] := fun c k hc => h ⟨c, k, hc⟩
    refine .inr ⟨hne, ?_⟩
    unfold unItems
    split
    · exact absurd rfl (hne _ _)
    · rfl
    · contradiction

theorem emits_minus_fold (ho : E.opt = true) (h : Emits E m m1 [.lit c k])
    (hlen : m1.spc + (litBytes true c k).length = m1.pc)
    (he : m' = m1.rollback.encodeInt E (-negs k c.value)) (hS : S'.saved = some (c, k + 1, true)) :
    Coded E S' m m' [.lit c (k + 1)] := by
  have hb : litBytes true c (k + 1) = Sdt.intBytes (-negs k c.value) := by
    simp [litBytes, negs_succ]
  have hb' : (Item.lit c (k + 1)).bytes E.opt m.pc 0 = litBytes true c (k + 1) := by
    simp [Item.bytes, ho]
  rw [Sdt.encodeInt, ← hb, Sdt.save_eq, Sdt.emits_eq] at he
  have hf : m1.spc = m.pc ∧ Emits E m m' [.lit c (k + 1)] :=
    emits_fold ho h hlen ⟨rfl, rfl⟩ (by rw [hb', he]; rfl) (by rw [hb', he]; rfl)
  have hspc : m'.spc = m1.spc := by
    rw [he]
    exact if_pos ho
  refine ⟨hf.2, fun _ => ?_, fun _ => .inr (hspc.trans hf.1).ge⟩
  have hpc : m'.pc = m1.spc + (litBytes true c (k + 1)).length := by rw [he]; rfl
  rw [hS]
  refine ⟨?_, (hspc ▸ hpc).ge, fun _ => (hspc ▸ hpc).symm⟩
  rw [hspc, hf.1, ← hb']
  exact hf.2.stores rfl

theorem coded_neg (he : m' = (m.save E).emit OPC_NEG) (hS : S.saved = none) :
    Coded E S m m' [.un .minus] := by
  have he' : ((m.save E).emits [OPC_NEG]).Est m' := by
    rw [he, Sdt.emit_eq]
    exact rfl
  obtain ⟨-, hcode, hpc, hspc⟩ := he'.stored rfl rfl
  have hem : Emits E m m' [.un .minus] := emits_item rfl hcode hpc
  exact ⟨hem, saved_instr hS (hem.stores rfl) (by rw [hpc]; simp) hspc rfl,
    fun ho => .inr (hspc ho).ge⟩

theorem emitted_minus (h1 : Emitted E S S1 m m1 is) (ht : Tails is S1)
    (h : Action.opMinus.run E m1 = .ok m') :
    Emitted E S (unItems .minus is S1).2 m m' (unItems .minus is S1).1 ∧
      m'.tab.core = m1.tab.core := by
  have hK : Alike m1 m' ∧ m'.tab.core = m1.tab.core := by
    rcases minus_ok h with ⟨v, -, -, rfl⟩ | ⟨-, rfl⟩
    · rw [Sdt.encodeInt, Sdt.save_eq, Sdt.emits_eq]
      exact ⟨⟨rfl, rfl, rfl⟩, rfl⟩
    · rw [Sdt.emit_eq, Sdt.save_eq, Sdt.emits_eq]
      exact ⟨⟨rfl, rfl, rfl⟩, rfl⟩
  have hK' := h1.know.alike hK.1
  obtain ⟨hobjs, hbp, hbase⟩ := h1.grows
  have hsafe : (S1.check fun _ => true).safe = true → S.safe = true :=
    fun hs => h1.safe (safe_check hs).1
  have hcode := fun (hs : E.opt = true → (S1.check fun _ => true).safe = true) =>
    h1.code fun ho => (safe_check (hs ho)).1
  -- the code of the instruction, when the optimizer does not take it away
  have hneg : m' = (m1.save E).emit OPC_NEG →
      m'.code = write m1.code m1.pc [OPC_NEG] ∧ m'.pc = m1.pc + 1 := by
    intro he
    rw [he, Sdt.emit_eq, Sdt.save_eq, Sdt.emits_eq]
    exact ⟨rfl, rfl⟩
  rcases unItems_minus is S1 with ⟨c, k, rfl, hu⟩ | ⟨hn, hu⟩
  · rw [hu]
    refine ⟨⟨hK'.congr rfl, ⟨hobjs, hbp, hbase⟩, hsafe, fun hs hsv => ?_⟩, hK.2⟩
    obtain ⟨he, hsv1, -⟩ := hcode hs hsv
    rcases minus_ok h with ⟨v, ho, hcv, hm⟩ | ⟨hnc, hm⟩
    · have hs' : (S1.check fun _ => true).safe = true := hs ho
      obtain ⟨c', k', heq, rfl, hlen⟩ := lit_of_fold ho hsv1 ht hs' hcv rfl
      cases heq
      exact emits_minus_fold ho he hlen hm rfl
    · cases ho : E.opt with
      | true =>
        have hcv := hsv1.isConstant ho
        rw [(ht c k).mpr rfl, hnc ho] at hcv
        cases hcv
      | false =>
        refine ⟨he.extend rfl ⟨rfl, rfl⟩ ?_ (hneg hm).1 (hneg hm).2, fun ho' => ?_, fun ho' => ?_⟩
        · simp [Item.bytes, litBytes, ho, replicate_succ']
        · rw [ho] at ho'
          cases ho'
        · rw [ho] at ho'
          cases ho'
  · rw [hu]
    refine ⟨⟨hK'.congr rfl, ⟨hobjs, hbp, hbase⟩, hsafe, fun hs hsv => ?_⟩, hK.2⟩
    obtain ⟨he, hsv1, -⟩ := hcode hs hsv
    rcases minus_ok h with ⟨v, ho, hcv, hm⟩ | ⟨hnc, hm⟩
    · have hs' : (S1.check fun _ => true).safe = true := hs ho
      obtain ⟨c', k', heq, -, -⟩ := lit_of_fold ho hsv1 ht hs' hcv rfl
      exact absurd heq (hn c' k')
    · obtain ⟨hem, hsv', hspc⟩ := coded_neg (S := (S1.check fun _ => true).plain) hm rfl
      have hle := he.pc
      refine ⟨he.trans hem, hsv', fun ho => .inr ?_⟩
      have hs' : m'.spc = m1.pc := by
        rw [hm, Sdt.emit_eq, Sdt.emits_eq, Sdt.save_eq]
        exact if_pos ho
      omega

/-- **A unary operation**, after its operand. -/
theorem emitted_un {o : UnOp} (h1 : Emitted E S S1 m m1 is) (ht : Tails is S1)
    (h : o.action.run E m1 = .ok m') :
    Emitted E S (unItems o is S1).2 m m' (unItems o is S1).1 ∧ m'.tab.core = m1.tab.core := by
  have hplain : ∀ o : UnOp, m' = (m1.save E).emit o.opc →
      Emitted E S S1.plain m m' (is ++ [.un o]) ∧ m'.tab.core = m1.tab.core := by
    rintro o rfl
    refine ⟨h1.trans (.instr h1.know rfl rfl rfl rfl ⟨_, _, rfl, by cases o <;> rfl⟩), ?_⟩
    rw [Sdt.emit_eq, core_emits, core_save]
  cases o with
  | minus => exact emitted_minus h1 ht h
  | inv => exact hplain .inv (Except.ok.inj (act_ok h)).symm
  | not => exact hplain .not (Except.ok.inj (act_ok h)).symm

/-! ### Objects of the library -/

section
variable {c : Symtab.Core} {cid : Nat} {q : SymCall} (hK : Knows S m)
include hK

theorem popExtern_ok {x : ExtDef} (hc : m.tab.core = c.push (.tmp s))
    (h : m.popExtern E = .ok (xid, x, m')) :
    E.lib.external s = some (xid, x) ∧ Emitted E S S m m' [] ∧ m'.tab.core = c := by
  obtain ⟨t, hc', hK', h⟩ := knows_pop hK hc rfl h rfl
  dsimp only at h
  split at h
  · cases h
  · rename_i i hi
    split at h
    · cases h
    · rename_i y hy
      cases h
      exact ⟨by simp [LibDef.external, hi, hy], .silent hK' rfl rfl rfl, hc'⟩

theorem classMemberPop_ok {x : ExtDef} (hc : m.tab.core = (c.push (.cld cid)).push (.tmp s))
    (h : m.classMemberPop E = .ok (xid, x, m')) :
    E.lib.member cid s = some (xid, x) ∧ Emitted E S S m m' [] ∧ m'.tab.core = c := by
  obtain ⟨t, hc', hK', h⟩ := knows_pop hK hc rfl h rfl
  obtain ⟨t', hc', hK', h⟩ := knows_pop hK' hc' rfl h rfl
  dsimp only at h
  split at h
  · cases h
  · rename_i i hi
    split at h
    · cases h
    · rename_i y hy
      obtain ⟨hmem, h⟩ := ok_of_guard h
      cases h
      exact ⟨by simpa [LibDef.member, hi, hy] using hmem, .silent hK' rfl rfl rfl, hc'⟩

theorem emitted_objectGet (hc : m.tab.core = c.push (.tmp s))
    (h : Action.opObjectGet.run E m = .ok m') : ∃ xid x, E.lib.object false s = some (xid, x) ∧
      Emitted E S (objectItems xid x S).2 m m' (objectItems xid x S).1 ∧
      m'.tab.core = c.push (.cld x.cdef) := by
  obtain ⟨⟨xid, x, m1⟩, hp, h⟩ := exists_of_bind_ok (act_ok h)
  obtain ⟨hx, h0, hc1⟩ := popExtern_ok hK hc hp
  obtain ⟨htype, h⟩ := ok_of_guard h
  obtain ⟨harr, h⟩ := ok_of_guard h
  have hob : E.lib.object false s = some (xid, x) := by
    simpa [LibDef.object, hx] using ⟨not_not.mp htype, by simpa using harr⟩
  refine ⟨xid, x, hob, ?_⟩
  unfold objectItems
  split
  · rename_i hsing
    rw [if_pos hsing] at h
    have he : Emitted E S (S.const (.int (BitVec.ofInt 32 x.inst)) 0) m
        (m1.encodeInt E (BitVec.ofInt 32 x.inst)).tgtStackPush
        [.lit (.int (BitVec.ofInt 32 x.inst)) 0] :=
      h0.trans (.constInstr h0.know rfl rfl Sdt.est_push)
    obtain ⟨he, hc'⟩ := he.push rfl h
    refine ⟨he, ?_⟩
    rw [hc', Sdt.est_push.core, Sdt.encodeInt, core_emits, core_save, hc1]
  · rename_i hsing
    rw [if_neg hsing] at h
    have he : Emitted E S S.past m (m1.ext xid 0).tgtStackPush [.ext xid 0 1] :=
      h0.trans (.pastInstr h0.know rfl rfl rfl Sdt.est_push rfl)
    obtain ⟨he, hc'⟩ := he.push rfl h
    refine ⟨he, ?_⟩
    rw [hc', Sdt.est_push.core, Sdt.ext, core_emits, hc1]

theorem emitted_scale (o : IntOp) (v : Word) :
    Emitted E S (scaleItems o v S).2 m ((m.encodeInt E v).emit o.opc) (scaleItems o v S).1 ∧
      ((m.encodeInt E v).emit o.opc).tab.core = m.tab.core := by
  have h1 : Emitted E S (S.const (.int v) 0) m (m.encodeInt E v) [.lit (.int v) 0] :=
    .constInstr hK rfl rfl rfl
  have h2 : Emitted E (S.const (.int v) 0) (S.const (.int v) 0).past (m.encodeInt E v)
      ((m.encodeInt E v).emit o.opc) [.bin o] :=
    .pastInstr h1.know rfl rfl rfl rfl rfl
  refine ⟨h1.trans h2, ?_⟩
  rw [Sdt.emit_eq, core_emits, Sdt.encodeInt, core_emits, core_save]

theorem emitted_xlat (xid : Nat) (x : ExtDef) : ∃ m', (if x.isSizeoffs then
        let m := if x.size > 1 then
          (m.encodeInt E (BitVec.ofNat 32 x.size)).emit IntOp.mul.opc else m
        if x.offs ≠ 0 then (m.encodeInt E (BitVec.ofInt 32 x.offs)).emit IntOp.add.opc else m
      else m.ext xid 1) = m' ∧ Emitted E S (xlatItems xid x S).2 m m' (xlatItems xid x S).1 ∧
      m'.tab.core = m.tab.core := by
  unfold xlatItems
  split
  · -- by the size, then by the offset
    refine ⟨_, rfl, ?_⟩
    have h1 : ∃ m1, (if x.size > 1 then
        (m.encodeInt E (BitVec.ofNat 32 x.size)).emit IntOp.mul.opc else m) = m1 ∧
        Emitted E S (if x.size > 1 then scaleItems .mul (BitVec.ofNat 32 x.size) S else ([], S)).2 m m1
          (if x.size > 1 then scaleItems .mul (BitVec.ofNat 32 x.size) S else ([], S)).1 ∧
        m1.tab.core = m.tab.core := by
      split
      · exact ⟨_, rfl, emitted_scale hK .mul _⟩
      · exact ⟨_, rfl, .silent hK rfl rfl rfl, rfl⟩
    obtain ⟨m1, hm1, he1, hc1⟩ := h1
    dsimp only
    rw [hm1]
    generalize (if x.size > 1 then scaleItems .mul (BitVec.ofNat 32 x.size) S else ([], S)) = p at *
    split
    · obtain ⟨he2, hc2⟩ := emitted_scale (E := E) he1.know .add (BitVec.ofInt 32 x.offs)
      exact ⟨he1.trans he2, hc2.trans hc1⟩
    · exact ⟨he1.trans (.silent he1.know rfl rfl rfl), hc1⟩
  · refine ⟨_, rfl, .pastInstr hK rfl rfl rfl rfl rfl, ?_⟩
    rw [Sdt.ext, core_emits]

theorem emitted_arrayXlat (hc : m.tab.core = c.push (.tmp s))
    (h : Action.opArrayXlat.run E m = .ok m') : ∃ xid x, E.lib.object true s = some (xid, x) ∧
      Emitted E S (xlatItems xid x S).2 m m' (xlatItems xid x S).1 ∧
      m'.tab.core = c.push (.cld x.cdef) := by
  obtain ⟨⟨xid, x, m1⟩, hp, h⟩ := exists_of_bind_ok (act_ok h)
  obtain ⟨hx, h0, hc1⟩ := popExtern_ok hK hc hp
  obtain ⟨htype, h⟩ := ok_of_guard h
  obtain ⟨harr, h⟩ := ok_of_guard h
  have hob : E.lib.object true s = some (xid, x) := by
    simpa [LibDef.object, hx] using ⟨not_not.mp htype, by simpa using harr⟩
  refine ⟨xid, x, hob, ?_⟩
  obtain ⟨m2, hm2, he, hc2⟩ := emitted_xlat (E := E) h0.know xid x
  have h : m2.symPush (.cld x.cdef) = .ok m' := by
    rw [← hm2]
    exact h
  obtain ⟨he, hc'⟩ := (h0.trans he).push rfl h
  exact ⟨he, by rw [hc', hc2, hc1]⟩

theorem emitted_attrAccess {array write : Bool} {n : Nat} (r : Int)
    (hc : m.tab.core = (c.push (.cld cid)).push (.tmp s))
    (h : m.attrAccess E array write n = .ok m') :
    ∃ xid, E.lib.attr array cid s = some xid ∧ Emitted E S S.past m m' [.ext xid n r] ∧
      m'.tab.core = c := by
  obtain ⟨⟨xid, x, m1⟩, hp, h⟩ := exists_of_bind_ok h
  obtain ⟨hx, h0, hc1⟩ := classMemberPop_ok hK hc hp
  dsimp only at h
  split_ifs at h with htype hro hsc harr hwr
  all_goals
    have hattr : E.lib.attr array cid s = some xid := by
      have harr' : x.isArray = array := by
        revert hsc harr
        cases x.isArray <;> cases array <;> simp
      simp [LibDef.attr, hx, not_not.mp htype, harr']
    refine ⟨xid, hattr, ?_⟩
  · have he := Sdt.est_adjust h
    refine ⟨h0.trans (.pastInstr h0.know rfl rfl rfl he rfl), ?_⟩
    rw [he.core, Sdt.ext, core_emits, hc1]
  · cases h
    refine ⟨h0.trans (.pastInstr h0.know rfl rfl rfl rfl rfl), ?_⟩
    rw [Sdt.ext, core_emits, hc1]

/-! ### Calls -/

theorem emitted_functionLookup (hc : m.tab.core = c.push (.tmp s))
    (h : Action.opFunctionLookup.run E m = .ok m') :
    ∃ xid x, E.lib.function s = some (xid, x) ∧ Emitted E S S m m' [] ∧
      m'.tab.core = c.push (.call ⟨xid, 0, x.argmin, x.argmax, x.ret⟩) := by
  obtain ⟨⟨xid, x, m1⟩, hp, h⟩ := exists_of_bind_ok (act_ok h)
  obtain ⟨hx, h0, hc1⟩ := popExtern_ok hK hc hp
  obtain ⟨htype, h⟩ := ok_of_guard h
  obtain ⟨he, hc'⟩ := h0.push rfl h
  refine ⟨xid, x, ?_, he, by rw [hc', hc1]⟩
  simpa [LibDef.function, hx] using htype

theorem emitted_methodLookup (hc : m.tab.core = (c.push (.cld cid)).push (.tmp s))
    (h : Action.opMethodLookup.run E m = .ok m') :
    ∃ xid x, E.lib.method cid s = some (xid, x) ∧ Emitted E S S m m' [] ∧
      m'.tab.core = c.push (.call ⟨xid, 1, x.argmin, x.argmax, x.ret⟩) := by
  obtain ⟨⟨xid, x, m1⟩, hp, h⟩ := exists_of_bind_ok (act_ok h)
  obtain ⟨hx, h0, hc1⟩ := classMemberPop_ok hK hc hp
  obtain ⟨htype, h⟩ := ok_of_guard h
  obtain ⟨he, hc'⟩ := h0.push rfl h
  refine ⟨xid, x, ?_, he, by rw [hc', hc1]⟩
  simpa [LibDef.method, hx] using htype

theorem emitted_arg (hc : m.tab.core = c.push (.call q))
    (h : Action.opArg.run E m = .ok m') : Emitted E S S m m' [] ∧
      m'.tab.core = c.push (.call { q with argcnt := (q.argcnt + 1) % 256 }) := by
  obtain ⟨t, hc', hK', h⟩ := knows_pop hK hc rfl (act_ok h) rfl
  have h0 : Emitted E S S m (m.withTab t) [] := .silent hK' rfl rfl rfl
  obtain ⟨he, hc''⟩ := h0.push rfl h
  exact ⟨he, by rw [hc'', hc']⟩

theorem emitted_call (r : Int) (hc : m.tab.core = c.push (.call q))
    (h : Action.opCall.run E m = .ok m') : q.argmin ≤ q.argcnt ∧ q.argcnt ≤ q.argmax ∧
      Emitted E S S.plain m m' [.ext q.xid q.argcnt r] ∧ m'.tab.core = c.push (.call q) := by
  obtain ⟨t, hc', hK', h⟩ := knows_pop hK hc rfl (act_ok h) rfl
  obtain ⟨hmin, h⟩ := ok_of_guard h
  obtain ⟨hmax, h⟩ := ok_of_guard h
  obtain ⟨m1, ha, h⟩ := exists_of_bind_ok h
  have hest := Sdt.est_adjust ha
  have he : Emitted E S S.plain m m1 [.ext q.xid q.argcnt r] :=
    .instr hK' rfl rfl hest rfl ⟨_, _, rfl, rfl⟩
  obtain ⟨he, hc''⟩ := he.push rfl h
  refine ⟨by omega, by omega, he, ?_⟩
  rw [hc'', hest.core, Sdt.ext, core_emits, core_save, hc']

omit hK in
theorem emitted_discard {m0 : Sdt} (hS : S = S.plain) (hK : Knows S m0) (hcode : m0.code = m.code)
    (hpc : m0.pc = m.pc) (hspc : m0.spc = m.spc) (he : (m0.discard E n).Est m') :
    Emitted E S S m m' (discardItems n) ∧ m'.tab.core = m0.tab.core := by
  unfold Sdt.discard at he
  unfold discardItems
  split at he
  · rename_i hn
    rw [if_pos hn]
    split at he
    · rename_i hn'
      rw [if_pos hn']
      refine ⟨?_, by rw [he.core, core_emits, core_save]⟩
      nth_rewrite 2 [hS]
      exact .instr hK hcode hpc he rfl ⟨_, _, rfl, rfl⟩
    · rename_i hn'
      rw [if_neg hn']
      refine ⟨?_, by rw [he.core, Sdt.emit_eq, core_emits, core_save]⟩
      nth_rewrite 2 [hS]
      exact .instr hK hcode hpc he rfl ⟨_, _, rfl, rfl⟩
  · rename_i hn
    rw [if_neg hn]
    refine ⟨.silent (hK.alike ?_) ?_ ?_ ?_, he.core⟩
    · rw [he]
      exact ⟨rfl, rfl, rfl⟩
    · rw [he, ← hcode]
    · rw [he, ← hpc]
    · rw [he, ← hspc]

theorem emitted_retDiscard (hS : S = S.plain) (hc : m.tab.core = c.push (.call q))
    (h : Action.opRetDiscard.run E m = .ok m') :
    Emitted E S S m m' (discardItems q.retcnt) ∧ m'.tab.core = c := by
  obtain ⟨t, hc', hK', h⟩ := knows_pop hK hc rfl (act_ok h) rfl
  obtain ⟨he, hc''⟩ := emitted_discard (m := m) hS hK' rfl rfl rfl (Sdt.est_adjust h)
  exact ⟨he, hc''.trans hc'⟩

theorem emitted_callRet (hS : S = S.plain) (hc : m.tab.core = c.push (.call q))
    (h : Action.opCallRet.run E m = .ok m') :
    1 ≤ q.retcnt ∧ Emitted E S S m m' (discardItems (q.retcnt - 1)) ∧ m'.tab.core = c := by
  obtain ⟨t, hc', hK', h⟩ := knows_pop hK hc rfl (act_ok h) rfl
  obtain ⟨hret, h⟩ := ok_of_guard h
  refine ⟨by omega, ?_⟩
  split at h
  · obtain ⟨he, hc''⟩ := emitted_discard (m := m) hS hK' rfl rfl rfl (Sdt.est_adjust h)
    exact ⟨he, hc''.trans hc'⟩
  · rename_i hn
    cases h
    rw [discardItems, if_neg hn]
    exact ⟨.silent hK' rfl rfl rfl, hc'⟩

end

/-! ### Scopes and declarations -/

theorem emitted_varDecl (hK : Knows S m) (h : Action.opVarDecl.on E s m = .ok m') :
    Emitted E S (S.declare s) m m' [] ∧ m'.tab.core = m.tab.core := by
  have h : m.opVarDecl (idTok s) = .ok m' := act_ok h
  have hl : m.tab.objScopeLookup s = S.objs.any fun o => S.base ≤ o.pos && o.nm == s := by
    unfold Symtab.objScopeLookup
    rw [hK.objs, hK.base]
  unfold Sdt.opVarDecl at h
  unfold Static.declare
  rw [show m.tab.objScopeLookup (idTok s).s = _ from hl] at h
  split at h
  · rename_i hin
    cases h
    rw [if_pos hin]
    exact ⟨.silent hK rfl rfl rfl, rfl⟩
  · rename_i hin
    rw [if_neg hin]
    obtain ⟨t, ht, rfl⟩ := exists_of_map_ok h
    rw [Symtab.objNew_ok ht]
    refine ⟨⟨?_, ⟨⟨[⟨S.bp, s, _⟩], rfl, by simp⟩, ?_, rfl⟩, id, fun _ hsv =>
      ⟨⟨rfl, fun _ _ => rfl, Format.holds_nil, fun _ _ _ => rfl⟩, hsv, fun _ => .inl rfl⟩⟩, rfl⟩
    · refine ⟨hK.full, ?_, ?_, hK.base, ?_, hK.strs, ?_⟩
      · simp [Sdt.withTab, hK.objs, hK.bp, hK.pos, idTok]
      · simp [Sdt.withTab, hK.bp, idTok]
      · simp [Sdt.withTab, hK.pos]
      · intro o ho
        rcases mem_cons.mp ho with rfl | ho
        · simp
        · have := hK.lt o ho
          simp only
          omega
    · simp

theorem scopeBp_congr {t t' : Symtab} (h : t'.core = t.core) : t'.scopeBp = t.scopeBp := by
  obtain ⟨hfp, htop, hst⟩ := Symtab.Core.mk.inj h
  unfold Symtab.scopeBp
  rw [hfp, htop, hst]

theorem knows_blkOpen (hK : Knows S m) (h : Action.opBlkOpen.run E m = .ok m') :
    Knows S.openScope m' ∧ (m'.code = m.code ∧ m'.pc = m.pc ∧ m'.spc = m.spc) ∧
      (m'.tab.top = m.tab.top ∧
        m'.tab.stack = .sf m.tab.fp S.bp :: .addr S.dataPos :: m.tab.stack) ∧
      m'.tab.fp + (m'.tab.stack.map Entry.size).sum = m'.tab.top := by
  obtain ⟨m1, h1, h⟩ := exists_of_bind_ok (act_ok h)
  obtain ⟨t, ht, rfl⟩ := exists_of_map_ok h1
  obtain ⟨t', ht', rfl⟩ := exists_of_map_ok h
  have hf := hK.full.push ht
  obtain ⟨-, rfl⟩ := Symtab.push_ok ht
  unfold Symtab.sfPush at ht'
  split at ht'
  · cases ht'
  · rename_i t'' hp
    cases ht'
    have hf' := Symtab.Full.push hf hp
    obtain ⟨-, rfl⟩ := Symtab.push_ok hp
    have hbp : m.tab.bp = S.bp := hK.bp
    have hpos : m.dataPos = S.dataPos := hK.pos
    refine ⟨⟨hf', hK.objs, hbp, ?_, hpos, hK.strs, hK.lt⟩, ⟨rfl, rfl, rfl⟩, ⟨rfl, ?_⟩, hf'⟩
    · unfold Symtab.scopeBp
      rw [if_neg]
      · exact hbp
      · unfold Symtab.Full at hf'
        simp only [map_cons, sum_cons, Entry.size, Sdt.withTab] at hf' ⊢
        omega
    · simp [Sdt.withTab, hbp, hpos]

theorem dropWhile_new {new old : List Obj} {n : Nat} (hnew : ∀ o ∈ new, n ≤ o.pos)
    (hold : ∀ o ∈ old, o.pos < n) : (new ++ old).dropWhile (fun o => n ≤ o.pos) = old := by
  rw [dropWhile_append_of_pos (by simpa using hnew)]
  cases old with
  | nil => rfl
  | cons o old =>
    have := hold o (by simp)
    exact dropWhile_cons_of_neg (by simpa using this)

/-- **A block in its scope.** -/
theorem emitted_scope (hK : Knows S m) (ho : Action.opBlkOpen.run E m = .ok m1)
    (hb : Emitted E S.openScope S' m1 m2 is) (hc : m2.tab.core = m1.tab.core)
    (hcl : Action.opBlkClose.run E m2 = .ok m') :
    Emitted E S (S.close S') m m' is ∧ m'.tab.core = m.tab.core := by
  obtain ⟨-, ⟨hcode, hpc, hspc⟩, ⟨htop1, hst1⟩, hfp⟩ := knows_blkOpen hK ho
  obtain ⟨hfp2, htop2, hst2⟩ := Symtab.Core.mk.inj hc
  obtain ⟨⟨pos, t⟩, hp, h⟩ := exists_of_bind_ok (act_ok hcl)
  cases h
  have hst : m2.tab.stack = .sf m.tab.fp S.bp :: .addr S.dataPos :: m.tab.stack := hst2.trans hst1
  have htop : m2.tab.top = m.tab.top := htop2.trans htop1
  rw [hst1] at hfp
  simp only [map_cons, sum_cons, Entry.size] at hfp
  have hsf : m2.tab.sfPop = { m2.tab with
      sp := m2.tab.fp + 4, fp := m.tab.fp, bp := S.bp, stack := .addr S.dataPos :: m.tab.stack,
      objs := m2.tab.objs.dropWhile fun o => S.bp ≤ o.pos } := by
    unfold Symtab.sfPop
    rw [if_neg (by omega), hst]
    rfl
  rw [hsf] at hp
  obtain ⟨e, rest, hst', hk, rfl⟩ := Symtab.popAs_ok hp
  cases hst'
  cases hk
  obtain ⟨new, hnew, hge⟩ := hb.grows.objs
  have hobjs : m2.tab.objs.dropWhile (fun o => S.bp ≤ o.pos) = S.objs := by
    rw [hb.know.objs, hnew]
    exact dropWhile_new hge hK.lt
  refine ⟨⟨⟨?_, hobjs, rfl, ?_, rfl, hb.know.strs, hK.lt⟩, ⟨⟨[], rfl, by simp⟩, le_rfl, rfl⟩,
    hb.safe, fun hs hsv => ?_⟩, ?_⟩
  · show m2.tab.fp + 4 + 2 + (m.tab.stack.map Entry.size).sum = m2.tab.top
    omega
  · exact (scopeBp_congr (by simp [Symtab.core, htop])).trans hK.base
  · have hsv1 : Saved E S.openScope m1 := by
      unfold Saved at *
      rw [hcode, hpc, hspc]
      exact hsv
    obtain ⟨he, hsv', hs'⟩ := hb.code hs hsv1
    refine ⟨⟨?_, fun a ha => ?_, ?_, by rw [← hcode]; exact he.above⟩, hsv', ?_⟩
    · rw [← hpc]
      exact he.pc
    · rw [← hcode]
      exact he.keep a (by omega)
    · rw [← hpc]
      exact he.holds
    · rw [← hpc, ← hspc]
      exact hs'
  · simp [Symtab.core, htop]

end

end MicroJS
