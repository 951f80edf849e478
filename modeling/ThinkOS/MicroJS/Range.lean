import ThinkOS.MicroJS.Exec
import ThinkOS.MicroJS.Translate

/-!
# MicroJS: the range of the address fields

Loads and stores have 12 bits for a data word, exception frames 12 bits for a code address and jumps
12 bits for a signed distance. The translator stores the low bits of what it means and checks
nothing: an instruction names for the machine what the translator meant exactly if that is in range.
-/

namespace MicroJS

open BitVec

variable {code : Nat → Byte} {opc : Byte} {it : Item} {H : Host} {a i : Nat} {x : Int}

open Segment

/-! ## What an instruction refers to -/

/-- A code address or a word of the data memory. -/
inductive Ref where
  | code (a : Int)
  | data (w : Nat)
  deriving DecidableEq

/-- What the instruction at `pc` refers to when the machine executes it. -/
def Vm.ref (code : Nat → Byte) (pc : Nat) : Option Ref :=
  let opc := (code pc).toNat
  let r := (code (pc + 1)).toNat * 16 + opc % 16
  match opc / 16 with
  | 4 | 5 => some (.data r)
  | 6 => some (.code r)
  | 7 | 8 => some (.code (pc + 2 + signExt12 r))
  | _ => none

section
variable (opt : Bool) (P : List Item)

/-- The address of the item `i` of the code `P`. -/
def addrOf (i : Int) : Nat := (format opt).length (P.take i.toNat)

/-- What the translator meant with the item `i`. -/
def Item.ref (i : Nat) : Item → Option Ref
  | .ld a | .st a => some (.data (a / 4))
  | .jmp d | .jeq d | .leave d | .pushx d => some (.code (addrOf opt P (i + 1 + d)))
  | _ => none

/-- The field of the item `i` can hold what the translator meant. -/
def Item.Fits (i : Nat) : Item → Prop
  | .ld a | .st a => a / 4 < 4096
  | .pushx d => addrOf opt P (i + 1 + d) < 4096
  | .jmp d | .jeq d | .leave d =>
    -2048 ≤ (addrOf opt P (i + 1 + d) : Int) - (addrOf opt P i + 2) ∧
      (addrOf opt P (i + 1 + d) : Int) - (addrOf opt P i + 2) < 2048
  | _ => True

instance (i : Nat) (it : Item) : Decidable (it.Fits opt P i) := by
  cases it <;> unfold Item.Fits <;> infer_instance

variable {opt P}

theorem ref_data (hopc : opc = OPC_LD ∨ opc = OPC_ST) (hs : Stores code a (Sdt.operand opc x)) :
    Vm.ref code a = some (.data (x % 4096).toNat) := by
  obtain ⟨hg, hr⟩ := operand_read (by rcases hopc with rfl | rfl <;> decide) hs
  unfold Vm.ref
  rcases hopc with rfl | rfl <;> simp only [hg, hr] <;> rfl

theorem ref_rel_iff {t : Nat} (hopc : opc = OPC_JMP ∨ opc = OPC_JEQ)
    (hs : Stores code a (Sdt.operand opc ((t : Int) - (a + 2)))) : Vm.ref code a = some (.code t) ↔
      -2048 ≤ (t : Int) - (a + 2) ∧ (t : Int) - (a + 2) < 2048 := by
  obtain ⟨hg, hr⟩ := operand_read (by rcases hopc with rfl | rfl <;> decide) hs
  have href : Vm.ref code a =
      some (.code (a + 2 + signExt12 (((t : Int) - (a + 2)) % 4096).toNat)) := by
    unfold Vm.ref
    rcases hopc with rfl | rfl <;> simp only [hg, hr] <;> rfl
  rw [href, ← signExt12_eq_iff, Option.some.injEq, Ref.code.injEq]
  omega

theorem ref_pushx (hs : Stores code a (Sdt.operand OPC_PUSHX x)) :
    Vm.ref code a = some (.code (x % 4096).toNat) := by
  obtain ⟨hg, hr⟩ := operand_read (by decide) hs
  unfold Vm.ref
  simp only [hg, hr]
  rfl

theorem stores_of_holds (h : (format opt).Holds code 0 P) (hi : P[i]? = some it) :
    Stores code (addrOf opt P i)
      (it.bytes opt (addrOf opt P i) (addrOf opt P (i + 1 + it.jump.getD 0))) := by
  have hq := Every.at h hi
  unfold Format.Placed at hq
  split at hq
  · rename_i hj
    have hs : Stores code (addrOf opt P i) (it.bytes opt (addrOf opt P i) 0) := by
      simpa [addrOf, show (format opt).bytes = Item.bytes opt from rfl] using hq
    cases it <;> first | exact hs | cases hj
  · rename_i d hj
    obtain ⟨p, hl, hs⟩ := hq
    rw [hl.take hi] at hs
    rw [show it.jump = some d from hj]
    simpa [addrOf, show (format opt).bytes = Item.bytes opt from rfl] using hs

/-- **An instruction refers to what the translator meant exactly if that fits its field.** -/
theorem ref_iff_fits {r : Ref} (h : (format opt).Holds code 0 P) (hi : P[i]? = some it)
    (hr : it.ref opt P i = some r) : Vm.ref code (addrOf opt P i) = some r ↔ it.Fits opt P i := by
  have hs := stores_of_holds h hi
  cases it with
  | ld a =>
    cases hr
    rw [ref_data (.inl rfl) hs]
    simp [Item.Fits]
    omega
  | st a =>
    cases hr
    rw [ref_data (.inr rfl) hs]
    simp [Item.Fits]
    omega
  | jmp d =>
    cases hr
    exact ref_rel_iff (.inl rfl) hs
  | jeq d =>
    cases hr
    exact ref_rel_iff (.inr rfl) hs
  | leave d =>
    cases hr
    exact ref_rel_iff (.inl rfl) hs
  | pushx d =>
    cases hr
    rw [ref_pushx hs]
    simp [Item.Fits, Item.jump]
    omega
  | _ => cases hr

end

/-! ## Compiled programs -/

/-- **Every instruction of a compiled program that has an address field names for the machine what
the translator meant, exactly if that fits the field.**  In the optimizing compiler this is said of
the texts in which each shortcut is taken for the last instruction. -/
theorem fields_decode_iff_fit {E : Env} {m : Sdt} {top n : Nat} {code : Nat → Byte} {txt : List Char}
    (h : compile E top code n txt = some (.ok m)) :
    ∃ (p : Program) (is : List Item) (S' : Static), p.Parsed ∧ Lexes txt (p.tokens ++ [tk .eof]) ∧
      p.items E.lib E.cstrAdd Static.init = some (is, S') ∧
      ((E.opt = true → S'.safe = true) → (format E.opt).Holds m.code 0 (wholeItems is) ∧
        m.pc = (format E.opt).length (wholeItems is) ∧
        ∀ (i : Nat) (it : Item) (r : Ref), (wholeItems is)[i]? = some it →
          it.ref E.opt (wholeItems is) i = some r →
          (Vm.ref m.code (addrOf E.opt (wholeItems is) i) = some r ↔
            it.Fits E.opt (wholeItems is) i)) := by
  obtain ⟨p, is, S', hp, hlex, hi, hcode⟩ := exists_items_of_compile h
  refine ⟨p, is, S', hp, hlex, hi, fun hs => ?_⟩
  obtain ⟨hholds, hpc, -⟩ := hcode hs
  exact ⟨hholds, hpc, fun i it r hit hr => ref_iff_fits hholds hit hr⟩

/-- A compiler without a library. -/
def bareEnv (opt : Bool) : Env :=
  { opt := opt, lib := ⟨[], []⟩, cstrAdd := fun _ _ => 0, cdsz := 16384, room := 2048 }

/-- A text is compiled, with 1 KB for the symbol table and 1 KB for the code. -/
def Env.Compiles (E : Env) (txt : String) (m : Sdt) : Prop :=
  compile E 1024 (fun _ => 0) 1024 txt.toList = some (.ok m)

theorem fields_decode_iff_fit_loop :
    ∃ m, (bareEnv true).Compiles "var x;while(x)\x7bx=x-1;\x7d" m ∧
      ∃ (p : Program) (is : List Item) (S' : Static), p.Parsed ∧
        Lexes "var x;while(x)\x7bx=x-1;\x7d".toList (p.tokens ++ [tk .eof]) ∧
        p.items ⟨[], []⟩ (fun _ _ => 0) Static.init = some (is, S') ∧
        ((true = true → S'.safe = true) → (format true).Holds m.code 0 (wholeItems is) ∧
          m.pc = (format true).length (wholeItems is) ∧
          ∀ (i : Nat) (it : Item) (r : Ref), (wholeItems is)[i]? = some it →
            it.ref true (wholeItems is) i = some r →
            (Vm.ref m.code (addrOf true (wholeItems is) i) = some r ↔
              it.Fits true (wholeItems is) i)) := by
  obtain ⟨m, hm, -⟩ : ∃ m, (bareEnv true).Compiles "var x;while(x)\x7bx=x-1;\x7d" m ∧ 0 < m.pc :=
    exists_of_okWith (by decide +kernel)
  exact ⟨m, hm, fields_decode_iff_fit hm⟩

/-- A loop whose body has 2052 bytes. -/
def longLoop : List Char :=
  "var x;while(x)\x7bx=9".toList ++ (List.replicate 341 "-99999".toList).flatten ++ ";\x7d".toList

/-- The exit of the loop, at 4, is meant for the end of the loop, before the last three bytes. -/
theorem loop_exit_truncated :
    ∃ m, compile (bareEnv false) 1024 (fun _ => 0) 16384 longLoop = some (.ok m) ∧
      Vm.ref m.code 4 = some (.code ((m.pc : Int) - 3 - 4096)) := by
  exact exists_of_okWith (by decide +kernel)

/-! ## Constants -/

/-- The instruction from `p` to `q` makes the machine push the number `i`. -/
def PushesInt (H : Host) (code : Nat → Byte) (p q : Nat) (i : Int) : Prop :=
  ∀ s : Vm, s.pc = p →
    ∃ v : Word, v.toInt = i ∧ Vm.step H code s = .next { s with pc := q, stack := v :: s.stack }

theorem pushesInt_iff {p : Nat} {bs : List Byte} {w : Word} {i : Int} (h : Pushes bs w)
    (hs : Stores code p bs) : PushesInt H code p (p + bs.length) i ↔ w.toInt = i := by
  constructor
  · intro hp
    obtain ⟨v, hv, hstep⟩ := hp { Vm.init (fun _ => 0) with pc := p } rfl
    rw [Vm.step_const h hs] at hstep
    cases hstep
    exact hv
  · rintro hw s rfl
    exact ⟨w, hw, Vm.step_const h hs⟩

theorem toInt_value_idx {n : Nat} : (Const.idx n).value.toInt = n ↔ n < 128 := by
  simp only [Const.value]
  split
  · rw [toInt_ofNat', Int.bmod_def]
    omega
  · rw [toInt_signExtend_of_le (by decide), toInt_ofNat', Int.bmod_def]
    omega

section
variable {E : Env} {m m' : Sdt} {tok : Token}

theorem exists_opPushString (E : Env) (m : Sdt) (tok : Token) (h : 0 ≤ E.cstrAdd m.strs tok.s) :
    ∃ m', m.opPushString E tok = .ok m' :=
  ⟨_, if_neg (not_lt.mpr h)⟩

theorem stores_opPushString (h : m.opPushString E tok = .ok m') :
    ∃ n : Nat, E.cstrAdd m.strs tok.s = n ∧ Stores m'.code m.pc (Const.idx n).bytes ∧
      m'.pc = m.pc + (Const.idx n).bytes.length := by
  unfold Sdt.opPushString at h
  dsimp only at h
  split at h
  · cases h
  · rename_i hn
    obtain ⟨n, hn'⟩ := Int.eq_ofNat_of_zero_le (not_lt.mp hn)
    rw [hn', ← Const.bytes_idx, Sdt.save_eq, Sdt.emits_eq] at h
    cases h
    exact ⟨n, hn', stores_write _ _ _, rfl⟩

theorem pushesInt_string_iff (h : m.opPushString E tok = .ok m') :
    PushesInt H m'.code m.pc m'.pc (E.cstrAdd m.strs tok.s) ↔ E.cstrAdd m.strs tok.s < 128 := by
  obtain ⟨n, hn, hs, hpc⟩ := stores_opPushString h
  rw [hn, hpc, pushesInt_iff (pushes_bytes _) hs, toInt_value_idx]
  omega

end

/-- **A constant reaches the machine unchanged for every integer, and for a string exactly if its
index is below 128.** -/
theorem constants_reach_machine (E : Env) (H : Host) (m : Sdt) :
    (∀ x : Word, PushesInt H (m.encodeInt E x).code m.pc (m.encodeInt E x).pc x.toInt ∧
      Sdt.isConstant (m.encodeInt E x).code m.pc = some x) ∧
    ∀ (tok : Token) (m' : Sdt), m.opPushString E tok = .ok m' →
      (PushesInt H m'.code m.pc m'.pc (E.cstrAdd m.strs tok.s) ↔ E.cstrAdd m.strs tok.s < 128) := by
  constructor
  · intro x
    have hs := stores_write m.code m.pc (Sdt.intBytes x)
    rw [Sdt.encodeInt, Sdt.save_eq, Sdt.emits_eq]
    exact ⟨(pushesInt_iff pushes_intBytes hs).mpr rfl, isConstant_of_pushes pushes_intBytes hs⟩
  · intro tok m' h
    exact pushesInt_string_iff h

/-- A string pool without a limit. -/
def poolEnv : Env := { bareEnv true with cstrAdd := fun strs s => strs.eraseDups.idxOf s }

/-- A compilation that has met 128 strings. -/
def manyStrings : Sdt :=
  { tab := .init 1024, code := fun _ => 0, pc := 2, spc := 2, stackPos := 0, dataPos := 0,
    strs := (List.range 128).map fun i => List.replicate i 'a' }

theorem constants_reach_machine_string : ∃ m',
    manyStrings.opPushString poolEnv { typ := .string, s := ['a'] } = .ok m' ∧
    ∀ H, PushesInt H m'.code 2 m'.pc 1 := by
  have hi : poolEnv.cstrAdd manyStrings.strs ['a'] = 1 := by decide +kernel
  obtain ⟨m', h⟩ := exists_opPushString poolEnv manyStrings { typ := .string, s := ['a'] }
    (hi.symm ▸ by decide)
  refine ⟨m', h, fun H => ?_⟩
  rw [← hi]
  exact ((constants_reach_machine poolEnv H manyStrings).2 _ _ h).mpr (hi.symm ▸ by decide)

/-- The next string has the index 128, and the machine pushes another number. -/
theorem string_index_truncated : ∃ m',
    manyStrings.opPushString poolEnv { typ := .string, s := List.replicate 128 'a' } = .ok m' ∧
    poolEnv.cstrAdd manyStrings.strs (List.replicate 128 'a') = 128 ∧
    ∀ H, ¬ PushesInt H m'.code 2 m'.pc 128 := by
  have hi : poolEnv.cstrAdd manyStrings.strs (List.replicate 128 'a') = 128 := by decide +kernel
  obtain ⟨m', h⟩ := exists_opPushString poolEnv manyStrings
    { typ := .string, s := List.replicate 128 'a' } (hi.symm ▸ by decide)
  refine ⟨m', h, hi, fun H hp => ?_⟩
  rw [← hi] at hp
  exact absurd ((pushesInt_string_iff h).mp hp) (hi.symm ▸ by decide)

end MicroJS
