import ThinkOS.MicroJS.Link
import ThinkOS.MicroJS.Typed
import ThinkOS.MicroJS.Unique

/-!
# MicroJS: runs of compiled programs

What `microjs_exec` does with the code of an accepted text is what the machine on items does with the
items of the text's tree. `Sensible` and `Regular` collect what this needs of the text, the library
and the external functions; none of it is checked by the compiler.
-/

namespace MicroJS

open Segment Lib

variable {code : Nat → Byte} {n : Nat}

section
variable {E : Env} {m : Sdt} {top : Nat} {txt : List Char} {p : Program} {is : List Item}
  {S' : Static}

/-- The code of an accepted text is that of its tree. -/
theorem code_of_compile (h : compile E top code n txt = some (.ok m)) (hp : p.Parsed)
    (hlex : Lexes txt (p.tokens ++ [tk .eof]))
    (hi : p.items E.lib E.cstrAdd Static.init = some (is, S'))
    (hs : E.opt = true → S'.safe = true) : (format E.opt).Holds m.code 0 (wholeItems is) ∧
      m.pc = (format E.opt).length (wholeItems is) ∧
      (is.all Item.plain = true → ∀ a, m.pc ≤ a → m.code a = code a) := by
  obtain ⟨p1, is1, S1, hp1, hlex1, hi1, hc⟩ := exists_items_of_compile h
  cases program_eq_of_lexes hp hp1 hlex hlex1
  rw [hi] at hi1
  cases hi1
  exact hc hs

/-- **An accepted text has one tree**, and its code is that of the tree's items. -/
theorem compiled_from_one_tree (h : compile E top code n txt = some (.ok m)) :
    ∃! p : Program, p.Parsed ∧ Lexes txt (p.tokens ++ [tk .eof]) ∧
      ∃ is S', p.items E.lib E.cstrAdd Static.init = some (is, S') ∧
        ((E.opt = true → S'.safe = true) → (format E.opt).Holds m.code 0 (wholeItems is)) := by
  obtain ⟨p, is, S', hp, hlex, hi, hc⟩ := exists_items_of_compile h
  refine ⟨p, ⟨hp, hlex, is, S', hi, fun hs => (hc hs).1⟩, ?_⟩
  rintro q ⟨hq, hlex', -⟩
  exact program_eq_of_lexes hq hp hlex' hlex

theorem compiled_from_one_tree_var :
    ∃ m, (bareEnv false).Compiles "var x;x=1;" m ∧ 5 < m.pc ∧ ∃ (p : Program) (is : List Item),
      p.Parsed ∧ Lexes "var x;x=1;".toList (p.tokens ++ [tk .eof]) ∧
      (format false).Holds m.code 0 (wholeItems is) := by
  obtain ⟨m, hm, hpc⟩ : ∃ m, (bareEnv false).Compiles "var x;x=1;" m ∧ 5 < m.pc :=
    exists_of_okWith (by decide +kernel)
  obtain ⟨p, ⟨hp, hlex, is, S', -, hcode⟩, -⟩ := compiled_from_one_tree hm
  exact ⟨m, hm, hpc, p, is, hp, hlex, hcode fun h => by cases h⟩

/-- What the meaning of a text's code needs: each shortcut of the optimizer was taken for the last
instruction, the functions of the library return at most one value and do so, and calls have fewer
than 256 arguments. -/
structure Sensible (E : Env) (H : Host) (p : Program) (S' : Static) : Prop where
  safe : E.opt = true → S'.safe = true
  modest : E.lib.Modest
  kept : E.lib.Kept H
  narrow : p.Narrow

/-- A text whose code runs as its items: in addition every address fits its field. -/
structure Regular (E : Env) (H : Host) (p : Program) (is : List Item) (S' : Static) : Prop extends
    Sensible E H p S' where
  fits : ∀ (i : Nat) (it : Item), (wholeItems is)[i]? = some it → it.Fits E.opt (wholeItems is) i

section
variable {H : Host} (h : compile E top code n txt = some (.ok m)) (hp : p.Parsed)
  (hlex : Lexes txt (p.tokens ++ [tk .eof])) (hi : p.items E.lib E.cstrAdd Static.init = some (is, S'))
include h hp hlex hi

theorem Sensible.loaded (hR : Sensible E H p S') : Loaded H E.opt (wholeItems is) m.code := by
  obtain ⟨hsound, hhonest⟩ := p.sits hR.modest _ hR.narrow _ hi
  exact ⟨sound_wholeItems hsound, honest_wholeItems hhonest hR.kept,
    (code_of_compile h hp hlex hi hR.safe).1⟩

theorem Regular.linked (hR : Regular E H p is S') : Linked H E.opt (wholeItems is) m.code :=
  ⟨hR.loaded h hp hlex hi, hR.fits⟩

end

theorem fits_of_all {opt : Bool} {P : List Item}
    (h : ∀ (i : Nat) (hi : i < P.length), P[i].Fits opt P i) (i : Nat) (it : Item)
    (hit : P[i]? = some it) : it.Fits opt P i := by
  obtain ⟨hi, rfl⟩ := List.getElem?_eq_some_iff.mp hit
  exact h i hi

end

/-- The items of a tree, all of them safe, evaluated. -/
def itemsAre (is : List Item) : Option (List Item × Static) → Bool
  | some (is', S') => decide (is' = is) && S'.safe
  | none => false

theorem exists_of_itemsAre {is : List Item} {r : Option (List Item × Static)}
    (h : itemsAre is r = true) : ∃ S', r = some (is, S') ∧ S'.safe = true := by
  unfold itemsAre at h
  split at h
  · obtain ⟨his, hsafe⟩ := Bool.and_eq_true_iff.mp h
    cases of_decide_eq_true his
    exact ⟨_, rfl, hsafe⟩
  · cases h

/-- The run from `s` stops within `n` steps, and all its states meet `Q`. -/
def Vm.always (H : Host) (code : Nat → Byte) (Q : Vm → Bool) : Nat → Vm → Bool
  | 0, _ => false
  | n + 1, s => Q s && match Vm.step H code s with
    | .next s' => Vm.always H code Q n s'
    | _ => true

theorem Vm.of_always {H : Host} {Q : Vm → Bool} {s : Vm} (h : Vm.always H code Q n s = true)
    {k : Nat} {s' : Vm} (hk : Vm.exec H code k s = .next s') : Q s' = true := by
  induction n generalizing k s with
  | zero => cases h
  | succ n ih =>
    obtain ⟨hq, h⟩ := Bool.and_eq_true_iff.mp h
    cases k with
    | zero =>
      cases hk
      exact hq
    | succ k =>
      rw [Vm.exec] at hk
      split at hk
      · rename_i s1 hs
        rw [hs] at h
        exact ih h hk
      · rename_i hs
        exact absurd hk (hs s')

theorem lowRun_of_always {H : Host} {data : Nat → Word} (hb : H.base = 0)
    (h : Vm.always H code (fun v => v.xp ≤ 1) n (Vm.init data) = true) : LowRun H code data := by
  refine ⟨by omega, fun k v hk => ?_⟩
  have := of_decide_eq_true (Vm.of_always h hk)
  omega

theorem regular_bare {opt : Bool} {H : Host} {p : Program} {is : List Item} {S' : Static}
    (hs : S'.safe = true) (hn : p.Narrow)
    (hf : ∀ (i : Nat) (hi : i < (wholeItems is).length),
      (wholeItems is)[i].Fits opt (wholeItems is) i) : Regular (bareEnv opt) H p is S' where
  safe _ := hs
  modest := ⟨Nat.zero_le _, fun _ h => by cases h⟩
  kept := by
    intro xid r args cs vals h
    cases h
  narrow := hn
  fits := fits_of_all hf

end MicroJS
