import ThinkOS.MicroJS.Balance
import ThinkOS.MicroJS.Eval
import ThinkOS.MicroJS.Peephole

/-!
# MicroJS: what the operators compute

The rules for binary operators are right-recursive, and `*` has a class of its own that binds tighter
than `/` and `%`: a chain of operators of one class is computed with the multiplications first and
from the right otherwise (`grouped`). The logical operators are compiled to the bitwise ones, so that
`&&` is zero for operands that are not zero but have no bit in common.
-/

namespace MicroJS

open List Option Segment Lib

variable {r : List (BinOp × Exp)} {k : Nat} {bs : List (BinOp × Word)} {o : BinOp} {t : Exp}

section
variable {H : Host} {opt : Bool} {P : List Item} {code : Nat → Byte} {data : Nat → Word}

/-- A segment that pushes values does so in `microjs_exec`. -/
theorem Linked.computes (hL : Linked H opt P code) (hl : LowRun H code data) {v : Vm}
    {x seg y : List Item} {vs : List Word} {cs : List ExtCall} (hP : P = x ++ seg ++ y)
    (hk : Vm.exec H code k (Vm.init data) = .next v) (hpc : v.pc = addrOf opt P x.length)
    (hc : Computes H v.data v.calls seg vs cs) :
    ∃ j v', Vm.exec H code j v = .next v' ∧ v'.pc = addrOf opt P (x ++ seg).length ∧
      v'.stack = vs ++ v.stack ∧ v'.data = v.data := by
  have hx : x.length ≤ P.length := by
    rw [hP]
    simp
  obtain ⟨n, s, hn, hpos, hsim⟩ := hL.sim_of_pc (hL.meant hl) hk hx hpc
  obtain ⟨hrun, hend⟩ := Mach.run_walk hP hpos (hc s hsim.data.symm hsim.calls.symm)
  obtain ⟨j, v', hj, hT'⟩ := hL.lockstep.reaches (hL.tracks (hL.meant hl) hn hsim) hrun
  refine ⟨j, v', Vm.run_eq_some_iff.mp hj, ?_, ?_, ?_⟩
  · rw [hT'.sim.pc, hend, length_append]
  · rw [hT'.sim.stack, hsim.stack, append_assoc]
  · rw [hT'.sim.data, hsim.data]

end

/-! ## Chains of operators -/

/-- The class of an operator in the order of JavaScript, where `*` is in one with `/` and `%`: 3 for
the shifts, 4 for `+` and `-`, 5 for `*`, `/` and `%`. -/
def BinOp.rank (o : BinOp) : Nat := min o.level 5

/-- How tight an operand of a chain binds. -/
def operandLevel (k : Nat) : Nat := if k = 5 then 7 else k + 1

/-- The operands `e`, … of a chain, each but the first with the operator before it. -/
structure Chain (k : Nat) (e : Exp) (r : List (BinOp × Exp)) : Prop where
  rank : 3 ≤ k
  ops : ∀ p ∈ r, p.1.rank = k
  first : e.Parsed ∧ operandLevel k ≤ e.level
  others : ∀ p ∈ r, p.2.Parsed ∧ operandLevel k ≤ p.2.level

def chainTokens (e : Exp) (r : List (BinOp × Exp)) : List Token :=
  e.tokens ++ r.flatMap fun p => tk p.1.term :: p.2.tokens

/-- One more factor. -/
def mulSnoc (e : Exp) : Exp → Exp
  | .bin o a b => if o = .mul then .bin o a (mulSnoc e b) else .bin .mul (.bin o a b) e
  | t => .bin .mul t e

/-- The tree of a chain, of which the operand `t` has been read. -/
def chainTree (t : Exp) : List (BinOp × Exp) → Exp
  | [] => t
  | (o, e) :: r => if o = .mul then chainTree (mulSnoc e t) r else .bin o t (chainTree e r)

theorem mulSnoc_cases (e t : Exp) :
    (∃ a b, t = .bin .mul a b ∧ mulSnoc e t = .bin .mul a (mulSnoc e b)) ∨
      t.level ≠ 6 ∧ mulSnoc e t = .bin .mul t e := by
  cases t with
  | bin o a b =>
    by_cases ho : o = .mul
    · subst ho
      exact .inl ⟨a, b, rfl, by rw [mulSnoc, if_pos rfl]⟩
    · refine .inr ⟨fun h => ho ?_, by rw [mulSnoc, if_neg ho]⟩
      replace h : o.level = 6 := h
      revert h
      cases o <;> decide
  | un o e => exact .inr ⟨nofun, rfl⟩
  | _ => exact .inr ⟨nofun, rfl⟩

theorem tokens_mulSnoc (e t : Exp) :
    (mulSnoc e t).tokens = t.tokens ++ tk BinOp.mul.term :: e.tokens := by
  rcases mulSnoc_cases e t with ⟨a, b, rfl, h⟩ | ⟨-, h⟩
  · rw [h, Exp.tokens, tokens_mulSnoc e b, Exp.tokens, append_assoc, cons_append]
  · rw [h, Exp.tokens]
termination_by sizeOf t

theorem parsed_mulSnoc {e t : Exp} (he : e.Parsed) (hle : 7 ≤ e.level) (ht : t.Parsed)
    (hlt : 6 ≤ t.level) : (mulSnoc e t).Parsed ∧ 6 ≤ (mulSnoc e t).level := by
  rcases mulSnoc_cases e t with ⟨a, b, rfl, h⟩ | ⟨hne, h⟩
  · obtain ⟨ha, hb, hla, hlb⟩ := ht
    obtain ⟨hp, hl⟩ := parsed_mulSnoc he hle hb hlb
    rw [h]
    exact ⟨⟨ha, hp, hla, hl⟩, Nat.le_refl 6⟩
  · have hlt' : 6 < t.level := by omega
    rw [h]
    exact ⟨⟨ht, he, hlt', Nat.le_of_succ_le hle⟩, Nat.le_refl 6⟩
termination_by sizeOf t

theorem tokens_chainTree : (chainTree t r).tokens = chainTokens t r := by
  induction r generalizing t with
  | nil => simp [chainTree, chainTokens]
  | cons p r ih =>
    obtain ⟨o, e⟩ := p
    rw [chainTree]
    split
    · rename_i ho
      rw [ih, chainTokens, tokens_mulSnoc, ho]
      simp [chainTokens]
    · rw [Exp.tokens, ih]
      simp [chainTokens]

theorem BinOp.level_of_rank (h : o.rank = k) (ho : o ≠ .mul) : o.level = k := by
  revert h ho
  cases o <;> simp [BinOp.rank, BinOp.level]

theorem parsed_chainTree (hops : ∀ p ∈ r, p.1.rank = k)
    (hr : ∀ p ∈ r, p.2.Parsed ∧ operandLevel k ≤ p.2.level) (ht : t.Parsed) (hlt : k < t.level) :
    (chainTree t r).Parsed ∧ k ≤ (chainTree t r).level := by
  induction r generalizing t with
  | nil => exact ⟨ht, Nat.le_of_lt hlt⟩
  | cons p r ih =>
    obtain ⟨o, e⟩ := p
    obtain ⟨ho, hops'⟩ := forall_mem_cons.mp hops
    obtain ⟨⟨hpe, hle⟩, hr'⟩ := forall_mem_cons.mp hr
    replace hle : operandLevel k ≤ e.level := hle
    rw [chainTree]
    split
    · rename_i hmul
      subst hmul
      obtain rfl : 5 = k := ho
      obtain ⟨hp, hl⟩ := parsed_mulSnoc hpe hle ht hlt
      exact ih hops' hr' hp hl
    · rename_i hmul
      have hk : k < e.level := by
        unfold operandLevel at hle
        split at hle <;> omega
      obtain ⟨hp, hl⟩ := ih hops' hr' hpe hk
      have hlo := BinOp.level_of_rank ho hmul
      exact ⟨⟨ht, hp, by rwa [hlo], by rwa [hlo]⟩, Nat.le_of_eq hlo.symm⟩

theorem Chain.eq_chainTree {e : Exp} (hc : Chain k e r) (ht : t.Parsed)
    (h : t.tokens = chainTokens e r) : t = chainTree e r := by
  have hk : k < e.level := by
    have := hc.first.2
    unfold operandLevel at this
    split at this <;> omega
  obtain ⟨hp, -⟩ := parsed_chainTree hc.ops hc.others hc.first.1 hk
  exact Exp.unique ht hp (h.trans tokens_chainTree.symm)

/-! ## Values of chains -/

/-- The value of a chain by the rules of the grammar. -/
def grouped (H : Host) (a : Word) : List (BinOp × Word) → Option Word
  | [] => some a
  | (o, b) :: r => if o = .mul then grouped H (a * b) r else (grouped H b r).bind (o.intOp.eval H a)

/-- The value of a chain from left to right. -/
def leftToRight (H : Host) (a : Word) : List (BinOp × Word) → Option Word
  | [] => some a
  | (o, b) :: r => (o.intOp.eval H a b).bind fun c => leftToRight H c r

/-- The values of the operands after the first, from left to right. -/
def operandValues (C : Scene) : List (BinOp × Exp) → Log → Option (List (BinOp × Word) × Log)
  | [], σ => some ([], σ)
  | (o, e) :: r, σ => do
    let (b, σ) ← e.eval C σ
    let (bs, σ) ← operandValues C r σ
    some ((o, b) :: bs, σ)

section
variable {C : Scene} {σ σ1 σ' : Log} {a b w : Word}

theorem eval_bin {l r : Exp} (hl : l.eval C σ = some (a, σ1)) (hr : r.eval C σ1 = some (b, σ'))
    (ho : o.intOp.eval C.host a b = some w) : (Exp.bin o l r).eval C σ = some (w, σ') := by
  simp only [Exp.eval, hl, hr, ho, bind_eq_bind, bind_some]

theorem eval_bin_eq_some {l r : Exp} (h : (Exp.bin o l r).eval C σ = some (w, σ')) :
    ∃ a σ1 b, l.eval C σ = some (a, σ1) ∧ r.eval C σ1 = some (b, σ') ∧
      o.intOp.eval C.host a b = some w := by
  obtain ⟨⟨a, σ1⟩, hl, h⟩ := bind_eq_some_iff.mp h
  obtain ⟨⟨b, σ2⟩, hr, h⟩ := bind_eq_some_iff.mp h
  obtain ⟨v, ho, h⟩ := bind_eq_some_iff.mp h
  cases h
  exact ⟨a, σ1, b, hl, hr, ho⟩

theorem eval_mulSnoc {e t : Exp} {σ σ1 σ' : Log} {a b : Word} (ht : t.eval C σ = some (a, σ1))
    (he : e.eval C σ1 = some (b, σ')) :
    (mulSnoc e t).eval C σ = some (a * b, σ') := by
  rcases mulSnoc_cases e t with ⟨x, y, rfl, h⟩ | ⟨-, h⟩
  · obtain ⟨p, σ2, q, hx, hy, hpq⟩ := eval_bin_eq_some ht
    cases hpq
    rw [h, BitVec.mul_assoc]
    exact eval_bin hx (eval_mulSnoc hy he) rfl
  · rw [h]
    exact eval_bin ht he rfl
termination_by sizeOf t

theorem operandValues_ops (h : operandValues C r σ = some (bs, σ')) :
    bs.map Prod.fst = r.map Prod.fst := by
  induction r generalizing σ bs with
  | nil =>
    cases h
    rfl
  | cons p r ih =>
    obtain ⟨⟨b, σ2⟩, he, h⟩ := bind_eq_some_iff.mp h
    obtain ⟨⟨cs, σ3⟩, hcs, h⟩ := bind_eq_some_iff.mp h
    cases h
    rw [map_cons, map_cons, ih hcs]

theorem eval_chainTree (ht : t.eval C σ = some (a, σ1))
    (hr : operandValues C r σ1 = some (bs, σ')) (hw : grouped C.host a bs = some w) :
    (chainTree t r).eval C σ = some (w, σ') := by
  induction r generalizing t σ σ1 a bs w with
  | nil =>
    cases hr
    cases hw
    exact ht
  | cons p r ih =>
    obtain ⟨⟨b, σ2⟩, he, hr⟩ := bind_eq_some_iff.mp hr
    obtain ⟨⟨cs, σ3⟩, hcs, hr⟩ := bind_eq_some_iff.mp hr
    cases hr
    rw [chainTree]
    rw [grouped] at hw
    split
    · rename_i ho
      rw [if_pos ho] at hw
      exact ih (eval_mulSnoc ht he) hcs hw
    · rename_i ho
      rw [if_neg ho] at hw
      obtain ⟨v, hv, hw⟩ := bind_eq_some_iff.mp hw
      exact eval_bin ht (ih he hcs hv) hw

end

section
variable {H : Host}

/-- The first term of a sum can be added last. -/
theorem grouped_add (a b : Word) {r : List (BinOp × Word)} (hr : ∀ p ∈ r, p.1.rank = 4) :
    grouped H (a + b) r = (grouped H b r).map (a + ·) := by
  cases r with
  | nil => rfl
  | cons p r =>
    obtain ⟨o, c⟩ := p
    have ho : o.rank = 4 := hr (o, c) mem_cons_self
    have hop : ∀ x, o.intOp.eval H (a + b) x = (o.intOp.eval H b x).map (a + ·) := by
      intro x
      cases o <;> simp [BinOp.rank, BinOp.level] at ho
      · exact congrArg some (BitVec.add_assoc a b x)
      · exact congrArg some (by rw [BitVec.sub_eq_add_neg, BitVec.sub_eq_add_neg, BitVec.add_assoc])
    have hmul : o ≠ .mul := by
      rintro rfl
      cases ho
    rw [grouped, grouped, if_neg hmul, if_neg hmul]
    cases grouped H c r with
    | none => rfl
    | some x => exact hop x

/-- Both groupings agree where every operator but the last is `+` or `*`. -/
theorem grouped_eq_leftToRight {a : Word} (hk : ∀ o ∈ bs.map Prod.fst, o.rank = k)
    (hassoc : ∀ o ∈ (bs.map Prod.fst).dropLast, o = .add ∨ o = .mul) :
    grouped H a bs = leftToRight H a bs := by
  induction bs generalizing a with
  | nil => rfl
  | cons p bs ih =>
    obtain ⟨o, b⟩ := p
    obtain ⟨ho, hk'⟩ := forall_mem_cons.mp hk
    rw [grouped, leftToRight]
    cases bs with
    | nil =>
      simp only [leftToRight, grouped, bind_some, bind_fun_some]
      split
      · rename_i hmul
        rw [hmul]
        rfl
      · rfl
    | cons q bs =>
      obtain ⟨ho', hassoc'⟩ := forall_mem_cons.mp hassoc
      rcases ho' with rfl | rfl
      · obtain rfl : 4 = k := ho
        rw [if_neg nofun]
        have h := ih (a := a + b) hk' hassoc'
        rw [grouped_add a b (List.forall_mem_map.mp hk')] at h
        rw [show IntOp.eval H (BinOp.intOp .add) a b = some (a + b) from rfl, bind_some, ← h]
        cases grouped H b (q :: bs) with
        | none => rfl
        | some x => rfl
      · rw [if_pos rfl]
        exact ih hk' hassoc'

/-- An operand that keeps the values up to `M`. -/
theorem exists_neutral (ho : 3 ≤ o.rank) {M : Nat} (hM : M + 1 < 2 ^ 31) :
    ∃ b : Word, b.toNat ≤ M + 1 ∧ ∀ v : Word, v.toNat ≤ M → o.intOp.eval H v b = some v := by
  by_cases hmod : o = .mod
  · subst hmod
    have hb : (BitVec.ofNat 32 (M + 1)).toNat = M + 1 := by
      rw [BitVec.toNat_ofNat]
      omega
    refine ⟨BitVec.ofNat 32 (M + 1), hb.le, fun v hv => ?_⟩
    rw [BinOp.intOp, IntOp.eval, if_neg fun h => by simp [h] at hb, some.injEq]
    apply BitVec.eq_of_toInt_eq
    rw [BitVec.toInt_srem, BitVec.toInt_eq_toNat_of_lt (by omega), BitVec.toInt_eq_toNat_of_lt (by omega)]
    exact Int.tmod_eq_of_lt (by omega) (by omega)
  · refine ⟨if o.rank = 5 then 1 else 0, by split <;> simp, fun v _ => ?_⟩
    revert ho hmod
    cases o <;> simp [BinOp.rank, BinOp.level, BinOp.intOp, IntOp.eval]

theorem grouped_cons {a b c : Word} (ho : o.intOp.eval H a b = some c) (hb : grouped H b bs = some b)
    (hc : grouped H c bs = some c) : grouped H a ((o, b) :: bs) = some c := by
  rw [grouped]
  split
  · rename_i hmul
    subst hmul
    rw [show a * b = c from some.inj ho, hc]
  · rw [hb, bind_some, ho]

variable {ops : List BinOp}

/-- Operands that keep them along a chain, in both groupings. -/
theorem exists_tail (hops : ∀ o ∈ ops, 3 ≤ o.rank) {M : Nat} (hM : M + ops.length < 2 ^ 31) :
    ∃ bs : List (BinOp × Word), bs.map Prod.fst = ops ∧
      ∀ v : Word, v.toNat ≤ M → grouped H v bs = some v ∧ leftToRight H v bs = some v := by
  induction ops generalizing M with
  | nil => exact ⟨[], rfl, fun v _ => ⟨rfl, rfl⟩⟩
  | cons o ops ih =>
    obtain ⟨ho, hops⟩ := forall_mem_cons.mp hops
    rw [length_cons] at hM
    obtain ⟨b, hb, hneutral⟩ := exists_neutral (H := H) ho (M := M) (by omega)
    obtain ⟨bs, hbs, hkeep⟩ := ih hops (M := M + 1) (by omega)
    refine ⟨(o, b) :: bs, by rw [map_cons, hbs], fun v hv => ?_⟩
    obtain ⟨hg, hl⟩ := hkeep v (by omega)
    refine ⟨grouped_cons (hneutral v hv) (hkeep b hb).1 hg, ?_⟩
    rw [leftToRight, hneutral v hv, bind_some, hl]

/-- On 25, 4 and 2 an operator that is not `+` or `*` makes a difference. -/
theorem exists_apart {o' : BinOp} (ho : 3 ≤ o.rank) (hne : ¬ (o = .add ∨ o = .mul))
    (ho' : o'.rank = o.rank) : ∃ x y z : Word, o.intOp.eval H 25 4 = some x ∧
      o'.intOp.eval H x 2 = some y ∧ o'.intOp.eval H 4 2 = some z ∧ o.intOp.eval H 25 z ≠ some y ∧
      y.toNat ≤ 1600 ∧ z.toNat ≤ 1600 := by
  cases o <;> simp [BinOp.rank, BinOp.level] at ho hne <;> cases o' <;>
    simp [BinOp.rank, BinOp.level] at ho' <;> simp [BinOp.intOp, IntOp.eval]

/-- Every other chain has operands on which the groupings differ. -/
theorem exists_regrouped (hk : ∀ o ∈ ops, o.rank = k) (h3 : 3 ≤ k) (hlen : ops.length < 2 ^ 30)
    (hbad : ¬ ∀ o ∈ ops.dropLast, o = .add ∨ o = .mul) :
    ∃ (a : Word) (bs : List (BinOp × Word)) (w : Word), bs.map Prod.fst = ops ∧
      leftToRight H a bs = some w ∧ grouped H a bs ≠ some w := by
  induction ops with
  | nil => exact absurd nofun hbad
  | cons o ops ih =>
    obtain ⟨ho, hk⟩ := forall_mem_cons.mp hk
    rw [length_cons] at hlen
    cases ops with
    | nil => exact absurd nofun hbad
    | cons o' ops =>
      rw [dropLast_cons_cons, forall_mem_cons] at hbad
      by_cases hassoc : o = .add ∨ o = .mul
      · -- the operand in front is the neutral one
        obtain ⟨a, bs, w, hbs, hl, hg⟩ := ih hk (by omega) fun h => hbad ⟨hassoc, h⟩
        rcases hassoc with rfl | rfl
        · refine ⟨0, (.add, a) :: bs, w, by rw [map_cons, hbs], ?_, ?_⟩
          · simpa [leftToRight, BinOp.intOp, IntOp.eval] using hl
          · have hzero : IntOp.eval H (BinOp.intOp .add) 0 = some :=
              funext fun x => congrArg some (BitVec.zero_add x)
            rwa [grouped, if_neg nofun, hzero, bind_fun_some]
        · refine ⟨1, (.mul, a) :: bs, w, by rw [map_cons, hbs], ?_, ?_⟩
          · simpa [leftToRight, BinOp.intOp, IntOp.eval] using hl
          · simpa [grouped] using hg
      · obtain ⟨ho', hk⟩ := forall_mem_cons.mp hk
        obtain ⟨x, y, z, h1, h2, h3, hne, hy, hz⟩ :=
          exists_apart (H := H) (by omega) hassoc (ho'.trans ho.symm)
        rw [length_cons] at hlen
        obtain ⟨bs, hbs, hkeep⟩ := exists_tail (H := H) (fun o ho => (hk o ho).symm ▸ by omega)
          (by omega : 1600 + ops.length < 2 ^ 31)
        refine ⟨25, (o, 4) :: (o', 2) :: bs, y, by simp [hbs], ?_, ?_⟩
        · rw [leftToRight, h1, bind_some, leftToRight, h2, bind_some, (hkeep y hy).2]
        · have hright := grouped_cons h3 (hkeep 2 (by decide)).1 (hkeep z hz).1
          rwa [grouped, if_neg fun h => hassoc (.inr h), hright, bind_some]

end

section
variable {E : Env} {H : Host} {m : Sdt} {top n : Nat} {code0 : Nat → Byte} {txt : List Char}
  {p : Program} {is : List Item} {S' : Static} {data : Nat → Word}

/-- What an expression of an accepted text is evaluated in, when `microjs_exec` comes to it in the
state `v` and the translator was in the state `S`. -/
def sceneOf (E : Env) (H : Host) (S : Static) (v : Vm) : Scene :=
  ⟨H, E.lib, E.cstrAdd, S.lookup, v.data⟩

variable (h : compile E top code0 n txt = some (.ok m)) (hp : p.Parsed)
  (hlex : Lexes txt (p.tokens ++ [tk .eof])) (hi : p.items E.lib E.cstrAdd Static.init = some (is, S'))
  (hR : Regular E H p is S') (hl : LowRun H m.code data) {S S1 : Static} {x it y : List Item}
  (hsplit : wholeItems is = x ++ it ++ y) {k : Nat} {v : Vm}
  (hk : Vm.exec H m.code k (Vm.init data) = .next v)
  (hpc : v.pc = addrOf E.opt (wholeItems is) x.length)
include h hp hlex hi hR hl hsplit hk hpc

/-- **`microjs_exec` computes the values of expressions.** -/
theorem Regular.computes {e : Exp} (hn : e.Narrow) (he : e.items E.lib E.cstrAdd S = some (it, S1))
    {w : Word} {σ : Log} (hw : e.eval (sceneOf E H S v) ⟨S.strs, v.calls⟩ = some (w, σ)) :
    ∃ j v', Vm.exec H m.code j v = .next v' ∧
      v'.pc = addrOf E.opt (wholeItems is) (x ++ it).length ∧ v'.stack = w :: v.stack ∧
      v'.data = v.data :=
  (hR.linked h hp hlex hi).computes hl hsplit hk hpc
    (e.works (C := sceneOf E H S v) hR.modest hn ⟨rfl, rfl⟩ he hw).computes

/-- A chain of operators of one class leaves on the stack the value with the multiplications first
and the other operators from the right. This is the value from left to right, for all operands, just
if every operator but the last is `+` or `*`. -/
theorem chain_value {c : Nat} {e : Exp} {r : List (BinOp × Exp)} (hc : Chain c e r)
    {t : Exp} (ht : t.Parsed) (htok : t.tokens = chainTokens e r) (hn : t.Narrow)
    (hit : t.items E.lib E.cstrAdd S = some (it, S1)) {a : Word} {bs : List (BinOp × Word)}
    {σ σ' : Log} (ha : e.eval (sceneOf E H S v) ⟨S.strs, v.calls⟩ = some (a, σ))
    (hbs : operandValues (sceneOf E H S v) r σ = some (bs, σ')) {w : Word}
    (hw : grouped H a bs = some w) : (∃ j v', Vm.exec H m.code j v = .next v' ∧
      v'.pc = addrOf E.opt (wholeItems is) (x ++ it).length ∧ v'.stack = w :: v.stack ∧
      v'.data = v.data) ∧
    ((∀ q ∈ r.dropLast, q.1 = .add ∨ q.1 = .mul) → leftToRight H a bs = some w) ∧
    (r.length < 2 ^ 30 → ((∀ q ∈ r.dropLast, q.1 = .add ∨ q.1 = .mul) ↔
      ∀ (a : Word) (bs : List (BinOp × Word)), bs.map Prod.fst = r.map Prod.fst →
        leftToRight H a bs ≠ none → grouped H a bs = leftToRight H a bs)) := by
  have hops : ∀ o ∈ r.map Prod.fst, o.rank = c := List.forall_mem_map.mpr hc.ops
  have hassoc : (∀ q ∈ r.dropLast, q.1 = .add ∨ q.1 = .mul) ↔
      ∀ o ∈ (r.map Prod.fst).dropLast, o = .add ∨ o = .mul := by
    rw [← map_dropLast, List.forall_mem_map]
  rw [hassoc]
  refine ⟨hR.computes h hp hlex hi hl hsplit hk hpc hn hit (σ := σ') ?_, fun hassoc => ?_, fun hlen => ?_⟩
  · rw [hc.eq_chainTree ht htok]
    exact eval_chainTree ha hbs hw
  · rw [← operandValues_ops hbs] at hops hassoc
    rw [← hw, grouped_eq_leftToRight hops hassoc]
  · refine ⟨fun hassoc a bs hbs _ => ?_, fun hsame => ?_⟩
    · rw [← hbs] at hops hassoc
      exact grouped_eq_leftToRight hops hassoc
    · by_contra hbad
      obtain ⟨a, bs, w, hbs, hl, hg⟩ := exists_regrouped (H := H) hops hc.rank (by rwa [length_map]) hbad
      exact hg ((hsame a bs hbs (by simp [hl])).trans hl)

/-- The logical operators: what `||` leaves is zero just if both operands are, and what `&&` leaves
is not zero just if both operands are not, provided that one of them is or that they have a bit in
common. -/
theorem logical_value {o : BinOp} {l r : Exp} (hn : (Exp.bin o l r).Narrow)
    (hit : (Exp.bin o l r).items E.lib E.cstrAdd S = some (it, S1)) {a b : Word} {σ σ' : Log}
    (ha : l.eval (sceneOf E H S v) ⟨S.strs, v.calls⟩ = some (a, σ))
    (hb : r.eval (sceneOf E H S v) σ = some (b, σ')) :
    (o = .logicOr → ∃ j v' w, Vm.exec H m.code j v = .next v' ∧
      v'.pc = addrOf E.opt (wholeItems is) (x ++ it).length ∧ v'.stack = w :: v.stack ∧
      v'.data = v.data ∧ (w ≠ 0 ↔ a ≠ 0 ∨ b ≠ 0)) ∧
    (o = .logicAnd → ∃ j v' w, Vm.exec H m.code j v = .next v' ∧
      v'.pc = addrOf E.opt (wholeItems is) (x ++ it).length ∧ v'.stack = w :: v.stack ∧
      v'.data = v.data ∧ ((w ≠ 0 ↔ a ≠ 0 ∧ b ≠ 0) ↔ a = 0 ∨ b = 0 ∨ a &&& b ≠ 0)) := by
  have hvalue : ∀ w, o.intOp.eval H a b = some w → ∃ j v', Vm.exec H m.code j v = .next v' ∧
      v'.pc = addrOf E.opt (wholeItems is) (x ++ it).length ∧ v'.stack = w :: v.stack ∧
      v'.data = v.data :=
    fun w hw => hR.computes h hp hlex hi hl hsplit hk hpc hn hit (eval_bin ha hb hw)
  constructor
  · rintro rfl
    obtain ⟨j, v', hj, hpc', hstack, hdata⟩ := hvalue (a ||| b) rfl
    refine ⟨j, v', a ||| b, hj, hpc', hstack, hdata, ?_⟩
    have hor : a ||| b = 0 ↔ a = 0 ∧ b = 0 := BitVec.or_eq_zero_iff
    rw [ne_eq, hor, not_and_or]
  · rintro rfl
    obtain ⟨j, v', hj, hpc', hstack, hdata⟩ := hvalue (a &&& b) rfl
    refine ⟨j, v', a &&& b, hj, hpc', hstack, hdata, ?_⟩
    by_cases ha : a = 0
    · simp [ha]
    · by_cases hb : b = 0
      · simp [hb]
      · simp only [ne_eq, ha, hb, not_false_eq_true, and_self, iff_true, false_or]

end

/-! ## Runs -/

theorem exists_of_place {o : Outcome Vm} {pc depth : Nat} {xp : Int}
    (h : o.place = some (pc, depth, xp)) : ∃ v, o = .next v ∧ v.pc = pc := by
  cases o with
  | next v =>
    cases h
    exact ⟨v, rfl, rfl⟩
  | done r v => cases h
  | fault => cases h

/-- A text without a library, run up to the assigned expression of its first statement. -/
theorem exists_started (txt : String) (p : Program) (is : List Item) (hn : p.Narrow)
    (hf : ∀ (i : Nat) (hi : i < (wholeItems is).length),
      (wholeItems is)[i].Fits true (wholeItems is) i)
    (hi : itemsAre is (p.items (bareEnv true).lib (bareEnv true).cstrAdd Static.init) = true)
    (hc : okWith (fun m => Vm.always bareHost m.code (fun v => v.xp ≤ 1) 20 (Vm.init fun _ => 0) = true ∧
        (Vm.exec bareHost m.code 1 (Vm.init fun _ => 0)).place = some (2, 1, 1))
      (compile (bareEnv true) 1024 (fun _ => 0) 1024 txt.toList) = true) :
    ∃ m v S', (bareEnv true).Compiles txt m ∧ LowRun bareHost m.code (fun _ => 0) ∧
      Vm.exec bareHost m.code 1 (Vm.init fun _ => 0) = .next v ∧ v.pc = 2 ∧
      p.items (bareEnv true).lib (bareEnv true).cstrAdd Static.init = some (is, S') ∧
      Regular (bareEnv true) bareHost p is S' := by
  obtain ⟨m, hm, hrun, hplace⟩ := exists_of_okWith hc
  obtain ⟨v, hv, hpc⟩ := exists_of_place hplace
  obtain ⟨S', hi, hs⟩ := exists_of_itemsAre hi
  exact ⟨m, v, S', hm, lowRun_of_always rfl hrun, hv, hpc, hi, regular_bare hs hn hf⟩

/-- `var x; x = 5 + 3 - 2;` -/
def summing : Program :=
  .semi (.vars ("x".toList, none) []) <|
  .semi (.simple (.assign "x".toList (.bin .add (.int 5) (.bin .sub (.int 3) (.int 2))))) .eof

def summingItems : List Item :=
  [.lit (.int 5) 0, .lit (.int 3) 0, .lit (.int 2) 0, .bin .sub, .bin .add, .st 0]

theorem chain_value_summing : ∃ m v v' j,
    (bareEnv true).Compiles "var x;x=5+3-2;" m ∧
    Vm.exec bareHost m.code 1 (Vm.init fun _ => 0) = .next v ∧
    Vm.exec bareHost m.code j v = .next v' ∧ v'.stack = 6 :: v.stack ∧
    leftToRight bareHost 5 [(.add, 3), (.sub, 2)] = some 6 := by
  obtain ⟨m, v, S', hm, hl, hv, hpc, hi, hR⟩ :=
    exists_started "var x;x=5+3-2;" summing summingItems
      (by simp [summing, Program.Narrow, Semi.Narrow, Simple.Narrow, Exp.Narrow]) (by decide)
      (by decide +kernel) (by decide +kernel)
  have hlex : Lexes "var x;x=5+3-2;".toList (summing.tokens ++ [tk .eof]) :=
    lexes_of_lexesAll (by decide +kernel)
  have hp : summing.Parsed := by
    simp [summing, Program.Parsed, Semi.Parsed, Simple.Parsed, Exp.Parsed, Exp.level, BinOp.level]
  have hc : Chain 4 (.int 5) [(.add, .int 3), (.sub, .int 2)] := by
    refine ⟨by decide, by decide, ⟨trivial, by decide⟩, ?_⟩
    simp [Exp.Parsed, operandLevel, Exp.level]
  have ht : (Exp.bin .add (.int 5) (.bin .sub (.int 3) (.int 2))).Parsed := by
    simp [Exp.Parsed, Exp.level, BinOp.level]
  obtain ⟨⟨j, v', hj, -, hstack, -⟩, hleft, -⟩ :=
    chain_value hm hp hlex hi hR hl (x := [.pushx 7])
      (y := [.st 0, .finish, .ret]) rfl hv hpc hc ht rfl (by simp [Exp.Narrow]) (S := Static.init) rfl
      rfl rfl (w := 6) rfl
  exact ⟨m, v, v', j, hm, hv, hj, hstack, hleft (by decide)⟩

/-- `10 - 3 - 2` is 9. -/
theorem chain_groups_right : leftToRight bareHost 10 [(.sub, 3), (.sub, 2)] = some 5 ∧
    ∃ m, (bareEnv true).Compiles "var x;x=10-3-2;" m ∧
      (Vm.exec bareHost m.code 10 (Vm.init fun _ => 0)).result = some (0, 9, 0) :=
  ⟨by decide, exists_of_okWith (by decide +kernel)⟩

/-- `var x; x = 1 && 3;` -/
def masking : Program :=
  .semi (.vars ("x".toList, none) []) <|
  .semi (.simple (.assign "x".toList (.bin .logicAnd (.int 1) (.int 3)))) .eof

def maskingItems : List Item := [.lit (.int 1) 0, .lit (.int 3) 0, .bin .and, .st 0]

theorem logical_value_masking : ∃ m v v' j w,
    (bareEnv true).Compiles "var x;x=1&&3;" m ∧
    Vm.exec bareHost m.code 1 (Vm.init fun _ => 0) = .next v ∧
    Vm.exec bareHost m.code j v = .next v' ∧ v'.stack = w :: v.stack ∧ w ≠ 0 := by
  obtain ⟨m, v, S', hm, hl, hv, hpc, hi, hR⟩ :=
    exists_started "var x;x=1&&3;" masking maskingItems
      (by simp [masking, Program.Narrow, Semi.Narrow, Simple.Narrow, Exp.Narrow]) (by decide)
      (by decide +kernel) (by decide +kernel)
  have hlex : Lexes "var x;x=1&&3;".toList (masking.tokens ++ [tk .eof]) :=
    lexes_of_lexesAll (by decide +kernel)
  have hp : masking.Parsed := by
    simp [masking, Program.Parsed, Semi.Parsed, Simple.Parsed, Exp.Parsed, Exp.level, BinOp.level]
  obtain ⟨j, v', w, hj, -, hstack, -, hand⟩ :=
    (logical_value hm hp hlex hi hR hl (x := [.pushx 5])
      (y := [.st 0, .finish, .ret]) rfl hv hpc (o := .logicAnd) (l := .int 1) (r := .int 3)
      (by simp [Exp.Narrow]) (S := Static.init) rfl rfl rfl).2 rfl
  refine ⟨m, v, v', j, w, hm, hv, hj, hstack, ?_⟩
  exact (hand.mpr (.inr (.inr (by decide)))).mpr ⟨by decide, by decide⟩

/-- `if (1 && 2)` does not take its branch. -/
theorem logical_and_of_bits : ∃ m, (bareEnv true).Compiles "var x;x=1;if(1&&2)\x7bx=2;\x7d" m ∧
      (Vm.exec bareHost m.code 10 (Vm.init fun _ => 0)).result = some (0, 1, 0) :=
  exists_of_okWith (by decide +kernel)

end MicroJS
