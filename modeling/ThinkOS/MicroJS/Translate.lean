import ThinkOS.Lib.Outcome
import ThinkOS.MicroJS.Control
import ThinkOS.MicroJS.Parse

/-!
# MicroJS: the translation of a tree

Running a tree's actions stores the tree's items, for each class of trees; `exists_items_of_compile`
puts the parts together for a whole compilation.
-/

namespace MicroJS

open Segment Lib

/-! ## Expressions -/

section
variable {L : LibDef} {cstr : List Name → Name → Int} {S S' : Static} {is : List Item}

theorem tails_const {c : Const} {k : Nat} : Tails [.lit c k] (S.const c k) := by
  intro c' k'
  simp [Static.const]

theorem tails_plain (hn : ∀ c k, is ≠ [.lit c k]) : Tails is S.plain := by
  intro c k
  simp [Static.plain, hn c k]

theorem tails_past (hn : ∀ c k, is ≠ [.lit c k]) : Tails is S.past := by
  intro c k
  simp only [Static.past, hn c k, iff_false]
  cases S.saved <;> simp

theorem ne_lit_of_mem (it : Item) (hm : it ∈ is) (hi : ∀ c k, it ≠ .lit c k) (c : Const) (k : Nat) :
    is ≠ [.lit c k] := by
  rintro rfl
  exact hi c k (List.mem_singleton.mp hm)

theorem mem_callItems {xid n : Nat} {x : ExtDef} {call : List Item}
    (h : callItems xid x n = some call) : call = [.ext xid n x.ret] ∧ x.argmin ≤ n ∧ n ≤ x.argmax := by
  unfold callItems at h
  split at h
  · cases h
    exact ⟨rfl, ‹_›⟩
  · cases h

theorem tails_unItems {o : UnOp} : Tails (unItems o is S).1 (unItems o is S).2 := by
  have hplain : ∀ o : UnOp, Tails (is ++ [.un o]) S.plain := fun o =>
    tails_plain (ne_lit_of_mem (.un o) (by simp) (by simp))
  cases o with
  | minus =>
    rcases unItems_minus is S with ⟨c, k, -, hm⟩ | ⟨-, hm⟩
    · rw [hm]
      exact tails_const
    · rw [hm]
      exact hplain .minus
  | inv => exact hplain .inv
  | not => exact hplain .not

theorem tails_binItems {o : BinOp} {il ir : List Item} : Tails (binItems o il ir) S.plain := by
  rcases binItems_cases o il ir with ⟨f, c, k, -, -, -, hi⟩ | hi
  · exact tails_plain (ne_lit_of_mem (.fuse f c k) (by simp [hi]) (by simp))
  · exact tails_plain (ne_lit_of_mem (.bin o.intOp) (by simp [hi]) (by simp))

theorem tails_call (xid n : Nat) (x : ExtDef) (a b : List Item) :
    Gives (callItems xid x n) fun call => Tails (a ++ call ++ b) S.plain := by
  intro call h
  obtain ⟨rfl, -⟩ := mem_callItems h
  exact tails_plain (ne_lit_of_mem (.ext xid n x.ret) (by simp) (by simp))

theorem tails_attr (xid n : Nat) (a : List Item) : Tails (a ++ [.ext xid n 1]) S.past :=
  tails_past (ne_lit_of_mem (.ext xid n 1) (by simp) (by simp))

/-- The optimizer's view of an expression: a literal at the saved position is the last instruction
exactly when the expression is that literal. -/
theorem Exp.tails : ∀ (e : Exp) (S : Static), Gives (e.items L cstr S) fun r => Tails r.1 r.2
  | .int _, _ => .ret tails_const
  | .char _, _ => .ret tails_const
  | .str _, _ => .unless fun _ => .ret tails_const
  | .bool _, _ => .ret tails_const
  | .var _, _ => .bind .self fun _ _ => .ret (tails_plain (by simp))
  | .paren e, S => e.tails S
  | .un o _, _ => .bind .self fun _ _ => .ret tails_unItems
  | .bin o _ _, _ => .bind .self fun _ _ => .bind .self fun _ _ => .ret tails_binItems
  | .call _ _, _ => .bind .self fun _ _ => .bind .self fun _ _ =>
    (tails_call _ _ _ _ _).bind fun _ h => .unless fun _ => .ret h
  | .attr _ _, _ => .bind .self fun _ _ => .bind .self fun _ _ => .ret (tails_attr _ _ _)
  | .elem _ _ _, _ => .bind .self fun _ _ => .bind .self fun _ _ => .bind .self fun _ _ =>
    .ret (tails_attr _ _ _)
  | .method _ _ _, _ => .bind .self fun _ _ => .bind .self fun _ _ => .bind .self fun _ _ =>
    (tails_call _ _ _ _ _).bind fun _ h => .unless fun _ => .ret h

end

section
variable {E : Env}

mutual

theorem Exp.emitted : ∀ (e : Exp) {S : Static} {m m' : Sdt}, Knows S m → e.emit E m = .ok m' →
    ∃ is S', e.items E.lib E.cstrAdd S = some (is, S') ∧ Emitted E S S' m m' is ∧
      m'.tab.core = m.tab.core
  | .int v, S, m, m', hK, h => ⟨_, _, rfl, emitted_pushInt hK h⟩
  | .char v, S, m, m', hK, h => ⟨_, _, rfl, emitted_pushInt hK h⟩
  | .str s, S, m, m', hK, h => by
    obtain ⟨hn, he⟩ := emitted_pushString hK h
    refine ⟨_, _, ?_, he⟩
    simp only [Exp.items]
    rw [if_neg (not_lt.mpr hn)]
  | .bool b, S, m, m', hK, h => by
    refine ⟨_, _, rfl, emitted_pushBool hK ?_⟩
    cases b with
    | false => exact act_ok (x := .opPushFalse) (k := tk .eof) h
    | true => exact act_ok (x := .opPushTrue) (k := tk .eof) h
  | .var s, S, m, m', hK, h => by
    obtain ⟨m1, h1, h⟩ := exists_of_bind_ok h
    obtain ⟨he1, hc1⟩ := emitted_pushTmp hK h1
    obtain ⟨a, ha, he, hc⟩ := emitted_varEval he1.know hc1 h
    refine ⟨_, _, ?_, he1.trans he, hc⟩
    simp [Exp.items, ha]
  | .paren e, S, m, m', hK, h => e.emitted hK h
  | .un o e, S, m, m', hK, h => by
    obtain ⟨m1, h1, h⟩ := exists_of_bind_ok h
    obtain ⟨is, S1, hi, he1, hc1⟩ := e.emitted hK h1
    obtain ⟨he, hc⟩ := emitted_un he1 (e.tails _ _ hi) h
    refine ⟨_, _, ?_, he, hc.trans hc1⟩
    simp [Exp.items, hi]
  | .bin o l r, S, m, m', hK, h => by
    simp only [Exp.emit, bind_eq_ok] at h
    obtain ⟨m1, h1, m2, h2, h⟩ := h
    obtain ⟨il, S1, hil, he1, hc1⟩ := l.emitted hK h1
    obtain ⟨ir, S2, hir, he2, hc2⟩ := r.emitted he1.know h2
    obtain ⟨he, hc⟩ := emitted_bin he1 he2 (r.tails _ _ hir) h
    refine ⟨_, _, ?_, he, hc.trans (hc2.trans hc1)⟩
    simp [Exp.items, hil, hir]
  | .call s as, S, m, m', hK, h => by
    simp only [Exp.emit, bind_eq_ok] at h
    obtain ⟨m1, h1, m2, h2, m3, h3, m4, h4, h⟩ := h
    obtain ⟨he1, hc1⟩ := emitted_pushTmp hK h1
    obtain ⟨xid, x, hx, he2, hc2⟩ := emitted_functionLookup he1.know hc1 h2
    obtain ⟨is, S3, hi, he3, hc3⟩ := as.emitted he2.know hc2 (by simp) h3
    obtain ⟨hmin, hmax, he4, hc4⟩ := emitted_call he3.know x.ret hc3 h4
    obtain ⟨hret, he5, hc5⟩ := emitted_callRet he4.know rfl hc4 h
    refine ⟨_, _, ?_, (((he1.trans he2).trans he3).trans he4).trans he5, hc5⟩
    rw [Nat.zero_add] at hmin hmax
    simp [Exp.items, hx, hi, callItems, hmin, hmax, not_lt.mpr hret]
  | .attr o s, S, m, m', hK, h => by
    simp only [Exp.emit, bind_eq_ok] at h
    obtain ⟨m1, h1, m2, h2, h⟩ := h
    obtain ⟨is, cid, S1, hi, he1, hc1⟩ := o.emitted hK h1
    obtain ⟨he2, hc2⟩ := emitted_pushTmp he1.know h2
    rw [hc1] at hc2
    obtain ⟨xid, hx, he, hc⟩ := emitted_attrAccess he2.know 1 hc2 (act_ok h)
    refine ⟨_, _, ?_, (he1.trans he2).trans he, hc⟩
    simp [Exp.items, hi, hx]
  | .elem o s i, S, m, m', hK, h => by
    simp only [Exp.emit, bind_eq_ok] at h
    obtain ⟨m1, h1, m2, h2, m3, h3, h⟩ := h
    obtain ⟨is, cid, S1, hi, he1, hc1⟩ := o.emitted hK h1
    obtain ⟨he2, hc2⟩ := emitted_pushTmp he1.know h2
    obtain ⟨ii, S3, hii, he3, hc3⟩ := i.emitted he2.know h3
    rw [hc2, hc1] at hc3
    obtain ⟨xid, hx, he, hc⟩ := emitted_attrAccess he3.know 1 hc3 (act_ok h)
    refine ⟨_, _, ?_, ((he1.trans he2).trans he3).trans he, hc⟩
    simp [Exp.items, hi, hii, hx]
  | .method o s as, S, m, m', hK, h => by
    simp only [Exp.emit, bind_eq_ok] at h
    obtain ⟨m1, h1, m2, h2, m3, h3, m4, h4, m5, h5, h⟩ := h
    obtain ⟨io, cid, S1, hio, he1, hc1⟩ := o.emitted hK h1
    obtain ⟨he2, hc2⟩ := emitted_pushTmp he1.know h2
    rw [hc1] at hc2
    obtain ⟨xid, x, hx, he3, hc3⟩ := emitted_methodLookup he2.know hc2 h3
    obtain ⟨is, S4, hi, he4, hc4⟩ := as.emitted he3.know hc3 (by simp) h4
    obtain ⟨hmin, hmax, he5, hc5⟩ := emitted_call he4.know x.ret hc4 h5
    obtain ⟨hret, he6, hc6⟩ := emitted_callRet he5.know rfl hc5 h
    refine ⟨_, _, ?_, ((((he1.trans he2).trans he3).trans he4).trans he5).trans he6, hc6⟩
    simp [Exp.items, hio, hx, hi, callItems, hmin, hmax, not_lt.mpr hret]

/-- An object: its class is left on the symbol table's stack. -/
theorem Base.emitted : ∀ (o : Base) {S : Static} {m m' : Sdt}, Knows S m → o.emit E m = .ok m' →
    ∃ is cid S', o.items E.lib E.cstrAdd S = some (is, cid, S') ∧ Emitted E S S' m m' is ∧
      m'.tab.core = m.tab.core.push (.cld cid)
  | .obj s, S, m, m', hK, h => by
    obtain ⟨m1, h1, h⟩ := exists_of_bind_ok h
    obtain ⟨he1, hc1⟩ := emitted_pushTmp hK h1
    obtain ⟨xid, x, hx, he, hc⟩ := emitted_objectGet he1.know hc1 h
    refine ⟨_, _, _, ?_, he1.trans he, hc⟩
    simp [Base.items, hx]
  | .item s i, S, m, m', hK, h => by
    simp only [Base.emit, bind_eq_ok] at h
    obtain ⟨m1, h1, m2, h2, h⟩ := h
    obtain ⟨he1, hc1⟩ := emitted_pushTmp hK h1
    obtain ⟨ii, S2, hi, he2, hc2⟩ := i.emitted he1.know h2
    obtain ⟨xid, x, hx, he, hc⟩ := emitted_arrayXlat he2.know (hc2.trans hc1) h
    refine ⟨_, _, _, ?_, (he1.trans he2).trans he, hc⟩
    simp [Base.items, hi, hx]

/-- The arguments of a call: the call's descriptor counts them. -/
theorem Args.emitted : ∀ (as : Args) {S : Static} {m m' : Sdt} {c : Symtab.Core} {q : SymCall},
    Knows S m → m.tab.core = c.push (.call q) → q.argcnt < 256 → as.emit E m = .ok m' →
    ∃ is S', as.items E.lib E.cstrAdd S = some (is, S') ∧ Emitted E S S' m m' is ∧
      m'.tab.core = c.push (.call { q with argcnt := (q.argcnt + as.length) % 256 })
  | .nil, S, m, m', c, q, hK, hc, hq, h => by
    cases h
    refine ⟨_, _, rfl, .silent hK rfl rfl rfl, ?_⟩
    rw [hc, Args.length, Nat.add_zero, Nat.mod_eq_of_lt hq]
  | .cons e as, S, m, m', c, q, hK, hc, hq, h => by
    simp only [Args.emit, bind_eq_ok] at h
    obtain ⟨m1, h1, m2, h2, h⟩ := h
    obtain ⟨ie, S1, hie, he1, hc1⟩ := e.emitted hK h1
    obtain ⟨he2, hc2⟩ := emitted_arg he1.know (hc1.trans hc) h2
    obtain ⟨ia, S3, hia, he3, hc3⟩ := as.emitted he2.know hc2 (Nat.mod_lt _ (by decide)) h
    refine ⟨_, _, ?_, (he1.trans he2).trans he3, ?_⟩
    · simp [Args.items, hie, hia]
    · have hcnt : ((q.argcnt + 1) % 256 + as.length) % 256 = (q.argcnt + (as.length + 1)) % 256 := by
        omega
      rw [hc3]
      simp only [Args.length, hcnt]

end

end

/-! ## Statements -/

section
variable {E : Env} {S S' : Static} {m m' : Sdt}

/-- The conclusion for the trees that leave the symbol table's stack as it was. -/
def Translated (E : Env) (items : Static → Option (List Item × Static)) (S : Static)
    (m m' : Sdt) : Prop :=
  ∃ is S', items S = some (is, S') ∧ Emitted E S S' m m' is ∧ m'.tab.core = m.tab.core

theorem Translated.nothing (hK : Knows S m) : Translated E (fun S => some ([], S)) S m m :=
  ⟨_, _, rfl, .silent hK rfl rfl rfl, rfl⟩

theorem Translated.andThen {f g : Static → Option (List Item × Static)} {m1 : Sdt}
    (h1 : Translated E f S m m1) (h2 : ∀ {S1}, Knows S1 m1 → Translated E g S1 m1 m') :
    Translated E (fun S => do
      let (is, S) ← f S
      let (js, S) ← g S
      some (is ++ js, S)) S m m' := by
  obtain ⟨is, S1, hi, he1, hc1⟩ := h1
  obtain ⟨js, S2, hj, he2, hc2⟩ := h2 he1.know
  exact ⟨_, _, by simp [hi, hj], he1.trans he2, hc2.trans hc1⟩

theorem emitted_store {s : Name} {c : Symtab.Core} (hK : Knows S m)
    (hc : m.tab.core = c.push (.tmp s)) (h : Action.opVarAssign.run E m = .ok m') :
    ∃ st, storeItems s S = some (st, S.plain) ∧ Emitted E S S.plain m m' st ∧ m'.tab.core = c := by
  obtain ⟨a, ha, he, hc'⟩ := emitted_varAssign hK hc h
  exact ⟨[.st a], by simp [storeItems, ha], he, hc'⟩

theorem Simple.emitted (s : Simple) (hK : Knows S m) (h : s.emit E m = .ok m') :
    Translated E (s.items E.lib E.cstrAdd) S m m' := by
  cases s with
  | assign s e =>
    simp only [Simple.emit, bind_eq_ok] at h
    obtain ⟨m1, h1, m2, h2, h⟩ := h
    obtain ⟨he1, hc1⟩ := emitted_pushTmp hK h1
    obtain ⟨is, S2, hi, he2, hc2⟩ := e.emitted he1.know h2
    obtain ⟨st, hst, he, hc⟩ := emitted_store he2.know (hc2.trans hc1) h
    refine ⟨_, _, ?_, (he1.trans he2).trans he, hc⟩
    simp [Simple.items, hi, hst]
  | call s as =>
    simp only [Simple.emit, bind_eq_ok] at h
    obtain ⟨m1, h1, m2, h2, m3, h3, m4, h4, h⟩ := h
    obtain ⟨he1, hc1⟩ := emitted_pushTmp hK h1
    obtain ⟨xid, x, hx, he2, hc2⟩ := emitted_functionLookup he1.know hc1 h2
    obtain ⟨is, S3, hi, he3, hc3⟩ := as.emitted he2.know hc2 (by simp) h3
    obtain ⟨hmin, hmax, he4, hc4⟩ := emitted_call he3.know x.ret hc3 h4
    obtain ⟨he5, hc5⟩ := emitted_retDiscard he4.know rfl hc4 h
    refine ⟨_, _, ?_, (((he1.trans he2).trans he3).trans he4).trans he5, hc5⟩
    rw [Nat.zero_add] at hmin hmax
    simp [Simple.items, hx, hi, callItems, hmin, hmax]
  | attr o s e =>
    simp only [Simple.emit, bind_eq_ok] at h
    obtain ⟨m1, h1, m2, h2, m3, h3, h⟩ := h
    obtain ⟨is, cid, S1, hi, he1, hc1⟩ := o.emitted hK h1
    obtain ⟨he2, hc2⟩ := emitted_pushTmp he1.know h2
    obtain ⟨ie, S3, hie, he3, hc3⟩ := e.emitted he2.know h3
    rw [hc2, hc1] at hc3
    obtain ⟨xid, hx, he, hc⟩ := emitted_attrAccess he3.know 0 hc3 (act_ok h)
    refine ⟨_, _, ?_, ((he1.trans he2).trans he3).trans he, hc⟩
    simp [Simple.items, hi, hie, hx]
  | elem o s i e =>
    simp only [Simple.emit, bind_eq_ok] at h
    obtain ⟨m1, h1, m2, h2, m3, h3, m4, h4, h⟩ := h
    obtain ⟨is, cid, S1, hi, he1, hc1⟩ := o.emitted hK h1
    obtain ⟨he2, hc2⟩ := emitted_pushTmp he1.know h2
    obtain ⟨ii, S3, hii, he3, hc3⟩ := i.emitted he2.know h3
    obtain ⟨ie, S4, hie, he4, hc4⟩ := e.emitted he3.know h4
    rw [hc3, hc2, hc1] at hc4
    obtain ⟨xid, hx, he, hc⟩ := emitted_attrAccess he4.know 0 hc4 (act_ok h)
    refine ⟨_, _, ?_, (((he1.trans he2).trans he3).trans he4).trans he, hc⟩
    simp [Simple.items, hi, hii, hie, hx]
  | method o s as =>
    simp only [Simple.emit, bind_eq_ok] at h
    obtain ⟨m1, h1, m2, h2, m3, h3, m4, h4, m5, h5, h⟩ := h
    obtain ⟨io, cid, S1, hio, he1, hc1⟩ := o.emitted hK h1
    obtain ⟨he2, hc2⟩ := emitted_pushTmp he1.know h2
    rw [hc1] at hc2
    obtain ⟨xid, x, hx, he3, hc3⟩ := emitted_methodLookup he2.know hc2 h3
    obtain ⟨is, S4, hi, he4, hc4⟩ := as.emitted he3.know hc3 (by simp) h4
    obtain ⟨hmin, hmax, he5, hc5⟩ := emitted_call he4.know x.ret hc4 h5
    obtain ⟨he6, hc6⟩ := emitted_retDiscard he5.know rfl hc5 h
    refine ⟨_, _, ?_, ((((he1.trans he2).trans he3).trans he4).trans he5).trans he6, hc6⟩
    simp [Simple.items, hio, hx, hi, callItems, hmin, hmax]

theorem simple_emitted : ∀ (l : List Simple) {S : Static} {m m' : Sdt}, Knows S m →
    simpleEmit E l m = .ok m' → Translated E (simpleItems E.lib E.cstrAdd l) S m m'
  | [], S, m, m', hK, h => by
    cases h
    exact .nothing hK
  | s :: l, S, m, m', hK, h => by
    obtain ⟨m1, h1, h⟩ := exists_of_bind_ok h
    exact (s.emitted hK h1).andThen fun hK => simple_emitted l hK h

theorem emitted_popTmp {s : Name} {c : Symtab.Core} (hK : Knows S m)
    (hc : m.tab.core = c.push (.tmp s)) (h : Action.opPopTmp.run E m = .ok m') :
    Emitted E S S m m' [] ∧ m'.tab.core = c := by
  obtain ⟨t, hc', hK', h⟩ := knows_pop hK hc rfl ((map_eq_pure_bind _ _).symm.trans (act_ok h)) rfl
  cases h
  exact ⟨.silent hK' rfl rfl rfl, hc'⟩

theorem var_emitted {v : Name × Option Exp} (hK : Knows S m) (h : varEmit E v m = .ok m') :
    Translated E (varItems E.lib E.cstrAdd v) S m m' := by
  obtain ⟨s, i⟩ := v
  cases i with
  | none =>
    simp only [varEmit, bind_eq_ok] at h
    obtain ⟨m1, h1, m2, h2, h⟩ := h
    obtain ⟨he1, hc1⟩ := emitted_varDecl hK h1
    obtain ⟨he2, hc2⟩ := emitted_pushTmp he1.know h2
    obtain ⟨he, hc⟩ := emitted_popTmp he2.know hc2 h
    exact ⟨_, _, rfl, (he1.trans he2).trans he, hc.trans hc1⟩
  | some e =>
    simp only [varEmit, bind_eq_ok] at h
    obtain ⟨m1, h1, m2, h2, m3, h3, h⟩ := h
    obtain ⟨he1, hc1⟩ := emitted_varDecl hK h1
    obtain ⟨he2, hc2⟩ := emitted_pushTmp he1.know h2
    obtain ⟨is, S3, hi, he3, hc3⟩ := e.emitted he2.know h3
    obtain ⟨st, hst, he, hc⟩ := emitted_store he3.know (hc3.trans hc2) h
    refine ⟨_, _, ?_, ((he1.trans he2).trans he3).trans he, hc.trans hc1⟩
    simp [varItems, hi, hst]

theorem vars_emitted : ∀ (l : List (Name × Option Exp)) {S : Static} {m m' : Sdt}, Knows S m →
    varsEmit E l m = .ok m' → Translated E (varsItems E.lib E.cstrAdd l) S m m'
  | [], S, m, m', hK, h => by
    cases h
    exact .nothing hK
  | v :: l, S, m, m', hK, h => by
    obtain ⟨m1, h1, h⟩ := exists_of_bind_ok h
    exact (var_emitted hK h1).andThen fun hK => vars_emitted l hK h

theorem Semi.emitted (s : Semi) (hK : Knows S m) (h : s.emit E m = .ok m') :
    Translated E (s.items E.lib E.cstrAdd) S m m' := by
  cases s with
  | throw_ e =>
    obtain ⟨m1, h1, h⟩ := exists_of_bind_ok h
    obtain ⟨is, S1, hi, he1, hc1⟩ := e.emitted hK h1
    have h : Except.ok ((m1.save E).emit OPC_XPT) = Except.ok m' := act_ok h
    cases h
    have he : Emitted E S1 S1.plain m1 ((m1.save E).emit OPC_XPT) [.xpt] :=
      .instr he1.know rfl rfl rfl rfl ⟨_, _, rfl, rfl⟩
    refine ⟨_, _, by simp [Semi.items, hi], he1.trans he, ?_⟩
    rw [Sdt.emit_eq, core_emits, core_save]
    exact hc1
  | vars v vs => exact vars_emitted (v :: vs) hK h
  | simple s => exact s.emitted hK h

mutual

/-- **The translation of a control statement.** -/
theorem Stat.emitted : ∀ (s : Stat) {S : Static} {m m' : Sdt}, Knows S m → s.emit E m = .ok m' →
    Translated E (s.items E.lib E.cstrAdd) S m m'
  | .for_ init cond after body, S, m, m', hK, h => by
    simp only [Stat.emit, bind_eq_ok] at h
    obtain ⟨m1, h1, m2, h2, m3, h3, m4, h4, m5, h5, m6, h6, m7, h7, m8, h8, m9, h9, h⟩ := h
    obtain ⟨ii, S1, hii, he1, hc1⟩ := simple_emitted init hK h1
    obtain ⟨he2, hc2, hpc2⟩ := emitted_forInit he1.know h2
    obtain ⟨ic, S3, hic, he3, hc3⟩ := cond.emitted he2.know h3
    obtain ⟨hK4, hc4, mr, hg, hr⟩ := knows_forCond he3.know.plain (hc3.trans hc2) h4
    obtain ⟨ia, S5, hia, he5, hc5⟩ := simple_emitted after hK4 h5
    obtain ⟨hK6, hc6, mp, hp, hj⟩ := knows_forAfter he5.know.plain (hc5.trans hc4) h6
    obtain ⟨ib, S8, hib, he8, hc8⟩ := body.emitted (knows_blkOpen hK6 h7).1 h8
    obtain ⟨heb, hcb⟩ := emitted_scope hK6 h7 he8 hc8 h9
    obtain ⟨hK', hc', mq, hq, hk⟩ := knows_forEnd heb.know (hcb.trans hc6) h
    have he : Emitted E S1 (S5.close S8).plain m2 m' (forItems ic ia ib) :=
      emitted_for he3 hg hr he5 hp (by rw [hpc2]; exact hj) heb hq hk hK'
    refine ⟨_, _, ?_, (he1.trans he2).trans he, hc'.trans hc1⟩
    simp [Stat.items, hii, hic, hia, hib]
  | .while_ cond body, S, m, m', hK, h => by
    simp only [Stat.emit, bind_eq_ok] at h
    obtain ⟨m1, h1, m2, h2, m3, h3, m4, h4, m5, h5, m6, h6, h⟩ := h
    obtain ⟨he1, hc1, hpc1⟩ := emitted_whileBegin hK h1
    obtain ⟨ic, S2, hic, he2, hc2⟩ := cond.emitted he1.know h2
    obtain ⟨hK3, hc3, hr⟩ := knows_whileCond he2.know.plain (hc2.trans hc1) h3
    obtain ⟨ib, S5, hib, he5, hc5⟩ := body.emitted (knows_blkOpen hK3 h4).1 h5
    obtain ⟨heb, hcb⟩ := emitted_scope hK3 h4 he5 hc5 h6
    obtain ⟨hK', hc', mp, hp, hj⟩ := knows_whileEnd heb.know (hcb.trans hc3) h
    have he : Emitted E S (S2.close S5).plain m1 m' (whileItems ic ib) :=
      emitted_while he2 hr heb hp (by rw [hpc1]; exact hj) hK'
    refine ⟨_, _, ?_, he1.trans he, hc'⟩
    simp [Stat.items, hic, hib]
  | .ifThen cond body, S, m, m', hK, h => by
    simp only [Stat.emit, bind_eq_ok] at h
    obtain ⟨m1, h1, m2, h2, m3, h3, m4, h4, m5, h5, h⟩ := h
    obtain ⟨ic, S1, hic, he1, hc1⟩ := cond.emitted hK h1
    obtain ⟨hK2, hc2, hr⟩ := knows_ifCond he1.know.plain h2
    obtain ⟨ib, S4, hib, he4, hc4⟩ := body.emitted (knows_blkOpen hK2 h3).1 h4
    obtain ⟨heb, hcb⟩ := emitted_scope hK2 h3 he4 hc4 h5
    obtain ⟨hK', hc', hp⟩ := knows_patchRef heb.know (hcb.trans hc2) (act_ok h)
    refine ⟨_, _, ?_, emitted_ifThen he1 hr heb hp hK', hc'.trans hc1⟩
    simp [Stat.items, hic, hib]
    rfl
  | .ifElse cond body els, S, m, m', hK, h => by
    simp only [Stat.emit, bind_eq_ok] at h
    obtain ⟨m1, h1, m2, h2, m3, h3, m4, h4, m5, h5, m6, h6, m7, h7, m8, h8, m9, h9, h⟩ := h
    obtain ⟨ic, S1, hic, he1, hc1⟩ := cond.emitted hK h1
    obtain ⟨hK2, hc2, hr⟩ := knows_ifCond he1.know.plain h2
    obtain ⟨ib, S4, hib, he4, hc4⟩ := body.emitted (knows_blkOpen hK2 h3).1 h4
    obtain ⟨heb, hcb⟩ := emitted_scope hK2 h3 he4 hc4 h5
    obtain ⟨hK6, hc6, mp, hp, hr'⟩ := knows_ifElse heb.know (hcb.trans hc2) h6
    replace hK6 : Knows (S1.close S4).plain m6 := hK6.congr rfl
    obtain ⟨ie, S8, hie, he8, hc8⟩ := els.emitted (knows_blkOpen hK6 h7).1 h8
    obtain ⟨hee, hce⟩ := emitted_scope hK6 h7 he8 hc8 h9
    obtain ⟨hK', hc', hp'⟩ := knows_patchRef hee.know (hce.trans hc6) (act_ok h)
    refine ⟨_, _, ?_, emitted_ifElse he1 hr heb hp hr' hee hp' hK', hc'.trans hc1⟩
    simp [Stat.items, hic, hib, hie]
    rfl
  | .try_ body, S, m, m', hK, h => by
    simp only [Stat.emit, bind_eq_ok] at h
    obtain ⟨m1, h1, m2, h2, m3, h3, m4, h4, h⟩ := h
    obtain ⟨hK1, hc1, hr⟩ := knows_tryBegin hK.plain h1
    obtain ⟨ib, S3, hib, he3, hc3⟩ := body.emitted (knows_blkOpen hK1 h2).1 h3
    obtain ⟨heb, hcb⟩ := emitted_scope hK1 h2 he3 hc3 h4
    obtain ⟨hK', hc', mj, mp, hj, hp, hx, hspc⟩ := knows_tryEnd heb.know (hcb.trans hc1) h
    have hg : S.Grows (S.close S3) := ⟨⟨[], rfl, by simp⟩, le_rfl, rfl⟩
    refine ⟨_, _, ?_, emitted_try hg hr heb hj hp hx hspc hK', hc'⟩
    simp [Stat.items, hib]
  | .tryCatch body s handler, S, m, m', hK, h => by
    simp only [Stat.emit, bind_eq_ok] at h
    obtain ⟨m1, h1, m2, h2, m3, h3, m4, h4, m5, h5, m6, h6, m7, h7, m8, h8, m9, h9, n1, k1, n2, k2, h⟩ := h
    obtain ⟨hK1, hc1, hr⟩ := knows_tryBegin hK.plain h1
    obtain ⟨ib, S3, hib, he3, hc3⟩ := body.emitted (knows_blkOpen hK1 h2).1 h3
    obtain ⟨heb, hcb⟩ := emitted_scope hK1 h2 he3 hc3 h4
    obtain ⟨hK5, hc5, mr, hr', hp⟩ := knows_catch heb.know.plain (hcb.trans hc1) h5
    obtain ⟨he7, hc7⟩ := emitted_varDecl (knows_blkOpen hK5 h6).1 h7
    obtain ⟨he8, hc8⟩ := emitted_pushTmp he7.know h8
    obtain ⟨st, hst, he9, hc9⟩ := emitted_store he8.know hc8 h9
    obtain ⟨ih, S10, hih, he10, hc10⟩ := handler.emitted he9.know k1
    obtain ⟨heh, hch⟩ := emitted_scope hK5 h6 (((he7.trans he8).trans he9).trans he10)
      (hc10.trans (hc9.trans hc7)) k2
    obtain ⟨hK', hc', hp'⟩ := knows_patchRef heh.know (hch.trans hc5) (act_ok h)
    have hg : S.Grows (S.close S10) := ⟨⟨[], rfl, by simp⟩, le_rfl, rfl⟩
    refine ⟨_, _, ?_, emitted_tryCatch hg hr heb hr' hp heh hp' hK', hc'⟩
    have hib' : body.items E.lib E.cstrAdd S.plain.openScope = some (ib, S3) := hib
    have hst' : storeItems s ((S.close S3).plain.openScope.declare s) = some (st, _) := hst
    simp [Stat.items, hib', hst', hih]

theorem Block.emitted : ∀ (b : Block) {S : Static} {m m' : Sdt}, Knows S m → b.emit E m = .ok m' →
    Translated E (b.items E.lib E.cstrAdd) S m m'
  | .nil, S, m, m', hK, h => by
    cases h
    exact .nothing hK
  | .stat s b, S, m, m', hK, h => by
    obtain ⟨m1, h1, h⟩ := exists_of_bind_ok h
    exact (s.emitted hK h1).andThen fun hK => b.emitted hK h
  | .semi s b, S, m, m', hK, h => by
    obtain ⟨m1, h1, h⟩ := exists_of_bind_ok h
    exact (s.emitted hK h1).andThen fun hK => b.emitted hK h

end

theorem Program.emitted : ∀ (p : Program) {S : Static} {m m' : Sdt}, Knows S m →
    p.emit E m = .ok m' → Translated E (p.items E.lib E.cstrAdd) S m m'
  | .eof, S, m, m', hK, h => by
    cases h
    exact .nothing hK
  | .stat s p, S, m, m', hK, h => by
    obtain ⟨m1, h1, h⟩ := exists_of_bind_ok h
    exact (s.emitted hK h1).andThen fun hK => p.emitted hK h
  | .semi s p, S, m, m', hK, h => by
    obtain ⟨m1, h1, h⟩ := exists_of_bind_ok h
    exact (s.emitted hK h1).andThen fun hK => p.emitted hK h
  | .last s, S, m, m', hK, h => s.emitted hK h
  | .block b p, S, m, m', hK, h => by
    simp only [Program.emit, bind_eq_ok] at h
    obtain ⟨m1, h1, m2, h2, m3, h3, h⟩ := h
    obtain ⟨ib, S2, hib, he2, hc2⟩ := b.emitted (knows_blkOpen hK h1).1 h2
    obtain ⟨heb, hcb⟩ := emitted_scope hK h1 he2 hc2 h3
    obtain ⟨ip, S3, hip, he3, hc3⟩ := p.emitted heb.know h
    exact ⟨_, _, by simp [Program.items, hib, hip], heb.trans he3, hc3.trans hcb⟩

/-! ## A whole compilation -/

theorem knows_begin {top : Nat} {code : Nat → Byte} (h : microjsSdtBegin E top code = .ok m) :
    Knows Static.init m ∧ Saved E Static.init m ∧ m.tab.core = ⟨top, top, [.ref 0]⟩ ∧
      ∃ mz, mz.pc = 0 ∧ mz.code = code ∧ Grown E mz m [.hole OPC_PUSHX] := by
  obtain ⟨m1, h1, rfl⟩ := exists_of_map_ok h
  have hK : Knows Static.init ⟨Symtab.init top, code, 0, 0, 0, 0, []⟩ := by
    refine ⟨rfl, rfl, rfl, ?_, rfl, rfl, by simp [Static.init]⟩
    show (Symtab.init top).scopeBp = 0
    simp [Symtab.scopeBp, Symtab.init]
  obtain ⟨hK1, hc, hcode, hpc, -⟩ := knows_push hK (by rfl) h1
  have hr : Reserves E OPC_PUSHX m1 ((m1.save E).reserve OPC_PUSHX).tgtStackPush := by
    rw [Sdt.save_eq]
    exact ⟨rfl, rfl, fun ho => if_pos ho⟩
  refine ⟨hK1.alike ?_, hr.saved (by decide) rfl, ?_, ?_⟩
  · rw [Sdt.save_eq]
    exact ⟨rfl, rfl, rfl⟩
  · rw [Sdt.save_eq]
    exact hc
  · exact ⟨m1, hpc, hcode, hr.grown⟩

theorem end_ok (hc : m.tab.stack = [.ref 0]) (h : microjsSdtEnd E m = .ok m') :
    ∃ ma mp, Grown E m ma [.raw [OPC_POP, OPC_ABT]] ∧ Patches 0 ((m.pc + 2 : Nat) : Int) ma mp ∧
      Grown E mp m' [.raw [OPC_RET]] := by
  unfold microjsSdtEnd at h
  obtain ⟨-, h⟩ := ok_of_guard h
  obtain ⟨m1, h1, h⟩ := exists_of_bind_ok h
  have he := Sdt.est_pop h1
  rw [Sdt.emits_eq] at h
  dsimp only at h
  rw [show m1.tab.stack = [.ref 0] by rw [he]; exact hc] at h
  cases h
  have hcode : m1.code = m.code := by rw [he]
  have hpc : m1.pc = m.pc := by rw [he]
  refine ⟨{ m1 with code := write m1.code m1.pc [OPC_POP, OPC_ABT], pc := m1.pc + 2 },
    Sdt.patch { m1 with code := write m1.code m1.pc [OPC_POP, OPC_ABT], pc := m1.pc + 2 } 0
      ((m1.pc + 2 : Nat) : Int), grown_write ?_ ?_, ?_, grown_write ?_ ?_⟩
  · rw [hcode, hpc]
  · rw [hpc]
    rfl
  · rw [hpc]
    exact ⟨rfl, rfl, rfl⟩
  · rw [Sdt.emit_eq, Sdt.emits_eq]
    rfl
  · rw [Sdt.emit_eq, Sdt.emits_eq]
    rfl

/-- **What a successful compilation leaves in the code buffer:** the items of a tree of the text. -/
theorem exists_items_of_compile {top n : Nat} {code : Nat → Byte} {txt : List Char}
    (h : compile E top code n txt = some (.ok m)) :
    ∃ (p : Program) (is : List Item) (S' : Static), p.Parsed ∧ Lexes txt (p.tokens ++ [tk .eof]) ∧
      p.items E.lib E.cstrAdd Static.init = some (is, S') ∧
      ((E.opt = true → S'.safe = true) → (format E.opt).Holds m.code 0 (wholeItems is) ∧
        m.pc = (format E.opt).length (wholeItems is) ∧
        (is.all Item.plain = true → ∀ a, m.pc ≤ a → m.code a = code a)) := by
  unfold compile at h
  split at h
  · cases h
  · rename_i m0 hbegin
    obtain ⟨r, hrun, hr⟩ := Option.map_eq_some_iff.mp h
    cases r with
    | error e => cases hr
    | ok m1 =>
      obtain ⟨p, hp, hlex, hem⟩ := exists_program_of_microjsCompile hrun
      obtain ⟨hK, hsv, hcore, mz, hz, rfl, hg⟩ := knows_begin hbegin
      obtain ⟨is, S', hi, he, hc⟩ := p.emitted hK hem
      refine ⟨p, is, S', hp, hlex, hi, fun hs => ?_⟩
      obtain ⟨hem, -, -⟩ := he.code hs hsv
      have hst : m1.tab.stack = [.ref 0] := congrArg Symtab.Core.stack (hc.trans hcore)
      obtain ⟨ma, mp, ha, hpatch, hret⟩ := end_ok hst hr
      have hpc : m1.pc = mz.pc + 2 + (format E.opt).length is := by rw [hem.pc, hg.pc]; rfl
      have h := (((hg.trans hem.grown).trans ha).patch [] hpatch hz.symm).trans hret
      have hpc' := h.pc
      rw [show m1.pc + 2 = 2 + (format E.opt).length is + 2 by omega] at h
      refine ⟨holds_wholeItems (hz ▸ h.laid), ?_, fun hplain => h.above (by simpa using hplain)⟩
      rw [hpc', hz]
      simp [Format.extent, wholeItems]

end

/-- A compilation succeeds with a state that meets `Q`. -/
def okWith (Q : Sdt → Prop) [DecidablePred Q] : Option (Except Err Sdt) → Bool
  | some (.ok m) => decide (Q m)
  | _ => false

theorem exists_of_okWith {Q : Sdt → Prop} [DecidablePred Q] {r : Option (Except Err Sdt)}
    (h : okWith Q r = true) : ∃ m, r = some (.ok m) ∧ Q m := by
  unfold okWith at h
  split at h
  · exact ⟨_, rfl, of_decide_eq_true h⟩
  · cases h

end MicroJS
