import ThinkOS.MicroJS.Typed

/-!
# MicroJS: the meaning of expressions

`Exp.eval` is the value of an expression by the grammar's tree, from left to right, with the calls of
external functions it makes. The items of the expression push that value (`Exp.works`): they have no
jumps, so that they are one walk of the machine.
-/

namespace MicroJS

open Segment List Option

/-! ## Straight runs -/

namespace Mach

/-- An item that goes on to the next one. -/
def advance (H : Host) (it : Item) (s : Mach) : Option Mach :=
  match it with
  | .ext xid n _ =>
    if s.temps.length < n then none
    else
      let calls := ⟨xid, (s.temps.take n).reverse⟩ :: s.calls
      match H.ext calls with
      | .ret vals => some { s with pos := s.pos + 1, calls := calls,
                                   temps := vals.reverse ++ s.temps.drop n }
      | .fail _ => none
  | it => (it.compute H s.data s.temps).map fun p =>
      { s with pos := s.pos + 1, temps := p.1, data := p.2 }

/-- A segment without jumps. -/
def walk (H : Host) : List Item → Mach → Option Mach
  | [], s => some s
  | it :: is, s => (s.advance H it).bind (walk H is)

section
variable {H : Host} {s s' : Mach} {it : Item} {a b : List Item}

theorem walk_append : walk H (a ++ b) s = (walk H a s).bind (walk H b) := by
  induction a generalizing s with
  | nil => rfl
  | cons it is ih =>
    show (s.advance H it).bind _ = ((s.advance H it).bind _).bind _
    cases s.advance H it with
    | none => rfl
    | some u => exact ih

theorem act_of_advance (h : s.advance H it = some s') :
    s.act H it = some (.inl s') ∧ s'.pos = s.pos + 1 := by
  have hcompute
      (h : (it.compute H s.data s.temps).map
        (fun p => { s with pos := s.pos + 1, temps := p.1, data := p.2 }) = some s') :
      (it.compute H s.data s.temps).map
        (fun p => (.inl { s with pos := s.pos + 1, temps := p.1, data := p.2 } : Mach ⊕ Final)) =
          some (.inl s') ∧ s'.pos = s.pos + 1 := by
    obtain ⟨p, hp, rfl⟩ := map_eq_some_iff.mp h
    exact ⟨by rw [hp]; rfl, rfl⟩
  cases it with
  | ext xid n r =>
    simp only [advance] at h
    obtain ⟨hn, h⟩ := ite_none_left_eq_some.mp h
    split at h
    · rename_i vals hv
      cases h
      simp only [act, if_neg hn, hv, and_self]
    · cases h
  | lit c k => exact hcompute h
  | fuse f c k => exact hcompute h
  | ld a => exact hcompute h
  | st a => exact hcompute h
  | bin o => exact hcompute h
  | un o => exact hcompute h
  | pop => exact hcompute h
  | isp n => exact hcompute h
  | _ => cases h

/-- The machine walks along a segment of its code. -/
theorem run_walk {P x y seg : List Item} (hP : P = x ++ seg ++ y) (hpos : s.pos = x.length)
    (h : walk H seg s = some s') :
    (machine H P).run seg.length s = some s' ∧ s'.pos = x.length + seg.length := by
  induction seg generalizing s x with
  | nil =>
    cases h
    exact ⟨rfl, hpos⟩
  | cons it is ih =>
    obtain ⟨u, hu, hw⟩ := bind_eq_some_iff.mp h
    obtain ⟨ha, hpu⟩ := act_of_advance hu
    have hstep : (machine H P).step s = some (.inl u) := by
      show (P[s.pos]?).bind (act H s) = _
      rw [show P[s.pos]? = some it by rw [hP, hpos]; simp]
      exact ha
    obtain ⟨hr, hp⟩ := ih (x := x ++ [it]) (by rw [hP]; simp) (by rw [hpu, hpos]; simp) hw
    rw [length_cons, Lib.Machine.run_succ_of_step hstep]
    refine ⟨hr, hp.trans ?_⟩
    simp
    omega

end

end Mach

/-! ## Expressions -/

/-- What an expression refers to: the external functions, the library, the pool of strings, the
addresses of the variables and the data memory. -/
structure Scene where
  host : Host
  lib : LibDef
  cstr : List Name → Name → Int
  look : Name → Option Nat
  data : Nat → Word

/-- The strings that the translator has met, and the calls made. -/
structure Log where
  strs : List Name
  calls : List ExtCall

section
variable (C : Scene)

/-- A call that returns one value. -/
def Scene.invoke (xid : Nat) (args : List Word) (σ : Log) : Option (Word × Log) :=
  match C.host.ext (⟨xid, args⟩ :: σ.calls) with
  | .ret [v] => some (v, { σ with calls := ⟨xid, args⟩ :: σ.calls })
  | _ => none

/-- The object of a name. -/
def Scene.object (xid : Nat) (x : ExtDef) (σ : Log) : Option (Word × Log) :=
  if x.isSingleton then some (BitVec.ofInt 32 x.inst, σ) else C.invoke xid [] σ

/-- The object at the index `i` of an array. -/
def Scene.element (xid : Nat) (x : ExtDef) (i : Word) (σ : Log) : Option (Word × Log) :=
  if x.isSizeoffs then
    let j := if x.size > 1 then i * BitVec.ofNat 32 x.size else i
    some (if x.offs ≠ 0 then j + BitVec.ofInt 32 x.offs else j, σ)
  else C.invoke xid [i] σ

mutual

/-- The value of an expression, by its tree. -/
def Exp.eval : Exp → Log → Option (Word × Log)
  | .int v, σ => some (v, σ)
  | .char v, σ => some (v, σ)
  | .str s, σ =>
    let n := C.cstr σ.strs s
    if n < 0 then none
    else some ((Const.idx n.toNat).value, { σ with strs := σ.strs ++ [s] })
  | .bool b, σ => some (if b then 1 else 0, σ)
  | .var s, σ => do
    let a ← C.look s
    some (C.data (a / 4), σ)
  | .paren e, σ => e.eval σ
  | .un o e, σ => do
    let (v, σ) ← e.eval σ
    some (o.eval v, σ)
  | .bin o l r, σ => do
    let (a, σ) ← l.eval σ
    let (b, σ) ← r.eval σ
    let v ← o.intOp.eval C.host a b
    some (v, σ)
  | .call s as, σ => do
    let (xid, _) ← C.lib.function s
    let (vs, σ) ← as.eval σ
    C.invoke xid vs σ
  | .attr o s, σ => do
    let (b, cid, σ) ← o.eval σ
    let xid ← C.lib.attr false cid s
    C.invoke xid [b] σ
  | .elem o s i, σ => do
    let (b, cid, σ) ← o.eval σ
    let (j, σ) ← i.eval σ
    let xid ← C.lib.attr true cid s
    C.invoke xid [b, j] σ
  | .method o s as, σ => do
    let (b, cid, σ) ← o.eval σ
    let (xid, _) ← C.lib.method cid s
    let (vs, σ) ← as.eval σ
    C.invoke xid (b :: vs) σ

/-- With the class of the object. -/
def Base.eval : Base → Log → Option (Word × Nat × Log)
  | .obj s, σ => do
    let (xid, x) ← C.lib.object false s
    let (v, σ) ← C.object xid x σ
    some (v, x.cdef, σ)
  | .item s i, σ => do
    let (j, σ) ← i.eval σ
    let (xid, x) ← C.lib.object true s
    let (v, σ) ← C.element xid x j σ
    some (v, x.cdef, σ)

def Args.eval : Args → Log → Option (List Word × Log)
  | .nil, σ => some ([], σ)
  | .cons e as, σ => do
    let (v, σ) ← e.eval σ
    let (vs, σ) ← as.eval σ
    some (v :: vs, σ)

end

end

/-- The items push `vs`, the newest value first, and make the calls from `cs` to `cs'`. -/
def Computes (H : Host) (data : Nat → Word) (cs : List ExtCall) (is : List Item) (vs : List Word)
    (cs' : List ExtCall) : Prop :=
  ∀ s : Mach, s.data = data → s.calls = cs → s.walk H is =
    some { s with pos := s.pos + is.length, temps := vs ++ s.temps, calls := cs' }

section
variable {H : Host} {data : Nat → Word} {cs cs1 cs2 : List ExtCall} {is js : List Item}
  {vs ws : List Word} {a b v : Word}

theorem computes_nil : Computes H data cs [] [] cs := by
  intro s _ hc
  rw [← hc]
  rfl

theorem Computes.append (h : Computes H data cs is vs cs1) (h' : Computes H data cs1 js ws cs2) :
    Computes H data cs (is ++ js) (ws ++ vs) cs2 := by
  intro s hd hc
  rw [Mach.walk_append, h s hd hc]
  refine (h' { s with pos := s.pos + is.length, temps := vs ++ s.temps, calls := cs1 } hd rfl).trans
    ?_
  simp [Nat.add_assoc]

theorem Computes.snoc (h : Computes H data cs is vs cs1) {it : Item}
    (hit : ∀ (s : Mach) (ts : List Word), s.data = data → s.calls = cs1 → s.temps = vs ++ ts →
      s.advance H it = some { s with pos := s.pos + 1, temps := ws ++ ts, calls := cs2 }) :
    Computes H data cs (is ++ [it]) ws cs2 := by
  intro s hd hc
  rw [Mach.walk_append, h s hd hc]
  have := hit { s with pos := s.pos + is.length, temps := vs ++ s.temps, calls := cs1 } s.temps hd
    rfl rfl
  refine (bind_eq_some_iff.mpr ⟨_, this, rfl⟩).trans ?_
  simp [Nat.add_assoc]

theorem computes_lit {c : Const} {k : Nat} : Computes H data cs [.lit c k] [negs k c.value] cs := by
  intro s _ hc
  rw [← hc]
  rfl

theorem computes_ld {a : Nat} : Computes H data cs [.ld a] [data (a / 4)] cs := by
  intro s hd hc
  rw [← hc, ← hd]
  rfl

theorem Computes.bin (h : Computes H data cs is (b :: a :: vs) cs1) {o : IntOp}
    (ho : o.eval H a b = some v) : Computes H data cs (is ++ [.bin o]) (v :: vs) cs1 := by
  refine h.snoc fun s ts _ hc ht => ?_
  show (Item.compute H (.bin o) s.data s.temps).map _ = _
  rw [ht]
  simp [Item.compute, ho, hc]

theorem Computes.un (h : Computes H data cs is (a :: vs) cs1) (o : UnOp) :
    Computes H data cs (is ++ [.un o]) (o.eval a :: vs) cs1 := by
  refine h.snoc fun s ts _ hc ht => ?_
  show (Item.compute H (.un o) s.data s.temps).map _ = _
  rw [ht]
  simp [Item.compute, hc]

theorem Computes.fuse (h : Computes H data cs is (a :: vs) cs1) {f : Fuse} {c : Const} {k : Nat}
    (ho : f.intOp.eval H a (negs k c.value) = some v) :
    Computes H data cs (is ++ [.fuse f c k]) (v :: vs) cs1 := by
  refine h.snoc fun s ts _ hc ht => ?_
  show (Item.compute H (.fuse f c k) s.data s.temps).map _ = _
  rw [ht]
  simp [Item.compute, ho, hc]

theorem Computes.ext {args : List Word} (h : Computes H data cs is (args.reverse ++ vs) cs1)
    {xid n : Nat} (r : Int) (hn : n = args.length) (hv : H.ext (⟨xid, args⟩ :: cs1) = .ret [v]) :
    Computes H data cs (is ++ [.ext xid n r]) (v :: vs) (⟨xid, args⟩ :: cs1) := by
  subst hn
  refine h.snoc fun s ts _ hc ht => ?_
  have htake : s.temps.take args.length = args.reverse := by rw [ht]; simp
  have hdrop : s.temps.drop args.length = vs ++ ts := by rw [ht]; simp
  have hlen : ¬ s.temps.length < args.length := by rw [ht]; simp
  simp only [Mach.advance, if_neg hlen, htake, hdrop, reverse_reverse, hc, hv]
  rfl

/-- Only one value is that of a literal. -/
theorem Computes.of_lit {c : Const} {k : Nat} (h : Computes H data cs [.lit c k] [v] cs1) :
    v = negs k c.value ∧ cs1 = cs := by
  have h := (h ⟨0, [], [], data, cs⟩ rfl rfl).symm.trans
    (computes_lit ⟨0, [], [], data, cs⟩ rfl rfl)
  simpa using h

theorem BinOp.intOp_of_fuse {o : BinOp} {f : Fuse} (h : o.fuse = some f) : o.intOp = f.intOp := by
  cases o <;> cases h <;> rfl

theorem computes_binItems {o : BinOp} (hl : Computes H data cs is [a] cs1)
    (hr : Computes H data cs1 js [b] cs2) (ho : o.intOp.eval H a b = some v) :
    Computes H data cs (binItems o is js) [v] cs2 := by
  unfold binItems
  split
  · rename_i f c k hf
    obtain ⟨rfl, rfl⟩ := hr.of_lit
    split
    · rw [BinOp.intOp_of_fuse hf] at ho
      exact hl.fuse ho
    · exact (hl.append hr).bin ho
  · exact (hl.append hr).bin ho

/-- A unary operation only changes what the optimizer knows. -/
theorem unItems_static (o : UnOp) (is : List Item) (S : Static) :
    (unItems o is S).2.strs = S.strs ∧ (unItems o is S).2.objs = S.objs := by
  unfold unItems
  split <;> exact ⟨rfl, rfl⟩

theorem computes_unItems {o : UnOp} (h : Computes H data cs is [a] cs1) (S : Static) :
    Computes H data cs (unItems o is S).1 [o.eval a] cs1 := by
  unfold unItems
  split
  · rename_i c k
    obtain ⟨rfl, rfl⟩ := h.of_lit
    have hneg : negs (k + 1) c.value = UnOp.eval .minus (negs k c.value) := negs_succ
    exact hneg ▸ computes_lit
  · exact h.un .minus
  · exact h.un o

end

/-- The translator's state when the expression is read in the scene `C`. -/
structure Sees (C : Scene) (S : Static) (σ : Log) : Prop where
  look : C.look = S.lookup
  strs : σ.strs = S.strs

/-- The items push `vs`, and the translator goes from `S` to `S'`. -/
structure Works (C : Scene) (S S' : Static) (σ σ' : Log) (is : List Item) (vs : List Word) :
    Prop where
  computes : Computes C.host C.data σ.calls is vs σ'.calls
  strs : σ'.strs = S'.strs
  objs : S'.objs = S.objs

section
variable {C : Scene} {S S1 S2 S' : Static} {σ σ1 σ2 σ' : Log} {is js : List Item}
  {vs ws : List Word} {xid n : Nat} {x : ExtDef} {v : Word}

theorem Works.sees (h : Works C S S1 σ σ1 is vs) (hs : Sees C S σ) : Sees C S1 σ1 :=
  ⟨by rw [hs.look]; unfold Static.lookup; rw [h.objs], h.strs⟩

theorem Works.append (h : Works C S S1 σ σ1 is vs) (h' : Works C S1 S2 σ1 σ2 js ws) :
    Works C S S2 σ σ2 (is ++ js) (ws ++ vs) :=
  ⟨h.computes.append h'.computes, h'.strs, h'.objs.trans h.objs⟩

theorem Sees.works (hs : Sees C S σ) (h : Computes C.host C.data σ.calls is vs σ.calls)
    (hstrs : S'.strs = S.strs) (hobjs : S'.objs = S.objs) : Works C S S' σ σ is vs :=
  ⟨h, hs.strs.trans hstrs.symm, hobjs⟩

theorem invoke_eq_some (h : C.invoke xid vs σ = some (v, σ')) :
    C.host.ext (⟨xid, vs⟩ :: σ.calls) = .ret [v] ∧ σ'.calls = ⟨xid, vs⟩ :: σ.calls ∧
      σ'.strs = σ.strs := by
  unfold Scene.invoke at h
  split at h
  · rename_i hr
    cases h
    exact ⟨hr, rfl, rfl⟩
  · cases h

/-- A call of an external function with the values on the stack. -/
theorem Works.ext (vs : List Word) (h : Works C S S1 σ σ1 is (vs.reverse ++ ws)) (r : Int)
    (hn : n = vs.length) (hv : C.invoke xid vs σ1 = some (v, σ')) (hstrs : S'.strs = S1.strs)
    (hobjs : S'.objs = S1.objs) : Works C S S' σ σ' (is ++ [.ext xid n r]) (v :: ws) := by
  obtain ⟨hret, hcalls, hs⟩ := invoke_eq_some hv
  refine ⟨?_, by rw [hs, h.strs, hstrs], hobjs.trans h.objs⟩
  rw [hcalls]
  exact h.computes.ext r hn hret

theorem eq_of_callItems {call : List Item} (hL : C.lib.Modest) (hx : C.lib.xdef[xid]? = some x)
    (ht : x.type = .function) (hc : callItems xid x n = some call) (hr : ¬x.ret < 1) :
    call ++ discardItems (x.ret - 1) = [.ext xid n 1] := by
  unfold callItems at hc
  split at hc
  · cases hc
    rcases hL.ret x (mem_of_getElem? hx) ht with h | h
    · omega
    · rw [h]
      rfl
  · cases hc

theorem works_scaleItems {a : Word} (h : Works C S S1 σ σ1 is [a]) {o : IntOp} {c : Word}
    (ho : o.eval C.host a c = some v) :
    Works C S (scaleItems o c S1).2 σ σ1 (is ++ (scaleItems o c S1).1) [v] := by
  refine ⟨?_, h.strs, h.objs⟩
  have hc : Computes C.host C.data σ.calls (is ++ [.lit (.int c) 0]) [c, a] σ1.calls :=
    h.computes.append computes_lit
  rw [show is ++ (scaleItems o c S1).1 = is ++ [.lit (.int c) 0] ++ [.bin o] by simp [scaleItems]]
  exact hc.bin ho

theorem works_objectItems (hs : Sees C S σ) (hv : C.object xid x σ = some (v, σ')) :
    Works C S (objectItems xid x S).2 σ σ' (objectItems xid x S).1 [v] := by
  unfold Scene.object at hv
  unfold objectItems
  split at hv
  · rename_i hx
    cases hv
    rw [if_pos hx]
    exact hs.works computes_lit rfl rfl
  · rename_i hx
    rw [if_neg hx]
    exact (hs.works computes_nil rfl rfl).ext [] 1 rfl hv rfl rfl

/-- From an index to the element's object. -/
theorem works_xlatItems {j : Word} (h : Works C S S1 σ σ1 is [j])
    (hv : C.element xid x j σ1 = some (v, σ')) :
    Works C S (xlatItems xid x S1).2 σ σ' (is ++ (xlatItems xid x S1).1) [v] := by
  unfold Scene.element at hv
  unfold xlatItems
  split at hv
  · rename_i hx
    cases hv
    rw [if_pos hx, ← append_assoc]
    dsimp only
    have hmul : Works C S
        (if x.size > 1 then scaleItems .mul (BitVec.ofNat 32 x.size) S1 else ([], S1)).2 σ σ1
        (is ++ (if x.size > 1 then scaleItems .mul (BitVec.ofNat 32 x.size) S1 else ([], S1)).1)
        [if x.size > 1 then j * BitVec.ofNat 32 x.size else j] := by
      split
      · exact works_scaleItems h rfl
      · rwa [append_nil]
    split
    · exact works_scaleItems hmul rfl
    · rwa [append_nil]
  · rename_i hx
    rw [if_neg hx]
    exact h.ext [j] 1 rfl hv rfl rfl

end

section
variable {C : Scene}

mutual

/-- **The items of an expression push its value.** -/
theorem Exp.works (hL : C.lib.Modest) : ∀ (e : Exp) {S S' : Static} {σ σ' : Log} {is : List Item}
    {v : Word}, e.Narrow → Sees C S σ → e.items C.lib C.cstr S = some (is, S') →
    e.eval C σ = some (v, σ') → Works C S S' σ σ' is [v]
  | .int v, S, S', σ, σ', is, w, hn, hs, h, he => by
    cases h
    cases he
    exact hs.works computes_lit rfl rfl
  | .char v, S, S', σ, σ', is, w, hn, hs, h, he => by
    cases h
    cases he
    exact hs.works computes_lit rfl rfl
  | .str s, S, S', σ, σ', is, w, hn, hs, h, he => by
    simp only [Exp.items] at h
    simp only [Exp.eval, hs.strs] at he
    obtain ⟨hneg, h⟩ := ite_none_left_eq_some.mp h
    cases h
    rw [if_neg hneg] at he
    cases he
    exact ⟨computes_lit, rfl, rfl⟩
  | .bool b, S, S', σ, σ', is, w, hn, hs, h, he => by
    cases h
    cases he
    exact hs.works computes_lit rfl rfl
  | .var s, S, S', σ, σ', is, w, hn, hs, h, he => by
    obtain ⟨a, ha, h⟩ := bind_eq_some_iff.mp h
    obtain ⟨b, hb, he⟩ := bind_eq_some_iff.mp he
    rw [hs.look, ha] at hb
    cases hb
    cases h
    cases he
    exact hs.works computes_ld rfl rfl
  | .paren e, S, S', σ, σ', is, w, hn, hs, h, he => e.works hL hn hs h he
  | .un o e, S, S', σ, σ', is, w, hn, hs, h, he => by
    obtain ⟨⟨is1, S1⟩, h1, h⟩ := bind_eq_some_iff.mp h
    obtain ⟨⟨v1, σ1⟩, he1, he⟩ := bind_eq_some_iff.mp he
    cases he
    have hw := e.works hL hn hs h1 he1
    have hu : unItems o is1 S1 = (is, S') := some.inj h
    have hc := computes_unItems (o := o) hw.computes S1
    obtain ⟨hstrs, hobjs⟩ := unItems_static o is1 S1
    rw [hu] at hc hstrs hobjs
    exact ⟨hc, hw.strs.trans hstrs.symm, hobjs.trans hw.objs⟩
  | .bin o l r, S, S', σ, σ', is, w, ⟨hnl, hnr⟩, hs, h, he => by
    obtain ⟨⟨il, S1⟩, h1, h⟩ := bind_eq_some_iff.mp h
    obtain ⟨⟨ir, S2⟩, h2, h⟩ := bind_eq_some_iff.mp h
    obtain ⟨⟨a, σ1⟩, he1, he⟩ := bind_eq_some_iff.mp he
    obtain ⟨⟨b, σ2⟩, he2, he⟩ := bind_eq_some_iff.mp he
    obtain ⟨v, ho, he⟩ := bind_eq_some_iff.mp he
    cases h
    cases he
    have hl := l.works hL hnl hs h1 he1
    have hr := r.works hL hnr (hl.sees hs) h2 he2
    exact ⟨computes_binItems hl.computes hr.computes ho, hr.strs, hr.objs.trans hl.objs⟩
  | .call s as, S, S', σ, σ', is, w, ⟨hlen, hn⟩, hs, h, he => by
    obtain ⟨⟨xid, x⟩, hx, h⟩ := bind_eq_some_iff.mp h
    obtain ⟨⟨ia, S1⟩, h1, h⟩ := bind_eq_some_iff.mp h
    obtain ⟨call, hcall, h⟩ := bind_eq_some_iff.mp h
    simp only [Exp.eval, hx, bind_eq_bind, bind_some] at he
    obtain ⟨⟨vs, σ1⟩, he1, hv⟩ := bind_eq_some_iff.mp he
    obtain ⟨hx, ht⟩ := C.lib.function_spec _ hx
    obtain ⟨hret, h⟩ := ite_none_left_eq_some.mp h
    cases h
    rw [Nat.mod_eq_of_lt hlen] at hcall
    obtain ⟨hw, hvs⟩ := as.works hL hn hs h1 he1
    rw [append_assoc, eq_of_callItems hL hx ht hcall hret]
    rw [← append_nil vs.reverse] at hw
    exact hw.ext _ 1 hvs.symm hv rfl rfl
  | .attr o s, S, S', σ, σ', is, w, hn, hs, h, he => by
    obtain ⟨⟨io, cid, S1⟩, h1, h⟩ := bind_eq_some_iff.mp h
    obtain ⟨xid, hx, h⟩ := bind_eq_some_iff.mp h
    obtain ⟨⟨b, cid', σ1⟩, he1, he⟩ := bind_eq_some_iff.mp he
    obtain ⟨rfl, hw⟩ := o.works hL hn hs h1 he1
    simp only [hx, bind_eq_bind, bind_some] at he
    cases h
    exact hw.ext [b] 1 rfl he rfl rfl
  | .elem o s i, S, S', σ, σ', is, w, ⟨hno, hni⟩, hs, h, he => by
    obtain ⟨⟨io, cid, S1⟩, h1, h⟩ := bind_eq_some_iff.mp h
    obtain ⟨⟨ii, S2⟩, h2, h⟩ := bind_eq_some_iff.mp h
    obtain ⟨xid, hx, h⟩ := bind_eq_some_iff.mp h
    obtain ⟨⟨b, cid', σ1⟩, he1, he⟩ := bind_eq_some_iff.mp he
    obtain ⟨⟨j, σ2⟩, he2, he⟩ := bind_eq_some_iff.mp he
    obtain ⟨rfl, hw⟩ := o.works hL hno hs h1 he1
    have hj := i.works hL hni (hw.sees hs) h2 he2
    simp only [hx, bind_eq_bind, bind_some] at he
    cases h
    exact (hw.append hj).ext [b, j] 1 rfl he rfl rfl
  | .method o s as, S, S', σ, σ', is, w, ⟨hlen, hno, hn⟩, hs, h, he => by
    obtain ⟨⟨io, cid, S1⟩, h1, h⟩ := bind_eq_some_iff.mp h
    obtain ⟨⟨xid, x⟩, hx, h⟩ := bind_eq_some_iff.mp h
    obtain ⟨⟨ia, S2⟩, h2, h⟩ := bind_eq_some_iff.mp h
    obtain ⟨call, hcall, h⟩ := bind_eq_some_iff.mp h
    obtain ⟨⟨b, cid', σ1⟩, he1, he⟩ := bind_eq_some_iff.mp he
    obtain ⟨rfl, hw⟩ := o.works hL hno hs h1 he1
    simp only [hx, bind_eq_bind, bind_some] at he
    obtain ⟨⟨vs, σ2⟩, he2, hv⟩ := bind_eq_some_iff.mp he
    obtain ⟨hx, ht⟩ := C.lib.method_spec _ hx
    obtain ⟨hret, h⟩ := ite_none_left_eq_some.mp h
    cases h
    rw [Nat.mod_eq_of_lt hlen] at hcall
    obtain ⟨ha, hvs⟩ := as.works hL hn (hw.sees hs) h2 he2
    rw [append_assoc, eq_of_callItems hL hx ht hcall hret]
    have hall := hw.append ha
    rw [← reverse_cons, ← append_nil (List.reverse _)] at hall
    exact hall.ext _ 1 (by rw [length_cons, hvs, Nat.add_comm]) hv rfl rfl

theorem Base.works (hL : C.lib.Modest) : ∀ (o : Base) {S S' : Static} {σ σ' : Log} {is : List Item}
    {cid cid' : Nat} {v : Word}, o.Narrow → Sees C S σ →
    o.items C.lib C.cstr S = some (is, cid, S') → o.eval C σ = some (v, cid', σ') →
    cid = cid' ∧ Works C S S' σ σ' is [v]
  | .obj s, S, S', σ, σ', is, cid, cid', v, hn, hs, h, he => by
    obtain ⟨⟨xid, x⟩, hx, h⟩ := bind_eq_some_iff.mp h
    simp only [Base.eval, hx, bind_eq_bind, bind_some] at he
    obtain ⟨⟨v1, σ1⟩, hv, he⟩ := bind_eq_some_iff.mp he
    cases h
    cases he
    exact ⟨rfl, works_objectItems hs hv⟩
  | .item s i, S, S', σ, σ', is, cid, cid', v, hn, hs, h, he => by
    obtain ⟨⟨ii, S1⟩, h1, h⟩ := bind_eq_some_iff.mp h
    obtain ⟨⟨xid, x⟩, hx, h⟩ := bind_eq_some_iff.mp h
    obtain ⟨⟨j, σ1⟩, he1, he⟩ := bind_eq_some_iff.mp he
    simp only [hx, bind_eq_bind, bind_some] at he
    obtain ⟨⟨v1, σ2⟩, hv, he⟩ := bind_eq_some_iff.mp he
    cases h
    cases he
    exact ⟨rfl, works_xlatItems (i.works hL hn hs h1 he1) hv⟩

/-- The arguments lie on the stack with the last one on top. -/
theorem Args.works (hL : C.lib.Modest) : ∀ (as : Args) {S S' : Static} {σ σ' : Log}
    {is : List Item} {vs : List Word}, as.Narrow → Sees C S σ →
    as.items C.lib C.cstr S = some (is, S') → as.eval C σ = some (vs, σ') →
    Works C S S' σ σ' is vs.reverse ∧ vs.length = as.length
  | .nil, S, S', σ, σ', is, vs, hn, hs, h, he => by
    cases h
    cases he
    exact ⟨hs.works computes_nil rfl rfl, rfl⟩
  | .cons e as, S, S', σ, σ', is, vs, ⟨hne, hn⟩, hs, h, he => by
    obtain ⟨⟨ie, S1⟩, h1, h⟩ := bind_eq_some_iff.mp h
    obtain ⟨⟨ia, S2⟩, h2, h⟩ := bind_eq_some_iff.mp h
    obtain ⟨⟨v, σ1⟩, he1, he⟩ := bind_eq_some_iff.mp he
    obtain ⟨⟨ws, σ2⟩, he2, he⟩ := bind_eq_some_iff.mp he
    cases h
    cases he
    have hw := e.works hL hne hs h1 he1
    obtain ⟨ha, hlen⟩ := as.works hL hn (hw.sees hs) h2 he2
    rw [reverse_cons]
    exact ⟨hw.append ha, by rw [length_cons, hlen]; rfl⟩

end

end

end MicroJS
