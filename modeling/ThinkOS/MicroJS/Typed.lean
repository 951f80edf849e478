import ThinkOS.MicroJS.Machine
import ThinkOS.MicroJS.Translate

/-!
# MicroJS: the items of a tree are well typed

`Takes n k is`: the segment takes `n` values from the stack and leaves `k`, wherever it stands below
a handler. Expressions leave one value and statements none. This is said of libraries whose
functions return at most one value, and of calls with fewer arguments than the 8 bits that count them.
-/

namespace MicroJS

open List

variable {it : Item} {k cid xid o : Nat} {t t1 t2 : Ty} {array : Bool} {h : List Item} {x : ExtDef}
  {r : Int}

open Segment Lib

/-! ## Segments -/

/-- A segment that takes `n` values and leaves `k`. -/
def Takes (n k : Nat) (is : List Item) : Prop :=
  ∀ (o d : Nat) (hs : List Nat), hs ≠ [] → flow.Typed o ⟨d + n, hs⟩ is ∧
    flow.after o ⟨d + n, hs⟩ is = ⟨d + k, hs⟩

section
variable {n l : Nat} {a b c e x y : List Item}

theorem takes_nil : Takes n n [] := fun _ _ _ _ => ⟨Flow.typed_nil, rfl⟩

theorem takes_append (ha : Takes n k a) (hb : Takes k l b) : Takes n l (a ++ b) := by
  intro o d hs hne
  obtain ⟨hta, hea⟩ := ha o d hs hne
  obtain ⟨htb, heb⟩ := hb (o + a.length) d hs hne
  refine ⟨Flow.typed_append hta (by rwa [hea]), ?_⟩
  rw [Flow.after_append, hea, heb]

theorem Takes.above (h : Takes n k a) (j : Nat) : Takes (j + n) (j + k) a := by
  intro o d hs hne
  have := h o (d + j) hs hne
  rwa [Nat.add_assoc, Nat.add_assoc] at this

theorem takes_item (hj : it.jump = none) (hp : it.pops ≤ n) (hk : n - it.pops + it.pushes = k)
    (hok : ∀ d hs, hs ≠ [] → Ty.Ok it ⟨d + n, hs⟩)
    (hnext : ∀ i t, Ty.next i it t = { t with depth := t.depth - it.pops + it.pushes }) :
    Takes n k [it] := by
  intro o d hs hne
  refine ⟨Flow.typed_singleton (hok d hs hne) hj, ?_⟩
  show Ty.next o it ⟨d + n, hs⟩ = ⟨d + k, hs⟩
  rw [hnext, ← hk]
  simp only [Ty.mk.injEq, and_true]
  omega

theorem takes_lit {c : Const} {m : Nat} : Takes 0 1 [.lit c m] :=
  takes_item rfl (Nat.zero_le _) rfl (fun _ _ _ => ⟨Nat.zero_le _, trivial⟩) fun _ _ => rfl

theorem takes_ld {x : Nat} : Takes 0 1 [.ld x] :=
  takes_item rfl (Nat.zero_le _) rfl (fun _ _ _ => ⟨Nat.zero_le _, trivial⟩) fun _ _ => rfl

theorem takes_st {x : Nat} : Takes 1 0 [.st x] :=
  takes_item rfl le_rfl rfl (fun _ _ _ => ⟨Nat.le_add_left _ _, trivial⟩) fun _ _ => rfl

theorem takes_pop : Takes 1 0 [.pop] :=
  takes_item rfl le_rfl rfl (fun _ _ _ => ⟨Nat.le_add_left _ _, trivial⟩) fun _ _ => rfl

theorem takes_xpt : Takes 1 0 [.xpt] :=
  takes_item rfl le_rfl rfl (fun _ _ h => ⟨Nat.le_add_left _ _, h⟩) fun _ _ => rfl

theorem takes_bin {o : IntOp} : Takes 2 1 [.bin o] :=
  takes_item rfl le_rfl rfl (fun _ _ _ => ⟨Nat.le_add_left _ _, trivial⟩) fun _ _ => rfl

theorem takes_un {o : UnOp} : Takes 1 1 [.un o] :=
  takes_item rfl le_rfl rfl (fun _ _ _ => ⟨Nat.le_add_left _ _, trivial⟩) fun _ _ => rfl

theorem takes_fuse {f : Fuse} {c : Const} {m : Nat} (h : negs m c.value = f.operand) :
    Takes 1 1 [.fuse f c m] :=
  takes_item rfl le_rfl rfl (fun _ _ _ => ⟨Nat.le_add_left _ _, h⟩) fun _ _ => rfl

theorem takes_ext (hx : xid < 256) (hn : n < 256) (hr : r = k) : Takes n k [.ext xid n r] := by
  subst hr
  exact takes_item rfl (Nat.le_refl n) (by simp [Item.pops, Item.pushes])
    (fun _ _ h => ⟨Nat.le_add_left _ _, hx, hn, Int.natCast_nonneg k, h⟩) fun _ _ => rfl

/-! ## Statements

Exception frames are pushed between statements only, where no value is on the stack. -/

/-- A segment that is well typed where a statement may stand, with `k` values left to take. -/
def Level (k : Nat) (is : List Item) : Prop :=
  ∀ (o : Nat) (hs : List Nat), hs ≠ [] → flow.Typed o ⟨k, hs⟩ is ∧ flow.after o ⟨k, hs⟩ is = ⟨0, hs⟩

theorem Takes.level (h : Takes k 0 a) : Level k a := by
  intro o hs hne
  have h := h o 0 hs hne
  rwa [Nat.zero_add] at h

theorem level_append (ha : Level k a) (hb : Level 0 b) : Level k (a ++ b) := by
  intro o hs hne
  obtain ⟨hta, hea⟩ := ha o hs hne
  obtain ⟨htb, heb⟩ := hb (o + a.length) hs hne
  refine ⟨Flow.typed_append hta (by rwa [hea]), ?_⟩
  rw [Flow.after_append, hea, heb]

theorem Takes.cond (h : Takes 0 1 a) (o : Nat) {hs : List Nat} (hne : hs ≠ []) :
    flow.Typed o ⟨0, hs⟩ a ∧ flow.after o ⟨0, hs⟩ a = ⟨1, hs⟩ := h o 0 hs hne

theorem ok_rel {d : Int} (hj : it.jump = some d) (h1 : flow.after o t x = t1) (hok : t1.Ok it)
    (p q : List Item) (hpq : x ++ it :: y = p ++ q) (hd : (p.length : Int) = x.length + 1 + d)
    (h2 : flow.after o t p = t2) (hl : Ty.Lands it t1 t2) : flow.Ok o t x it y :=
  Flow.ok_jump (by rw [h1]; exact hok) hj hpq hd (by rw [h1, h2]; exact hl)

theorem after_snoc (h : flow.after o t x = t1) (h2 : Ty.next (o + x.length) it t1 = t2) :
    flow.after o t (x ++ [it]) = t2 := by
  rw [Flow.after_append, h]
  exact h2

theorem after_seg (h : flow.after o t x = t1) (h2 : flow.after (o + x.length) t1 y = t2) :
    flow.after o t (x ++ y) = t2 := by
  rw [Flow.after_append, h, h2]

theorem level_ifItems (hc : Takes 0 1 c) (hb : Level 0 b) : Level 0 (ifItems c b) := by
  intro o hs hne
  obtain ⟨htc, hec⟩ := hc.cond o hne
  have hj : flow.after o ⟨0, hs⟩ (c ++ [.jeq b.length]) = ⟨0, hs⟩ := after_snoc hec rfl
  obtain ⟨htb, heb⟩ := hb (o + (c ++ [Item.jeq b.length]).length) hs hne
  have hend := after_seg hj heb
  have hsplit : ifItems c b = (c ++ [.jeq b.length]) ++ b := by simp [ifItems]
  refine ⟨?_, hsplit ▸ hend⟩
  refine every_append (htc.every rfl rfl) (every_cons ?_ (htb.every rfl hj))
  exact ok_rel rfl hec ⟨le_rfl, hne⟩ _ [] (by simp) (by simp; omega) hend rfl

theorem level_ifElseItems (hc : Takes 0 1 c) (hb : Level 0 b) (he : Level 0 e) :
    Level 0 (ifElseItems c b e) := by
  intro o hs hne
  obtain ⟨htc, hec⟩ := hc.cond o hne
  let x := c ++ [Item.jeq (b.length + 1)]
  have hx : flow.after o ⟨0, hs⟩ x = ⟨0, hs⟩ := after_snoc hec rfl
  obtain ⟨htb, heb⟩ := hb (o + x.length) hs hne
  have hxb := after_seg hx heb
  let y := x ++ b ++ [Item.jmp e.length]
  have hy : flow.after o ⟨0, hs⟩ y = ⟨0, hs⟩ := after_snoc hxb rfl
  obtain ⟨hte, hee⟩ := he (o + y.length) hs hne
  have hend := after_seg hy hee
  have hsplit : ifElseItems c b e = y ++ e := by simp [ifElseItems, x, y]
  refine ⟨?_, hsplit ▸ hend⟩
  refine every_append (every_append (htc.every rfl rfl) (every_cons ?_ (htb.every rfl hx)))
    (every_cons ?_ (hte.every ?_ ?_))
  · exact ok_rel rfl hec ⟨le_rfl, hne⟩ y e (by simp [x, y]) (by simp [x, y]; omega) hy rfl
  · exact ok_rel rfl (by simpa [x] using hxb) ⟨Nat.zero_le _, hne⟩ (y ++ e) [] (by simp [x, y])
      (by simp [x, y]; omega) hend rfl
  · simp [x, y]
  · simpa [x, y] using hy

theorem level_whileItems (hc : Takes 0 1 c) (hb : Level 0 b) : Level 0 (whileItems c b) := by
  intro o hs hne
  obtain ⟨htc, hec⟩ := hc.cond o hne
  let x := c ++ [Item.jeq (b.length + 1)]
  have hx : flow.after o ⟨0, hs⟩ x = ⟨0, hs⟩ := after_snoc hec rfl
  obtain ⟨htb, heb⟩ := hb (o + x.length) hs hne
  have hxb := after_seg hx heb
  let y := x ++ b ++ [Item.jmp (-(c.length + 1 + b.length + 1))]
  have hy : flow.after o ⟨0, hs⟩ y = ⟨0, hs⟩ := after_snoc hxb rfl
  have hsplit : whileItems c b = y := by simp [whileItems, x, y]
  refine ⟨?_, hsplit ▸ hy⟩
  refine every_append (every_append (htc.every rfl rfl) (every_cons ?_ (htb.every rfl hx)))
    (every_singleton ?_)
  · exact ok_rel rfl hec ⟨le_rfl, hne⟩ y [] (by simp [x, y]) (by simp [x, y]; omega) hy rfl
  · exact ok_rel rfl (by simpa [x] using hxb) ⟨Nat.zero_le _, hne⟩ [] y (by simp [x, y])
      (by simp; omega) rfl rfl

theorem level_forItems (hc : Takes 0 1 c) (ha : Level 0 a) (hb : Level 0 b) : Level 0 (forItems c a b) := by
  intro o hs hne
  obtain ⟨htc, hec⟩ := hc.cond o hne
  let x := c ++ [Item.jeq (1 + a.length + 1 + b.length + 1)]
  have hx : flow.after o ⟨0, hs⟩ x = ⟨0, hs⟩ := after_snoc hec rfl
  let y := x ++ [Item.jmp (a.length + 1)]
  have hy : flow.after o ⟨0, hs⟩ y = ⟨0, hs⟩ := after_snoc hx rfl
  obtain ⟨hta, hea⟩ := ha (o + y.length) hs hne
  have hya := after_seg hy hea
  let z := y ++ a ++ [Item.jmp (-(c.length + 2 + a.length + 1))]
  have hz : flow.after o ⟨0, hs⟩ z = ⟨0, hs⟩ := after_snoc hya rfl
  obtain ⟨htb, heb⟩ := hb (o + z.length) hs hne
  have hzb := after_seg hz heb
  let w := z ++ b ++ [Item.jmp (-(a.length + 1 + b.length + 1))]
  have hw : flow.after o ⟨0, hs⟩ w = ⟨0, hs⟩ := after_snoc hzb rfl
  have hsplit : forItems c a b = w := by simp [forItems, x, y, z, w]
  refine ⟨?_, hsplit ▸ hw⟩
  refine every_append (every_append (every_append (htc.every rfl rfl)
    (every_cons ?_ (every_cons ?_ (hta.every ?_ ?_)))) (every_cons ?_ (htb.every ?_ ?_)))
    (every_singleton ?_)
  · exact ok_rel rfl hec ⟨le_rfl, hne⟩ w [] (by simp [x, y, z, w])
      (by simp [x, y, z, w]; omega) hw rfl
  · exact ok_rel rfl (by simpa [x] using hx) ⟨Nat.zero_le _, hne⟩ z
      (b ++ [.jmp (-(a.length + 1 + b.length + 1))]) (by simp [x, y, z])
      (by simp [x, y, z]; omega) hz rfl
  · simp [x, y]
  · simpa [x, y] using hy
  · exact ok_rel rfl (by simpa [x, y] using hya) ⟨Nat.zero_le _, hne⟩ [] w (by simp [x, y, z, w])
      (by simp; omega) rfl rfl
  · simp [x, y, z]
  · simpa [x, y, z] using hz
  · exact ok_rel rfl (by simpa [x, y, z] using hzb) ⟨Nat.zero_le _, hne⟩ y
      (a ++ .jmp (-(c.length + 2 + a.length + 1)) :: b ++ [.jmp (-(a.length + 1 + b.length + 1))])
      (by simp [x, y]) (by simp [x, y]; omega) hy rfl

/-- The body stands below the new frame and the handler does not. -/
theorem level_tryCatchItems (hb : Level 0 b) (hh : Level 1 h) : Level 0 (tryCatchItems b h) := by
  intro o hs hne
  let x := [Item.pushx (b.length + 1)]
  let hs' := (o + 1 + (b.length + 1) : Int).toNat :: hs
  have hx : flow.after o ⟨0, hs⟩ x = ⟨0, hs'⟩ := rfl
  obtain ⟨htb, heb⟩ := hb (o + x.length) hs' (cons_ne_nil _ _)
  have hxb := after_seg hx heb
  let y := x ++ b ++ [Item.leave h.length]
  have hy : flow.after o ⟨0, hs⟩ y = ⟨1, hs⟩ := after_snoc hxb rfl
  obtain ⟨hth, heh⟩ := hh (o + y.length) hs hne
  have hend := after_seg hy heh
  have hsplit : tryCatchItems b h = y ++ h := by simp [tryCatchItems, x, y]
  refine ⟨?_, hsplit ▸ hend⟩
  refine every_append (every_cons ?_ (htb.every rfl hx)) (every_cons ?_ (hth.every ?_ ?_))
  · exact ok_rel rfl rfl ⟨le_rfl, rfl⟩ y h (by simp [x, y]) (by simp [x, y]; omega) hy rfl
  · have hxb : flow.after o ⟨0, hs⟩ ([] ++ (Item.pushx (b.length + 1) :: b)) = ⟨0, hs'⟩ := hxb
    exact ok_rel rfl hxb ⟨le_rfl, rfl, hne⟩ (y ++ h) [] (by simp [x, y])
      (by simp [x, y]; omega) hend rfl
  · simp [x, y]
  · simpa [x, y] using hy

/-- Without a handler the value is thrown again. -/
theorem level_tryItems (hb : Level 0 b) : Level 0 (tryItems b) := by
  have h := level_tryCatchItems hb takes_xpt.level
  rwa [show tryCatchItems b [.xpt] = tryItems b by simp [tryCatchItems, tryItems]] at h

/-- **The whole code is well typed.** -/
theorem sound_wholeItems (hb : Level 0 b) : Sound (wholeItems b) := by
  let x := [Item.pushx (b.length + 1)]
  let hs' := [(0 + 1 + (b.length + 1) : Int).toNat]
  have hx : flow.after 0 ⟨0, []⟩ x = ⟨0, hs'⟩ := rfl
  obtain ⟨htb, heb⟩ := hb (0 + x.length) hs' (cons_ne_nil _ _)
  have hxb := after_seg hx heb
  let y := x ++ b ++ [Item.finish]
  have hy : flow.after 0 ⟨0, []⟩ y = ⟨1, []⟩ := after_snoc hxb rfl
  have hsplit : wholeItems b = y ++ [.ret] := by simp [wholeItems, x, y]
  refine ⟨?_, by rw [hsplit, getLast?_concat], ?_⟩
  · unfold wholeItems
    refine every_append (every_cons ?_ (htb.every rfl hx)) (every_cons ?_ (every_singleton ?_))
    · exact ok_rel rfl rfl ⟨le_rfl, rfl⟩ y [.ret] (by simp [x, y]) (by simp [x, y]; omega) hy rfl
    · refine Flow.ok_plain ?_ rfl
      rw [show [] ++ (Item.pushx (b.length + 1) :: b) = x ++ b by simp [x], hxb]
      exact ⟨le_rfl, rfl, cons_ne_nil _ _⟩
    · refine Flow.ok_plain ?_ rfl
      rw [show [] ++ (Item.pushx (b.length + 1) :: b) ++ [.finish] = y by simp [x, y], hy]
      exact ⟨le_rfl, trivial⟩
  · unfold tyAt
    rw [take_length, hsplit]
    exact after_snoc hy rfl

end

/-! ## The library -/

/-- The number of values that the external `xid` returns when it is called with `n` arguments:
attributes and elements are read with one argument less than they are written with. -/
def LibDef.results (L : LibDef) (xid n : Nat) : Option Int :=
  (L.xdef[xid]?).bind fun x =>
    match x.type with
    | .function => some x.ret
    | .integer =>
      let get := if x.isArray then 2 else 1
      if n = get then some 1 else if n = get + 1 then some 0 else none
    | .object => some 1
    | .reserved => none

/-- The external calls of a segment are as the library declares them. -/
def Declared (L : LibDef) (is : List Item) : Prop :=
  ∀ xid n r, .ext xid n r ∈ is → L.results xid n = some r

/-- Its externals have numbers of 8 bits and its functions return at most one value. -/
structure LibDef.Modest (L : LibDef) : Prop where
  size : L.xdef.length ≤ 256
  ret : ∀ x ∈ L.xdef, x.type = .function → x.ret = 0 ∨ x.ret = 1

section
variable {L : LibDef} {n : Nat} {s : Name} {a b : List Item}

@[simp]
theorem declared_append : Declared L (a ++ b) ↔ Declared L a ∧ Declared L b := by
  simp only [Declared, mem_append, or_imp, forall_and]

@[simp]
theorem declared_nil : Declared L [] := nofun

/-- An item that is no call. -/
@[simp]
theorem declared_cons (h : ∀ xid n r, it ≠ .ext xid n r) : Declared L (it :: a) ↔ Declared L a := by
  simp only [Declared, mem_cons, or_imp, forall_and, and_iff_right_iff_imp]
  exact fun _ xid n r he => absurd he.symm (h xid n r)

theorem LibDef.external_spec : Gives (L.external s) fun r => L.xdef[r.1]? = some r.2 :=
  .bind .self fun _ _ => .map .self

theorem LibDef.member_spec : Gives (L.member cid s) fun r => L.xdef[r.1]? = some r.2 := by
  refine fun r h => (Gives.filter (Q := fun r => L.xdef[r.1]? = some r.2) ?_ r h).1
  exact .bind .self fun _ _ => .map .self

theorem LibDef.attr_spec : Gives (L.attr array cid s) fun xid =>
    ∃ x, L.xdef[xid]? = some x ∧ x.type = .integer ∧ x.isArray = array := by
  refine .map fun r h => ?_
  obtain ⟨hm, hx⟩ := L.member_spec.filter r h
  exact ⟨r.2, hm, by simpa using hx⟩

theorem LibDef.function_spec :
    Gives (L.function s) fun r => L.xdef[r.1]? = some r.2 ∧ r.2.type = .function := by
  intro r h
  obtain ⟨hm, hx⟩ := L.external_spec.filter r h
  exact ⟨hm, by simpa using hx⟩

theorem LibDef.method_spec :
    Gives (L.method cid s) fun r => L.xdef[r.1]? = some r.2 ∧ r.2.type = .function := by
  intro r h
  obtain ⟨hm, hx⟩ := L.member_spec.filter r h
  exact ⟨hm, by simpa using hx⟩

theorem LibDef.object_spec :
    Gives (L.object array s) fun r => L.xdef[r.1]? = some r.2 ∧ r.2.type = .object := by
  intro r h
  obtain ⟨hm, hx⟩ := L.external_spec.filter r h
  have hx : r.2.type = .object ∧ r.2.isArray = array := by simpa using hx
  exact ⟨hm, hx.1⟩

theorem LibDef.Modest.lt (hL : L.Modest) (h : L.xdef[xid]? = some x) : xid < 256 := by
  have := (List.getElem?_eq_some_iff.mp h).1
  have := hL.size
  omega

/-- A segment that takes `n` values and leaves `k`, with declared calls. -/
def Fine (L : LibDef) (n k : Nat) (is : List Item) : Prop := Takes n k is ∧ Declared L is

theorem fine_append {l : Nat} (ha : Fine L n k a) (hb : Fine L k l b) : Fine L n l (a ++ b) :=
  ⟨takes_append ha.1 hb.1, declared_append.mpr ⟨ha.2, hb.2⟩⟩

theorem Fine.above (h : Fine L n k a) (j : Nat) : Fine L (j + n) (j + k) a :=
  ⟨h.1.above j, h.2⟩

theorem Takes.fine (h : Takes n k [it]) (hit : ∀ xid n r, it ≠ .ext xid n r) : Fine L n k [it] :=
  ⟨h, (declared_cons hit).mpr declared_nil⟩

theorem fine_nil : Fine L n n [] := ⟨takes_nil, declared_nil⟩

theorem fine_ext (hL : L.Modest) (hx : L.xdef[xid]? = some x) (hn : n < 256) (hr : r = k)
    (hd : L.results xid n = some r) : Fine L n k [.ext xid n r] := by
  refine ⟨takes_ext (hL.lt hx) hn hr, fun xid n r hm => ?_⟩
  cases mem_singleton.mp hm
  exact hd

/-- An access to an attribute (`array` false) or to an element of one: reading it, writing it. -/
theorem fine_attr (hL : L.Modest) (hn : n = if array then 2 else 1) :
    Gives (L.attr array cid s) fun xid =>
      Fine L n 1 [.ext xid n 1] ∧ Fine L (n + 1) 0 [.ext xid (n + 1) 0] := by
  intro xid h
  obtain ⟨x, hx, hty, harr⟩ := L.attr_spec xid h
  constructor
  · refine fine_ext hL hx (by subst hn; split <;> decide) rfl ?_
    simp [LibDef.results, hx, hty, harr, hn]
  · refine fine_ext hL hx (by subst hn; split <;> decide) rfl ?_
    simp [LibDef.results, hx, hty, harr, hn]

theorem fine_object (hL : L.Modest) (hx : L.xdef[xid]? = some x) (ht : x.type = .object)
    (hn : n < 256) : Fine L n 1 [.ext xid n 1] :=
  fine_ext hL hx hn rfl (by simp [LibDef.results, hx, ht])

/-- A call with what is done with its results: they are dropped, or all but the first are. -/
theorem fine_call (hL : L.Modest) {r : Nat × ExtDef} (hr : L.xdef[r.1]? = some r.2 ∧ r.2.type = .function)
    (ha : Fine L 0 n a) (hn : n < 256) : Gives (callItems r.1 r.2 (n % 256)) fun call =>
      Fine L 0 0 (a ++ call ++ discardItems r.2.ret) ∧
        (¬r.2.ret < 1 → Fine L 0 1 (a ++ call ++ discardItems (r.2.ret - 1))) := by
  intro call hc
  obtain ⟨xid, x⟩ := r
  obtain ⟨hx, ht⟩ := hr
  obtain ⟨rfl, -⟩ := mem_callItems hc
  rw [Nat.mod_eq_of_lt hn]
  have hd : L.results xid n = some x.ret := by simp [LibDef.results, hx, ht]
  rcases hL.ret x (mem_of_getElem? hx) ht with hr | hr
  · have h0 := fine_append ha (fine_ext (k := 0) hL hx hn (by rw [hr]; rfl) hd)
    rw [hr] at h0 ⊢
    exact ⟨by simpa [discardItems] using h0, fun h => absurd h (by decide)⟩
  · have h1 := fine_append ha (fine_ext (k := 1) hL hx hn (by rw [hr]; rfl) hd)
    rw [hr] at h1 ⊢
    exact ⟨fine_append h1 (takes_pop.fine (by simp)), fun _ => by simpa [discardItems] using h1⟩

end

/-! ## Expressions -/

mutual

/-- Every call has fewer arguments than the 8 bits that count them. -/
def Exp.Narrow : Exp → Prop
  | .int _ | .char _ | .str _ | .bool _ | .var _ => True
  | .paren e => e.Narrow
  | .un _ e => e.Narrow
  | .bin _ l r => l.Narrow ∧ r.Narrow
  | .call _ as => as.length < 256 ∧ as.Narrow
  | .attr o _ => o.Narrow
  | .elem o _ i => o.Narrow ∧ i.Narrow
  | .method o _ as => 1 + as.length < 256 ∧ o.Narrow ∧ as.Narrow

def Base.Narrow : Base → Prop
  | .obj _ => True
  | .item _ i => i.Narrow

def Args.Narrow : Args → Prop
  | .nil => True
  | .cons e as => e.Narrow ∧ as.Narrow

end

section
variable {L : LibDef} {cstr : List Name → Name → Int} {is : List Item} {S : Static}

theorem fine_binItems {o : BinOp} {il ir : List Item} (hl : Fine L 0 1 il) (hr : Fine L 0 1 ir) :
    Fine L 0 1 (binItems o il ir) := by
  rcases binItems_cases o il ir with ⟨f, c, k, hf, hir, hv, hi⟩ | hi
  · rw [hi]
    exact fine_append hl ((takes_fuse hv).fine nofun)
  · rw [hi]
    exact fine_append (fine_append hl (hr.above 1)) (takes_bin.fine nofun)

theorem fine_unItems {o : UnOp} (h : Fine L 0 1 is) : Fine L 0 1 (unItems o is S).1 := by
  have hplain : ∀ o : UnOp, Fine L 0 1 (is ++ [.un o]) := fun o => fine_append h (takes_un.fine nofun)
  cases o with
  | minus =>
    rcases unItems_minus is S with ⟨c, k, -, hm⟩ | ⟨-, hm⟩
    · rw [hm]
      exact takes_lit.fine nofun
    · rw [hm]
      exact hplain .minus
  | inv => exact hplain .inv
  | not => exact hplain .not

theorem fine_objectItems (hL : L.Modest) (hx : L.xdef[xid]? = some x) (ht : x.type = .object) :
    Fine L 0 1 (objectItems xid x S).1 := by
  unfold objectItems
  split
  · exact takes_lit.fine nofun
  · exact fine_object hL hx ht (by decide)

theorem fine_scaleItems {o : IntOp} {v : Word} : Fine L 1 1 (scaleItems o v S).1 :=
  fine_append ((takes_lit.fine nofun).above 1) (takes_bin.fine nofun)

theorem fine_xlatItems (hL : L.Modest) (hx : L.xdef[xid]? = some x) (ht : x.type = .object) :
    Fine L 1 1 (xlatItems xid x S).1 := by
  unfold xlatItems
  split
  · refine fine_append (k := 1) ?_ ?_
    · split
      · exact fine_scaleItems
      · exact fine_nil
    · split
      · exact fine_scaleItems
      · exact fine_nil
  · exact fine_object hL hx ht (by decide)

mutual

/-- **An expression leaves one value.** -/
theorem Exp.fine (hL : L.Modest) : ∀ (e : Exp) (S : Static), e.Narrow →
    Gives (e.items L cstr S) fun r => Fine L 0 1 r.1
  | .int _, _, _ => .ret (takes_lit.fine nofun)
  | .char _, _, _ => .ret (takes_lit.fine nofun)
  | .str _, _, _ => .unless fun _ => .ret (takes_lit.fine nofun)
  | .bool _, _, _ => .ret (takes_lit.fine nofun)
  | .var _, _, _ => .bind .self fun _ _ => .ret (takes_ld.fine nofun)
  | .paren e, S, hn => e.fine hL S hn
  | .un _ e, S, hn => (e.fine hL S hn).bind fun _ h => .ret (fine_unItems h)
  | .bin _ l r, S, hn =>
    (l.fine hL S hn.1).bind fun rl hl =>
    (r.fine hL rl.2 hn.2).bind fun _ hr => .ret (fine_binItems hl hr)
  | .call _ as, S, hn =>
    L.function_spec.bind fun _ hx =>
    (as.fine hL S hn.2).bind fun _ ha =>
    (fine_call hL hx ha hn.1).bind fun _ hc => .unless fun hr => .ret (hc.2 hr)
  | .attr o _, S, hn =>
    (o.fine hL S hn).bind fun _ ho =>
    (fine_attr hL rfl).bind fun _ hx => .ret (fine_append ho hx.1)
  | .elem o _ i, S, hn =>
    (o.fine hL S hn.1).bind fun ro ho =>
    (i.fine hL ro.2.2 hn.2).bind fun _ hi =>
    (fine_attr hL rfl).bind fun _ hx => .ret (fine_append (fine_append ho (hi.above 1)) hx.1)
  | .method o _ as, S, hn =>
    (o.fine hL S hn.2.1).bind fun ro ho =>
    L.method_spec.bind fun _ hx =>
    (as.fine hL ro.2.2 hn.2.2).bind fun _ ha =>
    (fine_call hL hx (fine_append ho (ha.above 1)) hn.1).bind fun _ hc =>
      .unless fun hr => .ret (hc.2 hr)

theorem Base.fine (hL : L.Modest) : ∀ (o : Base) (S : Static), o.Narrow →
    Gives (o.items L cstr S) fun r => Fine L 0 1 r.1
  | .obj _, _, _ => L.object_spec.bind fun _ hx => .ret (fine_objectItems hL hx.1 hx.2)
  | .item _ i, S, hn =>
    (i.fine hL S hn).bind fun _ hi =>
    L.object_spec.bind fun _ hx => .ret (fine_append hi (fine_xlatItems hL hx.1 hx.2))

theorem Args.fine (hL : L.Modest) : ∀ (as : Args) (S : Static), as.Narrow →
    Gives (as.items L cstr S) fun r => Fine L 0 as.length r.1
  | .nil, _, _ => .ret fine_nil
  | .cons e as, S, hn =>
    (e.fine hL S hn.1).bind fun re he =>
    (as.fine hL re.2 hn.2).bind fun _ ha =>
      .ret (fine_append he (by rw [Args.length, Nat.add_comm]; exact ha.above 1))

end

/-! ## Statements of a program -/

def Simple.Narrow : Simple → Prop
  | .assign _ e => e.Narrow
  | .call _ as => as.length < 256 ∧ as.Narrow
  | .attr o _ e => o.Narrow ∧ e.Narrow
  | .elem o _ i e => o.Narrow ∧ i.Narrow ∧ e.Narrow
  | .method o _ as => 1 + as.length < 256 ∧ o.Narrow ∧ as.Narrow

def Semi.Narrow : Semi → Prop
  | .throw_ e => e.Narrow
  | .vars v vs => ∀ x ∈ v :: vs, ∀ e ∈ x.2, e.Narrow
  | .simple s => s.Narrow

mutual

def Stat.Narrow : Stat → Prop
  | .for_ init cond after body =>
    (∀ s ∈ init, s.Narrow) ∧ cond.Narrow ∧ (∀ s ∈ after, s.Narrow) ∧ body.Narrow
  | .while_ cond body => cond.Narrow ∧ body.Narrow
  | .ifThen cond body => cond.Narrow ∧ body.Narrow
  | .ifElse cond body els => cond.Narrow ∧ body.Narrow ∧ els.Narrow
  | .try_ body => body.Narrow
  | .tryCatch body _ handler => body.Narrow ∧ handler.Narrow

def Block.Narrow : Block → Prop
  | .nil => True
  | .stat s b => s.Narrow ∧ b.Narrow
  | .semi s b => s.Narrow ∧ b.Narrow

end

def Program.Narrow : Program → Prop
  | .eof => True
  | .stat s p => s.Narrow ∧ p.Narrow
  | .semi s p => s.Narrow ∧ p.Narrow
  | .last s => s.Narrow
  | .block b p => b.Narrow ∧ p.Narrow

/-- A segment that stands as a statement, with declared calls. -/
def Sits (L : LibDef) (k : Nat) (is : List Item) : Prop := Level k is ∧ Declared L is

theorem Fine.sits {a : List Item} (h : Fine L k 0 a) : Sits L k a := ⟨h.1.level, h.2⟩

theorem sits_append {a b : List Item} (ha : Sits L k a) (hb : Sits L 0 b) : Sits L k (a ++ b) :=
  ⟨level_append ha.1 hb.1, declared_append.mpr ⟨ha.2, hb.2⟩⟩

theorem fine_storeItems {s : Name} : Gives (storeItems s S) fun r => Fine L 1 0 r.1 :=
  .map fun _ _ => takes_st.fine nofun

theorem Simple.fine (hL : L.Modest) : ∀ (s : Simple) (S : Static), s.Narrow →
    Gives (s.items L cstr S) fun r => Fine L 0 0 r.1
  | .assign _ e, S, hn =>
    (e.fine hL S hn).bind fun _ he => fine_storeItems.bind fun _ hs => .ret (fine_append he hs)
  | .call _ as, S, hn =>
    L.function_spec.bind fun _ hx =>
    (as.fine hL S hn.2).bind fun _ ha => (fine_call hL hx ha hn.1).bind fun _ hc => .ret hc.1
  | .attr o _ e, S, hn =>
    (o.fine hL S hn.1).bind fun ro ho =>
    (e.fine hL ro.2.2 hn.2).bind fun _ he =>
    (fine_attr hL rfl).bind fun _ hx => .ret (fine_append (fine_append ho (he.above 1)) hx.2)
  | .elem o _ i e, S, hn =>
    (o.fine hL S hn.1).bind fun ro ho =>
    (i.fine hL ro.2.2 hn.2.1).bind fun ri hi =>
    (e.fine hL ri.2 hn.2.2).bind fun _ he =>
    (fine_attr hL rfl).bind fun _ hx =>
      .ret (fine_append (fine_append (fine_append ho (hi.above 1)) (he.above 2)) hx.2)
  | .method o _ as, S, hn =>
    (o.fine hL S hn.2.1).bind fun ro ho =>
    L.method_spec.bind fun _ hx =>
    (as.fine hL ro.2.2 hn.2.2).bind fun _ ha =>
    (fine_call hL hx (fine_append ho (ha.above 1)) hn.1).bind fun _ hc => .ret hc.1

theorem simple_fine (hL : L.Modest) : ∀ (ss : List Simple) (S : Static), (∀ s ∈ ss, s.Narrow) →
    Gives (simpleItems L cstr ss S) fun r => Fine L 0 0 r.1
  | [], _, _ => .ret fine_nil
  | s :: ss, S, hn =>
    (s.fine hL S (hn s mem_cons_self)).bind fun rs h1 =>
    (simple_fine hL ss rs.2 fun s hs => hn s (mem_cons_of_mem _ hs)).bind fun _ h2 =>
      .ret (fine_append h1 h2)

theorem var_fine (hL : L.Modest) {v : Name × Option Exp} (hn : ∀ e ∈ v.2, e.Narrow) :
    Gives (varItems L cstr v S) fun r => Fine L 0 0 r.1 := by
  rcases v with ⟨s, _ | e⟩
  · exact .ret fine_nil
  · exact (e.fine hL _ (hn e rfl)).bind fun _ he => fine_storeItems.bind fun _ hs =>
      .ret (fine_append he hs)

theorem vars_fine (hL : L.Modest) : ∀ (vs : List (Name × Option Exp)) (S : Static),
    (∀ x ∈ vs, ∀ e ∈ x.2, e.Narrow) → Gives (varsItems L cstr vs S) fun r => Fine L 0 0 r.1
  | [], _, _ => .ret fine_nil
  | v :: vs, _, hn =>
    (var_fine hL (hn v mem_cons_self)).bind fun rv h1 =>
    (vars_fine hL vs rv.2 fun x hx => hn x (mem_cons_of_mem _ hx)).bind fun _ h2 =>
      .ret (fine_append h1 h2)

theorem Semi.fine (hL : L.Modest) : ∀ (s : Semi) (S : Static), s.Narrow →
    Gives (s.items L cstr S) fun r => Fine L 0 0 r.1
  | .throw_ e, S, hn =>
    (e.fine hL S hn).bind fun _ he => .ret (fine_append he (takes_xpt.fine nofun))
  | .vars v vs, S, hn => vars_fine hL (v :: vs) S hn
  | .simple s, S, hn => s.fine hL S hn

section
variable {a b c e : List Item}

theorem sits_ifItems (hc : Fine L 0 1 c) (hb : Sits L 0 b) : Sits L 0 (ifItems c b) :=
  ⟨level_ifItems hc.1 hb.1, by simp [ifItems, hc.2, hb.2]⟩

theorem sits_ifElseItems (hc : Fine L 0 1 c) (hb : Sits L 0 b) (he : Sits L 0 e) :
    Sits L 0 (ifElseItems c b e) :=
  ⟨level_ifElseItems hc.1 hb.1 he.1, by simp [ifElseItems, hc.2, hb.2, he.2]⟩

theorem sits_whileItems (hc : Fine L 0 1 c) (hb : Sits L 0 b) : Sits L 0 (whileItems c b) :=
  ⟨level_whileItems hc.1 hb.1, by simp [whileItems, hc.2, hb.2]⟩

theorem sits_forItems (hc : Fine L 0 1 c) (ha : Sits L 0 a) (hb : Sits L 0 b) :
    Sits L 0 (forItems c a b) :=
  ⟨level_forItems hc.1 ha.1 hb.1, by simp [forItems, hc.2, ha.2, hb.2]⟩

theorem sits_tryItems (hb : Sits L 0 b) : Sits L 0 (tryItems b) :=
  ⟨level_tryItems hb.1, by simp [tryItems, hb.2]⟩

theorem sits_tryCatchItems (hb : Sits L 0 b) (hh : Sits L 1 h) : Sits L 0 (tryCatchItems b h) :=
  ⟨level_tryCatchItems hb.1 hh.1, by simp [tryCatchItems, hb.2, hh.2]⟩

end

mutual

theorem Stat.sits (hL : L.Modest) : ∀ (s : Stat) (S : Static), s.Narrow →
    Gives (s.items L cstr S) fun r => Sits L 0 r.1
  | .for_ init cond after body, S, hn =>
    (simple_fine hL init S hn.1).bind fun _ hi =>
    (cond.fine hL _ hn.2.1).bind fun _ hc =>
    (simple_fine hL after _ hn.2.2.1).bind fun _ ha =>
    (body.sits hL _ hn.2.2.2).bind fun _ hb =>
      .ret (sits_append hi.sits (sits_forItems hc ha.sits hb))
  | .while_ cond body, S, hn =>
    (cond.fine hL S hn.1).bind fun _ hc =>
    (body.sits hL _ hn.2).bind fun _ hb => .ret (sits_whileItems hc hb)
  | .ifThen cond body, S, hn =>
    (cond.fine hL S hn.1).bind fun _ hc =>
    (body.sits hL _ hn.2).bind fun _ hb => .ret (sits_ifItems hc hb)
  | .ifElse cond body els, S, hn =>
    (cond.fine hL S hn.1).bind fun _ hc =>
    (body.sits hL _ hn.2.1).bind fun _ hb =>
    (els.sits hL _ hn.2.2).bind fun _ he => .ret (sits_ifElseItems hc hb he)
  | .try_ body, _, hn => (body.sits hL _ hn).bind fun _ hb => .ret (sits_tryItems hb)
  | .tryCatch body _ handler, _, hn =>
    (body.sits hL _ hn.1).bind fun _ hb =>
    fine_storeItems.bind fun _ hs =>
    (handler.sits hL _ hn.2).bind fun _ hh =>
      .ret (sits_tryCatchItems hb (sits_append hs.sits hh))

theorem Block.sits (hL : L.Modest) : ∀ (b : Block) (S : Static), b.Narrow →
    Gives (b.items L cstr S) fun r => Sits L 0 r.1
  | .nil, _, _ => .ret fine_nil.sits
  | .stat s b, S, hn =>
    (s.sits hL S hn.1).bind fun _ hs => (b.sits hL _ hn.2).bind fun _ hb => .ret (sits_append hs hb)
  | .semi s b, S, hn =>
    (s.fine hL S hn.1).bind fun _ hs =>
    (b.sits hL _ hn.2).bind fun _ hb => .ret (sits_append hs.sits hb)

end

theorem Program.sits (hL : L.Modest) : ∀ (p : Program) (S : Static), p.Narrow →
    Gives (p.items L cstr S) fun r => Sits L 0 r.1
  | .eof, _, _ => .ret fine_nil.sits
  | .stat s p, S, hn =>
    (s.sits hL S hn.1).bind fun _ hs => (p.sits hL _ hn.2).bind fun _ hp => .ret (sits_append hs hp)
  | .semi s p, S, hn =>
    (s.fine hL S hn.1).bind fun _ hs =>
    (p.sits hL _ hn.2).bind fun _ hp => .ret (sits_append hs.sits hp)
  | .last s, S, hn => fun r h => (s.fine hL S hn r h).sits
  | .block b p, _, hn =>
    (b.sits hL _ hn.1).bind fun _ hb => (p.sits hL _ hn.2).bind fun _ hp => .ret (sits_append hb hp)

/-- The external functions return as many values as the library declares. -/
def LibDef.Kept (L : LibDef) (H : Host) : Prop :=
  ∀ xid r (args : List Word) (cs : List ExtCall) (vals : List Word),
    L.results xid args.length = some r → H.ext (⟨xid, args⟩ :: cs) = .ret vals →
      (vals.length : Int) = r

theorem honest_wholeItems {H : Host} (hd : Declared L is) (hH : L.Kept H) :
    Honest H (wholeItems is) := by
  intro xid n r hm args cs vals hlen hret
  simp only [wholeItems, mem_append, mem_cons, reduceCtorEq, false_or, not_mem_nil, or_false] at hm
  exact hH xid r args cs vals (hlen ▸ hd xid n r hm) hret

end

end MicroJS
