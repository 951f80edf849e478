import ThinkOS.MicroJS.Compiled

/-!
# MicroJS: exception frames

The translator pushes an exception frame at the start of a `try` body, but no instruction takes it
back when the body completes: the jump over the handler leaves the frame on the stack and `xp` on it.
As long as no body completes, every state has exactly the frames that the types say.
-/

namespace MicroJS

open Segment Lib List

/-! ## Runs without a completed body -/

section
variable {P : List Item} {H : Host} {s s' : Mach} {it : Item}

/-- Each handler is entered with the frames below its own. -/
def Nested (P : List Item) : List Nat → Prop
  | [] => True
  | h :: hs => (tyAt P h).hs = hs ∧ Nested P hs

/-- The frames are those of the `try` statements around the position. -/
structure Even (P : List Item) (s : Mach) : Prop where
  hs : s.hs = (tyAt P s.pos).hs
  nested : Nested P s.hs

theorem Even.raise {h : Nat} {hs : List Nat} {v : Word} {calls : List ExtCall} (hE : Even P s)
    (hh : s.hs = h :: hs) : Even P { s with pos := h, temps := [v], hs := hs, calls := calls } := by
  have hn := hE.nested
  rw [hh] at hn
  exact ⟨hn.1.symm, hn.2⟩

/-- **Every step but the end of a `try` body keeps the frames even.** -/
theorem Even.move (hP : Sound P) (hE : Even P s) (hi : P[s.pos]? = some it)
    (hit : ∀ d, it ≠ .leave d) (hm : Mach.Move H s it s') : Even P s' := by
  have hty := tyAt_succ hi
  have hhs := hE.hs
  cases hm with
  | compute h =>
    rw [(Item.compute_next h s.pos (tyAt P s.pos)).2] at hty
    exact ⟨by simpa only [hty] using hhs, hE.nested⟩
  | reply hn h => exact ⟨by simpa only [hty, Ty.next] using hhs, hE.nested⟩
  | fail hn hv hh => exact hE.raise hh
  | throw ht hh => exact hE.raise hh
  | jmp d =>
    have hl : tyAt P (s.target d) = tyAt P s.pos := (hP.target hi rfl).2
    exact ⟨by rw [hl]; exact hhs, hE.nested⟩
  | leave d => exact absurd rfl (hit d)
  | @taken d ts ht =>
    have hl : tyAt P (s.target d) = { tyAt P s.pos with depth := (tyAt P s.pos).depth - 1 } :=
      (hP.target hi rfl).2
    exact ⟨by rw [hl]; exact hhs, hE.nested⟩
  | fall ht hv => exact ⟨by simpa only [hty, Ty.next] using hhs, hE.nested⟩
  | pushx d =>
    have hl : tyAt P (s.target d) = { depth := 1, hs := (tyAt P s.pos).hs } := (hP.target hi rfl).2
    refine ⟨?_, by rw [hl, hhs], hE.nested⟩
    rw [hty, hhs]
    rfl

theorem even_init {data : Nat → Word} : Even P (Mach.init data) := ⟨rfl, trivial⟩

/-- The frames of every position are where 16 bits can name them. -/
def LowTypes (H : Host) (P : List Item) : Prop :=
  -32768 ≤ H.base ∧ ∀ i, H.base + (tyAt P i).hs.length ≤ 32768

theorem length_next_le (i : Nat) (it : Item) (t : Ty) :
    (Ty.next i it t).hs.length ≤ t.hs.length + 1 := by
  cases it with
  | pushx d => exact le_rfl
  | leave d => exact Nat.le_succ_of_le (by simp [Ty.next])
  | finish => exact Nat.le_succ_of_le (by simp [Ty.next])
  | _ => exact Nat.le_succ _

theorem length_after_le (o : Nat) (t : Ty) (is : List Item) :
    (flow.after o t is).hs.length ≤ t.hs.length + is.length := by
  induction is generalizing o t with
  | nil => exact le_rfl
  | cons it is ih =>
    have h1 := ih (o + 1) (Ty.next o it t)
    have h2 := length_next_le o it t
    rw [length_cons]
    exact h1.trans (by omega)

theorem lowTypes_of_length (hb : -32768 ≤ H.base) (hl : H.base + P.length ≤ 32768) :
    LowTypes H P := by
  refine ⟨hb, fun i => ?_⟩
  have h : (tyAt P i).hs.length ≤ 0 + (P.take i).length := length_after_le 0 ⟨0, []⟩ (P.take i)
  have := length_take_le' i P
  omega

theorem Even.low (hE : Even P s) (hl : LowTypes H P) : Low H s :=
  ⟨hl.1, by rw [hE.hs]; exact hl.2 s.pos⟩

variable {opt : Bool} {code : Nat → Byte} {data : Nat → Word} {i j k : Nat} {v : Vm}

/-- No `try` body completes: `microjs_exec` comes to none of the jumps over a handler. -/
def NoneCompletes (H : Host) (opt : Bool) (P : List Item) (code : Nat → Byte) (data : Nat → Word) :
    Prop :=
  ∀ (k : Nat) (v : Vm) (i : Nat) (d : Int), Vm.exec H code k (Vm.init data) = .next v →
    P[i]? = some (.leave d) → v.pc ≠ addrOf opt P i

theorem Linked.even (hL : Linked H opt P code) (hl : LowTypes H P)
    (hno : NoneCompletes H opt P code data) {n : Nat} {s : Mach}
    (h : (Mach.machine H P).run n (Mach.init data) = some s) :
    Even P s ∧ Meant H opt P s ∧ ∀ h ∈ s.hs, addrOf opt P h < 4096 := by
  refine hL.run_rule (I := Even P) even_init (fun _ _ _ hE _ _ => hE.low hl) ?_ h
  intro k s s' v it hE hk hsim hi hm
  have hit : ∀ d, it ≠ .leave d := by
    rintro d rfl
    exact hno k v s.pos d hk hi hsim.pc
  exact hE.move hL.sound hi hit hm

/-! ## Positions -/

theorem size_pos (opt : Bool) (it : Item) : 0 < (format opt).size it := by
  cases it with
  | lit c k => exact litBytes_pos opt c k
  | fuse f c k =>
    cases opt with
    | true => exact Nat.one_pos
    | false =>
      show 0 < (litBytes false c k ++ [f.intOp.opc]).length
      simp
  | _ => exact Nat.succ_pos _

theorem addrOf_lt (opt : Bool) (hij : i < j) (hj : j ≤ P.length) :
    addrOf opt P i < addrOf opt P j := by
  induction j with
  | zero => omega
  | succ j ih =>
    have hi : P[j]? = some P[j] := getElem?_eq_getElem (by omega)
    have hs : addrOf opt P (j + 1) = _ := addrOf_succ hi
    have hpos := size_pos opt P[j]
    rcases Nat.lt_or_eq_of_le (Nat.le_of_lt_succ hij) with h | rfl
    · have := ih h (by omega)
      push_cast
      omega
    · push_cast
      omega

theorem addrOf_inj (hi : i ≤ P.length) (hj : j ≤ P.length) (h : addrOf opt P i = addrOf opt P j) :
    i = j := by
  rcases Nat.lt_trichotomy i j with hlt | heq | hgt
  · have := addrOf_lt opt hlt hj
    omega
  · exact heq
  · have := addrOf_lt opt hgt hi
    omega

/-- At the address of an item, `microjs_exec` is in the state for that item. -/
theorem Loaded.sim_of_pc (hL : Loaded H opt P code) (hM : MeantRun H opt P data)
    (hk : Vm.exec H code k (Vm.init data) = .next v) (hi : i ≤ P.length)
    (hpc : v.pc = addrOf opt P i) :
    ∃ n s, (Mach.machine H P).run n (Mach.init data) = some s ∧ s.pos = i ∧ Sim H opt P s v := by
  obtain ⟨n, s, it, u, hn, hit, hsim, hw⟩ := hL.cover hM hk
  have hlt : s.pos < P.length := (List.getElem?_eq_some_iff.mp hit).1
  rcases hw with rfl | ⟨h1, h2, -, -⟩
  · exact ⟨n, s, hn, addrOf_inj (Nat.le_of_lt hlt) hi (hsim.pc.symm.trans hpc), hsim⟩
  · -- between two items there is no third one
    have hs : addrOf opt P (s.pos + 1) = _ := addrOf_succ hit
    rw [hsim.pc] at h1 h2
    rcases Nat.lt_or_ge s.pos i with hlt' | hge
    · rcases Nat.lt_or_eq_of_le (Nat.succ_le_of_lt hlt') with h | rfl
      · have := addrOf_lt opt h hi
        push_cast at this
        omega
      · push_cast at hpc
        omega
    · rcases Nat.lt_or_eq_of_le hge with h | rfl
      · have := addrOf_lt opt h (Nat.le_of_lt hlt)
        omega
      · omega

/-- A `try` statement ends with the frames with which it started. -/
theorem tyAt_tryCatchItems (hP : Sound P) {x b c y : List Item}
    (hsplit : P = x ++ tryCatchItems b c ++ y) :
    tyAt P (x ++ tryCatchItems b c).length = tyAt P x.length := by
  have hpush : P[x.length]? = some (.pushx (b.length + 1)) := by
    rw [hsplit]
    simp [tryCatchItems]
  have hleave : P[x.length + 1 + b.length]? = some (.leave c.length) := by
    have hlen : (x ++ .pushx (b.length + 1) :: b).length = x.length + 1 + b.length := by
      simp
      omega
    rw [hsplit, show x ++ tryCatchItems b c ++ y =
      (x ++ .pushx (b.length + 1) :: b) ++ .leave c.length :: (c ++ y) by simp [tryCatchItems],
      ← hlen, getElem?_append_right le_rfl, Nat.sub_self]
    rfl
  -- the handler is both what the frame names and what comes after the jump over it
  have hdep : (tyAt P x.length).depth = 0 := (hP.ok hpush).2
  have hnext : tyAt P (x.length + 1 + b.length + 1) =
      ⟨(tyAt P (x.length + 1 + b.length)).depth + 1, (tyAt P (x.length + 1 + b.length)).hs.tail⟩ :=
    tyAt_succ hleave
  have hhandler : tyAt P (x.length + 1 + b.length + 1) = ⟨1, (tyAt P x.length).hs⟩ := by
    rw [show x.length + 1 + b.length + 1 = ((x.length : Int) + 1 + (b.length + 1)).toNat by omega]
    exact (hP.target hpush rfl).2
  have hend : tyAt P (x ++ tryCatchItems b c).length =
      ⟨(tyAt P (x.length + 1 + b.length)).depth, (tyAt P (x.length + 1 + b.length)).hs.tail⟩ := by
    have h := (hP.target hleave rfl).2
    rw [show (((x.length + 1 + b.length : Nat) : Int) + 1 + (c.length : Int)).toNat =
      (x ++ tryCatchItems b c).length by simp [tryCatchItems]; omega] at h
    exact h
  rw [hhandler] at hnext
  obtain ⟨h1, h2⟩ := Ty.mk.inj hnext
  rw [hend, ← h2, show (tyAt P (x.length + 1 + b.length)).depth = (tyAt P x.length).depth by omega]

/-- In an even run the stack and the exception frame pointer are a matter of the position. -/
theorem Linked.at_pc (hL : Linked H opt P code) (hl : LowTypes H P)
    (hno : NoneCompletes H opt P code data) (hk : Vm.exec H code k (Vm.init data) = .next v)
    (hi : i ≤ P.length) (hpc : v.pc = addrOf opt P i) :
    v.stack.length = (tyAt P i).depth + (tyAt P i).hs.length ∧ v.xp = (tyAt P i).hs.length ∧
      ∀ (a : Nat) (hs : List Nat) (r : Word), (tyAt P i).hs = a :: hs →
        ∃ u, Vm.raise H v r = .next u ∧ u.pc = addrOf opt P a := by
  obtain ⟨n, s, hn, rfl, hs⟩ := hL.sim_of_pc (fun _ _ hn => (hL.even hl hno hn).2.1) hk hi hpc
  obtain ⟨hE, -, hhs⟩ := hL.even hl hno hn
  refine ⟨by rw [hs.length, (hL.good hn).depth, hE.hs], by rw [hs.xp, hE.hs], ?_⟩
  intro a hs' r ha
  have hh := hE.hs.trans ha
  exact ⟨_, hs.raise (hE.low hl) hh (hhs a (hh ▸ mem_cons_self)) v s.temps hs.stack rfl r, rfl⟩

variable {E : Env} {m : Sdt} {top n : Nat} {code0 : Nat → Byte} {txt : List Char} {p : Program}
  {is : List Item} {S' : Static}

section
variable (h : compile E top code0 n txt = some (.ok m)) (hp : p.Parsed)
  (hlex : Lexes txt (p.tokens ++ [tk .eof])) (hi : p.items E.lib E.cstrAdd Static.init = some (is, S'))
  (hR : Regular E H p is S')
include h hp hlex hi hR

/-- In a run in which no body of a `try` statement completes, every `try` statement of the program
ends with the stack pointer and the exception frame pointer with which it began, and at every
instruction inside a body what is thrown comes to the innermost handler around it. -/
theorem tryCatch_balanced (hl : LowTypes H (wholeItems is))
    (hno : NoneCompletes H E.opt (wholeItems is) m.code data) :
    (∀ (x b c y : List Item) (k k' : Nat) (v v' : Vm), wholeItems is = x ++ tryCatchItems b c ++ y →
      Vm.exec H m.code k (Vm.init data) = .next v → Vm.exec H m.code k' (Vm.init data) = .next v' →
      v.pc = addrOf E.opt (wholeItems is) x.length →
      v'.pc = addrOf E.opt (wholeItems is) (x ++ tryCatchItems b c).length →
      v'.stack.length = v.stack.length ∧ v'.xp = v.xp) ∧
    ∀ (k i a : Nat) (hs : List Nat) (v : Vm) (r : Word),
      Vm.exec H m.code k (Vm.init data) = .next v → i ≤ (wholeItems is).length →
      v.pc = addrOf E.opt (wholeItems is) i → (tyAt (wholeItems is) i).hs = a :: hs →
      ∃ u, Vm.raise H v r = .next u ∧ u.pc = addrOf E.opt (wholeItems is) a := by
  have hL := hR.linked h hp hlex hi
  constructor
  · intro x b c y k k' v v' hsplit hk hk' hpc hpc'
    have hlen := congrArg List.length hsplit
    simp only [length_append] at hlen
    obtain ⟨hst, hxp, -⟩ := hL.at_pc hl hno hk (by omega) hpc
    obtain ⟨hst', hxp', -⟩ := hL.at_pc hl hno hk' (by rw [length_append]; omega) hpc'
    rw [tyAt_tryCatchItems hL.sound hsplit] at hst' hxp'
    exact ⟨hst'.trans hst.symm, hxp'.trans hxp.symm⟩
  · intro k i a hs v r hk hile hpc ha
    exact (hL.at_pc hl hno hk hile hpc).2.2 a hs r ha

end

end

/-- A host without external functions. -/
def bareHost : Host := { base := 0, ext := fun _ => .ret [] }

/-- `var x; try { throw 5; } catch (e) { x = e; } x = 1;` -/
def throwing : Program :=
  .semi (.vars ("x".toList, none) []) <|
  .stat (.tryCatch (.semi (.throw_ (.int 5)) .nil) "e".toList
    (.semi (.simple (.assign "x".toList (.var "e".toList))) .nil)) <|
  .semi (.simple (.assign "x".toList (.int 1))) .eof

def throwingText : String := "var x;try\x7bthrow 5;\x7dcatch(e)\x7bx=e;\x7dx=1;"

theorem lexes_throwing : Lexes throwingText.toList (throwing.tokens ++ [tk .eof]) :=
  lexes_of_lexesAll (by decide +kernel)

def throwingItems : List Item :=
  [.pushx 3, .lit (.int 5) 0, .xpt, .leave 3, .st 4, .ld 4, .st 0, .lit (.int 1) 0, .st 0]

theorem exists_items_throwing : ∃ S', throwing.items (bareEnv true).lib (bareEnv true).cstrAdd
    Static.init = some (throwingItems, S') ∧ S'.safe = true :=
  exists_of_itemsAre (by decide +kernel)

theorem tryCatch_balanced_throwing : ∃ m, (bareEnv true).Compiles throwingText m ∧
    (∀ (x b c y : List Item) (k k' : Nat) (v v' : Vm),
      wholeItems throwingItems = x ++ tryCatchItems b c ++ y →
      Vm.exec bareHost m.code k (Vm.init fun _ => 0) = .next v →
      Vm.exec bareHost m.code k' (Vm.init fun _ => 0) = .next v' →
      v.pc = addrOf true (wholeItems throwingItems) x.length →
      v'.pc = addrOf true (wholeItems throwingItems) (x ++ tryCatchItems b c).length →
      v'.stack.length = v.stack.length ∧ v'.xp = v.xp) ∧
    ∀ (k i a : Nat) (hs : List Nat) (v : Vm) (r : Word),
      Vm.exec bareHost m.code k (Vm.init fun _ => 0) = .next v →
      i ≤ (wholeItems throwingItems).length → v.pc = addrOf true (wholeItems throwingItems) i →
      (tyAt (wholeItems throwingItems) i).hs = a :: hs →
      ∃ u, Vm.raise bareHost v r = .next u ∧ u.pc = addrOf true (wholeItems throwingItems) a := by
  obtain ⟨m, hm, hrun⟩ : ∃ m, (bareEnv true).Compiles throwingText m ∧
      Vm.always bareHost m.code (fun v => v.pc != 6) 20 (Vm.init fun _ => 0) = true :=
    exists_of_okWith (by decide +kernel)
  obtain ⟨S', hi, hsafe⟩ := exists_items_throwing
  have hp : throwing.Parsed := by
    simp [throwing, Program.Parsed, Stat.Parsed, Block.Parsed, Semi.Parsed, Simple.Parsed, Exp.Parsed]
  have hR : Regular (bareEnv true) bareHost throwing throwingItems S' :=
    regular_bare hsafe (by simp [throwing, Program.Narrow, Stat.Narrow, Block.Narrow, Semi.Narrow,
      Simple.Narrow, Exp.Narrow]) (by decide)
  -- the only jump over a handler is the fifth item
  have hno : NoneCompletes bareHost true (wholeItems throwingItems) m.code fun _ => 0 := by
    intro k v i d hk hit hpc
    obtain ⟨hlt, hget⟩ := List.getElem?_eq_some_iff.mp hit
    have hi : i = 4 := by
      have hlt : i < 12 := hlt
      interval_cases i <;> first | rfl | cases hget
    subst hi
    have hv := Vm.of_always hrun hk
    rw [hpc] at hv
    exact absurd hv (by decide)
  exact ⟨m, hm, tryCatch_balanced hm hp lexes_throwing hi hR
    (lowTypes_of_length (by decide) (by decide)) hno⟩

/-- Where a running machine stands: the address, the number of values on the stack, and `xp`. -/
def Outcome.place : Outcome Vm → Option (Nat × Nat × Int)
  | .next v => some (v.pc, v.stack.length, v.xp)
  | _ => none

/-- `var x; try { x = 1; } catch (e) { x = 2; } throw 5;` -/
def completing : Program :=
  .semi (.vars ("x".toList, none) []) <|
  .stat (.tryCatch (.semi (.simple (.assign "x".toList (.int 1))) .nil) "e".toList
    (.semi (.simple (.assign "x".toList (.int 2))) .nil)) <|
  .semi (.throw_ (.int 5)) .eof

def completingItems : List Item :=
  [.pushx 3, .lit (.int 1) 0, .st 0, .leave 3, .st 4, .lit (.int 2) 0, .st 0, .lit (.int 5) 0, .xpt]

/-- The body completes, between the addresses 2 and 14, and what is thrown after the statement comes
to the handler of the statement, at 9. -/
theorem completed_try_unbalanced :
    Lexes "var x;try\x7bx=1;\x7dcatch(e)\x7bx=2;\x7dthrow 5;".toList (completing.tokens ++ [tk .eof]) ∧
    itemsAre completingItems (completing.items (bareEnv true).lib (bareEnv true).cstrAdd Static.init) ∧
    wholeItems completingItems =
      [.pushx 10] ++ tryCatchItems [.lit (.int 1) 0, .st 0] [.st 4, .lit (.int 2) 0, .st 0] ++
        [.lit (.int 5) 0, .xpt, .finish, .ret] ∧
    addrOf true (wholeItems completingItems) 1 = 2 ∧
    addrOf true (wholeItems completingItems) 8 = 14 ∧
    ∃ m, (bareEnv true).Compiles "var x;try\x7bx=1;\x7dcatch(e)\x7bx=2;\x7dthrow 5;" m ∧
      (Vm.exec bareHost m.code 1 (Vm.init fun _ => 0)).place = some (2, 1, 1) ∧
      (Vm.exec bareHost m.code 5 (Vm.init fun _ => 0)).place = some (14, 2, 2) ∧
      (Vm.exec bareHost m.code 7 (Vm.init fun _ => 0)).place = some (9, 2, 1) :=
  ⟨lexes_of_lexesAll (by decide +kernel), by decide +kernel, rfl, by decide, by decide,
    exists_of_okWith (by decide +kernel)⟩

end MicroJS
