import ThinkOS.MicroJS.Machine
import ThinkOS.MicroJS.Range

/-!
# MicroJS: the code runs as its items

`microjs_exec` on the bytes of well-typed items does what the machine on the items does, as long as
every address fits its field and the frames that an exception frame can name are in its 16 bits.
-/

namespace MicroJS

open List Option

variable {data : Nat → Word} {ts : List Word} {calls : List ExtCall} {v' : Vm} {β : Type}
  {code : Nat → β} {bs bs' : List β} {r : Word} {a : Nat} {n : Nat}

open Segment Lib

/-! ## The machine of `microjs_exec` -/

/-- `microjs_exec` as a machine. -/
def Vm.machine (H : Host) (code : Nat → Byte) : Machine Vm Final where
  step s := match Vm.step H code s with
    | .next t => some (.inl t)
    | .done r t => some (.inr (r, t.data, t.calls))
    | .fault => none

section
variable {H : Host} {code : Nat → Byte} {v : Vm}

theorem Vm.machine_next (h : Vm.step H code v = .next v') :
    (Vm.machine H code).step v = some (.inl v') := by
  simp only [machine, h]

theorem Vm.machine_done (h : Vm.step H code v = .done r v') :
    (Vm.machine H code).step v = some (.inr (r, v'.data, v'.calls)) := by
  simp only [machine, h]

theorem Vm.machine_fault (h : Vm.step H code v = .fault) : (Vm.machine H code).step v = none := by
  simp only [machine, h]

theorem Vm.run_eq_some_iff :
    (Vm.machine H code).run n v = some v' ↔ Vm.exec H code n v = .next v' := by
  induction n generalizing v with
  | zero => simp [Machine.run, exec]
  | succ n ih =>
    cases h : Vm.step H code v with
    | next u =>
      rw [Machine.run_succ_of_step (machine_next h), ih]
      simp only [exec, h]
    | done r u => simp [Machine.run, machine_done h, exec, h]
    | fault => simp [Machine.run, machine_fault h, exec, h]

/-- The ends of the machine are the returns of `microjs_exec`. -/
theorem Vm.ends_iff : (Vm.machine H code).Ends v (r, data, calls) ↔
      ∃ n t, Vm.exec H code n v = .done r t ∧ t.data = data ∧ t.calls = calls := by
  constructor
  · rintro ⟨n, t, hn, ht⟩
    induction n generalizing v with
    | zero =>
      cases hn
      simp only [machine] at ht
      split at ht <;> cases ht
      rename_i u hu
      exact ⟨1, u, by simp only [exec, hu], rfl, rfl⟩
    | succ n ih =>
      unfold Machine.run at hn
      split at hn
      · rename_i u hu
        obtain ⟨k, t', hk, hd⟩ := ih hn
        simp only [machine] at hu
        split at hu <;> cases hu
        rename_i hu
        exact ⟨k + 1, t', by simp only [exec, hu, hk], hd⟩
      · cases hn
  · rintro ⟨n, t, hn, rfl, rfl⟩
    induction n generalizing v with
    | zero => cases hn
    | succ n ih =>
      unfold exec at hn
      split at hn
      · rename_i u hu
        obtain ⟨k, t', hk, hd⟩ := ih hn
        exact ⟨k + 1, t', by rw [Machine.run_succ_of_step (machine_next hu), hk], hd⟩
      · exact ⟨0, v, rfl, machine_done hn⟩

end

/-! ## Instructions of an item -/

theorem stores_left (h : Stores code a (bs ++ bs')) : Stores code a bs := by
  intro k b hk
  refine h k b ?_
  rw [List.getElem?_append_left (List.getElem?_eq_some_iff.mp hk).1, hk]

theorem stores_right (h : Stores code a (bs ++ bs')) : Stores code (a + bs.length) bs' := by
  intro k b hk
  rw [Nat.add_assoc]
  exact h _ b (by rw [getElem?_append_right (by omega), Nat.add_sub_cancel_left, hk])

/-- A state at the start of the instructions of an item, or between them: these have `size` bytes and
put at most `extra` values on the stack before the last one. -/
def Within (size extra : Nat) (v v' : Vm) : Prop :=
  v' = v ∨ v.pc < v'.pc ∧ v'.pc < v.pc + size ∧ v'.stack.length ≤ v.stack.length + extra ∧
    v'.calls = v.calls

theorem Pushes.pos {bs : List Byte} {w : Word} (h : Pushes bs w) : 0 < bs.length := by
  cases h <;> simp

theorem litBytes_pos (opt : Bool) (c : Const) (k : Nat) : 0 < (litBytes opt c k).length := by
  cases opt with
  | true => exact pushes_litBytes.pos
  | false =>
    have h := (pushes_bytes c).pos
    simp only [litBytes, Bool.false_eq_true, if_false, length_append]
    omega

section
variable {H : Host} {code : Nat → Byte} {v : Vm} {Q : Vm → Prop}

theorem via_lit {opt : Bool} {c : Const} {k : Nat} (hs : Stores code v.pc (litBytes opt c k))
    (hn : (litBytes opt c k).length ≤ n) (hQ : ∀ v' : Vm, Within n 1 v v' → Q v') :
    (Vm.machine H code).Via Q v
      { v with pc := v.pc + (litBytes opt c k).length, stack := negs k c.value :: v.stack } := by
  cases opt with
  | true =>
    exact .one (hQ v (.inl rfl)) (Vm.machine_next (Vm.step_const pushes_litBytes hs))
  | false =>
    induction k with
    | zero =>
      have hs : Stores code v.pc c.bytes := by simpa [litBytes] using hs
      have hstep := Vm.machine_next (Vm.step_const (H := H) (pushes_bytes c) hs)
      simpa [litBytes, negs] using Machine.Via.one (hQ v (.inl rfl)) hstep
    | succ k ih =>
      have hb : litBytes false c (k + 1) = litBytes false c k ++ [OPC_NEG] := by
        simp [litBytes, replicate_succ']
      have hpos := litBytes_pos false c k
      rw [hb] at hs ⊢
      rw [hb, length_append, length_singleton] at hn
      refine (ih (stores_left hs) (by omega)).trans (.one (hQ _ (.inr ?_)) (Vm.machine_next ?_))
      · exact ⟨by simpa using hpos, by simp only; omega, by simp, rfl⟩
      rw [Vm.step_un (o := .minus) (stores_right hs 0 _ rfl) rfl, length_append]
      simp only [UnOp.eval, negs_succ]
      rfl

end

/-! ## Related states -/

section
variable (H : Host) (opt : Bool) (P : List Item)

/-- The frame words of a list of handlers. -/
def frameWords : List Nat → List Word
  | [] => []
  | h :: hs => Vm.frameWord H hs.length (addrOf opt P h % 4096) :: frameWords hs

@[simp] theorem length_frameWords (hs : List Nat) : (frameWords H opt P hs).length = hs.length := by
  induction hs with
  | nil => rfl
  | cons h hs ih => simp [frameWords, ih]

/-- The state of `microjs_exec` for a state of the machine on items. -/
structure Sim (s : Mach) (v : Vm) : Prop where
  pc : v.pc = addrOf opt P s.pos
  stack : v.stack = s.temps ++ frameWords H opt P s.hs
  xp : v.xp = s.hs.length
  data : v.data = s.data
  calls : v.calls = s.calls

/-- The frames are in the range of the 16 bits in which a frame names the one below it. -/
def Low (s : Mach) : Prop := -32768 ≤ H.base ∧ H.base + s.hs.length ≤ 32768

/-- Whether a step uses what is in the item's field: a frame's handler is used when it catches. -/
def Mach.Uses (s : Mach) : Item → Prop
  | .pushx _ => False
  | .jeq _ => s.temps.head? = some 0
  | _ => True

/-- The next step uses no field that could not hold what the translator meant. -/
structure Meant (s : Mach) : Prop where
  low : Low H s
  fits : ∀ it, P[s.pos]? = some it → s.Uses it → it.Fits opt P s.pos
  caught : ∀ it s' h, P[s.pos]? = some it → Mach.Move H s it s' → s.hs = h :: s'.hs →
    addrOf opt P h < 4096

/-- Whether an item's instructions put a value on the stack that the item does not leave there. -/
def Item.extra : Item → Nat
  | .lit _ _ | .fuse _ _ _ => 1
  | _ => 0

variable {H opt P}

theorem addrOf_succ {i : Nat} {it : Item} (hi : P[i]? = some it) :
    addrOf opt P (i + 1) = addrOf opt P i + (format opt).size it := by
  obtain ⟨hlt, rfl⟩ := List.getElem?_eq_some_iff.mp hi
  unfold addrOf
  rw [show ((i : Int) + 1).toNat = i + 1 by omega, Int.toNat_natCast,
    take_succ_eq_append_getElem hlt, Format.length_append, Format.length_cons,
    Format.length_nil, Nat.add_zero]

variable {code : Nat → Byte} {s s' : Mach} {v : Vm} {it : Item} {Q : Vm → Prop}

section
variable (hs : Sim H opt P s v)
include hs

/-- A throw finds the innermost frame. -/
theorem Sim.raise (hlow : Low H s) {h : Nat} {hs' : List Nat} (hh : s.hs = h :: hs')
    (haddr : addrOf opt P h < 4096) (u : Vm) (ts : List Word)
    (hu : u.stack = ts ++ frameWords H opt P s.hs) (hx : u.xp = v.xp) (r : Word) :
    Vm.raise H u r = .next { u with pc := addrOf opt P h, xp := hs'.length,
                                    stack := r :: frameWords H opt P hs' } := by
  obtain ⟨hl, hr⟩ := hlow
  rw [hh, frameWords, Nat.mod_eq_of_lt haddr] at hu
  rw [hh] at hr
  refine Vm.raise_frame hu ?_ (by omega) (by omega) ?_
  · rw [hx, hs.xp, hh]
    simp
  · simp at hr
    omega

theorem Sim.stores (hcode : (format opt).Holds code 0 P) (hi : P[s.pos]? = some it) :
    Stores code v.pc (it.bytes opt v.pc (addrOf opt P (s.pos + 1 + it.jump.getD 0))) := by
  rw [hs.pc]
  exact stores_of_holds hcode hi

theorem Sim.advance (hi : P[s.pos]? = some it) (hpc : v'.pc = v.pc + (format opt).size it)
    (hst : v'.stack = ts ++ frameWords H opt P s.hs) (hxp : v'.xp = v.xp) (hd : v'.data = data)
    (hc : v'.calls = calls) :
    Sim H opt P { s with pos := s.pos + 1, temps := ts, data := data, calls := calls } v' := by
  refine ⟨?_, hst, hxp.trans hs.xp, hd, hc⟩
  rw [hpc, hs.pc]
  exact (addrOf_succ hi).symm

theorem Sim.compute (hcode : (format opt).Holds code 0 P) (hi : P[s.pos]? = some it)
    (hfit : s.Uses it → it.Fits opt P s.pos) (hok : (tyAt P s.pos).Ok it)
    (hQ : ∀ v' : Vm, Within ((format opt).size it) it.extra v v' → Q v')
    (h : it.compute H s.data s.temps = some (ts, data)) : ∃ v', (Vm.machine H code).Via Q v v' ∧
      Sim H opt P { s with pos := s.pos + 1, temps := ts, data := data } v' := by
  have hst := hs.stores hcode hi
  have hq : Q v := hQ v (.inl rfl)
  have hstack := hs.stack
  have one {w : Vm} (h : Vm.step H code v = .next w) : (Vm.machine H code).Via Q v w :=
    .one hq (Vm.machine_next h)
  unfold Item.compute at h
  split at h
  case h_1 c k =>
    cases h
    exact ⟨_, via_lit hst le_rfl hQ, hs.advance hi rfl (by rw [hstack]; rfl) rfl hs.data hs.calls⟩
  case h_3 a =>
    cases h
    have ha : ((((a / 4 % 4096 : Nat) : Int)) % 4096).toNat = a / 4 := by
      have : a / 4 < 4096 := hfit trivial
      omega
    refine ⟨_, one (Vm.step_ld hst), hs.advance hi rfl ?_ rfl hs.data hs.calls⟩
    rw [hstack, hs.data, ha]
    rfl
  case h_2 f c k r ts' ht =>
    obtain ⟨w, hw, he⟩ := map_eq_some_iff.mp h
    cases he
    rw [ht] at hstack
    cases opt with
    | true =>
      rw [show negs k c.value = f.operand from hok.2] at hw
      exact ⟨_, one (Vm.step_fuse (hst 0 _ rfl) hstack hw),
        hs.advance hi rfl rfl rfl hs.data hs.calls⟩
    | false =>
      have hsize : (format false).size (.fuse f c k) = (litBytes false c k).length + 1 := by
        simp [format, Item.bytes]
      have hpos := litBytes_pos false c k
      refine ⟨_, (via_lit (stores_left hst) (by omega) hQ).trans (.one (hQ _ (.inr ?_))
        (Vm.machine_next (Vm.step_bin (stores_right hst 0 _ rfl) (congrArg (_ :: ·) hstack) hw))), ?_⟩
      · exact ⟨by simpa using hpos, by simp only; omega, by simp [Item.extra], rfl⟩
      · refine hs.advance hi ?_ rfl rfl hs.data hs.calls
        simp [format, Item.bytes, Nat.add_assoc]
  case h_4 a r ts' ht =>
    cases h
    have ha : ((((a / 4 % 4096 : Nat) : Int)) % 4096).toNat = a / 4 := by
      have : a / 4 < 4096 := hfit trivial
      omega
    rw [ht] at hstack
    refine ⟨_, one (Vm.step_st hst hstack), hs.advance hi rfl rfl rfl ?_ hs.calls⟩
    rw [hs.data, ha]
  case h_5 o r0 r1 ts' ht =>
    obtain ⟨w, hw, he⟩ := map_eq_some_iff.mp h
    cases he
    rw [ht] at hstack
    exact ⟨_, one (Vm.step_bin (hst 0 _ rfl) hstack hw), hs.advance hi rfl rfl rfl hs.data hs.calls⟩
  case h_6 o r ts' ht =>
    cases h
    rw [ht] at hstack
    exact ⟨_, one (Vm.step_un (hst 0 _ rfl) hstack), hs.advance hi rfl rfl rfl hs.data hs.calls⟩
  case h_7 r ts' ht =>
    cases h
    rw [ht] at hstack
    exact ⟨_, one (Vm.step_pop (hst 0 _ rfl) hstack), hs.advance hi rfl rfl rfl hs.data hs.calls⟩
  case h_8 => cases h

omit hs in
theorem addrOf_target {d : Int} : addrOf opt P (s.target d) = addrOf opt P (s.pos + 1 + d) := by
  unfold addrOf Mach.target
  rw [Int.toNat_natCast]

omit hs in
theorem goto_rel {u : Vm} {t : Nat} (h : -2048 ≤ (t : Int) - (a + 2) ∧ (t : Int) - (a + 2) < 2048) :
    Vm.goto u ((a : Int) + 2 + signExt12 (((t : Int) - (a + 2)) % 4096).toNat) =
      .next { u with pc := t } := by
  rw [signExt12_eq_iff.mpr h, show (a : Int) + 2 + (t - (a + 2)) = t by omega, Vm.goto_ofNat]

theorem Sim.land (d : Int) (hpc : v'.pc = addrOf opt P (s.pos + 1 + d))
    (hst : v'.stack = ts ++ frameWords H opt P s.hs) (hxp : v'.xp = v.xp) (hd : v'.data = v.data)
    (hc : v'.calls = v.calls) : Sim H opt P { s with pos := s.target d, temps := ts } v' :=
  ⟨hpc.trans addrOf_target.symm, hst, hxp.trans hs.xp, hd.trans hs.data, hc.trans hs.calls⟩

/-- **A step of the machine on items is one or more instructions.** -/
theorem Sim.move (hP : Sound P) (hG : Good P s) (hM : Meant H opt P s)
    (hcode : (format opt).Holds code 0 P) (hi : P[s.pos]? = some it)
    (hQ : ∀ v' : Vm, Within ((format opt).size it) it.extra v v' → Q v')
    (hm : Mach.Move H s it s') : ∃ v', (Vm.machine H code).Via Q v v' ∧ Sim H opt P s' v' := by
  have hok := hP.ok hi
  have hst := hs.stores hcode hi
  have hstack := hs.stack
  have hfit := hM.fits it hi
  have hcaught := hM.caught it s'
  have one {w : Vm} (h : Vm.step H code v = .next w) : (Vm.machine H code).Via Q v w :=
    .one (hQ v (.inl rfl)) (Vm.machine_next h)
  cases hm with
  | compute h => exact hs.compute hcode hi hfit hok hQ h
  | @reply xid n r vals hn h =>
    obtain ⟨-, hx, hn', -, -⟩ := hok
    have hstep := Vm.step_ext (H := H) hst hx hn' (by rw [hstack]; simp; omega)
    have htake : v.stack.take n = s.temps.take n := by
      rw [hstack, take_append_of_le_length hn]
    rw [htake, hs.calls, h] at hstep
    refine ⟨_, one hstep, hs.advance hi rfl ?_ rfl hs.data rfl⟩
    rw [hstack, drop_append_of_le_length hn, append_assoc]
  | @fail xid n h r w hs' hn hv hh =>
    obtain ⟨-, hx, hn', -, -⟩ := hok
    have hstep := Vm.step_ext (H := H) hst hx hn' (by rw [hstack]; simp; omega)
    have htake : v.stack.take n = s.temps.take n := by
      rw [hstack, take_append_of_le_length hn]
    rw [htake, hs.calls, hv] at hstep
    refine ⟨_, one (hstep.trans (hs.raise hM.low hh (hcaught h hi (.fail hn hv hh) hh) _ s.temps
      ?_ ?_ w)), rfl, rfl, rfl, hs.data, rfl⟩
    · exact hstack
    · rfl
  | @throw h w ts hs' ht hh =>
    rw [ht] at hstack
    have hstep := Vm.step_xpt (H := H) (hst 0 _ rfl) hstack
    refine ⟨_, one (hstep.trans (hs.raise hM.low hh (hcaught h hi (.throw ht hh) hh) _ ts ?_ ?_ w)),
      rfl, rfl, rfl, hs.data, hs.calls⟩
    · rfl
    · rfl
  | jmp d =>
    exact ⟨_, one ((Vm.step_jmp hst).trans (goto_rel (by rw [hs.pc]; exact hfit trivial))),
      hs.land d rfl hstack rfl rfl rfl⟩
  | leave d =>
    exact ⟨_, one ((Vm.step_jmp hst).trans (goto_rel (by rw [hs.pc]; exact hfit trivial))),
      hs.land d rfl hstack rfl rfl rfl⟩
  | @taken d ts ht =>
    have hfit := hfit (congrArg head? ht)
    rw [ht] at hstack
    exact ⟨_, one ((Vm.step_jeq hst hstack).trans ((if_pos rfl).trans
      (goto_rel (by rw [hs.pc]; exact hfit)))), hs.land d rfl rfl rfl rfl rfl⟩
  | @fall d w ts ht hv =>
    rw [ht] at hstack
    exact ⟨_, one ((Vm.step_jeq hst hstack).trans (if_neg hv)),
      hs.advance hi rfl rfl rfl hs.data hs.calls⟩
  | pushx d =>
    -- no values stand between the new frame and the one below
    have htemps : s.temps = [] := by
      have hd := hG.depth
      rw [show (tyAt P s.pos).depth = 0 from hok.2] at hd
      exact length_eq_zero_iff.mp hd
    have hx : (((addrOf opt P (s.pos + 1 + d) : Nat) : Int) % 4096).toNat =
        addrOf opt P (s.target d) % 4096 := by
      rw [addrOf_target]
      omega
    refine ⟨_, one (Vm.step_pushx hst), ?_, ?_, ?_, hs.data, hs.calls⟩
    · rw [show v.pc + 2 = addrOf opt P s.pos + (format opt).size (.pushx d) by rw [hs.pc]; rfl]
      exact (addrOf_succ hi).symm
    · rw [hstack, htemps, hs.xp]
      exact congrArg (fun x => Vm.frameWord H s.hs.length x :: frameWords H opt P s.hs) hx
    · rw [hstack, htemps]
      simp

/-- **The ends of the two machines agree.** -/
theorem Sim.halt (hP : Sound P) (hG : Good P s) (hcode : (format opt).Holds code 0 P)
    (hi : P[s.pos]? = some it)
    (hQ : ∀ v' : Vm, Within ((format opt).size it) it.extra v v' → Q v') {o : Option Final}
    (ho : s.act H it = o.map .inr) : (Vm.machine H code).HaltsVia Q o v := by
  obtain ⟨-, hok⟩ := hP.ok hi
  have hst := hs.stores hcode hi
  have hstack := hs.stack
  have hq : Q v := hQ v (.inl rfl)
  cases hG.halt hP hi ho with
  | finish =>
    -- the frame of the default handler is popped first
    obtain ⟨h, hs', hh⟩ : ∃ h hs', s.hs = h :: hs' := by
      refine exists_cons_of_length_pos ?_
      have := length_pos_of_ne_nil hok.2
      have := hG.nest
      omega
    have htemps : s.temps = [] := by
      have hd := hG.depth
      rw [hok.1] at hd
      exact length_eq_zero_iff.mp hd
    rw [htemps, hh] at hstack
    refine .cons hq (Vm.machine_next (Vm.step_pop (hst 0 _ rfl) hstack)) (.here (hQ _ (.inr ?_)) ?_)
    · refine ⟨Nat.lt_succ_self _, Nat.lt_succ_self _, ?_, rfl⟩
      rw [hstack]
      simp [Nat.add_assoc]
    · rw [Vm.machine_done (Vm.step_abt (hst 1 _ rfl)), hs.data, hs.calls]
      rfl
  | ret ht =>
    rw [ht] at hstack
    refine .here hq ?_
    rw [Vm.machine_done (Vm.step_ret (hst 0 _ rfl) hstack), hs.data, hs.calls]
    rfl
  | zero ht hv =>
    rw [ht] at hstack
    exact .here hq (Vm.machine_fault (Vm.step_bin_fault (hst 0 _ rfl) hstack hv))

end

end

/-! ## Runs -/

section
variable {H : Host} {opt : Bool} {P : List Item} {code : Nat → Byte} {Q : Vm → Prop}

/-- What a program's code must meet to run as its items: it stands in the memory, its items are well
typed, the external functions return what the code expects. -/
structure Loaded (H : Host) (opt : Bool) (P : List Item) (code : Nat → Byte) : Prop where
  sound : Sound P
  honest : Honest H P
  holds : (format opt).Holds code 0 P

/-- In addition every address fits its field. -/
structure Linked (H : Host) (opt : Bool) (P : List Item) (code : Nat → Byte) : Prop extends
    Loaded H opt P code where
  fits : ∀ (i : Nat) (it : Item), P[i]? = some it → it.Fits opt P i

/-- In the run of the items no field is used that could not hold what was meant. -/
def MeantRun (H : Host) (opt : Bool) (P : List Item) (data : Nat → Word) : Prop :=
  ∀ n s, (Mach.machine H P).run n (Mach.init data) = some s → Meant H opt P s

/-- The states that are related in such a run; `Q` holds inside the items. -/
structure Tracks (H : Host) (opt : Bool) (P : List Item) (Q : Vm → Prop) (s : Mach) (v : Vm) :
    Prop where
  good : Good P s
  sim : Sim H opt P s v
  run : ∀ n s', (Mach.machine H P).run n s = some s' → Meant H opt P s' ∧
    ∀ it v v', P[s'.pos]? = some it → Sim H opt P s' v →
      Within ((format opt).size it) it.extra v v' → Q v'

section
variable (hL : Loaded H opt P code) {s : Mach}
include hL

/-- **`microjs_exec` keeps in step with the machine on items.** -/
theorem Loaded.lockstep : (Mach.machine H P).Lockstep (Vm.machine H code) (Tracks H opt P Q) Q where
  next s v s' hT h := by
    obtain ⟨it, hi, hm⟩ := Mach.move_of_step h
    obtain ⟨hM, hroom⟩ := hT.run 0 s rfl
    obtain ⟨v', hvia, hsim⟩ := hT.sim.move hL.sound hT.good hM hL.holds hi
      (fun v' => hroom it v v' hi hT.sim) hm
    refine ⟨v', hvia, hT.good.move hL.sound hL.honest hi hm, hsim, fun n u hn => ?_⟩
    exact hT.run (n + 1) u (by rw [Machine.run_succ_of_step h, hn])
  halt s v o hT h := by
    obtain ⟨it, hi⟩ : ∃ it, P[s.pos]? = some it := ⟨_, getElem?_eq_getElem hT.good.pos⟩
    obtain ⟨-, hroom⟩ := hT.run 0 s rfl
    have ha : s.act H it = o.map .inr := by
      have h : (P[s.pos]?).bind (s.act H) = o.map .inr := h
      rwa [hi] at h
    exact hT.sim.halt hL.sound hT.good hL.holds hi (fun v' => hroom it v v' hi hT.sim) ha

omit hL in
theorem Sim.length {v : Vm} (hs : Sim H opt P s v) :
    v.stack.length = s.temps.length + s.hs.length := by
  rw [hs.stack]
  simp

omit hL in
theorem sim_init : Sim H opt P (Mach.init data) (Vm.init data) := ⟨rfl, rfl, rfl, rfl, rfl⟩

theorem Loaded.good (hs : (Mach.machine H P).run n (Mach.init data) = some s) : Good P s :=
  Machine.run_invariant (fun _ _ hG h => hG.step hL.sound hL.honest h) hs (good_init hL.sound)

section
variable (hM : MeantRun H opt P data)
include hM

theorem Loaded.tracks {v : Vm} (hs : (Mach.machine H P).run n (Mach.init data) = some s)
    (hsim : Sim H opt P s v) : Tracks H opt P (fun _ => True) s v := by
  refine ⟨hL.good hs, hsim, fun m s' hm => ⟨hM (n + m) s' ?_, fun _ _ _ _ _ _ => trivial⟩⟩
  rw [Machine.run_add hs, hm]

theorem Loaded.ends_iff {r : Final} :
    (Mach.machine H P).Ends (Mach.init data) r ↔ (Vm.machine H code).Ends (Vm.init data) r :=
  hL.lockstep.ends_iff (hL.tracks hM (n := 0) rfl sim_init)

theorem Loaded.reaches (hs : (Mach.machine H P).run n (Mach.init data) = some s) :
    ∃ k v, Vm.exec H code k (Vm.init data) = .next v ∧ Sim H opt P s v := by
  obtain ⟨k, v, hk, hT⟩ := hL.lockstep.reaches (hL.tracks hM (n := 0) rfl sim_init) hs
  exact ⟨k, v, Vm.run_eq_some_iff.mp hk, hT.sim⟩

/-- **Every state of `microjs_exec` belongs to one of the machine on items.** -/
theorem Loaded.cover {k : Nat} (hk : Vm.exec H code k (Vm.init data) = .next v') :
    ∃ n s it v, (Mach.machine H P).run n (Mach.init data) = some s ∧ P[s.pos]? = some it ∧
      Sim H opt P s v ∧ Within ((format opt).size it) it.extra v v' := by
  refine (hL.lockstep.cover (Q := fun v' => ∃ n s it v, (Mach.machine H P).run n (Mach.init data) =
    some s ∧ P[s.pos]? = some it ∧ Sim H opt P s v ∧ Within ((format opt).size it) it.extra v v')
    ⟨good_init hL.sound, sim_init, fun n s hn => ⟨hM n s hn, ?_⟩⟩ (Vm.run_eq_some_iff.mpr hk)).1
  exact fun it v v' hi hsim hw => ⟨n, s, it, v, hn, hi, hsim, hw⟩

end

end

/-- The handlers of the frames have addresses of 12 bits. -/
theorem handlers_move {s s' : Mach} {it : Item} (hf : it.Fits opt P s.pos)
    (hm : Mach.Move H s it s') (h : ∀ x ∈ s.hs, addrOf opt P x < 4096) :
    ∀ x ∈ s'.hs, addrOf opt P x < 4096 := by
  cases hm with
  | fail hn hv hh => exact fun x hx => h x (hh ▸ mem_cons_of_mem _ hx)
  | throw ht hh => exact fun x hx => h x (hh ▸ mem_cons_of_mem _ hx)
  | pushx d => exact forall_mem_cons.mpr ⟨addrOf_target ▸ hf, h⟩
  | _ => exact h

section
variable (hL : Linked H opt P code) {s : Mach}
include hL

/-- The rule for invariants of the machine on items that need the state of `microjs_exec` with which
it keeps in step. -/
theorem Linked.run_rule {I : Mach → Prop} (hinit : I (Mach.init data))
    (hlow : ∀ (k : Nat) (s : Mach) (v : Vm), I s → Vm.exec H code k (Vm.init data) = .next v →
      Sim H opt P s v → Low H s)
    (hmove : ∀ (k : Nat) (s s' : Mach) (v : Vm) (it : Item), I s →
      Vm.exec H code k (Vm.init data) = .next v → Sim H opt P s v → P[s.pos]? = some it →
      Mach.Move H s it s' → I s') (hs : (Mach.machine H P).run n (Mach.init data) = some s) :
    I s ∧ Meant H opt P s ∧ ∀ h ∈ s.hs, addrOf opt P h < 4096 := by
  have meant {k : Nat} {s : Mach} {v : Vm} (hI : I s)
      (hk : Vm.exec H code k (Vm.init data) = .next v) (hsim : Sim H opt P s v)
      (hhs : ∀ h ∈ s.hs, addrOf opt P h < 4096) : Meant H opt P s :=
    ⟨hlow k s v hI hk hsim, fun it hi _ => hL.fits _ it hi,
      fun _ _ h _ _ hh => hhs h (hh ▸ mem_cons_self)⟩
  have key : ∀ n s, (Mach.machine H P).run n (Mach.init data) = some s → I s ∧
      (∀ h ∈ s.hs, addrOf opt P h < 4096) ∧
      ∃ k v, Vm.exec H code k (Vm.init data) = .next v ∧ Sim H opt P s v := by
    intro n
    induction n with
    | zero =>
      intro s h
      cases h
      exact ⟨hinit, forall_mem_nil _, 0, _, rfl, sim_init⟩
    | succ n ih =>
      intro s h
      obtain ⟨u, hu, hstep⟩ := Machine.run_succ_eq_some.mp h
      obtain ⟨hI, hhs, k, v, hk, hsim⟩ := ih u hu
      obtain ⟨it, hi, hm⟩ := Mach.move_of_step hstep
      obtain ⟨v', hvia, hsim'⟩ := hsim.move hL.sound (hL.good hu) (meant hI hk hsim hhs) hL.holds hi
        (Q := fun _ => True) (fun _ _ => trivial) hm
      obtain ⟨j, hj⟩ := hvia.exists_run
      refine ⟨hmove k u s v it hI hk hsim hi hm, handlers_move (hL.fits _ it hi) hm hhs, k + j, v', ?_,
        hsim'⟩
      rw [← Vm.run_eq_some_iff, Machine.run_add (Vm.run_eq_some_iff.mpr hk), hj]
  obtain ⟨hI, hhs, k, v, hk, hsim⟩ := key n s hs
  exact ⟨hI, meant hI hk hsim hhs, hhs⟩

/-- The frames of a run of `microjs_exec` are in the range of 16 bits. -/
def LowRun (H : Host) (code : Nat → Byte) (data : Nat → Word) : Prop :=
  -32768 ≤ H.base ∧ ∀ (k : Nat) (v : Vm), Vm.exec H code k (Vm.init data) = .next v →
    H.base + v.xp ≤ 32768

theorem Linked.meant (hl : LowRun H code data) : MeantRun H opt P data := fun _ _ hs =>
  (hL.run_rule (I := fun _ => True) trivial
    (fun k _ v _ hk hsim => ⟨hl.1, by have := hl.2 k v hk; rwa [hsim.xp] at this⟩)
    (fun _ _ _ _ _ _ _ _ _ _ => trivial) hs).2.1

end

end

end MicroJS
