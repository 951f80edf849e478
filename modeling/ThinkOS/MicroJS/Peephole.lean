import ThinkOS.MicroJS.Compiled

/-!
# MicroJS: the optimizer

With `MICROJS_OPTIMIZATION_ENABLED` the translator replaces the literal at the saved position and the
operation after it by one instruction. Both codes of a text are its items in another format, and
both run as the machine on the items, when each replaced literal is the instruction before the
operation. Reading an attribute of a library object does not save its position: there the test finds
an older literal, and the code from it on is lost, the call included.
-/

namespace MicroJS

open Segment Lib

section
variable {H : Host} {opt : Bool} {P : List Item} {code : Nat → Byte} {data : Nat → Word}
  {cs : List ExtCall}

/-- `microjs_exec` returns `r`, with the data memory `d` and after the calls `cs`. -/
def Vm.Returns (H : Host) (code : Nat → Byte) (data : Nat → Word) (r : Word) (d : Nat → Word)
    (cs : List ExtCall) : Prop :=
  ∃ k t, Vm.exec H code k (Vm.init data) = .done r t ∧ t.data = d ∧ t.calls = cs

/-- At some point of its run `microjs_exec` has made the calls `cs`. -/
def Vm.Calls (H : Host) (code : Nat → Byte) (data : Nat → Word) (cs : List ExtCall) : Prop :=
  ∃ k t, Vm.exec H code k (Vm.init data) = .next t ∧ t.calls = cs

theorem Loaded.returns_iff (hL : Loaded H opt P code) (hM : MeantRun H opt P data) {r : Word}
    {d : Nat → Word} :
    Vm.Returns H code data r d cs ↔ (Mach.machine H P).Ends (Mach.init data) (r, d, cs) :=
  Vm.ends_iff.symm.trans (hL.ends_iff hM).symm

theorem Loaded.calls_iff (hL : Loaded H opt P code) (hM : MeantRun H opt P data) :
    Vm.Calls H code data cs ↔
      ∃ n s, (Mach.machine H P).run n (Mach.init data) = some s ∧ s.calls = cs := by
  constructor
  · rintro ⟨k, t, hk, rfl⟩
    obtain ⟨n, s, it, v, hn, -, hsim, hw⟩ := hL.cover hM hk
    refine ⟨n, s, hn, hsim.calls.symm.trans ?_⟩
    -- between the instructions of an item there is no call
    rcases hw with rfl | ⟨-, -, -, hc⟩
    · rfl
    · exact hc.symm
  · rintro ⟨n, s, hn, rfl⟩
    obtain ⟨k, v, hk, hsim⟩ := hL.reaches hM hn
    exact ⟨k, v, hk, hsim.calls⟩

/-! ## Code without shortcuts -/

theorem length_plain (hP : ∀ it ∈ P, it.plain = true) :
    (format true).length P = (format false).length P :=
  congrArg List.sum (List.map_congr_left fun it hit => by
    show (it.bytes true 0 0).length = _
    rw [Item.bytes_plain (hP it hit)]
    rfl)

theorem addrOf_plain (hP : ∀ it ∈ P, it.plain = true) : addrOf true P = addrOf false P :=
  funext fun _ => length_plain fun it hit => hP it (List.mem_of_mem_take hit)

/-- Each byte of the code belongs to an item. -/
theorem exists_item {x i : Nat} (hi : i ≤ P.length) (hx : x < addrOf opt P i) :
    ∃ (i : Nat) (it : Item), P[i]? = some it ∧ addrOf opt P i ≤ x ∧
      x < addrOf opt P i + (format opt).size it := by
  induction i with
  | zero => cases hx
  | succ i ih =>
    have hit : P[i]? = some P[i] := List.getElem?_eq_getElem hi
    rcases Nat.lt_or_ge x (addrOf opt P i) with hlt | hge
    · exact ih (by omega) hlt
    · exact ⟨i, _, hit, hge, hx.trans_eq (addrOf_succ hit)⟩

theorem eq_of_plain {code0 : Nat → Byte} {x : Nat} (h : (format true).Holds code 0 P)
    (h0 : (format false).Holds code0 0 P) (hP : ∀ it ∈ P, it.plain = true)
    (hx : x < (format true).length P) : code x = code0 x := by
  have hx : x < addrOf true P P.length := by simpa [addrOf] using hx
  obtain ⟨i, it, hi, hle, hlt⟩ := exists_item le_rfl hx
  have hs := stores_of_holds h hi
  have hs0 := stores_of_holds h0 hi
  rw [← addrOf_plain hP, ← Item.bytes_plain (hP it (List.mem_of_getElem? hi))] at hs0
  obtain ⟨k, rfl⟩ := Nat.exists_eq_add_of_le hle
  exact hs.eq hs0 ((Nat.lt_of_add_lt_add_left hlt).trans_eq ((format true).length_bytes it _ _).symm)

/-! ## Both codes of a text -/

variable {E : Env} {m0 m1 : Sdt} {top0 top1 n0 n1 : Nat} {code0 code1 : Nat → Byte}
  {txt : List Char} {p : Program} {is : List Item} {S' : Static}

end

/-- A library with an object `o` that has a number `at`. -/
def sensorLib : LibDef where
  xdef := [{ nm := "o".toList, opt := 128 + 8, cdef := 0, inst := 1 },
           { nm := "at".toList, opt := 64 + 2 }]
  cdef := [(1, 1)]

def sensorEnv (opt : Bool) : Env := { bareEnv opt with lib := sensorLib }

/-- The number is 5. -/
def sensorHost : Host where
  base := 0
  ext
    | ⟨1, [_, _]⟩ :: _ => .ret []
    | _ => .ret [5]

/-- `var x; x = o.at + 1;` -/
def reading : Program :=
  .semi (.vars ("x".toList, none) []) <|
  .semi (.simple (.assign "x".toList
    (.bin .add (.attr (.obj "o".toList) "at".toList) (.int 1)))) .eof

def readingItems : List Item :=
  [.lit (.int 1) 0, .ext 1 1 1, .fuse .inc (.int 1) 0, .st 0]

theorem modest_sensor : sensorLib.Modest := by
  refine ⟨by decide, ?_⟩
  decide

theorem kept_sensor : sensorLib.Kept sensorHost := by
  intro xid r args cs vals h hret
  match xid, args with
  | 0, _ =>
    cases h
    cases hret
    rfl
  | 1, [] => cases h
  | 1, [_] =>
    cases h
    cases hret
    rfl
  | 1, [_, _] =>
    cases h
    cases hret
    rfl
  | 1, _ :: _ :: _ :: _ => cases h
  | _ + 2, _ => cases h

theorem regular_reading {opt : Bool} {S' : Static} (hs : S'.safe = true) :
    Regular { sensorEnv true with opt := opt } sensorHost reading readingItems S' where
  safe _ := hs
  modest := modest_sensor
  kept := kept_sensor
  narrow := by
    simp [reading, Program.Narrow, Semi.Narrow, Simple.Narrow, Exp.Narrow, Base.Narrow]
  fits := by
    cases opt <;> exact fits_of_all (by decide)

/-- `microjs_exec` has returned: its value, the first data word and the number of calls. -/
def Outcome.result : Outcome Vm → Option (Word × Word × Nat)
  | .done r v => some (r, v.data 0, v.calls.length)
  | _ => none

end MicroJS
