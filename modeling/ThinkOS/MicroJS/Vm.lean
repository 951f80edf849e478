import ThinkOS.MicroJS.Sdt

/-!
# MicroJS: the virtual machine

`microjs_exec` of `microjs_vm.c`. The stack is a list with its top first, so that `sp` is its
length; `xp` is kept as an index into it. Reading below the stack, reviving what lies above it and
dividing by zero leave the source's defined behaviour: `fault`.
-/

namespace MicroJS

/-- A call of an external function, with its arguments. -/
structure ExtCall where
  xid : Nat
  args : List Word
  deriving DecidableEq

/-- What an external function returns: values, or a negative number whose negation is thrown. -/
inductive Reply where
  | ret (vals : List Word)
  | fail (code : Word)
  deriving DecidableEq

/-- What the machine runs on: the distance of the stack from the data memory in words, the external
functions (their answer given all calls so far, the newest first), and what the target's shifts do
with counts above 31. -/
structure Host where
  base : Int
  ext : List ExtCall → Reply
  shlOut : Word → Word → Word := fun _ _ => 0
  asrOut : Word → Word → Word := fun _ _ => 0

/-- `struct microjs_vm`, and the external calls made so far. -/
structure Vm where
  pc : Nat
  stack : List Word
  xp : Int
  data : Nat → Word
  calls : List ExtCall

/-- The end of a step: a new state, a return from `microjs_exec`, or no defined behaviour. -/
inductive Outcome (σ : Type) where
  | next (s : σ)
  | done (ret : Word) (s : σ)
  | fault

def ERR_INVALID_INSTRUCTION : Word := 25

/-- The value of `r1 op r0`. -/
def IntOp.eval (H : Host) (o : IntOp) (r1 r0 : Word) : Option Word :=
  match o with
  | .add => some (r1 + r0)
  | .sub => some (r1 - r0)
  | .mul => some (r1 * r0)
  | .div => if r0 = 0 then none else some (r1.sdiv r0)
  | .mod => if r0 = 0 then none else some (r1.srem r0)
  | .asr => some (if r0.toNat < 32 then r1.sshiftRight r0.toNat else H.asrOut r1 r0)
  | .shl => some (if r0.toNat < 32 then r1 <<< r0.toNat else H.shlOut r1 r0)
  | .or => some (r1 ||| r0)
  | .and => some (r1 &&& r0)
  | .xor => some (r1 ^^^ r0)
  | .lt => some (if r1.slt r0 then 1 else 0)
  | .gt => some (if r0.slt r1 then 1 else 0)
  | .eq => some (if r1 = r0 then 1 else 0)
  | .ne => some (if r1 = r0 then 0 else 1)
  | .le => some (if r1.sle r0 then 1 else 0)
  | .ge => some (if r0.sle r1 then 1 else 0)

/-- `SIGNEXT12BIT`. -/
def signExt12 (x : Nat) : Int := (BitVec.ofNat 12 x).toInt

namespace Vm

variable (H : Host) (code : Nat → Byte)

/-- The label `except`: back to the exception frame, with the code `r1` in its place. -/
def raise (s : Vm) (r1 : Word) : Outcome Vm :=
  if 0 ≤ s.xp ∧ s.xp ≤ s.stack.length then
    match s.stack.drop (s.stack.length - s.xp.toNat) with
    | r0 :: rest =>
      .next { s with stack := r1 :: rest, pc := r0.toNat % 65536,
                     xp := (r0.sshiftRight 16).toInt - H.base }
    | [] => .fault
  else .fault

/-- Going to a code position. -/
def goto (s : Vm) (pc : Int) : Outcome Vm := if pc < 0 then .fault else .next { s with pc := pc.toNat }

/-- The frame word that `PUSHX` pushes for a handler at `addr`. -/
def frameWord (xp : Int) (addr : Nat) : Word :=
  BitVec.ofNat 32 addr ||| (BitVec.ofInt 32 (H.base + xp) <<< 16)

/-- The operations of the group `MISCOP`. -/
def misc (opt : Nat) (s : Vm) : Outcome Vm :=
  let at1 : Vm := { s with pc := s.pc + 1 }
  match opt with
  | 0 => .done 0 at1
  | 1 => match s.stack with
    | r0 :: st => .done r0 { at1 with stack := st }
    | [] => .fault
  | 2 => match s.stack with
    | r1 :: st => raise H { at1 with stack := st } r1
    | [] => .fault
  | 3 => match s.stack with
    | _ :: st => .next { at1 with stack := st }
    | [] => .fault
  | 4 => match s.stack with
    | r0 :: st => .next { at1 with stack := ~~~r0 :: st }
    | [] => .fault
  | 5 => match s.stack with
    | r0 :: st => .next { at1 with stack := -r0 :: st }
    | [] => .fault
  | 6 => .next { s with pc := s.pc + 2, stack := (code (s.pc + 1)).signExtend 32 :: s.stack }
  | 7 => .next { s with pc := s.pc + 3,
                        stack := (code (s.pc + 2) ++ code (s.pc + 1)).signExtend 32 :: s.stack }
  | 8 => .next { s with pc := s.pc + 5, stack := (code (s.pc + 4) ++ code (s.pc + 3) ++
                          code (s.pc + 2) ++ code (s.pc + 1)) :: s.stack }
  | 9 =>
    let n := (code (s.pc + 2)).toNat
    if s.stack.length < n then .fault
    else
      let calls := ⟨(code (s.pc + 1)).toNat, (s.stack.take n).reverse⟩ :: s.calls
      let s := { s with pc := s.pc + 3, calls := calls }
      match H.ext calls with
      | .fail r1 => raise H s r1
      | .ret vals => .next { s with stack := vals.reverse ++ s.stack.drop n }
  | 10 => match s.stack with
    | r0 :: st => .next { at1 with stack := (r0 + 1) :: st }
    | [] => .fault
  | 11 => match s.stack with
    | r0 :: st => .next { at1 with stack := (r0 - 1) :: st }
    | [] => .fault
  | 12 => match s.stack with
    | r0 :: st => .next { at1 with stack := (if r0 = 0 then 1 else 0) :: st }
    | [] => .fault
  | _ => raise H at1 ERR_INVALID_INSTRUCTION

/-- One turn of the loop of `microjs_exec`. -/
def step (s : Vm) : Outcome Vm :=
  let opc := (code s.pc).toNat
  let opt := opc % 16
  -- the 12-bit operand of the two-byte instructions
  let r := (code (s.pc + 1)).toNat * 16 + opt
  let at2 : Vm := { s with pc := s.pc + 2 }
  match opc / 16 with
  | 0 => misc H code opt s
  | 1 => .next { s with pc := s.pc + 1, stack := (BitVec.ofNat 4 opt).signExtend 32 :: s.stack }
  | 2 => match s.stack with
    | r0 :: r1 :: st => match (IntOp.ofNat opt).eval H r1 r0 with
      | some r2 => .next { s with pc := s.pc + 1, stack := r2 :: st }
      | none => .fault
    | _ => .fault
  | 3 =>
    if 0 ≤ signExt12 r ∧ signExt12 r ≤ s.stack.length then
      .next { at2 with stack := s.stack.drop (signExt12 r).toNat }
    else .fault
  | 4 => .next { at2 with stack := s.data r :: s.stack }
  | 5 => match s.stack with
    | r0 :: st => .next { at2 with stack := st, data := Function.update s.data r r0 }
    | [] => .fault
  | 6 => .next { at2 with stack := frameWord H s.xp r :: s.stack, xp := s.stack.length + 1 }
  | 7 => goto at2 ((s.pc : Int) + 2 + signExt12 r)
  | 8 => match s.stack with
    | r1 :: st =>
      if r1 = 0 then goto { at2 with stack := st } ((s.pc : Int) + 2 + signExt12 r)
      else .next { at2 with stack := st }
    | [] => .fault
  | _ => raise H { s with pc := s.pc + 1 } ERR_INVALID_INSTRUCTION

/-- The loop of `microjs_exec`, for at most `n` turns. -/
def exec : Nat → Vm → Outcome Vm
  | 0, s => .next s
  | n + 1, s =>
    match step H code s with
    | .next s => exec n s
    | o => o

/-- `microjs_vm_init`. -/
def init (data : Nat → Word) : Vm := { pc := 0, stack := [], xp := 0, data := data, calls := [] }

end Vm

end MicroJS
