import ThinkOS.MicroJS.Lex

/-!
# MicroJS: symbol table and external definitions

The symbol table of `microjs_sym.c` is one buffer: object records grow from its bottom (`bp`), a
stack of descriptors from its top (`sp`, with `fp` at the innermost scope's frame). The model keeps
the four positions, so that the table is full exactly when the source's is, and beside them what
the two areas hold. The library definition is that of `microjs.h`.
-/

namespace MicroJS

/-- `struct sym_obj`: a variable, with the position of its record. -/
structure Obj where
  pos : Nat
  nm : Name
  addr : Nat
  deriving DecidableEq

/-- `struct sym_call`. -/
structure SymCall where
  xid : Nat
  argcnt : Nat
  argmin : Nat
  argmax : Nat
  retcnt : Int
  deriving DecidableEq

/-- The descriptors on the symbol table's stack. -/
inductive Entry where
  | addr (a : Nat)
  | sf (prev bp : Nat)
  | tmp (s : Name)
  | cld (cid : Nat)
  | call (c : SymCall)
  | ref (addr : Nat)
  | wld (loop cond : Nat)
  | fld (a0 a1 a2 a3 : Nat)
  deriving DecidableEq

/-- `sizeof` of the descriptors, for 32-bit pointers and without tracing. -/
def Entry.size : Entry → Nat
  | .addr _ => 2
  | .sf _ _ => 4
  | .tmp _ => 8
  | .cld _ => 1
  | .call _ => 5
  | .ref _ => 2
  | .wld _ _ => 4
  | .fld _ _ _ _ => 8

/-- `struct symtab`; `objs` and `stack` have their newest element first. -/
structure Symtab where
  stackSz : Nat
  dataSz : Nat
  top : Nat
  sp : Nat
  fp : Nat
  bp : Nat
  stack : List Entry
  objs : List Obj

namespace Symtab

/-- `symtab_init`, for a buffer with `top` bytes after its header. -/
def init (top : Nat) : Symtab :=
  { stackSz := 0, dataSz := 0, top := top, sp := top, fp := top, bp := 0, stack := [], objs := [] }

/-- `sym_push`. -/
def push (t : Symtab) (e : Entry) : Except Err Symtab :=
  if t.bp + 2 + e.size > t.sp then .error .symPushFail
  else .ok { t with sp := t.sp - e.size, stack := e :: t.stack }

/-- `sym_pop`. -/
def pop (t : Symtab) : Except Err (Entry × Symtab) :=
  if t.sp ≥ t.fp then .error .symPopFail
  else match t.stack with
    | e :: rest => .ok (e, { t with sp := t.sp + e.size, stack := rest })
    | [] => .error .corrupt

/-- A pop that reads the entry as one of a given kind. -/
def popAs {α : Type} (kind : Entry → Option α) (t : Symtab) : Except Err (α × Symtab) :=
  match t.pop with
  | .error e => .error e
  | .ok (e, t') =>
    match kind e with
    | some x => .ok (x, t')
    | none => .error .corrupt

/-- `sym_tmp_pop`. -/
def popTmp : Symtab → Except Err (Name × Symtab) :=
  popAs fun | .tmp s => some s | _ => none

/-- `sym_cld_pop`. -/
def popCld : Symtab → Except Err (Nat × Symtab) :=
  popAs fun | .cld cid => some cid | _ => none

/-- `sym_ref_pop`. -/
def popRef : Symtab → Except Err (Nat × Symtab) :=
  popAs fun | .ref a => some a | _ => none

/-- `sym_addr_pop`. -/
def popAddr : Symtab → Except Err (Nat × Symtab) :=
  popAs fun | .addr a => some a | _ => none

/-- `sym_call_pop`. -/
def popCall : Symtab → Except Err (SymCall × Symtab) :=
  popAs fun | .call c => some c | _ => none

/-- `sym_wld_pop`. -/
def popWld : Symtab → Except Err ((Nat × Nat) × Symtab) :=
  popAs fun | .wld loop cond => some (loop, cond) | _ => none

/-- `sym_fld_pop`. -/
def popFld : Symtab → Except Err ((Nat × Nat × Nat × Nat) × Symtab) :=
  popAs fun | .fld a0 a1 a2 a3 => some (a0, a1, a2, a3) | _ => none

/-- `sym_sf_push`. -/
def sfPush (t : Symtab) : Except Err Symtab :=
  match t.push (.sf t.fp t.bp) with
  | .error e => .error e
  | .ok t => .ok { t with fp := t.sp }

/-- The innermost stack frame and the stack below it. -/
def frame : List Entry → Option (Nat × Nat × List Entry)
  | [] => none
  | .sf prev bp :: rest => some (prev, bp, rest)
  | _ :: rest => frame rest

/-- `sym_sf_pop`: everything above the frame goes with it, and so do the scope's objects. -/
def sfPop (t : Symtab) : Symtab :=
  if t.fp ≥ t.top then t
  else match frame t.stack with
    | some (prev, bp, rest) =>
      { t with sp := t.fp + 4, fp := prev, bp := bp, stack := rest,
               objs := t.objs.dropWhile fun o => bp ≤ o.pos }
    | none => t

/-- Where the objects of the innermost scope start. -/
def scopeBp (t : Symtab) : Nat :=
  if t.fp ≥ t.top then 0 else ((frame t.stack).map fun f => f.2.1).getD 0

/-- `sym_obj_lookup`: from the inner scope out. -/
def objLookup (t : Symtab) (s : Name) : Option Obj := t.objs.find? fun o => o.nm == s

/-- `sym_obj_scope_lookup`. -/
def objScopeLookup (t : Symtab) (s : Name) : Bool :=
  t.objs.any fun o => t.scopeBp ≤ o.pos && o.nm == s

/-- `sym_obj_new`, with the address its caller stores into the new record. -/
def objNew (t : Symtab) (s : Name) (addr : Nat) : Except Err Symtab :=
  let len := 6 + s.length + 1
  if t.bp + len + 2 > t.sp then .error .objNewFail
  else if 255 < len then .error .corrupt
  else .ok { t with bp := t.bp + len, objs := ⟨t.bp, s, addr⟩ :: t.objs }

end Symtab

/-- `struct extdef`: the fields of its union that belong to the definition's type. -/
structure ExtDef where
  nm : Name
  opt : Byte
  argmin : Nat := 0
  argmax : Nat := 0
  ret : Int := 0
  cdef : Nat := 0
  inst : Int := 0
  size : Nat := 0
  offs : Int := 0

/-- `EXTDEF_TYPE`. -/
inductive ExtType where
  | function | integer | object | reserved
  deriving DecidableEq

namespace ExtDef

def type (x : ExtDef) : ExtType :=
  match x.opt.toNat / 64 with
  | 0 => .function
  | 1 => .integer
  | 2 => .object
  | _ => .reserved

/-- The flags `O_ARRAY`, `O_MEMBER`, `O_SIZEOFFS`, and `O_READONLY`, which is `O_SINGLETON` too. -/
def isArray (x : ExtDef) : Bool := x.opt.getLsbD 0

def isMember (x : ExtDef) : Bool := x.opt.getLsbD 1

def isSizeoffs (x : ExtDef) : Bool := x.opt.getLsbD 2

def isReadonly (x : ExtDef) : Bool := x.opt.getLsbD 3

def isSingleton (x : ExtDef) : Bool := x.opt.getLsbD 3

end ExtDef

/-- `struct ext_libdef`: the externals, and for each class its first and last member. -/
structure LibDef where
  xdef : List ExtDef
  cdef : List (Nat × Nat)

namespace LibDef

/-- `lib_lookup`. -/
def lookup (l : LibDef) (s : Name) : Option Nat := l.xdef.findIdx? fun x => x.nm == s

/-- `lib_member_lookup`. -/
def memberLookup (l : LibDef) (cid : Nat) (s : Name) : Option Nat :=
  (l.cdef[cid]?).bind fun c =>
    (List.range' c.1 (c.2 + 1 - c.1)).find? fun i => (l.xdef[i]?).any fun x => x.nm == s

end LibDef

end MicroJS
