import ThinkOS.Lib.Lockstep
import ThinkOS.MicroJS.Exec

/-!
# MicroJS: the machine on items

The same machine before addresses: it runs a list of items, keeps the values apart from the exception
frames, and a frame is the index of its handler. `flow` types the code with the depth of the stack
and the handlers in force, read along the list; `Good` is the invariant of a run of typed code. A
frame that a completed `try` body leaves behind stays on top of those that the types know of.
-/

namespace MicroJS

open List Option

open Segment

/-- How a run ends: the result of `microjs_exec`, the data memory and the external calls made. -/
abbrev Final := Word × (Nat → Word) × List ExtCall

/-- The values on the stack with the newest first, the handlers of the exception frames below them
with the innermost first. -/
structure Mach where
  pos : Nat
  temps : List Word
  hs : List Nat
  data : Nat → Word
  calls : List ExtCall

variable {H : Host} {it : Item} {s s' : Mach} {data : Nat → Word}

/-- An item that only computes: the values and the data memory after it. -/
def Item.compute (H : Host) (it : Item) (data : Nat → Word) (ts : List Word) :
    Option (List Word × (Nat → Word)) :=
  match it, ts with
  | .lit c k, ts => some (negs k c.value :: ts, data)
  | .fuse f c k, r :: ts => (f.intOp.eval H r (negs k c.value)).map fun v => (v :: ts, data)
  | .ld a, ts => some (data (a / 4) :: ts, data)
  | .st a, r :: ts => some (ts, Function.update data (a / 4) r)
  | .bin o, r0 :: r1 :: ts => (o.eval H r1 r0).map fun v => (v :: ts, data)
  | .un o, r :: ts => some (o.eval r :: ts, data)
  | .pop, _ :: ts => some (ts, data)
  | _, _ => none

namespace Mach

/-- A throw. -/
def raise (s : Mach) (r : Word) : Option (Mach ⊕ Final) :=
  match s.hs with
  | h :: hs => some (.inl { s with pos := h, temps := [r], hs := hs })
  | [] => none

/-- The target of a jump over `d` items. -/
def target (s : Mach) (d : Int) : Nat := (s.pos + 1 + d).toNat

/-- One item. -/
def act (H : Host) (s : Mach) (it : Item) : Option (Mach ⊕ Final) :=
  match it, s.temps with
  | .ext xid n _, ts =>
    if ts.length < n then none
    else
      let calls := ⟨xid, (ts.take n).reverse⟩ :: s.calls
      match H.ext calls with
      | .fail r => raise { s with calls := calls } r
      | .ret vals => some (.inl { s with pos := s.pos + 1, calls := calls,
                                         temps := vals.reverse ++ ts.drop n })
  | .xpt, r :: _ => raise s r
  | .jmp d, _ | .leave d, _ => some (.inl { s with pos := s.target d })
  | .jeq d, r :: ts =>
    some (.inl { s with pos := if r = 0 then s.target d else s.pos + 1, temps := ts })
  | .pushx d, _ => some (.inl { s with pos := s.pos + 1, hs := s.target d :: s.hs })
  | .finish, _ => some (.inr (0, s.data, s.calls))
  | .ret, r :: _ => some (.inr (r, s.data, s.calls))
  | it, ts => (it.compute H s.data ts).map fun p =>
      .inl { s with pos := s.pos + 1, temps := p.1, data := p.2 }

/-- The machine on the code `P`. -/
def machine (H : Host) (P : List Item) : Lib.Machine Mach Final where
  step s := (P[s.pos]?).bind (act H s)

/-- The start of a program. -/
def init (data : Nat → Word) : Mach := { pos := 0, temps := [], hs := [], data := data, calls := [] }

end Mach

/-! ## Types -/

/-- The number of values on the stack and the handlers in force. -/
structure Ty where
  depth : Nat
  hs : List Nat
  deriving DecidableEq

namespace Item

def pops : Item → Nat
  | .fuse _ _ _ | .st _ | .un _ | .pop | .xpt | .jeq _ | .ret => 1
  | .bin _ => 2
  | .ext _ n _ => n
  | _ => 0

def pushes : Item → Nat
  | .lit _ _ | .fuse _ _ _ | .ld _ | .bin _ | .un _ => 1
  | .ext _ _ r => r.toNat
  | _ => 0

end Item

namespace Ty

/-- The type after an item. After the jump at the end of a `try` body comes its handler, which is
entered with the thrown value. -/
def next (i : Nat) (it : Item) (t : Ty) : Ty :=
  match it with
  | .pushx d => { t with hs := (i + 1 + d).toNat :: t.hs }
  | .leave _ | .finish => { depth := t.depth + 1, hs := t.hs.tail }
  | it => { t with depth := t.depth - it.pops + it.pushes }

/-- What an item asks of the type before it, and of its own parts. -/
def Ok (it : Item) (t : Ty) : Prop :=
  it.pops ≤ t.depth ∧
    match it with
    | .fuse f c k => negs k c.value = f.operand
    | .ext xid n r => xid < 256 ∧ n < 256 ∧ 0 ≤ r ∧ t.hs ≠ []
    | .isp _ => False
    | .xpt | .jmp _ | .jeq _ => t.hs ≠ []
    | .pushx _ => t.depth = 0
    | .leave _ => t.depth = 0 ∧ t.hs.tail ≠ []
    | .finish => t.depth = 0 ∧ t.hs ≠ []
    | _ => True

/-- What a jump asks of the type at its target. -/
def Lands (it : Item) (t t' : Ty) : Prop :=
  match it with
  | .jeq _ => t' = { t with depth := t.depth - 1 }
  | .leave _ => t' = { t with hs := t.hs.tail }
  | .pushx _ => t' = { depth := 1, hs := t.hs }
  | _ => t' = t

end Ty

def flow : Flow Item Ty where
  next := Ty.next
  jump := Item.jump
  ok := Ty.Ok
  lands := Ty.Lands

/-- The type at the index `i` of a program. -/
def tyAt (P : List Item) (i : Nat) : Ty := flow.after 0 ⟨0, []⟩ (P.take i)

/-- A whole program is well typed, and ends with the default handler. -/
structure Sound (P : List Item) : Prop where
  typed : flow.Typed 0 ⟨0, []⟩ P
  last : P.getLast? = some .ret
  ends : tyAt P P.length = ⟨0, []⟩

/-- The external functions return as many values as the code expects. -/
def Honest (H : Host) (P : List Item) : Prop :=
  ∀ xid n r, .ext xid n r ∈ P → ∀ (args : List Word) (cs : List ExtCall) (vals : List Word),
    args.length = n → H.ext (⟨xid, args⟩ :: cs) = .ret vals → (vals.length : Int) = r

/-- Handlers are entered with one value and with the frames they were set up over, or more. -/
def Frames (P : List Item) : List Nat → Prop
  | [] => True
  | h :: hs => h < P.length ∧ (tyAt P h).depth = 1 ∧ (tyAt P h).hs.length ≤ hs.length ∧ Frames P hs

/-- The invariant of a run. -/
structure Good (P : List Item) (s : Mach) : Prop where
  pos : s.pos < P.length
  depth : s.temps.length = (tyAt P s.pos).depth
  nest : (tyAt P s.pos).hs.length ≤ s.hs.length
  frames : Frames P s.hs

/-! ## Steps -/

namespace Mach

/-- What a step does. -/
inductive Move (H : Host) (s : Mach) : Item → Mach → Prop
  | compute {it : Item} {ts : List Word} {data : Nat → Word}
      (h : it.compute H s.data s.temps = some (ts, data)) :
      Move H s it { s with pos := s.pos + 1, temps := ts, data := data }
  | reply {xid n : Nat} {r : Int} {vals : List Word} (hn : n ≤ s.temps.length)
      (h : H.ext (⟨xid, (s.temps.take n).reverse⟩ :: s.calls) = .ret vals) :
      Move H s (.ext xid n r)
        { s with pos := s.pos + 1, calls := ⟨xid, (s.temps.take n).reverse⟩ :: s.calls,
                 temps := vals.reverse ++ s.temps.drop n }
  | fail {xid n h : Nat} {r : Int} {v : Word} {hs : List Nat} (hn : n ≤ s.temps.length)
      (hv : H.ext (⟨xid, (s.temps.take n).reverse⟩ :: s.calls) = .fail v) (hh : s.hs = h :: hs) :
      Move H s (.ext xid n r)
        { s with pos := h, temps := [v], hs := hs,
                 calls := ⟨xid, (s.temps.take n).reverse⟩ :: s.calls }
  | throw {h : Nat} {v : Word} {ts : List Word} {hs : List Nat} (ht : s.temps = v :: ts)
      (hh : s.hs = h :: hs) : Move H s .xpt { s with pos := h, temps := [v], hs := hs }
  | jmp (d : Int) : Move H s (.jmp d) { s with pos := s.target d }
  | leave (d : Int) : Move H s (.leave d) { s with pos := s.target d }
  | taken {d : Int} {ts : List Word} (ht : s.temps = 0 :: ts) :
      Move H s (.jeq d) { s with pos := s.target d, temps := ts }
  | fall {d : Int} {v : Word} {ts : List Word} (ht : s.temps = v :: ts) (hv : v ≠ 0) :
      Move H s (.jeq d) { s with pos := s.pos + 1, temps := ts }
  | pushx (d : Int) : Move H s (.pushx d) { s with pos := s.pos + 1, hs := s.target d :: s.hs }

theorem move_of_act (h : act H s it = some (.inl s')) : Move H s it s' := by
  unfold act raise at h
  split at h
  · split at h
    · cases h
    · dsimp only at h
      split at h
      · split at h
        · cases h
          exact .fail (by omega) ‹_› ‹_›
        · cases h
      · cases h
        exact .reply (by omega) ‹_›
  · split at h
    · cases h
      exact .throw ‹_› ‹_›
    · cases h
  · cases h
    exact .jmp _
  · cases h
    exact .leave _
  · rename_i d r ts ht
    cases h
    by_cases hr : r = 0
    · subst hr
      rw [if_pos rfl]
      exact .taken ht
    · rw [if_neg hr]
      exact .fall ht hr
  · cases h
    exact .pushx _
  · cases h
  · cases h
  · obtain ⟨p, hp, hs⟩ := map_eq_some_iff.mp h
    cases hs
    exact .compute hp

theorem move_of_step {P : List Item} (h : (machine H P).step s = some (.inl s')) :
    ∃ it, P[s.pos]? = some it ∧ Move H s it s' := by
  obtain ⟨it, hit, ha⟩ := bind_eq_some_iff.mp h
  exact ⟨it, hit, move_of_act ha⟩

end Mach

theorem Item.compute_length {data' : Nat → Word} {ts ts' : List Word}
    (h : it.compute H data ts = some (ts', data')) :
    ts'.length = ts.length - it.pops + it.pushes := by
  unfold Item.compute at h
  split at h <;> first
    | (cases h; done)
    | (cases h; simp [Item.pops, Item.pushes])
    | (obtain ⟨v, -, hv⟩ := map_eq_some_iff.mp h
       cases hv
       simp [Item.pops, Item.pushes])

theorem Item.compute_next {ts : List Word} {p : List Word × (Nat → Word)}
    (h : it.compute H data ts = some p) (i : Nat) (t : Ty) :
    it ≠ .ret ∧ t.next i it = { t with depth := t.depth - it.pops + it.pushes } := by
  cases it <;> first | (cases ts <;> cases h; done) | exact ⟨nofun, rfl⟩

/-! ## The invariant -/

section
variable {P : List Item} {i : Nat}

theorem tyAt_succ (hi : P[i]? = some it) : tyAt P (i + 1) = (tyAt P i).next i it := by
  have h := Flow.after_take_succ (F := flow) (o := 0) (t := ⟨0, []⟩) hi
  rwa [Nat.zero_add] at h

namespace Sound

theorem ok (hP : Sound P) (hi : P[i]? = some it) : (tyAt P i).Ok it := (hP.typed.at hi).1

/-- Only the last item is the default handler's. -/
theorem succ_lt (hP : Sound P) (hi : P[i]? = some it) (hit : it ≠ .ret) : i + 1 < P.length := by
  obtain ⟨hlt, rfl⟩ := List.getElem?_eq_some_iff.mp hi
  by_contra hge
  have hl := hP.last
  rw [List.getLast?_eq_getElem?, show P.length - 1 = i by omega, hi] at hl
  exact hit (Option.some.inj hl)

/-- Jumps stay inside. -/
theorem target (hP : Sound P) {d : Int} (hi : P[i]? = some it) (hd : it.jump = some d) :
    (i + 1 + d).toNat < P.length ∧ (tyAt P i).Lands it (tyAt P (i + 1 + d).toNat) := by
  obtain ⟨hok, hj⟩ := hP.typed.at hi
  obtain ⟨h0, hle, hl⟩ := hj d hd
  refine ⟨?_, hl⟩
  by_contra hge
  have heq : (i + 1 + d).toNat = P.length := by omega
  rw [heq, show flow.after 0 ⟨0, []⟩ (P.take P.length) = ⟨0, []⟩ from hP.ends] at hl
  cases it with
  | jmp _ => exact hok.2 (congrArg Ty.hs hl).symm
  | jeq _ => exact hok.2 (congrArg Ty.hs hl).symm
  | leave _ => exact hok.2.2 (congrArg Ty.hs hl).symm
  | pushx _ => exact absurd (congrArg Ty.depth hl) Nat.zero_ne_one
  | _ => cases hd

end Sound

theorem Good.raise {h : Nat} {hs : List Nat} {v : Word} {calls : List ExtCall} (hG : Good P s)
    (hh : s.hs = h :: hs) : Good P { s with pos := h, temps := [v], hs := hs, calls := calls } := by
  have hf := hG.frames
  rw [hh] at hf
  obtain ⟨hlt, hd, hn, hf⟩ := hf
  exact ⟨hlt, hd.symm, hn, hf⟩

/-- **What a step of typed code keeps.** -/
theorem Good.move (hP : Sound P) (hH : Honest H P) (hG : Good P s) (hi : P[s.pos]? = some it)
    (hm : Mach.Move H s it s') : Good P s' := by
  have hty := tyAt_succ hi
  have hok := hP.ok hi
  have hdep := hG.depth
  have hnest := hG.nest
  cases hm with
  | compute h =>
    obtain ⟨hne, hnext⟩ := Item.compute_next h s.pos (tyAt P s.pos)
    rw [hnext] at hty
    refine ⟨hP.succ_lt hi hne, ?_, ?_, hG.frames⟩
    · simp only [hty, Item.compute_length h, hdep]
    · simpa only [hty] using hnest
  | @reply xid n r vals hn h =>
    have hvals := hH xid n r (mem_of_getElem? hi) _ _ vals (by simp; omega) h
    refine ⟨hP.succ_lt hi nofun, ?_, ?_, hG.frames⟩
    · simp [hty, Ty.next, Item.pops, Item.pushes]
      omega
    · simpa only [hty, Ty.next] using hnest
  | fail hn hv hh => exact hG.raise hh
  | throw ht hh => exact hG.raise hh
  | jmp d =>
    obtain ⟨hlt, hl⟩ := hP.target hi rfl
    have hl : tyAt P (s.target d) = tyAt P s.pos := hl
    exact ⟨hlt, by rw [hl]; exact hdep, by rw [hl]; exact hnest, hG.frames⟩
  | leave d =>
    obtain ⟨hlt, hl⟩ := hP.target hi rfl
    have hl : tyAt P (s.target d) = { tyAt P s.pos with hs := (tyAt P s.pos).hs.tail } := hl
    refine ⟨hlt, by rw [hl]; exact hdep, ?_, hG.frames⟩
    rw [hl]
    simp
    omega
  | @taken d ts ht =>
    obtain ⟨hlt, hl⟩ := hP.target hi rfl
    have hl : tyAt P (s.target d) = { tyAt P s.pos with depth := (tyAt P s.pos).depth - 1 } := hl
    refine ⟨hlt, ?_, by rw [hl]; exact hnest, hG.frames⟩
    rw [hl, ← hdep, ht]
    rfl
  | @fall d v ts ht hv =>
    refine ⟨hP.succ_lt hi nofun, ?_, ?_, hG.frames⟩
    · rw [hty]
      simp only [Ty.next, Item.pops, Item.pushes, ← hdep, ht]
      rfl
    · simpa only [hty, Ty.next] using hnest
  | pushx d =>
    obtain ⟨hlt, hl⟩ := hP.target hi rfl
    have hl : tyAt P (s.target d) = { depth := 1, hs := (tyAt P s.pos).hs } := hl
    refine ⟨hP.succ_lt hi nofun, ?_, ?_, hlt, ?_, ?_, hG.frames⟩
    · simpa only [hty, Ty.next] using hdep
    · simpa [hty, Ty.next] using hnest
    · rw [hl]
    · rw [hl]
      exact hnest

theorem good_init (hP : Sound P) : Good P (Mach.init data) := by
  refine ⟨?_, rfl, Nat.zero_le _, trivial⟩
  have hl := hP.last
  cases P with
  | nil => cases hl
  | cons it P => exact Nat.succ_pos _

theorem Good.step (hP : Sound P) (hH : Honest H P) (hG : Good P s)
    (h : (Mach.machine H P).step s = some (.inl s')) : Good P s' := by
  obtain ⟨it, hi, hm⟩ := Mach.move_of_step h
  exact hG.move hP hH hi hm

/-- Where a run of typed code halts. -/
inductive Halt (H : Host) (s : Mach) : Item → Option Final → Prop
  | finish : Halt H s .finish (some (0, s.data, s.calls))
  | ret {r : Word} {ts : List Word} (ht : s.temps = r :: ts) :
      Halt H s .ret (some (r, s.data, s.calls))
  | zero {o : IntOp} {r0 r1 : Word} {ts : List Word} (ht : s.temps = r0 :: r1 :: ts)
      (hv : o.eval H r1 r0 = none) : Halt H s (.bin o) none

theorem Good.halt (hP : Sound P) (hG : Good P s) (hi : P[s.pos]? = some it) {o : Option Final}
    (ho : s.act H it = o.map .inr) : Halt H s it o := by
  obtain ⟨hpops, hok⟩ := hP.ok hi
  have hnest := hG.nest
  rw [← hG.depth] at hpops
  -- the handlers that a throw needs are there
  have hraise {u : Mach} {r : Word} (hu : u.hs = s.hs) (hne : (tyAt P s.pos).hs ≠ [])
      (h : u.raise r = o.map .inr) : False := by
    unfold Mach.raise at h
    split at h
    · cases o <;> cases h
    · rename_i hnil
      rw [← hu, hnil] at hnest
      exact hne (length_eq_zero_iff.mp (Nat.le_zero.mp hnest))
  have hcons (hlen : 1 ≤ s.temps.length) : ∃ r ts, s.temps = r :: ts :=
    exists_cons_of_length_pos hlen
  have hgo {u : Mach} {it : Item} (h : some (.inl u : Mach ⊕ Final) = o.map .inr) : Halt H s it o := by
    cases o <;> cases h
  cases it with
  | finish =>
    cases o <;> cases ho
    exact .finish
  | ret =>
    obtain ⟨r, ts, ht⟩ := hcons hpops
    simp only [Mach.act, ht] at ho
    cases o <;> cases ho
    exact .ret ht
  | bin op =>
    obtain ⟨r0, ts, ht⟩ := hcons (Nat.le_of_succ_le hpops)
    cases ts with
    | nil =>
      rw [ht] at hpops
      exact absurd hpops (Nat.not_le.mpr Nat.one_lt_two)
    | cons r1 ts =>
      simp only [Mach.act, ht, Item.compute] at ho
      cases hv : op.eval H r1 r0 with
      | none =>
        rw [hv] at ho
        cases o with
        | none => exact .zero ht hv
        | some _ => cases ho
      | some r =>
        rw [hv] at ho
        exact hgo ho
  | fuse f c k =>
    obtain ⟨r, ts, ht⟩ := hcons hpops
    simp only [Mach.act, ht, Item.compute] at ho
    cases f <;> exact hgo ho
  | ext xid n r =>
    have hn : n ≤ s.temps.length := hpops
    simp only [Mach.act, if_neg (Nat.not_lt.mpr hn)] at ho
    split at ho
    · exact (hraise (by rfl) hok.2.2.2 ho).elim
    · exact hgo ho
  | xpt =>
    obtain ⟨r, ts, ht⟩ := hcons hpops
    simp only [Mach.act, ht] at ho
    exact (hraise rfl hok ho).elim
  | isp n => exact hok.elim
  | lit c k => exact hgo ho
  | ld a => exact hgo ho
  | jmp d => exact hgo ho
  | leave d => exact hgo ho
  | pushx d => exact hgo ho
  | _ =>
    obtain ⟨r, ts, ht⟩ := hcons hpops
    simp only [Mach.act, ht, Item.compute] at ho
    exact hgo ho

end

end MicroJS
