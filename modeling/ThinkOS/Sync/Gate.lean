import ThinkOS.Sched.Sane

/-!
# What a gate is

A gate seen on its own is two bits and a set of waiters (`Gate`), and each call on it is a
function of those (`Gate.step`, `Gate.reply`). The kernel keeps the bits of sixteen gates
in one word. Its calls do to the gate they name what `Gate.step` does
(`gateView_svcIsr_iff`), and nothing to the other gates (`gateView_other`), with one
exception: `gate_exit` looks for the pending open in bit 3 of the word, the locked bit of
the second gate there, whatever gate it was called for.

    gate_exit(g, 0) is right  ↔  that bit is g's signaled bit, or nobody waits for g

So an open can be lost, and a thread let in that nobody opened the gate for.
-/

namespace ThinkOS

open Queues

open Lib

/-! ## The abstract gate -/

structure Gate where
  signaled : Bool
  locked : Bool
  waiters : Word
  deriving DecidableEq, Repr

variable {s : Gate}

inductive GateOp
  | gateWait
  | gateTimedwait (ms : Word)
  | gateOpen
  | gateClose
  | gateExit (opn : Word)
  deriving DecidableEq, Repr

namespace Gate

/-- An open gate that is locked lets its first waiter in, or is unlocked. -/
def letIn (s : Gate) : Gate :=
  if s.waiters = 0 then { s with locked := false }
  else { s with signaled := false, waiters := setBit s.waiters (lowBit s.waiters) false }

theorem letIn_of_eq (h : s.waiters = 0) : s.letIn = { s with locked := false } :=
  if_pos h

theorem letIn_of_ne (h : s.waiters ≠ 0) :
    s.letIn = { s with signaled := false, waiters := setBit s.waiters (lowBit s.waiters) false } :=
  if_neg h

/-- A wait enters an open gate and closes it behind itself. -/
def enter (self : Nat) (s : Gate) : Gate :=
  if s.signaled = true ∧ s.locked = false then { s with signaled := false, locked := true }
  else { s with waiters := setBit s.waiters self true }

def step (self : Nat) (s : Gate) : GateOp → Gate
  | .gateWait => s.enter self
  | .gateTimedwait _ => if s.signaled = true ∧ s.locked = true then s else s.enter self
  | .gateOpen =>
    if s.locked then { s with signaled := true }
    else letIn { s with signaled := true, locked := true }
  | .gateClose => { s with signaled := false }
  | .gateExit opn =>
    if s.locked = false then s
    else if opn = 0 ∧ s.signaled = false then { s with locked := false }
    else letIn { s with signaled := true }

/-- What the caller gets; `none` when it has to wait. -/
def reply (s : Gate) : GateOp → Option Word
  | .gateWait => if s.signaled = true ∧ s.locked = false then some 0 else none
  | .gateTimedwait _ => if s.signaled = true then some 0 else none
  | .gateOpen => some 0
  | .gateClose => some 0
  | .gateExit _ => some (if s.locked then 0 else EPERM)

/-- An exit that takes bit `b` for the pending open. -/
def exitBy (b : Bool) (s : Gate) : Gate := if b = false then { s with locked := false } else s.letIn

/-- It is the exit of the gate exactly if `b` is the signaled bit, or nobody waits. -/
theorem exitBy_eq_step_iff (hl : s.locked = true) {self : Nat} {b : Bool} :
    s.exitBy b = s.step self (.gateExit 0) ↔ b = s.signaled ∨ s.waiters = 0 := by
  obtain ⟨sig, lock, ws⟩ := s
  obtain rfl : lock = true := hl
  cases b <;> cases sig <;> simp [exitBy, step, letIn]

/-- Nobody waits at an open gate. -/
def Ok (s : Gate) : Prop := s.signaled = true → s.locked = false → s.waiters = 0

theorem Ok.letIn (s : Gate) : s.letIn.Ok := by
  unfold Ok Gate.letIn
  split
  · exact fun _ _ => ‹_›
  · exact fun hs => by cases hs

theorem Ok.enter (s : Gate) (self : Nat) : (s.enter self).Ok := by
  unfold Gate.enter
  split
  · exact fun hs => by cases hs
  · rename_i hn
    exact fun hs hl => absurd ⟨hs, hl⟩ hn

theorem Ok.step (h : s.Ok) (self : Nat) (op : GateOp) : (s.step self op).Ok := by
  cases op with
  | gateWait => exact .enter s self
  | gateTimedwait ms =>
    show Ok (if _ then _ else _)
    split
    · exact h
    · exact .enter s self
  | gateOpen =>
    show Ok (if _ then _ else _)
    split
    · rename_i hl
      exact fun _ hn => by rw [hl] at hn; cases hn
    · exact .letIn _
  | gateClose => exact fun hs => by cases hs
  | gateExit opn =>
    show Ok (if _ then _ else _)
    split
    · exact h
    · split
      · rename_i hn
        exact fun hs => by rw [hn.2] at hs; cases hs
      · exact .letIn _

end Gate

/-! ## The gates of the kernel -/

namespace Queues

theorem word_ext {q : Queues} {w : Nat} {x : Word} (h : ∀ t, t < 32 → q.mem w t = x.getLsbD t) :
    q.wqLst w = x := by
  apply BitVec.eq_of_getLsbD_eq
  intro t ht
  rw [← mem_eq_getLsbD q w t ht]
  exact h t ht

theorem wqHead_eq_null_iff (q : Queues) (w : Nat) : q.wqHead w = threadNull ↔ q.wqLst w = 0 :=
  lowBit_eq_width_iff _

end Queues

section
variable [Config] {self : Nat} {wq : Word} {k : Kernel}

def GateOp.call (wq : Word) : GateOp → Call
  | .gateWait => .gateWait wq
  | .gateTimedwait ms => .gateTimedwait wq ms
  | .gateOpen => .gateOpen wq
  | .gateClose => .gateClose wq
  | .gateExit opn => .gateExit wq opn

namespace Kernel

def gateView (k : Kernel) (g : Nat) : Gate :=
  ⟨k.gateSignaled g, k.gateLocked g, k.q.wqLst (gateBase + g)⟩

/-- What a call that was just served gives to its caller. -/
def reply (k : Kernel) (self : Nat) : Option Word :=
  if k.q.thStat self = 0 then some (k.stack self k.psp).r0 else none

/-- The bit `gate_exit` takes for the pending open of gate `g`. -/
def exitBit (k : Kernel) (g : Nat) : Bool := (k.gates g).getLsbD 3

/-- When an operation on gate `g` goes by the bits of `g`. -/
def OwnBits (k : Kernel) (g : Nat) (op : GateOp) : Prop :=
  op = .gateExit 0 → k.gateLocked g = true →
    k.exitBit g = k.gateSignaled g ∨ k.q.wqLst (gateBase + g) = 0

instance (k : Kernel) (g : Nat) (op : GateOp) : Decidable (k.OwnBits g op) :=
  inferInstanceAs (Decidable (_ → _ → _))

section
variable {k' : Kernel} {g : Nat}

theorem gateView_congr (hg : ∀ b, b < 2 → k'.gate.rd (g * 2 + b) = k.gate.rd (g * 2 + b))
    (hm : ∀ t, t < 32 → k'.q.mem (gateBase + g) t = k.q.mem (gateBase + g) t) :
    k'.gateView g = k.gateView g := by
  have h0 : k'.gateSignaled g = k.gateSignaled g := hg 0 (by decide)
  have h1 : k'.gateLocked g = k.gateLocked g := hg 1 (by decide)
  have h2 : k'.q.wqLst (gateBase + g) = k.q.wqLst (gateBase + g) :=
    word_ext fun t ht => by rw [hm t ht, mem_eq_getLsbD _ _ _ ht]
  unfold gateView
  rw [h0, h1, h2]

theorem Within.gateView {S : Nat → Prop} (h : Within S self k k') (hg : g < gateMax)
    (hn : ¬ S (gateBase + g)) : k'.gateView g = k.gateView g :=
  gateView_congr (h.gate g hg hn).1 fun t ht => h.mem _ t (isObj_gate hg) hn ht

/-! ### One operation at a time -/

theorem word_wakeup {q : Queues} (hg : g < gateMax) (hne : q.wqHead (gateBase + g) ≠ threadNull) :
    (q.wakeup (gateBase + g) (q.wqHead (gateBase + g))).wqLst (gateBase + g) =
      setBit (q.wqLst (gateBase + g)) (q.wqHead (gateBase + g)) false := by
  have ho := isObj_gate hg
  obtain ⟨hlt, -⟩ := q.mem_wqHead hne
  generalize q.wqHead (gateBase + g) = th at *
  generalize gateBase + g = w at *
  unfold Queues.IsObj mutexBase at ho
  have h0 : w ≠ wqReady ∧ w ≠ wqClock := by unfold wqReady wqClock; omega
  refine word_ext fun t ht => ?_
  rw [mem_wakeup hlt ht h0.1, getLsbD_setBit ht, ← mem_eq_getLsbD _ _ _ ht]
  by_cases he : t = th
  · simp [he, h0.1]
  · simp [he, Ne.symm he]

theorem gateView_clearGate (k : Kernel) (g : Nat) (m : Word) (hm : m.toNat < 4) :
    (k.setGates g (k.gates g &&& ~~~(m <<< gateShift g))).gateView g =
      ⟨k.gateSignaled g && !m.getLsbD 0, k.gateLocked g && !m.getLsbD 1,
        k.q.wqLst (gateBase + g)⟩ := by
  have h0 := rd_clearGate k g m hm g (b := 0) (by decide)
  have h1 := rd_clearGate k g m hm g (b := 1) (by decide)
  simp only [decide_true, Bool.true_and] at h0 h1
  exact Gate.mk.injEq .. ▸ ⟨h0, h1, rfl⟩

theorem gateView_signalGate {m : Word} (hm : m.toNat < 4) :
    (k.setGates g (k.gates g ||| m <<< gateShift g)).gateView g =
      ⟨k.gateSignaled g || m.getLsbD 0, k.gateLocked g || m.getLsbD 1,
        k.q.wqLst (gateBase + g)⟩ := by
  have h0 := rd_signalGate k g m hm g (b := 0) (by decide)
  have h1 := rd_signalGate k g m hm g (b := 1) (by decide)
  simp only [decide_true, Bool.true_and] at h0 h1
  exact Gate.mk.injEq .. ▸ ⟨h0, h1, rfl⟩

theorem gateView_gateEnter :
    (k.gateEnter g).gateView g = ⟨false, true, k.q.wqLst (gateBase + g)⟩ := by
  have h0 := rd_gateEnter k g g (b := 0) (by decide)
  have h1 := rd_gateEnter k g g (b := 1) (by decide)
  simp only [if_true] at h0 h1
  exact Gate.mk.injEq .. ▸ ⟨h0, h1, rfl⟩

theorem gateView_gateAdmit (hg : g < gateMax) :
    (k.gateAdmit g (gateBase + g)).gateView g = (k.gateView g).letIn := by
  simp only [gateAdmit]
  by_cases hn : k.q.wqHead (gateBase + g) = threadNull
  · have h0 : (k.gateView g).waiters = 0 := (wqHead_eq_null_iff _ _).mp hn
    rw [if_pos hn, gateView_clearGate _ _ _ (by decide), Gate.letIn_of_eq h0]
    simp [gateView]
  · have h0 : (k.gateView g).waiters ≠ 0 := fun h => hn ((wqHead_eq_null_iff _ _).mpr h)
    have hv := gateView_clearGate k g 1#32 (by decide)
    obtain ⟨hs, hl, -⟩ := Gate.mk.injEq .. ▸ hv
    rw [if_neg hn, Gate.letIn_of_ne h0]
    refine Gate.mk.injEq .. ▸ ⟨hs.trans ?_, hl.trans ?_, word_wakeup hg hn⟩
    · simp
    · simp [gateView]

theorem gateView_waitBlock (hs : self < 32) (hg : g < gateMax) {ms : Option Word} :
    (k.waitBlock self (gateBase + g) true ms).gateView g =
      { k.gateView g with waiters := setBit (k.gateView g).waiters self true } := by
  have ho := isObj_gate hg
  unfold Queues.IsObj mutexBase at ho
  have hq := k.waitBlock_q self (gateBase + g) true ms hs (by unfold wqClock; omega)
  have hgate : (k.waitBlock self (gateBase + g) true ms).gate = k.gate := by cases ms <;> rfl
  refine Gate.mk.injEq .. ▸ ⟨?_, ?_, ?_⟩
  · unfold gateSignaled
    rw [hgate]
    rfl
  · unfold gateLocked
    rw [hgate]
    rfl
  · rw [hq]
    refine word_ext fun t ht => ?_
    rw [mem_suspend_of_ne ht (by unfold wqReady; omega) (by unfold wqTmshare; omega),
      mem_enqueue hs ht, getLsbD_setBit ht]
    have hb := mem_eq_getLsbD k.q (gateBase + g) t ht
    by_cases he : t = self
    · simp [he]
    · simp [he, Ne.symm he, hb, gateView]

theorem gateView_wait (hs : self < 32) (hg : g < gateMax) {ms : Option Word} :
    (if k.gateState g = 1 then (k.gateEnter g).arg0 self 0
      else k.waitBlock self (gateBase + g) true ms).gateView g = (k.gateView g).enter self := by
  by_cases h : k.gateState g = 1
  · rw [if_pos h]
    rw [gateState_eq_one_iff] at h
    exact gateView_gateEnter.trans (if_pos h).symm
  · rw [if_neg h]
    rw [gateState_eq_one_iff] at h
    exact (gateView_waitBlock hs hg).trans (if_neg h).symm

theorem gateView_gateOpenI (k : Kernel) (self : Nat) (hg : g < gateMax) :
    (k.gateOpenI (gateBase + g)).gateView g = (k.gateView g).step self .gateOpen := by
  simp only [gateOpenI, Nat.add_sub_cancel_left, Gate.step]
  by_cases hl : k.gateLocked g = true
  · have hl' : (k.gateView g).locked = true := hl
    rw [if_pos ((gateLocked_iff k g).mpr hl), if_pos hl', gateView_signalGate (by decide)]
    simp [gateView]
  · have hl' : ¬ (k.gateView g).locked = true := hl
    rw [if_neg (fun h => hl ((gateLocked_iff k g).mp h)), if_neg hl', gateView_gateAdmit hg,
      gateView_signalGate (by decide)]
    simp [gateView]

/-- What `gate_exit` does to a locked gate, as the code has it. -/
theorem gateView_gateExitSvc (self : Nat) (opn : Word) (hi : k.gateIdx wq = some g)
    (hl : k.gateLocked g = true) : (k.gateExitSvc self wq opn).gateView g =
      if opn = 0 then (k.gateView g).exitBy (k.exitBit g)
      else Gate.letIn { k.gateView g with signaled := true } := by
  obtain ⟨hwq, hg, -⟩ := gateIdx_eq_some hi
  have hrd : ¬ k.gate.rd (g * 2 + 1) = false := by
    rw [show k.gate.rd (g * 2 + 1) = true from hl]
    decide
  have hbit : (k.arg0 self 0).gates g &&& (1#32 <<< 3) = 0 ↔ k.exitBit g = false :=
    and_one_shiftLeft_eq_zero_iff (by decide)
  unfold gateExitSvc Gate.exitBy
  rw [hi]
  simp only [if_neg hrd, hbit, hwq]
  have hv : (k.arg0 self 0).gateView g = k.gateView g := rfl
  rw [← hv]
  generalize k.arg0 self 0 = k1
  by_cases ho : opn = 0
  · simp only [ho, true_and, if_true]
    by_cases hb : k.exitBit g = false
    · rw [if_pos hb, if_pos hb, gateView_clearGate _ _ _ (by decide)]
      simp [gateView]
    · rw [if_neg hb, if_neg hb]
      split
      · exact gateView_gateAdmit hg
      · exact gateView_gateAdmit hg
  · simp only [ho, false_and, if_false]
    have hs : (k1.setGates g (k1.gates g ||| 1#32 <<< gateShift g)).gateView g =
        { k1.gateView g with signaled := true } := by
      rw [gateView_signalGate (by decide)]
      simp [gateView]
    rw [← hs]
    split
    · exact gateView_gateAdmit hg
    · exact gateView_gateAdmit hg

/-- The calls on gate `g` do to it what they do to a gate on its own, except that an exit has to
find its own signaled bit where it looks for it. -/
theorem gateView_svcIsr_iff (hs : self < 32) (hi : k.gateIdx wq = some g) (op : GateOp) :
    (k.svcIsr self (op.call wq)).gateView g = (k.gateView g).step self op ↔ k.OwnBits g op := by
  obtain ⟨hwq, hg, -⟩ := gateIdx_eq_some hi
  cases op with
  | gateWait =>
    refine iff_of_true ?_ fun h => by cases h
    show (k.gateWaitSvc self wq).gateView g = _
    unfold gateWaitSvc
    rw [hi]
    simp only [hwq]
    exact gateView_wait hs hg
  | gateTimedwait ms =>
    refine iff_of_true ?_ fun h => by cases h
    show (k.gateTimedwaitSvc self wq ms).gateView g =
      if k.gateSignaled g = true ∧ k.gateLocked g = true then _ else _
    unfold gateTimedwaitSvc
    rw [hi]
    simp only [hwq, gateState_eq_three_iff]
    by_cases h3 : k.gateSignaled g = true ∧ k.gateLocked g = true
    · rw [if_pos h3, if_pos h3]
      rfl
    · rw [if_neg h3, if_neg h3]
      exact gateView_wait hs hg
  | gateOpen =>
    refine iff_of_true ?_ fun h => by cases h
    show (k.gateOpenSvc self wq).gateView g = _
    unfold gateOpenSvc
    rw [hi]
    simp only [hwq]
    exact gateView_gateOpenI (k.arg0 self 0) self hg
  | gateClose =>
    refine iff_of_true ?_ fun h => by cases h
    show (k.gateCloseSvc self wq).gateView g = _
    unfold gateCloseSvc
    rw [hi]
    refine Gate.mk.injEq .. ▸ ⟨?_, ?_, rfl⟩
    · show (k.gate.wr (g * 2) false).rd (g * 2) = false
      rw [Bitmap.rd_wr, if_pos rfl]
    · show (k.gate.wr (g * 2) false).rd (g * 2 + 1) = k.gateLocked g
      rw [Bitmap.rd_wr, if_neg (by omega)]
      rfl
  | gateExit opn =>
    show (k.gateExitSvc self wq opn).gateView g = _ ↔ _
    cases hl : k.gateLocked g with
    | false =>
      refine iff_of_true ?_ fun _ h => by rw [hl] at h; cases h
      have hlv : (k.gateView g).locked = false := hl
      unfold gateExitSvc
      rw [hi]
      simp only [Gate.step, hlv, if_true, show k.gate.rd (g * 2 + 1) = false from hl]
      rfl
    | true =>
      have hlv : (k.gateView g).locked = true := hl
      rw [gateView_gateExitSvc self opn hi hl]
      by_cases ho : opn = 0
      · subst ho
        rw [if_pos rfl, Gate.exitBy_eq_step_iff hlv]
        exact ⟨fun h _ _ => h, fun h => h rfl hl⟩
      · refine iff_of_true ?_ fun h => absurd (GateOp.gateExit.inj h) ho
        rw [if_neg ho, Gate.step, if_neg (by rw [hlv]; decide), if_neg fun h => ho h.1]

/-! ### What the caller gets -/

omit [Config] in
theorem reply_arg0 (v : Word) (h : k.q.thStat self = 0) : (k.arg0 self v).reply self = some v := by
  have hs : (k.arg0 self v).stack self (k.arg0 self v).psp = { k.stack self k.psp with r0 := v } :=
    storeFrame_self ..
  have h' : (k.arg0 self v).q.thStat self = 0 := h
  unfold reply
  rw [if_pos h', hs]

omit [Config] in
/-- Waking a thread with result 0 does not spoil a result 0. -/
theorem reply_wakeup (h : k.reply self = some 0) (wq th : Nat) :
    (k.wakeup wq th).reply self = some 0 := by
  unfold reply at h ⊢
  obtain ⟨h0, h⟩ := Option.ite_none_right_eq_some.mp h
  have hst : (k.wakeup wq th).q.thStat self = 0 := by
    show (k.q.wakeup wq th).thStat self = 0
    rw [thStat_wakeup]
    split
    · rfl
    · exact h0
  rw [if_pos hst, ← h]
  congr 1
  show (storeFrame k.stack th ((k.ctx th).getD 0) _ self k.psp).r0 = _
  by_cases he : self ≠ th ∨ k.psp ≠ (k.ctx th).getD 0
  · rw [storeFrame_of_ne he]
  · obtain ⟨rfl, hp⟩ : self = th ∧ k.psp = (k.ctx th).getD 0 := by omega
    rw [← hp, storeFrame_self]
    exact (Option.some.inj h).symm

omit [Config] in
theorem reply_gateAdmit (h : k.reply self = some 0) (wq : Nat) :
    (k.gateAdmit g wq).reply self = some 0 := by
  simp only [gateAdmit]
  split
  · exact h
  · exact reply_wakeup (k := k.setGates g _) h _ _

theorem reply_gateOpenI (h : k.reply self = some 0) {wq : Nat} :
    (k.gateOpenI wq).reply self = some 0 := by
  simp only [gateOpenI]
  split
  · exact h
  · exact reply_gateAdmit (k := k.setGates _ _) h _

theorem reply_wait (hs : self < 32) (h0 : k.q.thStat self = 0) (hg : g < gateMax)
    (ms : Option Word) : (if k.gateState g = 1 then (k.gateEnter g).arg0 self 0
      else k.waitBlock self (gateBase + g) true ms).reply self =
        if k.gateSignaled g = true ∧ k.gateLocked g = false then some 0 else none := by
  by_cases h : k.gateState g = 1
  · rw [if_pos h, if_pos ((gateState_eq_one_iff k g).mp h)]
    exact reply_arg0 _ h0
  · have ho := isObj_gate hg
    unfold Queues.IsObj mutexBase at ho
    rw [if_neg h, if_neg fun h' => h ((gateState_eq_one_iff k g).mpr h')]
    unfold reply
    rw [k.waitBlock_q self (gateBase + g) true ms hs (by unfold wqClock; omega),
      thStat_suspend, thStat_enqueue, if_pos rfl, if_neg (by omega)]

theorem reply_svcIsr (hs : self < 32) (h0 : k.q.thStat self = 0) (hi : k.gateIdx wq = some g)
    (op : GateOp) : (k.svcIsr self (op.call wq)).reply self = (k.gateView g).reply op := by
  obtain ⟨hwq, hg, -⟩ := gateIdx_eq_some hi
  have hr := reply_arg0 0 h0
  cases op with
  | gateWait =>
    show (k.gateWaitSvc self wq).reply self = _
    unfold gateWaitSvc
    rw [hi]
    simp only [hwq]
    exact reply_wait hs h0 hg none
  | gateTimedwait ms =>
    show (k.gateTimedwaitSvc self wq ms).reply self = if k.gateSignaled g = true then _ else _
    unfold gateTimedwaitSvc
    rw [hi]
    simp only [hwq, gateState_eq_three_iff]
    by_cases h3 : k.gateSignaled g = true ∧ k.gateLocked g = true
    · rw [if_pos h3, if_pos h3.1]
      exact hr
    · rw [if_neg h3, reply_wait hs h0 hg (some ms)]
      cases hl : k.gateLocked g with
      | false => simp
      | true =>
        rw [hl] at h3
        rw [if_neg (fun h => by cases h.2), if_neg fun h => h3 ⟨h, rfl⟩]
  | gateOpen =>
    show (k.gateOpenSvc self wq).reply self = _
    unfold gateOpenSvc
    rw [hi]
    exact reply_gateOpenI hr
  | gateClose =>
    show (k.gateCloseSvc self wq).reply self = _
    unfold gateCloseSvc
    rw [hi]
    exact hr
  | gateExit opn =>
    show (k.gateExitSvc self wq opn).reply self = some (if k.gateLocked g = true then 0 else EPERM)
    unfold gateExitSvc
    rw [hi]
    cases hl : k.gateLocked g with
    | false =>
      simp only [show k.gate.rd (g * 2 + 1) = false from hl, if_true]
      exact reply_arg0 EPERM h0
    | true =>
      simp only [show k.gate.rd (g * 2 + 1) = true from hl, Bool.true_eq_false, if_false, if_true]
      generalize k.arg0 self 0 = k1 at hr
      split
      · exact hr
      · generalize hk : (if opn = 0 then k1 else _) = k2
        have hr2 : k2.reply self = some 0 := by
          subst hk
          split
          · exact hr
          · exact hr
        split
        · exact reply_gateAdmit hr2 _
        · exact reply_gateAdmit hr2 _

/-! ### The other gates -/

theorem gateView_other (hs : self < 32) (hi : k.gateIdx wq = some g) {op : GateOp} {h : Nat}
    (hh : h < gateMax) (hne : h ≠ g) : (k.svcIsr self (op.call wq)).gateView h = k.gateView h := by
  obtain ⟨hwq, -, -⟩ := gateIdx_eq_some hi
  have hsv := svcIsr_served k self (op.call wq) hs (by cases op <;> rfl)
  refine hsv.within.gateView hh ?_
  have hr : (op.call wq).reach = fun w => w = wq.toNat ∧ ObjType.gate.Range w := by cases op <;> rfl
  rw [hr, hwq]
  rintro ⟨he, -⟩
  omega

end

end Kernel

end

end ThinkOS
