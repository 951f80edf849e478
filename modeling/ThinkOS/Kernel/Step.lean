import ThinkOS.Kernel.Core

/-!
# What one step of the kernel does

Inversion lemmas for the kernel's steps, so that the invariants need not open the
dispatcher: the object services are `Served` (`svcIsr_served`), those that never suspend
their caller `Raised` (`svcIsr_raised`), an interrupt handler's object call is `Raised`
(`irqIsr_raised`), a tick wakes threads of the clock queue one by one
(`tickLoop_invariant`) and then charges the active one (`timeshare_q`), and exception
entry and exit touch frames only.
-/

namespace ThinkOS

variable {th : Nat} {c : Call}

open Lib

/-- The calls on mutexes, condition variables, semaphores, event sets, flags and gates, and the
calls that only wait for the clock or read a value. -/
def Call.onObject : Call → Bool
  | .threadCreate _ | .irqWait _ | .join _ | .pause _ | .resume _ | .cancel _ _ | .exit _
  | .terminate _ _ | .ctlAbort | .criticalEnter | .criticalExit => false
  | _ => true

/-- The calls on objects that may suspend their caller. -/
def Call.blocking : Call → Bool
  | .alarm _ | .sleep _ | .mutexLock _ | .mutexTimedlock _ _ | .condWait _ _ | .condTimedwait _ _ _
  | .semWait _ | .semTimedwait _ _ | .evWait _ | .evTimedwait _ _ | .flagWatch _
  | .flagTimedwatch _ _ | .flagTake _ | .flagTimedtake _ _ | .gateWait _ | .gateTimedwait _ _ => true
  | _ => false

/-! ## Services -/

section
variable [Config]

/-- The objects a call on objects reaches, by queue number. An allocation may reset any object of
its type. -/
def Call.reach : Call → Nat → Prop
  | .mutexAlloc => ObjType.mutex.Range
  | .semAlloc _ => ObjType.semaphore.Range
  | .gateAlloc => ObjType.gate.Range
  | .mutexFree wq | .mutexLock wq | .mutexTrylock wq | .mutexTimedlock wq _ | .mutexUnlock wq =>
    fun w => w = wq.toNat ∧ ObjType.mutex.Range w
  | .condWait cwq mwq | .condTimedwait cwq mwq _ =>
    fun w => (w = cwq.toNat ∧ ObjType.cond.Range w) ∨ (w = mwq.toNat ∧ ObjType.mutex.Range w)
  | .condSignal wq | .condBroadcast wq => fun w => w = wq.toNat ∧ ObjType.cond.Range w
  | .semFree wq | .semInit wq _ | .semWait wq | .semTrywait wq | .semTimedwait wq _ | .semPost wq =>
    fun w => w = wq.toNat ∧ ObjType.semaphore.Range w
  | .evWait wq | .evTimedwait wq _ | .evRaise wq _ | .evMask wq _ _ | .evClear wq _ =>
    fun w => w = wq.toNat ∧ ObjType.event.Range w
  | .flagSet wq | .flagWatch wq | .flagTimedwatch wq _ | .flagGive wq | .flagTake wq
  | .flagTimedtake wq _ => fun w => w = wq.toNat ∧ ObjType.flag.Range w
  | .gateFree wq | .gateOpen wq | .gateClose wq | .gateExit wq _ | .gateWait wq
  | .gateTimedwait wq _ =>
    fun w => w = wq.toNat ∧ ObjType.gate.Range w
  | _ => fun _ => False

/-- The object an interrupt handler's call reaches. -/
def IrqOp.reach : IrqOp → Nat → Prop
  | .semPost s => (· = semBase + s)
  | .evRaise e _ => (· = eventBase + e)
  | .flagGive f => (· = flagBase + f)
  | .gateOpen g => (· = gateBase + g)
  | .irq _ => fun _ => False

namespace Kernel

/-! A valid handle is the queue number of an object of its type. -/

section
variable {k : Kernel} {wq : Word} {i : Nat}

theorem reach_mutex (h : k.mutexIdx wq = some i) :
    mutexBase + i = wq.toNat ∧ ObjType.mutex.Range (mutexBase + i) := by
  obtain ⟨hw, hlt, -⟩ := mutexIdx_eq_some h
  exact ⟨hw.symm, range_mutex hlt⟩

theorem reach_cond (h : k.condIdx wq = some i) :
    condBase + i = wq.toNat ∧ ObjType.cond.Range (condBase + i) := by
  obtain ⟨hw, hlt, -⟩ := condIdx_eq_some h
  exact ⟨hw.symm, range_cond hlt⟩

theorem reach_sem (h : k.semIdx wq = some i) :
    semBase + i = wq.toNat ∧ ObjType.semaphore.Range (semBase + i) := by
  obtain ⟨hw, hlt, -⟩ := semIdx_eq_some h
  exact ⟨hw.symm, range_sem hlt⟩

theorem reach_event (h : k.evIdx wq = some i) :
    eventBase + i = wq.toNat ∧ ObjType.event.Range (eventBase + i) := by
  obtain ⟨hw, hlt, -⟩ := evIdx_eq_some h
  exact ⟨hw.symm, range_event hlt⟩

theorem reach_flag (h : k.flagIdx wq = some i) :
    flagBase + i = wq.toNat ∧ ObjType.flag.Range (flagBase + i) := by
  obtain ⟨hw, hlt, -⟩ := flagIdx_eq_some h
  exact ⟨hw.symm, range_flag hlt⟩

theorem reach_gate (h : k.gateIdx wq = some i) :
    gateBase + i = wq.toNat ∧ ObjType.gate.Range (gateBase + i) := by
  obtain ⟨hw, hlt, -⟩ := gateIdx_eq_some h
  exact ⟨hw.symm, range_gate hlt⟩

end

theorem svcIsr_raised (k : Kernel) (self : Nat) (hc : c.onObject = true) (hb : c.blocking = false) :
    Raised c.reach self k (k.svcIsr self c) := by
  cases c with
  | threadCreate | irqWait | join | pause | resume | cancel | exit | terminate | ctlAbort
  | criticalEnter | criticalExit => cases hc
  | alarm | sleep | mutexLock | mutexTimedlock | condWait | condTimedwait | semWait | semTimedwait
  | evWait | evTimedwait | flagWatch | flagTimedwatch | flagTake | flagTimedtake | gateWait
  | gateTimedwait => cases hb
  | threadSelf => exact raised_arg0
  | clock => exact raised_arg0
  | mutexAlloc => exact mutexAllocSvc_raised fun _ => range_mutex
  | mutexFree => exact mutexFreeSvc_raised fun _ hlt hw => ⟨hw.symm, range_mutex hlt⟩
  | mutexTrylock => exact mutexTrylockSvc_raised fun _ => reach_mutex
  | mutexUnlock => exact mutexUnlockSvc_raised fun _ => reach_mutex
  | condAlloc => exact condAllocSvc_raised
  | condFree => exact condFreeSvc_raised
  | condSignal => exact condSignalSvc_raised fun _ => reach_cond
  | condBroadcast => exact condBroadcastSvc_raised fun _ => reach_cond
  | semAlloc => exact semAllocSvc_raised fun _ => range_sem
  | semFree => exact semFreeSvc_raised fun _ hlt hw => ⟨hw.symm, range_sem hlt⟩
  | semInit => exact semInitSvc_raised fun _ => reach_sem
  | semTrywait => exact semTrywaitSvc_raised fun _ => reach_sem
  | semPost => exact semPostSvc_raised fun _ => reach_sem
  | evAlloc => exact evAllocSvc_raised
  | evFree => exact evFreeSvc_raised
  | evRaise => exact evRaiseSvc_raised fun _ => reach_event
  | evMask => exact evMaskSvc_raised fun _ => reach_event
  | evClear => exact evClearSvc_raised
  | flagAlloc => exact flagAllocSvc_raised
  | flagFree => exact flagFreeSvc_raised
  | flagVal => exact flagValSvc_raised
  | flagSet => exact flagSetSvc_raised fun _ => reach_flag
  | flagClr => exact flagClrSvc_raised
  | flagGive => exact flagGiveSvc_raised fun _ => reach_flag
  | gateAlloc => exact gateAllocSvc_raised fun _ => range_gate
  | gateFree => exact gateFreeSvc_raised fun _ hlt hw => ⟨hw.symm, range_gate hlt⟩
  | gateOpen => exact gateOpenSvc_raised fun _ => reach_gate
  | gateClose => exact gateCloseSvc_raised fun _ => reach_gate
  | gateExit => exact gateExitSvc_raised fun _ => reach_gate

theorem svcIsr_served (k : Kernel) (self : Nat) (c : Call) (hs : self < 32)
    (hc : c.onObject = true) : Served c.reach self k (k.svcIsr self c) := by
  by_cases hb : c.blocking = true
  · cases c with
    | alarm => exact alarmSvc_served hs
    | sleep => exact sleepSvc_served hs
    | mutexLock => exact mutexLockSvc_served hs fun _ => reach_mutex
    | mutexTimedlock => exact mutexTimedlockSvc_served hs fun _ => reach_mutex
    | condWait cwq mwq =>
      refine condWaitSvc_served hs (fun c h => ?_) fun m h => ?_
      · exact .inl (reach_cond h)
      · exact .inr (reach_mutex h)
    | condTimedwait cwq mwq ms =>
      refine condTimedwaitSvc_served hs (fun c h => ?_) fun m h => ?_
      · exact .inl (reach_cond h)
      · exact .inr (reach_mutex h)
    | semWait => exact semWait_served hs fun _ => reach_sem
    | semTimedwait => exact semWait_served hs fun _ => reach_sem
    | evWait => exact evWait_served none hs fun _ => reach_event
    | evTimedwait => exact evWait_served (some _) hs fun _ => reach_event
    | flagWatch => exact flagWatchSvc_served hs fun _ => reach_flag
    | flagTimedwatch => exact flagTimedwatchSvc_served hs fun _ => reach_flag
    | flagTake => exact flagTake_served hs fun _ => reach_flag
    | flagTimedtake => exact flagTake_served hs fun _ => reach_flag
    | gateWait => exact gateWaitSvc_served hs fun _ => reach_gate
    | gateTimedwait => exact gateTimedwaitSvc_served hs fun _ => reach_gate
    | _ => cases hb
  · exact (svcIsr_raised k self hc (by simpa using hb)).served

/-- The interrupt handlers that call an object service; no thread's own frame is written. -/
theorem irqIsr_raised (k : Kernel) (op : IrqOp) (self : Nat) (hv : op.Valid k)
    (hn : ∀ n, op ≠ .irq n) : Raised op.reach self k (k.irqIsr op) := by
  cases op with
  | semPost s => exact .trans (semPostI_raised hv rfl) raised_preempt
  | evRaise e ev => exact .trans (evRaiseI_raised _ _ _ _ (isObj_event hv.1) rfl) raised_preempt
  | flagGive f => exact .trans (flagGiveI_raised _ _ _ (isObj_flag hv) rfl) raised_preempt
  | gateOpen g => exact .trans (gateOpenI_raised hv rfl) raised_preempt
  | irq n => exact absurd rfl (hn n)

end Kernel

end

/-! ## The clock interrupt -/

namespace Queues

theorem mem_timeWakeup {q : Queues} {w t : Nat} (hth : th < 32) (ht : t < 32) :
    (q.timeWakeup th).mem w t =
      if t = th then
        decide (w = wqReady) || (q.mem w t && decide (w ≠ q.thStat th / 2 ∧ w ≠ wqClock))
      else q.mem w t := by
  unfold timeWakeup
  simp only [mem_bitWr hth ht, mem_setStat]
  by_cases he : t = th
  · subst he
    by_cases h0 : w = wqReady
    · simp [h0]
    · by_cases h1 : w = wqClock
      · simp [h1]
      · by_cases h2 : w = q.thStat t / 2 <;> simp [h0, h1, h2]
  · simp [he]

theorem thStat_timeWakeup {q : Queues} {t : Nat} :
    (q.timeWakeup th).thStat t = if t = th then 0 else q.thStat t := by
  simp [timeWakeup]

end Queues

namespace Kernel

theorem timeWakeup_eq {k : Kernel} :
    k.timeWakeup th = { k with q := k.q.timeWakeup th, pendsv := (k.timeWakeup th).pendsv } := by
  unfold timeWakeup preempt
  split <;> rfl

@[simp] theorem q_timeWakeup {k : Kernel} : (k.timeWakeup th).q = k.q.timeWakeup th := by
  rw [timeWakeup_eq]

theorem tickLoop_eq : ∀ (fuel : Nat) (wq : Word) (k : Kernel), tickLoop fuel wq k =
      { k with q := (tickLoop fuel wq k).q, pendsv := (tickLoop fuel wq k).pendsv } := by
  intro fuel
  induction fuel with
  | zero => exact fun _ _ => rfl
  | succ fuel ih =>
    intro wq k
    simp only [tickLoop]
    split
    · split
      · rw [ih, timeWakeup_eq]
      · exact ih _ _
    · rfl

/-- What each wake-up of an expired thread keeps, the loop keeps. The snapshot stays valid: a
bit not yet visited is still in the clock queue. -/
theorem tickLoop_invariant {I : Kernel → Prop}
    (hI : ∀ k j, j < 32 → I k → k.q.mem wqClock j = true → (k.clock j - k.ticks).toInt ≤ 0 →
      I (k.timeWakeup j)) : ∀ (fuel : Nat) (wq : Word) (k : Kernel),
      (∀ j, j < 32 → wq.getLsbD j = true → k.q.mem wqClock j = true) → I k →
      I (tickLoop fuel wq k) := by
  intro fuel
  induction fuel with
  | zero => exact fun _ _ _ h => h
  | succ fuel ih =>
    intro wq k hwq h
    simp only [tickLoop]
    split
    · rename_i hlt
      have hmem := hwq _ hlt (getLsbD_lowBit hlt)
      have hrest : ∀ j, j < 32 → (wq &&& ~~~(1#32 <<< lowBit wq)).getLsbD j = true →
          j ≠ lowBit wq ∧ k.q.mem wqClock j = true := by
        intro j hj hb
        rw [BitVec.getLsbD_and, BitVec.getLsbD_not, getLsbD_one_shiftLeft] at hb
        simp only [Bool.and_eq_true, hj, decide_true, Bool.true_and, Bool.and_true,
          Bool.not_eq_true', decide_eq_false_iff_not] at hb
        exact ⟨hb.2, hwq j hj hb.1⟩
      split
      · refine ih _ _ (fun j hj hb => ?_) (hI k _ hlt h hmem ‹_›)
        obtain ⟨hne, hm⟩ := hrest j hj hb
        rw [q_timeWakeup, Queues.mem_timeWakeup hlt hj, if_neg hne]
        exact hm
      · exact ih _ _ (fun j hj hb => (hrest j hj hb).2) h
    · exact h

section
variable [Config]

theorem setSchedVal_eq (k : Kernel) (idx : Nat) (v : BitVec 8) : k.setSchedVal idx v = { k with
      schedVal := (k.setSchedVal idx v).schedVal, schedPri := (k.setSchedVal idx v).schedPri } := by
  unfold setSchedVal
  split <;> rfl

theorem timeshare_eq (k : Kernel) : k.timeshare = { k with
      q := k.timeshare.q, schedVal := k.timeshare.schedVal, schedPri := k.timeshare.schedPri,
      pendsv := k.timeshare.pendsv } := by
  simp only [timeshare]
  rw [setSchedVal_eq, setSchedVal_eq k k.active k.sliceVal]
  split
  · split
    · rfl
    · unfold preempt
      split <;> rfl
  · rfl

/-- At the end of its slice a ready thread moves to the time-share queue; nothing else moves. -/
theorem timeshare_q (k : Kernel) : (k.timeshare.q = k.q ∧ k.timeshare.pendsv = k.pendsv) ∨
      (k.sliceVal.toInt < 0 ∧ k.q.mem wqReady k.active = true ∧
        k.timeshare.q = (k.q.bitWr wqTmshare k.active true).suspend k.active ∧
        (k.criticalCnt = 0 → k.timeshare.pendsv = true)) := by
  simp only [timeshare]
  rw [setSchedVal_eq, setSchedVal_eq k k.active k.sliceVal]
  by_cases hv : k.sliceVal.toInt < 0
  · rw [if_pos hv]
    by_cases hm : k.q.mem wqReady k.active = false
    · rw [if_pos hm]
      exact .inl ⟨rfl, rfl⟩
    · rw [if_neg hm]
      refine .inr ⟨hv, by simpa using hm, q_preempt _, fun hc => ?_⟩
      unfold preempt
      rw [if_pos hc]
      rfl
  · rw [if_neg hv]
    exact .inl ⟨rfl, rfl⟩

theorem systick_eq {k : Kernel} : k.systick = { k with
      ticks := k.ticks + 1, q := k.systick.q, schedVal := k.systick.schedVal,
      schedPri := k.systick.schedPri, pendsv := k.systick.pendsv } := by
  simp only [systick]
  rw [timeshare_eq, tickLoop_eq]

end

/-! ## Exception entry and exit -/

section
variable [Config] {k k' : Kernel} {sp : Nat} {op : IrqOp}

omit [Config] in
/-- Entry stacks a frame in the active thread's stack and changes nothing else. -/
theorem excEnter_eq (k : Kernel) (sp : Nat) :
    k.excEnter sp = { k with psp := (k.excEnter sp).psp, stack := (k.excEnter sp).stack } := by
  unfold excEnter
  split <;> rfl

omit [Config] in
theorem excLeave_eq : k.excLeave = { k with reg := k.excLeave.reg } := by
  unfold excLeave
  split <;> rfl

omit [Config] in
@[simp] theorem q_excEnter (k : Kernel) (sp : Nat) : (k.excEnter sp).q = k.q := by
  rw [excEnter_eq]

omit [Config] in
@[simp] theorem q_excLeave : k.excLeave.q = k.q := by
  rw [excLeave_eq]

theorem valid_excEnter (sp : Nat) (hv : op.Valid k) : op.Valid (k.excEnter sp) := by
  rw [excEnter_eq]
  cases op <;> exact hv

/-- The state a system call's handler starts from. -/
def svcEntry (k : Kernel) (sp : Nat) (c : Call) : Kernel :=
  { k with psp := sp, stack := storeFrame k.stack k.active sp { r0 := c.r0, pc := k.reg.pc } }

theorem svc_eq : k.svc sp c = ((k.svcEntry sp c).svcIsr k.active c).excLeave := rfl

/-! ## The frame a thread resumes with -/

/-- The saved frame of a thread, while a handler runs. -/
def frame (k : Kernel) (t : Nat) : Frame :=
  if t = k.active then k.stack t k.psp else k.stack t ((k.ctx t).getD 0)

/-- The frame a thread resumes with, between two handlers: the active thread runs already, unless
the scheduler is due. -/
def resumeFrame (k : Kernel) (t : Nat) : Frame :=
  if t = k.active ∧ k.pendsv = false then k.reg else k.frame t

omit [Config] in
theorem resumeFrame_excLeave : k.excLeave.resumeFrame = k.frame := by
  funext t
  unfold resumeFrame excLeave
  cases hp : k.pendsv with
  | true => simp [hp, frame]
  | false =>
    simp only [Bool.false_eq_true, if_false, and_true]
    unfold frame
    by_cases ht : t = k.active
    · rw [if_pos ht, if_pos ht, ht]
    · rw [if_neg ht, if_neg ht]

omit [Config] in
theorem frame_excEnter : (k.excEnter sp).frame = k.resumeFrame := by
  funext t
  unfold resumeFrame excEnter
  cases hp : k.pendsv with
  | true => simp
  | false =>
    simp only [Bool.false_eq_true, if_false, and_true]
    unfold frame
    by_cases ht : t = k.active
    · subst ht
      simp [storeFrame_self]
    · simp only [ht, if_false]
      rw [storeFrame_of_ne (.inl ht)]

omit [Config] in
/-- A system call enters with its first argument in the result register. -/
theorem frame_svcEntry {t : Nat} : (k.svcEntry sp c).frame t =
      if t = k.active then { r0 := c.r0, pc := k.reg.pc } else k.resumeFrame t := by
  unfold resumeFrame frame svcEntry
  by_cases ht : t = k.active
  · subst ht
    simp [storeFrame_self]
  · simp only [ht, if_false, false_and]
    rw [storeFrame_of_ne (.inl ht)]

omit [Config] in
/-- Exchange of contexts: every thread resumes with the frame it had, the new one at once. -/
theorem resumeFrame_pendsvIsr : k.pendsvIsr.resumeFrame = k.frame := by
  funext t
  unfold resumeFrame frame pendsvIsr
  simp only
  generalize lowBit (k.q.wqLst wqReady) = new
  by_cases ha : t = k.active
  · subst ha
    by_cases hn : k.active = new
    · subst hn
      simp
    · simp [hn]
  · by_cases hn : t = new
    · subst hn
      simp [ha]
    · simp [hn, ha]

/-! ## The four events -/

theorem step_svc (h : kernel.step k (.svc sp c) = some k') :
    k.fault = false ∧ k.MayCall c ∧ k' = k.svc sp c := by
  obtain ⟨⟨hf, hv⟩, ⟨⟩⟩ := Option.ite_none_right_eq_some.mp h
  exact ⟨hf, hv, rfl⟩

theorem step_tick (h : kernel.step k (.tick sp) = some k') :
    k.fault = false ∧ k' = ((k.excEnter sp).systick).excLeave := by
  obtain ⟨hf, ⟨⟩⟩ := Option.ite_none_right_eq_some.mp h
  exact ⟨hf, rfl⟩

theorem step_irq (h : kernel.step k (.irq sp op) = some k') :
    k.fault = false ∧ op.Valid k ∧ k' = ((k.excEnter sp).irqIsr op).excLeave := by
  obtain ⟨⟨hf, hv⟩, ⟨⟩⟩ := Option.ite_none_right_eq_some.mp h
  exact ⟨hf, hv, rfl⟩

theorem step_sched (h : kernel.step k (.sched sp) = some k') :
    k.fault = false ∧ k' = (k.excEnter sp).pendsvIsr := by
  obtain ⟨hf, ⟨⟩⟩ := Option.ite_none_right_eq_some.mp h
  exact ⟨hf, rfl⟩

end

end Kernel

end ThinkOS
