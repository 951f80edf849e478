import ThinkOS.Sync.Gate

/-!
# No thread waits at an open gate

The invariant of the gates over whole runs. Threads enter a gate's queue in three places,
the two waits and the resume of a paused waiter, and all three look at the gate first; the
gate becomes open in three places, `gate_open` and the two ends of `gate_exit`, and only the
exit does so without looking at its own bits.
-/

namespace ThinkOS

open Lib Queues Bitmap List

section
variable [Config] {th g self w : Nat} {c : Call} {wq : Word}

/-! ## Calls that bring nobody to a gate -/

namespace Queues

/-- No thread is new in the queue of a gate. -/
def GateSub (q' q : Queues) : Prop :=
  ∀ w t, ObjType.gate.Range w → t < 32 → q'.mem w t = true → q.mem w t = true

theorem gate_bounds (h : ObjType.gate.Range w) :
    wqClock < w ∧ w < joinBase ∧ w < wqPaused ∧ IsObj w := by
  obtain ⟨b1, b2, b3, b4, b5, b6, b7⟩ := wq_bases
  have b0 : wqClock < mutexBase := by decide
  unfold ObjType.Range at h
  unfold IsObj
  omega

section
variable {q q1 q2 : Queues}

theorem GateSub.refl (q : Queues) : q.GateSub q := fun _ _ _ _ h => h

theorem GateSub.trans (h : q2.GateSub q1) (h' : q1.GateSub q) : q2.GateSub q :=
  fun w t hw ht hm => h' w t hw ht (h w t hw ht hm)

theorem GateSub.clear (q : Queues) (w : Nat) (hth : th < 32) : (q.bitWr w th false).GateSub q := by
  intro v t _ ht hm
  rw [mem_bitWr hth ht] at hm
  split at hm
  · cases hm
  · exact hm

theorem GateSub.bitWr (q : Queues) (hw : w ≤ wqClock ∨ joinBase ≤ w) (hth : th < 32) (v : Bool) :
    (q.bitWr w th v).GateSub q := by
  intro u t hu ht hm
  have hb := gate_bounds hu
  rw [mem_bitWr hth ht, if_neg (by omega)] at hm
  exact hm

theorem GateSub.setStat (q : Queues) (th s : Nat) : (q.setStat th s).GateSub q :=
  fun _ _ _ _ h => h

theorem GateSub.suspend (q : Queues) (th : Nat) : (q.suspend th).GateSub q := by
  intro w t hw ht hm
  have hb := gate_bounds hw
  have hc := ready_lt_clock
  rwa [mem_suspend_of_ne ht (by omega) (by omega)] at hm

theorem GateSub.wqInsert (q : Queues) (hw : joinBase ≤ w) (hth : th < 32) :
    (q.wqInsert w th).GateSub q :=
  (GateSub.setStat _ _ _).trans (.bitWr q (.inr hw) hth true)

theorem joinBase_le : joinBase ≤ wqPaused ∧ joinBase ≤ wqCanceled := by
  unfold wqCanceled wqPaused
  omega

theorem GateSub.threadPause (q : Queues) (hth : th < 32) : (q.threadPause th).GateSub q := by
  unfold Queues.threadPause
  split
  · exact .refl q
  · exact (((GateSub.clear _ _ hth).trans (.clear _ _ hth)).trans (.clear _ _ hth)).trans
      (.bitWr q (.inr joinBase_le.1) hth true)

theorem GateSub.timeWakeup (q : Queues) (hth : th < 32) : (q.timeWakeup th).GateSub q := by
  have hc := ready_lt_clock
  exact (((GateSub.bitWr _ (.inl (by omega)) hth true).trans (.clear _ _ hth)).trans
    (.clear _ _ hth)).trans (.setStat q th 0)

end

end Queues

/-! ## The invariant -/

namespace Kernel

variable {k : Kernel}

def GatesOk (k : Kernel) : Prop := ∀ g, g < gateMax → (k.gateView g).Ok

/-- When a step's `gate_exit` goes by the bits of its own gate. -/
def OwnExit (k : Kernel) : Event → Prop
  | .svc _ (.gateExit wq opn) =>
    ∀ g, g < gateMax → k.gateIdx wq = some g → k.OwnBits g (.gateExit opn)
  | _ => True

instance (k : Kernel) : (e : Event) → Decidable (k.OwnExit e)
  | .svc sp c => by
    apply Call.casesOn (motive := fun c => Decidable (k.OwnExit (.svc sp c))) c <;> intros <;>
      (dsimp only [OwnExit]; infer_instance)
  | .tick _ | .irq _ _ | .sched _ => inferInstanceAs (Decidable True)

section
variable {k k' : Kernel}

theorem gateView_ok_iff : (k.gateView g).Ok ↔ (k.gateSignaled g = true → k.gateLocked g = false →
      ∀ t, t < 32 → k.q.mem (gateBase + g) t = false) := by
  refine ⟨fun h hs hl t ht => ?_, fun h hs hl => ?_⟩
  · have hw : k.q.wqLst (gateBase + g) = 0 := h hs hl
    rw [mem_eq_getLsbD _ _ _ ht, hw]
    simp
  · exact word_ext fun t ht => by rw [h hs hl t ht]; simp

section
variable (h : k.GatesOk)
include h

theorem GatesOk.mono (hg : k'.gate = k.gate) (hq : k'.q.GateSub k.q) : k'.GatesOk := by
  intro g hlt
  refine gateView_ok_iff.mpr fun hs hl t ht => ?_
  unfold gateSignaled at hs
  unfold gateLocked at hl
  rw [hg] at hs hl
  have hm := gateView_ok_iff.mp (h g hlt) hs hl t ht
  cases hm' : k'.q.mem (gateBase + g) t with
  | false => rfl
  | true => rw [hq _ t (range_gate hlt) ht hm'] at hm; cases hm

theorem GatesOk.within {S : Nat → Prop} (hw : Within S self k k')
    (hn : ∀ w, ObjType.gate.Range w → ¬ S w) : k'.GatesOk := by
  intro g hg
  rw [hw.gateView hg (hn _ (range_gate hg))]
  exact h g hg

/-! ### Calls on objects -/

omit h in
theorem reach_gate_cases (hg : g < gateMax) (hr : c.reach (gateBase + g)) :
    c = .gateAlloc ∨ (∃ wq, c = .gateFree wq) ∨
      ∃ (op : GateOp) (wq : Word), c = op.call wq ∧ wq.toNat = gateBase + g := by
  have hrange := range_gate hg
  generalize gateBase + g = w at hr hrange
  cases c with
  | gateAlloc => exact .inl rfl
  | gateFree wq => exact .inr (.inl ⟨wq, rfl⟩)
  | gateWait wq => exact .inr (.inr ⟨.gateWait, wq, rfl, hr.1.symm⟩)
  | gateTimedwait wq ms => exact .inr (.inr ⟨.gateTimedwait ms, wq, rfl, hr.1.symm⟩)
  | gateOpen wq => exact .inr (.inr ⟨.gateOpen, wq, rfl, hr.1.symm⟩)
  | gateClose wq => exact .inr (.inr ⟨.gateClose, wq, rfl, hr.1.symm⟩)
  | gateExit wq opn => exact .inr (.inr ⟨.gateExit opn, wq, rfl, hr.1.symm⟩)
  -- the other calls reach objects of another type
  | mutexAlloc => cases ObjType.Range.unique (t := .mutex) hr hrange
  | semAlloc => cases ObjType.Range.unique (t := .semaphore) hr hrange
  | condWait | condTimedwait => rcases hr with h | h <;> cases h.2.unique hrange
  | mutexFree | mutexLock | mutexTrylock | mutexTimedlock | mutexUnlock | condSignal
  | condBroadcast | semFree | semInit | semWait | semTrywait | semTimedwait | semPost | evWait
  | evTimedwait | evRaise | evMask | evClear | flagSet | flagWatch | flagTimedwatch | flagGive
  | flagTake | flagTimedtake => cases hr.2.unique hrange
  | _ => exact absurd hr id

omit h in
/-- A new gate is closed, and no bit of the others changes. -/
theorem gateView_gateAllocSvc : ((k.gateAllocSvc self).gateView g = k.gateView g) ∨
      (k.gateAllocSvc self).gateSignaled g = false := by
  unfold gateAllocSvc
  split
  · rename_i idx _
    by_cases he : g = idx
    · subst he
      refine .inr ?_
      show ((k.gate.wr (g * 2) false).wr (g * 2 + 1) false).rd (g * 2) = false
      rw [rd_wr, if_neg (by omega), rd_wr, if_pos rfl]
    · refine .inl (gateView_congr (fun b hb => ?_) fun _ _ => rfl)
      show ((k.gate.wr (idx * 2) false).wr (idx * 2 + 1) false).rd (g * 2 + b) = _
      rw [rd_wrGate _ _ (by decide) hb he]
      exact rd_wrGate (c := 0) _ _ (by decide) hb he
  · exact .inl rfl

theorem GatesOk.onObject (hs : self < 32) (hc : c.onObject = true) (ho : k.OwnExit (.svc 0 c)) :
    (k.svcIsr self c).GatesOk := by
  intro g hg
  by_cases hr : c.reach (gateBase + g)
  · rcases reach_gate_cases hg hr with rfl | ⟨wq, rfl⟩ | ⟨op, wq, rfl, hwq⟩
    · show (((k.gateAllocSvc self).gateView g)).Ok
      rcases gateView_gateAllocSvc with he | he
      · rw [he]
        exact h g hg
      · refine gateView_ok_iff.mpr fun hsig => ?_
        rw [he] at hsig
        cases hsig
    · show ((k.gateFreeSvc self wq).gateView g).Ok
      simp only [gateFreeSvc]
      split
      · exact h g hg
      · exact h g hg
    · cases hi : k.gateIdx wq with
      | none =>
        have hv : (k.svcIsr self (op.call wq)).gateView g = k.gateView g := by
          cases op with
          | gateWait => show (k.gateWaitSvc self wq).gateView g = _; rw [gateWaitSvc, hi]; rfl
          | gateTimedwait ms =>
            show (k.gateTimedwaitSvc self wq ms).gateView g = _; rw [gateTimedwaitSvc, hi]; rfl
          | gateOpen => show (k.gateOpenSvc self wq).gateView g = _; rw [gateOpenSvc, hi]; rfl
          | gateClose => show (k.gateCloseSvc self wq).gateView g = _; rw [gateCloseSvc, hi]; rfl
          | gateExit opn => show (k.gateExitSvc self wq opn).gateView g = _; rw [gateExitSvc, hi]; rfl
        rw [hv]
        exact h g hg
      | some g' =>
        obtain rfl : g' = g := by
          have := (gateIdx_eq_some hi).1
          omega
        have hb : k.OwnBits g' op := by
          cases op with
          | gateExit opn => exact ho g' hg hi
          | _ => exact fun he => by cases he
        rw [(gateView_svcIsr_iff hs hi op).mpr hb]
        exact (h g' hg).step self op
  · rw [(svcIsr_served k self c hs hc).within.gateView hg hr]
    exact h g hg

/-! ### Resume -/

theorem GatesOk.resumeType (hth : th < 32) : (k.resumeType th).GatesOk := by
  have hr := resumeType_resumes k th
  intro g hg
  by_cases he : gateBase + g = k.q.thStat th / 2
  · have hrange := range_gate hg
    have ht : objType (k.q.thStat th / 2) = some .gate := objType_of_range (he ▸ hrange)
    simp only [Kernel.resumeType]
    rw [ht, ← he]
    simp only [gateResume, Nat.add_sub_cancel_left]
    split
    · refine gateView_ok_iff.mpr fun hs => ?_
      have hf : ((k.gate.wr (g * 2) false).wr (g * 2 + 1) true).rd (g * 2) = false := by
        rw [rd_wr, if_neg (by omega), rd_wr, if_pos rfl]
      have hs' : ((k.gate.wr (g * 2) false).wr (g * 2 + 1) true).rd (g * 2) = true := hs
      rw [hf] at hs'
      cases hs'
    · rename_i hn
      exact gateView_ok_iff.mpr fun hs hl => absurd ⟨hs, hl⟩ hn
  · rw [(hr.within hth).gateView hg he]
    exact h g hg

theorem GatesOk.threadResume (hth : th < 32) : (k.threadResume th).GatesOk := by
  unfold Kernel.threadResume
  split
  · exact h
  · have h1 : ({ k with q := k.q.bitWr wqPaused th false } : Kernel).GatesOk := by
      refine h.mono rfl ?_
      exact .bitWr k.q (.inr joinBase_le.1) hth false
    exact h1.resumeType hth

/-! ### The other calls -/

theorem GatesOk.pauseAll : k.pauseAll.GatesOk := by
  have hle := threadsMax_le
  have hloop : ∀ (l : List Nat) (k : Kernel), k.GatesOk → (∀ x ∈ l, x < threadsMax) →
      (l.foldl (fun k th => if k.ctx th = none then k else k.threadPause th) k).GatesOk := by
    intro l
    induction l with
    | nil => exact fun _ hk _ => hk
    | cons th l ih =>
      intro k hk hl
      have hth := hl th mem_cons_self
      refine ih _ ?_ fun x hx => hl x (mem_cons_of_mem _ hx)
      dsimp only
      split
      · exact hk
      · exact hk.mono rfl (Queues.GateSub.threadPause k.q (by omega))
  exact hloop _ k h fun x hx => mem_range.mp hx

theorem GatesOk.threadCreateSvc (self : Nat) (init : ThreadInit) :
    (k.threadCreateSvc self init).GatesOk := by
  unfold Kernel.threadCreateSvc
  split
  · exact h
  · rename_i th hsl
    have hth := (threadSlot_eq_some hsl).1
    simp only
    split
    · exact h
    · generalize hk : Kernel.threadInit _ th _ _ = k1
      have h1 : k1.GatesOk := by
        subst hk
        exact h.mono rfl (Queues.GateSub.bitWr k.q (.inr joinBase_le.1) hth true)
      split
      · exact h1
      · exact h1.threadResume hth

theorem GatesOk.terminateSvc (self : Nat) (thread code : Word) :
    (k.terminateSvc self thread code).GatesOk := by
  have hle := threadsMax_le
  simp only [Kernel.terminateSvc]
  split
  · exact h
  · rename_i hn
    obtain ⟨hth, -⟩ := target_live hn
    generalize targetId self thread = th at *
    have hx : th < 32 := by omega
    have h1 : ({ k with
        q := ((k.q.bitWr wqTmshare th false).setStat th 0).bitWr (k.q.thStat th / 2) th false } :
        Kernel).GatesOk := by
      refine h.mono rfl ?_
      exact ((Queues.GateSub.clear _ _ hx).trans (.setStat _ th 0)).trans (.clear k.q _ hx)
    have h2 : (k.threadDetach th code).GatesOk := by
      simp only [threadDetach]
      split
      · have hw := wakeAll_raised (S := (· = joinBase + th)) { k with
          q := ((k.q.bitWr wqTmshare th false).setStat th 0).bitWr (k.q.thStat th / 2) th false }
          th _ code (isObj_join hth) rfl
        refine GatesOk.mono (h1.within hw.within fun w hw he => ?_) rfl (.refl _)
        have := gate_bounds hw
        omega
      · exact h1
    exact h2.mono rfl (Queues.GateSub.suspend _ th)

theorem GatesOk.svcIsr (hs : self < threadsMax) (ho : k.OwnExit (.svc 0 c)) :
    (k.svcIsr self c).GatesOk := by
  have hc := wq_order
  have hj := joinBase_le
  have hx : self < 32 := by omega
  by_cases hob : c.onObject = true
  · exact h.onObject hx hob ho
  · cases c with
    | threadCreate init => exact h.threadCreateSvc self init
    | irqWait irq =>
      show (k.irqWaitSvc self irq).GatesOk
      unfold irqWaitSvc
      split
      · exact h
      · exact h.mono rfl (Queues.GateSub.suspend _ self)
    | join thread =>
      show (k.joinSvc self thread).GatesOk
      simp only [joinSvc]
      split
      · exact h
      · rename_i hn
        generalize (thread - 1).toNat = th at *
        refine h.mono rfl ((Queues.GateSub.suspend _ self).trans
          ((Queues.GateSub.wqInsert _ (by omega) hx).trans ?_))
        split
        · exact (Queues.GateSub.bitWr _ (.inl (by omega)) (by omega) true).trans
            (.clear k.q _ (by omega))
        · exact .refl _
    | pause thread =>
      show (k.pauseSvc self thread).GatesOk
      simp only [pauseSvc]
      split
      · exact h
      · rename_i hn
        split
        · exact h
        · exact h.mono rfl (Queues.GateSub.threadPause k.q (by omega))
    | resume thread =>
      show (k.resumeSvc self thread).GatesOk
      simp only [resumeSvc]
      split
      · exact h
      · rename_i hn
        split
        · exact h
        · exact GatesOk.threadResume (k := k.arg0 self 0) h (by omega)
    | cancel thread code =>
      show (k.cancelSvc self thread code).GatesOk
      simp only [cancelSvc]
      split
      · exact h
      · rename_i hn
        generalize targetId self thread = th at *
        have hy : th < 32 := by omega
        exact h.mono rfl ((((Queues.GateSub.clear _ _ hy).trans (.clear _ _ hy)).trans
          (.wqInsert _ hj.2 hy)).trans (.clear k.q _ hy))
    | exit code =>
      show (k.exitSvc self).GatesOk
      simp only [exitSvc]
      split
      · exact h.mono rfl ((Queues.GateSub.suspend _ self).trans (.wqInsert k.q hj.2 hx))
      · exact h
    | terminate thread code => exact h.terminateSvc self thread code
    | ctlAbort => exact GatesOk.pauseAll (k := k.arg0 self 0) h
    | criticalEnter =>
      show k.criticalEnterSvc.GatesOk
      simp only [criticalEnterSvc]
      split
      · exact h
      · exact h
    | criticalExit =>
      show (k.criticalExitSvc self).GatesOk
      unfold criticalExitSvc
      split
      · exact h
      · simp only
        split
        · exact h
        · exact h
    | _ => exact absurd rfl hob

/-! ### Interrupts and whole runs -/

theorem GatesOk.systick (hk : k.Sane) : k.systick.GatesOk := by
  have hc := ready_lt_clock
  have h1 : (tickLoop 32 (k.q.wqLst wqClock) { k with ticks := k.ticks + 1 }).GatesOk := by
    refine tickLoop_invariant (I := GatesOk) (fun k j hj hi _ _ => ?_) _ _ _ (fun j hj hb => ?_) h
    · rw [timeWakeup_eq]
      exact hi.mono rfl (Queues.GateSub.timeWakeup k.q hj)
    · rw [mem_eq_getLsbD _ _ _ hj]
      exact hb
  have hk1 : (tickLoop 32 (k.q.wqLst wqClock) { k with ticks := k.ticks + 1 }).Sane := hk.tickLoop
  show (Kernel.timeshare _).GatesOk
  generalize tickLoop 32 (k.q.wqLst wqClock) { k with ticks := k.ticks + 1 } = k1 at h1 hk1
  refine h1.mono (by rw [timeshare_eq]) ?_
  rcases timeshare_q k1 with ⟨hq, -⟩ | ⟨hv, hr, hq, -⟩
  · rw [hq]
    exact .refl _
  · rw [hq]
    refine (Queues.GateSub.suspend _ _).trans ?_
    rcases hk1.slice_lt hv hr with hlt | ⟨hge, hlt⟩
    · exact .bitWr _ (.inl (by omega)) (by have := threadsMax_le; omega) true
    · rw [show k1.q.bitWr wqTmshare k1.active true = k1.q.bitWr wqClock (k1.active - 32) true by
        unfold Queues.bitWr
        rw [show 32 * wqTmshare + k1.active = 32 * wqClock + (k1.active - 32) by
          unfold wqTmshare wqClock
          omega]]
      exact .bitWr _ (.inl (by omega)) (by have := threadsMax_le; omega) true

omit h in
theorem gateView_gateOpenIsr (k : Kernel) (hg : g < gateMax) :
    (k.irqIsr (.gateOpen g)).gateView g = (k.gateView g).step 0 .gateOpen := by
  rw [← gateView_gateOpenI k 0 hg]
  show (Kernel.preempt _).gateView g = _
  unfold preempt
  split <;> rfl

theorem GatesOk.irqIsr {op : IrqOp} (hv : op.Valid k) : (k.irqIsr op).GatesOk := by
  have hc := wq_order
  by_cases hn : ∀ n, op ≠ .irq n
  · have hra := irqIsr_raised k op 0 hv hn
    intro g hg
    by_cases hr : op.reach (gateBase + g)
    · cases op with
      | gateOpen g' =>
        obtain rfl : g' = g := by
          have : gateBase + g = gateBase + g' := hr
          omega
        rw [gateView_gateOpenIsr k hg]
        exact (h g' hg).step 0 .gateOpen
      | semPost s =>
        have hw : gateBase + g = semBase + s := hr
        have hs : s < semaphoreMax := hv
        have hsr := range_sem hs
        unfold ObjType.Range at hsr
        obtain ⟨b1, b2, b3, b4, b5, b6, b7⟩ := wq_bases
        omega
      | evRaise e ev =>
        have hw : gateBase + g = eventBase + e := hr
        have her := range_event hv.1
        unfold ObjType.Range at her
        obtain ⟨b1, b2, b3, b4, b5, b6, b7⟩ := wq_bases
        omega
      | flagGive f =>
        have hw : gateBase + g = flagBase + f := hr
        have hf : f < flagMax := hv
        have hfr := range_flag hf
        unfold ObjType.Range at hfr
        omega
      | irq n => exact absurd rfl (hn n)
    · rw [hra.within.gateView hg hr]
      exact h g hg
  · obtain ⟨n, rfl⟩ : ∃ n, op = .irq n := by simpa using hn
    have hlt : k.irqTh n < threadsMax := hv.2
    have h1 : ({ k with
        irqTh := Function.update k.irqTh n threadIdle
        q := k.q.bitWr wqReady (k.irqTh n) true } : Kernel).GatesOk := by
      refine h.mono rfl ?_
      exact .bitWr _ (.inl (by omega)) (by omega) true
    show (Kernel.preempt _).GatesOk
    unfold preempt
    split
    · exact h1
    · exact h1

theorem GatesOk.excEnter (sp : Nat) : (k.excEnter sp).GatesOk := by
  rw [excEnter_eq]
  exact h

theorem GatesOk.excLeave : k.excLeave.GatesOk := by
  rw [excLeave_eq]
  exact h

theorem GatesOk.step {e : Event} (hk : k.Sane) (ho : k.OwnExit e) (hs : kernel.step k e = some k') :
    k'.GatesOk := by
  cases e with
  | svc sp c =>
    obtain ⟨-, hm, rfl⟩ := step_svc hs
    rw [svc_eq]
    refine GatesOk.excLeave (GatesOk.svcIsr (k := k.svcEntry sp c) h hm.1 ?_)
    cases c with
    | gateExit wq opn => exact ho
    | _ => trivial
  | tick sp =>
    obtain ⟨-, rfl⟩ := step_tick hs
    exact ((h.excEnter sp).systick (hk.excEnter sp)).excLeave
  | irq sp op =>
    obtain ⟨-, hv, rfl⟩ := step_irq hs
    exact ((h.excEnter sp).irqIsr (valid_excEnter sp hv)).excLeave
  | sched sp =>
    obtain ⟨-, rfl⟩ := step_sched hs
    exact (h.excEnter sp).mono rfl (.refl _)

end

end

theorem Booted.gatesOk (h : k.Booted) : k.GatesOk := by
  intro g hg
  refine gateView_ok_iff.mpr fun hs => ?_
  obtain ⟨sp, id, priority, paused, -, rfl⟩ := h
  have hz : (Kernel.init sp id priority paused).gateSignaled g = false := by
    show (Bitmap.rd (fun _ => 0) (g * 2)) = false
    simp [Bitmap.rd]
  rw [hz] at hs
  cases hs

theorem Booted.gatesOk_run {k0 : Kernel} (h : k0.Booted) (hr : kernel.Run Kernel.OwnExit k0 k) :
    k.GatesOk := by
  have hinv : k.Sane ∧ k.GatesOk :=
    hr.invariant (I := fun k => k.Sane ∧ k.GatesOk)
      (fun _ _ _ hi ho hs => ⟨hi.1.step hs, hi.2.step hi.1 ho hs⟩) ⟨h.sane, h.gatesOk⟩
  exact hinv.2

/-! ## Gate exit -/

/-- `gate_exit(g, 0)` as it should be: the first waiter is let in if the gate was opened while it
was locked; with nobody waiting the gate stays as it was opened or not, and is unlocked. -/
def Exits (k k' : Kernel) (g : Nat) : Prop :=
  if k.gateSignaled g = true ∧ k.q.wqHead (gateBase + g) ≠ threadNull then
    k'.gateSignaled g = false ∧ k'.gateLocked g = true ∧
      k'.q = k.q.wakeup (gateBase + g) (k.q.wqHead (gateBase + g))
  else k'.gateSignaled g = k.gateSignaled g ∧ k'.gateLocked g = false ∧ k'.q = k.q

theorem q_gateExitSvc (self : Nat) (hi : k.gateIdx wq = some g) (hl : k.gateLocked g = true) :
    (k.gateExitSvc self wq 0).q =
      if k.exitBit g = true ∧ k.q.wqHead (gateBase + g) ≠ threadNull then
        k.q.wakeup (gateBase + g) (k.q.wqHead (gateBase + g)) else k.q := by
  obtain ⟨hwq, -, -⟩ := gateIdx_eq_some hi
  have hrd : ¬ k.gate.rd (g * 2 + 1) = false := by
    rw [show k.gate.rd (g * 2 + 1) = true from hl]
    decide
  have hbit : (k.arg0 self 0).gates g &&& (1#32 <<< 3) = 0 ↔ k.exitBit g = false :=
    and_one_shiftLeft_eq_zero_iff (by decide)
  unfold gateExitSvc
  rw [hi]
  simp only [if_neg hrd, hbit, hwq, true_and, if_true, gateAdmit]
  by_cases hb : k.exitBit g = false
  · rw [if_pos hb, hb, if_neg fun h => by cases h.1]
    rfl
  · rw [if_neg hb]
    rw [Bool.not_eq_false] at hb
    by_cases hn : k.q.wqHead (gateBase + g) = threadNull
    · have hn' : (k.arg0 self 0).q.wqHead (gateBase + g) = threadNull := hn
      rw [if_pos hn', if_pos hn', if_neg fun h => h.2 hn]
      rfl
    · have hn' : ¬ (k.arg0 self 0).q.wqHead (gateBase + g) = threadNull := hn
      rw [if_neg hn', if_neg hn', if_pos ⟨hb, hn⟩]
      rfl

theorem exits_iff (hi : k.gateIdx wq = some g) (hl : k.gateLocked g = true) :
    k.Exits (k.gateExitSvc self wq 0) g ↔
      k.exitBit g = k.gateSignaled g ∨ k.q.wqLst (gateBase + g) = 0 := by
  have hv := gateView_gateExitSvc self 0 hi hl
  have hq := q_gateExitSvc self hi hl
  rw [if_pos rfl] at hv
  have hsig : (k.gateExitSvc self wq 0).gateSignaled g =
      ((k.gateView g).exitBy (k.exitBit g)).signaled := congrArg Gate.signaled hv
  have hloc : (k.gateExitSvc self wq 0).gateLocked g =
      ((k.gateView g).exitBy (k.exitBit g)).locked := congrArg Gate.locked hv
  unfold Exits
  rw [hsig, hloc, hq, ← wqHead_eq_null_iff]
  have hw := wqHead_eq_null_iff k.q (gateBase + g)
  unfold Gate.exitBy
  by_cases hn : k.q.wqHead (gateBase + g) = threadNull
  · rw [Gate.letIn_of_eq (s := k.gateView g) (hw.mp hn)]
    cases k.exitBit g <;> cases hs : k.gateSignaled g <;> simp [hn, gateView, hs]
  · rw [Gate.letIn_of_ne (s := k.gateView g) fun h => hn (hw.mpr h)]
    cases k.exitBit g <;> cases hs : k.gateSignaled g <;> simp [hn, gateView, hs, hl]

end Kernel

end

namespace Kernel

end Kernel

end ThinkOS
