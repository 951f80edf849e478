import ThinkOS.Kernel.Step

/-!
# What every reachable state satisfies

`Sane` is the part of the kernel's well-formedness that no call, tick, interrupt or
scheduler run can break (`Sane.step`): the queues hold no bits of threads that do not
exist, the idle thread is always ready and is never charged for its time, every status is
0 or names a queue a thread can wait in, and the slots past the last thread are never
free. The invariants of later modules are proved on top of it.
-/

namespace ThinkOS

open Lib Function BitVec Queues Bitmap

section
variable [Config] {th self w s : Nat} {k' : Kernel} {q' : Queues} {S : Nat → Prop}

namespace Queues

/-- A status with a queue to wait in. -/
def WaitStat (s : Nat) : Prop := s = 2 * wqClock + 1 ∨ IsObj (s / 2) ∨ s = 2 * wqCanceled

/-! ## Numbers of queues -/

theorem obj_lt_end (h : IsObj w) : w < wqLstEnd ∧ w ≠ wqPaused ∧ w ≠ wqCanceled := by
  have := h.2
  unfold wqLstEnd wqCanceled
  omega

theorem paused_bounds : wqClock < wqPaused ∧ wqPaused < wqCanceled ∧ wqCanceled < wqLstEnd := by
  have := wq_bases
  unfold wqLstEnd wqCanceled wqClock
  unfold mutexBase at this
  omega

theorem wq_order : wqReady < wqTmshare ∧ wqTmshare < wqClock ∧ wqClock < wqPaused ∧
    wqPaused < wqCanceled ∧ wqCanceled < wqLstEnd ∧ threadsMax ≤ 32 :=
  ⟨ready_lt_clock.1, ready_lt_clock.2, paused_bounds.1, paused_bounds.2.1, paused_bounds.2.2,
    threadsMax_le⟩

omit [Config] in
theorem clock_le_of_ne (h0 : w ≠ wqReady) (h1 : w ≠ wqTmshare) : wqClock ≤ w := by
  unfold wqReady at h0
  unfold wqTmshare at h1
  unfold wqClock
  omega

omit [Config] in
theorem stat_div (timed : Bool) : (2 * w + timed.toNat) / 2 = w := by
  cases timed <;> simp
  omega

theorem WaitStat.queue (h : WaitStat s) :
    wqClock ≤ s / 2 ∧ s / 2 < wqLstEnd ∧ s / 2 ≠ wqPaused ∧ s ≠ 0 := by
  have hb := paused_bounds
  rcases h with h | h | h
  · unfold wqClock at *
    omega
  · have := clock_lt_obj h
    have := obj_lt_end h
    refine ⟨by omega, by omega, by omega, ?_⟩
    rintro rfl
    omega
  · unfold wqClock at *
    omega

/-! ## Queues -/

structure Sane (q : Queues) : Prop where
  bound : ∀ w t, w < wqLstEnd → t < 32 → q.mem w t = true →
    t < threadsMax ∨ (w = wqReady ∧ t = threadIdle)
  idle : threadsMax < 32 → q.mem wqReady threadIdle = true
  stat : ∀ t, q.thStat t = 0 ∨ WaitStat (q.thStat t)

section
variable {q : Queues}

section
variable (h : q.Sane)
include h

theorem Sane.lt_of_mem {t : Nat} (hw : w < wqLstEnd) (ht : t < 32) (hm : q.mem w t = true)
    (hne : w ≠ wqReady) : t < threadsMax := by
  rcases h.bound w t hw ht hm with hb | hb
  · exact hb
  · exact absurd hb.1 hne

theorem Sane.bitWr (w : Nat) (hth : th < threadsMax) (v : Bool) : (q.bitWr w th v).Sane := by
  have hle := threadsMax_le
  refine ⟨fun w' t hw' ht hm => ?_, fun hlt => ?_, h.stat⟩
  · rw [mem_bitWr (by omega) ht] at hm
    split at hm
    · omega
    · exact h.bound w' t hw' ht hm
  · have hne : threadIdle ≠ th := by
      unfold threadIdle
      omega
    rw [mem_bitWr (by omega) (by unfold threadIdle; omega), if_neg (by omega)]
    exact h.idle hlt

theorem Sane.setStat (th : Nat) (hs : s = 0 ∨ WaitStat s) : (q.setStat th s).Sane := by
  refine ⟨h.bound, h.idle, fun t => ?_⟩
  rw [thStat_setStat]
  split
  · exact hs
  · exact h.stat t

/-- Numbers from 32 on have no bit of their own. -/
theorem Sane.suspend (hth : th ≠ threadIdle ∨ 32 ≤ th) : (q.suspend th).Sane := by
  have hb := wq_order
  refine ⟨fun w t hw ht hm => ?_, fun hlt => ?_, h.stat⟩
  · by_cases h0 : w = wqReady
    · subst h0
      rw [mem_suspend_ready ht, Bool.or_eq_true, Bool.and_eq_true, Bool.and_eq_true] at hm
      rcases hm with hm | hm
      · exact h.bound _ t hw ht hm.1
      · exact .inl (h.lt_of_mem (w := wqTmshare) (by omega) ht hm.2 (by omega))
    · by_cases h1 : w = wqTmshare
      · subst h1
        rw [mem_suspend_tmshare ht, Bool.and_eq_true] at hm
        exact h.bound _ t hw ht hm.2
      · rw [mem_suspend_of_ne ht h0 h1] at hm
        exact h.bound w t hw ht hm
  · have hi : threadIdle < 32 := hlt
    rw [mem_suspend_ready hi, h.idle hlt]
    have : threadIdle ≠ th := by omega
    simp [this]

theorem Sane.enqueue {timed : Bool} (hw : IsWait w timed) (hth : th < threadsMax) :
    (q.enqueue w th timed).Sane := by
  have hs : WaitStat (2 * w + timed.toNat) := by
    rcases hw with hw | ⟨rfl, rfl⟩
    · refine .inr (.inl ?_)
      rwa [stat_div]
    · exact .inl rfl
  cases timed with
  | true => exact ((h.bitWr _ hth _).bitWr _ hth _).setStat _ (.inr hs)
  | false => exact (h.bitWr _ hth _).setStat _ (.inr hs)

theorem Sane.wakeup (w : Nat) (hth : th < threadsMax) : (q.wakeup w th).Sane :=
  (((h.bitWr _ hth _).bitWr _ hth _).bitWr _ hth _).setStat _ (.inl rfl)

theorem Sane.wakes (hw : q.Wakes q') : q'.Sane := by
  have hc := ready_lt_clock
  induction hw with
  | refl => exact h
  | wake w t _ hobj ht hm ih =>
    have := clock_lt_obj hobj
    exact ih.wakeup _ (ih.lt_of_mem (obj_lt_end hobj).1 ht hm (by omega))

theorem Sane.callEff {b : Bool} (hth : th < threadsMax) (he : q.CallEff th q' b) : q'.Sane := by
  have hc := ready_lt_clock
  have hne : th ≠ threadIdle ∨ 32 ≤ th := by
    unfold threadIdle
    omega
  cases he with
  | done hw => exact h.wakes hw
  | block w timed hw => exact (h.enqueue hw hth).suspend hne
  | handOver w timed m t hw hobj _ ht hm =>
    have := clock_lt_obj hobj
    have hlt := h.lt_of_mem (obj_lt_end hobj).1 ht hm (by omega)
    exact ((h.enqueue (.inl hw) hth).wakeup m hlt).suspend hne

theorem Sane.threadPause (hth : th < threadsMax) : (q.threadPause th).Sane := by
  unfold Queues.threadPause
  split
  · exact h
  · exact (((h.bitWr _ hth _).bitWr _ hth _).bitWr _ hth _).bitWr _ hth _

theorem Sane.resumed (hth : th < threadsMax) (hr : q.Resumed th q') : q'.Sane := by
  cases hr with
  | back => exact (h.bitWr _ hth _).bitWr _ hth _
  | again => exact h.bitWr _ hth _
  | grant => exact (h.bitWr _ hth _).setStat _ (.inl rfl)
  | none => exact h

theorem Sane.timeWakeup (hth : th < threadsMax) : (q.timeWakeup th).Sane :=
  (((h.setStat _ (.inl rfl)).bitWr _ hth _).bitWr _ hth _).bitWr _ hth _

end

end

end Queues

/-! ## The kernel state -/

namespace Kernel

structure Sane (k : Kernel) : Prop where
  q : k.q.Sane
  active : k.active ≤ threadVoid
  idlePri : k.schedPri threadIdle = 0
  idleVal : 0 ≤ (k.schedVal threadIdle).toInt
  alloc : ∀ t, threadsMax ≤ t → t < 32 → k.thAlloc.rd t = true

section
variable {k : Kernel}

section
variable (h : k.Sane)
include h

theorem Sane.of_kept (hk : Kept k k') (hq : k'.q.Sane) : k'.Sane where
  q := hq
  active := hk.active ▸ h.active
  idlePri := hk.sched.2.1 ▸ h.idlePri
  idleVal := hk.sched.1 ▸ h.idleVal
  alloc := hk.thAlloc ▸ h.alloc

theorem Sane.congr (hq : k'.q = k.q) (ha : k'.active = k.active)
    (hp : k'.schedPri threadIdle = k.schedPri threadIdle)
    (hv : k'.schedVal threadIdle = k.schedVal threadIdle)
    (hl : ∀ t, threadsMax ≤ t → t < 32 → k'.thAlloc.rd t = true) : k'.Sane :=
  ⟨hq ▸ h.q, ha ▸ h.active, hp ▸ h.idlePri, hv ▸ h.idleVal, hl⟩

theorem Sane.withQueues {q : Queues} (hq : q.Sane) : ({ k with q := q }).Sane :=
  h.of_kept Kept.fields hq

theorem Sane.raised (hr : Raised S self k k') : k'.Sane :=
  h.of_kept hr.toKept (h.q.wakes hr.eff)

theorem Sane.served (hs : Served S th k k') (hth : th < threadsMax) : k'.Sane := by
  obtain ⟨b, he, -⟩ := hs.eff
  exact h.of_kept hs.toKept (h.q.callEff hth he)

theorem Sane.threadPause (hth : th < threadsMax) :
    (k.threadPause th).Sane := h.withQueues (h.q.threadPause hth)

theorem Sane.threadResume (hth : th < threadsMax) : (k.threadResume th).Sane := by
  unfold Kernel.threadResume
  split
  · exact h
  · have hr := resumeType_resumes { k with q := k.q.bitWr wqPaused th false } th
    exact h.of_kept (Kept.fields.trans hr.toKept) ((h.q.bitWr _ hth _).resumed hth hr.eff)

theorem Sane.suspend (hth : th < threadsMax) : (k.suspend th).Sane :=
  h.withQueues (h.q.suspend (by unfold threadIdle; omega))

theorem Sane.deferSched : k.deferSched.Sane := h.of_kept (.deferSched k) h.q

theorem Sane.preempt : k.preempt.Sane := h.of_kept (.preempt k) (k.q_preempt ▸ h.q)

theorem Sane.arg0 (self : Nat) (v : Word) : (k.arg0 self v).Sane :=
  h.of_kept (.arg0 k self v) h.q

end

/-! ### The calls that are not on objects -/

/-- The guards of the calls that name a thread. -/
theorem target_live (h : ¬ (th ≥ threadsMax ∨ k.thAlloc.rd th = false)) :
    th < threadsMax ∧ k.thAlloc.rd th = true := by
  refine ⟨by omega, ?_⟩
  cases ha : k.thAlloc.rd th with
  | true => rfl
  | false => exact absurd (.inr ha) h

theorem target_saved (h : ¬ (th ≥ threadsMax ∨ k.thAlloc.rd th = false ∨ k.ctx th = none)) :
    th < threadsMax ∧ k.thAlloc.rd th = true ∧ k.ctx th ≠ none := by
  have hl : ¬ (th ≥ threadsMax ∨ k.thAlloc.rd th = false) := by tauto
  obtain ⟨h1, h2⟩ := target_live hl
  exact ⟨h1, h2, by tauto⟩

section
variable (h : k.Sane)
include h

theorem Sane.slot_lt {id : BitVec 7} (hs : k.threadSlot id = some th) : th < threadsMax := by
  obtain ⟨hlt, hfree⟩ := threadSlot_eq_some hs
  apply Nat.lt_of_not_le
  intro hge
  have := h.alloc th hge hlt
  unfold Bitmap.rd at this
  rw [show th / 32 = 0 by omega, show th % 32 = th by omega, hfree] at this
  cases this

theorem Sane.allocWr (v : Bool) (hth : th < threadsMax) :
    ∀ t, threadsMax ≤ t → t < 32 → (k.thAlloc.wr th v).rd t = true := by
  intro t hge hlt
  rw [rd_wr, if_neg (by omega)]
  exact h.alloc t hge hlt

theorem Sane.threadInit (hth : th < threadsMax) (sp : Nat) (arg : Word) :
    (k.threadInit th sp arg).Sane :=
  { h with q := h.q.bitWr _ hth _ }

theorem Sane.threadCreateSvc (self : Nat) (init : ThreadInit) :
    (k.threadCreateSvc self init).Sane := by
  unfold Kernel.threadCreateSvc
  split
  · exact h.arg0 _ _
  · rename_i th hslot
    have hth := h.slot_lt hslot
    have hne : threadIdle ≠ th := by
      unfold threadIdle
      omega
    have hal := h.allocWr true hth
    simp only
    split
    · refine Sane.arg0 ?_ _ _
      exact h.congr rfl rfl rfl rfl hal
    · apply Sane.arg0
      split
      · refine Sane.threadInit ?_ hth _ _
        exact h.congr rfl rfl (update_of_ne hne _ _) (update_of_ne hne _ _) hal
      · refine Sane.deferSched (Sane.threadResume (Sane.threadInit ?_ hth _ _) hth)
        exact h.congr rfl rfl (update_of_ne hne _ _) (update_of_ne hne _ _) hal

theorem Sane.threadAbort (hth : th < threadsMax) : (k.threadAbort th).Sane := by
  refine Sane.deferSched (Sane.suspend ?_ hth)
  refine ⟨h.q, ?_, h.idlePri, h.idleVal, ?_⟩
  · have := h.active
    show (if th = k.active then threadVoid else k.active) ≤ threadVoid
    split <;> omega
  · exact h.allocWr false hth

theorem Sane.threadDetach (hth : th < threadsMax) (code : Word) :
    (k.threadDetach th code).Sane := by
  have hq := ((h.q.bitWr wqTmshare hth false).setStat th (.inl rfl)).bitWr
    (k.q.thStat th / 2) hth false
  simp only [Kernel.threadDetach]
  split
  · exact Sane.deferSched (Sane.raised (h.withQueues hq)
      (wakeAll_raised (S := (· = joinBase + th)) _ th _ _ (isObj_join hth) rfl))
  · exact h.withQueues hq

theorem Sane.terminateSvc (thread code : Word) : (k.terminateSvc self thread code).Sane := by
  simp only [Kernel.terminateSvc]
  split
  · exact h.arg0 _ _
  · have hth : targetId self thread < threadsMax := by omega
    exact (h.threadDetach hth code).threadAbort hth

theorem Sane.insertCanceled (hth : th < threadsMax) : (k.q.wqInsert wqCanceled th).Sane :=
  (h.q.bitWr _ hth _).setStat _ (.inr (.inr (.inr rfl)))

theorem Sane.exitSvc (hs : self < threadsMax) : (k.exitSvc self).Sane := by
  simp only [Kernel.exitSvc]
  split
  · have hk : (k.wqInsert wqCanceled self).Sane := h.withQueues (h.insertCanceled hs)
    exact (hk.suspend hs).deferSched.congr rfl rfl rfl rfl h.alloc
  · exact h.congr rfl rfl rfl rfl h.alloc

theorem Sane.cancelSvc (thread code : Word) : (k.cancelSvc self thread code).Sane := by
  simp only [Kernel.cancelSvc]
  split
  · exact h.arg0 _ _
  · rename_i hg
    have hth : targetId self thread < threadsMax := by omega
    generalize targetId self thread = th at hth
    have hq := (((h.q.bitWr (k.q.thStat th / 2) hth false).bitWr wqCanceled hth true).setStat th
      (.inr (.inr (.inr rfl)))).bitWr wqTmshare hth false
    refine Sane.arg0 ?_ _ _
    exact (h.withQueues (hq.bitWr wqClock hth false)).congr rfl rfl rfl rfl h.alloc

theorem Sane.joinSvc (hs : self < threadsMax) (thread : Word) : (k.joinSvc self thread).Sane := by
  simp only [Kernel.joinSvc]
  split
  · exact h.arg0 _ _
  · rename_i hg
    have hth : (thread - 1).toNat < threadsMax := by omega
    refine Sane.arg0 (Sane.deferSched (Sane.suspend ?_ hs)) _ _
    have hw : Queues.IsWait (joinBase + (thread - 1).toNat) false := .inl (isObj_join hth)
    refine h.withQueues (Queues.Sane.enqueue ?_ hw hs)
    split
    · exact (h.q.bitWr _ hth _).bitWr _ hth _
    · exact h.q

theorem Sane.pauseAll : k.pauseAll.Sane := by
  refine Sane.deferSched ?_
  refine List.foldlRecOn (List.range threadsMax) _ (motive := Kernel.Sane) h ?_
  intro k hk th hth
  split
  · exact hk
  · exact hk.threadPause (List.mem_range.mp hth)

theorem Sane.svcIsr (hs : self < threadsMax) (c : Call) : (k.svcIsr self c).Sane := by
  have hle := threadsMax_le
  by_cases hc : c.onObject = true
  · exact h.served (svcIsr_served k self c (by omega) hc) hs
  · cases c with
    | threadCreate init => exact h.threadCreateSvc self init
    | irqWait irq =>
      show (k.irqWaitSvc self irq).Sane
      unfold Kernel.irqWaitSvc
      split
      · exact h.arg0 _ _
      · exact Sane.deferSched (((h.arg0 self 0).suspend hs).congr rfl rfl rfl rfl h.alloc)
    | join thread => exact h.joinSvc hs thread
    | pause thread =>
      show (k.pauseSvc self thread).Sane
      simp only [Kernel.pauseSvc]
      split
      · exact h.arg0 _ _
      · split
        · exact h.arg0 _ _
        · exact ((h.arg0 self 0).threadPause (by omega)).deferSched
    | resume thread =>
      show (k.resumeSvc self thread).Sane
      simp only [Kernel.resumeSvc]
      split
      · exact h.arg0 _ _
      · split
        · exact h.arg0 _ _
        · exact ((h.arg0 self 0).threadResume (by omega)).deferSched
    | cancel thread code => exact h.cancelSvc thread code
    | exit code => exact h.exitSvc hs
    | terminate thread code => exact h.terminateSvc thread code
    | ctlAbort => exact (h.arg0 self 0).pauseAll
    | criticalEnter =>
      show k.criticalEnterSvc.Sane
      simp only [Kernel.criticalEnterSvc]
      split <;> exact h.congr rfl rfl rfl rfl h.alloc
    | criticalExit =>
      show (k.criticalExitSvc self).Sane
      simp only [Kernel.criticalExitSvc]
      split
      · exact h.arg0 _ _
      · split <;> exact h.congr rfl rfl rfl rfl h.alloc
    | _ => exact absurd rfl hc

end

/-! ### Ticks and interrupts -/

section
variable (h : k.Sane)
include h

theorem Sane.excLeave : k.excLeave.Sane := by
  rw [excLeave_eq]
  exact h.congr rfl rfl rfl rfl h.alloc

theorem Sane.excEnter (sp : Nat) : (k.excEnter sp).Sane := by
  rw [excEnter_eq]
  exact h.congr rfl rfl rfl rfl h.alloc

theorem Sane.tickLoop : (tickLoop 32 (k.q.wqLst wqClock) { k with ticks := k.ticks + 1 }).Sane := by
  have hb := wq_order
  refine tickLoop_invariant (I := Sane) (fun k j hj hk hm _ => ?_) _ _ _ (fun j hj hm => ?_)
    (h.congr rfl rfl rfl rfl h.alloc)
  · rw [timeWakeup_eq]
    have hlt := hk.q.lt_of_mem (by omega) hj hm (by omega)
    exact (hk.withQueues (hk.q.timeWakeup hlt)).congr rfl rfl rfl rfl hk.alloc
  · rwa [mem_eq_getLsbD _ _ _ hj]

/-- The idle thread is not charged. -/
theorem Sane.slice_ne_idle (hv : k.sliceVal.toInt < 0) : k.active ≠ threadIdle := by
  intro he
  unfold sliceVal at hv
  rw [he] at hv
  unfold schedValAt schedPriAt at hv
  rw [if_pos (Nat.le_refl _), if_pos (Nat.le_refl _), h.idlePri] at hv
  have := h.idleVal
  simp at hv
  omega

/-- With 31 or 32 threads the void slot's ready bit is a bit of the next word. -/
theorem Sane.slice_lt (hv : k.sliceVal.toInt < 0) (hr : k.q.mem wqReady k.active = true) :
    k.active < threadsMax ∨ (32 ≤ k.active ∧ k.active - 32 < threadsMax) := by
  have hact := h.active
  have hb := wq_order
  by_cases hlt : k.active < 32
  · rcases h.q.bound _ _ (by omega) hlt hr with hb | hb
    · exact .inl hb
    · exact absurd hb.2 (h.slice_ne_idle hv)
  · unfold threadVoid at hact
    omega

theorem Sane.slice (hv : k.sliceVal.toInt < 0) (hr : k.q.mem wqReady k.active = true) :
    (k.q.bitWr wqTmshare k.active true).Sane := by
  rcases h.slice_lt hv hr with hlt | ⟨hge, hlt⟩
  · exact h.q.bitWr _ hlt _
  · have he : k.q.bitWr wqTmshare k.active true = k.q.bitWr wqClock (k.active - 32) true := by
      unfold Queues.bitWr
      rw [show 32 * wqTmshare + k.active = 32 * wqClock + (k.active - 32) by
        unfold wqTmshare wqClock
        omega]
    rw [he]
    exact h.q.bitWr _ hlt _

theorem Sane.setSchedVal {idx : Nat} (hi : idx ≤ threadVoid) {v : BitVec 8}
    (hv : idx = threadIdle → 0 ≤ v.toInt) : (k.setSchedVal idx v).Sane := by
  have hpos := threadsMax_pos
  unfold Kernel.setSchedVal
  split
  · refine ⟨h.q, h.active, h.idlePri, ?_, h.alloc⟩
    show 0 ≤ (update k.schedVal idx v threadIdle).toInt
    by_cases he : threadIdle = idx
    · rw [he, update_self]
      exact hv he.symm
    · rw [update_of_ne he]
      exact h.idleVal
  · have hne : threadIdle ≠ idx - (threadIdle + 1) := by
      unfold threadVoid at hi
      unfold threadIdle at *
      omega
    exact h.congr rfl rfl (update_of_ne hne _ _) rfl h.alloc

theorem Sane.timeshare : k.timeshare.Sane := by
  have hact := h.active
  by_cases hv : k.sliceVal.toInt < 0
  · have hne := h.slice_ne_idle hv
    have hs := h.setSchedVal hact (v := k.sliceVal + k.schedLimit.setWidth 8)
      (fun he => absurd he hne)
    have hq : (k.setSchedVal k.active (k.sliceVal + k.schedLimit.setWidth 8)).q = k.q := by
      rw [setSchedVal_eq]
    simp only [Kernel.timeshare, if_pos hv]
    split
    · exact hs
    · rename_i hr
      rw [hq] at hr ⊢
      have hsl := h.slice hv (by simpa using hr)
      exact (hs.withQueues (hsl.suspend (.inl hne))).preempt
  · simp only [Kernel.timeshare, if_neg hv]
    exact h.setSchedVal hact fun _ => by omega

theorem Sane.systick : k.systick.Sane := h.tickLoop.timeshare

theorem Sane.irqIsr {op : IrqOp} (hv : op.Valid k) : (k.irqIsr op).Sane := by
  by_cases hn : ∀ n, op ≠ .irq n
  · exact h.raised (irqIsr_raised k op 0 hv hn)
  · obtain ⟨n, rfl⟩ : ∃ n, op = .irq n := by simpa using hn
    refine Sane.preempt ?_
    exact (h.withQueues (h.q.bitWr wqReady hv.2 true)).congr rfl rfl rfl rfl h.alloc

/-- The scheduler takes a thread or idle. -/
theorem Sane.first_le : lowBit (k.q.wqLst wqReady) ≤ threadIdle := by
  by_cases hlt : threadsMax < 32
  · have hi := h.q.idle hlt
    rw [mem_eq_getLsbD _ _ threadIdle hlt] at hi
    exact lowBit_le_of_getLsbD _ hi
  · have := lowBit_le (k.q.wqLst wqReady)
    unfold threadIdle
    omega

theorem Sane.pendsvIsr : k.pendsvIsr.Sane :=
  { h with active := Nat.le_succ_of_le h.first_le }

/-- No event leaves the sane states. -/
theorem Sane.step {e : Event} (hs : kernel.step k e = some k') : k'.Sane := by
  cases e with
  | svc sp c =>
    obtain ⟨-, hm, rfl⟩ := step_svc hs
    rw [svc_eq]
    have he : (k.svcEntry sp c).Sane := h.congr rfl rfl rfl rfl h.alloc
    exact (he.svcIsr hm.1 c).excLeave
  | tick sp =>
    obtain ⟨-, rfl⟩ := step_tick hs
    exact (h.excEnter sp).systick.excLeave
  | irq sp op =>
    obtain ⟨-, hv, rfl⟩ := step_irq hs
    exact ((h.excEnter sp).irqIsr (valid_excEnter sp hv)).excLeave
  | sched sp =>
    obtain ⟨-, rfl⟩ := step_sched hs
    exact (h.excEnter sp).pendsvIsr

end

end

/-- The states `thinkos_init` leaves. -/
def Booted (k : Kernel) : Prop :=
  ∃ sp id priority paused, id < threadsMax ∧ k = Kernel.init sp id priority paused

omit [Config] in
theorem rd_bmpInit {n t : Nat} (h0 : 0 < n) (hn : n ≤ t) (ht : t < 32) :
    (bmpInit n).rd t = true := by
  have hw : bmpInit n 0 = BitVec.allOnes 32 <<< n := by
    show (if 0 = n / 32 ∧ n % 32 ≠ 0 then _ else _) = _
    rw [if_pos (by omega), show n % 32 = n by omega]
  have h1 : ¬ t < n := by omega
  have h2 : t - n < 32 := by omega
  unfold Bitmap.rd
  rw [show t / 32 = 0 by omega, show t % 32 = t by omega, hw, getLsbD_shiftLeft, getLsbD_allOnes]
  simp [h1, h2, ht]

theorem init_wqLst {sp id : Nat} {priority : BitVec 8} {paused : Bool} :
    (Kernel.init sp id priority paused).q.wqLst w =
      if w = wqReady then 1#32 <<< id ||| 1#32 <<< threadIdle
      else if w = wqPaused ∧ paused = true then 1#32 <<< id else 0 := by
  have hb := paused_bounds
  have hne : wqReady ≠ wqPaused := by
    unfold wqReady
    omega
  by_cases hr : w = wqReady
  · subst hr
    cases paused <;> simp [Kernel.init, hne]
  · cases paused with
    | true => simp [Kernel.init, Kernel.reset, update_apply, hr]
    | false => simp [Kernel.init, Kernel.reset, hr]

theorem init_mem {sp id : Nat} {priority : BitVec 8} {paused : Bool} {t : Nat} (ht : t < 32) :
    (Kernel.init sp id priority paused).q.mem w t = true ↔
      (w = wqReady ∧ (t = id ∨ t = threadIdle)) ∨ (w = wqPaused ∧ paused = true ∧ t = id) := by
  have hb := paused_bounds
  have hne : wqReady ≠ wqPaused := by
    unfold wqReady
    omega
  rw [mem_eq_getLsbD _ _ _ ht, init_wqLst]
  by_cases hr : w = wqReady
  · rw [if_pos hr, getLsbD_or, getLsbD_one_shiftLeft, getLsbD_one_shiftLeft]
    simp [ht, hr, hne]
  · rw [if_neg hr]
    by_cases hp : w = wqPaused ∧ paused = true
    · rw [if_pos hp, getLsbD_one_shiftLeft]
      simp [ht, hne.symm, hp]
    · rw [if_neg hp]
      simp only [hr, false_and, false_or]
      constructor
      · intro h
        simp at h
      · rintro ⟨h1, h2, -⟩
        exact absurd ⟨h1, h2⟩ hp

theorem Booted.sane {k : Kernel} (h : k.Booted) : k.Sane := by
  obtain ⟨sp, id, priority, paused, hid, rfl⟩ := h
  have hne : threadIdle ≠ id := by
    unfold threadIdle
    omega
  refine ⟨⟨fun w t _ ht hm => ?_, fun hlt => ?_, fun _ => .inl rfl⟩, ?_, ?_, ?_, fun t hge hlt => ?_⟩
  · rcases (init_mem ht).mp hm with ⟨hw, rfl | rfl⟩ | ⟨-, -, rfl⟩
    · exact .inl hid
    · exact .inr ⟨hw, rfl⟩
    · exact .inl hid
  · exact (init_mem hlt).mpr (.inl ⟨rfl, .inr rfl⟩)
  · show id ≤ threadVoid
    unfold threadVoid
    omega
  · exact update_of_ne hne _ _
  · have hz : (Kernel.init sp id priority paused).schedVal threadIdle = 0 :=
      update_of_ne hne _ _
    rw [hz]
    decide
  · show ((bmpInit threadsMax).wr id true).rd t = true
    rw [rd_wr, if_neg (by omega)]
    exact rd_bmpInit threadsMax_pos hge hlt

end Kernel

end

end ThinkOS
