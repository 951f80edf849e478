import ThinkOS.Sched.Tidy

/-!
# Only living threads are scheduled

The scheduler restores the context of the first ready thread, so a thread that is ready
has to be allocated and to have a context. `Live` is the invariant of the thread life
cycle that gives this: only allocated threads with a context are queued, and the slot of a
thread that is not allocated has status 0.

The running thread's own context entry is written when the scheduler saves it, so the
first thread has none until the first run of the scheduler. A termination must not find
its thread in a timed wait on an object (`Careful`): it takes the thread out of the object's
queue only, and the tick that ends the wait makes the dead thread ready.
-/

namespace ThinkOS

open Lib Function Queues Bitmap Bool

section
variable [Config] {th t : Nat} {S : Nat → Prop}

/-! ## The kernel state -/

namespace Kernel

/-- Where a thread resumes, while a handler runs. -/
def framePc (k : Kernel) (t : Nat) : Pc :=
  if t = k.active then (k.stack t k.psp).pc else (k.stack t ((k.ctx t).getD 0)).pc

/-- Where a thread resumes, between two handlers. -/
def resumePc (k : Kernel) (t : Nat) : Pc :=
  if t = k.active ∧ k.pendsv = false then k.reg.pc else k.framePc t

/-- Threads that may be queued: allocated, with a context. While `fresh`, the running thread has
not been saved yet. -/
def Runs (k : Kernel) (fresh : Prop) (t : Nat) : Prop :=
  k.thAlloc.rd t = true ∧ (k.ctx t ≠ none ∨ (t = k.active ∧ fresh))

structure Live (k : Kernel) (fresh : Prop) (pc : Nat → Pc) : Prop where
  sane : k.Sane
  tidy : k.q.Tidy (k.Runs fresh) fun t => pc t = .threadExit
  dead : ∀ t, t < threadsMax → k.thAlloc.rd t = false → k.q.thStat t = 0
  active : k.active < threadsMax → k.thAlloc.rd k.active = true
  critical : k.criticalCnt = 0
  /-- The active thread is ready until the scheduler is asked for. -/
  ready : k.pendsv = false → k.active < threadsMax → k.q.mem wqReady k.active = true

/-- `Live` while a handler runs. -/
abbrev Lives (k : Kernel) (fresh : Prop) : Prop := k.Live fresh k.framePc

section
variable {k k' : Kernel} {fresh : Prop}

omit [Config] in
theorem framePc_eq : k.framePc t = (k.frame t).pc := by
  unfold framePc frame
  split <;> rfl

omit [Config] in
theorem resumePc_eq : k.resumePc t = (k.resumeFrame t).pc := by
  unfold resumePc resumeFrame
  rw [framePc_eq]
  split <;> rfl

omit [Config] in
theorem resumePc_excLeave : k.excLeave.resumePc = k.framePc := by
  funext t
  rw [resumePc_eq, framePc_eq, resumeFrame_excLeave]

omit [Config] in
theorem framePc_excEnter {sp : Nat} : (k.excEnter sp).framePc = k.resumePc := by
  funext t
  rw [framePc_eq, resumePc_eq, frame_excEnter]

omit [Config] in
theorem framePc_svcEntry (sp : Nat) (c : Call) (hp : k.pendsv = false) :
    (k.svcEntry sp c).framePc = k.resumePc := by
  funext t
  rw [framePc_eq, resumePc_eq, frame_svcEntry]
  split
  · rename_i ht
    unfold resumeFrame
    rw [if_pos ⟨ht, hp⟩]
  · rfl

omit [Config] in
theorem framePc_congr (ha : k'.active = k.active) (hs : k'.psp = k.psp)
    (hpc : ∀ t sp, (k'.stack t sp).pc = (k.stack t sp).pc)
    (hc : ∀ t, t ≠ k.active → k'.ctx t = k.ctx t) : k'.framePc = k.framePc := by
  funext t
  unfold framePc
  rw [ha, hs]
  by_cases ht : t = k.active
  · rw [if_pos ht, if_pos ht, hpc]
  · rw [if_neg ht, if_neg ht, hc t ht, hpc]

section
variable (h : k.Lives fresh)
include h

/-- The rule for handlers that allocate, free and switch nothing. -/
theorem Live.of_kept (hk : Kept k k')
    (hctx : ∀ t, k'.ctx t = k.ctx t ∨ (t = k.active ∧ k'.ctx t = some k.psp)) (hs : k'.Sane)
    (hq : k'.q.Tidy (k.Runs fresh) fun t => k.framePc t = .threadExit)
    (hst : ∀ t, t < threadsMax → k.thAlloc.rd t = false →
      k'.q.thStat t = k.q.thStat t ∨ k'.q.thStat t = 0)
    (hr : k'.pendsv = false → k.active < threadsMax → k'.q.mem wqReady k.active = true) :
    k'.Lives fresh := by
  have hpc : k'.framePc = k.framePc :=
    framePc_congr hk.active hk.psp hk.pc fun t hne => (hctx t).resolve_right fun hc => hne hc.1
  refine ⟨hs, ?_, fun t ht hd => ?_, fun ha => ?_, ?_, fun hp ha => ?_⟩
  · rw [hpc]
    refine hq.mono (fun t _ _ hok => ?_) fun t _ _ hl => hl
    refine ⟨by rw [hk.thAlloc]; exact hok.1, ?_⟩
    rw [hk.active]
    rcases hctx t with hc | hc
    · rw [hc]
      exact hok.2
    · rw [hc.2]
      exact .inl (by simp)
  · rw [hk.thAlloc] at hd
    rcases hst t ht hd with hs | hs
    · rw [hs]
      exact h.dead t ht hd
    · exact hs
  · rw [hk.thAlloc, hk.active] at *
    exact h.active ha
  · rw [hk.criticalCnt]
    exact h.critical
  · rw [hk.active] at *
    exact hr hp ha

theorem Live.withQueues {q : Queues} (hs : q.Sane)
    (hq : q.Tidy (k.Runs fresh) fun t => k.framePc t = .threadExit)
    (hst : ∀ t, t < threadsMax → k.thAlloc.rd t = false → q.thStat t = k.q.thStat t ∨ q.thStat t = 0)
    (hr : k.pendsv = false → k.active < threadsMax → q.mem wqReady k.active = true) :
    ({ k with q := q }).Lives fresh :=
  h.of_kept Kept.fields (fun _ => .inl rfl) (h.sane.withQueues hs) hq hst hr

theorem Live.ne_active (ht : t < threadsMax) (hd : k.thAlloc.rd t = false) : t ≠ k.active := by
  rintro rfl
  rw [h.active ht] at hd
  cases hd

omit h in
omit [Config] in
theorem Kept.pend_false (hk : Kept k k') (hp : k'.pendsv = false) : k.pendsv = false := by
  refine eq_false_iff.mpr fun hb => ?_
  rw [hk.pend hb] at hp
  cases hp

theorem Live.raised {self : Nat} (hr : Raised S self k k') : k'.Lives fresh := by
  have hle := threadsMax_le
  refine h.of_kept hr.toKept (fun t => .inl (by rw [hr.ctx])) (h.sane.raised hr)
    (h.tidy.wakes h.sane.q hr.eff) (fun t _ _ => hr.eff.thStat t) (fun hp ha => ?_)
  exact hr.eff.ready (by omega) (h.ready (hr.toKept.pend_false hp) ha)

theorem Live.same (hk : Kept k k') (hctx : k'.ctx = k.ctx) (hq : k'.q = k.q) : k'.Lives fresh := by
  refine h.of_kept hk (fun t => .inl (by rw [hctx])) (h.sane.of_kept hk (hq ▸ h.sane.q))
    (hq ▸ h.tidy) (fun t _ _ => .inl (by rw [hq])) fun hp ha => ?_
  rw [hq]
  exact h.ready (hk.pend_false hp) ha

theorem Live.deferSched : k.deferSched.Lives fresh := h.same (.deferSched k) rfl rfl

theorem Live.arg0 (self : Nat) (v : Word) :
    (k.arg0 self v).Lives fresh := h.same (.arg0 k self v) rfl rfl

section
variable (hp : k.pendsv = false) (ha : k.active < threadsMax)
include hp ha

theorem Live.runs : k.Runs fresh k.active := by
  have hb := wq_order
  exact h.tidy.queued wqReady _ (by omega) (by omega) ha (h.ready hp ha)

/-- A thread in its own code that is ready has status 0. -/
theorem Live.stat_zero (hu : k.framePc k.active = .user) : k.q.thStat k.active = 0 := by
  rcases h.tidy.running _ ha (.inl (h.ready hp ha)) with hs | hs
  · exact hs
  · have := h.tidy.leaves _ ha hs
    rw [hu] at this
    cases this

theorem Live.served (hu : k.framePc k.active = .user) (hs : Served S k.active k k') : k'.Lives fresh := by
  have hle := threadsMax_le
  obtain ⟨b, he, hb⟩ := hs.eff
  have hrd := h.ready hp ha
  have hst := h.stat_zero hp ha hu
  refine h.of_kept hs.toKept hs.ctx (h.sane.served hs ha)
    (h.tidy.callEff h.sane.q ha (h.runs hp ha) he fun _ => ⟨hrd, hst⟩)
    (fun t ht hd => he.thStat t (h.ne_active ht hd)) (fun hp' _ => ?_)
  cases b with
  | true =>
    rw [hb rfl] at hp'
    cases hp'
  | false => exact he.wakes.ready (by omega) hrd

end

end

/-! ## Pause and resume -/

theorem Live.pauseSvc (h : k.Lives fresh) (thread : Word) :
    (k.pauseSvc k.active thread).Lives fresh := by
  simp only [Kernel.pauseSvc]
  split
  · exact h.arg0 _ _
  · split
    · exact h.arg0 _ _
    · have hth : targetId k.active thread < threadsMax := by omega
      have h1 := h.arg0 k.active 0
      generalize k.arg0 k.active 0 = k at h1
      refine h1.of_kept (Kept.fields.trans (.deferSched _)) (fun _ => .inl rfl)
        (h1.sane.threadPause hth).deferSched (h1.tidy.threadPause hth) (fun t _ _ => ?_)
        (fun hp _ => by cases hp)
      exact .inl (congrFun thStat_threadPause t)

theorem Live.pauseAll (h : k.Lives fresh) : k.pauseAll.Lives fresh := by
  have hloop : ∀ k1, k1 = (List.range threadsMax).foldl
      (fun k th => if k.ctx th = none then k else k.threadPause th) k →
      Kept k k1 ∧ k1.ctx = k.ctx ∧ k1.q.thStat = k.q.thStat ∧
        k1.q.Tidy (k.Runs fresh) (fun t => k.framePc t = .threadExit) := by
    rintro _ rfl
    refine List.foldlRecOn (List.range threadsMax) _ (motive := fun k1 : Kernel => Kept k k1 ∧
      k1.ctx = k.ctx ∧ k1.q.thStat = k.q.thStat ∧
      k1.q.Tidy (k.Runs fresh) (fun t => k.framePc t = .threadExit)) ⟨.refl k, rfl, rfl, h.tidy⟩ ?_
    rintro k1 ⟨h1, h2, h3, h4⟩ th hth
    split
    · exact ⟨h1, h2, h3, h4⟩
    · exact ⟨h1.trans Kept.fields, h2, thStat_threadPause.trans h3,
        h4.threadPause (List.mem_range.mp hth)⟩
  obtain ⟨h1, h2, h3, h4⟩ := hloop _ rfl
  exact h.of_kept (h1.trans (.deferSched _)) (fun t => .inl (congrFun h2 t)) h.sane.pauseAll h4
    (fun t _ _ => .inl (congrFun h3 t)) (fun hp _ => by cases hp)

/-- A resume names a thread that is in no queue but paused, and possibly ready or canceled. -/
def OnlyPaused (k : Kernel) (th : Nat) : Prop :=
  ∀ w, w < wqLstEnd → w ≠ wqPaused → w ≠ wqReady → w ≠ wqCanceled → k.q.mem w th = false

instance (k : Kernel) (th : Nat) : Decidable (k.OnlyPaused th) := by
  unfold OnlyPaused
  infer_instance

theorem Live.threadResume (h : k.Lives fresh) (hth : th < threadsMax) (hok : k.Runs fresh th)
    (ho : k.q.mem wqPaused th = true → k.OnlyPaused th) : (k.threadResume th).Lives fresh := by
  have hb := wq_order
  unfold Kernel.threadResume
  split
  · exact h
  · rename_i hp
    have hr := resumeType_resumes { k with q := k.q.bitWr wqPaused th false } th
    have hno : ∀ w, w < wqLstEnd → w ≠ wqPaused → w ≠ wqReady → w ≠ wqCanceled →
        (k.q.bitWr wqPaused th false).mem w th = false := by
      intro w hw h1 h2 h3
      rw [mem_bitWr (by omega) (by omega), if_neg (by omega)]
      exact ho (by simpa using hp) w hw h1 h2 h3
    refine h.of_kept (Kept.fields.trans hr.toKept) (fun t => .inl (by rw [hr.ctx]))
      ((h.sane.withQueues (h.sane.q.bitWr _ hth _)).of_kept hr.toKept
        ((h.sane.q.bitWr _ hth _).resumed hth hr.eff))
      ((h.tidy.setPaused hth false).resumed (h.sane.q.bitWr _ hth _) hth hok hr.eff hno)
      (fun t _ _ => hr.eff.thStat t) (fun hp' ha => ?_)
    have hrd : (k.q.bitWr wqPaused th false).mem wqReady k.active = true := by
      rw [mem_bitWr (by omega) (by omega), if_neg (by omega)]
      exact h.ready (hr.toKept.pend_false hp') ha
    exact hr.eff.ready (by omega) (by omega) hrd

theorem Live.resumeSvc (h : k.Lives fresh) (thread : Word)
    (ho : (thread - 1).toNat < threadsMax → k.q.mem wqPaused (thread - 1).toNat = true →
      k.OnlyPaused (thread - 1).toNat) : (k.resumeSvc k.active thread).Lives fresh := by
  simp only [Kernel.resumeSvc]
  split
  · exact h.arg0 _ _
  · rename_i hg
    split
    · exact h.arg0 _ _
    · obtain ⟨hth, halloc, hctx⟩ := target_saved hg
      have hres := (h.arg0 k.active 0).threadResume hth ⟨halloc, .inl hctx⟩ (ho hth)
      exact hres.deferSched

/-! ## Cancel, exit, join -/

omit [Config] in
theorem framePc_ctxPcExit (hne : th ≠ k.active) :
    (k.ctxPcExit th).framePc t = if t = th then .threadExit else k.framePc t := by
  unfold framePc ctxPcExit
  by_cases ht : t = th
  · subst ht
    simp [hne, storeFrame_self]
  · simp only [ht, if_false]
    by_cases ha : t = k.active
    · simp only [ha, if_true]
      rw [storeFrame_of_ne (.inl (by rw [← ha]; exact ht))]
    · simp only [ha, if_false]
      rw [storeFrame_of_ne (.inl ht)]

section
variable (h : k.Lives fresh)
include h

theorem Live.ctxPcExit (hne : th ≠ k.active) : (k.ctxPcExit th).Lives fresh := by
  refine ⟨h.sane.congr rfl rfl rfl rfl h.sane.alloc, ?_, h.dead, h.active, h.critical, h.ready⟩
  refine h.tidy.mono (fun t _ _ hok => hok) fun t _ _ hl => ?_
  rw [framePc_ctxPcExit hne]
  split
  · rfl
  · exact hl

theorem Live.cancelSvc (thread code : Word)
    (hc : targetId k.active thread < threadsMax → k.thAlloc.rd (targetId k.active thread) = true →
      targetId k.active thread ≠ k.active ∧ k.ctx (targetId k.active thread) ≠ none) :
    (k.cancelSvc k.active thread code).Lives fresh := by
  have hle := threadsMax_le
  simp only [Kernel.cancelSvc]
  split
  · exact h.arg0 _ _
  · rename_i hg
    obtain ⟨hth, halloc⟩ := target_live hg
    obtain ⟨hne, hctx⟩ := hc hth halloc
    generalize targetId k.active thread = th at *
    have h1 := h.ctxPcExit hne
    have hl : (k.ctxPcExit th).framePc th = .threadExit := by
      rw [framePc_ctxPcExit hne, if_pos rfl]
    have hq := h1.tidy.cancel hth ⟨halloc, .inl hctx⟩ hl
    have hsq := ((((h.sane.q.bitWr (k.q.thStat th / 2) hth false).bitWr wqCanceled hth true).setStat
      th (.inr (.inr (.inr rfl)))).bitWr wqTmshare hth false).bitWr wqClock hth false
    refine Live.arg0 (Live.same (h1.withQueues hsq hq (fun t ht hd => ?_) (fun hp ha => ?_))
      (.ctxR0 _ th code) rfl rfl) _ _
    · have hne' : t ≠ th := by
        rintro rfl
        rw [show (k.ctxPcExit t).thAlloc.rd t = k.thAlloc.rd t from rfl, halloc] at hd
        cases hd
      refine .inl ?_
      rw [thStat_bitWr, thStat_bitWr, thStat_setStat, if_neg hne']
      rfl
    · have hne' : (k.ctxPcExit th).active ≠ th := hne.symm
      have hx : (k.ctxPcExit th).active < 32 := by omega
      rw [mem_bitWr (by omega) hx, if_neg (by tauto),
        mem_bitWr (by omega) hx, if_neg (by tauto), mem_setStat,
        mem_bitWr (by omega) hx, if_neg (by tauto),
        mem_bitWr (by omega) hx, if_neg (by tauto)]
      exact h1.ready hp ha

theorem Live.framePcExit : (k.framePcExit k.active).Lives fresh := by
  refine ⟨h.sane.congr rfl rfl rfl rfl h.sane.alloc, ?_, h.dead, h.active, h.critical, h.ready⟩
  refine h.tidy.mono (fun t _ _ hok => hok) fun t _ _ hl => ?_
  unfold framePc Kernel.framePcExit at *
  by_cases ha : t = k.active
  · subst ha
    simp [storeFrame_self]
  · simp only [ha, if_false] at hl ⊢
    rw [storeFrame_of_ne (.inl ha)]
    exact hl

section
variable (hp : k.pendsv = false) (ha : k.active < threadsMax)
include hp ha

theorem Live.block (hst : k.q.thStat k.active = 0) {w : Nat} (hw : Queues.IsEntry w false)
    (hl : w = wqCanceled → k.framePc k.active = .threadExit) :
    (((k.wqInsert w k.active).suspend k.active).deferSched).Lives fresh := by
  have hsq : (k.q.enqueue w k.active false).Sane := by
    rcases hw with hw | ⟨rfl, -⟩
    · exact h.sane.q.enqueue hw ha
    · exact h.sane.insertCanceled ha
  refine h.of_kept ((Kept.fields.trans Kept.fields).trans (.deferSched _)) (fun _ => .inl rfl)
    ((h.sane.withQueues hsq).suspend ha).deferSched
    (h.tidy.block ha (h.runs hp ha) hw (h.ready hp ha) hst hl) (fun t ht hd => ?_)
    (fun hp _ => by cases hp)
  refine .inl ?_
  show ((k.q.wqInsert w k.active).suspend k.active).thStat t = k.q.thStat t
  rw [thStat_suspend, thStat_wqInsert, if_neg (h.ne_active ht hd)]

theorem Live.exitSvc (hu : k.framePc k.active = .user) : (k.exitSvc k.active).Lives fresh := by
  have hst := h.stat_zero hp ha hu
  have h1 := h.framePcExit
  have hl : (k.framePcExit k.active).framePc k.active = .threadExit := by
    unfold framePc Kernel.framePcExit
    simp [storeFrame_self]
  simp only [Kernel.exitSvc]
  split
  · exact h1.block hp ha hst (.inr ⟨rfl, rfl⟩) fun _ => hl
  · exact h1

theorem Live.joinSvc (hu : k.framePc k.active = .user) (thread : Word) :
    (k.joinSvc k.active thread).Lives fresh := by
  have hle := threadsMax_le
  have hst := h.stat_zero hp ha hu
  simp only [Kernel.joinSvc]
  split
  · exact h.arg0 _ _
  · rename_i hg
    obtain ⟨hth, -⟩ := target_live hg
    generalize (thread - 1).toNat = th at hth
    refine Live.arg0 ?_ _ _
    have hw : Queues.IsEntry (joinBase + th) false := .inl (.inl (isObj_join hth))
    have hwc : joinBase + th = wqCanceled → False := (obj_lt_end (isObj_join hth)).2.2
    split
    · rename_i hm
      have hrd : ((k.q.bitWr wqCanceled th false).bitWr wqReady th true).mem wqReady k.active =
          true := by
        rw [mem_bitWr (by omega) (by omega)]
        split
        · rfl
        · rw [mem_bitWr (by omega) (by omega), if_neg (by omega)]
          exact h.ready hp ha
      have h1 := h.withQueues ((h.sane.q.bitWr _ hth _).bitWr _ hth _)
        (h.tidy.join h.sane.q hth hm) (fun _ _ _ => .inl rfl) (fun _ _ => hrd)
      exact h1.block hp ha hst hw fun hc => absurd hc hwc
    · exact h.block hp ha hst hw fun hc => absurd hc hwc

end

end

/-! ## Termination and creation -/

/-- The thread leaves its queues, then the threads joined on it are woken. -/
theorem threadDetach_raised (k : Kernel) (hth : th < threadsMax) (code : Word) :
    Raised (· = joinBase + th) th
      { k with q := ((k.q.bitWr wqTmshare th false).setStat th 0).bitWr (k.q.thStat th / 2) th false }
      (k.threadDetach th code) := by
  simp only [Kernel.threadDetach]
  split
  · refine Raised.trans ?_ raised_deferSched
    exact wakeAll_raised _ th (joinBase + th) code (isObj_join hth) rfl
  · exact .refl _

theorem threadDetach_kept (k : Kernel) (hth : th < threadsMax) (code : Word) :
    Kept k (k.threadDetach th code) ∧ (k.threadDetach th code).ctx = k.ctx ∧
      (((k.q.bitWr wqTmshare th false).setStat th 0).bitWr (k.q.thStat th / 2) th false).Wakes
        (k.threadDetach th code).q := by
  have hr := k.threadDetach_raised hth code
  exact ⟨Kept.fields.trans hr.toKept, hr.ctx, hr.eff⟩

omit [Config] in
theorem framePc_of_ne (ha : t = k'.active ↔ t = k.active) (hs : k'.psp = k.psp)
    (hpc : ∀ sp, (k'.stack t sp).pc = (k.stack t sp).pc) (hc : k'.ctx t = k.ctx t) :
    k'.framePc t = k.framePc t := by
  unfold framePc
  by_cases h : t = k.active
  · rw [if_pos h, if_pos (ha.mpr h), hs, hpc]
  · rw [if_neg h, if_neg (fun h' => h (ha.mp h')), hc, hpc]

theorem Live.terminateSvc (h : k.Lives fresh) (thread code : Word)
    (hc : targetId k.active thread < threadsMax → k.thAlloc.rd (targetId k.active thread) = true →
      k.q.mem wqClock (targetId k.active thread) = true →
      k.q.thStat (targetId k.active thread) / 2 = wqClock) :
    (k.terminateSvc k.active thread code).Lives fresh := by
  have hb := wq_order
  simp only [Kernel.terminateSvc]
  split
  · exact h.arg0 _ _
  · rename_i hg
    obtain ⟨hth, halloc⟩ := target_live hg
    have hclk := hc hth halloc
    generalize targetId k.active thread = th at *
    obtain ⟨hkept, hctx, hwakes⟩ := k.threadDetach_kept hth code
    have hsane := h.sane.threadDetach hth code
    obtain ⟨htidy, hno⟩ := h.tidy.detach hth hclk
    have hq0 := ((h.sane.q.bitWr wqTmshare hth false).setStat th (.inl rfl)).bitWr
      (k.q.thStat th / 2) hth false
    have htidy1 := htidy.wakes hq0 hwakes
    have hst0 : ∀ t, (((k.q.bitWr wqTmshare th false).setStat th 0).bitWr (k.q.thStat th / 2) th
        false).thStat t = if t = th then 0 else k.q.thStat t := fun t => thStat_setStat
    obtain ⟨hst, hbits⟩ := hwakes.untouched (t := th) (by omega) fun w hw => by
      have := clock_lt_obj hw
      have := obj_lt_end hw
      exact hno w (by omega) (by omega) (by omega)
    rw [hst0, if_pos rfl] at hst
    generalize k.threadDetach th code = k1 at *
    have hact : ∀ t, t < threadsMax → t ≠ th → (t = (k1.threadAbort th).active ↔ t = k.active) := by
      intro t ht hne
      show (t = if th = k1.active then threadVoid else k1.active) ↔ _
      rw [hkept.active]
      split
      · unfold threadVoid
        omega
      · rfl
    have hctx' : ∀ t, t ≠ th → (k1.threadAbort th).ctx t = k.ctx t := by
      intro t hne
      show update k1.ctx th none t = _
      rw [update_of_ne hne, hctx]
    have hal : ∀ t, t ≠ th → (k1.threadAbort th).thAlloc.rd t = k.thAlloc.rd t := by
      intro t hne
      show (k1.thAlloc.wr th false).rd t = _
      rw [rd_wr, if_neg (Ne.symm hne), hkept.thAlloc]
    refine ⟨hsane.threadAbort hth, ?_, fun t ht hd => ?_, fun ha => ?_, hkept.criticalCnt.trans
      h.critical, fun hp => by cases hp⟩
    · refine (htidy1.suspend th).mono (fun t ht hex hok => ?_) fun t ht hs hl => ?_
      · by_cases hne : t = th
        · exfalso
          subst hne
          obtain ⟨w, hw, hp, hm⟩ := hex
          have hts : k1.q.mem wqTmshare t = false := by
            rw [hbits]
            exact hno _ (by omega) (by omega) (by omega)
          by_cases h0 : w = wqReady
          · rw [h0, mem_suspend_ready (by omega), hts] at hm
            simp at hm
          · by_cases h1 : w = wqTmshare
            · rw [h1, mem_suspend_tmshare (by omega), hts] at hm
              simp at hm
            · rw [mem_suspend_of_ne (by omega) h0 h1, hbits, hno w hw hp h0] at hm
              cases hm
        · refine ⟨(hal t hne).trans hok.1, ?_⟩
          rw [hctx' t hne, hact t ht hne]
          exact hok.2
      · have hne : t ≠ th := by
          rintro rfl
          rw [thStat_suspend, hst] at hs
          omega
        rw [framePc_of_ne (hact t ht hne) hkept.psp (fun sp => hkept.pc t sp) (hctx' t hne)]
        exact hl
    · show (k1.q.suspend th).thStat t = 0
      rw [thStat_suspend]
      by_cases hne : t = th
      · rw [hne]
        exact hst
      · rw [hal t hne] at hd
        have hz := h.dead t ht hd
        rcases hwakes.thStat t with hs | hs
        · rw [hs, hst0, if_neg hne]
          exact hz
        · exact hs
    · have hne : (k1.threadAbort th).active ≠ th := by
        intro he
        have hx : (if th = k1.active then threadVoid else k1.active) = th := he
        split at hx
        · unfold threadVoid at hx
          omega
        · omega
      rw [hal _ hne]
      have he := (hact _ ha hne).mp rfl
      rw [he]
      exact h.active (he ▸ ha)

theorem Live.newThread (h : k.Lives fresh) (hfree : k.thAlloc.rd th = false) (hs : k'.Sane)
    (hal : k'.thAlloc = k.thAlloc.wr th true) (hact : k'.active = k.active)
    (hcrit : k'.criticalCnt = k.criticalCnt) (hpend : k'.pendsv = k.pendsv)
    (hpsp : k'.psp = k.psp) (hstack : ∀ t, t ≠ th → k'.stack t = k.stack t)
    (hctx : ∀ t, t ≠ th → k'.ctx t = k.ctx t)
    (hq : ∀ w t, w ≠ wqPaused → t < threadsMax → k'.q.mem w t = k.q.mem w t)
    (hst : k'.q.thStat = k.q.thStat) : k'.Lives fresh := by
  have hb := wq_order
  have hrd : ∀ t, t ≠ th → k'.thAlloc.rd t = k.thAlloc.rd t := by
    intro t hne
    rw [hal, rd_wr, if_neg (Ne.symm hne)]
  refine ⟨hs, ?_, fun t ht hd => ?_, fun ha => ?_, hcrit.trans h.critical, fun hp ha => ?_⟩
  · have htidy := h.tidy.sub (fun w t hw ht hm => by rwa [hq w t hw ht] at hm) hst
    refine htidy.mono (fun t ht _ hok => ?_) fun t ht hc hl => ?_
    · have hne : t ≠ th := by
        rintro rfl
        have := hok.1
        rw [hfree] at this
        cases this
      exact ⟨(hrd t hne).trans hok.1, by rw [hctx t hne, hact]; exact hok.2⟩
    · have hne : t ≠ th := by
        rintro rfl
        rw [hst, h.dead t ht hfree] at hc
        omega
      rw [framePc_of_ne (by rw [hact]) hpsp (fun sp => by rw [hstack t hne]) (hctx t hne)]
      exact hl
  · have hne : t ≠ th := by
      rintro rfl
      rw [hal, rd_wr, if_pos rfl] at hd
      cases hd
    rw [hst]
    exact h.dead t ht ((hrd t hne).symm.trans hd)
  · rw [hal, rd_wr]
    split
    · rfl
    · rw [hact] at *
      exact h.active ha
  · rw [hact] at *
    rw [hq _ _ (by omega) ha]
    exact h.ready (hpend.symm.trans hp) ha

theorem Live.threadCreateSvc (h : k.Lives fresh) (init : ThreadInit) :
    (k.threadCreateSvc k.active init).Lives fresh := by
  have hle := threadsMax_le
  unfold Kernel.threadCreateSvc
  split
  · exact h.arg0 _ _
  · rename_i th hslot
    have hth := h.sane.slot_lt hslot
    have hne : threadIdle ≠ th := by
      unfold threadIdle
      omega
    have hfree : k.thAlloc.rd th = false := by
      unfold Bitmap.rd
      rw [show th / 32 = 0 by omega, show th % 32 = th by omega]
      exact (threadSlot_eq_some hslot).2
    have hal := h.sane.allocWr true hth
    have hnone : ∀ w, w < wqLstEnd → w ≠ wqPaused → k.q.mem w th = false := by
      intro w hw hp
      refine eq_false_iff.mpr fun hm => ?_
      have := (h.tidy.queued w th hw hp hth hm).1
      rw [hfree] at this
      cases this
    simp only
    split
    · refine Live.arg0 ?_ _ _
      exact h.newThread hfree (h.sane.congr rfl rfl rfl rfl hal) rfl rfl rfl rfl rfl (fun _ _ => rfl)
        (fun _ _ => rfl) (fun _ _ _ _ => rfl) rfl
    · apply Live.arg0
      generalize hsp : (init.stackPtr + init.stackSize.toNat) = sp
      have hinit : ∀ pri limit val, ∀ k1 : Kernel, k1 = ({ k with
          thAlloc := k.thAlloc.wr th true, schedPri := update k.schedPri th pri,
          schedLimit := limit, schedVal := update k.schedVal th val }).threadInit th sp
          init.arg → k1.Lives fresh := by
        rintro pri limit val _ rfl
        refine h.newThread hfree (Sane.threadInit ?_ hth _ _) rfl rfl rfl rfl rfl (fun t ht => ?_)
          (fun t ht => ?_) (fun w t hw ht => ?_) rfl
        · exact h.sane.congr rfl rfl (update_of_ne hne _ _) (update_of_ne hne _ _)
            hal
        · exact update_of_ne ht _ _
        · exact update_of_ne ht _ _
        · show (k.q.bitWr wqPaused th true).mem w t = k.q.mem w t
          rw [mem_bitWr (by omega) (by omega), if_neg (by tauto)]
      split
      · exact hinit _ _ _ _ rfl
      · refine Live.deferSched ?_
        refine (hinit _ _ _ _ rfl).threadResume hth ?_ fun _ w hw h1 h2 h3 => ?_
        · refine ⟨?_, .inl ?_⟩
          · show (k.thAlloc.wr th true).rd th = true
            rw [rd_wr, if_pos rfl]
          · show update k.ctx th _ th ≠ none
            rw [update_self]
            simp
        · show (k.q.bitWr wqPaused th true).mem w th = false
          rw [mem_bitWr (by omega) (by omega), if_neg (by tauto)]
          exact hnone w hw h1

/-! ## Every step -/

/-- A termination does not name a thread in a timed wait on an object, a cancellation names
another thread that has a context, and a resume a thread that is nowhere but paused. -/
def CallCareful (k : Kernel) : Call → Prop
  | .terminate thread _ =>
    targetId k.active thread < threadsMax → k.thAlloc.rd (targetId k.active thread) = true →
      k.q.mem wqClock (targetId k.active thread) = true →
      k.q.thStat (targetId k.active thread) / 2 = wqClock
  | .cancel thread _ =>
    targetId k.active thread < threadsMax → k.thAlloc.rd (targetId k.active thread) = true →
      targetId k.active thread ≠ k.active ∧ k.ctx (targetId k.active thread) ≠ none
  | .resume thread =>
    (thread - 1).toNat < threadsMax → k.q.mem wqPaused (thread - 1).toNat = true →
      k.OnlyPaused (thread - 1).toNat
  | .criticalEnter | .criticalExit => False
  | _ => True

/-- The events of the thread life cycle. Critical sections and interrupt waits are left out; a
tick charges a slot that has a bit in a queue word. -/
def Careful (k : Kernel) : Event → Prop
  | .svc _ c => k.CallCareful c
  | .tick _ => k.active < 32 ∨ 0 ≤ k.sliceVal.toInt
  | .irq _ (.irq _) => False
  | .irq _ _ | .sched _ => True

instance (k : Kernel) (c : Call) : Decidable (k.CallCareful c) := by
  apply Call.casesOn (motive := fun c => Decidable (k.CallCareful c)) c <;> intros <;>
    (dsimp only [CallCareful]; infer_instance)

instance (k : Kernel) : (e : Event) → Decidable (k.Careful e)
  | .svc _ c => inferInstanceAs (Decidable (k.CallCareful c))
  | .tick _ => inferInstanceAs (Decidable (_ ∨ _))
  | .irq _ (.irq _) => inferInstanceAs (Decidable False)
  | .irq _ (.semPost _) | .irq _ (.evRaise _ _) | .irq _ (.flagGive _) | .irq _ (.gateOpen _)
  | .sched _ => inferInstanceAs (Decidable True)

section
variable (h : k.Lives fresh)
include h

theorem Live.irqWaitSvc (ha : k.active < threadsMax) (irq : Word) :
    (k.irqWaitSvc k.active irq).Lives fresh := by
  unfold Kernel.irqWaitSvc
  split
  · exact h.arg0 _ _
  · have h1 := h.arg0 k.active 0
    have h2 : (((k.arg0 k.active 0).suspend k.active).deferSched).Live fresh _ := h1.of_kept
      (Kept.fields.trans (.deferSched _)) (fun _ => .inl rfl) (h1.sane.suspend ha).deferSched
      (h1.tidy.suspend _) (fun _ _ _ => .inl rfl) (fun hp _ => by cases hp)
    exact { h2 with sane := h2.sane.congr rfl rfl rfl rfl h2.sane.alloc }

theorem Live.svcIsr (hp : k.pendsv = false) (ha : k.active < threadsMax) {c : Call} {r : Word}
    (hu : k.framePc k.active = .user ∨ c = .terminate 0 r) (hc : k.CallCareful c) :
    (k.svcIsr k.active c).Lives fresh := by
  have hle := threadsMax_le
  by_cases ho : c.onObject = true
  · have hu' : k.framePc k.active = .user := by
      rcases hu with hu | rfl
      · exact hu
      · cases ho
    exact h.served hp ha hu' (svcIsr_served k k.active c (by omega) ho)
  · cases c with
    | threadCreate init => exact h.threadCreateSvc init
    | irqWait irq => exact h.irqWaitSvc ha irq
    | join thread => exact h.joinSvc hp ha (hu.resolve_right (by simp)) thread
    | pause thread => exact h.pauseSvc thread
    | resume thread => exact h.resumeSvc thread hc
    | cancel thread code => exact h.cancelSvc thread code hc
    | exit code => exact h.exitSvc hp ha (hu.resolve_right (by simp))
    | terminate thread code => exact h.terminateSvc thread code hc
    | ctlAbort => exact (h.arg0 k.active 0).pauseAll
    | criticalEnter => exact False.elim hc
    | criticalExit => exact False.elim hc
    | _ => exact absurd rfl ho

theorem Live.timeWakeup {j : Nat} (hj : j < threadsMax) (hm : k.q.mem wqClock j = true) :
    (k.timeWakeup j).Lives fresh := by
  have hpre : ({ k with q := k.q.timeWakeup j }).preempt.pendsv = true := by
    unfold Kernel.preempt
    rw [if_pos h.critical]
    rfl
  refine h.of_kept (Kept.fields.trans (.preempt _)) (fun t => .inl ?_) ?_ ?_ (fun t _ _ => ?_)
    (fun hp _ => ?_)
  · exact congrFun ctx_preempt t
  · exact (h.sane.withQueues (h.sane.q.timeWakeup hj)).preempt
  · rw [q_timeWakeup]
    exact h.tidy.timeWakeup hj hm
  · rw [q_timeWakeup, thStat_timeWakeup]
    split
    · exact .inr rfl
    · exact .inl rfl
  · unfold Kernel.timeWakeup at hp
    rw [hpre] at hp
    cases hp

theorem Live.tickLoop :
    (tickLoop 32 (k.q.wqLst wqClock) { k with ticks := k.ticks + 1 }).Lives fresh := by
  have hb := wq_order
  refine tickLoop_invariant (I := fun k => k.Lives fresh) (fun k j hj hk hm _ => ?_) _ _ _
    (fun j hj hm => ?_) ?_
  · exact hk.timeWakeup (hk.sane.q.lt_of_mem (by omega) hj hm (by omega)) hm
  · rwa [mem_eq_getLsbD _ _ _ hj]
  · exact { h with sane := h.sane.congr rfl rfl rfl rfl h.sane.alloc }

theorem Live.timeshare (ho : k.active < 32 ∨ 0 ≤ k.sliceVal.toInt) : k.timeshare.Lives fresh := by
  have hs := h.sane.timeshare
  have heq := k.timeshare_eq
  have hcase := k.timeshare_q
  generalize k.timeshare = k' at hs heq hcase
  have hfp : k'.framePc = k.framePc := by
    rw [heq]
    rfl
  have hruns : k'.Runs fresh = k.Runs fresh := by
    rw [heq]
    rfl
  have hact : k'.active = k.active := by rw [heq]
  have hal : k'.thAlloc = k.thAlloc := by rw [heq]
  have hcr : k'.criticalCnt = k.criticalCnt := by rw [heq]
  rcases hcase with ⟨hq, hp⟩ | ⟨hv, hr, hq, hp⟩
  · refine ⟨hs, ?_, ?_, ?_, hcr.trans h.critical, ?_⟩
    · rw [hfp, hruns, hq]
      exact h.tidy
    · rw [hal, hq]
      exact h.dead
    · rw [hal, hact]
      exact h.active
    · rw [hp, hact, hq]
      exact h.ready
  · have hlt : k.active < threadsMax := by
      have := h.sane.slice_lt hv hr
      omega
    have hst : k'.q.thStat = k.q.thStat := by
      rw [hq]
      rfl
    refine ⟨hs, ?_, ?_, ?_, hcr.trans h.critical, fun hp' => ?_⟩
    · rw [hfp, hruns, hq]
      exact h.tidy.slice hlt hr
    · rw [hal, hst]
      exact h.dead
    · rw [hal, hact]
      exact h.active
    · rw [hp h.critical] at hp'
      cases hp'

theorem Live.systick (ho : k.active < 32 ∨ 0 ≤ k.sliceVal.toInt) : k.systick.Lives fresh := by
  refine h.tickLoop.timeshare ?_
  rw [tickLoop_eq]
  exact ho

omit h in
omit [Config] in
theorem resumePc_pendsvIsr : k.pendsvIsr.resumePc = k.framePc := by
  funext t
  rw [resumePc_eq, framePc_eq, resumeFrame_pendsvIsr]

/-- The scheduler saves the context of the thread it takes off the processor. -/
theorem Live.pendsvIsr : k.pendsvIsr.Live False k.pendsvIsr.resumePc := by
  have hle := threadsMax_le
  have hb := wq_order
  have hnew : k.pendsvIsr.active < threadsMax → k.q.mem wqReady k.pendsvIsr.active = true := by
    intro hlt
    have hlt' : lowBit (k.q.wqLst wqReady) < 32 := Nat.lt_of_lt_of_le hlt hle
    show k.q.mem wqReady (lowBit (k.q.wqLst wqReady)) = true
    rw [mem_eq_getLsbD _ _ _ hlt']
    exact getLsbD_lowBit hlt'
  have hctx : ∀ t, k.ctx t ≠ none ∨ (t = k.active ∧ fresh) → k.pendsvIsr.ctx t ≠ none := by
    intro t ht
    show update k.ctx k.active (some k.psp) t ≠ none
    by_cases ha : t = k.active
    · rw [ha, update_self]
      simp
    · rw [update_of_ne ha]
      exact ht.resolve_right fun hc => ha hc.1
  refine ⟨h.sane.pendsvIsr, ?_, h.dead, fun ha => ?_, h.critical, fun _ ha => hnew ha⟩
  · rw [resumePc_pendsvIsr]
    exact h.tidy.mono (fun t _ _ hok => ⟨hok.1, .inl (hctx t hok.2)⟩) fun _ _ _ hl => hl
  · exact (h.tidy.queued wqReady _ (by omega) (by omega) ha (hnew ha)).1

omit h in
theorem Live.weaken {pc : Nat → Pc} (h : k.Live False pc) : k.Live fresh pc :=
  ⟨h.sane, h.tidy.mono (fun _ _ _ hok => ⟨hok.1, .inl (hok.2.resolve_right fun hc => hc.2)⟩)
    fun _ _ _ hl => hl, h.dead, h.active, h.critical, h.ready⟩

omit h in
theorem Live.excEnter (h : k.Live fresh k.resumePc) (sp : Nat) : (k.excEnter sp).Lives fresh := by
  unfold Lives
  rw [framePc_excEnter]
  have hsane := h.sane.excEnter sp
  rw [excEnter_eq] at hsane ⊢
  exact { h with sane := hsane }

theorem Live.excLeave : k.excLeave.Live fresh k.excLeave.resumePc := by
  rw [resumePc_excLeave]
  have hsane := h.sane.excLeave
  rw [excLeave_eq] at hsane ⊢
  exact { h with sane := hsane }

end

theorem Live.step {e : Event} (h : k.Live fresh k.resumePc) (hc : k.Careful e)
    (hs : kernel.step k e = some k') : k'.Live fresh k'.resumePc := by
  cases e with
  | svc sp c =>
    obtain ⟨-, hm, rfl⟩ := step_svc hs
    rw [svc_eq]
    apply Live.excLeave
    have h1 : (k.svcEntry sp c).Lives fresh := by
      unfold Lives
      rw [framePc_svcEntry sp c hm.2.1]
      exact { h with sane := h.sane.congr rfl rfl rfl rfl h.sane.alloc }
    refine h1.svcIsr hm.2.1 hm.1 (r := k.reg.r0) (hm.2.2.imp (fun hu => ?_) id) hc
    rw [framePc_svcEntry sp c hm.2.1]
    unfold resumePc
    rw [if_pos ⟨rfl, hm.2.1⟩]
    exact hu
  | tick sp =>
    obtain ⟨-, rfl⟩ := step_tick hs
    refine Live.excLeave ((h.excEnter sp).systick ?_)
    rw [excEnter_eq]
    exact hc
  | irq sp op =>
    obtain ⟨-, hv, rfl⟩ := step_irq hs
    refine Live.excLeave ((h.excEnter sp).raised (irqIsr_raised _ op 0 (valid_excEnter sp hv) ?_))
    rintro n rfl
    exact hc
  | sched sp =>
    obtain ⟨-, rfl⟩ := step_sched hs
    exact (h.excEnter sp).pendsvIsr.weaken

end

theorem Live.run {k' : Kernel} (h : k.Live fresh k.resumePc) (hr : kernel.Run Kernel.Careful k k') :
    k'.Live fresh k'.resumePc :=
  hr.invariant (I := fun k => k.Live fresh k.resumePc) (fun _ _ _ h hc hs => h.step hc hs) h

theorem Booted.live {k : Kernel} (h : k.Booted) : k.Live True k.resumePc := by
  have hb := wq_order
  have hsane := h.sane
  obtain ⟨sp, id, priority, paused, hid, rfl⟩ := h
  have hal : (Kernel.init sp id priority paused).thAlloc.rd id = true := by
    show ((bmpInit threadsMax).wr id true).rd id = true
    rw [rd_wr, if_pos rfl]
  have hbit : ∀ w t, w < wqLstEnd → w ≠ wqPaused → t < threadsMax →
      (Kernel.init sp id priority paused).q.mem w t = true → w = wqReady ∧ t = id := by
    intro w t hw hp ht hm
    rcases (init_mem (by omega)).mp hm with ⟨hr, rfl | rfl⟩ | ⟨he, -⟩
    · exact ⟨hr, rfl⟩
    · exact absurd ht (Nat.lt_irrefl _)
    · exact absurd he hp
  have hready : (Kernel.init sp id priority paused).q.mem wqReady id = true :=
    (init_mem (by omega)).mpr (.inl ⟨rfl, .inl rfl⟩)
  refine ⟨hsane, ⟨fun w t hw hp ht hm => ?_, fun w t hw hp hk ht hm => ?_, fun _ _ _ => .inl rfl,
    fun t ht _ _ => ?_, fun t ht hm => ?_, fun t _ hs => ?_⟩, fun _ _ _ => rfl, fun _ => hal, rfl,
    fun _ _ => hready⟩
  · obtain ⟨-, rfl⟩ := hbit w t hw hp ht hm
    exact ⟨hal, .inr ⟨rfl, trivial⟩⟩
  · have := (hbit w t hw hp ht hm).1
    omega
  · refine eq_false_iff.mpr fun hm => ?_
    have := (hbit _ t (by omega) (by omega) ht hm).1
    omega
  · have := (hbit _ t (by omega) (by omega) ht hm).1
    omega
  · have hz : (0 : Nat) = 2 * wqCanceled := hs
    omega

end Kernel

end

namespace Kernel

end Kernel

end ThinkOS
