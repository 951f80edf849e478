import ThinkOS.Sched.Sane

/-!
# The time-share queue

A thread whose slice has ended waits in the time-share queue until no thread but idle is
ready; `__thinkos_suspend` then moves the whole queue back. So while a thread is in the
time-share queue some other thread has to be ready (`Shared`), or nothing will ever
collect the queue.

Every call that suspends a thread establishes `Shared` (`shared_suspend`), and wake-ups
keep it. Pause, cancel and abort clear the ready bit themselves: there it depends on
whether a ready thread is left (`LeavesReady`).
-/

namespace ThinkOS

open Lib List Queues Function Option

section
variable [Config] {th : Nat}

namespace Queues

/-- While a thread is in the time-share queue, a thread other than idle is ready. -/
def Shared (q : Queues) : Prop :=
  (∃ t, t < 32 ∧ q.mem wqTmshare t = true) → ∃ t, t < threadsMax ∧ q.mem wqReady t = true

instance (q : Queues) : Decidable q.Shared := inferInstanceAs (Decidable (_ → _))

section
variable {q : Queues} {q' : Queues}

/-- Whatever was in the queues before, suspending a thread collects a queue that would be left. -/
theorem shared_suspend (h : q.Sane) (hth : th ≠ threadIdle ∨ 32 ≤ th) : (q.suspend th).Shared := by
  have hb := wq_order
  rintro ⟨t, ht, hm⟩
  rw [mem_suspend_tmshare ht, Bool.and_eq_true] at hm
  have hne : ¬ q.wqLst wqReady &&& ~~~(1#32 <<< th) = 1#32 <<< threadIdle := by
    intro he
    have hcol : q.collects th = true := by
      unfold collects
      rw [he]
      simp
    rw [hcol] at hm
    cases hm.1
  -- the words differ in some bit, and it is not idle's
  obtain ⟨i, hi, hd⟩ : ∃ i, i < 32 ∧ (q.wqLst wqReady &&& ~~~(1#32 <<< th)).getLsbD i ≠
      (1#32 <<< threadIdle).getLsbD i := by
    apply Classical.byContradiction
    intro hall
    apply hne
    apply BitVec.eq_of_getLsbD_eq
    intro i hi
    apply Classical.byContradiction
    intro hd
    exact hall ⟨i, hi, hd⟩
  rw [BitVec.getLsbD_and, BitVec.getLsbD_not, getLsbD_one_shiftLeft, getLsbD_one_shiftLeft,
    ← mem_eq_getLsbD _ _ _ hi] at hd
  by_cases hid : i = threadIdle
  · have hlt : threadsMax < 32 := by
      unfold threadIdle at hid
      omega
    have hne' : threadIdle ≠ th := by omega
    rw [hid, h.idle hlt] at hd
    simp [hne'] at hd
  · simp only [hi, hid, decide_true, decide_false, Bool.true_and, Bool.and_true,
      Bool.not_eq_false, Bool.and_eq_true, ne_eq] at hd
    refine ⟨i, ?_, ?_⟩
    · rcases h.bound _ _ (by omega) hi hd.1 with hb | hb
      · exact hb
      · exact absurd hb.2 hid
    · rw [mem_suspend_ready hi, hd.1]
      have : i ≠ th := by simpa using hd.2
      simp [this]

theorem Shared.mono (h : q.Shared)
    (hr : ∀ t, t < threadsMax → q.mem wqReady t = true → q'.mem wqReady t = true)
    (hs : ∀ t, t < 32 → q'.mem wqTmshare t = true → q.mem wqTmshare t = true) : q'.Shared := by
  rintro ⟨t, ht, hm⟩
  obtain ⟨i, hi, him⟩ := h ⟨t, ht, hs t ht hm⟩
  exact ⟨i, hi, hr i hi him⟩

theorem Shared.wakes (h : q.Shared) (hw : q.Wakes q') : q'.Shared := by
  have hc := wq_order
  induction hw with
  | refl => exact h
  | wake w th _ hobj hth hm ih =>
    have hk := clock_lt_obj hobj
    refine ih.mono (fun t ht hr => ?_) (fun t ht hs => ?_)
    · rw [mem_wakeup hth (by omega) (by omega)]
      split
      · simp
      · exact hr
    · rw [mem_wakeup hth ht (by omega)] at hs
      split at hs
      · have : ¬ wqTmshare = wqReady := by omega
        simp only [this, decide_false, Bool.false_or, Bool.and_eq_true] at hs
        exact hs.1
      · exact hs

theorem Shared.callEff {b : Bool} (h : q.Shared) (hq : q.Sane) (hth : th < threadsMax)
    (he : q.CallEff th q' b) : q'.Shared := by
  have hc := ready_lt_clock
  have hne : th ≠ threadIdle ∨ 32 ≤ th := by
    unfold threadIdle
    omega
  cases he with
  | done hw => exact h.wakes hw
  | block w timed hw => exact shared_suspend (hq.enqueue hw hth) hne
  | handOver w timed m t hw hobj _ ht hm =>
    have := clock_lt_obj hobj
    have hlt := hq.lt_of_mem (obj_lt_end hobj).1 ht hm (by omega)
    exact shared_suspend ((hq.enqueue (.inl hw) hth).wakeup m hlt) hne

/-- If some thread of `S` is stopped and a thread outside `S` is in the time-share queue, then a
thread stays ready. -/
def LeavesReady (q : Queues) (S : Nat → Bool) : Prop :=
  (∃ t, t < 32 ∧ S t = true) → (∃ t, t < 32 ∧ q.mem wqTmshare t = true ∧ S t = false) →
    ∃ t, t < threadsMax ∧ q.mem wqReady t = true ∧ (S t = false ∨ q.thStat t ≠ 0)

instance (q : Queues) (S : Nat → Bool) : Decidable (q.LeavesReady S) :=
  inferInstanceAs (Decidable (_ → _))

theorem Shared.stop {S : Nat → Bool} (h : q.Shared) (hl : q.LeavesReady S)
    (hs : ∀ t, t < 32 → q'.mem wqTmshare t = true → q.mem wqTmshare t = true ∧ S t = false)
    (hr : ∀ t, t < threadsMax → q.mem wqReady t = true → (S t = false ∨ q.thStat t ≠ 0) →
      q'.mem wqReady t = true) : q'.Shared := by
  rintro ⟨t, ht, hm⟩
  obtain ⟨hmt, hns⟩ := hs t ht hm
  by_cases hex : ∃ t, t < 32 ∧ S t = true
  · obtain ⟨i, hi, hmi, hsi⟩ := hl hex ⟨t, ht, hmt, hns⟩
    exact ⟨i, hi, hr i hi hmi hsi⟩
  · have hle := threadsMax_le
    obtain ⟨i, hi, hmi⟩ := h ⟨t, ht, hmt⟩
    refine ⟨i, hi, hr i hi hmi (.inl ?_)⟩
    cases hst : S i with
    | false => rfl
    | true => exact absurd ⟨i, by omega, hst⟩ hex

theorem Sane.stat_queue (h : q.Sane) (t : Nat) :
    q.thStat t / 2 ≠ wqPaused ∧ q.thStat t / 2 ≠ wqTmshare ∧
      (q.thStat t / 2 = wqReady ↔ q.thStat t = 0) := by
  have hb := wq_order
  rcases h.stat t with hs | hs
  · rw [hs]
    unfold wqReady wqTmshare wqClock at *
    omega
  · have := hs.queue
    omega

/-- The queue of a resumed thread's status is not the time-share queue. -/
theorem Shared.resumed (h : q.Shared) (hq : q.Sane) (hth : th < threadsMax) (hr : q.Resumed th q') :
    q'.Shared := by
  have hc := wq_order
  have hst := (hq.stat_queue th).2.1
  have hbit : ∀ (p : Queues) (w : Nat) (v : Bool), p.Shared → w ≠ wqTmshare →
      (w = wqReady → v = true) → (p.bitWr w th v).Shared := by
    intro p w v hp hw hv
    refine hp.mono (fun t ht hm => ?_) (fun t ht hm => ?_)
    · rw [mem_bitWr (by omega) (by omega)]
      split
      · rename_i he
        exact hv he.1.symm
      · exact hm
    · rw [mem_bitWr (by omega) ht, if_neg (by omega)] at hm
      exact hm
  cases hr with
  | back ho =>
    exact hbit _ _ _ (hbit _ _ _ h hst fun _ => rfl) (by omega) (by omega)
  | again => exact hbit _ _ _ h hst fun _ => rfl
  | grant => exact hbit _ _ _ h (by omega) fun _ => rfl
  | none => exact h

theorem Shared.timeWakeup (h : q.Shared) (hth : th < 32) : (q.timeWakeup th).Shared := by
  have hc := wq_order
  refine h.mono (fun t ht hm => ?_) (fun t ht hm => ?_)
  · rw [mem_timeWakeup hth (by omega)]
    split
    · simp
    · exact hm
  · rw [mem_timeWakeup hth ht] at hm
    split at hm
    · have : ¬ wqTmshare = wqReady := by omega
      simp only [this, decide_false, Bool.false_or, Bool.and_eq_true] at hm
      exact hm.1
    · exact hm

end

/-- A pause takes a thread that is not paused out of the time-share queue, and out of ready when
its status is 0. -/
theorem mem_threadPause_share {q : Queues} (h : q.Sane) {t : Nat} (hth : th < 32) (ht : t < 32) :
    ((q.threadPause th).mem wqTmshare t = true ↔
      q.mem wqTmshare t = true ∧ ¬ (t = th ∧ q.mem wqPaused t = false)) ∧
    ((q.threadPause th).mem wqReady t = true ↔
      q.mem wqReady t = true ∧ ¬ (t = th ∧ q.mem wqPaused t = false ∧ q.thStat t = 0)) ∧
    (t ≠ th → (q.threadPause th).mem wqPaused t = q.mem wqPaused t) := by
  have hb := wq_order
  obtain ⟨h1, h2, h3⟩ := h.stat_queue th
  by_cases hp : q.mem wqPaused th = true
  · have he : q.threadPause th = q := if_pos hp
    rw [he]
    refine ⟨⟨fun hm => ⟨hm, ?_⟩, fun hm => hm.1⟩, ⟨fun hm => ⟨hm, ?_⟩, fun hm => hm.1⟩, fun _ => rfl⟩
    · rintro ⟨rfl, hf⟩
      rw [hp] at hf
      cases hf
    · rintro ⟨rfl, hf, -⟩
      rw [hp] at hf
      cases hf
  · have hf : q.mem wqPaused th = false := by simpa using hp
    have e1 : ¬ wqTmshare = wqPaused := by omega
    have e2 : ¬ wqReady = wqPaused := by omega
    have e3 : ¬ wqReady = wqTmshare := by omega
    have e4 : ¬ wqReady = wqClock := by omega
    refine ⟨?_, ?_, fun hne => ?_⟩
    · rw [mem_threadPause hth ht hf h1]
      by_cases he : t = th
      · subst he
        simp [e1, hf]
      · simp [he]
    · rw [mem_threadPause hth ht hf h1]
      by_cases he : t = th
      · subst he
        simp only [if_true, e2, e3, e4, decide_false, Bool.false_or, Bool.and_eq_true,
          not_false_eq_true, and_true, decide_eq_true_eq, true_and, hf, ne_eq]
        rw [← h3, eq_comm (a := wqReady)]
      · simp [he]
    · rw [mem_threadPause hth ht hf h1, if_neg hne]

end Queues

/-! ## The calls that stop threads -/

namespace Kernel

/-- The threads a call takes out of the ready and time-share queues without suspending them. -/
def stops (k : Kernel) : Call → Nat → Bool
  | .pause thread, t =>
    decide (t = targetId k.active thread ∧ t < threadsMax) && k.thAlloc.rd t && (k.ctx t).isSome &&
      !k.q.mem wqPaused t
  | .cancel thread _, t => decide (t = targetId k.active thread ∧ t < threadsMax) && k.thAlloc.rd t
  | .ctlAbort, t => decide (t < threadsMax) && (k.ctx t).isSome && !k.q.mem wqPaused t
  | _, _ => false

/-- If the call stops a thread and another one stays in the time-share queue, then a ready thread
stays ready. -/
def LeavesReady (k : Kernel) (c : Call) : Prop := k.q.LeavesReady (k.stops c)

instance (k : Kernel) (c : Call) : Decidable (k.LeavesReady c) :=
  inferInstanceAs (Decidable (k.q.LeavesReady _))

/-- The condition on one event. -/
def KeepsSharing (k : Kernel) : Event → Prop
  | .svc _ c => k.LeavesReady c
  | _ => True

instance (k : Kernel) : (e : Event) → Decidable (k.KeepsSharing e)
  | .svc _ c => inferInstanceAs (Decidable (k.LeavesReady c))
  | .tick _ | .irq _ _ | .sched _ => inferInstanceAs (Decidable True)

section
variable {k : Kernel}

section
variable (h : k.q.Shared)
include h

theorem shared_pauseSvc (hk : k.Sane) {thread : Word} (hl : k.LeavesReady (.pause thread)) :
    (k.pauseSvc k.active thread).q.Shared := by
  have hle := threadsMax_le
  simp only [Kernel.pauseSvc]
  split
  · exact h
  · rename_i hg
    split
    · exact h
    · rename_i hp
      obtain ⟨hth, halloc, hctx⟩ := target_saved hg
      have hS : ∀ t, k.stops (.pause thread) t = decide (t = targetId k.active thread) := by
        intro t
        show (decide (t = targetId k.active thread ∧ t < threadsMax) && k.thAlloc.rd t &&
          (k.ctx t).isSome && !k.q.mem wqPaused t) = _
        by_cases he : t = targetId k.active thread
        · rw [he]
          simp [hth, halloc, hp, isSome_iff_ne_none, hctx]
        · simp [he]
      unfold LeavesReady at hl
      rw [funext hS] at hl
      generalize targetId k.active thread = th at hl hth hp
      refine h.stop hl (fun t ht hm => ?_) (fun t ht hm hs => ?_)
      · obtain ⟨hm', hn⟩ := (mem_threadPause_share hk.q (by omega) ht).1.mp hm
        refine ⟨hm', ?_⟩
        by_cases he : t = th
        · subst he
          exact absurd ⟨rfl, by simpa using hp⟩ hn
        · simpa using he
      · refine (mem_threadPause_share hk.q (by omega) (by omega)).2.1.mpr ⟨hm, ?_⟩
        rintro ⟨rfl, -, hst⟩
        simp [hst] at hs

theorem shared_cancelSvc (hk : k.Sane) {thread code : Word}
    (hl : k.LeavesReady (.cancel thread code)) : (k.cancelSvc k.active thread code).q.Shared := by
  have hb := wq_order
  simp only [Kernel.cancelSvc]
  split
  · exact h
  · rename_i hg
    obtain ⟨hth, halloc⟩ := target_live hg
    have hS : ∀ t, k.stops (.cancel thread code) t = decide (t = targetId k.active thread) := by
      intro t
      show (decide (t = targetId k.active thread ∧ t < threadsMax) && k.thAlloc.rd t) = _
      by_cases he : t = targetId k.active thread
      · rw [he]
        simp [hth, halloc]
      · simp [he]
    unfold LeavesReady at hl
    rw [funext hS] at hl
    generalize targetId k.active thread = th at hl hth
    have hx : th < 32 := by omega
    obtain ⟨-, -, hst⟩ := hk.q.stat_queue th
    show ((((k.q.bitWr (k.q.thStat th / 2) th false).wqInsert wqCanceled th).bitWr wqTmshare th
      false).bitWr wqClock th false).Shared
    refine h.stop hl (fun t ht hm => ?_) (fun t ht hm hs => ?_)
    · rw [mem_bitWr hx ht, if_neg (by omega), mem_bitWr hx ht] at hm
      split at hm
      · cases hm
      · rename_i hne
        rw [mem_wqInsert hx ht, if_neg (by omega), mem_bitWr hx ht, if_neg (by omega)] at hm
        exact ⟨hm, by simpa using hne⟩
    · have ht' : t < 32 := by omega
      have hne : ¬ (wqReady = k.q.thStat th / 2 ∧ t = th) := by
        rintro ⟨hr, rfl⟩
        simp [hst.mp hr.symm] at hs
      rw [mem_bitWr hx ht', if_neg (by omega), mem_bitWr hx ht', if_neg (by omega),
        mem_wqInsert hx ht', if_neg (by omega),
        mem_bitWr hx ht', if_neg hne]
      exact hm

omit h in
/-- The loop of `__thinkos_pause_all` over the threads of a list. -/
theorem pauseAll_loop {l : List Nat} : ∀ k : Kernel, k.Sane → (∀ x ∈ l, x < threadsMax) →
    ∀ t, t < 32 →
      ((l.foldl (fun k th => if k.ctx th = none then k else k.threadPause th) k).q.mem wqTmshare t =
          true →
        k.q.mem wqTmshare t = true ∧ ¬ (t ∈ l ∧ k.ctx t ≠ none ∧ k.q.mem wqPaused t = false)) ∧
      (k.q.mem wqReady t = true →
        ¬ (t ∈ l ∧ k.ctx t ≠ none ∧ k.q.mem wqPaused t = false ∧ k.q.thStat t = 0) →
        (l.foldl (fun k th => if k.ctx th = none then k else k.threadPause th) k).q.mem wqReady t =
          true) := by
  have hle := threadsMax_le
  induction l with
  | nil =>
    intro k _ _ t _
    exact ⟨fun hm => ⟨hm, by simp⟩, fun hm _ => hm⟩
  | cons th l ih =>
    intro k hk hl t ht
    have hth : th < threadsMax := hl th mem_cons_self
    have hl' : ∀ x ∈ l, x < threadsMax := fun x hx => hl x (mem_cons_of_mem _ hx)
    rw [foldl_cons]
    by_cases hctx : k.ctx th = none
    · rw [if_pos hctx]
      obtain ⟨ih1, ih2⟩ := ih k hk hl' t ht
      refine ⟨fun hm => ⟨(ih1 hm).1, ?_⟩, fun hm hn => ih2 hm ?_⟩
      · rintro ⟨hmem, hc, hp⟩
        rcases mem_cons.mp hmem with rfl | hmem
        · exact hc hctx
        · exact (ih1 hm).2 ⟨hmem, hc, hp⟩
      · rintro ⟨hmem, hc⟩
        exact hn ⟨mem_cons_of_mem _ hmem, hc⟩
    · rw [if_neg hctx]
      obtain ⟨ih1, ih2⟩ := ih (k.threadPause th) (hk.threadPause hth) hl' t ht
      obtain ⟨h1, h2, h3⟩ := mem_threadPause_share hk.q (t := t) (by omega : th < 32) ht
      refine ⟨fun hm => ?_, fun hm hn => ih2 (h2.mpr ⟨hm, ?_⟩) ?_⟩
      · obtain ⟨hm1, hn1⟩ := ih1 hm
        obtain ⟨hm0, hn0⟩ := h1.mp hm1
        refine ⟨hm0, ?_⟩
        rintro ⟨hmem, hc, hp⟩
        by_cases he : t = th
        · exact hn0 ⟨he, hp⟩
        · have hmem' : t ∈ l := by simpa [he] using hmem
          exact hn1 ⟨hmem', hc, (h3 he).trans hp⟩
      · rintro ⟨rfl, hp, hst⟩
        exact hn ⟨mem_cons_self, hctx, hp, hst⟩
      · rintro ⟨hmem, hc, hp, hst⟩
        have hst' : k.q.thStat t = 0 := by
          rw [← hst]
          exact congrFun thStat_threadPause.symm t
        have hp' : k.q.mem wqPaused t = false := by
          by_cases he : t = th
          · subst he
            cases hpa : k.q.mem wqPaused t with
            | false => rfl
            | true =>
              have hno : k.q.threadPause t = k.q := if_pos hpa
              change (k.q.threadPause t).mem wqPaused t = false at hp
              rw [hno, hpa] at hp
              cases hp
          · exact (h3 he).symm.trans hp
        exact hn ⟨mem_cons_of_mem _ hmem, hc, hp', hst'⟩

theorem shared_pauseAll (hk : k.Sane) (hl : k.LeavesReady .ctlAbort) : k.pauseAll.q.Shared := by
  have hle := threadsMax_le
  have hrange : ∀ x ∈ List.range threadsMax, x < threadsMax := fun x hx => List.mem_range.mp hx
  have hS : ∀ t, k.stops .ctlAbort t = true ↔
      t ∈ List.range threadsMax ∧ k.ctx t ≠ none ∧ k.q.mem wqPaused t = false := by
    intro t
    show (decide (t < threadsMax) && (k.ctx t).isSome && !k.q.mem wqPaused t) = true ↔ _
    simp [Option.isSome_iff_ne_none, and_assoc]
  refine h.stop hl (fun t ht hm => ?_) (fun t ht hm hs => ?_)
  · obtain ⟨hm', hn⟩ := (pauseAll_loop k hk hrange t ht).1 hm
    refine ⟨hm', ?_⟩
    rw [← hS t] at hn
    simpa using hn
  · refine (pauseAll_loop k hk hrange t (by omega)).2 hm ?_
    rintro ⟨hmem, hc, hp, hst⟩
    have hst' := (hS t).mpr ⟨hmem, hc, hp⟩
    rcases hs with hs | hs
    · rw [hst'] at hs
      cases hs
    · exact hs hst

theorem shared_threadResume (hk : k.Sane) (hth : th < threadsMax) :
    (k.threadResume th).q.Shared := by
  have hb := wq_order
  unfold Kernel.threadResume
  split
  · exact h
  · have hr := resumeType_resumes { k with q := k.q.bitWr wqPaused th false } th
    have hq : (k.q.bitWr wqPaused th false).Shared := by
      refine h.mono (fun t ht hm => ?_) (fun t ht hm => ?_)
      · rw [mem_bitWr (by omega) (by omega), if_neg (by omega)]
        exact hm
      · rw [mem_bitWr (by omega) ht, if_neg (by omega)] at hm
        exact hm
    exact hq.resumed (hk.q.bitWr _ hth _) hth hr.eff

/-! ## Every step -/

theorem shared_threadCreateSvc (hk : k.Sane) (self : Nat) (init : ThreadInit) :
    (k.threadCreateSvc self init).q.Shared := by
  have hb := wq_order
  unfold Kernel.threadCreateSvc
  split
  · exact h
  · rename_i th hslot
    have hth := hk.slot_lt hslot
    have hne : threadIdle ≠ th := by
      unfold threadIdle
      omega
    have hq : (k.q.bitWr wqPaused th true).Shared := by
      refine h.mono (fun t ht hm => ?_) (fun t ht hm => ?_)
      · rw [mem_bitWr (by omega) (by omega), if_neg (by omega)]
        exact hm
      · rw [mem_bitWr (by omega) ht, if_neg (by omega)] at hm
        exact hm
    simp only
    split
    · exact h
    · split
      · exact hq
      · show (Kernel.threadResume _ th).q.Shared
        apply shared_threadResume _ _ hth
        · exact hq
        · refine Sane.threadInit ?_ hth _ _
          exact hk.congr rfl rfl (update_of_ne hne _ _) (update_of_ne hne _ _)
            (hk.allocWr true hth)

theorem shared_svcIsr (hk : k.Sane) {c : Call} (hs : k.active < threadsMax) (hl : k.LeavesReady c) :
    (k.svcIsr k.active c).q.Shared := by
  have hle := threadsMax_le
  have hne : k.active ≠ threadIdle ∨ 32 ≤ k.active := by
    unfold threadIdle
    omega
  by_cases hc : c.onObject = true
  · obtain ⟨b, he, -⟩ := (svcIsr_served k k.active c (by omega) hc).eff
    exact h.callEff hk.q hs he
  · cases c with
    | threadCreate init => exact shared_threadCreateSvc h hk _ init
    | irqWait irq =>
      show (k.irqWaitSvc k.active irq).q.Shared
      unfold Kernel.irqWaitSvc
      split
      · exact h
      · exact shared_suspend hk.q hne
    | join thread =>
      show (k.joinSvc k.active thread).q.Shared
      simp only [Kernel.joinSvc]
      split
      · exact h
      · have hth : (thread - 1).toNat < threadsMax := by omega
        have hw : Queues.IsWait (joinBase + (thread - 1).toNat) false := .inl (isObj_join hth)
        refine shared_suspend (Queues.Sane.enqueue ?_ hw hs) hne
        split
        · exact (hk.q.bitWr _ hth _).bitWr _ hth _
        · exact hk.q
    | pause thread => exact shared_pauseSvc h hk hl
    | resume thread =>
      show (k.resumeSvc k.active thread).q.Shared
      simp only [Kernel.resumeSvc]
      split
      · exact h
      · split
        · exact h
        · exact shared_threadResume (k := k.arg0 k.active 0) h (hk.arg0 _ _) (by omega)
    | cancel thread code => exact shared_cancelSvc h hk hl
    | exit code =>
      show (k.exitSvc k.active).q.Shared
      simp only [Kernel.exitSvc]
      split
      · exact shared_suspend (hk.insertCanceled hs) hne
      · exact h
    | terminate thread code =>
      show (k.terminateSvc k.active thread code).q.Shared
      simp only [Kernel.terminateSvc]
      split
      · exact h
      · have hth : targetId k.active thread < threadsMax := by omega
        refine shared_suspend (hk.threadDetach hth code).q ?_
        unfold threadIdle
        omega
    | ctlAbort => exact shared_pauseAll (k := k.arg0 k.active 0) h (hk.arg0 _ _) hl
    | criticalEnter =>
      show k.criticalEnterSvc.q.Shared
      simp only [Kernel.criticalEnterSvc]
      split <;> exact h
    | criticalExit =>
      show (k.criticalExitSvc k.active).q.Shared
      simp only [Kernel.criticalExitSvc]
      split
      · exact h
      · split <;> exact h
    | _ => exact absurd rfl hc

theorem shared_systick (hk : k.Sane) : k.systick.q.Shared := by
  have hloop := tickLoop_invariant (I := fun k => k.q.Shared)
    (fun k j hj hk _ _ => by rw [q_timeWakeup]; exact hk.timeWakeup hj) 32 (k.q.wqLst wqClock)
    { k with ticks := k.ticks + 1 } (fun j hj hm => by rwa [mem_eq_getLsbD _ _ _ hj]) h
  have hk1 := hk.tickLoop
  simp only [Kernel.systick]
  generalize tickLoop 32 (k.q.wqLst wqClock) { k with ticks := k.ticks + 1 } = k1 at hloop hk1
  rcases k1.timeshare_q with ⟨hq, -⟩ | ⟨hv, hr, hq, -⟩
  · rw [hq]
    exact hloop
  · rw [hq]
    exact shared_suspend (hk1.slice hv hr) (.inl (hk1.slice_ne_idle hv))

theorem shared_irqIsr {op : IrqOp} (hv : op.Valid k) : (k.irqIsr op).q.Shared := by
  have hc := wq_order
  by_cases hn : ∀ n, op ≠ .irq n
  · exact h.wakes (irqIsr_raised k op 0 hv hn).eff
  · obtain ⟨n, rfl⟩ : ∃ n, op = .irq n := by simpa using hn
    have hlt : k.irqTh n < threadsMax := hv.2
    show (k.defaultIsr n).q.Shared
    unfold defaultIsr
    rw [q_preempt]
    refine h.mono (fun t ht hm => ?_) (fun t ht hm => ?_)
    · rw [mem_bitWr (by omega) (by omega)]
      split
      · rfl
      · exact hm
    · rw [mem_bitWr (by omega) ht, if_neg (by omega)] at hm
      exact hm

theorem shared_step {k' : Kernel} {e : Event} (hk : k.Sane) (hc : k.KeepsSharing e)
    (hs : kernel.step k e = some k') : k'.q.Shared := by
  cases e with
  | svc sp c =>
    obtain ⟨-, hm, rfl⟩ := step_svc hs
    rw [svc_eq, q_excLeave]
    exact shared_svcIsr (k := k.svcEntry sp c) h (hk.congr rfl rfl rfl rfl hk.alloc) hm.1 hc
  | tick sp =>
    obtain ⟨-, rfl⟩ := step_tick hs
    rw [q_excLeave]
    exact shared_systick (by rwa [q_excEnter]) (hk.excEnter sp)
  | irq sp op =>
    obtain ⟨-, hv, rfl⟩ := step_irq hs
    rw [q_excLeave]
    exact shared_irqIsr (by rwa [q_excEnter]) (valid_excEnter sp hv)
  | sched sp =>
    obtain ⟨-, rfl⟩ := step_sched hs
    show (k.excEnter sp).q.Shared
    rwa [q_excEnter]

end

end

theorem Booted.shared {k : Kernel} (h : k.Booted) : k.q.Shared := by
  have hb := wq_order
  obtain ⟨sp, id, priority, paused, -, rfl⟩ := h
  rintro ⟨t, ht, hm⟩
  rcases (init_mem ht).mp hm with ⟨hw, -⟩ | ⟨hw, -⟩ <;> omega

end Kernel

end

namespace Kernel

end Kernel

end ThinkOS
