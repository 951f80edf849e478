import ThinkOS.Sched.Sane

/-!
# The queue partition

Every live thread is in one place: in the paused queue and nowhere else (`InPaused`);
with status 0, in one of the ready and time-share queues and nowhere else (`Runnable`);
or in the queue its status names and, if the status is odd, in the clock queue
(`Waiting`).

The partition holds along a run whose steps are `Orderly`. It is not kept by the tick
that ends the active thread's time slice while a critical section disables preemption:
the thread goes on running from the time-share queue, and the next blocking call puts it
into a second queue.
-/

namespace ThinkOS

open Lib

section
variable [Config] {k k' : Kernel} {q' : Queues} {th w self : Nat} {c : Call}

namespace Queues

section
variable (q : Queues) (t : Nat)

def InPaused : Prop :=
  q.mem wqPaused t = true ∧ ∀ w, w < wqLstEnd → w ≠ wqPaused → q.mem w t = false

def Runnable : Prop :=
  q.thStat t = 0 ∧ q.mem wqReady t ≠ q.mem wqTmshare t ∧
    ∀ w, w < wqLstEnd → wqClock ≤ w → q.mem w t = false

def Waiting : Prop :=
  WaitStat (q.thStat t) ∧ q.mem (q.thStat t / 2) t = true ∧
    (q.mem wqClock t = true ↔ q.thStat t % 2 = 1) ∧
    ∀ w, w < wqLstEnd → w ≠ q.thStat t / 2 → w ≠ wqClock → q.mem w t = false

/-- The place of a thread. -/
def Placed : Prop := q.InPaused t ∨ q.Runnable t ∨ q.Waiting t

end

/-! ## The place of a thread decides its bits -/

section
variable {q : Queues} {t : Nat}

theorem Placed.of_ready (h : q.Placed t) (hr : q.mem wqReady t = true) : q.Runnable t := by
  have hb := wq_order
  rcases h with h | h | h
  · have := h.2 wqReady (by omega) (by omega)
    rw [hr] at this
    cases this
  · exact h
  · have hq := h.1.queue
    have := h.2.2.2 wqReady (by omega) (by omega) (by omega)
    rw [hr] at this
    cases this

theorem Placed.of_obj (h : q.Placed t) (hw : IsObj w) (hm : q.mem w t = true) :
    q.Waiting t ∧ q.thStat t / 2 = w := by
  have ho := obj_lt_end hw
  have hk := clock_lt_obj hw
  rcases h with h | h | h
  · rw [h.2 w ho.1 ho.2.1] at hm
    cases hm
  · rw [h.2.2 w ho.1 (by omega)] at hm
    cases hm
  · refine ⟨h, ?_⟩
    by_cases he : w = q.thStat t / 2
    · exact he.symm
    · rw [h.2.2.2 w ho.1 he (by omega)] at hm
      cases hm

theorem Placed.of_clock (h : q.Placed t) (hm : q.mem wqClock t = true) :
    q.Waiting t ∧ q.thStat t % 2 = 1 := by
  have hb := paused_bounds
  rcases h with h | h | h
  · rw [h.2 wqClock (by omega) (by omega)] at hm
    cases hm
  · rw [h.2.2 wqClock (by omega) (by omega)] at hm
    cases hm
  · exact ⟨h, h.2.2.1.mp hm⟩

theorem Placed.of_paused (h : q.Placed t) (hm : q.mem wqPaused t = true) : q.InPaused t := by
  have hb := paused_bounds
  rcases h with h | h | h
  · exact h
  · cases hm.symm.trans (h.2.2 wqPaused (by omega) (by omega))
  · have := h.1.queue
    cases hm.symm.trans (h.2.2.2 wqPaused (by omega) (by omega) (by omega))

theorem Runnable.of_ready (hs : q.thStat t = 0) (hr : q.mem wqReady t = true)
    (h : ∀ w, w < wqLstEnd → w ≠ wqReady → q.mem w t = false) : q.Runnable t := by
  have hb := wq_order
  refine ⟨hs, ?_, fun w hw hk => h w hw (by omega)⟩
  rw [hr, h wqTmshare (by omega) (by omega)]
  decide

theorem Placed.congr (h : q.Placed t) (hm : ∀ w, w < wqLstEnd → q'.mem w t = q.mem w t)
    (hs : q'.thStat t = q.thStat t) : q'.Placed t := by
  have hb := wq_order
  rcases h with h | h | h
  · refine .inl ⟨?_, fun w hw hne => ?_⟩
    · rw [hm _ (by omega)]
      exact h.1
    · rw [hm w hw]
      exact h.2 w hw hne
  · refine .inr (.inl ⟨hs.trans h.1, ?_, fun w hw hne => ?_⟩)
    · rw [hm _ (by omega), hm _ (by omega)]
      exact h.2.1
    · rw [hm w hw]
      exact h.2.2 w hw hne
  · have hq := h.1.queue
    refine .inr (.inr ?_)
    unfold Waiting
    rw [hs]
    refine ⟨h.1, ?_, ?_, fun w hw hne hnc => ?_⟩
    · rw [hm _ (by omega)]
      exact h.2.1
    · rw [hm _ (by omega)]
      exact h.2.2.1
    · rw [hm w hw]
      exact h.2.2.2 w hw hne hnc

end

/-! ## What the operations do to the place of a thread -/

section
variable {q : Queues} {t : Nat}

section
variable (h : q.Placed t)
include h

theorem Placed.wakeup (ht : t < 32) (hth : th < 32) (hw : IsObj w) (hm : q.mem w th = true) :
    (q.wakeup w th).Placed t := by
  have hwr : w ≠ wqReady := by
    have := clock_lt_obj hw
    have := ready_lt_clock
    omega
  by_cases he : t = th
  · subst he
    obtain ⟨hwait, hst⟩ := h.of_obj hw hm
    refine .inr (.inl (Runnable.of_ready ?_ ?_ ?_))
    · rw [thStat_wakeup, if_pos rfl]
    · rw [mem_wakeup hth ht hwr, if_pos rfl]
      simp
    · intro w' hw' hne
      rw [mem_wakeup hth ht hwr, if_pos rfl]
      by_cases h1 : w' = w ∨ w' = wqClock
      · have hd : ¬ (w' ≠ w ∧ w' ≠ wqClock) := by omega
        simp [hne, hd]
      · rw [hwait.2.2.2 w' hw' (by omega) (by omega)]
        simp [hne]
  · refine h.congr (fun w' _ => ?_) ?_
    · rw [mem_wakeup hth ht hwr, if_neg he]
    · rw [thStat_wakeup, if_neg he]

omit h in
theorem Placed.wakes (hw : q.Wakes q') (ht : t < 32) (h : q.Placed t) : q'.Placed t := by
  induction hw with
  | refl => exact h
  | wake w th _ hobj hth hm ih => exact ih.wakeup ht hth hobj hm

/-- Suspending another thread: at most the time-share queue is collected. -/
theorem Placed.suspend_other (ht : t < 32) (hne : t ≠ th) : (q.suspend th).Placed t := by
  have hb := wq_order
  have hother : ∀ w, w < wqLstEnd → wqClock ≤ w → (q.suspend th).mem w t = q.mem w t := by
    intro w _ hw
    exact mem_suspend_of_ne ht (by omega) (by omega)
  have hrun : ∀ w, w < wqLstEnd → q.mem wqReady t = false → q.mem wqTmshare t = false →
      (q.suspend th).mem w t = q.mem w t := by
    intro w hw hr hs
    by_cases h0 : w = wqReady
    · subst h0
      rw [mem_suspend_ready ht, hr, hs]
      simp
    · by_cases h1 : w = wqTmshare
      · subst h1
        rw [mem_suspend_tmshare ht, hs]
        simp
      · exact mem_suspend_of_ne ht h0 h1
  rcases h with h | h | h
  · exact Placed.congr (.inl h) (fun w hw => hrun w hw (h.2 _ (by omega) (by omega))
      (h.2 _ (by omega) (by omega))) rfl
  · refine .inr (.inl ⟨h.1, ?_, fun w hw hk => ?_⟩)
    · have hx := h.2.1
      rw [mem_suspend_ready ht, mem_suspend_tmshare ht]
      cases hr : q.mem wqReady t <;> cases hs : q.mem wqTmshare t <;> cases q.collects th <;>
        simp_all
    · rw [hother w hw hk]
      exact h.2.2 w hw hk
  · have hq := h.1.queue
    exact Placed.congr (.inr (.inr h)) (fun w hw => hrun w hw
      (h.2.2.2 _ (by omega) (by omega) (by omega)) (h.2.2.2 _ (by omega) (by omega) (by omega))) rfl

theorem Placed.enqueue_other (ht : t < 32) (hth : th < 32) (timed : Bool) (hne : t ≠ th) :
    (q.enqueue w th timed).Placed t := by
  refine h.congr (fun w' _ => ?_) ?_
  · rw [mem_enqueue hth ht, if_neg (by omega)]
  · rw [thStat_enqueue, if_neg hne]

theorem Placed.block (ht : t < 32) (timed : Bool) (hr : q.mem wqReady t = true)
    (hw : IsWait w timed)
    (hm : ∀ w', w' < wqLstEnd → q'.mem w' t = (q.enqueue w t timed).mem w' t)
    (hs : q'.thStat t = (q.enqueue w t timed).thStat t) : (q'.suspend t).Placed t := by
  have hb := wq_order
  have hrun := h.of_ready hr
  have hts : q.mem wqTmshare t = false := by
    have := hrun.2.1
    rw [hr] at this
    simpa using this
  have hkw : wqClock ≤ w := by
    rcases hw with hw | hw
    · have := clock_lt_obj hw
      omega
    · omega
  have hwe : w < wqLstEnd ∧ w ≠ wqPaused := by
    rcases hw with hw | hw
    · have := obj_lt_end hw
      omega
    · omega
  have hbit : ∀ w', w' < wqLstEnd → w' ≠ wqReady → w' ≠ wqTmshare →
      (q'.suspend t).mem w' t = decide (w' = w ∨ (timed = true ∧ w' = wqClock)) := by
    intro w' hlt h0 h1
    rw [mem_suspend_of_ne ht h0 h1, hm w' hlt, mem_enqueue ht ht]
    by_cases hd : w' = w ∨ (timed = true ∧ w' = wqClock)
    · rw [if_pos ⟨hd, rfl⟩]
      simp [hd]
    · rw [if_neg (by tauto), hrun.2.2 w' hlt (clock_le_of_ne h0 h1)]
      simp [hd]
  have htm : q'.mem wqTmshare t = false := by
    rw [hm _ (by omega), mem_enqueue ht ht, if_neg]
    · exact hts
    · rintro ⟨h1 | ⟨-, h1⟩, -⟩ <;> omega
  have hst : (q'.suspend t).thStat t = 2 * w + timed.toNat := by
    rw [thStat_suspend, hs, thStat_enqueue, if_pos rfl]
  refine .inr (.inr ?_)
  unfold Waiting
  rw [hst]
  have hmod : (2 * w + timed.toNat) % 2 = timed.toNat := by cases timed <;> simp
  rw [stat_div, hmod]
  refine ⟨?_, ?_, ?_, ?_⟩
  · rcases hw with hw | ⟨rfl, rfl⟩
    · exact .inr (.inl (by rw [stat_div]; exact hw))
    · exact .inl rfl
  · rw [hbit w hwe.1 (by omega) (by omega)]
    simp
  · rw [hbit wqClock (by omega) (by omega) (by omega)]
    rcases hw with hw | ⟨rfl, rfl⟩
    · have := clock_lt_obj hw
      have hne : wqClock ≠ w := by omega
      cases timed <;> simp [hne]
    · simp
  · intro w' hlt hne hnc
    by_cases h0 : w' = wqReady
    · subst h0
      rw [mem_suspend_ready ht, htm]
      simp
    · by_cases h1 : w' = wqTmshare
      · subst h1
        rw [mem_suspend_tmshare ht, htm]
        simp
      · rw [hbit w' hlt h0 h1]
        simp [hne, hnc]

theorem Placed.callEff (ht : t < 32) {b : Bool} (he : q.CallEff self q' b) (hself : self < 32)
    (hr : b = true → q.mem wqReady self = true) : q'.Placed t := by
  cases he with
  | done hw => exact h.wakes hw ht
  | block w timed hw =>
    by_cases hts : t = self
    · subst hts
      exact h.block ht timed (hr rfl) hw (fun _ _ => rfl) rfl
    · exact (h.enqueue_other ht hself timed hts).suspend_other ht hts
  | handOver w timed m th hw hobj hne hth hm =>
    have hmr : m ≠ wqReady := by
      have := clock_lt_obj hobj
      have := ready_lt_clock
      omega
    by_cases hts : t = self
    · subst hts
      have hth' : t ≠ th := by
        rintro rfl
        have hrun := h.of_ready (hr rfl)
        rw [hrun.2.2 m (obj_lt_end hobj).1 (by have := clock_lt_obj hobj; omega)] at hm
        cases hm
      refine h.block ht timed (hr rfl) (.inl hw) (fun w' _ => ?_) ?_
      · rw [mem_wakeup hth ht hmr, if_neg hth']
      · rw [thStat_wakeup, if_neg hth']
    · refine (Placed.wakeup (h.enqueue_other ht hself timed hts) ht hth hobj ?_).suspend_other ht hts
      rw [mem_enqueue hself hth]
      split
      · rfl
      · exact hm

/-! ## Pause and resume -/

theorem Placed.stat_ne_paused (hp : q.mem wqPaused t = false) : q.thStat t / 2 ≠ wqPaused := by
  have hb := paused_bounds
  rcases h with h | h | h
  · rw [h.1] at hp
    cases hp
  · rw [h.1]
    omega
  · exact h.1.queue.2.2.1

theorem Placed.threadPause (ht : t < 32) (hth : th < 32) (hq : q.Placed th)
    (hp : q.mem wqPaused th = false) : (q.threadPause th).Placed t := by
  have hs := hq.stat_ne_paused hp
  by_cases he : t = th
  · subst he
    refine .inl ⟨?_, fun w hw hne => ?_⟩
    · rw [mem_threadPause hth ht hp hs]
      simp
    · rw [mem_threadPause hth ht hp hs, if_pos rfl]
      rcases h with h | h | h
      · rw [h.1] at hp
        cases hp
      · by_cases hk : wqClock ≤ w
        · rw [h.2.2 w hw hk]
          simp [hne]
        · have hd : ¬ (w ≠ q.thStat t / 2 ∧ w ≠ wqTmshare ∧ w ≠ wqClock) := by
            rw [h.1]
            unfold wqClock at hk
            unfold wqTmshare
            omega
          simp [hne, hd]
      · by_cases hk : w = q.thStat t / 2 ∨ w = wqClock
        · have hd : ¬ (w ≠ q.thStat t / 2 ∧ w ≠ wqTmshare ∧ w ≠ wqClock) := by tauto
          simp [hne, hd]
        · rw [h.2.2.2 w hw (by tauto) (by tauto)]
          simp [hne]
  · refine h.congr (fun w _ => ?_) (by simp)
    rw [mem_threadPause hth ht hp hs, if_neg he]

/-- The statuses a blocking call writes, and 0. A join and a canceled thread are never timed. -/
def ResumeStat (s : Nat) : Prop :=
  s = 0 ∨ s = 2 * wqClock + 1 ∨ (IsObj (s / 2) ∧ (s / 2 < joinBase ∨ s % 2 = 0)) ∨
    s = 2 * wqCanceled

omit h in
theorem Waiting.of_bits (hs : WaitStat (q.thStat t))
    (h : ∀ w, w < wqLstEnd → q.mem w t =
      decide (w = q.thStat t / 2 ∨ (w = wqClock ∧ q.thStat t % 2 = 1))) : q.Waiting t := by
  have hq := hs.queue
  have hb := paused_bounds
  refine ⟨hs, ?_, ?_, fun w hw hne hnc => ?_⟩
  · rw [h _ hq.2.1]
    simp
  · rw [h _ (by omega)]
    simp only [decide_eq_true_eq, true_and]
    constructor
    · rintro (hc | hc)
      · rcases hs with hs | hs | hs
        · omega
        · have := clock_lt_obj hs
          omega
        · omega
      · exact hc
    · exact .inr
  · rw [h w hw]
    simp [hne, hnc]

theorem Placed.resumed (ht : t < 32) (hth : th < 32) (hq : q.InPaused th)
    (hst : ResumeStat (q.thStat th)) (hr : (q.bitWr wqPaused th false).Resumed th q') :
    q'.Placed t := by
  have hb := wq_order
  by_cases he : t = th
  · subst he
    have hoff : ∀ w, w < wqLstEnd → (q.bitWr wqPaused t false).mem w t = false := by
      intro w hw
      rw [mem_bitWr hth ht]
      by_cases hp : w = wqPaused
      · simp [hp]
      · rw [if_neg (by tauto)]
        exact hq.2 w hw hp
    have hstat : (q.bitWr wqPaused t false).thStat t = q.thStat t := rfl
    generalize q.bitWr wqPaused t false = p at hr hoff hstat
    rw [← hstat] at hst
    have hwait : p.thStat t ≠ 0 → WaitStat (p.thStat t) := by
      rintro hne
      rcases hst with h0 | h1 | h2 | h3
      · exact absurd h0 hne
      · exact .inl h1
      · exact .inr (.inl h2.1)
      · exact .inr (.inr h3)
    cases hr with
    | back hobj =>
      have hk := clock_lt_obj hobj
      have hne : p.thStat t ≠ 0 := by
        intro h0
        rw [h0] at hk
        omega
      refine .inr (.inr (Waiting.of_bits (hwait hne) ?_))
      intro w hw
      rw [mem_bitWr hth ht, mem_bitWr hth ht, hoff w hw]
      simp only [thStat_bitWr]
      by_cases h1 : w = wqClock
      · have : ¬ wqClock = p.thStat t / 2 := by omega
        simp only [h1, this, and_self, if_true, true_and, false_or]
        exact Bool.beq_eq_decide_eq _ _
      · by_cases h2 : w = p.thStat t / 2
        · have : ¬ p.thStat t / 2 = wqClock := by omega
          simp [h2, this]
        · simp [h1, h2]
    | again hw hp hlt =>
      by_cases h0 : p.thStat t = 0
      · have hz : p.thStat t / 2 = wqReady := by rw [h0]; decide
        refine .inr (.inl (Runnable.of_ready h0 ?_ fun w hlt' hne => ?_))
        · rw [mem_bitWr hth ht, if_pos ⟨hz.symm, rfl⟩]
        · rw [mem_bitWr hth ht, if_neg (by omega)]
          exact hoff w hlt'
      · refine .inr (.inr (Waiting.of_bits (by simpa using hwait h0) ?_))
        intro w hlt'
        rw [mem_bitWr hth ht, hoff w hlt']
        by_cases h2 : w = p.thStat t / 2
        · simp [h2]
        · have h1 : ¬ (w = wqClock ∧ p.thStat t % 2 = 1) := by
            rintro ⟨h1, hodd⟩
            rcases hst with h3 | h3 | h3 | h3
            · exact h0 h3
            · apply h2
              rw [h1, h3]
              decide
            · have := clock_lt_obj h3.1
              omega
            · omega
          simp [h2, h1]
    | grant hobj hlt =>
      refine .inr (.inl (Runnable.of_ready (by simp) ?_ ?_))
      · rw [mem_setStat, mem_bitWr hth ht]
        simp
      · intro w hw hne
        rw [mem_setStat, mem_bitWr hth ht, if_neg (by tauto)]
        exact hoff w hw
    | none hn =>
      exfalso
      rcases hst with h3 | h3 | h3 | h3
      · rw [h3] at hn
        omega
      · rw [h3] at hn
        omega
      · have := obj_lt_end h3.1
        omega
      · omega
  · refine h.congr (fun w _ => ?_) ?_
    · cases hr <;>
        simp only [mem_setStat, mem_bitWr hth ht] <;> simp [he]
    · cases hr <;> simp [he]

/-! ## The clock interrupt -/

theorem Placed.timeWakeup (ht : t < 32) (hth : th < 32) (hm : q.mem wqClock th = true) :
    (q.timeWakeup th).Placed t := by
  by_cases he : t = th
  · subst he
    obtain ⟨hw, -⟩ := h.of_clock hm
    refine .inr (.inl (Runnable.of_ready ?_ ?_ fun w hlt hne => ?_))
    · rw [thStat_timeWakeup, if_pos rfl]
    · rw [mem_timeWakeup hth ht]
      simp
    · rw [mem_timeWakeup hth ht, if_pos rfl]
      by_cases hd : w ≠ q.thStat t / 2 ∧ w ≠ wqClock
      · rw [hw.2.2.2 w hlt hd.1 hd.2]
        simp [hne]
      · simp [hne, hd]
  · refine h.congr (fun w _ => ?_) ?_
    · rw [mem_timeWakeup hth ht, if_neg he]
    · rw [thStat_timeWakeup, if_neg he]

/-- The end of a time slice: from ready to the time-share queue, or straight back. -/
theorem Placed.slice (ht : t < 32) (hth : th < 32) (hr : q.mem wqReady th = true) :
    ((q.bitWr wqTmshare th true).suspend th).Placed t := by
  have hb := wq_order
  by_cases he : t = th
  · subst he
    have hrun := h.of_ready hr
    refine .inr (.inl ⟨hrun.1, ?_, fun w hw hk => ?_⟩)
    · rw [mem_suspend_ready ht, mem_suspend_tmshare ht, mem_bitWr hth ht, mem_bitWr hth ht]
      cases (q.bitWr wqTmshare t true).collects t <;> simp
    · rw [mem_suspend_of_ne ht (by omega) (by omega), mem_bitWr hth ht, if_neg (by omega)]
      exact hrun.2.2 w hw hk
  · have hw : (q.bitWr wqTmshare th true).Placed t := by
      refine h.congr (fun w _ => ?_) rfl
      rw [mem_bitWr hth ht, if_neg (by tauto)]
    exact hw.suspend_other ht he

end

end

instance (q : Queues) (t : Nat) : Decidable (q.Placed t) := by
  unfold Placed InPaused Runnable Waiting WaitStat IsObj
  infer_instance

instance (s : Nat) : Decidable (ResumeStat s) := by
  unfold ResumeStat IsObj
  infer_instance

end Queues

/-! ## The partition along runs -/

/-- The events of the partition: the calls on objects and sleeps, pause and resume, the object
calls of interrupt handlers, ticks and scheduler runs. -/
def Event.movesThreads : Event → Bool
  | .svc _ (.pause _) | .svc _ (.resume _) => true
  | .svc _ c => c.onObject
  | .irq _ (.irq _) => false
  | .irq _ _ | .tick _ | .sched _ => true

namespace Kernel

/-- Every live thread is in one place. -/
def Partition (k : Kernel) : Prop :=
  ∀ t, t < threadsMax → k.thAlloc.rd t = true → k.q.Placed t

instance (k : Kernel) : Decidable k.Partition := by
  unfold Partition
  infer_instance

/-- What a call is made with: a caller that may be suspended is in the ready queue, an event's
number is below 32, and a paused thread was paused in a wait that some call writes. -/
def CallOrderly (k : Kernel) : Call → Prop
  | .pause _ => True
  | .resume thread =>
    (thread - 1).toNat < threadsMax → k.q.mem wqPaused (thread - 1).toNat = true →
      Queues.ResumeStat (k.q.thStat (thread - 1).toNat)
  | .evMask _ ev _ | .evClear _ ev => ev.toNat < 32
  | c => c.blocking = true → k.q.mem wqReady k.active = true

/-- The steps that keep the partition. A tick charges the slot of the active thread, which has
no bit in a queue word if its number is 32. -/
def Orderly (k : Kernel) (e : Event) : Prop :=
  e.movesThreads = true ∧
    match e with
    | .svc _ c => k.CallOrderly c
    | .tick _ => k.active < 32 ∨ 0 ≤ k.sliceVal.toInt
    | _ => True

instance (k : Kernel) (c : Call) : Decidable (k.CallOrderly c) := by
  unfold CallOrderly
  split <;> infer_instance

instance (k : Kernel) (e : Event) : Decidable (k.Orderly e) := by
  unfold Orderly
  split <;> infer_instance

section
variable (h : k.Partition)
include h

theorem Partition.congr (ha : k'.thAlloc = k.thAlloc)
    (hq : ∀ t, t < 32 → k.q.Placed t → k'.q.Placed t) : k'.Partition := by
  intro t ht hl
  have := threadsMax_le
  rw [ha] at hl
  exact hq t (by omega) (h t ht hl)

theorem Partition.excLeave : k.excLeave.Partition :=
  h.congr (by rw [excLeave_eq]) fun t _ hp => by rwa [q_excLeave]

theorem Partition.excEnter (sp : Nat) : (k.excEnter sp).Partition :=
  h.congr (by rw [excEnter_eq]) fun t _ hp => by rwa [q_excEnter]

theorem Partition.onObject (hs : self < 32) (hc : c.onObject = true)
    (hr : c.blocking = true → k.q.mem wqReady self = true) : (k.svcIsr self c).Partition := by
  by_cases hb : c.blocking = true
  · have hsv := svcIsr_served k self c hs hc
    obtain ⟨b, he, -⟩ := hsv.eff
    exact h.congr hsv.thAlloc fun t ht hp => hp.callEff ht he hs fun _ => hr hb
  · have hra := svcIsr_raised k self hc (by simpa using hb)
    exact h.congr hra.thAlloc fun t ht hp => hp.wakes hra.eff ht

theorem Partition.pauseSvc (self : Nat) (thread : Word) : (k.pauseSvc self thread).Partition := by
  have hle := threadsMax_le
  simp only [Kernel.pauseSvc]
  split
  · exact h
  · rename_i hg
    split
    · exact h
    · rename_i hp
      obtain ⟨hth, hl, -⟩ := target_saved hg
      exact h.congr rfl fun t ht hpl =>
        hpl.threadPause ht (by omega) (h _ hth hl) (by simpa using hp)

theorem Partition.resumeSvc (self : Nat) (thread : Word) (ho : k.CallOrderly (.resume thread)) :
    (k.resumeSvc self thread).Partition := by
  have hle := threadsMax_le
  simp only [Kernel.resumeSvc]
  split
  · exact h
  · rename_i hg
    split
    · exact h
    · rename_i hp
      obtain ⟨hth, hl, -⟩ := target_saved hg
      have hpa : k.q.mem wqPaused (thread - 1).toNat = true := by simpa using hp
      have hres := resumeType_resumes
        { k.arg0 self 0 with q := k.q.bitWr wqPaused (thread - 1).toNat false } (thread - 1).toNat
      rw [threadResume_of_paused (k := k.arg0 self 0) hp]
      exact h.congr hres.thAlloc fun t ht hpl =>
        hpl.resumed ht (by omega) ((h _ hth hl).of_paused hpa) (ho hth hpa) hres.eff

theorem Partition.svc (sp : Nat) (hm : k.MayCall c) (hl : (Event.svc sp c).movesThreads = true)
    (ho : k.CallOrderly c) : (k.svc sp c).Partition := by
  have hle := threadsMax_le
  have hs : k.active < 32 := by
    have := hm.1
    omega
  have he : (k.svcEntry sp c).Partition := h
  rw [svc_eq]
  apply Partition.excLeave
  cases c with
  | pause thread => exact he.pauseSvc _ _
  | resume thread => exact he.resumeSvc _ _ ho
  | evMask => exact he.onObject hs rfl (fun hb => by cases hb)
  | evClear => exact he.onObject hs rfl (fun hb => by cases hb)
  | _ => exact he.onObject hs hl ho

theorem Partition.systick (ho : k.active < 32 ∨ 0 ≤ k.sliceVal.toInt) : k.systick.Partition := by
  -- the woken threads first, then the active one
  have hloop : ∀ fuel wq (k : Kernel),
      (∀ j, j < 32 → wq.getLsbD j = true → k.q.mem wqClock j = true) → k.Partition →
      (tickLoop fuel wq k).Partition :=
    tickLoop_invariant fun k j hj hk hm _ =>
      hk.congr (by rw [timeWakeup_eq]) fun t ht hp => by
        rw [q_timeWakeup]
        exact hp.timeWakeup ht hj hm
  simp only [Kernel.systick]
  have hk1 := hloop 32 (k.q.wqLst wqClock) { k with ticks := k.ticks + 1 }
    (fun j hj hb => by rwa [Queues.mem_eq_getLsbD _ _ _ hj]) h
  have heq := tickLoop_eq 32 (k.q.wqLst wqClock) { k with ticks := k.ticks + 1 }
  generalize tickLoop 32 (k.q.wqLst wqClock) { k with ticks := k.ticks + 1 } = k1 at hk1 heq
  have hact : k1.active = k.active := by rw [heq]
  have hval : k1.sliceVal = k.sliceVal := by rw [heq]; rfl
  refine hk1.congr (by rw [timeshare_eq]) fun t ht hp => ?_
  rcases k1.timeshare_q with ⟨hq, -⟩ | ⟨hv, hr, hq, -⟩
  · rwa [hq]
  · rw [hq]
    rw [hval] at hv
    exact hp.slice ht (by omega) hr

theorem Partition.step {e : Event} (ho : k.Orderly e) (hs : kernel.step k e = some k') :
    k'.Partition := by
  cases e with
  | svc sp c =>
    obtain ⟨-, hm, rfl⟩ := step_svc hs
    exact h.svc sp hm ho.1 ho.2
  | tick sp =>
    obtain ⟨-, rfl⟩ := step_tick hs
    refine Partition.excLeave ((h.excEnter sp).systick ?_)
    have := ho.2
    rw [excEnter_eq]
    exact this
  | irq sp op =>
    obtain ⟨-, hv, rfl⟩ := step_irq hs
    have hr : Raised op.reach 0 (k.excEnter sp) ((k.excEnter sp).irqIsr op) := by
      refine irqIsr_raised _ op 0 (valid_excEnter sp hv) ?_
      rintro n rfl
      cases ho.1
    exact Partition.excLeave ((h.excEnter sp).congr hr.thAlloc fun t ht hp => hp.wakes hr.eff ht)
  | sched sp =>
    obtain ⟨-, rfl⟩ := step_sched hs
    exact (h.excEnter sp).congr rfl fun t _ hp => hp

end

/-- The partition holds in every state that orderly steps reach. -/
theorem partition_of_orderly {k k' : Kernel} (h : k.Partition)
    (hr : kernel.Run Kernel.Orderly k k') : k'.Partition :=
  hr.invariant (fun _ _ _ hk ho hs => hk.step ho hs) h

end Kernel

end

namespace Kernel

/-- The first thread creates a second one, which is made ready. -/
def twoThreads : List Event := [.svc 0 (.threadCreate ⟨0, 1024, 256, 16, 2, false⟩), .sched 0]

/-- A slice that ends, a sleep of the other thread, its pause, its resume and its wake-up. -/
theorem partition_of_orderly_twoThreads :
    ∃ k k', kernel.Run (fun _ _ => True) (Kernel.init 0 0 16 false) k ∧ k.Partition ∧
      kernel.Run Kernel.Orderly k k' ∧ k'.Partition ∧ k'.q.mem wqReady 1 = true := by
  obtain ⟨k, hr, hp, hx⟩ := System.exists_run_of_exec (M := kernel) (P := fun _ _ => True)
    (fun k => k.Partition ∧ (kernel.exec Kernel.Orderly k
      [.tick 0, .sched 0, .svc 960 (.sleep 3), .sched 960, .svc 0 (.pause 2), .sched 0,
        .svc 0 (.resume 2), .sched 0, .tick 0, .tick 0, .tick 0]).any
      (fun k' => decide (k'.q.mem wqReady 1 = true)) = true)
    twoThreads (Kernel.init 0 0 16 false) (by decide +kernel)
  obtain ⟨k', hr', hn⟩ := System.exists_run_of_exec _ _ _ hx
  exact ⟨k, k', hr, hp, hr', partition_of_orderly hp hr', hn⟩

/-- The slice of a thread in a critical section ends: it is moved to the time-share queue, goes on
running, and sleeps in two queues. -/
theorem partition_broken_in_critical :
    ∃ k k', kernel.Run (fun _ _ => True) (Kernel.init 0 0 16 false) k ∧ k.Partition ∧
      kernel.Run (fun _ e => e.movesThreads = true) k k' ∧
      k'.thAlloc.rd 0 = true ∧ k'.q.mem wqTmshare 0 = true ∧ k'.q.mem wqClock 0 = true ∧
      ¬ k'.Partition := by
  obtain ⟨k, hr, hp, hx⟩ := System.exists_run_of_exec (M := kernel) (P := fun _ _ => True)
    (fun k => k.Partition ∧ (kernel.exec (fun _ e => e.movesThreads = true) k
      [.tick 0, .svc 0 (.sleep 5)]).any
      (fun k' => decide (k'.thAlloc.rd 0 = true ∧ k'.q.mem wqTmshare 0 = true ∧
        k'.q.mem wqClock 0 = true ∧ ¬ k'.Partition)) = true)
    (twoThreads ++ [.svc 0 .criticalEnter]) (Kernel.init 0 0 16 false) (by decide +kernel)
  obtain ⟨k', hr', hn⟩ := System.exists_run_of_exec _ _ _ hx
  exact ⟨k, k', hr, hp, hr', hn⟩

end Kernel

end ThinkOS
