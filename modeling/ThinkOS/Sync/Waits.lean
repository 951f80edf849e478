import ThinkOS.Sched.Lifecycle
import ThinkOS.Sched.Share

/-!
# The threads that wait for one object

Runs in which threads wait for one object and other calls, interrupts and ticks end their
waits. `Settled wq` is what the life cycle of threads (`Live`) says about the threads whose
status names queue `wq`: they rest, that is, they are neither ready nor in the time-share queue,
and one of them is active only until the scheduler runs.

    a wait ends: the status named `wq` (or the call is this step's), and it no longer does

`Ends` reads the result off the frame the thread resumes with. `Tended` is the invariant that
connects a wait with its frame; the lemmas on it say for each thing that can happen to the queue
which waits end, and with what result.
-/

namespace ThinkOS

open Lib Function Queues Option

section
variable [Config] {k : Kernel}

namespace Kernel

/-! ## Where a thread is -/

/-- Thread `t` runs no further before something makes it ready. -/
structure Rests (k : Kernel) (t : Nat) : Prop where
  ready : k.q.mem wqReady t = false
  tmshare : k.q.mem wqTmshare t = false
  active : t = k.active → k.pendsv = true

structure Settled (wq : Nat) (k : Kernel) : Prop where
  bound : ∀ t < 32, k.q.mem wq t = true → t < threadsMax
  stat : ∀ t < threadsMax, k.q.mem wq t = true → k.q.thStat t / 2 = wq
  rests : ∀ t < threadsMax, k.q.thStat t / 2 = wq → k.Rests t
  timed : ∀ t < threadsMax, k.q.mem wqClock t = true → k.q.thStat t / 2 = wq →
    k.q.thStat t = 2 * wq + 1
  slice : k.sliceVal.toInt < 0 → k.active < 32

/-- The threads are alive, and the active one has not ended itself. -/
structure Ordered (k : Kernel) : Prop where
  live : k.Live True k.resumePc
  idle : k.active ≤ threadIdle

theorem Ordered.step {k' : Kernel} {ev : Event} (h : Ordered k) (hs : kernel.step k ev = some k')
    (hc : ∀ sp c, ev = .svc sp c → k.CallCareful c ∧ ∀ t v, c ≠ .terminate t v)
    (hn : ∀ sp n, ev ≠ .irq sp (.irq n)) : Ordered k' := by
  refine ⟨h.live.step ?_ hs, ?_⟩
  · cases ev with
    | svc sp c => exact (hc sp c rfl).1
    | tick sp =>
      by_cases hv : k.sliceVal.toInt < 0
      · have hle := threadsMax_le
        have hne := h.live.sane.slice_ne_idle hv
        have hidle := h.idle
        unfold threadIdle at *
        exact .inl (by omega)
      · exact .inr (by omega)
    | irq sp op =>
      cases op with
      | irq n => exact absurd rfl (hn sp n)
      | _ => trivial
    | sched sp => trivial
  · rw [step_active hs]
    cases ev with
    | svc sp c =>
      cases c with
      | terminate t v => exact absurd rfl ((hc sp _ rfl).2 t v)
      | _ => exact h.idle
    | sched sp => exact h.live.sane.first_le
    | _ => exact h.idle

theorem Ordered.settled (ho : Ordered k) {wq : Nat} (hwq : Queues.IsObj wq) : Settled wq k := by
  obtain ⟨h, hi⟩ := ho
  have hb := wq_order
  have hw := clock_lt_obj hwq
  have hend := obj_lt_end hwq
  refine ⟨fun t ht hm => ?_, fun t ht hm => ?_, fun t ht hs => ?_, fun t ht hm hs => ?_, fun hv => ?_⟩
  · exact h.sane.q.lt_of_mem hend.1 ht hm (by omega)
  · exact h.tidy.named wq t hend.1 hend.2.1 hw ht hm
  · have hno : ∀ w, w = wqReady ∨ w = wqTmshare → k.q.mem w t = false := by
      intro w hw'
      rw [← Bool.not_eq_true]
      intro hm
      have := h.tidy.running t ht (by rcases hw' with rfl | rfl <;> simp [hm])
      omega
    refine ⟨hno _ (.inl rfl), hno _ (.inr rfl), fun ha => ?_⟩
    rw [← Bool.not_eq_false]
    intro hp
    have := h.ready hp (ha ▸ ht)
    rw [← ha, hno _ (.inl rfl)] at this
    cases this
  · have := h.tidy.timed t ht hm
    omega
  · have hne := h.sane.slice_ne_idle hv
    unfold threadIdle at *
    omega

section
variable {wq : Nat} {k' : Kernel}

theorem Settled.congr (h : Settled wq k) (hq : k'.q = k.q) (ha : k'.active = k.active)
    (hp : k'.pendsv = k.pendsv) (hv : k'.sliceVal = k.sliceVal) : Settled wq k' := by
  refine ⟨hq ▸ h.bound, hq ▸ h.stat, fun t ht hs => ?_, hq ▸ h.timed, ha ▸ hv ▸ h.slice⟩
  rw [hq] at hs
  have hr := h.rests t ht hs
  exact ⟨hq ▸ hr.ready, hq ▸ hr.tmshare, ha ▸ hp ▸ hr.active⟩

theorem Settled.excEnter (h : Settled wq k) (sp : Nat) : Settled wq (k.excEnter sp) := by
  rw [excEnter_eq]
  exact h.congr rfl rfl rfl rfl

theorem Settled.running (h : Settled wq k) (ha : k.active < threadsMax) (hp : k.pendsv = false) :
    k.q.thStat k.active / 2 ≠ wq := by
  intro hs
  have := (h.rests _ ha hs).active rfl
  simp [hp] at this

theorem Settled.head (h : Settled wq k) (hne : k.q.wqHead wq ≠ threadNull) :
    k.q.wqHead wq < threadsMax ∧ k.q.mem wq (k.q.wqHead wq) = true ∧
      k.q.thStat (k.q.wqHead wq) / 2 = wq := by
  obtain ⟨hlt, hm⟩ := k.q.mem_wqHead hne
  have hb := h.bound _ hlt hm
  exact ⟨hb, hm, h.stat _ hb hm⟩

end

/-! ## Frames -/

section
variable {th : Nat} {v : Word}

omit [Config] in
theorem frame_arg0 (ha : th = k.active) (t : Nat) :
    (k.arg0 th v).frame t = if t = th then { k.frame th with r0 := v } else k.frame t := by
  subst ha
  unfold frame arg0
  by_cases ht : t = k.active
  · subst ht
    simp [storeFrame_self]
  · simp only [ht, if_false]
    rw [storeFrame_of_ne (.inl ht)]

omit [Config] in
/-- A store through the context pointer reaches the saved frame, if the thread is not active or
its pointer is up to date. -/
theorem frame_ctxR0 (hs : th = k.active → k.ctx th = some k.psp) (t : Nat) :
    (k.ctxR0 th v).frame t = if t = th then { k.frame th with r0 := v } else k.frame t := by
  unfold frame ctxR0
  by_cases ht : t = th
  · subst ht
    by_cases ha : t = k.active
    · simp [← ha, hs ha, storeFrame_self]
    · simp [ha, storeFrame_self]
  · simp only [ht, if_false]
    rw [storeFrame_of_ne (.inl ht), storeFrame_of_ne (.inl ht)]

omit [Config] in
theorem frame_wakeupReturn (wq : Nat) (hs : th = k.active → k.ctx th = some k.psp) (t : Nat) :
    (k.wakeupReturn wq th v).frame t = if t = th then { k.frame th with r0 := v } else k.frame t :=
  frame_ctxR0 (k := { k with q := k.q.wakeup wq th }) hs t

/-- A blocking call leaves the time-out as the result of a timed wait. -/
theorem frame_waitBlock (wq : Nat) (publish : Bool) (ms : Option Word) (ha : th = k.active) (t : Nat) :
    (k.waitBlock th wq publish ms).frame t =
      if t = th ∧ ms.isSome = true then { k.frame th with r0 := ETIMEDOUT } else k.frame t := by
  have hctx : ∀ (k : Kernel) (c : Option Nat), th = k.active →
      ({ k with ctx := update k.ctx th c } : Kernel).frame = k.frame := by
    intro k c ha
    funext t
    unfold frame
    by_cases ht : t = k.active
    · simp [ht]
    · simp only [ht, if_false]
      rw [update_of_ne (by omega)]
  cases ms with
  | none =>
    simp only [isSome_none, Bool.false_eq_true, and_false, if_false]
    cases publish with
    | false => rfl
    | true => exact congrFun (hctx k _ ha) t
  | some ms =>
    simp only [isSome_some, and_true]
    cases publish with
    | false => exact frame_arg0 ha t
    | true =>
      refine (frame_arg0 (k := { k with ctx := update k.ctx th (some k.psp) }) ha t).trans ?_
      rw [hctx k _ ha]

theorem frame_systick : k.systick.frame = k.frame := by
  rw [systick_eq]
  rfl

end

/-! ## The end of a wait -/

/-- The thread that makes a call. -/
def caller (k : Kernel) : Event → Nat
  | .svc _ _ => k.active
  | _ => threadNull

/-- The wait of thread `t` for queue `wq`, begun before or (`calls`) by `who` in this step, ends
with result `v`. -/
structure Ends (wq : Nat) (calls : Bool) (who : Nat) (q q' : Queues) (F : Nat → Frame) (t : Nat)
    (v : Word) : Prop where
  lt : t < threadsMax
  before : q.thStat t / 2 = wq ∨ (calls = true ∧ t = who)
  after : q'.thStat t / 2 ≠ wq
  result : (F t).r0 = v

section
variable {wq self th t : Nat} {q q' : Queues} {F : Nat → Frame} {v : Word}

theorem not_ends_same (hs : q'.thStat = q.thStat) : ¬ Ends wq false self q q' F t v := by
  rintro ⟨-, hb | hb, ha, -⟩
  · exact ha (hs ▸ hb)
  · cases hb.1

theorem ends_woken_iff (hwq : wq ≠ 0) (hth : th < threadsMax) (hs : q.thStat th / 2 = wq)
    (hq : q' = q.wakeup wq th) : Ends wq false self q q' F t v ↔ t = th ∧ v = (F th).r0 := by
  constructor
  · rintro ⟨-, hb | hb, ha, hr⟩
    · by_cases he : t = th
      · exact ⟨he, by rw [← hr, he]⟩
      · rw [hq, thStat_wakeup, if_neg he] at ha
        exact absurd hb ha
    · cases hb.1
  · rintro ⟨rfl, rfl⟩
    refine ⟨hth, .inl hs, ?_, rfl⟩
    rw [hq, thStat_wakeup, if_pos rfl]
    omega

theorem ends_taken_iff (hth : th < threadsMax) (hn : q.thStat th / 2 ≠ wq) (hs : q'.thStat = q.thStat) :
    Ends wq true th q q' F t v ↔ t = th ∧ v = (F th).r0 := by
  constructor
  · rintro ⟨-, hb | hb, ha, hr⟩
    · exact absurd hb (hs ▸ ha)
    · exact ⟨hb.2, by rw [← hr, hb.2]⟩
  · rintro ⟨rfl, rfl⟩
    exact ⟨hth, .inr ⟨rfl, rfl⟩, hs ▸ hn, rfl⟩

theorem not_ends_blocked {timed : Bool} (hq : q' = (q.enqueue wq th timed).suspend th) :
    ¬ Ends wq true th q q' F t v := by
  rintro ⟨-, hb, ha, -⟩
  rw [hq, thStat_suspend, thStat_enqueue] at ha
  split at ha
  · cases timed <;> simp at ha
    omega
  · rename_i hne
    rcases hb with hb | hb
    · exact ha hb
    · exact hne hb.2

/-- A tick brings nobody into a queue past the clock queue, and it changes the status of threads of
the clock queue only. -/
theorem Settled.systick_wakes (h : Settled wq k) {w : Nat} (hw : wqClock < w) (ht : t < 32) :
    (k.systick.q.mem w t = true → k.q.mem w t = true) ∧ (k.systick.q.thStat t = k.q.thStat t ∨
        (k.q.mem wqClock t = true ∧ k.systick.q.thStat t = 0)) := by
  have hc := ready_lt_clock
  have hloop := tickLoop_invariant
    (I := fun k' => (∀ w, wqClock ≤ w → k'.q.mem w t = true → k.q.mem w t = true) ∧
      (k'.q.thStat t = k.q.thStat t ∨ (k.q.mem wqClock t = true ∧ k'.q.thStat t = 0)))
    (fun k' j hj hi hm _ => ?_) 32 (k.q.wqLst wqClock) { k with ticks := k.ticks + 1 }
    (fun j hj hb => (mem_eq_getLsbD k.q _ j hj).trans hb) ⟨fun _ _ => id, .inl rfl⟩
  · have heq := tickLoop_eq 32 (k.q.wqLst wqClock) { k with ticks := k.ticks + 1 }
    simp only [Kernel.systick]
    generalize tickLoop 32 (k.q.wqLst wqClock) { k with ticks := k.ticks + 1 } = k1 at hloop heq ⊢
    have hact : k1.active = k.active := by rw [heq]
    have hval : k1.sliceVal = k.sliceVal := by rw [heq]; rfl
    rcases k1.timeshare_q with ⟨hq, -⟩ | ⟨hv, -, hq, -⟩
    · rw [hq]
      exact ⟨hloop.1 w (by omega), hloop.2⟩
    · rw [hval] at hv
      rw [hq, mem_suspend_of_ne ht (by omega) (by omega),
        mem_bitWr (hact ▸ h.slice hv) ht, if_neg (by omega)]
      exact ⟨hloop.1 w (by omega), hloop.2⟩
  · rw [q_timeWakeup, thStat_timeWakeup]
    by_cases he : t = j
    · subst he
      refine ⟨fun w hwc hmw => hi.1 w hwc ?_, .inr ⟨hi.1 _ (Nat.le_refl _) hm, if_pos rfl⟩⟩
      rw [mem_timeWakeup hj ht, if_pos rfl] at hmw
      simp only [Bool.or_eq_true, decide_eq_true_eq, Bool.and_eq_true] at hmw
      rcases hmw with hmw | hmw
      · omega
      · exact hmw.1
    · rw [if_neg he]
      refine ⟨fun w hwc hmw => hi.1 w hwc ?_, hi.2⟩
      rwa [mem_timeWakeup hj ht, if_neg he] at hmw

end

/-! ## Waits and their frames -/

/-- What connects the waits in queue `wq` with the frames of their threads. `pub` says whether the
waits publish the caller's context pointer when they block. -/
structure Tended (wq : Nat) (pub : Bool) (k : Kernel) (F : Nat → Frame) : Prop where
  saved : pub = true → ∀ t < threadsMax, k.q.mem wq t = true → t = k.active → k.ctx t = some k.psp
  late : ∀ t < threadsMax, k.q.thStat t = 2 * wq + 1 → (F t).r0 = ETIMEDOUT

section
variable {wq self : Nat} {pub : Bool} {k' : Kernel}

section
variable (h : Tended wq pub k k.frame)
include h

theorem Tended.arg0 (ha : self = k.active) (hs : k.q.thStat self / 2 ≠ wq) (v : Word) :
    Tended wq pub (k.arg0 self v) (k.arg0 self v).frame := by
  refine ⟨h.saved, fun t ht hst => ?_⟩
  have hst' : k.q.thStat t = 2 * wq + 1 := hst
  rw [frame_arg0 ha, if_neg]
  · exact h.late t ht hst
  · rintro rfl
    omega

/-- The first thread of the queue is woken with result `v`, and its wait is the only one to end. -/
theorem Tended.woken (ho : Settled wq k) (hwq : Queues.IsObj wq)
    (hne : k.q.wqHead wq ≠ threadNull)
    (hs : k.q.wqHead wq = k.active → k.ctx k.active = some k.psp) (v : Word) (who : Nat) :
    let k' := k.wakeupReturn wq (k.q.wqHead wq) v
    Tended wq pub k' k'.frame ∧
      (∀ t u, Ends wq false who k.q k'.q k'.frame t u ↔ t = k.q.wqHead wq ∧ u = v) ∧
      ∀ t, k.q.thStat t / 2 ≠ wq → k'.frame t = k.frame t := by
  have hpos := clock_lt_obj hwq
  have hready := wq_order
  obtain ⟨hlt, hm, hstat⟩ := ho.head hne
  generalize k.q.wqHead wq = th at *
  have hframe := frame_wakeupReturn (v := v) wq (fun ha : th = k.active => ha ▸ hs ha)
  have hq : (k.wakeupReturn wq th v).q = k.q.wakeup wq th := rfl
  refine ⟨⟨fun hp t ht hmt => ?_, fun t ht hst => ?_⟩, fun t u => ?_, fun t hno => ?_⟩
  · refine h.saved hp t ht ?_
    rw [hq, mem_wakeup (by omega) (by omega) (by omega)] at hmt
    split at hmt
    · simp only [decide_eq_true_eq, Bool.or_eq_true, Bool.and_eq_true] at hmt
      omega
    · exact hmt
  · rw [hq, thStat_wakeup] at hst
    split at hst
    · omega
    · rename_i he
      rw [hframe, if_neg he]
      exact h.late t ht hst
  · rw [ends_woken_iff (by omega) hlt hstat hq, hframe, if_pos rfl]
  · rw [hframe, if_neg]
    rintro rfl
    exact hno hstat

theorem Tended.blocked (hwq : Queues.IsObj wq) (ha : self = k.active) (hs : self < threadsMax)
    (ms : Option Word) : let k' := k.waitBlock self wq pub ms
    Tended wq pub k' k'.frame ∧ (∀ t u, ¬ Ends wq true self k.q k'.q k'.frame t u) ∧
      ∀ t, t ≠ self → k'.frame t = k.frame t := by
  have hle := threadsMax_le
  have hlt : self < 32 := by omega
  have hclock := clock_lt_obj hwq
  have hq := k.waitBlock_q self wq pub ms hlt (by omega)
  have hserved := waitBlock_served (S := fun _ => True) k self wq pub ms hlt hwq trivial
  have hframe := frame_waitBlock wq pub ms ha
  refine ⟨⟨?_, fun t ht hst => ?_⟩, fun t u => not_ends_blocked hq, fun t hne => ?_⟩
  · rintro rfl t ht hm hact
    have hctx : (k.waitBlock self wq true ms).ctx = update k.ctx self (some k.psp) := by
      cases ms <;> rfl
    rw [hctx, hserved.psp, hact, hserved.active, ← ha, update_self]
  · rw [hq, thStat_suspend, thStat_enqueue] at hst
    rw [hframe]
    by_cases he : t = self
    · rw [if_pos he] at hst
      cases ms with
      | none => simp at hst
      | some _ => simp [he]
    · rw [if_neg he] at hst
      rw [if_neg fun hc => he hc.1]
      exact h.late t ht hst
  · rw [hframe, if_neg fun hc => hne hc.1]

/-- A tick ends waits with the time-out only. -/
theorem Tended.systick (ho : Settled wq k) (hwq : Queues.IsObj wq) (who : Nat) :
    Tended wq pub k.systick k.systick.frame ∧
      ∀ t u, Ends wq false who k.q k.systick.q k.systick.frame t u → u = ETIMEDOUT := by
  have hle := threadsMax_le
  have hwakes := fun (t : Nat) (ht : t < threadsMax) =>
    ho.systick_wakes (t := t) (clock_lt_obj hwq) (Nat.lt_of_lt_of_le ht hle)
  rw [frame_systick]
  refine ⟨⟨fun hp t ht hm => ?_, fun t ht hst => ?_⟩, ?_⟩
  · rw [systick_eq]
    exact h.saved hp t ht ((hwakes t ht).1 hm)
  · rcases (hwakes t ht).2 with hs | ⟨-, hs⟩
    · exact h.late t ht (hs ▸ hst)
    · omega
  · rintro t u ⟨ht, hb | hb, ha, rfl⟩
    · rcases (hwakes t ht).2 with hs | ⟨hm, -⟩
      · exact absurd hb (hs ▸ ha)
      · exact h.late t ht (ho.timed t ht hm hb)
    · cases hb.1

theorem Tended.pendsvIsr (ho : Settled wq k.pendsvIsr) :
    Tended wq pub k.pendsvIsr k.pendsvIsr.resumeFrame := by
  refine ⟨fun _ t ht hm ha => ?_, resumeFrame_pendsvIsr ▸ h.late⟩
  -- a waiting thread is not the one that runs next
  have hr := (ho.rests t ht (ho.stat t ht hm)).active ha
  simp [Kernel.pendsvIsr] at hr

omit h in
theorem Tended.svcEntry (h : Tended wq pub k k.resumeFrame) (ho : Settled wq k) {c : Call}
    (hm : k.MayCall c) {sp : Nat} : Tended wq pub (k.svcEntry sp c) (k.svcEntry sp c).frame := by
  have hrun := ho.running hm.1 hm.2.1
  refine ⟨fun _ t ht hmt ha => ?_, fun t ht hst => ?_⟩
  · rw [show t = k.active from ha] at hmt
    exact absurd (ho.stat _ hm.1 hmt) hrun
  · have hst' : k.q.thStat t = 2 * wq + 1 := hst
    rw [frame_svcEntry, if_neg]
    · exact h.late t ht hst
    · rintro rfl
      omega

omit h in
theorem Tended.excEnter (h : Tended wq pub k k.resumeFrame) (ho : Settled wq k) (sp : Nat) :
    Tended wq pub (k.excEnter sp) (k.excEnter sp).frame := by
  refine ⟨fun hp t ht hmt => ?_, ?_⟩
  · rw [q_excEnter] at hmt
    have hr := ho.rests t ht (ho.stat t ht hmt)
    unfold Kernel.excEnter
    split
    · exact h.saved hp t ht hmt
    · rename_i hn
      exact fun ha => absurd (hr.active ha) hn
  · rw [frame_excEnter, q_excEnter]
    exact h.late

theorem Tended.excLeave : Tended wq pub k.excLeave k.excLeave.resumeFrame := by
  refine ⟨?_, ?_⟩
  · rw [excLeave_eq]
    exact h.saved
  · rw [resumeFrame_excLeave, q_excLeave]
    exact h.late

end

end

end Kernel

end

end ThinkOS
