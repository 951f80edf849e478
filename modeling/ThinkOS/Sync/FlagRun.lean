import Mathlib.Data.List.Nodup
import ThinkOS.Sched.Partition
import ThinkOS.Sync.Waits

/-!
# Giving and taking a flag

Runs of `flag_take`, `flag_timedtake` and `flag_give`, the gives also from interrupt handlers,
with ticks, scheduler runs, pauses and resumes. `Ledger` counts the takes that return success,
the gives, and the gives that found the flag set:

    takes + bit  =  bit at the start + gives - gives that found it set

Unlike the waits on semaphores, event sets and gates, a take does not publish the caller's context
pointer before it enters the queue. A handler that gives the flag before the scheduler has run then
stores the result where the thread was saved last. The equation holds along the runs in which no
give finds the active thread at the head of the queue with a stale pointer (`HeadCurrent`).
-/

namespace ThinkOS

open Lib Bool Option Queues Bitmap List

/-- What a step asks of a flag. -/
inductive FlagAsk
  | take
  | give
  | tick
  | other
  deriving DecidableEq, Repr

/-- The steps on one flag. -/
def Event.onFlag (wq : Word) (f : Nat) : Event → Option FlagAsk
  | .svc _ (.flagTake w) | .svc _ (.flagTimedtake w _) => if w = wq then some .take else none
  | .svc _ (.flagGive w) => if w = wq then some .give else none
  | .svc _ (.pause _) | .svc _ (.resume _) | .sched _ => some .other
  | .irq _ (.flagGive i) => if i = f then some .give else none
  | .tick _ => some .tick
  | _ => none

section
variable [Config] {F : Nat → Frame} {ev : Event}

namespace Kernel

instance {wq : Nat} {calls : Bool} {who : Nat} {q q' : Queues} {F : Nat → Frame} {t : Nat} {v : Word} :
    Decidable (Ends wq calls who q q' F t v) :=
  decidable_of_iff (t < threadsMax ∧ (q.thStat t / 2 = wq ∨ (calls = true ∧ t = who)) ∧
    q'.thStat t / 2 ≠ wq ∧ (F t).r0 = v)
    ⟨fun ⟨h1, h2, h3, h4⟩ => ⟨h1, h2, h3, h4⟩, fun ⟨h1, h2, h3, h4⟩ => ⟨h1, h2, h3, h4⟩⟩

/-- The takes that end with success in a step. -/
def taken (wq : Nat) (calls : Bool) (who : Nat) (q q' : Queues) (F : Nat → Frame) : Nat :=
  (List.range threadsMax).countP fun t => decide (Ends wq calls who q q' F t 0)

def given (ask : FlagAsk) : Nat := if ask = .give then 1 else 0

/-- Gives that find the flag set. -/
def wasted (ask : FlagAsk) (bit : Bool) : Nat := if ask = .give ∧ bit = true then 1 else 0

/-- The thread a give would wake is not the active one, or its context pointer is up to date. -/
def HeadCurrent (wq : Nat) (k : Kernel) : Prop :=
  k.q.wqHead wq ≠ threadNull → k.q.wqHead wq = k.active → k.ctx k.active = some k.psp

instance (wq : Nat) (k : Kernel) : Decidable (HeadCurrent wq k) := by
  unfold HeadCurrent
  infer_instance

/-- What a step does with flag `f`. -/
structure Accounts (wq f : Nat) (ask : FlagAsk) (who : Nat) (k k' : Kernel) (F F' : Nat → Frame) :
    Prop where
  count : taken wq (ask == .take) who k.q k'.q F' + (k'.flag.rd f).toNat + wasted ask (k.flag.rd f) =
    (k.flag.rd f).toNat + given ask
  returns : ∀ t v, Ends wq (ask == .take) who k.q k'.q F' t v →
    v = 0 ∨ (v = ETIMEDOUT ∧ ask = .tick ∧ k'.flag.rd f = k.flag.rd f)
  kept : ∀ t < threadsMax, t ≠ who → k.q.thStat t / 2 ≠ wq → F' t = F t

/-- The invariant of the runs on flag `f`. -/
structure Guards (wq : Word) (f : Nat) (k : Kernel) (F : Nat → Frame) : Prop
    extends Tended wq.toNat false k F where
  idx : k.flagIdx wq = some f
  clear : k.flag.rd f = true → ∀ t < threadsMax, k.q.mem wq.toNat t = false
  stats : ∀ t < threadsMax, k.q.thStat t = 0 ∨ k.q.thStat t / 2 = wq.toNat
  paused : ∀ t < threadsMax, k.q.mem wqPaused t = true → k.thAlloc.rd t = true

section
variable {wq f who : Nat} {ask : FlagAsk} {k k' : Kernel} {F' : Nat → Frame}

theorem Accounts.of_none (hno : ∀ t v, ¬ Ends wq (ask == .take) who k.q k'.q F' t v)
    (hc : (k'.flag.rd f).toNat + wasted ask (k.flag.rd f) = (k.flag.rd f).toNat + given ask)
    (hk : ∀ t < threadsMax, t ≠ who → k.q.thStat t / 2 ≠ wq → F' t = F t) :
    Accounts wq f ask who k k' F F' := by
  refine ⟨?_, fun t v h => absurd h (hno t v), hk⟩
  have hz : taken wq (ask == .take) who k.q k'.q F' = 0 :=
    countP_eq_zero.mpr fun t _ => by simp [hno]
  omega

theorem Accounts.of_one (th : Nat) (hth : th < threadsMax)
    (hends : ∀ t v, Ends wq (ask == .take) who k.q k'.q F' t v ↔ t = th ∧ v = 0)
    (hc : 1 + (k'.flag.rd f).toNat + wasted ask (k.flag.rd f) = (k.flag.rd f).toNat + given ask)
    (hk : ∀ t < threadsMax, t ≠ who → k.q.thStat t / 2 ≠ wq → F' t = F t) :
    Accounts wq f ask who k k' F F' := by
  refine ⟨?_, fun t v h => .inl ((hends t v).mp h).2, hk⟩
  have hone : taken wq (ask == .take) who k.q k'.q F' = 1 := by
    have hp : (fun t => decide (Ends wq (ask == .take) who k.q k'.q F' t 0)) = (· == th) := by
      funext t
      rw [Bool.eq_iff_iff, decide_eq_true_iff, hends, beq_iff_eq]
      exact and_iff_left rfl
    unfold taken
    rw [hp]
    exact List.count_eq_one_of_mem List.nodup_range (List.mem_range.mpr hth)
  omega

end

/-! ## What the services do -/

/-- A service keeps the invariant and the account. -/
def Keeps (wq : Word) (f : Nat) (ask : FlagAsk) (self : Nat) (k k' : Kernel) : Prop :=
  Guards wq f k' k'.frame ∧ Accounts wq.toNat f ask self k k' k.frame k'.frame

section
variable {wq : Word} {f self : Nat} {ask : FlagAsk} {k k' : Kernel}

theorem Guards.flag (h : Guards wq f k F) :
    Queues.IsObj wq.toNat ∧ wq.toNat = flagBase + f ∧ f < flagMax := by
  obtain ⟨hw, hf, -⟩ := flagIdx_eq_some h.idx
  exact ⟨hw ▸ isObj_flag hf, hw, hf⟩

section
variable (h : Guards wq f k k.frame)
include h

theorem Guards.arg0 (ha : self = k.active) (hs : k.q.thStat self / 2 ≠ wq.toNat) (v : Word) :
    Guards wq f (k.arg0 self v) (k.arg0 self v).frame :=
  ⟨h.toTended.arg0 ha hs v, h.idx, h.clear, h.stats, h.paused⟩

omit h in
theorem Keeps.deferSched (h : Keeps wq f ask self k k') : Keeps wq f ask self k k'.deferSched :=
  ⟨⟨⟨h.1.saved, h.1.late⟩, h.1.idx, h.1.clear, h.1.stats, h.1.paused⟩, h.2.count, h.2.returns,
    h.2.kept⟩

omit h in
theorem Keeps.of_arg0 {v : Word} (ha : self = k.active)
    (h : Keeps wq f ask self (k.arg0 self v) k') : Keeps wq f ask self k k' := by
  refine ⟨h.1, h.2.count, h.2.returns, fun t ht hne hs => ?_⟩
  rw [h.2.kept t ht hne hs, frame_arg0 ha, if_neg hne]

theorem keeps_arg0 (ha : self = k.active) (hs : k.q.thStat self / 2 ≠ wq.toNat) (v : Word) :
    Keeps wq f .other self k (k.arg0 self v) := by
  refine ⟨h.arg0 ha hs v, .of_none (fun t v => not_ends_same rfl) rfl fun t _ hne _ => ?_⟩
  rw [frame_arg0 ha, if_neg hne]

theorem keeps_take (ha : self = k.active) (hst : k.q.thStat self / 2 ≠ wq.toNat)
    (hs : self < threadsMax) (ms : Option Word) : Keeps wq f .take self k
      (if k.flag.rd f then (k.setFlag f false).arg0 self 0
      else k.waitBlock self wq.toNat false ms) := by
  have hle := threadsMax_le
  obtain ⟨hobj, -⟩ := h.flag
  split
  · rename_i hbit
    have hoff : (k.setFlag f false).flag.rd f = false := rd_wr.trans (if_pos rfl)
    have hframe := frame_arg0 (k := k.setFlag f false) (v := 0) ha
    have ht : Tended wq.toNat false (k.setFlag f false) (k.setFlag f false).frame := ⟨h.saved, h.late⟩
    refine ⟨⟨ht.arg0 ha hst 0, h.idx, fun hb => ?_, h.stats, h.paused⟩,
      .of_one self hs (fun t v => ?_) ?_ fun t _ hne _ => ?_⟩
    · cases hoff.symm.trans hb
    · refine (ends_taken_iff hs hst rfl).trans ?_
      rw [hframe, if_pos rfl]
    · show 1 + ((k.setFlag f false).flag.rd f).toNat + _ = _
      rw [hoff, hbit]
      rfl
    · rw [hframe, if_neg hne]
      rfl
  · rename_i hbit
    obtain ⟨ht, hends, hkept⟩ := h.toTended.blocked hobj ha hs ms
    have hflag : (k.waitBlock self wq.toNat false ms).flag = k.flag := by cases ms <;> rfl
    have hq := k.waitBlock_q self wq.toNat false ms (by omega)
      (Nat.le_of_lt (clock_lt_obj hobj))
    have hserved := waitBlock_served (S := fun _ => True) k self wq.toNat false ms (by omega) hobj
      trivial
    refine ⟨⟨ht, ?_, fun hb => absurd (hflag ▸ hb) hbit, fun t ht => ?_, fun t ht hm => ?_⟩,
      .of_none hends (by rw [hflag]; rfl) fun t _ hne _ => hkept t hne⟩
    · rw [show (k.waitBlock self wq.toNat false ms).flagIdx wq = k.flagIdx wq by cases ms <;> rfl]
      exact h.idx
    · rw [hq, thStat_suspend, thStat_enqueue]
      split
      · right
        cases ms <;> simp
        omega
      · exact h.stats t ht
    · have hb := wq_order
      have hend := obj_lt_end hobj
      rw [hq, mem_suspend_of_ne (by omega) (by omega) (by omega),
        mem_enqueue (by omega) (by omega), if_neg (by omega)] at hm
      rw [hserved.thAlloc]
      exact h.paused t ht hm

theorem keeps_give (ho : Settled wq.toNat k) (hc : HeadCurrent wq.toNat k) :
    Keeps wq f .give self k (k.flagGiveI wq.toNat) := by
  have hb := wq_order
  obtain ⟨hobj, hwq, -⟩ := h.flag
  have hclock := clock_lt_obj hobj
  simp only [flagGiveI]
  by_cases hnull : k.q.wqHead wq.toNat = threadNull
  · rw [if_pos hnull, show wq.toNat - flagBase = f by omega]
    have hon : (k.setFlag f true).flag.rd f = true := rd_wr.trans (if_pos rfl)
    refine ⟨⟨⟨h.saved, h.late⟩, h.idx, fun _ t ht => k.q.wqHead_eq_null hnull (by omega), h.stats,
      h.paused⟩, .of_none (fun t v => not_ends_same rfl) ?_ fun _ _ _ _ => rfl⟩
    rw [hon]
    cases k.flag.rd f <;> rfl
  · rw [if_neg hnull]
    obtain ⟨hlt, hm, -⟩ := ho.head hnull
    have hoff : k.flag.rd f = false := by
      rw [← not_eq_true]
      intro hbit
      cases hm.symm.trans (h.clear hbit _ hlt)
    obtain ⟨ht, hends, hkept⟩ := h.toTended.woken ho hobj hnull (hc hnull) 0 self
    refine ⟨⟨ht, h.idx, fun hbit => ?_, fun t ht => ?_, fun t ht hmt => ?_⟩,
      .of_one _ hlt hends ?_ fun t _ _ hs => hkept t hs⟩
    · cases hoff.symm.trans hbit
    · show (k.q.wakeup wq.toNat _).thStat t = 0 ∨ (k.q.wakeup wq.toNat _).thStat t / 2 = _
      rw [thStat_wakeup]
      split
      · exact .inl rfl
      · exact h.stats t ht
    · have hmt' : (k.q.wakeup wq.toNat (k.q.wqHead wq.toNat)).mem wqPaused t = true := hmt
      rw [mem_wakeup (by omega) (by omega) (by omega)] at hmt'
      refine h.paused t ht ?_
      split at hmt'
      · simp only [or_eq_true, decide_eq_true_eq, and_eq_true] at hmt'
        rcases hmt' with hm' | hm'
        · omega
        · exact hm'.1
      · exact hmt'
    · show 1 + (k.flag.rd f).toNat + _ = _
      rw [hoff]
      rfl

omit h in
theorem mem_of_threadPause {q : Queues} {th w t : Nat} (hth : th < 32) (ht : t < 32)
    (hm : (q.threadPause th).mem w t = true) : (w = wqPaused ∧ t = th) ∨ q.mem w t = true := by
  unfold Queues.threadPause at hm
  split at hm
  · exact .inr hm
  · simp only [mem_bitWr hth ht] at hm
    by_cases hp : w = wqPaused ∧ t = th
    · exact .inl hp
    · rw [if_neg hp] at hm
      split_ifs at hm
      exact .inr hm

theorem keeps_pause (ha : self = k.active) (hs : k.q.thStat self / 2 ≠ wq.toNat) (thread : Word) :
    Keeps wq f .other self k (k.pauseSvc self thread) := by
  have hle := threadsMax_le
  have hend := obj_lt_end h.flag.1
  simp only [pauseSvc]
  split
  · exact keeps_arg0 h ha hs _
  · rename_i hg
    obtain ⟨hth, hal, -⟩ := target_saved hg
    split
    · exact keeps_arg0 h ha hs _
    · apply Keeps.deferSched
      apply Keeps.of_arg0 (v := 0) ha
      replace h := h.arg0 ha hs 0
      replace hal : (k.arg0 self 0).thAlloc.rd (targetId self thread) = true := hal
      generalize k.arg0 self 0 = k at h hal ⊢
      have hstat : (k.threadPause (targetId self thread)).q.thStat = k.q.thStat := by
        show (k.q.threadPause _).thStat = _
        unfold Queues.threadPause
        split <;> rfl
      refine ⟨⟨⟨by rintro ⟨⟩, fun t ht hst => ?_⟩, h.idx, fun hb t ht => ?_, fun t ht => ?_, fun t ht hm => ?_⟩,
        .of_none (fun t v => not_ends_same hstat) rfl fun _ _ _ _ => rfl⟩
      · rw [hstat] at hst
        exact h.late t ht hst
      · rw [← not_eq_true]
        intro hm
        rcases mem_of_threadPause (by omega) (by omega) hm with hp | hp
        · exact hend.2.1 hp.1
        · cases hp.symm.trans (h.clear hb t ht)
      · rw [hstat]
        exact h.stats t ht
      · rcases mem_of_threadPause (by omega) (by omega) hm with hp | hp
        · rw [hp.2]
          exact hal
        · exact h.paused t ht hp

omit h in
omit [Config] in
theorem frame_grant {th : Nat} (hne : th ≠ k.active) (t : Nat) :
    (k.grant th).frame t = if t = th then { k.frame th with r0 := 0 } else k.frame t :=
  frame_ctxR0 (k := { k with q := (k.q.bitWr wqReady th true).setStat th 0 })
    (fun he => absurd he hne) t

/-- A paused waiter takes the flag, or goes back to the queue. -/
theorem keeps_resume (ho : Settled wq.toNat k) (ha : self = k.active)
    (hs : k.q.thStat self / 2 ≠ wq.toNat) (hp : k.pendsv = false) (thread : Word) :
    Keeps wq f .other self k (k.resumeSvc self thread) := by
  have hb := wq_order
  obtain ⟨hobj, hwq, hf⟩ := h.flag
  have hend := obj_lt_end hobj
  have hclock := clock_lt_obj hobj
  simp only [resumeSvc]
  split
  · exact keeps_arg0 h ha hs _
  · rename_i hg
    obtain ⟨hth, hal, -⟩ := target_saved hg
    split
    · exact keeps_arg0 h ha hs _
    · rename_i hpa
      apply Keeps.deferSched
      apply Keeps.of_arg0 (v := 0) ha
      replace h := h.arg0 ha hs 0
      rw [threadResume_of_paused (k := k.arg0 self 0) hpa]
      have hnot : k.q.thStat (thread - 1).toNat / 2 = wq.toNat → (thread - 1).toNat ≠ k.active := by
        intro hst he
        have := (ho.rests _ hth hst).active he
        simp [hp] at this
      replace hnot : (k.arg0 self 0).q.thStat (thread - 1).toNat / 2 = wq.toNat →
        (thread - 1).toNat ≠ (k.arg0 self 0).active := hnot
      generalize k.arg0 self 0 = k at h hnot ⊢
      generalize (thread - 1).toNat = th at *
      have hmem : ∀ w t, t < 32 → (k.q.bitWr wqPaused th false).mem w t = true → k.q.mem w t = true := by
        intro w t ht hm
        rw [mem_bitWr (by omega) ht] at hm
        split at hm
        · cases hm
        · exact hm
      simp only [resumeType, thStat_bitWr]
      rcases h.stats th hth with hz | hz
      · -- it was paused while it ran
        rw [hz]
        have hq : ∀ t < threadsMax, ∀ w, w ≠ wqReady →
            ((k.q.bitWr wqPaused th false).bitWr wqReady th true).mem w t = true →
            k.q.mem w t = true := by
          intro t ht w hw hm
          rw [mem_bitWr (by omega) (by omega), if_neg (by omega)] at hm
          exact hmem w t (by omega) hm
        refine ⟨⟨⟨by rintro ⟨⟩, h.late⟩, h.idx, fun hbit t ht => ?_, h.stats, fun t ht hm =>
          h.paused t ht (hq t ht _ (by omega) hm)⟩, .of_none (fun t v => not_ends_same rfl) rfl
          fun _ _ _ _ => rfl⟩
        rw [← not_eq_true]
        intro hm
        cases (hq t ht _ (by omega) hm).symm.trans (h.clear hbit t ht)
      · rw [hz, objType_of_range (hwq ▸ range_flag hf)]
        simp only [flagResume, show wq.toNat - flagBase = f by omega]
        split
        · rename_i hbit
          -- the flag is set, so it takes it
          have hoff : (k.setFlag f false).flag.rd f = false :=
            rd_wr.trans (if_pos rfl)
          obtain ⟨k1, hk1⟩ : ∃ k1, k1 = ({ k with q := k.q.bitWr wqPaused th false }).setFlag f false :=
            ⟨_, rfl⟩
          have hframe := frame_grant (k := k1) (by rw [hk1]; exact hnot hz)
          have hf1 : k1.frame = k.frame := by
            rw [hk1]
            rfl
          have hstat : ∀ t, (k1.grant th).q.thStat t = if t = th then 0 else k.q.thStat t := by
            rw [hk1]
            exact fun t => thStat_setStat
          rw [← hk1]
          refine ⟨⟨⟨by rintro ⟨⟩, fun t ht hst => ?_⟩, ?_, fun hb => ?_, fun t ht => ?_, fun t ht hm => ?_⟩,
            .of_one th hth (fun t v => ⟨?_, ?_⟩) ?_ fun t _ _ hst => ?_⟩
          · rw [hstat] at hst
            split at hst
            · omega
            · rename_i hne
              rw [hframe, if_neg hne, hf1]
              exact h.late t ht hst
          · rw [hk1]
            exact h.idx
          · rw [hk1] at hb
            cases hoff.symm.trans hb
          · rw [hstat]
            split
            · exact .inl rfl
            · exact h.stats t ht
          · have hm' : (k1.q.bitWr wqReady th true).mem wqPaused t = true := hm
            rw [mem_bitWr (by omega) (by omega), if_neg (by omega), hk1] at hm'
            rw [hk1]
            exact h.paused t ht (hmem _ t (by omega) hm')
          · rintro ⟨-, hbe | hbe, haf, hres⟩
            · rw [hstat] at haf
              split at haf
              · rename_i he
                rw [hframe, if_pos he] at hres
                exact ⟨he, hres.symm⟩
              · exact absurd hbe haf
            · cases hbe.1
          · rintro ⟨rfl, rfl⟩
            refine ⟨hth, .inl hz, ?_, ?_⟩
            · rw [hstat, if_pos rfl]
              omega
            · rw [hframe, if_pos rfl]
          · rw [show (k1.grant th).flag.rd f = false by rw [hk1]; exact hoff]
            rw [show k.flag.rd f = true from hbit]
            rfl
          · rw [hframe, if_neg, hf1]
            rintro rfl
            exact hst hz
        · rename_i hbit
          refine ⟨⟨⟨by rintro ⟨⟩, h.late⟩, h.idx, fun hb => absurd hb hbit, h.stats, fun t ht hm => ?_⟩,
            .of_none (fun t v => not_ends_same rfl) rfl fun _ _ _ _ => rfl⟩
          have hm' : (((k.q.bitWr wqPaused th false).bitWr wq.toNat th true).bitWr wqClock th
            (k.q.thStat th % 2 == 1)).mem wqPaused t = true := hm
          rw [mem_bitWr (by omega) (by omega), if_neg (by omega),
            mem_bitWr (by omega) (by omega), if_neg (by omega)] at hm'
          exact h.paused t ht (hmem _ t (by omega) hm')

theorem keeps_systick (ho : Settled wq.toNat k) : Keeps wq f .tick self k k.systick := by
  obtain ⟨hobj, -⟩ := h.flag
  have hb := paused_bounds
  have hclock := clock_lt_obj hobj
  have hflag : k.systick.flag = k.flag := by rw [systick_eq]
  obtain ⟨ht, hends⟩ := h.toTended.systick ho hobj self
  have hwakes := fun (t w : Nat) (ht : t < threadsMax) (hw : wqClock < w) =>
    ho.systick_wakes (t := t) hw (Nat.lt_of_lt_of_le ht threadsMax_le)
  refine ⟨⟨ht, ?_, fun hbit t ht => ?_, fun t ht => ?_, fun t ht hm => ?_⟩, ?_, fun t v he =>
    .inr ⟨hends t v he, rfl, by rw [hflag]⟩, fun t _ _ _ => by rw [frame_systick]⟩
  · rw [systick_eq]
    exact h.idx
  · rw [← not_eq_true]
    intro hm
    rw [hflag] at hbit
    cases ((hwakes t _ ht hclock).1 hm).symm.trans (h.clear hbit t ht)
  · rcases (hwakes t _ ht hclock).2 with hs | ⟨-, hs⟩
    · rw [hs]
      exact h.stats t ht
    · exact .inl hs
  · rw [systick_eq]
    exact h.paused t ht ((hwakes t _ ht hb.1).1 hm)
  · have hz : taken wq.toNat (FlagAsk.tick == .take) self k.q k.systick.q k.systick.frame = 0 :=
      countP_eq_zero.mpr fun t _ => by
        intro he
        have := hends t 0 (of_decide_eq_true he)
        exact absurd this (by decide)
    rw [hz, hflag]
    simp [wasted, given]

end

/-! ## Steps and runs -/

theorem Guards.excEnter (h : Guards wq f k k.resumeFrame) (ho : Settled wq.toNat k) (sp : Nat) :
    Guards wq f (k.excEnter sp) (k.excEnter sp).frame := by
  refine ⟨h.toTended.excEnter ho sp, ?_, ?_, ?_, ?_⟩ <;> rw [excEnter_eq]
  · exact h.idx
  · exact h.clear
  · exact h.stats
  · exact h.paused

theorem Keeps.leave (h : Keeps wq f ask self k k') {k0 : Kernel} (hq : k.q = k0.q)
    (hflag : k.flag = k0.flag) (hf : ∀ t, t ≠ self → k.frame t = F t) :
    Guards wq f k'.excLeave k'.excLeave.resumeFrame ∧
      Accounts wq.toNat f ask self k0 k'.excLeave F k'.excLeave.resumeFrame := by
  have hg := h.1
  refine ⟨⟨hg.toTended.excLeave, ?_, ?_, ?_, ?_⟩, ?_⟩
  · rw [excLeave_eq]
    exact hg.idx
  · rw [excLeave_eq]
    exact hg.clear
  · rw [excLeave_eq]
    exact hg.stats
  · rw [excLeave_eq]
    exact hg.paused
  · rw [resumeFrame_excLeave, excLeave_eq]
    refine ⟨?_, ?_, fun t ht hne hs => ?_⟩
    · rw [← hq, ← hflag]
      exact h.2.count
    · rw [← hq, ← hflag]
      exact h.2.returns
    · rw [h.2.kept t ht hne (hq ▸ hs), hf t hne]

theorem Guards.svc {sp : Nat} {c : Call} (h : Guards wq f k k.resumeFrame) (ho : Settled wq.toNat k)
    (hask : (Event.svc sp c).onFlag wq f = some ask) (hm : k.MayCall c) :
    Guards wq f (k.svc sp c) (k.svc sp c).resumeFrame ∧
      Accounts wq.toNat f ask k.active k (k.svc sp c) k.resumeFrame (k.svc sp c).resumeFrame := by
  have hat : Guards wq f (k.svcEntry sp c) (k.svcEntry sp c).frame :=
    ⟨h.toTended.svcEntry ho hm, h.idx, h.clear, h.stats, h.paused⟩
  have hs := hm.1
  have hst : (k.svcEntry sp c).q.thStat k.active / 2 ≠ wq.toNat := ho.running hs hm.2.1
  have hp : (k.svcEntry sp c).pendsv = false := hm.2.1
  replace ho : Settled wq.toNat (k.svcEntry sp c) := ho.congr rfl rfl rfl rfl
  rw [svc_eq]
  refine Keeps.leave (k := k.svcEntry sp c) ?_ rfl rfl fun t ht =>
    frame_svcEntry.trans (if_neg ht)
  have ha : k.active = (k.svcEntry sp c).active := rfl
  generalize k.svcEntry sp c = k1 at *
  cases c with
  | flagTake w =>
    obtain ⟨rfl, ⟨⟩⟩ := ite_none_right_eq_some.mp hask
    simp only [svcIsr, flagTakeSvc, hat.idx]
    exact keeps_take hat ha hst hs none
  | flagTimedtake w ms =>
    obtain ⟨rfl, ⟨⟩⟩ := ite_none_right_eq_some.mp hask
    simp only [svcIsr, flagTimedtakeSvc, hat.idx]
    exact keeps_take hat ha hst hs (some ms)
  | flagGive w =>
    obtain ⟨rfl, ⟨⟩⟩ := ite_none_right_eq_some.mp hask
    simp only [svcIsr, flagGiveSvc, hat.idx]
    -- the caller runs, so it is not at the head of the queue
    have hc : HeadCurrent w.toNat (k1.arg0 k.active 0) := by
      intro hne hh
      refine absurd ?_ hst
      rw [ha, ← show k1.q.wqHead w.toNat = k1.active from hh]
      exact (ho.head hne).2.2
    exact (Keeps.of_arg0 ha (keeps_give (hat.arg0 ha hst 0) (ho.congr rfl rfl rfl rfl) hc)).deferSched
  | pause thread =>
    cases hask
    exact keeps_pause hat ha hst thread
  | resume thread =>
    cases hask
    exact keeps_resume hat ho ha hst hp thread
  | _ => cases hask

theorem Guards.step (h : Guards wq f k k.resumeFrame) (ho : Settled wq.toNat k)
    (ho' : Settled wq.toNat k') (hask : ev.onFlag wq f = some ask)
    (hc : ask = .give → HeadCurrent wq.toNat k) (hs : kernel.step k ev = some k') :
    Guards wq f k' k'.resumeFrame ∧
      Accounts wq.toNat f ask (k.caller ev) k k' k.resumeFrame k'.resumeFrame := by
  obtain ⟨hobj, hwq, -⟩ := h.flag
  cases ev with
  | svc sp c =>
    obtain ⟨-, hm, rfl⟩ := step_svc hs
    exact h.svc ho hask hm
  | tick sp =>
    obtain ⟨-, rfl⟩ := step_tick hs
    cases hask
    exact Keeps.leave (keeps_systick (h.excEnter ho sp) (ho.excEnter sp)) (q_excEnter k sp)
      (by rw [excEnter_eq]) fun t _ => congrFun frame_excEnter t
  | irq sp op =>
    obtain ⟨-, -, rfl⟩ := step_irq hs
    cases op with
    | flagGive i =>
      obtain ⟨rfl, ⟨⟩⟩ := ite_none_right_eq_some.mp hask
      refine Keeps.leave (k := k.excEnter sp) ?_ (q_excEnter k sp) (by rw [excEnter_eq])
        fun t _ => congrFun frame_excEnter t
      simp only [irqIsr, flagGiveIsr, ← hwq]
      have hc' : HeadCurrent wq.toNat (k.excEnter sp) := by
        -- a waiting thread is active only while the scheduler is due, and its frame stays
        rw [Kernel.excEnter]
        split
        · exact hc rfl
        · rename_i hp
          intro hne hh
          obtain ⟨hlt, -, hst⟩ := ho.head hne
          exact absurd ((ho.rests _ hlt hst).active hh) hp
      have hk : Keeps wq i .give threadNull (k.excEnter sp) ((k.excEnter sp).flagGiveI wq.toNat) :=
        keeps_give (h.excEnter ho sp) (ho.excEnter sp) hc'
      unfold Kernel.preempt
      split
      · exact hk.deferSched
      · exact hk
    | _ => cases hask
  | sched sp =>
    obtain ⟨-, rfl⟩ := step_sched hs
    cases hask
    have hat := h.excEnter ho sp
    have hframe : (k.excEnter sp).pendsvIsr.resumeFrame = k.resumeFrame := by
      rw [resumeFrame_pendsvIsr, frame_excEnter]
    have hq : (k.excEnter sp).pendsvIsr.q = k.q := q_excEnter k sp
    have hflag : (k.excEnter sp).pendsvIsr.flag = k.flag := by
      show (k.excEnter sp).flag = k.flag
      rw [excEnter_eq]
    rw [hframe]
    refine ⟨⟨hframe ▸ hat.toTended.pendsvIsr ho', hat.idx, hat.clear, hat.stats, hat.paused⟩,
      .of_none (fun t v => not_ends_same (by rw [hq])) ?_ fun _ _ _ _ => rfl⟩
    rw [hflag]
    rfl

/-- The steps on a flag keep the threads alive and in one place. -/
theorem Ordered.onFlag (h : Ordered k) (hp : k.Partition) (hg : Guards wq f k k.resumeFrame)
    (hask : ev.onFlag wq f = some ask) (hs : kernel.step k ev = some k') :
    Ordered k' ∧ k'.Partition := by
  have hin : ∀ t < threadsMax, k.q.mem wqPaused t = true → k.q.InPaused t :=
    fun t ht hm => (hp t ht (hg.paused t ht hm)).of_paused hm
  obtain ⟨hobj, hwq, hf⟩ := hg.flag
  have hjoin : wq.toNat < joinBase := by
    unfold joinBase gateBase
    omega
  refine ⟨h.step hs ?_ ?_, hp.step ⟨?_, ?_⟩ hs⟩
  · rintro sp c rfl
    cases c with
    | resume thread => exact ⟨fun ht hm w hw hne _ _ => (hin _ ht hm).2 w hw hne, nofun⟩
    | pause | flagTake | flagTimedtake | flagGive => exact ⟨trivial, nofun⟩
    | _ => cases hask
  · rintro sp n rfl
    cases hask
  · cases ev with
    | svc sp c => cases c <;> first | rfl | cases hask
    | irq sp op => cases op <;> first | rfl | cases hask
    | _ => rfl
  · cases ev with
    | svc sp c =>
      obtain ⟨-, hm, -⟩ := step_svc hs
      have hready : k.q.mem wqReady k.active = true := h.live.ready hm.2.1 hm.1
      cases c with
      | resume thread =>
        intro ht hm
        rcases hg.stats _ ht with hz | hz
        · exact .inl hz
        · exact .inr (.inr (.inl ⟨hz ▸ hobj, .inl (hz ▸ hjoin)⟩))
      | pause => trivial
      | flagTake | flagTimedtake | flagGive => exact fun _ => hready
      | _ => cases hask
    | tick sp =>
      by_cases hv : k.sliceVal.toInt < 0
      · exact .inl ((h.settled hobj).slice hv)
      · exact .inr (by omega)
    | _ => trivial

/-- Where the runs start: no thread waits. -/
structure Untaken (wq : Word) (f : Nat) (k : Kernel) : Prop extends Ordered k where
  partition : k.Partition
  idx : k.flagIdx wq = some f
  stats : ∀ t < threadsMax, k.q.thStat t = 0
  paused : ∀ t < threadsMax, k.q.mem wqPaused t = true → k.thAlloc.rd t = true

end

end Kernel

open Kernel

/-- The kernel with the counts of a flag's account. -/
structure Ledger where
  k : Kernel
  takes : Nat
  gives : Nat
  /-- Gives that found the flag set. -/
  found : Nat

def ledger (wq : Word) (f : Nat) : System Ledger Event where
  step s ev := (ev.onFlag wq f).bind fun ask => (kernel.step s.k ev).map fun k' =>
    { k := k'
      takes := s.takes + taken wq.toNat (ask == .take) (s.k.caller ev) s.k.q k'.q k'.resumeFrame
      gives := s.gives + given ask
      found := s.found + wasted ask (s.k.flag.rd f) }

/-- The condition on a step. -/
def HandsOver (wq : Word) (f : Nat) (s : Ledger) (ev : Event) : Prop :=
  ev.onFlag wq f = some .give → HeadCurrent wq.toNat s.k

instance (wq : Word) (f : Nat) (s : Ledger) (ev : Event) : Decidable (HandsOver wq f s ev) := by
  unfold HandsOver
  infer_instance

namespace Kernel

/-- **A flag is handed over** along every run in which no give meets a stale context pointer. -/
theorem flag_handed_over {wq : Word} {f : Nat} {k0 : Kernel} (h0 : Untaken wq f k0) {s : Ledger}
    (hr : (ledger wq f).Run (HandsOver wq f) ⟨k0, 0, 0, 0⟩ s) :
    s.takes + (s.k.flag.rd f).toNat + s.found = (k0.flag.rd f).toNat + s.gives ∧
      (s.k.flag.rd f = true → ∀ t < threadsMax, s.k.q.mem wq.toNat t = false) ∧
      ∀ ev ask k', ev.onFlag wq f = some ask → HandsOver wq f s ev → kernel.step s.k ev = some k' →
        Accounts wq.toNat f ask (s.k.caller ev) s.k k' s.k.resumeFrame k'.resumeFrame := by
  have hobj : Queues.IsObj wq.toNat := by
    obtain ⟨hw, hf, -⟩ := flagIdx_eq_some h0.idx
    exact hw ▸ isObj_flag hf
  have hstep : ∀ (k k' : Kernel) ev ask, Ordered k → k.Partition → Guards wq f k k.resumeFrame →
      ev.onFlag wq f = some ask → (ask = .give → HeadCurrent wq.toNat k) →
      kernel.step k ev = some k' →
      (Ordered k' ∧ k'.Partition) ∧ Guards wq f k' k'.resumeFrame ∧
        Accounts wq.toNat f ask (k.caller ev) k k' k.resumeFrame k'.resumeFrame := by
    intro k k' ev ask ho hp hg hask hc hs
    have ho' := ho.onFlag hp hg hask hs
    exact ⟨ho', hg.step (ho.settled hobj) (ho'.1.settled hobj) hask hc hs⟩
  obtain ⟨ho, hp, hg, hcount⟩ : Ordered s.k ∧ s.k.Partition ∧ Guards wq f s.k s.k.resumeFrame ∧
      s.takes + (s.k.flag.rd f).toNat + s.found = (k0.flag.rd f).toNat + s.gives := by
    refine hr.invariant (I := fun s => Ordered s.k ∧ s.k.Partition ∧ Guards wq f s.k s.k.resumeFrame ∧
      s.takes + (s.k.flag.rd f).toNat + s.found = (k0.flag.rd f).toNat + s.gives) ?_ ?_
    · intro s ev s' ⟨ho, hp, hg, hcount⟩ hc hs
      obtain ⟨ask, hask, hs⟩ := bind_eq_some_iff.mp hs
      obtain ⟨k', hk', rfl⟩ := map_eq_some_iff.mp hs
      obtain ⟨⟨ho', hp'⟩, hg', hacc⟩ := hstep _ _ _ _ ho hp hg hask (fun he => hc (he ▸ hask)) hk'
      refine ⟨ho', hp', hg', ?_⟩
      have := hacc.count
      dsimp only
      omega
    · have hset := h0.toOrdered.settled hobj
      have hpos := clock_lt_obj hobj
      refine ⟨h0.toOrdered, h0.partition, ⟨⟨nofun, fun t ht hs => ?_⟩, h0.idx, fun _ t ht => ?_,
        fun t ht => .inl (h0.stats t ht), h0.paused⟩, by simp⟩
      · have : k0.q.thStat t = _ := hs
        rw [h0.stats t ht] at this
        omega
      · rw [← not_eq_true]
        intro hm
        have := hset.stat t ht hm
        rw [h0.stats t ht] at this
        omega
  exact ⟨hcount, hg.clear, fun ev ask k' hask hc hs =>
    (hstep _ _ _ _ ho hp hg hask (fun he => hc (he ▸ hask)) hs).2.2⟩

end Kernel

end

namespace Kernel

/-- Two threads and a flag nobody waits for; the first thread was saved at address 0. -/
theorem untaken_run (Q : Kernel → Prop) [DecidablePred Q]
    (h : (kernel.exec Kernel.Careful (Kernel.init 0 0 16 false)
      [.svc 0 .flagAlloc, .svc 0 (.threadCreate ⟨0, 1024, 256, 16, 2, false⟩), .sched 0]).any
      (fun k => decide ((k.active ≤ threadIdle ∧ k.Partition ∧ k.flagIdx 31 = some 0 ∧
        (∀ t < threadsMax, k.q.thStat t = 0) ∧
        ∀ t < threadsMax, k.q.mem wqPaused t = true → k.thAlloc.rd t = true) ∧ Q k)) = true) :
    ∃ k, Untaken 31 0 k ∧ Q k := by
  obtain ⟨k, hr, ⟨hi, hp, hidx, hst, hpa⟩, hq⟩ := System.exists_run_of_exec _ _ _ h
  have hlive := (Booted.live ⟨0, 0, 16, false, by decide, rfl⟩).run hr
  exact ⟨k, ⟨⟨hlive, hi⟩, hp, hidx, hst, hpa⟩, hq⟩

/-- Thread 0 takes the flag and waits, thread 1 gives it. -/
theorem flag_handed_over_give :
    ∃ k0 s, Untaken 31 0 k0 ∧ (ledger 31 0).Run (HandsOver 31 0) ⟨k0, 0, 0, 0⟩ s ∧ s.takes = 1 ∧
      s.takes + (s.k.flag.rd 0).toNat + s.found = (k0.flag.rd 0).toNat + s.gives := by
  obtain ⟨k0, h0, hx⟩ := untaken_run (fun k => ((ledger 31 0).exec (HandsOver 31 0) ⟨k, 0, 0, 0⟩
    [.svc 8 (.flagTake 31), .sched 8, .svc 960 (.flagGive 31)]).any
      (fun s => decide (s.takes = 1)) = true) (by decide +kernel)
  obtain ⟨s, hr, ht⟩ := System.exists_run_of_exec _ _ _ hx
  exact ⟨k0, s, h0, hr, ht, (flag_handed_over h0 hr).1⟩

/-- A handler gives the flag before the scheduler has saved the caller of a timed take: the give is
used up, and the take returns that its time is over. -/
theorem give_lost_before_sched :
    ∃ k0 s, Untaken 31 0 k0 ∧ (ledger 31 0).Run (fun _ _ => True) ⟨k0, 0, 0, 0⟩ s ∧
      s.takes + (s.k.flag.rd 0).toNat + s.found ≠ (k0.flag.rd 0).toNat + s.gives ∧
      s.k.q.mem wqReady 0 = true ∧ (s.k.resumeFrame 0).r0 = ETIMEDOUT := by
  obtain ⟨k0, h0, hx⟩ := untaken_run (fun k => ((ledger 31 0).exec (fun _ _ => True) ⟨k, 0, 0, 0⟩
    [.svc 8 (.flagTimedtake 31 5), .irq 8 (.flagGive 0)]).any
      (fun s => decide (s.takes + (s.k.flag.rd 0).toNat + s.found ≠ (k.flag.rd 0).toNat + s.gives ∧
        s.k.q.mem wqReady 0 = true ∧ (s.k.resumeFrame 0).r0 = ETIMEDOUT)) = true) (by decide +kernel)
  obtain ⟨s, hr, hc⟩ := System.exists_run_of_exec _ _ _ hx
  exact ⟨k0, s, h0, hr, hc⟩

end Kernel

end ThinkOS
