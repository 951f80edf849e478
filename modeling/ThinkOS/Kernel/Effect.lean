import ThinkOS.Kernel.Queue

/-!
# What a service may do

Every service on a mutex, condition variable, semaphore, event set, flag or gate moves
threads in one of three ways (`CallEff`): it wakes waiters of object queues, it blocks
its caller, or it blocks its caller and hands something over to one waiter. Whatever
else it does to its object, it leaves the rest of the kernel alone (`Served`). `Served` is
proved once for each service; the invariants of the scheduler state then come from
`CallEff`, not from forty handlers.
-/

namespace ThinkOS

open Function Queues

variable {a b c k : Kernel} {ctx : Nat → Option Nat} {q : Queues} {wq m : Nat} {g : Nat → Kernel}
  {fault : Bool} {e : Word} {th : Nat}

open Lib

namespace Queues

theorem ext_mem {q' : Queues} (hm : ∀ w t, t < 32 → q.mem w t = q'.mem w t)
    (hs : q.thStat = q'.thStat) : q = q' := by
  obtain ⟨l, s⟩ := q
  obtain ⟨l', s'⟩ := q'
  obtain rfl : s = s' := hs
  obtain rfl : l = l' := by
    apply Bitmap.ext_rd
    intro i
    have h := hm (i / 32) (i % 32) (by omega)
    unfold mem at h
    rwa [show 32 * (i / 32) + i % 32 = i by omega] at h
  rfl

/-- Insertion into a wait queue, timed or not. -/
def enqueue (q : Queues) (wq th : Nat) (timed : Bool) : Queues :=
  if timed then q.tmdwqInsert wq th else q.wqInsert wq th

theorem mem_enqueue {w t : Nat} {timed : Bool} (hth : th < 32) (ht : t < 32) :
    (q.enqueue wq th timed).mem w t =
      if (w = wq ∨ (timed = true ∧ w = wqClock)) ∧ t = th then true else q.mem w t := by
  unfold enqueue
  cases timed with
  | true => simp [mem_tmdwqInsert q wq w hth ht]
  | false => simp [mem_wqInsert hth ht]

theorem thStat_enqueue (q : Queues) (wq th t : Nat) (timed : Bool) :
    (q.enqueue wq th timed).thStat t = if t = th then 2 * wq + timed.toNat else q.thStat t := by
  unfold enqueue
  cases timed with
  | true => simp [thStat_tmdwqInsert]
  | false => simp [thStat_wqInsert]

/-- `sleep` and `alarm` write the clock queue only. -/
theorem enqueue_clock (hth : th < 32) :
    (q.bitWr wqClock th true).setStat th (2 * wqClock + 1) = q.enqueue wqClock th true := by
  apply ext_mem
  · intro w t ht
    rw [mem_setStat, mem_bitWr hth ht, mem_enqueue hth ht]
    simp
  · funext t
    rw [thStat_enqueue, thStat_setStat, thStat_bitWr]
    rfl

section
variable [Config]

theorem collects_enqueue (q : Queues) {wq th : Nat} (timed : Bool) (hth : th < 32)
    (hwq : wqClock ≤ wq) : (q.enqueue wq th timed).collects th = q.collects th := by
  unfold wqClock at hwq
  unfold collects enqueue
  cases timed with
  | true =>
    show ((q.wqLst.wr (32 * wq + th) true).wr (32 * wqClock + th) true wqReady &&& _ == _) = _
    rw [Bitmap.wr_word _ _ _ _ (by unfold wqReady wqClock; omega),
      Bitmap.wr_word _ _ _ _ (by unfold wqReady; omega)]
  | false =>
    show (q.wqLst.wr (32 * wq + th) true wqReady &&& _ == _) = _
    rw [Bitmap.wr_word _ _ _ _ (by unfold wqReady; omega)]

/-- A handler may suspend its caller before or after it puts it into the queue. -/
theorem enqueue_suspend {timed : Bool} (hth : th < 32) (hwq : wqClock ≤ wq) :
    (q.suspend th).enqueue wq th timed = (q.enqueue wq th timed).suspend th := by
  have hc := q.collects_enqueue timed hth hwq
  unfold wqClock at hwq
  have h0 : ¬ wqReady = wq := by unfold wqReady; omega
  have h1 : ¬ wqTmshare = wq := by unfold wqTmshare; omega
  have h2 : ¬ wqReady = wqClock := by decide
  have h3 : ¬ wqTmshare = wqClock := by decide
  apply ext_mem
  · intro w t ht
    rw [mem_enqueue hth ht]
    by_cases hr : w = wqReady
    · subst hr
      rw [mem_suspend_ready ht, mem_suspend_ready ht, mem_enqueue hth ht, mem_enqueue hth ht, hc]
      simp [h0, h1, h2, h3]
    · by_cases hs : w = wqTmshare
      · subst hs
        rw [mem_suspend_tmshare ht, mem_suspend_tmshare ht, mem_enqueue hth ht, hc]
        simp [h1, h3]
      · rw [mem_suspend_of_ne ht hr hs, mem_suspend_of_ne ht hr hs, mem_enqueue hth ht]
  · funext t
    rw [thStat_enqueue, thStat_suspend, thStat_suspend, thStat_enqueue]

/-- Object and join queues. -/
def IsObj (wq : Nat) : Prop := mutexBase ≤ wq ∧ wq < wqPaused

omit [Config] in
theorem ready_lt_clock : wqReady < wqTmshare ∧ wqTmshare < wqClock := by decide

theorem clock_lt_obj {w : Nat} (h : IsObj w) : wqClock < w := by
  have := h.1
  unfold wqClock
  unfold mutexBase at this
  omega

/-- Queues a blocking call enters: an object queue, or the clock queue for a sleep. -/
def IsWait (wq : Nat) (timed : Bool) : Prop := IsObj wq ∨ (wq = wqClock ∧ timed = true)

/-- Some threads are woken from object queues they are in. -/
inductive Wakes (q : Queues) : Queues → Prop
  | refl : Wakes q q
  | wake {q' : Queues} (w t : Nat) : Wakes q q' → IsObj w → t < 32 → q'.mem w t = true →
      Wakes q (q'.wakeup w t)

theorem Wakes.trans {a b c : Queues} (h : a.Wakes b) (h' : b.Wakes c) : a.Wakes c := by
  induction h' with
  | refl => exact h
  | wake w t _ hw ht hm ih => exact .wake w t ih hw ht hm

/-- The queue effect of a service called by `self`; the flag says whether `self` is blocked. -/
inductive CallEff (self : Nat) (q : Queues) : Queues → Bool → Prop
  | done {q' : Queues} : Wakes q q' → CallEff self q q' false
  | block (w : Nat) (timed : Bool) : IsWait w timed →
      CallEff self q ((q.enqueue w self timed).suspend self) true
  | handOver (w : Nat) (timed : Bool) (m t : Nat) : IsObj w → IsObj m → m ≠ w → t < 32 →
      q.mem m t = true →
      CallEff self q (((q.enqueue w self timed).wakeup m t).suspend self) true

end

end Queues

namespace Kernel

theorem storeFrame_pc {s : Nat → Nat → Frame} {sp : Nat} {v : Word} (t p : Nat) :
    (storeFrame s th sp { s th sp with r0 := v } t p).pc = (s t p).pc := by
  by_cases h : t ≠ th ∨ p ≠ sp
  · rw [storeFrame_of_ne h]
  · obtain ⟨rfl, rfl⟩ : t = th ∧ p = sp := by omega
    rw [storeFrame_self]

/-- What no service on an object changes. -/
structure Kept (k k' : Kernel) : Prop where
  active : k'.active = k.active
  psp : k'.psp = k.psp
  reg : k'.reg = k.reg
  criticalCnt : k'.criticalCnt = k.criticalCnt
  thAlloc : k'.thAlloc = k.thAlloc
  irqTh : k'.irqTh = k.irqTh
  sched : k'.schedVal = k.schedVal ∧ k'.schedPri = k.schedPri ∧ k'.schedLimit = k.schedLimit
  pc : ∀ t sp, (k'.stack t sp).pc = (k.stack t sp).pc
  pend : k.pendsv = true → k'.pendsv = true

theorem Kept.refl (k : Kernel) : Kept k k :=
  ⟨rfl, rfl, rfl, rfl, rfl, rfl, ⟨rfl, rfl, rfl⟩, fun _ _ => rfl, id⟩

theorem Kept.trans (h : Kept a b) (h' : Kept b c) : Kept a c where
  active := h'.active.trans h.active
  psp := h'.psp.trans h.psp
  reg := h'.reg.trans h.reg
  criticalCnt := h'.criticalCnt.trans h.criticalCnt
  thAlloc := h'.thAlloc.trans h.thAlloc
  irqTh := h'.irqTh.trans h.irqTh
  sched := ⟨h'.sched.1.trans h.sched.1, h'.sched.2.1.trans h.sched.2.1,
    h'.sched.2.2.trans h.sched.2.2⟩
  pc := fun t sp => (h'.pc t sp).trans (h.pc t sp)
  pend := fun hp => h'.pend (h.pend hp)

theorem Kept.fields {clock semVal : Nat → Word} {ev flag gate : Bitmap} {lock : Nat → Int}
    {ma ca sa ea fa ga : Bitmap} : Kept k { k with
      q := q, ctx := ctx, clock := clock, semVal := semVal, ev := ev, flag := flag, gate := gate,
      lock := lock, mutexAlloc := ma, condAlloc := ca, semAlloc := sa, evAlloc := ea,
      flagAlloc := fa, gateAlloc := ga, fault := fault } :=
  ⟨rfl, rfl, rfl, rfl, rfl, rfl, ⟨rfl, rfl, rfl⟩, fun _ _ => rfl, id⟩

theorem Kept.arg0 (k : Kernel) (self : Nat) (v : Word) : Kept k (k.arg0 self v) :=
  ⟨rfl, rfl, rfl, rfl, rfl, rfl, ⟨rfl, rfl, rfl⟩, fun t sp => storeFrame_pc t sp, id⟩

theorem Kept.ctxR0 (k : Kernel) (th : Nat) (v : Word) : Kept k (k.ctxR0 th v) :=
  ⟨rfl, rfl, rfl, rfl, rfl, rfl, ⟨rfl, rfl, rfl⟩, fun t sp => storeFrame_pc t sp, id⟩

theorem Kept.deferSched (k : Kernel) : Kept k k.deferSched :=
  ⟨rfl, rfl, rfl, rfl, rfl, rfl, ⟨rfl, rfl, rfl⟩, fun _ _ => rfl, fun _ => rfl⟩

theorem Kept.preempt (k : Kernel) : Kept k k.preempt := by
  unfold Kernel.preempt
  split
  · exact .deferSched k
  · exact .refl k

theorem Kept.wakeupReturn (k : Kernel) (wq th : Nat) (ret : Word) :
    Kept k (k.wakeupReturn wq th ret) := Kept.fields.trans (.ctxR0 _ _ _)

@[simp] theorem q_preempt (k : Kernel) : k.preempt.q = k.q := by
  unfold Kernel.preempt
  split <;> rfl

@[simp] theorem ctx_preempt : k.preempt.ctx = k.ctx := by
  unfold Kernel.preempt
  split <;> rfl

section
variable [Config] {o : Option Nat}

/-! ## The reach of a service -/

/-- A service called by `th` that reaches the objects of `S` (by queue number) only: the data
and the waiters of the other objects stay as they are, and so does every thread that neither made
the call nor waits for an object of `S`. -/
structure Within (S : Nat → Prop) (th : Nat) (k k' : Kernel) : Prop where
  mutex : ∀ m, m < mutexMax → ¬ S (mutexBase + m) →
    k'.lock m = k.lock m ∧ k'.mutexAlloc.rd m = k.mutexAlloc.rd m
  sem : ∀ s, s < semaphoreMax → ¬ S (semBase + s) →
    k'.semVal s = k.semVal s ∧ k'.semAlloc.rd s = k.semAlloc.rd s
  gate : ∀ g, g < gateMax → ¬ S (gateBase + g) →
    (∀ b, b < 2 → k'.gate.rd (g * 2 + b) = k.gate.rd (g * 2 + b)) ∧
      k'.gateAlloc.rd g = k.gateAlloc.rd g
  mem : ∀ w t, Queues.IsObj w → ¬ S w → t < 32 → k'.q.mem w t = k.q.mem w t
  other : ∀ t, t < 32 → t ≠ th → (∀ w, Queues.IsObj w → S w → k.q.mem w t = false) →
    k'.stack t = k.stack t ∧ k'.q.thStat t = k.q.thStat t ∧ k'.q.mem wqClock t = k.q.mem wqClock t ∧
      ∀ w, Queues.IsObj w → S w → k'.q.mem w t = false

section
variable {S : Nat → Prop} {self : Nat}

theorem Within.refl : Within S self k k :=
  ⟨fun _ _ _ => ⟨rfl, rfl⟩, fun _ _ _ => ⟨rfl, rfl⟩, fun _ _ _ => ⟨fun _ _ => rfl, rfl⟩,
    fun _ _ _ _ _ => rfl, fun _ _ _ h => ⟨rfl, rfl, rfl, h⟩⟩

theorem Within.trans (h : Within S self a b) (h' : Within S self b c) : Within S self a c where
  mutex := fun m hm hn =>
    ⟨(h'.mutex m hm hn).1.trans (h.mutex m hm hn).1, (h'.mutex m hm hn).2.trans (h.mutex m hm hn).2⟩
  sem := fun s hs hn =>
    ⟨(h'.sem s hs hn).1.trans (h.sem s hs hn).1, (h'.sem s hs hn).2.trans (h.sem s hs hn).2⟩
  gate := fun g hg hn =>
    ⟨fun b hb => ((h'.gate g hg hn).1 b hb).trans ((h.gate g hg hn).1 b hb),
      (h'.gate g hg hn).2.trans (h.gate g hg hn).2⟩
  mem := fun w t ho hw ht => (h'.mem w t ho hw ht).trans (h.mem w t ho hw ht)
  other := fun t ht hne hw => by
    obtain ⟨h1, h2, h3, h4⟩ := h.other t ht hne hw
    obtain ⟨h1', h2', h3', h4'⟩ := h'.other t ht hne h4
    exact ⟨h1'.trans h1, h2'.trans h2, h3'.trans h3, h4'⟩

theorem Within.same {k' : Kernel} (hl : k'.lock = k.lock ∧ k'.mutexAlloc = k.mutexAlloc)
    (hs : k'.semVal = k.semVal ∧ k'.semAlloc = k.semAlloc)
    (hg : k'.gate = k.gate ∧ k'.gateAlloc = k.gateAlloc) (hq : k'.q = k.q)
    (hf : ∀ t, t ≠ self → k'.stack t = k.stack t) : Within S self k k' :=
  ⟨fun _ _ _ => ⟨by rw [hl.1], by rw [hl.2]⟩, fun _ _ _ => ⟨by rw [hs.1], by rw [hs.2]⟩,
    fun _ _ _ => ⟨fun _ _ => by rw [hg.1], by rw [hg.2]⟩, fun _ _ _ _ _ => by rw [hq],
    fun t _ hne h => ⟨hf t hne, by rw [hq], by rw [hq], hq ▸ h⟩⟩

theorem Within.arg0 (k : Kernel) (v : Word) : Within S self k (k.arg0 self v) :=
  .same ⟨rfl, rfl⟩ ⟨rfl, rfl⟩ ⟨rfl, rfl⟩ rfl fun _ hne => update_of_ne hne ..

theorem Within.deferSched (k : Kernel) : Within S self k k.deferSched :=
  .same ⟨rfl, rfl⟩ ⟨rfl, rfl⟩ ⟨rfl, rfl⟩ rfl fun _ _ => rfl

/-- Stores into the queues that move `self` only, and only in and out of object queues of `S`. -/
theorem Within.queues {clock : Nat → Word}
    (hm : ∀ w t, wqClock ≤ w → t < 32 → t ≠ self → q.mem w t = k.q.mem w t)
    (ht : ∀ t, t ≠ self → q.thStat t = k.q.thStat t)
    (hs : self < 32 → ∀ w, Queues.IsObj w → ¬ S w → q.mem w self = k.q.mem w self) :
    Within S self k { k with q := q, clock := clock, ctx := ctx } where
  mutex := fun _ _ _ => ⟨rfl, rfl⟩
  sem := fun _ _ _ => ⟨rfl, rfl⟩
  gate := fun _ _ _ => ⟨fun _ _ => rfl, rfl⟩
  mem := fun w t ho hw hlt => by
    by_cases he : t = self
    · subst he
      exact hs hlt w ho hw
    · exact hm w t (clock_lt_obj ho).le hlt he
  other := fun t hlt hne h => by
    refine ⟨rfl, ht t hne, hm _ t (Nat.le_refl _) hlt hne, fun w ho hw => ?_⟩
    rw [hm w t (clock_lt_obj ho).le hlt hne]
    exact h w ho hw

theorem Within.suspend (k : Kernel) (th : Nat) : Within S self k (k.suspend th) := by
  have h0 := ready_lt_clock
  refine .queues (fun w t hw ht _ => ?_) (fun t _ => ?_) (fun hlt w ho _ => ?_)
  · exact mem_suspend_of_ne ht (by omega) (by omega)
  · exact congrFun thStat_suspend t
  · have := clock_lt_obj ho
    exact mem_suspend_of_ne hlt (by omega) (by omega)

end

/-! ## Services -/

/-- An object service called by `th`, on the objects of `S`. -/
structure Served (S : Nat → Prop) (th : Nat) (k k' : Kernel) : Prop extends Kept k k' where
  ctx : ∀ t, k'.ctx t = k.ctx t ∨ (t = th ∧ k'.ctx t = some k.psp)
  eff : ∃ b, k.q.CallEff th k'.q b ∧ (b = true → k'.pendsv = true)
  within : Within S th k k'

/-- An object service that blocks nobody, as interrupt handlers may call it. -/
structure Raised (S : Nat → Prop) (th : Nat) (k k' : Kernel) : Prop extends Kept k k' where
  ctx : k'.ctx = k.ctx
  eff : k.q.Wakes k'.q
  within : Within S th k k'

section
variable {S : Nat → Prop} {self : Nat} {k' : Kernel}

theorem Raised.served (h : Raised S self k k') : Served S self k k' where
  toKept := h.toKept
  ctx := fun t => .inl (by rw [h.ctx])
  eff := ⟨false, .done h.eff, by simp⟩
  within := h.within

theorem Raised.trans (h : Raised S self a b) (h' : Raised S self b c) : Raised S self a c :=
  ⟨h.toKept.trans h'.toKept, h'.ctx.trans h.ctx, h.eff.trans h'.eff, h.within.trans h'.within⟩

/-- Only object data and return values change. -/
theorem Raised.of_kept (h : Kept k k') (hctx : k'.ctx = k.ctx) (hq : k'.q = k.q)
    (hw : Within S self k k') : Raised S self k k' := ⟨h, hctx, hq ▸ .refl, hw⟩

theorem Raised.refl (k : Kernel) : Raised S self k k := .of_kept (.refl k) rfl rfl .refl

/-- The data `Within` does not speak of: condition variables, event sets and flags. -/
theorem raised_fields {ev flag ca ea fa : Bitmap} : Raised S self k { k with
      ev := ev, flag := flag, condAlloc := ca, evAlloc := ea, flagAlloc := fa, fault := fault } :=
  .of_kept Kept.fields rfl rfl (.same ⟨rfl, rfl⟩ ⟨rfl, rfl⟩ ⟨rfl, rfl⟩ rfl fun _ _ => rfl)

theorem raised_mutexAlloc (hS : m < mutexMax → S (mutexBase + m)) (v : Bool) :
    Raised S self k { k with mutexAlloc := k.mutexAlloc.wr m v } := by
  refine .of_kept Kept.fields rfl rfl
    { Within.refl (k := k) with mutex := fun i hlt hi => ⟨rfl, ?_⟩ }
  rw [Bitmap.rd_wr, if_neg]
  rintro rfl
  exact hi (hS hlt)

theorem raised_semAlloc {s : Nat} (hS : s < semaphoreMax → S (semBase + s)) (v : Bool) :
    Raised S self k { k with semAlloc := k.semAlloc.wr s v } := by
  refine .of_kept Kept.fields rfl rfl
    { Within.refl (k := k) with sem := fun i hlt hi => ⟨rfl, ?_⟩ }
  rw [Bitmap.rd_wr, if_neg]
  rintro rfl
  exact hi (hS hlt)

theorem raised_gateAlloc {g : Nat} (hS : g < gateMax → S (gateBase + g)) (v : Bool) :
    Raised S self k { k with gateAlloc := k.gateAlloc.wr g v } := by
  refine .of_kept Kept.fields rfl rfl
    { Within.refl (k := k) with gate := fun i hlt hi => ⟨fun _ _ => rfl, ?_⟩ }
  rw [Bitmap.rd_wr, if_neg]
  rintro rfl
  exact hi (hS hlt)

theorem raised_lock (hS : m < mutexMax → S (mutexBase + m)) {v : Int} :
    Raised S self k { k with lock := update k.lock m v } := by
  refine .of_kept Kept.fields rfl rfl
    { Within.refl (k := k) with mutex := fun i hlt hi => ⟨?_, rfl⟩ }
  have hne : i ≠ m := fun he => hi (he ▸ hS (he ▸ hlt))
  exact update_of_ne hne ..

theorem raised_arg0 {v : Word} : Raised S self k (k.arg0 self v) :=
  .of_kept (.arg0 _ _ _) rfl rfl (.arg0 _ _)

theorem raised_deferSched : Raised S self k k.deferSched :=
  .of_kept (.deferSched _) rfl rfl (.deferSched _)

theorem raised_preempt : Raised S self k k.preempt := by
  unfold Kernel.preempt
  split
  · exact raised_deferSched
  · exact .refl k

theorem raised_wake (hwq : Queues.IsObj wq) (hS : S wq) (hne : k.q.wqHead wq ≠ threadNull)
    (ret : Word) : Raised S self k (k.wakeupReturn wq (k.q.wqHead wq) ret) := by
  obtain ⟨hlt, hm⟩ := k.q.mem_wqHead hne
  generalize k.q.wqHead wq = th at hlt hm
  have h0 := ready_lt_clock
  have hr : wq ≠ wqReady := by
    have := clock_lt_obj hwq
    omega
  refine ⟨.wakeupReturn _ _ _ _, rfl, .wake wq th .refl hwq hlt hm, ?_⟩
  refine ⟨fun _ _ _ => ⟨rfl, rfl⟩, fun _ _ _ => ⟨rfl, rfl⟩, fun _ _ _ => ⟨fun _ _ => rfl, rfl⟩,
    fun w t ho hw ht => ?_, fun t ht _ h => ?_⟩
  · show (k.q.wakeup wq th).mem w t = _
    rw [mem_wakeup hlt ht hr]
    have h1 : w ≠ wq := fun he => hw (he ▸ hS)
    have := clock_lt_obj ho
    have h2 : w ≠ wqReady := by omega
    have h3 : w ≠ wqClock := by omega
    simp [h1, h2, h3]
  · have hne : t ≠ th := by
      rintro rfl
      rw [h wq hwq hS] at hm
      cases hm
    refine ⟨?_, ?_, ?_, fun w ho hw => ?_⟩
    · exact update_of_ne hne ..
    · show (k.q.wakeup wq th).thStat t = _
      rw [thStat_wakeup, if_neg hne]
    · show (k.q.wakeup wq th).mem _ t = _
      rw [mem_wakeup hlt ht hr, if_neg hne]
    · show (k.q.wakeup wq th).mem w t = _
      rw [mem_wakeup hlt ht hr, if_neg hne]
      exact h w ho hw

/-! ### The caller enters a queue -/

theorem Within.insert (k : Kernel) (timed : Bool) (clock : Nat → Word) (hs : self < 32)
    (hS : S wq) : Within S self k { k with q := k.q.enqueue wq self timed, clock := clock } := by
  refine .queues (fun w t _ ht hne => ?_) (fun t hne => ?_) fun _ w ho hw => ?_
  · rw [mem_enqueue hs ht, if_neg fun h => hne h.2]
  · rw [thStat_enqueue, if_neg hne]
  · rw [mem_enqueue hs hs, if_neg]
    rintro ⟨rfl | ⟨-, rfl⟩, -⟩
    · exact hw hS
    · exact absurd (clock_lt_obj ho) (lt_irrefl _)

/-- The services return an error for a number that is not one of their objects. -/
theorem raised_idx : (∀ i, o = some i → Raised S self k (g i)) →
      Raised S self k (match o with | none => k.arg0 self e | some i => g i) := by
  cases o with
  | none => exact fun _ => raised_arg0
  | some i => exact fun h => h i rfl

theorem served_idx : (∀ i, o = some i → Served S self k (g i)) →
      Served S self k (match o with | none => k.arg0 self e | some i => g i) := by
  cases o with
  | none => exact fun _ => raised_arg0.served
  | some i => exact fun h => h i rfl

theorem Served.of_block (timed : Bool) (h : Kept k k') (hctx : k'.ctx = k.ctx)
    (hw : Queues.IsWait wq timed) (hq : k'.q = k.q.enqueue wq self timed)
    (hin : Within S self k k') : Served S self k (k'.suspend self).deferSched where
  toKept := (h.trans Kept.fields).trans (.deferSched _)
  ctx := fun t => .inl (by rw [← hctx]; rfl)
  eff := by
    refine ⟨true, ?_, fun _ => rfl⟩
    show k.q.CallEff self (k'.q.suspend self) true
    rw [hq]
    exact .block wq timed hw
  within := (hin.trans (.suspend _ _)).trans (.deferSched _)

/-! ### Waking a whole queue -/

theorem wakeAllLoop_raised {ret : Word} (hwq : Queues.IsObj wq) (hS : S wq) :
    ∀ (fuel : Nat) (k : Kernel), Raised S self k (wakeAllLoop wq ret fuel k) := by
  intro fuel
  induction fuel with
  | zero => exact fun k => .refl k
  | succ fuel ih =>
    intro k
    simp only [wakeAllLoop]
    split
    · rename_i hne
      exact (raised_wake hwq hS hne ret).trans (ih _)
    · exact .refl k

theorem wakeAll_raised (k : Kernel) (self wq : Nat) (ret : Word) (hwq : Queues.IsObj wq) (hS : S wq) :
    Raised S self k (k.wakeAll wq ret) := wakeAllLoop_raised hwq hS 32 k

end

end

end Kernel

end ThinkOS
