import ThinkOS.Kernel.State

/-!
# Wait queue primitives

The inline functions of kernel.h that move a thread between queues. Each one is
first an operation on `Queues`, with one lemma that says which bits it changes
(`mem_…`) and one that says which status it changes (`thStat_…`); the operation on
`Kernel` adds the clock entry and the return value. Later modules read queues through
`mem` and these lemmas only.
-/

namespace ThinkOS

open BitVec Function

variable {q : Queues} {wq th w t : Nat}

open Lib

namespace Queues

section
variable (q : Queues)

/-- Thread `th` is in queue `wq`. -/
def mem (wq th : Nat) : Bool := q.wqLst.rd (32 * wq + th)

/-- `__bit_mem_wr(&wq_lst[wq], th, v)` -/
def bitWr (wq th : Nat) (v : Bool) : Queues :=
  { q with wqLst := q.wqLst.wr (32 * wq + th) v }

def setStat (th s : Nat) : Queues :=
  { q with thStat := Function.update q.thStat th s }

/-- `__thinkos_wq_head` -/
def wqHead (wq : Nat) : Nat := lowBit (q.wqLst wq)

/-- `__thinkos_wq_insert` -/
def wqInsert (wq th : Nat) : Queues := (q.bitWr wq th true).setStat th (2 * wq)

/-- The queue part of `__thinkos_tmdwq_insert`. -/
def tmdwqInsert (wq th : Nat) : Queues :=
  ((q.bitWr wq th true).bitWr wqClock th true).setStat th (2 * wq + 1)

/-- The queue part of `__thinkos_wakeup`. -/
def wakeup (wq th : Nat) : Queues :=
  (((q.bitWr wqReady th true).bitWr wq th false).bitWr wqClock th false).setStat th 0

end

section
variable [Config]

/-- Taking `th` off the ready queue leaves only the idle thread there. -/
def collects (q : Queues) (th : Nat) : Bool :=
  q.wqLst wqReady &&& ~~~(1#32 <<< th) == 1#32 <<< threadIdle

/-- `__thinkos_suspend`. With 32 threads the idle thread has no bit and `1#32 <<< 32` is zero. -/
def suspend (q : Queues) (th : Nat) : Queues :=
  let ready := q.wqLst wqReady &&& ~~~(1#32 <<< th)
  let tmshare := q.wqLst wqTmshare
  { q with
    wqLst :=
      if q.collects th then
        Function.update (Function.update q.wqLst wqReady (ready ||| tmshare)) wqTmshare 0
      else Function.update q.wqLst wqReady ready }

end

/-! ## Single bits -/

theorem mem_bitWr {v : Bool} (hth : th < 32) (ht : t < 32) :
    (q.bitWr wq th v).mem w t = if w = wq ∧ t = th then v else q.mem w t := by
  unfold mem bitWr
  rw [Bitmap.rd_wr]
  by_cases h : w = wq ∧ t = th
  · rw [if_pos h, if_pos (by omega)]
  · rw [if_neg h, if_neg (by omega)]

theorem mem_eq_getLsbD (q : Queues) (w t : Nat) (ht : t < 32) :
    q.mem w t = (q.wqLst w).getLsbD t := by
  unfold mem Bitmap.rd
  rw [show (32 * w + t) / 32 = w by omega, show (32 * w + t) % 32 = t by omega]

@[simp] theorem mem_setStat {s : Nat} : (q.setStat th s).mem w t = q.mem w t :=
  rfl

@[simp] theorem thStat_bitWr {v : Bool} : (q.bitWr wq th v).thStat = q.thStat := rfl

@[simp] theorem thStat_setStat {s : Nat} :
    (q.setStat th s).thStat t = if t = th then s else q.thStat t := by
  simp [setStat, update_apply]

theorem wqHead_le (q : Queues) {wq : Nat} : q.wqHead wq ≤ 32 := lowBit_le _

theorem mem_wqHead (q : Queues) {wq : Nat} (h : q.wqHead wq ≠ threadNull) :
    q.wqHead wq < 32 ∧ q.mem wq (q.wqHead wq) = true := by
  have hlt : q.wqHead wq < 32 := Nat.lt_of_le_of_ne q.wqHead_le h
  exact ⟨hlt, by rw [mem_eq_getLsbD q wq _ hlt]; exact getLsbD_lowBit hlt⟩

theorem wqHead_eq_null (q : Queues) {wq : Nat} (h : q.wqHead wq = threadNull) {t : Nat}
    (ht : t < 32) : q.mem wq t = false := by
  rw [mem_eq_getLsbD q wq t ht]
  exact getLsbD_of_lt_lowBit _ _ (by unfold wqHead threadNull at h; omega)

/-! ## Insertion and wake-up -/

theorem mem_wqInsert (hth : th < 32) (ht : t < 32) :
    (q.wqInsert wq th).mem w t = if w = wq ∧ t = th then true else q.mem w t := by
  unfold wqInsert
  rw [mem_setStat, mem_bitWr hth ht]

theorem thStat_wqInsert : (q.wqInsert wq th).thStat t = if t = th then 2 * wq else q.thStat t := by
  simp [wqInsert]

theorem mem_tmdwqInsert (q : Queues) (wq : Nat) (w : Nat) (hth : th < 32) (ht : t < 32) :
    (q.tmdwqInsert wq th).mem w t = if (w = wq ∨ w = wqClock) ∧ t = th then true else q.mem w t := by
  unfold tmdwqInsert
  rw [mem_setStat, mem_bitWr hth ht, mem_bitWr hth ht]
  by_cases h1 : w = wqClock ∧ t = th
  · rw [if_pos h1, if_pos ⟨.inr h1.1, h1.2⟩]
  · rw [if_neg h1]
    by_cases h2 : w = wq ∧ t = th
    · rw [if_pos h2, if_pos ⟨.inl h2.1, h2.2⟩]
    · rw [if_neg h2, if_neg]
      rintro ⟨h | h, ht⟩
      · exact h2 ⟨h, ht⟩
      · exact h1 ⟨h, ht⟩

theorem thStat_tmdwqInsert :
    (q.tmdwqInsert wq th).thStat t = if t = th then 2 * wq + 1 else q.thStat t := by
  simp [tmdwqInsert]

/-- Waking `th` from a queue other than ready takes it out of that queue and the clock queue
and makes it ready. -/
theorem mem_wakeup (hth : th < 32) (ht : t < 32) (hwq : wq ≠ wqReady) : (q.wakeup wq th).mem w t =
      if t = th then decide (w = wqReady) || (q.mem w t && decide (w ≠ wq ∧ w ≠ wqClock))
      else q.mem w t := by
  unfold wakeup
  rw [mem_setStat, mem_bitWr hth ht, mem_bitWr hth ht, mem_bitWr hth ht]
  by_cases h : t = th
  · subst h
    by_cases hc : w = wqClock
    · simp [hc, wqClock, wqReady]
    · by_cases hw : w = wq
      · simp [hw, hwq]
      · by_cases hr : w = wqReady
        · simp [hr, hwq.symm, show wqReady ≠ wqClock by decide]
        · simp [hc, hw, hr]
  · simp [h]

theorem thStat_wakeup : (q.wakeup wq th).thStat t = if t = th then 0 else q.thStat t := by
  simp [wakeup]

/-! ## Suspending -/

section
variable [Config]

@[simp] theorem thStat_suspend : (q.suspend th).thStat = q.thStat := rfl

theorem mem_suspend_ready (ht : t < 32) : (q.suspend th).mem wqReady t =
      ((q.mem wqReady t && decide (t ≠ th)) || (q.collects th && q.mem wqTmshare t)) := by
  have hb : (q.wqLst wqReady &&& ~~~(1#32 <<< th)).getLsbD t = (q.mem wqReady t && decide (t ≠ th)) := by
    rw [getLsbD_and, getLsbD_not, getLsbD_one_shiftLeft, mem_eq_getLsbD q _ t ht]
    by_cases h : t = th <;> simp [h, ht]
  rw [mem_eq_getLsbD _ _ t ht, mem_eq_getLsbD q wqTmshare t ht]
  simp only [suspend]
  by_cases hc : q.collects th = true
  · rw [if_pos hc, update_of_ne (by decide), update_self, getLsbD_or, hb, hc, Bool.true_and]
  · rw [if_neg hc, update_self, hb]
    simp [hc]

theorem mem_suspend_tmshare (ht : t < 32) :
    (q.suspend th).mem wqTmshare t = (!q.collects th && q.mem wqTmshare t) := by
  rw [mem_eq_getLsbD _ _ t ht, mem_eq_getLsbD q wqTmshare t ht]
  simp only [suspend]
  by_cases hc : q.collects th = true
  · rw [if_pos hc, update_self]
    simp [hc]
  · rw [if_neg hc, update_of_ne (by decide)]
    simp [hc]

theorem mem_suspend_of_ne (ht : t < 32) (hr : w ≠ wqReady) (hs : w ≠ wqTmshare) :
    (q.suspend th).mem w t = q.mem w t := by
  rw [mem_eq_getLsbD _ _ t ht, mem_eq_getLsbD q w t ht]
  simp only [suspend]
  split
  · rw [update_of_ne hs, update_of_ne hr]
  · rw [update_of_ne hr]

end

end Queues

/-! ## The operations on the kernel state -/

namespace Kernel

section
variable (k : Kernel) (wq th : Nat)

def wqInsert : Kernel := { k with q := k.q.wqInsert wq th }

/-- `__thinkos_tmdwq_insert` -/
def tmdwqInsert (ms : Word) : Kernel :=
  { k with
    clock := Function.update k.clock th (k.ticks + ms)
    q := k.q.tmdwqInsert wq th }

/-- `__thinkos_wakeup_return`; `__thinkos_wakeup` is the case `ret = 0`. -/
def wakeupReturn (ret : Word) : Kernel :=
  { k with q := k.q.wakeup wq th }.ctxR0 th ret

def wakeup : Kernel := k.wakeupReturn wq th 0

end

def suspend [Config] (k : Kernel) (th : Nat) : Kernel := { k with q := k.q.suspend th }

/-- `while ((th = __thinkos_wq_head(wq)) != THINKOS_THREAD_NULL) …`, waking the threads of a
queue until it is empty. A word holds 32 threads, so `fuel = 32` empties it. -/
def wakeAllLoop (wq : Nat) (ret : Word) : Nat → Kernel → Kernel
  | 0, k => k
  | fuel + 1, k =>
    let th := k.q.wqHead wq
    if th ≠ threadNull then wakeAllLoop wq ret fuel (k.wakeupReturn wq th ret) else k

def wakeAll (k : Kernel) (wq : Nat) (ret : Word) : Kernel := wakeAllLoop wq ret 32 k

end Kernel

end ThinkOS
