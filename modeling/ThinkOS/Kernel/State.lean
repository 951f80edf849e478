import ThinkOS.Lib.Bitmap

/-!
# The kernel's run-time block

The data of `struct thinkos_rt` (kernel.h) for the default feature set: time
sharing, timed calls, pause, join, cancel, exit and the allocation bitmaps are on;
console, comm, monitor, the interrupt wait queue and debug stepping are off. The
numbers of threads and objects are those of a `Config`.

The wait queues are one array of words, `wq_lst`: ready, time share and clock first,
then the mutexes, condition variables, semaphores, event sets, flags, gates and join
queues, then paused and canceled. Bit `th` of word `wq` says that thread `th` is in
queue `wq`, and `th_stat[th]` is `2 * wq`, plus one for a timed wait.

The machine underneath is reduced to what the kernel reads and writes: one frame
(`r0` and where the thread resumes) for each context address of a thread's stack, the
process stack pointer, the registers of the thread that is running, and whether the
scheduler interrupt is pending.
-/

namespace ThinkOS

open Lib Function

abbrev Word := BitVec 32

/-- The sizes kernel.h takes from the board's configuration. -/
class Config where
  threadsMax : Nat
  mutexMax : Nat
  condMax : Nat
  semaphoreMax : Nat
  eventMax : Nat
  flagMax : Nat
  gateMax : Nat
  irqMax : Nat
  threadsMax_pos : 0 < threadsMax
  /-- Thread sets are words. -/
  threadsMax_le : threadsMax ≤ 32
  /-- `th_stat` has 16 bits for a queue number and the clock bit. -/
  wqLst_fits : 2 * (5 + mutexMax + condMax + semaphoreMax + eventMax + flagMax + gateMax
    + threadsMax) < 2 ^ 16

export Config (threadsMax mutexMax condMax semaphoreMax eventMax flagMax gateMax irqMax
  threadsMax_pos threadsMax_le)

/-- The defaults of kernel.h. -/
instance Config.kernelH : Config where
  threadsMax := 8
  mutexMax := 8
  condMax := 8
  semaphoreMax := 8
  eventMax := 4
  flagMax := 8
  gateMax := 8
  irqMax := 80
  threadsMax_pos := by decide
  threadsMax_le := by decide
  wqLst_fits := by decide

/-! ## Thread and queue numbers -/

def threadNull : Nat := 32
def wqReady : Nat := 0
def wqTmshare : Nat := 1
def wqClock : Nat := 2
def mutexBase : Nat := 3

section
variable [Config]

def threadIdle : Nat := threadsMax
def threadVoid : Nat := threadsMax + 1

def condBase : Nat := mutexBase + mutexMax
def semBase : Nat := condBase + condMax
def eventBase : Nat := semBase + semaphoreMax
def flagBase : Nat := eventBase + eventMax
def gateBase : Nat := flagBase + flagMax
def joinBase : Nat := gateBase + gateMax
def wqPaused : Nat := joinBase + threadsMax
def wqCanceled : Nat := wqPaused + 1
def wqLstEnd : Nat := wqCanceled + 1

end

/-! ## Return codes -/

def ETIMEDOUT : Word := -1#32
def EINVAL : Word := -3#32
def EAGAIN : Word := -4#32
def EDEADLK : Word := -5#32
def EPERM : Word := -6#32
def EFAULT : Word := -8#32
def ENOMEM : Word := -9#32

/-! ## The state -/

/-- Where a thread resumes: its own code, or `__thinkos_thread_exit`. -/
inductive Pc
  | user
  | threadExit
  deriving DecidableEq, Repr

/-- The part of a saved context that the kernel writes. -/
structure Frame where
  r0 : Word
  pc : Pc
  deriving DecidableEq, Repr

/-- The wait queues and the thread status. -/
structure Queues where
  wqLst : Bitmap
  thStat : Nat → Nat

structure Kernel where
  q : Queues
  /-- Context pointers, as addresses in the thread's own stack; `none` is `NULL`. -/
  ctx : Nat → Option Nat
  criticalCnt : Word
  active : Nat
  /-- Indices up to `threadIdle`, whose entries are `sched_idle_val` and `sched_idle_pri`. -/
  schedVal : Nat → BitVec 8
  schedPri : Nat → BitVec 8
  schedLimit : Word
  ticks : Word
  clock : Nat → Word
  semVal : Nat → Word
  /-- Word `2 * i` is `ev[i].pend`, word `2 * i + 1` is `ev[i].mask`. -/
  ev : Bitmap
  flag : Bitmap
  gate : Bitmap
  lock : Nat → Int
  irqTh : Nat → Nat
  thAlloc : Bitmap
  mutexAlloc : Bitmap
  condAlloc : Bitmap
  semAlloc : Bitmap
  evAlloc : Bitmap
  flagAlloc : Bitmap
  gateAlloc : Bitmap
  /-- Frames by thread and address in the thread's stack. -/
  stack : Nat → Nat → Frame
  psp : Nat
  /-- The registers of the running thread while no exception is active. -/
  reg : Frame
  pendsv : Bool
  /-- A store left the fields above (through a `NULL` context or a wild bit address). -/
  fault : Bool

/-! ## Register and scheduler requests -/

namespace Kernel

def storeFrame (s : Nat → Nat → Frame) (th sp : Nat) (f : Frame) : Nat → Nat → Frame :=
  Function.update s th (Function.update (s th) sp f)

theorem storeFrame_self {s : Nat → Nat → Frame} {th sp : Nat} {f : Frame} :
    storeFrame s th sp f th sp = f := by
  simp [storeFrame]

theorem storeFrame_of_ne {s : Nat → Nat → Frame} {th sp t p : Nat} {f : Frame}
    (h : t ≠ th ∨ p ≠ sp) : storeFrame s th sp f t p = s t p := by
  unfold storeFrame
  by_cases ht : t = th
  · subst ht
    rw [update_self, update_of_ne (by simpa using h)]
  · rw [update_of_ne ht]

/-- `arg[0] = v`: the frame the system call was entered with. -/
def arg0 (k : Kernel) (self : Nat) (v : Word) : Kernel :=
  { k with stack := storeFrame k.stack self k.psp { k.stack self k.psp with r0 := v } }

/-- `ctx[th]->r0 = v`, a store near address zero when the pointer is `NULL`. -/
def ctxR0 (k : Kernel) (th : Nat) (v : Word) : Kernel :=
  let sp := (k.ctx th).getD 0
  { k with
    stack := storeFrame k.stack th sp { k.stack th sp with r0 := v }
    fault := k.fault || (k.ctx th).isNone }

/-- `ctx[th]->pc = __thinkos_thread_exit`. -/
def ctxPcExit (k : Kernel) (th : Nat) : Kernel :=
  let sp := (k.ctx th).getD 0
  { k with
    stack := storeFrame k.stack th sp { k.stack th sp with pc := .threadExit }
    fault := k.fault || (k.ctx th).isNone }

/-- `__thinkos_defer_sched` -/
def deferSched (k : Kernel) : Kernel := { k with pendsv := true }

/-- `__thinkos_preempt` -/
def preempt (k : Kernel) : Kernel := if k.criticalCnt = 0 then k.deferSched else k

end Kernel

end ThinkOS
