import ThinkOS.Kernel.Thread
import ThinkOS.Lib.Transition

/-!
# Ticks, the scheduler and the kernel as a transition system

The clock interrupt and the scheduler of thinkos_core.c, the system call dispatcher of
thinkos_svc.c, and initialisation (thinkos_init.c). They are a transition system, `kernel`:
the events are a system call of the active thread, a clock tick, an interrupt handler's
call, and a run of the scheduler.

System calls run above the clock and the scheduler, so each is one step. A call that
asks for the scheduler leaves `pendsv` set; ticks and interrupts may still come before
the scheduler runs, and they then find the caller's own frame as the saved one.
-/

namespace ThinkOS

open Lib

/-! ## The clock interrupt -/

namespace Queues

/-- The queue part of `thinkos_time_wakeup`. -/
def timeWakeup (q : Queues) (th : Nat) : Queues :=
  (((q.setStat th 0).bitWr (q.thStat th / 2) th false).bitWr wqClock th false).bitWr wqReady th true

end Queues

namespace Kernel

def timeWakeup (k : Kernel) (th : Nat) : Kernel := { k with q := k.q.timeWakeup th }.preempt

/-- The loop of `cm3_systick_isr` over a snapshot of the clock queue; 32 rounds see every bit. -/
def tickLoop : Nat → Word → Kernel → Kernel
  | 0, _, k => k
  | fuel + 1, wq, k =>
    let j := lowBit wq
    if j < 32 then
      tickLoop fuel (wq &&& ~~~(1#32 <<< j))
        (if (k.clock j - k.ticks).toInt ≤ 0 then k.timeWakeup j else k)
    else k

section
variable [Config]

/-- `sched_val[idx]` and `sched_pri[idx]`. The void thread's index is one past the idle entry of
each array, where the next field begins. -/
def schedValAt (k : Kernel) (idx : Nat) : BitVec 8 :=
  if idx ≤ threadIdle then k.schedVal idx else k.schedPri (idx - (threadIdle + 1))

def schedPriAt (k : Kernel) (idx : Nat) : BitVec 8 :=
  if idx ≤ threadIdle then k.schedPri idx
  else if (2 * (threadIdle + 1)) % 4 = 0 then
    (k.schedLimit >>> (8 * (idx - (threadIdle + 1)))).setWidth 8
  else 0

def setSchedVal (k : Kernel) (idx : Nat) (v : BitVec 8) : Kernel :=
  if idx ≤ threadIdle then { k with schedVal := Function.update k.schedVal idx v }
  else { k with schedPri := Function.update k.schedPri (idx - (threadIdle + 1)) v }

/-- The active slot's credit after this tick's charge. -/
def sliceVal (k : Kernel) : BitVec 8 := k.schedValAt k.active - k.schedPriAt k.active

/-- `thinkos_timeshare` -/
def timeshare (k : Kernel) : Kernel :=
  let idx := k.active
  if k.sliceVal.toInt < 0 then
    let k := k.setSchedVal idx (k.sliceVal + k.schedLimit.setWidth 8)
    if k.q.mem wqReady idx = false then k
    else ({ k with q := (k.q.bitWr wqTmshare idx true).suspend idx }).preempt
  else k.setSchedVal idx k.sliceVal

/-- `cm3_systick_isr` -/
def systick (k : Kernel) : Kernel :=
  let k := { k with ticks := k.ticks + 1 }
  (tickLoop 32 (k.q.wqLst wqClock) k).timeshare

end

/-! ## The scheduler -/

/-- `cm3_pendsv_isr`: save the active thread's context pointer, take the first ready thread and
restore its context. -/
def pendsvIsr (k : Kernel) : Kernel :=
  let new := lowBit (k.q.wqLst wqReady)
  let ctx := Function.update k.ctx k.active (some k.psp)
  let sp := (ctx new).getD 0
  { k with
    ctx := ctx
    active := new
    psp := sp
    reg := k.stack new sp
    pendsv := false
    fault := k.fault || (ctx new).isNone }

/-- Exception entry from thread mode stacks the registers; a pending scheduler run means the
frame is still there. -/
def excEnter (k : Kernel) (sp : Nat) : Kernel :=
  if k.pendsv then k
  else { k with psp := sp, stack := storeFrame k.stack k.active sp k.reg }

/-- Return to thread mode, unless the scheduler runs next. -/
def excLeave (k : Kernel) : Kernel :=
  if k.pendsv then k else { k with reg := k.stack k.active k.psp }

end Kernel

/-! ## System calls -/

/-- The system calls, with the arguments they take in registers. -/
inductive Call
  | threadSelf
  | threadCreate (init : ThreadInit)
  | clock
  | alarm (ms : Word)
  | sleep (ms : Word)
  | mutexAlloc
  | mutexFree (wq : Word)
  | mutexLock (wq : Word)
  | mutexTrylock (wq : Word)
  | mutexTimedlock (wq ms : Word)
  | mutexUnlock (wq : Word)
  | condAlloc
  | condFree (wq : Word)
  | condWait (cwq mwq : Word)
  | condTimedwait (cwq mwq ms : Word)
  | condSignal (cwq : Word)
  | condBroadcast (cwq : Word)
  | semAlloc (value : Word)
  | semFree (wq : Word)
  | semInit (wq value : Word)
  | semWait (wq : Word)
  | semTrywait (wq : Word)
  | semTimedwait (wq ms : Word)
  | semPost (wq : Word)
  | evAlloc
  | evFree (wq : Word)
  | evWait (wq : Word)
  | evTimedwait (wq ms : Word)
  | evRaise (wq ev : Word)
  | evMask (wq ev val : Word)
  | evClear (wq ev : Word)
  | flagAlloc
  | flagFree (wq : Word)
  | flagVal (wq : Word)
  | flagSet (wq : Word)
  | flagClr (wq : Word)
  | flagWatch (wq : Word)
  | flagTimedwatch (wq ms : Word)
  | flagGive (wq : Word)
  | flagTake (wq : Word)
  | flagTimedtake (wq ms : Word)
  | gateAlloc
  | gateFree (wq : Word)
  | gateOpen (wq : Word)
  | gateClose (wq : Word)
  | gateExit (wq opn : Word)
  | gateWait (wq : Word)
  | gateTimedwait (wq ms : Word)
  | irqWait (irq : Word)
  | join (thread : Word)
  | pause (thread : Word)
  | resume (thread : Word)
  | cancel (thread code : Word)
  | exit (code : Word)
  | terminate (thread code : Word)
  | ctlAbort
  | criticalEnter
  | criticalExit
  deriving DecidableEq, Repr

/-- The first argument register, which is also where the result is expected. -/
def Call.r0 : Call → Word
  | .threadSelf | .clock | .mutexAlloc | .condAlloc | .evAlloc | .flagAlloc | .gateAlloc
  | .criticalEnter | .criticalExit | .ctlAbort => 0
  -- the entry point, which the result replaces on every path
  | .threadCreate _ => 0
  | .alarm ms | .sleep ms => ms
  | .semAlloc v => v
  | .mutexFree wq | .mutexLock wq | .mutexTrylock wq | .mutexTimedlock wq _ | .mutexUnlock wq
  | .condFree wq | .condWait wq _ | .condTimedwait wq _ _ | .condSignal wq | .condBroadcast wq
  | .semFree wq | .semInit wq _ | .semWait wq | .semTrywait wq | .semTimedwait wq _ | .semPost wq
  | .evFree wq | .evWait wq | .evTimedwait wq _ | .evRaise wq _ | .evMask wq _ _ | .evClear wq _
  | .flagFree wq | .flagVal wq | .flagSet wq | .flagClr wq | .flagWatch wq | .flagTimedwatch wq _
  | .flagGive wq | .flagTake wq | .flagTimedtake wq _
  | .gateFree wq | .gateOpen wq | .gateClose wq | .gateExit wq _ | .gateWait wq
  | .gateTimedwait wq _ => wq
  | .irqWait irq => irq
  | .join th | .pause th | .resume th | .cancel th _ | .terminate th _ => th
  | .exit code => code

/-- Calls of interrupt handlers, on objects by index. -/
inductive IrqOp
  | semPost (s : Nat)
  | evRaise (e : Nat) (ev : Word)
  | flagGive (f : Nat)
  | gateOpen (g : Nat)
  | irq (n : Nat)
  deriving DecidableEq, Repr

inductive Event
  | svc (sp : Nat) (c : Call)
  | tick (sp : Nat)
  | irq (sp : Nat) (op : IrqOp)
  | sched (sp : Nat)
  deriving DecidableEq, Repr

section
variable [Config]

/-- `thinkos_svc_isr` -/
def Kernel.svcIsr (k : Kernel) (self : Nat) : Call → Kernel
  | .threadSelf => k.arg0 self (BitVec.ofNat 32 (self + 1))
  | .threadCreate init => k.threadCreateSvc self init
  | .clock => k.arg0 self k.ticks
  | .alarm ms => k.alarmSvc self ms
  | .sleep ms => k.sleepSvc self ms
  | .mutexAlloc => k.mutexAllocSvc self
  | .mutexFree wq => k.mutexFreeSvc self wq
  | .mutexLock wq => k.mutexLockSvc self wq
  | .mutexTrylock wq => k.mutexTrylockSvc self wq
  | .mutexTimedlock wq ms => k.mutexTimedlockSvc self wq ms
  | .mutexUnlock wq => k.mutexUnlockSvc self wq
  | .condAlloc => k.condAllocSvc self
  | .condFree wq => k.condFreeSvc self wq
  | .condWait c m => k.condWaitSvc self c m
  | .condTimedwait c m ms => k.condTimedwaitSvc self c m ms
  | .condSignal wq => k.condSignalSvc self wq
  | .condBroadcast wq => k.condBroadcastSvc self wq
  | .semAlloc v => k.semAllocSvc self v
  | .semFree wq => k.semFreeSvc self wq
  | .semInit wq v => k.semInitSvc self wq v
  | .semWait wq => k.semWaitSvc self wq
  | .semTrywait wq => k.semTrywaitSvc self wq
  | .semTimedwait wq ms => k.semTimedwaitSvc self wq ms
  | .semPost wq => k.semPostSvc self wq
  | .evAlloc => k.evAllocSvc self
  | .evFree wq => k.evFreeSvc self wq
  | .evWait wq => k.evWaitSvc self wq
  | .evTimedwait wq ms => k.evTimedwaitSvc self wq ms
  | .evRaise wq ev => k.evRaiseSvc self wq ev
  | .evMask wq ev val => k.evMaskSvc self wq ev val
  | .evClear wq ev => k.evClearSvc self wq ev
  | .flagAlloc => k.flagAllocSvc self
  | .flagFree wq => k.flagFreeSvc self wq
  | .flagVal wq => k.flagValSvc self wq
  | .flagSet wq => k.flagSetSvc self wq
  | .flagClr wq => k.flagClrSvc self wq
  | .flagWatch wq => k.flagWatchSvc self wq
  | .flagTimedwatch wq ms => k.flagTimedwatchSvc self wq ms
  | .flagGive wq => k.flagGiveSvc self wq
  | .flagTake wq => k.flagTakeSvc self wq
  | .flagTimedtake wq ms => k.flagTimedtakeSvc self wq ms
  | .gateAlloc => k.gateAllocSvc self
  | .gateFree wq => k.gateFreeSvc self wq
  | .gateOpen wq => k.gateOpenSvc self wq
  | .gateClose wq => k.gateCloseSvc self wq
  | .gateExit wq opn => k.gateExitSvc self wq opn
  | .gateWait wq => k.gateWaitSvc self wq
  | .gateTimedwait wq ms => k.gateTimedwaitSvc self wq ms
  | .irqWait irq => k.irqWaitSvc self irq
  | .join th => k.joinSvc self th
  | .pause th => k.pauseSvc self th
  | .resume th => k.resumeSvc self th
  | .cancel th code => k.cancelSvc self th code
  | .exit _ => k.exitSvc self
  | .terminate th code => k.terminateSvc self th code
  | .ctlAbort => k.ctlAbortSvc self
  | .criticalEnter => k.criticalEnterSvc
  | .criticalExit => k.criticalExitSvc self

/-- Interrupt handlers name existing objects, and an interrupt that a thread can wait for is
enabled only while one does. -/
def IrqOp.Valid (k : Kernel) : IrqOp → Prop
  | .semPost s => s < semaphoreMax
  | .evRaise e ev => e < eventMax ∧ ev.toNat < 32
  | .flagGive f => f < flagMax
  | .gateOpen g => g < gateMax
  | .irq n => n < irqMax ∧ k.irqTh n < threadsMax

instance (k : Kernel) : (op : IrqOp) → Decidable (op.Valid k)
  | .semPost _ | .flagGive _ | .gateOpen _ => inferInstanceAs (Decidable (_ < _))
  | .evRaise _ _ | .irq _ => inferInstanceAs (Decidable (_ ∧ _))

def Kernel.irqIsr (k : Kernel) : IrqOp → Kernel
  | .semPost s => k.semPostIsr (semBase + s)
  | .evRaise e ev => k.evRaiseIsr (eventBase + e) ev
  | .flagGive f => k.flagGiveIsr (flagBase + f)
  | .gateOpen g => k.gateOpenIsr (gateBase + g)
  | .irq n => k.defaultIsr n

/-- A thread in its own code may make any call; in `__thinkos_thread_exit` it terminates itself. -/
def Kernel.MayCall (k : Kernel) (c : Call) : Prop :=
  k.active < threadsMax ∧ k.pendsv = false ∧ (k.reg.pc = .user ∨ c = .terminate 0 k.reg.r0)

instance (k : Kernel) (c : Call) : Decidable (k.MayCall c) :=
  inferInstanceAs (Decidable (_ ∧ _ ∧ _))

/-- A system call of the active thread, entered with its frame at `sp`. -/
def Kernel.svc (k : Kernel) (sp : Nat) (c : Call) : Kernel :=
  let frame := { r0 := c.r0, pc := k.reg.pc }
  let k := { k with psp := sp, stack := storeFrame k.stack k.active sp frame }
  (k.svcIsr k.active c).excLeave

def Kernel.step (k : Kernel) : Event → Option Kernel
  | .svc sp c => if k.fault = false ∧ k.MayCall c then some (k.svc sp c) else none
  | .tick sp => if k.fault = false then some ((k.excEnter sp).systick).excLeave else none
  | .irq sp op =>
    if k.fault = false ∧ op.Valid k then some ((k.excEnter sp).irqIsr op).excLeave else none
  | .sched sp => if k.fault = false then some (k.excEnter sp).pendsvIsr else none

/-- The kernel as a transition system. -/
def kernel : System Kernel Event := ⟨Kernel.step⟩

/-! ## Initialisation -/

/-- `__thinkos_bmp_init`: the bits past the last object are marked as used. -/
def bmpInit (bits : Nat) : Bitmap := fun i =>
  if i = bits / 32 ∧ bits % 32 ≠ 0 then BitVec.allOnes 32 <<< (bits % 32) else 0

/-- `__thinkos_reset`, with the idle thread's context at address `sp`. -/
def Kernel.reset (sp : Nat) : Kernel where
  q := { wqLst := fun i => if i = wqReady then 1#32 <<< threadIdle else 0, thStat := fun _ => 0 }
  ctx := fun th => if th = threadIdle then some sp else none
  criticalCnt := 0
  active := threadIdle
  schedVal := fun _ => 0
  schedPri := fun _ => 0
  schedLimit := 0
  ticks := 0
  clock := fun _ => 0
  semVal := fun _ => 0
  ev := fun i => if i % 2 = 1 then BitVec.allOnes 32 else 0
  flag := fun _ => 0
  gate := fun _ => 0
  lock := fun _ => -1
  irqTh := fun _ => threadIdle
  thAlloc := bmpInit threadsMax
  mutexAlloc := bmpInit mutexMax
  condAlloc := bmpInit condMax
  semAlloc := bmpInit semaphoreMax
  evAlloc := bmpInit eventMax
  flagAlloc := bmpInit flagMax
  gateAlloc := bmpInit gateMax
  stack := fun _ _ => { r0 := 0, pc := .user }
  psp := 0
  reg := { r0 := 0, pc := .user }
  pendsv := false
  fault := false

/-- `thinkos_init`: the caller goes on as thread `id`; its context pointer is first set when the
scheduler saves it. -/
def Kernel.init (sp id : Nat) (priority : BitVec 8) (paused : Bool) : Kernel :=
  let k := Kernel.reset sp
  let pri := if priority > schedLimitMax then schedLimitMax else priority
  let limit := if pri.setWidth 32 < schedLimitMin then schedLimitMin else pri.setWidth 32
  let ready := 1#32 <<< id ||| 1#32 <<< threadIdle
  let wqLst := Function.update k.q.wqLst wqReady ready
  { k with
    thAlloc := k.thAlloc.wr id true
    schedPri := Function.update k.schedPri id pri
    schedVal := Function.update k.schedVal id (pri / 2#8)
    schedLimit := limit
    active := id
    q := { k.q with
      wqLst := if paused then Function.update wqLst wqPaused (1#32 <<< id) else wqLst } }

end

end ThinkOS
