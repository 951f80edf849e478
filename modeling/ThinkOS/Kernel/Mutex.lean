import ThinkOS.Kernel.Object

/-!
# Mutexes and condition variables

The services of thinkos_mutex.c and thinkos_cond.c. `lock[m]` is the owner of mutex
`m`, or -1. An unlock hands the mutex over to the first waiter; both condition waits
release it the same way (`mutexRelease`) after they entered the condition's queue.
-/

namespace ThinkOS

open Lib

namespace Kernel

section
variable [Config] (k : Kernel) (self : Nat) (wq : Word)

def mutexIdx : Option Nat := objIdx mutexBase mutexMax k.mutexAlloc wq

def condIdx : Option Nat := objIdx condBase condMax k.condAlloc wq

/-! ## Mutexes -/

def mutexAllocSvc : Kernel :=
  match bmpAlloc k.mutexAlloc mutexMax with
  | some idx =>
    { k with
      mutexAlloc := k.mutexAlloc.wr idx true
      lock := Function.update k.lock idx (-1) }.arg0 self (BitVec.ofNat 32 (idx + mutexBase))
  | none => k.arg0 self ENOMEM

def mutexFreeSvc : Kernel :=
  let idx := (wq - BitVec.ofNat 32 mutexBase).toNat
  if idx ≥ mutexMax then k.arg0 self EINVAL
  else { k with mutexAlloc := k.mutexAlloc.wr idx false }

def mutexLockSvc : Kernel :=
  match k.mutexIdx wq with
  | none => k.arg0 self EINVAL
  | some mutex =>
    if k.lock mutex = -1 then
      { k with lock := Function.update k.lock mutex (self : Int) }.arg0 self 0
    else if k.lock mutex = self then k.arg0 self EDEADLK
    else (((k.wqInsert wq.toNat self).arg0 self 0).suspend self).deferSched

def mutexTrylockSvc : Kernel :=
  match k.mutexIdx wq with
  | none => k.arg0 self EINVAL
  | some mutex =>
    if k.lock mutex = -1 then
      { k with lock := Function.update k.lock mutex (self : Int) }.arg0 self 0
    else if k.lock mutex = self then k.arg0 self EDEADLK
    else k.arg0 self EAGAIN

def mutexTimedlockSvc (ms : Word) : Kernel :=
  match k.mutexIdx wq with
  | none => k.arg0 self EINVAL
  | some mutex =>
    if k.lock mutex = -1 then
      { k with lock := Function.update k.lock mutex (self : Int) }.arg0 self 0
    else if k.lock mutex = self then k.arg0 self EDEADLK
    else (((k.tmdwqInsert wq.toNat self ms).arg0 self ETIMEDOUT).suspend self).deferSched

/-- Release of a mutex: to its first waiter, or to nobody. -/
def mutexRelease (mutex wq : Nat) : Kernel :=
  let th := k.q.wqHead wq
  if th = threadNull then { k with lock := Function.update k.lock mutex (-1) }
  else { k with lock := Function.update k.lock mutex (th : Int) }.wakeup wq th

def mutexUnlockSvc : Kernel :=
  match k.mutexIdx wq with
  | none => k.arg0 self EINVAL
  | some mutex =>
    if k.lock mutex ≠ self then k.arg0 self EPERM
    else
      let k := k.arg0 self 0
      if k.q.wqHead wq.toNat = threadNull then k.mutexRelease mutex wq.toNat
      else (k.mutexRelease mutex wq.toNat).deferSched

/-! ## Condition variables -/

def condAllocSvc : Kernel :=
  match bmpAlloc k.condAlloc condMax with
  | some idx =>
    { k with condAlloc := k.condAlloc.wr idx true }.arg0 self (BitVec.ofNat 32 (idx + condBase))
  | none => k.arg0 self ENOMEM

def condFreeSvc : Kernel :=
  let cond := (wq - BitVec.ofNat 32 condBase).toNat
  if cond ≥ condMax then k.arg0 self EINVAL
  else { k with condAlloc := k.condAlloc.wr cond false }

def condWaitSvc (cwq mwq : Word) : Kernel :=
  match k.condIdx cwq, k.mutexIdx mwq with
  | some _, some mutex =>
    if k.lock mutex ≠ self then k.arg0 self EPERM
    else
      let k := k.wqInsert cwq.toNat self
      let k := k.mutexRelease mutex mwq.toNat
      ((k.arg0 self 0).suspend self).deferSched
  | _, _ => k.arg0 self EINVAL

def condTimedwaitSvc (cwq mwq ms : Word) : Kernel :=
  match k.condIdx cwq, k.mutexIdx mwq with
  | some _, some mutex =>
    if k.lock mutex ≠ self then k.arg0 self EPERM
    else
      let k := k.tmdwqInsert cwq.toNat self ms
      let k := k.mutexRelease mutex mwq.toNat
      ((k.arg0 self ETIMEDOUT).suspend self).deferSched
  | _, _ => k.arg0 self EINVAL

def condSignalSvc (cwq : Word) : Kernel :=
  match k.condIdx cwq with
  | none => k.arg0 self EINVAL
  | some _ =>
    let th := k.q.wqHead cwq.toNat
    if th ≠ threadNull then ((k.wakeup cwq.toNat th).deferSched).arg0 self 0 else k.arg0 self 0

def condBroadcastSvc (cwq : Word) : Kernel :=
  match k.condIdx cwq with
  | none => k.arg0 self EINVAL
  | some _ =>
    if k.q.wqHead cwq.toNat ≠ threadNull then ((k.wakeAll cwq.toNat 0).deferSched).arg0 self 0
    else k.arg0 self 0

end

section
variable [Config] {k : Kernel} {wq : Word} {m c : Nat}

/-! ## Their effect on the queues -/

theorem mutex_fits : mutexBase + mutexMax < 2 ^ 32 := by
  have := Config.wqLst_fits
  unfold mutexBase
  omega

theorem mutexIdx_eq_some (h : k.mutexIdx wq = some m) :
    wq.toNat = mutexBase + m ∧ m < mutexMax ∧ k.mutexAlloc.rd m = true :=
  objIdx_eq_some mutex_fits h

theorem condIdx_eq_some (h : k.condIdx wq = some c) :
    wq.toNat = condBase + c ∧ c < condMax ∧ k.condAlloc.rd c = true :=
  objIdx_eq_some (by have := Config.wqLst_fits; unfold condBase mutexBase; omega) h

theorem isObj_mutex (h : m < mutexMax) : Queues.IsObj (mutexBase + m) := by
  unfold Queues.IsObj wqPaused joinBase gateBase flagBase eventBase semBase condBase
  omega

theorem isObj_cond (h : c < condMax) : Queues.IsObj (condBase + c) := by
  unfold Queues.IsObj wqPaused joinBase gateBase flagBase eventBase semBase condBase
  omega

section
variable {S : Nat → Prop} {self : Nat} {cwq : Word}

theorem mutexAllocSvc_raised (hS : ∀ m, m < mutexMax → S (mutexBase + m)) :
    Raised S self k (k.mutexAllocSvc self) := by
  unfold mutexAllocSvc
  split
  · rename_i m _
    refine Raised.trans ?_ raised_arg0
    exact (raised_mutexAlloc (hS m) true).trans (raised_lock (hS m))
  · exact raised_arg0

theorem mutexFreeSvc_raised
    (hS : ∀ m, m < mutexMax → wq.toNat = mutexBase + m → S (mutexBase + m)) :
    Raised S self k (k.mutexFreeSvc self wq) := by
  simp only [mutexFreeSvc]
  split
  · exact raised_arg0
  · rename_i h
    exact raised_mutexAlloc (fun hlt => hS _ hlt (handle_eq mutex_fits h)) false

omit [Config] in
theorem mutexRelease_kept (k : Kernel) (mutex wq : Nat) :
    Kept k (k.mutexRelease mutex wq) ∧ (k.mutexRelease mutex wq).ctx = k.ctx := by
  simp only [mutexRelease]
  split
  · exact ⟨Kept.fields, rfl⟩
  · exact ⟨Kept.fields.trans (.wakeupReturn _ _ _ _), rfl⟩

omit [Config] in
theorem mutexRelease_q (k : Kernel) (mutex wq : Nat) : (k.mutexRelease mutex wq).q =
      if k.q.wqHead wq = threadNull then k.q else k.q.wakeup wq (k.q.wqHead wq) := by
  simp only [mutexRelease]
  split <;> rfl

theorem mutexRelease_raised (k : Kernel) (self mutex wq : Nat) (hwq : Queues.IsObj wq) (hS : S wq)
    (hm : S (mutexBase + mutex)) : Raised S self k (k.mutexRelease mutex wq) := by
  simp only [mutexRelease]
  split
  · exact raised_lock (fun _ => hm)
  · rename_i hne
    exact (raised_lock (fun _ => hm)).trans
      (raised_wake (k := { k with lock := Function.update k.lock mutex _ }) hwq hS hne 0)

section
variable (hs : self < 32) (hS : ∀ m, k.mutexIdx wq = some m → S (mutexBase + m))
include hS

theorem mutexTrylockSvc_raised : Raised S self k (k.mutexTrylockSvc self wq) := by
  refine raised_idx fun m hm => ?_
  split
  · exact (raised_lock (fun _ => hS m hm)).trans raised_arg0
  · split
    · exact raised_arg0
    · exact raised_arg0

theorem mutexUnlockSvc_raised : Raised S self k (k.mutexUnlockSvc self wq) := by
  refine raised_idx fun m hm => ?_
  obtain ⟨hwq, hlt, -⟩ := mutexIdx_eq_some hm
  have hobj : Queues.IsObj wq.toNat := hwq ▸ isObj_mutex hlt
  split
  · exact raised_arg0
  · have h := (raised_arg0 (k := k) (v := 0)).trans (mutexRelease_raised _ self m _ hobj
      (hwq ▸ hS m hm) (hS m hm))
    simp only
    split
    · exact h
    · exact h.trans raised_deferSched

include hs

theorem mutexLockSvc_served : Served S self k (k.mutexLockSvc self wq) := by
  refine served_idx fun m hm => ?_
  obtain ⟨hwq, hlt, -⟩ := mutexIdx_eq_some hm
  split
  · exact ((raised_lock (fun _ => hS m hm)).trans raised_arg0).served
  · split
    · exact raised_arg0.served
    · exact Served.of_block false (Kept.fields.trans (.arg0 _ _ _)) rfl
        (.inl (hwq ▸ isObj_mutex hlt)) rfl
        ((Within.insert k false _ hs (hwq ▸ hS m hm)).trans (.arg0 _ _))

theorem mutexTimedlockSvc_served {ms : Word} :
    Served S self k (k.mutexTimedlockSvc self wq ms) := by
  refine served_idx fun m hm => ?_
  obtain ⟨hwq, hlt, -⟩ := mutexIdx_eq_some hm
  split
  · exact ((raised_lock (fun _ => hS m hm)).trans raised_arg0).served
  · split
    · exact raised_arg0.served
    · exact Served.of_block true (Kept.fields.trans (.arg0 _ _ _)) rfl
        (.inl (hwq ▸ isObj_mutex hlt)) rfl
        ((Within.insert k true _ hs (hwq ▸ hS m hm)).trans (.arg0 _ _))

end

theorem condAllocSvc_raised : Raised S self k (k.condAllocSvc self) := by
  unfold condAllocSvc
  split
  · exact raised_fields.trans raised_arg0
  · exact raised_arg0

theorem condFreeSvc_raised : Raised S self k (k.condFreeSvc self wq) := by
  simp only [condFreeSvc]
  split
  · exact raised_arg0
  · exact raised_fields

/-- The common end of both condition waits: the caller is in queue `cwq`, the mutex is released,
the default result is stored and the caller is suspended. -/
theorem served_release {cwq mwq : Nat} (timed : Bool) (clock : Nat → Word) (mutex : Nat)
    (v : Word) (hs : self < 32) (hc : Queues.IsObj cwq) (hm : Queues.IsObj mwq) (hne : mwq ≠ cwq)
    (hSc : S cwq) (hSm : S mwq) (hSl : S (mutexBase + mutex)) :
    Served S self k ((((({ k with q := k.q.enqueue cwq self timed, clock := clock }).mutexRelease
      mutex mwq).arg0 self v).suspend self).deferSched) := by
  have hin := Within.insert (S := S) k timed clock hs hSc
  generalize hk1 : ({ k with q := k.q.enqueue cwq self timed, clock := clock } : Kernel) = k1 at hin
  have hk : Kept k k1 := by subst hk1; exact Kept.fields
  have hctx : k1.ctx = k.ctx := by subst hk1; rfl
  have hq : k1.q = k.q.enqueue cwq self timed := by subst hk1; rfl
  obtain ⟨hk', hctx'⟩ := k1.mutexRelease_kept mutex mwq
  have hq' := k1.mutexRelease_q mutex mwq
  have hkept := (hk.trans hk').trans (.arg0 _ self v)
  have hin' := (hin.trans (mutexRelease_raised k1 self mutex mwq hm hSm hSl).within).trans
    (.arg0 _ v)
  by_cases h : k1.q.wqHead mwq = threadNull
  · rw [if_pos h, hq] at hq'
    exact Served.of_block timed hkept (hctx'.trans hctx) (.inl hc) hq' hin'
  · rw [if_neg h] at hq'
    obtain ⟨hlt, hmem⟩ := k1.q.mem_wqHead h
    refine ⟨(hkept.trans Kept.fields).trans (.deferSched _), ?_, ⟨true, ?_, fun _ => rfl⟩,
      (hin'.trans (.suspend _ _)).trans (.deferSched _)⟩
    · exact fun t => .inl (by rw [← hctx, ← hctx']; rfl)
    · have he : ((((k1.mutexRelease mutex mwq).arg0 self v).suspend self).deferSched).q =
          ((k.q.enqueue cwq self timed).wakeup mwq (k1.q.wqHead mwq)).suspend self := by
        rw [← hq, ← hq']
        rfl
      rw [he]
      refine .handOver cwq timed mwq _ hc hm hne hlt ?_
      rw [hq, Queues.mem_enqueue hs (hq ▸ hlt), if_neg] at hmem
      · rwa [hq]
      · rintro ⟨h1 | h1, -⟩
        · exact hne h1
        · have := Queues.clock_lt_obj hm
          omega

theorem mutex_ne_cond (hm : m < mutexMax) : mutexBase + m ≠ condBase + c := by
  unfold condBase
  omega

theorem condWaitSvc_served {mwq : Word} (hs : self < 32)
    (hSc : ∀ c, k.condIdx cwq = some c → S (condBase + c))
    (hSm : ∀ m, k.mutexIdx mwq = some m → S (mutexBase + m)) :
    Served S self k (k.condWaitSvc self cwq mwq) := by
  unfold condWaitSvc
  split
  · rename_i c m hc hm
    obtain ⟨hcw, hcl, -⟩ := condIdx_eq_some hc
    obtain ⟨hmw, hml, -⟩ := mutexIdx_eq_some hm
    split
    · exact raised_arg0.served
    · exact served_release false k.clock m 0 hs (hcw ▸ isObj_cond hcl) (hmw ▸ isObj_mutex hml)
        (by rw [hmw, hcw]; exact mutex_ne_cond hml) (hcw ▸ hSc c hc) (hmw ▸ hSm m hm) (hSm m hm)
  · exact raised_arg0.served

theorem condTimedwaitSvc_served {mwq ms : Word} (hs : self < 32)
    (hSc : ∀ c, k.condIdx cwq = some c → S (condBase + c))
    (hSm : ∀ m, k.mutexIdx mwq = some m → S (mutexBase + m)) :
    Served S self k (k.condTimedwaitSvc self cwq mwq ms) := by
  unfold condTimedwaitSvc
  split
  · rename_i c m hc hm
    obtain ⟨hcw, hcl, -⟩ := condIdx_eq_some hc
    obtain ⟨hmw, hml, -⟩ := mutexIdx_eq_some hm
    split
    · exact raised_arg0.served
    · exact served_release true _ m ETIMEDOUT hs (hcw ▸ isObj_cond hcl) (hmw ▸ isObj_mutex hml)
        (by rw [hmw, hcw]; exact mutex_ne_cond hml) (hcw ▸ hSc c hc) (hmw ▸ hSm m hm) (hSm m hm)
  · exact raised_arg0.served

theorem condSignalSvc_raised (hS : ∀ c, k.condIdx cwq = some c → S (condBase + c)) :
    Raised S self k (k.condSignalSvc self cwq) := by
  refine raised_idx fun c hc => ?_
  obtain ⟨hcw, hcl, -⟩ := condIdx_eq_some hc
  simp only
  split
  · rename_i h
    exact ((raised_wake (hcw ▸ isObj_cond hcl) (hcw ▸ hS c hc) h 0).trans
      raised_deferSched).trans raised_arg0
  · exact raised_arg0

theorem condBroadcastSvc_raised (hS : ∀ c, k.condIdx cwq = some c → S (condBase + c)) :
    Raised S self k (k.condBroadcastSvc self cwq) := by
  refine raised_idx fun c hc => ?_
  obtain ⟨hcw, hcl, -⟩ := condIdx_eq_some hc
  split
  · exact ((wakeAll_raised k self _ 0 (hcw ▸ isObj_cond hcl) (hcw ▸ hS c hc)).trans
      raised_deferSched).trans raised_arg0
  · exact raised_arg0

end

end

end Kernel

end ThinkOS
