import Mathlib.Tactic.Tauto
import ThinkOS.Kernel.Mutex
import ThinkOS.Kernel.Semaphore
import ThinkOS.Kernel.Event
import ThinkOS.Kernel.Flag
import ThinkOS.Kernel.Gate

/-!
# Pause and resume

thinkos_pause.c. A pause takes the thread out of the queue its status names, and out of
the time-share and clock queues, but keeps the status. A resume looks up the type of
that queue and puts the thread back; for most objects it first takes the object if it is
available and makes the thread ready instead (`grant`).
-/

namespace ThinkOS

open Lib Queues

/-- The object types of `thinkos_obj_type_lut`. -/
inductive ObjType
  | ready | tmshare | clock | mutex | cond | semaphore | event | flag | gate | join | paused
  | canceled
  deriving DecidableEq, Repr

section
variable [Config] {wq th : Nat} {t : ObjType} {k : Kernel} {q : Queues}

/-- `thinkos_obj_type_lut`; `none` past its end. -/
def objType (wq : Nat) : Option ObjType :=
  if wq = wqReady then some .ready
  else if wq = wqTmshare then some .tmshare
  else if wq = wqClock then some .clock
  else if wq < condBase then some .mutex
  else if wq < semBase then some .cond
  else if wq < eventBase then some .semaphore
  else if wq < flagBase then some .event
  else if wq < gateBase then some .flag
  else if wq < joinBase then some .gate
  else if wq < wqPaused then some .join
  else if wq = wqPaused then some .paused
  else if wq = wqCanceled then some .canceled
  else none

/-- The queue part of `__thinkos_thread_pause`. -/
def Queues.threadPause (q : Queues) (th : Nat) : Queues :=
  if q.mem wqPaused th then q
  else
    (((q.bitWr wqPaused th true).bitWr (q.thStat th / 2) th false).bitWr wqTmshare th false).bitWr
      wqClock th false

namespace Kernel

section
variable (k : Kernel) (th wq : Nat) (tmw : Bool)

def threadPause : Kernel := { k with q := k.q.threadPause th }

/-- Back into queue `wq`, with the clock bit `tmw`. -/
def requeue : Kernel :=
  { k with q := (k.q.bitWr wq th true).bitWr wqClock th tmw }

/-- The paused thread got what it waits for. -/
def grant : Kernel :=
  { k with q := (k.q.bitWr wqReady th true).setStat th 0 }.ctxR0 th 0

def readyResume : Kernel := { k with q := k.q.bitWr wqReady th true }

def tmshareResume : Kernel := { k with q := k.q.bitWr wq th true }

def clockResume : Kernel := { k with q := k.q.bitWr wqClock th true }

def mutexResume : Kernel :=
  let mutex := wq - mutexBase
  if k.lock mutex = -1 then { k with lock := Function.update k.lock mutex (th : Int) }.grant th
  else k.requeue th wq tmw

def condResume : Kernel := k.requeue th wq tmw

def semaphoreResume : Kernel :=
  let sem := wq - semBase
  if k.semVal sem ≠ 0 then (k.setSemVal sem (k.semVal sem - 1)).grant th else k.requeue th wq tmw

/-- The event is consumed, but the result stored is 0 and not the event's number. -/
def evsetResume : Kernel :=
  let no := wq - eventBase
  let ev := lowBit (k.evPend no &&& k.evMask no)
  if ev < 32 then (k.evBitWr (2 * no) (BitVec.ofNat 32 ev) false).grant th
  else k.requeue th wq tmw

/-- The flag is cleared also when the thread was watching it. -/
def flagResume : Kernel :=
  let idx := wq - flagBase
  if k.flag.rd idx then (k.setFlag idx false).grant th else k.requeue th wq tmw

def gateResume : Kernel :=
  let idx := wq - gateBase
  if k.gate.rd (idx * 2) = true ∧ k.gate.rd (idx * 2 + 1) = false then
    { k with gate := (k.gate.wr (idx * 2) false).wr (idx * 2 + 1) true }.grant th
  else k.requeue th wq tmw

def joinResume : Kernel := { k with q := k.q.bitWr wq th true }

def canceledResume : Kernel := { k with q := k.q.bitWr wq th true }

/-- Dispatch on the type of the queue the status names. -/
def resumeType : Kernel :=
  let wq := k.q.thStat th / 2
  let tmw := k.q.thStat th % 2 == 1
  match objType wq with
  | some .ready => k.readyResume th
  | some .tmshare => k.tmshareResume th wq
  | some .clock => k.clockResume th
  | some .mutex => k.mutexResume th wq tmw
  | some .cond => k.condResume th wq tmw
  | some .semaphore => k.semaphoreResume th wq tmw
  | some .event => k.evsetResume th wq tmw
  | some .flag => k.flagResume th wq tmw
  | some .gate => k.gateResume th wq tmw
  | some .join => k.joinResume th wq
  | some .paused => k
  | some .canceled => k.canceledResume th wq
  | none => { k with fault := true }

/-- `__thinkos_thread_resume` -/
def threadResume : Kernel :=
  if k.q.mem wqPaused th = false then k
  else { k with q := k.q.bitWr wqPaused th false }.resumeType th

end

theorem threadResume_of_paused (h : ¬ k.q.mem wqPaused th = false) :
    k.threadResume th = ({ k with q := k.q.bitWr wqPaused th false } : Kernel).resumeType th :=
  if_neg h

section
variable (k : Kernel) (self : Nat) (thread : Word)

/-- The thread a call names: 0 is the caller, `n + 1` is thread `n`. -/
def targetId : Nat :=
  if thread = 0 then self else (thread - 1).toNat

def pauseSvc : Kernel :=
  let th := targetId self thread
  if th ≥ threadsMax ∨ k.thAlloc.rd th = false ∨ k.ctx th = none then k.arg0 self EINVAL
  else if k.q.mem wqPaused th then k.arg0 self 0
  else ((k.arg0 self 0).threadPause th).deferSched

def resumeSvc : Kernel :=
  let th := (thread - 1).toNat
  if th ≥ threadsMax ∨ k.thAlloc.rd th = false ∨ k.ctx th = none then k.arg0 self EINVAL
  else if k.q.mem wqPaused th = false then k.arg0 self 0
  else ((k.arg0 self 0).threadResume th).deferSched

/-- `__thinkos_pause_all`, called by the abort request of `thinkos_ctl_svc`. -/
def pauseAll : Kernel :=
  ((List.range threadsMax).foldl (fun k th => if k.ctx th = none then k else k.threadPause th)
    k).deferSched

def ctlAbortSvc : Kernel := (k.arg0 self 0).pauseAll

end

end Kernel

/-! ## What pause and resume do to the queues -/

namespace Queues

@[simp] theorem thStat_threadPause : (q.threadPause th).thStat = q.thStat := by
  unfold threadPause
  split <;> rfl

theorem mem_threadPause {w t : Nat} (hth : th < 32) (ht : t < 32) (hp : q.mem wqPaused th = false)
    (hs : q.thStat th / 2 ≠ wqPaused) : (q.threadPause th).mem w t =
      if t = th then
        decide (w = wqPaused) ||
          (q.mem w t && decide (w ≠ q.thStat th / 2 ∧ w ≠ wqTmshare ∧ w ≠ wqClock))
      else q.mem w t := by
  have h1 : wqPaused ≠ wqClock := by
    unfold wqPaused joinBase gateBase flagBase eventBase semBase condBase mutexBase wqClock
    omega
  have h2 : wqPaused ≠ wqTmshare := by
    unfold wqPaused joinBase gateBase flagBase eventBase semBase condBase mutexBase wqTmshare
    omega
  unfold threadPause
  rw [if_neg (by simp [hp])]
  simp only [mem_bitWr hth ht]
  by_cases he : t = th
  · subst he
    by_cases hc : w = wqClock
    · simp [hc, h1.symm]
    · by_cases hm : w = wqTmshare
      · simp [hm, h2.symm]
      · by_cases hw : w = q.thStat t / 2
        · simp [hw, hs]
        · by_cases hpa : w = wqPaused
          · simp [hpa, h1, h2, hs.symm]
          · simp [hc, hm, hw, hpa]
  · simp [he]

/-- A resumed thread goes back to the queue its status names, or is made ready. -/
inductive Resumed (q : Queues) (th : Nat) : Queues → Prop
  | back : IsObj (q.thStat th / 2) →
      Resumed q th ((q.bitWr (q.thStat th / 2) th true).bitWr wqClock th (q.thStat th % 2 == 1))
  | again : q.thStat th / 2 ≤ wqClock ∨ joinBase ≤ q.thStat th / 2 → q.thStat th / 2 ≠ wqPaused →
      q.thStat th / 2 < wqLstEnd → Resumed q th (q.bitWr (q.thStat th / 2) th true)
  | grant : IsObj (q.thStat th / 2) → q.thStat th / 2 < joinBase →
      Resumed q th ((q.bitWr wqReady th true).setStat th 0)
  | none : q.thStat th / 2 = wqPaused ∨ wqLstEnd ≤ q.thStat th / 2 → Resumed q th q

end Queues

/-- The queue numbers of an object type. -/
def ObjType.Range : ObjType → Nat → Prop
  | .ready, wq => wq = wqReady
  | .tmshare, wq => wq = wqTmshare
  | .clock, wq => wq = wqClock
  | .mutex, wq => mutexBase ≤ wq ∧ wq < condBase
  | .cond, wq => condBase ≤ wq ∧ wq < semBase
  | .semaphore, wq => semBase ≤ wq ∧ wq < eventBase
  | .event, wq => eventBase ≤ wq ∧ wq < flagBase
  | .flag, wq => flagBase ≤ wq ∧ wq < gateBase
  | .gate, wq => gateBase ≤ wq ∧ wq < joinBase
  | .join, wq => joinBase ≤ wq ∧ wq < wqPaused
  | .paused, wq => wq = wqPaused
  | .canceled, wq => wq = wqCanceled

/-- Every object type's range below the paused queue, in terms of the bases. -/
theorem wq_bases : mutexBase ≤ condBase ∧ condBase ≤ semBase ∧ semBase ≤ eventBase ∧
    eventBase ≤ flagBase ∧ flagBase ≤ gateBase ∧ gateBase ≤ joinBase ∧ joinBase ≤ wqPaused := by
  unfold wqPaused joinBase gateBase flagBase eventBase semBase condBase
  omega

omit [Config] in
theorem wq_low : wqReady < wqTmshare ∧ wqTmshare < wqClock ∧ wqClock + 1 = mutexBase := by decide

theorem objType_of_range (h : t.Range wq) : objType wq = some t := by
  obtain ⟨b1, b2, b3, b4, b5, b6, b7⟩ := wq_bases
  have b0 := wq_low
  have b8 : wqCanceled = wqPaused + 1 := rfl
  unfold objType
  -- the tests before the one for `t` fail, and that one holds
  cases t <;> (unfold ObjType.Range at h; repeat rw [if_neg (by omega)]) <;> rw [if_pos (by omega)]

/-- The ranges leave no gap. -/
theorem exists_range (h : wq < wqLstEnd) : ∃ t : ObjType, t.Range wq := by
  by_contra hno
  have hne : ∀ t : ObjType, ¬ t.Range wq := not_exists.mp hno
  have h0 := hne .ready
  have h1 := hne .tmshare
  have h2 := hne .clock
  have h3 := hne .mutex
  have h4 := hne .cond
  have h5 := hne .semaphore
  have h6 := hne .event
  have h7 := hne .flag
  have h8 := hne .gate
  have h9 := hne .join
  have h10 := hne .paused
  have h11 := hne .canceled
  unfold ObjType.Range at *
  unfold wqReady wqTmshare wqClock mutexBase wqCanceled at *
  unfold wqLstEnd wqCanceled at h
  omega

theorem objType_eq_none_iff : objType wq = none ↔ wqLstEnd ≤ wq := by
  refine ⟨fun h => Nat.le_of_not_lt fun hlt => ?_, fun h => ?_⟩
  · obtain ⟨t, ht⟩ := exists_range hlt
    cases h.symm.trans (objType_of_range ht)
  · obtain ⟨b1, b2, b3, b4, b5, b6, b7⟩ := wq_bases
    have b0 := wq_low
    have b8 : wqLstEnd = wqCanceled + 1 := rfl
    have b9 : wqCanceled = wqPaused + 1 := rfl
    unfold objType
    repeat rw [if_neg (by omega)]

theorem objType_range (h : objType wq = some t) : t.Range wq := by
  rcases Nat.lt_or_ge wq wqLstEnd with hlt | hge
  · obtain ⟨t', ht⟩ := exists_range hlt
    cases h.symm.trans (objType_of_range ht)
    exact ht
  · cases h.symm.trans (objType_eq_none_iff.mpr hge)

/-- A queue belongs to one object type. -/
theorem ObjType.Range.unique {t' : ObjType} (h : t.Range wq) (h' : t'.Range wq) : t = t' := by
  have := (objType_of_range h).symm.trans (objType_of_range h')
  cases this
  rfl

namespace Kernel

theorem range_mutex {m : Nat} (h : m < mutexMax) : ObjType.mutex.Range (mutexBase + m) := by
  unfold ObjType.Range condBase
  omega

theorem range_cond {c : Nat} (h : c < condMax) : ObjType.cond.Range (condBase + c) := by
  unfold ObjType.Range semBase
  omega

theorem range_sem {s : Nat} (h : s < semaphoreMax) : ObjType.semaphore.Range (semBase + s) := by
  unfold ObjType.Range eventBase
  omega

theorem range_event {e : Nat} (h : e < eventMax) : ObjType.event.Range (eventBase + e) := by
  unfold ObjType.Range flagBase
  omega

theorem range_flag {f : Nat} (h : f < flagMax) : ObjType.flag.Range (flagBase + f) := by
  unfold ObjType.Range gateBase
  omega

theorem range_gate {g : Nat} (h : g < gateMax) : ObjType.gate.Range (gateBase + g) := by
  unfold ObjType.Range joinBase
  omega

/-- A resume touches the queues as `Resumed` says, the data of the object the thread waits for
and one return value. -/
structure Resumes (k : Kernel) (th : Nat) (k' : Kernel) : Prop extends Kept k k' where
  ctx : k'.ctx = k.ctx
  eff : k.q.Resumed th k'.q
  within : th < 32 → Within (· = k.q.thStat th / 2) th k k'

/-- Back in the queue of its status, or ready: no other object queue changes. -/
theorem Within.resumed (hth : th < 32) (hq : k.q.Resumed th q) :
    Within (· = k.q.thStat th / 2) th k { k with q := q } := by
  refine .queues (fun w t hw ht hne => ?_) (fun t hne => ?_) fun _ w ho hw => ?_
  · cases hq with
    | back =>
      rw [mem_bitWr hth ht, if_neg (by tauto), mem_bitWr hth ht, if_neg (by tauto)]
    | again => rw [mem_bitWr hth ht, if_neg (by tauto)]
    | grant => rw [mem_setStat, mem_bitWr hth ht, if_neg (by tauto)]
    | none => rfl
  · cases hq with
    | back => rfl
    | again => rfl
    | grant => rw [thStat_setStat, if_neg hne, thStat_bitWr]
    | none => rfl
  · have h0 : w ≠ wqReady ∧ w ≠ wqClock := by
      have := Queues.clock_lt_obj ho
      have := Queues.ready_lt_clock
      omega
    cases hq with
    | back =>
      rw [mem_bitWr hth hth, if_neg (by tauto), mem_bitWr hth hth, if_neg (by tauto)]
    | again => rw [mem_bitWr hth hth, if_neg (by tauto)]
    | grant => rw [mem_setStat, mem_bitWr hth hth, if_neg (by tauto)]
    | none => rfl

theorem Resumes.of_grant {k1 : Kernel} (hr : Raised (· = k.q.thStat th / 2) th k k1)
    (hq : k1.q = k.q) (ho : Queues.IsObj (k.q.thStat th / 2)) (hj : k.q.thStat th / 2 < joinBase) :
    Resumes k th (k1.grant th) where
  toKept := hr.toKept.trans (Kept.fields.trans (.ctxR0 _ _ _))
  ctx := hr.ctx
  within := fun hth => by
    have hg : k1.q.Resumed th ((k1.q.bitWr wqReady th true).setStat th 0) :=
      .grant (hq ▸ ho) (hq ▸ hj)
    have hw := Within.resumed hth hg
    rw [show k1.q.thStat th = k.q.thStat th by rw [hq]] at hw
    exact (hr.within.trans hw).trans
      (.same ⟨rfl, rfl⟩ ⟨rfl, rfl⟩ ⟨rfl, rfl⟩ rfl fun _ hne => Function.update_of_ne hne ..)
  eff := by
    show k.q.Resumed th ((k1.q.bitWr wqReady th true).setStat th 0)
    rw [hq]
    exact .grant ho hj

theorem Resumes.of_requeue {k : Kernel} {th : Nat} (ho : Queues.IsObj (k.q.thStat th / 2)) :
    Resumes k th (k.requeue th (k.q.thStat th / 2) (k.q.thStat th % 2 == 1)) :=
  ⟨Kept.fields, rfl, .back ho, fun hth => .resumed hth (.back ho)⟩

theorem Resumes.of_again (k : Kernel) (th : Nat)
    (h : k.q.thStat th / 2 ≤ wqClock ∨ joinBase ≤ k.q.thStat th / 2)
    (hp : k.q.thStat th / 2 ≠ wqPaused) (he : k.q.thStat th / 2 < wqLstEnd) :
    Resumes k th { k with q := k.q.bitWr (k.q.thStat th / 2) th true } :=
  ⟨Kept.fields, rfl, .again h hp he, fun hth => .resumed hth (.again h hp he)⟩

theorem resumeType_resumes (k : Kernel) (th : Nat) : Resumes k th (k.resumeType th) := by
  obtain ⟨b1, b2, b3, b4, b5, b6, b7⟩ := wq_bases
  have b0 := wq_low
  have hobj : mutexBase ≤ k.q.thStat th / 2 ∧ k.q.thStat th / 2 < joinBase →
      Queues.IsObj (k.q.thStat th / 2) := fun h => ⟨h.1, by omega⟩
  simp only [resumeType]
  cases ht : objType (k.q.thStat th / 2) with
  | none =>
    exact ⟨Kept.fields, rfl, .none (.inr (objType_eq_none_iff.mp ht)),
      fun _ => .same ⟨rfl, rfl⟩ ⟨rfl, rfl⟩ ⟨rfl, rfl⟩ rfl fun _ _ => rfl⟩
  | some t =>
    have hr := objType_range ht
    have hend : wqPaused < wqLstEnd ∧ wqCanceled < wqLstEnd ∧ wqCanceled ≠ wqPaused ∧
        joinBase ≤ wqCanceled := by unfold wqLstEnd wqCanceled; omega
    cases t with
    | ready =>
      have he : k.q.thStat th / 2 = wqReady := hr
      have := Resumes.of_again k th (by omega) (by omega) (by omega)
      rwa [he] at this
    | tmshare =>
      have he : k.q.thStat th / 2 = wqTmshare := hr
      exact Resumes.of_again k th (by omega) (by omega) (by omega)
    | clock =>
      have he : k.q.thStat th / 2 = wqClock := hr
      have := Resumes.of_again k th (by omega) (by omega) (by omega)
      rwa [he] at this
    | mutex =>
      obtain ⟨hlo, hhi⟩ := hr
      have ho := hobj (by omega)
      simp only [mutexResume]
      split
      · exact .of_grant (raised_lock fun _ => by exact Nat.add_sub_cancel' hlo) rfl ho (by omega)
      · exact .of_requeue ho
    | cond =>
      obtain ⟨hlo, hhi⟩ := hr
      exact .of_requeue (hobj (by omega))
    | semaphore =>
      obtain ⟨hlo, hhi⟩ := hr
      have ho := hobj (by omega)
      simp only [semaphoreResume]
      split
      · exact .of_grant (raised_setSemVal fun _ => by exact Nat.add_sub_cancel' hlo) rfl ho (by omega)
      · exact .of_requeue ho
    | event =>
      obtain ⟨hlo, hhi⟩ := hr
      have ho := hobj (by omega)
      simp only [evsetResume]
      split
      · exact .of_grant (raised_evBitWr _ _ _ _ _) q_evBitWr ho (by omega)
      · exact .of_requeue ho
    | flag =>
      obtain ⟨hlo, hhi⟩ := hr
      have ho := hobj (by omega)
      simp only [flagResume]
      split
      · exact .of_grant raised_setFlag rfl ho (by omega)
      · exact .of_requeue ho
    | gate =>
      obtain ⟨hlo, hhi⟩ := hr
      have ho := hobj (by omega)
      simp only [gateResume]
      split
      · refine .of_grant (raised_gate (fun _ => by exact Nat.add_sub_cancel' hlo) fun g b hb hne => ?_) rfl ho
          (by omega)
        rw [rd_wrGate _ _ (by decide) hb hne]
        exact rd_wrGate (c := 0) _ _ (by decide) hb hne
      · exact .of_requeue ho
    | join =>
      exact Resumes.of_again k th (.inr hr.1) (by have := hr.2; omega) (by have := hr.2; omega)
    | paused => exact ⟨.refl k, rfl, .none (.inl hr), fun _ => .refl⟩
    | canceled =>
      have he : k.q.thStat th / 2 = wqCanceled := hr
      exact Resumes.of_again k th (by rw [he]; omega) (by rw [he]; omega) (by rw [he]; omega)

end Kernel

end

end ThinkOS
