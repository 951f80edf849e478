import ThinkOS.Sched.Slots

/-!
# Time-share accounting

Each tick charges the active slot: `thinkos_timeshare` takes the slot's priority from its credit,
and renews the credit by the schedule limit when it falls below zero.

    0 ≤ sched_val ≤ sched_limit ≤ 32 and sched_pri ≤ sched_limit, in every state  (Shares)
    v' = v - k * p + n * L  over k charges with n renewals  (Balanced.sum)

A thread that terminates itself leaves the void number in `active` until the scheduler runs. A tick
in between charges an entry that does not exist:

    the active number has an entry  ↔  no thread has ended itself since the scheduler last ran
-/

namespace ThinkOS

open BitVec Function Queues Option

variable {k k' : Kernel} {e : Event} {p : BitVec 8} {c : Call} {l : Word} {t : Nat}

open Lib

namespace Kernel

section
variable [Config]

/-! ## What a call does to the credits -/

/-- The active slot and the credits are the same. -/
structure SameCredit (k k' : Kernel) : Prop where
  active : k'.active = k.active
  val : k'.schedVal = k.schedVal
  pri : k'.schedPri = k.schedPri
  limit : k'.schedLimit = k.schedLimit

omit [Config] in
theorem SameCredit.of_kept (h : Kept k k') : SameCredit k k' :=
  ⟨h.active, h.sched.1, h.sched.2.1, h.sched.2.2⟩

omit [Config] in
theorem SameCredit.trans {k1 : Kernel} (h : SameCredit k k1) (h' : SameCredit k1 k') :
    SameCredit k k' :=
  ⟨h'.active.trans h.active, h'.val.trans h.val, h'.pri.trans h.pri, h'.limit.trans h.limit⟩

theorem sameCredit_pauseAll : SameCredit k k.pauseAll := by
  refine SameCredit.trans ?_ (.of_kept (.deferSched _))
  refine List.foldlRecOn (List.range threadsMax) _ (motive := SameCredit k) ⟨rfl, rfl, rfl, rfl⟩ ?_
  intro k' hk th _
  split
  · exact hk
  · exact hk.trans ⟨rfl, rfl, rfl, rfl⟩

/-- Only the calls that create or end a thread change credits or the active number. -/
theorem svcIsr_sameCredit (k : Kernel) {self : Nat} (hs : self < 32)
    (hcreate : ∀ init, c ≠ .threadCreate init) (hend : ∀ thread code, c ≠ .terminate thread code) :
    SameCredit k (k.svcIsr self c) := by
  by_cases hc : c.onObject = true
  · exact .of_kept (svcIsr_served k self c hs hc).toKept
  · cases c with
    | threadCreate init => exact absurd rfl (hcreate init)
    | terminate thread code => exact absurd rfl (hend thread code)
    | irqWait irq =>
      show SameCredit k (k.irqWaitSvc self irq)
      unfold irqWaitSvc
      split <;> exact ⟨rfl, rfl, rfl, rfl⟩
    | join thread =>
      show SameCredit k (k.joinSvc self thread)
      simp only [joinSvc]
      split <;> exact ⟨rfl, rfl, rfl, rfl⟩
    | pause thread =>
      show SameCredit k (k.pauseSvc self thread)
      simp only [pauseSvc]
      split
      · exact ⟨rfl, rfl, rfl, rfl⟩
      · split <;> exact ⟨rfl, rfl, rfl, rfl⟩
    | resume thread =>
      show SameCredit k (k.resumeSvc self thread)
      simp only [resumeSvc]
      split
      · exact ⟨rfl, rfl, rfl, rfl⟩
      · split
        · exact ⟨rfl, rfl, rfl, rfl⟩
        · exact .of_kept (((Kept.arg0 k self 0).trans (threadResume_kept _ _)).trans (.deferSched _))
    | cancel thread code =>
      show SameCredit k (k.cancelSvc self thread code)
      simp only [cancelSvc]
      split <;> exact ⟨rfl, rfl, rfl, rfl⟩
    | exit code =>
      show SameCredit k (k.exitSvc self)
      simp only [exitSvc]
      split <;> exact ⟨rfl, rfl, rfl, rfl⟩
    | ctlAbort => exact (SameCredit.of_kept (.arg0 k self 0)).trans sameCredit_pauseAll
    | criticalEnter =>
      show SameCredit k k.criticalEnterSvc
      simp only [criticalEnterSvc]
      split <;> exact ⟨rfl, rfl, rfl, rfl⟩
    | criticalExit =>
      show SameCredit k (k.criticalExitSvc self)
      simp only [criticalExitSvc]
      split
      · exact ⟨rfl, rfl, rfl, rfl⟩
      · split <;> exact ⟨rfl, rfl, rfl, rfl⟩
    | _ => exact absurd rfl hc

/-- A creation gives the slot it takes the priority, and half of the limit as its credit. -/
theorem threadCreateSvc_credit (k : Kernel) (self : Nat) (init : ThreadInit) :
    SameCredit k (k.threadCreateSvc self init) ∨
      ∃ th pri limit, k.threadSlot init.id = some th ∧ pri ≤ schedLimitMax ∧
        limit = (if k.schedLimit < pri.setWidth 32 then pri.setWidth 32 else k.schedLimit) ∧
        (k.threadCreateSvc self init).active = k.active ∧
        (k.threadCreateSvc self init).schedPri = update k.schedPri th pri ∧
        (k.threadCreateSvc self init).schedLimit = limit ∧
        (k.threadCreateSvc self init).schedVal =
          update k.schedVal th ((limit / 2#32).setWidth 8) := by
  unfold threadCreateSvc
  cases hslot : k.threadSlot init.id with
  | none => exact .inl ⟨rfl, rfl, rfl, rfl⟩
  | some th =>
    dsimp only
    split
    · exact .inl ⟨rfl, rfl, rfl, rfl⟩
    · refine .inr ⟨th, if init.priority > schedLimitMax then schedLimitMax else init.priority, _,
        rfl, ?_, rfl, ?_⟩
      · split
        · exact BitVec.le_refl _
        · exact BitVec.not_lt.mp ‹_›
      · have hk := fun k1 : Kernel => threadResume_kept k1 th
        cases init.paused with
        | true => exact ⟨rfl, rfl, rfl, rfl⟩
        | false =>
          exact ⟨(hk _).active, (hk _).sched.2.1, (hk _).sched.2.2, (hk _).sched.1⟩

theorem sameCredit_threadDetach (k : Kernel) {th : Nat} (hth : th < threadsMax) (code : Word) :
    SameCredit k (k.threadDetach th code) := by
  simp only [threadDetach]
  split
  · have hq : SameCredit k { k with
        q := ((k.q.bitWr wqTmshare th false).setStat th 0).bitWr (k.q.thStat th / 2) th false } :=
      ⟨rfl, rfl, rfl, rfl⟩
    refine hq.trans ?_
    exact .of_kept ((wakeAll_raised (S := (· = joinBase + th)) _ th _ _ (isObj_join hth) rfl).toKept.trans
      (.deferSched _))
  · exact ⟨rfl, rfl, rfl, rfl⟩

/-! ## The active number -/

/-- The active thread asks for its own end. -/
def endsSelf (k : Kernel) (thread : Word) : Prop :=
  targetId k.active thread = k.active ∧ k.thAlloc.rd k.active = true

instance (k : Kernel) (thread : Word) : Decidable (k.endsSelf thread) :=
  inferInstanceAs (Decidable (_ ∧ _))

theorem active_terminateSvc (k : Kernel) (ha : k.active < threadsMax) (thread code : Word) :
    (k.terminateSvc k.active thread code).active =
      if k.endsSelf thread then threadVoid else k.active := by
  simp only [terminateSvc]
  by_cases hc : targetId k.active thread ≥ threadsMax ∨ k.thAlloc.rd (targetId k.active thread) = false
  · rw [if_pos hc, if_neg]
    · rfl
    · rintro ⟨h, hal⟩
      rw [h, hal] at hc
      simp only [reduceCtorEq, or_false] at hc
      omega
  · rw [if_neg hc]
    obtain ⟨hlt, hal⟩ := target_live hc
    have hd := (sameCredit_threadDetach k hlt code).active
    show (if targetId k.active thread = (k.threadDetach _ code).active then threadVoid
      else (k.threadDetach _ code).active) = _
    rw [hd]
    by_cases h : targetId k.active thread = k.active
    · rw [if_pos h, if_pos ⟨h, h ▸ hal⟩]
    · rw [if_neg h, if_neg fun hs => h hs.1]

/-- The active number changes when the active thread ends itself and when the scheduler runs. -/
def activeAfter (k : Kernel) : Event → Nat
  | .svc _ (.terminate thread _) => if k.endsSelf thread then threadVoid else k.active
  | .sched _ => lowBit (k.q.wqLst wqReady)
  | _ => k.active

theorem step_active (hs : kernel.step k e = some k') : k'.active = k.activeAfter e := by
  cases e with
  | svc sp c =>
    obtain ⟨-, ⟨ha, -⟩, rfl⟩ := step_svc hs
    rw [svc_eq, excLeave_eq]
    by_cases hcreate : ∃ init, c = .threadCreate init
    · obtain ⟨init, rfl⟩ := hcreate
      rcases threadCreateSvc_credit (k.svcEntry sp _) k.active init with h | ⟨_, _, _, -, -, -, h, -⟩
      · exact h.active
      · exact h
    by_cases hend : ∃ thread code, c = .terminate thread code
    · obtain ⟨thread, code, rfl⟩ := hend
      exact active_terminateSvc (k.svcEntry sp _) ha thread code
    · have hc := (svcIsr_sameCredit (k.svcEntry sp c) (Nat.lt_of_lt_of_le ha threadsMax_le)
        (fun init h => hcreate ⟨init, h⟩) fun thread code h => hend ⟨thread, code, h⟩).active
      cases c with
      | terminate thread code => exact absurd ⟨thread, code, rfl⟩ hend
      | _ => exact hc
  | tick sp =>
    obtain ⟨-, rfl⟩ := step_tick hs
    rw [excLeave_eq, systick_eq, excEnter_eq]
    rfl
  | irq sp op =>
    obtain ⟨-, hv, rfl⟩ := step_irq hs
    rw [excLeave_eq]
    refine Eq.trans ?_ (show (k.excEnter sp).active = k.active by rw [excEnter_eq])
    by_cases hn : ∀ n, op ≠ .irq n
    · exact (irqIsr_raised (k.excEnter sp) op 0 (valid_excEnter sp hv) hn).active
    · obtain ⟨n, rfl⟩ : ∃ n, op = .irq n := by simpa using hn
      exact (Kept.preempt _).active
  | sched sp =>
    obtain ⟨-, rfl⟩ := step_sched hs
    exact congrArg (fun q : Queues => lowBit (q.wqLst wqReady)) (q_excEnter k sp)

/-- The kernel, with the memory of a thread that has ended itself since the scheduler last ran. -/
structure Watched where
  k : Kernel
  ended : Bool

/-- What is remembered after an event. -/
def Watched.after (w : Watched) : Event → Bool
  | .svc _ (.terminate thread _) => w.ended || decide (w.k.endsSelf thread)
  | .sched _ => false
  | _ => w.ended

def watched : System Watched Event := ⟨fun w e => (w.k.step e).map (⟨·, w.after e⟩)⟩

theorem watched_step {w w' : Watched} (hk : w.k.Sane)
    (hi : w.k.active ≤ threadIdle ↔ w.ended = false) (hs : watched.step w e = some w') :
    w'.k.Sane ∧ (w'.k.active ≤ threadIdle ↔ w'.ended = false) := by
  obtain ⟨k', hk', rfl⟩ := map_eq_some_iff.mp hs
  refine ⟨hk.step hk', ?_⟩
  rw [step_active hk']
  cases e with
  | svc sp c =>
    cases c with
    | terminate thread code =>
      have ha : w.k.active ≤ threadIdle := Nat.le_of_lt (step_svc hk').2.1.1
      simp only [Watched.after, activeAfter, hi.mp ha, Bool.false_or, decide_eq_false_iff_not]
      by_cases h : w.k.endsSelf thread
      · rw [if_pos h]
        exact iff_of_false (Nat.not_succ_le_self _) (not_not_intro h)
      · rw [if_neg h]
        exact iff_of_true ha h
    | _ => exact hi
  | sched sp => exact iff_of_true hk.first_le rfl
  | _ => exact hi

end

section
variable [Config]

structure Shares (k : Kernel) : Prop where
  pos : 0 < k.schedLimit.toNat
  limit : k.schedLimit.toNat ≤ schedLimitMax.toNat
  pri : ∀ t, (k.schedPri t).toNat ≤ k.schedLimit.toNat
  val : ∀ t, (k.schedVal t).toNat ≤ k.schedLimit.toNat

/-- The credit of the active slot after a tick. -/
def charge (k : Kernel) : BitVec 8 :=
  if k.sliceVal.toInt < 0 then k.sliceVal + k.schedLimit.setWidth 8 else k.sliceVal

omit [Config] in
theorem toInt_of_le {v : BitVec 8} (h : v.toNat ≤ 32) : v.toInt = v.toNat := by
  apply toInt_eq_toNat_of_lt
  omega

omit [Config] in
theorem toNat_ite_lt {a b : Word} : (if a < b then b else a).toNat = max a.toNat b.toNat := by
  split
  · have : a.toNat < b.toNat := ‹_›
    omega
  · have : ¬ a.toNat < b.toNat := ‹_›
    omega

/-- The charge is exact: no 8-bit value overflows. -/
theorem Shares.charge_eq (h : k.Shares) (ha : k.active ≤ threadIdle) :
    k.sliceVal.toInt = (k.schedVal k.active).toNat - (k.schedPri k.active).toNat ∧
      k.charge.toInt = if k.sliceVal.toInt < 0 then k.sliceVal.toInt + k.schedLimit.toNat
        else k.sliceVal.toInt := by
  have hl : k.schedLimit.toNat ≤ 32 := h.limit
  have hp := h.pri k.active
  have hv := h.val k.active
  have hs : k.sliceVal.toInt = (k.schedVal k.active).toNat - (k.schedPri k.active).toNat := by
    rw [sliceVal, schedValAt, schedPriAt, if_pos ha, if_pos ha, toInt_sub,
      toInt_of_le (by omega), toInt_of_le (by omega), Int.bmod_eq_of_le (by omega) (by omega)]
  refine ⟨hs, ?_⟩
  unfold charge
  split
  · have hw : (k.schedLimit.setWidth 8).toNat = k.schedLimit.toNat := by
      rw [toNat_setWidth]
      omega
    rw [toInt_add, toInt_of_le (v := k.schedLimit.setWidth 8) (by omega), hw,
      Int.bmod_eq_of_le (by omega) (by omega)]
  · rfl

theorem Shares.charge_le (h : k.Shares) (ha : k.active ≤ threadIdle) :
    k.charge.toInt = k.charge.toNat ∧ k.charge.toNat ≤ k.schedLimit.toNat := by
  obtain ⟨hs, hc⟩ := h.charge_eq ha
  have hp := h.pri k.active
  have hv := h.val k.active
  have h0 : 0 ≤ k.charge.toInt := by
    rw [hc]
    split <;> omega
  have hle : k.charge.toInt ≤ k.schedLimit.toNat := by
    rw [hc]
    split <;> omega
  have heq : k.charge.toInt = k.charge.toNat := by
    rw [toInt_eq_toNat_cond] at h0 ⊢
    split at h0
    · rw [if_pos ‹_›]
    · omega
  exact ⟨heq, by omega⟩

/-- The limit does not change at the end of a thread: it bounds all priorities already. -/
theorem Shares.schedLimitEval (h : k.Shares) (th : Nat) : k.schedLimitEval th = k.schedLimit := by
  refine List.foldlRecOn (List.range threadsMax) _ (motive := (· = k.schedLimit)) rfl ?_
  intro limit hl j _
  have hj : ¬ limit < (k.schedPri j).setWidth 32 := by
    have := h.pri j
    rw [hl, lt_def, toNat_setWidth]
    omega
  rw [if_neg hj]
  split
  · exact hl
  · split <;> exact hl

/-- What an event does to the credits. -/
inductive CreditStep (k k' : Kernel) : Event → Prop
  | same {e : Event} (h : ∀ sp, e ≠ .tick sp) (hv : k'.schedVal = k.schedVal)
      (hp : k'.schedPri = k.schedPri) (hl : k'.schedLimit = k.schedLimit) : CreditStep k k' e
  | created {sp : Nat} {init : ThreadInit} (th : Nat) (pri : BitVec 8) (limit : Word)
      (hs : k.threadSlot init.id = some th) (hpri : pri ≤ schedLimitMax)
      (hlim : limit = if k.schedLimit < pri.setWidth 32 then pri.setWidth 32 else k.schedLimit)
      (hp : k'.schedPri = Function.update k.schedPri th pri) (hl : k'.schedLimit = limit)
      (hv : k'.schedVal = Function.update k.schedVal th ((limit / 2#32).setWidth 8)) :
      CreditStep k k' (.svc sp (.threadCreate init))
  | charged {sp : Nat} (hv : k'.schedVal = Function.update k.schedVal k.active k.charge)
      (hp : k'.schedPri = k.schedPri) (hl : k'.schedLimit = k.schedLimit) :
      CreditStep k k' (.tick sp)

/-- The wake-ups of a tick leave the credits, and then the active slot is charged. -/
theorem systick_credit (ha : k.active ≤ threadIdle) :
    k.systick.schedVal = update k.schedVal k.active k.charge ∧ k.systick.schedPri = k.schedPri := by
  simp only [systick]
  rw [tickLoop_eq]
  simp only [timeshare, setSchedVal]
  unfold charge sliceVal schedValAt schedPriAt preempt
  simp only [if_pos ha]
  split
  · split
    · exact ⟨rfl, rfl⟩
    · split <;> exact ⟨rfl, rfl⟩
  · exact ⟨rfl, rfl⟩

/-- Ticks come while a thread or idle is active. -/
def ChargesSlot (k : Kernel) : Event → Prop
  | .tick _ => k.active ≤ threadIdle
  | _ => True

instance (k : Kernel) : (e : Event) → Decidable (k.ChargesSlot e)
  | .tick _ => inferInstanceAs (Decidable (_ ≤ _))
  | .svc _ _ | .irq _ _ | .sched _ => inferInstanceAs (Decidable True)

theorem creditStep_svc (hsh : k.Shares) (hc : k.MayCall c) {sp : Nat} :
    CreditStep k (k.svc sp c) (.svc sp c) := by
  have hne : ∀ sp', Event.svc sp c ≠ .tick sp' := by
    intro sp' h
    cases h
  rw [svc_eq, excLeave_eq]
  by_cases hcreate : ∃ init, c = .threadCreate init
  · obtain ⟨init, rfl⟩ := hcreate
    rcases threadCreateSvc_credit (k.svcEntry sp _) k.active init with
      h | ⟨th, pri, limit, hs, hpri, hlim, -, hp, hl, hv⟩
    · exact .same hne h.val h.pri h.limit
    · exact .created th pri limit hs hpri hlim hp hl hv
  by_cases hend : ∃ thread code, c = .terminate thread code
  · obtain ⟨thread, code, rfl⟩ := hend
    show CreditStep k { (k.svcEntry sp _).terminateSvc k.active thread code with reg := _ } _
    simp only [terminateSvc]
    split
    · exact .same hne rfl rfl rfl
    · have hd := sameCredit_threadDetach (k.svcEntry sp (.terminate thread code))
        (target_live ‹_›).1 code
      refine .same hne hd.val hd.pri ?_
      refine (Shares.schedLimitEval ⟨?_, ?_, fun t => ?_, fun t => ?_⟩ _).trans hd.limit
      · rw [hd.limit]
        exact hsh.pos
      · rw [hd.limit]
        exact hsh.limit
      · rw [hd.limit, hd.pri]
        exact hsh.pri t
      · rw [hd.limit, hd.val]
        exact hsh.val t
  · have h := svcIsr_sameCredit (k.svcEntry sp c) (Nat.lt_of_lt_of_le hc.1 threadsMax_le)
      (fun init h => hcreate ⟨init, h⟩) fun thread code h => hend ⟨thread, code, h⟩
    exact .same hne h.val h.pri h.limit

theorem step_credit (hsh : k.Shares) (hc : k.ChargesSlot e) (hs : kernel.step k e = some k') :
    CreditStep k k' e := by
  cases e with
  | svc sp c =>
    obtain ⟨-, hm, rfl⟩ := step_svc hs
    exact creditStep_svc hsh hm
  | tick sp =>
    obtain ⟨-, rfl⟩ := step_tick hs
    have ha : (k.excEnter sp).active ≤ threadIdle := by
      rw [excEnter_eq]
      exact hc
    obtain ⟨hv, hp⟩ := systick_credit ha
    have hl : (k.excEnter sp).systick.schedLimit = (k.excEnter sp).schedLimit := by
      rw [systick_eq]
    rw [excEnter_eq] at hv hp hl
    rw [excLeave_eq]
    exact .charged (excEnter_eq k sp ▸ hv) (excEnter_eq k sp ▸ hp) (excEnter_eq k sp ▸ hl)
  | irq sp op =>
    obtain ⟨-, hv, rfl⟩ := step_irq hs
    have hk : SameCredit (k.excEnter sp) ((k.excEnter sp).irqIsr op) := by
      by_cases hn : ∀ n, op ≠ .irq n
      · exact .of_kept (irqIsr_raised (k.excEnter sp) op 0 (valid_excEnter sp hv) hn).toKept
      · obtain ⟨n, rfl⟩ : ∃ n, op = .irq n := by simpa using hn
        exact ⟨(Kept.preempt _).active, (Kept.preempt _).sched.1, (Kept.preempt _).sched.2.1,
          (Kept.preempt _).sched.2.2⟩
    rw [excLeave_eq]
    have he := excEnter_eq k sp
    refine .same (fun _ h => by cases h) (hk.val.trans ?_) (hk.pri.trans ?_) (hk.limit.trans ?_) <;>
      rw [he]
  | sched sp =>
    obtain ⟨-, rfl⟩ := step_sched hs
    refine .same (fun _ h => by cases h) ?_ ?_ ?_
    · show (k.excEnter sp).schedVal = _
      rw [excEnter_eq]
    · show (k.excEnter sp).schedPri = _
      rw [excEnter_eq]
    · show (k.excEnter sp).schedLimit = _
      rw [excEnter_eq]

/-- Creations only raise the limit, and a charge stays below it. -/
theorem Shares.step (h : k.Shares) (hc : k.ChargesSlot e) (hs : kernel.step k e = some k') :
    k'.Shares := by
  cases step_credit h hc hs with
  | same _ hv hp hl =>
    constructor
    · rw [hl]
      exact h.pos
    · rw [hl]
      exact h.limit
    · intro t
      rw [hl, hp]
      exact h.pri t
    · intro t
      rw [hl, hv]
      exact h.val t
  | created th pri limit _ hpri hlim hp hl hv =>
    have hpri : pri.toNat ≤ schedLimitMax.toNat := hpri
    have h1 := h.pos
    have h2 := h.limit
    have hmono : limit.toNat = max k.schedLimit.toNat pri.toNat := by
      rw [hlim, toNat_ite_lt, toNat_setWidth]
      omega
    constructor
    · rw [hl]
      omega
    · rw [hl]
      omega
    · intro t
      rw [hl, hp, update_apply]
      have := h.pri t
      split <;> omega
    · intro t
      rw [hl, hv, update_apply]
      have := h.val t
      split
      · rw [toNat_setWidth, toNat_udiv]
        show limit.toNat / 2 % 2 ^ 8 ≤ limit.toNat
        omega
      · omega
  | charged hv hp hl =>
    constructor
    · rw [hl]
      exact h.pos
    · rw [hl]
      exact h.limit
    · intro t
      rw [hl, hp]
      exact h.pri t
    · intro t
      rw [hl, hv, update_apply]
      split
      · exact (h.charge_le hc).2
      · exact h.val t

theorem Booted.shares (h : k.Booted) : k.Shares := by
  obtain ⟨sp, id, priority, paused, -, rfl⟩ := h
  have hpri : ∃ pri : BitVec 8, pri = (if priority > schedLimitMax then schedLimitMax else priority) ∧
      pri.toNat ≤ 32 := by
    refine ⟨_, rfl, ?_⟩
    split
    · exact Nat.le_refl 32
    · exact BitVec.not_lt.mp ‹_›
  obtain ⟨pri, heq, hle⟩ := hpri
  have hlim : (Kernel.init sp id priority paused).schedLimit.toNat = max 1 pri.toNat := by
    show BitVec.toNat (if BitVec.setWidth 32 (if priority > schedLimitMax then schedLimitMax else priority)
      < schedLimitMin then schedLimitMin else _) = _
    rw [← heq, toNat_ite_lt, toNat_setWidth, show schedLimitMin.toNat = 1 from rfl]
    omega
  have hmax : schedLimitMax.toNat = 32 := rfl
  constructor
  · omega
  · omega
  · intro t
    show (update (fun _ => 0#8) id _ t).toNat ≤ _
    rw [← heq, hlim, update_apply]
    split
    · omega
    · exact Nat.zero_le _
  · intro t
    show (update (fun _ => 0#8) id (_ / 2#8) t).toNat ≤ _
    rw [← heq, hlim, update_apply]
    split
    · rw [toNat_udiv]
      show pri.toNat / 2 ≤ _
      omega
    · exact Nat.zero_le _

/-! ## The law of the shares -/

/-- The kernel with a count of the ticks charged to one slot and of those that renewed its credit. -/
structure Tally where
  k : Kernel
  charged : Nat
  renewed : Nat

/-- The counts after an event. -/
def Tally.count (s : Tally) (t : Nat) (k' : Kernel) : Event → Tally
  | .tick _ =>
    if s.k.active = t then
      ⟨k', s.charged + 1, if s.k.sliceVal.toInt < 0 then s.renewed + 1 else s.renewed⟩
    else ⟨k', s.charged, s.renewed⟩
  | _ => ⟨k', s.charged, s.renewed⟩

def tally (t : Nat) : System Tally Event := ⟨fun s e => (s.k.step e).map fun k' => s.count t k' e⟩

/-- The thread that an event creates. -/
def created : Event → Option ThreadInit
  | .svc _ (.threadCreate init) => some init
  | _ => none

/-- Ticks charge existing slots, no new thread takes the slot `t`, and the limit stays. -/
def KeepsShare (t : Nat) (s : Tally) (e : Event) : Prop :=
  s.k.ChargesSlot e ∧ (∀ init ∈ created e, s.k.threadSlot init.id ≠ some t) ∧
    ∀ k' ∈ s.k.step e, k'.schedLimit = s.k.schedLimit

instance (t : Nat) (s : Tally) (e : Event) : Decidable (KeepsShare t s e) :=
  inferInstanceAs (Decidable (_ ∧ _ ∧ _))

/-- The account of a slot that starts with the credit `v`. -/
structure Balanced (t : Nat) (p : BitVec 8) (l : Word) (v : Int) (s : Tally) : Prop where
  shares : s.k.Shares
  pri : s.k.schedPri t = p
  limit : s.k.schedLimit = l
  sum : (s.k.schedVal t).toInt = v - s.charged * p.toNat + s.renewed * l.toNat

theorem Balanced.step {v : Int} {s s' : Tally} (h : Balanced t p l v s) (hp : KeepsShare t s e)
    (hs : (tally t).step s e = some s') : Balanced t p l v s' := by
  obtain ⟨k', hk', rfl⟩ := map_eq_some_iff.mp hs
  obtain ⟨hc, hslot, hlim⟩ := hp
  have hsh := h.shares.step hc hk'
  have hl : k'.schedLimit = l := (hlim k' hk').trans h.limit
  cases step_credit h.shares hc hk' with
  | same hne hv hpri _ =>
    have hcount : s.count t k' e = ⟨k', s.charged, s.renewed⟩ := by
      cases e with
      | tick sp => exact absurd rfl (hne sp)
      | _ => rfl
    rw [hcount]
    exact ⟨hsh, (congrFun hpri t).trans h.pri, hl, (congrArg (fun f => (f t).toInt) hv).trans h.sum⟩
  | created th pri limit' hth _ _ hpri _ hv =>
    have hne : t ≠ th := fun heq => hslot _ rfl (heq ▸ hth)
    refine ⟨hsh, ?_, hl, ?_⟩
    · show k'.schedPri t = p
      rw [hpri, update_of_ne hne]
      exact h.pri
    · show (k'.schedVal t).toInt = _
      rw [hv, update_of_ne hne]
      exact h.sum
  | charged hv hpri _ =>
    have hsum := h.sum
    simp only [Tally.count]
    by_cases ha : s.k.active = t
    · obtain ⟨hslice, hcharge⟩ := h.shares.charge_eq hc
      have hval := toInt_of_le (Nat.le_trans (h.shares.val t) h.shares.limit)
      rw [if_pos ha]
      refine ⟨hsh, (congrFun hpri t).trans h.pri, hl, ?_⟩
      rw [ha, h.pri] at hslice
      rw [h.limit, hslice] at hcharge
      rw [hv, ha, update_self, hcharge, hslice]
      rw [hval] at hsum
      have hcharged : ((s.charged + 1 : Nat) : Int) * p.toNat = s.charged * p.toNat + p.toNat := by
        rw [Int.natCast_succ, Int.add_mul, Int.one_mul]
      have hrenewed : ((s.renewed + 1 : Nat) : Int) * l.toNat = s.renewed * l.toNat + l.toNat := by
        rw [Int.natCast_succ, Int.add_mul, Int.one_mul]
      dsimp only
      split
      · rw [hcharged, hrenewed]
        omega
      · rw [hcharged]
        omega
    · rw [if_neg ha]
      refine ⟨hsh, (congrFun hpri t).trans h.pri, hl, ?_⟩
      rw [hv, update_of_ne (Ne.symm ha)]
      exact hsum

omit [Config] in
/-- Over `k` charges the number of renewals is `k * p / L` up to one. -/
theorem Balanced.share {v : Nat} {s : Tally} (h : Balanced t p l v s) (hv : v ≤ l.toNat) :
    s.renewed * l.toNat ≤ s.charged * p.toNat + l.toNat ∧
      s.charged * p.toNat ≤ s.renewed * l.toNat + l.toNat := by
  have hsum := h.sum
  have hval := h.shares.val t
  rw [toInt_of_le (Nat.le_trans hval h.shares.limit)] at hsum
  rw [h.limit] at hval
  omega

/-- The state in which a tick does the accounting: the expired waits are over. -/
def woken (k : Kernel) : Kernel :=
  tickLoop 32 (k.q.wqLst wqClock) { k with ticks := k.ticks + 1 }

/-- The end of a slice: the thread goes from the ready to the time-share queue, and with that whole
queue back when nothing but idle is left. -/
def Slices (q : Queues) (t : Nat) (q' : Queues) : Prop :=
  q' = (q.bitWr wqTmshare t true).suspend t ∧
    (q'.mem wqTmshare t = true ∧ q'.mem wqReady t = false ∨
      (q.bitWr wqTmshare t true).collects t = true ∧ q'.mem wqReady t = true)

theorem systick_slices (hk : k.Sane) (ha : k.active ≤ threadIdle) (hv : k.sliceVal.toInt < 0)
    (hm : k.woken.q.mem wqReady k.active = true) : Slices k.woken.q k.active k.systick.q := by
  have hlt : k.active < 32 := by
    have := hk.slice_ne_idle hv
    have := threadsMax_le
    unfold threadIdle at *
    omega
  have hw : k.woken = { k with
      ticks := k.ticks + 1, q := k.woken.q, pendsv := k.woken.pendsv } := by
    unfold woken
    rw [tickLoop_eq]
  have hact : k.woken.active = k.active := by rw [hw]
  have hslice : k.woken.sliceVal = k.sliceVal := by
    rw [hw]
    rfl
  have hq : k.systick.q = (k.woken.q.bitWr wqTmshare k.active true).suspend k.active := by
    show k.woken.timeshare.q = _
    simp only [timeshare]
    rw [hslice, if_pos hv, setSchedVal_eq, hact]
    simp only [hm, Bool.true_eq_false, if_false, q_preempt]
  have hbit : (k.woken.q.bitWr wqTmshare k.active true).mem wqTmshare k.active = true := by
    rw [mem_bitWr hlt hlt, if_pos ⟨rfl, rfl⟩]
  refine ⟨hq, ?_⟩
  rw [hq, mem_suspend_ready hlt, mem_suspend_tmshare hlt, hbit]
  cases (k.woken.q.bitWr wqTmshare k.active true).collects k.active <;> simp

/-- **The shares are proportional.**  In every run in which the ticks charge existing slots the
credits lie between zero and the limit, the charge of the active slot is exact, a renewal moves a
ready thread to the time-share queue, and over any charges to one thread with one limit the number of
renewals differs from the charges times the thread's share `p / L` by at most one (both sides here
multiplied by `L`). -/
theorem timeshare_proportional {k0 k : Kernel} (hb : k0.Booted) (hr : kernel.Run ChargesSlot k0 k) :
    (∀ t, (k.schedPri t).toNat ≤ k.schedLimit.toNat ∧ k.schedLimit.toNat ≤ schedLimitMax.toNat ∧
      0 ≤ (k.schedVal t).toInt ∧ (k.schedVal t).toInt ≤ k.schedLimit.toNat) ∧
    (k.active ≤ threadIdle →
      k.sliceVal.toInt = (k.schedVal k.active).toInt - (k.schedPri k.active).toNat ∧
      k.charge.toInt = (if k.sliceVal.toInt < 0 then k.sliceVal.toInt + k.schedLimit.toNat
        else k.sliceVal.toInt) ∧
      k.systick.schedVal = update k.schedVal k.active k.charge ∧
      (k.sliceVal.toInt < 0 → k.woken.q.mem wqReady k.active = true →
        Slices k.woken.q k.active k.systick.q)) ∧
    ∀ t s, (tally t).Run (KeepsShare t) ⟨k, 0, 0⟩ s →
      (s.k.schedVal t).toInt = (k.schedVal t).toInt - s.charged * (k.schedPri t).toNat
        + s.renewed * k.schedLimit.toNat ∧
      0 < k.schedLimit.toNat ∧
      s.renewed * k.schedLimit.toNat ≤ s.charged * (k.schedPri t).toNat + k.schedLimit.toNat ∧
      s.charged * (k.schedPri t).toNat ≤ s.renewed * k.schedLimit.toNat + k.schedLimit.toNat := by
  obtain ⟨hk, hsh⟩ : k.Sane ∧ k.Shares :=
    hr.invariant (I := fun k => k.Sane ∧ k.Shares)
      (fun _ _ _ h hc hs => ⟨h.1.step hs, h.2.step hc hs⟩) ⟨hb.sane, hb.shares⟩
  have hval : ∀ t, (k.schedVal t).toInt = (k.schedVal t).toNat := by
    intro t
    exact toInt_of_le (Nat.le_trans (hsh.val t) hsh.limit)
  refine ⟨?_, ?_, ?_⟩
  · intro t
    have := hsh.val t
    rw [hval t]
    exact ⟨hsh.pri t, hsh.limit, by omega, by omega⟩
  · intro ha
    obtain ⟨hslice, hcharge⟩ := hsh.charge_eq ha
    rw [hval]
    exact ⟨hslice, hcharge, (systick_credit ha).1, fun hv hm => systick_slices hk ha hv hm⟩
  · intro t s hrun
    have h : Balanced t (k.schedPri t) k.schedLimit (k.schedVal t).toNat s :=
      hrun.invariant (fun _ _ _ h hp hs => h.step hp hs) ⟨hsh, rfl, rfl, by simp [hval t]⟩
    rw [hval t]
    exact ⟨h.sum, hsh.pos, h.share (hsh.val t)⟩

end

/-- Two threads with the priorities 16 and 24: two renewals in three charges to the first. -/
theorem timeshare_proportional_tick :
    ∃ k s, kernel.Run ChargesSlot (Kernel.init 0 0 16#8 false) k ∧
      (tally 0).Run (KeepsShare 0) ⟨k, 0, 0⟩ s ∧ (s.charged = 3 ∧ s.renewed = 2) ∧
      (∀ t, 0 ≤ (k.schedVal t).toInt ∧ (k.schedVal t).toInt ≤ k.schedLimit.toNat) ∧
      s.charged * (k.schedPri 0).toNat ≤ s.renewed * k.schedLimit.toNat + k.schedLimit.toNat := by
  obtain ⟨k, hr, hk⟩ := System.exists_run_of_exec (M := kernel) (P := ChargesSlot)
    (fun k => ((tally 0).exec (KeepsShare 0) ⟨k, 0, 0⟩
      [.tick 0, .sched 0, .tick 960, .sched 960, .tick 0, .tick 0]).any
      fun s => decide (s.charged = 3 ∧ s.renewed = 2))
    [.svc 0 (.threadCreate ⟨0, 1024, 256, 24, 2, false⟩), .sched 0]
    (Kernel.init 0 0 16#8 false) (by decide +kernel)
  obtain ⟨s, hrun, hs⟩ := System.exists_run_of_exec _ _ _ hk
  have h := timeshare_proportional ⟨0, 0, 16#8, false, by decide, rfl⟩ hr
  exact ⟨k, s, hr, hrun, hs, fun t => (h.1 t).2.2, (h.2.2 0 s hrun).2.2.2⟩

end Kernel

end ThinkOS
