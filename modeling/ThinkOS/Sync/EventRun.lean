import ThinkOS.Sync.Waits

/-!
# Event sets lose and duplicate nothing

Runs of `ev_wait`, `ev_timedwait`, `ev_raise`, `ev_mask` and `ev_clear` on one event set, with
ticks, scheduler runs and interrupt handlers that raise events. `Attends` is the invariant:
whenever a thread waits for the set no event is both pending and unmasked. `Delivers` is what
one step does with the events:

    a wait ends  ↔  one event that is unmasked then goes to that thread, or its time is over

so a raise goes to exactly one thread or stays pending, and what was pending leaves only that
way or by `ev_clear`.
-/

namespace ThinkOS

open Lib BitVec Function Option Queues

/-- What a step asks of an event set. -/
inductive Ask
  | wait
  | raise (n : Nat)
  | mask
  | clear (n : Nat)
  | tick
  | sched
  deriving DecidableEq, Repr

/-- The steps on one event set, with event numbers below 32. -/
def Event.onSet (wq : Word) (e : Nat) : Event → Option Ask
  | .svc _ (.evWait w) | .svc _ (.evTimedwait w _) => if w = wq then some .wait else none
  | .svc _ (.evRaise w n) => if w = wq ∧ n.toNat < 32 then some (.raise n.toNat) else none
  | .svc _ (.evMask w n _) => if w = wq ∧ n.toNat < 32 then some .mask else none
  | .svc _ (.evClear w n) => if w = wq ∧ n.toNat < 32 then some (.clear n.toNat) else none
  | .irq _ (.evRaise i n) => if i = e ∧ n.toNat < 32 then some (.raise n.toNat) else none
  | .tick _ => some .tick
  | .sched _ => some .sched
  | _ => none

section
variable [Config] {i : Nat} {F : Nat → Frame} {a b : Word} {ev : Event}

namespace Kernel

/-- What a step does with the events of set `e`; `F` and `F'` are the frames the threads resume
with before and after it. -/
structure Delivers (wq e : Nat) (ask : Ask) (who : Nat) (k k' : Kernel) (F F' : Nat → Frame) :
    Prop where
  returns : ∀ t v, Ends wq (ask == .wait) who k.q k'.q F' t v →
    (v.toNat < 32 ∧ (k'.evMask e).getLsbD v.toNat = true) ∨ (v = ETIMEDOUT ∧ ask = .tick)
  raised : ∀ n, ask = .raise n →
    ((∃! t, Ends wq (ask == .wait) who k.q k'.q F' t (BitVec.ofNat 32 n)) ∧
      (k'.evPend e).getLsbD n = false) ∨
    ((∀ t v, ¬ Ends wq (ask == .wait) who k.q k'.q F' t v) ∧ (k'.evPend e).getLsbD n = true)
  pending : ∀ n < 32, (k.evPend e).getLsbD n = true → (k'.evPend e).getLsbD n = false →
    (∃! t, Ends wq (ask == .wait) who k.q k'.q F' t (BitVec.ofNat 32 n)) ∨ ask = .clear n
  kept : ∀ t < threadsMax, t ≠ who → k.q.thStat t / 2 ≠ wq → F' t = F t

/-- The invariant of the runs on event set `e`. -/
structure Attends (wq : Word) (e : Nat) (k : Kernel) (F : Nat → Frame) : Prop
    extends Tended wq.toNat true k F where
  idx : k.evIdx wq = some e
  clear : ∀ t < threadsMax, k.q.mem wq.toNat t = true → k.evPend e &&& k.evMask e = 0

/-! ## Steps that end no wait, and steps that end one -/

section
variable {wq e self : Nat} {ask : Ask} {k k' : Kernel} {F' : Nat → Frame}

theorem Delivers.of_none (hno : ∀ t v, ¬ Ends wq (ask == .wait) self k.q k'.q F' t v)
    (hraise : ∀ n, ask = .raise n → (k'.evPend e).getLsbD n = true)
    (hpend : ∀ n < 32, (k.evPend e).getLsbD n = true → (k'.evPend e).getLsbD n = false →
      ask = .clear n) (hkept : ∀ t < threadsMax, t ≠ self → k.q.thStat t / 2 ≠ wq → F' t = F t) :
    Delivers wq e ask self k k' F F' where
  returns := fun t v h => absurd h (hno t v)
  raised := fun n hn => .inr ⟨hno, hraise n hn⟩
  pending := fun n hn hp hp' => .inr (hpend n hn hp hp')
  kept := hkept

/-- Event `n` goes to thread `th`. -/
theorem Delivers.of_one (th : Nat) {n : Nat} (hn : n < 32)
    (hends : ∀ t v, Ends wq (ask == .wait) self k.q k'.q F' t v ↔ t = th ∧ v = BitVec.ofNat 32 n)
    (hmask : (k'.evMask e).getLsbD n = true) (hpend : (k'.evPend e).getLsbD n = false)
    (hraise : ∀ m, ask = .raise m → m = n)
    (hrest : ∀ m < 32, m ≠ n → (k.evPend e).getLsbD m = true → (k'.evPend e).getLsbD m = true)
    (hkept : ∀ t < threadsMax, t ≠ self → k.q.thStat t / 2 ≠ wq → F' t = F t) :
    Delivers wq e ask self k k' F F' := by
  have hone : ∃! t, Ends wq (ask == .wait) self k.q k'.q F' t (BitVec.ofNat 32 n) :=
    ⟨th, (hends _ _).mpr ⟨rfl, rfl⟩, fun t ht => ((hends _ _).mp ht).1⟩
  constructor
  · intro t v h
    obtain ⟨-, rfl⟩ := (hends t v).mp h
    rw [toNat_ofNat, Nat.mod_eq_of_lt (by omega)]
    exact .inl ⟨hn, hmask⟩
  · intro m hm
    obtain rfl := hraise m hm
    exact .inl ⟨hone, hpend⟩
  · intro m hm hp hp'
    by_cases he : m = n
    · exact .inl (he ▸ hone)
    · rw [hrest m hm he hp] at hp'
      cases hp'
  · exact hkept

end

/-! ## The words of the set -/

section
variable {e : Nat} {k : Kernel} {ev : Word} {w : Word}

section
variable (hi : i < 2 * eventMax) (hev : ev.toNat < 32)
include hi hev

theorem evOff_eq : evOff i ev / 32 = i ∧ evOff i ev % 32 = ev.toNat := by
  have hfits := Config.wqLst_fits
  unfold evOff
  omega

theorem evBitWr_eq {v : Bool} : k.evBitWr i ev v = k.setEvWord i (setBit (k.ev i) ev.toNat v) := by
  obtain ⟨hdiv, hmod⟩ := evOff_eq hi hev
  unfold evBitWr setEvWord Bitmap.wr
  rw [if_pos (by omega), hdiv, hmod]

theorem rd_evOff : k.ev.rd (evOff i ev) = (k.ev i).getLsbD ev.toNat := by
  obtain ⟨hdiv, hmod⟩ := evOff_eq hi hev
  rw [Bitmap.rd, hdiv, hmod]

end

omit [Config]

@[simp] theorem evPend_setPend : (k.setEvWord (2 * e) w).evPend e = w :=
  update_self ..

@[simp] theorem evMask_setPend : (k.setEvWord (2 * e) w).evMask e = k.evMask e :=
  update_of_ne (by omega) ..

@[simp] theorem evPend_setMask : (k.setEvWord (2 * e + 1) w).evPend e = k.evPend e :=
  update_of_ne (by omega) ..

@[simp] theorem evMask_setMask : (k.setEvWord (2 * e + 1) w).evMask e = w :=
  update_self ..

end

/-! ## What the services do -/

/-- A service keeps the invariant and delivers. -/
def Acts (wq : Word) (e : Nat) (ask : Ask) (self : Nat) (k k' : Kernel) : Prop :=
  Attends wq e k' k'.frame ∧ Delivers wq.toNat e ask self k k' k.frame k'.frame

section
variable {wq : Word} {e self : Nat} {ask : Ask} {k k' : Kernel}

theorem Attends.set (h : Attends wq e k F) :
    Queues.IsObj wq.toNat ∧ wq.toNat = eventBase + e ∧ e < eventMax := by
  obtain ⟨hw, he, -⟩ := evIdx_eq_some h.idx
  exact ⟨hw ▸ isObj_event he, hw, he⟩

section
variable (h : Attends wq e k k.frame) {n : Word}
include h

theorem acts_store (ev : Bitmap) (hask : ask ≠ .wait)
    (hclear : ∀ t < threadsMax, k.q.mem wq.toNat t = true → ev (2 * e) &&& ev (2 * e + 1) = 0)
    (hraise : ∀ n, ask = .raise n → (ev (2 * e)).getLsbD n = true)
    (hpend : ∀ n < 32, (k.evPend e).getLsbD n = true → (ev (2 * e)).getLsbD n = false →
      ask = .clear n) : Acts wq e ask self k { k with ev := ev } := by
  have hcall : (ask == .wait) = false := by simpa using hask
  refine ⟨⟨⟨h.saved, h.late⟩, h.idx, hclear⟩,
    .of_none (fun t v => ?_) hraise hpend fun _ _ _ _ => rfl⟩
  rw [hcall]
  exact not_ends_same rfl

omit h in
/-- Event `n` goes to the first thread of the queue; `k0` is the state before the stores into the
set. -/
theorem acts_wake (k0 : Kernel) (h : Attends wq e k k.frame) (ho : Settled wq.toNat k)
    (hq : k.q = k0.q) (hf : k.frame = k0.frame) (hn : n.toNat < 32) (hask : ask ≠ .wait)
    (hne : k.q.wqHead wq.toNat ≠ threadNull) (hmask : (k.evMask e).getLsbD n.toNat = true)
    (hraise : ∀ m, ask = .raise m → m = n.toNat)
    (hrest : ∀ m < 32, m ≠ n.toNat → (k0.evPend e).getLsbD m = true →
      (k.evPend e).getLsbD m = true) :
    Acts wq e ask self k0 (k.wakeupReturn wq.toNat (k.q.wqHead wq.toNat) n) := by
  obtain ⟨hlt, hm, -⟩ := ho.head hne
  have hclear := h.clear _ hlt hm
  obtain ⟨ht, hends, hkept⟩ := h.toTended.woken ho h.set.1 hne
    (fun ha => ha ▸ h.saved rfl _ hlt hm ha) n self
  have hoff : (k.evPend e).getLsbD n.toNat = false := by
    have hb := congrArg (fun w => w.getLsbD n.toNat) hclear
    simp only [getLsbD_and, hmask, Bool.and_true] at hb
    simpa using hb
  refine ⟨⟨ht, h.idx, fun _ _ _ => hclear⟩, .of_one (k.q.wqHead wq.toNat) hn (fun t v => ?_) hmask hoff
    hraise hrest fun t _ _ hs => ?_⟩
  · have hcall : (ask == .wait) = false := by simpa using hask
    rw [hcall, ← hq, hends, ofNat_toNat, setWidth_eq]
  · rw [hkept t (hq ▸ hs), hf]

theorem Attends.arg0 (ha : self = k.active) (hs : k.q.thStat self / 2 ≠ wq.toNat) (v : Word) :
    Attends wq e (k.arg0 self v) (k.arg0 self v).frame :=
  ⟨h.toTended.arg0 ha hs v, h.idx, h.clear⟩

omit h in
theorem Acts.of_arg0 {v : Word} (ha : self = k.active) (h : Acts wq e ask self (k.arg0 self v) k') :
    Acts wq e ask self k k' := by
  refine ⟨h.1, h.2.returns, h.2.raised, h.2.pending, fun t ht hne hs => ?_⟩
  rw [h.2.kept t ht hne hs, frame_arg0 ha, if_neg hne]

omit h in
theorem Acts.deferSched (h : Acts wq e ask self k k') : Acts wq e ask self k k'.deferSched :=
  ⟨⟨⟨h.1.saved, h.1.late⟩, h.1.idx, h.1.clear⟩, h.2.returns, h.2.raised, h.2.pending, h.2.kept⟩

omit h in
theorem Acts.preempt (h : Acts wq e ask self k k') : Acts wq e ask self k k'.preempt := by
  unfold Kernel.preempt
  split
  · exact h.deferSched
  · exact h

omit h in
omit [Config] in
theorem and_eq_zero_of_bits (h : ∀ i < 32, a.getLsbD i = true → b.getLsbD i = false) :
    a &&& b = 0 := by
  apply eq_of_getLsbD_eq
  intro i hi
  rw [getLsbD_and]
  cases ha : a.getLsbD i with
  | false => simp
  | true => simp [h i hi ha]

omit h in
omit [Config] in
theorem bits_of_and_eq_zero (h : a &&& b = 0) (ha : a.getLsbD i = true) : b.getLsbD i = false := by
  have hb := congrArg (fun w => w.getLsbD i) h
  simpa [ha] using hb

theorem acts_raise (ho : Settled wq.toNat k) (hn : n.toNat < 32) :
    Acts wq e (.raise n.toNat) self k (k.evRaiseI wq.toNat n) := by
  obtain ⟨-, hwq, he⟩ := h.set
  -- the event stays pending
  have hstore (hc : ∀ t < threadsMax, k.q.mem wq.toNat t = true → (k.evMask e).getLsbD n.toNat = false) :
      Acts wq e (.raise n.toNat) self k (k.evBitWr (2 * e) n true) := by
    rw [evBitWr_eq (by omega) hn]
    refine acts_store h _ (by simp) (fun t ht hm => ?_) (fun m hm => ?_) fun m hm hp hp' => ?_
    · refine and_eq_zero_of_bits fun i hi hb => ?_
      rw [update_self, getLsbD_setBit hi] at hb
      rw [update_of_ne (by omega)]
      split at hb
      · rename_i he
        exact he ▸ hc t ht hm
      · exact bits_of_and_eq_zero (h.clear t ht hm) hb
    · cases hm
      rw [update_self, getLsbD_setBit hn, if_pos rfl]
    · rw [update_self, getLsbD_setBit hm] at hp'
      split at hp'
      · cases hp'
      · exact absurd (hp.symm.trans hp') (by simp)
  simp only [evRaiseI, show wq.toNat - eventBase = e by omega]
  rw [rd_evOff (by omega) hn]
  by_cases hm : (k.ev (2 * e + 1)).getLsbD n.toNat = false
  · rw [if_pos hm]
    exact hstore fun _ _ _ => hm
  · rw [if_neg hm]
    by_cases hnull : k.q.wqHead wq.toNat = threadNull
    · rw [if_pos hnull]
      refine hstore fun t ht hmt => ?_
      rw [k.q.wqHead_eq_null hnull (Nat.lt_of_lt_of_le ht threadsMax_le)] at hmt
      cases hmt
    · rw [if_neg hnull]
      exact acts_wake k h ho rfl rfl hn (by simp) hnull (eq_true_of_ne_false hm) (fun m hm => by cases hm; rfl)
        fun _ _ _ hp => hp

theorem Attends.pendOff (ev : Bitmap) (hpend : ev (2 * e) = setBit (k.evPend e) n.toNat false)
    (hmask : ∀ i < 32, i ≠ n.toNat → (ev (2 * e + 1)).getLsbD i = (k.evMask e).getLsbD i) :
    Attends wq e { k with ev := ev } ({ k with ev := ev } : Kernel).frame := by
  refine ⟨⟨h.saved, h.late⟩, h.idx, fun t ht hm =>
    and_eq_zero_of_bits fun i hi hb => ?_⟩
  rw [show ({ k with ev := ev } : Kernel).evPend e = _ from hpend, getLsbD_setBit hi] at hb
  split at hb
  · cases hb
  · rename_i hne
    rw [show ({ k with ev := ev } : Kernel).evMask e = ev (2 * e + 1) from rfl,
      hmask i hi (Ne.symm hne)]
    exact bits_of_and_eq_zero (h.clear t ht hm) hb

theorem acts_clear (hn : n.toNat < 32) :
    Acts wq e (.clear n.toNat) self k (k.evBitWr (2 * e) n false) := by
  obtain ⟨-, hwq, he⟩ := h.set
  rw [evBitWr_eq (by omega) hn]
  have hat := h.pendOff (n := n) (update k.ev (2 * e) (setBit (k.ev (2 * e)) n.toNat false))
    (update_self ..) fun i hi _ => by rw [update_of_ne (by omega)]; rfl
  refine ⟨hat, .of_none (fun t v => not_ends_same rfl) (fun _ hm => nomatch hm)
    (fun m hm hp hp' => ?_) fun _ _ _ _ => rfl⟩
  rw [evPend_setPend, getLsbD_setBit hm] at hp'
  split at hp'
  · rename_i he
    rw [he]
  · exact absurd (hp.symm.trans hp') (by simp)

theorem acts_mask (ho : Settled wq.toNat k) (ha : self = k.active)
    (hs : k.q.thStat self / 2 ≠ wq.toNat) (hn : n.toNat < 32) (val : Word) :
    Acts wq e .mask self k (k.evMaskSvc self wq n val) := by
  obtain ⟨-, hwq, he⟩ := h.set
  have hlt : evOff (2 * e) n < 64 * eventMax := by
    unfold evOff
    omega
  have hshl : evShl n = 1#32 <<< n.toNat := by
    unfold evShl
    rw [Nat.mod_eq_of_lt (by omega)]
  simp only [evMaskSvc, h.idx]
  apply Acts.of_arg0 (v := 0) ha
  replace h := h.arg0 ha hs 0
  replace ho : Settled wq.toNat (k.arg0 self 0) := ho.congr rfl rfl rfl rfl
  generalize k.arg0 self 0 = k at h ho ⊢
  -- a store into the mask word
  have hstore (w : Word) (hc : ∀ t < threadsMax, k.q.mem wq.toNat t = true → k.evPend e &&& w = 0) :
      Acts wq e .mask self k (k.setEvWord (2 * e + 1) w) := by
    refine acts_store h _ (by simp) (fun t ht hm => ?_) (fun _ hm => nomatch hm) fun m hm hp hp' => ?_
    · rw [update_self, update_of_ne (by omega)]
      exact hc t ht hm
    · rw [update_of_ne (by omega)] at hp'
      exact absurd (hp.symm.trans hp') (by simp)
  -- setting a mask bit is harmless unless its event is pending and somebody waits
  have hset (w : Word) (hw : ∀ i < 32, i ≠ n.toNat → w.getLsbD i = (k.evMask e).getLsbD i)
      (hc : ∀ t < threadsMax, k.q.mem wq.toNat t = true → (k.evPend e).getLsbD n.toNat = false) :
      Acts wq e .mask self k (k.setEvWord (2 * e + 1) w) := by
    refine hstore w fun t ht hm => and_eq_zero_of_bits fun i hi hb => ?_
    by_cases hin : i = n.toNat
    · rw [hin, hc t ht hm] at hb
      cases hb
    · rw [hw i hi hin]
      exact bits_of_and_eq_zero (h.clear t ht hm) hb
  by_cases hv : val = 0
  · rw [if_pos hv, evBitWr_eq (by omega) hn]
    refine hstore _ fun t ht hm => and_eq_zero_of_bits fun i hi hb => ?_
    rw [getLsbD_setBit hi]
    split
    · rfl
    · exact bits_of_and_eq_zero (h.clear t ht hm) hb
  · rw [if_neg hv]
    by_cases hbit : k.evMask e &&& evShl n ≠ 0
    · rw [if_pos hbit]
      exact acts_store h k.ev (by simp) h.clear (fun _ hm => nomatch hm) fun m _ hp hp' =>
        absurd (hp.symm.trans hp') (by simp)
    · rw [if_neg hbit, if_neg (not_not.mpr hlt), rd_evOff (by omega) hn]
      by_cases hpend : (k.ev (2 * e)).getLsbD n.toNat = false
      · rw [if_pos hpend]
        refine hset _ (fun i hi hne => ?_) fun _ _ _ => hpend
        rw [hshl, getLsbD_or, getLsbD_one_shiftLeft]
        simp [hne]
      · rw [if_neg hpend]
        by_cases hnull : k.q.wqHead wq.toNat = threadNull
        · rw [if_pos hnull, evBitWr_eq (by omega) hn]
          refine hset _ (fun i hi hne => ?_) fun t ht hmt => ?_
          · rw [getLsbD_setBit hi, if_neg (Ne.symm hne)]
            rfl
          · rw [k.q.wqHead_eq_null hnull (Nat.lt_of_lt_of_le ht threadsMax_le)] at hmt
            cases hmt
        · rw [if_neg hnull, evBitWr_eq (by omega) hn, evBitWr_eq (by omega) hn]
          rw [show (k.setEvWord (2 * e) _).ev (2 * e + 1) = k.ev (2 * e + 1) from
            update_of_ne (by omega) ..]
          obtain ⟨k2, hk2⟩ : ∃ k2, k2 = (k.setEvWord (2 * e) (setBit (k.ev (2 * e)) n.toNat
            false)).setEvWord (2 * e + 1) (setBit (k.ev (2 * e + 1)) n.toNat true) := ⟨_, rfl⟩
          have hpend2 : k2.evPend e = setBit (k.evPend e) n.toNat false := by
            rw [hk2, evPend_setMask, evPend_setPend]
            rfl
          have hmask2 : k2.evMask e = setBit (k.evMask e) n.toNat true := by
            rw [hk2, evMask_setMask]
            rfl
          have hk : k2 = { k with ev := k2.ev } := by
            rw [hk2]
            rfl
          have hat : Attends wq e k2 k2.frame := by
            rw [hk]
            refine h.pendOff k2.ev hpend2 fun i hi hne => ?_
            rw [show k2.ev (2 * e + 1) = _ from hmask2, getLsbD_setBit hi, if_neg (Ne.symm hne)]
          have hq : k2.q = k.q := by rw [hk]
          have ho2 : Settled wq.toNat k2 := by
            rw [hk]
            exact ho.congr rfl rfl rfl rfl
          rw [← hk2, ← hq]
          apply Acts.deferSched
          refine acts_wake k hat ho2 hq (by rw [hk]; rfl) hn ?_ (hq ▸ hnull) ?_ ?_ fun m hm hne hp => ?_
          · simp
          · rw [hmask2, getLsbD_setBit hn, if_pos rfl]
          · exact fun _ hm => nomatch hm
          · rw [hpend2, getLsbD_setBit hm, if_neg (Ne.symm hne)]
            exact hp

/-- `ev_wait` and `ev_timedwait`: take an event or block. -/
theorem acts_wait (ha : self = k.active) (hst : k.q.thStat self / 2 ≠ wq.toNat)
    (hs : self < threadsMax) (ms : Option Word) : Acts wq e .wait self k
      (if lowBit (k.evPend e &&& k.evMask e) < 32 then
        (k.setEvWord (2 * e) (k.evPend e &&&
          ~~~(1#32 <<< lowBit (k.evPend e &&& k.evMask e)))).arg0 self
            (BitVec.ofNat 32 (lowBit (k.evPend e &&& k.evMask e)))
      else k.waitBlock self wq.toNat true ms) := by
  split
  · rename_i hn
    have hbit := getLsbD_lowBit hn
    generalize hl : lowBit (k.evPend e &&& k.evMask e) = n at *
    rw [getLsbD_and, Bool.and_eq_true] at hbit
    -- nobody waits while an event can be taken
    have hnone : ∀ t < threadsMax, k.q.mem wq.toNat t ≠ true := fun t ht hm => by
      rw [bits_of_and_eq_zero (h.clear t ht hm) hbit.1] at hbit
      cases hbit.2
    have hat : Attends wq e (k.setEvWord (2 * e) (k.evPend e &&& ~~~(1#32 <<< n)))
        (k.setEvWord (2 * e) (k.evPend e &&& ~~~(1#32 <<< n))).frame :=
      ⟨⟨h.saved, h.late⟩, h.idx, fun t ht hm => absurd hm (hnone t ht)⟩
    have hframe := frame_arg0 (k := k.setEvWord (2 * e) (k.evPend e &&& ~~~(1#32 <<< n)))
      (v := BitVec.ofNat 32 n) ha
    have hpend : ∀ m < 32, (k.evPend e &&& ~~~(1#32 <<< n)).getLsbD m =
        ((k.evPend e).getLsbD m && decide (m ≠ n)) := by
      intro m hm
      rw [getLsbD_and, getLsbD_not, getLsbD_one_shiftLeft]
      simp [hm]
    refine ⟨hat.arg0 ha hst _, .of_one self hn (fun t v => ?_) ?_ ?_ (fun _ hm => nomatch hm)
      (fun m hm hne hb => ?_) fun t _ hne _ => ?_⟩
    · refine (ends_taken_iff hs hst rfl).trans ?_
      rw [hframe, if_pos rfl]
    · exact (congrArg (fun w => w.getLsbD n) evMask_setPend).trans hbit.2
    · refine (congrArg (fun w => w.getLsbD n) evPend_setPend).trans ?_
      simp [hpend n hn]
    · refine (congrArg (fun w => w.getLsbD m) evPend_setPend).trans ?_
      simp [hpend m hm, hb, hne]
    · rw [hframe, if_neg hne]
      rfl
  · rename_i hn
    have hzero : k.evPend e &&& k.evMask e = 0 :=
      (lowBit_eq_width_iff _).mp (by have := lowBit_le (k.evPend e &&& k.evMask e); omega)
    have hev : (k.waitBlock self wq.toNat true ms).ev = k.ev := by cases ms <;> rfl
    have hpend : (k.waitBlock self wq.toNat true ms).evPend e = k.evPend e := congrFun hev _
    have hmask : (k.waitBlock self wq.toNat true ms).evMask e = k.evMask e := congrFun hev _
    have halloc : (k.waitBlock self wq.toNat true ms).evAlloc = k.evAlloc := by cases ms <;> rfl
    obtain ⟨ht, hends, hkept⟩ := h.toTended.blocked h.set.1 ha hs ms
    refine ⟨⟨ht, ?_, fun _ _ _ => ?_⟩, .of_none hends (fun _ hm => nomatch hm) (fun n _ hb hb' => ?_)
      fun t _ hne _ => hkept t hne⟩
    · unfold evIdx
      rw [halloc]
      exact h.idx
    · rw [hpend, hmask]
      exact hzero
    · rw [hpend] at hb'
      exact absurd (hb.symm.trans hb') (by simp)

end

/-! ## Steps and runs -/

theorem Attends.excEnter (h : Attends wq e k k.resumeFrame) (ho : Settled wq.toNat k) (sp : Nat) :
    Attends wq e (k.excEnter sp) (k.excEnter sp).frame := by
  refine ⟨h.toTended.excEnter ho sp, ?_, ?_⟩ <;> rw [excEnter_eq]
  · exact h.idx
  · exact h.clear

theorem Attends.excLeave (h : Attends wq e k k.frame) :
    Attends wq e k.excLeave k.excLeave.resumeFrame := by
  refine ⟨h.toTended.excLeave, ?_, ?_⟩ <;> rw [excLeave_eq]
  · exact h.idx
  · exact h.clear

theorem acts_systick (h : Attends wq e k k.frame) (ho : Settled wq.toNat k) :
    Acts wq e .tick self k k.systick := by
  obtain ⟨ht, hends⟩ := h.toTended.systick ho h.set.1 self
  refine ⟨⟨ht, ?_, fun t ht hm => ?_⟩, fun t v he => .inr ⟨hends t v he, rfl⟩,
    (fun _ hm => nomatch hm), fun n _ hb hb' => ?_, fun t _ _ _ => by rw [frame_systick]⟩
  · rw [systick_eq]
    exact h.idx
  · rw [systick_eq]
    exact h.clear t ht ((ho.systick_wakes (clock_lt_obj h.set.1)
      (Nat.lt_of_lt_of_le ht threadsMax_le)).1 hm)
  · rw [systick_eq] at hb'
    exact absurd (hb.symm.trans hb') (by simp)

theorem Acts.leave (h : Acts wq e ask self k k') {k0 : Kernel} (hq : k.q = k0.q)
    (hev : k.ev = k0.ev) (hf : ∀ t, t ≠ self → k.frame t = F t) :
    Attends wq e k'.excLeave k'.excLeave.resumeFrame ∧
      Delivers wq.toNat e ask self k0 k'.excLeave F k'.excLeave.resumeFrame := by
  refine ⟨h.1.excLeave, ?_⟩
  have hd := h.2
  have hpend : k.evPend e = k0.evPend e := congrFun hev _
  rw [resumeFrame_excLeave, excLeave_eq]
  constructor
  · rw [← hq]
    exact hd.returns
  · rw [← hq]
    exact hd.raised
  · rw [← hq, ← hpend]
    exact hd.pending
  · intro t ht hne hs
    rw [hd.kept t ht hne (hq ▸ hs), hf t hne]

theorem Attends.svc {sp : Nat} {c : Call} (h : Attends wq e k k.resumeFrame)
    (ho : Settled wq.toNat k) (hask : (Event.svc sp c).onSet wq e = some ask) (hm : k.MayCall c) :
    Attends wq e (k.svc sp c) (k.svc sp c).resumeFrame ∧
      Delivers wq.toNat e ask k.active k (k.svc sp c) k.resumeFrame (k.svc sp c).resumeFrame := by
  have hat : Attends wq e (k.svcEntry sp c) (k.svcEntry sp c).frame :=
    ⟨h.toTended.svcEntry ho hm, h.idx, h.clear⟩
  have hs := hm.1
  have hst : (k.svcEntry sp c).q.thStat k.active / 2 ≠ wq.toNat := ho.running hs hm.2.1
  replace ho : Settled wq.toNat (k.svcEntry sp c) := ho.congr rfl rfl rfl rfl
  rw [svc_eq]
  refine Acts.leave (k := k.svcEntry sp c) ?_ rfl rfl fun t ht =>
    frame_svcEntry.trans (if_neg ht)
  have ha : k.active = (k.svcEntry sp c).active := rfl
  generalize k.svcEntry sp c = k1 at *
  cases c with
  | evWait w =>
    obtain ⟨rfl, ⟨⟩⟩ := ite_none_right_eq_some.mp hask
    simp only [svcIsr, evWaitSvc, hat.idx]
    exact acts_wait hat ha hst hs none
  | evTimedwait w ms =>
    obtain ⟨rfl, ⟨⟩⟩ := ite_none_right_eq_some.mp hask
    simp only [svcIsr, evTimedwaitSvc, hat.idx]
    exact acts_wait hat ha hst hs (some ms)
  | evRaise w n =>
    obtain ⟨⟨rfl, hn⟩, ⟨⟩⟩ := ite_none_right_eq_some.mp hask
    simp only [svcIsr, evRaiseSvc, hat.idx]
    rw [if_neg (by omega)]
    exact (Acts.of_arg0 ha (acts_raise (hat.arg0 ha hst 0) (ho.congr rfl rfl rfl rfl) hn)).deferSched
  | evMask w n val =>
    obtain ⟨⟨rfl, hn⟩, ⟨⟩⟩ := ite_none_right_eq_some.mp hask
    exact acts_mask hat ho ha hst hn val
  | evClear w n =>
    obtain ⟨⟨rfl, hn⟩, ⟨⟩⟩ := ite_none_right_eq_some.mp hask
    simp only [svcIsr, evClearSvc, hat.idx]
    exact Acts.of_arg0 ha (acts_clear (hat.arg0 ha hst 0) hn)
  | _ => cases hask

theorem Attends.step (h : Attends wq e k k.resumeFrame) (ho : Settled wq.toNat k)
    (ho' : Settled wq.toNat k') (hask : ev.onSet wq e = some ask)
    (hs : kernel.step k ev = some k') : Attends wq e k' k'.resumeFrame ∧
      Delivers wq.toNat e ask (k.caller ev) k k' k.resumeFrame k'.resumeFrame := by
  obtain ⟨hobj, hwq, -⟩ := h.set
  cases ev with
  | svc sp c =>
    obtain ⟨-, hm, rfl⟩ := step_svc hs
    exact h.svc ho hask hm
  | tick sp =>
    obtain ⟨-, rfl⟩ := step_tick hs
    cases hask
    exact Acts.leave (acts_systick (h.excEnter ho sp) (ho.excEnter sp)) (q_excEnter k sp) (by rw [excEnter_eq])
      fun t _ => congrFun frame_excEnter t
  | irq sp op =>
    obtain ⟨-, -, rfl⟩ := step_irq hs
    cases op with
    | evRaise i n =>
      obtain ⟨⟨rfl, hn⟩, ⟨⟩⟩ := ite_none_right_eq_some.mp hask
      refine Acts.leave (k := k.excEnter sp) ?_ (q_excEnter k sp) (by rw [excEnter_eq])
        fun t _ => congrFun frame_excEnter t
      simp only [irqIsr, evRaiseIsr, ← hwq]
      exact (acts_raise (h.excEnter ho sp) (ho.excEnter sp) hn).preempt
    | _ => cases hask
  | sched sp =>
    obtain ⟨-, rfl⟩ := step_sched hs
    cases hask
    have hat := h.excEnter ho sp
    have hframe : (k.excEnter sp).pendsvIsr.resumeFrame = k.resumeFrame := by
      rw [resumeFrame_pendsvIsr, frame_excEnter]
    have hq : (k.excEnter sp).pendsvIsr.q = k.q := q_excEnter k sp
    have hev : (k.excEnter sp).pendsvIsr.ev = k.ev := by
      show (k.excEnter sp).ev = k.ev
      rw [excEnter_eq]
    rw [hframe]
    refine ⟨⟨hframe ▸ hat.toTended.pendsvIsr ho', hat.idx, hat.clear⟩,
      .of_none (fun t v => not_ends_same (by rw [hq])) (fun _ hm => nomatch hm) (fun n _ hb hb' => ?_)
        fun _ _ _ _ => rfl⟩
    rw [evPend, hev] at hb'
    exact absurd (hb.symm.trans hb') (by simp)

/-- The calls on event sets are careful. -/
theorem Ordered.onSet (h : Ordered k) (hask : ev.onSet wq e = some ask)
    (hs : kernel.step k ev = some k') : Ordered k' := by
  refine h.step hs ?_ ?_
  · rintro sp c rfl
    cases c <;> first | cases hask | exact ⟨trivial, nofun⟩
  · rintro sp n rfl
    cases hask

/-- Where the runs start: nobody waits for the set. -/
structure Unattended (wq : Word) (e : Nat) (k : Kernel) : Prop extends Ordered k where
  idx : k.evIdx wq = some e
  stat : ∀ t < threadsMax, k.q.thStat t / 2 ≠ wq.toNat

/-- Events are neither lost nor duplicated. -/
theorem events_conserved {k0 : Kernel} (h0 : Unattended wq e k0)
    (hr : kernel.Run (fun _ ev => (ev.onSet wq e).isSome = true) k0 k) :
    (∀ t < threadsMax, k.q.mem wq.toNat t = true → k.evPend e &&& k.evMask e = 0 ∧ k.ctx t ≠ none) ∧
      ∀ ev ask k', ev.onSet wq e = some ask → kernel.step k ev = some k' →
        Delivers wq.toNat e ask (k.caller ev) k k' k.resumeFrame k'.resumeFrame := by
  have hobj : Queues.IsObj wq.toNat := by
    obtain ⟨hw, he, -⟩ := evIdx_eq_some h0.idx
    exact hw ▸ isObj_event he
  obtain ⟨hord, hat⟩ : Ordered k ∧ Attends wq e k k.resumeFrame := by
    refine hr.invariant (I := fun k => Ordered k ∧ Attends wq e k k.resumeFrame)
      (fun k ev k' h hask hs => ?_) ?_
    · obtain ⟨ask, hask⟩ := isSome_iff_exists.mp hask
      have ho' := h.1.onSet hask hs
      exact ⟨ho', (h.2.step (h.1.settled hobj) (ho'.settled hobj) hask hs).1⟩
    · have hset := h0.toOrdered.settled hobj
      have hno : ∀ t < threadsMax, k0.q.mem wq.toNat t ≠ true := fun t ht hm =>
        h0.stat t ht (hset.stat t ht hm)
      exact ⟨h0.toOrdered, ⟨fun _ t ht hm => absurd hm (hno t ht),
        fun t ht hs => absurd hs (by have := h0.stat t ht; omega)⟩, h0.idx,
        fun t ht hm => absurd hm (hno t ht)⟩
  have hset := hord.settled hobj
  refine ⟨fun t ht hm => ⟨hat.clear t ht hm, fun hn => ?_⟩, fun ev ask k' hask hs =>
    (hat.step hset ((hord.onSet hask hs).settled hobj) hask hs).2⟩
  have hend := obj_lt_end hobj
  rcases (hord.live.tidy.queued _ t hend.1 hend.2.1 ht hm).2 with hc | ⟨ha, -⟩
  · exact hc hn
  · rw [hat.saved rfl t ht hm ha] at hn
    cases hn

end

end Kernel

end

namespace Kernel

/-- Thread 0 waits, thread 1 raises event 5 and thread 0 resumes with it. -/
theorem events_conserved_raise : ∃ k0 k k', Unattended 27 0 k0 ∧
      kernel.Run (fun _ ev => (ev.onSet 27 0).isSome = true) k0 k ∧ k.q.mem 27 0 = true ∧
      kernel.step k (.svc 960 (.evRaise 27 5)) = some k' ∧
      Delivers 27 0 (.raise 5) 1 k k' k.resumeFrame k'.resumeFrame ∧
      (k'.resumeFrame 0).r0 = 5 := by
  obtain ⟨k0, hr0, hi, hidx, hstat, hx⟩ := System.exists_run_of_exec (M := kernel)
    (P := Kernel.Careful)
    (fun k => k.active ≤ threadIdle ∧ k.evIdx 27 = some 0 ∧
      (∀ t < threadsMax, k.q.thStat t / 2 ≠ 27) ∧
      (kernel.exec (fun _ ev => (ev.onSet 27 0).isSome = true) k [.svc 0 (.evWait 27), .sched 0]).any
        (fun k => decide (k.q.mem 27 0 = true ∧ k.active = 1 ∧
          (kernel.step k (.svc 960 (.evRaise 27 5))).any
            (fun k' => decide ((k'.resumeFrame 0).r0 = 5)) = true)) = true)
    [.svc 0 .evAlloc, .svc 0 (.threadCreate ⟨0, 1024, 256, 16, 2, false⟩), .sched 0]
    (Kernel.init 0 0 16 false) (by decide +kernel)
  obtain ⟨k, hr, hm, hact, hstep⟩ := System.exists_run_of_exec _ _ _ hx
  obtain ⟨k', hk', hres⟩ := (any_eq_true _ _).mp hstep
  have hlive := (Booted.live ⟨0, 0, 16, false, by decide, rfl⟩).run hr0
  have h0 : Unattended 27 0 k0 := ⟨⟨hlive, hi⟩, hidx, hstat⟩
  have hd := (events_conserved h0 hr).2 _ (.raise 5) k' rfl hk'
  refine ⟨k0, k, k', h0, hr, hm, hk', ?_, of_decide_eq_true hres⟩
  rw [show k.caller (.svc 960 (.evRaise 27 5)) = 1 from hact] at hd
  exact hd

end Kernel

end ThinkOS
