import ThinkOS.Kernel.Core

/-!
# What the calls on an event set reach

`ev_raise`, `ev_mask` and `ev_clear` write single bits through the bit-band alias. `ev_raise` takes
numbers up to 31 only; the other two take any number, and the bit they write may lie in the words of
another set or outside `ev[]`.

    a call changes its own set only  ↔  the bits it writes lie in the set's two words,
                                        or in those of another set with the value already there
-/

namespace ThinkOS

open Lib Queues Bitmap Option

namespace Kernel

/-- The calls that change an event set without waiting. -/
inductive EvCall
  | raise (ev : Word)
  | mask (ev val : Word)
  | clear (ev : Word)

section
variable [Config] {off : Nat} {v : Bool} {wq ev : Word}

def evCall (k : Kernel) (self : Nat) (wq : Word) : EvCall → Kernel
  | .raise ev => k.evRaiseSvc self wq ev
  | .mask ev val => k.evMaskSvc self wq ev val
  | .clear ev => k.evClearSvc self wq ev

/-- Between `k` and `k'` the set `e`, the threads that waited on it, the caller's result and the
request for the scheduler may differ, and nothing else. -/
structure OwnSet (e caller : Nat) (k k' : Kernel) : Prop where
  rest : k' = { k with ev := k'.ev, q := k'.q, stack := k'.stack, pendsv := k'.pendsv }
  words : ∀ i, i ≠ 2 * e → i ≠ 2 * e + 1 → k'.ev i = k.ev i
  others : ∀ w t, t < 32 → k.q.mem (eventBase + e) t = false → k'.q.mem w t = k.q.mem w t
  queues : ∀ w t, t < 32 → w ≠ eventBase + e → w ≠ wqReady → w ≠ wqClock →
    k'.q.mem w t = k.q.mem w t
  stat : ∀ t, k.q.mem (eventBase + e) t = false → k'.q.thStat t = k.q.thStat t
  frames : ∀ t p, t ≠ caller ∨ p ≠ k.psp → k.q.mem (eventBase + e) t = false →
    k'.stack t p = k.stack t p

/-- A refused call gives the error code and changes nothing; another one stays in its set. -/
def OwnOnly (self : Nat) (wq : Word) (k k' : Kernel) : Prop :=
  k' = k.arg0 self EINVAL ∨ ∃ e, wq.toNat = eventBase + e ∧ e < eventMax ∧ OwnSet e self k k'

/-- Bit `off` of `ev[]` belongs to the set `e`. -/
def InSet (e off : Nat) : Prop := 64 * e ≤ off ∧ off < 64 * e + 64

instance (e off : Nat) : Decidable (InSet e off) := inferInstanceAs (Decidable (_ ∧ _))

/-- A store of `v` to bit `off` leaves the other sets as they are. -/
def Harmless (k : Kernel) (e off : Nat) (v : Bool) : Prop :=
  InSet e off ∨ off < 64 * eventMax ∧ k.ev.rd off = v

/-- The first waiter's context pointer is there. -/
def HeadSaved (k : Kernel) (wq : Word) : Prop :=
  k.q.wqHead wq.toNat ≠ threadNull → k.ctx (k.q.wqHead wq.toNat) ≠ none

/-- The stores of a call on the set `e` are harmless. -/
def StaysIn (k : Kernel) (wq : Word) (e : Nat) : EvCall → Prop
  | .raise ev => ev.toNat ≤ 31 → k.ev.rd (evOff (2 * e + 1) ev) = true → k.HeadSaved wq
  | .clear ev => k.Harmless e (evOff (2 * e) ev) false
  | .mask ev val =>
    if val = 0 then k.Harmless e (evOff (2 * e + 1) ev) false
    else k.evMask e &&& evShl ev ≠ 0 ∨
      evOff (2 * e) ev < 64 * eventMax ∧ (k.ev.rd (evOff (2 * e) ev) = true →
        k.Harmless e (evOff (2 * e + 1) ev) true ∧
        (k.q.wqHead wq.toNat ≠ threadNull → InSet e (evOff (2 * e) ev) ∧ k.HeadSaved wq))

/-! ## Stores into the set -/

section
variable {e self : Nat} {k k1 : Kernel}

omit [Config] in
theorem word_ne_of_not_inSet (h : ¬ InSet e off) : off / 32 ≠ 2 * e ∧ off / 32 ≠ 2 * e + 1 := by
  unfold InSet at h
  omega

omit [Config] in
theorem word_of_inSet {i : Nat} (h : InSet e off) (h0 : i ≠ 2 * e) (h1 : i ≠ 2 * e + 1) :
    i ≠ off / 32 := by
  unfold InSet at h
  omega

theorem OwnSet.of_words
    (hrest : k1 = { k with ev := k1.ev, stack := k1.stack, pendsv := k1.pendsv })
    (hwords : ∀ i, i ≠ 2 * e → i ≠ 2 * e + 1 → k1.ev i = k.ev i)
    (hstack : k1.stack = (k.arg0 self 0).stack) : OwnSet e self k k1 := by
  have hq : k1.q = k.q := by rw [hrest]
  constructor
  · rw [hrest]
  · exact hwords
  · intro w t _ _
    rw [hq]
  · intro w t _ _ _ _
    rw [hq]
  · intro t _
    rw [hq]
  · intro t p h _
    rw [hstack]
    exact storeFrame_of_ne h

omit [Config] in
theorem wr_word_of_rd {b : Bitmap} (h : b.rd off = v) : b.wr off v = b := by
  apply ext_rd
  intro i
  rw [rd_wr]
  split
  · rw [← ‹off = i›, h]
  · rfl

theorem Harmless.words (h : k.Harmless e off v) (i : Nat) (h0 : i ≠ 2 * e) (h1 : i ≠ 2 * e + 1) :
    k.ev.wr off v i = k.ev i := by
  rcases h with h | ⟨-, h⟩
  · exact wr_word _ _ _ _ (word_of_inSet h h0 h1)
  · rw [wr_word_of_rd h]

theorem InSet.lt (he : e < eventMax) (h : InSet e off) : off < 64 * eventMax := by
  unfold InSet at h
  omega

theorem Harmless.lt (he : e < eventMax) (h : k.Harmless e off v) : off < 64 * eventMax := by
  rcases h with h | ⟨h, -⟩
  · exact h.lt he
  · exact h

/-- Waking the first waiter concerns the waiters only. -/
theorem OwnSet.wake {v : Word} (h : OwnSet e self k k1) (hq : k1.q = k.q) (he : e < eventMax)
    (hne : k.q.wqHead (eventBase + e) ≠ threadNull)
    (hctx : k.ctx (k.q.wqHead (eventBase + e)) ≠ none) :
    OwnSet e self k (k1.wakeupReturn (eventBase + e) (k.q.wqHead (eventBase + e)) v).deferSched := by
  obtain ⟨hlt, hmem⟩ := k.q.mem_wqHead hne
  generalize k.q.wqHead (eventBase + e) = th at *
  have hctx1 : k1.ctx = k.ctx := by rw [h.rest]
  have hfault : k1.fault = k.fault := by rw [h.rest]
  have hready : eventBase + e ≠ wqReady := by
    have := (isObj_event he).1
    unfold wqReady
    unfold mutexBase at this
    omega
  have hwait : ∀ t, k.q.mem (eventBase + e) t = false → t ≠ th := by
    rintro t hf rfl
    rw [hf] at hmem
    cases hmem
  constructor
  · have hnone : (k.ctx th).isNone = false := by
      cases hc : k.ctx th with
      | none => exact absurd hc hctx
      | some p => rfl
    have hf : (k1.wakeupReturn (eventBase + e) th v).deferSched.fault = k.fault := by
      show (k1.fault || (k1.ctx th).isNone) = k.fault
      rw [hctx1, hfault, hnone, Bool.or_false]
    rw [h.rest] at hf ⊢
    simp only [wakeupReturn, ctxR0, deferSched] at hf ⊢
    rw [hf]
  · exact h.words
  · intro w t ht hf
    show (k1.q.wakeup _ _).mem w t = _
    rw [hq, mem_wakeup hlt ht hready, if_neg (hwait t hf)]
  · intro w t ht hw hr hc
    show (k1.q.wakeup _ _).mem w t = _
    rw [hq, mem_wakeup hlt ht hready]
    split
    · simp [hw, hr, hc]
    · rfl
  · intro t hf
    show (k1.q.wakeup _ _).thStat t = _
    rw [hq, thStat_wakeup, if_neg (hwait t hf)]
  · intro t p hp hf
    refine (storeFrame_of_ne (.inl (hwait t hf))).trans ?_
    exact h.frames t p hp hf

/-! ## What a call that stays in its set shows about its stores -/

section
variable {k' : Kernel}

theorem OwnOnly.fault (h : OwnOnly self wq k k') : k'.fault = k.fault := by
  rcases h with rfl | ⟨_, -, -, h⟩
  · rfl
  · rw [h.rest]

theorem OwnOnly.rd (h : OwnOnly self wq k k') (hwq : wq.toNat = eventBase + e)
    (hoff : ¬ InSet e off) : k'.ev.rd off = k.ev.rd off := by
  rcases h with rfl | ⟨e', hwq', -, h⟩
  · rfl
  · obtain rfl : e' = e := by omega
    obtain ⟨h0, h1⟩ := word_ne_of_not_inSet hoff
    unfold Bitmap.rd
    rw [h.words _ h0 h1]

theorem OwnOnly.harmless (h : OwnOnly self wq k k') (hwq : wq.toNat = eventBase + e)
    (hf : k.fault = false) (hin : off < 64 * eventMax → k'.ev.rd off = v)
    (hout : ¬ off < 64 * eventMax → k'.fault = true) : k.Harmless e off v := by
  by_cases hs : InSet e off
  · exact .inl hs
  · by_cases hlt : off < 64 * eventMax
    · exact .inr ⟨hlt, (h.rd hwq hs).symm.trans (hin hlt)⟩
    · have := h.fault
      rw [hout hlt, hf] at this
      cases this

end

/-! ## The calls -/

theorem own_evBitWr_iff {i : Nat} (hf : k.fault = false) (hwq : wq.toNat = eventBase + e)
    (he : e < eventMax) :
    OwnOnly self wq k ((k.arg0 self 0).evBitWr i ev v) ↔ k.Harmless e (evOff i ev) v := by
  constructor
  · intro h
    refine h.harmless hwq hf (fun hlt => ?_) fun hge => ?_
    · rw [evBitWr, if_pos hlt]
      exact rd_wr.trans (if_pos rfl)
    · rw [evBitWr, if_neg hge]
  · intro h
    refine .inr ⟨e, hwq, he, .of_words ?_ ?_ ?_⟩
    · rw [evBitWr, if_pos (h.lt he)]
      rfl
    · rw [evBitWr, if_pos (h.lt he)]
      exact h.words
    · rw [evBitWr, if_pos (h.lt he)]

omit [Config] in
theorem evOff_succ_ne (i : Nat) (ev : Word) : evOff (i + 1) ev ≠ evOff i ev := by
  unfold evOff
  omega

/-- An unmasked pending event goes to a waiter: two stores and a wake-up. -/
theorem own_deliver_iff (hf : k.fault = false) (hwq : wq.toNat = eventBase + e)
    (he : e < eventMax) (hrd : k.ev.rd (evOff (2 * e) ev) = true)
    (hlt : evOff (2 * e) ev < 64 * eventMax) (hne : k.q.wqHead wq.toNat ≠ threadNull) :
    OwnOnly self wq k (((((k.arg0 self 0).evBitWr (2 * e) ev false).evBitWr (2 * e + 1) ev
      true).wakeupReturn wq.toNat (k.q.wqHead wq.toNat) ev).deferSched) ↔
    k.Harmless e (evOff (2 * e + 1) ev) true ∧ InSet e (evOff (2 * e) ev) ∧ k.HeadSaved wq := by
  have hoff := evOff_succ_ne (2 * e) ev
  constructor
  · intro h
    have hfault := h.fault.trans hf
    have hh : k.Harmless e (evOff (2 * e + 1) ev) true := by
      refine h.harmless hwq hf (fun hlt1 => ?_) fun hge => ?_
      · show Bitmap.rd (((k.arg0 self 0).evBitWr (2 * e) ev false).evBitWr (2 * e + 1) ev true).ev _ = _
        rw [evBitWr, if_pos hlt1]
        exact Bitmap.rd_wr.trans (if_pos rfl)
      · show (_ || _) = true
        rw [evBitWr, if_neg hge]
        rfl
    have hev : ((((k.arg0 self 0).evBitWr (2 * e) ev false).evBitWr (2 * e + 1) ev true)).ev =
        (k.ev.wr (evOff (2 * e) ev) false).wr (evOff (2 * e + 1) ev) true := by
      rw [evBitWr, if_pos (hh.lt he), evBitWr, if_pos hlt]
      rfl
    refine ⟨hh, ?_, fun _ hnone => ?_⟩
    · by_contra hs
      have hsame := h.rd hwq hs
      rw [hrd] at hsame
      have hnew : Bitmap.rd ((k.ev.wr (evOff (2 * e) ev) false).wr (evOff (2 * e + 1) ev) true)
          (evOff (2 * e) ev) = true := by
        rw [← hev]
        exact hsame
      rw [Bitmap.rd_wr, if_neg hoff, Bitmap.rd_wr, if_pos rfl] at hnew
      cases hnew
    · have hctx : ((((k.arg0 self 0).evBitWr (2 * e) ev false).evBitWr (2 * e + 1) ev true)).ctx = k.ctx := by
        rw [evBitWr, if_pos (hh.lt he), evBitWr, if_pos hlt]
        rfl
      have hset : (_ || Option.isNone (((((k.arg0 self 0).evBitWr (2 * e) ev false).evBitWr (2 * e + 1) ev
        true)).ctx (k.q.wqHead wq.toNat))) = false := hfault
      rw [hctx, hnone, Option.isNone_none, Bool.or_true] at hset
      cases hset
  · rintro ⟨hh, hs, hsaved⟩
    refine .inr ⟨e, hwq, he, ?_⟩
    have hctx := hsaved hne
    rw [evBitWr, if_pos (hh.lt he), evBitWr, if_pos hlt]
    rw [hwq] at hne hctx ⊢
    refine OwnSet.wake (.of_words rfl (fun i h0 h1 => ?_) rfl) rfl he hne hctx
    have hother : (evOff (2 * e) ev) / 32 ≠ i := fun hi => word_of_inSet hs h0 h1 hi.symm
    refine Eq.trans ?_ (Bitmap.wr_word k.ev (evOff (2 * e) ev) i false hother.symm)
    rcases hh with hin | ⟨-, hin⟩
    · exact Bitmap.wr_word _ _ _ _ (word_of_inSet hin h0 h1)
    · refine congrFun (wr_word_of_rd ?_) i
      rw [Bitmap.rd_wr, if_neg hoff.symm]
      exact hin

theorem inSet_evOff (he : e < eventMax) (hev : ev.toNat ≤ 31) : InSet e (evOff (2 * e) ev) := by
  have hfits := Config.wqLst_fits
  unfold InSet evOff
  omega

theorem own_raise_iff (hf : k.fault = false) (hwq : wq.toNat = eventBase + e) (he : e < eventMax)
    (hev : ev.toNat ≤ 31) : OwnOnly self wq k (((k.arg0 self 0).evRaiseI wq.toNat ev).deferSched) ↔
      (k.ev.rd (evOff (2 * e + 1) ev) = true → k.HeadSaved wq) := by
  have hno : wq.toNat - eventBase = e := by omega
  have hs : k.Harmless e (evOff (2 * e) ev) true := .inl (inSet_evOff he hev)
  have hpend : OwnOnly self wq k (((k.arg0 self 0).evBitWr (2 * e) ev true).deferSched) := by
    rw [evBitWr, if_pos (hs.lt he)]
    exact .inr ⟨e, hwq, he, .of_words rfl hs.words rfl⟩
  simp only [evRaiseI, hno]
  by_cases hm : (k.arg0 self 0).ev.rd (evOff (2 * e + 1) ev) = false
  · rw [if_pos hm]
    refine iff_of_true hpend fun h => ?_
    cases hm.symm.trans h
  · rw [if_neg hm]
    by_cases hne : (k.arg0 self 0).q.wqHead wq.toNat = threadNull
    · rw [if_pos hne]
      exact iff_of_true hpend fun _ h => absurd hne h
    · rw [if_neg hne]
      constructor
      · intro h _ _ hnone
        have hset : (k.fault || (k.ctx (k.q.wqHead wq.toNat)).isNone) = false := h.fault.trans hf
        rw [hnone, Option.isNone_none, Bool.or_true] at hset
        cases hset
      · intro h
        have hctx := h (eq_true_of_ne_false hm) hne
        refine .inr ⟨e, hwq, he, ?_⟩
        rw [hwq] at hne hctx ⊢
        exact .wake (.of_words rfl (fun _ _ _ => rfl) rfl) rfl he hne hctx

theorem own_mask_iff {val : Word} (hf : k.fault = false) (hidx : k.evIdx wq = some e) :
    OwnOnly self wq k (k.evMaskSvc self wq ev val) ↔ k.StaysIn wq e (.mask ev val) := by
  obtain ⟨hwq, he, -⟩ := evIdx_eq_some hidx
  have own {k' : Kernel} (hrest : k' = { k with ev := k'.ev, stack := k'.stack, pendsv := k'.pendsv })
      (hwords : ∀ i, i ≠ 2 * e → i ≠ 2 * e + 1 → k'.ev i = k.ev i)
      (hstack : k'.stack = (k.arg0 self 0).stack) : OwnOnly self wq k k' :=
    .inr ⟨e, hwq, he, .of_words hrest hwords hstack⟩
  simp only [evMaskSvc, hidx, StaysIn]
  by_cases hval : val = 0
  · rw [if_pos hval, if_pos hval]
    exact own_evBitWr_iff hf hwq he
  rw [if_neg hval, if_neg hval]
  by_cases hbit : (k.arg0 self 0).evMask e &&& evShl ev ≠ 0
  · rw [if_pos hbit]
    exact iff_of_true (own rfl (fun _ _ _ => rfl) rfl) (.inl hbit)
  rw [if_neg hbit]
  refine Iff.trans ?_ (or_iff_right hbit).symm
  by_cases hlt : evOff (2 * e) ev < 64 * eventMax
  · rw [if_neg (not_not_intro hlt)]
    by_cases hrd : (k.arg0 self 0).ev.rd (evOff (2 * e) ev) = false
    · rw [if_pos hrd]
      refine iff_of_true (own rfl (fun i _ h1 => Function.update_of_ne h1 _ _) rfl) ⟨hlt, fun h => ?_⟩
      cases hrd.symm.trans h
    · have hrd' : k.ev.rd (evOff (2 * e) ev) = true := eq_true_of_ne_false hrd
      rw [if_neg hrd]
      by_cases hne : (k.arg0 self 0).q.wqHead wq.toNat = threadNull
      · rw [if_pos hne, own_evBitWr_iff hf hwq he]
        exact ⟨fun h => ⟨hlt, fun _ => ⟨h, fun h' => absurd hne h'⟩⟩, fun h => (h.2 hrd').1⟩
      · rw [if_neg hne]
        refine (own_deliver_iff hf hwq he hrd' hlt hne).trans ?_
        exact ⟨fun h => ⟨hlt, fun _ => ⟨h.1, fun _ => h.2⟩⟩,
          fun h => ⟨(h.2 hrd').1, (h.2 hrd').2 hne⟩⟩
  · rw [if_pos hlt]
    refine iff_of_false (fun h => ?_) fun h => hlt h.1
    have hset : true = k.fault := h.fault
    rw [hf] at hset
    cases hset

/-- **The calls on an event set change their own set only** exactly when the bits they write lie in
the set's words, or hold the value already. -/
theorem ev_calls_own_set_iff (k : Kernel) (hf : k.fault = false) (self : Nat) (wq : Word) (c : EvCall) :
    OwnOnly self wq k (k.evCall self wq c) ↔ ∀ e, k.evIdx wq = some e → k.StaysIn wq e c := by
  cases hidx : k.evIdx wq with
  | none =>
    refine iff_of_true (.inl ?_) fun e h => by cases h
    cases c with
    | raise ev =>
      simp only [evCall, evRaiseSvc, hidx]
      split <;> rfl
    | mask ev val => simp only [evCall, evMaskSvc, hidx]
    | clear ev => simp only [evCall, evClearSvc, hidx]
  | some e =>
    obtain ⟨hwq, he, -⟩ := evIdx_eq_some hidx
    have hall : (∀ e', some e = some e' → k.StaysIn wq e' c) ↔ k.StaysIn wq e c :=
      ⟨fun h => h e rfl, fun h e' he' => some.inj he' ▸ h⟩
    rw [hall]
    cases c with
    | raise ev =>
      simp only [evCall, evRaiseSvc, hidx, StaysIn]
      by_cases hev : ev.toNat > 31
      · rw [if_pos hev]
        exact iff_of_true (.inl rfl) fun h => absurd h (by omega)
      · rw [if_neg hev, own_raise_iff hf hwq he (by omega)]
        simp [show ev.toNat ≤ 31 by omega]
    | mask ev val => exact own_mask_iff hf hidx
    | clear ev =>
      simp only [evCall, evClearSvc, hidx]
      exact own_evBitWr_iff hf hwq he

end

end

theorem ev_calls_own_set_clear :
    OwnOnly 0 (BitVec.ofNat 32 eventBase) ((Kernel.init 0 0 16#8 false).evAllocSvc 0)
      (((Kernel.init 0 0 16#8 false).evAllocSvc 0).evCall 0 (BitVec.ofNat 32 eventBase) (.clear 5)) := by
  refine (ev_calls_own_set_iff _ rfl 0 _ (.clear 5)).mpr fun e he => ?_
  obtain rfl : 0 = e := some.inj (.trans (by decide +kernel) he)
  exact .inl (by decide +kernel)

/-- With 64 for its event number, `ev_mask` on the first set clears a bit in the mask of the second. -/
theorem ev_mask_reaches_next_set :
    ¬ OwnOnly 0 (BitVec.ofNat 32 eventBase) ((Kernel.init 0 0 16#8 false).evAllocSvc 0)
      (((Kernel.init 0 0 16#8 false).evAllocSvc 0).evCall 0 (BitVec.ofNat 32 eventBase) (.mask 64 0)) := by
  intro h
  have hrd := h.rd (e := 0) (by decide +kernel) (show ¬ InSet 0 96 by decide)
  revert hrd
  decide +kernel

end Kernel

end ThinkOS
