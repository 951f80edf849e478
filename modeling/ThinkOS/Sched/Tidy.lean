import ThinkOS.Sched.Sane

/-!
# Tidy queues

`Tidy ok leaving` says that only threads of `ok` are queued, and that a thread is in no
queue that its status does not name: so a thread that leaves the queue of its status has
left them all. It is weaker than the partition (a canceled thread that was joined is
ready with the status it had), and in return it also holds while threads are created,
canceled, joined and terminated.
-/

namespace ThinkOS

open Lib Bool

section
variable [Config] {t : Nat} {b : Bool}

namespace Queues

/-- `ok` says which threads may be queued, `leaving` which ones resume in
`__thinkos_thread_exit`. -/
structure Tidy (q : Queues) (ok leaving : Nat → Prop) : Prop where
  queued : ∀ w t, w < wqLstEnd → w ≠ wqPaused → t < threadsMax → q.mem w t = true → ok t
  named : ∀ w t, w < wqLstEnd → w ≠ wqPaused → wqClock < w → t < threadsMax →
    q.mem w t = true → q.thStat t / 2 = w
  running : ∀ t, t < threadsMax → q.mem wqReady t = true ∨ q.mem wqTmshare t = true →
    q.thStat t = 0 ∨ q.thStat t = 2 * wqCanceled
  apart : ∀ t, t < threadsMax → q.thStat t = 0 → q.mem wqReady t = true → q.mem wqTmshare t = false
  timed : ∀ t, t < threadsMax → q.mem wqClock t = true → q.thStat t % 2 = 1
  leaves : ∀ t, t < threadsMax → q.thStat t = 2 * wqCanceled → leaving t

section
variable {q : Queues} {ok leaving : Nat → Prop} {q' : Queues} {th : Nat}

/-- Nothing changes for another thread. -/
structure Only (th : Nat) (q q' : Queues) : Prop where
  mem : ∀ w t, t < 32 → t ≠ th → q'.mem w t = q.mem w t
  thStat : ∀ t, t ≠ th → q'.thStat t = q.thStat t

omit [Config] in
theorem Only.refl (q : Queues) (th : Nat) : Only th q q := ⟨fun _ _ _ _ => rfl, fun _ _ => rfl⟩

omit [Config] in
theorem Only.bitWr (h : Only th q q') (hth : th < 32) (w : Nat) (v : Bool) :
    Only th q (q'.bitWr w th v) := by
  refine ⟨fun w' t ht hne => ?_, h.thStat⟩
  rw [mem_bitWr hth ht, if_neg (by tauto)]
  exact h.mem w' t ht hne

omit [Config] in
theorem Only.setStat (h : Only th q q') (s : Nat) : Only th q (q'.setStat th s) := by
  refine ⟨h.mem, fun t hne => ?_⟩
  rw [thStat_setStat, if_neg hne]
  exact h.thStat t hne

section
variable (h : q.Tidy ok leaving) {w : Nat}
include h

theorem Tidy.mono {ok' leaving' : Nat → Prop}
    (ho : ∀ t, t < threadsMax → (∃ w, w < wqLstEnd ∧ w ≠ wqPaused ∧ q.mem w t = true) → ok t → ok' t)
    (hl : ∀ t, t < threadsMax → q.thStat t = 2 * wqCanceled → leaving t → leaving' t) :
    q.Tidy ok' leaving' where
  queued := fun w t hw hp ht hm => ho t ht ⟨w, hw, hp, hm⟩ (h.queued w t hw hp ht hm)
  named := h.named
  running := h.running
  apart := h.apart
  timed := h.timed
  leaves := fun t ht hs => hl t ht hs (h.leaves t ht hs)

/-- A thread that is ready and not on its way out is in no other queue. -/
theorem Tidy.only_ready (ht : t < threadsMax) (hs : q.thStat t = 0) (hw : w < wqLstEnd)
    (hp : w ≠ wqPaused) (hc : wqClock ≤ w) : q.mem w t = false := by
  refine eq_false_iff.mpr fun hm => ?_
  by_cases he : w = wqClock
  · have := h.timed t ht (he ▸ hm)
    omega
  · have := h.named w t hw hp (by omega) ht hm
    rw [hs] at this
    omega

section
variable {th : Nat}

/-- Changes to one thread only: the new bits and the new status of that thread are as they
should be. -/
theorem Tidy.change (ho : Only th q q')
    (hq : ∀ w, w < wqLstEnd → w ≠ wqPaused → q'.mem w th = true → ok th)
    (hn : ∀ w, w < wqLstEnd → w ≠ wqPaused → wqClock < w → q'.mem w th = true →
      q'.thStat th / 2 = w)
    (hr : q'.mem wqReady th = true ∨ q'.mem wqTmshare th = true →
      q'.thStat th = 0 ∨ q'.thStat th = 2 * wqCanceled)
    (ha : q'.thStat th = 0 → q'.mem wqReady th = true → q'.mem wqTmshare th = false)
    (ht : q'.mem wqClock th = true → q'.thStat th % 2 = 1)
    (hl : q'.thStat th = 2 * wqCanceled → leaving th) : q'.Tidy ok leaving := by
  have hle := threadsMax_le
  refine ⟨fun w t hw hp hlt hm => ?_, fun w t hw hp hk hlt hm => ?_, fun t hlt hm => ?_,
    fun t hlt hs hm => ?_, fun t hlt hm => ?_, fun t hlt hs => ?_⟩
  · by_cases he : t = th
    · subst he
      exact hq w hw hp hm
    · rw [ho.mem w t (by omega) he] at hm
      exact h.queued w t hw hp hlt hm
  · by_cases he : t = th
    · subst he
      exact hn w hw hp hk hm
    · rw [ho.mem w t (by omega) he] at hm
      rw [ho.thStat t he]
      exact h.named w t hw hp hk hlt hm
  · by_cases he : t = th
    · subst he
      exact hr hm
    · rw [ho.mem _ t (by omega) he, ho.mem _ t (by omega) he] at hm
      rw [ho.thStat t he]
      exact h.running t hlt hm
  · by_cases he : t = th
    · subst he
      exact ha hs hm
    · rw [ho.mem _ t (by omega) he] at hm ⊢
      rw [ho.thStat t he] at hs
      exact h.apart t hlt hs hm
  · by_cases he : t = th
    · subst he
      exact ht hm
    · rw [ho.mem _ t (by omega) he] at hm
      rw [ho.thStat t he]
      exact h.timed t hlt hm
  · by_cases he : t = th
    · subst he
      exact hl hs
    · rw [ho.thStat t he] at hs
      exact h.leaves t hlt hs

theorem Tidy.suspend (th : Nat) : (q.suspend th).Tidy ok leaving := by
  have hb := wq_order
  -- nothing enters a queue but ready, and what enters ready comes from the time-share queue
  have hin : ∀ w t, t < threadsMax → (q.suspend th).mem w t = true →
      q.mem w t = true ∨ (w = wqReady ∧ q.mem wqTmshare t = true) := by
    intro w t ht hm
    by_cases h0 : w = wqReady
    · subst h0
      rw [mem_suspend_ready (by omega), or_eq_true, and_eq_true, and_eq_true] at hm
      exact hm.imp And.left fun h => ⟨rfl, h.2⟩
    · by_cases h1 : w = wqTmshare
      · subst h1
        rw [mem_suspend_tmshare (by omega), and_eq_true] at hm
        exact .inl hm.2
      · rw [mem_suspend_of_ne (by omega) h0 h1] at hm
        exact .inl hm
  refine ⟨fun w t hw hp ht hm => ?_, fun w t hw hp hk ht hm => ?_, fun t ht hm => ?_,
    fun t ht hs hm => ?_, fun t ht hm => ?_, h.leaves⟩
  · rcases hin w t ht hm with hm | ⟨-, hm⟩
    · exact h.queued w t hw hp ht hm
    · exact h.queued wqTmshare t (by omega) (by omega) ht hm
  · rcases hin w t ht hm with hm | ⟨rfl, -⟩
    · exact h.named w t hw hp hk ht hm
    · omega
  · apply h.running t ht
    rcases hm with hm | hm
    · exact (hin _ t ht hm).imp id And.right
    · rcases hin _ t ht hm with hm | ⟨he, -⟩
      · exact .inr hm
      · omega
  · have hap := h.apart t ht hs
    rw [mem_suspend_tmshare (by omega)]
    rw [mem_suspend_ready (by omega)] at hm
    cases hr : q.mem wqReady t with
    | true => simp [hap hr]
    | false =>
      rw [hr] at hm
      cases hcol : q.collects th with
      | true => simp
      | false =>
        rw [hcol] at hm
        simp at hm
  · rcases hin _ t ht hm with hm | ⟨he, -⟩
    · exact h.timed t ht hm
    · omega

/-- Taking threads out of queues, and any change to the paused queue. -/
theorem Tidy.sub
    (hsub : ∀ w t, w ≠ wqPaused → t < threadsMax → q'.mem w t = true → q.mem w t = true)
    (hs : q'.thStat = q.thStat) : q'.Tidy ok leaving := by
  have hb := wq_order
  refine ⟨fun w t hw hp ht hm => ?_, fun w t hw hp hk ht hm => ?_, fun t ht hm => ?_,
    fun t ht hs0 hm => ?_, fun t ht hm => ?_, fun t ht hs0 => ?_⟩
  · exact h.queued w t hw hp ht (hsub w t hp ht hm)
  · rw [hs]
    exact h.named w t hw hp hk ht (hsub w t hp ht hm)
  · rw [hs]
    exact h.running t ht (hm.imp (hsub _ t (by omega) ht) (hsub _ t (by omega) ht))
  · rw [hs] at hs0
    have hf := h.apart t ht hs0 (hsub _ t (by omega) ht hm)
    refine eq_false_iff.mpr fun ht' => ?_
    rw [hsub _ t (by omega) ht ht'] at hf
    cases hf
  · rw [hs]
    exact h.timed t ht (hsub _ t (by omega) ht hm)
  · rw [hs] at hs0
    exact h.leaves t ht hs0

theorem Tidy.clear (w : Nat) (hth : th < threadsMax) : (q.bitWr w th false).Tidy ok leaving := by
  have hle := threadsMax_le
  refine h.sub (fun w' t _ ht hm => ?_) rfl
  rw [mem_bitWr (by omega) (by omega)] at hm
  split at hm
  · cases hm
  · exact hm

theorem Tidy.setPaused (hth : th < threadsMax) (v : Bool) :
    (q.bitWr wqPaused th v).Tidy ok leaving := by
  have hle := threadsMax_le
  refine h.sub (fun w' t hw ht hm => ?_) rfl
  rwa [mem_bitWr (by omega) (by omega), if_neg (by tauto)] at hm

theorem Tidy.threadPause (hth : th < threadsMax) : (q.threadPause th).Tidy ok leaving := by
  unfold Queues.threadPause
  split
  · exact h
  · exact (((h.setPaused hth _).clear _ hth).clear _ hth).clear _ hth

theorem Tidy.ready (hok : ok th) (hout : q.mem wqTmshare th = false) (ho : Only th q q')
    (h0 : q'.thStat th = 0)
    (hno : ∀ w, w < wqLstEnd → w ≠ wqPaused → w ≠ wqReady → q'.mem w th = true →
      w = wqTmshare ∧ q.mem w th = true) : q'.Tidy ok leaving := by
  have hb := wq_order
  refine h.change ho (fun _ _ _ _ => hok) (fun w hw hp hk hm => ?_) (fun _ => .inl h0)
    (fun _ _ => ?_) (fun hm => ?_) (fun hs => ?_)
  · have := (hno w hw hp (by omega) hm).1
    omega
  · refine eq_false_iff.mpr fun ht => ?_
    rw [(hno _ (by omega) (by omega) (by omega) ht).2] at hout
    cases hout
  · have := (hno _ (by omega) (by omega) (by omega) hm).1
    omega
  · rw [h0] at hs
    omega

theorem Tidy.out_of_obj (ht : t < threadsMax) (hw : IsObj w) (hm : q.mem w t = true) :
    q.thStat t / 2 = w ∧ q.mem wqTmshare t = false := by
  have hk := clock_lt_obj hw
  obtain ⟨he, hp, hcn⟩ := obj_lt_end hw
  have hn := h.named w t he hp hk ht hm
  refine ⟨hn, eq_false_iff.mpr fun hts => ?_⟩
  rcases h.running t ht (.inr hts) with hs | hs <;> omega

theorem Tidy.wakeup (hth : th < threadsMax) (hw : IsObj w) (hm : q.mem w th = true) :
    (q.wakeup w th).Tidy ok leaving := by
  have hk := clock_lt_obj hw
  have hc := wq_order
  obtain ⟨he, hp, hcn⟩ := obj_lt_end hw
  obtain ⟨hn, hts⟩ := h.out_of_obj hth hw hm
  have hx : th < 32 := by omega
  refine h.ready (h.queued w th he hp hth hm) hts
    (((((Only.refl q th).bitWr hx _ _).bitWr hx _ _).bitWr hx _ _).setStat _) ?_
    (fun w' hw' hp' hr' hm' => ?_)
  · rw [thStat_wakeup, if_pos rfl]
  · rw [mem_wakeup (by omega) (by omega) (by omega), if_pos rfl] at hm'
    simp only [hr', decide_false, Bool.false_or, Bool.and_eq_true, decide_eq_true_eq] at hm'
    obtain ⟨hmo, hne, hnc⟩ := hm'
    refine ⟨?_, hmo⟩
    by_contra hnt
    have := clock_le_of_ne hr' hnt
    have := h.named w' th hw' hp' (by omega) hth hmo
    omega

theorem Tidy.wakes (hq : q.Sane) (hw : q.Wakes q') : q'.Tidy ok leaving := by
  have hc := ready_lt_clock
  have hboth : q'.Sane ∧ q'.Tidy ok leaving := by
    induction hw with
    | refl => exact ⟨hq, h⟩
    | wake w t _ hobj ht hm ih =>
      have := clock_lt_obj hobj
      have hlt := ih.1.lt_of_mem (obj_lt_end hobj).1 ht hm (by omega)
      exact ⟨ih.1.wakeup _ hlt, ih.2.wakeup hlt hobj hm⟩
  exact hboth.2

theorem Tidy.timeWakeup (hth : th < threadsMax) (hm : q.mem wqClock th = true) :
    (q.timeWakeup th).Tidy ok leaving := by
  have hb := wq_order
  have hodd := h.timed th hth hm
  have hx : th < 32 := by omega
  have hts : q.mem wqTmshare th = false := by
    refine Bool.eq_false_iff.mpr fun hts => ?_
    rcases h.running th hth (.inr hts) with hs | hs <;> omega
  refine h.ready (h.queued wqClock th (by omega) (by omega) hth hm) hts
    ⟨fun w t ht hne => by rw [mem_timeWakeup hx ht, if_neg hne],
      fun t hne => by rw [thStat_timeWakeup, if_neg hne]⟩ ?_ (fun w hw hp hr hm' => ?_)
  · rw [thStat_timeWakeup, if_pos rfl]
  · rw [mem_timeWakeup (by omega) (by omega), if_pos rfl] at hm'
    simp only [hr, decide_false, Bool.false_or, Bool.and_eq_true, decide_eq_true_eq] at hm'
    obtain ⟨hmo, hne, hnc⟩ := hm'
    refine ⟨?_, hmo⟩
    by_contra hnt
    have := clock_le_of_ne hr hnt
    have := h.named w th hw hp (by omega) hth hmo
    omega

omit h in
theorem suspend_clear (hth : th < 32) : (q.bitWr wqReady th false).suspend th = q.suspend th := by
  have hc := ready_lt_clock
  have hcol : (q.bitWr wqReady th false).collects th = q.collects th := by
    have hw : (q.bitWr wqReady th false).wqLst wqReady = q.wqLst wqReady &&& ~~~(1#32 <<< th) := by
      show Function.update q.wqLst ((32 * wqReady + th) / 32) _ wqReady = _
      rw [show (32 * wqReady + th) / 32 = wqReady by omega,
        show (32 * wqReady + th) % 32 = th by omega, Function.update_self]
      rfl
    unfold collects
    rw [hw, BitVec.and_assoc, BitVec.and_self]
  apply ext_mem
  · intro w t ht
    by_cases h0 : w = wqReady
    · subst h0
      rw [mem_suspend_ready ht, mem_suspend_ready ht, hcol, mem_bitWr hth ht, mem_bitWr hth ht,
        if_neg (c := wqTmshare = wqReady ∧ t = th) (by omega)]
      by_cases he : t = th <;> simp [he]
    · by_cases h1 : w = wqTmshare
      · subst h1
        rw [mem_suspend_tmshare ht, mem_suspend_tmshare ht, hcol,
          mem_bitWr hth ht, if_neg (by omega)]
      · rw [mem_suspend_of_ne ht h0 h1, mem_suspend_of_ne ht h0 h1,
          mem_bitWr hth ht, if_neg (by omega)]
  · rfl

/-- A queue a running thread can enter, and how. -/
def IsEntry (w : Nat) (timed : Bool) : Prop :=
  IsWait w timed ∨ (w = wqCanceled ∧ timed = false)

theorem Tidy.block {timed : Bool} (hth : th < threadsMax) (hok : ok th) (hw : IsEntry w timed)
    (hr : q.mem wqReady th = true) (hs : q.thStat th = 0) (hl : w = wqCanceled → leaving th) :
    ((q.enqueue w th timed).suspend th).Tidy ok leaving := by
  have hb := wq_order
  have hts := h.apart th hth hs hr
  have hwk : wqClock ≤ w ∧ w ≠ wqPaused ∧ (w = wqClock → timed = true) ∧
      (w = wqCanceled → timed = false) := by
    rcases hw with (hw | ⟨rfl, rfl⟩) | ⟨rfl, rfl⟩
    · have := clock_lt_obj hw
      have := obj_lt_end hw
      exact ⟨by omega, by omega, by omega, by omega⟩
    · exact ⟨by omega, by omega, fun _ => rfl, by omega⟩
    · exact ⟨by omega, by omega, by omega, fun _ => rfl⟩
  rw [← suspend_clear (by omega : th < 32)]
  apply Tidy.suspend
  have hmem : ∀ w' t, t < 32 → ((q.enqueue w th timed).bitWr wqReady th false).mem w' t =
      if t = th then decide (w' ≠ wqReady) &&
        (decide (w' = w ∨ (timed = true ∧ w' = wqClock)) || q.mem w' t) else q.mem w' t := by
    intro w' t ht
    rw [mem_bitWr (by omega) ht, mem_enqueue (by omega) ht]
    by_cases he : t = th
    · by_cases h0 : w' = wqReady <;> by_cases h1 : w' = w ∨ (timed = true ∧ w' = wqClock) <;>
        simp [he, h0, h1]
    · simp [he]
  have hst : ((q.enqueue w th timed).bitWr wqReady th false).thStat th = 2 * w + timed.toNat := by
    rw [thStat_bitWr, thStat_enqueue, if_pos rfl]
  have hto : timed.toNat ≤ 1 := toNat_le timed
  have hbits : ∀ w', w' < wqLstEnd → w' ≠ wqPaused →
      ((q.enqueue w th timed).bitWr wqReady th false).mem w' th = true →
      w' = w ∨ (timed = true ∧ w' = wqClock) := by
    intro w' hlt hp hm
    rw [hmem _ _ (by omega), if_pos rfl] at hm
    simp only [and_eq_true, or_eq_true, decide_eq_true_eq] at hm
    rcases hm with ⟨h0, hm | hm⟩
    · exact hm
    · exfalso
      by_cases h1 : w' = wqTmshare
      · rw [h1, hts] at hm
        cases hm
      · rw [h.only_ready hth hs hlt hp (clock_le_of_ne h0 h1)] at hm
        cases hm
  refine h.change ⟨fun w' t ht hne => by rw [hmem _ _ ht, if_neg hne],
      fun t hne => by rw [thStat_bitWr, thStat_enqueue, if_neg hne]⟩ (fun _ _ _ _ => hok)
    (fun w' hlt hp hk hm => ?_) (fun hm => ?_) (fun hs0 => ?_) (fun hm => ?_) (fun hs0 => ?_)
  · rw [hst]
    rcases hbits w' hlt hp hm with he | he
    · omega
    · omega
  · exfalso
    rcases hm with hm | hm
    · rcases hbits _ (by omega) (by omega) hm with he | he <;> omega
    · rcases hbits _ (by omega) (by omega) hm with he | he <;> omega
  · rw [hst] at hs0
    omega
  · have htt : timed = true := by
      rcases hbits _ (by omega) (by omega) hm with he | he
      · exact hwk.2.2.1 he.symm
      · exact he.1
    rw [hst, htt]
    show (2 * w + 1) % 2 = 1
    omega
  · rw [hst] at hs0
    exact hl (by omega)

theorem Tidy.callEff (hq : q.Sane) (hth : th < threadsMax) (hok : ok th) (he : q.CallEff th q' b)
    (hr : b = true → q.mem wqReady th = true ∧ q.thStat th = 0) : q'.Tidy ok leaving := by
  have hb := wq_order
  cases he with
  | done hw => exact h.wakes hq hw
  | block w timed hw =>
    obtain ⟨hrd, hs⟩ := hr rfl
    refine h.block hth hok (.inl hw) hrd hs fun hwc => ?_
    rcases hw with hw | hw
    · exact absurd hwc (obj_lt_end hw).2.2
    · omega
  | handOver w timed m t hw hobj _ ht hm =>
    obtain ⟨hrd, hs⟩ := hr rfl
    have hkm := clock_lt_obj hobj
    have hlt := hq.lt_of_mem (obj_lt_end hobj).1 ht hm (by omega)
    have hn := (h.out_of_obj hlt hobj hm).1
    have hne : th ≠ t := by
      rintro rfl
      rw [hs] at hn
      omega
    -- the waiter first, then the caller: they are different threads
    have hcomm : (q.enqueue w th timed).wakeup m t = (q.wakeup m t).enqueue w th timed := by
      apply ext_mem
      · intro w' t' ht'
        rw [mem_wakeup ht ht' (by omega), mem_enqueue (by omega) ht',
          mem_enqueue (by omega) ht', mem_wakeup ht ht' (by omega)]
        by_cases h1 : t' = t
        · subst h1
          simp [hne.symm]
        · simp [h1]
      · funext t'
        rw [thStat_wakeup, thStat_enqueue, thStat_enqueue, thStat_wakeup]
        by_cases h1 : t' = t
        · subst h1
          simp [hne.symm]
        · simp [h1]
    rw [hcomm]
    refine (h.wakeup hlt hobj hm).block hth hok (.inl (.inl hw)) ?_ ?_ fun hwc => ?_
    · rw [mem_wakeup ht (by omega) (by omega), if_neg hne]
      exact hrd
    · rw [thStat_wakeup, if_neg hne]
      exact hs
    · exact absurd hwc (obj_lt_end hw).2.2

/-- A paused thread is resumed that is in no queue but paused, and possibly ready or canceled. -/
theorem Tidy.resumed (hq : q.Sane) (hth : th < threadsMax) (hok : ok th) (hr : q.Resumed th q')
    (hno : ∀ w, w < wqLstEnd → w ≠ wqPaused → w ≠ wqReady → w ≠ wqCanceled → q.mem w th = false) :
    q'.Tidy ok leaving := by
  have hb := wq_order
  have hx : th < 32 := by omega
  cases hr with
  | back hobj =>
    have hk := clock_lt_obj hobj
    have ho := obj_lt_end hobj
    have hrun : ¬ (q.mem wqReady th = true ∨ q.mem wqTmshare th = true) := by
      intro hm
      rcases h.running th hth hm with hs | hs <;> rw [hs] at hk ho <;> omega
    refine h.change (((Only.refl q th).bitWr hx _ _).bitWr hx _ _) (fun _ _ _ _ => hok)
      (fun w hw hp hkw hm => ?_) (fun hm => ?_) (fun hs => ?_) (fun hm => ?_) (fun hs => ?_)
    · show q.thStat th / 2 = w
      rw [mem_bitWr hx hx, if_neg (by omega), mem_bitWr hx hx] at hm
      split at hm
      · omega
      · exact h.named w th hw hp hkw hth hm
    · rw [mem_bitWr hx hx, if_neg (by omega), mem_bitWr hx hx, if_neg (by omega),
        mem_bitWr hx hx, if_neg (by omega),
        mem_bitWr hx hx, if_neg (by omega)] at hm
      exact absurd hm hrun
    · change q.thStat th = 0 at hs
      rw [hs] at hk
      omega
    · rw [mem_bitWr hx hx, if_pos ⟨rfl, rfl⟩] at hm
      simpa using hm
    · exact h.leaves th hth hs
  | again hw hp hlt =>
    refine h.change ((Only.refl q th).bitWr hx _ _) (fun _ _ _ _ => hok)
      (fun w hw' hp' hkw hm => ?_) (fun hm => ?_) (fun hs hm => ?_) (fun hm => ?_)
      (fun hs => h.leaves th hth hs)
    · rw [mem_bitWr hx hx] at hm
      split at hm
      · rename_i he
        exact he.1.symm
      · exact h.named w th hw' hp' hkw hth hm
    · show q.thStat th = 0 ∨ q.thStat th = 2 * wqCanceled
      rw [mem_bitWr hx hx, mem_bitWr hx hx] at hm
      rcases hq.stat th with hs | hs
      · exact .inl hs
      · have := hs.queue
        rw [if_neg (by omega), if_neg (by omega)] at hm
        exact h.running th hth hm
    · rw [mem_bitWr hx hx, if_neg]
      · exact hno _ (by omega) (by omega) (by omega) (by omega)
      · rintro ⟨he, -⟩
        change q.thStat th = 0 at hs
        rw [hs] at he
        omega
    · rw [mem_bitWr hx hx] at hm
      split at hm
      · rename_i he
        show q.thStat th % 2 = 1
        rcases hq.stat th with hs | hs | hs | hs
        · rw [hs] at he
          omega
        · omega
        · have := clock_lt_obj hs
          omega
        · omega
      · exact h.timed th hth hm
  | grant hobj hlt =>
    have ho := obj_lt_end hobj
    refine h.ready hok (hno _ (by omega) (by omega) (by omega) (by omega))
      (((Only.refl q th).bitWr hx _ _).setStat _) ?_ (fun w hw hp hr hm => ?_)
    · rw [thStat_setStat, if_pos rfl]
    · rw [mem_setStat, mem_bitWr hx hx, if_neg (by tauto)] at hm
      by_cases hcn : w = wqCanceled
      · have := h.named w th hw hp (by omega) hth hm
        omega
      · rw [hno w hw hp hr hcn] at hm
        cases hm
  | none => exact h

theorem Tidy.slice (hth : th < threadsMax) (hr : q.mem wqReady th = true) :
    ((q.bitWr wqTmshare th true).suspend th).Tidy ok leaving := by
  have hb := wq_order
  have hx : th < 32 := by omega
  rw [← suspend_clear hx]
  apply Tidy.suspend
  refine h.change (((Only.refl q th).bitWr hx _ _).bitWr hx _ _)
    (fun _ _ _ _ => h.queued wqReady th (by omega) (by omega) hth hr)
    (fun w hw hp hk hm => ?_) (fun _ => h.running th hth (.inl hr)) (fun _ hm => ?_) (fun hm => ?_)
    (fun hs => h.leaves th hth hs)
  · rw [mem_bitWr hx hx, if_neg (by omega), mem_bitWr hx hx, if_neg (by omega)] at hm
    exact h.named w th hw hp hk hth hm
  · rw [mem_bitWr hx hx, if_pos ⟨rfl, rfl⟩] at hm
    cases hm
  · rw [mem_bitWr hx hx, if_neg (by omega), mem_bitWr hx hx, if_neg (by omega)] at hm
    exact h.timed th hth hm

end

end

/-! ### The end of a thread -/

theorem Tidy.cancel (h : q.Tidy ok leaving) (hth : th < threadsMax) (hok : ok th)
    (hl : leaving th) :
    ((((q.bitWr (q.thStat th / 2) th false).wqInsert wqCanceled th).bitWr wqTmshare th false).bitWr
      wqClock th false).Tidy ok leaving := by
  have hb := wq_order
  have hx : th < 32 := by omega
  have hst : ∀ t, ((((q.bitWr (q.thStat th / 2) th false).wqInsert wqCanceled th).bitWr wqTmshare th
      false).bitWr wqClock th false).thStat t = if t = th then 2 * wqCanceled else q.thStat t := by
    intro t
    rw [thStat_bitWr, thStat_bitWr, thStat_wqInsert]
    rfl
  refine h.change ((((((Only.refl q th).bitWr hx _ _).bitWr hx _ _).setStat _).bitWr hx _ _).bitWr
      hx _ _) (fun _ _ _ _ => hok) (fun w hw hp hk hm => ?_) (fun _ => ?_) (fun hs => ?_)
    (fun hm => ?_) (fun _ => hl)
  · rw [hst, if_pos rfl]
    rw [mem_bitWr hx hx, if_neg (by omega), mem_bitWr hx hx,
      if_neg (by omega), mem_wqInsert hx hx] at hm
    split at hm
    · omega
    · rw [mem_bitWr hx hx] at hm
      split at hm
      · cases hm
      · have := h.named w th hw hp hk hth hm
        omega
  · rw [hst, if_pos rfl]
    exact .inr rfl
  · rw [hst, if_pos rfl] at hs
    omega
  · rw [mem_bitWr hx hx, if_pos ⟨rfl, rfl⟩] at hm
    cases hm

/-- A join makes a canceled thread ready; it keeps its status. -/
theorem Tidy.join (h : q.Tidy ok leaving) (hq : q.Sane) (hth : th < threadsMax)
    (hm : q.mem wqCanceled th = true) :
    ((q.bitWr wqCanceled th false).bitWr wqReady th true).Tidy ok leaving := by
  have hb := wq_order
  have hx : th < 32 := by omega
  have hn := h.named wqCanceled th (by omega) (by omega) (by omega) hth hm
  have hs : q.thStat th = 2 * wqCanceled := by
    rcases hq.stat th with hs | hs | hs | hs
    · rw [hs] at hn
      omega
    · omega
    · exact absurd hn (obj_lt_end hs).2.2
    · exact hs
  refine h.change (((Only.refl q th).bitWr hx _ _).bitWr hx _ _)
    (fun _ _ _ _ => h.queued wqCanceled th (by omega) (by omega) hth hm)
    (fun w hw hp hk hm' => ?_) (fun _ => .inr hs) (fun h0 => ?_) (fun hm' => ?_)
    (fun _ => h.leaves th hth hs)
  · rw [mem_bitWr hx hx, if_neg (by omega), mem_bitWr hx hx] at hm'
    split at hm'
    · cases hm'
    · exact h.named w th hw hp hk hth hm'
  · change q.thStat th = 0 at h0
    omega
  · rw [mem_bitWr hx hx, if_neg (by omega), mem_bitWr hx hx, if_neg (by omega)] at hm'
    exact h.timed th hth hm'

/-- A terminated thread that is in the clock queue only to sleep leaves every queue but ready. -/
theorem Tidy.detach (h : q.Tidy ok leaving) (hth : th < threadsMax)
    (hclk : q.mem wqClock th = true → q.thStat th / 2 = wqClock) :
    (((q.bitWr wqTmshare th false).setStat th 0).bitWr (q.thStat th / 2) th false).Tidy ok leaving ∧
    ∀ w, w < wqLstEnd → w ≠ wqPaused → w ≠ wqReady →
      (((q.bitWr wqTmshare th false).setStat th 0).bitWr (q.thStat th / 2) th false).mem w th =
        false := by
  have hb := wq_order
  have hx : th < 32 := by omega
  have hst : ∀ t, (((q.bitWr wqTmshare th false).setStat th 0).bitWr (q.thStat th / 2) th
      false).thStat t = if t = th then 0 else q.thStat t := by
    intro t
    rw [thStat_bitWr, thStat_setStat]
    rfl
  have hno : ∀ w, w < wqLstEnd → w ≠ wqPaused → w ≠ wqReady →
      (((q.bitWr wqTmshare th false).setStat th 0).bitWr (q.thStat th / 2) th false).mem w th =
        false := by
    intro w hw hp hr
    rw [mem_bitWr hx hx, mem_setStat, mem_bitWr hx hx]
    split
    · rfl
    · split
      · rfl
      · rename_i h1 h2
        refine eq_false_iff.mpr fun hm => ?_
        by_cases hk : w = wqClock
        · have := hclk (hk ▸ hm)
          omega
        · have hge := clock_le_of_ne hr (by tauto)
          have := h.named w th hw hp (by omega) hth hm
          omega
  refine ⟨?_, hno⟩
  refine h.change ((((Only.refl q th).bitWr hx _ _).setStat _).bitWr hx _ _) (fun w hw hp hm => ?_)
    (fun w hw hp hk hm => ?_) (fun _ => ?_) (fun _ _ => ?_) (fun hm => ?_) (fun hs => ?_)
  · refine h.queued w th hw hp hth ?_
    rw [mem_bitWr hx hx, mem_setStat, mem_bitWr hx hx] at hm
    split at hm
    · cases hm
    · split at hm
      · cases hm
      · exact hm
  · rw [hno w hw hp (by omega)] at hm
    cases hm
  · rw [hst, if_pos rfl]
    exact .inl rfl
  · exact hno _ (by omega) (by omega) (by omega)
  · rw [hno _ (by omega) (by omega) (by omega)] at hm
    cases hm
  · rw [hst, if_pos rfl] at hs
    omega

/-! ### Statuses and bits that a call leaves alone -/

section
variable {q' : Queues}

theorem Wakes.thStat (hw : q.Wakes q') (t : Nat) : q'.thStat t = q.thStat t ∨ q'.thStat t = 0 := by
  induction hw with
  | refl => exact .inl rfl
  | wake w th _ _ _ _ ih =>
    rw [thStat_wakeup]
    split
    · exact .inr rfl
    · exact ih

theorem Wakes.ready (hw : q.Wakes q') (ht : t < 32) (hr : q.mem wqReady t = true) :
    q'.mem wqReady t = true := by
  have hc := ready_lt_clock
  induction hw with
  | refl => exact hr
  | wake w th _ hobj hth _ ih =>
    have := clock_lt_obj hobj
    rw [mem_wakeup hth ht (by omega)]
    split
    · simp
    · exact ih

/-- A thread in no object queue is not woken. -/
theorem Wakes.untouched (hw : q.Wakes q') (ht : t < 32) (hno : ∀ w, IsObj w → q.mem w t = false) :
    q'.thStat t = q.thStat t ∧ ∀ w, q'.mem w t = q.mem w t := by
  have hc := ready_lt_clock
  induction hw with
  | refl => exact ⟨rfl, fun _ => rfl⟩
  | wake w th _ hobj hth hm ih =>
    have hk := clock_lt_obj hobj
    have hne : t ≠ th := by
      rintro rfl
      rw [ih.2 w, hno w hobj] at hm
      cases hm
    refine ⟨?_, fun w' => ?_⟩
    · rw [thStat_wakeup, if_neg hne]
      exact ih.1
    · rw [mem_wakeup hth ht (by omega), if_neg hne]
      exact ih.2 w'

theorem CallEff.wakes (he : q.CallEff th q' false) : q.Wakes q' := by
  cases he with
  | done hw => exact hw

theorem CallEff.thStat (he : q.CallEff th q' b) (t : Nat) (hne : t ≠ th) :
    q'.thStat t = q.thStat t ∨ q'.thStat t = 0 := by
  cases he with
  | done hw => exact hw.thStat t
  | block w timed hw =>
    rw [thStat_suspend, thStat_enqueue, if_neg hne]
    exact .inl rfl
  | handOver w timed m t' hw hobj _ ht hm =>
    rw [thStat_suspend, thStat_wakeup, thStat_enqueue, if_neg hne]
    split
    · exact .inr rfl
    · exact .inl rfl

theorem Resumed.ready (hr : q.Resumed th q') (hth : th < 32) (ht : t < 32)
    (hm : q.mem wqReady t = true) : q'.mem wqReady t = true := by
  have hc := ready_lt_clock
  cases hr with
  | back =>
    rw [mem_bitWr hth ht, if_neg (by omega), mem_bitWr hth ht]
    split
    · rfl
    · exact hm
  | again =>
    rw [mem_bitWr hth ht]
    split
    · rfl
    · exact hm
  | grant =>
    rw [mem_setStat, mem_bitWr hth ht]
    split
    · rfl
    · exact hm
  | none => exact hm

theorem Resumed.thStat (hr : q.Resumed th q') (t : Nat) :
    q'.thStat t = q.thStat t ∨ q'.thStat t = 0 := by
  cases hr with
  | back | again | none => exact .inl rfl
  | grant =>
    rw [thStat_setStat]
    split
    · exact .inr rfl
    · exact .inl rfl

end

end

end Queues

end

end ThinkOS
