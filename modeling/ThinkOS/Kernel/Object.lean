import ThinkOS.Kernel.Effect

/-!
# What the object services share

The argument check every service starts with (`objIdx`), the allocation bitmaps
(`bmpAlloc`), and the blocking half of the semaphore, event, flag and gate waits
(`waitBlock`). Those waits differ in whether they publish the caller's context pointer
before they enter the queue, and in whether they are timed.

    objIdx base max alloc wq = some i  →  wq = base + i, i < max, i allocated  (objIdx_eq_some)
    a blocking wait is a `Served` step  (waitBlock_served)
-/

namespace ThinkOS

open Lib BitVec Function

/-- Index of object `wq` among the `max` objects that start at queue `base`; `none` when the
argument check or the allocation check fails. -/
def objIdx (base max : Nat) (alloc : Bitmap) (wq : Word) : Option Nat :=
  let idx := (wq - BitVec.ofNat 32 base).toNat
  if idx ≥ max then none else if alloc.rd idx = false then none else some idx

/-- A handle in the range of its type is the object's queue number. -/
theorem handle_eq {base max : Nat} {wq : Word} (hb : base + max < 2 ^ 32)
    (h : ¬ (wq - BitVec.ofNat 32 base).toNat ≥ max) :
    wq.toNat = base + (wq - BitVec.ofNat 32 base).toNat := by
  simp only [toNat_sub, toNat_ofNat] at h ⊢
  omega

theorem objIdx_eq_some {base max : Nat} {alloc : Bitmap} {wq : Word} {i : Nat}
    (hb : base + max < 2 ^ 32) (h : objIdx base max alloc wq = some i) :
    wq.toNat = base + i ∧ i < max ∧ alloc.rd i = true := by
  simp only [objIdx] at h
  split at h
  · cases h
  · split at h
    · cases h
    · rename_i hlt hal
      cases h
      exact ⟨handle_eq hb hlt, by omega, by simpa using hal⟩

/-- `__thinkos_bmp_alloc`: the lowest clear bit of the first word that has one. -/
def bmpAlloc (bmp : Bitmap) (bits : Nat) : Option Nat :=
  (List.range ((bits + 31) / 32)).findSome? fun i =>
    let j := lowBit (~~~(bmp i))
    if j < 32 then some (32 * i + j) else none

/-- A new object's bit was clear. -/
theorem bmpAlloc_eq_some {bmp : Bitmap} {bits i : Nat} (h : bmpAlloc bmp bits = some i) :
    bmp.rd i = false := by
  obtain ⟨n, -, hn⟩ := List.exists_of_findSome?_eq_some h
  dsimp only at hn
  split at hn
  · rename_i hlt
    cases hn
    have hb := getLsbD_lowBit hlt
    rw [getLsbD_not] at hb
    unfold Bitmap.rd
    rw [show (32 * n + lowBit (~~~(bmp n))) / 32 = n by omega,
      show (32 * n + lowBit (~~~(bmp n))) % 32 = lowBit (~~~(bmp n)) by omega]
    simpa [hlt] using hb
  · cases hn

namespace Kernel

section
variable [Config]

section
variable (k : Kernel) (self wq : Nat) (publish : Bool)

/-- The blocking half of the waits that interrupt handlers may end: suspend the caller, set its
status, publish its context pointer if the wait does so, and enter the queue; then, for a timed
wait, start the clock and make time-out the default result. -/
def waitBlock (ms : Option Word) : Kernel :=
  let k := k.suspend self
  let k := { k with q := k.q.setStat self (2 * wq + ms.isSome.toNat) }
  let k := if publish then { k with ctx := Function.update k.ctx self (some k.psp) } else k
  let k := { k with q := k.q.bitWr wq self true }
  match ms with
  | none => k.deferSched
  | some ms =>
    let k := { k with
      clock := Function.update k.clock self (k.ticks + ms)
      q := k.q.bitWr wqClock self true }
    (k.arg0 self ETIMEDOUT).deferSched

theorem waitBlock_q (ms : Option Word)
    (hs : self < 32) (hwq : wqClock ≤ wq) :
    (k.waitBlock self wq publish ms).q = (k.q.enqueue wq self ms.isSome).suspend self := by
  rw [← Queues.enqueue_suspend hs hwq]
  cases ms <;> cases publish <;> rfl

theorem waitBlock_served {S : Nat → Prop}
    (ms : Option Word) (hs : self < 32) (hwq : Queues.IsObj wq) (hS : S wq) :
    Served S self k (k.waitBlock self wq publish ms) where
  toKept := by
    cases ms with
    | none => cases publish <;> exact Kept.fields.trans (.deferSched _)
    | some ms => cases publish <;> exact (Kept.fields.trans (.arg0 _ _ _)).trans (.deferSched _)
  ctx := by
    intro t
    cases publish with
    | false => cases ms <;> exact .inl rfl
    | true =>
      have hc : (k.waitBlock self wq true ms).ctx t =
          update k.ctx self (some k.psp) t := by cases ms <;> rfl
      rw [hc]
      by_cases h : t = self
      · subst h
        exact .inr ⟨rfl, update_self ..⟩
      · exact .inl (update_of_ne h ..)
  eff := by
    refine ⟨true, ?_, fun _ => by cases publish <;> cases ms <;> rfl⟩
    rw [waitBlock_q _ _ _ _ _ hs (by have := Queues.clock_lt_obj hwq; omega)]
    exact .block wq ms.isSome (.inl hwq)
  within := by
    have hq := k.waitBlock_q self wq publish ms hs
      (by have := Queues.clock_lt_obj hwq; omega)
    have h := (Within.insert (S := S) k ms.isSome k.clock hs hS).trans (.suspend _ self)
    refine ⟨fun _ _ _ => ?_, fun _ _ _ => ?_, fun _ _ _ => ?_, fun w t ho hw ht => ?_,
      fun t ht hne hn => ?_⟩
    · cases publish <;> cases ms <;> exact ⟨rfl, rfl⟩
    · cases publish <;> cases ms <;> exact ⟨rfl, rfl⟩
    · cases publish <;> cases ms <;> exact ⟨fun _ _ => rfl, rfl⟩
    · rw [hq]
      exact h.mem w t ho hw ht
    · obtain ⟨-, h2, h3, h4⟩ := h.other t ht hne hn
      rw [hq]
      refine ⟨?_, h2, h3, h4⟩
      cases publish <;> cases ms
      · rfl
      · exact update_of_ne hne ..
      · rfl
      · exact update_of_ne hne ..

end

end

end Kernel

end ThinkOS
