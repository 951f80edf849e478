import ThinkOS.Sched.Sane

/-!
# Object and thread numbers

The allocation bit maps: `__thinkos_bmp_init` and `__thinkos_bmp_alloc` (bmp_alloc.c) for the
objects, `thinkos_alloc_lo` and `thinkos_alloc_hi` (kernel.h) for the threads.

    an allocation gives a free number below n, and fails when there is none  (Held.alloc)
    a thread gets the lowest free slot from the requested one on, or the highest below it

A creation marks its slot before it checks the stack, so that a stack that is too small costs a
slot:

    a failed creation changes nothing  ↔  there was no slot, or the stack is large enough
-/

namespace ThinkOS

variable {w : Word} {start t self i : Nat} {k : Kernel}

open Lib

/-! ## Object numbers -/

/-- `__thinkos_bmp_alloc`, with the bit map it leaves. -/
def bmpTake (bmp : Bitmap) (bits : Nat) : Option (Nat × Bitmap) :=
  (bmpAlloc bmp bits).map fun i => (i, bmp.wr i true)

/-- A bit map of `n` objects after a history of allocations and frees, and the objects in use. -/
inductive History (n : Nat) : Bitmap → (Nat → Prop) → Prop
  | init : History n (bmpInit n) fun _ => False
  | alloc {b b' : Bitmap} {used : Nat → Prop} {i : Nat} : History n b used →
      bmpTake b n = some (i, b') → History n b' fun j => j = i ∨ used j
  | free {b : Bitmap} {used : Nat → Prop} {i : Nat} : History n b used → i < n →
      History n (b.wr i false) fun j => j ≠ i ∧ used j

/-- The bits below `n` are the objects in use, and the others of the words are set. -/
structure Held (n : Nat) (b : Bitmap) (used : Nat → Prop) : Prop where
  used : ∀ i, i < n → (b.rd i = true ↔ used i)
  beyond : ∀ i, n ≤ i → i / 32 < (n + 31) / 32 → b.rd i = true

section
variable {n : Nat} {b b' : Bitmap} {used : Nat → Prop}

/-- Bit `i` of a new bit map: in the last word, when that is not full, the bits from `n` on are set. -/
theorem bmpInit_rd : (bmpInit n).rd i = decide ((i / 32 = n / 32 ∧ n % 32 ≠ 0) ∧ n ≤ i) := by
  have hi := Nat.mod_lt i (show 0 < 32 by decide)
  unfold Bitmap.rd bmpInit
  by_cases hw : i / 32 = n / 32 ∧ n % 32 ≠ 0
  · rw [if_pos hw, BitVec.getLsbD_shiftLeft, BitVec.getLsbD_allOnes]
    rcases Nat.lt_or_ge i n with hlt | hge
    · simp [hi, show i % 32 < n % 32 by omega, show ¬ n ≤ i by omega]
    · simp [hi, show ¬ i % 32 < n % 32 by omega, show i % 32 - n % 32 < 32 by omega, hw, hge]
  · rw [if_neg hw, BitVec.ofNat_eq_ofNat, BitVec.getLsbD_zero]
    simp [hw]

theorem Held.init (n : Nat) : Held n (bmpInit n) fun _ => False := by
  refine ⟨fun i hi => ?_, fun i hge hlt => ?_⟩
  · rw [bmpInit_rd, decide_eq_true_eq]
    constructor
    · intro h
      omega
    · exact False.elim
  · rw [bmpInit_rd, decide_eq_true_eq]
    omega

/-- The word where an allocation finds a clear bit. -/
theorem bmpAlloc_lt (h : bmpAlloc b n = some i) : i / 32 < (n + 31) / 32 := by
  obtain ⟨m, hm, hn⟩ := List.exists_of_findSome?_eq_some h
  dsimp only at hn
  split at hn
  · cases hn
    have := List.mem_range.mp hm
    omega
  · cases hn

theorem bmpAlloc_eq_none (h : bmpAlloc b n = none) (hi : i / 32 < (n + 31) / 32) : b.rd i = true := by
  have hw := List.findSome?_eq_none_iff.mp h (i / 32) (List.mem_range.mpr hi)
  dsimp only at hw
  split at hw
  · cases hw
  · rename_i hge
    have hlt : i % 32 < lowBit (~~~(b (i / 32))) := by omega
    have hb := getLsbD_of_lt_lowBit _ _ hlt
    rw [BitVec.getLsbD_not] at hb
    have := Nat.mod_lt i (show 0 < 32 by decide)
    unfold Bitmap.rd
    simpa [this] using hb

theorem Held.alloc (h : Held n b used) : (∀ i b', bmpTake b n = some (i, b') →
      i < n ∧ ¬ used i ∧ ∀ j, b'.rd j = if i = j then true else b.rd j) ∧
    (bmpTake b n = none → ∀ i, i < n → used i) := by
  refine ⟨fun i b' ht => ?_, fun ht i hi => ?_⟩
  · obtain ⟨j, hj, he⟩ := Option.map_eq_some_iff.mp ht
    cases he
    have hlt := bmpAlloc_lt hj
    have hclear := bmpAlloc_eq_some hj
    have hin : i < n := by
      apply Nat.lt_of_not_le
      intro hge
      rw [h.beyond i hge hlt] at hclear
      cases hclear
    refine ⟨hin, fun hu => ?_, fun j => Bitmap.rd_wr⟩
    rw [(h.used i hin).mpr hu] at hclear
    cases hclear
  · exact (h.used i hi).mp (bmpAlloc_eq_none (Option.map_eq_none_iff.mp ht) (by omega))

theorem Held.of_history (h : History n b used) : Held n b used := by
  induction h with
  | init => exact .init n
  | alloc _ ht ih =>
    obtain ⟨hin, -, hrd⟩ := ih.alloc.1 _ _ ht
    refine ⟨fun j hj => ?_, fun j hge hlt => ?_⟩
    · rw [hrd]
      split
      · rename_i he
        exact ⟨fun _ => .inl he.symm, fun _ => rfl⟩
      · rename_i hne
        rw [ih.used j hj]
        exact ⟨.inr, fun h => h.resolve_left (Ne.symm hne)⟩
    · rw [hrd, if_neg (by omega)]
      exact ih.beyond j hge hlt
  | free _ hi ih =>
    refine ⟨fun j hj => ?_, fun j hge hlt => ?_⟩
    · rw [Bitmap.rd_wr]
      split
      · rename_i he
        exact ⟨nofun, fun h => absurd he.symm h.1⟩
      · rename_i hne
        rw [ih.used j hj]
        exact ⟨fun h => ⟨Ne.symm hne, h⟩, fun h => h.2⟩
    · rw [Bitmap.rd_wr, if_neg (by omega)]
      exact ih.beyond j hge hlt

end

/-! ## Thread slots -/

/-- The lowest clear bit from `start` on. -/
theorem allocLo_some (h : allocLo w start = some i) :
    start ≤ i ∧ ∀ t, start ≤ t → t < i → w.getLsbD t = true := by
  simp only [allocLo] at h
  split at h
  · cases h
  · rename_i hlt
    cases h
    refine ⟨by omega, fun t hge ht => ?_⟩
    have hb := getLsbD_of_lt_lowBit (~~~(w >>> start)) (t - start) (by omega)
    rw [BitVec.getLsbD_not, BitVec.getLsbD_ushiftRight, Nat.add_sub_cancel' hge] at hb
    simpa [show t - start < 32 by omega] using hb

theorem allocLo_none (h : allocLo w start = none) (hge : start ≤ t) (ht : t < 32) :
    w.getLsbD t = true := by
  simp only [allocLo] at h
  split at h
  · have hb := getLsbD_of_lt_lowBit (~~~(w >>> start)) (t - start) (by omega)
    rw [BitVec.getLsbD_not, BitVec.getLsbD_ushiftRight, Nat.add_sub_cancel' hge] at hb
    simpa [show t - start < 32 by omega] using hb
  · cases h

/-- A bit passed over by `thinkos_alloc_hi` is set. -/
theorem getLsbD_of_skipped (hs : start ≤ 31) (ht : t ≤ start)
    (hz : start - t < leadingZeros (~~~(w <<< (31 - start)))) : w.getLsbD t = true := by
  have hb := getLsbD_of_lt_leadingZeros hz
  rw [BitVec.getLsbD_not, BitVec.getLsbD_shiftLeft] at hb
  have h1 : 32 - 1 - (start - t) < 32 := by omega
  have h2 : ¬ 32 - 1 - (start - t) < 31 - start := by omega
  have h3 : 32 - 1 - (start - t) - (31 - start) = t := by omega
  simpa [h1, h2, h3] using hb

theorem allocHi_some (h : allocHi w start = some i) :
    i ≤ min start 31 ∧ ∀ t, i < t → t ≤ min start 31 → w.getLsbD t = true := by
  simp only [allocHi] at h
  split at h
  · cases h
  · rename_i hlt
    cases h
    exact ⟨by omega, fun t hgt hle => getLsbD_of_skipped (by omega) hle (by omega)⟩

theorem allocHi_none (h : allocHi w start = none) (hle : t ≤ min start 31) :
    w.getLsbD t = true := by
  simp only [allocHi] at h
  split at h
  · exact getLsbD_of_skipped (by omega) hle (by omega)
  · cases h

namespace Kernel

section
variable [Config]

/-- The slot that a thread number asks for: numbers count from one, and zero asks for any slot. -/
def requested (id : BitVec 7) : Nat := id.toNat - 1

/-- `th` is the lowest free slot from `r` on, or there is none and it is the highest one below. -/
def Nearest (k : Kernel) (r th : Nat) : Prop :=
  (r ≤ th ∧ ∀ t, r ≤ t → t < th → k.thAlloc.rd t = true) ∨
    (th < r ∧ (∀ t, r ≤ t → t < threadsMax → k.thAlloc.rd t = true) ∧
      ∀ t, th < t → t < r → t < threadsMax → k.thAlloc.rd t = true)

omit [Config] in
theorem thAlloc_rd (k : Kernel) (ht : t < 32) : k.thAlloc.rd t = (k.thAlloc 0).getLsbD t := by
  unfold Bitmap.rd
  rw [show t / 32 = 0 by omega, Nat.mod_eq_of_lt ht]

section
variable {id : BitVec 7} {th : Nat}

theorem threadSlot_some (hk : k.Sane) (h : k.threadSlot id = some th) :
    th < threadsMax ∧ k.thAlloc.rd th = false ∧ k.Nearest (requested id) th := by
  have hle := threadsMax_le
  have hth := hk.slot_lt h
  obtain ⟨hlt, hfree⟩ := threadSlot_eq_some h
  refine ⟨hth, (k.thAlloc_rd hlt).trans hfree, ?_⟩
  have hrd : ∀ t, t < threadsMax → (k.thAlloc 0).getLsbD t = true → k.thAlloc.rd t = true :=
    fun t ht hb => (k.thAlloc_rd (by omega)).trans hb
  unfold requested
  simp only [threadSlot] at h
  split at h
  · obtain ⟨-, hhi⟩ := allocHi_some h
    refine .inr ⟨by omega, fun t _ ht => by omega, fun t hgt _ ht => ?_⟩
    exact hrd t ht (hhi t hgt (by omega))
  · split at h
    · rename_i hlo
      cases h
      obtain ⟨hge, hlow⟩ := allocLo_some hlo
      exact .inl ⟨hge, fun t hge' ht => hrd t (by omega) (hlow t hge' ht)⟩
    · rename_i hlo
      obtain ⟨hle', hhi⟩ := allocHi_some h
      have hne : th ≠ id.toNat - 1 := by
        rintro rfl
        rw [allocLo_none hlo (Nat.le_refl _) hlt] at hfree
        cases hfree
      refine .inr ⟨by omega, fun t hge ht => hrd t ht (allocLo_none hlo hge (by omega)), ?_⟩
      exact fun t hgt ht hlt => hrd t hlt (hhi t hgt (by omega))

theorem threadSlot_none (h : k.threadSlot id = none) (ht : t < threadsMax) :
    k.thAlloc.rd t = true := by
  have hle := threadsMax_le
  rw [k.thAlloc_rd (by omega)]
  simp only [threadSlot] at h
  split at h
  · exact allocHi_none h (by omega)
  · split at h
    · cases h
    · rename_i hlo
      rcases Nat.lt_or_ge t (id.toNat - 1) with hlt | hge
      · exact allocHi_none h (by omega)
      · exact allocLo_none hlo hge (by omega)

end

theorem threadResume_kept (k : Kernel) (th : Nat) : Kept k (k.threadResume th) := by
  unfold threadResume
  split
  · exact Kept.fields
  · exact Kept.fields.trans (resumeType_resumes { k with q := k.q.bitWr wqPaused th false } th).toKept

/-- The slot is marked whatever becomes of the creation. -/
theorem thAlloc_threadCreateSvc (k : Kernel) (self : Nat) (init : ThreadInit) :
    (k.threadCreateSvc self init).thAlloc =
      match k.threadSlot init.id with
      | some th => k.thAlloc.wr th true
      | none => k.thAlloc := by
  unfold threadCreateSvc
  cases k.threadSlot init.id with
  | none => rfl
  | some th =>
    dsimp only
    split
    · rfl
    · cases init.paused with
      | true => rfl
      | false => exact (threadResume_kept _ th).thAlloc

/-- **Numbers are allocated.**  From a bit map that was prepared for `n` objects an allocation gives
a number below `n` that is not in use and marks that one, and fails when all are in use; the creation
of a thread takes the nearest free slot, and finds none when all are in use. -/
theorem numbers_allocated : (∀ (n : Nat) (b : Bitmap) (used : Nat → Prop), History n b used →
      (∀ i b', bmpTake b n = some (i, b') →
        i < n ∧ ¬ used i ∧ ∀ j, b'.rd j = if i = j then true else b.rd j) ∧
      (bmpTake b n = none → ∀ i, i < n → used i)) ∧
    ∀ k0 k : Kernel, k0.Booted → kernel.Run (fun _ _ => True) k0 k →
      ∀ (self : Nat) (init : ThreadInit), (∀ th, k.threadSlot init.id = some th →
          th < threadsMax ∧ k.thAlloc.rd th = false ∧ k.Nearest (requested init.id) th ∧
          (k.threadCreateSvc self init).thAlloc = k.thAlloc.wr th true) ∧
        (k.threadSlot init.id = none → (∀ t, t < threadsMax → k.thAlloc.rd t = true) ∧
          (k.threadCreateSvc self init).thAlloc = k.thAlloc) := by
  refine ⟨fun n b used h => (Held.of_history h).alloc, fun k0 k hb hr self init => ?_⟩
  have hk : k.Sane := hr.invariant (fun _ _ _ h _ hs => h.step hs) hb.sane
  have hcreate := thAlloc_threadCreateSvc k self init
  refine ⟨fun th h => ?_, fun h => ⟨fun t ht => threadSlot_none h ht, ?_⟩⟩
  · obtain ⟨hlt, hfree, hnear⟩ := threadSlot_some hk h
    rw [h] at hcreate
    exact ⟨hlt, hfree, hnear, hcreate⟩
  · rw [h] at hcreate
    exact hcreate

end

theorem numbers_allocated_boot :
    (∀ i b', bmpTake (bmpInit 40) 40 = some (i, b') → i < 40 ∧ ¬ False ∧
        ∀ j, b'.rd j = if i = j then true else (bmpInit 40).rd j) ∧
      (Kernel.init 0 0 16#8 false).threadSlot 2#7 = some 1 ∧
      (Kernel.init 0 0 16#8 false).Nearest (requested 2#7) 1 := by
  refine ⟨(numbers_allocated.1 40 _ _ .init).1, by decide +kernel, ?_⟩
  exact ((numbers_allocated.2 _ _ ⟨0, 0, 16#8, false, by decide, rfl⟩ .refl 0
    ⟨0, 0, 0#16, 16#8, 2#7, false⟩).1 1 (by decide +kernel)).2.2.1

/-! ## Creations that fail -/

section
variable [Config]

omit [Config] in
/-- What a call returns to its caller. -/
def returned (k : Kernel) (self : Nat) : Word := (k.stack self k.psp).r0

/-- A slot at which the search for `id` looks is free. -/
def HasSlot (k : Kernel) (id : BitVec 7) : Prop :=
  ∃ t, t < 32 ∧ (threadsMax < id.toNat → t ≤ threadsMax) ∧ k.thAlloc.rd t = false

theorem hasSlot_iff (k : Kernel) {id : BitVec 7} : k.HasSlot id ↔ k.threadSlot id ≠ none := by
  constructor
  · rintro ⟨t, ht, hid, hfree⟩ h
    rw [k.thAlloc_rd ht] at hfree
    simp only [threadSlot] at h
    split at h
    · rw [allocHi_none h (by omega)] at hfree
      cases hfree
    · split at h
      · cases h
      · rename_i hlo
        rcases Nat.lt_or_ge t (id.toNat - 1) with hlt | hge
        · rw [allocHi_none h (by omega)] at hfree
          cases hfree
        · rw [allocLo_none hlo hge (by omega)] at hfree
          cases hfree
  · intro h
    obtain ⟨th, hth⟩ := Option.ne_none_iff_exists'.mp h
    obtain ⟨hlt, hfree⟩ := threadSlot_eq_some hth
    refine ⟨th, hlt, fun hid => ?_, (k.thAlloc_rd hlt).trans hfree⟩
    simp only [threadSlot] at hth
    rw [if_pos (by omega)] at hth
    obtain ⟨hle', -⟩ := allocHi_some hth
    omega

/-- The creation fails. -/
def CreateFails (k : Kernel) (self : Nat) (init : ThreadInit) : Prop :=
  (k.threadCreateSvc self init).returned self = EINVAL

/-- The allocation bit map, the contexts, the wait queues and the scheduling data are the same. -/
structure SameThreads (k k' : Kernel) : Prop where
  thAlloc : k'.thAlloc = k.thAlloc
  ctx : k'.ctx = k.ctx
  q : k'.q = k.q
  clock : k'.clock = k.clock
  active : k'.active = k.active
  sched : k'.schedVal = k.schedVal ∧ k'.schedPri = k.schedPri ∧ k'.schedLimit = k.schedLimit
  pendsv : k'.pendsv = k.pendsv

omit [Config] in
theorem SameThreads.trans {k1 k' : Kernel} (h : SameThreads k k1) (h' : SameThreads k1 k') :
    SameThreads k k' :=
  ⟨h'.thAlloc.trans h.thAlloc, h'.ctx.trans h.ctx, h'.q.trans h.q, h'.clock.trans h.clock,
    h'.active.trans h.active, ⟨h'.sched.1.trans h.sched.1, h'.sched.2.1.trans h.sched.2.1,
      h'.sched.2.2.trans h.sched.2.2⟩, h'.pendsv.trans h.pendsv⟩

/-- The stack has room for a context, or no slot is free. -/
def CreatesSafely (k : Kernel) (init : ThreadInit) : Prop :=
  ¬ k.HasSlot init.id ∨ sizeofContext ≤ init.stackSize.toNat

omit [Config] in
theorem returned_arg0 {v : Word} : (k.arg0 self v).returned self = v := by
  exact congrArg Frame.r0 (storeFrame_self ..)

/-- A creation that succeeds returns the thread's number. -/
theorem not_createFails {init : ThreadInit} {th : Nat} (hslot : k.threadSlot init.id = some th)
    (hsize : sizeofContext ≤ init.stackSize.toNat) : ¬ k.CreateFails self init := by
  have hlt := (threadSlot_eq_some hslot).1
  unfold CreateFails threadCreateSvc
  rw [hslot]
  dsimp only
  rw [if_neg (by omega), returned_arg0]
  intro he
  have := congrArg BitVec.toNat he
  simp only [BitVec.toNat_ofNat, EINVAL] at this
  simp at this
  omega

theorem create_same {init : ThreadInit} (hf : k.CreateFails self init) (hs : k.CreatesSafely init) :
    SameThreads k (k.threadCreateSvc self init) := by
  cases hslot : k.threadSlot init.id with
  | none =>
    unfold threadCreateSvc
    rw [hslot]
    exact ⟨rfl, rfl, rfl, rfl, rfl, ⟨rfl, rfl, rfl⟩, rfl⟩
  | some th =>
    have hsize := hs.resolve_left fun hno => hno (k.hasSlot_iff.mpr (by rw [hslot]; nofun))
    exact absurd hf (not_createFails hslot hsize)

/-- Creations one after the other. -/
def createAll (self : Nat) : List ThreadInit → Kernel → Kernel
  | [], k => k
  | init :: rest, k => createAll self rest (k.threadCreateSvc self init)

/-- All of them fail, and are made with a large stack or when no slot is free. -/
def AllFail (self : Nat) : List ThreadInit → Kernel → Prop
  | [], _ => True
  | init :: rest, k =>
    k.CreateFails self init ∧ k.CreatesSafely init ∧ AllFail self rest (k.threadCreateSvc self init)

theorem AllFail.same {inits : List ThreadInit} (h : AllFail self inits k) :
    SameThreads k (createAll self inits k) := by
  induction inits generalizing k with
  | nil => exact ⟨rfl, rfl, rfl, rfl, rfl, ⟨rfl, rfl, rfl⟩, rfl⟩
  | cons init rest ih =>
    obtain ⟨hf, hs, hrest⟩ := h
    exact (create_same hf hs).trans (ih hrest)

/-- The number of threads that can be created. -/
def freeSlots (k : Kernel) : Nat := (List.range threadsMax).countP fun t => !k.thAlloc.rd t

/-- **A creation that fails changes nothing** exactly when its stack is large enough or there was no
slot for it, and creations that fail like that leave all slots. -/
theorem failed_creation_clean_iff (k : Kernel) (self : Nat) (init : ThreadInit) :
    ((k.CreateFails self init → SameThreads k (k.threadCreateSvc self init)) ↔ k.CreatesSafely init) ∧
      ∀ inits, AllFail self inits k → (createAll self inits k).freeSlots = k.freeSlots := by
  refine ⟨⟨fun h => ?_, fun hs hf => create_same hf hs⟩, fun inits h => ?_⟩
  · by_contra hno
    rw [CreatesSafely, not_or, not_not] at hno
    obtain ⟨th, hslot⟩ := Option.ne_none_iff_exists'.mp (k.hasSlot_iff.mp hno.1)
    have hfree := (threadSlot_eq_some hslot)
    have hfail : k.CreateFails self init := by
      unfold CreateFails threadCreateSvc
      rw [hslot]
      dsimp only
      rw [if_pos (by omega), returned_arg0]
    -- the bit of the slot stays set
    have hsame := (h hfail).thAlloc
    rw [thAlloc_threadCreateSvc, hslot] at hsame
    have hbit := congrArg (fun b : Bitmap => b.rd th) hsame
    simp only [Bitmap.rd_wr, if_pos, k.thAlloc_rd hfree.1, hfree.2] at hbit
    cases hbit
  · unfold freeSlots
    rw [h.same.thAlloc]

end

/-- A stack of 32 bytes: the creation fails, and takes a slot. -/
theorem failed_creation_takes_slot :
    (Kernel.init 0 0 16#8 false).CreateFails 0 ⟨0, 4096, 32#16, 16#8, 0#7, false⟩ ∧
      (Kernel.init 0 0 16#8 false).freeSlots = 7 ∧
      ((Kernel.init 0 0 16#8 false).threadCreateSvc 0 ⟨0, 4096, 32#16, 16#8, 0#7, false⟩).freeSlots = 6 := by
  unfold CreateFails
  decide +kernel

end Kernel

end ThinkOS
