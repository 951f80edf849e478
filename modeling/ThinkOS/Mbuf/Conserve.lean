import ThinkOS.Mbuf.Fifo

/-!
# No buffer is lost

The pool with its callers: every call of the buffer functions as a step of the whole system. As
long as `mbuf_list_alloc` is asked for some bytes and for no more buffers than are free, every
buffer is on the free list, on one queue or with one caller, and the mutex is given back. The other
requests of `mbuf_list_alloc` break this, each of them.
-/

namespace Mbuf

open Lib Function List Option Mbufs

/-- The pool, the queues, and the buffers each caller was given and did not give back. -/
structure Sys where
  mbufs : Mbufs
  queues : Nat → MbufQueue
  held : Nat → List Nat

namespace Sys

/-- After `mbuf_init`, with all queues set up. -/
def init (n : Nat) : Sys :=
  { mbufs := .mbufInit n, queues := mbufQueueInit, held := fun _ => [] }

end Sys

inductive Op where
  | alloc (c : Nat)
  | tryAlloc (c : Nat)
  | listAlloc (c len : Nat)
  | free (c b : Nat)
  | listFree (c : Nat) (p : Option Node)
  /-- caller `c` writes the link word and the data of its buffer `b` -/
  | use (c b : Nat) (link : Option Node) (data : Nat → UInt8)
  | queue (i : Nat) (call : QueueCall)

/-- The buffers on the links from `p` on, at most as many as the first argument says. -/
def chainOf (next : Node → Option Node) : Nat → Option Node → List Nat
  | k + 1, some (.cell b) => b :: chainOf next k (next (.cell b))
  | _, _ => []

namespace Sys

/-- Caller `c` gets the buffers `l`. -/
def give (s : Sys) (m : Mbufs) (c : Nat) (l : List Nat) : Sys :=
  { s with mbufs := m, held := Function.update s.held c (s.held c ++ l) }

/-- Caller `c` gives the buffers `l` back. -/
def back (s : Sys) (m : Mbufs) (c : Nat) (l : List Nat) : Sys :=
  { s with mbufs := m, held := Function.update s.held c ((s.held c).diff l) }

def step (s : Sys) : Op → Option Sys
  | .alloc c => do
    let (m, p) ← s.mbufs.mbufAlloc
    some (s.give m c (chainOf m.next 1 p))
  | .tryAlloc c => do
    let (m, p) ← s.mbufs.mbufTryAlloc
    some (s.give m c (chainOf m.next 1 p))
  | .listAlloc c len => do
    let (m, p) ← s.mbufs.mbufListAlloc len
    some (s.give m c (chainOf m.next m.max p))
  | .free c b => do
    let m ← s.mbufs.mbufFree (.buf b)
    some (s.back m c [b])
  | .listFree c p => do
    let m ← s.mbufs.mbufListFree p
    some (s.back m c (chainOf s.mbufs.next s.mbufs.max p))
  | .use _ b link data =>
    let m := s.mbufs.link (.buf b) link
    some { s with mbufs := { m with data := Function.update m.data (.buf b) data } }
  | .queue i call => do
    let (m, q, _) ← s.mbufs.call i (s.queues i) call
    some { s with mbufs := m, queues := Function.update s.queues i q }

def run (s : Sys) : List Op → Option Sys
  | [] => some s
  | op :: ops => do
    let s ← s.step op
    s.run ops

end Sys

/-- Callers use and free what they were given only, and lengths are `int`s. -/
def Op.Owned (s : Sys) : Op → Prop
  | .listAlloc _ len => len < 2 ^ 31
  | .free c b => b ∈ s.held c
  | .listFree c p => ∃ l, Follows s.mbufs.next p l ∧ l.Nodup ∧ ∀ b ∈ l, b ∈ s.held c
  | .use c b _ _ => b ∈ s.held c
  | _ => True

/-- A list is asked for some bytes, and for no more buffers than are free. -/
def Op.Safe (s : Sys) : Op → Prop
  | .listAlloc _ len =>
    0 < len ∧ (len + (MBUF_DATA_SIZE - 1)) / MBUF_DATA_SIZE ≤ s.mbufs.max - s.mbufs.used
  | _ => True

/-- Every call of the run is of this kind when it is made. -/
def Sys.Orderly (s : Sys) : List Op → Prop
  | [] => True
  | op :: ops => op.Owned s ∧ op.Safe s ∧ ∀ s', s.step op = some s' → s'.Orderly ops

/-- No buffer is lost: `cells` says where each of the `n` buffers is. -/
structure Conserved (n : Nat) (s : Sys) (cells : Place → List Nat) : Prop where
  freeList : Linked s.mbufs.next (.first .free) s.mbufs.last ((cells .free).map .buf)
  queueList : ∀ q,
    Linked s.mbufs.next (.first (.queue q)) (s.queues q).last ((cells (.queue q)).map .buf)
  held : ∀ c, cells (.caller c) = s.held c
  nothingElse : cells .hand = []
  owner : ∀ b, b < n → ∃! p, b ∈ cells p
  once : ∀ p, (cells p).Nodup
  used : s.mbufs.used + (cells .free).length = n
  unlocked : s.mbufs.locked = false

/-- The invariant of the system. -/
structure Kept (n : Nat) (s : Sys) (cells : Place → List Nat) : Prop where
  locked : s.mbufs.locked = false
  sound : Sound n s.mbufs (fun q => some (s.queues q).last) cells
  held : ∀ c, cells (.caller c) = s.held c
  hand : cells .hand = []
  fits : ∀ q, Fits (s.queues q) (cells (.queue q))

section
variable {n : Nat} {s : Sys} {cells : Place → List Nat} {a : List Nat} {m : Mbufs} {op : Op}
  {x : Int}

theorem Kept.conserved (h : Kept n s cells) : Conserved n s cells where
  freeList := h.sound.lists.linked .free s.mbufs.last rfl
  queueList q := h.sound.lists.linked (.queue q) (s.queues q).last rfl
  held := h.held
  nothingElse := h.hand
  owner _ hb := h.sound.lists.shares.existsUnique hb
  once := h.sound.lists.shares.nodup
  used := h.sound.used
  unlocked := h.locked

theorem kept_init (hn : n < 256) : Kept n (Sys.init n) (allFree n) :=
  ⟨rfl, sound_init hn, fun _ => rfl, rfl, fun _ => fits_init⟩

theorem Sys.give_nil {c : Nat} : s.give m c [] = { s with mbufs := m } := by
  rw [Sys.give, append_nil, update_eq_self]

theorem Kept.give (h : Kept n s cells) (hm : m.locked = false) (c : Nat)
    (hsound : Sound n m (fun q => some (s.queues q).last) (moveAll cells .free (.caller c) a)) :
    Kept n (s.give m c a) (moveAll cells .free (.caller c) a) where
  locked := hm
  sound := hsound
  held c' := by
    show _ = update s.held c (s.held c ++ a) c'
    rcases eq_or_ne c' c with rfl | hne
    · rw [moveAll_to, update_self, h.held]
    · have hne' : Place.caller c' ≠ .caller c := fun he => hne (Holder.caller.inj (Sum.inr.inj he))
      rw [moveAll_of_ne Sum.inr_ne_inl hne', update_of_ne hne, h.held]
  hand := by
    have hne : Place.hand ≠ .caller c := by simp
    rw [moveAll_of_ne Sum.inr_ne_inl hne, h.hand]
  fits q := by
    have hne : Place.queue q ≠ .free := by simp
    rw [moveAll_of_ne hne Sum.inl_ne_inr]
    exact h.fits q

theorem Kept.back (h : Kept n s cells) (hm : m.locked = false) (c : Nat)
    (hsound : Sound n m (fun q => some (s.queues q).last) (moveAll cells (.caller c) .free a)) :
    Kept n (s.back m c a) (moveAll cells (.caller c) .free a) where
  locked := hm
  sound := hsound
  held c' := by
    show _ = update s.held c ((s.held c).diff a) c'
    rcases eq_or_ne c' c with rfl | hne
    · rw [moveAll_diff Sum.inr_ne_inl, update_self, h.held]
    · have hne' : Place.caller c' ≠ .caller c := fun he => hne (Holder.caller.inj (Sum.inr.inj he))
      rw [moveAll_of_ne hne' Sum.inr_ne_inl, update_of_ne hne, h.held]
  hand := by
    have hne : Place.hand ≠ .caller c := by simp
    rw [moveAll_of_ne hne Sum.inr_ne_inl, h.hand]
  fits q := by
    have hne : Place.queue q ≠ .free := by simp
    rw [moveAll_of_ne Sum.inl_ne_inr hne]
    exact h.fits q

/-- `mbuf_alloc` and `mbuf_try_alloc` give the caller the first free buffer, if there is one. -/
theorem Kept.alloc (h : Kept n s cells) (c : Nat) : ∃ m p cells', s.mbufs.allocFirst = some (m, p) ∧
      Kept n (s.give m c (chainOf m.next 1 p)) cells' := by
  cases hc : cells .free with
  | nil =>
    refine ⟨s.mbufs, none, cells, h.sound.allocFirst_none h.locked hc, ?_⟩
    show Kept n (s.give s.mbufs c []) cells
    rw [Sys.give_nil]
    exact h
  | cons b r =>
    have hlocked : (s.mbufs.take (.buf b)).locked = false := h.locked
    have htake : Sound n (s.mbufs.take (.buf b)) (fun q => some (s.queues q).last)
        (moveAll cells .free (.caller c) [b]) := h.sound.take hc (.caller c)
    exact ⟨_, _, _, h.sound.allocFirst_some h.locked hc, h.give hlocked c htake⟩

theorem chainOf_eq {next : Node → Option Node} {p : Option Node} {k : Nat} (h : Follows next p a)
    (hk : a.length ≤ k) : chainOf next k p = a := by
  induction a generalizing p k with
  | nil =>
    cases h
    cases k <;> rfl
  | cons b a ih =>
    obtain ⟨rfl, h⟩ := h
    obtain _ | k := k
    · exact absurd hk (Nat.not_succ_le_zero _)
    · exact congrArg (b :: ·) (ih h (Nat.le_of_succ_le_succ hk))

section
variable (h : Kept n s cells)
include h

/-- `mbuf_list_alloc` of some bytes that fit into the free buffers. -/
theorem Kept.listAlloc {len : Nat} (c : Nat) (hsafe : (Op.listAlloc c len).Safe s) :
    ∃ m p cells', s.mbufs.mbufListAlloc len = some (m, p) ∧
      Kept n (s.give m c (chainOf m.next m.max p)) cells' := by
  obtain ⟨hpos, hle⟩ := hsafe
  have hused := h.sound.used
  have hmax := h.sound.max
  have hsmall := h.sound.small
  simp only [MBUF_DATA_SIZE] at hle
  set k := (len + (124 - 1)) / 124 with hk
  have hkfree : k ≤ (cells .free).length := by omega
  have hklen : ((cells .free).take k).length = k := by
    rw [length_take, Nat.min_eq_left hkfree]
  have hcount : Mbufs.listCount len = ((cells .free).take k).length := by
    rw [listCount_eq (by omega), hklen]
  have hne : (cells .free).take k ≠ [] := by
    intro hnil
    rw [hnil, length_nil] at hklen
    omega
  obtain ⟨m, hrun, hlocked, hfollows, hsound, -⟩ :=
    h.sound.listTake h.locked (take_append_drop k _).symm hne (.caller c)
  rw [← hcount] at hrun
  refine ⟨m, _, moveAll cells .free (.caller c) ((cells .free).take k), hrun, ?_⟩
  have hfuel : ((cells .free).take k).length ≤ m.max := by
    rw [hsound.max]
    omega
  rw [chainOf_eq hfollows hfuel]
  exact h.give hlocked c hsound

theorem Kept.use {c b : Nat} (hb : b ∈ s.held c) (v : Option Node) (data : Node → Nat → UInt8) :
    Kept n { s with mbufs := { s.mbufs.link (.buf b) v with data } } cells := by
  rw [← h.held] at hb
  exact { h with sound := { h.sound with lists := h.sound.lists.write hb v } }

theorem Kept.queue (i : Nat) (call : QueueCall) :
    ∃ m q r cells', s.mbufs.call i (s.queues i) call = some (m, q, r) ∧
      Kept n { s with mbufs := m, queues := update s.queues i q } cells' := by
  have hlast : update (fun q => some (s.queues q).last) i (some (s.queues i).last) =
      fun q => some (s.queues q).last := update_eq_self i _
  have hready : Ready n (fun q => some (s.queues q).last) i s.mbufs (s.queues i) cells :=
    ⟨h.locked, by rw [hlast]; exact h.sound, h.fits i⟩
  obtain ⟨m, q, r, cells', hrun, hready', hothers, -⟩ := hready.call call
  have hlast' : update (fun q => some (s.queues q).last) i (some q.last) =
      fun j => some (update s.queues i q j).last := by
    funext j
    rcases eq_or_ne j i with rfl | hne
    · rw [update_self, update_self]
    · rw [update_of_ne hne, update_of_ne hne]
  have hsound := hready'.sound
  rw [hlast'] at hsound
  refine ⟨m, q, r, cells', hrun, hready'.locked, hsound, fun c => ?_, ?_, fun j => ?_⟩
  · rw [hothers (.caller c) Sum.inr_ne_inl Sum.inr_ne_inl, h.held]
  · rw [hothers .hand Sum.inr_ne_inl Sum.inr_ne_inl, h.hand]
  · show Fits (update s.queues i q j) (cells' (.queue j))
    rcases eq_or_ne j i with rfl | hne
    · rw [update_self]
      exact hready'.fits
    · have hne' : Place.queue j ≠ .queue i := fun he => hne (Chain.queue.inj (Sum.inl.inj he))
      rw [update_of_ne hne, hothers (.queue j) (by simp) hne']
      exact h.fits j

/-- Every call returns, and keeps the invariant. -/
theorem Kept.step (howned : op.Owned s) (hsafe : op.Safe s) :
    ∃ s' cells', s.step op = some s' ∧ Kept n s' cells' := by
  cases op with
  | alloc c =>
    obtain ⟨m, p, cells', hrun, hkept⟩ := h.alloc c
    refine ⟨_, cells', ?_, hkept⟩
    simp only [Sys.step, Mbufs.mbufAlloc, hrun, bind_eq_bind, bind_some]
  | tryAlloc c =>
    obtain ⟨m, p, cells', hrun, hkept⟩ := h.alloc c
    refine ⟨_, cells', ?_, hkept⟩
    simp only [Sys.step, Mbufs.mbufTryAlloc, hrun, bind_eq_bind, bind_some]
  | listAlloc c len =>
    obtain ⟨m, p, cells', hrun, hkept⟩ := h.listAlloc c hsafe
    refine ⟨_, cells', ?_, hkept⟩
    simp only [Sys.step, hrun, bind_eq_bind, bind_some]
  | free c b =>
    have hb : b ∈ cells (.caller c) := by
      rw [h.held]
      exact howned
    have hlocked : (s.mbufs.mbufRelease (.buf b)).locked = false := h.locked
    have hsound : Sound n (s.mbufs.mbufRelease (.buf b)) (fun q => some (s.queues q).last)
        (moveAll cells (.caller c) .free [b]) := h.sound.release hb
    refine ⟨_, _, ?_, h.back hlocked c hsound⟩
    simp only [Sys.step, mbufFree_eq h.locked, bind_eq_bind, bind_some]
  | listFree c p =>
    obtain ⟨l, hfollows, hnodup, hmem⟩ := howned
    rw [← h.held] at hmem
    obtain ⟨m, hrun, hlocked, hsound, -⟩ := h.sound.mbufListFree h.locked hfollows hmem hnodup
    have hfuel : l.length ≤ s.mbufs.max := by
      rw [h.sound.max]
      exact Nat.le_trans (subperm_of_subset hnodup hmem).length_le (h.sound.length_le _)
    refine ⟨_, _, ?_, h.back hlocked c hsound⟩
    simp only [Sys.step, hrun, chainOf_eq hfollows hfuel, bind_eq_bind, bind_some]
  | use c b v data => exact ⟨_, cells, rfl, h.use howned v _⟩
  | queue i call =>
    obtain ⟨m, q, r, cells', hrun, hkept⟩ := h.queue i call
    refine ⟨_, cells', ?_, hkept⟩
    simp only [Sys.step, hrun, bind_eq_bind, bind_some]

/-! ## The requests that break the pool -/

/-- A request for no buffer: the caller gets the first free buffer, which stays on the free list. -/
theorem Kept.listTake_nothing {b : Nat} {r : List Nat} (hx : x ≤ 0)
    (hc : cells .free = b :: r) : ∃ m, s.mbufs.listTake x = some (m, some (.buf b)) ∧
      m.next (.first .free) = some (.buf b) ∧ chainOf m.next m.max (some (.buf b)) = [b] := by
  have hused := h.sound.used
  have hmax := h.sound.max
  have hne : Node.buf b ≠ .first .free := nofun
  have hfirst : s.mbufs.next (.first .free) = some (.buf b) := by
    rw [h.sound.first_free, hc]
    rfl
  have hle : ¬x > (s.mbufs.max : Int) - s.mbufs.used := by omega
  have hnat : x.toNat = 0 := by omega
  rw [hc, length_cons] at hused
  refine ⟨Mbufs.unlock { s.mbufs with
    next := update (update s.mbufs.next (.buf b) none) (.first .free)
      (some (.buf b))
    used := (((s.mbufs.used : Int) + x) % 256).toNat }, ?_, ?_, ?_⟩
  · simp only [Mbufs.listTake, lock_eq h.locked, bind_eq_bind, bind_some,
      if_neg hle, hfirst, hnat, Mbufs.listWalk, reduceCtorEq, if_false, Mbufs.unlock]
  · show update (update s.mbufs.next (.buf b) none) (.first .free)
      (some (.buf b)) (.first .free) = some (.buf b)
    rw [update_self]
  · have hend : update (update s.mbufs.next (.buf b) none) (.first .free)
        (some (.buf b)) (.buf b) = none := by
      rw [update_of_ne hne, update_self]
    exact chainOf_eq ⟨rfl, hend⟩ (by show 1 ≤ s.mbufs.max; omega)

/-- A request for no buffer when none is free follows `NULL`. -/
theorem Kept.listTake_null (hx : x ≤ 0) (hc : cells .free = []) : s.mbufs.listTake x = none := by
  have hused := h.sound.used
  have hmax := h.sound.max
  have hfirst : s.mbufs.next (.first .free) = none := by
    rw [h.sound.first_free, hc]
    rfl
  have hle : ¬x > (s.mbufs.max : Int) - s.mbufs.used := by omega
  have hnat : x.toNat = 0 := by omega
  simp only [Mbufs.listTake, lock_eq h.locked, bind_eq_bind, bind_some,
    if_neg hle, hfirst, hnat, Mbufs.listWalk, bind_none]

end

/-- Where two holders have one buffer the pool is not in order. -/
theorem not_conserved_of_shared {b c : Nat} (hb : b < n)
    (hfree : s.mbufs.next (.first .free) = some (.buf b)) (hheld : b ∈ s.held c) :
    ¬Conserved n s cells := by
  intro h
  have hfirst := h.freeList.leads.next_eq
  rw [hfree, head?_map] at hfirst
  have hmem : b ∈ cells .free := by
    cases hc : cells .free with
    | nil =>
      rw [hc] at hfirst
      cases hfirst
    | cons i r =>
      rw [hc] at hfirst
      cases hfirst
      exact mem_cons_self
  rw [← h.held] at hheld
  exact Sum.inl_ne_inr ((h.owner b hb).unique hmem hheld)

/-- What `Safe` leaves out breaks the pool: the call does not return, it keeps the mutex, or it
gives a buffer away that is still free. -/
theorem Kept.not_conserved {s' : Sys} {cells' : Place → List Nat} (h : Kept n s cells)
    (howned : op.Owned s) (hsafe : ¬op.Safe s) (hstep : s.step op = some s') :
    ¬Conserved n s' cells' := by
  cases op with
  | listAlloc c len =>
    have hused := h.sound.used
    have hmax := h.sound.max
    have hlen : len < 2 ^ 31 := howned
    simp only [Op.Safe, MBUF_DATA_SIZE, not_and] at hsafe
    simp only [Sys.step, Mbufs.mbufListAlloc, bind_eq_bind] at hstep
    by_cases hrefused : ((cells .free).length : Int) < Mbufs.listCount len
    · rw [h.sound.listTake_refused h.locked hrefused, bind_some] at hstep
      cases hstep
      exact fun hc => by cases hc.unlocked
    · have hcount : Mbufs.listCount len ≤ 0 := by
        refine listCount_nonpos hlen ?_
        rcases Nat.eq_zero_or_pos len with hzero | hpos
        · exact .inl hzero
        · refine .inr (Nat.le_of_not_lt fun hlt => ?_)
          rw [listCount_eq hlt] at hrefused
          omega
      cases hc : cells .free with
      | nil =>
        rw [h.listTake_null hcount hc, bind_none] at hstep
        cases hstep
      | cons b r =>
        obtain ⟨m, hrun, hfirst, hchain⟩ := h.listTake_nothing hcount hc
        rw [hrun, bind_some, hchain] at hstep
        cases hstep
        have hb : b < n := h.sound.lists.shares.lt (p := Place.free) (hc ▸ mem_cons_self)
        refine not_conserved_of_shared (c := c) hb hfirst ?_
        show b ∈ update s.held c (s.held c ++ [b]) c
        rw [update_self]
        exact mem_append_right _ (mem_singleton_self b)
  | alloc c | tryAlloc c | free c b | listFree c p | use c b v data | queue i call =>
    exact absurd trivial hsafe

end

/-! ## Whole runs -/

theorem Kept.run {n : Nat} {s : Sys} {cells : Place → List Nat} {ops : List Op}
    (h : Kept n s cells) (hops : s.Orderly ops) :
    ∃ s' cells', s.run ops = some s' ∧ Kept n s' cells' := by
  induction ops generalizing s cells with
  | nil => exact ⟨s, cells, rfl, h⟩
  | cons op ops ih =>
    obtain ⟨howned, hsafe, hrest⟩ := hops
    obtain ⟨s1, cells1, hstep, h1⟩ := h.step howned hsafe
    obtain ⟨s', cells', hrun, h'⟩ := ih h1 (hrest s1 hstep)
    refine ⟨s', cells', ?_, h'⟩
    simp only [Sys.run, hstep, bind_eq_bind, bind_some]
    exact hrun

/-- From `mbuf_init` on, every orderly run of calls returns with no buffer lost and the mutex free.
There, a further call by callers that own what they free keeps it so exactly when it is safe. -/
theorem pool_conserved {n : Nat} (hn : n < 256) {ops : List Op} (hops : (Sys.init n).Orderly ops) :
    ∃ s, (Sys.init n).run ops = some s ∧ (∃ cells, Conserved n s cells) ∧ ∀ op : Op, op.Owned s →
        ((∃ s' cells', s.step op = some s' ∧ Conserved n s' cells') ↔ op.Safe s) := by
  obtain ⟨s, cells, hrun, h⟩ := (kept_init hn).run hops
  refine ⟨s, hrun, ⟨cells, h.conserved⟩, fun op howned => ⟨fun hex => ?_, fun hsafe => ?_⟩⟩
  · obtain ⟨s', cells', hstep, hc⟩ := hex
    by_contra hsafe
    exact h.not_conserved howned hsafe hstep hc
  · obtain ⟨s', cells', hstep, h'⟩ := h.step howned hsafe
    exact ⟨s', cells', hstep, h'.conserved⟩

theorem pool_conserved_small : (Sys.init 64).Orderly [.tryAlloc 0, .listAlloc 1 200, .free 0 0] ∧
      ∃ s, (Sys.init 64).run [.tryAlloc 0, .listAlloc 1 200, .free 0 0] = some s ∧
        (∃ cells, Conserved 64 s cells) ∧
        ∀ op : Op, op.Owned s →
          ((∃ s' cells', s.step op = some s' ∧ Conserved 64 s' cells') ↔ op.Safe s) := by
  have hops : (Sys.init 64).Orderly [.tryAlloc 0, .listAlloc 1 200, .free 0 0] := by
    refine ⟨trivial, trivial, fun s1 h1 => ?_⟩
    obtain rfl := some.inj h1
    refine ⟨by show 200 < 2 ^ 31; decide, ⟨by decide, by decide⟩, fun s2 h2 => ?_⟩
    have hheld : s2.held 0 = [0] := by
      obtain rfl := some.inj h2
      decide
    refine ⟨?_, trivial, fun _ _ => trivial⟩
    show 0 ∈ s2.held 0
    rw [hheld]
    exact mem_singleton_self 0
  exact ⟨hops, pool_conserved (by decide) hops⟩

/-- With all 64 buffers free, a list for no bytes is the first free buffer, which stays on the free
list while the others are lost; a list for more bytes than there is room is refused with the mutex
held. -/
theorem list_request_breaks_pool :
    (∃ s, (Sys.init 64).step (.listAlloc 0 0) = some s ∧ s.held 0 = [0] ∧
      s.mbufs.next (.first .free) = some (.buf 0) ∧ s.mbufs.next (.buf 0) = none ∧
      s.mbufs.used = 0 ∧ ∀ cells, ¬Conserved 64 s cells) ∧
    ∃ s, (Sys.init 64).step (.listAlloc 0 7937) = some s ∧ s.mbufs.locked = true ∧
      ∀ cells, ¬Conserved 64 s cells := by
  refine ⟨⟨_, rfl, by decide, by decide, by decide, by decide, fun cells => ?_⟩, _, rfl, by decide,
    fun cells => ?_⟩
  · have howned : (Op.listAlloc 0 0).Owned (Sys.init 64) := by
      show 0 < 2 ^ 31
      decide
    have hsafe : ¬(Op.listAlloc 0 0).Safe (Sys.init 64) := fun h => absurd h.1 (Nat.lt_irrefl 0)
    exact (kept_init (by decide)).not_conserved howned hsafe rfl
  · exact fun h => nomatch h.unlocked

end Mbuf
