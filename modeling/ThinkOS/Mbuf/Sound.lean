import ThinkOS.Mbuf.Queue

/-!
# The pool in order

`Sound` is the invariant of the buffer pool: every buffer is on the free list, on one queue or with
one caller, the lists are linked through their buffers up to their last pointers, and `used` counts
the buffers that are not free. The rules say what the primitives of the code do to it.
-/

namespace Mbuf

open Lib Function List Mbufs Option

/-- Who has a buffer that is on no list: a caller, or the call that is taking it from one list to
another. -/
inductive Holder where
  | caller (c : Nat)
  | hand
  deriving DecidableEq, Repr

abbrev Place := Chain ⊕ Holder

abbrev Place.free : Place := .inl .free
abbrev Place.queue (q : Nat) : Place := .inl (.queue q)
abbrev Place.caller (c : Nat) : Place := .inr (.caller c)
abbrev Place.hand : Place := .inr .hand

/-- The last pointers of the lists; a queue that is being taken apart has none. -/
def Mbufs.tails (m : Mbufs) (last : Nat → Option Node) : Chain → Option Node
  | .free => some m.last
  | .queue q => last q

/-- The pool of `n` buffers is in order. The counters `max` and `used` are bytes. -/
structure Sound (n : Nat) (m : Mbufs) (last : Nat → Option Node) (cells : Place → List Nat) :
    Prop where
  lists : Lists n m.next (m.tails last) cells
  used : m.used + (cells .free).length = n
  max : m.max = n
  small : n < 256

section
variable {n i q x len : Nat} {m : Mbufs} {last : Nat → Option Node} {cells : Place → List Nat}
  {k : Holder} {t : Node} {r a b : List Nat} {p : Option Node}

theorem Mbufs.tails_last (m : Mbufs) {m' : Mbufs} :
    m'.tails last = update (m.tails last) .free (some m'.last) := by
  funext c
  cases c with
  | free => rw [update_self]; rfl
  | queue q =>
    have hne : Chain.queue q ≠ .free := nofun
    rw [update_of_ne hne]
    rfl

theorem Mbufs.tails_queue {v : Option Node} :
    m.tails (update last q v) = update (m.tails last) (.queue q) v := by
  funext c
  cases c with
  | free =>
    have hne : Chain.free ≠ .queue q := nofun
    rw [update_of_ne hne]
    rfl
  | queue q' =>
    show update last q v q' = _
    rcases eq_or_ne q' q with rfl | hne
    · rw [update_self, update_self]
    · rw [update_of_ne hne, update_of_ne (fun he => hne (Chain.queue.inj he))]
      rfl

section
variable (h : Sound n m last cells)
include h

theorem Sound.length_le (p : Place) : (cells p).length ≤ n :=
  h.lists.shares.length_le p

theorem Sound.take (hc : cells .free = i :: r) (k : Holder) :
    Sound n (m.take (.buf i)) last (move cells .free (.inr k) i) where
  lists := by
    have hpop := h.lists.popAll (l := .free) (t := m.last) (a := [i]) (b := r) rfl hc rfl k
    rw [tails_last m]
    exact hpop
  used := by
    have hlen := h.used
    have hsmall := h.small
    rw [hc, length_cons] at hlen
    rw [move_from Sum.inl_ne_inr, hc, erase_cons_head]
    show (m.used + 1) % 256 + r.length = n
    omega
  max := h.max
  small := h.small

theorem Sound.release (hi : i ∈ cells (.inr k)) :
    Sound n (m.mbufRelease (.buf i)) last (move cells (.inr k) .free i) where
  lists := by
    have hpush := h.lists.push (l := .free) (t := m.last) rfl hi
    rw [tails_last m]
    exact hpush
  used := by
    have hlen := h.used
    have hsmall := h.small
    have hlt : (cells .free).length < n :=
      h.lists.shares.length_lt (h.lists.shares.lt hi) fun hf =>
        Sum.inr_ne_inl (h.lists.shares.unique hi hf)
    rw [move_to, length_append, length_singleton]
    show (m.used + 255) % 256 + _ = n
    omega
  max := h.max
  small := h.small

theorem Sound.push (ht : last q = some t) (hi : i ∈ cells (.inr k)) :
    Sound n ((m.link t (some (.buf i))).link (.buf i) none)
      (update last q (some (.buf i))) (move cells (.inr k) (.queue q) i) where
  lists := by
    have ht' : m.tails last (.queue q) = some t := ht
    rw [tails_queue]
    exact h.lists.push ht' hi
  used := by
    have hne : Place.free ≠ .queue q := nofun
    rw [move_of_ne Sum.inl_ne_inr hne]
    exact h.used
  max := h.max
  small := h.small

theorem Sound.pop (ht : last q = some t) (hc : cells (.queue q) = i :: r) (k : Holder) :
    Sound n (m.link (.first (.queue q)) (m.next (.buf i)))
      (update last q (some (if m.next (.buf i) = none then .first (.queue q) else t)))
      (move cells (.queue q) (.inr k) i) where
  lists := by
    have ht' : m.tails last (.queue q) = some t := ht
    rw [tails_queue]
    exact h.lists.popAll (a := [i]) (b := r) ht' hc rfl k
  used := by
    have hne : Place.free ≠ .queue q := nofun
    rw [move_of_ne hne Sum.inl_ne_inr]
    exact h.used
  max := h.max
  small := h.small

/-- A queue that is taken apart: its buffers are with a holder, and its links say nothing. -/
theorem Sound.spill (k : Holder) : Sound n m (update last q none)
      (moveAll cells (.queue q) (.inr k) (cells (.queue q))) where
  lists := by
    have hnone : update (m.tails last) (.queue q) none (.queue q) = none :=
      update_self ..
    rw [tails_queue]
    exact (h.lists.shut (.queue q)).spill hnone (append_nil _).symm k
  used := by
    have hne : Place.free ≠ .queue q := nofun
    rw [moveAll_of_ne hne Sum.inl_ne_inr]
    exact h.used
  max := h.max
  small := h.small

theorem Sound.reset (hc : cells (.queue q) = []) : Sound n (m.link (.first (.queue q)) none)
      (update last q (some (.first (.queue q)))) cells where
  lists := by
    rw [tails_queue]
    exact h.lists.reset hc
  used := h.used
  max := h.max
  small := h.small

end

/-! ## The start -/

/-- The loop of `mbuf_init` links the buffers one behind the other, and writes no other link. -/
theorem initLoop_leads {j : Nat} {p : Node} (next : Node → Option Node)
    (hp : p ∉ (List.range' i j).map Node.buf) :
    Leads (Mbufs.initLoop j i p next).1 p ((List.range' i j).map .buf) ∧
      (p :: (List.range' i j).map .buf).getLast? = some (Mbufs.initLoop j i p next).2 ∧
      ∀ x, x ∉ p :: (List.range' i j).map .buf → (Mbufs.initLoop j i p next).1 x = next x := by
  induction j generalizing i p next with
  | zero =>
    refine ⟨update_self .., rfl, fun x hx => ?_⟩
    exact update_of_ne (ne_of_not_mem_cons hx) ..
  | succ j ih =>
    rw [List.range'_succ, map_cons, mem_cons, not_or] at hp
    have hi : Node.buf i ∉ (List.range' (i + 1) j).map Node.buf := by
      intro hmem
      obtain ⟨x, hx, he⟩ := mem_map.mp hmem
      cases he
      exact absurd (mem_range'_1.mp hx).1 (Nat.not_succ_le_self i)
    obtain ⟨hleads, hlast, hframe⟩ := ih (update next p (some (.buf i))) hi
    rw [List.range'_succ, map_cons]
    refine ⟨⟨?_, hleads⟩, ?_, fun x hx => ?_⟩
    · exact (hframe p (not_mem_cons_of_ne_of_not_mem hp.1 hp.2)).trans
        (update_self ..)
    · rw [getLast?_cons_cons]
      exact hlast
    · rw [mem_cons, not_or] at hx
      exact (hframe x hx.2).trans (update_of_ne hx.1 ..)

/-- After `mbuf_init` all buffers are free. -/
def allFree (n : Nat) : Place → List Nat
  | .inl .free => List.range n
  | _ => []

theorem sound_init (hn : n < 256) :
    Sound n (Mbufs.mbufInit n) (fun q => some (.first (.queue q))) (allFree n) := by
  have hfirst (c : Chain) : Node.first c ∉ (List.range' 0 n).map Node.buf := by
    simp
  obtain ⟨hleads, hlast, hframe⟩ := initLoop_leads (fun _ => none) (hfirst .free)
  refine ⟨⟨⟨fun p => ?_, fun _ => Place.free, fun p i => ?_⟩, fun c t ht => ?_⟩, ?_, ?_, hn⟩
  · rcases p with (_ | q) | k
    · exact nodup_range
    · exact nodup_nil
    · exact nodup_nil
  · rcases p with (_ | q) | k <;> simp [allFree]
  · cases c with
    | free =>
      obtain rfl : (Mbufs.initLoop n 0 (.first .free) fun _ => none).2 = t := some.inj ht
      show Linked _ _ _ ((List.range n).map Node.buf)
      have hnodup : ((List.range n).map Node.buf).Nodup :=
        List.Nodup.map (fun _ _ he => Node.cell.inj he) nodup_range
      rw [range_eq_range'] at hnodup ⊢
      exact ⟨hleads, hlast, nodup_cons.mpr ⟨hfirst .free, hnodup⟩⟩
    | queue q =>
      obtain rfl : Node.first (.queue q) = t := some.inj ht
      have hq : Node.first (.queue q) ∉ .first .free :: (List.range' 0 n).map Node.buf := by
        simp
      exact ⟨hframe _ hq, rfl, nodup_singleton _⟩
  · show 0 + (List.range n).length = n
    rw [length_range, Nat.zero_add]
  · exact Nat.mod_eq_of_lt hn

/-! ## The calls -/

theorem Mbufs.lock_eq (hm : m.locked = false) : m.lock = some { m with locked := true } := by
  rw [Mbufs.lock, hm]
  rfl

section
variable (h : Sound n m last cells)
include h

theorem Sound.first_free : m.next (.first .free) = (cells .free).head?.map .buf :=
  h.lists.first (t := m.last) rfl

theorem Sound.first_queue (ht : last q = some t) :
    m.next (.first (.queue q)) = (cells (.queue q)).head?.map .buf := by
  have ht' : m.tails last (.queue q) = some t := ht
  exact h.lists.first ht'

theorem Sound.allocFirst_none (hm : m.locked = false) (hc : cells .free = []) :
    m.allocFirst = some (m, none) := by
  have hfirst := h.first_free
  rw [hc] at hfirst
  simp only [Mbufs.allocFirst, lock_eq hm, bind_eq_bind, bind_some, hfirst,
    head?_nil, map_none, Mbufs.unlock]
  cases m
  cases hm
  rfl

theorem Sound.allocFirst_some (hm : m.locked = false) (hc : cells .free = i :: r) :
    m.allocFirst = some (m.take (.buf i), some (.buf i)) := by
  have hfirst := h.first_free
  rw [hc] at hfirst
  simp only [Mbufs.allocFirst, lock_eq hm, bind_eq_bind, bind_some, hfirst,
    head?_cons, map_some, Mbufs.unlock, Mbufs.take]
  cases m
  cases hm
  rfl

omit h in
theorem Mbufs.mbufFree_eq (hm : m.locked = false) {p : Node} :
    m.mbufFree p = some (m.mbufRelease p) := by
  simp only [Mbufs.mbufFree, lock_eq hm, bind_eq_bind, bind_some, Mbufs.mbufRelease, Mbufs.unlock]
  cases m
  cases hm
  rfl

/-- A buffer with a holder is not the last one of the free list. -/
theorem Sound.ne_last (hi : i ∈ cells (.inr k)) : Node.buf i ≠ m.last := by
  intro he
  have hl := (h.lists.linked .free m.last rfl).last_mem
  rw [← he] at hl
  exact h.lists.loose hi hl

/-- A chain of buffers of one holder goes back to the free list; the links of the other buffers with
a holder stay. -/
theorem Sound.releaseAll {fuel : Nat} (hp : Follows m.next p a) (ha : ∀ i ∈ a, i ∈ cells (.inr k))
    (hn : a.Nodup) (hfuel : a.length ≤ fuel) :
    ∃ m', Mbufs.releaseAll fuel m p = some m' ∧ m'.locked = m.locked ∧ m'.data = m.data ∧
      Sound n m' last (moveAll cells (.inr k) .free a) ∧
      ∀ j k', j ∈ cells (.inr k') → j ∉ a → m'.next (.buf j) = m.next (.buf j) := by
  induction a generalizing m cells p fuel with
  | nil =>
    cases hp
    exact ⟨m, by cases fuel <;> rfl, rfl, rfl, h, fun _ _ _ _ => rfl⟩
  | cons i a ih =>
    obtain ⟨rfl, hp⟩ := hp
    rw [nodup_cons] at hn
    have hi := ha i mem_cons_self
    obtain _ | fuel := fuel
    · exact absurd hfuel (Nat.not_succ_le_zero _)
    · have hlast : m.last ∉ a.map Node.buf := by
        intro hmem
        obtain ⟨j, hj, he⟩ := mem_map.mp hmem
        exact h.ne_last (ha j (mem_cons_of_mem i hj)) he
      have hnew : Node.buf i ∉ a.map Node.buf := by
        intro hmem
        obtain ⟨j, hj, he⟩ := mem_map.mp hmem
        cases he
        exact hn.1 hj
      have hp' : Follows (m.mbufRelease (.buf i)).next (m.next (.buf i)) a :=
        (hp.update hlast _).update hnew none
      have hstay (j : Nat) (k' : Holder) (hj : j ∈ cells (.inr k')) (hji : j ≠ i) :
          j ∈ move cells (.inr k) .free i (.inr k') := by
        rcases eq_or_ne k' k with rfl | hne
        · rw [move_from Sum.inr_ne_inl, mem_erase_of_ne hji]
          exact hj
        · rw [move_of_ne (fun he => hne (Sum.inr.inj he)) Sum.inr_ne_inl]
          exact hj
      have ha' : ∀ j ∈ a, j ∈ move cells (.inr k) .free i (.inr k) := fun j hj =>
        hstay j k (ha j (mem_cons_of_mem i hj)) fun he => hn.1 (he ▸ hj)
      have hfuel' : a.length ≤ fuel := Nat.le_of_succ_le_succ hfuel
      obtain ⟨m', hrun, hlocked, hdata, hm', hframe⟩ := ih (h.release hi) hp' ha' hn.2 hfuel'
      refine ⟨m', hrun, hlocked, hdata, hm', fun j k' hj hja => ?_⟩
      rw [mem_cons, not_or] at hja
      have hne : Node.buf j ≠ .buf i := fun he => hja.1 (Node.cell.inj he)
      rw [hframe j k' (hstay j k' hj hja.1) hja.2]
      exact (update_of_ne hne ..).trans (update_of_ne (h.ne_last hj) ..)

theorem Sound.mbufListFree (hm : m.locked = false) (hp : Follows m.next p a)
    (ha : ∀ i ∈ a, i ∈ cells (.inr k)) (hn : a.Nodup) :
    ∃ m', m.mbufListFree p = some m' ∧ m'.locked = false ∧
      Sound n m' last (moveAll cells (.inr k) .free a) ∧ m'.data = m.data ∧
      ∀ j k', j ∈ cells (.inr k') → j ∉ a → m'.next (.buf j) = m.next (.buf j) := by
  have hlen : a.length ≤ m.max := by
    rw [h.max]
    exact Nat.le_trans (subperm_of_subset hn ha).length_le (h.length_le _)
  have hlocked : Sound n { m with locked := true } last cells :=
    { h with }
  obtain ⟨m', hrun, -, hdata, hm', hframe⟩ := hlocked.releaseAll (p := p) hp ha hn hlen
  refine ⟨m'.unlock, ?_, rfl, ⟨hm'.lists, hm'.used, hm'.max, hm'.small⟩, hdata, hframe⟩
  simp only [Mbufs.mbufListFree, lock_eq hm, bind_eq_bind, bind_some, hrun]

/-- `mbuf_queue_free` gives all buffers of the queue back. -/
theorem Sound.mbufQueueFree (hm : m.locked = false) (ht : last q = some t) :
    ∃ m', m.mbufQueueFree q = some (m', mbufQueueInit q) ∧ m'.locked = false ∧
      Sound n m' (update last q (some (.first (.queue q))))
        (moveAll (moveAll cells (.queue q) .hand (cells (.queue q))) .hand .free
          (cells (.queue q))) := by
  have ht' : m.tails last (.queue q) = some t := ht
  have hfollows := follows_of_leads (h.lists.linked (.queue q) t ht').leads
  have hspilt := h.spill (q := q) .hand
  have hlocked : Sound n { m with locked := true } (update last q none) _ :=
    { hspilt with }
  have hin : ∀ i ∈ cells (.queue q),
      i ∈ moveAll cells (.queue q) .hand (cells (.queue q)) .hand := by
    intro i hi
    rw [moveAll_to]
    exact mem_append_right _ hi
  have hlen : (cells (.queue q)).length ≤ m.max := by
    rw [h.max]
    exact h.length_le _
  obtain ⟨m', hrun, -, -, hm', -⟩ :=
    hlocked.releaseAll (p := m.next (.first (.queue q))) hfollows hin
      (h.lists.shares.nodup _) hlen
  have hempty : moveAll (moveAll cells (.queue q) .hand (cells (.queue q))) .hand .free
      (cells (.queue q)) (.queue q) = [] := by
    have hne : Place.queue q ≠ .free := nofun
    rw [moveAll_of_ne Sum.inl_ne_inr hne, moveAll_from Sum.inl_ne_inr (append_nil _).symm]
  have hopen : Sound n m'.unlock (update last q none) _ :=
    ⟨hm'.lists, hm'.used, hm'.max, hm'.small⟩
  refine ⟨m'.unlock.link (.first (.queue q)) none, ?_, rfl, ?_⟩
  · simp only [Mbufs.mbufQueueFree, lock_eq hm, bind_eq_bind, bind_some, hrun]
  · have hreset := hopen.reset (q := q) hempty
    rw [update_idem] at hreset
    exact hreset

end

/-! ## Lists of buffers for a caller -/

/-- The walk over the first buffers of the free list stops behind the last of them. -/
theorem listWalk_eq {next : Node → Option Node} {q : Option Node} (h : Follows next p (a ++ b))
    (hx : a.getLast? = some x) :
    Mbufs.listWalk next a.length p q = some (next (.buf x), some (.buf x)) := by
  induction a generalizing p q with
  | nil => cases hx
  | cons i a ih =>
    obtain ⟨rfl, h⟩ := h
    cases a with
    | nil =>
      obtain rfl : i = x := some.inj hx
      rfl
    | cons j a => exact ih h (getLast?_cons_cons ▸ hx)

theorem bmod_large (h : 2 ^ 31 ≤ x) (h' : x < 2 ^ 32) :
    Int.bmod (x : Int) (2 ^ 32) = -((2 ^ 32 - x : Nat) : Int) := by
  rw [Int.bmod_def]
  split <;> omega

theorem listSum_eq : (len : Int) + ((MBUF_DATA_SIZE : Int) - 1) = ((len + 123 : Nat) : Int) := by
  simp only [MBUF_DATA_SIZE]
  omega

theorem listQuot_eq : (x : Int).tdiv MBUF_DATA_SIZE = (x / 124 : Nat) := by
  simp only [MBUF_DATA_SIZE, Int.ofNat_tdiv]

theorem listCount_eq (h : len + 123 < 2 ^ 31) :
    Mbufs.listCount len = ((len + 123) / 124 : Nat) := by
  unfold Mbufs.listCount
  rw [listSum_eq, Int.bmod_eq_of_le (by omega) (by omega), listQuot_eq]

/-- No buffers for no bytes, and less than none when the sum leaves the range of an `int`. -/
theorem listCount_nonpos (hlen : len < 2 ^ 31) (h : len = 0 ∨ 2 ^ 31 ≤ len + 123) :
    Mbufs.listCount len ≤ 0 := by
  rcases h with rfl | h
  · rw [listCount_eq (by omega)]
    exact Int.le_refl 0
  · unfold Mbufs.listCount
    rw [listSum_eq, bmod_large h (by omega), Int.neg_tdiv, listQuot_eq]
    exact Int.neg_nonpos_of_nonneg (Int.natCast_nonneg _)

/-- A request that has to be refused leaves the mutex held. -/
theorem Sound.listTake_refused {x : Int} (h : Sound n m last cells) (hm : m.locked = false)
    (hx : ((cells .free).length : Int) < x) :
    m.listTake x = some ({ m with locked := true }, none) := by
  have hused := h.used
  have hgt : x > (m.max : Int) - m.used := by
    rw [h.max]
    omega
  simp only [Mbufs.listTake, lock_eq hm, bind_eq_bind, bind_some, if_pos hgt]

/-- A request for buffers that are there gives the caller the first of the free list, linked. -/
theorem Sound.listTake (h : Sound n m last cells) (hm : m.locked = false)
    (hc : cells .free = a ++ b) (ha : a ≠ []) (k : Holder) :
    ∃ m', m.listTake a.length = some (m', a.head?.map .buf) ∧ m'.locked = false ∧
      Follows m'.next (a.head?.map Node.buf) a ∧
      Sound n m' last (moveAll cells .free (.inr k) a) ∧ m'.data = m.data ∧
      ∀ c, c ∉ Node.first .free :: a.map Node.buf → m'.next c = m.next c := by
  obtain ⟨x, hx⟩ : ∃ x, a.getLast? = some x := ⟨_, getLast?_eq_some_getLast ha⟩
  have hused := h.used
  have hsmall := h.small
  rw [hc, length_append] at hused
  have hn : a.Nodup := (nodup_append.mp (hc ▸ h.lists.shares.nodup Place.free)).1
  have hfollows := follows_of_leads (h.lists.linked .free m.last rfl).leads
  rw [hc] at hfollows
  have hfirst : m.next (.first .free) = a.head?.map .buf := by
    rw [h.first_free, hc]
    cases a with
    | nil => exact absurd rfl ha
    | cons i a => rfl
  rw [hfirst] at hfollows
  have hle : ¬(a.length : Int) > (m.max : Int) - m.used := by
    rw [h.max]
    omega
  have hxhead : (Node.first .free :: a.map Node.buf).getLast? = some (.buf x) := by
    rw [getLast?_cons, getLast?_map, hx]
    rfl
  have hxa : x ∈ moveAll cells .free (.inr k) a (.inr k) := by
    rw [moveAll_to]
    exact mem_append_right _ (mem_of_getLast? hx)
  have hne : Node.first .free ≠ .buf x := nofun
  have hfree : Node.first .free ∉ a.map Node.buf := by
    simp
  have hlists := (h.lists.popAll (l := .free) (t := m.last) rfl hc hxhead k).write hxa none
  rw [update_comm hne] at hlists
  refine ⟨Mbufs.unlock { m with
    next := update (update m.next (.buf x) none) (.first .free) (m.next (.buf x))
    last := if m.next (.buf x) = none then .first .free else m.last
    used := (((m.used : Int) + a.length) % 256).toNat }, ?_, rfl, ?_, ⟨?_, ?_, h.max, h.small⟩, rfl,
    fun c hc => ?_⟩
  · simp only [Mbufs.listTake, lock_eq hm, bind_eq_bind, bind_some,
      if_neg hle, hfirst, Int.toNat_natCast, listWalk_eq hfollows hx, Mbufs.unlock]
  · exact (hfollows.cut hx hn).update hfree _
  · rw [tails_last m]
    exact hlists
  · rw [moveAll_from Sum.inl_ne_inr hc]
    show (((m.used : Int) + (a.length : Int)) % 256).toNat + b.length = n
    omega
  · rw [mem_cons, not_or] at hc
    have hcx : c ≠ .buf x := by
      rintro rfl
      exact hc.2 (mem_map_of_mem (mem_of_getLast? hx))
    exact (update_of_ne hc.1 ..).trans (update_of_ne hcx ..)

end

end Mbuf
