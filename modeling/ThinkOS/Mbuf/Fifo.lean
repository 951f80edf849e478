import ThinkOS.Mbuf.Content

/-!
# A queue is a byte FIFO

The calls that read and drop bytes, and the refinement: whatever is called on a queue, while the
rest of the system does what it likes with the pool and its own buffers, the queue is a list of
bytes.
-/

namespace Mbuf

open Function List Mbufs Option

variable {q : MbufQueue} {n i : Nat} {m : Mbufs} {p : Option Node} {s : List UInt8}

open Lib

section
variable {b k : Nat} {last : Nat → Option Node} {cells cells' : Place → List Nat} {l r : List Nat}
  {fuel : Nat}

/-! ## Dropping -/

theorem Fits.load_eq (h : Fits q (b :: r)) (hk : k ≤ q.len) (hoffs : q.offs + k ≤ 124) :
    m.load (.buf b) q.offs k = (m.content q (b :: r)).take k := by
  have hsplit : m.load (.buf b) 0 124 = m.load (.buf b) 0 q.offs ++ (m.load (.buf b) q.offs k ++
        m.load (.buf b) (q.offs + k) (124 - q.offs - k)) := by
    have hrest : 124 - q.offs = k + (124 - q.offs - k) := by omega
    rw [load_split (Nat.le_of_lt h.offs), hrest, load_add, Nat.add_sub_cancel_left]
  have htake : ((m.load (.buf b) q.offs k ++ m.load (.buf b) (q.offs + k) (124 - q.offs - k)) ++
      m.bytes r).take k = m.load (.buf b) q.offs k := by
    rw [append_assoc]
    exact take_left' length_load
  rw [Mbufs.content, bytes_cons, hsplit, append_assoc,
    drop_left' length_load, take_take, Nat.min_eq_left hk, htake]

theorem Mbufs.content_skip :
    m.content { q with offs := q.offs + k, len := q.len - k } l = (m.content q l).drop k := by
  rw [Mbufs.content, Mbufs.content, drop_take, drop_drop]

theorem Mbufs.content_next (hoffs : q.offs + k = 124) :
    m.content { q with offs := 0, len := q.len - k } r = (m.content q (b :: r)).drop k := by
  rw [← content_skip, hoffs, Mbufs.content, Mbufs.content, bytes_cons, drop_left' length_load]
  rfl

section
variable (h : Ready n last i m q cells)
include h

theorem Ready.dropHead (hc : cells (.queue i) = b :: r) :
    ∃ m', m.dropHead i (some (.buf b)) = some m' ∧ m'.locked = false ∧ m'.data = m.data ∧
      Sound n m' (update last i (some (if r = [] then .first (.queue i) else q.last)))
        (move cells (.queue i) .free b) := by
  have ht : m.tails (update last i (some q.last)) (.queue i) = some q.last :=
    update_self ..
  have hnext : m.next (.buf b) = none ↔ r = [] := by
    have hleads := (h.sound.lists.linked (.queue i) q.last ht).leads
    rw [hc] at hleads
    rw [hleads.2.next_eq, head?_map, map_eq_none_iff, head?_eq_none_iff]
  have hb : b ∈ cells (.queue i) := by
    rw [hc]
    exact mem_cons_self
  have hhand : b ∉ cells .hand := fun hb' =>
    Sum.inl_ne_inr (h.sound.lists.shares.unique hb hb')
  have hin : b ∈ move cells (.queue i) .hand b .hand := by
    rw [move_to]
    exact mem_append_right _ (mem_singleton_self b)
  have hne : Place.queue i ≠ .free := nofun
  have hsound := (h.sound.pop (update_self ..) hc .hand).release hin
  rw [update_idem, move_move hhand Sum.inl_ne_inr Sum.inr_ne_inl hne,
    if_congr hnext rfl rfl] at hsound
  have hlocked : (m.link (.first (.queue i)) (m.next (.buf b))).locked = false := h.locked
  exact ⟨_, mbufFree_eq hlocked, h.locked, rfl, hsound⟩

omit h in
theorem others_back : Others i cells (move cells (.queue i) .free b) :=
  fun _ hp hq => move_of_ne hq hp

theorem Ready.exists_head (hlen : 0 < q.len) :
    ∃ b r, cells (.queue i) = b :: r ∧ m.next (.first (.queue i)) = some (.buf b) := by
  have hroom := h.fits.room
  have hfirst := h.sound.first_queue (update_self ..)
  cases hc : cells (.queue i) with
  | nil =>
    rw [hc, length_nil] at hroom
    omega
  | cons b r =>
    rw [hc] at hfirst
    exact ⟨b, r, rfl, hfirst⟩

omit h in
theorem fits_init : Fits (mbufQueueInit i) [] :=
  ⟨Nat.succ_pos _, Nat.le_refl 0, Nat.succ_pos _, fun _ => rfl⟩

/-- The last bytes of a queue go with its last buffer. -/
theorem Ready.dropLast (hc : cells (.queue i) = b :: r) (hone : q.offs + q.len ≤ 124) :
    ∃ m' cells', m.dropHead i (some (.buf b)) = some m' ∧
      Ready n last i m' (mbufQueueInit i) cells' ∧ Others i cells cells' ∧
      m'.content (mbufQueueInit i) (cells' (.queue i)) = (m.content q (cells (.queue i))).drop q.len := by
  have hfull := h.fits.full
  rw [hc, length_cons] at hfull
  obtain rfl : r = [] := length_eq_zero_iff.mp (by omega)
  obtain ⟨m', hdrop, hlocked, hdata, hsound⟩ := h.dropHead hc
  have hcells : move cells (.queue i) .free b (.queue i) = [] := by
    have hne : Place.queue i ≠ .free := nofun
    rw [move_from hne, hc, erase_cons_head]
  refine ⟨m', _, hdrop, ⟨hlocked, hsound, ?_⟩, others_back, ?_⟩
  · rw [hcells]
    exact fits_init
  · rw [drop_eq_nil_of_le (Nat.le_of_eq h.fits.length_content)]
    rfl

theorem Ready.dropFirst (hc : cells (.queue i) = b :: r) (hk : k < q.len)
    (hall : q.offs + k = 124) : ∃ m' cells', m.dropHead i (some (.buf b)) = some m' ∧
      Ready n last i m' { q with offs := 0, len := q.len - k } cells' ∧ Others i cells cells' ∧
      m'.content { q with offs := 0, len := q.len - k } (cells' (.queue i)) =
        (m.content q (cells (.queue i))).drop k := by
  have hroom := h.fits.room
  have hfull := h.fits.full
  rw [hc, length_cons] at hroom hfull
  have hr : r ≠ [] := fun hnil => by
    rw [hnil, length_nil] at hroom
    omega
  obtain ⟨m', hdrop, hlocked, hdata, hsound⟩ := h.dropHead hc
  rw [if_neg hr] at hsound
  have hcells : move cells (.queue i) .free b (.queue i) = r := by
    have hne : Place.queue i ≠ .free := nofun
    rw [move_from hne, hc, erase_cons_head]
  refine ⟨m', _, hdrop, ⟨hlocked, hsound, ?_⟩, others_back, ?_⟩
  · rw [hcells]
    refine ⟨Nat.succ_pos _, ?_, ?_, fun _ => rfl⟩
    · show 0 + (q.len - k) ≤ _
      omega
    · show _ < 0 + (q.len - k) + 124
      omega
  · rw [hcells, hc, content_congr fun c _ => congrFun hdata (.buf c), content_next hall]

/-- Bytes are dropped within the first buffer. -/
theorem Ready.skip (hk : k < q.len) (hpart : q.offs + k < 124) :
    Ready n last i m { q with offs := q.offs + k, len := q.len - k } cells ∧
      m.content { q with offs := q.offs + k, len := q.len - k } (cells (.queue i)) =
        (m.content q (cells (.queue i))).drop k := by
  have hroom := h.fits.room
  have hfull := h.fits.full
  refine ⟨⟨h.locked, h.sound, ⟨hpart, ?_, ?_, ?_⟩⟩, content_skip⟩
  · show q.offs + k + (q.len - k) ≤ _
    omega
  · show _ < q.offs + k + (q.len - k) + 124
    omega
  · show q.len - k = 0 → _
    omega

end

/-- The loop of `mbuf_queue_trim` and `mbuf_queue_remove` drops what it is asked for. -/
theorem Ready.removeLoop {rem : Nat} (copy : Bool) (h : Ready n last i m q cells)
    (hrem : rem ≤ q.len) (hfuel : rem ≤ fuel) :
    ∃ m' q' cells', Mbufs.removeLoop copy i fuel m q (m.next (.first (.queue i))) rem =
        some (m', q', rem, if copy then (m.content q (cells (.queue i))).take rem else []) ∧
      Ready n last i m' q' cells' ∧ Others i cells cells' ∧
      m'.content q' (cells' (.queue i)) = (m.content q (cells (.queue i))).drop rem := by
  induction fuel generalizing m q cells rem with
  | zero =>
    obtain rfl := Nat.le_zero.mp hfuel
    refine ⟨m, q, cells, ?_, h, .refl, rfl⟩
    rw [take_zero, ite_self]
    rfl
  | succ fuel ih =>
    cases rem with
    | zero =>
      refine ⟨m, q, cells, ?_, h, .refl, rfl⟩
      rw [take_zero, ite_self]
      rfl
    | succ rem =>
      obtain ⟨b, r, hc, hfirst⟩ := h.exists_head (Nat.lt_of_lt_of_le (Nat.succ_pos rem) hrem)
      have hoffs := h.fits.offs
      have hroom := h.fits.room
      have hmax := h.length_le
      set k := min (rem + 1) (124 - q.offs) with hk
      have hout : Mbufs.fetch copy m (some (.buf b)) q.offs k =
          some (if copy then (m.content q (cells (.queue i))).take k else []) := by
        have hload : m.load (.buf b) q.offs k = (m.content q (cells (.queue i))).take k := by
          rw [hc]
          exact (hc ▸ h.fits).load_eq (by omega) (by omega)
        cases copy with
        | false => rfl
        | true => exact congrArg some hload
      have hlen : (q.len + (65536 - k)) % 65536 = q.len - k := by omega
      have hkrem : k ≤ rem + 1 := Nat.min_le_left ..
      have hfuel' : rem + 1 - k ≤ fuel := by omega
      have hjoin (out : List UInt8) :
          (if copy then out.take k else []) ++ (if copy then (out.drop k).take (rem + 1 - k) else []) =
            if copy then out.take (rem + 1) else [] := by
        cases copy with
        | false => rfl
        | true =>
          show out.take k ++ (out.drop k).take (rem + 1 - k) = out.take (rem + 1)
          rw [← take_add, Nat.add_sub_cancel' hkrem]
      rw [hfirst]
      simp only [Mbufs.removeLoop, MBUF_DATA_SIZE, ← hk, hout, hlen, bind_eq_bind, bind_some]
      by_cases hall : q.len - k = 0
      · have hkall : k = rem + 1 := by omega
        have hkq : q.len = rem + 1 := by omega
        obtain ⟨m', cells', hdrop, hready, hothers, hcontent⟩ := h.dropLast hc (by omega)
        refine ⟨m', mbufQueueInit i, cells', ?_, hready, hothers, ?_⟩
        · rw [if_pos hall, hdrop, bind_some, hkall]
          rfl
        · rw [hcontent, hkq]
      · rw [if_neg hall]
        by_cases hedge : q.offs + k = 124
        · obtain ⟨m1, cells1, hdrop, hready1, hothers1, hcontent1⟩ :=
            h.dropFirst hc (by omega) hedge
          obtain ⟨m', q', cells', hrun, hready, hothers, hcontent⟩ :=
            ih hready1 (Nat.sub_le_sub_right hrem k) hfuel'
          refine ⟨m', q', cells', ?_, hready, hothers1.trans hothers, ?_⟩
          · rw [if_pos hedge, hdrop, bind_some, hrun, bind_some, hcontent1,
              hjoin, Nat.add_sub_cancel' hkrem]
          · rw [hcontent, hcontent1, drop_drop, Nat.add_sub_cancel' hkrem]
        · obtain ⟨hready1, hcontent1⟩ := h.skip (k := k) (by omega) (by omega)
          obtain ⟨m', q', cells', hrun, hready, hothers, hcontent⟩ :=
            ih hready1 (Nat.sub_le_sub_right hrem k) hfuel'
          rw [hfirst] at hrun
          refine ⟨m', q', cells', ?_, hready, hothers, ?_⟩
          · rw [if_neg hedge, hrun, bind_some, hcontent1, hjoin, Nat.add_sub_cancel' hkrem]
          · rw [hcontent, hcontent1, drop_drop, Nat.add_sub_cancel' hkrem]

/-- `mbuf_queue_trim` and `mbuf_queue_remove` drop the first bytes, as many as asked for if there
are so many. -/
theorem Ready.removeBody (copy : Bool) (h : Ready n last i m q cells) (len : Nat) :
    ∃ m' q' cells', Mbufs.removeBody copy m i q len = some (m', q', min len q.len,
          if copy then (m.content q (cells (.queue i))).take (min len q.len) else []) ∧
      Ready n last i m' q' cells' ∧ Others i cells cells' ∧
      m'.content q' (cells' (.queue i)) =
        (m.content q (cells (.queue i))).drop (min len q.len) := by
  by_cases hrem : min len q.len = 0
  · refine ⟨m, q, cells, ?_, h, .refl, ?_⟩
    · rw [hrem, take_zero, ite_self, Mbufs.removeBody, if_pos hrem]
    · rw [hrem, drop_zero]
  · obtain ⟨m', q', cells', hrun, hready, hothers, hcontent⟩ :=
      h.removeLoop copy (Nat.min_le_right len q.len) (Nat.le_refl _)
    refine ⟨m', q', cells', ?_, hready, hothers, hcontent⟩
    rw [Mbufs.removeBody, if_neg hrem, hrun]

/-! ## Reading -/

theorem skipLoop_eq {offs pos : Nat} (hp : Follows m.next p l) (ho : offs < 124)
    (hl : offs + pos < 124 * l.length) (hfuel : pos ≤ fuel) :
    ∃ p' o' l0 l', m.skipLoop fuel p offs pos = some (p', o') ∧ l = l0 ++ l' ∧
      Follows m.next p' l' ∧ o' < 124 ∧ 124 * l0.length + o' = offs + pos := by
  induction fuel generalizing p offs pos l with
  | zero =>
    obtain rfl := Nat.le_zero.mp hfuel
    exact ⟨p, offs, [], l, rfl, rfl, hp, ho, Nat.zero_add _⟩
  | succ fuel ih =>
    cases pos with
    | zero => exact ⟨p, offs, [], l, rfl, rfl, hp, ho, Nat.zero_add _⟩
    | succ pos =>
      set k := min (pos + 1) (124 - offs) with hk
      have hfuel' : pos + 1 - k ≤ fuel := by omega
      by_cases hedge : offs + k = 124
      · cases l with
        | nil =>
          rw [length_nil] at hl
          omega
        | cons b r =>
          obtain ⟨rfl, hp⟩ := hp
          rw [length_cons] at hl
          have hl' : 0 + (pos + 1 - k) < 124 * r.length := by omega
          obtain ⟨p', o', l0, l', hrun, rfl, hp', ho', hpos⟩ :=
            ih hp (Nat.succ_pos _) hl' hfuel'
          refine ⟨p', o', b :: l0, l', ?_, rfl, hp', ho', ?_⟩
          · simp only [Mbufs.skipLoop, MBUF_DATA_SIZE, ← hk, if_pos hedge, bind_eq_bind, bind_some]
            exact hrun
          · rw [length_cons]
            omega
      · have ho' : offs + k < 124 := by omega
        have hl' : offs + k + (pos + 1 - k) < 124 * l.length := by omega
        obtain ⟨p', o', l0, l', hrun, hsplit, hp', ho'', hpos⟩ := ih hp ho' hl' hfuel'
        refine ⟨p', o', l0, l', ?_, hsplit, hp', ho'', by omega⟩
        simp only [Mbufs.skipLoop, MBUF_DATA_SIZE, ← hk, if_neg hedge]
        exact hrun

theorem copyLoop_eq {offs rem : Nat} (hp : Follows m.next p l) (ho : offs < 124)
    (hl : offs + rem ≤ 124 * l.length) (hfuel : rem ≤ fuel) :
    m.copyLoop fuel p offs rem = some (((m.bytes l).drop offs).take rem) := by
  induction fuel generalizing p offs rem l with
  | zero =>
    obtain rfl := Nat.le_zero.mp hfuel
    rfl
  | succ fuel ih =>
    cases rem with
    | zero => rfl
    | succ rem =>
      set k := min (rem + 1) (124 - offs) with hk
      cases l with
      | nil =>
        rw [length_nil] at hl
        omega
      | cons b r =>
        obtain ⟨rfl, hp⟩ := hp
        rw [length_cons] at hl
        have hl' : 0 + (rem + 1 - k) ≤ 124 * r.length := by omega
        have hfuel' : rem + 1 - k ≤ fuel := by omega
        have hrest : (m.bytes r).take (rem + 1 - (124 - offs)) = (m.bytes r).take (rem + 1 - k) := by
          have heq : rem + 1 - (124 - offs) = rem + 1 - k := by omega
          rw [heq]
        rw [bytes_cons, load_split (Nat.le_of_lt ho), append_assoc,
          drop_left' length_load, take_append, take_load,
          length_load, ← hk, hrest]
        simp only [Mbufs.copyLoop, MBUF_DATA_SIZE, ← hk, bind_eq_bind, bind_some]
        have hrun := ih hp (Nat.succ_pos _) hl' hfuel'
        rw [drop_zero] at hrun
        rw [hrun, bind_some]

theorem Ready.follows (h : Ready n last i m q cells) :
    Follows m.next (m.next (.first (.queue i))) (cells (.queue i)) := by
  have ht : m.tails (update last i (some q.last)) (.queue i) = some q.last :=
    update_self ..
  exact follows_of_leads (h.sound.lists.linked (.queue i) q.last ht).leads

/-- `mbuf_queue_get` reads the bytes from a position on. -/
theorem Ready.mbufQueueGet (h : Ready n last i m q cells) (offs len : Nat) :
    m.mbufQueueGet i q offs len = some (((m.content q (cells (.queue i))).drop offs).take len) := by
  have hlen := h.fits.length_content (m := m)
  have hroom := h.fits.room
  rw [Mbufs.mbufQueueGet]
  by_cases hoffs : offs > q.len
  · rw [if_pos hoffs, drop_eq_nil_of_le (by omega), take_nil]
  · rw [if_neg hoffs]
    by_cases hrem : min len (q.len - offs) = 0
    · have hnil : ((m.content q (cells (.queue i))).drop offs).take len = [] := by
        rw [← length_eq_zero_iff, length_take, length_drop, hlen, hrem]
      rw [hnil]
      exact if_pos hrem
    · obtain ⟨p, o, l0, l', hskip, hsplit, hp, ho, hpos⟩ :=
        skipLoop_eq h.follows h.fits.offs (by omega : q.offs + offs < _) (Nat.le_refl offs)
      have hlength := congrArg List.length hsplit
      rw [length_append] at hlength
      have hcopy := copyLoop_eq hp ho
        (by omega : o + min len (q.len - offs) ≤ 124 * l'.length) (Nat.le_refl _)
      have hdrop : (m.bytes (cells (.queue i))).drop (q.offs + offs) = (m.bytes l').drop o := by
        rw [hsplit, bytes_append, ← hpos, ← drop_drop, drop_left' length_bytes]
      rw [← content_skip, Mbufs.content, take_take, hdrop]
      simp only [if_neg hrem, hskip, bind_eq_bind, bind_some, hcopy]

theorem Ready.mbufQueueFree (h : Ready n last i m q cells) :
    ∃ m' cells', m.mbufQueueFree i = some (m', mbufQueueInit i) ∧
      Ready n last i m' (mbufQueueInit i) cells' ∧ Others i cells cells' ∧
      m'.content (mbufQueueInit i) (cells' (.queue i)) = [] := by
  have hq : Place.queue i ≠ .free := nofun
  obtain ⟨m', hrun, hlocked, hsound⟩ :=
    h.sound.mbufQueueFree h.locked (q := i) (update_self ..)
  rw [update_idem] at hsound
  refine ⟨m', _, hrun, ⟨hlocked, hsound, ?_⟩, fun p hp hpq => ?_, rfl⟩
  · rw [moveAll_of_ne Sum.inl_ne_inr hq, moveAll_from Sum.inl_ne_inr (append_nil _).symm]
    exact fits_init
  · rcases eq_or_ne p .hand with rfl | hhand
    · have hall : moveAll cells (.queue i) .hand (cells (.queue i)) .hand =
          cells .hand ++ (cells (.queue i) ++ []) := by
        rw [moveAll_to, append_nil]
      rw [moveAll_mid Sum.inr_ne_inl hall fun b hb hb' =>
        Sum.inl_ne_inr (h.sound.lists.shares.unique hb hb'), append_nil]
    · rw [moveAll_of_ne hhand hp, moveAll_of_ne hpq hhand]

end

/-! ## The refinement -/

inductive QueueCall where
  | add (buf : List UInt8)
  | get (offs len : Nat)
  | trim (len : Nat)
  | remove (len : Nat)
  | free

/-- What a call gives back: its result, the bytes it copies out, and whether it leaves no free
buffer. -/
structure Reply where
  ret : Nat
  out : List UInt8
  dry : Bool

def Mbufs.dry (m : Mbufs) : Bool :=
  (m.next (.first .free)).isNone

/-- A call on queue `i`. -/
def Mbufs.call (m : Mbufs) (i : Nat) (q : MbufQueue) :
    QueueCall → Option (Mbufs × MbufQueue × Reply)
  | .add buf => (m.mbufQueueAdd q buf).map fun r => (r.1, r.2.1, ⟨r.2.2, [], r.1.dry⟩)
  | .get offs len => (m.mbufQueueGet i q offs len).map fun out => (m, q, ⟨out.length, out, m.dry⟩)
  | .trim len => (m.mbufQueueTrim i q len).map fun r => (r.1, r.2.1, ⟨r.2.2, [], r.1.dry⟩)
  | .remove len =>
    (m.mbufQueueRemove i q len).map fun r => (r.1, r.2.1, ⟨r.2.2.1, r.2.2.2, r.1.dry⟩)
  | .free => (m.mbufQueueFree i).map fun r => (r.1, r.2, ⟨0, [], r.1.dry⟩)

/-- The calls on a list of bytes. An addition takes a part of its bytes only when it leaves no free
buffer. -/
inductive Fifo : List UInt8 → QueueCall → Reply → List UInt8 → Prop where
  | add {s buf : List UInt8} {k : Nat} {dry : Bool} (hk : k ≤ buf.length)
      (hdry : k < buf.length → dry = true) : Fifo s (.add buf) ⟨k, [], dry⟩ (s ++ buf.take k)
  | get {s : List UInt8} {offs len : Nat} {dry : Bool} :
      Fifo s (.get offs len) ⟨((s.drop offs).take len).length, (s.drop offs).take len, dry⟩ s
  | trim {s : List UInt8} {len : Nat} {dry : Bool} :
      Fifo s (.trim len) ⟨min len s.length, [], dry⟩ (s.drop (min len s.length))
  | remove {s : List UInt8} {len : Nat} {dry : Bool} :
      Fifo s (.remove len) ⟨min len s.length, s.take (min len s.length), dry⟩
        (s.drop (min len s.length))
  | free {s : List UInt8} {dry : Bool} : Fifo s .free ⟨0, [], dry⟩ []

/-- Calls one after the other on a list of bytes. -/
inductive FifoRun : List UInt8 → List (QueueCall × Reply) → List UInt8 → Prop where
  | nil {s : List UInt8} : FifoRun s [] s
  | cons {s s' s'' : List UInt8} {c : QueueCall} {r : Reply} {rest : List (QueueCall × Reply)}
      (step : Fifo s c r s') (run : FifoRun s' rest s'') : FifoRun s ((c, r) :: rest) s''

/-- Queue `i` holds the bytes `s`, in a pool of `n` buffers in order. -/
def Holds (n i : Nat) (m : Mbufs) (q : MbufQueue) (s : List UInt8) : Prop :=
  ∃ last cells, Ready n last i m q cells ∧ m.content q (cells (.queue i)) = s

/-- What the rest of the system does between two calls: anything that leaves the pool in order and
the bytes of the queue alone. -/
structure Rest (n i : Nat) where
  step : Mbufs → Mbufs
  keeps : ∀ m q s, Holds n i m q s → Holds n i (step m) q s

/-- Calls on queue `i`, the rest of the system at work before each of them. -/
def Mbufs.calls {n i : Nat} (m : Mbufs) (q : MbufQueue) :
    List (Rest n i × QueueCall) → Option (Mbufs × MbufQueue × List Reply)
  | [] => some (m, q, [])
  | (e, c) :: rest => do
    let (m, q, r) ← (e.step m).call i q c
    let (m, q, rs) ← m.calls q rest
    some (m, q, r :: rs)

theorem Holds.length_eq (h : Holds n i m q s) : q.len = s.length := by
  obtain ⟨last, cells, hready, rfl⟩ := h
  exact hready.fits.length_content.symm

/-- One call: the queue goes on as the list does, and no other queue or caller has other buffers
than before. -/
theorem Ready.call {last : Nat → Option Node} {cells : Place → List Nat}
    (h : Ready n last i m q cells) (c : QueueCall) :
    ∃ m' q' r cells', m.call i q c = some (m', q', r) ∧ Ready n last i m' q' cells' ∧
      Others i cells cells' ∧
      Fifo (m.content q (cells (.queue i))) c r (m'.content q' (cells' (.queue i))) := by
  have hlen := h.fits.length_content (m := m)
  set s := m.content q (cells (.queue i)) with hs
  cases c with
  | add buf =>
    obtain ⟨m', q', cells', k, hrun, hk, hdry, hready, hothers, hcontent⟩ := h.mbufQueueAdd buf
    have hdry' : k < buf.length → m'.dry = true := by
      intro hlt
      rw [Mbufs.dry, hready.sound.first_free, hdry hlt]
      rfl
    refine ⟨m', q', ⟨k, [], m'.dry⟩, cells', ?_, hready, hothers, ?_⟩
    · rw [Mbufs.call, hrun]
      rfl
    · rw [hcontent]
      exact .add hk hdry'
  | get offs len =>
    refine ⟨m, q, ⟨_, _, m.dry⟩, cells, ?_, h, .refl, .get⟩
    rw [Mbufs.call, h.mbufQueueGet]
    rfl
  | trim len =>
    obtain ⟨m', q', cells', hrun, hready, hothers, hcontent⟩ := h.removeBody false len
    rw [← hs, ← hlen] at hrun hcontent
    refine ⟨m', q', ⟨min len s.length, [], m'.dry⟩, cells', ?_, hready, hothers, ?_⟩
    · rw [Mbufs.call, Mbufs.mbufQueueTrim, hrun]
      rfl
    · rw [hcontent]
      exact .trim
  | remove len =>
    obtain ⟨m', q', cells', hrun, hready, hothers, hcontent⟩ := h.removeBody true len
    rw [← hs, ← hlen] at hrun hcontent
    refine ⟨m', q', ⟨min len s.length, s.take (min len s.length), m'.dry⟩, cells', ?_, hready, hothers, ?_⟩
    · rw [Mbufs.call, Mbufs.mbufQueueRemove, hrun]
      rfl
    · rw [hcontent]
      exact .remove
  | free =>
    obtain ⟨m', cells', hrun, hready, hothers, hcontent⟩ := h.mbufQueueFree
    refine ⟨m', _, ⟨0, [], m'.dry⟩, cells', ?_, hready, hothers, ?_⟩
    · rw [Mbufs.call, hrun]
      rfl
    · rw [hcontent]
      exact .free

theorem Holds.call (h : Holds n i m q s) (c : QueueCall) :
    ∃ m' q' r s', m.call i q c = some (m', q', r) ∧ Fifo s c r s' ∧ Holds n i m' q' s' := by
  obtain ⟨last, cells, hready, rfl⟩ := h
  obtain ⟨m', q', r, cells', hrun, hready', -, hfifo⟩ := hready.call c
  exact ⟨m', q', r, _, hrun, hfifo, last, cells', hready', rfl⟩

/-- Whatever is called on a queue, and whatever the rest of the system does meanwhile, every call
returns and the queue is a list of bytes. -/
theorem queue_is_fifo {n i : Nat} {m : Mbufs} {q : MbufQueue} {s : List UInt8}
    (h : Holds n i m q s) (script : List (Rest n i × QueueCall)) :
    ∃ m' q' replies s', m.calls q script = some (m', q', replies) ∧ replies.length = script.length ∧
      FifoRun s ((script.map Prod.snd).zip replies) s' ∧
      Holds n i m' q' s' ∧ q'.len = s'.length := by
  induction script generalizing m q s with
  | nil => exact ⟨m, q, [], s, rfl, rfl, .nil, h, h.length_eq⟩
  | cons ec rest ih =>
    obtain ⟨e, c⟩ := ec
    obtain ⟨m1, q1, r, s1, hcall, hstep, h1⟩ := (e.keeps m q s h).call c
    obtain ⟨m', q', replies, s', hrun, hlen, hfifo, h', hlen'⟩ := ih h1
    refine ⟨m', q', r :: replies, s', ?_, congrArg Nat.succ hlen, .cons hstep hfifo, h', hlen'⟩
    simp only [Mbufs.calls, hcall, hrun, bind_eq_bind, bind_some]

/-- The rest of the system does nothing. -/
def Rest.idle (n i : Nat) : Rest n i :=
  ⟨id, fun _ _ _ h => h⟩

/-- A caller takes a buffer from the pool, if there is one. -/
def Rest.alloc (n i : Nat) : Rest n i where
  step m := (m.mbufTryAlloc.map Prod.fst).getD m
  keeps := by
    rintro m q s ⟨last, cells, h, hs⟩
    have hq : Place.queue i ≠ .free := nofun
    cases hc : cells .free with
    | nil =>
      rw [Mbufs.mbufTryAlloc, h.sound.allocFirst_none h.locked hc]
      exact ⟨last, cells, h, hs⟩
    | cons b r =>
      have hcells : move cells .free (.caller 0) b (.queue i) = cells (.queue i) :=
        move_of_ne hq Sum.inl_ne_inr
      rw [Mbufs.mbufTryAlloc, h.sound.allocFirst_some h.locked hc]
      refine ⟨last, move cells .free (.caller 0) b, ⟨h.locked, h.sound.take hc (.caller 0), ?_⟩, ?_⟩
      · rw [hcells]
        exact h.fits
      · rw [hcells]
        exact hs

theorem holds_init (hn : n < 256) : Holds n i (Mbufs.mbufInit n) (mbufQueueInit i) [] := by
  refine ⟨fun q => some (.first (.queue q)), allFree n, ⟨rfl, ?_, fits_init⟩, rfl⟩
  have hsame : update (fun q => some (Node.first (.queue q))) i
      (some (mbufQueueInit i).last) = fun q => some (.first (.queue q)) :=
    update_eq_self i _
  rw [hsame]
  exact sound_init hn

theorem queue_is_fifo_small : Holds 64 0 (Mbufs.mbufInit 64) (mbufQueueInit 0) [] ∧
    ∃ m' q' replies s', (Mbufs.mbufInit 64).calls (mbufQueueInit 0)
        [(Rest.idle 64 0, .add [1, 2, 3]), (Rest.alloc 64 0, .get 1 5), (Rest.idle 64 0, .remove 2)] =
          some (m', q', replies) ∧
      replies.length = 3 ∧
      FifoRun [] ([.add [1, 2, 3], .get 1 5, .remove 2].zip replies) s' ∧
      Holds 64 0 m' q' s' ∧ q'.len = s'.length :=
  ⟨holds_init (by decide), queue_is_fifo (holds_init (by decide)) _⟩

end Mbuf
