import ThinkOS.Mbuf.Sound

/-!
# The bytes of a queue

The data of the buffers of a queue, one after the other, hold the bytes of the queue from `offs` on.
`content` reads them, `Fits` says that the buffers are as many as the bytes need, and `Ready` puts
this together with the order of the pool. Each queue call takes a `Ready` memory to another one,
with the content changed as for a list of bytes.
-/

namespace Mbuf

open Function List Mbufs Option

variable {src : List UInt8}

open Lib

/-! ## Copies in and out of a buffer -/

section
variable {m : Mbufs} {p p' : Node} {x o k n : Nat}

theorem Mbufs.length_load : (m.load p x n).length = n := by
  rw [Mbufs.load, length_map, length_range']

theorem Mbufs.load_add : m.load p x (k + n) = m.load p x k ++ m.load p (x + k) n := by
  rw [Mbufs.load, Mbufs.load, Mbufs.load, ← map_append, List.range'_append_1]

theorem Mbufs.load_split (h : o ≤ n) : m.load p 0 n = m.load p 0 o ++ m.load p o (n - o) := by
  have hadd := load_add (m := m) (p := p) (x := 0) (k := o) (n := n - o)
  rwa [Nat.add_sub_cancel' h, Nat.zero_add] at hadd

theorem Mbufs.take_load {j : Nat} : (m.load p x n).take j = m.load p x (min j n) := by
  rcases Nat.le_total j n with h | h
  · rw [Nat.min_eq_left h]
    have hadd := load_add (m := m) (p := p) (x := x) (k := j) (n := n - j)
    rw [Nat.add_sub_cancel' h] at hadd
    rw [hadd]
    exact take_left' length_load
  · rw [Nat.min_eq_right h, take_of_length_le (Nat.le_trans (Nat.le_of_eq length_load) h)]

theorem Mbufs.load_store_below (h : x + n ≤ o) : (m.store p o src).load p x n = m.load p x n := by
  refine map_congr_left fun j hj => ?_
  have hjo : j < o := Nat.lt_of_lt_of_le (mem_range'_1.mp hj).2 h
  simp only [Mbufs.store, update_self, if_pos hjo]

theorem Mbufs.load_store : (m.store p o src).load p o src.length = src := by
  refine ext_getElem length_load fun j hj hj' => ?_
  have hjo : ¬o + j < o := by omega
  simp only [Mbufs.load, Mbufs.store, update_self, getElem_map,
    getElem_range', Nat.one_mul, if_neg hjo, Nat.add_sub_cancel_left, getElem?_eq_getElem hj',
    getD_some]

end

/-! ## The content -/

/-- The data of buffers, one after the other. -/
def Mbufs.bytes (m : Mbufs) (l : List Nat) : List UInt8 :=
  l.flatMap fun b => m.load (.buf b) 0 MBUF_DATA_SIZE

/-- The bytes of a queue whose buffers are `l`. -/
def Mbufs.content (m : Mbufs) (q : MbufQueue) (l : List Nat) : List UInt8 :=
  ((m.bytes l).drop q.offs).take q.len

/-- The buffers `l` are as many as the bytes of the queue need, and the first of them is in use. -/
structure Fits (q : MbufQueue) (l : List Nat) : Prop where
  offs : q.offs < 124
  room : q.offs + q.len ≤ 124 * l.length
  full : 124 * l.length < q.offs + q.len + 124
  empty : q.len = 0 → q.offs = 0

section
variable {m m' : Mbufs} {q q' : MbufQueue} {l l' : List Nat} {b : Nat}

theorem Mbufs.bytes_cons : m.bytes (b :: l) = m.load (.buf b) 0 124 ++ m.bytes l :=
  flatMap_cons

theorem Mbufs.bytes_append : m.bytes (l ++ l') = m.bytes l ++ m.bytes l' :=
  flatMap_append

theorem Mbufs.bytes_concat : m.bytes (l ++ [b]) = m.bytes l ++ m.load (.buf b) 0 124 := by
  rw [bytes_append, bytes_cons]
  exact congrArg _ (append_nil _)

theorem Mbufs.length_bytes : (m.bytes l).length = 124 * l.length := by
  induction l with
  | nil => rfl
  | cons b l ih =>
    rw [bytes_cons, length_append, length_load, ih, length_cons]
    omega

theorem Mbufs.bytes_congr (h : ∀ b ∈ l, m'.data (.buf b) = m.data (.buf b)) :
    m'.bytes l = m.bytes l := by
  induction l with
  | nil => rfl
  | cons b l ih =>
    rw [bytes_cons, bytes_cons, ih fun c hc => h c (mem_cons_of_mem b hc),
      Mbufs.load, Mbufs.load, h b mem_cons_self]

theorem Mbufs.bytes_store_ne {o : Nat} (hb : b ∉ l) :
    (m.store (.buf b) o src).bytes l = m.bytes l := by
  refine bytes_congr fun c hc => ?_
  have hne : Node.buf c ≠ .buf b := fun he => hb (Node.cell.inj he ▸ hc)
  exact update_of_ne hne ..

theorem Mbufs.content_congr (h : ∀ b ∈ l, m'.data (.buf b) = m.data (.buf b)) :
    m'.content q l = m.content q l := by
  rw [Mbufs.content, Mbufs.content, bytes_congr h]

theorem Fits.length_content (h : Fits q l) : (m.content q l).length = q.len := by
  have hroom := h.room
  rw [Mbufs.content, length_take, length_drop, length_bytes]
  omega

/-- The content grows by the bytes behind the last one. -/
theorem Mbufs.content_grow {x y s z : List UInt8} (hm : m.bytes l = x ++ y)
    (hm' : m'.bytes l' = x ++ (s ++ z)) (hx : x.length = q.offs + q.len) (ho : q'.offs = q.offs)
    (hl : q'.len = q.len + s.length) : m'.content q' l' = m.content q l ++ s := by
  have hlen : (x.drop q.offs).length = q.len := by
    rw [length_drop, hx, Nat.add_sub_cancel_left]
  have hle : q.offs ≤ x.length := by omega
  rw [Mbufs.content, Mbufs.content, hm, hm', ho, hl, drop_append_of_le_length hle,
    drop_append_of_le_length hle, ← hlen, take_length_add_append, take_left,
    take_left]

end

/-! ## Adding -/

/-- Queue `i` is in order in a pool in order, with the last pointers `last` of the other queues. -/
structure Ready (n : Nat) (last : Nat → Option Node) (i : Nat) (m : Mbufs) (q : MbufQueue)
    (cells : Place → List Nat) : Prop where
  locked : m.locked = false
  sound : Sound n m (Function.update last i (some q.last)) cells
  fits : Fits q (cells (.queue i))

/-- Only the free list and queue `i` have other buffers than before. -/
def Others (i : Nat) (cells cells' : Place → List Nat) : Prop :=
  ∀ p, p ≠ .free → p ≠ .queue i → cells' p = cells p

section
variable {n i b : Nat} {last : Nat → Option Node} {m : Mbufs} {q : MbufQueue}
  {cells cells' cells'' : Place → List Nat} {r : List Nat}

theorem Others.trans (h : Others i cells cells') (h' : Others i cells' cells'') :
    Others i cells cells'' :=
  fun p hp hq => (h' p hp hq).trans (h p hp hq)

section
variable (h : Ready n last i m q cells)
include h

theorem Ready.length_le : (cells (.queue i)).length ≤ 255 := by
  have hle := h.sound.length_le (.queue i)
  have hsmall := h.sound.small
  omega

theorem Ready.last_eq (hl : cells (.queue i) = r ++ [b]) : q.last = .buf b := by
  have ht : m.tails (update last i (some q.last)) (.queue i) = some q.last :=
    update_self ..
  have hlast := (h.sound.lists.linked (.queue i) q.last ht).last
  rw [hl, map_append, ← cons_append] at hlast
  rw [map_singleton, getLast?_concat] at hlast
  exact (some.inj hlast).symm

theorem Ready.fill (src : List UInt8)
    (hoffs : (q.offs + q.len) % 124 ≠ 0) (hsrc : src.length + (q.offs + q.len) % 124 ≤ 124)
    (hlen : 0 < src.length) : Ready n last i (m.store q.last ((q.offs + q.len) % 124) src)
        { q with len := (q.len + src.length) % 65536 } cells ∧
      (m.store q.last ((q.offs + q.len) % 124) src).content
          { q with len := (q.len + src.length) % 65536 } (cells (.queue i)) =
        m.content q (cells (.queue i)) ++ src := by
  have hroom := h.fits.room
  have hfull := h.fits.full
  have hmax := h.length_le
  obtain ⟨l, b, hl⟩ : ∃ l b, cells (.queue i) = l ++ [b] := by
    rcases eq_nil_or_concat (cells (.queue i)) with hnil | ⟨l, b, hl⟩
    · rw [hnil] at hroom
      simp only [length_nil, Nat.mul_zero, Nat.le_zero] at hroom
      exact absurd (by rw [hroom]) hoffs
    · exact ⟨l, b, hl.trans concat_eq_append⟩
  have hlast := h.last_eq hl
  rw [hl, length_append, length_singleton] at hroom hfull hmax
  refine ⟨⟨h.locked, ⟨h.sound.lists, h.sound.used, h.sound.max, h.sound.small⟩,
    ⟨h.fits.offs, ?_, ?_, ?_⟩⟩, ?_⟩
  · rw [hl, length_append, length_singleton]
    show q.offs + (q.len + src.length) % 65536 ≤ _
    omega
  · rw [hl, length_append, length_singleton]
    show _ < q.offs + (q.len + src.length) % 65536 + 124
    omega
  · show (q.len + src.length) % 65536 = 0 → _
    omega
  · set o := (q.offs + q.len) % 124
    have hb : b ∉ l := by
      have hn := h.sound.lists.shares.nodup (Place.queue i)
      rw [hl, nodup_append] at hn
      exact fun hb => hn.2.2 b hb b (mem_singleton_self b) rfl
    have hold : m.bytes (l ++ [b]) =
        (m.bytes l ++ m.load (.buf b) 0 o) ++ m.load (.buf b) o (124 - o) := by
      rw [bytes_concat, load_split (by omega : o ≤ 124), append_assoc]
    have hnew : (m.store (.buf b) o src).bytes (l ++ [b]) = (m.bytes l ++ m.load (.buf b) 0 o) ++
          (src ++ (m.store (.buf b) o src).load (.buf b) (o + src.length) (124 - o - src.length)) := by
      have hrest : 124 - o = src.length + (124 - o - src.length) := by omega
      rw [bytes_concat, load_split (by omega : o ≤ 124), load_store_below (by omega),
        hrest, load_add, load_store, bytes_store_ne hb, append_assoc]
      rw [Nat.add_sub_cancel_left]
    rw [hl, hlast]
    refine content_grow hold hnew ?_ rfl ?_
    · rw [length_append, length_bytes, length_load]
      omega
    · show (q.len + src.length) % 65536 = _
      omega

theorem Ready.extend (src : List UInt8)
    (hc : cells .free = b :: r) (hfull : q.offs + q.len = 124 * (cells (.queue i)).length)
    (hsrc : src.length ≤ 124) (hlen : 0 < src.length) :
    let m' := (((m.take (.buf b)).link q.last (some (.buf b))).link (.buf b) none).store (.buf b) 0 src
    let q' := { q with last := Node.buf b, len := (q.len + src.length) % 65536 }
    let cells' := move cells .free (.queue i) b
    Ready n last i m' q' cells' ∧
      m'.content q' (cells' (.queue i)) = m.content q (cells (.queue i)) ++ src := by
  intro m' q' cells'
  have hne : Place.free ≠ .queue i := nofun
  have hb : b ∈ cells .free := by
    rw [hc]
    exact mem_cons_self
  have hhand : b ∉ cells .hand := fun hb' =>
    Sum.inl_ne_inr (h.sound.lists.shares.unique hb hb')
  have hqueue : b ∉ cells (.queue i) := fun hb' => hne (h.sound.lists.shares.unique hb hb')
  have hin : b ∈ move cells .free .hand b .hand := by
    rw [move_to]
    exact mem_append_right _ (mem_singleton_self b)
  have hpush := (h.sound.take hc .hand).push (update_self ..) hin
  rw [update_idem, move_move hhand Sum.inl_ne_inr Sum.inr_ne_inl hne] at hpush
  have hcells : cells' (.queue i) = cells (.queue i) ++ [b] := move_to
  have hmax : (cells' (.queue i)).length ≤ n := hpush.length_le (.queue i)
  have hsmall := h.sound.small
  rw [hcells, length_append, length_singleton] at hmax
  refine ⟨⟨h.locked, { hpush with },
    ⟨h.fits.offs, ?_, ?_, ?_⟩⟩, ?_⟩
  · rw [hcells, length_append, length_singleton]
    show q.offs + (q.len + src.length) % 65536 ≤ _
    omega
  · rw [hcells, length_append, length_singleton]
    show _ < q.offs + (q.len + src.length) % 65536 + 124
    omega
  · show (q.len + src.length) % 65536 = 0 → _
    omega
  · have hnew : m'.bytes (cells' (.queue i)) = m.bytes (cells (.queue i)) ++
          (src ++ m'.load (.buf b) (0 + src.length) (124 - src.length)) := by
      have hsplit : 124 = src.length + (124 - src.length) := by omega
      rw [hcells, bytes_concat, bytes_store_ne hqueue]
      rw [hsplit, load_add, load_store, Nat.add_sub_cancel_left]
      rfl
    refine content_grow (append_nil _).symm hnew ?_ rfl ?_
    · rw [length_bytes, hfull]
    · show (q.len + src.length) % 65536 = _
      omega

end

theorem Others.refl : Others i cells cells := fun _ _ _ => rfl

theorem others_move : Others i cells (move cells .free (.queue i) b) :=
  fun _ hp hq => move_of_ne hp hq

/-- The loop over new buffers stops with the last byte, or without a free buffer. -/
theorem Ready.addLoop {fuel : Nat} (h : Ready n last i m q cells)
    (hfull : src ≠ [] → q.offs + q.len = 124 * (cells (.queue i)).length)
    (hfuel : src.length ≤ fuel) :
    ∃ m' q' cells' out rest, Mbufs.addLoop fuel m q src = some (m', q', rest) ∧
      src = out ++ rest ∧ (rest ≠ [] → cells' .free = []) ∧ Ready n last i m' q' cells' ∧
      Others i cells cells' ∧
      m'.content q' (cells' (.queue i)) = m.content q (cells (.queue i)) ++ out := by
  induction fuel generalizing m q cells src with
  | zero =>
    obtain rfl := length_eq_zero_iff.mp (Nat.le_zero.mp hfuel)
    exact ⟨m, q, cells, [], [], rfl, rfl, fun hr => absurd rfl hr, h, .refl, (append_nil _).symm⟩
  | succ fuel ih =>
    cases src with
    | nil =>
      exact ⟨m, q, cells, [], [], rfl, rfl, fun hr => absurd rfl hr, h, .refl, (append_nil _).symm⟩
    | cons c s =>
      set src := c :: s with hsrc
      have hne : src ≠ [] := cons_ne_nil c s
      have hpos : 0 < src.length := Nat.succ_pos _
      cases hc : cells .free with
      | nil =>
        refine ⟨m, q, cells, [], src, ?_, rfl, fun _ => hc, h, .refl, (append_nil _).symm⟩
        simp only [hsrc, Mbufs.addLoop, Mbufs.mbufTryAlloc, h.sound.allocFirst_none h.locked hc,
          bind_eq_bind, bind_some]
      | cons b r =>
        set k := min src.length MBUF_DATA_SIZE with hk
        have hk124 : k ≤ 124 := Nat.min_le_right ..
        have hksrc : k ≤ src.length := Nat.min_le_left ..
        have hklen : (src.take k).length = k := by
          rw [length_take, Nat.min_eq_left hksrc]
        have hkpos : 0 < k := Nat.lt_min.mpr ⟨hpos, by decide⟩
        obtain ⟨hready, hcontent⟩ := h.extend (src.take k) hc (hfull hne)
          (by rw [hklen]; exact hk124) (by rw [hklen]; exact hkpos)
        rw [hklen] at hready hcontent
        have hfull' : src.drop k ≠ [] → q.offs + (q.len + k) % 65536 =
            124 * (move cells .free (.queue i) b (.queue i)).length := by
          intro hdrop
          have hlt : k < src.length := Nat.lt_of_not_le fun hle =>
            hdrop (drop_eq_nil_of_le hle)
          have hk' : k = 124 := by
            simp only [MBUF_DATA_SIZE] at hk
            omega
          have hmax := hready.length_le
          have hold := hfull hne
          rw [move_to, length_append, length_singleton] at hmax ⊢
          omega
        have hfuel' : (src.drop k).length ≤ fuel := by
          rw [length_drop]
          omega
        obtain ⟨m', q', cells', out, rest, hrun, hout, hdry, hready', hothers, hcontent'⟩ :=
          ih hready hfull' hfuel'
        refine ⟨m', q', cells', src.take k ++ out, rest, ?_, ?_, hdry, hready',
          others_move.trans hothers, ?_⟩
        · rw [← hrun]
          simp only [hsrc, Mbufs.addLoop, Mbufs.mbufTryAlloc,
            h.sound.allocFirst_some h.locked hc, bind_eq_bind, bind_some, hk]
        · rw [append_assoc, ← hout, take_append_drop]
        · rw [hcontent', hcontent, append_assoc]

/-- What `mbuf_queue_add` does behind the bytes that went to the last buffer. -/
theorem Ready.addRest (h : Ready n last i m q cells) (buf : List UInt8) (k : Nat)
    (hk : k ≤ buf.length)
    (hfull : buf.drop k ≠ [] → q.offs + q.len = 124 * (cells (.queue i)).length) :
    ∃ m' q' cells' j, (Mbufs.addLoop buf.length m q (buf.drop k)).bind
        (fun r => some (r.1, r.2.1, buf.length - r.2.2.length)) = some (m', q', k + j) ∧
      k + j ≤ buf.length ∧ (k + j < buf.length → cells' .free = []) ∧
      Ready n last i m' q' cells' ∧ Others i cells cells' ∧
      m'.content q' (cells' (.queue i)) =
        m.content q (cells (.queue i)) ++ (buf.drop k).take j := by
  have hfuel : (buf.drop k).length ≤ buf.length := by
    rw [length_drop]
    omega
  obtain ⟨m', q', cells', out, rest, hrun, hout, hdry, hready, hothers, hcontent⟩ :=
    h.addLoop hfull hfuel
  have hlen := congrArg List.length hout
  rw [length_drop, length_append] at hlen
  refine ⟨m', q', cells', out.length, ?_, by omega, fun hlt => hdry fun hnil => ?_, hready,
    hothers, ?_⟩
  · rw [hrun, bind_some]
    have hk' : buf.length - rest.length = k + out.length := by omega
    rw [hk']
  · rw [hnil, length_nil] at hlen
    omega
  · rw [hcontent, hout, take_left]

/-- `mbuf_queue_add` appends the bytes it says, all of them unless there is no free buffer left. -/
theorem Ready.mbufQueueAdd (h : Ready n last i m q cells) (buf : List UInt8) :
    ∃ m' q' cells' k, m.mbufQueueAdd q buf = some (m', q', k) ∧ k ≤ buf.length ∧
      (k < buf.length → cells' .free = []) ∧ Ready n last i m' q' cells' ∧
      Others i cells cells' ∧
      m'.content q' (cells' (.queue i)) = m.content q (cells (.queue i)) ++ buf.take k := by
  have hroom := h.fits.room
  have hfull := h.fits.full
  have hmax := h.length_le
  by_cases hlen : buf.length = 0
  · refine ⟨m, q, cells, 0, if_pos hlen, Nat.zero_le _, fun hlt => ?_, h, .refl, ?_⟩
    · rw [hlen] at hlt
      exact absurd hlt (Nat.lt_irrefl 0)
    · rw [take_zero, append_nil]
  · by_cases hoffs : (q.offs + q.len) % 124 = 0
    · have hq : { q with len := (q.len + 0) % 65536 } = q := by
        have hmod : (q.len + 0) % 65536 = q.len := by omega
        rw [hmod]
      obtain ⟨m', q', cells', j, hrun, hle, hdry, hready, hothers, hcontent⟩ :=
        h.addRest buf 0 (Nat.zero_le _) fun _ => by omega
      rw [Nat.zero_add] at hrun hle hdry
      refine ⟨m', q', cells', j, ?_, hle, hdry, hready, hothers, hcontent⟩
      rw [Mbufs.mbufQueueAdd, if_neg hlen, ← hrun]
      simp only [MBUF_DATA_SIZE, hoffs, ne_eq, not_true_eq_false, if_false, hq, bind_eq_bind]
    · set k := min buf.length (124 - (q.offs + q.len) % 124) with hk
      have hklen : (buf.take k).length = k := by
        rw [length_take]
        omega
      obtain ⟨hready, hcontent⟩ := h.fill (buf.take k) hoffs (by omega) (by omega)
      rw [hklen] at hready hcontent
      obtain ⟨m', q', cells', j, hrun, hle, hdry, hready', hothers, hcontent'⟩ :=
        hready.addRest buf k (by omega) fun hdrop => by
          have hlt : k < buf.length := Nat.lt_of_not_le fun hle =>
            hdrop (drop_eq_nil_of_le hle)
          show q.offs + (q.len + k) % 65536 = _
          omega
      refine ⟨m', q', cells', k + j, ?_, hle, hdry, hready', hothers, ?_⟩
      · rw [Mbufs.mbufQueueAdd, if_neg hlen, ← hrun]
        simp only [MBUF_DATA_SIZE, hoffs, ne_eq, not_false_eq_true, if_true, bind_eq_bind, hk]
      · rw [hcontent', hcontent, append_assoc, ← take_add]

end

end Mbuf
