import ThinkOS.Http.Multipart

/-!
# What the reader of a part gets

The queue holds a piece of the bytes that follow the header of a part; the invariants say where the piece
is among them, and what of it was searched. From these, each call returns the next bytes of the content,
and 0 at its end.
-/

namespace Http

open List Option Lib

variable {i : Nat} {found : Bool} {seg : Seg}

/-! ## Places of the pattern -/

section
variable {T : List UInt8} {r e : Nat}

/-- CR LF and two dashes stand at a place. -/
def PatAt (T : List UInt8) (i : Nat) : Prop := crlfDashes <+: T.drop i

instance (T : List UInt8) (i : Nat) : Decidable (PatAt T i) := inferInstanceAs (Decidable (_ <+: _))

theorem patAt_iff : PatAt T i ↔
    T[i]? = some 13 ∧ T[i + 1]? = some 10 ∧ T[i + 2]? = some 45 ∧ T[i + 3]? = some 45 := by
  have hget : ∀ k, T[i + k]? = (T.drop i)[k]? := fun k => getElem?_drop.symm
  have h0 := hget 0
  rw [Nat.add_zero] at h0
  rw [PatAt, h0, hget 1, hget 2, hget 3]
  generalize T.drop i = l
  constructor
  · rintro ⟨t, rfl⟩
    exact ⟨rfl, rfl, rfl, rfl⟩
  · rintro ⟨h0, h1, h2, h3⟩
    match l, h0, h1, h2, h3 with
    | _ :: _ :: _ :: _ :: t, rfl, rfl, rfl, rfl => exact ⟨t, rfl⟩

/-- The pattern does not overlap itself. -/
theorem PatAt.gap {j : Nat} (hi : PatAt T i) (hj : PatAt T j) (h : i < j) : i + 4 ≤ j := by
  rw [patAt_iff] at hi hj
  obtain ⟨-, h1, h2, h3⟩ := hi
  by_contra hlt
  rcases (by omega : j = i + 1 ∨ j = i + 2 ∨ j = i + 3) with rfl | rfl | rfl
  · exact absurd (h1.symm.trans hj.1) (by decide)
  · exact absurd (h2.symm.trans hj.1) (by decide)
  · exact absurd (h3.symm.trans hj.1) (by decide)

/-- The bytes from `r` up to `e`. -/
def between (T : List UInt8) (r e : Nat) : List UInt8 := (T.take e).drop r

theorem between_succ {b : UInt8} (hr : r ≤ e) (hb : T[e]? = some b) :
    between T r (e + 1) = between T r e ++ [b] := by
  have he : e < T.length := (List.getElem?_eq_some_iff.mp hb).1
  rw [between, take_add_one, hb, drop_append_of_le_length]
  · rfl
  · rw [length_take]
    omega

/-- The register has the pattern when the pattern stands in front of the place. -/
theorem window_between (he : e ≤ T.length) :
    window (between T r e) = pattern ↔ r + 4 ≤ e ∧ PatAt T (e - 4) := by
  have hlen : (between T r e).length = e - r := by
    rw [between, length_drop, length_take, Nat.min_eq_left he]
  rw [pattern_eq, crlfDashes, window_eq_iff (by decide)]
  by_cases hr : r + 4 ≤ e
  · have hlast : (between T r e).drop (e - r - 4) = (T.drop (e - 4)).take 4 := by
      rw [between, drop_drop, show r + (e - r - 4) = e - 4 by omega, drop_take,
        show e - (e - 4) = 4 by omega]
    rw [suffix_iff_eq_drop, hlen, length_cons, length_cons, length_cons,
      length_singleton, hlast, PatAt, prefix_iff_eq_take]
    exact ⟨fun h => ⟨hr, h⟩, And.right⟩
  · refine ⟨fun h => absurd h.length_le ?_, fun h => absurd h.1 hr⟩
    rw [hlen]
    simp only [length_cons, length_nil]
    omega

end

/-! ## The queue -/

/-- Every read of the connection finds bytes. -/
def AllData (segs : List Seg) : Prop := ∀ seg ∈ segs, ∃ n, 0 < n ∧ seg = .data n

theorem AllData.tail {segs : List Seg} (h : AllData segs) : AllData segs.tail :=
  fun seg hseg => h seg (mem_of_mem_tail hseg)

/-- The queue is the piece of `head` bytes from `b` on, and what follows it is to come. -/
structure Held (T : List UInt8) (b head : Nat) (c : Ctl) : Prop where
  bytes : c.queue.bytes 0 head ++ c.stream = T.drop b
  le : head ≤ rcvbufLen

section
variable {T : List UInt8} {b head a n : Nat} {c c' : Ctl} {segs : List Seg}

section
variable (h : Held T b head c)
include h

theorem Held.bytes_eq (hle : a + n ≤ head) : c.queue.bytes a n = (T.drop (b + a)).take n := by
  have hsplit : c.queue.bytes 0 head =
      c.queue.bytes 0 a ++ (c.queue.bytes a n ++ c.queue.bytes (a + n) (head - (a + n))) := by
    have hall := Mem.bytes_add c.queue 0 a (n + (head - (a + n)))
    rw [Nat.zero_add] at hall
    rw [← Mem.bytes_add, ← hall]
    congr 1
    omega
  rw [← drop_drop, ← h.bytes, hsplit]
  simp

theorem Held.get (hi : i < head) : T[b + i]? = some (c.queue i) := by
  have hone := h.bytes_eq (a := i) (n := 1) (by omega)
  have hget : (T.drop (b + i))[0]? = ((T.drop (b + i)).take 1)[0]? := by simp
  rw [getElem?_drop, Nat.add_zero, ← hone] at hget
  exact hget

/-- What is to come is behind the queue. -/
theorem Held.rest : c.stream.length = T.length - (b + head) := by
  have := congrArg List.length h.bytes
  rw [length_append, Mem.length_bytes, length_drop] at this
  omega

theorem Held.length (hb : b ≤ T.length) : b + head ≤ T.length := by
  have := congrArg List.length h.bytes
  rw [length_append, Mem.length_bytes, length_drop] at this
  omega

/-- A read finds bytes as long as some are to come. -/
theorem Held.read (hb : b + head < T.length) (hhead : head < rcvbufLen) (hdata : AllData segs) :
    ∃ (n : Nat) (queue : Mem) (stream : List UInt8), 0 < n ∧
      c.read head segs = some ({ c with queue, stream }, (n : Int)) ∧
      Held T b (head + n) { c with queue, stream } := by
  have hlen := h.rest
  obtain ⟨k, hk, hseg⟩ : ∃ k, 0 < k ∧ segs.headD (.data c.stream.length) = .data k := by
    cases segs with
    | nil => exact ⟨c.stream.length, by omega, rfl⟩
    | cons seg segs => exact hdata seg mem_cons_self
  obtain ⟨n, hn⟩ : ∃ n, n = min k (min (rcvbufLen - head) c.stream.length) := ⟨_, rfl⟩
  refine ⟨n, c.queue.storeBytes head (c.stream.take n), c.stream.drop n, by omega, ?_, ?_, ?_⟩
  · rw [Ctl.read, hseg, Ctl.tcpRecv, ← hn, if_neg (by omega)]
  · have := Mem.bytes_storeBytes_append c.queue 0 head (c.stream.take n)
    rw [length_take, Nat.min_eq_left (by omega), Nat.zero_add] at this
    rw [this, append_assoc, take_append_drop, h.bytes]
  · omega

theorem Held.move (hn : a + n = head)
    (hqueue : c'.queue = c.queue.storeBytes 0 (c.queue.bytes a n))
    (hstream : c'.stream = c.stream) : Held T (b + a) n c' := by
  refine ⟨?_, by have := h.le; omega⟩
  have hbytes := Mem.bytes_storeBytes c.queue 0 (c.queue.bytes a n)
  rw [Mem.length_bytes] at hbytes
  have hsplit : c.queue.bytes 0 head = c.queue.bytes 0 a ++ c.queue.bytes a n := by
    rw [← hn, Mem.bytes_add, Nat.zero_add]
  rw [hqueue, hstream, hbytes, ← drop_drop, ← h.bytes, hsplit, append_assoc]
  simp

/-- **The search**: the register follows the bytes, and stops after the first pattern. -/
theorem Held.scan (hb : b ≤ T.length) {r k pos pos' : Nat} {pat pat' : BitVec 32}
    (hk : pos + k = head) (hr : r ≤ b + pos) (hpat : pat = window (between T r (b + pos)))
    (hscan : scan c.queue k pos pat = (pos', pat', found)) :
    pos ≤ pos' ∧ pos' ≤ head ∧ pat' = window (between T r (b + pos')) ∧
      (∀ e, b + pos < e → e < b + pos' → ¬ (r + 4 ≤ e ∧ PatAt T (e - 4))) ∧
      if found then pos < pos' ∧ pat' = pattern
      else pos' = head ∧ (pat ≠ pattern → pat' ≠ pattern) := by
  induction k generalizing pos pat with
  | zero =>
    cases hscan
    refine ⟨le_rfl, by omega, hpat, fun e h1 h2 => by omega, ?_⟩
    exact ⟨by omega, id⟩
  | succ k ih =>
    have hnext : push pat (c.queue pos) = window (between T r (b + (pos + 1))) := by
      rw [← Nat.add_assoc, between_succ hr (h.get (by omega)), window_append_singleton, hpat]
    unfold Http.scan at hscan
    by_cases hfound : push pat (c.queue pos) = pattern
    · rw [if_pos hfound] at hscan
      cases hscan
      refine ⟨by omega, by omega, hnext, fun e h1 h2 => by omega, ?_⟩
      exact ⟨by omega, hfound⟩
    · rw [if_neg hfound] at hscan
      obtain ⟨h1, h2, h3, h4, h5⟩ := ih (by omega) (by omega) hnext hscan
      refine ⟨by omega, h2, h3, ?_, ?_⟩
      · intro e he he'
        by_cases heq : e = b + (pos + 1)
        · rw [heq, ← window_between (by have := h.length hb; omega), ← hnext]
          exact hfound
        · exact h4 e (by omega) he'
      · cases found with
        | true => exact ⟨by have := h5.1; omega, h5.2⟩
        | false => exact ⟨h5.1, fun _ => h5.2 hfound⟩

end

end

/-! ## A call -/

/-- A part: its content ends at `m`, where the pattern and the boundary stand; no other boundary in front
of it has the hash. -/
structure Part where
  T : List UInt8
  bdry : List UInt8
  m : Nat
  small : bdry.length < 256
  pat : PatAt T m
  ends : (T.drop (m + 4)).take bdry.length = bdry
  hash : ∀ i < m, PatAt T i → hashOf ((T.drop (i + 4)).take bdry.length) ≠ hashOf bdry

def Ctl.Knows (c : Ctl) (bdry : List UInt8) : Prop := c.bdryLen = bdry.length ∧ c.bdryHash = hashOf bdry

/-- The queue is from `b` on and was searched up to `pos`; the register was empty at `r`. -/
structure Looks (p : Part) (b r : Nat) (c : Ctl) (l : Cur) : Prop where
  held : Held p.T b l.head c
  knows : c.Knows p.bdry
  head : c.head = l.head
  pos : l.pos ≤ l.head
  place : l.tail = 0 ∧ b ≤ r ∨ l.tail + 3 ≤ l.pos
  reset : r ≤ p.m ∧ r ≤ b + l.pos
  fresh : r = 0 ∨ ∃ j, r = j + 4 ∧ PatAt p.T j
  pat : l.pat = window (between p.T r (b + l.pos))
  clear : l.pat ≠ pattern
  before : b + l.pos < p.m + 4

/-- The pattern was found in front of `pos`. -/
structure Matched (p : Part) (b : Nat) (c : Ctl) (l : Cur) : Prop where
  held : Held p.T b l.head c
  knows : c.Knows p.bdry
  head : c.head = l.head
  pos : l.pos ≤ l.head
  pat : l.pat = pattern
  place : l.tail + 4 ≤ l.pos
  found : PatAt p.T (b + l.pos - 4)
  before : b + l.pos ≤ p.m + 4

/-- What a queue moves on by when it is full. -/
def stride : Nat := rcvbufLen - 3

/-- The patterns from `o` up to `e` are where the queue begins when it has moved on. -/
def Passed (T : List UInt8) (o b0 e : Nat) : Prop :=
  ∀ i, o ≤ i → i + 4 ≤ e → PatAt T i → stride ∣ i - b0

theorem Passed.rebase {T : List UInt8} {o o' b0 b e : Nat} (h : Passed T o b0 e)
    (hbase : b0 ≤ b ∧ stride ∣ b - b0) (ho : o ≤ o') (hb : b ≤ o') : Passed T o' b e := by
  intro i hi hi4 hpi
  have hsub : i - b = (i - b0) - (b - b0) := by omega
  rw [hsub]
  exact Nat.dvd_sub (h i (by omega) hi4 hpi) hbase.2

/-- A connection between two calls. -/
inductive Stored (p : Part) (b : Nat) (c : Ctl) : Prop
  | looks {r : Nat} (h : Looks p b r c c.cur) (hpassed : Passed p.T (b + c.tail) b (b + c.pos))
  | matched (h : Matched p b c c.cur) (hpassed : Passed p.T (b + c.tail) b (b + c.pos - 1))

/-- A call for `len` bytes from `o` on, which has found the queue from `b0` on and `tail0` in it. -/
structure InCall (T : List UInt8) (o len b0 tail0 b : Nat) (l : Cur) : Prop where
  place : b + l.tail = o + l.cpy.length
  cpy : l.cpy = (T.drop o).take l.cpy.length
  short : l.cpy.length < len
  base : b0 ≤ b ∧ stride ∣ b - b0
  first : l.cpy = [] → b = b0 ∧ l.tail = tail0 ∨ l.tail = 0

/-- The calls that are answered well. Where a pattern of the content comes next and is not at the start of
the queue, a call returns 0; and where the end of the content falls on the start of a queue that has moved
on, a call loses what it has copied (`zero_before_the_end`). -/
structure Proper (T : List UInt8) (m o len b0 tail0 : Nat) : Prop where
  pos : 0 < len
  next : ¬ (PatAt T o ∧ o < m ∧ 0 < tail0 ∧ tail0 + 4 ≤ rcvbufLen)
  turn : ¬ (o < m ∧ m - o < len ∧ stride ∣ m - b0 ∧ Passed T o b0 m)

/-- What a call from `o` on returns: the next bytes, or 0 at the end. -/
inductive Returned (p : Part) (o : Nat) : Ctl × Int × List UInt8 → Prop
  | bytes {c : Ctl} {b : Nat} {buf : List UInt8} (hstored : Stored p b c)
      (hplace : b + c.tail = o + buf.length) (hpos : 0 < buf.length)
      (hbuf : buf = (p.T.drop o).take buf.length) (hle : o + buf.length ≤ p.m) :
      Returned p o (c, buf.length, buf)
  | atEnd {c : Ctl} {buf : List UInt8} (h : o = p.m) : Returned p o (c, 0, buf)

section
variable {p : Part} {T : List UInt8} {o len b0 tail0 b r : Nat} {c c' : Ctl} {l : Cur} {segs : List Seg}
  {res : Ctl × Int × List UInt8} {flow : Flow}

/-- The boundary is among the bytes. -/
theorem Part.length : p.m + 4 + p.bdry.length ≤ p.T.length := by
  have hends := congrArg List.length p.ends
  have hpat := p.pat.length_le
  rw [length_take, length_drop] at hends
  rw [length_drop, crlfDashes, length_cons, length_cons, length_cons, length_singleton] at hpat
  omega

theorem fill_done (hhead : c.head = l.head) :
    some (c, Flow.on l segs) = some ({ c with head := l.head }, Flow.on l segs) := by
  rw [← hhead]

/-- The queue gets the bytes that are needed. -/
theorem Held.fill (need reads : Nat) (h : Held T b l.head c) (hhead : c.head = l.head)
    (hdata : AllData segs) (hneed : need < rcvbufLen) (hlen : b + need ≤ T.length)
    (hreads : need ≤ l.head + reads) : ∃ head segs' queue stream,
      Ctl.fill need reads c l segs = some ({ c with head, queue, stream }, .on { l with head } segs') ∧
      Held T b head { c with head, queue, stream } ∧ need ≤ head ∧ l.head ≤ head ∧ AllData segs' := by
  induction reads generalizing c l segs with
  | zero =>
    refine ⟨l.head, segs, c.queue, c.stream, ?_, ⟨h.bytes, h.le⟩, hreads, le_rfl, hdata⟩
    rw [Ctl.fill, if_pos (show need ≤ l.head from hreads)]
    exact fill_done hhead
  | succ reads ih =>
    by_cases henough : need ≤ l.head
    · refine ⟨l.head, segs, c.queue, c.stream, ?_, ⟨h.bytes, h.le⟩, henough, le_rfl, hdata⟩
      rw [Ctl.fill, if_pos henough]
      exact fill_done hhead
    · obtain ⟨n, queue, stream, hpos, hread, hheld⟩ := h.read (by omega) (by omega) hdata
      obtain ⟨head, segs', queue', stream', hfill, hheld', hdone, hle, hdata'⟩ :=
        ih (c := { c with head := l.head + n, queue, stream }) (l := { l with head := l.head + n })
          ⟨hheld.bytes, hheld.le⟩ rfl hdata.tail (by dsimp only; omega)
      refine ⟨head, segs', queue', stream', ?_, hheld', hdone, by dsimp only at hle; omega, hdata'⟩
      rw [Ctl.fill, if_neg henough, hread]
      dsimp only [bind_some]
      rw [if_neg (by omega)]
      exact hfill

theorem InCall.copy (h : InCall T o len b0 tail0 b l) (hheld : Held T b l.head c) {n : Nat}
    (hn : l.tail + n ≤ l.head) :
    l.cpy ++ c.queue.bytes l.tail n = (T.drop o).take (l.cpy ++ c.queue.bytes l.tail n).length := by
  rw [length_append, Mem.length_bytes, hheld.bytes_eq hn, h.place, take_add, ← h.cpy, drop_drop]

theorem Matched.patternMatch (hproper : Proper p.T p.m o len b0 tail0)
    (hmatched : Matched p b c l) (hcall : InCall p.T o len b0 tail0 b l)
    (hpassed : Passed p.T o b0 (b + l.pos - 1)) (hdata : AllData segs) :
    (∃ c' n buf, c.patternMatch len l segs = some (c', .ret n buf) ∧ Returned p o (c', n, buf)) ∨
      ∃ c' l' segs', c.patternMatch len l segs = some (c', .on l' segs') ∧ AllData segs' ∧
        (∃ r, Looks p b r c' l') ∧ InCall p.T o len b0 tail0 b l' ∧ Passed p.T o b0 (b + l'.pos) ∧
        l.pos ≤ 4 ∧ l'.pos = 4 ∧ l.head ≤ l'.head := by
  obtain ⟨hheld, hknows, hhead, hpos, hpat, hplace, hfound, hbefore⟩ := hmatched
  unfold Ctl.patternMatch
  by_cases h4 : 4 < l.pos
  · rw [if_pos h4]
    dsimp only
    left
    obtain ⟨n, hn⟩ : ∃ n, n = min (l.pos - l.tail - 4) (len - l.cpy.length) := ⟨_, rfl⟩
    rw [← hn]
    have hcpy := hcall.copy hheld (n := n) (by omega)
    have hlen : (l.cpy ++ c.queue.bytes l.tail n).length = l.cpy.length + n := by
      rw [length_append, Mem.length_bytes]
    have hat := hcall.place
    obtain ⟨buf, hbuf⟩ : ∃ buf, buf = l.cpy ++ c.queue.bytes l.tail n := ⟨_, rfl⟩
    rw [← hbuf] at hcpy hlen ⊢
    by_cases hfull : buf.length = len
    · -- the buffer of the call is full
      rw [if_pos hfull]
      have hlen0 := hproper.pos
      have hheld' : Held p.T b c.head c := by rwa [hhead]
      refine ⟨_, _, _, rfl, .bytes (b := b) (.matched ?_ ?_) ?_ (by omega) hcpy (by omega)⟩
      · exact ⟨⟨hheld'.bytes, hheld'.le⟩, hknows, rfl, by rwa [← hhead] at hpos, hpat,
          by dsimp only [Ctl.cur]; omega, hfound, hbefore⟩
      · exact hpassed.rebase hcall.base (by dsimp only; omega) (by dsimp only; omega)
      · dsimp only
        omega
    · -- the pattern is moved to the start of the queue
      rw [if_neg hfull]
      have hshort := hcall.short
      have hall : o + buf.length = b + l.pos - 4 := by omega
      by_cases hzero : buf.length = 0
      · have hempty : l.cpy = [] := length_eq_zero_iff.mp (by omega)
        have ho : o = p.m := by
          have hle := hheld.le
          rcases hcall.first hempty with ⟨-, htail⟩ | htail
          · have hnext := hproper.next
            rw [← hall, hzero, Nat.add_zero] at hfound
            by_contra hne
            exact hnext ⟨hfound, by omega, by omega, by omega⟩
          · omega
        rw [hzero]
        exact ⟨_, _, _, rfl, .atEnd ho⟩
      · refine ⟨_, _, _, rfl, .bytes (b := b + (l.pos - 4)) (.matched ?_ ?_) ?_ (by omega) hcpy (by omega)⟩
        · have hmove : Held p.T (b + (l.pos - 4)) (l.head - l.pos + 4)
              { c with queue := c.queue.storeBytes 0 (c.queue.bytes (l.pos - 4) (l.head - l.pos + 4)) } :=
            hheld.move (by omega) rfl rfl
          refine ⟨⟨hmove.bytes, hmove.le⟩, hknows, rfl, by dsimp only [Ctl.cur]; omega, hpat,
            le_rfl, ?_, by dsimp only [Ctl.cur]; omega⟩
          dsimp only [Ctl.cur]
          rwa [Nat.add_sub_cancel, ← Nat.add_sub_assoc (by omega)]
        · intro i hi hi4 _
          dsimp only at hi hi4
          omega
        · dsimp only
          omega
  · -- the pattern is at the start of the queue
    obtain ⟨hbl, hbh⟩ := hknows
    have hsmall := p.small
    have hlength := p.length
    obtain ⟨head, segs', queue, stream, hfill, hheld', hneed, hle, hdata'⟩ :=
      hheld.fill (c.bdryLen + 4) (c.bdryLen + 4) hhead hdata
        (by rw [hbl]; show _ < 272; omega) (by omega) (by omega)
    rw [if_neg h4, hfill]
    dsimp only [bind_some]
    have hb : b + l.pos - 4 = b := by omega
    have htail : l.tail = 0 := by omega
    have hat := hcall.place
    rw [hb] at hfound
    have hbytes : queue.bytes 4 c.bdryLen = (p.T.drop (b + 4)).take p.bdry.length := by
      rw [hbl] at hneed ⊢
      exact hheld'.bytes_eq (by omega)
    rw [hbytes, hbh]
    by_cases hend : b = p.m
    · -- the end of the content
      subst hend
      rw [p.ends, if_pos rfl]
      refine .inl ⟨_, _, _, rfl, .atEnd ?_⟩
      by_contra hne
      have hshort := hcall.short
      refine hproper.turn ⟨by omega, by omega, hcall.base.2, fun i hi hi4 hpi => hpassed i hi (by omega) hpi⟩
    · have hlt : b < p.m := by omega
      have hgap := hfound.gap p.pat hlt
      rw [if_neg (p.hash b hlt hfound).symm]
      have hpos4 : b + l.pos = b + 4 := by omega
      refine .inr ⟨_, _, _, rfl, hdata', ⟨b + 4, ?_⟩,
        ⟨hat, hcall.cpy, hcall.short, hcall.base, hcall.first⟩, ?_, by omega, by dsimp only; omega, hle⟩
      · refine ⟨⟨hheld'.bytes, hheld'.le⟩, ⟨hbl, rfl⟩, rfl, by dsimp only; omega,
          .inl ⟨htail, by omega⟩, ⟨hgap, by dsimp only; omega⟩, .inr ⟨b, rfl, hfound⟩, ?_, ?_,
          by dsimp only; omega⟩
        rotate_left
        · show (0 : BitVec 32) ≠ pattern
          decide
        rw [hpos4, between, drop_eq_nil_of_le (length_take_le _ _)]
        rfl
      · intro i hi hi4 hpi
        dsimp only at hi4
        by_cases hib : i = b
        · rw [hib]
          exact hcall.base.2
        · exact hpassed i hi (by omega) hpi

section
variable (h : Looks p b r c l)
include h

/-- The search has passed no pattern that stands across the place where the register was empty. -/
theorem Looks.fresh_gap (hi : PatAt p.T i) (hlt : i < r) : i + 4 ≤ r := by
  rcases h.fresh with h0 | ⟨j, rfl, hj⟩
  · omega
  · by_cases hij : i ≤ j
    · omega
    · have := hj.gap hi (by omega)
      omega

/-- Before the first three bytes of the pattern there is the content. -/
theorem Looks.base_le : b ≤ p.m := by
  have := h.before
  have := h.reset.1
  rcases h.place with ⟨-, hb⟩ | hb <;> omega

/-- **The search of a call**: the pattern is found, or there is none. -/
theorem Looks.scan {pos : Nat}
    {pat : BitVec 32} (hscan : scan c.queue (l.head - l.pos) l.pos l.pat = (pos, pat, found))
    (hpassed : Passed p.T o b0 (b + l.pos)) :
    if found then Matched p b c { l with pos, pat } ∧ Passed p.T o b0 (b + pos - 1) ∧ l.pos < pos
    else Looks p b r c { l with pos, pat } ∧ pos = l.head ∧ Passed p.T o b0 (b + pos) := by
  have hb : b ≤ p.T.length := by
    have := h.base_le
    have := p.length
    omega
  obtain ⟨hle, hle', hpat, hnone, hcase⟩ := h.held.scan hb (Nat.add_sub_cancel' h.pos) h.reset.2 h.pat hscan
  have hlen := h.held.length hb
  -- a pattern that was passed in the search
  have hpass : ∀ i, PatAt p.T i → b + l.pos < i + 4 → i + 4 < b + pos → False := by
    intro i hi h1 h2
    refine hnone (i + 4) h1 h2 ⟨?_, by rwa [Nat.add_sub_cancel]⟩
    by_contra hlt
    have := h.fresh_gap hi (by omega)
    have := h.reset.2
    omega
  have hbefore : b + pos ≤ p.m + 4 := by
    by_contra hlt
    exact hpass p.m p.pat h.before (by omega)
  cases found with
  | true =>
    obtain ⟨hlt, hmatch⟩ := hcase
    have hwin := (window_between (r := r) (e := b + pos) (by omega)).mp (hpat.symm.trans hmatch)
    refine ⟨⟨h.held, h.knows, h.head, hle', hmatch, ?_, hwin.2, hbefore⟩, ?_, hlt⟩
    · dsimp only
      rcases h.place with ⟨htail, hr⟩ | htail <;> omega
    · intro i hi hi4 hpi
      by_cases hold : i + 4 ≤ b + l.pos
      · exact hpassed i hi hold hpi
      · exact absurd (hpass i hpi (by omega) (by omega)) id
  | false =>
    obtain ⟨rfl, hclear⟩ := hcase
    have hclear := hclear h.clear
    have hnot : ∀ i, PatAt p.T i → b + l.pos < i + 4 → i + 4 ≤ b + l.head → False := by
      intro i hi h1 h2
      by_cases heq : i + 4 = b + l.head
      · refine hclear (hpat.trans ((window_between hlen).mpr ⟨?_, ?_⟩))
        · by_contra hlt
          have := h.fresh_gap hi (by omega)
          have := h.reset.2
          omega
        · rwa [← heq, Nat.add_sub_cancel]
      · exact hpass i hi h1 (by omega)
    refine ⟨⟨h.held, h.knows, h.head, le_rfl, ?_, ⟨h.reset.1, ?_⟩, h.fresh, hpat, hclear, ?_⟩, rfl, ?_⟩
    · rcases h.place with hplace | hplace
      · exact .inl hplace
      · exact .inr (by dsimp only; omega)
    · have := h.reset.2
      dsimp only
      omega
    · dsimp only
      by_contra hlt
      exact hnot p.m p.pat h.before (by omega)
    · intro i hi hi4 hpi
      by_cases hold : i + 4 ≤ b + l.pos
      · exact hpassed i hi hold hpi
      · exact absurd (hnot i hpi (by omega) hi4) id

variable (hcall : InCall p.T o len b0 tail0 b l) (hpassed : Passed p.T o b0 (b + l.pos))
  (hpos : l.pos = l.head)
include hcall hpassed hpos

theorem Looks.read (htail : l.head = rcvbufLen → l.tail + 3 = l.pos) (hdata : AllData segs) :
    ∃ (d : Ctl) (n b' : Nat), 0 < n ∧ (c.wrap l).1.read (c.wrap l).2.head segs = some (d, (n : Int)) ∧
      Looks p b' r { d with head := (c.wrap l).2.head + n }
        { (c.wrap l).2 with head := (c.wrap l).2.head + n } ∧
      InCall p.T o len b0 tail0 b' { (c.wrap l).2 with head := (c.wrap l).2.head + n } ∧
      Passed p.T o b0 (b' + (c.wrap l).2.pos) ∧ b' + (c.wrap l).2.head = b + l.head ∧
      (l.pos ≤ (c.wrap l).2.pos ∨ (c.wrap l).2.pos = 3) := by
  have hlength := p.length
  have hbefore := h.before
  have hbuf : rcvbufLen = 272 := rfl
  by_cases hfull : l.head = rcvbufLen
  · have hwrap : c.wrap l = ({ c with queue := c.queue.storeBytes 0 (c.queue.bytes (l.pos - 3) 3) },
        { l with head := 3, pos := 3, tail := 0 }) := if_pos hfull
    rw [hwrap]
    have hmove : Held p.T (b + (l.pos - 3)) 3
        { c with queue := c.queue.storeBytes 0 (c.queue.bytes (l.pos - 3) 3) } :=
      h.held.move (by omega) rfl rfl
    obtain ⟨n, queue, stream, hn, hread, hheld⟩ := hmove.read (by omega) (by decide) hdata
    have hsame : b + (l.pos - 3) + 3 = b + l.pos := by omega
    have hstride : l.pos - 3 = stride := by rw [hpos, hfull]; rfl
    refine ⟨_, n, b + (l.pos - 3), hn, hread, ⟨⟨hheld.bytes, hheld.le⟩, h.knows, rfl,
      by dsimp only; omega, .inr le_rfl, ⟨h.reset.1, by dsimp only; rw [hsame]; exact h.reset.2⟩,
      h.fresh, ?_, h.clear, by dsimp only; rw [hsame]; exact h.before⟩,
      ⟨?_, hcall.cpy, hcall.short, ?_, fun _ => .inr rfl⟩, ?_, by dsimp only; omega, .inr rfl⟩
    · dsimp only
      rw [hsame]
      exact h.pat
    · have := hcall.place
      dsimp only
      omega
    · obtain ⟨hle, hdvd⟩ := hcall.base
      refine ⟨by omega, ?_⟩
      rw [hstride, Nat.add_comm, Nat.add_sub_assoc hle]
      exact Nat.dvd_add (Nat.dvd_refl _) hdvd
    · rw [hsame]
      exact hpassed
  · have hwrap : c.wrap l = (c, l) := if_neg hfull
    rw [hwrap]
    have hle := h.held.le
    obtain ⟨n, queue, stream, hn, hread, hheld⟩ := h.held.read (by omega) (by omega) hdata
    refine ⟨_, n, b, hn, hread, { h with held := ⟨hheld.bytes, hheld.le⟩, head := rfl, pos := ?_ },
      { hcall with }, hpassed, rfl, .inl le_rfl⟩
    dsimp only
    omega

/-- The data in front of the last three bytes is copied: the call returns it when it has all that it was
made for, and otherwise goes on. -/
theorem Looks.copy :
    Looks p b r c (c.copy len l) ∧ ((c.copy len l).pos = l.head ∧ (c.copy len l).head = l.head) ∧
      (l.tail + 3 < l.pos → (c.copy len l).cpy.length = len →
        Returned p o
          ({ c with pat := (c.copy len l).pat, pos := (c.copy len l).pos, tail := (c.copy len l).tail },
            (c.copy len l).cpy.length, (c.copy len l).cpy)) ∧
      (¬ (l.tail + 3 < l.pos ∧ (c.copy len l).cpy.length = len) →
        InCall p.T o len b0 tail0 b (c.copy len l) ∧
          ((c.copy len l).head = rcvbufLen → (c.copy len l).tail + 3 = (c.copy len l).pos)) := by
  by_cases hcopy : l.tail + 3 < l.pos
  · obtain ⟨n, hn⟩ : ∃ n, n = min (l.pos - l.tail - 3) (len - l.cpy.length) := ⟨_, rfl⟩
    have heq : c.copy len l = { l with cpy := l.cpy ++ c.queue.bytes l.tail n, tail := l.tail + n } := by
      rw [Ctl.copy, if_pos hcopy, ← hn]
    have hshort := hcall.short
    have hplace := hcall.place
    have hcpy := hcall.copy h.held (n := n) (by omega)
    have hlen : (l.cpy ++ c.queue.bytes l.tail n).length = l.cpy.length + n := by
      rw [length_append, Mem.length_bytes]
    have hl : Looks p b r c { l with cpy := l.cpy ++ c.queue.bytes l.tail n, tail := l.tail + n } :=
      { h with place := .inr (by dsimp only; omega) }
    rw [heq]
    refine ⟨hl, ⟨hpos, rfl⟩, ?_, ?_⟩
    · intro _ hfull
      dsimp only at hfull ⊢
      have hbefore := h.before
      refine .bytes (b := b) (.looks (r := r) ?_ ?_) (by dsimp only; omega) (by omega) hcpy (by omega)
      rotate_left
      · exact hpassed.rebase hcall.base (by dsimp only; omega) (by dsimp only; omega)
      exact { hl with
        held := ⟨by rw [Ctl.cur, h.head]; exact h.held.bytes, by rw [Ctl.cur, h.head]; exact h.held.le⟩
        head := rfl
        pos := by rw [Ctl.cur, h.head]; exact h.pos }
    · intro hgoes
      have hne : ¬ (l.cpy ++ c.queue.bytes l.tail n).length = len := fun hfull => hgoes ⟨hcopy, hfull⟩
      refine ⟨⟨by dsimp only; omega, hcpy, by dsimp only; omega, hcall.base, ?_⟩, fun _ => by dsimp only; omega⟩
      intro hempty
      have hzero : (l.cpy ++ c.queue.bytes l.tail n).length = 0 := by
        rw [show l.cpy ++ c.queue.bytes l.tail n = [] from hempty]
        rfl
      omega
  · have heq : c.copy len l = l := if_neg hcopy
    rw [heq]
    refine ⟨h, ⟨hpos, rfl⟩, fun hlt => absurd hlt hcopy, fun _ => ⟨hcall, ?_⟩⟩
    intro hfull
    have : rcvbufLen = 272 := rfl
    rcases h.place with ⟨htail, -⟩ | htail <;> omega

end

/-- The loop returns: a round reads a byte, or it finds the pattern at the start of the queue, which the
next round does not. -/
theorem Looks.recvRounds {fuel : Nat}
    (hproper : Proper p.T p.m o len b0 tail0) (h : Looks p b r c l)
    (hcall : InCall p.T o len b0 tail0 b l) (hpassed : Passed p.T o b0 (b + l.pos)) (hdata : AllData segs)
    (hfuel : 2 * (p.T.length - (b + l.head)) + (4 - l.pos) < fuel) :
    ∃ res, c.recvRounds len fuel l segs = some res ∧ Returned p o res := by
  induction fuel generalizing b r c l segs with
  | zero => omega
  | succ fuel ih =>
    unfold Ctl.recvRounds
    obtain ⟨⟨pos, pat, found⟩, hscan⟩ : ∃ p, Http.scan c.queue (l.head - l.pos) l.pos l.pat = p :=
      ⟨_, rfl⟩
    have hlooks := h.scan hscan hpassed
    have hcall' : InCall p.T o len b0 tail0 b { l with pos, pat } :=
      { hcall with }
    rw [hscan]
    cases found with
    | true =>
      obtain ⟨hmatched, hpassed', hlt⟩ := hlooks
      rcases hmatched.patternMatch hproper hcall' hpassed' hdata with
        ⟨c', n, buf, hmatch, hret⟩ |
        ⟨c', l', segs', hmatch, hdata', ⟨r', hl'⟩, hcall'', hpassed'', hle, hpos', hhead⟩
      · dsimp only
        rw [hmatch]
        exact ⟨_, rfl, hret⟩
      · dsimp only at hle hhead ⊢
        rw [hmatch]
        exact ih hl' hcall'' hpassed'' hdata' (by omega)
    | false =>
      obtain ⟨hl, rfl, hpassed'⟩ := hlooks
      dsimp only
      obtain ⟨l', hl'⟩ : ∃ l', l' = c.copy len { l with pos := l.head, pat } := ⟨_, rfl⟩
      obtain ⟨hlooks', hpos', hfull, hnext⟩ := hl.copy hcall' hpassed' rfl
      rw [← hl'] at hlooks' hpos' hfull hnext ⊢
      by_cases hreturn : l.tail + 3 < l.head ∧ l'.cpy.length = len
      · rw [if_pos hreturn]
        exact ⟨_, rfl, hfull hreturn.1 hreturn.2⟩
      · rw [if_neg hreturn]
        obtain ⟨hcall'', htail⟩ := hnext hreturn
        obtain ⟨d, n, b', hn, hread, hl'', hcall3, hpassed'', hsame, hback⟩ := hlooks'.read hcall''
          (by rw [hpos'.1]; exact hpassed') (hpos'.1.trans hpos'.2.symm) htail hdata
        have hbefore := hlooks'.before
        have hlength := p.length
        have hpos := h.pos
        obtain ⟨hpos', hhead'⟩ := hpos'
        dsimp only at hpos' hhead'
        rw [hread]
        dsimp only [bind_some]
        rw [if_neg (by omega), Int.toNat_natCast]
        exact ih hl'' hcall3 hpassed'' hdata.tail (by clear htail hreturn; dsimp only; omega)

theorem Stored.multipartRecv (hproper : Proper p.T p.m o len b c.tail)
    (h : Stored p b c) (hplace : b + c.tail = o) (hdata : AllData segs) :
    ∃ res, c.multipartRecv len segs = some res ∧ Returned p o res := by
  have hcall : InCall p.T o len b c.tail b c.cur :=
    ⟨hplace, rfl, hproper.pos, ⟨le_rfl, by rw [Nat.sub_self]; exact Nat.dvd_zero _⟩, fun _ => .inl ⟨rfl, rfl⟩⟩
  subst hplace
  unfold Ctl.multipartRecv
  cases h with
  | looks h hpassed =>
    rw [if_neg (show ¬ c.pat = pattern from h.clear)]
    exact h.recvRounds hproper hcall hpassed hdata (by rw [h.held.rest]; omega)
  | matched h hpassed =>
    rw [if_pos (show c.pat = pattern from h.pat)]
    rcases h.patternMatch hproper hcall hpassed hdata with
      ⟨c', n, buf, hmatch, hret⟩ |
      ⟨c', l', segs', hmatch, hdata', ⟨r', hl'⟩, hcall', hpassed', -, hpos', -⟩
    · rw [hmatch]
      exact ⟨_, rfl, hret⟩
    · rw [hmatch]
      exact hl'.recvRounds hproper hcall' hpassed' hdata' (by rw [hl'.held.rest]; omega)

end

/-! ## Whole parts -/

/-- A call that is answered well, of a reader that has got the bytes up to some place. -/
def Event.Proper (T : List UInt8) (m : Nat) (s : Reader) : Event → Prop
  | .recv len segs =>
    AllData segs ∧ Http.Proper T m s.out.length len (s.out.length - s.c.tail) s.c.tail

instance (T : List UInt8) (o b0 e : Nat) : Decidable (Passed T o b0 e) :=
  decidable_of_iff (∀ i < e, o ≤ i → i + 4 ≤ e → PatAt T i → stride ∣ i - b0)
    ⟨fun h i hi hi4 => h i (by omega) hi hi4, fun h i _ => h i⟩

instance (T : List UInt8) (m o len b0 tail0 : Nat) : Decidable (Proper T m o len b0 tail0) :=
  decidable_of_iff (0 < len ∧ ¬ (PatAt T o ∧ o < m ∧ 0 < tail0 ∧ tail0 + 4 ≤ rcvbufLen) ∧
      ¬ (o < m ∧ m - o < len ∧ stride ∣ m - b0 ∧ Passed T o b0 m))
    ⟨fun h => ⟨h.1, h.2.1, h.2.2⟩, fun h => ⟨h.pos, h.next, h.turn⟩⟩

theorem exists_data {k : Nat} : 0 < k ↔ ∃ n, 0 < n ∧ Seg.data k = .data n := by
  constructor
  · intro hk
    exact ⟨k, hk, rfl⟩
  · rintro ⟨n, hn, he⟩
    cases he
    exact hn

instance : (seg : Seg) → Decidable (∃ n, 0 < n ∧ seg = .data n)
  | .data _ => decidable_of_iff _ exists_data
  | .fail _ => isFalse nofun

instance (segs : List Seg) : Decidable (AllData segs) := inferInstanceAs (Decidable (∀ seg ∈ segs, _))

instance (T : List UInt8) (m : Nat) (s : Reader) : (ev : Event) → Decidable (ev.Proper T m s)
  | .recv _ _ => inferInstanceAs (Decidable (_ ∧ _))

/-- The bytes that follow the header of a part. -/
def bodyOf (content bdry rest : List UInt8) : List UInt8 := content ++ (crlfDashes ++ (bdry ++ rest))

/-- A connection after the header of a part, with nothing in the queue. -/
def arriving (stream : List UInt8) : Ctl := ⟨0, 0, fun _ => 0, 0, 0, 0, 0, stream⟩

/-- A reader before its first call. -/
def opened (c0 : Ctl) (bdry : List UInt8) : Reader :=
  ⟨httpParseMultipartFormData c0 (boundaryKey ++ bdry), [], false⟩

/-- The text `x`, CR LF, `--yz`. -/
def dashed : List UInt8 := [120, 13, 10, 45, 45, 121, 122]

/-- A call for at least one byte, on a connection that does not fail. -/
def Event.Plain : Event → Prop
  | .recv len segs => 0 < len ∧ AllData segs

instance : (ev : Event) → Decidable ev.Plain
  | .recv _ _ => inferInstanceAs (Decidable (_ ∧ _))

/-- **Calls that are not proper are answered with 0 before the end**: a second call for one byte, when CR LF
and two dashes of the content come next; and a call for more than a content of 269 bytes, which are lost. -/
theorem zero_before_the_end :
    (∃ s, reader.Run (fun _ ev => ev.Plain) (opened (arriving (bodyOf dashed [97, 98] [])) [97, 98]) s ∧
      s.atEnd = true ∧ s.out = [120]) ∧
    ∃ s, reader.Run (fun _ ev => ev.Plain)
      (opened (arriving (bodyOf (replicate 269 120) [97, 98] [])) [97, 98]) s ∧
      s.atEnd = true ∧ s.out = [] := by
  constructor
  · exact System.exists_run_of_exec (M := reader) (P := fun _ ev => ev.Plain)
      (fun s => s.atEnd = true ∧ s.out = [120]) [.recv 1 [], .recv 1 []] _ (by decide +kernel)
  · exact System.exists_run_of_exec (M := reader) (P := fun _ ev => ev.Plain)
      (fun s => s.atEnd = true ∧ s.out = []) [.recv 300 []] _ (by decide +kernel)

/-- What a reader has got. -/
structure Got (p : Part) (s : Reader) : Prop where
  out : s.out = p.T.take s.out.length
  le : s.out.length ≤ p.m
  atEnd : s.atEnd = true → s.out.length = p.m
  stored : s.atEnd = false → ∃ b, Stored p b s.c ∧ b + s.c.tail = s.out.length

section
variable {p : Part} {s s' : Reader}

theorem Reader.goes_of_step {ev : Event} (h : s.step ev = some s') : s.atEnd = false := by
  by_contra hover
  rw [Reader.step, if_pos (eq_true_of_ne_false hover)] at h
  cases h

/-- A proper call returns, with more bytes or at the end. -/
theorem Got.step {ev : Event} (hs : Got p s) (hproper : ev.Proper p.T p.m s)
    (hgoes : s.atEnd = false) : ∃ s', s.step ev = some s' ∧ Got p s' ∧
      (s'.atEnd = false → s.out.length < s'.out.length) := by
  obtain ⟨len, segs⟩ := ev
  obtain ⟨hdata, hproper⟩ := hproper
  obtain ⟨b, hstored, hplace⟩ := hs.stored hgoes
  have hbase : s.out.length - s.c.tail = b := by omega
  rw [hbase] at hproper
  obtain ⟨⟨c, n, buf⟩, hrecv, hret⟩ := hstored.multipartRecv hproper hplace hdata
  refine ⟨_, by rw [Reader.step, if_neg (by simp [hgoes]), hrecv]; rfl, ?_⟩
  dsimp only
  cases hret with
  | @bytes _ b' _ hstored' hplace' hpos hbuf hle =>
    have htake : s.out ++ buf.take (buf.length : Int).toNat = s.out ++ buf := by
      rw [Int.toNat_natCast, take_length]
    have hover' : decide ((buf.length : Int) ≤ 0) = false := decide_eq_false (by omega)
    rw [htake, hover']
    refine ⟨⟨?_, by rw [length_append]; exact hle, nofun, fun _ => ⟨b', hstored', ?_⟩⟩, fun _ => ?_⟩
    · rw [length_append, take_add, ← hs.out, ← hbuf]
    · rw [length_append]
      exact hplace'
    · rw [length_append]
      omega
  | atEnd h =>
    have htake : s.out ++ buf.take (0 : Int).toNat = s.out := by
      rw [Int.toNat_zero, take_zero, append_nil]
    rw [htake]
    exact ⟨⟨hs.out, hs.le, fun _ => h, nofun⟩, nofun⟩

theorem got_start {c0 : Ctl}
    (hstart : c0.pos = 0 ∧ c0.tail = 0 ∧ c0.pat = 0 ∧ c0.head ≤ rcvbufLen)
    (hstream : c0.queue.bytes 0 c0.head ++ c0.stream = p.T) : Got p (opened c0 p.bdry) := by
  obtain ⟨hpos, htail, hpat, hhead⟩ := hstart
  have hparse : httpParseMultipartFormData c0 (boundaryKey ++ p.bdry) =
      { c0 with bdryHash := hashOf p.bdry, bdryLen := p.bdry.length } := by
    rw [httpParseMultipartFormData, if_pos (prefix_append _ _)]
    simp [boundaryKey, Nat.mod_eq_of_lt p.small]
  rw [opened, hparse]
  refine ⟨rfl, Nat.zero_le _, nofun, fun _ => ⟨0, .looks (r := 0) ?_ ?_, ?_⟩⟩
  · refine ⟨⟨hstream, hhead⟩, ⟨rfl, rfl⟩, rfl, ?_, .inl ⟨htail, le_rfl⟩,
      ⟨Nat.zero_le _, Nat.zero_le _⟩, .inl rfl, ?_, ?_, ?_⟩
    · dsimp only [Ctl.cur]
      omega
    · dsimp only [Ctl.cur]
      rw [hpat, hpos]
      rfl
    · dsimp only [Ctl.cur]
      rw [hpat]
      decide
    · dsimp only [Ctl.cur]
      omega
  · intro i hi hi4 _
    dsimp only at hi4
    omega
  · rw [Nat.zero_add]
    exact htail

end

theorem ends_body {content bdry rest : List UInt8} :
    PatAt (bodyOf content bdry rest) content.length ∧
      ((bodyOf content bdry rest).drop (content.length + 4)).take bdry.length = bdry := by
  constructor
  · rw [PatAt, bodyOf, drop_left]
    exact prefix_append _ _
  · rw [← drop_drop, bodyOf, drop_left]
    simp [crlfDashes]

/-- **The reader of a part** gets the content, whatever the segments of the connection and the lengths of
the calls are: what it has got is always the beginning of the content, every call returns with at least one
byte of it or 0, and 0 only when all of it has been returned. The boundary is one of at most 255 bytes whose hash
no other bytes after CR LF and two dashes in front of it have, and the calls are proper ones. -/
theorem reader_gets_content (content bdry rest : List UInt8) (c0 : Ctl) (s : Reader)
    (hstart : c0.pos = 0 ∧ c0.tail = 0 ∧ c0.pat = 0 ∧ c0.head ≤ rcvbufLen)
    (hstream : c0.queue.bytes 0 c0.head ++ c0.stream = bodyOf content bdry rest)
    (hlen : bdry.length < 256)
    (hhash : ∀ i < content.length, PatAt (bodyOf content bdry rest) i →
      hashOf (((bodyOf content bdry rest).drop (i + 4)).take bdry.length) ≠ hashOf bdry)
    (hrun : reader.Run (fun s ev => ev.Proper (bodyOf content bdry rest) content.length s)
      (opened c0 bdry) s) :
    s.out <+: content ∧ (s.atEnd = true → s.out = content) ∧
      ∀ ev, ev.Proper (bodyOf content bdry rest) content.length s → s.atEnd = false →
        ∃ s', s.step ev = some s' ∧ (s'.atEnd = false → s.out.length < s'.out.length) := by
  let p : Part := ⟨bodyOf content bdry rest, bdry, content.length, hlen, ends_body.1, ends_body.2, hhash⟩
  have hgot : Got p s := by
    refine hrun.invariant (I := Got p) ?_ (got_start hstart hstream)
    intro s ev s' hs hproper hstep
    obtain ⟨s1, hs1, hgot1, -⟩ := hs.step hproper (Reader.goes_of_step hstep)
    cases hs1.symm.trans hstep
    exact hgot1
  have hout : s.out = content.take s.out.length := by
    have : s.out = (bodyOf content bdry rest).take s.out.length := hgot.out
    rwa [bodyOf, take_append_of_le_length hgot.le] at this
  refine ⟨?_, ?_, ?_⟩
  · rw [hout]
    exact take_prefix _ _
  · intro hover
    rw [hout, hgot.atEnd hover, take_length]
  · intro ev hproper hgoes
    obtain ⟨s', hs', -, hmore⟩ := hgot.step hproper hgoes
    exact ⟨s', hs', hmore⟩

theorem reader_gets_content_dashed :
    ∃ s, reader.Run (fun s ev => ev.Proper (bodyOf dashed [97, 98] []) dashed.length s)
        (opened (arriving (bodyOf dashed [97, 98] [])) [97, 98]) s ∧ s.atEnd = true ∧ s.out = dashed := by
  obtain ⟨s, hrun, hover⟩ := System.exists_run_of_exec (M := reader)
    (P := fun s ev => ev.Proper (bodyOf dashed [97, 98] []) dashed.length s) (fun s => s.atEnd = true)
    [.recv 100 [.data 3, .data 2], .recv 3 [.data 4], .recv 100 [.data 4], .recv 1 []]
    (opened (arriving (bodyOf dashed [97, 98] [])) [97, 98]) (by decide +kernel)
  refine ⟨s, hrun, hover, ?_⟩
  exact (reader_gets_content dashed [97, 98] [] _ s ⟨rfl, rfl, rfl, by decide⟩ rfl (by decide) (by decide)
    hrun).2.1 hover

/-- **The hash does not tell a boundary from its letters in another order**: the content `x`, CR LF,
`--bay` ends in front of `--ba` when the boundary is `ab`. -/
theorem anagram_ends_content : let content : List UInt8 := [120, 13, 10, 45, 45, 98, 97, 121]
    let body := bodyOf content [97, 98] []
    (∀ i < content.length, ¬ crlfDashes ++ [97, 98] <+: body.drop i) ∧
      ∃ s, reader.Run (fun _ ev => ev.Plain) (opened (arriving body) [97, 98]) s ∧
        s.atEnd = true ∧ s.out = [120] := by
  refine ⟨by decide, ?_⟩
  exact System.exists_run_of_exec (M := reader) (P := fun _ ev => ev.Plain)
    (fun s => s.atEnd = true ∧ s.out = [120]) [.recv 100 [.data 14], .recv 100 []] _ (by decide +kernel)

end Http
