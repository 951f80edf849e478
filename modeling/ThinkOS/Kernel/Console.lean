import ThinkOS.Lib.Memory
import ThinkOS.Lib.Transition
import Mathlib.Data.List.Infix

/-!
# The console pipes

Two rings of 64 bytes with counters that never go back: threads write to one and read from the
other, and the monitor gets pointers into them and commits what it has taken or put there. The
debug checks stop nothing: `__THINKOS_ERROR` is empty unless `THINKOS_ENABLE_ERROR_TRAP` is set.

    what was put in = what was taken out ++ what is in the ring        (pipes_fifo)
-/

namespace Console

open Lib BitVec List

/-- `struct console_rx_pipe` and `struct console_tx_pipe` -/
structure Pipe where
  head : BitVec 32
  tail : BitVec 32
  buf : Mem

/-- `cnt` bytes from `pos` on, in one copy or two. -/
def copyOut (buf : Mem) (pos cnt : Nat) : List UInt8 :=
  if pos + cnt > 64 then buf.bytes pos (64 - pos) ++ buf.bytes 0 (cnt - (64 - pos))
  else buf.bytes pos cnt

def copyIn (buf : Mem) (pos : Nat) (l : List UInt8) : Mem :=
  if pos + l.length > 64 then
    (buf.storeBytes pos (l.take (64 - pos))).storeBytes 0 (l.drop (64 - pos))
  else buf.storeBytes pos l

/-- `rx_pipe_read` into `len` bytes. -/
def rxPipeRead (p : Pipe) (len : Nat) : Pipe × List UInt8 :=
  let max := p.head - p.tail
  if max = 0 then (p, [])
  else
    let cnt := min max.toNat len
    let pos := p.tail.toNat % 64
    ({ p with tail := p.tail + BitVec.ofNat 32 cnt }, copyOut p.buf pos cnt)

/-- `tx_pipe_write`, with the count that it returns. -/
def txPipeWrite (p : Pipe) (bs : List UInt8) : Pipe × Nat :=
  let max := p.tail + 64#32 - p.head
  if max = 0 then (p, 0)
  else
    let cnt := min max.toNat bs.length
    let pos := p.head.toNat % 64
    ({ p with head := p.head + BitVec.ofNat 32 cnt, buf := copyIn p.buf pos (bs.take cnt) }, cnt)

/-- A count of bytes from `pos` on, cut at the end of the buffer. -/
def region (pos cnt : Nat) : Nat × Nat := (pos, if pos + cnt > 64 then 64 - pos else cnt)

/-- `__console_tx_pipe_ptr`: an offset in the buffer and a count. -/
def consoleTxPipePtr (p : Pipe) : Nat × Nat := region (p.tail.toNat % 64) (p.head - p.tail).toNat

/-- `__console_rx_pipe_ptr` -/
def consoleRxPipePtr (p : Pipe) : Nat × Nat :=
  region (p.head.toNat % 64) (p.tail + 64#32 - p.head).toNat

/-- A pipe with the bytes that were put in and those that were taken out. -/
structure Line where
  pipe : Pipe
  put : List UInt8
  taken : List UInt8

/-- The two pipes, and what the monitor has of its last pointers: the bytes that it was shown, and
the place that it may fill. -/
structure State where
  tx : Line
  rx : Line
  seen : List UInt8
  place : Nat
  room : Nat

inductive Event where
  | write (bs : List UInt8)
  | read (len : Nat)
  | txPtr
  | txCommit (cnt : Nat)
  | rxPtr
  /-- the monitor stores a byte in the place that it got -/
  | fill (i : Nat) (b : UInt8)
  /-- with the length of the read of the first thread that waits -/
  | rxCommit (cnt : Nat) (waiting : Option Nat)

def Line.write (l : Line) (bs : List UInt8) : Line :=
  { l with pipe := (txPipeWrite l.pipe bs).1, put := l.put ++ bs.take (txPipeWrite l.pipe bs).2 }

def Line.read (l : Line) (len : Nat) : Line :=
  { l with pipe := (rxPipeRead l.pipe len).1, taken := l.taken ++ (rxPipeRead l.pipe len).2 }

def State.step (s : State) : Event → Option State
  | .write bs => some { s with tx := s.tx.write bs }
  | .read len => some { s with rx := s.rx.read len }
  | .txPtr =>
    let r := consoleTxPipePtr s.tx.pipe
    some { s with seen := s.tx.pipe.buf.bytes r.1 r.2 }
  | .txCommit cnt =>
    if cnt ≤ s.seen.length then
      let pipe := { s.tx.pipe with tail := s.tx.pipe.tail + BitVec.ofNat 32 cnt }
      some { s with tx := { s.tx with pipe, taken := s.tx.taken ++ s.seen.take cnt }, seen := [] }
    else none
  | .rxPtr =>
    let r := consoleRxPipePtr s.rx.pipe
    some { s with place := r.1, room := r.2 }
  | .fill i b =>
    if i < s.room then
      let buf := Function.update s.rx.pipe.buf (s.place + i) b
      some { s with rx := { s.rx with pipe := { s.rx.pipe with buf } } }
    else none
  | .rxCommit cnt waiting =>
    if cnt ≤ s.room then
      let pipe := { s.rx.pipe with head := s.rx.pipe.head + BitVec.ofNat 32 cnt }
      let rx := { s.rx with pipe, put := s.rx.put ++ s.rx.pipe.buf.bytes s.place cnt }
      some { s with rx := waiting.elim rx rx.read, room := 0 }
    else none

def system : System State Event := ⟨State.step⟩

/-! ## What is in a ring -/

/-- The bytes of `n` cells of the ring from the counter `t` on. -/
def cells (buf : Mem) (t n : Nat) : List UInt8 := (List.range n).map fun i => buf ((t + i) % 64)

namespace Pipe

def used (p : Pipe) : Nat := (p.head - p.tail).toNat

def content (p : Pipe) : List UInt8 := cells p.buf p.tail.toNat p.used

end Pipe

section
variable {buf buf' : Mem} {t n k : Nat} {p : Pipe} {l : List UInt8}

theorem cells_congr (h : ∀ i < n, buf' ((t + i) % 64) = buf ((t + i) % 64)) :
    cells buf' t n = cells buf t n :=
  map_congr_left fun i hi => h i (mem_range.mp hi)

theorem cells_mod (t' : Nat) (h : t' % 64 = t % 64) : cells buf t' n = cells buf t n := by
  refine map_congr_left fun i _ => ?_
  rw [Nat.add_mod, h, ← Nat.add_mod]

theorem cells_add : cells buf t (n + k) = cells buf t n ++ cells buf (t + n) k := by
  unfold cells
  rw [range_add, map_append, map_map]
  simp only [Function.comp_def, Nat.add_assoc]

theorem bytes_eq_cells (h : t % 64 + n ≤ 64) : buf.bytes (t % 64) n = cells buf t n := by
  rw [Mem.bytes_eq_map, cells]
  refine map_congr_left fun i hi => ?_
  have := mem_range.mp hi
  congr 1
  omega

theorem copyOut_eq_cells (h : n ≤ 64) : copyOut buf (t % 64) n = cells buf t n := by
  unfold copyOut
  split
  · have hn : n = 64 - t % 64 + (n - (64 - t % 64)) := by omega
    have h0 : buf.bytes 0 (n - (64 - t % 64)) =
        cells buf (t + (64 - t % 64)) (n - (64 - t % 64)) := by
      rw [← bytes_eq_cells (by omega)]
      congr 1
      omega
    rw [bytes_eq_cells (by omega), h0, ← cells_add, ← hn]
  · exact bytes_eq_cells (by omega)

theorem copyIn_apply {x : Nat} (hl : l.length ≤ 64) (hx : x < 64) :
    copyIn buf (t % 64) l x = (l[(x + 64 - t % 64) % 64]?).getD (buf x) := by
  unfold copyIn Mem.storeBytes
  by_cases hle : t % 64 ≤ x
  · rw [show (x + 64 - t % 64) % 64 = x - t % 64 by omega]
    split
    · simp only [Nat.zero_le, if_true, hle, Nat.sub_zero]
      rw [List.getElem?_drop, List.getElem?_take_of_lt (by omega), List.getElem?_eq_none (by omega)]
      rfl
    · exact if_pos hle
  · rw [show (x + 64 - t % 64) % 64 = 64 - t % 64 + x by omega]
    split
    · simp only [Nat.zero_le, if_true, if_neg hle, Nat.sub_zero]
      rw [List.getElem?_drop]
    · rw [List.getElem?_eq_none (by omega)]
      exact if_neg hle

theorem cells_copyIn (hl : l.length ≤ 64) : cells (copyIn buf (t % 64) l) t l.length = l := by
  refine ext_getElem (by simp [cells]) fun i hi hi' => ?_
  simp only [cells, getElem_map, getElem_range]
  rw [copyIn_apply hl (by omega), show ((t + i) % 64 + 64 - t % 64) % 64 = i by omega]
  simp [hi']

theorem cells_copyIn_of_le (h : n + l.length ≤ 64) (ht : t % 64 = (k + n) % 64) :
    cells (copyIn buf (t % 64) l) k n = cells buf k n := by
  refine cells_congr fun i hi => ?_
  rw [copyIn_apply (by omega) (by omega), List.getElem?_eq_none (by omega)]
  rfl

theorem toNat_head : p.head.toNat = (p.tail.toNat + p.used) % 2 ^ 32 := by
  unfold Pipe.used
  rw [toNat_sub]
  omega

theorem content_tail (h : k ≤ p.used) :
    { p with tail := p.tail + BitVec.ofNat 32 k }.used = p.used - k ∧
      p.content = cells p.buf p.tail.toNat k ++
        { p with tail := p.tail + BitVec.ofNat 32 k }.content := by
  have hused : { p with tail := p.tail + BitVec.ofNat 32 k }.used = p.used - k := by
    simp only [Pipe.used, toNat_sub, toNat_add, toNat_ofNat] at h ⊢
    omega
  refine ⟨hused, ?_⟩
  unfold Pipe.content
  rw [hused, toNat_add, toNat_ofNat, cells_mod ((_ + k % 2 ^ 32) % 2 ^ 32)
    (show _ = (p.tail.toNat + k) % 64 by omega), ← cells_add, Nat.add_sub_cancel' h]

theorem content_head (h : p.used + k ≤ 64) :
    { p with head := p.head + BitVec.ofNat 32 k }.used = p.used + k ∧
      { p with head := p.head + BitVec.ofNat 32 k }.content =
        p.content ++ cells p.buf p.head.toNat k := by
  have hused : { p with head := p.head + BitVec.ofNat 32 k }.used = p.used + k := by
    simp only [Pipe.used, toNat_sub, toNat_add, toNat_ofNat] at h ⊢
    omega
  refine ⟨hused, ?_⟩
  unfold Pipe.content
  rw [hused, cells_add, toNat_head, cells_mod ((_ + p.used) % 2 ^ 32)
    (show _ = (p.tail.toNat + p.used) % 64 by omega)]

theorem free_eq (h : p.used ≤ 64) : (p.tail + 64#32 - p.head).toNat = 64 - p.used := by
  simp only [Pipe.used, toNat_sub, toNat_add, toNat_ofNat] at h ⊢
  omega

/-- **A write puts a part of the bytes behind what is in the ring.** -/
theorem txPipeWrite_spec (h : p.used ≤ 64) (bs : List UInt8) : (txPipeWrite p bs).1.used ≤ 64 ∧
      (txPipeWrite p bs).1.content = p.content ++ bs.take (txPipeWrite p bs).2 := by
  unfold txPipeWrite
  dsimp only
  split
  · exact ⟨h, by simp⟩
  · rw [free_eq h]
    obtain ⟨l, hl⟩ : ∃ l, l = bs.take (min (64 - p.used) bs.length) := ⟨_, rfl⟩
    have hlen : min (64 - p.used) bs.length = l.length := by
      rw [hl, length_take]
      omega
    rw [← hl, hlen]
    have hle : p.used + l.length ≤ 64 := by omega
    have hmod : p.head.toNat % 64 = (p.tail.toNat + p.used) % 64 := by
      rw [toNat_head]
      omega
    have hold : { p with buf := copyIn p.buf (p.head.toNat % 64) l }.content = p.content :=
      cells_copyIn_of_le hle hmod
    obtain ⟨hused, hc⟩ := content_head (p := { p with buf := copyIn p.buf (p.head.toNat % 64) l })
      (k := l.length) hle
    rw [hold] at hc
    exact ⟨hused.trans_le hle, hc.trans (by rw [cells_copyIn (by omega)])⟩

/-- **A read takes a part of the bytes that are in the ring.** -/
theorem rxPipeRead_spec (h : p.used ≤ 64) (len : Nat) : (rxPipeRead p len).1.used ≤ p.used ∧
      p.content = (rxPipeRead p len).2 ++ (rxPipeRead p len).1.content ∧
      (rxPipeRead p len).1.head = p.head := by
  unfold rxPipeRead
  dsimp only
  split
  · exact ⟨le_rfl, rfl, rfl⟩
  · obtain ⟨hused, hc⟩ := content_tail (p := p) (k := min p.used len) (Nat.min_le_left ..)
    have hcopy : copyOut p.buf (p.tail.toNat % 64) (min p.used len) = _ :=
      copyOut_eq_cells (by omega)
    exact ⟨hused.trans_le (Nat.sub_le ..), hc.trans (congrArg (· ++ _) hcopy.symm), rfl⟩

end

/-! ## Runs -/

/-- What was put in is what was taken out and what is in the ring. -/
structure Line.Fifo (l : Line) : Prop where
  used : l.pipe.used ≤ 64
  put : l.put = l.taken ++ l.pipe.content

/-- The monitor has been shown the next bytes, and may fill free cells. -/
structure State.Fifo (s : State) : Prop where
  tx : s.tx.Fifo
  rx : s.rx.Fifo
  seen : s.seen <+: s.tx.pipe.content
  free : s.rx.pipe.used + s.room ≤ 64
  inside : s.place + s.room ≤ 64
  place : 0 < s.room → s.place = s.rx.pipe.head.toNat % 64

/-- Nothing has gone through a pipe, and its counters are equal. -/
def Line.Starts (l : Line) : Prop := l.pipe.head = l.pipe.tail ∧ l.put = [] ∧ l.taken = []

def State.Starts (s : State) : Prop :=
  s.tx.Starts ∧ s.rx.Starts ∧ s.seen = [] ∧ s.place = 0 ∧ s.room = 0

section
variable {s s' : State} {l : Line}

theorem length_content (p : Pipe) : p.content.length = p.used := by simp [Pipe.content, cells]

theorem region_spec (t n : Nat) :
    ∃ cnt, region (t % 64) n = (t % 64, cnt) ∧ t % 64 + cnt ≤ 64 ∧ cnt ≤ n := by
  refine ⟨_, rfl, ?_⟩
  split <;> omega

/-- The region of `__console_tx_pipe_ptr` has the next bytes. -/
theorem txPtr_shows {p : Pipe} :
    p.buf.bytes (consoleTxPipePtr p).1 (consoleTxPipePtr p).2 <+: p.content := by
  obtain ⟨cnt, hr, hin, hle⟩ := region_spec p.tail.toNat p.used
  have hr : consoleTxPipePtr p = (p.tail.toNat % 64, cnt) := hr
  rw [hr, bytes_eq_cells hin, Pipe.content, ← Nat.add_sub_cancel' hle, cells_add]
  exact prefix_append _ _

theorem Line.Fifo.write (h : l.Fifo) (bs : List UInt8) :
    (l.write bs).Fifo ∧ l.pipe.content <+: (l.write bs).pipe.content := by
  obtain ⟨hused, hc⟩ := txPipeWrite_spec h.used bs
  have hc : (l.write bs).pipe.content = _ := hc
  refine ⟨⟨hused, ?_⟩, hc ▸ List.prefix_append _ _⟩
  rw [hc, ← List.append_assoc]
  exact congrArg (· ++ _) h.put

theorem Line.Fifo.read (h : l.Fifo) (len : Nat) :
    (l.read len).Fifo ∧ (l.read len).pipe.used ≤ l.pipe.used ∧
      (l.read len).pipe.head = l.pipe.head := by
  obtain ⟨hused, hc, hhead⟩ := rxPipeRead_spec h.used len
  refine ⟨⟨hused.trans h.used, ?_⟩, hused, hhead⟩
  exact (h.put.trans (congrArg _ hc)).trans (append_assoc _ _ _).symm

theorem State.Fifo.step {ev : Event} (h : s.Fifo) (hstep : s.step ev = some s') : s'.Fifo := by
  obtain ⟨htx, hrx, hseen, hfree, hinside, hplace⟩ := h
  cases ev with
  | write bs =>
    cases hstep
    obtain ⟨hw, hp⟩ := htx.write bs
    exact ⟨hw, hrx, hseen.trans hp, hfree, hinside, hplace⟩
  | read len =>
    cases hstep
    obtain ⟨hr, hused, hhead⟩ := hrx.read len
    refine ⟨htx, hr, hseen, (Nat.add_le_add_right hused _).trans hfree, hinside, ?_⟩
    rw [hhead]
    exact hplace
  | txPtr =>
    cases hstep
    exact ⟨htx, hrx, txPtr_shows, hfree, hinside, hplace⟩
  | txCommit cnt =>
    obtain ⟨hcnt, hs⟩ := Option.ite_none_right_eq_some.mp hstep
    cases hs
    obtain ⟨hused, hc⟩ := content_tail (hcnt.trans (length_content _ ▸ hseen.length_le))
    have htake : s.seen.take cnt = cells s.tx.pipe.buf s.tx.pipe.tail.toNat cnt := by
      rw [List.prefix_iff_eq_take.mp hseen, List.take_take, Nat.min_eq_left hcnt, hc,
        List.take_left' (by simp [cells])]
    refine ⟨⟨hused.trans_le ((Nat.sub_le ..).trans htx.used), ?_⟩, hrx, List.nil_prefix, hfree,
      hinside, hplace⟩
    rw [htx.put, htake, List.append_assoc, hc]
  | rxPtr =>
    cases hstep
    obtain ⟨cnt, hr, hin, hle⟩ := region_spec s.rx.pipe.head.toNat (64 - s.rx.pipe.used)
    have hr : consoleRxPipePtr s.rx.pipe = (s.rx.pipe.head.toNat % 64, cnt) := by
      rw [consoleRxPipePtr, free_eq hrx.used, hr]
    rw [hr]
    exact ⟨htx, hrx, hseen, by dsimp only; omega, hin, fun _ => rfl⟩
  | fill i b =>
    obtain ⟨hi, hs⟩ := Option.ite_none_right_eq_some.mp hstep
    cases hs
    refine ⟨htx, ⟨hrx.used, hrx.put.trans (congrArg _ ?_)⟩, hseen, hfree, hinside, hplace⟩
    refine (cells_congr fun j hj => Function.update_of_ne ?_ _ _).symm
    have := toNat_head (p := s.rx.pipe)
    omega
  | rxCommit cnt waiting =>
    obtain ⟨hcnt, hs⟩ := Option.ite_none_right_eq_some.mp hstep
    cases hs
    obtain ⟨hused, hc⟩ := content_head (p := s.rx.pipe) (k := cnt) (by omega)
    have hbytes : s.rx.pipe.buf.bytes s.place cnt =
        cells s.rx.pipe.buf s.rx.pipe.head.toNat cnt := by
      rcases Nat.eq_zero_or_pos cnt with rfl | hpos
      · rfl
      · have hplace := hplace (by omega)
        rw [hplace]
        exact bytes_eq_cells (by omega)
    have hl : Line.Fifo ⟨{ s.rx.pipe with head := s.rx.pipe.head + BitVec.ofNat 32 cnt },
        s.rx.put ++ s.rx.pipe.buf.bytes s.place cnt, s.rx.taken⟩ := by
      refine ⟨hused.trans_le (by omega), ?_⟩
      rw [hrx.put, hc, hbytes, List.append_assoc]
    cases waiting with
    | none => exact ⟨htx, hl, hseen, hl.used, by dsimp only; omega, nofun⟩
    | some len =>
      have hl := (hl.read len).1
      exact ⟨htx, hl, hseen, hl.used, by dsimp only; omega, nofun⟩

theorem Line.Starts.fifo (h : l.Starts) : l.Fifo := by
  obtain ⟨heq, hput, htaken⟩ := h
  have hused : l.pipe.used = 0 := by simp [Pipe.used, heq]
  refine ⟨by omega, ?_⟩
  rw [hput, htaken, Pipe.content, hused]
  rfl

theorem State.Starts.fifo (h : s.Starts) : s.Fifo := by
  obtain ⟨htx, hrx, hseen, hplace, hroom⟩ := h
  refine ⟨htx.fifo, hrx.fifo, by rw [hseen]; exact nil_prefix, ?_, by omega, by omega⟩
  rw [hroom]
  exact hrx.fifo.used

/-- **The pipes are FIFOs in every run**, from any equal counters and also when these wrap. -/
theorem pipes_fifo (hs : s.Starts) (hr : system.Run (fun _ _ => True) s s') :
    (∀ l ∈ [s'.tx, s'.rx], l.put = l.taken ++ l.pipe.content ∧
      l.pipe.content.length = (l.pipe.head - l.pipe.tail).toNat ∧
      (l.pipe.head - l.pipe.tail).toNat ≤ 64) ∧
    (∀ r ∈ [consoleTxPipePtr s'.tx.pipe, consoleRxPipePtr s'.rx.pipe], r.1 + r.2 ≤ 64) ∧
    s'.tx.pipe.buf.bytes (consoleTxPipePtr s'.tx.pipe).1 (consoleTxPipePtr s'.tx.pipe).2 <+:
      s'.tx.pipe.content ∧ s'.seen <+: s'.tx.pipe.content := by
  have h : s'.Fifo := hr.invariant (fun _ _ _ hi _ hstep => hi.step hstep) hs.fifo
  have hin : ∀ t n, (region (t % 64) n).1 + (region (t % 64) n).2 ≤ 64 := by
    intro t n
    obtain ⟨cnt, hr, hin, -⟩ := region_spec t n
    rw [hr]
    exact hin
  refine ⟨?_, ?_, txPtr_shows, h.seen⟩
  · rintro l (_ | ⟨_, _ | ⟨_, ⟨⟩⟩⟩)
    · exact ⟨h.tx.put, length_content _, h.tx.used⟩
    · exact ⟨h.rx.put, length_content _, h.rx.used⟩
  · rintro r (_ | ⟨_, _ | ⟨_, ⟨⟩⟩⟩)
    · exact hin _ _
    · exact hin _ _

end

/-- The counters wrap. -/
theorem pipes_fifo_wrap : ∃ s s' : State, s.Starts ∧ s'.tx.pipe.tail = 2#32 ∧
    s'.tx.taken = [1, 2, 3, 4] ∧ s'.tx.put = s'.tx.taken ++ s'.tx.pipe.content := by
  let s : State := ⟨⟨⟨-2, -2, fun _ => 0⟩, [], []⟩, ⟨⟨0, 0, fun _ => 0⟩, [], []⟩, [], 0, 0⟩
  have hs : s.Starts := ⟨⟨rfl, rfl, rfl⟩, ⟨rfl, rfl, rfl⟩, rfl, rfl, rfl⟩
  obtain ⟨s', hr, ht, hout⟩ := System.exists_run_of_exec (M := system) (P := fun _ _ => True)
    (fun s' => s'.tx.pipe.tail = 2#32 ∧ s'.tx.taken = [1, 2, 3, 4])
    [.write [1, 2, 3, 4, 5], .txPtr, .txCommit 2, .txPtr, .txCommit 2] s (by decide +kernel)
  exact ⟨s, s', hs, ht, hout, ((pipes_fifo hs hr).1 _ mem_cons_self).1⟩

end Console
