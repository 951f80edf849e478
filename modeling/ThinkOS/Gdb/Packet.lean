import Mathlib.Tactic.Common
import ThinkOS.Lib.Memory

/-!
# Receiving a packet of the GDB remote protocol

`rsp_pkt_recv` of `gdb-rsp.c` undoes the escapes in place, read by read. Its state between two reads is
what the bytes so far leave to be decoded, so the reads may cut the packet anywhere.
-/

namespace Gdb

open Lib List Mem

inductive RspState
  | data | esc | hash | sum

/-- One round of the scan: the next state, none behind the last digit, and the bytes it keeps. -/
def rspByte : RspState → UInt8 → Option RspState × List UInt8
  | .data, c =>
    if c = 0x7d then (some .esc, [])
    else if c = 0x23 then (some .hash, [c])
    else (some .data, [c])
  | .esc, c => (some .data, [c ^^^ 0x20])
  | .hash, c => (some .sum, [c])
  | .sum, c => (none, [c])

inductive Scan
  | done (pos : Nat) (pkt : Mem)
  | more (j : Nat) (state : RspState) (pkt : Mem)

/-- The scan of the last `n` bytes of a read at `pos`: it reads at `i` and writes at `j`. -/
def rspScan (pos i j : Nat) (state : RspState) (pkt : Mem) : Nat → Scan
  | 0 => .more j state pkt
  | n + 1 =>
    let (next, kept) := rspByte state (pkt (pos + i))
    let pkt := pkt.storeBytes (pos + j) kept
    let j := j + kept.length
    match next with
    | none => .done (pos + j) (pkt.storeBytes (pos + j) [0])
    | some state => rspScan pos (i + 1) j state pkt n

/-- `rsp_pkt_recv`: what it returns, and the buffer. After `reads` the line fails with `err`. -/
def rspPktRecv (err : Int) (pos rem : Nat) (state : RspState) (pkt : Mem) :
    List (List UInt8) → Int × Mem
  | [] => (err, pkt)
  | line :: reads =>
    let read := line.take rem
    match rspScan pos 0 0 state (pkt.storeBytes pos read) read.length with
    | .done pos pkt => (pos - 3, pkt)
    | .more j state pkt =>
      if rem - read.length = 0 then (-1, pkt)
      else rspPktRecv err (pos + j) (rem - read.length) state pkt reads

/-- From `state` on the bytes are the rest of a packet, and leave `out` in the buffer. -/
inductive Decodes : RspState → List UInt8 → List UInt8 → Prop
  | last {state c out} (h : rspByte state c = (none, out)) : Decodes state [c] out
  | next {state state' c kept l out} (h : rspByte state c = (some state', kept))
      (t : Decodes state' l out) : Decodes state (c :: l) (kept ++ out)

/-- A payload with its escapes. Every byte may be escaped, `#` and the escape character have to be. -/
inductive Escaped : List UInt8 → List UInt8 → Prop
  | nil : Escaped [] []
  | raw {b p e} (hb : b ≠ 0x7d ∧ b ≠ 0x23) (t : Escaped p e) : Escaped (b :: p) (b :: e)
  | esc {p e} (b : UInt8) (t : Escaped p e) : Escaped (b :: p) (0x7d :: (b ^^^ 0x20) :: e)

theorem Escaped.decodes {p e : List UInt8} (h : Escaped p e) {d d' : UInt8} :
    Decodes .data (e ++ [0x23, d, d']) (p ++ [0x23, d, d']) := by
  induction h with
  | nil => exact @Decodes.next _ _ _ [_] _ _ rfl (@Decodes.next _ _ _ [_] _ _ rfl (.last rfl))
  | @raw b _ _ hb t ih =>
    exact @Decodes.next _ _ _ [b] _ _ (by rw [rspByte, if_neg hb.1, if_neg hb.2]) ih
  | esc b t ih =>
    refine @Decodes.next _ _ _ [] _ _ rfl (@Decodes.next _ _ _ [b] _ _ ?_ ih)
    rw [rspByte, UInt8.xor_assoc, UInt8.xor_self, UInt8.xor_zero]

variable {state : RspState} {out : List UInt8} {pkt : Mem} {pos i j : Nat}

/-- One read: it ends the packet, or leaves the rest of the packet to be decoded. -/
theorem rspScan_spec {l rest : List UInt8} (h : Decodes state (l ++ rest) out) (hji : j ≤ i)
    (hl : pkt.bytes (pos + i) l.length = l) :
    (∃ pkt', rspScan pos i j state pkt l.length = .done (pos + j + out.length) pkt' ∧
      pkt'.bytes 0 (pos + j + out.length + 1) = pkt.bytes 0 (pos + j) ++ out ++ [0]) ∨
    ∃ kept out' state' pkt', rspScan pos i j state pkt l.length = .more (j + kept.length) state' pkt' ∧
      out = kept ++ out' ∧ Decodes state' rest out' ∧
      pkt'.bytes 0 (pos + (j + kept.length)) = pkt.bytes 0 (pos + j) ++ kept := by
  induction l generalizing i j state pkt out with
  | nil => exact .inr ⟨[], out, state, pkt, rfl, rfl, h, (append_nil _).symm⟩
  | cons c l ih =>
    obtain ⟨hc, hl⟩ := cons.inj hl
    have hput (kept : List UInt8) := bytes_storeBytes_append pkt 0 (pos + j) kept
    rw [Nat.zero_add] at hput
    rw [length_cons, rspScan, hc]
    rw [cons_append] at h
    generalize hw : l ++ rest = w at h
    cases h with
    | last hbyte =>
      refine .inl ⟨(pkt.storeBytes (pos + j) out).storeBytes (pos + j + out.length) [0], ?_, ?_⟩
      · rw [hbyte, Nat.add_assoc]
      · have h0 := bytes_storeBytes_append (pkt.storeBytes (pos + j) out) 0 (pos + j + out.length) [0]
        rwa [Nat.zero_add, hput] at h0
    | @next _ state' _ kept _ out hbyte t =>
      have hlen : kept.length ≤ 1 := by
        revert hbyte
        cases state <;> simp only [rspByte] <;> grind
      -- a byte is kept no further on than it was read, so the rest of the read stays as it is
      have hrest : (pkt.storeBytes (pos + j) kept).bytes (pos + (i + 1)) l.length = l := by
        rwa [bytes_storeBytes_ne (by omega)]
      rw [hbyte]
      dsimp only
      obtain ⟨pkt', hrun, hbytes⟩ | ⟨kept', out', state', pkt', hrun, rfl, ht, hbytes⟩ :=
        ih (hw ▸ t) (by omega : j + kept.length ≤ i + 1) hrest
      · refine .inl ⟨pkt', ?_, ?_⟩
        · rw [hrun, length_append]
          simp only [Nat.add_assoc]
        · rw [← Nat.add_assoc pos, hput] at hbytes
          rw [length_append, ← append_assoc, ← hbytes]
          simp only [Nat.add_assoc]
      · refine .inr ⟨kept ++ kept', out', state', pkt', ?_, (append_assoc ..).symm, ht, ?_⟩
        · rw [hrun, length_append, Nat.add_assoc]
        · rw [length_append, ← append_assoc, ← hput, ← Nat.add_assoc j, hbytes, Nat.add_assoc]

theorem rspPktRecv_spec (err : Int) {rem : Nat} {reads : List (List UInt8)}
    (h : Decodes state reads.flatten out) (hroom : reads.flatten.length < rem) :
    ∃ pkt', rspPktRecv err pos rem state pkt reads = ((pos + out.length : Int) - 3, pkt') ∧
      pkt'.bytes 0 (pos + out.length + 1) = pkt.bytes 0 pos ++ out ++ [0] := by
  induction reads generalizing pos rem state pkt out with
  | nil => cases h
  | cons line reads ih =>
    rw [flatten_cons] at h
    rw [flatten_cons, length_append] at hroom
    have hkeep : (pkt.storeBytes pos line).bytes 0 pos = pkt.bytes 0 pos :=
      bytes_storeBytes_ne (by omega)
    rw [rspPktRecv, take_of_length_le (by omega)]
    obtain ⟨pkt', hrun, hbytes⟩ | ⟨kept, out', state', pkt', hrun, rfl, ht, hbytes⟩ :=
      rspScan_spec (i := 0) h (Nat.le_refl 0) (bytes_storeBytes pkt pos line)
    · refine ⟨pkt', ?_, hbytes.trans (by rw [Nat.add_zero, hkeep])⟩
      rw [hrun]
      simp
    · obtain ⟨pkt1, hrun', hbytes'⟩ :=
        ih ht (by omega : reads.flatten.length < rem - line.length)
      rw [Nat.zero_add] at hrun hbytes
      refine ⟨pkt1, ?_, ?_⟩
      · rw [hrun]
        dsimp only
        rw [if_neg (by omega), hrun', length_append]
        push_cast
        rw [Int.add_assoc]
      · rw [length_append, ← Nat.add_assoc, hbytes', hbytes, Nat.add_zero, hkeep, append_assoc _ kept]

/-- **A packet is received as it was meant**, in whatever reads it comes: the buffer starts with the
payload without escapes, the `#`, the two digits and a NUL, and the length of the payload is
returned. -/
theorem rsp_pkt_recv_unescapes {payload enc : List UInt8} {reads : List (List UInt8)} {max : Nat}
    (d d' : UInt8) (h : Escaped payload enc) (hreads : reads.flatten = enc ++ [0x23, d, d'])
    (hmax : reads.flatten.length < max) (err : Int) (pkt : Mem) :
    ∃ pkt', rspPktRecv err 0 max .data pkt reads = ((payload.length : Int), pkt') ∧
      pkt'.bytes 0 (payload.length + 4) = payload ++ [0x23, d, d', 0] := by
  obtain ⟨pkt', hrun, hbytes⟩ :=
    @rspPktRecv_spec _ _ pkt 0 err _ _ (hreads ▸ h.decodes) hmax
  refine ⟨pkt', by simpa using hrun, ?_⟩
  simpa [Mem.bytes] using hbytes

/-- An escape at the end of a read, with its operand in the next one. -/
theorem rsp_pkt_recv_split : ∃ pkt',
    rspPktRecv (-1) 0 8 .data (fun _ => 0) [[0x7d], [0x03, 0x23, 0x30], [0x31]] = (1, pkt') ∧
      pkt'.bytes 0 5 = [0x23, 0x23, 0x30, 0x31, 0] :=
  rsp_pkt_recv_unescapes 0x30 0x31 (.esc 0x23 .nil) rfl (by decide) (-1) fun _ => 0

end Gdb
