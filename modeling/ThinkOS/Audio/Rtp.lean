import Mathlib.Tactic.Common
import ThinkOS.Lib.Memory

/-!
# Reassembly of the audio stream

`rtp_g711_recv` of `rtp.c`. What it passed on and what it holds back are together the payloads it
accepted. The length of a datagram is not checked: one that is shorter than the header, and completed to
a valid header by what the packet buffer held before, is copied with a negative length.
-/

namespace Rtp

open Lib List Mem Option

def SNDBUF_LEN : Nat := 128

structure RtpSession where
  ssrc : BitVec 32
  ts : BitVec 32
  buf : Mem
  rem : Nat

/-- The checks of `version`, `payload`, `csrc_len` and `ssrc`. -/
def rtpAccepts (ssrc : BitVec 32) (pkt : Mem) : Bool :=
  pkt 0 >>> 6 = 2 ∧ (pkt 1 &&& 0x7f = 8 ∨ pkt 1 &&& 0x7f = 96) ∧ pkt 0 &&& 0xf = 0 ∧ pkt.load32 8 = ssrc

/-- `memcpy`; a negative length overruns the memory. -/
def memcpy (dst : Mem) (a : Nat) (src : Mem) (b : Nat) (n : Int) : Option Mem :=
  if n < 0 then none else some (dst.storeBytes a (src.bytes b n.toNat))

/-- What `audio_alaw_enqueue` is called with. -/
abbrev Block := BitVec 32 × List UInt8

/-- The end of `rtp_g711_recv`: the whole blocks at `data` are passed on, the rest is held back. -/
def rtpBlocks (rtp : RtpSession) (pkt : Mem) (data : Nat) (dataLen : Int) (out : List Block) :
    Option (Int × RtpSession × List Block) :=
  let rem := dataLen.tmod SNDBUF_LEN
  let dataLen := dataLen - rem
  (if rem = 0 then some rtp.buf else memcpy rtp.buf 0 pkt (data + dataLen).toNat rem).map fun buf =>
    (dataLen, { rtp with buf, rem := rem.toNat, ts := rtp.ts + BitVec.ofInt 32 dataLen },
      out ++ [(rtp.ts, pkt.bytes data dataLen.toNat)])

/-- `rtp_g711_recv` from where `udp_recv` returned the datagram, with the blocks it passes on. `stack` is
what `pkt_buf` held before. -/
def rtpG711Recv (rtp : RtpSession) (stack : Mem) (dgram : List UInt8) :
    Option (Int × RtpSession × List Block) :=
  let read := dgram.take 1496
  let pkt := stack.storeBytes 0 read
  if rtpAccepts rtp.ssrc pkt then
    let dataLen : Int := read.length - 12
    if rtp.rem = 0 then rtpBlocks rtp pkt 12 dataLen []
    else
      let n := min (SNDBUF_LEN - rtp.rem : Int) dataLen
      (memcpy rtp.buf rtp.rem pkt 12 n).bind fun buf =>
        let rem := (rtp.rem + n).toNat
        if rem < SNDBUF_LEN then some (0, { rtp with buf, rem }, [])
        else rtpBlocks { rtp with buf, rem, ts := rtp.ts + BitVec.ofNat 32 SNDBUF_LEN } pkt
          (12 + n).toNat (dataLen - n) [(rtp.ts, buf.bytes 0 SNDBUF_LEN)]
  else some (0, rtp, [])

/-- The calls for one datagram after the other, each with what its packet buffer held before. -/
def rtpRun (rtp : RtpSession) : List (Mem × List UInt8) → Option (RtpSession × List Block)
  | [] => some (rtp, [])
  | (stack, dgram) :: rest =>
    (rtpG711Recv rtp stack dgram).bind fun r =>
      (rtpRun r.2.1 rest).map fun r' => (r'.1, r.2.2 ++ r'.2)

def RtpSession.held (rtp : RtpSession) : List UInt8 := rtp.buf.bytes 0 rtp.rem

/-- The packet that `udp_recv` returned is accepted. -/
def Accepted (ssrc : BitVec 32) (p : Mem × List UInt8) : Bool :=
  rtpAccepts ssrc (p.1.storeBytes 0 (p.2.take 1496))

/-- The payloads of the accepted packets. -/
def payloads (ssrc : BitVec 32) (ps : List (Mem × List UInt8)) : List UInt8 :=
  (ps.filter (Accepted ssrc)).flatMap fun p => (p.2.take 1496).drop 12

/-- The blocks follow on each other without a gap. -/
def passed (out : List Block) : List UInt8 := out.flatMap Prod.snd

/-- What a call has to leave: whole blocks, and less than one held back. -/
structure Reassembles (before after : RtpSession) (out : List Block) (data : List UInt8) : Prop where
  stream : passed out ++ after.held = before.held ++ data
  whole : ∀ b ∈ out, SNDBUF_LEN ∣ b.2.length
  small : after.rem < SNDBUF_LEN
  ssrc : after.ssrc = before.ssrc

variable {rtp before : RtpSession} {pkt stack : Mem} {dgram d : List UInt8} {out : List Block}

theorem rtpBlocks_spec {data k : Nat} (hout : ∀ b ∈ out, SNDBUF_LEN ∣ b.2.length)
    (hssrc : rtp.ssrc = before.ssrc) (hstream : passed out ++ pkt.bytes data k = before.held ++ d) :
    ∃ r, rtpBlocks rtp pkt data k out = some r ∧ Reassembles before r.2.1 r.2.2 d := by
  obtain ⟨rem, hrem⟩ : ∃ rem, rem = k % SNDBUF_LEN := ⟨_, rfl⟩
  have hle : rem ≤ k := hrem ▸ Nat.mod_le k _
  have hmod : (k : Int).tmod SNDBUF_LEN = (rem : Int) := by rw [hrem]; rfl
  have hsub : (k : Int) - rem = (k - rem : Nat) := (Int.ofNat_sub hle).symm
  have hsplit := pkt.bytes_add data (k - rem) rem
  rw [Nat.sub_add_cancel hle] at hsplit
  -- the buffer that is left holds the bytes behind the last whole block
  obtain ⟨buf, hcopy, hbuf⟩ : ∃ buf,
      (if (rem : Int) = 0 then some rtp.buf
        else memcpy rtp.buf 0 pkt (data + ((k - rem : Nat) : Int)).toNat rem) = some buf ∧
      buf.bytes 0 rem = pkt.bytes (data + (k - rem)) rem := by
    by_cases h0 : rem = 0
    · exact ⟨rtp.buf, by rw [if_pos (by omega)], by rw [h0]; rfl⟩
    · refine ⟨_, by rw [if_neg (by omega), memcpy, if_neg (by omega)], ?_⟩
      have := bytes_storeBytes rtp.buf 0 (pkt.bytes (data + (k - rem)) rem)
      rwa [length_bytes] at this
  rw [rtpBlocks, hmod, hsub, hcopy]
  refine ⟨_, rfl, ?_, fun b hb => ?_, hrem ▸ Nat.mod_lt k (by decide), hssrc⟩
  · rw [← hstream, hsplit, ← hbuf]
    simp [passed, RtpSession.held]
  · rcases mem_append.mp hb with hb | hb
    · exact hout b hb
    · rw [mem_singleton.mp hb, length_bytes]
      exact hrem ▸ Nat.dvd_sub_mod k

/-- One accepted packet that is not shorter than its header. -/
theorem rtpG711Recv_accepted (h : rtp.rem < SNDBUF_LEN) (hacc : Accepted rtp.ssrc (stack, dgram))
    (hlen : 12 ≤ dgram.length) : ∃ r, rtpG711Recv rtp stack dgram = some r ∧
      Reassembles rtp r.2.1 r.2.2 ((dgram.take 1496).drop 12) := by
  obtain ⟨read, hread⟩ : ∃ read, read = dgram.take 1496 := ⟨_, rfl⟩
  obtain ⟨k, hk⟩ : ∃ k, read.length = 12 + k := Nat.exists_eq_add_of_le (by rw [hread]; simp; omega)
  obtain ⟨pkt, hpkt⟩ : ∃ pkt, pkt = stack.storeBytes 0 read := ⟨_, rfl⟩
  have hdata : pkt.bytes 12 k = read.drop 12 := by
    have hbytes := stack.bytes_storeBytes 0 read
    rw [← hpkt, hk, bytes_add] at hbytes
    rw [← hbytes, drop_left' (length_bytes ..), Nat.zero_add]
  rw [Accepted, ← hread, ← hpkt] at hacc
  rw [rtpG711Recv, ← hread, ← hpkt, if_pos hacc, show (read.length : Int) - 12 = k by omega, ← hdata]
  by_cases h0 : rtp.rem = 0
  · rw [if_pos h0]
    exact rtpBlocks_spec (by simp) rfl (by rw [RtpSession.held, h0]; rfl)
  · obtain ⟨n, hn⟩ : ∃ n : Nat, n = min (SNDBUF_LEN - rtp.rem) k := ⟨_, rfl⟩
    have hbuf := bytes_storeBytes_append rtp.buf 0 rtp.rem (pkt.bytes 12 n)
    rw [length_bytes, Nat.zero_add] at hbuf
    rw [if_neg h0]
    dsimp only
    rw [show min (SNDBUF_LEN - rtp.rem : Int) k = n by omega, memcpy, if_neg (by omega),
      bind_some, Int.toNat_natCast, show ((rtp.rem : Int) + n).toNat = rtp.rem + n by omega]
    by_cases hfull : rtp.rem + n < SNDBUF_LEN
    · refine ⟨_, by rw [if_pos hfull], ?_, by simp, hfull, rfl⟩
      rw [show k = n by omega]
      exact hbuf
    · -- the block that was held back is full
      have hsplit := pkt.bytes_add 12 n (k - n)
      rw [Nat.add_sub_cancel' (by omega)] at hsplit
      rw [show rtp.rem + n = SNDBUF_LEN by omega] at hbuf
      rw [if_neg hfull, show (k : Int) - n = (k - n : Nat) by omega]
      refine rtpBlocks_spec (by simp) rfl ?_
      rw [show (12 + (n : Int)).toNat = 12 + n by omega, hsplit, ← append_assoc, RtpSession.held, ← hbuf]
      simp [passed]

theorem rtpG711Recv_ignored (hacc : ¬Accepted rtp.ssrc (stack, dgram)) :
    rtpG711Recv rtp stack dgram = some (0, rtp, []) :=
  if_neg hacc

/-- An accepted datagram that is shorter than its header is copied with a negative length. -/
theorem rtpG711Recv_short (hacc : Accepted rtp.ssrc (stack, dgram)) (hlen : dgram.length < 12) :
    rtpG711Recv rtp stack dgram = none := by
  obtain ⟨m, hm⟩ : ∃ m : Nat, ((dgram.take 1496).length : Int) - 12 = -m ∧ 0 < m ∧ m < 13 :=
    ⟨12 - (dgram.take 1496).length, by rw [length_take]; omega⟩
  have hmod : (-(m : Int)).tmod SNDBUF_LEN = -m := by
    rw [Int.neg_tmod]
    exact congrArg (fun n : Nat => -(n : Int)) (Nat.mod_eq_of_lt (by rw [SNDBUF_LEN]; omega))
  rw [rtpG711Recv]
  refine (if_pos hacc).trans ?_
  dsimp only
  rw [hm.1]
  split
  · rw [rtpBlocks, hmod, if_neg (by omega), memcpy, if_pos (by omega), map_none]
  · rw [memcpy, if_pos (by omega), bind_none]

theorem rtpRun_spec {ps : List (Mem × List UInt8)} (h : rtp.rem < SNDBUF_LEN)
    (hlen : ∀ p ∈ ps, Accepted rtp.ssrc p → 12 ≤ p.2.length) :
    ∃ r, rtpRun rtp ps = some r ∧ Reassembles rtp r.1 r.2 (payloads rtp.ssrc ps) := by
  induction ps generalizing rtp with
  | nil => exact ⟨(rtp, []), rfl, (append_nil _).symm, by simp, h, rfl⟩
  | cons p ps ih =>
    obtain ⟨stack, dgram⟩ := p
    -- the packet's share of the payloads
    obtain ⟨data, r, hdata, hstep, hr⟩ : ∃ data r,
        payloads rtp.ssrc ((stack, dgram) :: ps) = data ++ payloads rtp.ssrc ps ∧
        rtpG711Recv rtp stack dgram = some r ∧ Reassembles rtp r.2.1 r.2.2 data := by
      by_cases hacc : Accepted rtp.ssrc (stack, dgram)
      · obtain ⟨r, hr⟩ := rtpG711Recv_accepted h hacc (hlen _ mem_cons_self hacc)
        exact ⟨_, r, by rw [payloads, filter_cons_of_pos hacc, flatMap_cons, payloads], hr⟩
      · exact ⟨[], _, by rw [payloads, filter_cons_of_neg hacc, payloads, nil_append],
          rtpG711Recv_ignored hacc, (append_nil _).symm, by simp, h, rfl⟩
    obtain ⟨r', hrun, hr'⟩ := ih hr.small fun p hp => hr.ssrc ▸ hlen p (mem_cons_of_mem _ hp)
    refine ⟨(r'.1, r.2.2 ++ r'.2), by rw [rtpRun, hstep, bind_some, hrun, map_some], ?_,
      fun b hb => (mem_append.mp hb).elim (hr.whole b) (hr'.whole b), hr'.small,
      hr'.ssrc.trans hr.ssrc⟩
    rw [passed, flatMap_append, append_assoc, ← passed, ← passed, hr'.stream, ← append_assoc, hr.stream,
      hr.ssrc, hdata, append_assoc]

/-- **The stream is passed on whole**: in every run in which no datagram shorter than the header is
accepted, the blocks passed on and the bytes held back are the payloads of the accepted packets, and less
than a block is held back. A datagram shorter than the header changes nothing exactly if it is not
accepted. -/
theorem rtp_reassembly (rtp : RtpSession) (h : rtp.rem = 0) (ps : List (Mem × List UInt8))
    (hlen : ∀ p ∈ ps, Accepted rtp.ssrc p → 12 ≤ p.2.length) :
    (∃ r, rtpRun rtp ps = some r ∧ passed r.2 ++ r.1.held = payloads rtp.ssrc ps ∧
      (∀ b ∈ r.2, SNDBUF_LEN ∣ b.2.length) ∧ r.1.held.length < SNDBUF_LEN) ∧
    ∀ (rtp : RtpSession) (stack : Mem) (dgram : List UInt8), dgram.length < 12 →
      (rtpG711Recv rtp stack dgram = some (0, rtp, []) ↔ ¬Accepted rtp.ssrc (stack, dgram)) := by
  constructor
  · obtain ⟨r, hrun, hr⟩ := @rtpRun_spec rtp ps (h ▸ by decide) hlen
    refine ⟨r, hrun, ?_, hr.whole, ?_⟩
    · rw [hr.stream, RtpSession.held, h]
      rfl
    · rw [RtpSession.held, length_bytes]
      exact hr.small
  · intro rtp stack dgram hshort
    refine ⟨fun hsame hacc => ?_, rtpG711Recv_ignored⟩
    rw [rtpG711Recv_short hacc hshort] at hsame
    cases hsame

/-- A packet of 100 bytes. -/
def packet (b : UInt8) : Mem × List UInt8 :=
  (fun _ => 0, [0x80, 8, 0, 0, 0, 0, 0, 0, 7, 0, 0, 0] ++ replicate 100 b)

/-- Of two packets one block is passed on, and the rest of the second is held back. -/
theorem rtp_reassembly_held : ∃ r, rtpRun ⟨7, 0, fun _ => 0, 0⟩ [packet 1, packet 2] = some r ∧
    r.1.held.length < SNDBUF_LEN ∧ passed r.2 ++ r.1.held = replicate 100 1 ++ replicate 100 2 := by
  obtain ⟨r, hrun, hstream, -, hheld⟩ := (rtp_reassembly ⟨7, 0, fun _ => 0, 0⟩ rfl [packet 1, packet 2]
    (by simp [packet])).1
  exact ⟨r, hrun, hheld, hstream.trans (by decide +kernel)⟩

/-- Eight bytes are taken for a packet when the packet buffer holds the `ssrc` of an earlier one, and the
audio buffer is overrun. -/
theorem rtp_short_overrun : rtpG711Recv ⟨7, 0, fun _ => 0, 0⟩
    (fun i => if i = 8 then 7 else 0) [0x80, 8, 0, 1, 0, 0, 0, 0] = none := by
  decide

end Rtp
