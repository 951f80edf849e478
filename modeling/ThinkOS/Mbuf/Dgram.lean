import ThinkOS.Mbuf.Content

/-!
# Bytes in a list of buffers

The model of `mbuf_list_write` and `mbuf_list_read`, which copy a datagram into the buffers of a list
and out of them, whole buffers first.
-/

namespace Mbuf

open Lib List Mbufs Function

namespace Mbufs

/-- The copies of `mbuf_list_write`, over at most so many buffers; the bytes that found no buffer are
left over. -/
def writeChain : Nat → Mbufs → Option Node → List UInt8 → Mbufs × List UInt8
  | 0, m, _, src => (m, src)
  | _ + 1, m, none, src => (m, src)
  | k + 1, m, some p, src =>
    if MBUF_DATA_SIZE ≤ src.length then
      writeChain k (m.store p 0 (src.take MBUF_DATA_SIZE)) (m.next p) (src.drop MBUF_DATA_SIZE)
    else if 0 < src.length then
      (m.store p 0 src, [])
    else
      (m, src)

/-- `mbuf_list_write`: the number of bytes written. -/
def mbufListWrite (m : Mbufs) (p : Option Node) (src : List UInt8) : Mbufs × Nat :=
  let (m, rest) := writeChain (src.length / MBUF_DATA_SIZE + 1) m p src
  (m, src.length - rest.length)

/-- The copies of `mbuf_list_read`, over at most so many buffers. -/
def readChain (m : Mbufs) : Nat → Option Node → Nat → List UInt8
  | 0, _, _ => []
  | _ + 1, none, _ => []
  | k + 1, some p, rem =>
    if MBUF_DATA_SIZE ≤ rem then
      m.load p 0 MBUF_DATA_SIZE ++ readChain m k (m.next p) (rem - MBUF_DATA_SIZE)
    else if 0 < rem then
      m.load p 0 rem
    else
      []

/-- `mbuf_list_read`: the bytes read; the function returns their number. -/
def mbufListRead (m : Mbufs) (p : Option Node) (len : Nat) : List UInt8 :=
  m.readChain (len / MBUF_DATA_SIZE + 1) p len

end Mbufs

section
variable {m : Mbufs} {p : Option Node} {a : List Nat} {k : Nat}

section
variable (hp : Follows m.next p a)
include hp

/-- What is written to a list that is long enough can be read from its buffers; the data of others
stays. -/
theorem writeChain_eq {src : List UInt8} (hn : a.Nodup)
    (hlen : src.length ≤ 124 * a.length) (hk : src.length / 124 < k) :
    ∃ data, Mbufs.writeChain k m p src = ({ m with data }, []) ∧
      (∀ i, i ∉ a → data (.buf i) = m.data (.buf i)) ∧
      (({ m with data } : Mbufs).bytes a).take src.length = src := by
  induction a generalizing m p k src with
  | nil =>
    obtain rfl : src = [] := length_eq_zero_iff.mp (by rw [length_nil] at hlen; omega)
    cases hp
    refine ⟨m.data, ?_, fun _ _ => rfl, rfl⟩
    cases k <;> rfl
  | cons b a ih =>
    obtain ⟨rfl, hp⟩ := hp
    rw [nodup_cons] at hn
    rw [length_cons] at hlen
    obtain _ | k := k
    · exact absurd hk (Nat.not_lt_zero _)
    rw [Mbufs.writeChain, MBUF_DATA_SIZE]
    split
    case isTrue hfull =>
      have hdrop : (src.drop 124).length = src.length - 124 := length_drop
      obtain ⟨data, hrun, hframe, hbytes⟩ := ih (m := m.store (.buf b) 0 (src.take 124)) (k := k) hp
        hn.2 (by omega : (src.drop 124).length ≤ 124 * a.length) (by omega)
      have htake : (src.take 124).length = 124 := by
        rw [length_take]
        omega
      have hb : data (.buf b) = (m.store (.buf b) 0 (src.take 124)).data (.buf b) :=
        hframe b hn.1
      refine ⟨data, hrun, fun i hi => ?_, ?_⟩
      · rw [mem_cons, not_or] at hi
        have hne : Node.buf i ≠ .buf b := fun he => hi.1 (Node.cell.inj he)
        rw [hframe i hi.2]
        exact update_of_ne hne ..
      · have hload : ({ m with data } : Mbufs).load (.buf b) 0 124 = src.take 124 := by
          have hstore : (m.store (.buf b) 0 (src.take 124)).load (.buf b) 0 (src.take 124).length =
              src.take 124 := load_store
          rw [htake] at hstore
          rw [← hstore, Mbufs.load, Mbufs.load, ← hb]
        rw [hdrop] at hbytes
        rw [bytes_cons, hload, take_append, htake, take_of_length_le (by omega)]
        exact (congrArg _ hbytes).trans (take_append_drop 124 src)
    case isFalse hpart =>
      split
      case isTrue hpos =>
        refine ⟨_, rfl, fun i hi => ?_, ?_⟩
        · rw [mem_cons, not_or] at hi
          have hne : Node.buf i ≠ .buf b := fun he => hi.1 (Node.cell.inj he)
          exact update_of_ne hne ..
        · change ((m.store (.buf b) 0 src).bytes (b :: a)).take src.length = src
          rw [bytes_cons, take_append_of_le_length
            (by rw [length_load]; omega), take_load, Nat.min_eq_left (by omega),
            load_store]
      case isFalse hzero =>
        obtain rfl : src = [] := length_eq_zero_iff.mp (by omega)
        exact ⟨m.data, rfl, fun _ _ => rfl, rfl⟩

theorem mbufListWrite_eq {src : List UInt8} (hn : a.Nodup) (hlen : src.length ≤ 124 * a.length) :
    ∃ data, m.mbufListWrite p src = ({ m with data }, src.length) ∧
      (∀ i, i ∉ a → data (.buf i) = m.data (.buf i)) ∧
      (({ m with data } : Mbufs).bytes a).take src.length = src := by
  obtain ⟨data, hrun, hframe, hbytes⟩ :=
    writeChain_eq (k := src.length / MBUF_DATA_SIZE + 1) hp hn hlen (Nat.lt_succ_self _)
  refine ⟨data, ?_, hframe, hbytes⟩
  rw [Mbufs.mbufListWrite, hrun]
  rfl

theorem readChain_eq {rem : Nat} (hlen : rem ≤ 124 * a.length)
    (hk : rem / 124 < k) : m.readChain k p rem = (m.bytes a).take rem := by
  induction a generalizing p k rem with
  | nil =>
    obtain rfl : rem = 0 := by rw [length_nil] at hlen; omega
    cases hp
    cases k <;> rfl
  | cons b a ih =>
    obtain ⟨rfl, hp⟩ := hp
    rw [length_cons] at hlen
    obtain _ | k := k
    · exact absurd hk (Nat.not_lt_zero _)
    rw [Mbufs.readChain, MBUF_DATA_SIZE, bytes_cons, take_append, length_load]
    split
    case isTrue hfull =>
      rw [ih hp (by omega) (by omega), take_load, Nat.min_eq_right hfull]
    case isFalse hpart =>
      rw [take_load, Nat.min_eq_left (by omega), Nat.sub_eq_zero_of_le (by omega),
        take_zero, append_nil]
      split
      case isTrue => rfl
      case isFalse hzero =>
        obtain rfl : rem = 0 := by omega
        rfl

theorem mbufListRead_eq {len : Nat} (hlen : len ≤ 124 * a.length) :
    m.mbufListRead p len = (m.bytes a).take len :=
  readChain_eq hp hlen (Nat.lt_succ_self _)

end

end

end Mbuf
