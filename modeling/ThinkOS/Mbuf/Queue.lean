import ThinkOS.Mbuf.Pool

/-!
# The byte queues

The model of `mbuf_queue_add`, `mbuf_queue_get`, `mbuf_queue_trim`, `mbuf_queue_remove` and
`mbuf_queue_free`. The `first` pointer of queue `q` is the link of the node `.first (.queue q)`.
-/

namespace Mbuf

/-- `struct mbuf_queue` without its `first` pointer. The fields `offs` and `len` are `uint16_t`. -/
structure MbufQueue where
  last : Node
  offs : Nat
  len : Nat

/-- `mbuf_queue_init` -/
def mbufQueueInit (q : Nat) : MbufQueue :=
  { last := .first (.queue q), offs := 0, len := 0 }

namespace Mbufs

/-- `memcpy` of `src` into the data of `p` from `offs` on. -/
def store (m : Mbufs) (p : Node) (offs : Nat) (src : List UInt8) : Mbufs :=
  { m with
    data := Function.update m.data p fun j =>
      if j < offs then m.data p j else (src[j - offs]?).getD (m.data p j) }

/-- `memcpy` of `n` bytes of the data of `p` from `offs` on. -/
def load (m : Mbufs) (p : Node) (offs n : Nat) : List UInt8 :=
  (List.range' offs n).map (m.data p)

/-- `p->next = v` -/
def link (m : Mbufs) (p : Node) (v : Option Node) : Mbufs :=
  { m with next := Function.update m.next p v }

/-- The loop of `mbuf_queue_add` over new buffers, with the bytes still to add. -/
def addLoop : Nat → Mbufs → MbufQueue → List UInt8 → Option (Mbufs × MbufQueue × List UInt8)
  | _, m, q, [] => some (m, q, [])
  | 0, _, _, _ :: _ => none
  | k + 1, m, q, src => do
    let (m, b) ← m.mbufTryAlloc
    match b with
    | none => some (m, q, src)
    | some b =>
      let m := (m.link q.last (some b)).link b none
      let n := min src.length MBUF_DATA_SIZE
      let m := m.store b 0 (src.take n)
      addLoop k m { q with last := b, len := (q.len + n) % 65536 } (src.drop n)

/-- `mbuf_queue_add`: the number of bytes added. -/
def mbufQueueAdd (m : Mbufs) (q : MbufQueue) (buf : List UInt8) :
    Option (Mbufs × MbufQueue × Nat) :=
  if buf.length = 0 then
    some (m, q, 0)
  else do
    let offs := (q.offs + q.len) % MBUF_DATA_SIZE
    -- space at the end of the last buffer
    let n := if offs ≠ 0 then min buf.length (MBUF_DATA_SIZE - offs) else 0
    let m := if offs ≠ 0 then m.store q.last offs (buf.take n) else m
    let (m, q, src) ← addLoop buf.length m { q with len := (q.len + n) % 65536 } (buf.drop n)
    some (m, q, buf.length - src.length)

/-- The first loop of `mbuf_queue_get`: on to the position of the first byte. -/
def skipLoop (m : Mbufs) : Nat → Option Node → Nat → Nat → Option (Option Node × Nat)
  | _, p, offs, 0 => some (p, offs)
  | 0, _, _, _ + 1 => none
  | k + 1, p, offs, pos => do
    let n := min pos (MBUF_DATA_SIZE - offs)
    if offs + n = MBUF_DATA_SIZE then
      let b ← p
      skipLoop m k (m.next b) 0 (pos - n)
    else
      skipLoop m k p (offs + n) (pos - n)

/-- The second loop of `mbuf_queue_get`: the bytes copied. -/
def copyLoop (m : Mbufs) : Nat → Option Node → Nat → Nat → Option (List UInt8)
  | _, _, _, 0 => some []
  | 0, _, _, _ + 1 => none
  | k + 1, p, offs, rem => do
    let n := min rem (MBUF_DATA_SIZE - offs)
    let b ← p
    let rest ← copyLoop m k (m.next b) 0 (rem - n)
    some (m.load b offs n ++ rest)

/-- `mbuf_queue_get`: the bytes copied; the function returns their number. -/
def mbufQueueGet (m : Mbufs) (i : Nat) (q : MbufQueue) (offs len : Nat) : Option (List UInt8) :=
  if offs > q.len then
    some []
  else
    let rem := min len (q.len - offs)
    if rem = 0 then
      some []
    else do
      let (p, o) ← skipLoop m offs (m.next (.first (.queue i))) q.offs offs
      copyLoop m rem p o rem

/-- The head buffer `p` of queue `i` goes back to the pool. -/
def dropHead (m : Mbufs) (i : Nat) (p : Option Node) : Option Mbufs := do
  let b ← p
  (m.link (.first (.queue i)) (m.next b)).mbufFree b

/-- The copy that `mbuf_queue_remove` makes and `mbuf_queue_trim` does not. -/
def fetch (copy : Bool) (m : Mbufs) (p : Option Node) (offs n : Nat) : Option (List UInt8) :=
  if copy then p.map (m.load · offs n) else some []

/-- The loop of `mbuf_queue_trim` and, with `copy`, of `mbuf_queue_remove`, on the head buffer `p`:
the number of bytes dropped and the bytes copied. -/
def removeLoop (copy : Bool) (i : Nat) :
    Nat → Mbufs → MbufQueue → Option Node → Nat → Option (Mbufs × MbufQueue × Nat × List UInt8)
  | _, m, q, _, 0 => some (m, q, 0, [])
  | 0, _, _, _, _ + 1 => none
  | k + 1, m, q, p, rem => do
    let n := min rem (MBUF_DATA_SIZE - q.offs)
    let out ← fetch copy m p q.offs n
    let len := (q.len + (65536 - n)) % 65536
    if len = 0 then
      -- remove all
      let m ← m.dropHead i p
      some (m, { last := .first (.queue i), offs := 0, len := 0 }, n, out)
    else if q.offs + n = MBUF_DATA_SIZE then
      let m ← m.dropHead i p
      let (m, q, cnt, rest) ←
        removeLoop copy i k m { q with offs := 0, len } (m.next (.first (.queue i))) (rem - n)
      some (m, q, n + cnt, out ++ rest)
    else
      let (m, q, cnt, rest) ←
        removeLoop copy i k m { q with offs := q.offs + n, len } p (rem - n)
      some (m, q, n + cnt, out ++ rest)

/-- The common body of `mbuf_queue_trim` and `mbuf_queue_remove`. -/
def removeBody (copy : Bool) (m : Mbufs) (i : Nat) (q : MbufQueue) (len : Nat) :
    Option (Mbufs × MbufQueue × Nat × List UInt8) :=
  let rem := min len q.len
  if rem = 0 then
    some (m, q, 0, [])
  else
    removeLoop copy i rem m q (m.next (.first (.queue i))) rem

/-- `mbuf_queue_trim`: the number of bytes dropped. -/
def mbufQueueTrim (m : Mbufs) (i : Nat) (q : MbufQueue) (len : Nat) :
    Option (Mbufs × MbufQueue × Nat) := do
  let (m, q, cnt, _) ← removeBody false m i q len
  some (m, q, cnt)

/-- `mbuf_queue_remove`: the number of bytes dropped, and the bytes copied. -/
def mbufQueueRemove (m : Mbufs) (i : Nat) (q : MbufQueue) (len : Nat) :
    Option (Mbufs × MbufQueue × Nat × List UInt8) :=
  removeBody true m i q len

/-- `mbuf_queue_free` -/
def mbufQueueFree (m : Mbufs) (i : Nat) : Option (Mbufs × MbufQueue) := do
  let p := m.next (.first (.queue i))
  let m ← m.lock
  let m ← releaseAll m.max m p
  let m := m.unlock
  some (m.link (.first (.queue i)) none, mbufQueueInit i)

end Mbufs

end Mbuf
