import ThinkOS.Lib.Pool

/-!
# The buffers

The model of `mbuf_alloc.c`, `mbuf_free.c` and the list functions of the network buffers: a pool of
`MBUF_POOL_SIZE` buffers whose free ones are on a linked list, guarded by a mutex. Queues thread
their buffers through the same link word, and the code uses the address of a `first` pointer as if
it were a buffer, so that the links of heads and of buffers are one table.

A result `none` stands for a call that does not return: it waits for the mutex for ever, or it
follows `NULL`.
-/

namespace Mbuf

/-- The lists of the memory: the free list, and the queues of the callers. -/
inductive Chain where
  | free
  | queue (q : Nat)
  deriving DecidableEq, Repr

/-- A `struct mbuf *`: a buffer of the pool, or the address of the `first` pointer of a list. -/
abbrev Node := Lib.Node Chain

abbrev Node.buf (i : Nat) : Node := .cell i

abbrev Node.first (c : Chain) : Node := .head c

/-- Bytes of data in a buffer, `__MBUF_SIZE - 4`. -/
def MBUF_DATA_SIZE : Nat := 124

/-- The pool, `struct mbuf_sys`. The fields `max` and `used` are `uint8_t`. -/
structure Mbufs where
  max : Nat
  used : Nat
  /-- the mutex is held -/
  locked : Bool
  /-- `free.last` -/
  last : Node
  /-- `next` of the buffers, and the `first` pointers of the lists -/
  next : Node → Option Node
  data : Node → Nat → UInt8

namespace Mbufs

/-- The loop of `mbuf_init`: `p` is the node whose link is written, `i` the buffer it gets. -/
def initLoop : Nat → Nat → Node → (Node → Option Node) → (Node → Option Node) × Node
  | 0, _, p, next => (Function.update next p none, p)
  | k + 1, i, p, next => initLoop k (i + 1) (.buf i) (Function.update next p (some (.buf i)))

/-- `mbuf_init` for a pool of `size` buffers, in cleared memory. -/
def mbufInit (size : Nat) : Mbufs :=
  let (next, last) := initLoop size 0 (.first .free) fun _ => none
  { max := size % 256, used := 0, locked := false, last, next, data := fun _ _ => 0 }

section
variable (m : Mbufs)

/-- `thinkos_mutex_lock`: a mutex that is held is not given back by anybody, since the calls of
this model run one after the other. -/
def lock : Option Mbufs :=
  if m.locked then none else some { m with locked := true }

def unlock : Mbufs :=
  { m with locked := false }

/-- The head `b` of the free list is taken off. -/
def take (b : Node) : Mbufs :=
  { m with
    next := Function.update m.next (.first .free) (m.next b)
    last := if m.next b = none then .first .free else m.last
    used := (m.used + 1) % 256 }

/-- The head of the free list under the mutex, `none` when there is no free buffer. -/
def allocFirst : Option (Mbufs × Option Node) := do
  let m ← m.lock
  match m.next (.first .free) with
  | some b => some ((m.take b).unlock, some b)
  | none => some (m.unlock, none)

/-- `mbuf_try_alloc`: `NULL` without a free buffer. -/
def mbufTryAlloc : Option (Mbufs × Option Node) := m.allocFirst

/-- `mbuf_alloc`: without a free buffer the caller waits on the condition, which gives the mutex
back meanwhile; it has no buffer yet. -/
def mbufAlloc : Option (Mbufs × Option Node) := m.allocFirst

/-- `__mbuf_release` -/
def mbufRelease (p : Node) : Mbufs :=
  { m with
    next := Function.update (Function.update m.next m.last (some p)) p none
    last := p
    used := (m.used + 255) % 256 }

/-- `mbuf_free` -/
def mbufFree (p : Node) : Option Mbufs := do
  let m ← m.lock
  some (m.mbufRelease p).unlock

end

/-- The loop of `mbuf_list_free` and `mbuf_queue_free`, for lists of at most as many buffers as the
first argument says. -/
def releaseAll : Nat → Mbufs → Option Node → Option Mbufs
  | _, m, none => some m
  | 0, _, some _ => none
  | k + 1, m, some p => releaseAll k (m.mbufRelease p) (m.next p)

/-- `mbuf_list_free` -/
def mbufListFree (m : Mbufs) (p : Option Node) : Option Mbufs := do
  let m ← m.lock
  let m ← releaseAll m.max m p
  some m.unlock

/-- The loop of `mbuf_list_alloc`: `p` goes on along the links, `q` is the node before it. -/
def listWalk (next : Node → Option Node) :
    Nat → Option Node → Option Node → Option (Option Node × Option Node)
  | 0, p, q => some (p, q)
  | _ + 1, none, _ => none
  | k + 1, some p, _ => listWalk next k (next p) (some p)

/-- The number of buffers for `len` bytes, in the `int` arithmetic of `mbuf_list_alloc`. -/
def listCount (len : Int) : Int :=
  (Int.bmod (len + (MBUF_DATA_SIZE - 1)) (2 ^ 32)).tdiv MBUF_DATA_SIZE

/-- `mbuf_list_alloc` behind the computation of the number of buffers. -/
def listTake (m : Mbufs) (n : Int) : Option (Mbufs × Option Node) := do
  let m ← m.lock
  if n > (m.max : Int) - m.used then
    -- the return in the source comes before `thinkos_mutex_unlock`
    some (m, none)
  else
    let first := m.next (.first .free)
    let (p, q) ← listWalk m.next n.toNat first first
    -- `q->next = NULL` follows `NULL` when the free list is empty and nothing was asked for
    let q ← q
    let next := Function.update m.next q none
    let m := { m with
      next := Function.update next (.first .free) p
      last := if p = none then .first .free else m.last
      used := ((m.used + n) % 256).toNat }
    some (m.unlock, first)

/-- `mbuf_list_alloc` -/
def mbufListAlloc (m : Mbufs) (len : Int) : Option (Mbufs × Option Node) :=
  m.listTake (listCount len)

end Mbufs

end Mbuf
