import ThinkOS.Tcp.Calls

/-!
# The mutex of the network

Which calls take and release the mutex in turn, on every path. `tcp_bind` keeps it when the port that
it is given is in use, and `tcp_listen` releases it twice when the block is neither closed nor a
listener; nothing else goes wrong.
-/

namespace Tcp.Sockets

open Lib Lib.Prog
open Net (Addr Port)

variable {lim : Limits} {addr : Addr} {port : Port} {tp : Option Nat}

/-! ## The calls that never slip -/

theorem tcpAlloc_moves : Moves false tcpAlloc fun _ => false := by
  refine Moves.bind Moves.lock fun _ => Moves.bind Moves.getState fun s => ?_
  split
  · exact Moves.leave rfl
  · exact Moves.setLeave rfl

theorem connectRound_moves (p : Nat) (u : Unit) : Moves true (connectRound p u) Sum.isLeft := by
  refine Moves.bind Moves.getState fun s => ?_
  split
  · exact Moves.setLeave rfl
  · exact Moves.leave rfl
  · exact Moves.leave rfl
  · exact Moves.leave rfl
  · exact Moves.leave rfl
  · exact Moves.leave rfl
  · exact Moves.pure rfl

theorem connectFrom_moves {p : Nat} {laddr : Addr} {mss : Nat} :
    Moves true (connectFrom lim p addr port laddr mss) fun _ => false := by
  refine Moves.bind Moves.getState fun s => ?_
  split
  · exact Moves.throw
  · split
    · exact Moves.setLeave rfl
    · exact Moves.bind Moves.setState fun _ => Moves.untilDone (connectRound_moves p) ()

theorem tcpConnect_moves : Moves false (tcpConnect lim tp addr port) fun _ => false := by
  cases tp with
  | none => exact Moves.pure rfl
  | some p =>
    refine Moves.bind Moves.getState fun s => ?_
    dsimp only
    split
    · exact Moves.pure rfl
    · refine Moves.bind Moves.lock fun _ => Moves.bind Moves.getState fun s => ?_
      split
      · split
        · exact Moves.leave rfl
        · exact connectFrom_moves
      · exact connectFrom_moves

theorem tcpAccept_moves {mux : Option Nat} : Moves false (tcpAccept mux) fun _ => false := by
  cases mux with
  | none => exact Moves.throw
  | some p =>
    refine Moves.bind Moves.getState fun s => ?_
    split
    · exact Moves.pure rfl
    · split
      · exact Moves.throw
      · refine Moves.bind Moves.setState fun _ => Moves.bind Moves.lock fun _ =>
          Moves.bind Moves.getState fun s => ?_
        split
        · exact Moves.leave rfl
        · exact Moves.setLeave rfl

theorem sendRound_moves (lim : Limits) (p : Nat) (buf : Nat → UInt8) (len : Int) (nowait : Bool)
    (r : Int × Nat) : Moves true (sendRound lim p buf len nowait r) Sum.isLeft := by
  refine Moves.bind Moves.getState fun s => ?_
  dsimp only
  split
  · split
    · exact Moves.bind Moves.setState fun _ => Moves.pure rfl
    · split
      · split
        · exact Moves.setLeave rfl
        · exact Moves.setLeave rfl
      · exact Moves.setLeave rfl
  · exact Moves.pure rfl
  · exact Moves.leave rfl

theorem tcpSend_moves {buf : Nat → UInt8} {len : Int} {nowait : Bool} :
    Moves false (tcpSend lim tp buf len nowait) fun _ => false := by
  cases tp with
  | none => exact Moves.pure rfl
  | some p =>
    exact Moves.bind Moves.lock fun _ =>
      Moves.untilDone (sendRound_moves lim p buf len nowait) (len, 0)

theorem recvRound_moves (lim : Limits) (p : Nat) (len : Int) (u : Unit) :
    Moves true (recvRound lim p len u) Sum.isLeft := by
  refine Moves.bind Moves.getState fun s => ?_
  dsimp only
  split
  · exact Moves.leave rfl
  · exact Moves.leave rfl
  · exact Moves.leave rfl
  · exact Moves.leave rfl
  · split
    · split
      · exact Moves.leave rfl
      · exact Moves.pure rfl
    · split
      · exact Moves.throw
      · split
        · exact Moves.setLeave rfl
        · exact Moves.setLeave rfl

theorem tcpRecv_moves {len : Int} : Moves false (tcpRecv lim tp len) fun _ => false := by
  cases tp with
  | none => exact Moves.pure rfl
  | some p =>
    unfold tcpRecv
    dsimp only
    split
    · exact Moves.pure rfl
    · exact Moves.bind Moves.lock fun _ => Moves.untilDone (recvRound_moves lim p len) ()

theorem closeFree_moves (lim : Limits) (s : Sockets) (p : Nat) :
    Moves true (closeFree lim s p) fun _ => false := by
  unfold closeFree
  split
  · exact Moves.throw
  · exact Moves.setLeave rfl

theorem tcpClose_moves : Moves false (tcpClose lim tp) fun _ => false := by
  cases tp with
  | none => exact Moves.pure rfl
  | some p =>
    refine Moves.bind Moves.lock fun _ => Moves.bind Moves.getState fun s => ?_
    dsimp only
    split
    case h_1 => exact closeFree_moves lim _ p
    case h_2 | h_3 | h_4 => exact closeFree_moves lim _ p
    case h_5 | h_6 | h_7 =>
      exact Moves.setLeave rfl
    case h_8 => exact Moves.leave rfl

/-! ## The two calls that do -/

/-- The state that the call finds when it gets the mutex for the first time. -/
def atLock (m : Monitor Sockets) : Option Sockets := m.turns.head?.map fun f => f m.state

theorem tcpBind_disciplined_iff {m : Monitor Sockets} (hm : Held false m) {p : Nat} :
    Disciplined (tcpBind (some p) addr port) m ↔
      ¬ (p ∈ m.state.lists .closed ∧ port ≠ 0 ∧ ∃ s ∈ atLock m, s.canBind addr port = false) := by
  obtain ⟨s, o, c, turns⟩ := m
  obtain ⟨rfl, rfl⟩ := hm
  unfold tcpBind Disciplined
  simp only [run_bind, run_getState]
  by_cases hp : p ∈ s.lists .closed
  · rw [if_neg (not_not.mpr hp), run_bind]
    cases turns with
    | nil => simp [atLock]
    | cons f turns =>
      simp only [run_lock_cons, run_bind, run_getState]
      by_cases h0 : port = 0
      · rw [if_pos h0]
        generalize ephemeral _ _ _ = found
        cases found with
        | none => simp [h0]
        | some r =>
          simp only [run_bind, run_setState, run_unlock, run_pure]
          simp [h0]
      · rw [if_neg h0]
        cases hb : (f s).canBind addr port with
        | false => simpa [hp, atLock, hb] using h0
        | true =>
          simp only [Bool.not_true, Bool.false_eq_true, if_false, run_bind, run_setState, run_unlock,
            run_pure]
          simp [atLock, hb]
  · simp [hp]

theorem tcpListen_disciplined_iff {m : Monitor Sockets} (hm : Held false m) {p : Nat} {backlog : Int} :
    Disciplined (tcpListen (some p) backlog) m ↔
      ¬ ∃ s ∈ atLock m, s.inUse p = false ∧ s.tState p ≠ .closed ∧ s.tState p ≠ .listen := by
  obtain ⟨s, o, c, turns⟩ := m
  obtain ⟨rfl, rfl⟩ := hm
  unfold tcpListen Disciplined
  simp only [run_bind]
  cases turns with
  | nil => simp [atLock]
  | cons f turns =>
    simp only [run_lock_cons, run_getState]
    cases hu : (f s).inUse p with
    | true =>
      simp only [if_true, run_bind, run_unlock, run_pure]
      simp [atLock, hu]
    | false =>
      simp only [Bool.false_eq_true, if_false]
      cases hs : (f s).tState p with
      | closed =>
        split
        · simp only [run_bind, run_unlock, run_pure]
          simp [atLock, hs]
        · simp only [run_bind, run_setState, run_unlock, run_pure]
          simp [atLock, hs]
      | listen =>
        simp only [run_bind, run_setState, run_unlock, run_pure]
        simp [atLock, hs]
      | _ =>
        -- the second release is one of a mutex that is free
        simp only [run_bind, run_unlock, run_pure]
        simp [atLock, hu, hs]

end Tcp.Sockets

namespace Tcp

open Lib Lib.Prog Sockets

/-! ## All calls -/

/-- A call that leaves the mutex in another way than it has found it: `tcp_bind` to a given port that
is in use, and `tcp_listen` on a block that is neither closed nor a listener. -/
def Call.Slips (m : Monitor Sockets) : Call → Prop
  | .bind (some p) addr port =>
    p ∈ m.state.lists .closed ∧ port ≠ 0 ∧ ∃ s ∈ atLock m, s.canBind addr port = false
  | .listen (some p) _ =>
    ∃ s ∈ atLock m, s.inUse p = false ∧ s.tState p ≠ .closed ∧ s.tState p ≠ .listen
  | _ => False

/-- **A call made without the mutex returns without it, and never releases one that it does not own,
exactly when it is not one of those that slip**, whatever the other threads do in the meantime. -/
theorem lock_discipline (lim : Limits) (c : Call) (m : Monitor Sockets) (hm : Held false m) :
    Disciplined (c.prog lim) m ↔ ¬ c.Slips m := by
  cases c with
  | alloc => exact iff_of_true (disciplined_done.mpr (tcpAlloc_moves.disciplined hm)) id
  | bind tp addr port =>
    refine disciplined_done.trans ?_
    cases tp with
    | none =>
      have h : Moves false (tcpBind none addr port) fun _ => false := Moves.pure rfl
      exact iff_of_true (h.disciplined hm) id
    | some p => exact tcpBind_disciplined_iff hm
  | listen mux backlog =>
    refine disciplined_done.trans ?_
    cases mux with
    | none =>
      have h : Moves false (tcpListen none backlog) fun _ => false := Moves.pure rfl
      exact iff_of_true (h.disciplined hm) id
    | some p => exact tcpListen_disciplined_iff hm
  | connect tp addr port =>
    exact iff_of_true (disciplined_done.mpr (tcpConnect_moves.disciplined hm)) id
  | accept mux => exact iff_of_true (disciplined_done.mpr (tcpAccept_moves.disciplined hm)) id
  | send tp buf len nowait =>
    exact iff_of_true (disciplined_done.mpr (tcpSend_moves.disciplined hm)) id
  | recv tp len =>
    exact iff_of_true (disciplined_done.mpr (tcpRecv_moves.disciplined hm)) id
  | close tp =>
    exact iff_of_true (disciplined_done.mpr (tcpClose_moves.disciplined hm)) id

/-- Before any socket is made, with no route, and the mutex free so many times. -/
def atStart (n : Nat) : Monitor Sockets where
  state := Sockets.init stdLimits 8 8 1024 fun _ => none
  owned := false
  broken := false
  turns := List.replicate n id

/-- A block on its way to a peer. -/
def oneCaller : Prog Sockets Unit := do
  let _ ← tcpAlloc
  let _ ← tcpBind (some 0) 0x0a000001 80
  let _ ← Sockets.tcpConnect stdLimits (some 0) 0x0a000002 80

/-- The mutex is free once more while the block waits. -/
def calling : Monitor Sockets := { (oneCaller (atStart 3)).2 with turns := [id] }

theorem lock_discipline_close : (calling.state.tState 0 = .synSent ∧ Held false calling) ∧
    Disciplined ((Call.close (some 0)).prog stdLimits) calling :=
  ⟨⟨rfl, rfl, rfl⟩, (lock_discipline stdLimits (.close (some 0)) calling ⟨rfl, rfl⟩).mpr id⟩

/-- Two blocks, the first one bound to port 80. -/
def twoBlocks : Prog Sockets Unit := do
  let _ ← tcpAlloc
  let _ ← tcpAlloc
  let _ ← tcpBind (some 0) 0x0a000001 80

/-- The second block cannot be bound to the port of the first: the call fails and keeps the mutex. A
listen on a block that waits for its connection releases the mutex twice. -/
theorem mutex_kept_or_released_twice : (∃ m : Monitor Sockets, Held false m ∧
      ∃ m', tcpBind (some 1) 0x0a000001 80 m = (.ok (-EADDRINUSE), m') ∧ m'.owned = true) ∧
    (∃ m : Monitor Sockets, Held false m ∧
      ∃ m', tcpListen (some 0) 1 m = (.ok 0, m') ∧ m'.broken = true) := by
  refine ⟨⟨(twoBlocks (atStart 4)).2, ⟨rfl, rfl⟩, _, rfl, rfl⟩, ?_⟩
  exact ⟨calling, ⟨rfl, rfl⟩, _, rfl, rfl⟩

end Tcp
