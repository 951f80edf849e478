import ThinkOS.Lib.Pool
import ThinkOS.Tcp.Stack

/-!
# Where the control blocks are

Every control block is on exactly one of the four lists, and a block that is not free is on the list of
its state. This is kept by all calls, segments and timeouts, as long as no listener is closed while
connections wait in its backlog: `tcp_pcb_free` then goes through the wrong part of the ring.
-/

namespace Tcp

open Function Lib Lib.Prog List Option Sockets
open Net (Addr Port)

variable {s' : Sockets} {l : PcbList} {b : Block} {seg : Seg} {tp : Pcb} {blk : Block}

/-- The list for the blocks in a state. -/
def TcpState.home : TcpState → PcbList
  | .closed => .closed
  | .listen => .listen
  | _ => .active

/-- Each block of the pool is on one list, once, and on that of its state when it is not free; and the
output ring was not left. -/
structure Filed (n : Nat) (s : Sockets) : Prop where
  shares : Shares n s.lists
  home : ∀ l p, p ∈ s.lists l → l = .free ∨ (s.tState p).home = l
  stray : s.out.stray = false

section
variable {n p q : Nat} {s : Sockets} {a b : PcbList}

theorem Filed.keep (h : Filed n s) (hl : s'.lists = s.lists)
    (hh : ∀ l q, q ∈ s.lists l → l = .free ∨ (s'.tState q).home = (s.tState q).home)
    (hr : s'.out.stray = s.out.stray) : Filed n s' := by
  refine ⟨hl ▸ h.shares, fun l q hq => ?_, hr.trans h.stray⟩
  rw [hl] at hq
  rcases hh l q hq with hfree | heq
  · exact .inl hfree
  · rw [heq]
    exact h.home l q hq

/-- One block goes to another list, and to a state for it. -/
theorem Filed.move (h : Filed n s) (hp : p ∈ s.lists a) (hab : a ≠ b)
    (hl : s'.lists = Lib.move s.lists a b p) (hb : b = .free ∨ (s'.tState p).home = b)
    (ho : ∀ q, q ≠ p → s'.tState q = s.tState q) (hr : s'.out.stray = s.out.stray) :
    Filed n s' := by
  have hs : Shares n s'.lists := hl ▸ h.shares.move hp hab
  refine ⟨hs, fun l q hq => ?_, hr.trans h.stray⟩
  have hpb : p ∈ s'.lists b := by
    rw [hl, move_to]
    exact mem_append_right _ (mem_singleton_self p)
  rcases eq_or_ne q p with rfl | hqp
  · rw [hs.unique hq hpb]
    exact hb
  · rw [ho q hqp]
    refine h.home l q ?_
    rw [hl] at hq
    rcases eq_or_ne l b with rfl | hlb
    · rw [move_to, mem_append, mem_singleton] at hq
      exact hq.resolve_right hqp
    · rcases eq_or_ne l a with rfl | hla
      · rw [move_from hab] at hq
        exact mem_of_mem_erase hq
      · rwa [move_of_ne hla hlb] at hq

/-- A block that leaves the list of its state for that of another one, or for the free list. When it is
not there, it was free all the time. -/
theorem Filed.refile (h : Filed n s) (hne : (s.tState p).home ≠ b)
    (hl : s'.lists = if p ∈ s.lists (s.tState p).home then Lib.move s.lists (s.tState p).home b p
      else s.lists) (hb : b = .free ∨ (s'.tState p).home = b)
    (ho : ∀ q, q ≠ p → s'.tState q = s.tState q) (hr : s'.out.stray = s.out.stray) :
    Filed n s' := by
  by_cases hp : p ∈ s.lists (s.tState p).home
  · rw [if_pos hp] at hl
    exact h.move hp hne hl hb ho hr
  · rw [if_neg hp] at hl
    refine h.keep hl (fun l q hq => ?_) hr
    rcases eq_or_ne q p with rfl | hqp
    · refine (h.home l q hq).imp_right fun hhome => ?_
      rw [hhome] at hp
      exact absurd hq hp
    · rw [ho q hqp]
      exact .inr rfl

/-- Two states with the same lists, and every block in the same state. -/
def Alike (s s' : Sockets) : Prop :=
  s'.lists = s.lists ∧ (∀ q, s'.tState q = s.tState q) ∧ s'.out.stray = s.out.stray

theorem Filed.alike (h : Filed n s) (ha : Alike s s') : Filed n s' :=
  h.keep ha.1 (fun _ q _ => .inr (by rw [ha.2.1 q])) ha.2.2

end

namespace Sockets

/-! ## What the parts do to lists and states -/

section
variable {lim : Limits} {s : Sockets} {p q : Nat} {a b : PcbList}

@[simp] theorem lists_setBlock : (s.setBlock p blk).lists = s.lists := rfl

@[simp] theorem lists_setTp : (s.setTp p tp).lists = s.lists := rfl

theorem block_setBlock : (s.setBlock p blk).block q = if q = p then blk else s.block q := by
  simp only [setBlock, update_apply]

theorem tState_setBlock :
    (s.setBlock p blk).tState q = if q = p then blk.tp.tState else s.tState q := by
  simp only [tState, block_setBlock]
  split <;> rfl

@[simp] theorem tState_setBlock_same (h : blk.tp.tState = s.tState p) :
    (s.setBlock p blk).tState q = s.tState q := by
  rw [tState_setBlock]
  split
  · rename_i hq
    rw [h, hq]
  · rfl

theorem tState_setTp :
    (s.setTp p tp).tState q = if q = p then tp.tState else s.tState q := tState_setBlock

@[simp] theorem lists_tcpOutputSched : (s.tcpOutputSched lim p).lists = s.lists := by
  unfold tcpOutputSched
  split <;> rfl

@[simp] theorem tState_tcpOutputSched : (s.tcpOutputSched lim p).tState q = s.tState q := by
  unfold tcpOutputSched
  split
  · rfl
  · exact tState_setBlock_same rfl

@[simp] theorem stray_tcpOutputSched : (s.tcpOutputSched lim p).out.stray = s.out.stray := by
  unfold tcpOutputSched
  split <;> rfl

/-- When the block stands in the output ring, `tcp_output_dequeue` does not leave the ring. -/
def inRing (lim : Limits) (s : Sockets) (p : Nat) : Bool :=
  !(s.block p).needOutput || (s.outMark lim p).all fun mark => mark < lim.activeMax

theorem tcpOutputDequeue_eq (lim : Limits) (s : Sockets) (p : Nat) :
    ∃ out, s.tcpOutputDequeue lim p = { s with out } ∧
      ((s.outMark lim p).all (fun mark => mark < lim.activeMax) = true → out.stray = s.out.stray) := by
  unfold tcpOutputDequeue
  cases s.outMark lim p with
  | none => exact ⟨s.out, rfl, fun _ => rfl⟩
  | some mark =>
    dsimp only
    split
    · exact ⟨_, rfl, fun _ => rfl⟩
    · rename_i hmark
      exact ⟨_, rfl, fun h => absurd (of_decide_eq_true h) hmark⟩

@[simp] theorem lists_condFree : (s.condFree p).lists = s.lists := by
  unfold condFree
  split <;> rfl

@[simp] theorem block_condFree : (s.condFree p).block = s.block := by
  unfold condFree
  split <;> rfl

@[simp] theorem tState_condFree : (s.condFree p).tState q = s.tState q := by
  rw [tState, block_condFree, tState]

@[simp] theorem stray_pcbMove : (s.pcbMove p a b).1.out.stray = s.out.stray := by
  unfold pcbMove
  split <;> rfl

@[simp] theorem stray_condFree : (s.condFree p).out.stray = s.out.stray := by
  unfold condFree
  split <;> rfl

@[simp] theorem tState_pcbMove : (s.pcbMove p a b).1.tState q = s.tState q := by
  unfold pcbMove
  split <;> rfl

theorem lists_pcbMove (hab : a ≠ b) : (s.pcbMove p a b).1.lists =
    if p ∈ s.lists a then Lib.move s.lists a b p else s.lists := by
  unfold pcbMove
  split
  · simp only [pcbInsert, pcbRemove, Lib.move, update_of_ne hab.symm]
  · rfl

/-- A block taken off the output ring keeps everything but the flag for it. -/
theorem unqueue_eq (lim : Limits) (s : Sockets) (p : Nat) : (s.unqueue lim p).lists = s.lists ∧
    (∀ q, ∃ f, (s.unqueue lim p).block q = { s.block q with needOutput := f }) ∧
      (s.inRing lim p = true → (s.unqueue lim p).out.stray = s.out.stray) := by
  unfold unqueue
  split
  · rename_i hneed
    obtain ⟨out, hout, hstray⟩ :=
      tcpOutputDequeue_eq lim (s.setBlock p { s.block p with needOutput := false }) p
    rw [hout, inRing, hneed]
    refine ⟨rfl, fun q => ?_, hstray⟩
    rcases eq_or_ne q p with rfl | hq
    · exact ⟨false, by simp only [block_setBlock, if_pos]⟩
    · exact ⟨(s.block q).needOutput, by simp only [block_setBlock, if_neg hq]⟩
  · exact ⟨rfl, fun q => ⟨(s.block q).needOutput, rfl⟩, fun _ => rfl⟩

theorem freeBacklog_empty {pcbFree : Sockets → Nat → Option (Sockets × Int)} {tp : Nat} (n : Nat)
    (h : (s.block p).head = (s.block p).tail) :
    freeBacklog pcbFree (n + 1) s p tp = some (s, tp) := by
  rw [freeBacklog, if_pos h]

/-- `tcp_pcb_free` puts the block on the free list when it is on the list of its state, and does nothing
else to lists and states. For a listener this takes a backlog in which nobody waits. -/
theorem release_eq (lim : Limits) (h : s.tState p = .listen → (s.block p).head = (s.block p).tail) :
    ∃ s' r, s.release lim p = some (s', r) ∧ (∀ q, s'.tState q = s.tState q) ∧
      (s'.lists = if p ∈ s.lists (s.tState p).home then Lib.move s.lists (s.tState p).home .free p
        else s.lists) ∧ (s.inRing lim p = true → s'.out.stray = s.out.stray) := by
  obtain ⟨hlists, hblock, hstray⟩ := unqueue_eq lim s p
  obtain ⟨t, ht⟩ : ∃ t, t = s.unqueue lim p := ⟨_, rfl⟩
  rw [← ht] at hlists hblock hstray
  have hstate : ∀ q, t.tState q = s.tState q := by
    intro q
    obtain ⟨f, hf⟩ := hblock q
    rw [tState, hf, tState]
  unfold release tcpPcbFree
  simp only [← ht, hstate p]
  cases hs : s.tState p with
  | listen =>
    have hempty : (t.block p).head = (t.block p).tail := by
      obtain ⟨f, hf⟩ := hblock p
      rw [hf]
      exact h hs
    rw [freeBacklog_empty 255 hempty, map_some]
    obtain ⟨u, hu⟩ : ∃ u, u = ((if (t.block p).semValid then { t with sems := t.sems + 1 } else t).setBlock
        p { t.block p with semValid := false }) := ⟨_, rfl⟩
    have hul : u.lists = s.lists := by
      rw [hu, lists_setBlock]
      split <;> exact hlists
    have hus : ∀ q, u.tState q = s.tState q := by
      intro q
      rw [hu, tState_setBlock, ← hstate]
      split
      · rename_i hq
        rw [hq, tState]
      · split <;> rfl
    refine ⟨(u.pcbMove p .listen .free).1, (u.pcbMove p .listen .free).2, by rw [hu], fun q => ?_, ?_, ?_⟩
    · rw [tState_pcbMove, hus]
    · rw [lists_pcbMove (by decide), hul]
      rfl
    · rw [stray_pcbMove, hu]
      split <;> exact hstray
  | closed =>
    refine ⟨(t.pcbMove p .closed .free).1, (t.pcbMove p .closed .free).2, rfl, fun q => ?_, ?_, ?_⟩
    · rw [tState_pcbMove, hstate]
    · rw [lists_pcbMove (by decide), hlists]
      rfl
    · rw [stray_pcbMove]
      exact hstray
  | _ =>
    obtain ⟨u, hu⟩ : ∃ u, u = (t.setTp p (t.block p).tp.freeQueues).condFree p := ⟨_, rfl⟩
    refine ⟨(u.pcbMove p .active .free).1, (u.pcbMove p .active .free).2, by rw [hu], fun q => ?_, ?_, ?_⟩
    · rw [tState_pcbMove, hu, tState_condFree, ← hstate]
      exact tState_setBlock_same rfl
    · rw [lists_pcbMove (by decide), hu, lists_condFree, lists_setTp, hlists]
      rfl
    · rw [stray_pcbMove, hu, stray_condFree]
      exact hstray

end

end Sockets

/-! ## The calls -/

section
variable {lim : Limits} {n p : Nat} {s : Sockets}

theorem Filed.release (h : Filed n s) (hring : s.inRing lim p = true)
    (hl : s.tState p = .listen → (s.block p).head = (s.block p).tail) :
    ∃ r, s.release lim p = some r ∧ Filed n r.1 := by
  obtain ⟨s', r, hr, hstate, hlists, hstray⟩ := release_eq lim hl
  refine ⟨(s', r), hr, h.refile (b := .free) ?_ hlists (.inl rfl) (fun q _ => hstate q)
    (hstray hring)⟩
  cases s.tState p <;> decide

theorem Filed.released (h : Filed n s) {r : Sockets × Int} (hring : s.inRing lim p = true)
    (hs : s.tState p ≠ .listen) (hr : s.release lim p = some r) : Filed n r.1 := by
  obtain ⟨r', hr', hfiled⟩ := h.release hring fun hs' => absurd hs' hs
  rwa [some.inj (hr.symm.trans hr')]

/-- A block goes from the list of its state to that of its next one. -/
theorem Filed.rehome {t : Sockets} {a b : PcbList} (h : Filed n s) (ha : Alike s t)
    (hs : (s.tState p).home = a) (hab : a ≠ b) (hb : blk.tp.tState.home = b) :
    Filed n ((t.setBlock p blk).pcbMove p a b).1 := by
  refine h.refile (b := b) (p := p) (hs.symm ▸ hab) ?_ (.inr ?_) (fun q hq => ?_) ?_
  · rw [lists_pcbMove hab, lists_setBlock, ha.1, hs]
  · rw [tState_pcbMove, tState_setBlock, if_pos rfl, hb]
  · rw [tState_pcbMove, tState_setBlock, if_neg hq, ha.2.1]
  · exact stray_pcbMove.trans ha.2.2

theorem Filed.setTp (h : Filed n s) (hs : tp.tState.home = (s.tState p).home) :
    Filed n (s.setTp p tp) := by
  refine h.keep rfl (fun l q _ => .inr ?_) rfl
  rw [tState_setTp]
  split
  · rename_i hq
    rw [hq, hs]
  · rfl

theorem Filed.sched (h : Filed n s) : Filed n (s.tcpOutputSched lim p) :=
  h.alike ⟨lists_tcpOutputSched, fun _ => tState_tcpOutputSched, stray_tcpOutputSched⟩

theorem tcpPcbNew_eq (hl : l ≠ .free) (h : s.tcpPcbNew l = some (s', p)) :
    p ∈ s.lists .free ∧ s'.lists = Lib.move s.lists .free l p ∧
      s'.block = update s.block p Block.zero ∧ s'.out = s.out := by
  unfold tcpPcbNew at h
  cases hf : s.lists .free with
  | nil =>
    rw [hf] at h
    cases h
  | cons p rest =>
    rw [hf] at h
    cases h
    refine ⟨mem_cons_self, ?_, rfl, rfl⟩
    simp only [lists_setBlock, pcbInsert, Lib.move, hf, erase_cons_head, update_of_ne hl]

theorem Filed.tcpAlloc (h : Filed n s) : Filed n (tcpAlloc ⟨s, false, false, [id]⟩).2.state := by
  unfold Sockets.tcpAlloc
  simp only [run_bind, run_lock_cons, run_getState, id]
  cases hnew : s.tcpPcbNew .closed with
  | none => exact h
  | some r =>
    obtain ⟨hp, hlists, hblock, hout⟩ := tcpPcbNew_eq (by decide) hnew
    simp only [run_bind, run_setState, run_unlock, run_pure]
    refine h.move hp (by decide) hlists (.inr ?_) (fun q hq => ?_) (by rw [hout])
    · rw [tState, hblock, update_self]
      rfl
    · rw [tState, hblock, update_of_ne hq, tState]

end

/-! ### Calls that leave the lists and states alone -/

section
variable {lim : Limits} {n p : Nat} {s t : Sockets}

theorem Alike.setBlock (h : Alike s t) (hb : b.tp.tState = t.tState p) : Alike s (t.setBlock p b) :=
  ⟨h.1, fun q => (tState_setBlock_same hb).trans (h.2.1 q), h.2.2⟩

theorem Alike.setTp (h : Alike s t) (hb : tp.tState = t.tState p) : Alike s (t.setTp p tp) :=
  h.setBlock hb

theorem Alike.sched (h : Alike s t) : Alike s (t.tcpOutputSched lim p) :=
  ⟨lists_tcpOutputSched.trans h.1, fun q => tState_tcpOutputSched.trans (h.2.1 q),
    stray_tcpOutputSched.trans h.2.2⟩

theorem tcpBind_keeps {tp : Option Nat} {addr : Addr} {port : Port} :
    Keeps (Alike s) (tcpBind tp addr port) := by
  cases tp with
  | none => exact Keeps.pure
  | some p =>
    refine Keeps.getState fun t ht => ?_
    split
    · exact Keeps.pure
    · refine Keeps.bind Keeps.lock fun _ => Keeps.getState fun t ht => ?_
      split
      · split
        · exact Keeps.throw
        · exact Keeps.setLeave (Alike.setBlock (t := { t with portSeq := _ }) ht rfl)
      · split
        · exact Keeps.pure
        · exact Keeps.setLeave (ht.setBlock rfl)

theorem tcpAccept_keeps {mux : Option Nat} : Keeps (Alike s) (tcpAccept mux) := by
  cases mux with
  | none => exact Keeps.throw
  | some p =>
    refine Keeps.getState fun t ht => ?_
    split
    · exact Keeps.pure
    · split
      · exact Keeps.throw
      · refine Keeps.bind (Keeps.setState (ht.setBlock rfl)) fun _ => Keeps.bind Keeps.lock fun _ =>
          Keeps.getState fun t ht => ?_
        split
        · exact Keeps.leave
        · exact Keeps.setLeave (ht.setBlock rfl)

theorem connectRound_keeps (p : Nat) (u : Unit) : Keeps (Alike s) (connectRound p u) := by
  refine Keeps.getState fun t ht => ?_
  split
  · refine Keeps.setLeave ⟨?_, fun q => ?_, stray_condFree.trans ht.2.2⟩
    · rw [lists_setTp, lists_condFree]
      exact ht.1
    · rw [tState_setTp, tState_condFree, ← ht.2.1 q]
      split
      · rename_i hq
        rw [hq]
        rfl
      · rfl
  · exact Keeps.leave
  · exact Keeps.leave
  · exact Keeps.leave
  · exact Keeps.leave
  · exact Keeps.leave
  · exact Keeps.pure

theorem Alike.sendFill (h : Alike s t) (lim : Limits) (p : Nat) (buf : Nat → UInt8) (fuel : Nat)
    (rem : Int) (src : Nat) : Alike s (sendFill lim p buf fuel t rem src).1 := by
  induction fuel generalizing t rem src with
  | zero => exact h
  | succ fuel ih =>
    unfold Sockets.sendFill
    dsimp only
    obtain ⟨acknow, data, hturn, -⟩ := sendTurn_cases lim.toConfig (t.block p).tp
      ((List.range rem.toNat).map fun i => buf (src + i)) t.room
    have hfill : ∀ room, Alike s (({ t with room }).setTp p (sendTurn lim.toConfig (t.block p).tp
        ((List.range rem.toNat).map fun i => buf (src + i)) t.room).1) :=
      fun room => Alike.setTp (t := { t with room }) h (by rw [hturn]; rfl)
    split_ifs
    · exact h
    · exact (hfill _).sched
    · exact hfill _
    · exact ih (hfill _) _ _

theorem tcpSend_keeps {tp : Option Nat} {buf : Nat → UInt8} {len : Int} {nowait : Bool} :
    Keeps (Alike s) (Sockets.tcpSend lim tp buf len nowait) := by
  cases tp with
  | none => exact Keeps.pure
  | some p =>
    refine Keeps.bind Keeps.lock fun _ => Keeps.untilDone (fun r => Keeps.getState fun t ht => ?_) _
    dsimp only
    split
    · have hfill := ht.sendFill lim p buf (r.1.toNat + 1) r.1 r.2
      split
      · exact Keeps.bind (Keeps.setState hfill) fun _ => Keeps.pure
      · split
        · split
          · exact Keeps.setLeave hfill.sched
          · exact Keeps.setLeave (hfill.setTp rfl)
        · exact Keeps.setLeave hfill
    · exact Keeps.pure
    · exact Keeps.leave

theorem tcpRecv_keeps {tp : Option Nat} {len : Int} :
    Keeps (Alike s) (Sockets.tcpRecv lim tp len) := by
  cases tp with
  | none => exact Keeps.pure
  | some p =>
    unfold Sockets.tcpRecv
    dsimp only
    split
    · exact Keeps.pure
    · refine Keeps.bind Keeps.lock fun _ => Keeps.untilDone (fun r => Keeps.getState fun t ht => ?_) _
      have htake := ht.setTp (p := p) (tcpRecv_tState (t.block p).tp len.toNat)
      dsimp only
      split
      · exact Keeps.leave
      · exact Keeps.leave
      · exact Keeps.leave
      · exact Keeps.leave
      · split
        · split
          · exact Keeps.leave
          · exact Keeps.pure
        · split
          · exact Keeps.throw
          · split
            · exact Keeps.setLeave htake
            · exact Keeps.setLeave htake.sched

/-! ### Calls that move a block -/

/-- A listener finds its own address in use. -/
theorem inUse_of_mem (hp : p ∈ s.lists .listen) : s.inUse p = true := by
  have hmem : (s.block p).inp ∈ (s.lists .listen).map fun p => (s.block p).inp :=
    mem_map_of_mem hp
  obtain ⟨pcb, hpcb, hfound⟩ := Net.pcbWildlookup_any
    (q := ⟨Net.INADDR_ANY, 0, (s.block p).inp.laddr, (s.block p).inp.lport⟩) rfl hmem
    ⟨rfl, .inr (.inr rfl), .inr (.inl rfl)⟩
  obtain ⟨q, hq, rfl⟩ := mem_map.mp hpcb
  rw [inUse, Sockets.pcbWildlookup, hfound, bind_some, find?_isSome]
  exact ⟨q, hq, decide_eq_true rfl⟩

section
variable (h : Filed n s)
include h

theorem Filed.tcpListen (backlog : Int) (hl : l ≠ .free) (hp : p ∈ s.lists l) :
    Filed n (tcpListen (some p) backlog ⟨s, false, false, [id]⟩).2.state := by
  unfold Sockets.tcpListen
  simp only [run_bind, run_lock_cons, run_getState, id]
  cases hu : s.inUse p with
  | true => exact h
  | false =>
    have hhome : (s.tState p).home = l := (h.home l p hp).resolve_left hl
    simp only [Bool.false_eq_true, if_false]
    cases hs : s.tState p with
    | closed =>
      split
      · exact h
      · simp only [run_bind, run_setState, run_unlock, run_pure]
        exact h.rehome ⟨rfl, fun _ => rfl, rfl⟩ (by rw [hs]; rfl) (by decide) rfl
    | listen =>
      rw [hs] at hhome
      rw [← hhome] at hp
      exact absurd (inUse_of_mem hp) (by rw [hu]; decide)
    | _ => exact h

theorem Filed.connectFrom (hp : p ∈ s.lists .closed) (addr : Addr) (port : Port) (laddr : Addr)
    (mss : Nat) : Filed n (connectFrom lim p addr port laddr mss ⟨s, true, false, []⟩).2.state := by
  have hs : (s.tState p).home = .closed := (h.home .closed p hp).resolve_left (by decide)
  unfold Sockets.connectFrom
  simp only [run_bind, run_getState]
  generalize ephemeral _ _ _ = found
  cases found with
  | none => exact h
  | some r =>
    split
    · simp only [run_bind, run_setState, run_unlock, run_pure]
      refine h.alike ⟨rfl, fun q => ?_, rfl⟩
      exact tState_setBlock_same rfl
    · obtain ⟨t, ht⟩ : ∃ t, t = (s.connecting p ⟨addr, port, laddr, r.1⟩ (min mss lim.maxmss)
        r.2).tcpOutputSched lim p := ⟨_, rfl⟩
      have hmoved : Filed n t := by
        rw [ht]
        exact Filed.sched (h.rehome ⟨rfl, fun _ => rfl, rfl⟩ hs (by decide) rfl)
      simp only [run_bind, run_setState, ← ht]
      -- what it does while it waits leaves lists and states alone
      refine hmoved.alike (Keeps.state (Keeps.untilDone (connectRound_keeps p) ()) ⟨?_, ?_⟩)
      · exact ⟨rfl, fun _ => rfl, rfl⟩
      · exact fun f hf => absurd hf not_mem_nil

theorem Filed.tcpConnect (tp : Option Nat) (addr : Addr) (port : Port) :
    Filed n (Sockets.tcpConnect lim tp addr port ⟨s, false, false, [id]⟩).2.state := by
  cases tp with
  | none => exact h
  | some p =>
    unfold Sockets.tcpConnect
    simp only [run_bind, run_getState]
    by_cases hp : p ∈ s.lists .closed
    · rw [if_neg (not_not.mpr hp)]
      simp only [run_bind, run_lock_cons, run_getState, id]
      cases s.routeLookup addr with
      | none =>
        split
        · exact h
        · exact h.connectFrom hp addr port _ _
      | some rt => exact h.connectFrom hp addr port _ _
    · rw [if_pos hp]
      exact h

theorem Filed.closeFree (hring : s.inRing lim p = true)
    (hl : s.tState p = .listen → (s.block p).head = (s.block p).tail) (t : Sockets) :
    Filed n (closeFree lim s p ⟨t, true, false, []⟩).2.state := by
  obtain ⟨r, hr, hs⟩ := h.release hring hl
  unfold Sockets.closeFree
  rw [hr]
  exact hs

theorem Filed.tcpClose (hring : Tcp.tcpClose (s.block p).tp = none → s.inRing lim p = true)
    (hl : s.tState p = .listen → (s.block p).head = (s.block p).tail) :
    Filed n (Sockets.tcpClose lim (some p) ⟨s, false, false, [id]⟩).2.state := by
  unfold Sockets.tcpClose
  simp only [run_bind, run_lock_cons, run_getState, id]
  have hfree : Tcp.tcpClose (s.block p).tp = none → s.tState p ≠ .listen →
      ∀ t, Filed n (Sockets.closeFree lim ((s.condFree p).setBlock p { s.block p with cond := false }) p
        ⟨t, true, false, []⟩).2.state := by
    intro hnone hs t
    have ha : Alike s ((s.condFree p).setBlock p { s.block p with cond := false }) :=
      Alike.setBlock ⟨lists_condFree, fun _ => tState_condFree, stray_condFree⟩ tState_condFree.symm
    refine (h.alike ha).closeFree ?_ (fun hs' => absurd ((ha.2.1 p).symm.trans hs') hs) t
    rw [inRing, block_setBlock, if_pos rfl, condFree]
    split <;> exact hring hnone
  cases hs : (s.block p).tp.tState with
  | listen => exact h.closeFree (hring (by rw [Tcp.tcpClose, hs])) hl s
  | timeWait | closed | synSent =>
    exact hfree (by rw [Tcp.tcpClose, hs]) (fun hs' => by cases hs.symm.trans hs') s
  | synRcvd | established | closeWait =>
    refine (h.setTp ?_).sched
    rw [tState, hs, Tcp.tcpClose, hs]
    rfl
  | _ => exact h

/-! ## Segments -/

omit h in
theorem tcpPassiveOpen_tState {mss : Nat} {iss : BitVec 32} :
    (tcpPassiveOpen mss iss seg).tState = .synRcvd := by
  rw [tcpPassiveOpen, tcpParseOptions]
  split <;> rfl

omit h in
theorem tState_opened {i : Nat} {q : Net.Pcb} :
    (s.opened lim p q seg).tState i = if i = p then .synRcvd else s.tState i := by
  rw [opened, tState_setBlock, tcpPassiveOpen_tState]
  rfl

theorem Filed.passiveOpen (mux : Nat) (q : Net.Pcb) (seg : Seg) :
    Filed n (s.passiveOpen lim mux q seg) := by
  unfold Sockets.passiveOpen
  dsimp only
  generalize (if (s.block mux).head + 1 = (s.block mux).max then 0 else (s.block mux).head + 1) = newHead
  split
  · exact h
  · cases hnew : ({ s with conds := s.conds - 1 } : Sockets).tcpPcbNew .active with
    | none => exact h.alike ⟨rfl, fun _ => rfl, rfl⟩
    | some r =>
      obtain ⟨t, p⟩ := r
      obtain ⟨hp, hlists, hblock, hout⟩ := tcpPcbNew_eq (by decide) hnew
      have hstate : ∀ i, (((t.opened lim p q seg).waitFor mux p newHead).tcpOutputSched lim p).tState i =
          (t.opened lim p q seg).tState i := by
        intro i
        rw [tState_tcpOutputSched]
        exact tState_setBlock_same rfl
      refine h.move hp (by decide) (lists_tcpOutputSched.trans hlists) (.inr ?_) (fun i hi => ?_)
        (stray_tcpOutputSched.trans (congrArg OutRing.stray hout))
      · rw [hstate, tState_opened, if_pos rfl]
        rfl
      · rw [hstate, tState_opened, if_neg hi, tState, hblock, update_of_ne hi]
        rfl

omit h in
theorem TcpState.home_of_mem_next {a b : TcpState} (h : b ∈ a.next) : b.home = .active := by
  cases a <;> cases b <;> first | rfl | exact absurd h (by decide)

omit h in
/-- A segment leaves a connection active, or closes it. -/
theorem tcpInput_home {cfg : Config} {tp' : Pcb} {room : Nat}
    (h : tcpInput true cfg tp seg room = some tp') (hs : tp.tState.home = .active) :
    tp'.tState.home = .active ∨ tp'.tState = .closed := by
  by_cases hsyn : tp.tState = .synSent
  · rcases tcpInput_synSent hsyn h with ⟨hc, -⟩ | ⟨-, -, -, rfl⟩
    · exact .inr hc
    · have hstep := step6_tState (tp.synced seg) { seq := seg.seq + 1, data := seg.data, flags := seg.flags }
        seg.win room
      rcases hstep with hs | ⟨-, hs⟩ | ⟨-, hs⟩ | ⟨-, hs⟩ <;> exact .inl (by rw [hs]; rfl)
  · rcases (tcpInput_outcome hsyn h).moves with heq | hc | hnext
    · rw [heq]
      exact .inl hs
    · exact .inr hc
    · exact .inl (TcpState.home_of_mem_next hnext)

theorem Filed.tcpSegment {q : Net.Pcb} {output : Bool}
    (hring : ∀ p, s.pcbLookup q .active = some p →
      tcpInput true lim.toConfig (s.block p).tp seg s.room = none → s.inRing lim p = true)
    (hseg : s.tcpSegment lim q seg output = some s') : Filed n s' := by
  unfold Sockets.tcpSegment at hseg
  cases hp : s.pcbLookup q .active with
  | none =>
    simp only [hp] at hseg
    cases hmux : s.pcbWildlookup q .listen with
    | none =>
      simp only [hmux] at hseg
      cases hseg
      exact h
    | some mux =>
      simp only [hmux] at hseg
      split_ifs at hseg
      · cases hseg
        exact h
      · cases hseg
        exact h.passiveOpen mux q seg
  | some p =>
    simp only [hp] at hseg
    have hhome : (s.tState p).home = .active :=
      (h.home .active p (mem_of_find?_eq_some hp)).resolve_left (by decide)
    cases hin : tcpInput true lim.toConfig (s.block p).tp seg s.room with
    | none =>
      simp only [hin] at hseg
      obtain ⟨r, hr, rfl⟩ := map_eq_some_iff.mp hseg
      refine h.released (hring p hp hin) (fun hs => ?_) hr
      rw [hs] at hhome
      cases hhome
    | some tp =>
      simp only [hin] at hseg
      have hset : Filed n (if tp.tState = .closed then ((s.setTp p tp).pcbMove p .active .closed).1
          else s.setTp p tp) := by
        split
        · rename_i hc
          exact h.rehome ⟨rfl, fun _ => rfl, rfl⟩ hhome (by decide) (by rw [hc]; rfl)
        · rename_i hc
          exact h.setTp (((tcpInput_home hin hhome).resolve_right hc).trans hhome.symm)
      cases hseg
      split
      · exact hset.sched
      · exact hset

/-! ## Timers -/

theorem Filed.giveUp (hs : (s.tState p).home = .active) : Filed n (s.giveUp lim p) :=
  (h.rehome (b := .closed) ⟨rfl, fun _ => rfl, rfl⟩ hs (by decide) rfl).sched

theorem Filed.idleFire {lost : Bool} (hring : s.tState p = .timeWait → s.inRing lim p = true)
    (hfire : s.idleFire lim p lost = some s') : Filed n s' := by
  unfold Sockets.idleFire at hfire
  cases hs : s.tState p with
  | synSent | synRcvd =>
    simp only [hs] at hfire
    cases hfire
    exact h.giveUp (by rw [hs]; rfl)
  | established =>
    simp only [hs] at hfire
    split at hfire
    · cases hfire
      exact h.giveUp (by rw [hs]; rfl)
    · cases hfire
      exact h
  | finWait2 =>
    simp only [hs] at hfire
    cases hfire
    exact h.setTp (by rw [hs]; rfl)
  | timeWait =>
    simp only [hs] at hfire
    obtain ⟨r, hr, rfl⟩ := map_eq_some_iff.mp hfire
    exact h.released (hring hs) (fun hs' => nomatch hs.symm.trans hs') hr
  | _ =>
    simp only [hs] at hfire
    cases hfire
    exact h

omit h in
theorem Alike.timerLoop {change : Pcb → Option Pcb}
    (hchange : ∀ tp tp', change tp = some tp' → tp'.tState = tp.tState) (ps : List Nat)
    (h : Alike s t) : Alike s (timerLoop lim change ps t) := by
  induction ps generalizing t with
  | nil => exact h
  | cons p ps ih =>
    unfold Sockets.timerLoop
    cases hc : change (t.block p).tp with
    | none => exact ih h
    | some tp => exact ih (h.setTp (hchange _ _ hc)).sched

theorem Filed.outputLoop {tail : BitVec 16} {answers : List (List Bool × Bool)} {k : Nat}
    (hloop : outputLoop lim k s tail answers = some s') : Filed n s' := by
  induction k generalizing s tail answers with
  | zero =>
    cases hloop
    exact h.alike ⟨rfl, fun _ => rfl, rfl⟩
  | succ k ih =>
    unfold Sockets.outputLoop at hloop
    dsimp only at hloop
    split at hloop
    · exact ih h hloop
    · rename_i p _
      split at hloop
      · exact ih h hloop
      · split at hloop
        · cases hloop
          exact h.alike ⟨rfl, fun _ => rfl, rfl⟩
        · rename_i net again answers
          have hstate := tcpOutput_tState lim.toConfig (s.block p).tp net
          split at hloop
          · cases hloop
            refine h.alike (Alike.setTp ⟨rfl, fun _ => rfl, rfl⟩ hstate)
          · have hdone : Filed n (s.outputDone (tail.toNat % lim.activeMax) p
                (tcpOutput lim.toConfig (s.block p).tp net)) :=
              h.alike (Alike.setBlock ⟨rfl, fun _ => rfl, rfl⟩ hstate)
            split at hloop
            · rename_i hwait
              obtain ⟨r, hr, hrest⟩ := bind_eq_some_iff.mp hloop
              refine ih (hdone.released ?_ (fun hs => ?_) hr) hrest
              · rw [inRing, outputDone, block_setBlock, if_pos rfl]
                rfl
              · rw [outputDone, tState_setBlock, if_pos rfl, hwait.2] at hs
                cases hs
            · exact ih hdone hloop

end

/-! ## Whole runs -/

theorem runAlone_some {α : Type} {x : Prog Sockets α} {owned : Bool}
    (h : runAlone (done x) owned s = some s') :
    s' = (x ⟨s, owned, false, if owned then [] else [id]⟩).2.state := by
  unfold runAlone done at h
  rw [run_bind] at h
  generalize x ⟨s, owned, false, if owned then [] else [id]⟩ = r at h ⊢
  obtain ⟨r, m⟩ := r
  cases r with
  | ok a => exact (some.inj h).symm
  | error e =>
    cases e with
    | waits => exact (some.inj h).symm
    | spins => cases h
    | faults => cases h

end

/-- `tcp_listen` is given a block in use, and no listener is closed while a connection waits in its
backlog. -/
def StackEvent.careful (s : Sockets) : StackEvent → Bool
  | .call (.listen (some p) _) =>
    decide (p ∈ s.lists .closed ∨ p ∈ s.lists .listen ∨ p ∈ s.lists .active)
  | .call (.close (some p)) => decide (s.tState p = .listen → (s.block p).head = (s.block p).tail)
  | _ => true

/-- The block that an event frees while it may wait for output. -/
def StackEvent.frees (lim : Limits) (s : Sockets) : StackEvent → Option Nat
  | .call (.close (some p)) => if Tcp.tcpClose (s.block p).tp = none then some p else none
  | .segment q seg _ => (s.pcbLookup q .active).filter fun p =>
      (tcpInput true lim.toConfig (s.block p).tp seg s.room).isNone
  | .idle p _ => if s.tState p = .timeWait then some p else none
  | _ => none

/-- What keeps the lists in order: the event is careful, and frees no block that stands behind the end
of the output ring. -/
def StackEvent.Proper (lim : Limits) (s : Sockets) (ev : StackEvent) : Prop :=
  ev.careful s = true ∧ (ev.frees lim s).all (s.inRing lim) = true

instance (lim : Limits) (s : Sockets) (ev : StackEvent) : Decidable (ev.Proper lim s) :=
  inferInstanceAs (Decidable (_ ∧ _))

section
variable {lim : Limits} {n p : Nat} {s : Sockets}

theorem Filed.call (h : Filed n s) {c : Call} (hc : StackEvent.Proper lim s (.call c))
    (hstep : s.step lim (.call c) = some s') : Filed n s' := by
  have hstart : Within (Alike s) ⟨s, false, false, [id]⟩ := by
    refine ⟨⟨rfl, fun _ => rfl, rfl⟩, fun f hf t ht => ?_⟩
    rw [mem_singleton.mp hf]
    exact ht
  cases c with
  | alloc => exact runAlone_some hstep ▸ h.tcpAlloc
  | bind tp addr port => exact runAlone_some hstep ▸ h.alike (tcpBind_keeps.state hstart)
  | listen mux backlog =>
    rw [runAlone_some hstep]
    cases mux with
    | none => exact h
    | some p =>
      rcases of_decide_eq_true hc.1 with hp | hp | hp
      · exact h.tcpListen backlog (by decide) hp
      · exact h.tcpListen backlog (by decide) hp
      · exact h.tcpListen backlog (by decide) hp
  | connect tp addr port => exact runAlone_some hstep ▸ h.tcpConnect tp addr port
  | accept mux => exact runAlone_some hstep ▸ h.alike (tcpAccept_keeps.state hstart)
  | send tp buf len nowait =>
    exact runAlone_some hstep ▸ h.alike (tcpSend_keeps.state hstart)
  | recv tp len => exact runAlone_some hstep ▸ h.alike (tcpRecv_keeps.state hstart)
  | close tp =>
    rw [runAlone_some hstep]
    cases tp with
    | none => exact h
    | some p =>
      refine h.tcpClose (fun hnone => ?_) (of_decide_eq_true hc.1)
      have hring := hc.2
      rwa [StackEvent.frees, if_pos hnone] at hring

theorem Filed.step (h : Filed n s) {ev : StackEvent} (hev : ev.Proper lim s)
    (hstep : s.step lim ev = some s') : Filed n s' := by
  cases ev with
  | call c => exact h.call hev hstep
  | wake p =>
    rw [runAlone_some hstep]
    refine h.alike ((connectRound_keeps p ()).state ⟨⟨rfl, fun _ => rfl, rfl⟩, fun f hf => ?_⟩)
    exact absurd hf not_mem_nil
  | segment q seg output =>
    refine h.tcpSegment (fun p hp hin => ?_) hstep
    have hring := hev.2
    rwa [StackEvent.frees, hp, filter_some, if_pos (by rw [hin]; rfl)] at hring
  | idle p lost =>
    refine h.idleFire (fun hs => ?_) hstep
    have hring := hev.2
    rwa [StackEvent.frees, if_pos hs] at hring
  | fast =>
    cases hstep
    refine h.alike (Alike.timerLoop (fun tp tp' hc => ?_) _ ⟨rfl, fun _ => rfl, rfl⟩)
    split at hc
    · cases hc
      rfl
    · cases hc
  | rxmt fires =>
    cases hstep
    refine h.alike (Alike.timerLoop (fun tp tp' hc => ?_) _ ⟨rfl, fun _ => rfl, rfl⟩)
    split at hc
    · cases hc
      rfl
    · cases hc
  | output answers => exact h.outputLoop hstep
  | others conds sems room routeLookup =>
    cases hstep
    exact h.alike ⟨rfl, fun _ => rfl, rfl⟩

theorem Filed.init (lim : Limits) (conds sems room : Nat) (routeLookup : Addr → Option Via) :
    Filed lim.activeMax (Sockets.init lim conds sems room routeLookup) := by
  have hmem : ∀ l p, p ∈ (Sockets.init lim conds sems room routeLookup).lists l ↔
      p < lim.activeMax ∧ PcbList.free = l := by
    intro l p
    cases l <;> simp [Sockets.init]
  refine ⟨⟨fun l => ?_, fun _ => .free, fun l p => hmem l p⟩, fun l p hp => .inl ?_, rfl⟩
  · cases l
    · exact nodup_range
    · exact nodup_nil
    · exact nodup_nil
    · exact nodup_nil
  · exact ((hmem l p).mp hp).2.symm

/-! ## Closing a listener -/

/-- The connections that wait in the backlog of a listener, from its tail on. -/
def Block.waiting (b : Block) : List Nat :=
  (List.range ((b.head + b.max - b.tail) % b.max)).filterMap fun i => b.backlog ((b.tail + i) % b.max)

theorem Block.waiting_eq_nil (h : b.head = b.tail) : b.waiting = [] := by
  rw [waiting, h, Nat.add_sub_cancel_left, Nat.mod_self]
  rfl

/-- The listener and the connections in its backlog are freed, and nothing else happens to the lists of
listeners and of active blocks. -/
structure Closes (s s' : Sockets) (p : Nat) : Prop where
  free : ∀ q, q ∈ s'.lists .free ↔ q ∈ s.lists .free ∨ q = p ∨ q ∈ (s.block p).waiting
  listen : ∀ q, q ∈ s'.lists .listen ↔ q ∈ s.lists .listen ∧ q ≠ p
  active : ∀ q, q ∈ s'.lists .active ↔ q ∈ s.lists .active ∧ q ∉ (s.block p).waiting

theorem Filed.closes (h : Filed n s) (hp : p ∈ s.lists .listen)
    (hempty : (s.block p).head = (s.block p).tail) :
    ∃ s', s.step lim (.call (.close (some p))) = some s' ∧ Closes s s' p := by
  have hhome : (s.tState p).home = .listen := (h.home .listen p hp).resolve_left (by decide)
  have hs : (s.block p).tp.tState = .listen := by
    change (s.block p).tp.tState.home = .listen at hhome
    revert hhome
    cases (s.block p).tp.tState <;> simp [TcpState.home]
  obtain ⟨t, r, ht, -, hlists, -⟩ := release_eq lim (p := p) fun _ => hempty
  rw [hhome, if_pos hp] at hlists
  refine ⟨t, ?_, fun q => ?_, fun q => ?_, fun q => ?_⟩
  · change runAlone (done (Sockets.tcpClose lim (some p))) false s = some t
    unfold runAlone done Sockets.tcpClose
    simp only [run_bind, Bool.false_eq_true, if_false, run_lock_cons, run_getState, id, hs,
      Sockets.closeFree, ht, run_setState, run_unlock, run_pure]
  · rw [hlists, move_to, Block.waiting_eq_nil hempty]
    simp
  · rw [hlists, move_from (by decide), (h.shares.nodup .listen).mem_erase_iff, and_comm]
  · rw [hlists, move_of_ne (by decide) (by decide), Block.waiting_eq_nil hempty]
    simp

/-- **In every run in which `tcp_listen` is given blocks in use, listeners are closed with nobody in
their backlog, and no block is freed from behind the end of the output ring, each block of the pool is
on exactly one list, once; and a listener with nobody in its backlog is freed by `tcp_close`, with
exactly the connections that wait there, while the others stay.**  No store leaves the ring. -/
theorem pcb_accounting (lim : Limits) (conds sems room : Nat) (routeLookup : Addr → Option Via)
    (s : Sockets) (hrun : (stack lim).Run (fun s ev => ev.Proper lim s)
      (Sockets.init lim conds sems room routeLookup) s) :
    (∀ p, p < lim.activeMax → ∃! l, p ∈ s.lists l) ∧ (∀ l, (s.lists l).Nodup) ∧
      (∀ l, ∀ p ∈ s.lists l, p < lim.activeMax) ∧ s.out.stray = false ∧
      ∀ p ∈ s.lists .listen, (s.block p).head = (s.block p).tail →
        ∃ s', s.step lim (.call (.close (some p))) = some s' ∧ Closes s s' p := by
  have h : Filed lim.activeMax s :=
    hrun.invariant (fun _ _ _ h hp hstep => h.step hp hstep) (Filed.init lim conds sems room routeLookup)
  exact ⟨fun p hp => h.shares.existsUnique hp, h.shares.nodup, fun l p hp => h.shares.lt hp,
    h.stray, fun p hp hempty => h.closes hp hempty⟩

end

/-! ## Runs -/

/-- A SYN from a port of 10.0.0.2 to port 80 of 10.0.0.1. -/
def synFrom (port : Port) : StackEvent :=
  .segment ⟨0x0a000002, port, 0x0a000001, 80⟩
    { seq := 0, ack := 0, flags := { syn := true }, win := 1024, mss := [], data := []
      data_lt := nil_lt } false

/-- Block 0 listens with room for one connection, and accepts block 1. -/
def oneAccepted : List StackEvent :=
  [.call .alloc, .call (.bind (some 0) 0x0a000001 80), .call (.listen (some 0) 1), synFrom 1,
    .call (.accept (some 0))]

/-- A stack without routes. -/
def quietStack : Sockets := Sockets.init stdLimits 8 8 1024 fun _ => none

theorem pcb_accounting_accepted :
    ∃ s, (stack stdLimits).Run (fun s ev => ev.Proper stdLimits s) quietStack s ∧
      (0 ∈ s.lists .listen ∧ 1 ∈ s.lists .active) ∧ (∃! l, 1 ∈ s.lists l) ∧
      ∃ s', s.step stdLimits (.call (.close (some 0))) = some s' ∧ Closes s s' 0 := by
  obtain ⟨s, hrun, hq⟩ := System.exists_run_of_exec (M := stack stdLimits)
    (P := fun s ev => ev.Proper stdLimits s)
    (fun s => (0 ∈ s.lists .listen ∧ 1 ∈ s.lists .active) ∧ (s.block 0).head = (s.block 0).tail)
    oneAccepted quietStack (by decide)
  obtain ⟨hone, -, -, -, hclose⟩ := pcb_accounting stdLimits 8 8 1024 (fun _ => none) s hrun
  exact ⟨s, hrun, hq.1, hone 1 (by decide), hclose 0 hq.1.1 hq.2⟩

/-- A stack with a route to everywhere. -/
def routedStack : Sockets := Sockets.init stdLimits 8 8 1024 fun _ => some ⟨0x0a000001, 1500⟩

/-- A connection that is given up after its first output, for each of the eight blocks; and one more,
given up before. -/
def nineCalls : List StackEvent :=
  ((List.range 8).flatMap fun p =>
    [.call .alloc, .call (.connect (some p) 0x0a000002 80), .output [([], false)], .call (.close (some p))]) ++
  [.call .alloc, .call (.connect (some 0) 0x0a000002 80), .call (.close (some 0))]

/-- With block 2 in the backlog of the listener 0, its close frees block 1, which was accepted; the
listener and block 2 stay where they are. And the ninth output is looked for in the ring of eight, but
cleared behind its end. -/
theorem close_frees_accepted :
    (∃ s, (stack stdLimits).Run (fun s ev => ev.Proper stdLimits s) quietStack s ∧
      (s.block 0).waiting = [2] ∧ 1 ∈ s.lists .active ∧
      ∃ s', s.step stdLimits (.call (.close (some 0))) = some s' ∧
        1 ∈ s'.lists .free ∧ 2 ∈ s'.lists .active ∧ 0 ∈ s'.lists .listen) ∧
    ∃ s, (stack stdLimits).Run (fun s ev => ev.careful s = true) routedStack s ∧ s.out.stray = true := by
  constructor
  · obtain ⟨s, hrun, hw, h1, hclose⟩ := System.exists_run_of_exec (M := stack stdLimits)
      (P := fun s ev => ev.Proper stdLimits s)
      (fun s => (s.block 0).waiting = [2] ∧ 1 ∈ s.lists .active ∧
        ((s.step stdLimits (.call (.close (some 0)))).any fun s' =>
          1 ∈ s'.lists .free ∧ 2 ∈ s'.lists .active ∧ 0 ∈ s'.lists .listen) = true)
      (oneAccepted ++ [synFrom 2]) quietStack (by decide)
    cases hs' : s.step stdLimits (.call (.close (some 0))) with
    | none => simp [hs'] at hclose
    | some s' =>
      rw [hs'] at hclose
      exact ⟨s, hrun, hw, h1, s', hs', of_decide_eq_true hclose⟩
  · exact System.exists_run_of_exec (M := stack stdLimits) (P := fun s ev => ev.careful s = true)
      (fun s => s.out.stray = true) nineCalls routedStack (by decide +kernel)

end Tcp
