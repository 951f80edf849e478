import Mathlib.Data.List.Perm.Basic
import ThinkOS.Lib.Linked

/-!
# A pool of cells on linked lists

A pool of `n` cells, each of them with one holder. Some holders are linked lists, threaded through
the cells by one table of links; the others keep their cells without links. `Lists` says that the
memory is in order, and the rules below say how a cell goes from one holder to another.
-/

namespace Lib

open Function List

variable {a b : List Nat} {L : Type}

/-- A node of the memory: the head of a list, or a cell. -/
inductive Node (L : Type) where
  | head (l : L)
  | cell (i : Nat)
  deriving DecidableEq, Repr

/-- Each of `n` cells has one holder, and the holder has it once. -/
structure Shares {P : Type} (n : Nat) (cells : P → List Nat) : Prop where
  nodup : ∀ p, (cells p).Nodup
  owner : ∃ own : Nat → P, ∀ p i, i ∈ cells p ↔ i < n ∧ own i = p

/-- The cell `i` goes from `p` to `p'`. -/
def move {P : Type} [DecidableEq P] (cells : P → List Nat) (p p' : P) (i : Nat) : P → List Nat :=
  Function.update (Function.update cells p ((cells p).erase i)) p' (cells p' ++ [i])

section
variable {P : Type} {n i : Nat} {cells : P → List Nat} {p p' x : P}

section
variable (h : Shares n cells)
include h

theorem Shares.lt (hi : i ∈ cells p) : i < n := by
  obtain ⟨own, ho⟩ := h.owner
  exact ((ho p i).mp hi).1

theorem Shares.unique (hi : i ∈ cells p) (hi' : i ∈ cells p') : p = p' := by
  obtain ⟨own, ho⟩ := h.owner
  exact ((ho p i).mp hi).2.symm.trans ((ho p' i).mp hi').2

theorem Shares.existsUnique (hi : i < n) : ∃! p, i ∈ cells p := by
  obtain ⟨own, ho⟩ := h.owner
  exact ⟨own i, (ho _ i).mpr ⟨hi, rfl⟩, fun p hp => h.unique hp ((ho _ i).mpr ⟨hi, rfl⟩)⟩

theorem Shares.length_le (p : P) : (cells p).length ≤ n := by
  have hsub : cells p ⊆ List.range n := fun i hi => mem_range.mpr (h.lt hi)
  simpa using (subperm_of_subset (h.nodup p) hsub).length_le

/-- A holder that lacks a cell has fewer than all of them. -/
theorem Shares.length_lt (hi : i < n) (hp : i ∉ cells p) : (cells p).length < n := by
  have hsub : i :: cells p ⊆ List.range n := by
    intro j hj
    rcases mem_cons.mp hj with rfl | hj
    · exact mem_range.mpr hi
    · exact mem_range.mpr (h.lt hj)
  have hle := (subperm_of_subset (nodup_cons.mpr ⟨hp, h.nodup p⟩) hsub).length_le
  rwa [length_range] at hle

end

variable [DecidableEq P]

theorem move_of_ne (hp : x ≠ p) (hp' : x ≠ p') : move cells p p' i x = cells x := by
  rw [move, update_of_ne hp', update_of_ne hp]

theorem move_to : move cells p p' i p' = cells p' ++ [i] := by
  rw [move, update_self]

theorem move_from (hne : p ≠ p') : move cells p p' i p = (cells p).erase i := by
  rw [move, update_of_ne hne, update_self]

theorem Shares.move (h : Shares n cells) (hi : i ∈ cells p) (hne : p ≠ p') :
    Shares n (Lib.move cells p p' i) := by
  have hp' : i ∉ cells p' := fun hi' => hne (h.unique hi hi')
  refine ⟨fun x => ?_, ?_⟩
  · rcases eq_or_ne x p' with rfl | hxp'
    · rw [move_to, nodup_append]
      exact ⟨h.nodup _, nodup_singleton i, fun a ha b hb => by
        rw [mem_singleton.mp hb]
        exact fun he => hp' (he ▸ ha)⟩
    · rcases eq_or_ne x p with rfl | hxp
      · rw [move_from hne]
        exact (h.nodup _).erase i
      · rw [move_of_ne hxp hxp']
        exact h.nodup x
  · obtain ⟨own, ho⟩ := h.owner
    have hin := (ho p i).mp hi
    refine ⟨update own i p', fun x j => ?_⟩
    rcases eq_or_ne j i with rfl | hji
    · rw [update_self]
      rcases eq_or_ne x p' with rfl | hxp'
      · simp [move_to, hin.1]
      · rcases eq_or_ne x p with rfl | hxp
        · simp [move_from hne, (h.nodup x).mem_erase_iff, hxp'.symm]
        · rw [move_of_ne hxp hxp', ho, hin.2]
          simp [hxp.symm, hxp'.symm]
    · rw [update_of_ne hji, ← ho]
      rcases eq_or_ne x p' with rfl | hxp'
      · simp [move_to, hji]
      · rcases eq_or_ne x p with rfl | hxp
        · rw [move_from hne, mem_erase_of_ne hji]
        · rw [move_of_ne hxp hxp']

/-- A cell that goes on at once to a third holder. -/
theorem move_move {p'' : P} (hi : i ∉ cells p') (h : p ≠ p') (h' : p' ≠ p'') (h'' : p ≠ p'') :
    move (move cells p p' i) p' p'' i = move cells p p'' i := by
  funext x
  rcases eq_or_ne x p'' with rfl | hx''
  · rw [move_to, move_to, move_of_ne h''.symm h'.symm]
  · rcases eq_or_ne x p' with rfl | hx'
    · rw [move_from h', move_to, move_of_ne h.symm hx'', erase_append_right _ hi,
        erase_cons_head, append_nil]
    · rcases eq_or_ne x p with rfl | hx
      · rw [move_of_ne hx' hx'', move_from h, move_from h'']
      · rw [move_of_ne hx' hx'', move_of_ne hx hx', move_of_ne hx hx'']

/-- The cells `a` go from `p` to `p'`, one after the other. -/
def moveAll (cells : P → List Nat) (p p' : P) : List Nat → P → List Nat
  | [] => cells
  | i :: a => moveAll (move cells p p' i) p p' a

theorem moveAll_of_ne (hp : x ≠ p) (hp' : x ≠ p') {a : List Nat} :
    moveAll cells p p' a x = cells x := by
  induction a generalizing cells with
  | nil => rfl
  | cons i a ih => exact ih.trans (move_of_ne hp hp')

theorem moveAll_to {a : List Nat} : moveAll cells p p' a p' = cells p' ++ a := by
  induction a generalizing cells with
  | nil => exact (append_nil _).symm
  | cons i a ih => exact ih.trans (by rw [move_to, append_assoc, singleton_append])

theorem moveAll_mid {a b c : List Nat} (hne : p ≠ p') (h : cells p = c ++ (a ++ b))
    (hc : ∀ i ∈ a, i ∉ c) : moveAll cells p p' a p = c ++ b := by
  induction a generalizing cells with
  | nil => exact h
  | cons i a ih =>
    refine ih ?_ fun j hj => hc j (mem_cons_of_mem i hj)
    rw [move_from hne, h, erase_append_right _ (hc i mem_cons_self), cons_append, erase_cons_head]

theorem moveAll_from (hne : p ≠ p') (h : cells p = a ++ b) : moveAll cells p p' a p = b :=
  moveAll_mid (c := []) hne h fun _ _ => not_mem_nil

theorem moveAll_diff (hne : p ≠ p') {a : List Nat} : moveAll cells p p' a p = (cells p).diff a := by
  induction a generalizing cells with
  | nil => rfl
  | cons i a ih => exact ih.trans (by rw [move_from hne, diff_cons])

theorem Shares.moveAll (h : Shares n cells) (ha : ∀ i ∈ a, i ∈ cells p) (hn : a.Nodup)
    (hne : p ≠ p') : Shares n (Lib.moveAll cells p p' a) := by
  induction a generalizing cells with
  | nil => exact h
  | cons i a ih =>
    rw [nodup_cons] at hn
    refine ih (h.move (ha i mem_cons_self) hne) (fun j hj => ?_) hn.2
    have hji : j ≠ i := fun he => hn.1 (he ▸ hj)
    rw [move_from hne, mem_erase_of_ne hji]
    exact ha j (mem_cons_of_mem i hj)

end

/-- The memory is in order: every cell has its holder, and every list with a last pointer is linked
through its cells. A list without one is shut: its links say nothing. -/
structure Lists {L H : Type} (n : Nat) (next : Node L → Option (Node L))
    (tail : L → Option (Node L)) (cells : L ⊕ H → List Nat) : Prop where
  shares : Shares n cells
  linked : ∀ l t, tail l = some t → Linked next (.head l) t ((cells (.inl l)).map .cell)

/-- From `p` on the links lead through the cells `a`, and end there. -/
def Follows {L : Type} (next : Node L → Option (Node L)) : Option (Node L) → List Nat → Prop
  | p, [] => p = none
  | p, i :: a => p = some (.cell i) ∧ Follows next (next (.cell i)) a

theorem follows_of_leads {next : Node L → Option (Node L)} {x : Node L}
    (h : Leads next x (a.map .cell)) : Follows next (next x) a := by
  induction a generalizing x with
  | nil => exact h
  | cons i a ih => exact ⟨h.1, ih h.2⟩

theorem Follows.update [DecidableEq L] {next : Node L → Option (Node L)} {p : Option (Node L)}
    {x : Node L} (h : Follows next p a) (hx : x ∉ a.map .cell) (v : Option (Node L)) :
    Follows (update next x v) p a := by
  induction a generalizing p with
  | nil => exact h
  | cons i a ih =>
    rw [map_cons, mem_cons, not_or] at hx
    refine ⟨h.1, ?_⟩
    rw [update_of_ne (Ne.symm hx.1)]
    exact ih h.2 hx.2

theorem Follows.congr {next next' : Node L → Option (Node L)} {p : Option (Node L)}
    (h : Follows next p a) (he : ∀ i ∈ a, next' (.cell i) = next (.cell i)) :
    Follows next' p a := by
  induction a generalizing p with
  | nil => exact h
  | cons i a ih =>
    refine ⟨h.1, ?_⟩
    rw [he i mem_cons_self]
    exact ih h.2 fun j hj => he j (mem_cons_of_mem i hj)

/-- The links are cut behind the first cells. -/
theorem Follows.cut [DecidableEq L] {next : Node L → Option (Node L)} {p : Option (Node L)}
    {x : Nat} (h : Follows next p (a ++ b)) (hx : a.getLast? = some x) (hn : a.Nodup) :
    Follows (Function.update next (.cell x) none) p a := by
  induction a generalizing p with
  | nil => cases hx
  | cons i a ih =>
    cases a with
    | nil =>
      obtain rfl : i = x := Option.some.inj hx
      exact ⟨h.1, Function.update_self ..⟩
    | cons j a =>
      rw [List.getLast?_cons_cons] at hx
      rw [List.nodup_cons] at hn
      have hix : Node.cell i ≠ (.cell x : Node L) := fun he =>
        hn.1 (Node.cell.inj he ▸ List.mem_of_getLast? hx)
      refine ⟨h.1, ?_⟩
      rw [Function.update_of_ne hix]
      exact ih h.2 hx hn.2

section
variable {H : Type} [DecidableEq L] [DecidableEq H] {n i : Nat} {l l' : L} {k k' : H}
  {next : Node L → Option (Node L)} {tail : L → Option (Node L)} {cells : L ⊕ H → List Nat}
  {t x : Node L}

section
variable (h : Lists n next tail cells)
include h

omit [DecidableEq L] [DecidableEq H] in
/-- The nodes of two lists are apart. -/
theorem Lists.apart (hne : l' ≠ l) (hx : x ∈ .head l :: (cells (.inl l)).map .cell) :
    x ∉ .head l' :: (cells (.inl l')).map .cell := by
  intro hx'
  rcases mem_cons.mp hx with rfl | hx
  · simp only [mem_cons, Node.head.injEq, mem_map, reduceCtorEq, and_false,
      exists_false, or_false] at hx'
    exact hne hx'.symm
  · obtain ⟨i, hi, rfl⟩ := mem_map.mp hx
    simp only [mem_cons, reduceCtorEq, mem_map, Node.cell.injEq, exists_eq_right, false_or] at hx'
    exact hne (Sum.inl.inj (h.shares.unique hx' hi))

omit [DecidableEq L] [DecidableEq H] in
/-- The cells of the other holders are on no list. -/
theorem Lists.loose (hi : i ∈ cells (.inr k)) :
    Node.cell i ∉ .head l :: (cells (.inl l)).map .cell := by
  simp only [mem_cons, reduceCtorEq, mem_map, Node.cell.injEq, exists_eq_right, false_or]
  exact fun hl => nomatch h.shares.unique hi hl

omit [DecidableEq L] [DecidableEq H] in
theorem Lists.first (ht : tail l = some t) : next (.head l) = (cells (.inl l)).head?.map .cell := by
  rw [(h.linked l t ht).leads.next_eq, head?_map]

/-- The first cells of a list go to a holder without links: the head of the list goes on behind
them. -/
theorem Lists.popAll (ht : tail l = some t) (hc : cells (.inl l) = a ++ b)
    (hx : (.head l :: a.map .cell).getLast? = some x) (k : H) :
    Lists n (update next (.head l) (next x))
      (update tail l (some (if next x = none then .head l else t)))
      (moveAll cells (.inl l) (.inr k) a) := by
  have hn : a.Nodup := (nodup_append.mp (hc ▸ h.shares.nodup (.inl l))).1
  have ha : ∀ i ∈ a, i ∈ cells (.inl l) := fun i hi => hc ▸ mem_append_left b hi
  refine ⟨h.shares.moveAll ha hn Sum.inl_ne_inr, fun l' t' ht' => ?_⟩
  rcases eq_or_ne l' l with rfl | hne
  · rw [update_self, Option.some.injEq] at ht'
    rw [← ht', moveAll_from Sum.inl_ne_inr hc]
    have hl := h.linked l' t ht
    rw [hc, map_append] at hl
    exact hl.drop hx
  · rw [update_of_ne hne] at ht'
    rw [moveAll_of_ne (fun he => hne (Sum.inl.inj he)) Sum.inl_ne_inr]
    exact (h.linked l' t' ht').update (h.apart hne mem_cons_self) _

/-- A cell of a holder without links goes behind the last node of a list. -/
theorem Lists.push (ht : tail l = some t) (hi : i ∈ cells (.inr k)) :
    Lists n (update (update next t (some (.cell i))) (.cell i) none)
      (update tail l (some (.cell i))) (move cells (.inr k) (.inl l) i) := by
  have hl := h.linked l t ht
  refine ⟨h.shares.move hi Sum.inr_ne_inl, fun l' t' ht' => ?_⟩
  rcases eq_or_ne l' l with rfl | hne
  · rw [update_self, Option.some.injEq] at ht'
    rw [← ht', move_to, map_append]
    exact hl.push (h.loose hi)
  · rw [update_of_ne hne] at ht'
    rw [move_of_ne Sum.inl_ne_inr (fun he => hne (Sum.inl.inj he))]
    exact ((h.linked l' t' ht').update (h.apart hne hl.last_mem) _).update (h.loose hi) _

omit [DecidableEq H] in
/-- A holder without links may write the link word of its cells. -/
theorem Lists.write (hi : i ∈ cells (.inr k)) (v : Option (Node L)) :
    Lists n (update next (.cell i) v) tail cells :=
  ⟨h.shares, fun l t ht => (h.linked l t ht).update (h.loose hi) v⟩

omit [DecidableEq H] in
theorem Lists.shut (l : L) : Lists n next (update tail l none) cells := by
  refine ⟨h.shares, fun l' t ht => ?_⟩
  rcases eq_or_ne l' l with rfl | hne
  · exact nomatch (update_self l' none tail).symm.trans ht
  · rw [update_of_ne hne] at ht
    exact h.linked l' t ht

/-- The cells of a shut list go to a holder without links. -/
theorem Lists.spill (ht : tail l = none) (hc : cells (.inl l) = a ++ b) (k : H) :
    Lists n next tail (moveAll cells (.inl l) (.inr k) a) := by
  have hn : a.Nodup := (nodup_append.mp (hc ▸ h.shares.nodup (.inl l))).1
  have ha : ∀ i ∈ a, i ∈ cells (.inl l) := fun i hi => hc ▸ mem_append_left b hi
  refine ⟨h.shares.moveAll ha hn Sum.inl_ne_inr, fun l' t' ht' => ?_⟩
  have hne : l' ≠ l := by
    rintro rfl
    exact nomatch ht.symm.trans ht'
  rw [moveAll_of_ne (fun he => hne (Sum.inl.inj he)) Sum.inl_ne_inr]
  exact h.linked l' t' ht'

omit [DecidableEq H] in
/-- A shut list without cells is set up again. -/
theorem Lists.reset (hc : cells (.inl l) = []) :
    Lists n (update next (.head l) none) (update tail l (some (.head l))) cells := by
  refine ⟨h.shares, fun l' t' ht' => ?_⟩
  rcases eq_or_ne l' l with rfl | hne
  · rw [update_self, Option.some.injEq] at ht'
    rw [hc, ← ht']
    exact ⟨update_self .., rfl, nodup_singleton _⟩
  · rw [update_of_ne hne] at ht'
    exact (h.linked l' t' ht').update (h.apart hne mem_cons_self) _

end

end

end Lib
