import Mathlib.Tactic.Ring
import Mathlib.Data.List.Nodup

/-!
# Lists in linked memory

Singly linked lists over a table of `next` links, with a head node and a pointer to the last node.
A head is a node as well: the link that leaves it is the first pointer of the list.
-/

namespace Lib

open Function List

variable {α : Type}

/-- From `a` on the links lead through `l`, and end there. -/
def Leads (next : α → Option α) : α → List α → Prop
  | a, [] => next a = none
  | a, b :: l => next a = some b ∧ Leads next b l

/-- The list `l` behind `head`, with a pointer to its last node, the head when it is empty. -/
structure Linked (next : α → Option α) (head last : α) (l : List α) : Prop where
  leads : Leads next head l
  last : (head :: l).getLast? = some last
  nodup : (head :: l).Nodup

section
variable {next : α → Option α} {head last a b c : α} {l l' : List α} {v : Option α}

theorem Leads.next_eq (h : Leads next a l) : next a = l.head? := by
  cases l with
  | nil => exact h
  | cons b l => exact h.1

/-- Links that leave through `l` and go on with `l'` can be cut behind `l`. -/
theorem Leads.split (h : Leads next a (l ++ l')) (hb : (a :: l).getLast? = some b) :
    Leads next b l' := by
  induction l generalizing a with
  | nil => cases hb; exact h
  | cons x l ih => exact ih h.2 (getLast?_cons_cons ▸ hb)

theorem Linked.last_mem (h : Linked next head last l) : last ∈ head :: l :=
  mem_of_getLast? h.last

variable [DecidableEq α]

theorem leads_update (h : c ∉ a :: l) : Leads (update next c v) a l ↔ Leads next a l := by
  induction l generalizing a with
  | nil =>
    rw [mem_singleton] at h
    simp only [Leads, update_of_ne (Ne.symm h)]
  | cons b l ih =>
    rw [mem_cons, not_or] at h
    simp only [Leads, update_of_ne (Ne.symm h.1), ih h.2]

theorem Linked.update (h : Linked next head last l) (hc : c ∉ head :: l) (v : Option α) :
    Linked (update next c v) head last l :=
  ⟨(leads_update hc).mpr h.leads, h.last, h.nodup⟩

theorem Leads.push (h : Leads next a l) (hlast : (a :: l).getLast? = some b) (hn : (a :: l).Nodup)
    (hc : c ∉ a :: l) : Leads (update (update next b (some c)) c none) a (l ++ [c]) := by
  induction l generalizing a with
  | nil =>
    obtain rfl : a = b := Option.some.inj hlast
    rw [mem_singleton] at hc
    exact ⟨by rw [update_of_ne (Ne.symm hc), update_self], update_self ..⟩
  | cons x l ih =>
    rw [getLast?_cons_cons] at hlast
    rw [nodup_cons] at hn
    rw [mem_cons, not_or] at hc
    have hab : a ≠ b := fun he => hn.1 (he ▸ mem_of_getLast? hlast)
    refine ⟨?_, ih h.2 hlast hn.2 hc.2⟩
    rw [update_of_ne (Ne.symm hc.1), update_of_ne hab]
    exact h.1

theorem Linked.push (h : Linked next head last l) (hc : c ∉ head :: l) :
    Linked (Function.update (Function.update next last (some c)) c none) head c (l ++ [c]) where
  leads := h.leads.push h.last h.nodup hc
  last := by rw [← List.cons_append, List.getLast?_concat]
  nodup := by
    rw [← List.cons_append, List.nodup_append]
    exact ⟨h.nodup, by simp, fun x hx y hy => by
      cases List.mem_singleton.mp hy
      exact fun he => hc (he ▸ hx)⟩

theorem Leads.rehead {v : α} (h : Leads next a l) (hv : v ∉ l) :
    Leads (update next v (next a)) v l := by
  cases l with
  | nil => exact (update_self ..).trans h
  | cons b l => exact ⟨(update_self ..).trans h.1, (leads_update hv).mpr h.2⟩

/-- The list behind a cut: the head goes on with the rest, the last pointer falls back to the head
when nothing is left. -/
theorem Linked.drop (h : Linked next head last (l ++ l')) (hb : (head :: l).getLast? = some b) :
    Linked (Function.update next head (next b)) head
      (if next b = none then head else last) l' := by
  have hrest := h.leads.split hb
  have hn : (head :: l').Nodup := h.nodup.sublist ((List.sublist_append_right l l').cons_cons head)
  refine ⟨hrest.rehead (List.nodup_cons.mp hn).1, ?_, hn⟩
  rw [hrest.next_eq]
  cases l' with
  | nil => rfl
  | cons x l' =>
    have hlast := h.last
    rw [← List.cons_append, List.getLast?_append_cons] at hlast
    rw [List.getLast?_cons_cons, hlast]
    rfl

end

end Lib
