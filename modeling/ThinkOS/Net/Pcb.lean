import Mathlib.Data.List.Basic
import Mathlib.Tactic.Common

/-!
# Protocol control blocks

`pcb_wildlookup` of `in_pcb.c`. The count of wildcard fields is cleared before the loop and not for
each entry: it also counts the fields of the entries passed before. So the lookup stops at the first
compatible entry of the list, or finds none when three fields were counted on the way.
-/

namespace Net

open List Option

/-- `in_addr_t`. -/
abbrev Addr := BitVec 32

abbrev Port := BitVec 16

def INADDR_ANY : Addr := 0

/-- The addresses and ports of `struct pcb`, or those that a lookup asks for. -/
structure Pcb where
  faddr : Addr
  fport : Port
  laddr : Addr
  lport : Port
  deriving DecidableEq

/-! ## The lookup -/

section
variable (q : Pcb)

/-- The comparison of the local address: the count after it, and whether the entry is still in. -/
def wildLocal (pcb : Pcb) (wildcard : Nat) : Nat × Bool :=
  if pcb.laddr ≠ INADDR_ANY then
    if q.laddr = INADDR_ANY then (wildcard + 1, true)
    else (wildcard, pcb.laddr = q.laddr)
  else if q.laddr ≠ INADDR_ANY then (wildcard + 1, true)
  else (wildcard, true)

/-- The comparison of the foreign address and port. -/
def wildForeign (pcb : Pcb) (wildcard : Nat) : Nat × Bool :=
  if pcb.faddr ≠ INADDR_ANY then
    if q.faddr = INADDR_ANY then (wildcard + 1, true)
    else (wildcard, pcb.faddr = q.faddr && pcb.fport = q.fport)
  else if q.faddr ≠ INADDR_ANY then (wildcard + 1, true)
  else (wildcard, true)

/-- One entry of the list, up to the comparison with the best match. -/
def wildEntry (pcb : Pcb) (wildcard : Nat) : Nat × Bool :=
  if pcb.lport ≠ q.lport then (wildcard, false)
  else
    let (wildcard, ok) := wildLocal q pcb wildcard
    if ok then wildForeign q pcb wildcard else (wildcard, false)

/-- The loop of `pcb_wildlookup`: the best match, its count, and the running count. -/
def wildLoop : List Pcb → Option Pcb → Nat → Nat → Option Pcb
  | [], best, _, _ => best
  | pcb :: list, best, matchwild, wildcard =>
    let (wildcard, ok) := wildEntry q pcb wildcard
    if ok && wildcard < matchwild then
      if wildcard = 0 then some pcb else wildLoop list (some pcb) wildcard wildcard
    else wildLoop list best matchwild wildcard

/-- `pcb_wildlookup`. -/
def pcbWildlookup (list : List Pcb) : Option Pcb := wildLoop q list none 3 0

/-! ## What it is for -/

/-- The entry has the local port, and each address is the one asked for or a wildcard on one side. -/
def Compatible (pcb : Pcb) : Prop :=
  pcb.lport = q.lport ∧ (pcb.laddr = INADDR_ANY ∨ q.laddr = INADDR_ANY ∨ pcb.laddr = q.laddr) ∧
    (pcb.faddr = INADDR_ANY ∨ q.faddr = INADDR_ANY ∨ pcb.faddr = q.faddr ∧ pcb.fport = q.fport)

instance : DecidablePred (Compatible q) := fun _ => inferInstanceAs (Decidable (_ ∧ _))

/-- Whether an address is a wildcard on one side only. -/
def oneSided (a b : Addr) : Nat := if (a = INADDR_ANY) ↔ (b = INADDR_ANY) then 0 else 1

/-- The number of wildcard fields of a compatible entry. -/
def wildcards (pcb : Pcb) : Nat := oneSided pcb.laddr q.laddr + oneSided pcb.faddr q.faddr

/-- The result is an entry with the fewest wildcard fields, or nothing when no entry is compatible. -/
structure MostSpecific (list : List Pcb) (r : Option Pcb) : Prop where
  none_iff : r = none ↔ ∀ pcb ∈ list, ¬ Compatible q pcb
  least : ∀ pcb, r = some pcb → pcb ∈ list ∧ Compatible q pcb ∧
    ∀ pcb' ∈ list, Compatible q pcb' → wildcards q pcb ≤ wildcards q pcb'

/-! ## What it does -/

/-- The first compatible entry, with the fields counted up to it. -/
def firstMatch : List Pcb → Nat → Option (Pcb × Nat)
  | [], _ => none
  | pcb :: list, wildcard =>
    let (wildcard, ok) := wildEntry q pcb wildcard
    if ok then some (pcb, wildcard) else firstMatch list wildcard

end

section
variable {q pcb : Pcb} {list : List Pcb} {wildcard : Nat}

theorem wildLocal_eq : wildLocal q pcb wildcard = (wildcard + oneSided pcb.laddr q.laddr,
      decide (pcb.laddr = INADDR_ANY ∨ q.laddr = INADDR_ANY ∨ pcb.laddr = q.laddr)) := by
  by_cases h : pcb.laddr = INADDR_ANY <;> by_cases h' : q.laddr = INADDR_ANY <;>
    simp [wildLocal, oneSided, h, h']

theorem wildForeign_eq : wildForeign q pcb wildcard = (wildcard + oneSided pcb.faddr q.faddr,
      decide (pcb.faddr = INADDR_ANY ∨ q.faddr = INADDR_ANY ∨
        pcb.faddr = q.faddr ∧ pcb.fport = q.fport)) := by
  by_cases h : pcb.faddr = INADDR_ANY <;> by_cases h' : q.faddr = INADDR_ANY <;>
    simp [wildForeign, oneSided, h, h']

/-- An entry is in when it is compatible. A compatible one adds its wildcard fields to the count;
another one may add to it too. -/
theorem wildEntry_cases (q pcb : Pcb) (wildcard : Nat) :
    (Compatible q pcb ∧ wildEntry q pcb wildcard = (wildcard + wildcards q pcb, true)) ∨
    (¬ Compatible q pcb ∧ ∃ n, wildcard ≤ n ∧ wildEntry q pcb wildcard = (n, false)) := by
  unfold wildEntry
  by_cases hp : pcb.lport = q.lport
  · rw [if_neg (not_not.mpr hp), wildLocal_eq]
    by_cases hl : pcb.laddr = INADDR_ANY ∨ q.laddr = INADDR_ANY ∨ pcb.laddr = q.laddr
    · simp only [hl, decide_true, if_true, wildForeign_eq]
      by_cases hf : pcb.faddr = INADDR_ANY ∨ q.faddr = INADDR_ANY ∨
          pcb.faddr = q.faddr ∧ pcb.fport = q.fport
      · refine .inl ⟨⟨hp, hl, hf⟩, ?_⟩
        rw [decide_eq_true hf, wildcards, Nat.add_assoc]
      · refine .inr ⟨fun h => hf h.2.2, _, ?_, by rw [decide_eq_false hf]⟩
        omega
    · refine .inr ⟨fun h => hl h.2.1, wildcard + oneSided pcb.laddr q.laddr,
        Nat.le_add_right _ _, ?_⟩
      simp only [hl, decide_false]
      rfl
  · rw [if_pos hp]
    exact .inr ⟨fun h => hp h.1, _, Nat.le_refl _, rfl⟩

/-- Nothing is found when the count has come to that of the match: it never falls. -/
theorem wildLoop_eq_best {best : Option Pcb} {matchwild : Nat} (h : matchwild ≤ wildcard) :
    wildLoop q list best matchwild wildcard = best := by
  induction list generalizing wildcard with
  | nil => rfl
  | cons p list ih =>
    rcases wildEntry_cases q p wildcard with ⟨-, he⟩ | ⟨-, n, hn, he⟩
    · simp only [wildLoop, he, Bool.true_and]
      rw [if_neg (by simp; omega)]
      exact ih (by omega)
    · simp only [wildLoop, he, Bool.false_and]
      exact ih (by omega)

theorem wildLoop_none (wildcard : Nat) : wildLoop q list none 3 wildcard =
    ((firstMatch q list wildcard).filter fun m => m.2 < 3).map Prod.fst := by
  induction list generalizing wildcard with
  | nil => rfl
  | cons p list ih =>
    rcases wildEntry_cases q p wildcard with ⟨-, he⟩ | ⟨-, n, hn, he⟩
    · simp only [wildLoop, firstMatch, he, Bool.true_and, if_true, Option.filter]
      by_cases h3 : wildcard + wildcards q p < 3
      · simp only [h3, decide_true, if_true, Option.map_some]
        split
        · rfl
        · exact wildLoop_eq_best (Nat.le_refl _)
      · simp only [h3, decide_false]
        exact wildLoop_eq_best (Nat.le_of_not_lt h3)
    · simp only [wildLoop, firstMatch, he, Bool.false_and]
      exact ih n

theorem firstMatch_eq_none (wildcard : Nat) :
    firstMatch q list wildcard = none ↔ ∀ pcb ∈ list, ¬ Compatible q pcb := by
  induction list generalizing wildcard with
  | nil => simp [firstMatch]
  | cons p list ih =>
    rcases wildEntry_cases q p wildcard with ⟨hc, he⟩ | ⟨hc, n, -, he⟩
    · simp [firstMatch, he, hc]
    · simp [firstMatch, he, hc, ih]

theorem firstMatch_eq_some {n : Nat} (h : firstMatch q list wildcard = some (pcb, n)) :
    pcb ∈ list ∧ Compatible q pcb := by
  induction list generalizing wildcard with
  | nil => cases h
  | cons p list ih =>
    rcases wildEntry_cases q p wildcard with ⟨hc, he⟩ | ⟨-, m, -, he⟩
    · simp only [firstMatch, he, if_true] at h
      cases h
      exact ⟨mem_cons_self, hc⟩
    · simp only [firstMatch, he] at h
      obtain ⟨hm, hc⟩ := ih h
      exact ⟨mem_cons_of_mem p hm, hc⟩

/-- An entry without the local port or address leaves the count alone when the foreign address asked
for is a wildcard. -/
theorem firstMatch_any (hq : q.faddr = INADDR_ANY) (wildcard : Nat) (hp : pcb ∈ list)
    (hc : Compatible q pcb) : ∃ pcb' ∈ list,
      firstMatch q list wildcard = some (pcb', wildcard + wildcards q pcb') := by
  induction list with
  | nil => cases hp
  | cons p list ih =>
    rcases wildEntry_cases q p wildcard with ⟨-, he⟩ | ⟨hnc, -⟩
    · exact ⟨p, List.mem_cons_self, by simp only [firstMatch, he, if_true]⟩
    · have hmem : pcb ∈ list := (List.mem_cons.mp hp).resolve_left fun h => hnc (h ▸ hc)
      obtain ⟨pcb', hmem', hf⟩ := ih hmem
      refine ⟨pcb', List.mem_cons_of_mem p hmem', ?_⟩
      have he : wildEntry q p wildcard = (wildcard, false) := by
        unfold wildEntry
        by_cases hport : p.lport = q.lport
        · have hl : ¬ (p.laddr = INADDR_ANY ∨ q.laddr = INADDR_ANY ∨ p.laddr = q.laddr) :=
            fun hl => hnc ⟨hport, hl, .inr (.inl hq)⟩
          rw [if_neg (not_not.mpr hport), wildLocal_eq, decide_eq_false hl]
          simp only [not_or] at hl
          simp [oneSided, hl.1, hl.2.1]
        · rw [if_pos hport]
      simp only [firstMatch, he]
      exact hf

/-- With a wildcard for the foreign address, an entry is found whenever there is a compatible one. -/
theorem pcbWildlookup_any (hq : q.faddr = INADDR_ANY) (hp : pcb ∈ list) (hc : Compatible q pcb) :
    ∃ pcb' ∈ list, pcbWildlookup q list = some pcb' := by
  obtain ⟨pcb', hmem, hf⟩ := firstMatch_any hq 0 hp hc
  refine ⟨pcb', hmem, ?_⟩
  have hlt : 0 + wildcards q pcb' < 3 := by
    unfold wildcards oneSided
    split <;> split <;> decide
  rw [pcbWildlookup, wildLoop_none, hf, filter_some_pos (by simpa using hlt), map_some]

/-- **The lookup is right exactly when the first compatible entry has the fewest wildcard fields, and
fewer than three fields are counted up to it.** -/
theorem pcbWildlookup_mostSpecific_iff (q : Pcb) (list : List Pcb) :
    MostSpecific q list (pcbWildlookup q list) ↔
      ∀ pcb n, firstMatch q list 0 = some (pcb, n) → n < 3 ∧
        ∀ pcb' ∈ list, Compatible q pcb' → wildcards q pcb ≤ wildcards q pcb' := by
  unfold pcbWildlookup
  rw [wildLoop_none]
  cases hf : firstMatch q list 0 with
  | none =>
    refine ⟨fun _ _ _ h => (nomatch h), fun _ => ⟨?_, nofun⟩⟩
    exact iff_of_true rfl ((firstMatch_eq_none 0).mp hf)
  | some m =>
    obtain ⟨pcb, n⟩ := m
    obtain ⟨hmem, hc⟩ := firstMatch_eq_some hf
    by_cases hn : n < 3
    · rw [filter_some_pos (by simpa using hn)]
      constructor
      · rintro h p k ⟨⟩
        exact ⟨hn, (h.least pcb rfl).2.2⟩
      · intro h
        refine ⟨iff_of_false nofun fun hno => hno pcb hmem hc, ?_⟩
        rintro p ⟨⟩
        exact ⟨hmem, hc, (h pcb n rfl).2⟩
    · -- a compatible entry is missed
      rw [filter_some_neg (by simpa using hn)]
      exact iff_of_false (fun h => h.none_iff.mp rfl pcb hmem hc) fun h => hn (h pcb n rfl).1

end

/-- A connection from 10.0.0.1 to the port 80 of 10.0.0.2. -/
def webPcb : Pcb := ⟨0x0a000001, 1024, 0x0a000002, 80⟩

/-- A listener for any address hides the entry of the connection, which stands after it; and three
entries for another peer hide it altogether. -/
theorem pcbWildlookup_misses :
    ¬ MostSpecific webPcb [⟨0, 0, 0, 80⟩, webPcb] (pcbWildlookup webPcb [⟨0, 0, 0, 80⟩, webPcb]) ∧
    pcbWildlookup webPcb [⟨0x0a000003, 1, 0, 80⟩, ⟨0x0a000003, 2, 0, 80⟩, ⟨0x0a000003, 3, 0, 80⟩,
      webPcb] = none := by
  refine ⟨fun h => ?_, by decide⟩
  have hle := (h.least ⟨0, 0, 0, 80⟩ (by decide)).2.2 webPcb (by decide) (by decide)
  exact absurd hle (by decide)

end Net
