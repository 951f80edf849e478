import Mathlib.Data.List.Basic

/-!
# DHCP options

The search for an option in a DHCP message, `dhcp_get_option_ptr` of `dhcp.c`. It walks over the
options field, and is meant to go on in the fields `file` and `sname` when the overload option says
so. `HasOption` is the reading of RFC 2132. `Reads` is the walk as long as it keeps in step with
that reading; it gets out of step only at a padding byte in front of another byte than padding
(`Slips`), since padding is taken for an option with a length. The pointer that should receive the
overload byte is cleared on entry, so the other fields are never searched.
-/

namespace Dhcp

open List Option

variable {turns : Nat}

def DHCP_OPTION_PAD : UInt8 := 0
def DHCP_OPTION_OVERLOAD : UInt8 := 52
def DHCP_OPTION_END : UInt8 := 255

def DHCP_OVERLOAD_NONE : Nat := 0
def DHCP_OVERLOAD_FILE : Nat := 1
def DHCP_OVERLOAD_SNAME : Nat := 2

def DHCP_FILE_LEN : Nat := 128
def DHCP_SNAME_LEN : Nat := 64

/-! ## The search -/

/-- The end of a search in one field: where the option was found, the overload byte, and the offsets
of the bytes looked at. -/
structure Scan where
  found : Option Nat
  overload : Nat
  seen : List Nat

/-- The loop of `dhcp_find_option_ptr`, for at most the given number of turns, from the offset `n` of
a field that starts at `field` in the memory; `isOverloaded` says whether the pointer is not `NULL`. -/
def scanLoop (field : Nat → UInt8) (optionType : UInt8) (len : Nat) (isOverloaded : Bool) :
    Nat → Nat → Nat → List Nat → Option Scan
  | 0, _, _, _ => none
  | turns + 1, n, overload, seen =>
    if n < len then
      if field n = DHCP_OPTION_END then some ⟨none, overload, n :: seen⟩
      else if isOverloaded ∧ field n = DHCP_OPTION_OVERLOAD then
        scanLoop field optionType len isOverloaded turns (n + 3) (field (n + 2)).toNat
          ((n + 2) :: n :: seen)
      else if field n = optionType then some ⟨some n, overload, n :: seen⟩
      else
        scanLoop field optionType len isOverloaded turns (n + 1 + (field (n + 1)).toNat + 1) overload
          ((n + 1) :: n :: seen)
    else some ⟨none, overload, seen⟩

/-- `dhcp_find_option_ptr`. Its first statement assigns `DHCP_OVERLOAD_NONE` to the pointer
`is_overloaded` itself, which thereby is `NULL`. -/
def dhcpFindOptionPtr (field : Nat → UInt8) (optionType : UInt8) (len : Nat) (overload : Nat) :
    Option Scan :=
  let isOverloaded := decide (DHCP_OVERLOAD_NONE ≠ 0)
  scanLoop field optionType len isOverloaded (len + 1) 0 overload []

/-- The fields of `struct dhcp_msg` that hold options, each with the memory behind it. -/
structure DhcpMsg where
  sname : Nat → UInt8
  file : Nat → UInt8
  options : Nat → UInt8

inductive Field where
  | options | file | sname
  deriving DecidableEq

/-- The end of a search in a message. -/
structure Search where
  found : Option (Field × Nat)
  seen : List (Field × Nat)

/-- What a search in the field `f` says about the message, after the bytes `seen` before. -/
def Scan.search (s : Scan) (f : Field) (seen : List (Field × Nat)) : Search :=
  ⟨s.found.map fun n => (f, n), s.seen.map (fun n => (f, n)) ++ seen⟩

/-- `dhcp_get_option_ptr`. -/
def dhcpGetOptionPtr (msg : DhcpMsg) (optionType : UInt8) (len : Int) : Option Search :=
  if len ≤ 0 then some ⟨none, []⟩
  else do
    let s ← dhcpFindOptionPtr msg.options optionType len.toNat DHCP_OVERLOAD_NONE
    let got := s.search .options []
    if got.found.isSome then some got
    else if s.overload = DHCP_OVERLOAD_NONE then some got
    else if s.overload = DHCP_OVERLOAD_FILE then
      let s ← dhcpFindOptionPtr msg.file optionType DHCP_FILE_LEN DHCP_OVERLOAD_NONE
      some (s.search .file got.seen)
    else if s.overload = DHCP_OVERLOAD_SNAME then
      let s ← dhcpFindOptionPtr msg.sname optionType DHCP_SNAME_LEN DHCP_OVERLOAD_NONE
      some (s.search .sname got.seen)
    else
      let s ← dhcpFindOptionPtr msg.sname optionType DHCP_SNAME_LEN DHCP_OVERLOAD_NONE
      let got := s.search .sname got.seen
      if got.found.isSome then some got
      else
        let s ← dhcpFindOptionPtr msg.file optionType DHCP_FILE_LEN DHCP_OVERLOAD_NONE
        some (s.search .file got.seen)

/-! ## RFC 2132 -/

/-- The option `c` with the data `v` stands at the offset `n` of a list of options: padding is one
byte, the other options have a length byte and as many bytes of data, and the end option stops the
list. -/
inductive HasOption (c : UInt8) (v : List UInt8) : Nat → List UInt8 → Prop
  | here {l : UInt8} {r : List UInt8} (h : v.length = l.toNat) : HasOption c v 0 (c :: l :: (v ++ r))
  | pad {n : Nat} {r : List UInt8} (h : HasOption c v n r) :
      HasOption c v (n + 1) (DHCP_OPTION_PAD :: r)
  | skip {b l : UInt8} {d r : List UInt8} {n : Nat} (hp : b ≠ DHCP_OPTION_PAD)
      (he : b ≠ DHCP_OPTION_END) (hd : d.length = l.toNat) (h : HasOption c v n r) :
      HasOption c v (n + 2 + l.toNat) (b :: l :: (d ++ r))

/-- The first `n` bytes of a field. -/
def bytes (field : Nat → UInt8) (n : Nat) : List UInt8 := (List.range n).map field

/-- The overload option of the options field says that the field `f` holds options too. -/
def Overloads (options : List UInt8) : Field → Prop
  | .options => True
  | .file => ∃ n b, HasOption DHCP_OPTION_OVERLOAD [b] n options ∧ (b = 1 ∨ b = 3)
  | .sname => ∃ n b, HasOption DHCP_OPTION_OVERLOAD [b] n options ∧ (b = 2 ∨ b = 3)

/-- The bytes of the field `f` of a message with `len` bytes in the options field. -/
def DhcpMsg.field (msg : DhcpMsg) (len : Nat) : Field → List UInt8
  | .options => bytes msg.options len
  | .file => bytes msg.file DHCP_FILE_LEN
  | .sname => bytes msg.sname DHCP_SNAME_LEN

/-- The message has the option `c` at an offset of one of its fields. -/
def DhcpMsg.Contains (msg : DhcpMsg) (len : Nat) (c : UInt8) (p : Field × Nat) : Prop :=
  Overloads (msg.field len .options) p.1 ∧ ∃ v, HasOption c v p.2 (msg.field len p.1)

/-- The search is exact: it ends, it finds an occurrence of the option just if there is one, and it
looks only at bytes of the fields. -/
def Exact (msg : DhcpMsg) (c : UInt8) (len : Nat) : Prop :=
  ∃ s, dhcpGetOptionPtr msg c len = some s ∧ (∀ p, s.found = some p → msg.Contains len c p) ∧
    (s.found = none → ∀ p, ¬msg.Contains len c p) ∧
    ∀ p ∈ s.seen, p.2 < (msg.field len p.1).length

/-! ## Termination -/

section
variable {field : Nat → UInt8} {c : UInt8} {len : Nat} {overload : Nat}

/-- Each turn of the loop goes on by at least one byte. -/
theorem exists_scanLoop {isOverloaded : Bool} {n : Nat} (h : len - n < turns) (overload : Nat)
    (seen : List Nat) : ∃ s, scanLoop field c len isOverloaded turns n overload seen = some s := by
  induction turns generalizing n overload seen with
  | zero => omega
  | succ turns ih =>
    rw [scanLoop]
    split
    · split
      · exact ⟨_, rfl⟩
      · split
        · exact ih (by omega) _ _
        · split
          · exact ⟨_, rfl⟩
          · exact ih (by omega) _ _
    · exact ⟨_, rfl⟩

theorem exists_dhcpFindOptionPtr : ∃ s, dhcpFindOptionPtr field c len overload = some s :=
  exists_scanLoop (by omega) _ _

/-- The overload byte is never read. -/
theorem scanLoop_overload {n : Nat} {seen : List Nat} {s : Scan}
    (h : scanLoop field c len false turns n overload seen = some s) : s.overload = overload := by
  induction turns generalizing n seen with
  | zero => cases h
  | succ turns ih =>
    rw [scanLoop] at h
    split at h
    · split at h
      · cases h
        rfl
      · rw [if_neg (fun hc => nomatch hc.1)] at h
        split at h
        · cases h
          rfl
        · exact ih h
    · cases h
      rfl

/-- So the search ends with the options field. -/
theorem dhcpGetOptionPtr_eq (msg : DhcpMsg) (c : UInt8) (len : Int) :
    ∃ s, dhcpFindOptionPtr msg.options c len.toNat DHCP_OVERLOAD_NONE = some s ∧
      dhcpGetOptionPtr msg c len = some (if len ≤ 0 then ⟨none, []⟩ else s.search .options []) := by
  obtain ⟨s, hs⟩ : ∃ s, dhcpFindOptionPtr msg.options c len.toNat DHCP_OVERLOAD_NONE = some s :=
    exists_dhcpFindOptionPtr
  have hover : s.overload = DHCP_OVERLOAD_NONE := scanLoop_overload hs
  refine ⟨s, hs, ?_⟩
  unfold dhcpGetOptionPtr
  split
  · rfl
  · simp only [hs, bind_eq_bind, bind_some, hover, if_true, ite_self]

end

/-! ## The walk in step with the reading -/

/-- The search for `c` keeps in step with the reading of RFC 2132, up to the option `c`, the end option
or the end of the list; `ok` is false when it then returns an option that is cut off, or looks behind
the list for a length. -/
inductive Reads (c : UInt8) : List UInt8 → Bool → Prop
  | nil : Reads c [] true
  | stop (r : List UInt8) : Reads c (DHCP_OPTION_END :: r) true
  | here {l : UInt8} {d : List UInt8} (r : List UInt8) (hd : d.length = l.toNat) :
      Reads c (c :: l :: (d ++ r)) true
  | cut {r : List UInt8} (h : ∀ l d r', d.length = UInt8.toNat l → r ≠ l :: (d ++ r')) :
      Reads c (c :: r) false
  | last {b : UInt8} (hc : b ≠ c) (he : b ≠ DHCP_OPTION_END) : Reads c [b] false
  | short {b l : UInt8} {r : List UInt8} (hc : b ≠ c) (hp : b ≠ DHCP_OPTION_PAD)
      (he : b ≠ DHCP_OPTION_END) (hr : r.length < l.toNat) : Reads c (b :: l :: r) true
  | pads {r : List UInt8} {ok : Bool} (h : Reads c r ok) :
      Reads c (DHCP_OPTION_PAD :: DHCP_OPTION_PAD :: r) ok
  | skip {b l : UInt8} {d r : List UInt8} {ok : Bool} (hc : b ≠ c) (hp : b ≠ DHCP_OPTION_PAD)
      (he : b ≠ DHCP_OPTION_END) (hd : d.length = l.toNat) (h : Reads c r ok) :
      Reads c (b :: l :: (d ++ r)) ok

/-- The search for `c` comes to a padding byte with another byte than padding behind it. -/
inductive Slips (c : UInt8) : List UInt8 → Prop
  | here {l : UInt8} (r : List UInt8) (hl : l ≠ DHCP_OPTION_PAD) : Slips c (DHCP_OPTION_PAD :: l :: r)
  | pads {r : List UInt8} (h : Slips c r) : Slips c (DHCP_OPTION_PAD :: DHCP_OPTION_PAD :: r)
  | skip {b l : UInt8} {d r : List UInt8} (hc : b ≠ c) (he : b ≠ DHCP_OPTION_END)
      (hd : d.length = l.toNat) (h : Slips c r) : Slips c (b :: l :: (d ++ r))

section
variable {c : UInt8} {v : List UInt8} {n len : Nat}

/-- The walk keeps in step, or it comes to a padding byte that it misreads. -/
theorem slips_or_reads (hc : c ≠ DHCP_OPTION_PAD) (m : Nat) (x : List UInt8) (hx : x.length ≤ m) :
    Slips c x ∨ ∃ ok, Reads c x ok := by
  induction m generalizing x with
  | zero =>
    rw [length_eq_zero_iff.mp (Nat.le_zero.mp hx)]
    exact .inr ⟨_, .nil⟩
  | succ m ih =>
    rcases x with _ | ⟨b, r⟩
    · exact .inr ⟨_, .nil⟩
    by_cases he : b = DHCP_OPTION_END
    · subst he
      exact .inr ⟨_, .stop r⟩
    by_cases hbc : b = c
    · subst hbc
      by_cases hr : ∃ l d r', d.length = UInt8.toNat l ∧ r = l :: (d ++ r')
      · obtain ⟨l, d, r', hd, rfl⟩ := hr
        exact .inr ⟨_, .here r' hd⟩
      · exact .inr ⟨_, .cut fun l d r' hd h => hr ⟨l, d, r', hd, h⟩⟩
    rcases r with _ | ⟨l, r⟩
    · exact .inr ⟨_, .last hbc he⟩
    rw [length_cons, length_cons] at hx
    by_cases hp : b = DHCP_OPTION_PAD
    · subst hp
      by_cases hl : l = DHCP_OPTION_PAD
      · subst hl
        rcases ih r (by omega) with h | ⟨ok, h⟩
        · exact .inl (.pads h)
        · exact .inr ⟨ok, .pads h⟩
      · exact .inl (.here r hl)
    · rcases Nat.lt_or_ge r.length l.toNat with hr | hr
      · exact .inr ⟨_, .short hbc hp he hr⟩
      · have hd : (r.take l.toNat).length = l.toNat := by
          rw [length_take, Nat.min_eq_left hr]
        rw [← take_append_drop l.toNat r]
        rcases ih (r.drop l.toNat) (by rw [length_drop]; omega) with h | ⟨ok, h⟩
        · exact .inl (.skip hbc he hd h)
        · exact .inr ⟨ok, .skip hbc hp he hd h⟩

theorem not_hasOption_nil : ¬HasOption c v n [] := nofun

theorem not_hasOption_stop (hc : c ≠ DHCP_OPTION_END) {r : List UInt8} :
    ¬HasOption c v n (DHCP_OPTION_END :: r) := by
  intro h
  generalize hl : DHCP_OPTION_END :: r = l at h
  cases h with
  | here h => exact hc (List.cons.inj hl).1.symm
  | pad h => exact absurd (List.cons.inj hl).1 (by decide)
  | skip hp he hd h => exact he (List.cons.inj hl).1.symm

theorem hasOption_pad (hc : c ≠ DHCP_OPTION_PAD) {r : List UInt8}
    (h : HasOption c v n (DHCP_OPTION_PAD :: r)) : ∃ k, n = k + 1 ∧ HasOption c v k r := by
  generalize hl : DHCP_OPTION_PAD :: r = l at h
  cases h with
  | here h => exact absurd (List.cons.inj hl).1.symm hc
  | @pad k r' h =>
    cases (List.cons.inj hl).2
    exact ⟨k, rfl, h⟩
  | skip hp he hd h => exact absurd (List.cons.inj hl).1.symm hp

theorem hasOption_zero {b : UInt8} {r : List UInt8} (h : HasOption c v 0 (b :: r)) :
    ∃ l r', v.length = UInt8.toNat l ∧ r = l :: (v ++ r') := by
  generalize hn : 0 = n at h
  generalize hl : b :: r = l at h
  cases h with
  | @here l r' h => exact ⟨l, r', h, (List.cons.inj hl).2⟩
  | pad h => cases hn
  | skip hp he hd h => omega

/-- Another option is skipped when it is complete. -/
theorem hasOption_cons {b l : UInt8} {r : List UInt8} (hc : b ≠ c) (hp : b ≠ DHCP_OPTION_PAD)
    (h : HasOption c v n (b :: l :: r)) :
    ∃ d r' k, d.length = l.toNat ∧ r = d ++ r' ∧ n = k + 2 + l.toNat ∧ HasOption c v k r' := by
  generalize hx : b :: l :: r = x at h
  cases h with
  | here h => exact absurd (List.cons.inj hx).1 hc
  | pad h => exact absurd (List.cons.inj hx).1 hp
  | @skip b' l' d' r' k hp' he' hd' h =>
    obtain ⟨-, hx1⟩ := List.cons.inj hx
    obtain ⟨rfl, rfl⟩ := List.cons.inj hx1
    exact ⟨d', r', k, hd', rfl, rfl, h⟩

/-- What a search of `l` from the offset `n` of its field says, by the flag of `Reads`. -/
structure Finds (c : UInt8) (l : List UInt8) (n len : Nat) (seen : List Nat) (s : Scan) (ok : Bool) :
    Prop where
  missing : s.found = none → ∀ j v, ¬HasOption c v j l
  right : ok = true → (∀ k, s.found = some k → ∃ j v, k = n + j ∧ HasOption c v j l) ∧
    ∀ k ∈ s.seen, k ∈ seen ∨ k < len
  wrong : ok = false →
    (∃ j, s.found = some (n + j) ∧ ∀ v, ¬HasOption c v j l) ∨ ∃ k ∈ s.seen, len ≤ k

theorem mem_or_lt {k : Nat} {seen : List Nat} (hk : k ∈ n :: seen) (hn : n < len) :
    k ∈ seen ∨ k < len :=
  (mem_cons.mp hk).elim (fun he => .inr (he ▸ hn)) .inl

/-- Two bytes were looked at, and the search went on behind an option or two padding bytes. -/
theorem Finds.skip {x r : List UInt8} {m : Nat} {seen : List Nat} {s : Scan} {ok : Bool}
    (h : Finds c r (n + m) len ((n + 1) :: n :: seen) s ok) (hn : n + 1 < len)
    (hx : ∀ {k v}, HasOption c v k r → HasOption c v (k + m) x)
    (hr : ∀ {j v}, HasOption c v j x → ∃ k, j = k + m ∧ HasOption c v k r) :
    Finds c x n len seen s ok := by
  refine ⟨fun hnone j v hj => ?_, fun hok => ⟨fun k hk => ?_, fun k hk => ?_⟩, fun hok => ?_⟩
  · obtain ⟨k, -, hk⟩ := hr hj
    exact h.missing hnone k v hk
  · obtain ⟨j, v, rfl, hj⟩ := (h.right hok).1 k hk
    exact ⟨j + m, v, by omega, hx hj⟩
  · rcases (h.right hok).2 k hk with hk | hk
    · exact (mem_or_lt hk hn).elim (fun hk => mem_or_lt hk (by omega)) .inr
    · exact .inr hk
  · refine (h.wrong hok).imp_left ?_
    rintro ⟨j, hj, hnot⟩
    refine ⟨j + m, by rw [hj, Nat.add_assoc, Nat.add_comm m], fun v hv => ?_⟩
    obtain ⟨k, he, hk⟩ := hr hv
    rw [Nat.add_right_cancel he] at hnot
    exact hnot v hk

section
variable {field : Nat → UInt8} {overload : Nat} {seen : List Nat} {s : Scan}
  (h : scanLoop field c len false turns n overload seen = some s)
include h

theorem scanLoop_end (hn : len ≤ n) : s = ⟨none, overload, seen⟩ := by
  cases turns with
  | zero => cases h
  | succ turns =>
    rw [scanLoop, if_neg (by omega)] at h
    exact (some.inj h).symm

theorem scanLoop_stop (hn : n < len) (h0 : field n = DHCP_OPTION_END) :
    s = ⟨none, overload, n :: seen⟩ := by
  cases turns with
  | zero => cases h
  | succ turns =>
    rw [scanLoop, if_pos hn, if_pos h0] at h
    exact (some.inj h).symm

theorem scanLoop_here (hc : c ≠ DHCP_OPTION_END) (hn : n < len) (h0 : field n = c) :
    s = ⟨some n, overload, n :: seen⟩ := by
  cases turns with
  | zero => cases h
  | succ turns =>
    rw [scanLoop, if_pos hn, if_neg (by rwa [h0]), if_neg (fun hb => nomatch hb.1), if_pos h0] at h
    exact (some.inj h).symm

theorem scanLoop_skip (hn : n < len) (he : field n ≠ DHCP_OPTION_END) (hc : field n ≠ c) :
    ∃ turns, scanLoop field c len false turns (n + 1 + (field (n + 1)).toNat + 1) overload
      ((n + 1) :: n :: seen) = some s := by
  cases turns with
  | zero => cases h
  | succ turns =>
    rw [scanLoop, if_pos hn, if_neg he, if_neg (fun hb => nomatch hb.1), if_neg hc] at h
    exact ⟨turns, h⟩

end

theorem scanLoop_reads {field : Nat → UInt8} (hc : c ≠ DHCP_OPTION_PAD ∧ c ≠ DHCP_OPTION_END)
    {l : List UInt8} {ok : Bool} (hl : Reads c l ok) (hn : n + l.length = len)
    (hfield : ∀ i (hi : i < l.length), field (n + i) = l[i]) (overload : Nat) (seen : List Nat)
    {s : Scan} (h : scanLoop field c len false turns n overload seen = some s) :
    Finds c l n len seen s ok := by
  induction hl generalizing n turns seen with
  | nil =>
    rw [scanLoop_end h (Nat.le_of_eq hn.symm)]
    exact ⟨fun _ _ _ => not_hasOption_nil, fun _ => ⟨nofun, fun k hk => .inl hk⟩, nofun⟩
  | stop r =>
    rw [length_cons] at hn
    rw [scanLoop_stop h (by omega) (hfield 0 (Nat.succ_pos _))]
    exact ⟨fun _ _ _ => not_hasOption_stop hc.2, fun _ => ⟨nofun, fun k hk => mem_or_lt hk (by omega)⟩,
      nofun⟩
  | here r hd =>
    rw [length_cons] at hn
    rw [scanLoop_here h hc.2 (by omega) (hfield 0 (Nat.succ_pos _))]
    refine ⟨nofun, fun _ => ⟨fun k hk => ?_, fun k hk => mem_or_lt hk (by omega)⟩, nofun⟩
    cases hk
    exact ⟨0, _, rfl, .here hd⟩
  | @cut r hr =>
    rw [length_cons] at hn
    rw [scanLoop_here h hc.2 (by omega) (hfield 0 (Nat.succ_pos _))]
    refine ⟨nofun, nofun, fun _ => .inl ⟨0, rfl, fun v hv => ?_⟩⟩
    obtain ⟨l, r', hd, rfl⟩ := hasOption_zero hv
    exact hr l v r' hd rfl
  | @last b hbc he =>
    have h0 : field n = b := hfield 0 (Nat.succ_pos _)
    rw [length_singleton] at hn
    obtain ⟨turns, h⟩ := scanLoop_skip h (by omega) (by rwa [h0]) (by rwa [h0])
    rw [scanLoop_end h (by omega)]
    refine ⟨fun _ j v hj => ?_, nofun, fun _ => .inr ⟨n + 1, mem_cons_self, Nat.le_of_eq hn.symm⟩⟩
    generalize hx : [b] = x at hj
    cases hj with
    | here h => cases hx
    | pad h =>
      cases hx
      exact not_hasOption_nil h
    | skip hp he hd h => cases hx
  | @short b l r hbc hp he hr =>
    have h0 : field n = b := hfield 0 (Nat.succ_pos _)
    have h1 : field (n + 1) = l := hfield 1 (Nat.succ_lt_succ (Nat.succ_pos _))
    rw [length_cons, length_cons] at hn
    obtain ⟨turns, h⟩ := scanLoop_skip h (by omega) (by rwa [h0]) (by rwa [h0])
    rw [h1] at h
    rw [scanLoop_end h (by omega)]
    refine ⟨fun _ j v hj => ?_, fun _ => ⟨nofun, fun k hk => ?_⟩, nofun⟩
    · obtain ⟨d, r', k, hd, rfl, -⟩ := hasOption_cons hbc hp hj
      rw [length_append] at hr
      omega
    · exact (mem_or_lt hk (by omega)).elim (fun hk => mem_or_lt hk (by omega)) .inr
  | @pads r ok hr ih =>
    have h0 : field n = DHCP_OPTION_PAD := hfield 0 (Nat.succ_pos _)
    have h1 : field (n + 1) = DHCP_OPTION_PAD := hfield 1 (Nat.succ_lt_succ (Nat.succ_pos _))
    rw [length_cons, length_cons] at hn
    obtain ⟨turns, h⟩ := scanLoop_skip h (by omega) (by rw [h0]; decide) (by rw [h0]; exact hc.1.symm)
    rw [h1] at h
    have hrest : ∀ i (hi : i < r.length), field (n + 2 + i) = r[i] := by
      intro i hi
      rw [Nat.add_assoc, Nat.add_comm 2]
      exact hfield (i + 2) (by rw [length_cons, length_cons]; omega)
    refine (ih (by omega) hrest _ h).skip (by omega) (fun hk => .pad (.pad hk)) fun hj => ?_
    obtain ⟨i, rfl, hi⟩ := hasOption_pad hc.1 hj
    obtain ⟨k, rfl, hk⟩ := hasOption_pad hc.1 hi
    exact ⟨k, rfl, hk⟩
  | @skip b l d r ok hbc hp he hd hr ih =>
    have h0 : field n = b := hfield 0 (Nat.succ_pos _)
    have h1 : field (n + 1) = l := hfield 1 (Nat.succ_lt_succ (Nat.succ_pos _))
    simp only [length_cons, length_append, hd] at hn
    obtain ⟨turns, h⟩ := scanLoop_skip h (by omega) (by rwa [h0]) (by rwa [h0])
    rw [h1, show n + 1 + l.toNat + 1 = n + (2 + l.toNat) by omega] at h
    have hrest : ∀ i (hi : i < r.length), field (n + (2 + l.toNat) + i) = r[i] := by
      intro i hi
      have hi' : d.length + i + 1 + 1 < (b :: l :: (d ++ r)).length := by
        simp only [length_cons, length_append]
        omega
      rw [show n + (2 + l.toNat) + i = n + (d.length + i + 1 + 1) by omega, hfield _ hi']
      simp
    refine (ih (by omega) hrest _ h).skip (by omega) (fun hk => ?_) fun hj => ?_
    · rw [← Nat.add_assoc]
      exact .skip hp he hd hk
    · obtain ⟨d', r', k, hd', hx, rfl, hk⟩ := hasOption_cons hbc hp hj
      obtain ⟨-, rfl⟩ := append_inj hx (hd.trans hd'.symm)
      exact ⟨k, Nat.add_assoc .., hk⟩

theorem length_bytes (field : Nat → UInt8) (n : Nat) : (bytes field n).length = n := by
  simp [bytes]

/-- **The search is exact just if the options field is read to the end and has the option, or no other
field has it that the overload option names.**  This is for the fields in which the walk keeps in step;
in the others it misreads a padding byte. The search ends on all. -/
theorem option_search (msg : DhcpMsg) (c : UInt8) (hc : c ≠ DHCP_OPTION_PAD ∧ c ≠ DHCP_OPTION_END)
    (len : Nat) : (∃ s, dhcpGetOptionPtr msg c len = some s) ∧
    (Slips c (msg.field len .options) ∨ ∃ ok, Reads c (msg.field len .options) ok) ∧
    ∀ ok, Reads c (msg.field len .options) ok → (Exact msg c len ↔ ok = true ∧
      ((∃ n v, HasOption c v n (msg.field len .options)) ∨
        ∀ f, f ≠ .options → Overloads (msg.field len .options) f →
          ∀ n v, ¬HasOption c v n (msg.field len f))) := by
  obtain ⟨s, hs, hget⟩ := dhcpGetOptionPtr_eq msg c len
  refine ⟨⟨_, hget⟩, slips_or_reads hc.1 _ _ (Nat.le_refl _), fun ok hreads => ?_⟩
  have hF : Finds c (msg.field len .options) 0 len [] s ok := by
    refine scanLoop_reads hc hreads ?_ (fun i hi => ?_) _ _ hs
    · rw [DhcpMsg.field, length_bytes, Nat.zero_add]
    · simp [DhcpMsg.field, bytes]
  have hget' : dhcpGetOptionPtr msg c len = some (s.search .options []) := by
    rw [hget]
    split
    · obtain rfl : len = 0 := by omega
      rw [scanLoop_end hs (Nat.zero_le _)]
      rfl
    · rfl
  rw [Exact, hget']
  constructor
  · rintro ⟨r, hr, hfound, hnone, hseen⟩
    cases hr
    have hok : ok = true := by
      by_contra hok
      rcases hF.wrong (eq_false_of_ne_true hok) with ⟨j, hj, hnot⟩ | ⟨k, hk, hlen⟩
      · obtain ⟨-, v, hv⟩ := hfound (.options, 0 + j) (by rw [Scan.search, hj]; rfl)
        rw [Nat.zero_add] at hv
        exact hnot v hv
      · have := hseen (.options, k) (mem_append_left _ (mem_map_of_mem hk))
        rw [DhcpMsg.field, length_bytes] at this
        omega
    refine ⟨hok, ?_⟩
    cases hf : s.found with
    | some k =>
      obtain ⟨j, v, -, hj⟩ := (hF.right hok).1 k hf
      exact .inl ⟨j, v, hj⟩
    | none =>
      exact .inr fun f _ hover n v hv => hnone (by rw [Scan.search, hf]; rfl) (f, n) ⟨hover, v, hv⟩
  · rintro ⟨hok, hcase⟩
    refine ⟨_, rfl, fun p hp => ?_, fun hnone => ?_, fun p hp => ?_⟩
    · obtain ⟨k, hk, rfl⟩ := map_eq_some_iff.mp hp
      obtain ⟨j, v, rfl, hj⟩ := (hF.right hok).1 k hk
      rw [Nat.zero_add]
      exact ⟨trivial, v, hj⟩
    · have hmissing := hF.missing (map_eq_none_iff.mp hnone)
      rintro ⟨f, n⟩ ⟨hover, v, hv⟩
      by_cases hf : f = .options
      · subst hf
        exact hmissing n v hv
      · rcases hcase with ⟨j, v', hj⟩ | hcase
        · exact hmissing j v' hj
        · exact hcase f hf hover n v hv
    · rw [Scan.search, append_nil] at hp
      obtain ⟨k, hk, rfl⟩ := mem_map.mp hp
      rw [DhcpMsg.field, length_bytes]
      exact ((hF.right hok).2 k hk).resolve_left not_mem_nil

end

/-- A field that starts with the given bytes, with zeros behind them. -/
def fieldOf (l : List UInt8) (n : Nat) : UInt8 := l.getD n 0

/-- The message type, after two padding bytes and another option. -/
theorem option_search_type : ((53 : UInt8) ≠ DHCP_OPTION_PAD ∧ (53 : UInt8) ≠ DHCP_OPTION_END) ∧
    Exact ⟨fun _ => 0, fun _ => 0, fieldOf [0, 0, 1, 2, 9, 9, 53, 1, 5, 255]⟩ 53 10 := by
  refine ⟨by decide, ((option_search _ 53 (by decide) 10).2.2 true ?_).mpr
    ⟨rfl, .inl ⟨6, [5], ?_⟩⟩⟩
  · exact .pads (.skip (b := 1) (l := 2) (d := [9, 9]) (by decide) (by decide) (by decide) rfl
      (.here (d := [5]) [255] rfl))
  · exact .pad (.pad (.skip (b := 1) (l := 2) (d := [9, 9]) (by decide) (by decide) rfl (.here rfl)))

/-- Padding hides the message type that comes after it, and an option in the overloaded `file` field
is not found; the last byte of an options field makes the search look behind the field. -/
theorem option_search_misses :
    (∃ s, dhcpGetOptionPtr ⟨fun _ => 0, fun _ => 0, fieldOf [0, 53, 1, 5, 255]⟩ 53 5 = some s ∧
      s.found = none ∧
      DhcpMsg.Contains ⟨fun _ => 0, fun _ => 0, fieldOf [0, 53, 1, 5, 255]⟩ 5 53 (.options, 1)) ∧
    (∃ s, dhcpGetOptionPtr ⟨fun _ => 0, fieldOf [67, 1, 97, 255], fieldOf [52, 1, 1, 255]⟩ 67 4 =
        some s ∧ s.found = none ∧
      DhcpMsg.Contains ⟨fun _ => 0, fieldOf [67, 1, 97, 255], fieldOf [52, 1, 1, 255]⟩ 4 67
        (.file, 0)) ∧
    ∃ s, dhcpGetOptionPtr ⟨fun _ => 0, fun _ => 0, fieldOf [1]⟩ 53 1 = some s ∧
      (.options, 1) ∈ s.seen := by
  refine ⟨⟨_, rfl, rfl, trivial, [5], .pad (.here rfl)⟩, ⟨_, rfl, rfl, ?_, [97], .here rfl⟩,
    ⟨_, rfl, by decide⟩⟩
  exact ⟨0, 1, .here rfl, .inl rfl⟩

end Dhcp
