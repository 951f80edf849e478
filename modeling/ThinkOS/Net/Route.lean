import Mathlib.Data.List.Nodup
import ThinkOS.Net.Pcb

/-!
# The routing table

`ip_route.c`: a table of fixed length with the routes packed at its start, sorted by netmask, the
longest first. The netmasks are compared as they are stored, in network byte order; on a
little-endian machine this orders contiguous masks by their length. `__route_del` takes a match in
the last slot of a full table for the end of its search.
-/

namespace Net

open Function List Option

/-- `struct route`; a slot without an interface is free. -/
structure Route where
  dst : Addr
  gateway : Addr
  genmask : Addr
  ifn : Option Nat
  deriving DecidableEq

variable {used : List Route} {n : Nat}

namespace Route

/-- A slot that was never used or that `__route_del` has cleared. -/
def empty : Route := ⟨0, 0, 0, none⟩

/-- The route is one for the target. -/
def Matches (r : Route) (target : Addr) : Prop := target &&& r.genmask = r.dst

instance (r : Route) (target : Addr) : Decidable (r.Matches target) :=
  inferInstanceAs (Decidable (_ = _))

end Route

/-! ## The functions -/

/-- `__route_lookup`. -/
def routeLookup : List Route → Addr → Option Route
  | [], _ => none
  | p :: rest, target =>
    if p.ifn = none then none
    else if p.Matches target then some p
    else routeLookup rest target

/-- The second loop of `__route_del`, from the slot `p` on: the used slots after it move up. -/
def routeShift : List Route → List Route
  | [] => [Route.empty]
  | next :: rest => if next.ifn = none then Route.empty :: next :: rest else next :: routeShift rest

/-- `__route_del`, which fails with -1. `rest` has `i` slots when the search stops. -/
def routeDel : List Route → Addr → Option (List Route)
  | [], _ => none
  | p :: rest, dst =>
    if p.ifn = none then none
    else if dst = p.dst then
      if rest = [] then none else some (routeShift rest)
    else (routeDel rest dst).map (p :: ·)

/-- The number of used slots before the first free one, which has to be there. -/
def routeRoom : List Route → Option Nat
  | [] => none
  | p :: rest => if p.ifn = none then some 0 else (routeRoom rest).map (· + 1)

/-- The swapping loop of `__route_add`: `n` slots move down by one. -/
def routeSwap : Nat → List Route → Route → List Route
  | _, [], _ => []
  | 0, _ :: rest, new => new :: rest
  | n + 1, p :: rest, new => new :: routeSwap n rest p

/-- The search for the new route's place, and the rest of `__route_add` from there. -/
def routeInsert : List Route → Route → Option (List Route)
  | [], _ => none
  | p :: rest, new =>
    if p.genmask ≤ new.genmask then
      (routeRoom (p :: rest)).map fun n => routeSwap n (p :: rest) new
    else (routeInsert rest new).map (p :: ·)

/-- `__route_add`: the table after the call, and whether it returned 0. -/
def routeAdd (table : List Route) (new : Route) : List Route × Bool :=
  let table := (routeDel table new.dst).getD table
  match routeInsert table new with
  | some table => (table, true)
  | none => (table, false)

/-! ## Netmasks -/

/-- `htonl` on a little-endian machine. -/
def htonl (x : BitVec 32) : BitVec 32 :=
  x.extractLsb' 0 8 ++ x.extractLsb' 8 8 ++ x.extractLsb' 16 8 ++ x.extractLsb' 24 8

/-- The mask of a prefix with `n` bits, as it is stored. -/
def netmask (n : Nat) : Addr := htonl (BitVec.allOnes 32 <<< (32 - n))

/-- The stored masks are ordered as their lengths. -/
theorem netmask_le_iff : ∀ n ≤ 32, ∀ m ≤ 32, (netmask n ≤ netmask m ↔ n ≤ m) := by
  decide +kernel

/-! ## One call -/

/-- `k` free slots. -/
def freeSlots (k : Nat) : List Route := List.replicate k Route.empty

/-- The table holds the routes `used`, in this order, and then free slots. -/
structure Holds (table used : List Route) : Prop where
  packed : ∃ k, table = used ++ freeSlots k
  taken : ∀ r ∈ used, r.ifn ≠ none
  sorted : used.Pairwise fun r s => s.genmask ≤ r.genmask
  distinct : (used.map Route.dst).Nodup

/-- The last slot of a full table has the destination. -/
def AtLast (table : List Route) (dst : Addr) : Prop :=
  ∃ r, table.getLast? = some r ∧ r.ifn ≠ none ∧ r.dst = dst

section
variable {table a b : List Route} {new r : Route} {dst : Addr} {k : Nat}

theorem routeShift_append (ha : ∀ r ∈ a, r.ifn ≠ none) :
    routeShift (a ++ freeSlots k) = a ++ freeSlots (k + 1) := by
  induction a with
  | nil =>
    cases k with
    | zero => rfl
    | succ k => rfl
  | cons p a ih =>
    rw [List.cons_append, routeShift, if_neg (ha p List.mem_cons_self),
      ih fun r hr => ha r (List.mem_cons_of_mem p hr)]
    rfl

theorem routeDel_absent (hused : ∀ r ∈ used, r.ifn ≠ none) (hd : dst ∉ used.map Route.dst) :
    routeDel (used ++ freeSlots k) dst = none := by
  induction used with
  | nil =>
    cases k with
    | zero => rfl
    | succ k => rfl
  | cons p used ih =>
    rw [List.map_cons, List.mem_cons, not_or] at hd
    rw [List.cons_append, routeDel, if_neg (hused p List.mem_cons_self), if_neg hd.1,
      ih (fun r hr => hused r (List.mem_cons_of_mem p hr)) hd.2]
    rfl

theorem routeDel_present (ha : ∀ r ∈ a, r.ifn ≠ none) (hr : r.ifn ≠ none)
    (hb : ∀ r ∈ b, r.ifn ≠ none) (hd : r.dst ∉ a.map Route.dst) :
    routeDel (a ++ r :: b ++ freeSlots k) r.dst =
      if b ++ freeSlots k = [] then none else some (a ++ b ++ freeSlots (k + 1)) := by
  induction a with
  | nil =>
    show routeDel (r :: (b ++ freeSlots k)) r.dst = _
    rw [routeDel, if_neg hr, if_pos rfl, routeShift_append hb]
    rfl
  | cons p a ih =>
    rw [List.map_cons, List.mem_cons, not_or] at hd
    show routeDel (p :: (a ++ r :: b ++ freeSlots k)) r.dst = _
    rw [routeDel, if_neg (ha p List.mem_cons_self), if_neg hd.1,
      ih (fun r hr => ha r (List.mem_cons_of_mem p hr)) hd.2]
    split <;> rfl

theorem routeRoom_append (ha : ∀ r ∈ a, r.ifn ≠ none) :
    routeRoom (a ++ freeSlots k) = if k = 0 then none else some a.length := by
  induction a with
  | nil =>
    cases k with
    | zero => rfl
    | succ k => rfl
  | cons p a ih =>
    rw [List.cons_append, routeRoom, if_neg (ha p List.mem_cons_self),
      ih fun r hr => ha r (List.mem_cons_of_mem p hr)]
    split <;> rfl

theorem routeSwap_append :
    routeSwap a.length (a ++ freeSlots (k + 1)) new = new :: a ++ freeSlots k := by
  induction a generalizing new with
  | nil => rfl
  | cons p a ih =>
    show new :: routeSwap a.length (a ++ freeSlots (k + 1)) p = _
    rw [ih]
    rfl

/-- A new route goes before the first one whose mask is not longer. -/
theorem routeInsert_append (hused : ∀ r ∈ used, r.ifn ≠ none) :
    routeInsert (used ++ freeSlots (k + 1)) new =
      some (used.takeWhile (fun r => new.genmask < r.genmask) ++
        new :: used.dropWhile (fun r => new.genmask < r.genmask) ++ freeSlots k) := by
  induction used with
  | nil =>
    show routeInsert (Route.empty :: freeSlots k) new = _
    rw [routeInsert, if_pos (show Route.empty.genmask ≤ new.genmask from BitVec.le_def.mpr (Nat.zero_le _))]
    rfl
  | cons p used ih =>
    rw [List.cons_append, routeInsert]
    by_cases hle : p.genmask ≤ new.genmask
    · have hlt : decide (new.genmask < p.genmask) = false :=
        decide_eq_false (BitVec.not_lt.mpr hle)
      rw [if_pos hle, ← List.cons_append, routeRoom_append hused, if_neg (Nat.succ_ne_zero k),
        List.takeWhile_cons_of_neg (by simp [hlt]), List.dropWhile_cons_of_neg (by simp [hlt])]
      exact congrArg some routeSwap_append
    · have hlt : decide (new.genmask < p.genmask) = true :=
        decide_eq_true (BitVec.not_le.mp hle)
      rw [if_neg hle, ih fun r hr => hused r (List.mem_cons_of_mem p hr),
        List.takeWhile_cons_of_pos (by simpa using hlt),
        List.dropWhile_cons_of_pos (by simpa using hlt)]
      rfl

theorem routeInsert_full (hused : ∀ r ∈ used, r.ifn ≠ none) : routeInsert used new = none := by
  induction used with
  | nil => rfl
  | cons p used ih =>
    have hroom : routeRoom (p :: used) = none := by
      have := routeRoom_append (k := 0) hused
      rwa [freeSlots, List.replicate_zero, List.append_nil, if_pos rfl] at this
    rw [routeInsert, hroom, ih fun r hr => hused r (List.mem_cons_of_mem p hr)]
    split <;> rfl

theorem not_atLast {l : List Route} : ¬ AtLast (l ++ freeSlots (k + 1)) dst := by
  rintro ⟨r, hr, hifn, -⟩
  have hlast : (freeSlots (k + 1)).getLast? = some Route.empty := by
    simp [freeSlots, getLast?_replicate]
  rw [getLast?_append, hlast] at hr
  cases hr
  exact hifn rfl

/-- A route is in the last slot of a full table when nothing comes after it. -/
theorem atLast_iff (hr : r.ifn ≠ none) (hb : r.dst ∉ b.map Route.dst) :
    AtLast (a ++ r :: b ++ freeSlots k) r.dst ↔ b ++ freeSlots k = [] := by
  constructor
  · intro h
    cases k with
    | zero =>
      cases b with
      | nil => rfl
      | cons p b =>
        obtain ⟨s, hs, -, hdst⟩ := h
        have hmem : s ∈ p :: b := by
          rw [freeSlots, List.replicate_zero, List.append_nil,
            List.getLast?_append_of_ne_nil _ (by simp), List.getLast?_cons_cons] at hs
          exact List.mem_of_getLast? hs
        exact absurd (hdst ▸ List.mem_map_of_mem hmem) hb
    | succ k => exact absurd h not_atLast
  · intro h
    obtain ⟨rfl, hk⟩ := List.append_eq_nil_iff.mp h
    exact ⟨r, by rw [hk]; simp, hr, rfl⟩

/-- **`__route_del`** removes the route of a destination, unless this is in the last slot of a full
table. -/
theorem Holds.del (h : Holds table used) (dst : Addr) :
    (∃ used' k, routeDel table dst = some (used' ++ freeSlots (k + 1)) ∧
      Holds (used' ++ freeSlots (k + 1)) used' ∧
      (used' ++ freeSlots (k + 1)).length = table.length ∧
      (∀ r, r ∈ used' ↔ r ∈ used ∧ r.dst ≠ dst) ∧ dst ∈ used.map Route.dst ∧
      ¬ AtLast table dst) ∨
    (routeDel table dst = none ∧ (dst ∉ used.map Route.dst ∨ AtLast table dst)) := by
  obtain ⟨k, rfl⟩ := h.packed
  by_cases hd : dst ∈ used.map Route.dst
  · obtain ⟨r, hr, rfl⟩ := mem_map.mp hd
    obtain ⟨a, b, rfl⟩ := append_of_mem hr
    have hdist := h.distinct
    rw [map_append, map_cons, nodup_middle, nodup_cons, ← map_append]
      at hdist
    have hra : r.dst ∉ a.map Route.dst := fun hm => hdist.1 (by simp_all)
    have hrb : r.dst ∉ b.map Route.dst := fun hm => hdist.1 (by simp_all)
    have htaken : ∀ s ∈ a ++ b, s.ifn ≠ none := fun s hs => h.taken s (by
      simp only [mem_append, mem_cons] at hs ⊢
      tauto)
    have hdel := routeDel_present (k := k) (fun s hs => htaken s (mem_append_left b hs))
      (h.taken r (by simp)) (fun s hs => htaken s (mem_append_right a hs)) hra
    have hlast := atLast_iff (a := a) (k := k) (h.taken r (by simp)) hrb
    by_cases hnil : b ++ freeSlots k = []
    · exact .inr ⟨by rw [hdel, if_pos hnil], .inr (hlast.mpr hnil)⟩
    · refine .inl ⟨a ++ b, k, by rw [hdel, if_neg hnil], ⟨⟨k + 1, rfl⟩, htaken, ?_, hdist.2⟩, ?_,
        ?_, hd, fun hl => hnil (hlast.mp hl)⟩
      · exact h.sorted.sublist (by simp)
      · simp [freeSlots]
        omega
      · intro s
        constructor
        · intro hs
          refine ⟨by simp only [mem_append, mem_cons] at hs ⊢; tauto, fun hne => ?_⟩
          exact hdist.1 (hne ▸ mem_map_of_mem hs)
        · rintro ⟨hs, hne⟩
          simp only [mem_append, mem_cons] at hs ⊢
          rcases hs with hs | rfl | hs
          · exact .inl hs
          · exact absurd rfl hne
          · exact .inr hs
  · exact .inr ⟨routeDel_absent h.taken hd, .inl hd⟩

theorem sorted_insert (h : used.Pairwise fun r s => s.genmask ≤ r.genmask) :
    (used.takeWhile (fun r => new.genmask < r.genmask) ++
      new :: used.dropWhile (fun r => new.genmask < r.genmask)).Pairwise
        fun r s => s.genmask ≤ r.genmask := by
  induction used with
  | nil => simp
  | cons p used ih =>
    obtain ⟨hp, hused⟩ := List.pairwise_cons.mp h
    by_cases hlt : new.genmask < p.genmask
    · rw [List.takeWhile_cons_of_pos (by simpa using hlt),
        List.dropWhile_cons_of_pos (by simpa using hlt), List.cons_append, List.pairwise_cons]
      refine ⟨fun s hs => ?_, ih hused⟩
      rw [List.perm_middle.mem_iff, List.takeWhile_append_dropWhile, List.mem_cons] at hs
      rcases hs with rfl | hs
      · exact BitVec.le_of_lt hlt
      · exact hp s hs
    · rw [List.takeWhile_cons_of_neg (by simpa using hlt),
        List.dropWhile_cons_of_neg (by simpa using hlt), List.nil_append, List.pairwise_cons]
      refine ⟨fun s hs => ?_, h⟩
      rcases List.mem_cons.mp hs with rfl | hs
      · exact BitVec.not_lt.mp hlt
      · exact BitVec.le_trans (hp s hs) (BitVec.not_lt.mp hlt)

/-- A route with a new destination goes to its place by the mask. -/
theorem Holds.insert (h : Holds (used ++ freeSlots (k + 1)) used) (hnew : new.ifn ≠ none)
    (hd : new.dst ∉ used.map Route.dst) :
    ∃ table' used', routeInsert (used ++ freeSlots (k + 1)) new = some table' ∧
      Holds table' used' ∧ table'.length = (used ++ freeSlots (k + 1)).length ∧
      ∀ r, r ∈ used' ↔ r = new ∨ r ∈ used := by
  set longer : Route → Bool := fun r => new.genmask < r.genmask with hlonger
  have hsplit : used.takeWhile longer ++ used.dropWhile longer = used :=
    takeWhile_append_dropWhile
  have hperm : (used.takeWhile longer ++ new :: used.dropWhile longer).Perm (new :: used) := by
    have hmid : (used.takeWhile longer ++ new :: used.dropWhile longer).Perm
        (new :: (used.takeWhile longer ++ used.dropWhile longer)) := perm_middle
    rwa [hsplit] at hmid
  refine ⟨_, used.takeWhile longer ++ new :: used.dropWhile longer,
    routeInsert_append h.taken, ⟨⟨k, rfl⟩, ?_, ?_, ?_⟩, ?_, ?_⟩
  · intro r hr
    rcases mem_cons.mp (hperm.mem_iff.mp hr) with rfl | hr
    · exact hnew
    · exact h.taken r hr
  · exact sorted_insert h.sorted
  · rw [(hperm.map Route.dst).nodup_iff, map_cons, nodup_cons]
    exact ⟨hd, h.distinct⟩
  · rw [length_append, hperm.length_eq]
    simp [freeSlots]
    omega
  · intro r
    rw [hperm.mem_iff, mem_cons]

/-- **`__route_add`** puts the route in the place of that with its destination, or changes nothing
when there is no free slot. -/
theorem Holds.add (h : Holds table used) (hnew : new.ifn ≠ none) :
    (∃ table' used', routeAdd table new = (table', true) ∧ Holds table' used' ∧
      table'.length = table.length ∧ ∀ r, r ∈ used' ↔ r = new ∨ r ∈ used ∧ r.dst ≠ new.dst) ∨
    (routeAdd table new = (table, false) ∧ table = used) := by
  rcases h.del new.dst with ⟨used1, k, hdel, h1, hlen, hmem, -, -⟩ | ⟨hdel, hwhy⟩
  · have hd : new.dst ∉ used1.map Route.dst := by
      intro hd
      obtain ⟨r, hr, hrd⟩ := mem_map.mp hd
      exact ((hmem r).mp hr).2 hrd
    obtain ⟨table', used', hins, h', hlen', hmem'⟩ := h1.insert hnew hd
    refine .inl ⟨table', used', ?_, h', hlen'.trans hlen, fun r => by rw [hmem', hmem]⟩
    simp only [routeAdd, hdel, getD_some, hins]
  · have hadd : routeAdd table new = match routeInsert table new with
        | some table => (table, true)
        | none => (table, false) := by
      simp only [routeAdd, hdel, getD_none]
    obtain ⟨k, rfl⟩ := h.packed
    cases k with
    | zero =>
      have hnil : used ++ freeSlots 0 = used := append_nil used
      refine .inr ⟨?_, hnil⟩
      rw [hadd, hnil, routeInsert_full h.taken]
    | succ k =>
      have hd : new.dst ∉ used.map Route.dst := by
        rcases hwhy with hd | hlast
        · exact hd
        · exact absurd hlast not_atLast
      obtain ⟨table', used', hins, h', hlen', hmem'⟩ := h.insert hnew hd
      refine .inl ⟨table', used', by rw [hadd, hins], h', hlen', fun r => ?_⟩
      rw [hmem']
      constructor
      · rintro (rfl | hr)
        · exact .inl rfl
        · exact .inr ⟨hr, fun hne => hd (hne ▸ mem_map_of_mem hr)⟩
      · rintro (rfl | ⟨hr, -⟩)
        · exact .inl rfl
        · exact .inr hr

/-- `__route_lookup` finds the first route that matches. -/
theorem Holds.lookup (h : Holds table used) (target : Addr) :
    routeLookup table target = used.find? fun r => r.Matches target := by
  obtain ⟨k, rfl⟩ := h.packed
  have htaken := h.taken
  clear h
  induction used with
  | nil =>
    cases k with
    | zero => rfl
    | succ k => rfl
  | cons p used ih =>
    rw [List.cons_append, routeLookup, if_neg (htaken p List.mem_cons_self), List.find?_cons,
      ih fun r hr => htaken r (List.mem_cons_of_mem p hr)]
    by_cases hm : p.Matches target <;> simp [hm]

/-- In a sorted list the first match has the longest mask. -/
theorem find?_longest {target : Addr} (h : used.Pairwise fun r s => s.genmask ≤ r.genmask)
    (hr : used.find? (fun r => r.Matches target) = some r) {s : Route} (hs : s ∈ used)
    (hm : s.Matches target) : s.genmask ≤ r.genmask := by
  induction used with
  | nil => cases hr
  | cons p used ih =>
    obtain ⟨hp, hused⟩ := List.pairwise_cons.mp h
    by_cases hpm : p.Matches target
    · rw [List.find?_cons_of_pos (by simpa using hpm)] at hr
      cases hr
      rcases List.mem_cons.mp hs with rfl | hs
      · exact BitVec.le_refl _
      · exact hp s hs
    · rw [List.find?_cons_of_neg (by simpa using hpm)] at hr
      rcases List.mem_cons.mp hs with rfl | hs
      · exact absurd hm hpm
      · exact ih hused hr hs

end

/-! ## Histories -/

inductive RouteOp where
  | add (new : Route)
  | del (dst : Addr)

/-- The calls that are meant: a route has an interface and a contiguous netmask. -/
def RouteOp.Proper : RouteOp → Prop
  | .add new => new.ifn ≠ none ∧ ∃ n ≤ 32, new.genmask = netmask n
  | .del _ => True

/-- The table, and by destination the routes that were added and neither deleted nor replaced. -/
structure Routes where
  table : List Route
  now : Addr → Option Route

variable {s : Routes}

namespace Routes

/-- `IP_ROUTE_TABLE_LEN` free slots. -/
def init (n : Nat) : Routes := ⟨freeSlots n, fun _ => none⟩

/-- A call; one that fails adds or deletes nothing. -/
def step (s : Routes) : RouteOp → Routes
  | .add new =>
    let (table, ok) := routeAdd s.table new
    ⟨table, if ok then Function.update s.now new.dst (some new) else s.now⟩
  | .del dst =>
    match routeDel s.table dst with
    | some table => ⟨table, Function.update s.now dst none⟩
    | none => s

def run (n : Nat) (ops : List RouteOp) : Routes := ops.foldl step (init n)

/-- What the table is for. -/
structure Serves (n : Nat) (s : Routes) : Prop where
  /-- The slots in use are the first ones. -/
  packed : ∃ k ≤ n, ∀ (i : Nat) (r : Route), s.table[i]? = some r → (r.ifn = none ↔ k ≤ i)
  length : s.table.length = n
  /-- The slots in use hold the routes added and neither deleted nor replaced. -/
  holds : ∀ r, (r ∈ s.table ∧ r.ifn ≠ none ↔ s.now r.dst = some r)
  /-- An add fails only when all slots are in use, by as many destinations, and changes nothing. -/
  add : ∀ new, RouteOp.Proper (.add new) → (routeAdd s.table new).2 = false →
    (routeAdd s.table new).1 = s.table ∧
      ∃ dsts : List Addr, dsts.Nodup ∧ dsts.length = n ∧ ∀ d ∈ dsts, (s.now d).isSome
  /-- A delete succeeds for the destinations in use, but for that in the last slot of a full table. -/
  del : ∀ dst, (routeDel s.table dst).isSome ↔ (s.now dst).isSome ∧ ¬ AtLast s.table dst
  /-- A lookup finds a match with the longest netmask. -/
  longest : ∀ target r, routeLookup s.table target = some r →
    s.now r.dst = some r ∧ r.Matches target ∧ ∀ r', s.now r'.dst = some r' → r'.Matches target →
        ∃ i ≤ 32, ∃ j ≤ 32, r.genmask = netmask i ∧ r'.genmask = netmask j ∧ j ≤ i
  none_iff : ∀ target, routeLookup s.table target = none ↔
    ∀ r, s.now r.dst = some r → ¬ r.Matches target

/-- The table holds the routes `used`. -/
structure Keeps (n : Nat) (s : Routes) (used : List Route) : Prop where
  holds : Holds s.table used
  length : s.table.length = n
  now : ∀ dst r, s.now dst = some r ↔ r ∈ used ∧ r.dst = dst
  masks : ∀ r ∈ used, ∃ i ≤ 32, r.genmask = netmask i

theorem keeps_init : (init n).Keeps n [] where
  holds := ⟨⟨n, rfl⟩, nofun, List.Pairwise.nil, nodup_nil⟩
  length := by simp [init, freeSlots]
  now := by simp [init]
  masks := nofun

theorem Keeps.step {op : RouteOp} (h : s.Keeps n used) (hop : op.Proper) :
    ∃ used', (s.step op).Keeps n used' := by
  cases op with
  | add new =>
    obtain ⟨hifn, hmask⟩ := hop
    rcases h.holds.add hifn with ⟨table', used', hadd, hholds, hlen, hmem⟩ | ⟨hadd, -⟩
    · have hstep : s.step (.add new) = ⟨table', update s.now new.dst (some new)⟩ := by
        simp only [Routes.step, hadd, if_true]
      refine ⟨used', ?_⟩
      rw [hstep]
      refine ⟨hholds, hlen.trans h.length, fun dst r => ?_, fun r hr => ?_⟩
      · show update s.now new.dst (some new) dst = some r ↔ _
        by_cases hd : dst = new.dst
        · subst hd
          rw [update_self, hmem]
          constructor
          · rintro ⟨⟩
            exact ⟨.inl rfl, rfl⟩
          · rintro ⟨rfl | ⟨-, hne⟩, hd⟩
            · rfl
            · exact absurd hd hne
        · rw [update_of_ne hd, h.now, hmem]
          constructor
          · rintro ⟨hr, rfl⟩
            exact ⟨.inr ⟨hr, hd⟩, rfl⟩
          · rintro ⟨rfl | ⟨hr, -⟩, rfl⟩
            · exact absurd rfl hd
            · exact ⟨hr, rfl⟩
      · rcases (hmem r).mp hr with rfl | ⟨hr, -⟩
        · exact hmask
        · exact h.masks r hr
    · have hstep : s.step (.add new) = s := by
        simp only [Routes.step, hadd]
        rfl
      exact ⟨used, by rw [hstep]; exact h⟩
  | del dst =>
    rcases h.holds.del dst with ⟨used', k, hdel, hholds, hlen, hmem, -, -⟩ | ⟨hdel, -⟩
    · have hstep : s.step (.del dst) = ⟨used' ++ freeSlots (k + 1), update s.now dst none⟩ := by
        simp only [Routes.step, hdel]
      refine ⟨used', ?_⟩
      rw [hstep]
      refine ⟨hholds, hlen.trans h.length, fun d r => ?_, fun r hr => h.masks r ((hmem r).mp hr).1⟩
      show update s.now dst none d = some r ↔ _
      by_cases hd : d = dst
      · subst hd
        rw [update_self, hmem]
        exact iff_of_false nofun fun h => h.1.2 h.2
      · rw [update_of_ne hd, h.now, hmem]
        constructor
        · rintro ⟨hr, rfl⟩
          exact ⟨⟨hr, hd⟩, rfl⟩
        · rintro ⟨⟨hr, -⟩, rfl⟩
          exact ⟨hr, rfl⟩
    · have hstep : s.step (.del dst) = s := by
        simp only [Routes.step, hdel]
      exact ⟨used, by rw [hstep]; exact h⟩

theorem Keeps.serves (h : s.Keeps n used) : s.Serves n := by
  have hnow : ∀ r, s.now r.dst = some r ↔ r ∈ used := fun r => by simp [h.now]
  have hsome : ∀ dst, (s.now dst).isSome ↔ dst ∈ used.map Route.dst := by
    intro dst
    rw [Option.isSome_iff_exists, List.mem_map]
    exact exists_congr fun r => h.now dst r
  obtain ⟨k, hk⟩ := h.holds.packed
  refine ⟨⟨used.length, ?_, fun i r hi => ?_⟩, h.length, fun r => ?_, fun new hop hadd => ?_,
    fun dst => ?_, fun target r hr => ?_, fun target => ?_⟩
  · rw [← h.length, hk, List.length_append]
    exact Nat.le_add_right _ _
  · rw [hk] at hi
    rcases Nat.lt_or_ge i used.length with hlt | hge
    · rw [List.getElem?_append_left hlt] at hi
      exact iff_of_false (h.holds.taken r (List.mem_of_getElem? hi)) (by omega)
    · rw [List.getElem?_append_right hge] at hi
      have hr : r = Route.empty := List.eq_of_mem_replicate (List.mem_of_getElem? hi)
      exact iff_of_true (by rw [hr]; rfl) hge
  · rw [hnow, hk, List.mem_append]
    constructor
    · rintro ⟨hr | hr, hifn⟩
      · exact hr
      · exact absurd (by rw [List.eq_of_mem_replicate hr]; rfl) hifn
    · exact fun hr => ⟨.inl hr, h.holds.taken r hr⟩
  · rcases h.holds.add hop.1 with ⟨_, _, hok, -, -, -⟩ | ⟨hno, hfull⟩
    · rw [hok] at hadd
      cases hadd
    · refine ⟨by rw [hno], used.map Route.dst, h.holds.distinct, ?_, fun d hd => (hsome d).mpr hd⟩
      rw [List.length_map, ← hfull, h.length]
  · rcases h.holds.del dst with ⟨_, _, hdel, -, -, -, hd, hlast⟩ | ⟨hdel, hwhy⟩
    · exact iff_of_true (by rw [hdel]; rfl) ⟨(hsome dst).mpr hd, hlast⟩
    · refine iff_of_false (by rw [hdel]; exact Bool.false_ne_true) fun hd => ?_
      rcases hwhy with hno | hlast
      · exact hno ((hsome dst).mp hd.1)
      · exact hd.2 hlast
  · rw [h.holds.lookup] at hr
    have hmem := List.mem_of_find?_eq_some hr
    refine ⟨(hnow r).mpr hmem, by simpa using List.find?_some hr, fun r' hr' hm => ?_⟩
    obtain ⟨i, hi, hir⟩ := h.masks r hmem
    obtain ⟨j, hj, hjr⟩ := h.masks r' ((hnow r').mp hr')
    have hle := find?_longest h.holds.sorted hr ((hnow r').mp hr') hm
    rw [hir, hjr] at hle
    exact ⟨i, hi, j, hj, hir, hjr, (netmask_le_iff j hj i hi).mp hle⟩
  · rw [h.holds.lookup, List.find?_eq_none]
    exact forall_congr' fun r => by rw [hnow]; simp

end Routes

open Routes in
/-- **The table serves longest-prefix routing after every history of calls.** -/
theorem routes_serve (n : Nat) (ops : List RouteOp) (h : ∀ op ∈ ops, op.Proper) :
    (Routes.run n ops).Serves n := by
  have hkeeps : ∀ (ops : List RouteOp) (s : Routes) (used : List Route), (∀ op ∈ ops, op.Proper) →
      s.Keeps n used → ∃ used', (ops.foldl Routes.step s).Keeps n used' := by
    intro ops
    induction ops with
    | nil => exact fun s used _ hs => ⟨used, hs⟩
    | cons op ops ih =>
      intro s used hops hs
      obtain ⟨used1, h1⟩ := hs.step (hops op mem_cons_self)
      exact ih (s.step op) used1 (fun o ho => hops o (mem_cons_of_mem op ho)) h1
  obtain ⟨used, hused⟩ := hkeeps ops (Routes.init n) [] h keeps_init
  exact hused.serves

/-- A history that fills a table of four slots: a host, two networks and the default route. -/
def fourRoutes : List RouteOp :=
  [.add ⟨htonl 0xc0a80105, 0, netmask 32, some 1⟩, .add ⟨htonl 0xc0a80100, 0, netmask 24, some 1⟩,
    .add ⟨htonl 0x0a000000, 0, netmask 8, some 2⟩, .add ⟨0, htonl 0xc0a80101, netmask 0, some 1⟩]

theorem routes_serve_four : (Routes.run 4 fourRoutes).Serves 4 := by
  refine routes_serve 4 fourRoutes fun op hop => ?_
  simp only [fourRoutes, mem_cons, not_mem_nil, or_false] at hop
  rcases hop with rfl | rfl | rfl | rfl <;> exact ⟨nofun, _, by decide, rfl⟩

/-- The default route is in the table, and cannot be deleted. -/
theorem last_route_stays : routeLookup (Routes.run 4 fourRoutes).table (htonl 0x08080808) =
      some ⟨0, htonl 0xc0a80101, netmask 0, some 1⟩ ∧
    routeDel (Routes.run 4 fourRoutes).table 0 = none := by
  decide

end Net
