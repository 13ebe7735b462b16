/-
`distance_vector_routing.c`: the routing tables, one relaxation, one round of the
exchange, and the loop that repeats rounds until one changes nothing.

The program updates the tables in place, so a router reads what another one wrote
earlier in the same round. That is why the rounds are not measured against the
tables of the round before but against the links: after `t` rounds an entry is no
dearer than any walk of at most `t + 1` edges (`Within`), whatever was read when.

The relaxation asks for `cost_matrix[i][k] > 0`, which keeps a router from being its
own neighbour and, with it, every link of cost zero. The invariant is therefore
stated for the links the relaxation can use towards a destination `j`
(`RelaxLink j`): a link of cost zero counts only when it ends in `j`, where the
initial table has it. With positive links this is all of them, and
`converged_cost` is the usual shortest path; with links of cost zero it is what the
program computes instead.
-/
import CourseLabs.CInt
import CourseLabs.CLoop
import CourseLabs.PathMath
import Mathlib.Tactic.IntervalCases

set_option autoImplicit false

namespace CourseLabs.DistanceVector

open CourseLabs.CInt CourseLabs.CLoop CourseLabs.PathMath

/-! ## The program -/

/-- The size of the static tables, and so the largest number of routers they have room for; `main`
uses four. -/
def MAX_NODES : ℕ := 10

/-- The cost of a destination no router knows a way to, and of an absent link. -/
def INF : ℤ := 9999

/-- `struct RoutingEntry`: what a router knows about one destination, the cost and the neighbor to
send to, which is `-1` while there is none. -/
structure RoutingEntry where
  cost : ℤ
  next_hop : ℤ
deriving DecidableEq, Repr

/-- `struct Router routers[MAX_NODES]`: `routers i j` is `routers[i].table[j]`. -/
abbrev Routers : Type := ℕ → ℕ → RoutingEntry

/-- `routers[i].table[j] = e`: one entry is replaced, in the table of one router, and the exchange
goes on with the new one at once. -/
def setEntry (routers : Routers) (i j : ℕ) (e : RoutingEntry) : Routers :=
  fun i' j' => if i' = i ∧ j' = j then e else routers i' j'

/-- Initialization: each router only knows direct neighbor link costs. The next hop is the
destination itself where there is a link, and `-1` elsewhere. -/
def initialise (n : ℕ) (cost_matrix : ℕ → ℕ → ℤ) (routers : Routers) : Option Routers :=
  forLoop 0 n routers fun i routers =>
    forLoop 0 n routers fun j routers =>
      some (setEntry routers i j
        { cost := cost_matrix i j
          next_hop := if cost_matrix i j ≠ INF ∧ i ≠ j then (j : ℤ) else -1 })

/-- The body of the innermost loop: router `i` hears `k`'s vector about `j`. The flag
is `updated`. -/
def relax (cost_matrix : ℕ → ℕ → ℤ) (i j k : ℕ) (s : Routers × Bool) :
    Option (Routers × Bool) :=
  if cost_matrix i k ≠ INF ∧ cost_matrix i k > 0 then do
    let candidate_cost ← int32 (cost_matrix i k + (s.1 k j).cost)
    if candidate_cost < (s.1 i j).cost then
      some (setEntry s.1 i j { cost := candidate_cost, next_hop := (k : ℤ) }, true)
    else
      some s
  else
    some s

/-- One round: every router `i`, every destination `j ≠ i`, every neighbor `k`. -/
def exchange_round (n : ℕ) (cost_matrix : ℕ → ℕ → ℤ) (s : Routers × Bool) :
    Option (Routers × Bool) :=
  forLoop 0 n s fun i s =>
    forLoop 0 n s fun j s =>
      if i = j then some s
      else forLoop 0 n s fun k s => relax cost_matrix i j k s

/-- The body of `while (updated)`; the state is `routers`, `updated`, `iteration`. -/
def exchange_body (n : ℕ) (cost_matrix : ℕ → ℕ → ℤ) (s : Routers × Bool × ℕ) :
    Option (Pass (Routers × Bool × ℕ) (Routers × ℕ)) :=
  if s.2.1 then do
    let (routers, updated) ← exchange_round n cost_matrix (s.1, false)
    some (.next (routers, updated, s.2.2 + 1))
  else
    some (.done (s.1, s.2.2))

/-- `main`, from the uninitialised tables to the tables and the iteration count at the
end of the exchange. -/
def distance_vector (n : ℕ) (cost_matrix : ℕ → ℕ → ℤ) (routers : Routers) :
    Option (Routers × ℕ) := do
  let routers ← initialise n cost_matrix routers
  loop (exchange_body n cost_matrix) (routers, true, 0)

/-- The entry that was set. -/
@[simp] theorem setEntry_same (routers : Routers) (i j : ℕ) (e : RoutingEntry) :
    setEntry routers i j e i j = e := by
  rw [setEntry, if_pos ⟨rfl, rfl⟩]

/-- Every other entry is as before: those of the other routers, and those of the same router for
other destinations. -/
theorem setEntry_other {routers : Routers} {i j i' j' : ℕ} {e : RoutingEntry}
    (h : ¬ (i' = i ∧ j' = j)) : setEntry routers i j e i' j' = routers i' j' := by
  rw [setEntry, if_neg h]

/-! ## Links -/

/-- The link matrices of the program: a zero diagonal, and off it `INF` or a cost of
`0` to `9998`. -/
structure Links (n : ℕ) (cost_matrix : ℕ → ℕ → ℤ) : Prop where
  diag : ∀ i, i < n → cost_matrix i i = 0
  range : ∀ i j, i < n → j < n → i ≠ j → 0 ≤ cost_matrix i j ∧ cost_matrix i j ≤ INF

/-- An existing link from `u` to `v`, with its cost as a natural number, since the walks of the
abstract graph are measured in these. -/
def Link (n : ℕ) (cost_matrix : ℕ → ℕ → ℤ) (u v c : ℕ) : Prop :=
  u < n ∧ v < n ∧ u ≠ v ∧ cost_matrix u v ≠ INF ∧ cost_matrix u v = c

/-- A link a relaxation towards `j` can use: one of positive cost, or one into `j`. -/
def RelaxLink (n : ℕ) (cost_matrix : ℕ → ℕ → ℤ) (j u v c : ℕ) : Prop :=
  Link n cost_matrix u v c ∧ (0 < c ∨ v = j)

section Tables

variable {n : ℕ} {cost_matrix : ℕ → ℕ → ℤ}

/-- A neighbor in the sense of the relaxation is a link of positive cost. -/
theorem Links.link_of_usable (hl : Links n cost_matrix) {i k : ℕ} (hi : i < n) (hk : k < n)
    (hne : cost_matrix i k ≠ INF) (hpos : cost_matrix i k > 0) :
    ∃ c : ℕ, cost_matrix i k = c ∧ 0 < c ∧ Link n cost_matrix i k c := by
  have hik : i ≠ k := by
    rintro rfl
    rw [hl.diag i hi] at hpos
    exact absurd hpos (by decide)
  obtain ⟨c, hc⟩ := Int.eq_ofNat_of_zero_le (le_of_lt hpos)
  exact ⟨c, hc, by omega, hi, hk, hik, hne, hc⟩

/-! ## The invariant of a table

`real` is soundness, `hop` is the relation between an entry and the entry its next hop
points at. `hop` is an inequality: the entry pointed at may have improved since. -/

/-- What holds of the tables at every moment of the exchange. -/
structure TableOk (n : ℕ) (cost_matrix : ℕ → ℕ → ℤ) (routers : Routers) : Prop where
  diag : ∀ i, i < n → (routers i i).cost = 0
  range : ∀ i j, i < n → j < n → 0 ≤ (routers i j).cost ∧ (routers i j).cost ≤ INF
  real : ∀ i j, i < n → j < n → (routers i j).cost ≠ INF →
    ∃ h, Walk (RelaxLink n cost_matrix j) i j h (routers i j).cost.toNat
  hop : ∀ i j, i < n → j < n → i ≠ j → (routers i j).cost ≠ INF →
    ∃ k, k < n ∧ i ≠ k ∧ (routers i j).next_hop = (k : ℤ) ∧ cost_matrix i k ≠ INF
      ∧ cost_matrix i k + (routers k j).cost ≤ (routers i j).cost

/-- Entry by entry no dearer than before. Tables only ever change in this direction, and that is
what makes the exchange come to an end. -/
def NoDearer (n : ℕ) (routers' routers : Routers) : Prop :=
  ∀ i j, i < n → j < n → (routers' i j).cost ≤ (routers i j).cost

/-- No walk the relaxation can use beats the table. The entries are costs of walks themselves, so a
complete table holds the distances. -/
def Complete (n : ℕ) (cost_matrix : ℕ → ℕ → ℤ) (routers : Routers) : Prop :=
  ∀ i j, i < n → j < n → ∀ h c, Walk (RelaxLink n cost_matrix j) i j h c →
    (routers i j).cost ≤ c

/-- No walk of at most `t + 1` edges the relaxation can use beats the table. -/
def Within (n : ℕ) (cost_matrix : ℕ → ℕ → ℤ) (t : ℕ) (routers : Routers) : Prop :=
  ∀ i j, i < n → j < n → ∀ h c, h ≤ t + 1 → Walk (RelaxLink n cost_matrix j) i j h c →
    (routers i j).cost ≤ c

/-- The entry the initialization writes for `j` at router `i`, as a value of its own, so that what
the loops leave can be stated cell by cell. -/
def initialEntry (cost_matrix : ℕ → ℕ → ℤ) (i j : ℕ) : RoutingEntry :=
  { cost := cost_matrix i j
    next_hop := if cost_matrix i j ≠ INF ∧ i ≠ j then (j : ℤ) else -1 }

/-- One row is written, the others stay. The inner loop runs over the destinations `j` with the
router `i` fixed. -/
theorem initialise_row_spec (n : ℕ) (cost_matrix : ℕ → ℕ → ℤ) (i : ℕ) (routers : Routers) :
    ∃ routers', (forLoop 0 n routers fun j routers =>
        some (setEntry routers i j (initialEntry cost_matrix i j))) = some routers'
      ∧ (∀ i' j, i' ≠ i → routers' i' j = routers i' j)
      ∧ ∀ j, j < n → routers' i j = initialEntry cost_matrix i j := by
  apply forLoop_spec
    (fun m (r : Routers) => (∀ i' j, i' ≠ i → r i' j = routers i' j)
      ∧ ∀ j, j < m → r i j = initialEntry cost_matrix i j) (Nat.zero_le n)
  · exact ⟨fun _ _ _ => rfl, fun j hj => absurd hj (Nat.not_lt_zero j)⟩
  · rintro m r _ _ ⟨hold, hnew⟩
    refine ⟨_, rfl, ?_, ?_⟩
    · intro i' j hi'
      rw [setEntry_other (fun h => hi' h.1), hold i' j hi']
    · intro j hj
      rcases Nat.lt_or_ge j m with hlt | hge
      · rw [setEntry_other (by omega), hnew j hlt]
      · obtain rfl : j = m := by omega
        rw [setEntry_same]

/-- The tables after the first loops: each router knows its own links and nothing else. -/
theorem initialise_spec (n : ℕ) (cost_matrix : ℕ → ℕ → ℤ) (routers : Routers) :
    ∃ routers', initialise n cost_matrix routers = some routers'
      ∧ ∀ i j, i < n → j < n → routers' i j = initialEntry cost_matrix i j := by
  unfold initialise
  apply forLoop_spec
    (fun m (r : Routers) => ∀ i j, i < m → j < n → r i j = initialEntry cost_matrix i j)
    (Nat.zero_le n)
  · exact fun i j hi => absurd hi (Nat.not_lt_zero i)
  · intro m r _ _ hrows
    obtain ⟨r', hrun, hold, hnew⟩ := initialise_row_spec n cost_matrix m r
    refine ⟨r', hrun, ?_⟩
    intro i j hi hj
    rcases eq_or_ne i m with rfl | hne
    · exact hnew j hj
    · rw [hold i j hne, hrows i j (by omega) hj]

/-- The initial tables keep the invariant, and hold every walk of one edge. -/
theorem initialise_ok (hl : Links n cost_matrix) (routers : Routers) :
    ∃ routers', initialise n cost_matrix routers = some routers'
      ∧ TableOk n cost_matrix routers' ∧ Within n cost_matrix 0 routers' := by
  obtain ⟨r, hr, hval⟩ := initialise_spec n cost_matrix routers
  have hcost : ∀ i j, i < n → j < n → (r i j).cost = cost_matrix i j := by
    intro i j hi hj
    rw [hval i j hi hj, initialEntry]
  -- a link the table begins with is one the program may use, as it leads to the destination itself
  have hlink : ∀ i j, i < n → j < n → i ≠ j → cost_matrix i j ≠ INF →
      RelaxLink n cost_matrix j i j (cost_matrix i j).toNat := by
    intro i j hi hj hij hne
    have hnn := (hl.range i j hi hj hij).1
    exact ⟨⟨hi, hj, hij, hne, by omega⟩, Or.inr rfl⟩
  refine ⟨r, hr, ⟨?_, ?_, ?_, ?_⟩, ?_⟩
  · intro i hi
    rw [hcost i i hi hi, hl.diag i hi]
  · intro i j hi hj
    rw [hcost i j hi hj]
    rcases eq_or_ne i j with rfl | hij
    · rw [hl.diag i hi]
      decide
    · exact hl.range i j hi hj hij
  · intro i j hi hj hne
    rw [hcost i j hi hj] at hne ⊢
    rcases eq_or_ne i j with rfl | hij
    · rw [hl.diag i hi]
      exact ⟨0, Walk.nil i⟩
    · exact ⟨1, Walk.single (hlink i j hi hj hij hne)⟩
  · intro i j hi hj hij hne
    rw [hcost i j hi hj] at hne
    refine ⟨j, hj, hij, ?_, hne, ?_⟩
    · rw [hval i j hi hj, initialEntry, if_pos ⟨hne, hij⟩]
    · rw [hcost i j hi hj, hcost j j hj hj, hl.diag j hj, add_zero]
  -- a walk of one edge costs what the matrix says
  · intro i j hi hj h c hh hw
    rw [hcost i j hi hj]
    cases hw with
    | nil => rw [hl.diag i hi]; rfl
    | @cons _ v _ h c d he hp =>
        obtain rfl : h = 0 := by omega
        cases hp
        rw [he.1.2.2.2.2, Nat.add_zero]

/-! ## One relaxation

The two things a relaxation can do, with everything a later proof asks of them. Every
fact about a round goes through this lemma. -/

/-- What looking at one neighbour does, all cases of it: nothing, and then the way by this
neighbour is no cheaper, or the entry becomes the way by this neighbour. -/
theorem relax_cases (hl : Links n cost_matrix) {routers : Routers}
    (hok : TableOk n cost_matrix routers) {i j k : ℕ} (hi : i < n) (hj : j < n) (hk : k < n)
    (u : Bool) :
    (relax cost_matrix i j k (routers, u) = some (routers, u)
        ∧ ∀ c, Link n cost_matrix i k c → 0 < c →
          (routers i j).cost ≤ c + (routers k j).cost)
      ∨ ∃ c, Link n cost_matrix i k c ∧ 0 < c
        ∧ c + (routers k j).cost < (routers i j).cost
        ∧ relax cost_matrix i j k (routers, u)
          = some (setEntry routers i j
              { cost := c + (routers k j).cost, next_hop := (k : ℤ) }, true) := by
  by_cases huse : cost_matrix i k ≠ INF ∧ cost_matrix i k > 0
  -- a neighbor: the candidate is computed and compared
  · obtain ⟨c, hc, hcpos, hlink⟩ := hl.link_of_usable hi hk huse.1 huse.2
    have hck : cost_matrix i k ≤ 9999 := (hl.range i k hi hk hlink.2.2.1).2
    have hkj := hok.range k j hk hj
    simp only [INF] at hkj
    have hadd : int32 (cost_matrix i k + (routers k j).cost)
        = some (c + (routers k j).cost) := by
      rw [← hc]
      exact int32_eq_some (by omega) (by omega)
    by_cases hlt : (c : ℤ) + (routers k j).cost < (routers i j).cost
    · refine Or.inr ⟨c, hlink, hcpos, hlt, ?_⟩
      simp only [relax, if_pos huse, hadd, Option.bind_eq_bind, Option.bind_some, if_pos hlt]
    · refine Or.inl ⟨?_, ?_⟩
      · simp only [relax, if_pos huse, hadd, Option.bind_eq_bind, Option.bind_some, if_neg hlt]
      · intro c' hc' _
        have := hc'.2.2.2.2
        omega
  -- no neighbor: no link of positive cost either
  · refine Or.inl ⟨by simp only [relax, if_neg huse], ?_⟩
    intro c hc hcpos
    have := hc.2.2.2.2
    exact absurd ⟨hc.2.2.2.1, by omega⟩ huse

/-- A cheaper entry makes no other entry dearer: the one case in which the relaxation writes at
all. -/
theorem noDearer_setEntry (n : ℕ) {routers : Routers} {i j : ℕ} {e : RoutingEntry}
    (hlt : e.cost < (routers i j).cost) : NoDearer n (setEntry routers i j e) routers := by
  intro a b _ _
  by_cases hab : a = i ∧ b = j
  · obtain ⟨rfl, rfl⟩ := hab
    rw [setEntry_same]
    exact le_of_lt hlt
  · rw [setEntry_other hab]

/-- The new entry keeps the invariant: behind the link from `i` to `k` comes the walk that `k`'s
entry stands for, and the next hop `k` is a neighbor. -/
theorem TableOk.setEntry {routers : Routers}
    (hok : TableOk n cost_matrix routers) {i j k c : ℕ} (hij : i ≠ j)
    (hj : j < n) (hlink : Link n cost_matrix i k c) (hpos : 0 < c)
    (hlt : c + (routers k j).cost < (routers i j).cost) :
    TableOk n cost_matrix (setEntry routers i j
        { cost := c + (routers k j).cost, next_hop := (k : ℤ) }) := by
  obtain ⟨hi, hk, hik, hne, hc⟩ := hlink
  have hkj := hok.range k j hk hj
  have hijr := hok.range i j hi hj
  -- in each field: the entry written, and the others
  refine ⟨?_, ?_, ?_, ?_⟩
  · intro a ha
    rw [setEntry_other (by rintro ⟨rfl, rfl⟩; exact hij rfl)]
    exact hok.diag a ha
  · intro a b ha hb
    by_cases hab : a = i ∧ b = j
    · obtain ⟨rfl, rfl⟩ := hab
      rw [setEntry_same]
      exact ⟨by dsimp only; omega, by dsimp only; omega⟩
    · rw [setEntry_other hab]
      exact hok.range a b ha hb
  · intro a b ha hb hab'
    by_cases hab : a = i ∧ b = j
    · obtain ⟨rfl, rfl⟩ := hab
      rw [setEntry_same]
      obtain ⟨h, hw⟩ := hok.real k b hk hb (by omega)
      refine ⟨h + 1, ?_⟩
      have hcons := Walk.cons (E := RelaxLink n cost_matrix b)
        ⟨⟨hi, hk, hik, hne, hc⟩, Or.inl hpos⟩ hw
      rwa [show ((c : ℤ) + (routers k b).cost).toNat = c + (routers k b).cost.toNat by omega]
    · rw [setEntry_other hab] at hab' ⊢
      exact hok.real a b ha hb hab'
  · intro a b ha hb hne' hab'
    by_cases hab : a = i ∧ b = j
    · obtain ⟨rfl, rfl⟩ := hab
      refine ⟨k, hk, hik, by rw [setEntry_same], hne, ?_⟩
      rw [setEntry_same, setEntry_other (by rintro ⟨rfl, _⟩; exact hik rfl), hc]
    · rw [setEntry_other hab] at hab' ⊢
      obtain ⟨m, hm, ham, hhop, hnem, hle⟩ := hok.hop a b ha hb hne' hab'
      -- the entry pointed at may be the one written, which is cheaper now
      have hcheap := noDearer_setEntry n (e := ⟨c + (routers k j).cost, (k : ℤ)⟩) hlt m b hm hb
      exact ⟨m, hm, ham, hhop, hnem, le_trans (by omega) hle⟩

/-! ## A run of relaxations

A round is one run through the list `sweep` of its relaxations, in the order of the
three loops. What a relaxation establishes in the round is measured against the
tables `start` the round began with, which is what makes the in-place updates
harmless: an entry read later is no dearer than it was at the start. -/

/-- The relaxations of one round, in program order: router, destination, neighbor. The list lets a
state in the middle of a round be named by a prefix of it. -/
def sweep (n : ℕ) : List (ℕ × ℕ × ℕ) :=
  (List.range n).flatMap fun i =>
    (List.range n).flatMap fun j =>
      if i = j then [] else (List.range n).map fun k => (i, j, k)

/-- The relaxations of a list, one after the other. With a prefix of `sweep` it gives the tables at
any moment of a round. -/
def relaxAll (cost_matrix : ℕ → ℕ → ℤ) (l : List (ℕ × ℕ × ℕ)) (s : Routers × Bool) :
    Option (Routers × Bool) :=
  l.foldlM (fun s t => relax cost_matrix t.1 t.2.1 t.2.2 s) s

/-- A round is the three loops run over one list of triples, so that an induction over that list
serves all of them. -/
theorem exchange_round_eq (n : ℕ) (cost_matrix : ℕ → ℕ → ℤ) (s : Routers × Bool) :
    exchange_round n cost_matrix s = relaxAll cost_matrix (sweep n) s := by
  unfold exchange_round relaxAll sweep
  rw [forLoop_eq_foldlM, foldlM_flatMap]
  congr 1
  funext s i
  rw [forLoop_eq_foldlM, foldlM_flatMap]
  congr 1
  funext s j
  by_cases hij : i = j
  · rw [if_pos hij, if_pos hij]
    rfl
  · rw [if_neg hij, if_neg hij, forLoop_eq_foldlM, List.foldlM_map]

/-- The triples of a round: two routers that are not the same, and a third. -/
theorem mem_sweep {n i j k : ℕ} :
    (i, j, k) ∈ sweep n ↔ i < n ∧ j < n ∧ k < n ∧ i ≠ j := by
  simp only [sweep, List.mem_flatMap, List.mem_range]
  constructor
  · rintro ⟨i', hi', j', hj', hmem⟩
    by_cases hij : i' = j'
    · simp [hij] at hmem
    · simp only [if_neg hij, List.mem_map, List.mem_range, Prod.mk.injEq] at hmem
      obtain ⟨k', hk', rfl, rfl, rfl⟩ := hmem
      exact ⟨hi', hj', hk', hij⟩
  · rintro ⟨hi, hj, hk, hij⟩
    refine ⟨i, hi, j, hj, ?_⟩
    simpa [if_neg hij] using hk

/-- What holds throughout a round that began with the tables `start`: `idle` and
`quiet` say what the flag `updated` knows. -/
structure RoundOk (n : ℕ) (cost_matrix : ℕ → ℕ → ℤ) (start : Routers) (s : Routers × Bool) :
    Prop where
  ok : TableOk n cost_matrix s.1
  cheaper : NoDearer n s.1 start
  idle : s.2 = false → s.1 = start
  quiet : Complete n cost_matrix start → s.2 = false

/-- Router `i` has heard `k`'s vector of the start of the round, about `j`. -/
def Heard (n : ℕ) (cost_matrix : ℕ → ℕ → ℤ) (start routers : Routers) (i j k : ℕ) : Prop :=
  ∀ c, Link n cost_matrix i k c → 0 < c → (routers i j).cost ≤ c + (start k j).cost

/-- Looking at one neighbour keeps what holds inside a round, and no cost goes up by it. The
addition cannot overflow, since both costs are at most `INF`. -/
theorem relax_spec (hl : Links n cost_matrix) {start : Routers} {s : Routers × Bool}
    (hs : RoundOk n cost_matrix start s) {i j k : ℕ} (hi : i < n) (hj : j < n) (hk : k < n)
    (hij : i ≠ j) :
    ∃ s', relax cost_matrix i j k s = some s' ∧ RoundOk n cost_matrix start s'
      ∧ NoDearer n s'.1 s.1 ∧ Heard n cost_matrix start s'.1 i j k := by
  obtain ⟨routers, u⟩ := s
  obtain ⟨hok, hcheap, hidle, hquiet⟩ := hs
  dsimp only at hok hcheap hidle hquiet
  rcases relax_cases hl hok hi hj hk u with ⟨hrun, hheard⟩ | ⟨c, hlink, hpos, hlt, hrun⟩
  · refine ⟨_, hrun, ⟨hok, hcheap, hidle, hquiet⟩, fun _ _ _ _ => le_refl _, ?_⟩
    intro c hc hcpos
    have h1 := hheard c hc hcpos
    have h2 := hcheap k j hk hj
    dsimp only
    omega
  · have hcheap' := noDearer_setEntry n (e := ⟨c + (routers k j).cost, (k : ℤ)⟩) hlt
    refine ⟨_, hrun, ⟨hok.setEntry hij hj hlink hpos hlt, ?_, ?_, ?_⟩, hcheap', ?_⟩
    · intro a b ha hb
      exact le_trans (hcheap' a b ha hb) (hcheap a b ha hb)
    · intro h
      exact absurd h (by simp)
    · -- An update against complete tables would be a walk cheaper than all walks.
      intro hcomplete
      exfalso
      have hst := hidle (hquiet hcomplete)
      subst hst
      have hkj := hok.range k j hk hj
      have hijr := hok.range i j hi hj
      obtain ⟨h, hw⟩ := hok.real k j hk hj (by omega)
      have hbest := hcomplete i j hi hj (h + 1) _ (Walk.cons ⟨hlink, Or.inl hpos⟩ hw)
      push_cast at hbest
      omega
    · intro c' hc' _
      have hcc : (c : ℤ) = c' := by rw [← hlink.2.2.2.2, hc'.2.2.2.2]
      have h2 := hcheap k j hk hj
      dsimp only
      rw [setEntry_same]
      dsimp only
      omega

/-- **A run of relaxations** keeps the invariant of the round, and at its end every
relaxation of the list has been heard. Induction on the list. -/
theorem relaxAll_spec (hl : Links n cost_matrix) (start : Routers) :
    ∀ (l : List (ℕ × ℕ × ℕ)),
      (∀ t ∈ l, t.1 < n ∧ t.2.1 < n ∧ t.2.2 < n ∧ t.1 ≠ t.2.1) →
      ∀ s, RoundOk n cost_matrix start s →
      ∃ s', relaxAll cost_matrix l s = some s' ∧ RoundOk n cost_matrix start s'
        ∧ NoDearer n s'.1 s.1
        ∧ ∀ t ∈ l, Heard n cost_matrix start s'.1 t.1 t.2.1 t.2.2 := by
  intro l
  induction l with
  | nil => exact fun _ s hs => ⟨s, rfl, hs, fun _ _ _ _ => le_refl _, by simp⟩
  | cons t l ih =>
      intro hmem s hs
      obtain ⟨hi, hj, hk, hij⟩ := hmem t (by simp)
      obtain ⟨s1, hrun, hs1, hle1, hheard⟩ := relax_spec hl hs hi hj hk hij
      obtain ⟨s2, hrun2, hs2, hle2, hall⟩ :=
        ih (fun t' ht' => hmem t' (List.mem_cons_of_mem _ ht')) s1 hs1
      refine ⟨s2, ?_, hs2, fun a b ha hb => le_trans (hle2 a b ha hb) (hle1 a b ha hb), ?_⟩
      · unfold relaxAll at hrun2 ⊢
        rw [List.foldlM_cons, hrun]
        exact hrun2
      · intro t' ht'
        rcases List.mem_cons.mp ht' with rfl | ht'
        · -- heard early, and the entry has only become cheaper since
          intro c hc hpos
          exact le_trans (hle2 _ _ hi hj) (hheard c hc hpos)
        · exact hall t' ht'

/-- A round from tables that keep the invariant has a result, keeps it, and in it every router has
heard every neighbor about every destination once. -/
theorem exchange_round_spec (hl : Links n cost_matrix) {routers : Routers}
    (hok : TableOk n cost_matrix routers) :
    ∃ s', exchange_round n cost_matrix (routers, false) = some s'
      ∧ RoundOk n cost_matrix routers s'
      ∧ ∀ i j k, i < n → j < n → k < n → i ≠ j → Heard n cost_matrix routers s'.1 i j k := by
  obtain ⟨s', hrun, hs', _, hall⟩ := relaxAll_spec hl routers (sweep n)
    (fun t ht => mem_sweep.mp ht) (routers, false)
    ⟨hok, fun _ _ _ _ => le_refl _, fun _ => rfl, fun _ => rfl⟩
  refine ⟨s', by rw [exchange_round_eq]; exact hrun, hs', ?_⟩
  intro i j k hi hj hk hij
  exact hall (i, j, k) (mem_sweep.mpr ⟨hi, hj, hk, hij⟩)

/-! ## Rounds -/

/-- One more round reaches walks of one more edge. The first edge of the walk is heard
in the round; what is left of it was within the tables at its start. -/
theorem Within.round {routers routers' : Routers} (hok : TableOk n cost_matrix routers')
    (hcheap : NoDearer n routers' routers) {t : ℕ} (hw : Within n cost_matrix t routers)
    (hheard : ∀ i j k, i < n → j < n → k < n → i ≠ j →
      Heard n cost_matrix routers routers' i j k) :
    Within n cost_matrix (t + 1) routers' := by
  intro i j hi hj h c hh hp
  rcases eq_or_ne i j with rfl | hij
  · rw [hok.diag i hi]
    exact Int.natCast_nonneg c
  · cases hp with
    | nil => exact absurd rfl hij
    | @cons _ k _ h c d he hrest =>
        -- a first edge of positive cost is heard from `k`; one into `j` is in the tables
        obtain ⟨hlink, hposj⟩ := he
        rcases hposj with hpos | rfl
        · have h1 := hheard i j k hi hj hlink.2.1 hij c hlink hpos
          have h2 := hw k j hlink.2.1 hj h d (by omega) hrest
          push_cast
          omega
        · have h1 := hw i k hi hj 1 c (by omega) (Walk.single ⟨hlink, Or.inr rfl⟩)
          have h2 := hcheap i k hi hj
          push_cast
          omega

/-- On `n` nodes no walk needs `n` edges, so `n - 2` rounds reach all of them. -/
theorem Within.complete {routers : Routers} {t : ℕ} (hw : Within n cost_matrix t routers)
    (ht : n ≤ t + 2) : Complete n cost_matrix routers := by
  intro i j hi hj h c hp
  obtain ⟨h', c', hlt, hle, hp'⟩ := exists_walk_lt (Finset.range n) (Finset.mem_range.mpr hi)
    (fun x y e he => Finset.mem_range.mpr he.1.2.1) hp
  rw [Finset.card_range] at hlt
  have := hw i j hi hj h' c' (by omega) hp'
  omega

/-- Tables a round leaves alone are complete: walk the edges from the far end. -/
theorem Complete.of_heard {routers : Routers} (hok : TableOk n cost_matrix routers) {t : ℕ}
    (hw : Within n cost_matrix t routers)
    (hheard : ∀ i j k, i < n → j < n → k < n → i ≠ j →
      Heard n cost_matrix routers routers i j k) :
    Complete n cost_matrix routers := by
  have hall : ∀ m, Within n cost_matrix (t + m) routers := by
    intro m
    induction m with
    | zero => exact hw
    | succ m ih => exact ih.round hok (fun _ _ _ _ => le_refl _) hheard
  exact (hall n).complete (by omega)

/-- **The exchange loop.** It ends, after at most `max 1 (n - 1)` rounds, with tables
that keep the invariant and that no usable walk beats. -/
theorem exchange_loop_spec (hl : Links n cost_matrix) {routers : Routers}
    (hok : TableOk n cost_matrix routers) (hw : Within n cost_matrix 0 routers) :
    ∃ r, loop (exchange_body n cost_matrix) (routers, true, 0) = some r
      ∧ TableOk n cost_matrix r.1 ∧ Complete n cost_matrix r.1 ∧ r.2 ≤ max 1 (n - 1) := by
  apply loop_spec
    (fun s : Routers × Bool × ℕ => max 1 (n - 1) - s.2.2 + (if s.2.1 then 1 else 0))
    (fun s => TableOk n cost_matrix s.1 ∧ Within n cost_matrix s.2.2 s.1
      ∧ (s.2.1 = true → s.2.2 < max 1 (n - 1))
      ∧ (s.2.1 = false → Complete n cost_matrix s.1 ∧ s.2.2 ≤ max 1 (n - 1)))
  · rintro ⟨r1, updated, iteration⟩ ⟨hok1, hw1, hlt, hdone⟩
    dsimp only at hok1 hw1 hlt hdone
    cases updated with
    | false =>
        obtain ⟨hcomplete, hle⟩ := hdone rfl
        exact Or.inl ⟨(r1, iteration), rfl, hok1, hcomplete, hle⟩
    | true =>
        refine Or.inr ?_
        obtain ⟨⟨r2, u⟩, hround, hro, hheard⟩ := exchange_round_spec hl hok1
        obtain ⟨hok2, hcheap, hidle, hquiet⟩ := hro
        dsimp only at hok2 hcheap hidle hquiet hheard
        refine ⟨(r2, u, iteration + 1), ?_, ⟨hok2, hw1.round hok2 hcheap hheard, ?_, ?_⟩, ?_⟩
        · simp only [exchange_body, if_true, hround, Option.bind_eq_bind, Option.bind_some]
        · -- a round that updates began with tables some walk beats
          intro hu
          by_contra hge
          have hge' : max 1 (n - 1) ≤ iteration + 1 := Nat.le_of_not_lt hge
          have hnn : n - 1 ≤ max 1 (n - 1) := le_max_right _ _
          have := hquiet (hw1.complete (by omega))
          dsimp only at hu
          rw [hu] at this
          exact absurd this (by decide)
        · intro hu
          have hsame : r2 = r1 := hidle hu
          subst hsame
          exact ⟨Complete.of_heard hok2 hw1 hheard, hlt rfl⟩
        · have := hlt rfl
          cases u <;> simp <;> omega
  · exact ⟨hok, hw, fun _ => by dsimp only; omega, fun h => absurd h (by simp)⟩

/-- The whole program, for every link matrix of costs `0` to `9998`. -/
theorem distance_vector_spec (hl : Links n cost_matrix) (routers : Routers) :
    ∃ r, distance_vector n cost_matrix routers = some r
      ∧ TableOk n cost_matrix r.1 ∧ Complete n cost_matrix r.1 ∧ r.2 ≤ max 1 (n - 1) := by
  obtain ⟨r0, hr0, hok, hw⟩ := initialise_ok hl routers
  obtain ⟨r, hr, hspec⟩ := exchange_loop_spec hl hok hw
  refine ⟨r, ?_, hspec⟩
  rw [distance_vector, hr0]
  exact hr

/-- **What an entry converges to**: the distance over the links the relaxation can
use, cut off at `INF`. -/
theorem converged_cost {routers : Routers} (hok : TableOk n cost_matrix routers)
    (hc : Complete n cost_matrix routers) {i j : ℕ} (hi : i < n) (hj : j < n) :
    ∃ d : ℕ, (routers i j).cost = d
      ∧ (d : ℕ∞) = min ((9999 : ℕ) : ℕ∞) (pathDist (RelaxLink n cost_matrix j) i j) := by
  obtain ⟨hlo, hhi⟩ := hok.range i j hi hj
  simp only [INF] at hhi
  refine ⟨(routers i j).cost.toNat, by omega, pathDist_eq_min (by omega) ?_ ?_⟩
  · rcases eq_or_ne (routers i j).cost INF with hinf | hne
    · exact Or.inl (by rw [hinf]; rfl)
    · exact Or.inr (hok.real i j hi hj hne)
  · intro h c hp
    have := hc i j hi hj h c hp
    omega

end Tables

/-! ## The program's own links

`main` fills its matrix with positive costs and `INF`. Then every link is one the
relaxation can use, whatever the destination. -/

/-- A zero diagonal, and off it `INF` or a cost of `1` to `9998`. -/
structure PositiveLinks (n : ℕ) (cost_matrix : ℕ → ℕ → ℤ) : Prop where
  diag : ∀ i, i < n → cost_matrix i i = 0
  off : ∀ i j, i < n → j < n → i ≠ j →
    cost_matrix i j = INF ∨ 1 ≤ cost_matrix i j ∧ cost_matrix i j ≤ 9998

/-- The matrix of `main`: A-B 1, B-C 3, A-C 7, C-D 1, B-D 8. -/
def main_cost_matrix (i j : ℕ) : ℤ :=
  (([[0, 1, 7, INF], [1, 0, 3, 8], [7, 3, 0, 1], [INF, 8, 1, 0]] : List (List ℤ)).getD i []).getD j 0

/-- The matrix of `main` has positive links only, so the results about the exchange hold of the run
the program makes. -/
theorem main_cost_matrix_positive : PositiveLinks 4 main_cost_matrix where
  diag := by decide
  off := by
    intro i j hi hj
    interval_cases i <;> interval_cases j <;> decide

section Positive

variable {n : ℕ} {cost_matrix : ℕ → ℕ → ℤ}

/-- Positive links are links in the weaker sense, which allows a cost of `0`. -/
theorem PositiveLinks.links (hl : PositiveLinks n cost_matrix) : Links n cost_matrix where
  diag := hl.diag
  range := by
    intro i j hi hj hij
    rcases hl.off i j hi hj hij with h | ⟨h1, h2⟩
    · rw [h]
      decide
    · simp only [INF]
      omega

/-- With positive links the test for a neighbour leaves none out, so the links the program uses are
all there are. -/
theorem PositiveLinks.relaxLink (hl : PositiveLinks n cost_matrix) (j : ℕ) :
    RelaxLink n cost_matrix j = Link n cost_matrix := by
  funext u v c
  apply propext
  constructor
  · exact fun h => h.1
  · intro h
    obtain ⟨hu, hv, huv, hne, hc⟩ := h
    refine ⟨⟨hu, hv, huv, hne, hc⟩, Or.inl ?_⟩
    rcases hl.off u v hu hv huv with h | ⟨h1, _⟩
    · exact absurd h hne
    · omega

/-- **Convergence.** On every matrix of positive links the exchange stops within
`max 1 (n - 1)` iterations, and the tables hold the shortest-path costs cut off at
`INF`. -/
theorem distance_vector_converges (routers : Routers) (_hn : 1 ≤ n ∧ n ≤ MAX_NODES)
    (hl : PositiveLinks n cost_matrix) :
    ∃ routers' iteration, distance_vector n cost_matrix routers = some (routers', iteration)
      ∧ iteration ≤ max 1 (n - 1)
      ∧ ∀ i j, i < n → j < n → ∃ d : ℕ, (routers' i j).cost = d
        ∧ (d : ℕ∞) = min ((9999 : ℕ) : ℕ∞) (pathDist (Link n cost_matrix) i j) := by
  obtain ⟨⟨r, iteration⟩, hrun, hok, hcomplete, hle⟩ := distance_vector_spec hl.links routers
  refine ⟨r, iteration, hrun, hle, ?_⟩
  intro i j hi hj
  rw [← hl.relaxLink j]
  exact converged_cost hok hcomplete hi hj

/-- The network of `main`: four routers, three rounds at most. -/
theorem distance_vector_converges_main :
    ∃ routers' iteration,
      distance_vector 4 main_cost_matrix (fun _ _ => ⟨0, 0⟩) = some (routers', iteration)
        ∧ iteration ≤ max 1 (4 - 1)
        ∧ ∀ i j, i < 4 → j < 4 → ∃ d : ℕ, (routers' i j).cost = d
          ∧ (d : ℕ∞) = min ((9999 : ℕ) : ℕ∞) (pathDist (Link 4 main_cost_matrix) i j) :=
  distance_vector_converges _ (by decide) main_cost_matrix_positive

/-! ## Following the next hops

The moments of the exchange are the prefixes of its rounds. `Follows routers j i l`
says that `l` is the list of routers a packet for `j` visits from `i` when each hands
it to its own next hop. -/

/-- The tables at the head of a round that the loop runs. -/
inductive RoundStart (n : ℕ) (cost_matrix : ℕ → ℕ → ℤ) (routers : Routers) : Routers → Prop
  | first {r : Routers} : initialise n cost_matrix routers = some r →
      RoundStart n cost_matrix routers r
  | next {r r' : Routers} : RoundStart n cost_matrix routers r →
      exchange_round n cost_matrix (r, false) = some (r', true) →
      RoundStart n cost_matrix routers r'

/-- The tables after any number of the relaxations of some round. -/
def MidRound (n : ℕ) (cost_matrix : ℕ → ℕ → ℤ) (routers r : Routers) : Prop :=
  ∃ start m u, RoundStart n cost_matrix routers start
    ∧ relaxAll cost_matrix ((sweep n).take m) (start, false) = some (r, u)

/-- The route a packet for `j` takes from `i`, next hop by next hop. -/
inductive Follows (routers : Routers) (j : ℕ) : ℕ → List ℕ → Prop
  | arrive : Follows routers j j [j]
  | hop {i k : ℕ} {l : List ℕ} : i ≠ j → (routers i j).next_hop = (k : ℤ) →
      Follows routers j k l → Follows routers j i (i :: l)

/-- The total cost of the links of a route, read from the matrix and not from the tables, which may
be ahead of it in the middle of a round. -/
def routeCost (cost_matrix : ℕ → ℕ → ℤ) : List ℕ → ℤ
  | i :: k :: l => cost_matrix i k + routeCost cost_matrix (k :: l)
  | _ => 0

/-- There is a link from `u` to `v`, whatever it costs: what a packet needs to be sent on. -/
def HasLink (n : ℕ) (cost_matrix : ℕ → ℕ → ℤ) (u v : ℕ) : Prop :=
  ∃ c, Link n cost_matrix u v c

/-- At the start of a round the tables are in order. -/
theorem RoundStart.ok (hl : Links n cost_matrix) {routers r : Routers}
    (h : RoundStart n cost_matrix routers r) : TableOk n cost_matrix r := by
  induction h with
  | first hinit =>
      obtain ⟨r, hr, hok, _⟩ := initialise_ok hl routers
      rw [hr] at hinit
      cases hinit
      exact hok
  | next _ hround ih =>
      obtain ⟨s', hs', hro, _⟩ := exchange_round_spec hl ih
      rw [hs'] at hround
      cases hround
      exact hro.ok

/-- The invariant holds in the middle of a round too. -/
theorem MidRound.ok (hl : Links n cost_matrix) {routers r : Routers}
    (h : MidRound n cost_matrix routers r) : TableOk n cost_matrix r := by
  obtain ⟨start, m, u, hstart, hrun⟩ := h
  obtain ⟨s', hs', hro, _⟩ := relaxAll_spec hl start ((sweep n).take m)
    (fun t ht => mem_sweep.mp (List.mem_of_mem_take ht)) (start, false)
    ⟨hstart.ok hl, fun _ _ _ _ => le_refl _, fun _ => rfl, fun _ => rfl⟩
  rw [hs'] at hrun
  cases hrun
  exact hro.ok

/-- Along the next hops the cost to the destination falls by at least the link used.
Induction on the cost: with positive links it falls at every hop, so no router is met
twice. -/
theorem TableOk.exists_route (hl : PositiveLinks n cost_matrix) {routers : Routers}
    (hok : TableOk n cost_matrix routers) {j : ℕ} (hj : j < n) :
    ∀ m i, i < n → (routers i j).cost < INF → (routers i j).cost.toNat = m →
      ∃ route, Follows routers j i route ∧ route.Nodup
        ∧ route.IsChain (HasLink n cost_matrix)
        ∧ (∀ x ∈ route, (routers x j).cost ≤ (routers i j).cost)
        ∧ routeCost cost_matrix route ≤ (routers i j).cost := by
  intro m
  induction m using Nat.strongRecOn with
  | ind m ih =>
      intro i hi hlt hm
      rcases eq_or_ne i j with rfl | hij
      · refine ⟨[i], Follows.arrive, List.nodup_singleton i, List.isChain_singleton i, ?_, ?_⟩
        · intro x hx
          rw [List.mem_singleton.mp hx]
        · exact (hok.range i i hi hi).1
      · obtain ⟨k, hk, hik, hhop, hne, hle⟩ := hok.hop i j hi hj hij (ne_of_lt hlt)
        have hpos : 1 ≤ cost_matrix i k := by
          rcases hl.off i k hi hk hik with h | ⟨h, _⟩
          · exact absurd h hne
          · exact h
        have hkj := (hok.range k j hk hj).1
        -- the next hop is strictly nearer, so the induction applies to it
        have hfall : (routers k j).cost < (routers i j).cost := by omega
        obtain ⟨route, hf, hnd, hchain, hall, hcost⟩ :=
          ih (routers k j).cost.toNat (by omega) k hk (by omega) rfl
        -- the route from `k` begins with `k`
        obtain ⟨l, rfl⟩ : ∃ l, route = k :: l := by
          cases hf with
          | arrive => exact ⟨[], rfl⟩
          | hop _ _ _ => exact ⟨_, rfl⟩
        refine ⟨i :: k :: l, Follows.hop hij hhop hf, ?_, ?_, ?_, ?_⟩
        · refine List.nodup_cons.mpr ⟨?_, hnd⟩
          intro hmem
          have := hall i hmem
          omega
        · refine List.isChain_cons_cons.mpr ⟨?_, hchain⟩
          exact ⟨(cost_matrix i k).toNat, hi, hk, hik, hne, by omega⟩
        · intro x hx
          rcases List.mem_cons.mp hx with rfl | hx
          · exact le_refl _
          · exact le_trans (hall x hx) (le_of_lt hfall)
        · rw [routeCost]
          omega

/-- **No routing loop, at any moment of the exchange.** From every router with a cost
below `INF` the next hops lead to the destination, over existing links, past no router
twice, at a total cost no higher than the table says. -/
theorem next_hops_reach {routers r : Routers} (hl : PositiveLinks n cost_matrix)
    (hr : MidRound n cost_matrix routers r) {i j : ℕ} (hi : i < n) (hj : j < n) (_hij : i ≠ j)
    (hlt : (r i j).cost < INF) :
    ∃ route, Follows r j i route ∧ route.Nodup ∧ route.IsChain (HasLink n cost_matrix)
      ∧ routeCost cost_matrix route ≤ (r i j).cost := by
  obtain ⟨route, hf, hnd, hchain, _, hcost⟩ := (hr.ok hl.links).exists_route hl hj _ i hi hlt rfl
  exact ⟨route, hf, hnd, hchain, hcost⟩

/-- Six relaxations into the first round of `main`, router A has heard from B about C: the direct
link of cost `7` is given up for B as the next hop, at cost `4`. -/
theorem mid_round_main :
    ∃ r, MidRound 4 main_cost_matrix (fun _ _ => ⟨0, 0⟩) r ∧ r 0 2 = ⟨4, 1⟩ := by
  have hrun : ((initialise 4 main_cost_matrix fun _ _ => ⟨0, 0⟩).bind fun r =>
      (relaxAll main_cost_matrix ((sweep 4).take 6) (r, false)).map fun s => s.1 0 2)
      = some ⟨4, 1⟩ := by
    decide +kernel
  obtain ⟨start, hinit, hrun⟩ := Option.bind_eq_some_iff.mp hrun
  obtain ⟨⟨r, u⟩, hrelax, hentry⟩ := Option.map_eq_some_iff.mp hrun
  exact ⟨r, ⟨start, 6, u, RoundStart.first hinit, hrelax⟩, hentry⟩

/-- From A to C at that moment, in the middle of a round. -/
theorem next_hops_reach_main :
    ∃ r, MidRound 4 main_cost_matrix (fun _ _ => ⟨0, 0⟩) r ∧ r 0 2 = ⟨4, 1⟩
      ∧ ∃ route, Follows r 2 0 route ∧ route.Nodup ∧ route.IsChain (HasLink 4 main_cost_matrix)
        ∧ routeCost main_cost_matrix route ≤ 4 := by
  obtain ⟨r, hmid, hentry⟩ := mid_round_main
  have hcost : (r 0 2).cost = 4 := by rw [hentry]
  have hroute := next_hops_reach main_cost_matrix_positive hmid (i := 0) (j := 2) (by decide)
    (by decide) (by decide) (by rw [hcost]; decide)
  rw [hcost] at hroute
  exact ⟨r, hmid, hentry, hroute⟩

end Positive

end CourseLabs.DistanceVector
