/-
`shortest_path_dijkstra.c`: the search from one source, and the rows of the routing
table it prints.

The proof is the usual cut argument, with the two ends of the program's `INF`. A node
is selected only below `INF`, so `INF` is at once the cost of "no link", the start
value of the minimum search and the cost at which a walk stops counting; that is why
the result is a distance cut off at `INF`. The main loop makes `n - 1` selections, not
`n`: the node left over at the end is the only unvisited one, and no walk gains by
passing through it (`Settled.not_beaten`).
-/
import CourseLabs.CInt
import CourseLabs.CLoop
import CourseLabs.CMem
import CourseLabs.PathMath
import Mathlib.Tactic.IntervalCases

set_option autoImplicit false

namespace CourseLabs.Dijkstra

open CourseLabs.CInt CourseLabs.CLoop CourseLabs.CMem CourseLabs.PathMath

/-! ## The program -/

/-- The size of the static arrays of the link state program. -/
def MAX_NODES : ℕ := 20

/-- The distance of an unreached node and the cost of an absent link. -/
def INF : ℤ := 999999

/-- The local arrays of `dijkstra`, as total functions: the indices are those of nodes throughout,
so nothing depends on their length. -/
structure Tables where
  dist : ℕ → ℤ
  visited : ℕ → Bool
  parent : ℕ → ℤ

/-- The first loop of `dijkstra`: every distance `INF`, no node visited, every parent `-1`, and
then the distance of the source `0`. -/
def initialise (n src : ℕ) (t : Tables) : Option Tables := do
  let t ← forLoop 0 n t fun i t =>
    some { dist := upd t.dist i INF
           visited := upd t.visited i false
           parent := upd t.parent i (-1) }
  some { t with dist := upd t.dist src 0 }

/-- The minimum search; the state is `min_dist`, `u`. Of several nearest nodes it takes the first,
and where every unvisited one is at `INF` it leaves `-1`. -/
def select_min (n : ℕ) (t : Tables) : Option (ℤ × ℤ) :=
  forLoop 0 n (INF, -1) fun v s =>
    if !t.visited v ∧ t.dist v < s.1 then some (t.dist v, (v : ℤ)) else some s

/-- The relaxation of the links out of `u`. The sum is an `int`, which is why the costs must leave
room for it; only unvisited nodes are written. -/
def relax_neighbors (n : ℕ) (cost : ℕ → ℕ → ℤ) (u : ℕ) (t : Tables) : Option Tables :=
  forLoop 0 n t fun v t =>
    if !t.visited v ∧ cost u v ≠ INF then do
      let d ← int32 (t.dist u + cost u v)
      if d < t.dist v then
        some { t with dist := upd t.dist v d, parent := upd t.parent v (u : ℤ) }
      else
        some t
    else
      some t

/-- One selection of the main loop; the state is `count` and the arrays. -/
def dijkstra_body (n : ℕ) (cost : ℕ → ℕ → ℤ) (s : ℕ × Tables) :
    Option (Pass (ℕ × Tables) Tables) :=
  if s.1 < n - 1 then do
    let (_, u) ← select_min n s.2
    if u = -1 then
      some (.done s.2) -- remaining nodes are unreachable
    else do
      let t := { s.2 with visited := upd s.2.visited u.toNat true }
      let t ← relax_neighbors n cost u.toNat t
      some (.next (s.1 + 1, t))
  else
    some (.done s.2)

/-- `dijkstra` up to its output: the arrays at the end of the main loop. -/
def dijkstra (n : ℕ) (cost : ℕ → ℕ → ℤ) (src : ℕ) (t : Tables) : Option Tables := do
  let t ← initialise n src t
  loop (dijkstra_body n cost) (0, t)

/-- The nodes `print_path` prints, in order. It follows the parents without a bound, so that it
ends at all is something to prove of the parents. -/
def print_path (parent : ℕ → ℤ) (j : ℕ) : Option (List ℕ) :=
  letI print_path : (ℕ → ℤ) → ℕ → Option (List ℕ) := by exact print_path
  if parent j = -1 then
    some [j]
  else do
    let path ← print_path parent (parent j).toNat
    some (path ++ [j])
partial_fixpoint

/-- `get_next_hop`: from the destination back along the parents, until the node whose parent is the
source or that has none. That node is the first link of the route. -/
def get_next_hop (parent : ℕ → ℤ) (dest source : ℕ) : Option ℕ :=
  if dest = source then
    some source
  else
    loop (fun curr =>
      if parent curr ≠ -1 ∧ parent curr ≠ (source : ℤ) then
        some (.next (parent curr).toNat)
      else
        some (.done curr)) dest

/-- A row of the routing table: the three cases the loop of the output tells apart, with the
numbers and the path it prints in the last. -/
inductive Row where
  | isLocal
  | unreachable
  | route (cost : ℤ) (next_hop : ℕ) (path : List ℕ)
deriving DecidableEq, Repr

/-- The row printed for destination `i`. A destination counts as unreachable by its entry alone, so
one that is too far away is shown as such. -/
def output_row (src : ℕ) (t : Tables) (i : ℕ) : Option Row :=
  if i = src then
    some .isLocal
  else if t.dist i = INF then
    some .unreachable
  else do
    let next_hop ← get_next_hop t.parent i src
    let path ← print_path t.parent i
    some (.route (t.dist i) next_hop path)

/-! ## Links -/

/-- An existing link, with its cost. Links of a node to itself and links of cost zero are allowed;
they make no walk cheaper. -/
def Link (n : ℕ) (cost : ℕ → ℕ → ℤ) (u v c : ℕ) : Prop :=
  u < n ∧ v < n ∧ cost u v ≠ INF ∧ cost u v = c

/-- Entries that are `INF` or a cost the additions have room for. -/
def CostsOk (n : ℕ) (cost : ℕ → ℕ → ℤ) : Prop :=
  ∀ u v, u < n → v < n → cost u v = INF ∨ 0 ≤ cost u v ∧ cost u v ≤ 2147483647 - 999999

section Search

variable {n src : ℕ} {cost : ℕ → ℕ → ℤ}

/-! ## The three loops -/

/-- What the first loop leaves behind. No arithmetic is done in it, so it always returns. -/
theorem initialise_spec (n src : ℕ) (t : Tables) :
    ∃ t', initialise n src t = some t' ∧ t'.dist src = 0
      ∧ (∀ v, v < n → v ≠ src → t'.dist v = INF)
      ∧ ∀ v, v < n → t'.visited v = false ∧ t'.parent v = -1 := by
  -- before node `i` the entries below it are set
  obtain ⟨t1, hrun, hval⟩ := forLoop_spec (s := t)
    (f := fun i t => some (Tables.mk (upd t.dist i INF) (upd t.visited i false)
      (upd t.parent i (-1))))
    (fun i t' => ∀ v, v < i → t'.dist v = INF ∧ t'.visited v = false ∧ t'.parent v = -1)
    (Nat.zero_le n) (by intro v hv; omega) (by
      intro i t' _ _ hinv
      refine ⟨_, rfl, ?_⟩
      intro v hv
      rcases Nat.lt_or_ge v i with hlt | hge
      · have hne : v ≠ i := by omega
        simp only [upd_other hne]
        exact hinv v hlt
      · obtain rfl : v = i := by omega
        simp only [upd_same, and_self])
  refine ⟨{ t1 with dist := upd t1.dist src 0 }, ?_, upd_same _ _ _, ?_, ?_⟩
  · unfold initialise
    rw [hrun]
    rfl
  · intro v hv hne
    dsimp only
    rw [upd_other hne]
    exact (hval v hv).1
  · exact fun v hv => (hval v hv).2

/-- The minimum search when it has come to `i`: either nothing below `INF` was met, or
`s.2` is an unvisited node at the least distance met. -/
def Nearest (t : Tables) (i : ℕ) (s : ℤ × ℤ) : Prop :=
  (∀ v, v < i → t.visited v = false → s.1 ≤ t.dist v)
    ∧ (s = (INF, -1)
      ∨ ∃ w, w < i ∧ s.2 = (w : ℤ) ∧ t.visited w = false ∧ t.dist w = s.1 ∧ s.1 < INF)

/-- The minimum starts at `INF` and only goes down, so a search that finds nothing leaves it
there. -/
theorem Nearest.le_inf {t : Tables} {i : ℕ} {s : ℤ × ℤ} (h : Nearest t i s) : s.1 ≤ INF := by
  rcases h.2 with rfl | ⟨-, -, -, -, -, hlt⟩
  · exact le_refl _
  · exact le_of_lt hlt

/-- A nearer node is taken, and it is then the nearest among the nodes looked at so far. -/
theorem Nearest.take {t : Tables} {i : ℕ} {s : ℤ × ℤ} (h : Nearest t i s)
    (hunv : t.visited i = false) (hlt : t.dist i < s.1) :
    Nearest t (i + 1) (t.dist i, (i : ℤ)) := by
  refine ⟨?_, Or.inr ⟨i, Nat.lt_succ_self i, rfl, hunv, rfl, lt_of_lt_of_le hlt h.le_inf⟩⟩
  intro v hv hv'
  rcases Nat.lt_or_ge v i with hvi | hge
  · exact le_trans (le_of_lt hlt) (h.1 v hvi hv')
  · obtain rfl : v = i := by omega
    exact le_refl _

/-- A node that is visited, or not nearer than the best so far, leaves the search where it was. -/
theorem Nearest.keep {t : Tables} {i : ℕ} {s : ℤ × ℤ} (h : Nearest t i s)
    (hno : t.visited i = false → s.1 ≤ t.dist i) : Nearest t (i + 1) s := by
  obtain ⟨hall, hbest⟩ := h
  refine ⟨?_, ?_⟩
  · intro v hv hv'
    rcases Nat.lt_or_ge v i with hvi | hge
    · exact hall v hvi hv'
    · obtain rfl : v = i := by omega
      exact hno hv'
  · rcases hbest with hnone | ⟨w, hw, hbest⟩
    · exact Or.inl hnone
    · exact Or.inr ⟨w, Nat.lt_succ_of_lt hw, hbest⟩

/-- The search answers `-1` when every unvisited node is at `INF`, and otherwise an
unvisited node at least distance, which is below `INF`. -/
theorem select_min_spec (n : ℕ) (t : Tables) :
    ∃ m u, select_min n t = some (m, u)
      ∧ ((u = -1 ∧ ∀ v, v < n → t.visited v = false → INF ≤ t.dist v)
        ∨ ∃ w, w < n ∧ u = (w : ℤ) ∧ t.visited w = false ∧ t.dist w < INF
          ∧ ∀ v, v < n → t.visited v = false → t.dist w ≤ t.dist v) := by
  obtain ⟨⟨m, u⟩, hrun, hall, hbest⟩ := forLoop_spec (s := ((INF, -1) : ℤ × ℤ))
    (f := fun v s =>
      if !t.visited v ∧ t.dist v < s.1 then some (t.dist v, (v : ℤ)) else some s)
    (Nearest t) (Nat.zero_le n) ⟨fun v hv => absurd hv (Nat.not_lt_zero v), Or.inl rfl⟩ (by
      intro i s _ _ hinv
      -- node `i` is the new minimum, or the old one stays
      by_cases htake : !t.visited i ∧ t.dist i < s.1
      · exact ⟨_, if_pos htake, hinv.take (by simpa using htake.1) htake.2⟩
      · refine ⟨_, if_neg htake, hinv.keep ?_⟩
        intro hunv
        by_contra hlt
        exact htake ⟨by simp [hunv], lt_of_not_ge hlt⟩)
  refine ⟨m, u, hrun, ?_⟩
  -- nothing was found, or a node below `INF` was
  rcases hbest with hnone | ⟨w, hw, hu, hunv, hwm, hm⟩
  · obtain ⟨rfl, rfl⟩ := Prod.mk.inj hnone
    exact Or.inl ⟨rfl, hall⟩
  · dsimp only at hall hwm hm
    rw [← hwm] at hall hm
    exact Or.inr ⟨w, hw, hu, hunv, hm, hall⟩

/-- The link from `u` makes `v` cheaper: the condition under which the relaxation writes, with the
visited nodes left out as in the source. -/
def Improves (cost : ℕ → ℕ → ℤ) (t : Tables) (u v : ℕ) : Prop :=
  t.visited v = false ∧ cost u v ≠ INF ∧ t.dist u + cost u v < t.dist v

/-- The relaxation when it has come to `i`: written are exactly the entries below `i`
that the link from `u` improves. -/
structure Relaxed (cost : ℕ → ℕ → ℤ) (u : ℕ) (t : Tables) (i : ℕ) (t' : Tables) : Prop where
  visited : t'.visited = t.visited
  written : ∀ v, v < i → Improves cost t u v →
    t'.dist v = t.dist u + cost u v ∧ t'.parent v = (u : ℤ)
  kept : ∀ v, ¬ (v < i ∧ Improves cost t u v) → t'.dist v = t.dist v ∧ t'.parent v = t.parent v

section Relaxed

variable {u i : ℕ} {t t' : Tables}

/-- A node that the test of the inner loop refuses: the row so far is the row one further. -/
theorem Relaxed.skip (h : Relaxed cost u t i t') (hno : ¬ Improves cost t u i) :
    Relaxed cost u t (i + 1) t' := by
  refine ⟨h.visited, ?_, fun v hv => h.kept v (fun hvi => hv ⟨by omega, hvi.2⟩)⟩
  intro v hv himp
  rcases Nat.lt_or_ge v i with hlt | hge
  · exact h.written v hlt himp
  · obtain rfl : v = i := by omega
    exact absurd himp hno

/-- A node that the test takes: its distance is lowered to the path by `u` and its parent set to
`u`, and nothing else changes. -/
theorem Relaxed.write (h : Relaxed cost u t i t') (himp : Improves cost t u i) :
    Relaxed cost u t (i + 1)
      { t' with
        dist := upd t'.dist i (t.dist u + cost u i)
        parent := upd t'.parent i (u : ℤ) } := by
  refine ⟨h.visited, ?_, ?_⟩
  · intro v hv himpv
    rcases eq_or_ne v i with rfl | hne
    · simp only [upd_same, and_self]
    · simp only [upd_other hne]
      exact h.written v (by omega) himpv
  · intro v hv
    have hne : v ≠ i := by
      rintro rfl
      exact hv ⟨by omega, himp⟩
    simp only [upd_other hne]
    exact h.kept v (fun hvi => hv ⟨by omega, hvi.2⟩)

/-- The relaxation of a visited node writes exactly the entries it improves. -/
theorem relax_neighbors_spec (hcost : CostsOk n cost) (hu : u < n)
    (hvis : t.visited u = true) (hlo : 0 ≤ t.dist u) (hhi : t.dist u < INF) :
    ∃ t', relax_neighbors n cost u t = some t' ∧ Relaxed cost u t n t' := by
  apply forLoop_spec (Relaxed cost u t) (Nat.zero_le n)
  · exact ⟨rfl, fun v hv => absurd hv (Nat.not_lt_zero v), fun _ _ => ⟨rfl, rfl⟩⟩
  · intro i t' _ hi hrel
    -- `u` is visited, so its own entry never moves during the loop
    have hdu : t'.dist u = t.dist u := (hrel.kept u (by
      rintro ⟨_, h, _⟩
      rw [hvis] at h
      exact absurd h (by decide))).1
    have hdi : t'.dist i = t.dist i := (hrel.kept i (by omega)).1
    by_cases hlink : !t'.visited i ∧ cost u i ≠ INF
    · have hunv : t.visited i = false := by
        rw [← hrel.visited]
        simpa using hlink.1
      have hadd : int32 (t'.dist u + cost u i) = some (t.dist u + cost u i) := by
        rw [hdu]
        rcases hcost u i hu hi with h | ⟨h1, h2⟩
        · exact absurd h hlink.2
        · simp only [INF] at hhi
          exact int32_eq_some (by omega) (by omega)
      by_cases hlt : t.dist u + cost u i < t'.dist i
      · refine ⟨_, ?_, hrel.write ⟨hunv, hlink.2, by rwa [hdi] at hlt⟩⟩
        simp only [if_pos hlink, hadd, Option.bind_eq_bind, Option.bind_some, if_pos hlt]
      · refine ⟨t', ?_, hrel.skip (fun himp => hlt (by rw [hdi]; exact himp.2.2))⟩
        simp only [if_pos hlink, hadd, Option.bind_eq_bind, Option.bind_some, if_neg hlt]
    · refine ⟨t', by simp only [if_neg hlink], hrel.skip ?_⟩
      rintro ⟨hunv, hne, -⟩
      rw [← hrel.visited] at hunv
      exact hlink ⟨by simp [hunv], hne⟩

end Relaxed

/-! ## The cut

`count` nodes are visited. `mono` is the cut: no unvisited node is nearer than a
visited one. `relaxed` says the links out of visited nodes have been used. -/

/-- What holds before round `count` of the main loop: distances are weights of walks, exactly
`count` nodes are visited and none of the others is nearer than one of them, and no link out of a
visited node improves a distance. -/
structure Cut (n src : ℕ) (cost : ℕ → ℕ → ℤ) (count : ℕ) (t : Tables) : Prop where
  source : t.dist src = 0
  range : ∀ v, v < n → 0 ≤ t.dist v ∧ t.dist v ≤ INF
  real : ∀ v, v < n → t.dist v ≠ INF → ∃ h, Walk (Link n cost) src v h (t.dist v).toNat
  mono : ∀ x y, x < n → y < n → t.visited x = true → t.visited y = false →
    t.dist x ≤ t.dist y
  relaxed : ∀ x y c, t.visited x = true → Link n cost x y c → t.dist y ≤ t.dist x + c
  card : ((Finset.range n).filter (fun v => t.visited v = true)).card = count

/-- What the main loop leaves behind: distances of walks, and no walk beats them. -/
structure Settled (n src : ℕ) (cost : ℕ → ℕ → ℤ) (t : Tables) : Prop where
  range : ∀ v, v < n → 0 ≤ t.dist v ∧ t.dist v ≤ INF
  real : ∀ v, v < n → t.dist v ≠ INF → ∃ h, Walk (Link n cost) src v h (t.dist v).toNat
  not_beaten : ∀ v h c, v < n → Walk (Link n cost) src v h c → t.dist v ≤ c

/-- Before the first round only the source has a distance, and no node is visited. -/
theorem initialise_cut (cost : ℕ → ℕ → ℤ) (hsrc : src < n) (t : Tables) :
    ∃ t', initialise n src t = some t' ∧ Cut n src cost 0 t' := by
  obtain ⟨t', hrun, hs, hinf, hvis⟩ := initialise_spec n src t
  have hdist : ∀ v, v < n → t'.dist v = 0 ∧ v = src ∨ t'.dist v = INF := by
    intro v hv
    rcases eq_or_ne v src with rfl | hne
    · exact Or.inl ⟨hs, rfl⟩
    · exact Or.inr (hinf v hv hne)
  -- nothing is visited yet, so most of the cut is empty
  refine ⟨t', hrun, hs, ?_, ?_, ?_, ?_, ?_⟩
  · intro v hv
    rcases hdist v hv with ⟨h, _⟩ | h <;> rw [h] <;> decide
  · intro v hv hne
    rcases hdist v hv with ⟨h, rfl⟩ | h
    · rw [h]
      exact ⟨0, Walk.nil v⟩
    · exact absurd h hne
  · intro x y hx _ hvx _
    rw [(hvis x hx).1] at hvx
    exact absurd hvx (by decide)
  · intro x y c hvx hl
    rw [(hvis x hl.1).1] at hvx
    exact absurd hvx (by decide)
  · rw [Finset.card_eq_zero, Finset.filter_eq_empty_iff]
    intro v hv
    rw [(hvis v (Finset.mem_range.mp hv)).1]
    decide

/-- No negative link, which is what makes the nearest unvisited node final. -/
theorem CostsOk.nonneg (hcost : CostsOk n cost) {u v : ℕ} (hu : u < n) (hv : v < n)
    (hne : cost u v ≠ INF) : 0 ≤ cost u v := by
  rcases hcost u v hu hv with h | h
  · exact absurd h hne
  · exact h.1

/-- What the selection of `u` makes of the arrays: `u` is visited, and an entry that
changed is now the way over `u`. -/
structure Selected (n : ℕ) (cost : ℕ → ℕ → ℤ) (u : ℕ) (t t' : Tables) : Prop where
  visited : ∀ v, t'.visited v = true ↔ v = u ∨ t.visited v = true
  entry : ∀ v, t'.dist v = t.dist v
    ∨ v < n ∧ t.visited v = false ∧ cost u v ≠ INF ∧ t'.dist v = t.dist u + cost u v
      ∧ t.dist u + cost u v < t.dist v
  used : ∀ v, v < n → t.visited v = false → cost u v ≠ INF → t'.dist v ≤ t.dist u + cost u v

/-- With costs in range the additions of the inner loop cannot overflow, so a round returns. The
bound is that `t.dist u` is below `INF`. -/
theorem relax_selected (hcost : CostsOk n cost) {u : ℕ} {t : Tables} (hu : u < n)
    (hlo : 0 ≤ t.dist u) (hhi : t.dist u < INF) :
    ∃ t', relax_neighbors n cost u { t with visited := upd t.visited u true } = some t'
      ∧ Selected n cost u t t' := by
  obtain ⟨t', hrun, hvis, hnew, hold⟩ :=
    relax_neighbors_spec (t := { t with visited := upd t.visited u true }) hcost hu
      (upd_same _ _ _) hlo hhi
  dsimp only at hvis hnew hold
  -- `u` itself is visited by now, so its own entry is not improved
  have himp : ∀ v, Improves cost { t with visited := upd t.visited u true } u v
      ↔ v ≠ u ∧ t.visited v = false ∧ cost u v ≠ INF ∧ t.dist u + cost u v < t.dist v := by
    intro v
    unfold Improves
    dsimp only
    rcases eq_or_ne v u with rfl | hne
    · rw [upd_same]
      simp
    · rw [upd_other hne]
      simp [hne]
  refine ⟨t', hrun, ?_, ?_, ?_⟩
  · intro v
    rw [hvis]
    rcases eq_or_ne v u with rfl | hne
    · simp
    · simp [upd_other hne, hne]
  · intro v
    by_cases h : v < n ∧ Improves cost { t with visited := upd t.visited u true } u v
    · obtain ⟨-, hunv, hne, hlt⟩ := (himp v).mp h.2
      exact Or.inr ⟨h.1, hunv, hne, (hnew v h.1 h.2).1, hlt⟩
    · exact Or.inl (hold v h).1
  · intro v hv hunv hne
    by_cases h : Improves cost { t with visited := upd t.visited u true } u v
    · exact le_of_eq (hnew v hv h).1
    · rw [(hold v (fun h' => h h'.2)).1]
      have hnonneg := hcost.nonneg hu hv hne
      rcases eq_or_ne v u with rfl | hvu
      · omega
      · by_contra hgt
        exact h ((himp v).mpr ⟨hvu, hunv, hne, by omega⟩)

section Selected

variable {u : ℕ} {t t' : Tables}

/-- A round leaves the visited nodes as they are: the test asks for an unvisited one. -/
theorem Selected.visited_keeps (hsel : Selected n cost u t t') {v : ℕ} (hv : t.visited v = true) :
    t'.dist v = t.dist v := by
  rcases hsel.entry v with h | ⟨-, hunv, -⟩
  · exact h
  · rw [hv] at hunv
    exact absurd hunv (by decide)

/-- No distance goes up in a round, since an entry is only replaced by a smaller one. -/
theorem Selected.dist_le (hsel : Selected n cost u t t') (v : ℕ) : t'.dist v ≤ t.dist v := by
  rcases hsel.entry v with h | ⟨-, -, -, h, hlt⟩ <;> omega

/-- No entry falls below that of the node selected: costs are not negative. So a visited node would
not be improved later even if it were looked at. -/
theorem Selected.dist_ge (hsel : Selected n cost u t t') (hcost : CostsOk n cost) (hu : u < n)
    {v : ℕ} (hle : t.dist u ≤ t.dist v) : t.dist u ≤ t'.dist v := by
  rcases hsel.entry v with h | ⟨hv, -, hne, h, -⟩
  · rwa [h]
  · have := hcost.nonneg hu hv hne
    omega

/-- The selected node keeps its own distance, since a link to itself cannot improve it. -/
theorem Selected.dist_self (hsel : Selected n cost u t t') (hcost : CostsOk n cost) (hu : u < n) :
    t'.dist u = t.dist u :=
  le_antisymm (hsel.dist_le u) (hsel.dist_ge hcost hu (le_refl _))

/-- A new entry is the weight of a walk: the one to `u`, and the link. -/
theorem Selected.real (hsel : Selected n cost u t t') (hcost : CostsOk n cost) (hu : u < n)
    {count : ℕ} (hc : Cut n src cost count t) (hlt : t.dist u < INF) {v : ℕ} (hv : v < n)
    (hne : t'.dist v ≠ INF) : ∃ h, Walk (Link n cost) src v h (t'.dist v).toNat := by
  rcases hsel.entry v with h | ⟨-, -, hlink, h, -⟩
  · rw [h] at hne ⊢
    exact hc.real v hv hne
  · obtain ⟨k, hw⟩ := hc.real u hu (ne_of_lt hlt)
    have hnonneg := hcost.nonneg hu hv hlink
    have hu0 := (hc.range u hu).1
    have hsnoc := hw.snoc (d := (cost u v).toNat)
      (show Link n cost u v (cost u v).toNat from ⟨hu, hv, hlink, by omega⟩)
    rw [h, show (t.dist u + cost u v).toNat = (t.dist u).toNat + (cost u v).toNat by omega]
    exact ⟨k + 1, hsnoc⟩

/-- One more node is visited after a round, which is why `n` rounds are enough. -/
theorem Selected.card (hsel : Selected n cost u t t') (hu : u < n) (hunv : t.visited u = false) :
    ((Finset.range n).filter (fun v => t'.visited v = true)).card
      = ((Finset.range n).filter (fun v => t.visited v = true)).card + 1 := by
  have hins : (Finset.range n).filter (fun v => t'.visited v = true)
      = insert u ((Finset.range n).filter (fun v => t.visited v = true)) := by
    ext v
    simp only [Finset.mem_filter, Finset.mem_range, Finset.mem_insert, hsel.visited]
    constructor
    · rintro ⟨hv, rfl | h⟩
      · exact Or.inl rfl
      · exact Or.inr ⟨hv, h⟩
    · rintro (rfl | ⟨hv, h⟩)
      · exact ⟨hu, Or.inl rfl⟩
      · exact ⟨hv, Or.inr h⟩
  rw [hins, Finset.card_insert_of_notMem]
  simp [hunv]

end Selected

/-- **One selection keeps the cut.** The node selected joins the visited side; its
links are used, and what they reach is no nearer than the node itself. -/
theorem Cut.select (hcost : CostsOk n cost) {count : ℕ} {t : Tables}
    (hc : Cut n src cost count t) {u : ℕ} (hu : u < n) (hunv : t.visited u = false)
    (hlt : t.dist u < INF) (hmin : ∀ v, v < n → t.visited v = false → t.dist u ≤ t.dist v) :
    ∃ t', relax_neighbors n cost u { t with visited := upd t.visited u true } = some t'
      ∧ Cut n src cost (count + 1) t' := by
  have hu0 := (hc.range u hu).1
  obtain ⟨t', hrun, hsel⟩ := relax_selected hcost hu hu0 hlt
  refine ⟨t', hrun, ?_, ?_, fun v hv => hsel.real hcost hu hc hlt hv, ?_, ?_, ?_⟩
  · -- the source is at `0`, so no link improves it
    rcases hsel.entry src with h | ⟨hs, -, hne, -, h⟩
    · rw [h, hc.source]
    · have hnonneg := hcost.nonneg hu hs hne
      have h0 := hc.source
      omega
  · intro v hv
    have hrange := hc.range v hv
    have hle := hsel.dist_le v
    refine ⟨?_, by omega⟩
    rcases hsel.entry v with h | ⟨-, -, hne, h, -⟩
    · omega
    · have hnonneg := hcost.nonneg hu hv hne
      omega
  -- the visited side is no farther than the unvisited one
  · intro x y hx hy hvx hvy
    obtain ⟨-, hvy'⟩ : y ≠ u ∧ t.visited y = false := by
      have hno := (hsel.visited y).not.mp (by rw [hvy]; decide)
      rwa [not_or, Bool.not_eq_true] at hno
    have hyu := hsel.dist_ge hcost hu (hmin y hy hvy')
    rcases (hsel.visited x).mp hvx with rfl | hvx
    · rwa [hsel.dist_self hcost hx]
    · rw [hsel.visited_keeps hvx]
      exact le_trans (hc.mono x u hx hu hvx hunv) hyu
  -- the links out of visited nodes have been used
  · intro x y c hvx hl
    obtain ⟨hx, hy, hne, hcx⟩ := hl
    rcases (hsel.visited x).mp hvx with rfl | hvx
    · rw [hsel.dist_self hcost hx, ← hcx]
      cases hvy : t.visited y with
      | true =>
          -- a visited node is no farther than the node selected
          have hmono := hc.mono y x hy hu hvy hunv
          have hle := hsel.dist_le y
          have hnonneg := hcost.nonneg hx hy hne
          omega
      | false => exact hsel.used y hy hvy hne
    · rw [hsel.visited_keeps hvx]
      exact le_trans (hsel.dist_le y) (hc.relaxed x y c hvx ⟨hx, hy, hne, hcx⟩)
  · rw [hsel.card hu hunv, hc.card]

/-- The cut is settled once no unvisited node can lead a walk anywhere cheaper: it is
at `INF`, or it is the only one left. -/
theorem Cut.settled {count : ℕ} {t : Tables} (hc : Cut n src cost count t)
    (hend : ∀ x y, x < n → y < n → t.visited x = false → INF ≤ t.dist x
      ∨ y = x ∨ t.visited y = true) : Settled n src cost t := by
  refine ⟨hc.range, hc.real, ?_⟩
  intro v h c hv hw
  have hbound : (t.dist v).toNat ≤ c := by
    refine Walk.bound (f := fun v => (t.dist v).toNat) (by rw [hc.source]; rfl) ?_ hw
    intro x y e m hl hm
    -- the cut in each of the three cases in which an edge can leave `x`
    have hx := hl.1
    have hy := hl.2.1
    have hry := hc.range y hy
    have hrx := hc.range x hx
    cases hvx : t.visited x with
    | true =>
        have := hc.relaxed x y e hvx hl
        omega
    | false =>
        rcases hend x y hx hy hvx with h | rfl | hvy
        · omega
        · omega
        · have := hc.mono y x hy hx hvy hvx
          omega
  have := (hc.range v hv).1
  omega

/-- **The main loop.** It ends, without an overflow, with the distances settled. -/
theorem dijkstra_spec (hcost : CostsOk n cost) (hsrc : src < n) (t : Tables) :
    ∃ t', dijkstra n cost src t = some t' ∧ Settled n src cost t' := by
  obtain ⟨t0, hinit, hcut⟩ := initialise_cut cost hsrc t
  unfold dijkstra
  rw [hinit]
  apply loop_spec (s := ((0, t0) : ℕ × Tables)) (fun s : ℕ × Tables => n - 1 - s.1)
    (fun s => s.1 ≤ n - 1 ∧ Cut n src cost s.1 s.2)
  · rintro ⟨count, t1⟩ ⟨hle, hc⟩
    dsimp only at hle hc
    by_cases hlt : count < n - 1
    · obtain ⟨m, u, hsel, hu | ⟨w, hw, rfl, hunv, hwinf, hmin⟩⟩ := select_min_spec n t1
      · -- nothing below `INF` is left
        obtain ⟨rfl, hall⟩ := hu
        refine Or.inl ⟨t1, ?_, ?_⟩
        · simp only [dijkstra_body, if_pos hlt, hsel, Option.bind_eq_bind, Option.bind_some,
            if_true]
        · exact hc.settled (fun x _ hx _ hvx => Or.inl (hall x hx hvx))
      · obtain ⟨t2, hrel, hc2⟩ := hc.select hcost hw hunv hwinf hmin
        refine Or.inr ⟨(count + 1, t2), ?_, ⟨hlt, hc2⟩, by dsimp only; omega⟩
        have hne : ((w : ℤ) = -1) = False := by
          apply eq_false
          omega
        simp only [dijkstra_body, if_pos hlt, hsel, Option.bind_eq_bind, Option.bind_some, hne,
          if_false, Int.toNat_natCast, hrel]
    · refine Or.inl ⟨t1, by simp only [dijkstra_body, if_neg hlt], hc.settled ?_⟩
      -- `n - 1` nodes are visited, so two unvisited ones would be too many
      intro x y hx hy hvx
      refine Or.inr ?_
      by_contra hno
      rw [not_or, Bool.not_eq_true] at hno
      have hsub : (Finset.range n).filter (fun v => t1.visited v = true)
          ⊆ ((Finset.range n).erase x).erase y := by
        intro v hv
        simp only [Finset.mem_filter, Finset.mem_range] at hv
        rw [Finset.mem_erase, Finset.mem_erase, Finset.mem_range]
        refine ⟨?_, ?_, hv.1⟩
        · rintro rfl
          rw [hno.2] at hv
          exact absurd hv.2 (by decide)
        · rintro rfl
          rw [hvx] at hv
          exact absurd hv.2 (by decide)
      have hcard := Finset.card_le_card hsub
      rw [hc.card, Finset.card_erase_of_mem
        (Finset.mem_erase.mpr ⟨hno.1, Finset.mem_range.mpr hy⟩),
        Finset.card_erase_of_mem (Finset.mem_range.mpr hx), Finset.card_range] at hcard
      have := hno.1
      omega
  · exact ⟨Nat.zero_le _, hcut⟩

/-- A settled entry is the distance cut off at `INF`. -/
theorem Settled.dist_eq {t : Tables} (hs : Settled n src cost t) {v : ℕ} (hv : v < n) :
    ∃ d : ℕ, t.dist v = d
      ∧ (d : ℕ∞) = min ((999999 : ℕ) : ℕ∞) (pathDist (Link n cost) src v) := by
  obtain ⟨hlo, hhi⟩ := hs.range v hv
  simp only [INF] at hhi
  refine ⟨(t.dist v).toNat, by omega, pathDist_eq_min (by omega) ?_ ?_⟩
  · rcases eq_or_ne (t.dist v) INF with hinf | hne
    · exact Or.inl (by rw [hinf]; rfl)
    · exact Or.inr (hs.real v hv hne)
  · intro h c hw
    have := hs.not_beaten v h c hv hw
    omega

/-- The row of another node says unreachable exactly when its entry is `INF`. -/
theorem output_row_unreachable {t : Tables} {i : ℕ} (hi : i ≠ src) :
    output_row src t i = some .unreachable ↔ t.dist i = INF := by
  unfold output_row
  rw [if_neg hi]
  by_cases hinf : t.dist i = INF
  · simp [hinf]
  · rw [if_neg hinf]
    constructor
    · intro h
      simp only [Option.bind_eq_bind, Option.bind_eq_some_iff] at h
      obtain ⟨_, _, _, _, hrow⟩ := h
      simp at hrow
    · exact fun h => absurd h hinf

/-- **Dijkstra is exact.** On every matrix of costs the additions have room for, the
entries end as the distances from `src` cut off at `INF`, and the table calls a node
unreachable exactly when no path to it costs less than `INF`. -/
theorem dijkstra_exact (_hn : 1 ≤ n ∧ n ≤ MAX_NODES) (hsrc : src < n)
    (hcost : CostsOk n cost) (t : Tables) :
    ∃ t', dijkstra n cost src t = some t'
      ∧ ∀ v, v < n →
        (∃ d : ℕ, t'.dist v = d
          ∧ (d : ℕ∞) = min ((999999 : ℕ) : ℕ∞) (pathDist (Link n cost) src v))
        ∧ (output_row src t' v = some .unreachable
            ↔ ¬ ∃ h c, Walk (Link n cost) src v h c ∧ c < 999999) := by
  obtain ⟨t', hrun, hs⟩ := dijkstra_spec hcost hsrc t
  refine ⟨t', hrun, ?_⟩
  intro v hv
  refine ⟨hs.dist_eq hv, ?_⟩
  rcases eq_or_ne v src with rfl | hne
  · have hrow : output_row v t' v = some .isLocal := if_pos rfl
    rw [hrow]
    constructor
    · intro h
      simp at h
    · exact fun h => absurd ⟨0, 0, Walk.nil v, by decide⟩ h
  · rw [output_row_unreachable hne]
    constructor
    · rintro hinf ⟨h, c, hw, hc⟩
      have := hs.not_beaten v h c hv hw
      simp only [INF] at hinf
      omega
    · intro hno
      by_contra hinf
      obtain ⟨h, hw⟩ := hs.real v hv hinf
      refine hno ⟨h, _, hw, ?_⟩
      have := hs.range v hv
      simp only [INF] at this hinf
      omega

end Search

/-! ## The network of `main` -/

/-- A-B 2, A-C 4, B-C 1, B-D 7, C-E 3, D-E 2, D-F 1, E-F 5. -/
def main_cost (i j : ℕ) : ℤ :=
  (([[0, 2, 4, INF, INF, INF], [2, 0, 1, 7, INF, INF], [4, 1, 0, INF, 3, INF],
     [INF, 7, INF, 0, 2, 1], [INF, INF, 3, 2, 0, 5], [INF, INF, INF, 1, 5, 0]] :
      List (List ℤ)).getD i []).getD j 0

/-- The matrix in `main` satisfies the hypotheses: its costs are not negative, and with `INF` added
they stay far below the largest `int`. -/
theorem main_cost_ok : CostsOk 6 main_cost := by
  intro u v hu hv
  interval_cases u <;> interval_cases v <;> decide

/-- The program's own run: six nodes from node `0`. -/
theorem dijkstra_exact_main :
    ∃ t', dijkstra 6 main_cost 0 ⟨fun _ => 0, fun _ => false, fun _ => 0⟩ = some t'
      ∧ ∀ v, v < 6 →
        (∃ d : ℕ, t'.dist v = d
          ∧ (d : ℕ∞) = min ((999999 : ℕ) : ℕ∞) (pathDist (Link 6 main_cost) 0 v))
        ∧ (output_row 0 t' v = some .unreachable
            ↔ ¬ ∃ h c, Walk (Link 6 main_cost) 0 v h c ∧ c < 999999) :=
  dijkstra_exact (by decide) (by decide) main_cost_ok _

end CourseLabs.Dijkstra
