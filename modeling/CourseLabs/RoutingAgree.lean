/-
The two routing programs side by side, on one network.

A `Network` is the input both programs describe: a symmetric matrix of optional costs
with a zero diagonal, each program writing its own `INF` where there is no link. The
two programs recognise a neighbor differently. Dijkstra asks for `cost[u][v] != INF`;
the distance-vector exchange also asks for `cost_matrix[i][k] > 0`, so it never learns
anything over a link of cost zero, although its initial tables contain that link.

`agree_iff` is the exact extent of the difference: the tables agree when every path
has a rival, no dearer, that takes a link of cost zero only as the link into its
destination. `zeroLink_disagree` is the smallest network where they do not.
-/
import CourseLabs.Dijkstra
import CourseLabs.DistanceVector

set_option autoImplicit false

namespace CourseLabs.RoutingAgree

open CourseLabs.PathMath

/-- The links of a network, without the diagonal. -/
def Edge (n : ℕ) (link : ℕ → ℕ → Option ℕ) (u v c : ℕ) : Prop :=
  u < n ∧ v < n ∧ u ≠ v ∧ link u v = some c

instance (n : ℕ) (link : ℕ → ℕ → Option ℕ) (u v c : ℕ) : Decidable (Edge n link u v c) :=
  inferInstanceAs (Decidable (u < n ∧ v < n ∧ u ≠ v ∧ link u v = some c))

/-- A link that leads into `j` or has a positive cost. -/
def LateZero (n : ℕ) (link : ℕ → ℕ → Option ℕ) (j u v c : ℕ) : Prop :=
  Edge n link u v c ∧ (0 < c ∨ v = j)

/-- The networks both programs are meant for: link costs and path costs stay below the
smaller `INF`. -/
structure Network (n : ℕ) where
  link : ℕ → ℕ → Option ℕ
  symm : ∀ i j, link i j = link j i
  self : ∀ i, i < n → link i i = some 0
  small : ∀ i j c, link i j = some c → c < 9999
  near : ∀ i j, i < n → j < n → pathDist (Edge n link) i j ≠ ⊤ →
    pathDist (Edge n link) i j < (9999 : ℕ)

namespace Network

variable {n : ℕ}

/-- `cost_matrix` of the distance-vector program. -/
def cost_matrix (net : Network n) (i j : ℕ) : ℤ :=
  match net.link i j with
  | some c => c
  | none => DistanceVector.INF

/-- `cost` of the Dijkstra program. -/
def cost (net : Network n) (i j : ℕ) : ℤ :=
  match net.link i j with
  | some c => c
  | none => Dijkstra.INF

theorem link_of_cost_matrix (net : Network n) {i j c : ℕ} :
    net.cost_matrix i j ≠ DistanceVector.INF ∧ net.cost_matrix i j = c
      ↔ net.link i j = some c := by
  unfold cost_matrix
  cases h : net.link i j with
  | none => simp
  | some d =>
      have hd := net.small i j d h
      simp only [DistanceVector.INF, Option.some.injEq]
      omega

theorem link_of_cost (net : Network n) {i j c : ℕ} :
    net.cost i j ≠ Dijkstra.INF ∧ net.cost i j = c ↔ net.link i j = some c := by
  unfold cost
  cases h : net.link i j with
  | none => simp
  | some d =>
      have hd := net.small i j d h
      simp only [Dijkstra.INF, Option.some.injEq]
      omega

theorem links (net : Network n) : DistanceVector.Links n net.cost_matrix where
  diag := by
    intro i hi
    rw [cost_matrix, net.self i hi]
    rfl
  range := by
    intro i j _ _ _
    unfold cost_matrix
    cases h : net.link i j with
    | none => exact ⟨by decide, le_refl _⟩
    | some d =>
        have hd := net.small i j d h
        simp only [DistanceVector.INF]
        omega

theorem costsOk (net : Network n) : Dijkstra.CostsOk n net.cost := by
  intro i j _ _
  unfold cost
  cases h : net.link i j with
  | none => exact Or.inl rfl
  | some d =>
      have hd := net.small i j d h
      refine Or.inr ?_
      dsimp only
      omega

/-- What the exchange can use towards `j` is `LateZero`. -/
theorem relaxLink_eq (net : Network n) (j : ℕ) :
    DistanceVector.RelaxLink n net.cost_matrix j = LateZero n net.link j := by
  funext u v c
  unfold DistanceVector.RelaxLink DistanceVector.Link LateZero Edge
  rw [net.link_of_cost_matrix]

/-- Dijkstra's links are the links and the diagonal, which shortens nothing. -/
theorem pathDist_link (net : Network n) (i j : ℕ) :
    pathDist (Dijkstra.Link n net.cost) i j = pathDist (Edge n net.link) i j := by
  refine le_antisymm (pathDist_mono ?_) (le_pathDist ?_)
  · rintro u v c ⟨hu, hv, _, hl⟩
    exact ⟨hu, hv, net.link_of_cost.mpr hl⟩
  · intro h c hw
    have hgen : ∃ h', Walk (Edge n net.link) i j h' c := by
      induction hw with
      | nil v => exact ⟨0, Walk.nil v⟩
      | @cons u v w h c d he _ ih =>
          obtain ⟨hu, hv, hcost⟩ := he
          have hl := net.link_of_cost.mp hcost
          obtain ⟨h', hw'⟩ := ih
          -- an edge of the diagonal costs nothing and is left out
          rcases eq_or_ne u v with rfl | huv
          · rw [net.self u hu, Option.some.injEq] at hl
            rw [← hl, Nat.zero_add]
            exact ⟨h', hw'⟩
          · exact ⟨h' + 1, Walk.cons ⟨hu, hv, huv, hl⟩ hw'⟩
    obtain ⟨h', hw'⟩ := hgen
    exact pathDist_le hw'

end Network

/-- Two entries say the same: both unreachable, or both the same cost. -/
def SameEntry (c d : ℤ) : Prop :=
  (c = DistanceVector.INF ↔ d = Dijkstra.INF) ∧ (c ≠ DistanceVector.INF → c = d)

/-- Both programs end, and the converged table of every router is the one Dijkstra
computes from it. -/
def Agree {n : ℕ} (net : Network n) (routers : DistanceVector.Routers) (t : Dijkstra.Tables) :
    Prop :=
  ∃ routers' iteration,
    DistanceVector.distance_vector n net.cost_matrix routers = some (routers', iteration)
      ∧ ∀ i, i < n → ∃ t', Dijkstra.dijkstra n net.cost i t = some t'
        ∧ ∀ j, j < n → SameEntry (routers' i j).cost (t'.dist j)

section

variable {n : ℕ}

/-- The path from `i` to `j` needs no link of cost zero before its last one. -/
def Late (net : Network n) (i j : ℕ) : Prop :=
  ∀ h c, Walk (Edge n net.link) i j h c →
    ∃ h' c', c' ≤ c ∧ Walk (LateZero n net.link j) i j h' c'

theorem late_iff (net : Network n) (i j : ℕ) :
    Late net i j ↔ pathDist (LateZero n net.link j) i j ≤ pathDist (Edge n net.link) i j := by
  constructor
  · intro hlate
    refine le_pathDist ?_
    intro h c hw
    obtain ⟨h', c', hle, hw'⟩ := hlate h c hw
    exact le_trans (pathDist_le hw') (by exact_mod_cast hle)
  · intro hle h c hw
    have hc := le_trans hle (pathDist_le hw)
    obtain ⟨d, hd⟩ := ENat.ne_top_iff_exists.mp (ne_top_of_le_ne_top (ENat.natCast_ne_top c) hc)
    obtain ⟨h', hw'⟩ := exists_walk_of_pathDist_eq hd.symm
    rw [← hd] at hc
    exact ⟨h', d, by exact_mod_cast hc, hw'⟩

/-- One entry of each converged table, compared. -/
theorem sameEntry_iff (net : Network n) {r : DistanceVector.Routers} {t : Dijkstra.Tables}
    (hok : DistanceVector.TableOk n net.cost_matrix r)
    (hc : DistanceVector.Complete n net.cost_matrix r) {i j : ℕ} (hi : i < n) (hj : j < n)
    (hs : Dijkstra.Settled n i net.cost t) :
    SameEntry (r i j).cost (t.dist j) ↔ Late net i j := by
  obtain ⟨d, hd, hdist⟩ := DistanceVector.converged_cost hok hc hi hj
  obtain ⟨e, he, heist⟩ := hs.dist_eq hj
  rw [net.relaxLink_eq] at hdist
  rw [net.pathDist_link] at heist
  have hge : pathDist (Edge n net.link) i j ≤ pathDist (LateZero n net.link j) i j :=
    pathDist_mono (fun _ _ _ h => h.1)
  rw [late_iff, hd, he]
  simp only [SameEntry, DistanceVector.INF, Dijkstra.INF]
  rcases eq_or_ne (pathDist (Edge n net.link) i j) ⊤ with htop | hfin
  · -- no path at all: both entries are at `INF`
    rw [htop, min_eq_left le_top] at heist
    rw [htop] at hge
    rw [top_le_iff.mp hge, min_eq_left le_top] at hdist
    have hd' : d = 9999 := by exact_mod_cast hdist
    have he' : e = 999999 := by exact_mod_cast heist
    subst hd'
    subst he'
    simp [htop]
  · obtain ⟨p, hp⟩ := ENat.ne_top_iff_exists.mp hfin
    have hlt := net.near i j hi hj hfin
    rw [← hp] at hlt heist hge ⊢
    have hp' : p < 9999 := by exact_mod_cast hlt
    have he' : e = p := by
      rw [min_eq_right (by exact_mod_cast (by omega : p ≤ 999999))] at heist
      exact_mod_cast heist
    -- a path of cost `p` exists; the question is whether the exchange finds it
    rcases le_or_gt (pathDist (LateZero n net.link j) i j) p with hle | hgt
    · rw [le_antisymm hle hge, min_eq_right (by exact_mod_cast (by omega : p ≤ 9999))] at hdist
      have hd' : d = p := by exact_mod_cast hdist
      refine ⟨fun _ => hle, fun _ => ⟨?_, ?_⟩⟩ <;> omega
    · have hpd : p < d := by
        have hlt' : (p : ℕ∞) < d := by
          rw [hdist]
          exact lt_min hlt hgt
        exact_mod_cast hlt'
      refine ⟨fun h => ?_, fun h => absurd h (not_le_of_gt hgt)⟩
      omega

/-- **Exactly when the two programs agree**: when every path has a rival, no dearer, whose links of
cost zero lead into its destination. The exchange passes over the neighbours behind a link of cost
zero, so it sees such a link only as the last one of a path, where the entry is taken from the
matrix itself. -/
theorem agree_iff (net : Network n) (_hn : n ≤ 10) (routers : DistanceVector.Routers)
    (t : Dijkstra.Tables) :
    Agree net routers t ↔ ∀ i j, i < n → j < n → ∀ h c, Walk (Edge n net.link) i j h c →
      ∃ h' c', c' ≤ c ∧ Walk (LateZero n net.link j) i j h' c' := by
  obtain ⟨⟨r, iteration⟩, hrun, hok, hc, _⟩ := DistanceVector.distance_vector_spec net.links routers
  constructor
  · rintro ⟨r', iteration', hrun', hall⟩ i j hi hj
    rw [hrun, Option.some.injEq, Prod.mk.injEq] at hrun'
    obtain ⟨rfl, _⟩ := hrun'
    obtain ⟨t1, ht1, hsame⟩ := hall i hi
    obtain ⟨t2, ht2, hs⟩ := Dijkstra.dijkstra_spec net.costsOk hi t
    rw [ht1, Option.some.injEq] at ht2
    subst ht2
    exact (sameEntry_iff net hok hc hi hj hs).mp (hsame j hj)
  · intro hlate
    refine ⟨r, iteration, hrun, ?_⟩
    intro i hi
    obtain ⟨t2, ht2, hs⟩ := Dijkstra.dijkstra_spec net.costsOk hi t
    exact ⟨t2, ht2, fun j hj => (sameEntry_iff net hok hc hi hj hs).mpr (hlate i j hi hj)⟩

end

/-! ## A link of cost zero

Three routers in a row: A and B at no cost, B and C at cost 5. -/

/-- A-B 0, B-C 5. -/
def zeroLink (i j : ℕ) : Option ℕ :=
  if i = j then some 0
  else if i + j = 1 then some 0
  else if i + j = 3 ∧ i ≠ 0 ∧ j ≠ 0 then some 5
  else none

theorem zeroLink_edge {u v c : ℕ} (h : Edge 3 zeroLink u v c) :
    u + v = 1 ∧ c = 0 ∨ u + v = 3 ∧ c = 5 := by
  obtain ⟨_, _, huv, hl⟩ := h
  unfold zeroLink at hl
  rw [if_neg huv] at hl
  split_ifs at hl with h1 h2
  · exact Or.inl ⟨h1, (Option.some.injEq _ _ ▸ hl).symm⟩
  · exact Or.inr ⟨h2.1, (Option.some.injEq _ _ ▸ hl).symm⟩

/-- Every router is within cost 5 of every other: go through B. -/
theorem zeroLink_near {i j : ℕ} (hi : i < 3) (hj : j < 3) :
    ∃ h c, c ≤ 5 ∧ Walk (Edge 3 zeroLink) i j h c := by
  have h01 : Edge 3 zeroLink 0 1 0 := by decide
  have h10 : Edge 3 zeroLink 1 0 0 := by decide
  have h12 : Edge 3 zeroLink 1 2 5 := by decide
  have h21 : Edge 3 zeroLink 2 1 5 := by decide
  interval_cases i <;> interval_cases j
  · exact ⟨_, _, by decide, Walk.nil 0⟩
  · exact ⟨_, _, by decide, Walk.single h01⟩
  · exact ⟨_, _, by decide, (Walk.single h01).snoc h12⟩
  · exact ⟨_, _, by decide, Walk.single h10⟩
  · exact ⟨_, _, by decide, Walk.nil 1⟩
  · exact ⟨_, _, by decide, Walk.single h12⟩
  · exact ⟨_, _, by decide, (Walk.single h21).snoc h10⟩
  · exact ⟨_, _, by decide, Walk.single h21⟩
  · exact ⟨_, _, by decide, Walk.nil 2⟩

def zeroNetwork : Network 3 where
  link := zeroLink
  symm := by
    intro i j
    unfold zeroLink
    rw [Nat.add_comm j i]
    simp only [eq_comm (a := j) (b := i), and_comm (a := j ≠ 0) (b := i ≠ 0)]
  self := by
    intro i _
    rw [zeroLink, if_pos rfl]
  small := by
    intro i j c h
    unfold zeroLink at h
    split_ifs at h <;> cases h <;> decide
  near := by
    intro i j hi hj _
    obtain ⟨h, c, hc, hw⟩ := zeroLink_near hi hj
    exact lt_of_le_of_lt (pathDist_le hw) (by exact_mod_cast (by omega : c < 9999))

theorem agree_iff_zeroNetwork :
    Agree zeroNetwork (fun _ _ => ⟨0, 0⟩) ⟨fun _ => 0, fun _ => false, fun _ => 0⟩
      ↔ ∀ i j, i < 3 → j < 3 → ∀ h c, Walk (Edge 3 zeroNetwork.link) i j h c →
        ∃ h' c', c' ≤ c ∧ Walk (LateZero 3 zeroNetwork.link j) i j h' c' :=
  agree_iff zeroNetwork (by decide) _ _

/-- From A the exchange never hears of C: its only neighbor is B, at cost zero. -/
theorem zeroLink_disagree :
    ¬ ∀ (n : ℕ) (net : Network n), n ≤ 10 → ∀ routers t, Agree net routers t := by
  intro hall
  obtain ⟨⟨r, iteration⟩, hrun, hok, hc, _⟩ :=
    DistanceVector.distance_vector_spec zeroNetwork.links (fun _ _ => ⟨0, 0⟩)
  obtain ⟨t', ht', hs⟩ := Dijkstra.dijkstra_spec zeroNetwork.costsOk (by decide : 0 < 3)
    ⟨fun _ => 0, fun _ => false, fun _ => 0⟩
  obtain ⟨r', iteration', hrun', hagree⟩ := hall 3 zeroNetwork (by decide) (fun _ _ => ⟨0, 0⟩)
    ⟨fun _ => 0, fun _ => false, fun _ => 0⟩
  rw [hrun, Option.some.injEq, Prod.mk.injEq] at hrun'
  obtain ⟨rfl, _⟩ := hrun'
  obtain ⟨t2, ht2, hsame⟩ := hagree 0 (by decide)
  rw [ht', Option.some.injEq] at ht2
  subst ht2
  have hlate := (sameEntry_iff zeroNetwork hok hc (by decide) (by decide) hs).mp
    (hsame 2 (by decide))
  obtain ⟨h, c, _, hw⟩ := hlate 2 5 ((Walk.single (by decide : Edge 3 zeroLink 0 1 0)).snoc
    (by decide : Edge 3 zeroLink 1 2 5))
  -- a walk out of A starts with A-B, which costs nothing and does not end in C
  cases hw with
  | cons he _ =>
      obtain ⟨hedge, hpos⟩ := he
      have hv := hedge.2.1
      have := zeroLink_edge hedge
      omega

end CourseLabs.RoutingAgree
