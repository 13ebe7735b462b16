/-
**Weighted directed graphs**: walks, the distance between two vertices, and the two
facts a shortest-path program is measured against.

A graph is a relation `E u v c`, "there is an edge from `u` to `v` of weight `c`",
over an arbitrary vertex type and with natural weights. `Walk E u v h c` is a walk of
`h` edges and total weight `c`; it may repeat vertices. `pathDist E u v` is the least
total weight, `⊤` when there is no walk.

* `pathDist_eq_min` is how a computed number is recognised as a distance cut off at a
  cap: it is the cap or the weight of a walk, and no walk is cheaper.
* `exists_walk_lt` bounds the edges: on `n` vertices every walk can be replaced by one
  of fewer than `n` edges that is no dearer. The walk chosen is the one minimal in
  weight and then in edges; along it the number of edges left is different at every
  vertex, so the vertices are distinct without any walk having to be cut.
-/
import Mathlib.Data.ENat.Lattice
import Mathlib.Data.Finset.Card
import Mathlib.Tactic.Linarith

set_option autoImplicit false

namespace CourseLabs.PathMath

variable {V : Type*}

/-- A walk from `u` to `v` of `h` edges and total weight `c`. -/
inductive Walk (E : V → V → ℕ → Prop) : V → V → ℕ → ℕ → Prop
  | nil (v : V) : Walk E v v 0 0
  | cons {u v w : V} {h c d : ℕ} : E u v c → Walk E v w h d → Walk E u w (h + 1) (c + d)

section Walk

variable {E F : V → V → ℕ → Prop} {u v w : V} {h k c d : ℕ}

theorem Walk.single (he : E u v c) : Walk E u v 1 c :=
  Walk.cons he (Walk.nil v)

theorem Walk.append (hp : Walk E u v h c) (hq : Walk E v w k d) :
    Walk E u w (h + k) (c + d) := by
  induction hp with
  | nil v => simpa using hq
  | cons he _ ih =>
      have happ := Walk.cons he (ih hq)
      rwa [← Nat.add_assoc, Nat.add_right_comm] at happ

/-- A walk with one more edge at its end. -/
theorem Walk.snoc (hp : Walk E u v h c) (he : E v w d) : Walk E u w (h + 1) (c + d) :=
  hp.append (Walk.single he)

/-- Walks survive into a larger graph, with the same length and the same cost. -/
theorem Walk.mono (hEF : ∀ u v c, E u v c → F u v c) (hp : Walk E u v h c) :
    Walk F u v h c := by
  induction hp with
  | nil v => exact Walk.nil v
  | cons he _ ih => exact Walk.cons (hEF _ _ _ he) ih

/-- **The last edge rule.** A bound that holds at the start and is carried over every
edge holds at the end of every walk. It is the induction on walks from the right. -/
theorem Walk.bound {f : V → ℕ} (hu : f u = 0) (hstep : ∀ x y e m, E x y e → f x ≤ m → f y ≤ m + e)
    (hp : Walk E u v h c) : f v ≤ c := by
  -- from any vertex `x` with a bound `m` on `f x`, to have an induction on the walk
  have hgen : ∀ {x y : V} {h c : ℕ}, Walk E x y h c → ∀ m, f x ≤ m → f y ≤ m + c := by
    intro x y h c hq
    induction hq with
    | nil v => exact fun m hm => hm
    | cons he _ ih =>
        intro m hm
        rw [← Nat.add_assoc]
        exact ih _ (hstep _ _ _ m he hm)
  simpa using hgen hp 0 (Nat.le_of_eq hu)

end Walk

section Dist

/-- The least total weight of a walk from `u` to `v`, `⊤` when there is none. -/
noncomputable def pathDist (E : V → V → ℕ → Prop) (u v : V) : ℕ∞ :=
  sInf {x | ∃ h c, Walk E u v h c ∧ x = (c : ℕ∞)}

variable {E F : V → V → ℕ → Prop} {u v : V}

theorem pathDist_le {h c : ℕ} (hp : Walk E u v h c) : pathDist E u v ≤ c :=
  sInf_le ⟨h, c, hp, rfl⟩

theorem le_pathDist {x : ℕ∞} (hx : ∀ h c, Walk E u v h c → x ≤ c) : x ≤ pathDist E u v := by
  refine le_sInf ?_
  rintro y ⟨h, c, hp, rfl⟩
  exact hx h c hp

/-- A finite distance is the weight of a walk. -/
theorem exists_walk_of_pathDist_eq {d : ℕ} (hd : pathDist E u v = d) :
    ∃ h, Walk E u v h d := by
  have hne : {x | ∃ h c, Walk E u v h c ∧ x = (c : ℕ∞)}.Nonempty := by
    rw [Set.nonempty_iff_ne_empty]
    intro hempty
    rw [pathDist, hempty, sInf_empty] at hd
    exact ENat.top_ne_natCast d hd
  obtain ⟨h, c, hp, hc⟩ := csInf_mem hne
  have hcd : (c : ℕ∞) = d := by rw [← hc]; exact hd
  exact ⟨h, by rwa [Nat.cast_inj.mp hcd] at hp⟩

theorem pathDist_mono (hEF : ∀ u v c, E u v c → F u v c) : pathDist F u v ≤ pathDist E u v :=
  le_pathDist (fun _ _ hp => pathDist_le (hp.mono hEF))

/-- **A computed number is the distance cut off at `cap`**: it is `cap` or the weight
of a walk, it does not exceed `cap`, and no walk is cheaper. -/
theorem pathDist_eq_min {cap d : ℕ} (hle : d ≤ cap) (hreal : d = cap ∨ ∃ h, Walk E u v h d)
    (hmin : ∀ h c, Walk E u v h c → d ≤ c) : (d : ℕ∞) = min (cap : ℕ∞) (pathDist E u v) := by
  have hdist : (d : ℕ∞) ≤ pathDist E u v :=
    le_pathDist (fun h c hp => by exact_mod_cast hmin h c hp)
  refine le_antisymm (le_min (by exact_mod_cast hle) hdist) ?_
  rcases hreal with rfl | ⟨h, hp⟩
  · exact min_le_left _ _
  · exact le_trans (min_le_right _ _) (pathDist_le hp)

end Dist

/-! ## Walks with few edges -/

section Hops

variable {E : V → V → ℕ → Prop} {t : V}

/-- A walk to `t` that no other walk between the same vertices beats, in weight first
and in edges second. -/
def Optimal (E : V → V → ℕ → Prop) (t u : V) (h c : ℕ) : Prop :=
  Walk E u t h c ∧ (∀ h' c', Walk E u t h' c' → c ≤ c') ∧ ∀ h', Walk E u t h' c → h ≤ h'

/-- Every walk is matched by an optimal one, which costs no more: of natural numbers one is the
least. -/
theorem exists_optimal {u : V} {h c : ℕ} (hp : Walk E u t h c) :
    ∃ h' c', c' ≤ c ∧ Optimal E t u h' c' := by
  classical
  have hex : ∃ c, ∃ h, Walk E u t h c := ⟨c, h, hp⟩
  have hex2 : ∃ h, Walk E u t h (Nat.find hex) := Nat.find_spec hex
  exact ⟨Nat.find hex2, Nat.find hex, Nat.find_min' hex ⟨h, hp⟩, Nat.find_spec hex2,
    fun h' c' hw => Nat.find_min' hex ⟨h', hw⟩, fun h' hw => Nat.find_min' hex2 hw⟩

/-- What an optimal walk leaves to go is optimal, so every smaller number of edges
occurs as the optimum of some vertex. -/
theorem Optimal.exists_of_le {u : V} {h c : ℕ} (ho : Optimal E t u h c) :
    ∀ m, m ≤ h → ∃ x c', (x = u ∨ ∃ y e, E y x e) ∧ Optimal E t x m c' := by
  obtain ⟨hp, hmin, hhops⟩ := ho
  induction hp with
  | nil v =>
      intro m hm
      obtain rfl : m = 0 := by omega
      exact ⟨v, 0, Or.inl rfl, Walk.nil v, hmin, hhops⟩
  | @cons u v w h c d he hp ih =>
      intro m hm
      rcases Nat.lt_or_ge h m with hlt | hge
      · obtain rfl : m = h + 1 := by omega
        exact ⟨u, c + d, Or.inl rfl, Walk.cons he hp, hmin, hhops⟩
      -- a rival of the rest would be a rival of the whole
      · have hmin' : ∀ h' c', Walk E v w h' c' → d ≤ c' := by
          intro h' c' hw
          have := hmin (h' + 1) (c + c') (Walk.cons he hw)
          omega
        have hhops' : ∀ h', Walk E v w h' d → h ≤ h' := by
          intro h' hw
          have := hhops (h' + 1) (Walk.cons he hw)
          omega
        obtain ⟨x, c', hx, hopt⟩ := ih hmin' hhops' m hge
        refine ⟨x, c', Or.inr ?_, hopt⟩
        rcases hx with rfl | hx
        · exact ⟨u, c, he⟩
        · exact hx

/-- An optimal walk over vertices of a finite set has fewer edges than the set has
elements: the number of edges left tells its vertices apart. -/
theorem Optimal.lt_card {u : V} {h c : ℕ} (S : Finset V) (hu : u ∈ S)
    (hS : ∀ x y e, E x y e → y ∈ S) (ho : Optimal E t u h c) : h < S.card := by
  classical
  -- for each number of edges up to `h`, a vertex with that many to go
  choose f cost hf using fun m : Fin (h + 1) => ho.exists_of_le m (by omega)
  have hmem : ∀ m, f m ∈ S := by
    intro m
    rcases (hf m).1 with hxu | ⟨y, e, he⟩
    · rw [hxu]; exact hu
    · exact hS _ _ _ he
  have hinj : Function.Injective f := by
    intro a b hab
    obtain ⟨ha, hamin, hahops⟩ := (hf a).2
    obtain ⟨hb, hbmin, hbhops⟩ := (hf b).2
    rw [hab] at ha hamin hahops
    have hcost : cost a = cost b := Nat.le_antisymm (hamin _ _ hb) (hbmin _ _ ha)
    rw [hcost] at ha hahops
    exact Fin.ext (Nat.le_antisymm (hahops _ hb) (hbhops _ ha))
  have hcard : (Finset.univ.image f).card = h + 1 := by
    rw [Finset.card_image_of_injective _ hinj, Finset.card_univ, Fintype.card_fin]
  have hsub : Finset.univ.image f ⊆ S := by
    intro x hx
    obtain ⟨m, _, rfl⟩ := Finset.mem_image.mp hx
    exact hmem m
  have := Finset.card_le_card hsub
  omega

/-- **The edge bound.** On a finite set of vertices every walk has a rival of fewer
edges than there are vertices that is no dearer. -/
theorem exists_walk_lt {u : V} {h c : ℕ} (S : Finset V) (hu : u ∈ S)
    (hS : ∀ x y e, E x y e → y ∈ S) (hp : Walk E u t h c) :
    ∃ h' c', h' < S.card ∧ c' ≤ c ∧ Walk E u t h' c' := by
  obtain ⟨h', c', hle, ho⟩ := exists_optimal hp
  exact ⟨h', c', ho.lt_card S hu hS, hle, ho.1⟩

end Hops

end CourseLabs.PathMath
