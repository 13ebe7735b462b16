/-
`parity.c`: the two-dimensional parity.

A block is the matrix with its row and column parities; a parity of the parities is not
sent with it. So two blocks differ in at least four positions exactly when their matrices
differ in two (`farApart_iff`): a change of one bit with the parities of its row and its
column is a consistent block at distance three.
-/
import CourseLabs.CLoop
import CourseLabs.CMem
import CourseLabs.ProductParity
import Mathlib.Algebra.BigOperators.Ring.Finset

set_option autoImplicit false

namespace CourseLabs.Parity

open CourseLabs.CLoop CourseLabs.CMem CourseLabs.ProductParity

/-! ## The program -/

def MAX_ROWS : ℕ := 16

def MAX_COLS : ℕ := 16

/-- `matrix[r][c]`, inside the array. The rows and columns in use may be fewer than it has. -/
def cell (matrix : ℕ → ℕ → Char) (r c : ℕ) : Option Char :=
  if r < MAX_ROWS ∧ c < MAX_COLS then some (matrix r c) else none

/-- The loops that count the ones of a row or of a column, `n` cells long. -/
def count_line (n : ℕ) (line : ℕ → Option Char) : Option ℕ :=
  forLoop 0 n 0 fun i ones => do
    let bit ← line i
    some (if bit = '1' then ones + 1 else ones)

def parity_bit (ones : ℕ) : Char :=
  if ones % 2 = 0 then '0' else '1'

/-- The loops over the rows and over the columns: the parities of `m` lines. -/
def compute_parity (m n : ℕ) (line : ℕ → ℕ → Option Char) (parity : List Char) :
    Option (List Char) :=
  forLoop 0 m parity fun i parity => do
    let ones ← count_line n (line i)
    store parity i (parity_bit ones)

/-- `row_parity` and `col_parity`, from what the two arrays contain at first. -/
def demo_2d_parity (rows cols : ℕ) (matrix : ℕ → ℕ → Char) (row_parity col_parity : List Char) :
    Option (List Char × List Char) := do
  let row_parity ← compute_parity rows cols (fun r c => cell matrix r c) row_parity
  let col_parity ← compute_parity cols rows (fun c r => cell matrix r c) col_parity
  some (row_parity, col_parity)

/-! ## Blocks -/

/-- The cells are bits, as the characters the program counts; what lies beyond the rows and columns
in use is not looked at. -/
def BitMatrix (rows cols : ℕ) (matrix : ℕ → ℕ → Char) : Prop :=
  ∀ r < rows, ∀ c < cols, matrix r c = '0' ∨ matrix r c = '1'

/-- Where two matrices differ: the positions, of which the program has to tell by the parities
alone. -/
def differing (rows cols : ℕ) (x y : ℕ → ℕ → Char) : Finset (ℕ × ℕ) :=
  (Finset.range rows ×ˢ Finset.range cols).filter fun p => x p.1 p.2 ≠ y p.1 p.2

/-- The number of positions in which two blocks differ: those of the data, and those of both
parities. -/
def distance (rows cols : ℕ) (x y : ℕ → ℕ → Char) (px py : List Char × List Char) : ℕ :=
  (differing rows cols x y).card
    + ((Finset.range rows).filter fun r => px.1[r]? ≠ py.1[r]?).card
    + ((Finset.range cols).filter fun c => px.2[c]? ≠ py.2[c]?).card

/-- The two blocks are computed, and differ in at least four positions. -/
def FarApart (rows cols : ℕ) (x y : ℕ → ℕ → Char) (row_parity col_parity : List Char) : Prop :=
  ∃ px py, demo_2d_parity rows cols x row_parity col_parity = some px
    ∧ demo_2d_parity rows cols y row_parity col_parity = some py
    ∧ 4 ≤ distance rows cols x y px py

/-! ## What the loops compute -/

section Lines

variable {m n : ℕ} {line : ℕ → ℕ → Option Char} {get : ℕ → ℕ → Char} {parity : List Char}

/-- The ones of a line, be it a row or a column; their number modulo two is the parity. -/
def ones (n : ℕ) (get : ℕ → Char) : ℕ :=
  ((Finset.range n).filter fun i => get i = '1').card

theorem count_line_spec {line : ℕ → Option Char} {get : ℕ → Char}
    (hline : ∀ i < n, line i = some (get i)) : count_line n line = some (ones n get) := by
  obtain ⟨k, hrun, hk⟩ := forLoop_spec
    (f := fun i ones => do
      let bit ← line i
      some (if bit = '1' then ones + 1 else ones))
    (fun i k => k = ones i get) (Nat.zero_le n) (s := 0) (by simp [ones]) (by
      rintro i k - hi rfl
      refine ⟨_, by rw [hline i hi]; rfl, ?_⟩
      rw [ones, ones, Finset.range_add_one, Finset.filter_insert]
      split
      · rw [Finset.card_insert_of_notMem (by simp)]
      · rfl)
  rw [count_line, hrun, hk]

theorem compute_parity_spec (hline : ∀ i < m, ∀ j < n, line i j = some (get i j))
    (hlen : m ≤ parity.length) :
    ∃ parity', compute_parity m n line parity = some parity'
      ∧ ∀ i < m, parity'[i]? = some (parity_bit (ones n (get i))) := by
  obtain ⟨parity', hrun, -, hpar⟩ := forLoop_spec
    (f := fun i parity => do
      let ones ← count_line n (line i)
      store parity i (parity_bit ones))
    -- the invariant: the parities of the first i lines are stored
    (fun i p => p.length = parity.length
      ∧ ∀ k < i, p[k]? = some (parity_bit (ones n (get k))))
    (Nat.zero_le m) (s := parity) ⟨rfl, fun k hk => absurd hk (by omega)⟩ (by
      rintro i p - hi ⟨hp, hdone⟩
      refine ⟨p.set i (parity_bit (ones n (get i))), ?_, by rw [List.length_set, hp], ?_⟩
      · rw [count_line_spec (hline i hi), Option.bind_eq_bind, Option.bind_some,
          store_of_lt (by omega)]
      · intro k hk
        rcases eq_or_ne i k with rfl | hne
        · rw [List.getElem?_set_self (by omega)]
        · rw [List.getElem?_set_ne hne]
          exact hdone k (by omega))
  exact ⟨parity', hrun, hpar⟩

/-- A cell outside the array ends the run: no line can be counted without it. -/
theorem compute_parity_none {i j : ℕ} (hi : i < m) (hj : j < n) (h : line i j = none) :
    compute_parity m n line parity = none := by
  apply forLoop_none (Nat.zero_le i) hi
  intro p
  have hcount : count_line n (line i) = none :=
    forLoop_none (Nat.zero_le j) hj fun k => by rw [h]; rfl
  rw [hcount]
  rfl

end Lines

/-! ## The parities of two lines -/

theorem parity_bit_ne_iff (k l : ℕ) : parity_bit k ≠ parity_bit l ↔ Odd (k + l) := by
  rw [parity_bit, parity_bit, Nat.odd_iff]
  split <;> split <;> simp <;> omega

/-- Two lines have different parities when they differ in an odd number of cells. -/
theorem odd_differing_iff {n : ℕ} {x y : ℕ → Char} (hx : ∀ i < n, x i = '0' ∨ x i = '1')
    (hy : ∀ i < n, y i = '0' ∨ y i = '1') :
    Odd ((Finset.range n).filter fun i => x i ≠ y i).card ↔ Odd (ones n x + ones n y) := by
  -- a cell that is `1` in both is counted twice
  have hsum : ones n x + ones n y = ((Finset.range n).filter fun i => x i ≠ y i).card
      + 2 * ((Finset.range n).filter fun i => x i = '1' ∧ y i = '1').card := by
    simp only [ones, Finset.card_filter, Finset.mul_sum, ← Finset.sum_add_distrib]
    apply Finset.sum_congr rfl
    intro i hi
    rw [Finset.mem_range] at hi
    rcases hx i hi with h0 | h1
    · rcases hy i hi with h0' | h1'
      · simp [h0, h0']
      · simp [h0, h1']
    · rcases hy i hi with h0' | h1'
      · simp [h1, h0']
      · simp [h1, h1']
  rw [hsum, Nat.odd_add, iff_true_right (even_two_mul _)]

section Blocks

variable {rows cols : ℕ} {x y : ℕ → ℕ → Char} {row_parity col_parity : List Char}

theorem cell_of_lt {r c : ℕ} (hr : r < MAX_ROWS) (hc : c < MAX_COLS) :
    cell x r c = some (x r c) :=
  if_pos ⟨hr, hc⟩

theorem demo_2d_parity_spec (hrows : rows ≤ MAX_ROWS) (hcols : cols ≤ MAX_COLS)
    (hrow : row_parity.length = MAX_ROWS) (hcol : col_parity.length = MAX_COLS) :
    ∃ p, demo_2d_parity rows cols x row_parity col_parity = some p
      ∧ (∀ r < rows, p.1[r]? = some (parity_bit (ones cols (x r))))
      ∧ ∀ c < cols, p.2[c]? = some (parity_bit (ones rows fun r => x r c)) := by
  obtain ⟨row, hrun_row, hrow'⟩ := @compute_parity_spec rows cols (fun r c => cell x r c) x
    row_parity (fun r hr c hc => cell_of_lt (by omega) (by omega)) (by omega)
  obtain ⟨col, hrun_col, hcol'⟩ := @compute_parity_spec cols rows (fun c r => cell x r c)
    (fun c r => x r c) col_parity (fun c hc r hr => cell_of_lt (by omega) (by omega)) (by omega)
  refine ⟨(row, col), ?_, hrow', hcol'⟩
  rw [demo_2d_parity, hrun_row, Option.bind_eq_bind, Option.bind_some, hrun_col]
  rfl

/-- Too many rows or columns for the arrays, so there is no result for any matrix of that size. -/
theorem demo_2d_parity_none (hrows : 1 ≤ rows) (hcols : 1 ≤ cols)
    (h : MAX_ROWS < rows ∨ MAX_COLS < cols) :
    demo_2d_parity rows cols x row_parity col_parity = none := by
  have hnone : compute_parity rows cols (fun r c => cell x r c) row_parity = none := by
    rcases h with hlt | hlt
    · exact compute_parity_none hlt hcols (if_neg (by simp))
    · exact compute_parity_none hrows hlt (if_neg (by simp))
  rw [demo_2d_parity, hnone]
  rfl

/-- The lines that show a difference, by rows or by columns. -/
theorem card_differing_parities {m n : ℕ} {x y : ℕ → ℕ → Char} {f g : ℕ × ℕ → ℕ}
    {D : Finset (ℕ × ℕ)} {px py : List Char}
    (hfiber : ∀ i < m, (D.filter fun p => f p = i).image g
      = (Finset.range n).filter fun j => x i j ≠ y i j)
    (hD : ∀ p ∈ D, f p < m) (hline : ∀ p ∈ D, ∀ q ∈ D, f p = f q → g p = g q → p = q)
    (hx : BitMatrix m n x) (hy : BitMatrix m n y)
    (hpx : ∀ i < m, px[i]? = some (parity_bit (ones n (x i))))
    (hpy : ∀ i < m, py[i]? = some (parity_bit (ones n (y i)))) :
    (Finset.range m).filter (fun i => px[i]? ≠ py[i]?) = oddFibers f D := by
  have hodd : ∀ i < m, (px[i]? ≠ py[i]? ↔ Odd (D.filter fun p => f p = i).card) := by
    intro i hi
    have hinj : Set.InjOn g (D.filter fun p => f p = i) := by
      intro p hp q hq hpq
      simp only [Finset.coe_filter, Set.mem_ofPred_eq] at hp hq
      exact hline p hp.1 q hq.1 (hp.2.trans hq.2.symm) hpq
    rw [hpx i hi, hpy i hi, ne_eq, Option.some.injEq, ← ne_eq, parity_bit_ne_iff,
      ← odd_differing_iff (hx i hi) (hy i hi), ← hfiber i hi, Finset.card_image_of_injOn hinj]
  ext i
  rw [Finset.mem_filter, Finset.mem_range, mem_oddFibers]
  constructor
  · rintro ⟨hi, hne⟩
    exact (hodd i hi).mp hne
  · intro h
    obtain ⟨p, hp⟩ := Finset.card_pos.mp h.pos
    rw [Finset.mem_filter] at hp
    have hi : i < m := hp.2 ▸ hD p hp.1
    exact ⟨hi, (hodd i hi).mpr h⟩

/-- The differing cells of a row, and those of a column. -/
theorem differing_row {r : ℕ} (hr : r < rows) :
    ((differing rows cols x y).filter fun p => p.1 = r).image Prod.snd
      = (Finset.range cols).filter fun c => x r c ≠ y r c := by
  ext c
  simp only [differing, Finset.mem_image, Finset.mem_filter, Finset.mem_product, Finset.mem_range]
  constructor
  · rintro ⟨⟨r', c'⟩, ⟨⟨⟨-, hc⟩, hne⟩, rfl⟩, rfl⟩
    exact ⟨hc, hne⟩
  · rintro ⟨hc, hne⟩
    exact ⟨(r, c), ⟨⟨⟨hr, hc⟩, hne⟩, rfl⟩, rfl⟩

theorem differing_col {c : ℕ} (hc : c < cols) :
    ((differing rows cols x y).filter fun p => p.2 = c).image Prod.fst
      = (Finset.range rows).filter fun r => x r c ≠ y r c := by
  ext r
  simp only [differing, Finset.mem_image, Finset.mem_filter, Finset.mem_product, Finset.mem_range]
  constructor
  · rintro ⟨⟨r', c'⟩, ⟨⟨⟨hr, -⟩, hne⟩, rfl⟩, rfl⟩
    exact ⟨hr, hne⟩
  · rintro ⟨hr, hne⟩
    exact ⟨(r, c), ⟨⟨⟨hr, hc⟩, hne⟩, rfl⟩, rfl⟩

theorem mem_differing {p : ℕ × ℕ} (h : p ∈ differing rows cols x y) : p.1 < rows ∧ p.2 < cols := by
  simp only [differing, Finset.mem_filter, Finset.mem_product, Finset.mem_range] at h
  exact h.1

/-- Two blocks, by the cells in which their matrices differ. -/
theorem distance_eq {px py : List Char × List Char} (hx : BitMatrix rows cols x)
    (hy : BitMatrix rows cols y)
    (hpx : ∀ r < rows, px.1[r]? = some (parity_bit (ones cols (x r))))
    (hpx' : ∀ c < cols, px.2[c]? = some (parity_bit (ones rows fun r => x r c)))
    (hpy : ∀ r < rows, py.1[r]? = some (parity_bit (ones cols (y r))))
    (hpy' : ∀ c < cols, py.2[c]? = some (parity_bit (ones rows fun r => y r c))) :
    distance rows cols x y px py = (differing rows cols x y).card
      + (oddFibers Prod.fst (differing rows cols x y)).card
      + (oddFibers Prod.snd (differing rows cols x y)).card := by
  rw [distance, card_differing_parities (g := Prod.snd) (fun r hr => differing_row hr)
      (fun p hp => (mem_differing hp).1) (fun p _ q _ h1 h2 => Prod.ext h1 h2) hx hy hpx hpy,
    card_differing_parities (f := Prod.snd) (g := Prod.fst) (x := fun c r => x r c)
      (y := fun c r => y r c) (fun c hc => differing_col hc)
      (fun p hp => (mem_differing hp).2) (fun p _ q _ h1 h2 => Prod.ext h2 h1)
      (fun c hc r hr => hx r hr c hc) (fun c hc r hr => hy r hr c hc) hpx' hpy']

end Blocks

/-! ## The distance -/

section FarApart

variable {rows cols : ℕ} {x y : ℕ → ℕ → Char} {row_parity col_parity : List Char}

/-- **When two blocks are four apart**: when the arrays have room for them, and the matrices
differ in two cells at least. -/
theorem farApart_iff (hrows : 1 ≤ rows) (hcols : 1 ≤ cols) (hx : BitMatrix rows cols x)
    (hy : BitMatrix rows cols y) (hrow : row_parity.length = MAX_ROWS)
    (hcol : col_parity.length = MAX_COLS) :
    FarApart rows cols x y row_parity col_parity
      ↔ rows ≤ MAX_ROWS ∧ cols ≤ MAX_COLS ∧ 2 ≤ (differing rows cols x y).card := by
  -- the arrays hold both matrices, or the store runs past one of them
  by_cases hfit : rows ≤ MAX_ROWS ∧ cols ≤ MAX_COLS
  · obtain ⟨hrows', hcols'⟩ := hfit
    obtain ⟨px, hrunx, hpx, hpx'⟩ := demo_2d_parity_spec (x := x) hrows' hcols' hrow hcol
    obtain ⟨py, hruny, hpy, hpy'⟩ := demo_2d_parity_spec (x := y) hrows' hcols' hrow hcol
    rw [and_iff_right hrows', and_iff_right hcols',
      ← four_le_iff (f := Prod.fst) (g := Prod.snd) fun p _ q _ h1 h2 => Prod.ext h1 h2,
      ← distance_eq hx hy hpx hpx' hpy hpy']
    constructor
    · rintro ⟨px', py', hx', hy', h4⟩
      rw [hrunx] at hx'
      rw [hruny] at hy'
      rwa [Option.some.inj hx', Option.some.inj hy']
    · exact fun h4 => ⟨px, py, hrunx, hruny, h4⟩
  · refine iff_of_false ?_ fun h => hfit ⟨h.1, h.2.1⟩
    rintro ⟨px, py, hrunx, -, -⟩
    rw [demo_2d_parity_none hrows hcols (by omega)] at hrunx
    exact absurd hrunx (by simp)

end FarApart

/-- Two rows of two bits that differ in both. -/
theorem farApart_iff_two :
    FarApart 1 2 (fun _ _ => '0') (fun _ _ => '1') (List.replicate 16 NUL) (List.replicate 16 NUL)
      ∧ 2 ≤ (differing 1 2 (fun _ _ => '0') (fun _ _ => '1')).card := by
  have hcard : 2 ≤ (differing 1 2 (fun _ _ => '0') (fun _ _ => '1')).card := by decide
  exact ⟨(farApart_iff (by decide) (by decide) (fun _ _ _ _ => Or.inl rfl)
    (fun _ _ _ _ => Or.inr rfl) rfl rfl).mpr ⟨by decide, by decide, hcard⟩, hcard⟩

/-- One bit changed, with its two parities: a consistent block at distance three. -/
theorem not_always_farApart :
    ¬ ∀ (rows cols : ℕ) (x y : ℕ → ℕ → Char), 1 ≤ rows → 1 ≤ cols → BitMatrix rows cols x →
      BitMatrix rows cols y → (∃ r < rows, ∃ c < cols, x r c ≠ y r c) →
        FarApart rows cols x y (List.replicate 16 NUL) (List.replicate 16 NUL) := by
  intro h
  obtain ⟨px, py, hx, hy, h4⟩ := h 1 1 (fun _ _ => '0') (fun _ _ => '1') (by decide) (by decide)
    (fun _ _ _ _ => Or.inl rfl) (fun _ _ _ _ => Or.inr rfl)
    ⟨0, by decide, 0, by decide, by decide⟩
  have hle : distance 1 1 (fun _ _ => '0') (fun _ _ => '1') px py ≤ 3 := by
    have hdata : (differing 1 1 (fun _ _ => '0') (fun _ _ => '1')).card = 1 := by decide
    have hrow := Finset.card_filter_le (Finset.range 1) fun r => px.1[r]? ≠ py.1[r]?
    have hcol := Finset.card_filter_le (Finset.range 1) fun c => px.2[c]? ≠ py.2[c]?
    rw [Finset.card_range] at hrow hcol
    rw [distance, hdata]
    omega
  omega

end CourseLabs.Parity
