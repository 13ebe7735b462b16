/-
**What an optimal code costs**, and how long its words get.

`LowerBound W c` says that no assignment of lengths to the weights `W` within Kraft's
inequality costs less than `c`. So `c` is at most what any assignment one can write down
costs: the words of one length (`LowerBound.le_fixed`), and Shannon's, each word as long as
its weight is rare (`LowerBound.lt_entropy`). In the other direction nothing within Kraft's
inequality costs less than the entropy (`entropy_le_totalCost`), by `log x ≤ x - 1`.

The words of Huffman's algorithm cannot be long without a large total. When two trees are
merged, their weights are the least there are; so the weight of a child is never more than
that of a tree it has not been merged with (`Merge.siblings`), and the weights along a path
of the tree grow at least like the Fibonacci numbers (`fib_le_weight`).
-/
import CourseLabs.OptimalCode
import Mathlib.Analysis.SpecialFunctions.Log.Base
import Mathlib.Data.Nat.Fib.Basic

set_option autoImplicit false

namespace CourseLabs.OptimalCode

open CourseLabs.PrefixTree

/-! ## The cost -/

section Cost

variable {W : Multiset ℕ} {c : ℕ}

/-- The logarithm that counts bits. -/
noncomputable def log2 (x : ℝ) : ℝ :=
  Real.logb ((2 : ℕ) : ℝ) x

theorem log2_eq (x : ℝ) : log2 x = Real.logb 2 x := by
  rw [log2, Nat.cast_ofNat]

/-- The entropy of the weights, times their sum: the bits of information in them. -/
noncomputable def entropyBits (W : Multiset ℕ) : ℝ :=
  (W.map fun w : ℕ => (w : ℝ) * log2 (W.sum / w)).sum

/-- Lengths chosen from the weights. -/
def assign (W : Multiset ℕ) (len : ℕ → ℕ) : Multiset (ℕ × ℕ) :=
  W.map fun w => (w, len w)

theorem map_fst_assign (len : ℕ → ℕ) : (assign W len).map Prod.fst = W := by
  rw [assign, Multiset.map_map]
  exact Multiset.map_id W

theorem kraft_assign (len : ℕ → ℕ) :
    kraft ((assign W len).map Prod.snd) = (W.map fun w => (1 / 2 : ℝ) ^ len w).sum := by
  rw [kraft, assign, Multiset.map_map, Multiset.map_map]
  rfl

theorem totalCost_assign (len : ℕ → ℕ) :
    totalCost (assign W len) = (W.map fun w => w * len w).sum := by
  rw [totalCost, assign, Multiset.map_map]
  rfl

/-- **Words of one length.** The length is the logarithm of their number, rounded up. -/
theorem LowerBound.le_fixed (h : LowerBound W c) : c ≤ W.sum * Nat.clog 2 W.card := by
  have hcost : totalCost (assign W fun _ => Nat.clog 2 W.card) = W.sum * Nat.clog 2 W.card := by
    rw [totalCost_assign, Multiset.sum_map_mul_right, Multiset.map_id']
  rw [← hcost]
  apply h _ (map_fst_assign _)
  rw [kraft_assign, Multiset.map_const', Multiset.sum_replicate, nsmul_eq_mul, one_div, inv_pow,
    mul_inv_le_iff₀ (by positivity), one_mul]
  exact_mod_cast Nat.le_pow_clog (by norm_num) W.card

/-- The length Shannon gives a weight. -/
noncomputable def shannon (N w : ℕ) : ℕ :=
  ⌈log2 ((N : ℝ) / w)⌉₊

section Shannon

variable {N w : ℕ}

theorem log2_nonneg (hw : 0 < w) (hN : w ≤ N) : 0 ≤ log2 ((N : ℝ) / w) := by
  rw [log2_eq]
  apply Real.logb_nonneg (by norm_num)
  rw [one_le_div (by exact_mod_cast hw)]
  exact_mod_cast hN

/-- Long enough for Kraft's inequality. -/
theorem half_pow_shannon_le (hw : 0 < w) (hN : w ≤ N) :
    (1 / 2 : ℝ) ^ shannon N w ≤ (w : ℝ) / N := by
  have hw' : (0 : ℝ) < w := by exact_mod_cast hw
  have hN' : (0 : ℝ) < N := by exact_mod_cast hw.trans_le hN
  have hle : (N : ℝ) / w ≤ 2 ^ shannon N w := by
    have hceil := Nat.le_ceil (log2 ((N : ℝ) / w))
    rw [log2_eq, Real.logb_le_iff_le_rpow (by norm_num) (by positivity)] at hceil
    exact_mod_cast hceil
  rw [one_div, inv_pow, ← inv_div]
  exact inv_anti₀ (by positivity) hle

/-- And less than a bit longer than the logarithm. -/
theorem shannon_lt (hw : 0 < w) (hN : w ≤ N) :
    (shannon N w : ℝ) < log2 ((N : ℝ) / w) + 1 :=
  Nat.ceil_lt_add_one (log2_nonneg hw hN)

end Shannon

/-- **Shannon's bound**: less than one bit above the entropy for each unit of weight. -/
theorem LowerBound.lt_entropy (h : LowerBound W c) (hW : W ≠ 0) (hpos : ∀ w ∈ W, 0 < w) :
    (c : ℝ) < entropyBits W + W.sum := by
  have hle : ∀ w ∈ W, w ≤ W.sum := fun w hw =>
    Multiset.single_le_sum (fun _ _ => Nat.zero_le _) w hw
  have hN : (0 : ℝ) < W.sum := by
    obtain ⟨w, hw⟩ := Multiset.exists_mem_of_ne_zero hW
    exact_mod_cast (hpos w hw).trans_le (hle w hw)
  -- the lengths of Shannon satisfy the inequality of Kraft, so some code has them
  have hkraft : kraft ((assign W (shannon W.sum)).map Prod.snd) ≤ 1 := by
    rw [kraft_assign]
    calc (W.map fun w => (1 / 2 : ℝ) ^ shannon W.sum w).sum
        ≤ (W.map fun w : ℕ => (w : ℝ) / W.sum).sum :=
          Multiset.sum_map_le_sum_map _ _ fun w hw => half_pow_shannon_le (hpos w hw) (hle w hw)
      _ = 1 := by
          rw [Multiset.sum_map_div, ← Nat.cast_multiset_sum, div_self hN.ne']
  -- and the optimum is no worse than that code
  have hc := h _ (map_fst_assign (shannon W.sum)) hkraft
  rw [totalCost_assign] at hc
  calc (c : ℝ) ≤ ((W.map fun w => w * shannon W.sum w).sum : ℕ) := by exact_mod_cast hc
    _ = (W.map fun w : ℕ => (w : ℝ) * shannon W.sum w).sum := by
        rw [Nat.cast_multiset_sum, Multiset.map_map]
        simp
    _ < (W.map fun w : ℕ => (w : ℝ) * log2 (W.sum / w) + w).sum := by
        apply Multiset.sum_lt_sum_of_nonempty hW
        intro w hw
        have hw' : (0 : ℝ) < w := by exact_mod_cast hpos w hw
        have hlt := shannon_lt (hpos w hw) (hle w hw)
        nlinarith
    _ = entropyBits W + W.sum := by
        rw [Multiset.sum_map_add, entropyBits, ← Nat.cast_multiset_sum]

/-- One word, by `log x ≤ x - 1` at the ratio of what its length and its weight stand for. -/
theorem log2_le_length {N w : ℕ} (hw : 0 < w) (hN : w ≤ N) (l : ℕ) :
    (w : ℝ) * log2 (N / w) ≤ w * l + (N * (1 / 2 : ℝ) ^ l - w) / Real.log 2 := by
  have hw' : (0 : ℝ) < w := by exact_mod_cast hw
  have hN' : (0 : ℝ) < N := by exact_mod_cast hw.trans_le hN
  have hlog : 0 < Real.log 2 := Real.log_pos (by norm_num)
  have hpow : (0 : ℝ) < (1 / 2 : ℝ) ^ l := by positivity
  have hx := Real.log_le_sub_one_of_pos (show 0 < (N : ℝ) / w * (1 / 2 : ℝ) ^ l by positivity)
  have hsplit : Real.log ((N : ℝ) / w * (1 / 2 : ℝ) ^ l)
      = Real.log (N / w) - l * Real.log 2 := by
    rw [Real.log_mul (by positivity) hpow.ne', Real.log_pow, one_div, Real.log_inv]
    ring
  rw [hsplit] at hx
  have hscaled := mul_le_mul_of_nonneg_left hx hw'.le
  have hright : (w : ℝ) * ((N : ℝ) / w * (1 / 2 : ℝ) ^ l - 1) = N * (1 / 2 : ℝ) ^ l - w := by
    field_simp
  rw [hright] at hscaled
  rw [log2_eq, Real.logb, mul_div_assoc', div_le_iff₀ hlog, add_mul, div_mul_cancel₀ _ hlog.ne']
  linarith

/-- **No code costs less than the entropy.** -/
theorem entropy_le_totalCost {A : Multiset (ℕ × ℕ)} (hA : A.map Prod.fst = W)
    (hpos : ∀ w ∈ W, 0 < w) (hkraft : kraft (A.map Prod.snd) ≤ 1) :
    entropyBits W ≤ totalCost A := by
  have hlog : 0 < Real.log 2 := Real.log_pos (by norm_num)
  have hmem : ∀ p ∈ A, 0 < p.1 ∧ p.1 ≤ W.sum := by
    intro p hp
    have hpW : p.1 ∈ W := hA ▸ Multiset.mem_map_of_mem Prod.fst hp
    exact ⟨hpos _ hpW, Multiset.single_le_sum (fun _ _ => Nat.zero_le _) _ hpW⟩
  have hsum : (A.map fun p => (p.1 : ℝ)).sum = W.sum := by
    rw [← hA, Nat.cast_multiset_sum, Multiset.map_map]
    rfl
  have hsnd : (A.map fun p => (1 / 2 : ℝ) ^ p.2).sum = kraft (A.map Prod.snd) := by
    rw [kraft, Multiset.map_map]
    rfl
  have hcost : (A.map fun p => (p.1 : ℝ) * p.2).sum = totalCost A := by
    rw [totalCost, Nat.cast_multiset_sum, Multiset.map_map]
    simp
  -- the slack of the inequality of Kraft has the right sign
  have hslack : ((W.sum : ℝ) * kraft (A.map Prod.snd) - W.sum) / Real.log 2 ≤ 0 := by
    apply div_nonpos_of_nonpos_of_nonneg _ hlog.le
    have := mul_le_mul_of_nonneg_left hkraft (Nat.cast_nonneg (α := ℝ) W.sum)
    linarith
  calc entropyBits W
      = (A.map fun p => (p.1 : ℝ) * log2 (W.sum / p.1)).sum := by
        rw [entropyBits]
        conv_lhs => rw [← hA, Multiset.map_map]
        rw [hA]
        rfl
    _ ≤ (A.map fun p => (p.1 : ℝ) * p.2
          + (W.sum * (1 / 2 : ℝ) ^ p.2 - p.1) / Real.log 2).sum :=
        Multiset.sum_map_le_sum_map _ _ fun p hp =>
          log2_le_length (hmem p hp).1 (hmem p hp).2 p.2
    _ = totalCost A + (W.sum * kraft (A.map Prod.snd) - W.sum) / Real.log 2 := by
        rw [Multiset.sum_map_add, hcost, Multiset.sum_map_div, Multiset.sum_map_sub,
          Multiset.sum_map_mul_left, hsnd, hsum]
    _ ≤ totalCost A := by linarith

end Cost

/-! ## The depth -/

section Depth

variable {α : Type} {w : α → ℕ} {F F' : Multiset (BinTree α)}

/-- The trees one level below the root. -/
def children : BinTree α → List (BinTree α)
  | .leaf _ => []
  | .node l r => [l, r]

/-- No child weighs more than its uncle. -/
def Siblings (w : α → ℕ) : BinTree α → Prop
  | .leaf _ => True
  | .node l r => (∀ c ∈ children l, weight w c ≤ weight w r)
      ∧ (∀ c ∈ children r, weight w c ≤ weight w l) ∧ Siblings w l ∧ Siblings w r

/-- What every forest of the algorithm keeps: a child weighs no more than any tree. -/
structure Grown (w : α → ℕ) (F : Multiset (BinTree α)) : Prop where
  child_le : ∀ t ∈ F, ∀ c ∈ children t, ∀ u ∈ F, weight w c ≤ weight w u
  siblings : ∀ t ∈ F, Siblings w t

theorem grown_leaves (S : Multiset α) : Grown w (S.map BinTree.leaf) := by
  constructor
  · intro t ht c hc
    obtain ⟨a, -, rfl⟩ := Multiset.mem_map.mp ht
    exact absurd hc List.not_mem_nil
  · intro t ht
    obtain ⟨a, -, rfl⟩ := Multiset.mem_map.mp ht
    exact trivial

/-- **One merge.** The new children are the two least trees, and every tree is heavier. -/
theorem Merge.grown (h : Merge w F F') (hF : Grown w F) : Grown w F' := by
  cases h with
  | merge l r F hlr hmin =>
      have hl : l ∈ l ::ₘ r ::ₘ F := Multiset.mem_cons_self l _
      have hr : r ∈ l ::ₘ r ::ₘ F := Multiset.mem_cons_of_mem (Multiset.mem_cons_self r F)
      have hold : ∀ {u}, u ∈ F → u ∈ l ::ₘ r ::ₘ F := fun hu =>
        Multiset.mem_cons_of_mem (Multiset.mem_cons_of_mem hu)
      have hnode : ∀ {x}, x ≤ weight w l → x ≤ weight w (.node l r) := by
        intro x hx
        rw [weight]
        omega
      constructor
      · intro t ht c hc u hu
        rcases Multiset.mem_cons.mp ht with rfl | ht
        · -- the children are `l` and `r`
          have hcr : weight w c ≤ weight w r := by
            rcases List.mem_pair.mp hc with rfl | rfl
            · exact hlr
            · exact Nat.le_refl _
          rcases Multiset.mem_cons.mp hu with rfl | hu
          · rw [weight]
            omega
          · exact hcr.trans (hmin u hu)
        · rcases Multiset.mem_cons.mp hu with rfl | hu
          · exact hnode (hF.child_le t (hold ht) c hc l hl)
          · exact hF.child_le t (hold ht) c hc u (hold hu)
      · intro t ht
        rcases Multiset.mem_cons.mp ht with rfl | ht
        · exact ⟨fun c hc => hF.child_le l hl c hc r hr, fun c hc => hF.child_le r hr c hc l hl,
            hF.siblings l hl, hF.siblings r hr⟩
        · exact hF.siblings t (hold ht)

theorem Greedy.grown (h : Greedy w F F') (hF : Grown w F) : Grown w F' := by
  induction h with
  | refl => exact hF
  | tail _ hstep ih => exact hstep.grown ih

/-- A tree with a root to lose has a child one lower. -/
theorem exists_child {t : BinTree α} (h : 0 < height t) :
    ∃ c ∈ children t, height t = height c + 1 := by
  cases t with
  | leaf a => exact absurd h (Nat.lt_irrefl 0)
  | node l r =>
      rcases Nat.le_total (height l) (height r) with hle | hle
      · exact ⟨r, by simp [children], by rw [height, Nat.max_eq_right hle]⟩
      · exact ⟨l, by simp [children], by rw [height, Nat.max_eq_left hle]⟩

theorem weight_pos {t : BinTree α} (hpos : ∀ a ∈ leaves t, 0 < w a) : 0 < weight w t := by
  induction t with
  | leaf a => exact hpos a (List.mem_singleton.mpr rfl)
  | node l r ihl _ =>
      rw [weight]
      exact Nat.add_pos_left (ihl fun a ha => hpos a (List.mem_append_left _ ha)) _

/-- **The weights along a path grow like the Fibonacci numbers.** The induction needs the
bound for the children as well, two levels being what the recurrence looks back. -/
theorem fib_le_weight {t : BinTree α} (hpos : ∀ a ∈ leaves t, 0 < w a) (h : Siblings w t) :
    Nat.fib (height t + 2) ≤ weight w t
      ∧ ∀ c ∈ children t, Nat.fib (height c + 2) ≤ weight w c := by
  induction t with
  | leaf a => exact ⟨hpos a (List.mem_singleton.mpr rfl), fun c hc => absurd hc List.not_mem_nil⟩
  | node l r ihl ihr =>
      obtain ⟨hlr, hrl, hl, hr⟩ := h
      have hposl : ∀ a ∈ leaves l, 0 < w a := fun a ha => hpos a (List.mem_append_left _ ha)
      have hposr : ∀ a ∈ leaves r, 0 < w a := fun a ha => hpos a (List.mem_append_right _ ha)
      obtain ⟨hfl, hcl⟩ := ihl hposl hl
      obtain ⟨hfr, hcr⟩ := ihr hposr hr
      -- below the higher one of the two there is a child no heavier than the other one
      have hstep : ∀ {t u : BinTree α}, Nat.fib (height t + 2) ≤ weight w t → 0 < weight w u →
          (∀ c ∈ children t, Nat.fib (height c + 2) ≤ weight w c) →
          (∀ c ∈ children t, weight w c ≤ weight w u) →
          Nat.fib (height t + 1 + 2) ≤ weight w t + weight w u := by
        intro t u hft hu hct htu
        have hone : Nat.fib (height t + 1) ≤ weight w u := by
          rcases Nat.eq_zero_or_pos (height t) with h0 | h0
          · rw [h0]
            exact hu
          · obtain ⟨c, hc, hheight⟩ := exists_child h0
            rw [hheight]
            exact (hct c hc).trans (htu c hc)
        have hfib : Nat.fib (height t + 1 + 2)
            = Nat.fib (height t + 1) + Nat.fib (height t + 2) := Nat.fib_add_two
        omega
      constructor
      · rw [height, weight]
        rcases Nat.le_total (height l) (height r) with hle | hle
        · rw [Nat.max_eq_right hle, Nat.add_comm (weight w l)]
          exact hstep hfr (weight_pos hposl) hcr hrl
        · rw [Nat.max_eq_left hle]
          exact hstep hfl (weight_pos hposr) hcl hlr
      · intro c hc
        rcases List.mem_pair.mp hc with rfl | rfl
        · exact hfl
        · exact hfr

/-- **A codeword of Huffman's algorithm is short for its total.** -/
theorem Greedy.fib_length_le {S : Multiset α} {t : BinTree α}
    (h : Greedy w (S.map BinTree.leaf) {t}) (hpos : ∀ a ∈ S, 0 < w a) {a : α} {p : List Bool}
    (hp : (a, p) ∈ codes t) : Nat.fib (p.length + 2) ≤ (S.map w).sum := by
  have hleaves : (leaves t : Multiset α) = S := by
    have := h.forestLeaves_eq
    rw [forestLeaves_singleton] at this
    rw [this, forestLeaves, Multiset.bind_map]
    simp only [leaves, Multiset.coe_singleton]
    rw [Multiset.bind_singleton, Multiset.map_id']
  have hsum : weight w t = (S.map w).sum := by
    rw [weight_eq_sum, ← hleaves, Multiset.map_coe, Multiset.sum_coe]
  have hsib := (h.grown (grown_leaves S)).siblings t (Multiset.mem_singleton_self t)
  have hfib := (fib_le_weight (fun a ha => hpos a (by rw [← hleaves]; exact ha)) hsib).1
  rw [← hsum]
  exact (Nat.fib_mono (Nat.add_le_add_right (length_le_height hp) 2)).trans hfib

end Depth

end CourseLabs.OptimalCode
