/-
**Huffman's algorithm is optimal**, as a fact about multisets of weights.

A code is judged by the lengths of its words only, so the competitors are not codes but
length assignments within Kraft's inequality (`LowerBound`); a prefix-free code is one
(`LowerBound.le_of_prefixFree`). For two least weights, the bound for the merged problem
gives the bound for the original one (`LowerBound.merge`): exchange lengths so that the
two have the longest ones, which costs nothing; if those differ, the shorter of the two
serves for both, since Kraft's sum over the others is a multiple of it. No code tree of
the competitor is needed.

`Merge` is one step of the algorithm on a forest. What a run ends with has the leaves it
began with, and costs the least (`greedy_optimal`).
-/
import CourseLabs.PrefixTree
import Mathlib.InformationTheory.Coding.KraftMcMillan
import Mathlib.Logic.Relation
import Mathlib.Tactic.LinearCombination

set_option autoImplicit false

namespace CourseLabs.OptimalCode

open CourseLabs.PrefixTree

/-! ## Length assignments -/

section Lengths

/-- Kraft's sum of a multiset of lengths. -/
noncomputable def kraft (M : Multiset ℕ) : ℝ :=
  (M.map (fun l => (1 / 2 : ℝ) ^ l)).sum

/-- The weighted length of an assignment of lengths to weights. -/
def totalCost (A : Multiset (ℕ × ℕ)) : ℕ :=
  (A.map (fun p => p.1 * p.2)).sum

/-- No assignment of lengths to the weights `W` costs less than `c`. -/
def LowerBound (W : Multiset ℕ) (c : ℕ) : Prop :=
  ∀ A : Multiset (ℕ × ℕ), A.map Prod.fst = W → kraft (A.map Prod.snd) ≤ 1 → c ≤ totalCost A

variable {W : Multiset ℕ} {A : Multiset (ℕ × ℕ)} {c v w : ℕ}

@[simp] theorem kraft_cons (l : ℕ) (M : Multiset ℕ) :
    kraft (l ::ₘ M) = (1 / 2 : ℝ) ^ l + kraft M := by
  rw [kraft, kraft, Multiset.map_cons, Multiset.sum_cons]

@[simp] theorem totalCost_cons (p : ℕ × ℕ) (A : Multiset (ℕ × ℕ)) :
    totalCost (p ::ₘ A) = p.1 * p.2 + totalCost A := by
  rw [totalCost, totalCost, Multiset.map_cons, Multiset.sum_cons]

/-- Over lengths up to `m`, Kraft's sum is a number of parts of size `2 ^ m`. -/
theorem exists_kraft_eq {m : ℕ} {M : Multiset ℕ} (h : ∀ l ∈ M, l ≤ m) :
    ∃ N : ℕ, kraft M = (N : ℝ) * (1 / 2 : ℝ) ^ m := by
  induction M using Multiset.induction_on with
  | empty => exact ⟨0, by simp [kraft]⟩
  | cons l M ih =>
      obtain ⟨N, hN⟩ := ih (fun l hl => h l (Multiset.mem_cons_of_mem hl))
      obtain ⟨k, rfl⟩ : ∃ k, m = l + k :=
        ⟨m - l, by have := h l (Multiset.mem_cons_self l M); omega⟩
      refine ⟨2 ^ k + N, ?_⟩
      have htwo : (2 : ℝ) ^ k * (1 / 2 : ℝ) ^ k = 1 := by
        rw [← mul_pow]
        norm_num
      rw [kraft_cons, hN, pow_add]
      push_cast
      linear_combination -(1 / 2 : ℝ) ^ l * htwo

/-- To give a least weight the longest length costs nothing. -/
theorem exists_longest_first (hA : A.map Prod.fst = w ::ₘ W) (hw : ∀ v ∈ W, w ≤ v) :
    ∃ (L : ℕ) (B : Multiset (ℕ × ℕ)), B.map Prod.fst = W
      ∧ A.map Prod.snd = L ::ₘ B.map Prod.snd ∧ (∀ l ∈ B.map Prod.snd, l ≤ L)
      ∧ w * L + totalCost B ≤ totalCost A := by
  obtain ⟨p, hp, hpw, hpW⟩ := (Multiset.map_eq_cons Prod.fst A W w).mpr hA
  obtain ⟨q, hq, hmax⟩ := Multiset.exists_max_image Prod.snd
    (show A ≠ 0 by rintro rfl; exact absurd hp (Multiset.notMem_zero p))
  obtain ⟨B, rfl⟩ := Multiset.exists_cons_of_mem hp
  rw [Multiset.erase_cons_head] at hpW
  rcases Multiset.mem_cons.mp hq with rfl | hqB
  · -- it has the longest length already
    refine ⟨q.2, B, hpW, Multiset.map_cons _ _ _, ?_, ?_⟩
    · intro l hl
      obtain ⟨x, hx, rfl⟩ := Multiset.mem_map.mp hl
      exact hmax x (Multiset.mem_cons_of_mem hx)
    · rw [totalCost_cons, hpw]
  · -- exchange the lengths of `p` and `q`
    obtain ⟨C, rfl⟩ := Multiset.exists_cons_of_mem hqB
    have hle : w ≤ q.1 := hw q.1 (by rw [← hpW]; exact Multiset.mem_map_of_mem _ hqB)
    have hlen : p.2 ≤ q.2 := hmax p hp
    refine ⟨q.2, (q.1, p.2) ::ₘ C, ?_, ?_, ?_, ?_⟩
    · rw [← hpW, Multiset.map_cons, Multiset.map_cons]
    · rw [Multiset.map_cons, Multiset.map_cons, Multiset.map_cons, Multiset.cons_swap]
    · intro l hl
      rw [Multiset.map_cons, Multiset.mem_cons] at hl
      rcases hl with rfl | hl
      · exact hlen
      · obtain ⟨x, hx, rfl⟩ := Multiset.mem_map.mp hl
        exact hmax x (Multiset.mem_cons_of_mem (Multiset.mem_cons_of_mem hx))
    · obtain ⟨x, hx⟩ := Nat.exists_eq_add_of_le hle
      obtain ⟨y, hy⟩ := Nat.exists_eq_add_of_le hlen
      simp only [totalCost_cons, hpw]
      rw [hx, hy]
      nlinarith [Nat.zero_le (x * y)]

/-- Within Kraft's inequality, with a longest length to spare, the next one can be taken
for both and shortened by one for the two together. -/
theorem kraft_merge {L m : ℕ} {M : Multiset ℕ} (hM : ∀ l ∈ M, l ≤ m)
    (h : kraft (L ::ₘ m ::ₘ M) ≤ 1) : 0 < m ∧ kraft ((m - 1) ::ₘ M) ≤ 1 := by
  obtain ⟨N, hN⟩ := exists_kraft_eq hM
  have hL : (0 : ℝ) < (1 / 2 : ℝ) ^ L := by positivity
  have hm : (0 : ℝ) < (1 / 2 : ℝ) ^ m := by positivity
  have htwo : (2 : ℝ) ^ m * (1 / 2 : ℝ) ^ m = 1 := by
    rw [← mul_pow]
    norm_num
  rw [kraft_cons, kraft_cons, hN] at h
  -- in parts of size `2 ^ m`, strictly less than all of them
  have hlt : ((1 + N : ℕ) : ℝ) < (2 : ℝ) ^ m := by
    have : ((1 + N : ℕ) : ℝ) * (1 / 2 : ℝ) ^ m < (2 : ℝ) ^ m * (1 / 2 : ℝ) ^ m := by
      rw [htwo]
      push_cast
      linarith
    exact lt_of_mul_lt_mul_right this hm.le
  have hnat : 1 + N < 2 ^ m := by exact_mod_cast hlt
  have hpos : 0 < m := by
    rcases Nat.eq_zero_or_pos m with rfl | hpos
    · rw [pow_zero] at hnat
      omega
    · exact hpos
  -- `1 + N` parts are fewer than `2 ^ m`, so there is room for one part more
  refine ⟨hpos, ?_⟩
  obtain ⟨k, rfl⟩ : ∃ k, m = k + 1 := ⟨m - 1, by omega⟩
  have hle : ((2 + N : ℕ) : ℝ) ≤ (2 : ℝ) ^ (k + 1) := by
    exact_mod_cast (show 2 + N ≤ 2 ^ (k + 1) by omega)
  rw [kraft_cons, hN, Nat.add_sub_cancel]
  calc (1 / 2 : ℝ) ^ k + N * (1 / 2 : ℝ) ^ (k + 1)
      = ((2 + N : ℕ) : ℝ) * (1 / 2 : ℝ) ^ (k + 1) := by
        push_cast
        rw [pow_succ]
        ring
    _ ≤ (2 : ℝ) ^ (k + 1) * (1 / 2 : ℝ) ^ (k + 1) := mul_le_mul_of_nonneg_right hle hm.le
    _ = 1 := htwo

theorem lowerBound_singleton (w : ℕ) : LowerBound {w} 0 :=
  fun _ _ _ => Nat.zero_le _

/-- **The greedy choice.** A bound for the two least weights taken together, and their
sum, bound the weights apart. -/
theorem LowerBound.merge (h : LowerBound ((v + w) ::ₘ W) c) (hvw : v ≤ w) (hW : ∀ u ∈ W, w ≤ u) :
    LowerBound (v ::ₘ w ::ₘ W) (c + (v + w)) := by
  intro A hA hkraft
  have hv : ∀ u ∈ w ::ₘ W, v ≤ u := by
    intro u hu
    rcases Multiset.mem_cons.mp hu with rfl | hu
    · exact hvw
    · exact le_trans hvw (hW u hu)
  -- the longest length goes to `v`, the longest of the rest to `w`
  obtain ⟨L, B, hB, hsnd, hmax, hcost⟩ := exists_longest_first hA hv
  obtain ⟨m, C, hC, hsnd', hmax', hcost'⟩ := exists_longest_first hB hW
  rw [hsnd, hsnd'] at hkraft
  have hmL : m ≤ L := hmax m (by rw [hsnd']; exact Multiset.mem_cons_self m _)
  obtain ⟨hpos, hkraft'⟩ := kraft_merge hmax' hkraft
  have hbound := h ((v + w, m - 1) ::ₘ C) (by rw [Multiset.map_cons, hC])
    (by rw [Multiset.map_cons]; exact hkraft')
  rw [totalCost_cons] at hbound
  obtain ⟨k, rfl⟩ : ∃ k, m = k + 1 := ⟨m - 1, by omega⟩
  simp only [Nat.add_sub_cancel] at hbound
  have hvL : v * (k + 1) ≤ v * L := Nat.mul_le_mul_left v hmL
  calc c + (v + w) ≤ (v + w) * k + totalCost C + (v + w) := by omega
    _ = v * (k + 1) + (w * (k + 1) + totalCost C) := by ring
    _ ≤ v * L + totalCost B := by omega
    _ ≤ totalCost A := hcost

end Lengths

/-! ## Prefix-free codes -/

section PrefixFree

open InformationTheory

variable {α : Type} {S : Finset α} {cw : α → List Bool}

/-- No codeword is a prefix of another symbol's, so that codewords can follow one another with
nothing between. -/
def PrefixFree (S : Finset α) (cw : α → List Bool) : Prop :=
  ∀ a ∈ S, ∀ b ∈ S, a ≠ b → ¬ cw a <+: cw b

theorem PrefixFree.injOn (h : PrefixFree S cw) : Set.InjOn cw S := by
  intro a ha b hb hab
  by_contra hne
  exact h a ha b hb hne (hab ▸ List.prefix_refl _)

/-- With two symbols or more, no codeword is empty. -/
theorem PrefixFree.ne_nil (h : PrefixFree S cw) (hS : 2 ≤ S.card) {a : α} (ha : a ∈ S) :
    cw a ≠ [] := by
  intro hnil
  obtain ⟨b, hb, hba⟩ := Finset.exists_mem_ne (show 1 < S.card by omega) a
  exact h a ha b hb hba.symm (hnil ▸ List.nil_prefix)

/-- The code can be decoded: of the same bits there is one reading. The inequality of Kraft holds
of such codes. -/
theorem PrefixFree.uniquelyDecodable [DecidableEq α] (h : PrefixFree S cw) (hS : 2 ≤ S.card) :
    UniquelyDecodable (S.image cw : Set (List Bool)) := by
  have hword : ∀ x, x ∈ (S.image cw : Set (List Bool)) → ∃ a ∈ S, cw a = x := by
    intro x hx
    simpa using hx
  intro L1
  induction L1 with
  | nil =>
      intro L2 _ h2 hflat
      cases L2 with
      | nil => rfl
      | cons y L2 =>
          obtain ⟨b, hb, rfl⟩ := hword y (h2 y List.mem_cons_self)
          have := congrArg List.length hflat
          rw [List.flatten_cons, List.length_append, List.flatten_nil, List.length_nil] at this
          have hnil := h.ne_nil hS hb
          rw [← List.length_pos_iff] at hnil
          omega
  | cons x L1 ih =>
      intro L2 h1 h2 hflat
      obtain ⟨a, ha, rfl⟩ := hword x (h1 x List.mem_cons_self)
      cases L2 with
      | nil =>
          have := congrArg List.length hflat
          rw [List.flatten_cons, List.length_append, List.flatten_nil, List.length_nil] at this
          have hnil := h.ne_nil hS ha
          rw [← List.length_pos_iff] at hnil
          omega
      | cons y L2 =>
          obtain ⟨b, hb, rfl⟩ := hword y (h2 y List.mem_cons_self)
          rw [List.flatten_cons, List.flatten_cons] at hflat
          -- both words start the same string, so they are one word
          have hab : a = b := by
            by_contra hne
            rcases List.prefix_or_prefix_of_prefix (List.prefix_append (cw a) L1.flatten)
              (hflat ▸ List.prefix_append (cw b) L2.flatten) with hpre | hpre
            · exact h a ha b hb hne hpre
            · exact h b hb a ha (Ne.symm hne) hpre
          subst hab
          rw [ih L2 (fun z hz => h1 z (List.mem_cons_of_mem _ hz))
            (fun z hz => h2 z (List.mem_cons_of_mem _ hz)) (List.append_cancel_left hflat)]

/-- A prefix-free code is an assignment of lengths, and costs as much as these do. -/
theorem LowerBound.le_of_prefixFree [DecidableEq α] {w : α → ℕ} {c : ℕ}
    (h : LowerBound (S.val.map w) c) (hcw : PrefixFree S cw) (hS : 2 ≤ S.card) :
    c ≤ ∑ a ∈ S, w a * (cw a).length := by
  have hkraft : kraft ((S.val.map (fun a => (w a, (cw a).length))).map Prod.snd) ≤ 1 := by
    have hsum := kraft_mcmillan_inequality (hcw.uniquelyDecodable hS)
    rw [Finset.sum_image hcw.injOn, Fintype.card_bool] at hsum
    rw [kraft, Multiset.map_map, Multiset.map_map]
    exact_mod_cast hsum
  have hbound := h _ (by rw [Multiset.map_map]; rfl) hkraft
  rw [totalCost, Multiset.map_map] at hbound
  exact hbound

end PrefixFree

/-! ## The algorithm -/

section Greedy

variable {α : Type} {w : α → ℕ} {F F' : Multiset (BinTree α)}

/-- One step: two trees of least weight become one. -/
inductive Merge (w : α → ℕ) : Multiset (BinTree α) → Multiset (BinTree α) → Prop
  | merge (l r : BinTree α) (F : Multiset (BinTree α)) (hlr : weight w l ≤ weight w r)
      (hF : ∀ t ∈ F, weight w r ≤ weight w t) :
      Merge w (l ::ₘ r ::ₘ F) (.node l r ::ₘ F)

/-- A run of the algorithm. -/
abbrev Greedy (w : α → ℕ) : Multiset (BinTree α) → Multiset (BinTree α) → Prop :=
  Relation.ReflTransGen (Merge w)

/-- The leaves of a forest, with those that occur in several trees counted as often. -/
def forestLeaves (F : Multiset (BinTree α)) : Multiset α :=
  F.bind (fun t => (leaves t : Multiset α))

theorem forestLeaves_cons (t : BinTree α) (F : Multiset (BinTree α)) :
    forestLeaves (t ::ₘ F) = (leaves t : Multiset α) + forestLeaves F :=
  Multiset.cons_bind _ _ _

theorem forestLeaves_singleton (t : BinTree α) : forestLeaves {t} = (leaves t : Multiset α) :=
  Multiset.singleton_bind _ _

theorem Merge.forestLeaves_eq (h : Merge w F F') : forestLeaves F' = forestLeaves F := by
  cases h with
  | merge l r F hlr hF =>
      rw [forestLeaves_cons, forestLeaves_cons, forestLeaves_cons, leaves, ← add_assoc,
        Multiset.coe_add]

theorem Merge.sum_weight_eq (h : Merge w F F') :
    (F'.map (weight w)).sum = (F.map (weight w)).sum := by
  cases h with
  | merge l r F hlr hF =>
      simp only [Multiset.map_cons, Multiset.sum_cons, weight]
      ring

theorem Greedy.forestLeaves_eq (h : Greedy w F F') : forestLeaves F' = forestLeaves F := by
  induction h with
  | refl => rfl
  | tail _ hstep ih => rw [hstep.forestLeaves_eq, ih]

theorem Greedy.sum_weight_eq (h : Greedy w F F') :
    (F'.map (weight w)).sum = (F.map (weight w)).sum := by
  induction h with
  | refl => rfl
  | tail _ hstep ih => rw [hstep.sum_weight_eq, ih]

/-- A step hands a bound back: the cost of the new inner node is added. -/
theorem Merge.lowerBound {c : ℕ} (h : Merge w F F')
    (hc : LowerBound (F'.map (weight w)) c) :
    ∃ d, LowerBound (F.map (weight w)) (c + d)
      ∧ (F'.map (cost w)).sum = (F.map (cost w)).sum + d := by
  cases h with
  | merge l r F hlr hF =>
      refine ⟨weight w l + weight w r, ?_, ?_⟩
      · rw [Multiset.map_cons, weight] at hc
        rw [Multiset.map_cons, Multiset.map_cons]
        apply hc.merge hlr
        intro u hu
        obtain ⟨t, ht, rfl⟩ := Multiset.mem_map.mp hu
        exact hF t ht
      · simp only [Multiset.map_cons, Multiset.sum_cons, cost]
        ring

theorem Greedy.lowerBound (h : Greedy w F F') {c : ℕ}
    (hc : LowerBound (F'.map (weight w)) c) :
    ∃ d, LowerBound (F.map (weight w)) (c + d)
      ∧ (F'.map (cost w)).sum = (F.map (cost w)).sum + d := by
  induction h generalizing c with
  | refl => exact ⟨0, hc, rfl⟩
  | tail _ hstep ih =>
      obtain ⟨d, hd, hcost⟩ := hstep.lowerBound hc
      obtain ⟨d', hd', hcost'⟩ := ih hd
      refine ⟨d + d', by rwa [← add_assoc], ?_⟩
      rw [hcost, hcost']
      ring

/-- **Optimality.** A run from single leaves to one tree ends in a tree of least cost. -/
theorem greedy_optimal {t : BinTree α} {S : Multiset α}
    (h : Greedy w (S.map BinTree.leaf) {t}) :
    LowerBound (S.map w) (cost w t) := by
  have hone : LowerBound (({t} : Multiset (BinTree α)).map (weight w)) 0 := by
    rw [Multiset.map_singleton]
    exact lowerBound_singleton _
  obtain ⟨d, hd, hcost⟩ := h.lowerBound hone
  have hzero : ((S.map BinTree.leaf).map (cost w)).sum = 0 := by
    rw [Multiset.map_map]
    apply Multiset.sum_eq_zero
    intro x hx
    obtain ⟨a, -, rfl⟩ := Multiset.mem_map.mp hx
    rfl
  rw [Multiset.map_singleton, Multiset.sum_singleton, hzero, zero_add] at hcost
  rw [zero_add, Multiset.map_map, ← hcost] at hd
  exact hd

end Greedy

end CourseLabs.OptimalCode
