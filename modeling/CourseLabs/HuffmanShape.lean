/-
`CSMCS26A017_Lab2_2.c`: the shape of the Huffman tree, and of the codes read off it.

`Shape` says at every node what a Huffman tree is: no child or two, a leaf with the
frequency of its byte, an inner node with the exact sum of its children. The codes are the
paths of a full binary tree, so none is a prefix of another and Kraft's sum is `1`.
-/
import CourseLabs.HuffmanCode
import Mathlib.Algebra.BigOperators.Field
import Mathlib.Data.Rat.Lemmas
import Mathlib.Tactic.FieldSimp

set_option autoImplicit false

namespace CourseLabs.Huffman

open CourseLabs.CMem CourseLabs.PrefixTree CourseLabs.OptimalCode

/-! ## Trees of nodes, node by node -/

/-- Every node has no child or two. -/
def Full : HuffmanNode → Prop
  | .NULL => True
  | .node _ _ left right => (left = .NULL ↔ right = .NULL) ∧ Full left ∧ Full right

/-- The leaves with their frequencies, from left to right. -/
def leafEntries : HuffmanNode → List (UInt8 × ℕ)
  | .NULL => []
  | .node data freq left right =>
    if isLeaf (.node data freq left right) then
      [(data, freq)]
    else
      leafEntries left ++ leafEntries right

/-- Every inner node carries the sum of its children. -/
def SumsUp : HuffmanNode → Prop
  | .NULL => True
  | .node data freq left right =>
    (isLeaf (.node data freq left right) = false →
      ∃ fl fr, left.freq = some fl ∧ right.freq = some fr ∧ freq = fl + fr)
    ∧ SumsUp left ∧ SumsUp right

/-- A full tree is one of the trees of the development. -/
theorem Full.exists_isTree {n : HuffmanNode} (h : Full n) (hn : n ≠ .NULL) :
    ∃ t, IsTree n t := by
  induction n with
  | NULL => exact absurd rfl hn
  | node data freq l r ihl ihr =>
      obtain ⟨hlr, hl, hr⟩ := h
      by_cases h0 : l = .NULL
      · rw [hlr.mp h0, h0]
        exact ⟨.leaf data, .leaf data freq⟩
      · obtain ⟨tl, htl⟩ := ihl hl h0
        obtain ⟨tr, htr⟩ := ihr hr fun hr0 => h0 (hlr.mpr hr0)
        exact ⟨.node tl tr, .node data freq htl htr⟩

theorem IsTree.full {n : HuffmanNode} {t : BinTree UInt8} (h : IsTree n t) : Full n := by
  induction h with
  | leaf data freq => exact ⟨Iff.rfl, trivial, trivial⟩
  | node data freq hl hr ihl ihr =>
      exact ⟨iff_of_false hl.ne_null hr.ne_null, ihl, ihr⟩

section OfTree

variable {freqs : UInt8 → ℕ} {t : BinTree UInt8}

theorem leafEntries_ofTree (t : BinTree UInt8) :
    leafEntries (ofTree freqs t) = (leaves t).map fun b => (b, freqs b) := by
  induction t with
  | leaf b => rfl
  | node l r ihl ihr =>
      rw [ofTree, leafEntries, isLeaf_node _ _ (isTree_ofTree l).ne_null, if_neg (by simp), ihl,
        ihr, leaves, List.map_append]

/-- Below `2 ^ 64` no sum wraps around. -/
theorem sumsUp_ofTree (h : weight freqs t < 2 ^ 64) : SumsUp (ofTree freqs t) := by
  induction t with
  | leaf b => exact ⟨fun hleaf => by simp [isLeaf] at hleaf, trivial, trivial⟩
  | node l r ihl ihr =>
      rw [weight] at h
      refine ⟨fun _ => ⟨weight freqs l, weight freqs r, freq_ofTree (by omega),
        freq_ofTree (by omega), Nat.mod_eq_of_lt h⟩, ihl (by omega), ihr (by omega)⟩

end OfTree

/-- What a Huffman tree for the frequencies is. -/
structure Shape (freqs : UInt8 → ℕ) (root : HuffmanNode) : Prop where
  full : Full root
  leaves_nodup : (leafEntries root).Nodup
  mem_leaves : ∀ b f, (b, f) ∈ leafEntries root ↔ 0 < freqs b ∧ f = freqs b
  sums : SumsUp root
  total : root.freq = some (∑ b ∈ occurring freqs, freqs b)

theorem shape_ofTree {freqs : UInt8 → ℕ} {t : BinTree UInt8}
    (h : Greedy freqs (leafForest (occurring freqs)) {t})
    (hsum : ∑ b ∈ occurring freqs, freqs b < 2 ^ 64) : Shape freqs (ofTree freqs t) := by
  have hweight : weight freqs t = ∑ b ∈ occurring freqs, freqs b := by
    have hsum := h.sum_weight_eq
    rwa [Multiset.map_singleton, Multiset.sum_singleton, sum_weight_leafForest] at hsum
  rw [← hweight] at hsum
  refine ⟨(isTree_ofTree t).full, ?_, ?_, sumsUp_ofTree hsum, ?_⟩
  · rw [leafEntries_ofTree]
    exact (nodup_leaves h).map fun a b hab => (Prod.mk.inj hab).1
  · intro b f
    rw [leafEntries_ofTree, List.mem_map, ← mem_leaves h]
    constructor
    · rintro ⟨c, hc, heq⟩
      obtain ⟨rfl, rfl⟩ := Prod.mk.inj heq
      exact ⟨hc, rfl⟩
    · rintro ⟨hb, rfl⟩
      exact ⟨b, hb, rfl⟩
  · rw [freq_ofTree hsum, hweight]

/-! ## The codes -/

/-- What the code table of a Huffman tree is. -/
structure CodeShape (freqs : UInt8 → ℕ) (codeTable : UInt8 → CodeEntry) : Prop where
  length_eq : ∀ b, (codeTable b).length = (codeTable b).code.length
  bounds : ∀ b, 0 < freqs b →
    1 ≤ (codeTable b).length ∧ (codeTable b).length ≤ (occurring freqs).card - 1
  others : ∀ b, freqs b = 0 → (codeTable b).code = []
  prefix_free : ∀ a b, 0 < freqs a → 0 < freqs b → a ≠ b →
    ¬ (codeTable a).code <+: (codeTable b).code
  kraft : ∑ b ∈ occurring freqs, (1 / 2 : ℚ) ^ (codeTable b).length = 1

section Codes

variable {α : Type}

/-- Kraft's sum of the codewords of a full binary tree. -/
theorem sum_codes (t : BinTree α) :
    ((codes t).map fun c => (1 / 2 : ℚ) ^ c.2.length).sum = 1 := by
  induction t with
  | leaf a => simp [codes]
  | node l r ihl ihr =>
      -- one bit more halves each term
      have hhalf : ∀ (b : Bool) (cs : List (α × List Bool)),
          ((cs.map (Prod.map id (List.cons b))).map fun c => (1 / 2 : ℚ) ^ c.2.length).sum
            = (cs.map fun c => (1 / 2 : ℚ) ^ c.2.length).sum * (1 / 2) := by
        intro b cs
        rw [List.map_map, ← List.sum_map_mul_right]
        congr 1
        apply List.map_congr_left
        intro c _
        rw [Function.comp_apply, Prod.map_snd, List.length_cons, pow_succ]
      rw [codes, List.map_append, List.sum_append, hhalf, hhalf, ihl, ihr]
      norm_num

theorem prefix_of_map_digit {p q : List Bool} (h : p.map digit <+: q.map digit) : p <+: q := by
  obtain ⟨r, hr⟩ := h
  obtain ⟨p', r', rfl, hp', -⟩ := List.map_eq_append_iff.mp hr.symm
  rw [← bits_digit p, ← hp', bits_digit]
  exact List.prefix_append p' r'

end Codes

section Table

variable {freqs : UInt8 → ℕ} {t : BinTree UInt8} {codeTable : UInt8 → CodeEntry}

/-- A row of the table and the leaf of its symbol have the same length. -/
theorem kraft_of_table (h : Greedy freqs (leafForest (occurring freqs)) {t})
    (htable : ∀ b ∈ leaves t, ∃ p, (b, p) ∈ codes t ∧ codeTable b = entry p) :
    ∑ b ∈ occurring freqs, (1 / 2 : ℚ) ^ (codeTable b).length = 1 := by
  have hnodup := nodup_leaves h
  rw [← map_fst_codes] at hnodup
  have hcode : ∀ c ∈ codes t, (1 / 2 : ℚ) ^ (codeTable c.1).length
      = (1 / 2 : ℚ) ^ c.2.length := by
    rintro ⟨b, q⟩ hc
    obtain ⟨p, hp, heq⟩ := htable b (by
      rw [← map_fst_codes]
      exact List.mem_map_of_mem (f := Prod.fst) hc)
    have hpq := List.inj_on_of_nodup_map hnodup hp hc rfl
    rw [heq, (Prod.mk.inj hpq).2]
    rfl
  calc ∑ b ∈ occurring freqs, (1 / 2 : ℚ) ^ (codeTable b).length
      = ((leaves t).map fun b => (1 / 2 : ℚ) ^ (codeTable b).length).sum := by
        rw [Finset.sum, ← leaves_eq_occurring h, Multiset.map_coe, Multiset.sum_coe]
    _ = ((codes t).map fun c => (1 / 2 : ℚ) ^ (codeTable c.1).length).sum := by
        rw [← map_fst_codes, List.map_map]
        rfl
    _ = ((codes t).map fun c => (1 / 2 : ℚ) ^ c.2.length).sum := by
        rw [List.map_congr_left hcode]
    _ = 1 := sum_codes t

/-- The table of a tree in which every symbol has one leaf. -/
theorem codeShape_of_table (h : Greedy freqs (leafForest (occurring freqs)) {t})
    (h2 : 2 ≤ (occurring freqs).card)
    (htable : ∀ b ∈ leaves t, ∃ p, (b, p) ∈ codes t ∧ codeTable b = entry p)
    (hother : ∀ b, b ∉ leaves t → codeTable b = emptyTable b) : CodeShape freqs codeTable := by
  -- every occurring byte has a row, and every other row is the empty one
  have hrow : ∀ b, 0 < freqs b → ∃ p, (b, p) ∈ codes t ∧ codeTable b = entry p :=
    fun b hb => htable b ((mem_leaves h).mpr hb)
  have hempty : ∀ b, freqs b = 0 → codeTable b = emptyTable b :=
    fun b hb => hother b fun hmem => absurd ((mem_leaves h).mp hmem) (by omega)
  obtain ⟨hheight, -⟩ := height_bounds h h2
  refine ⟨?_, ?_, fun b hb => by rw [hempty b hb, emptyTable], ?_, ?_⟩
  · intro b
    rcases Nat.eq_zero_or_pos (freqs b) with h0 | hpos
    · rw [hempty b h0, emptyTable, List.length_nil]
    · obtain ⟨p, -, heq⟩ := hrow b hpos
      rw [heq, entry, List.length_map]
  · intro b hb
    obtain ⟨p, hp, heq⟩ := hrow b hb
    have hle := length_le_height hp
    have hlt := height_lt_length_leaves t
    rw [length_leaves h] at hlt
    rw [heq, entry]
    exact ⟨length_pos_of_mem_codes hheight hp, by simp only; omega⟩
  -- two rows, one beginning with the other, are of one leaf
  · intro a b ha hb hne hpre
    obtain ⟨p, hp, hpa⟩ := hrow a ha
    obtain ⟨q, hq, hqb⟩ := hrow b hb
    rw [hpa, hqb, entry, entry] at hpre
    exact hne (codeword_prefix_eq hp hq (prefix_of_map_digit hpre)).1
  · exact kraft_of_table h htable

end Table

/-- **The tree and its codes.** With two occurring bytes or more the program builds a
Huffman tree, and the table it fills in, within its buffers, is a prefix-free code with
the full Kraft sum. -/
theorem huffman_shape {freqs : UInt8 → ℕ} (cells : ℕ → HuffmanNode) {buffer : List Char}
    (hbuffer : buffer.length = MAX_TREE_HT) (h2 : 2 ≤ (occurring freqs).card)
    (hsum : ∑ b ∈ occurring freqs, freqs b < 2 ^ 64) :
    ∃ root codeTable, buildHuffmanTree freqs cells = some (root, (occurring freqs).card)
      ∧ Shape freqs root ∧ generateCodes root buffer = some codeTable
      ∧ CodeShape freqs codeTable := by
  obtain ⟨t, hbuild, hgreedy⟩ := buildHuffmanTree_spec cells h2 hsum
  obtain ⟨hpos, hlow⟩ := height_bounds hgreedy h2
  obtain ⟨codeTable, hcodes, htable, hother⟩ := generateCodes_spec (isTree_ofTree t) hbuffer hpos
    hlow
  exact ⟨ofTree freqs t, codeTable, hbuild, shape_ofTree hgreedy hsum, hcodes,
    codeShape_of_table hgreedy h2 htable hother⟩

theorem huffman_shape_aaab :
    ∃ root codeTable, buildHuffmanTree freqsAaab (fun _ => .NULL)
        = some (root, (occurring freqsAaab).card)
      ∧ Shape freqsAaab root ∧ generateCodes root (List.replicate MAX_TREE_HT NUL) = some codeTable
      ∧ CodeShape freqsAaab codeTable := by
  apply huffman_shape (fun _ => .NULL) List.length_replicate
  · rw [occurring_aaab]
    decide
  · rw [occurring_aaab]
    decide

end CourseLabs.Huffman
