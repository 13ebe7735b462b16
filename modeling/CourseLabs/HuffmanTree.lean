/-
`CSMCS26A017_Lab2_2.c`, `buildHuffmanTree`.

The heap of the program is a forest of `BinTree`s: `ofTree freqs t` is the node the
program has for `t`, frequencies included, and each pass of the greedy loop is one `Merge`
(`merge_body_spec`). So the tree that comes out is the end of a `Greedy` run on the
occurring bytes, and what `OptimalCode` says about such runs holds of it.

With fewer than two occurring bytes there is no heap. One byte gets a root with a dummy
leaf at its right, whose symbol `0` may be the occurring byte itself.
-/
import CourseLabs.HuffmanHeap
import CourseLabs.OptimalCode
import Mathlib.Data.FinEnum

set_option autoImplicit false

namespace CourseLabs.Huffman

open CourseLabs.CLoop CourseLabs.PrefixTree CourseLabs.OptimalCode

/-! ## The program -/

/-- The entries of the frequency table, one for every value of a byte. -/
def NUM_CHARS : ℕ := 256

/-- `'$'`, the symbol of the inner nodes. It is an ordinary byte and may occur in the text; leaves
are told by their missing children. -/
def DOLLAR : UInt8 := 36

/-- `isLeaf`: a node with no child. Only leaves carry a byte; inner nodes have `'$'` in its
place. -/
def isLeaf : HuffmanNode → Bool
  | .node _ _ .NULL .NULL => true
  | _ => false

/-- The loop of `buildHuffmanTree` that counts the bytes that occur, which is the capacity it
creates the heap with. -/
def count_distinct (freqs : UInt8 → ℕ) : Option ℕ :=
  forLoop 0 NUM_CHARS 0 fun i distinct =>
    some (if freqs (UInt8.ofNat i) > 0 then distinct + 1 else distinct)

/-- The search for the only character; the state is `i`. -/
def single_body (freqs : UInt8 → ℕ) (i : ℕ) : Option (Pass ℕ (Option HuffmanNode)) :=
  if i < NUM_CHARS then
    if freqs (UInt8.ofNat i) > 0 then
      some (.done (some (.node DOLLAR (freqs (UInt8.ofNat i))
        (createNode (UInt8.ofNat i) (freqs (UInt8.ofNat i))) (createNode 0 0))))
    else
      some (.next (i + 1))
  else
    some (.done none)

/-- The case of a single character, where the function returns from the loop. -/
def single_tree (freqs : UInt8 → ℕ) (distinct : ℕ) : Option (Option HuffmanNode) :=
  if distinct = 1 then loop (single_body freqs) 0 else some none

/-- The loop of `buildHuffmanTree` that pushes one leaf for every byte that occurs, in the order of
the bytes. -/
def insert_leaves (freqs : UInt8 → ℕ) (h : MinHeap) : Option MinHeap :=
  forLoop 0 NUM_CHARS h fun i h =>
    if freqs (UInt8.ofNat i) > 0 then
      insertMinHeap h (createNode (UInt8.ofNat i) (freqs (UInt8.ofNat i)))
    else
      some h

/-- The greedy loop: merge two lowest-frequency trees. The sum of the frequencies is a `uint64_t`
and would wrap around. -/
def merge_body (h : MinHeap) : Option (Pass MinHeap MinHeap) :=
  if h.size > 1 then do
    let (left, h) ← extractMin h
    let (right, h) ← extractMin h
    let fl ← left.freq
    let fr ← right.freq
    let h ← insertMinHeap h (.node DOLLAR ((fl + fr) % 2 ^ 64) left right)
    some (.next h)
  else
    some (.done h)

/-- `buildHuffmanTree`: the root and `*distinctCount`. The argument `cells` is what
`malloc` finds in the array of the heap. -/
def buildHuffmanTree (freqs : UInt8 → ℕ) (cells : ℕ → HuffmanNode) :
    Option (HuffmanNode × ℕ) := do
  let distinct ← count_distinct freqs
  if distinct = 0 then
    some (.NULL, distinct)
  else do
    match ← single_tree freqs distinct with
    | some root => some (root, distinct)
    | none => do
      let h ← insert_leaves freqs (createMinHeap distinct cells)
      let h ← loop merge_body h
      let (root, _) ← extractMin h
      some (root, distinct)

/-! ## Trees of nodes -/

/-- A node that is a full tree, with its shape and symbols. -/
inductive IsTree : HuffmanNode → BinTree UInt8 → Prop
  | leaf (data : UInt8) (freq : ℕ) : IsTree (.node data freq .NULL .NULL) (.leaf data)
  | node {l r : HuffmanNode} {tl tr : BinTree UInt8} (data : UInt8) (freq : ℕ)
      (hl : IsTree l tl) (hr : IsTree r tr) : IsTree (.node data freq l r) (.node tl tr)

/-- A node that stands for a tree is not the null pointer. -/
theorem IsTree.ne_null {n : HuffmanNode} {t : BinTree UInt8} (h : IsTree n t) : n ≠ .NULL := by
  cases h with
  | leaf data freq => exact HuffmanNode.noConfusion
  | node data freq hl hr => exact HuffmanNode.noConfusion

/-- A node made by `createNode` is a leaf: both its children are `NULL`. -/
theorem isLeaf_leaf (data : UInt8) (freq : ℕ) : isLeaf (.node data freq .NULL .NULL) = true :=
  rfl

/-- Only leaves are leaves: the children of an inner node are there. -/
theorem isLeaf_node {l r : HuffmanNode} (data : UInt8) (freq : ℕ) (hl : l ≠ .NULL) :
    isLeaf (.node data freq l r) = false := by
  cases l with
  | NULL => exact absurd rfl hl
  | node d f l' r' => rfl

section Build

variable {freqs : UInt8 → ℕ}

/-- The node the program builds for a tree. Its frequency is the weight of the tree, reduced as the
machine does it. -/
def ofTree (freqs : UInt8 → ℕ) : BinTree UInt8 → HuffmanNode
  | .leaf b => createNode b (freqs b)
  | .node l r => .node DOLLAR ((weight freqs l + weight freqs r) % 2 ^ 64)
      (ofTree freqs l) (ofTree freqs r)

/-- The node written for a tree stands for that tree. -/
theorem isTree_ofTree (t : BinTree UInt8) : IsTree (ofTree freqs t) t := by
  induction t with
  | leaf b => exact .leaf b (freqs b)
  | node l r ihl ihr => exact .node _ _ ihl ihr

/-- The frequency in the root is the weight of the tree, as long as that fits a `uint64_t`. The
sums in `buildHuffmanTree` are `uint64_t` sums, so this is where the bound on the text comes
from. -/
theorem freq_ofTree {t : BinTree UInt8} (h : weight freqs t < 2 ^ 64) :
    (ofTree freqs t).freq = some (weight freqs t) := by
  cases t with
  | leaf b => rfl
  | node l r =>
      rw [weight] at h
      rw [ofTree, HuffmanNode.freq, weight, Nat.mod_eq_of_lt h]

/-- Hence the heap orders the nodes by the weights of their trees. -/
theorem key_ofTree {t : BinTree UInt8} (h : weight freqs t < 2 ^ 64) :
    (ofTree freqs t).key = weight freqs t := by
  rw [HuffmanNode.key, freq_ofTree h, Option.getD_some]

/-! ## The bytes that occur -/

/-- The occurring bytes below `i`. -/
def occurringBelow (freqs : UInt8 → ℕ) (i : ℕ) : Finset UInt8 :=
  Finset.univ.filter (fun b => b.toNat < i ∧ 0 < freqs b)

/-- The occurring bytes: those of positive frequency, for which the program makes leaves. -/
def occurring (freqs : UInt8 → ℕ) : Finset UInt8 :=
  Finset.univ.filter (fun b => 0 < freqs b)

/-- A byte occurs if its frequency is not zero. -/
theorem mem_occurring {b : UInt8} : b ∈ occurring freqs ↔ 0 < freqs b := by
  simp [occurring]

/-- At most 256 bytes occur, so the heap has at most 256 leaves. -/
theorem card_occurring_le (freqs : UInt8 → ℕ) : (occurring freqs).card ≤ 256 := by
  rw [← Finset.card_range 256]
  apply Finset.card_le_card_of_injOn UInt8.toNat
  · intro b _
    rw [Finset.mem_coe, Finset.mem_range]
    exact b.toNat_lt
  · intro a _ b _ hab
    exact UInt8.toNat_inj.mp hab

/-- Nothing is counted before the loop starts. -/
theorem occurringBelow_zero : occurringBelow freqs 0 = ∅ := by
  simp [occurringBelow]

/-- Everything is counted when it ends. -/
theorem occurringBelow_all : occurringBelow freqs NUM_CHARS = occurring freqs := by
  ext b
  have hb : b.toNat < NUM_CHARS := b.toNat_lt
  simp [occurringBelow, occurring, hb]

/-- The loop variable of both loops is a byte, as it stays below `NUM_CHARS`. -/
theorem toNat_ofNat_byte {i : ℕ} (hi : i < NUM_CHARS) : (UInt8.ofNat i).toNat = i :=
  UInt8.toNat_ofNat_of_lt' hi

/-- The byte the loop is at was not counted before. -/
theorem notMem_occurringBelow (freqs : UInt8 → ℕ) {i : ℕ} (hi : i < NUM_CHARS) :
    UInt8.ofNat i ∉ occurringBelow freqs i := by
  simp [occurringBelow, toNat_ofNat_byte hi]

/-- The loops over the characters meet each occurring byte once. -/
theorem occurringBelow_succ (freqs : UInt8 → ℕ) {i : ℕ} (hi : i < NUM_CHARS) :
    occurringBelow freqs (i + 1) = if freqs (UInt8.ofNat i) > 0 then
      insert (UInt8.ofNat i) (occurringBelow freqs i) else occurringBelow freqs i := by
  -- among the bytes, `i` is the value of `UInt8.ofNat i` only
  have hbyte : ∀ b : UInt8, b.toNat = i ↔ b = UInt8.ofNat i := by
    intro b
    rw [← UInt8.toNat_inj, toNat_ofNat_byte hi]
  ext b
  by_cases hb : b = UInt8.ofNat i
  · rw [hb]
    split
    · next hpos => simp [occurringBelow, toNat_ofNat_byte hi, hpos]
    · next hpos => simp [occurringBelow, toNat_ofNat_byte hi, hpos]
  · have hne : b.toNat ≠ i := fun h => hb ((hbyte b).mp h)
    have hle : b.toNat ≤ i ↔ b.toNat < i := by omega
    split
    · simp [occurringBelow, hle, hb]
    · simp [occurringBelow, hle]

/-- The first loop counts the bytes that occur. It is an `int` count and cannot pass 256. -/
theorem count_distinct_spec : count_distinct freqs = some (occurring freqs).card := by
  obtain ⟨d, hrun, hd⟩ := forLoop_spec
    (f := fun i distinct =>
      some (if freqs (UInt8.ofNat i) > 0 then distinct + 1 else distinct))
    (fun i d => d = (occurringBelow freqs i).card) (Nat.zero_le NUM_CHARS)
    (s := 0) (by rw [occurringBelow_zero]; rfl) (by
      rintro i d - hi rfl
      refine ⟨_, rfl, ?_⟩
      rw [occurringBelow_succ freqs hi]
      split
      · rw [Finset.card_insert_of_notMem (notMem_occurringBelow freqs hi)]
      · rfl)
  rw [count_distinct, hrun, hd, occurringBelow_all]

/-! ## The greedy loop -/

/-- The forest of single leaves the heap starts with, one for each occurring byte. -/
def leafForest (S : Finset UInt8) : Multiset (BinTree UInt8) :=
  S.val.map BinTree.leaf

/-- The heap holds the nodes of a forest: this ties the heap of the program to the forests of
Huffman's algorithm, which knows no heap. -/
def HoldsForest (freqs : UInt8 → ℕ) (h : MinHeap) (F : Multiset (BinTree UInt8)) : Prop :=
  HeapOk h (F.map (ofTree freqs))

/-- The heap's size is the number of trees in it, which the merging loop tests against `1`. -/
theorem HoldsForest.size_eq {h : MinHeap} {F : Multiset (BinTree UInt8)}
    (hh : HoldsForest freqs h F) : h.size = F.card := by
  rw [← hh.card_eq, Multiset.card_map]

/-- One tree more. -/
theorem HoldsForest.insert {h : MinHeap} {F : Multiset (BinTree UInt8)}
    (hh : HoldsForest freqs h F) (t : BinTree UInt8) (hroom : h.size < h.capacity) :
    ∃ h', insertMinHeap h (ofTree freqs t) = some h' ∧ HoldsForest freqs h' (t ::ₘ F)
      ∧ h'.capacity = h.capacity := by
  obtain ⟨h', hrun, hok, hcap⟩ := insertMinHeap_spec hh (isTree_ofTree t).ne_null hroom
  refine ⟨h', hrun, ?_, hcap⟩
  rw [HoldsForest, Multiset.map_cons]
  exact hok

/-- After the second loop the heap holds the forest of leaves. The capacity the first loop has
counted is what makes every insertion fit. -/
theorem insert_leaves_spec (freqs : UInt8 → ℕ) (cells : ℕ → HuffmanNode) :
    ∃ h, insert_leaves freqs (createMinHeap (occurring freqs).card cells) = some h
      ∧ HoldsForest freqs h (leafForest (occurring freqs)) := by
  have hmono : ∀ i, (occurringBelow freqs i).card ≤ (occurring freqs).card := by
    intro i
    apply Finset.card_le_card
    intro b hb
    simp only [occurringBelow, Finset.mem_filter] at hb
    exact mem_occurring.mpr hb.2.2
  have hcard : (occurring freqs).card ≤ 2 ^ 30 := le_trans (card_occurring_le freqs) (by decide)
  obtain ⟨h, hrun, hh, -⟩ := forLoop_spec
    (f := fun i h => if freqs (UInt8.ofNat i) > 0 then
        insertMinHeap h (createNode (UInt8.ofNat i) (freqs (UInt8.ofNat i)))
      else some h)
    (fun i h => HoldsForest freqs h (leafForest (occurringBelow freqs i))
      ∧ h.capacity = (occurring freqs).card)
    (Nat.zero_le NUM_CHARS)
    (s := createMinHeap (occurring freqs).card cells)
    ⟨by rw [occurringBelow_zero]; exact createMinHeap_ok hcard _, rfl⟩ (by
      rintro i h - hi ⟨hh, hcap⟩
      have hsucc := occurringBelow_succ freqs hi
      by_cases hpos : freqs (UInt8.ofNat i) > 0
      · rw [if_pos hpos] at hsucc ⊢
        have hnew := notMem_occurringBelow freqs hi
        -- the byte is new, so there is room for it
        have hcard := hmono (i + 1)
        rw [hsucc, Finset.card_insert_of_notMem hnew] at hcard
        have hsize := hh.size_eq
        rw [leafForest, Multiset.card_map, Finset.card_val] at hsize
        obtain ⟨h', hrun, hh', hcap'⟩ := hh.insert (.leaf (UInt8.ofNat i)) (by omega)
        refine ⟨h', hrun, ?_, hcap'.trans hcap⟩
        rwa [hsucc, leafForest, Finset.insert_val_of_notMem hnew, Multiset.map_cons]
      · rw [if_neg hpos] at hsucc ⊢
        exact ⟨h, rfl, by rwa [hsucc], hcap⟩)
  rw [occurringBelow_all] at hh
  exact ⟨h, hrun, hh⟩

/-- What an extraction from a forest takes out: a tree of least weight. The weights must not have
wrapped around for that. -/
theorem extract_tree {h : MinHeap} {F : Multiset (BinTree UInt8)} (hh : HoldsForest freqs h F)
    (hF : F ≠ 0) (hsmall : ∀ t ∈ F, weight freqs t < 2 ^ 64) :
    ∃ t F' h', extractMin h = some (ofTree freqs t, h') ∧ F = t ::ₘ F'
      ∧ (∀ u ∈ F', weight freqs t ≤ weight freqs u)
      ∧ HoldsForest freqs h' F' ∧ h'.capacity = h.capacity := by
  classical
  obtain ⟨x, M, h', hrun, hM, hmin, hok, hcap⟩ := extractMin_spec hh
    (fun h0 => hF (Multiset.map_eq_zero.mp h0))
  obtain ⟨t, ht, rfl, rfl⟩ := (Multiset.map_eq_cons (ofTree freqs) F M x).mpr hM
  refine ⟨t, F.erase t, h', hrun, (Multiset.cons_erase ht).symm, ?_, hok, hcap⟩
  intro u hu
  have hle := hmin _ (Multiset.mem_map_of_mem _ hu)
  rwa [key_ofTree (hsmall t ht), key_ofTree (hsmall u (Multiset.mem_of_mem_erase hu))] at hle

/-- The total is small, so no sum in the loop wraps around. -/
theorem weight_le_sum (freqs : UInt8 → ℕ) {F : Multiset (BinTree UInt8)} {t : BinTree UInt8}
    (ht : t ∈ F) : weight freqs t ≤ (F.map (weight freqs)).sum :=
  Multiset.single_le_sum (fun x _ => Nat.zero_le x) _ (Multiset.mem_map_of_mem _ ht)

/-- **A pass of the loop is a step of Huffman's algorithm.** -/
theorem merge_body_spec {h : MinHeap} {F : Multiset (BinTree UInt8)}
    (hh : HoldsForest freqs h F) (hsum : (F.map (weight freqs)).sum < 2 ^ 64) :
    (F.card ≤ 1 ∧ merge_body h = some (.done h))
      ∨ ∃ h' F', merge_body h = some (.next h') ∧ Merge freqs F F' ∧ HoldsForest freqs h' F'
        ∧ h'.size < h.size := by
  have hsize := hh.size_eq
  have hsmall : ∀ t ∈ F, weight freqs t < 2 ^ 64 := fun t ht =>
    lt_of_le_of_lt (weight_le_sum freqs ht) hsum
  rcases Nat.lt_or_ge 1 h.size with hlt | hge
  · right
    -- two trees of least weight come out, and one goes in
    obtain ⟨l, F1, h1, hrun1, rfl, hmin1, hh1, hcap1⟩ := extract_tree hh
      (Multiset.card_pos.mp (by omega)) hsmall
    rw [Multiset.card_cons] at hsize
    obtain ⟨r, F2, h2, hrun2, rfl, hmin2, hh2, hcap2⟩ := extract_tree hh1
      (Multiset.card_pos.mp (by omega)) (fun t ht => hsmall t (Multiset.mem_cons_of_mem ht))
    rw [Multiset.card_cons] at hsize
    have hsize2 := hh2.size_eq
    have hfit := hh.size_le
    obtain ⟨h3, hrun3, hh3, -⟩ := hh2.insert (.node l r) (by omega)
    have hsize3 := hh3.size_eq
    rw [Multiset.card_cons] at hsize3
    refine ⟨h3, .node l r ::ₘ F2, ?_, ?_, hh3, by omega⟩
    · rw [merge_body, if_pos hlt, hrun1]
      simp only [Option.bind_eq_bind, Option.bind_some, hrun2]
      rw [freq_ofTree (hsmall l (Multiset.mem_cons_self l _)),
        freq_ofTree (hsmall r (Multiset.mem_cons_of_mem (Multiset.mem_cons_self r _)))]
      simp only [Option.bind_some]
      rw [ofTree] at hrun3
      rw [hrun3, Option.bind_some]
    · exact .merge l r F2 (hmin1 r (Multiset.mem_cons_self r _)) hmin2
  · left
    exact ⟨by omega, by rw [merge_body, if_neg (by omega)]⟩

/-- The loop runs Huffman's algorithm to its end: one tree is left, and it comes from the forest by
greedy merges. -/
theorem merge_loop_spec {h : MinHeap} {F : Multiset (BinTree UInt8)}
    (hh : HoldsForest freqs h F) (hF : F ≠ 0) (hsum : (F.map (weight freqs)).sum < 2 ^ 64) :
    ∃ h' t, loop merge_body h = some h' ∧ HoldsForest freqs h' {t} ∧ Greedy freqs F {t} := by
  obtain ⟨h', hrun, t, hh', ht⟩ := loop_spec (f := merge_body) (fun h => h.size)
    (fun h => ∃ F', HoldsForest freqs h F' ∧ F' ≠ 0 ∧ Greedy freqs F F')
    (fun h => ∃ t, HoldsForest freqs h {t} ∧ Greedy freqs F {t}) (by
      rintro h ⟨F', hh, hF', hgreedy⟩
      have hsum' : (F'.map (weight freqs)).sum < 2 ^ 64 := by rwa [hgreedy.sum_weight_eq]
      -- one tree is left and the loop ends, or the two lightest are merged
      rcases merge_body_spec hh hsum' with ⟨hcard, hdone⟩ | ⟨h', F2, hnext, hmerge, hh', hlt⟩
      · left
        have hone : F'.card = 1 := by
          have := Multiset.card_pos.mpr hF'
          omega
        obtain ⟨t, rfl⟩ := Multiset.card_eq_one.mp hone
        exact ⟨h, hdone, t, hh, hgreedy⟩
      · right
        refine ⟨h', hnext, ⟨F2, hh', ?_, hgreedy.tail hmerge⟩, hlt⟩
        cases hmerge with
        | merge l r G hlr hG => exact Multiset.cons_ne_zero)
    (s := h) ⟨F, hh, hF, .refl⟩
  exact ⟨h', t, hrun, hh', ht⟩

/-! ## What the function returns -/

/-- The sum of the frequencies, as the weight of the first forest. -/
theorem sum_weight_leafForest (S : Finset UInt8) :
    ((leafForest S).map (weight freqs)).sum = ∑ b ∈ S, freqs b := by
  rw [leafForest, Multiset.map_map]
  rfl

/-- No byte, no tree: of an empty text the function returns `NULL`, and the count `0`. -/
theorem buildHuffmanTree_empty (cells : ℕ → HuffmanNode) (h : (occurring freqs).card = 0) :
    buildHuffmanTree freqs cells = some (.NULL, 0) := by
  rw [buildHuffmanTree, count_distinct_spec, h]
  rfl

/-- One byte only: the leaf gets a parent `'$'` with an empty right child, so that its codeword is
one bit long and not empty. -/
theorem single_tree_spec {b : UInt8} (h : occurring freqs = {b}) :
    single_tree freqs 1
      = some (some (.node DOLLAR (freqs b) (createNode b (freqs b)) (createNode 0 0))) := by
  have hocc : ∀ c, 0 < freqs c ↔ c = b := by
    intro c
    rw [← mem_occurring, h, Finset.mem_singleton]
  obtain ⟨root, hrun, rfl⟩ := loop_spec (f := single_body freqs) (fun i => NUM_CHARS - i)
    (fun i => i ≤ b.toNat)
    (fun root => root = some (HuffmanNode.node DOLLAR (freqs b) (createNode b (freqs b))
      (createNode 0 0))) (by
      intro i hi
      have hb := b.toNat_lt
      have hlt : i < NUM_CHARS := lt_of_le_of_lt hi hb
      rw [single_body, if_pos hlt]
      -- the search stops at `b`, the only byte with a frequency
      by_cases hpos : freqs (UInt8.ofNat i) > 0
      · left
        rw [if_pos hpos, (hocc _).mp hpos]
        exact ⟨_, rfl, rfl⟩
      · right
        have hne : i ≠ b.toNat := by
          rintro rfl
          rw [UInt8.ofNat_toNat] at hpos
          exact hpos ((hocc b).mpr rfl)
        exact ⟨i + 1, by rw [if_neg hpos], by omega, by omega⟩)
    (s := 0) (Nat.zero_le _)
  rw [single_tree, if_pos rfl, hrun]

/-- One byte: a root with the byte at its left and the dummy leaf at its right. -/
theorem buildHuffmanTree_single {b : UInt8} (cells : ℕ → HuffmanNode)
    (h : occurring freqs = {b}) :
    buildHuffmanTree freqs cells
      = some (.node DOLLAR (freqs b) (createNode b (freqs b)) (createNode 0 0), 1) := by
  rw [buildHuffmanTree, count_distinct_spec, h, Finset.card_singleton, Option.bind_eq_bind,
    Option.bind_some, if_neg one_ne_zero, single_tree_spec h]
  rfl

/-- **Two bytes or more: the tree of a greedy run** on the occurring bytes. -/
theorem buildHuffmanTree_spec (cells : ℕ → HuffmanNode) (h2 : 2 ≤ (occurring freqs).card)
    (hsum : ∑ b ∈ occurring freqs, freqs b < 2 ^ 64) :
    ∃ t, buildHuffmanTree freqs cells = some (ofTree freqs t, (occurring freqs).card)
      ∧ Greedy freqs (leafForest (occurring freqs)) {t} := by
  have hne : leafForest (occurring freqs) ≠ 0 := by
    rw [← Multiset.card_pos, leafForest, Multiset.card_map, Finset.card_val]
    omega
  obtain ⟨h, hrun, hh⟩ := insert_leaves_spec freqs cells
  obtain ⟨h', t, hrun', hh', hgreedy⟩ := merge_loop_spec hh hne (by rwa [sum_weight_leafForest])
  -- no weight wraps: the tree that is left weighs what all the leaves do
  have hsmall : ∀ u ∈ ({t} : Multiset (BinTree UInt8)), weight freqs u < 2 ^ 64 := by
    intro u hu
    have := weight_le_sum freqs hu
    rw [hgreedy.sum_weight_eq, sum_weight_leafForest] at this
    omega
  obtain ⟨u, F, h'', hrun'', hF, -⟩ := extract_tree hh' (Multiset.singleton_ne_zero t) hsmall
  obtain rfl : u = t := by
    have : u ∈ ({t} : Multiset (BinTree UInt8)) := hF ▸ Multiset.mem_cons_self u F
    exact Multiset.mem_singleton.mp this
  refine ⟨u, ?_, hgreedy⟩
  rw [buildHuffmanTree, count_distinct_spec, Option.bind_eq_bind, Option.bind_some,
    if_neg (by omega), single_tree, if_neg (by omega)]
  simp only [Option.bind_eq_bind, Option.bind_some, hrun, hrun', hrun'']

end Build

end CourseLabs.Huffman
