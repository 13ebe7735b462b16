/-
`CSMCS26A017_Lab2_2.c`, `generateCodes`, and the optimality of the codes.

The recursion shares one buffer of `MAX_TREE_HT` characters. Below a node at depth `d`
only the cells from `d` on are written, so the path to the node stays in the first `d`
(`generateCodesRecursive_spec`), and there is room because a tree with at most `256`
leaves is lower than that. A symbol that has two leaves keeps the code of the last one;
with the tree of two bytes or more there are none, and then the table is the code of the
tree (`sum_length_eq_cost`).
-/
import CourseLabs.HuffmanTree

set_option autoImplicit false

namespace CourseLabs.Huffman

open CourseLabs.CMem CourseLabs.PrefixTree CourseLabs.OptimalCode

/-! ## The program -/

def MAX_TREE_HT : ℕ := 256

/-- A row of the code table, its array read as the string it holds. -/
structure CodeEntry where
  code : List Char
  length : ℕ

/-- The `strcpy` of the code into the table, and the assignment of the length. -/
def setCode (codeTable : UInt8 → CodeEntry) (data : UInt8) (codeBuffer : List Char)
    (length : ℕ) : Option (UInt8 → CodeEntry) :=
  if NUL ∈ codeBuffer ∧ (cstr codeBuffer).length < MAX_TREE_HT then
    some (Function.update codeTable data { code := cstr codeBuffer, length })
  else
    none

/-- `generateCodesRecursive`: the buffer and the table as it leaves them. -/
def generateCodesRecursive :
    HuffmanNode → List Char → ℕ → (UInt8 → CodeEntry) → Option (List Char × (UInt8 → CodeEntry))
  | .NULL, codeBuffer, _, codeTable => some (codeBuffer, codeTable)
  | .node data freq left right, codeBuffer, depth, codeTable =>
    if isLeaf (.node data freq left right) then
      if depth = 0 then do
        -- the root itself is a leaf
        let codeBuffer ← store codeBuffer 0 '0'
        let codeBuffer ← store codeBuffer 1 NUL
        let codeTable ← setCode codeTable data codeBuffer 1
        some (codeBuffer, codeTable)
      else do
        let codeBuffer ← store codeBuffer depth NUL
        let codeTable ← setCode codeTable data codeBuffer depth
        some (codeBuffer, codeTable)
    else do
      let s ← (if left ≠ .NULL then
          (store codeBuffer depth '0').bind fun codeBuffer =>
            generateCodesRecursive left codeBuffer (depth + 1) codeTable
        else some (codeBuffer, codeTable))
      (if right ≠ .NULL then
          (store s.1 depth '1').bind fun codeBuffer =>
            generateCodesRecursive right codeBuffer (depth + 1) s.2
        else some s)

/-- The table with every row empty, which is what the bytes that do not occur keep. -/
def emptyTable : UInt8 → CodeEntry :=
  fun _ => { code := [], length := 0 }

/-- `generateCodes`, from the contents of its local `buffer`, which is not initialised in the
source. -/
def generateCodes (root : HuffmanNode) (buffer : List Char) : Option (UInt8 → CodeEntry) :=
  if root = .NULL then
    some emptyTable
  else do
    let (_, codeTable) ← generateCodesRecursive root buffer 0 emptyTable
    some codeTable

/-! ## The table -/

/-- The row of a codeword. -/
def entry (p : List Bool) : CodeEntry :=
  { code := p.map digit, length := p.length }

/-- The table after the codewords `cs`, below the path `p`, have been entered in order. -/
def enter (p : List Bool) (cs : List (UInt8 × List Bool)) (codeTable : UInt8 → CodeEntry) :
    UInt8 → CodeEntry :=
  cs.foldl (fun codeTable c => Function.update codeTable c.1 (entry (p ++ c.2))) codeTable

section Table

variable {p : List Bool} {codeTable : UInt8 → CodeEntry}

/-- The codewords of a child are those of the node, one bit further down. -/
theorem enter_map_cons (b : Bool) (cs : List (UInt8 × List Bool)) :
    enter p (cs.map (Prod.map id (List.cons b))) codeTable = enter (p ++ [b]) cs codeTable := by
  rw [enter, enter, List.foldl_map]
  congr 1
  funext codeTable c
  rw [Prod.map_fst, Prod.map_snd, id_eq, List.append_assoc, List.singleton_append]

theorem enter_node (l r : BinTree UInt8) :
    enter p (codes (.node l r)) codeTable
      = enter (p ++ [true]) (codes r) (enter (p ++ [false]) (codes l) codeTable) := by
  rw [codes, enter, List.foldl_append]
  exact (enter_map_cons true (codes r)).trans
    (congrArg (enter (p ++ [true]) (codes r)) (enter_map_cons false (codes l)))

/-- A symbol that was entered has one of its codewords, the last. -/
theorem enter_apply (p : List Bool) (cs : List (UInt8 × List Bool))
    (codeTable : UInt8 → CodeEntry) (b : UInt8) :
    (∃ q, (b, q) ∈ cs ∧ enter p cs codeTable b = entry (p ++ q))
      ∨ (b ∉ cs.map Prod.fst ∧ enter p cs codeTable b = codeTable b) := by
  induction cs using List.reverseRecOn with
  | nil => exact Or.inr ⟨List.not_mem_nil, rfl⟩
  | append_singleton cs c ih =>
      rw [enter, List.foldl_append, List.foldl_cons, List.foldl_nil]
      -- the last codeword entered wins
      by_cases hb : b = c.1
      · left
        refine ⟨c.2, by rw [hb]; simp, ?_⟩
        rw [hb, Function.update_self]
      · rw [Function.update_of_ne hb]
        rcases ih with ⟨q, hq, heq⟩ | ⟨hb', heq⟩
        · exact Or.inl ⟨q, List.mem_append_left _ hq, heq⟩
        · refine Or.inr ⟨?_, heq⟩
          simp only [List.map_append, List.mem_append, List.map_cons, List.map_nil,
            List.mem_singleton]
          exact not_or.mpr ⟨hb', hb⟩

end Table

/-! ## The recursion -/

/-- The path to the node is in the buffer: the characters below the depth are set, and the others
may be anything. -/
def OnPath (codeBuffer : List Char) (p : List Bool) : Prop :=
  codeBuffer.length = MAX_TREE_HT ∧ codeBuffer.take p.length = p.map digit

section Recursion

variable {codeBuffer : List Char} {p : List Bool} {codeTable : UInt8 → CodeEntry}

/-- A step down writes the next bit of the path. -/
theorem OnPath.step (h : OnPath codeBuffer p) (hp : p.length < MAX_TREE_HT) (b : Bool) :
    ∃ buf, store codeBuffer p.length (digit b) = some buf ∧ OnPath buf (p ++ [b]) := by
  obtain ⟨hlen, htake⟩ := h
  refine ⟨_, store_of_lt (by omega) _, by rw [List.length_set, hlen], ?_⟩
  rw [List.length_append, List.length_singleton, List.map_append, ← htake,
    List.set_eq_take_append_cons_drop, if_pos (by omega), List.take_append, List.take_take,
    List.length_take]
  rw [show min (p.length + 1) p.length = p.length by omega,
    show p.length + 1 - min p.length codeBuffer.length = 1 by omega]
  rfl

/-- What was written further down does not matter above: the second child of a node finds the path
to it as it was. -/
theorem OnPath.up {q : List Bool} (h : OnPath codeBuffer (p ++ q)) : OnPath codeBuffer p := by
  refine ⟨h.1, ?_⟩
  have htake := congrArg (List.take p.length) h.2
  rw [List.take_take, List.length_append, List.map_append,
    show min p.length (p.length + q.length) = p.length by omega] at htake
  rw [htake, List.take_left' (List.length_map _)]

/-- At a leaf the path is copied to the table. -/
theorem OnPath.leaf (h : OnPath codeBuffer p) (hp : p.length < MAX_TREE_HT)
    (codeTable : UInt8 → CodeEntry) (data : UInt8) :
    ∃ buf, store codeBuffer p.length NUL = some buf ∧ OnPath buf p
      ∧ setCode codeTable data buf p.length
        = some (Function.update codeTable data (entry p)) := by
  obtain ⟨hlen, htake⟩ := h
  have hbuf : codeBuffer.set p.length NUL
      = p.map digit ++ NUL :: codeBuffer.drop (p.length + 1) := by
    rw [List.set_eq_take_append_cons_drop, if_pos (by omega), htake]
  refine ⟨_, store_of_lt (by omega) _, ⟨by rw [List.length_set, hlen], ?_⟩, ?_⟩
  · rw [hbuf, List.take_left' (List.length_map _)]
  · rw [hbuf, setCode, cstr_digits, if_pos ⟨by simp, by rwa [List.length_map]⟩]
    rfl

/-- The recursion enters the codewords of the subtree, and keeps the path to it. -/
theorem generateCodesRecursive_spec {n : HuffmanNode} {t : BinTree UInt8} (ht : IsTree n t)
    (hbuf : OnPath codeBuffer p) (hroot : p ≠ [] ∨ 0 < height t)
    (hheight : p.length + height t < MAX_TREE_HT) (codeTable : UInt8 → CodeEntry) :
    ∃ buf, generateCodesRecursive n codeBuffer p.length codeTable
        = some (buf, enter p (codes t) codeTable) ∧ OnPath buf p := by
  induction ht generalizing codeBuffer p codeTable with
  | leaf data freq =>
      have hp : p.length ≠ 0 := by
        rcases hroot with hp | h0
        · rwa [ne_eq, List.length_eq_zero_iff]
        · exact absurd h0 (Nat.lt_irrefl 0)
      obtain ⟨buf, hstore, hbuf', hset⟩ := hbuf.leaf (by omega) codeTable data
      refine ⟨buf, ?_, hbuf'⟩
      rw [generateCodesRecursive, if_pos (isLeaf_leaf data freq), if_neg hp, hstore]
      simp only [Option.bind_eq_bind, Option.bind_some, hset]
      simp [enter, codes]
  | node data freq hl hr ihl ihr =>
      rw [height] at hheight
      -- left with a `0`, then back up, then right with a `1`
      obtain ⟨buf1, hstore1, hbuf1⟩ := hbuf.step (by omega) false
      obtain ⟨buf2, hrun2, hbuf2⟩ := ihl hbuf1 (Or.inl (by simp))
        (by rw [List.length_append, List.length_singleton]; omega) codeTable
      obtain ⟨buf3, hstore3, hbuf3⟩ := hbuf2.up.step (by omega) true
      obtain ⟨buf4, hrun4, hbuf4⟩ := ihr hbuf3 (Or.inl (by simp))
        (by rw [List.length_append, List.length_singleton]; omega)
        (enter (p ++ [false]) (codes _) codeTable)
      rw [List.length_append, List.length_singleton] at hrun2 hrun4
      refine ⟨buf4, ?_, hbuf4.up⟩
      rw [generateCodesRecursive, isLeaf_node data freq hl.ne_null, if_neg (by simp),
        if_pos hl.ne_null, show '0' = digit false from rfl, hstore1, Option.bind_some, hrun2,
        Option.bind_eq_bind, Option.bind_some, if_pos hr.ne_null,
        show '1' = digit true from rfl, hstore3, Option.bind_some, hrun4, enter_node]

end Recursion

/-- Every leaf gets one of its codewords, every other symbol the empty code. -/
theorem generateCodes_spec {n : HuffmanNode} {t : BinTree UInt8} {buffer : List Char}
    (ht : IsTree n t) (hbuf : buffer.length = MAX_TREE_HT) (hroot : 0 < height t)
    (hheight : height t < MAX_TREE_HT) :
    ∃ codeTable, generateCodes n buffer = some codeTable
      ∧ (∀ b ∈ leaves t, ∃ p, (b, p) ∈ codes t ∧ codeTable b = entry p)
      ∧ ∀ b, b ∉ leaves t → codeTable b = emptyTable b := by
  obtain ⟨buf, hrun, -⟩ := generateCodesRecursive_spec (p := []) ht ⟨hbuf, rfl⟩ (Or.inr hroot)
    (by rwa [List.length_nil, Nat.zero_add]) emptyTable
  refine ⟨enter [] (codes t) emptyTable, ?_, fun b hb => ?_, fun b hb => ?_⟩
  · rw [List.length_nil] at hrun
    rw [generateCodes, if_neg ht.ne_null, hrun]
    rfl
  · rcases enter_apply [] (codes t) emptyTable b with ⟨q, hq, heq⟩ | ⟨hb', -⟩
    · exact ⟨q, hq, heq⟩
    · rw [map_fst_codes] at hb'
      exact absurd hb hb'
  · rcases enter_apply [] (codes t) emptyTable b with ⟨q, hq, -⟩ | ⟨-, heq⟩
    · rw [← map_fst_codes] at hb
      exact absurd (List.mem_map_of_mem (f := Prod.fst) hq) hb
    · exact heq

/-! ## Optimality -/

section Optimal

variable {freqs : UInt8 → ℕ} {t : BinTree UInt8}

/-- The leaves of the tree are the occurring bytes, each of them once, since a merge keeps the
leaves of both trees. -/
theorem leaves_eq_occurring (h : Greedy freqs (leafForest (occurring freqs)) {t}) :
    (leaves t : Multiset UInt8) = (occurring freqs).val := by
  have hleaves := h.forestLeaves_eq
  rw [forestLeaves_singleton] at hleaves
  rw [hleaves, forestLeaves, leafForest, Multiset.bind_map]
  simp only [leaves, Multiset.coe_singleton]
  rw [Multiset.bind_singleton, Multiset.map_id']

theorem nodup_leaves (h : Greedy freqs (leafForest (occurring freqs)) {t}) : (leaves t).Nodup := by
  have := (occurring freqs).nodup
  rwa [← leaves_eq_occurring h, Multiset.coe_nodup] at this

theorem mem_leaves (h : Greedy freqs (leafForest (occurring freqs)) {t}) {b : UInt8} :
    b ∈ leaves t ↔ 0 < freqs b := by
  rw [← mem_occurring, ← Finset.mem_val, ← leaves_eq_occurring h, Multiset.mem_coe]

theorem length_leaves (h : Greedy freqs (leafForest (occurring freqs)) {t}) :
    (leaves t).length = (occurring freqs).card := by
  rw [← Finset.card_val, ← leaves_eq_occurring h, Multiset.coe_card]

/-- A tree of at least two bytes has an inner node, and one of at most `256` is not too
high for the buffers. -/
theorem height_bounds (h : Greedy freqs (leafForest (occurring freqs)) {t})
    (h2 : 2 ≤ (occurring freqs).card) : 0 < height t ∧ height t < MAX_TREE_HT := by
  have hlen := length_leaves h
  constructor
  · cases t with
    | leaf b =>
        rw [leaves, List.length_singleton] at hlen
        omega
    | node l r => exact Nat.succ_pos _
  · have hlt := height_lt_length_leaves t
    have hcard := card_occurring_le freqs
    rw [MAX_TREE_HT]
    omega

/-- With every symbol at one leaf, the weighted length of the table is the cost of the
tree. -/
theorem sum_length_eq_cost {codeTable : UInt8 → CodeEntry}
    (h : Greedy freqs (leafForest (occurring freqs)) {t})
    (htable : ∀ b ∈ leaves t, ∃ p, (b, p) ∈ codes t ∧ codeTable b = entry p) :
    ∑ b ∈ occurring freqs, freqs b * (codeTable b).length = cost freqs t := by
  have hnodup := nodup_leaves h
  rw [← map_fst_codes] at hnodup
  -- no symbol has a second leaf, so its row is the codeword of its only one
  have hrow : ∀ c ∈ codes t, freqs c.1 * (codeTable c.1).length = freqs c.1 * c.2.length := by
    rintro ⟨b, q⟩ hc
    obtain ⟨p, hp, hrow⟩ := htable b (by
      rw [← map_fst_codes]
      exact List.mem_map_of_mem (f := Prod.fst) hc)
    have hpq := List.inj_on_of_nodup_map hnodup hp hc rfl
    rw [hrow, (Prod.mk.inj hpq).2]
    rfl
  calc ∑ b ∈ occurring freqs, freqs b * (codeTable b).length
      = ((leaves t).map (fun b => freqs b * (codeTable b).length)).sum := by
        rw [Finset.sum, ← leaves_eq_occurring h, Multiset.map_coe, Multiset.sum_coe]
    _ = ((codes t).map (fun c => freqs c.1 * (codeTable c.1).length)).sum := by
        rw [← map_fst_codes, List.map_map]
        rfl
    _ = ((codes t).map (fun c => freqs c.1 * c.2.length)).sum := by
        rw [List.map_congr_left hrow]
    _ = cost freqs t := (cost_eq_sum freqs t).symm

/-- **The codes are optimal.** No prefix-free code for the occurring bytes makes the
payload shorter than the table `generateCodes` fills in from the tree of
`buildHuffmanTree`. -/
theorem huffman_optimal (cells : ℕ → HuffmanNode) {buffer : List Char}
    (hbuffer : buffer.length = MAX_TREE_HT) (h2 : 2 ≤ (occurring freqs).card)
    (hsum : ∑ b ∈ occurring freqs, freqs b < 2 ^ 64) :
    ∃ root codeTable, buildHuffmanTree freqs cells = some (root, (occurring freqs).card)
      ∧ generateCodes root buffer = some codeTable
      ∧ ∀ cw : UInt8 → List Bool, PrefixFree (occurring freqs) cw →
        ∑ b ∈ occurring freqs, freqs b * (codeTable b).length
          ≤ ∑ b ∈ occurring freqs, freqs b * (cw b).length := by
  obtain ⟨t, hbuild, hgreedy⟩ := buildHuffmanTree_spec cells h2 hsum
  obtain ⟨hpos, hlow⟩ := height_bounds hgreedy h2
  obtain ⟨codeTable, hcodes, htable, -⟩ := generateCodes_spec (isTree_ofTree t) hbuffer hpos hlow
  refine ⟨ofTree freqs t, codeTable, hbuild, hcodes, fun cw hcw => ?_⟩
  rw [sum_length_eq_cost hgreedy htable]
  exact (greedy_optimal hgreedy).le_of_prefixFree hcw h2

/-- The frequencies of the text `aaab`. -/
def freqsAaab (b : UInt8) : ℕ :=
  if b = 97 then 3 else if b = 98 then 1 else 0

theorem occurring_aaab : occurring freqsAaab = {97, 98} := by
  ext b
  rw [mem_occurring, freqsAaab, Finset.mem_insert, Finset.mem_singleton]
  by_cases ha : b = 97
  · simp [ha]
  · by_cases hb : b = 98
    · simp [hb]
    · simp [ha, hb]

theorem huffman_optimal_aaab :
    ∃ root codeTable, buildHuffmanTree freqsAaab (fun _ => .NULL)
        = some (root, (occurring freqsAaab).card)
      ∧ generateCodes root (List.replicate MAX_TREE_HT NUL) = some codeTable
      ∧ ∀ cw : UInt8 → List Bool, PrefixFree (occurring freqsAaab) cw →
        ∑ b ∈ occurring freqsAaab, freqsAaab b * (codeTable b).length
          ≤ ∑ b ∈ occurring freqsAaab, freqsAaab b * (cw b).length := by
  apply huffman_optimal (fun _ => .NULL) List.length_replicate
  · rw [occurring_aaab]
    decide
  · rw [occurring_aaab]
    decide

end Optimal

end CourseLabs.Huffman
