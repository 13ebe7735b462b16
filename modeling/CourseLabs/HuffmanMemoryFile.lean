/-
`CSMCS26A017_Lab2_2.c` with its pointers: the compressor.

What walks the tree only reads it, so `generateCodes` and `serializeTreePreorder` give for a tree
in memory what they give for the tree. `compressFile` frees the tree on both ways out, the one on
which the output file cannot be opened included (`compressFile_returns_memory`).
-/
import CourseLabs.HuffmanMemoryHeap
import CourseLabs.HuffmanRoundTrip

set_option autoImplicit false

namespace CourseLabs.HuffmanMemory

open CourseLabs.Blocks CourseLabs.CLoop CourseLabs.CMem
open CourseLabs.Huffman (HuffmanNode BitWriter CodeEntry writeBit writeBits bitWriterInit
  bitWriterFlush setCode emptyTable countChars putSize writePayload HUF_MAGIC MAX_TREE_HT)

/-! ## The program -/

def generateCodesRecursive (σ : Memory) (root : ℕ) (codeBuffer : List Char) (depth : ℕ)
    (codeTable : UInt8 → CodeEntry) : Option (List Char × (UInt8 → CodeEntry)) :=
  letI generateCodesRecursive : ℕ → List Char → ℕ → (UInt8 → CodeEntry) →
      Option (List Char × (UInt8 → CodeEntry)) := by
    exact generateCodesRecursive σ
  if root = NULL then
    some (codeBuffer, codeTable)
  else do
    let n ← nodeAt σ root
    if ← isLeaf σ root then
      if depth = 0 then do
        -- the root itself is a leaf
        let codeBuffer ← store codeBuffer 0 '0'
        let codeBuffer ← store codeBuffer 1 NUL
        let codeTable ← setCode codeTable n.data codeBuffer 1
        some (codeBuffer, codeTable)
      else do
        let codeBuffer ← store codeBuffer depth NUL
        let codeTable ← setCode codeTable n.data codeBuffer depth
        some (codeBuffer, codeTable)
    else do
      let s ← (if n.left ≠ NULL then do
          let codeBuffer ← store codeBuffer depth '0'
          generateCodesRecursive n.left codeBuffer (depth + 1) codeTable
        else some (codeBuffer, codeTable))
      if n.right ≠ NULL then do
        let codeBuffer ← store s.1 depth '1'
        generateCodesRecursive n.right codeBuffer (depth + 1) s.2
      else
        some s
partial_fixpoint

def generateCodes (σ : Memory) (root : ℕ) (buffer : List Char) : Option (UInt8 → CodeEntry) :=
  if root = NULL then
    some emptyTable
  else do
    let (_, codeTable) ← generateCodesRecursive σ root buffer 0 emptyTable
    some codeTable

def serializeTreePreorder (σ : Memory) (root : ℕ) (bw : BitWriter) : Option BitWriter :=
  letI serializeTreePreorder : ℕ → BitWriter → Option BitWriter := by
    exact serializeTreePreorder σ
  if root = NULL then
    some bw
  else do
    let n ← nodeAt σ root
    if ← isLeaf σ root then
      some (writeBits (writeBit bw 1) n.data.toNat 8)
    else do
      let bw ← serializeTreePreorder n.left (writeBit bw 0)
      serializeTreePreorder n.right bw
partial_fixpoint

/-- `compressFile`, from where the input has been opened: what it returns, the output file if it
could be opened, and the memory. -/
def compressFile (alloc : Allocator Block) (σ : Memory) (input : List UInt8) (cells : ℕ → ℕ)
    (buffer : List Char) (opened : Bool) : Option ((ℤ × Option (List UInt8)) × Memory) := do
  let (freqs, totalChars) := countChars input
  let ((root, _), σ) ← buildHuffmanTree alloc σ freqs cells
  let codeTable ← generateCodes σ root buffer
  if opened then do
    let out := putSize HUF_MAGIC totalChars 8
    let out ← (if totalChars > 0 ∧ root ≠ NULL then do
        let bw ← serializeTreePreorder σ root (bitWriterInit out)
        some (bitWriterFlush (writePayload codeTable bw input)).fp
      else some out)
    let σ ← freeTree σ root
    some ((0, some out), σ)
  else do
    let σ ← freeTree σ root
    some ((-1, none), σ)

/-! ## Walks over the tree -/

section Walks

variable {σ : Memory} {p : ℕ} {x : HuffmanNode} {A : Multiset ℕ}

/-- A step down to a child, if there is one. -/
theorem generateCodes_child {codeBuffer : List Char} {depth : ℕ} {codeTable : UInt8 → CodeEntry}
    {r : List Char × (UInt8 → CodeEntry)} (c : Char) (h : Rep σ p x A)
    (hx : ∀ {codeBuffer r},
      Huffman.generateCodesRecursive x codeBuffer (depth + 1) codeTable = some r →
        generateCodesRecursive σ p codeBuffer (depth + 1) codeTable = some r)
    (hrun : (if x ≠ .NULL then (store codeBuffer depth c).bind fun codeBuffer =>
        Huffman.generateCodesRecursive x codeBuffer (depth + 1) codeTable
      else some (codeBuffer, codeTable)) = some r) :
    (if p ≠ NULL then (store codeBuffer depth c).bind fun codeBuffer =>
        generateCodesRecursive σ p codeBuffer (depth + 1) codeTable
      else some (codeBuffer, codeTable)) = some r := by
  by_cases hnull : x = .NULL
  · rw [if_neg (not_not_intro hnull)] at hrun
    rw [if_neg (not_not_intro (h.null_iff.mpr hnull))]
    exact hrun
  · rw [if_pos hnull] at hrun
    rw [if_pos fun h0 => hnull (h.null_iff.mp h0)]
    obtain ⟨buf, hbuf, hcall⟩ := Option.bind_eq_some_iff.mp hrun
    rw [hbuf, Option.bind_some]
    exact hx hcall

theorem generateCodesRecursive_rep {codeBuffer : List Char} {depth : ℕ}
    {codeTable : UInt8 → CodeEntry} {r : List Char × (UInt8 → CodeEntry)} (h : Rep σ p x A)
    (hrun : Huffman.generateCodesRecursive x codeBuffer depth codeTable = some r) :
    generateCodesRecursive σ p codeBuffer depth codeTable = some r := by
  induction x generalizing p A codeBuffer depth codeTable r with
  | NULL =>
      cases h
      rw [generateCodesRecursive, if_pos rfl]
      exact hrun
  | node data freq left right ihl ihr =>
      cases h with
      | node hp hl hr =>
          have hleaf := isLeaf_spec (.node hp hl hr) HuffmanNode.noConfusion
          rw [Huffman.generateCodesRecursive] at hrun
          rw [generateCodesRecursive, if_neg (ne_null_of_nodeAt hp), hp]
          simp only [Option.bind_eq_bind, Option.bind_some, hleaf]
          by_cases h0 : Huffman.isLeaf (.node data freq left right) = true
          · rw [if_pos h0] at hrun ⊢
            exact hrun
          · rw [if_neg h0] at hrun ⊢
            obtain ⟨s, hs, hrest⟩ := Option.bind_eq_some_iff.mp hrun
            rw [generateCodes_child '0' hl (ihl hl) hs, Option.bind_some]
            exact generateCodes_child '1' hr (ihr hr) hrest

theorem serializeTreePreorder_rep (h : Rep σ p x A) (bw : BitWriter) :
    serializeTreePreorder σ p bw = some (Huffman.serializeTreePreorder x bw) := by
  induction x generalizing p A bw with
  | NULL =>
      cases h
      rw [serializeTreePreorder, if_pos rfl, Huffman.serializeTreePreorder]
  | node data freq left right ihl ihr =>
      cases h with
      | node hp hl hr =>
          have hleaf := isLeaf_spec (.node hp hl hr) HuffmanNode.noConfusion
          rw [serializeTreePreorder, if_neg (ne_null_of_nodeAt hp), hp,
            Huffman.serializeTreePreorder]
          simp only [Option.bind_eq_bind, Option.bind_some, hleaf]
          by_cases h0 : Huffman.isLeaf (.node data freq left right) = true
          · rw [if_pos h0, if_pos h0]
          · rw [if_neg h0, if_neg h0, ihl hl, Option.bind_some, ihr hr]

theorem generateCodes_rep {buffer : List Char} {codeTable : UInt8 → CodeEntry}
    (h : Rep σ p x A) (hrun : Huffman.generateCodes x buffer = some codeTable) :
    generateCodes σ p buffer = some codeTable := by
  rw [Huffman.generateCodes] at hrun
  rw [generateCodes]
  by_cases hnull : x = .NULL
  · rw [if_pos hnull] at hrun
    rw [if_pos (h.null_iff.mpr hnull)]
    exact hrun
  · rw [if_neg hnull] at hrun
    rw [if_neg fun h0 => hnull (h.null_iff.mp h0)]
    obtain ⟨r, hr, heq⟩ := Option.bind_eq_some_iff.mp hrun
    rw [generateCodesRecursive_rep h hr]
    exact heq

end Walks

/-! ## `compressFile` -/

section Compress

variable {input : List UInt8}

/-- What `compressFile` returns, if the output file can be opened or not. -/
def returned (r : ℤ × List UInt8) (opened : Bool) : ℤ × Option (List UInt8) :=
  if opened then (r.1, some r.2) else (-1, none)

theorem compressFile_rep {nodes : ℕ → HuffmanNode} {buffer : List Char} {r : ℤ × List UInt8}
    (alloc : Allocator Block) (σ : Memory) (cells : ℕ → ℕ) (opened : Bool)
    (hrun : Huffman.compressFile input nodes buffer = some r) :
    compressFile alloc σ input cells buffer opened = some (returned r opened, σ) := by
  rw [Huffman.compressFile] at hrun
  rw [compressFile]
  generalize countChars input = counted at *
  obtain ⟨freqs, totalChars⟩ := counted
  dsimp only at hrun ⊢
  obtain ⟨⟨root, distinct⟩, hbuild, hrest⟩ := Option.bind_eq_some_iff.mp hrun
  obtain ⟨codeTable, hcodes, hout⟩ := Option.bind_eq_some_iff.mp hrest
  -- the tree is the only thing that is allocated
  obtain ⟨⟨p, σ₁⟩, hbuild', A, hrep, hadd⟩ := buildHuffmanTree_rep alloc σ cells hbuild
  dsimp only at hbuild' hrep hadd
  -- and `freeTree` gives back exactly its blocks
  obtain ⟨σ₂, hfree, hadd', -⟩ := freeTree_spec (B := 0) hrep (by rwa [add_zero])
  obtain rfl := hadd'.eq
  rw [hbuild']
  simp only [Option.bind_eq_bind, Option.bind_some, generateCodes_rep hrep hcodes]
  -- where the output can not be opened the tree is freed on the way out
  cases opened with
  | false =>
      simp only [Bool.false_eq_true, if_false, hfree, Option.bind_some]
      rfl
  | true =>
      simp only [if_true, serializeTreePreorder_rep hrep, hfree]
      dsimp only at hout
      by_cases hsome : totalChars > 0 ∧ root ≠ .NULL
      · rw [if_pos hsome] at hout
        rw [if_pos ⟨hsome.1, fun h0 => hsome.2 (hrep.null_iff.mp h0)⟩, ← Option.some.inj hout]
        rfl
      · rw [if_neg hsome] at hout
        rw [if_neg fun h => hsome ⟨h.1, fun h0 => h.2 (hrep.null_iff.mpr h0)⟩,
          ← Option.some.inj hout]
        rfl

/-- **`compressFile` gives its memory back**, the heap it builds the tree with and the tree,
whether the output file can be opened or not. -/
theorem compressFile_returns_memory (alloc : Allocator Block) (σ : Memory) (cells : ℕ → ℕ)
    (nodes : ℕ → HuffmanNode) {buffer : List Char} (hbuffer : buffer.length = MAX_TREE_HT)
    (hlen : input.length < 2 ^ 64) (opened : Bool) :
    ∃ r, Huffman.compressFile input nodes buffer = some r
      ∧ compressFile alloc σ input cells buffer opened = some (returned r opened, σ) := by
  have htotal : ∃ r, Huffman.compressFile input nodes buffer = some r := by
    by_cases hne : input = []
    · exact ⟨_, by rw [hne, Huffman.compressFile_nil]⟩
    · obtain ⟨t, code, bytes, pad, hrun, -⟩ := Huffman.compressFile_spec nodes hbuffer hne hlen
      exact ⟨_, hrun⟩
  obtain ⟨r, hr⟩ := htotal
  exact ⟨r, hr, compressFile_rep alloc σ cells opened hr⟩

theorem compressFile_returns_memory_aaab :
    ∃ r, Huffman.compressFile [97, 97, 97, 98] (fun _ => .NULL) (List.replicate MAX_TREE_HT NUL)
        = some r
      ∧ compressFile (bump Block) ∅ [97, 97, 97, 98] (fun _ => NULL)
          (List.replicate MAX_TREE_HT NUL) false = some (returned r false, ∅) :=
  compressFile_returns_memory (bump Block) ∅ (fun _ => NULL) (fun _ => .NULL)
    List.length_replicate (by decide) false

end Compress

end CourseLabs.HuffmanMemory
