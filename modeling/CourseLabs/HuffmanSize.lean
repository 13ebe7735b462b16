/-
`CSMCS26A017_Lab2_2.c`: how long a compressed file is.

The twelve bytes of the header are written past the `BitWriter`; behind them it puts the
tree, whose leaves are the distinct bytes of the input, or two if there is only one, and the
codewords. Summed over the input, the lengths of the codewords are those of the table
weighted with the frequencies.

The frequencies and the size are counted modulo `2 ^ 64`, and an input of that length is
taken for an empty one. Shorter inputs can still have more bytes than `totalBytesWritten`
can say: a codeword may be longer than a byte.
-/
import CourseLabs.HuffmanRoundTrip

set_option autoImplicit false

namespace CourseLabs.Huffman

open CourseLabs.CMem CourseLabs.BitString CourseLabs.PrefixTree

/-- The writer of `compressFile` after the flush. -/
def finalWriter (root : HuffmanNode) (codeTable : UInt8 → CodeEntry) (input : List UInt8) :
    BitWriter :=
  bitWriterFlush (writePayload codeTable
    (serializeTreePreorder root (bitWriterInit (putSize HUF_MAGIC (countChars input).2 8))) input)

/-- A run of `compressFile`, with the tree and the table of codes it makes. -/
structure Compressed (input : List UInt8) (cells : ℕ → HuffmanNode) (buffer : List Char)
    (root : HuffmanNode) (codeTable : UInt8 → CodeEntry) (file : List UInt8) : Prop where
  build : buildHuffmanTree (countChars input).1 cells = some (root, input.toFinset.card)
  codes : generateCodes root buffer = some codeTable
  run : compressFile input cells buffer = some (0, file)

/-- The bytes that hold the tree and the payload. -/
def bodySize (codeTable : UInt8 → CodeEntry) (input : List UInt8) : ℕ :=
  (10 * max input.toFinset.card 2 - 1
    + ∑ b ∈ input.toFinset, input.count b * (codeTable b).length + 7) / 8

/-! ## The bits -/

section Size

variable {input : List UInt8}

/-- The codewords of a text, weighted with its frequencies. -/
theorem length_payload {codeTable : UInt8 → CodeEntry} {code : UInt8 → List Bool}
    (htable : ∀ b ∈ input, codeTable b = entry (code b)) :
    (input.map code).flatten.length
      = ∑ b ∈ input.toFinset, input.count b * (codeTable b).length := by
  rw [List.length_flatten, List.map_map, Finset.sum_list_map_count]
  apply Finset.sum_congr rfl
  intro b hb
  rw [htable b (List.mem_toFinset.mp hb), smul_eq_mul]
  rfl

theorem length_header (size : ℕ) : (putSize HUF_MAGIC size 8).length = 12 := by
  rw [putSize_eq, List.length_append, length_putSize]
  rfl

/-- The flush leaves a byte for every eight bits begun. -/
theorem length_flush {bw : BitWriter} {base : List UInt8} {bits : List Bool}
    (h : Wrote bw base bits) :
    (bitWriterFlush bw).fp.length = base.length + (bits.length + 7) / 8
      ∧ (bitWriterFlush bw).totalBytesWritten = (bits.length + 7) / 8 % 2 ^ 64 := by
  obtain ⟨body, pad, hfp, hpad, hbits, htotal⟩ := bitWriterFlush_bytes h
  have hlen := congrArg List.length hbits
  rw [length_flatMap_byteBits, List.length_append, List.length_replicate] at hlen
  have hbody : body.length = (bits.length + 7) / 8 := by omega
  rw [hfp, htotal, List.length_append, hbody]
  exact ⟨rfl, rfl⟩

/-- The tree and the payload, in bytes. -/
theorem finalWriter_spec {root : HuffmanNode} {t : BinTree UInt8}
    {codeTable : UInt8 → CodeEntry} {code : UInt8 → List Bool} (ht : IsTree root t)
    (hleaves : (leaves t).length = max input.toFinset.card 2)
    (htable : ∀ b ∈ input, codeTable b = entry (code b)) :
    (finalWriter root codeTable input).fp.length = 12 + bodySize codeTable input
      ∧ (finalWriter root codeTable input).totalBytesWritten
        = bodySize codeTable input % 2 ^ 64 := by
  have hwrote := writePayload_wrote htable (serializeTreePreorder_wrote ht
    (bitWriterInit_wrote (putSize HUF_MAGIC (countChars input).2 8)))
  have htree := length_preorder length_byteBits t
  rw [hleaves] at htree
  have hbits : ([] ++ preorder byteBits t ++ (input.map code).flatten).length
      = 10 * max input.toFinset.card 2 - 1
        + ∑ b ∈ input.toFinset, input.count b * (codeTable b).length := by
    rw [List.nil_append, List.length_append, length_payload htable]
    omega
  have hflush := length_flush hwrote
  rw [hbits, length_header] at hflush
  exact hflush

end Size

/-- **The size of a compressed file**: the header, and the bits of the tree and the
codewords rounded up to bytes. -/
theorem compressFile_size (input : List UInt8) (cells : ℕ → HuffmanNode) {buffer : List Char}
    (hbuffer : buffer.length = MAX_TREE_HT) (hlen : input.length < 2 ^ 64) :
    (input = [] → ∃ file, compressFile input cells buffer = some (0, file) ∧ file.length = 12)
      ∧ (input ≠ [] → ∃ root codeTable file, Compressed input cells buffer root codeTable file
        ∧ file = (finalWriter root codeTable input).fp
        ∧ file.length = 12 + bodySize codeTable input
        ∧ (finalWriter root codeTable input).totalBytesWritten
          = bodySize codeTable input % 2 ^ 64) := by
  constructor
  · rintro rfl
    exact ⟨_, compressFile_nil cells buffer, length_header 0⟩
  · intro hne
    obtain ⟨root, t, codeTable, hbuild, ht, -, hleaves, hcodes, htable⟩ :=
      exists_tree cells hbuffer hne hlen
    have hrow : ∀ b ∈ input, codeTable b = entry (bits (codeTable b).code) := by
      intro b hb
      obtain ⟨p, -, heq⟩ := htable b hb
      rw [heq, entry, bits_digit]
      rfl
    obtain ⟨hsize, htotal⟩ := finalWriter_spec ht hleaves hrow
    have hcount := countChars_spec hlen
    have hpos : 0 < input.length := List.length_pos_iff.mpr hne
    refine ⟨root, codeTable, _, ⟨by rw [hcount]; exact hbuild, hcodes, ?_⟩, rfl, hsize, htotal⟩
    rw [compressFile, finalWriter, hcount]
    simp only [hbuild, hcodes, Option.bind_eq_bind, Option.bind_some]
    rw [if_pos ⟨hpos, ht.ne_null⟩]

theorem compressFile_size_abra :
    ∃ root codeTable file, Compressed [97, 98, 114, 97] (fun _ => .NULL)
        (List.replicate MAX_TREE_HT NUL) root codeTable file
      ∧ file = (finalWriter root codeTable [97, 98, 114, 97]).fp
      ∧ file.length = 12 + bodySize codeTable [97, 98, 114, 97]
      ∧ (finalWriter root codeTable [97, 98, 114, 97]).totalBytesWritten
        = bodySize codeTable [97, 98, 114, 97] % 2 ^ 64 :=
  (compressFile_size [97, 98, 114, 97] (fun _ => .NULL) List.length_replicate (by decide)).2
    (by decide)

/-! ## A text of `2 ^ 64` bytes -/

/-- All the counts are back at zero. -/
theorem countChars_replicate {n : ℕ} (hn : n % 2 ^ 64 = 0) (b : UInt8) :
    countChars (List.replicate n b) = (fun _ => 0, 0) := by
  rw [countChars_eq, List.length_replicate, hn, Prod.mk.injEq]
  refine ⟨?_, rfl⟩
  funext c
  rw [List.count_replicate]
  split
  · exact hn
  · rfl

/-- There is no tree, and no byte behind the header. -/
theorem compressFile_replicate {n : ℕ} (hn : n % 2 ^ 64 = 0) (b : UInt8)
    (cells : ℕ → HuffmanNode) (buffer : List Char) :
    compressFile (List.replicate n b) cells buffer = some (0, putSize HUF_MAGIC 0 8) := by
  have hempty := compressFile_nil cells buffer
  rw [compressFile] at hempty ⊢
  rw [countChars_replicate hn]
  exact hempty

theorem not_compressFile_size :
    ¬ ∃ root codeTable file,
      compressFile (List.replicate (2 ^ 64) 0) (fun _ => .NULL) (List.replicate MAX_TREE_HT NUL)
        = some (0, file)
      ∧ generateCodes root (List.replicate MAX_TREE_HT NUL) = some codeTable
      ∧ file.length = 12 + bodySize codeTable (List.replicate (2 ^ 64) 0) := by
  rintro ⟨root, codeTable, file, hrun, -, hsize⟩
  rw [compressFile_replicate (Nat.mod_self _), Option.some.injEq, Prod.mk.injEq] at hrun
  rw [← hrun.2, length_header, bodySize] at hsize
  omega

end CourseLabs.Huffman
