/-
`CSMCS26A017_Lab2_2.c`: **what is compressed is decompressed**, whatever is appended to
the file.

`compressFile_spec` is the format in bits: after the header come the tree in preorder, the
codewords of the input and fewer than eight zeros. Nothing past the codewords is looked
at, because the decoder stops at the stored size. With one byte value the tree has a
second leaf, for the symbol `0`; if that is the byte itself, its row of the table is the
codeword of that second leaf, and still one of its codewords.
-/
import CourseLabs.HuffmanFile

set_option autoImplicit false

namespace CourseLabs.Huffman

open CourseLabs.CMem CourseLabs.BitString CourseLabs.PrefixTree

section Compress

variable {input : List UInt8}

theorem countChars_append_singleton (input : List UInt8) (ch : UInt8) :
    countChars (input ++ [ch])
      = (Function.update (countChars input).1 ch (((countChars input).1 ch + 1) % 2 ^ 64),
        ((countChars input).2 + 1) % 2 ^ 64) := by
  rw [countChars, List.foldl_append, List.foldl_cons, List.foldl_nil]
  rfl

/-- The frequencies are the numbers of occurrences, as far as `64` bits hold them. -/
theorem countChars_eq (input : List UInt8) :
    countChars input = (fun b => input.count b % 2 ^ 64, input.length % 2 ^ 64) := by
  induction input using List.reverseRecOn with
  | nil => rfl
  | append_singleton input ch ih =>
      rw [countChars_append_singleton, ih, Prod.mk.injEq]
      refine ⟨?_, by rw [List.length_append, List.length_singleton, Nat.mod_add_mod]⟩
      funext b
      rw [List.count_append]
      by_cases hb : b = ch
      · rw [hb, Function.update_self, List.count_singleton_self, Nat.mod_add_mod]
      · have hzero : [ch].count b = 0 := by
          rw [List.count_eq_zero, List.mem_singleton]
          exact hb
        rw [Function.update_of_ne hb, hzero, Nat.add_zero]

theorem countChars_spec (h : input.length < 2 ^ 64) :
    countChars input = (fun b => input.count b, input.length) := by
  rw [countChars_eq, Nat.mod_eq_of_lt h, Prod.mk.injEq]
  refine ⟨?_, rfl⟩
  funext b
  exact Nat.mod_eq_of_lt (lt_of_le_of_lt List.count_le_length h)

theorem occurring_count : occurring (fun b => input.count b) = input.toFinset := by
  ext b
  rw [mem_occurring, List.mem_toFinset, List.count_pos_iff]

/-- The tree of a text, and the codes of its characters. -/
theorem exists_tree (cells : ℕ → HuffmanNode) {buffer : List Char}
    (hbuffer : buffer.length = MAX_TREE_HT) (hne : input ≠ []) (hlen : input.length < 2 ^ 64) :
    ∃ root t codeTable, buildHuffmanTree (fun b => input.count b) cells
        = some (root, input.toFinset.card)
      ∧ IsTree root t ∧ 0 < height t ∧ (leaves t).length = max input.toFinset.card 2
      ∧ generateCodes root buffer = some codeTable
      ∧ ∀ b ∈ input, ∃ p, (b, p) ∈ codes t ∧ codeTable b = entry p := by
  have hpos : 0 < (occurring (fun b => input.count b)).card := by
    rw [Finset.card_pos, occurring_count]
    exact List.toFinset_nonempty_iff input |>.mpr hne
  have hmem : ∀ b ∈ input, b ∈ occurring (fun b => input.count b) := by
    intro b hb
    rwa [occurring_count, List.mem_toFinset]
  rw [← occurring_count]
  rcases Nat.lt_or_ge (occurring (fun b => input.count b)).card 2 with hone | htwo
  · -- one byte value
    obtain ⟨b, hb⟩ := Finset.card_eq_one.mp
      (show (occurring (fun b => input.count b)).card = 1 by omega)
    -- the tree has two leaves, and `b` is at the left one at least
    have ht : IsTree (.node DOLLAR (input.count b) (createNode b (input.count b))
        (createNode 0 0)) (.node (.leaf b) (.leaf 0)) := .node _ _ (.leaf _ _) (.leaf _ _)
    obtain ⟨codeTable, hcodes, htable, -⟩ := generateCodes_spec ht hbuffer Nat.one_pos
      (show 1 < MAX_TREE_HT by decide)
    rw [hb, Finset.card_singleton]
    refine ⟨_, _, codeTable, buildHuffmanTree_single cells hb, ht, Nat.one_pos, rfl, hcodes, ?_⟩
    intro c hc
    have hcb := hmem c hc
    rw [hb, Finset.mem_singleton] at hcb
    apply htable
    rw [hcb]
    exact List.mem_cons_self
  · have hsum : ∑ b ∈ occurring (fun b => input.count b), input.count b < 2 ^ 64 := by
      rwa [occurring_count, List.sum_toFinset_count_eq_length]
    obtain ⟨t, hbuild, hgreedy⟩ := buildHuffmanTree_spec cells htwo hsum
    obtain ⟨hheight, hlow⟩ := height_bounds hgreedy htwo
    obtain ⟨codeTable, hcodes, htable, -⟩ := generateCodes_spec (isTree_ofTree t) hbuffer hheight
      hlow
    refine ⟨_, t, codeTable, hbuild, isTree_ofTree t, hheight, ?_, hcodes, ?_⟩
    · rw [length_leaves hgreedy, max_eq_left htwo]
    intro b hb
    exact htable b ((mem_leaves hgreedy).mpr (mem_occurring.mp (hmem b hb)))

/-- Of an empty text there is only the header. -/
theorem compressFile_nil (cells : ℕ → HuffmanNode) (buffer : List Char) :
    compressFile [] cells buffer = some (0, putSize HUF_MAGIC 0 8) := by
  have hocc : (occurring (fun _ => 0)).card = 0 := by
    simp [occurring]
  rw [compressFile]
  change (buildHuffmanTree (fun _ => 0) cells).bind _ = _
  rw [buildHuffmanTree_empty cells hocc]
  rfl

/-- **The format.** -/
theorem compressFile_spec (cells : ℕ → HuffmanNode) {buffer : List Char}
    (hbuffer : buffer.length = MAX_TREE_HT) (hne : input ≠ []) (hlen : input.length < 2 ^ 64) :
    ∃ (t : BinTree UInt8) (code : UInt8 → List Bool) (bytes : List UInt8) (pad : ℕ),
      compressFile input cells buffer = some (0, putSize HUF_MAGIC input.length 8 ++ bytes)
      ∧ 0 < height t ∧ (∀ b ∈ input, (b, code b) ∈ codes t) ∧ pad < 8
      ∧ bytes.flatMap byteBits
        = preorder byteBits t ++ (input.map code).flatten ++ List.replicate pad false := by
  obtain ⟨root, t, codeTable, hbuild, ht, hheight, -, hcodes, htable⟩ :=
    exists_tree cells hbuffer hne hlen
  have hrow : ∀ b ∈ input, (b, bits (codeTable b).code) ∈ codes t
      ∧ codeTable b = entry (bits (codeTable b).code) := by
    intro b hb
    obtain ⟨p, hp, heq⟩ := htable b hb
    rw [heq, entry, bits_digit]
    exact ⟨hp, rfl⟩
  have hwrote := writePayload_wrote (fun b hb => (hrow b hb).2)
    (serializeTreePreorder_wrote ht (bitWriterInit_wrote (putSize HUF_MAGIC input.length 8)))
  obtain ⟨bytes, pad, hfp, hpad, hbits, -⟩ := bitWriterFlush_bytes hwrote
  refine ⟨t, fun b => bits (codeTable b).code, bytes, pad, ?_, hheight,
    fun b hb => (hrow b hb).1, hpad, hbits⟩
  have hpos : 0 < input.length := List.length_pos_iff.mpr hne
  rw [compressFile, countChars_spec hlen]
  simp only [hbuild, hcodes, Option.bind_eq_bind, Option.bind_some]
  rw [if_pos ⟨hpos, ht.ne_null⟩, hfp]

end Compress

/-- A file with a whole tree gives the symbols its payload starts with. -/
theorem decompressBody_whole {size : ℕ} {file : List UInt8} {t : BinTree UInt8}
    {payload : List Bool} (hpos : 0 < size) (hsize : size < 2 ^ 64)
    (h : file.flatMap byteBits = preorder byteBits t ++ payload) :
    decompressBody size file = some (0, some (decode t size payload)) := by
  obtain ⟨root, br, hrun, hd, -⟩ := deserialize_spec (bitReaderInit file)
  rw [bits_bitReaderInit, h] at hd
  cases hd with
  | cut hrest hno => exact absurd rfl (hno t payload)
  | whole u hu hbits =>
      obtain ⟨rfl, hpayload⟩ := preorder_inj byteBits_injective length_byteBits hbits
      rw [decompressBody, if_neg (by omega), hrun, Option.bind_eq_bind, Option.bind_some]
      simp only [hu.ne_null, if_false, decodePayload_whole hu hsize, ← hpayload]
      rfl

/-- **Compression loses nothing**: of every text the compressed file, with anything
appended, is decompressed to the text. -/
theorem decompress_compress (input trailing : List UInt8) (cells : ℕ → HuffmanNode)
    {buffer : List Char} (hbuffer : buffer.length = MAX_TREE_HT)
    (hlen : input.length < 2 ^ 64) :
    ∃ file, compressFile input cells buffer = some (0, file)
      ∧ decompressFile (file ++ trailing) = some (0, some input) := by
  by_cases hne : input = []
  · obtain ⟨hok, hsize, -⟩ := header_putSize (Nat.two_pow_pos 64) trailing
    refine ⟨_, by rw [hne]; exact compressFile_nil cells buffer, ?_⟩
    rw [decompressFile_of_header hok, hsize, decompressBody, if_pos rfl, hne]
  · obtain ⟨t, code, bytes, pad, hrun, -, hcodes, -, hbits⟩ :=
      compressFile_spec cells hbuffer hne hlen
    obtain ⟨hok, hsize, hbody⟩ := header_putSize hlen (bytes ++ trailing)
    refine ⟨_, hrun, ?_⟩
    have hw : ∀ c ∈ input.map (fun b => (b, code b)), c ∈ codes t := by
      rintro _ hc
      obtain ⟨b, hb, rfl⟩ := List.mem_map.mp hc
      exact hcodes b hb
    -- the stored size is the number of codewords, so the decoder stops behind them
    have hdecode := decode_flatten hw (List.replicate pad false ++ trailing.flatMap byteBits)
    simp only [List.map_map, Function.comp_def, List.length_map, List.map_id'] at hdecode
    rw [List.append_assoc, decompressFile_of_header hok, hsize, hbody,
      decompressBody_whole (List.length_pos_iff.mpr hne) hlen
        (show _ = preorder byteBits t ++ ((input.map code).flatten
            ++ (List.replicate pad false ++ trailing.flatMap byteBits)) by
          rw [List.flatMap_append, hbits]
          simp only [List.append_assoc]),
      hdecode]

theorem decompress_compress_zeros :
    ∃ file, compressFile [0, 0, 0] (fun _ => .NULL) (List.replicate MAX_TREE_HT NUL)
        = some (0, file)
      ∧ decompressFile (file ++ [255]) = some (0, some [0, 0, 0]) :=
  decompress_compress [0, 0, 0] [255] (fun _ => .NULL) List.length_replicate (by decide)

end CourseLabs.Huffman
