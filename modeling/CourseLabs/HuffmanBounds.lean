/-
`CSMCS26A017_Lab2_2.c`: what the codes are worth, and what is printed of it.

The table `printBitComparison` prints compares the payload with eight bits for a character
and with words of one length. The payload is never the longest of the three, and it is
within a bit for each character of the entropy of the text (`payload_within_entropy`); the
header adds at most `332` bytes to the file. The comparison is made in `uint64_t`, which
eight bits for each byte of a file fill at `2 ^ 61` bytes.

A codeword is stored in `MAX_TREE_HT` characters. Only a text longer than a Fibonacci number
has a codeword of its index (`codewords_short`), so `91` of them are in use at most.
-/
import CourseLabs.CodeBounds
import CourseLabs.HuffmanShape
import CourseLabs.HuffmanSize
import Mathlib.Tactic.NormNum.NatFib

set_option autoImplicit false

namespace CourseLabs.Huffman

open CourseLabs.CLoop CourseLabs.CMem CourseLabs.PrefixTree CourseLabs.OptimalCode

/-! ## The program -/

/-- What `printBitComparison` prints, as far as it is whole numbers. -/
structure BitComparison where
  totalChars : ℕ
  distinctCount : ℕ
  fixedBitsPerChar : ℕ
  asciiBits : ℕ
  fixedBits : ℕ
  huffmanPayloadBits : ℕ
  /-- The row of the `.huf` file, in bits and in bytes. -/
  hufFile : Option (ℕ × ℕ)

/-- `(int)ceil(log2((double)distinctCount))`, or `1`. There are at most 256 bytes, and of these
counts the logarithm rounds up to the exact width. -/
def fixedBitsPerChar (distinctCount : ℕ) : ℕ :=
  if distinctCount > 1 then Nat.clog 2 distinctCount else 1

def payload_bits (freqs : UInt8 → ℕ) (codeTable : UInt8 → CodeEntry) : Option ℕ :=
  forLoop 0 NUM_CHARS 0 fun i huffmanPayloadBits =>
    some (if freqs (UInt8.ofNat i) > 0 then
      (huffmanPayloadBits
        + freqs (UInt8.ofNat i) * (codeTable (UInt8.ofNat i)).length % 2 ^ 64) % 2 ^ 64
    else
      huffmanPayloadBits)

/-- `printBitComparison`: nothing is compared of an empty file. -/
def printBitComparison (totalChars distinctCount : ℕ) (freqs : UInt8 → ℕ)
    (codeTable : UInt8 → CodeEntry) (actualHufFileSize : ℕ) : Option (Option BitComparison) :=
  if totalChars = 0 then
    some none
  else do
    let huffmanPayloadBits ← payload_bits freqs codeTable
    let actualHufBits := actualHufFileSize * 8 % 2 ^ 64
    some (some {
      totalChars, distinctCount
      fixedBitsPerChar := fixedBitsPerChar distinctCount
      asciiBits := totalChars * 8 % 2 ^ 64
      fixedBits := totalChars * fixedBitsPerChar distinctCount % 2 ^ 64
      huffmanPayloadBits
      hufFile :=
        if actualHufFileSize > 0 then some (actualHufBits, actualHufFileSize) else none })

/-- `compressFile` with the call of `printBitComparison` it ends with, which gets the size of the
file that was written. -/
def compressReport (input : List UInt8) (cells : ℕ → HuffmanNode) (buffer : List Char) :
    Option (Option BitComparison) := do
  let (freqs, totalChars) := countChars input
  let (root, distinctCount) ← buildHuffmanTree freqs cells
  let codeTable ← generateCodes root buffer
  let (_, out) ← compressFile input cells buffer
  printBitComparison totalChars distinctCount freqs codeTable (out.length % 2 ^ 64)

/-! ## The codes of a table of frequencies -/

section Table

variable {freqs : UInt8 → ℕ} {t : BinTree UInt8} {codeTable : UInt8 → CodeEntry}

/-- The payload the frequencies and the codes make: each codeword as often as its byte occurs. -/
def payload (freqs : UInt8 → ℕ) (codeTable : UInt8 → CodeEntry) : ℕ :=
  ∑ b ∈ occurring freqs, freqs b * (codeTable b).length

/-- The bits of information in a text with the frequencies: its length times its entropy. -/
noncomputable def information (freqs : UInt8 → ℕ) : ℝ :=
  ∑ b ∈ occurring freqs,
    (freqs b : ℝ) * log2 ((∑ c ∈ occurring freqs, freqs c : ℕ) / freqs b)

/-- The tree of the algorithm, and the table filled in from it. -/
theorem exists_table (cells : ℕ → HuffmanNode) {buffer : List Char}
    (hbuffer : buffer.length = MAX_TREE_HT) (h2 : 2 ≤ (occurring freqs).card)
    (hsum : ∑ b ∈ occurring freqs, freqs b < 2 ^ 64) :
    ∃ t codeTable, Greedy freqs (leafForest (occurring freqs)) {t}
      ∧ buildHuffmanTree freqs cells = some (ofTree freqs t, (occurring freqs).card)
      ∧ generateCodes (ofTree freqs t) buffer = some codeTable
      ∧ ∀ b ∈ leaves t, ∃ p, (b, p) ∈ codes t ∧ codeTable b = entry p := by
  obtain ⟨t, hbuild, hgreedy⟩ := buildHuffmanTree_spec cells h2 hsum
  obtain ⟨hpos, hlow⟩ := height_bounds hgreedy h2
  obtain ⟨codeTable, hcodes, htable, -⟩ := generateCodes_spec (isTree_ofTree t) hbuffer hpos hlow
  exact ⟨t, codeTable, hgreedy, hbuild, hcodes, htable⟩

/-- The payload is the least cost of the frequencies: no other choice of lengths with a prefix code
comes below it. -/
theorem lowerBound_payload (h : Greedy freqs (leafForest (occurring freqs)) {t})
    (htable : ∀ b ∈ leaves t, ∃ p, (b, p) ∈ codes t ∧ codeTable b = entry p) :
    LowerBound ((occurring freqs).val.map freqs) (payload freqs codeTable) := by
  rw [payload, sum_length_eq_cost h htable]
  exact greedy_optimal h

theorem information_eq (freqs : UInt8 → ℕ) :
    information freqs = entropyBits ((occurring freqs).val.map freqs) := by
  rw [entropyBits, Multiset.map_map]
  rfl

theorem weights_pos : ∀ w ∈ (occurring freqs).val.map freqs, 0 < w := by
  intro w hw
  obtain ⟨b, hb, rfl⟩ := Multiset.mem_map.mp hw
  exact mem_occurring.mp hb

/-- No codes make less of the text than there is information in it. -/
theorem information_le_payload (h : Greedy freqs (leafForest (occurring freqs)) {t})
    (htable : ∀ b ∈ leaves t, ∃ p, (b, p) ∈ codes t ∧ codeTable b = entry p) :
    information freqs ≤ payload freqs codeTable := by
  have hkraft : ∑ b ∈ occurring freqs, (1 / 2 : ℝ) ^ (codeTable b).length = 1 := by
    have hcast := congrArg (Rat.cast (K := ℝ)) (kraft_of_table h htable)
    push_cast at hcast
    exact hcast
  have hcost := entropy_le_totalCost (W := (occurring freqs).val.map freqs)
    (A := (occurring freqs).val.map fun b => (freqs b, (codeTable b).length))
    (by rw [Multiset.map_map]; rfl) weights_pos (by
      rw [kraft, Multiset.map_map, Multiset.map_map]
      exact hkraft.le)
  rw [totalCost, Multiset.map_map] at hcost
  rw [information_eq]
  exact hcost

theorem payload_lt_information (h : Greedy freqs (leafForest (occurring freqs)) {t})
    (htable : ∀ b ∈ leaves t, ∃ p, (b, p) ∈ codes t ∧ codeTable b = entry p)
    (hne : (occurring freqs).Nonempty) :
    (payload freqs codeTable : ℝ)
      < information freqs + (∑ b ∈ occurring freqs, freqs b : ℕ) := by
  have hlt := (lowerBound_payload h htable).lt_entropy (by
    rw [Ne, Multiset.map_eq_zero, Finset.val_eq_zero]
    exact hne.ne_empty) weights_pos
  rw [information_eq]
  exact hlt

end Table

/-- **The codes are within a bit of the entropy**: the payload is at least the information in the
text, and less than that and one bit for each character. -/
theorem payload_within_entropy {freqs : UInt8 → ℕ} (cells : ℕ → HuffmanNode)
    {buffer : List Char} (hbuffer : buffer.length = MAX_TREE_HT)
    (h2 : 2 ≤ (occurring freqs).card) (hsum : ∑ b ∈ occurring freqs, freqs b < 2 ^ 64) :
    ∃ root codeTable, buildHuffmanTree freqs cells = some (root, (occurring freqs).card)
      ∧ generateCodes root buffer = some codeTable
      ∧ information freqs ≤ payload freqs codeTable
      ∧ (payload freqs codeTable : ℝ)
        < information freqs + (∑ b ∈ occurring freqs, freqs b : ℕ) := by
  obtain ⟨t, codeTable, hgreedy, hbuild, hcodes, htable⟩ := exists_table cells hbuffer h2 hsum
  exact ⟨_, codeTable, hbuild, hcodes, information_le_payload hgreedy htable,
    payload_lt_information hgreedy htable (Finset.card_pos.mp (by omega))⟩

theorem payload_within_entropy_aaab :
    ∃ root codeTable, buildHuffmanTree freqsAaab (fun _ => .NULL)
        = some (root, (occurring freqsAaab).card)
      ∧ generateCodes root (List.replicate MAX_TREE_HT NUL) = some codeTable
      ∧ information freqsAaab ≤ payload freqsAaab codeTable
      ∧ (payload freqsAaab codeTable : ℝ)
        < information freqsAaab + (∑ b ∈ occurring freqsAaab, freqsAaab b : ℕ) := by
  apply payload_within_entropy (fun _ => .NULL) List.length_replicate
  · rw [occurring_aaab]
    decide
  · rw [occurring_aaab]
    decide

/-- **Long codewords need long texts.** A codeword of `l` bits takes as many characters as
the Fibonacci number of `l + 2`, so the buffer of `MAX_TREE_HT` is never filled past `91`. -/
theorem codewords_short {freqs : UInt8 → ℕ} (cells : ℕ → HuffmanNode)
    {buffer : List Char} (hbuffer : buffer.length = MAX_TREE_HT)
    (h2 : 2 ≤ (occurring freqs).card) (hsum : ∑ b ∈ occurring freqs, freqs b < 2 ^ 64) :
    ∃ root codeTable, buildHuffmanTree freqs cells = some (root, (occurring freqs).card)
      ∧ generateCodes root buffer = some codeTable
      ∧ ∀ b, 0 < freqs b →
        Nat.fib ((codeTable b).length + 2) ≤ ∑ c ∈ occurring freqs, freqs c
          ∧ (codeTable b).length ≤ 91 := by
  obtain ⟨t, codeTable, hgreedy, hbuild, hcodes, htable⟩ := exists_table cells hbuffer h2 hsum
  refine ⟨_, codeTable, hbuild, hcodes, fun b hb => ?_⟩
  obtain ⟨p, hp, hrow⟩ := htable b ((mem_leaves hgreedy).mpr hb)
  have hlen : (codeTable b).length = p.length := by
    rw [hrow]
    rfl
  have hfib : Nat.fib (p.length + 2) ≤ ∑ c ∈ occurring freqs, freqs c :=
    hgreedy.fib_length_le (fun a ha => mem_occurring.mp ha) hp
  rw [hlen]
  refine ⟨hfib, ?_⟩
  -- the Fibonacci number of `94` is the first one that takes more than 64 bits
  by_contra hlong
  have hmono : Nat.fib 94 ≤ Nat.fib (p.length + 2) := Nat.fib_mono (by omega)
  have hlarge : 2 ^ 64 ≤ Nat.fib 94 := by norm_num
  omega

theorem codewords_short_aaab :
    ∃ root codeTable, buildHuffmanTree freqsAaab (fun _ => .NULL)
        = some (root, (occurring freqsAaab).card)
      ∧ generateCodes root (List.replicate MAX_TREE_HT NUL) = some codeTable
      ∧ ∀ b, 0 < freqsAaab b →
        Nat.fib ((codeTable b).length + 2) ≤ ∑ c ∈ occurring freqsAaab, freqsAaab c
          ∧ (codeTable b).length ≤ 91 := by
  apply codewords_short (fun _ => .NULL) List.length_replicate
  · rw [occurring_aaab]
    decide
  · rw [occurring_aaab]
    decide

/-! ## The comparison -/

/-- Below `2 ^ 64` the loop adds up the payload. -/
theorem payload_bits_spec {freqs : UInt8 → ℕ} {codeTable : UInt8 → CodeEntry}
    (h : payload freqs codeTable < 2 ^ 64) :
    payload_bits freqs codeTable = some (payload freqs codeTable) := by
  obtain ⟨s, hrun, hs⟩ := forLoop_spec
    (f := fun i huffmanPayloadBits =>
      some (if freqs (UInt8.ofNat i) > 0 then
        (huffmanPayloadBits
          + freqs (UInt8.ofNat i) * (codeTable (UInt8.ofNat i)).length % 2 ^ 64) % 2 ^ 64
      else
        huffmanPayloadBits))
    -- before byte `i` the sum is over the bytes below it
    (fun i s => s = ∑ b ∈ occurringBelow freqs i, freqs b * (codeTable b).length)
    (Nat.zero_le NUM_CHARS) (s := 0) (by rw [occurringBelow_zero]; rfl) (by
      rintro i s - hi rfl
      refine ⟨_, rfl, ?_⟩
      have hnext := occurringBelow_succ freqs hi
      have hsub : occurringBelow freqs (i + 1) ⊆ occurring freqs :=
        fun b hb => mem_occurring.mpr (Finset.mem_filter.mp hb).2.2
      -- no partial sum is over the whole, so none wraps around
      have hle : ∑ b ∈ occurringBelow freqs (i + 1), freqs b * (codeTable b).length
          ≤ payload freqs codeTable := Finset.sum_le_sum_of_subset hsub
      split
      · next hpos =>
        rw [hnext, if_pos hpos,
          Finset.sum_insert (notMem_occurringBelow freqs hi)] at hle ⊢
        rw [Nat.mod_eq_of_lt (show freqs (UInt8.ofNat i)
          * (codeTable (UInt8.ofNat i)).length < 2 ^ 64 by omega), Nat.mod_eq_of_lt (by omega),
          Nat.add_comm]
      · next hzero => rw [hnext, if_neg hzero])
  rw [payload_bits, hrun, hs, occurringBelow_all]
  rfl

section Text

variable {input : List UInt8}

theorem payload_count (input : List UInt8) (codeTable : UInt8 → CodeEntry) :
    payload (fun b => input.count b) codeTable
      = ∑ b ∈ input.toFinset, input.count b * (codeTable b).length := by
  rw [payload, occurring_count]

/-- A text of one byte value has no information, and its codewords are one bit. -/
theorem payload_of_singleton {b : UInt8} {t : BinTree UInt8} {codeTable : UInt8 → CodeEntry}
    (hb : input.toFinset = {b}) (hleaves : (leaves t).length = 2)
    (htable : ∀ b ∈ input, ∃ p, (b, p) ∈ codes t ∧ codeTable b = entry p) :
    information (fun b => input.count b) ≤ payload (fun b => input.count b) codeTable
      ∧ payload (fun b => input.count b) codeTable ≤ input.length := by
  have hmem : b ∈ input := List.mem_toFinset.mp (by rw [hb]; exact Finset.mem_singleton_self b)
  have hpos : (0 : ℝ) < input.count b := by exact_mod_cast List.count_pos_iff.mpr hmem
  constructor
  -- its share of the text is one, of which the logarithm is zero
  · have hzero : information (fun b => input.count b) = 0 := by
      rw [information, occurring_count, hb, Finset.sum_singleton, Finset.sum_singleton,
        div_self hpos.ne', log2_eq, Real.logb_one, mul_zero]
    rw [hzero]
    exact Nat.cast_nonneg _
  -- and a tree with two leaves is one bit high
  · obtain ⟨p, hp, hrow⟩ := htable b hmem
    have hle := length_le_height hp
    have hlt := height_lt_length_leaves t
    have hlen : (codeTable b).length ≤ 1 := by
      rw [hrow, entry]
      simp only
      omega
    rw [payload_count, ← List.sum_toFinset_count_eq_length, hb, Finset.sum_singleton,
      Finset.sum_singleton]
    calc input.count b * (codeTable b).length
        ≤ input.count b * 1 := Nat.mul_le_mul_left _ hlen
      _ = input.count b := Nat.mul_one _

/-- The tree and the codes of a text, and what they cost. -/
theorem exists_codes (cells : ℕ → HuffmanNode) {buffer : List Char}
    (hbuffer : buffer.length = MAX_TREE_HT) (hne : input ≠ []) (hlen : input.length < 2 ^ 64) :
    ∃ root t codeTable, buildHuffmanTree (fun b => input.count b) cells
        = some (root, input.toFinset.card)
      ∧ IsTree root t ∧ (leaves t).length = max input.toFinset.card 2
      ∧ generateCodes root buffer = some codeTable
      ∧ (∀ b ∈ input, ∃ p, codeTable b = entry p)
      ∧ information (fun b => input.count b) ≤ payload (fun b => input.count b) codeTable
      ∧ payload (fun b => input.count b) codeTable
        ≤ input.length * fixedBitsPerChar input.toFinset.card := by
  -- one byte value, or a code by the greedy merges
  rcases Nat.lt_or_ge input.toFinset.card 2 with hone | htwo
  · obtain ⟨root, t, codeTable, hbuild, ht, -, hleaves, hcodes, htable⟩ :=
      exists_tree cells hbuffer hne hlen
    have hpos : 0 < input.toFinset.card :=
      Finset.card_pos.mpr (List.toFinset_nonempty_iff input |>.mpr hne)
    obtain ⟨b, hb⟩ := Finset.card_eq_one.mp (show input.toFinset.card = 1 by omega)
    obtain ⟨hinfo, hpay⟩ := payload_of_singleton hb
      (hleaves.trans (max_eq_right (by omega))) htable
    refine ⟨root, t, codeTable, hbuild, ht, hleaves, hcodes,
      fun b hb => (htable b hb).imp fun p hp => hp.2, hinfo, ?_⟩
    rwa [fixedBitsPerChar, if_neg (by omega), Nat.mul_one]
  · have htwo' : 2 ≤ (occurring (fun b => input.count b)).card := by rwa [occurring_count]
    have hsum : ∑ b ∈ occurring (fun b => input.count b), input.count b = input.length := by
      rw [occurring_count, List.sum_toFinset_count_eq_length]
    obtain ⟨t, codeTable, hgreedy, hbuild, hcodes, htable⟩ :=
      exists_table cells hbuffer htwo' (by rwa [hsum])
    rw [occurring_count] at hbuild
    refine ⟨_, t, codeTable, hbuild, isTree_ofTree t, ?_, hcodes, ?_,
      information_le_payload hgreedy htable, ?_⟩
    · rw [length_leaves hgreedy, occurring_count, max_eq_left htwo]
    · intro b hb
      obtain ⟨p, -, hrow⟩ := htable b
        ((mem_leaves hgreedy).mpr (List.count_pos_iff.mpr hb))
      exact ⟨p, hrow⟩
    -- a code of equal lengths is one more to compare the tree with
    · have hle := (lowerBound_payload hgreedy htable).le_fixed
      rw [Multiset.card_map, Finset.card_val, occurring_count] at hle
      rw [fixedBitsPerChar, if_pos (show input.toFinset.card > 1 from htwo), ← hsum]
      rw [← occurring_count] at hle ⊢
      exact hle

theorem fixedBitsPerChar_le {n : ℕ} (h : n ≤ 256) : fixedBitsPerChar n ≤ 8 := by
  rw [fixedBitsPerChar]
  split
  · exact Nat.clog_le_of_le_pow h
  · omega

/-- The width printed is the least one, of one bit at least, with a word for each character. -/
theorem fixedBitsPerChar_isLeast (n : ℕ) :
    IsLeast {k | 1 ≤ k ∧ n ≤ 2 ^ k} (fixedBitsPerChar n) := by
  rw [fixedBitsPerChar]
  split_ifs with h
  · refine ⟨⟨Nat.clog_pos (by decide) h, Nat.le_pow_clog (by decide) n⟩, fun k hk => ?_⟩
    exact Nat.clog_le_of_le_pow hk.2
  · exact ⟨⟨Nat.le_refl 1, by omega⟩, fun k hk => hk.1⟩

/-- The file is little more than the text: the tree of all the bytes takes 320 of them, and the
payload no more than the text. -/
theorem bodySize_le {codeTable : UInt8 → CodeEntry}
    (h : payload (fun b => input.count b) codeTable ≤ input.length * 8) :
    bodySize codeTable input ≤ input.length + 320 := by
  have hcard := card_occurring_le fun b => input.count b
  rw [occurring_count] at hcard
  rw [payload_count] at h
  rw [bodySize]
  omega

/-- A run of `compressFile`, with what its codes cost and how long its file is. -/
theorem exists_run (cells : ℕ → HuffmanNode) {buffer : List Char}
    (hbuffer : buffer.length = MAX_TREE_HT) (hne : input ≠ []) (hlen : input.length < 2 ^ 64) :
    ∃ root codeTable, buildHuffmanTree (fun b => input.count b) cells
        = some (root, input.toFinset.card)
      ∧ generateCodes root buffer = some codeTable
      ∧ compressFile input cells buffer = some (0, (finalWriter root codeTable input).fp)
      ∧ information (fun b => input.count b) ≤ payload (fun b => input.count b) codeTable
      ∧ payload (fun b => input.count b) codeTable
        ≤ input.length * fixedBitsPerChar input.toFinset.card
      ∧ input.length * fixedBitsPerChar input.toFinset.card ≤ input.length * 8
      ∧ 12 ≤ (finalWriter root codeTable input).fp.length
      ∧ (finalWriter root codeTable input).fp.length ≤ input.length + 332 := by
  obtain ⟨root, t, codeTable, hbuild, ht, hleaves, hcodes, htable, hinfo, hfixed⟩ :=
    exists_codes cells hbuffer hne hlen
  have hwidth : fixedBitsPerChar input.toFinset.card ≤ 8 := by
    apply fixedBitsPerChar_le
    rw [← occurring_count]
    exact card_occurring_le _
  have hascii : input.length * fixedBitsPerChar input.toFinset.card ≤ input.length * 8 :=
    Nat.mul_le_mul_left _ hwidth
  have hpos : 0 < input.length := List.length_pos_iff.mpr hne
  -- the digits of a row are the bits of its codeword, which is what the writer goes by
  have hrow : ∀ b ∈ input, codeTable b = entry (bits (codeTable b).code) := by
    intro b hb
    obtain ⟨p, hp⟩ := htable b hb
    rw [hp, entry, bits_digit]
    rfl
  have hsize := (finalWriter_spec ht hleaves hrow).1
  have hbody := bodySize_le (hfixed.trans hascii)
  refine ⟨root, codeTable, hbuild, hcodes, ?_, hinfo, hfixed, hascii, by omega, by omega⟩
  rw [compressFile, finalWriter, countChars_spec hlen]
  simp only [hbuild, hcodes, Option.bind_eq_bind, Option.bind_some]
  rw [if_pos ⟨hpos, ht.ne_null⟩]

/-- A compressed file is at most `332` bytes longer than the text. -/
theorem length_le_of_compressFile (cells : ℕ → HuffmanNode) {buffer : List Char}
    (hbuffer : buffer.length = MAX_TREE_HT) (hlen : input.length < 2 ^ 64) {file : List UInt8}
    (h : compressFile input cells buffer = some (0, file)) : file.length ≤ input.length + 332 := by
  by_cases hne : input = []
  · rw [hne, compressFile_nil, Option.some.injEq, Prod.mk.injEq] at h
    rw [← h.2, length_header]
    omega
  · obtain ⟨root, codeTable, -, -, hrun, -, -, -, -, hle⟩ := exists_run cells hbuffer hne hlen
    rw [hrun, Option.some.injEq, Prod.mk.injEq] at h
    exact h.2 ▸ hle

end Text

/-- **The comparison.** As long as eight bits for each byte of the file fit a `uint64_t`,
every whole number printed is the exact one: the characters and the different ones, the least
width of words of one length and what words of that width take, eight bits for each character,
the codewords of the table as often as they occur, and the size of the file. The payload is at
most that of words of one length, which is at most eight bits for each character; it is at least
the information in the text, and the file that is written is at most `332` bytes longer than the
text. -/
theorem comparison_exact (input : List UInt8) (cells : ℕ → HuffmanNode) {buffer : List Char}
    (hbuffer : buffer.length = MAX_TREE_HT) (hne : input ≠ [])
    (hlen : input.length + 332 < 2 ^ 61) :
    ∃ root codeTable file r,
      buildHuffmanTree (fun b => input.count b) cells = some (root, input.toFinset.card)
      ∧ generateCodes root buffer = some codeTable
      ∧ compressFile input cells buffer = some (0, file)
      ∧ compressReport input cells buffer = some (some r)
      ∧ r.totalChars = input.length ∧ r.distinctCount = input.toFinset.card
      ∧ r.asciiBits = 8 * input.length
      ∧ IsLeast {k | 1 ≤ k ∧ input.toFinset.card ≤ 2 ^ k} r.fixedBitsPerChar
      ∧ r.fixedBits = input.length * r.fixedBitsPerChar
      ∧ r.huffmanPayloadBits = ∑ b ∈ input.toFinset, input.count b * (codeTable b).length
      ∧ r.huffmanPayloadBits ≤ r.fixedBits ∧ r.fixedBits ≤ r.asciiBits
      ∧ information (fun b => input.count b) ≤ r.huffmanPayloadBits
      ∧ r.hufFile = some (8 * file.length, file.length)
      ∧ file.length ≤ input.length + 332 := by
  have hlen' : input.length < 2 ^ 64 := by omega
  obtain ⟨root, codeTable, hbuild, hcodes, hrun, hinfo, hfixed, hascii, hlow, hhigh⟩ :=
    exists_run cells hbuffer hne hlen'
  have hpos : 0 < input.length := List.length_pos_iff.mpr hne
  have hcount := countChars_spec hlen'
  have hbits := payload_bits_spec
    (show payload (fun b => input.count b) codeTable < 2 ^ 64 by omega)
  have hfile : (finalWriter root codeTable input).fp.length % 2 ^ 64
      = (finalWriter root codeTable input).fp.length := Nat.mod_eq_of_lt (by omega)
  have hfilepos : (finalWriter root codeTable input).fp.length > 0 := by omega
  -- none of the products wraps around
  have hascii64 : input.length * 8 % 2 ^ 64 = 8 * input.length := by omega
  have hfixed64 : input.length * fixedBitsPerChar input.toFinset.card % 2 ^ 64
      = input.length * fixedBitsPerChar input.toFinset.card := Nat.mod_eq_of_lt (by omega)
  have hfile64 : (finalWriter root codeTable input).fp.length * 8 % 2 ^ 64
      = 8 * (finalWriter root codeTable input).fp.length := by omega
  refine ⟨root, codeTable, _,
    { totalChars := input.length
      distinctCount := input.toFinset.card
      fixedBitsPerChar := fixedBitsPerChar input.toFinset.card
      asciiBits := 8 * input.length
      fixedBits := input.length * fixedBitsPerChar input.toFinset.card
      huffmanPayloadBits := payload (fun b => input.count b) codeTable
      hufFile := some (8 * (finalWriter root codeTable input).fp.length,
        (finalWriter root codeTable input).fp.length) },
    hbuild, hcodes, hrun, ?_, rfl, rfl, rfl, fixedBitsPerChar_isLeast _, rfl,
    payload_count input codeTable, hfixed, by rwa [Nat.mul_comm 8], hinfo, rfl, by omega⟩
  rw [compressReport, hcount]
  simp only [hbuild, hcodes, hrun, Option.bind_eq_bind, Option.bind_some]
  rw [printBitComparison, if_neg hpos.ne', hbits, hfile]
  simp only [Option.bind_eq_bind, Option.bind_some, if_pos hfilepos, hascii64, hfixed64, hfile64]

theorem comparison_exact_abra :
    ∃ root codeTable file r,
      buildHuffmanTree (fun b => [97, 98, 114, 97].count b) (fun _ => .NULL)
        = some (root, ([97, 98, 114, 97] : List UInt8).toFinset.card)
      ∧ generateCodes root (List.replicate MAX_TREE_HT NUL) = some codeTable
      ∧ compressFile [97, 98, 114, 97] (fun _ => .NULL) (List.replicate MAX_TREE_HT NUL)
        = some (0, file)
      ∧ compressReport [97, 98, 114, 97] (fun _ => .NULL) (List.replicate MAX_TREE_HT NUL)
        = some (some r)
      ∧ r.totalChars = [97, 98, 114, 97].length
      ∧ r.distinctCount = ([97, 98, 114, 97] : List UInt8).toFinset.card
      ∧ r.asciiBits = 8 * [97, 98, 114, 97].length
      ∧ IsLeast {k | 1 ≤ k ∧ ([97, 98, 114, 97] : List UInt8).toFinset.card ≤ 2 ^ k}
        r.fixedBitsPerChar
      ∧ r.fixedBits = [97, 98, 114, 97].length * r.fixedBitsPerChar
      ∧ r.huffmanPayloadBits
        = ∑ b ∈ [97, 98, 114, 97].toFinset, [97, 98, 114, 97].count b * (codeTable b).length
      ∧ r.huffmanPayloadBits ≤ r.fixedBits ∧ r.fixedBits ≤ r.asciiBits
      ∧ information (fun b => [97, 98, 114, 97].count b) ≤ r.huffmanPayloadBits
      ∧ r.hufFile = some (8 * file.length, file.length)
      ∧ file.length ≤ [97, 98, 114, 97].length + 332 :=
  comparison_exact [97, 98, 114, 97] (fun _ => .NULL) List.length_replicate (by decide) (by decide)

end CourseLabs.Huffman
