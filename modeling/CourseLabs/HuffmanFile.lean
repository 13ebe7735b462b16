/-
`CSMCS26A017_Lab2_2.c`, the compressed file: `compressFile` and `decompressFile`.

A file is the list of its bytes, and `fopen`, `malloc` and `fputc` are taken to succeed;
what is only printed is left out. The result of `decompressFile` is the code it returns,
with the contents of the output file if it got as far as to create it.

Each part of the format has one lemma about writing and one about reading: the size
(`bigEndian`), the tree (`preorder byteBits`, with `Deserialized` for what may come in)
and the payload (`decode`).
-/
import CourseLabs.HuffmanBits
import CourseLabs.HuffmanCode

set_option autoImplicit false

namespace CourseLabs.Huffman

open CourseLabs.CLoop CourseLabs.CMem CourseLabs.BitString CourseLabs.PrefixTree

/-! ## The program -/

/-- The length of the mark a file starts with; the size of the text stands behind it. -/
def MAGIC_LEN : ℕ := 4

/-- `'H', 'U', 'F', '1'` -/
def HUF_MAGIC : List UInt8 := [72, 85, 70, 49]

/-- `1` and eight bits for a leaf, `0` and the two subtrees for a node. A `NULL` writes nothing. -/
def serializeTreePreorder : HuffmanNode → BitWriter → BitWriter
  | .NULL, bw => bw
  | .node data freq left right, bw =>
    if isLeaf (.node data freq left right) then
      writeBits (writeBit bw 1) data.toNat 8
    else
      serializeTreePreorder right (serializeTreePreorder left (writeBit bw 0))

/-- The reader of a stored tree: at the end of the input it makes a `NULL`, so a file that breaks
off gives an incomplete tree and not an error. -/
def deserializeTreePreorder (br : BitReader) : Option (HuffmanNode × BitReader) :=
  letI deserializeTreePreorder : BitReader → Option (HuffmanNode × BitReader) := by
    exact deserializeTreePreorder
  match readBit br with
  | (bit, br) =>
    if bit = -1 then
      some (.NULL, br)
    else if bit = 1 then
      -- leaf node
      match readBits br 8 0 with
      | (.error _, br) => some (.NULL, br)
      | (.ok charVal, br) => some (createNode (UInt8.ofNat charVal) 0, br)
    else do
      -- internal node
      let (left, br) ← deserializeTreePreorder br
      let (right, br) ← deserializeTreePreorder br
      some (.node DOLLAR 0 left right, br)
partial_fixpoint

/-- Pass 1 of `compressFile`: `freqs` and `totalChars`, which are `uint64_t` and wrap around. -/
def countChars (input : List UInt8) : (UInt8 → ℕ) × ℕ :=
  input.foldl (fun s ch =>
    (Function.update s.1 ch ((s.1 ch + 1) % 2 ^ 64), (s.2 + 1) % 2 ^ 64)) (fun _ => 0, 0)

/-- The size, big-endian, one byte for each `i` below the last argument. -/
def putSize (out : List UInt8) (totalChars : ℕ) : ℕ → List UInt8
  | 0 => out
  | i + 1 => putSize (out ++ [UInt8.ofNat (totalChars >>> (i * 8) &&& 0xFF)]) totalChars i

/-- One character of the payload: its codeword, from a string of `'0'` and `'1'`. -/
def writeCode (bw : BitWriter) (cStr : List Char) : BitWriter :=
  cStr.foldl (fun bw c => writeBit bw (charVal c - charVal '0')) bw

/-- Pass 2: the payload, one codeword after the other, with nothing between them. -/
def writePayload (codeTable : UInt8 → CodeEntry) (bw : BitWriter) (input : List UInt8) :
    BitWriter :=
  input.foldl (fun bw ch => writeCode bw (codeTable ch).code) bw

/-- `compressFile`: what it returns, and the output file. The arguments `cells` and
`buffer` are the memory the heap and `generateCodes` find. -/
def compressFile (input : List UInt8) (cells : ℕ → HuffmanNode) (buffer : List Char) :
    Option (ℤ × List UInt8) := do
  let (freqs, totalChars) := countChars input
  let (root, _) ← buildHuffmanTree freqs cells
  let codeTable ← generateCodes root buffer
  let out := putSize HUF_MAGIC totalChars 8
  if totalChars > 0 ∧ root ≠ .NULL then
    let bw := serializeTreePreorder root (bitWriterInit out)
    some (0, (bitWriterFlush (writePayload codeTable bw input)).fp)
  else
    some (0, out)

/-- The loop that reads the size, with the bytes still to read and the size so far. -/
def readSize : ℕ → List UInt8 → ℕ → Except ℤ (ℕ × List UInt8)
  | 0, file, origSize => .ok (origSize, file)
  | _ + 1, [], _ => .error (-1)
  | n + 1, byte :: file, origSize =>
    readSize n file ((origSize <<< 8) % 2 ^ 64 ||| byte.toNat)

/-- The state of the payload loop: where it is in the file and in the tree, and what it has
decoded. -/
structure Decoder where
  br : BitReader
  curr : HuffmanNode
  bytesDecoded : ℕ
  out : List UInt8

/-- `curr = (bit == 0) ? curr->left : curr->right` -/
def child (curr : HuffmanNode) (bit : ℤ) : Option HuffmanNode :=
  if bit = 0 then curr.left else curr.right

/-- One bit of the payload: a step down, and a character at a leaf. -/
def decode_body (root : HuffmanNode) (origSize : ℕ) (s : Decoder) :
    Option (Pass Decoder (List UInt8)) :=
  if s.bytesDecoded < origSize then
    match readBit s.br with
    | (bit, br) =>
      if bit = -1 then
        -- unexpected end of the file
        some (.done s.out)
      else do
        let curr ← child s.curr bit
        if curr = .NULL then
          -- invalid path
          some (.done s.out)
        else if isLeaf curr then do
          let data ← curr.data
          some (.next { br, curr := root, bytesDecoded := (s.bytesDecoded + 1) % 2 ^ 64,
                        out := s.out ++ [data] })
        else
          some (.next { s with br, curr })
  else
    some (.done s.out)

/-- The payload: the output file when the loop ends. A tree of one leaf needs no bits, and its byte
is written as often as the size says. -/
def decodePayload (root : HuffmanNode) (origSize : ℕ) (br : BitReader) : Option (List UInt8) :=
  if isLeaf root then
    forLoop 0 origSize [] fun _ out => do
      let data ← root.data
      some (out ++ [data])
  else
    loop (decode_body root origSize) { br, curr := root, bytesDecoded := 0, out := [] }

/-- `decompressFile` once the header is read and the output file is created. -/
def decompressBody (origSize : ℕ) (file : List UInt8) : Option (ℤ × Option (List UInt8)) :=
  if origSize = 0 then
    some (0, some [])
  else do
    let (root, br) ← deserializeTreePreorder (bitReaderInit file)
    if root = .NULL then
      some (-1, some [])
    else do
      let out ← decodePayload root origSize br
      some (0, some out)

/-- `decompressFile`, with its code and, if it gets as far as to open its output, what it
writes. -/
def decompressFile (file : List UInt8) : Option (ℤ × Option (List UInt8)) :=
  if (file.take MAGIC_LEN).length ≠ MAGIC_LEN ∨ file.take MAGIC_LEN ≠ HUF_MAGIC then
    some (-1, none)
  else
    match readSize 8 (file.drop MAGIC_LEN) 0 with
    | .error e => some (e, none)
    | .ok (origSize, file) => decompressBody origSize file

/-! ## The size -/

/-- The number the bytes `l` stand for, after the number `v`. -/
def bigEndian (v : ℕ) (l : List UInt8) : ℕ :=
  l.foldl (fun v byte => v * 256 + byte.toNat) v

/-- `k` bytes more make a number at most `256 ^ k` times as large. -/
theorem bigEndian_lt {v m : ℕ} (hv : v < 256 ^ m) (l : List UInt8) :
    bigEndian v l < 256 ^ (m + l.length) := by
  induction l generalizing v m with
  | nil => exact hv
  | cons byte l ih =>
      have hbyte := byte.toNat_lt
      have hnext : v * 256 + byte.toNat < 256 ^ (m + 1) := by
        rw [pow_succ]
        omega
      have := ih hnext
      rwa [Nat.add_assoc, Nat.add_comm 1] at this

/-- The size is read, and nothing of it is shifted out. -/
theorem readSize_spec {n m v : ℕ} {file : List UInt8} (hn : n ≤ file.length)
    (hv : v < 256 ^ m) (hm : m + n ≤ 8) :
    readSize n file v = .ok (bigEndian v (file.take n), file.drop n) := by
  induction n generalizing file m v with
  | zero => rfl
  | succ n ih =>
      cases file with
      | nil => exact absurd hn (Nat.not_succ_le_zero n)
      | cons byte file =>
          have hbyte := byte.toNat_lt
          have hpow : 256 ^ m * 256 ≤ 256 ^ 8 := by
            rw [← pow_succ]
            exact Nat.pow_le_pow_right (by omega) (by omega)
          -- the bits shifted out of 64 are zeros so far
          have hshift : (v <<< 8) % 2 ^ 64 ||| byte.toNat = v * 256 + byte.toNat := by
            rw [Nat.mod_eq_of_lt (by rw [Nat.shiftLeft_eq]; omega),
              ← Nat.shiftLeft_add_eq_or_of_lt (by omega), Nat.shiftLeft_eq]
          rw [readSize, hshift, ih (m := m + 1) (by simpa using hn) (by rw [pow_succ]; omega)
            (by omega)]
          rfl

/-- A file that ends within the size is refused, before anything is decoded. -/
theorem readSize_short {n v : ℕ} {file : List UInt8} (hn : file.length < n) :
    readSize n file v = .error (-1) := by
  induction n generalizing file v with
  | zero => exact absurd hn (Nat.not_lt_zero _)
  | succ n ih =>
      cases file with
      | nil => rfl
      | cons byte file => exact ih (Nat.lt_of_succ_lt_succ hn)

/-- The size is written behind what is there. -/
theorem putSize_eq (out : List UInt8) (x k : ℕ) : putSize out x k = out ++ putSize [] x k := by
  induction k generalizing out with
  | zero => exact (List.append_nil out).symm
  | succ k ih => rw [putSize, putSize, ih, ih ([] ++ _), List.nil_append, List.append_assoc]

/-- In as many bytes as it is told. -/
theorem length_putSize (x k : ℕ) : (putSize [] x k).length = k := by
  induction k with
  | zero => rfl
  | succ k ih =>
      rw [putSize, putSize_eq, List.length_append, ih, List.nil_append, List.length_singleton,
        Nat.add_comm]

/-- The bytes of the size stand for it. -/
theorem bigEndian_putSize (x k : ℕ) : bigEndian (x >>> (k * 8)) (putSize [] x k) = x := by
  induction k with
  | zero => rfl
  | succ k ih =>
      have hbyte : x >>> ((k + 1) * 8) * 256
          + (UInt8.ofNat (x >>> (k * 8) &&& 0xFF)).toNat = x >>> (k * 8) := by
        rw [Nat.succ_mul, Nat.shiftRight_add, Nat.shiftRight_eq_div_pow _ 8, UInt8.toNat_ofNat',
          show 0xFF = 2 ^ 8 - 1 from rfl, Nat.and_two_pow_sub_one_eq_mod]
        omega
      rw [putSize, putSize_eq, List.nil_append, List.singleton_append, bigEndian, List.foldl_cons,
        hbyte]
      exact ih

/-! ## The tree -/

/-- What is written of a tree is its preorder, behind the bits that were there. Induction on the
tree, one case for each of its constructors. -/
theorem serializeTreePreorder_wrote {n : HuffmanNode} {t : BinTree UInt8} {bw : BitWriter}
    {base : List UInt8} {bits : List Bool} (ht : IsTree n t) (h : Wrote bw base bits) :
    Wrote (serializeTreePreorder n bw) base (bits ++ preorder byteBits t) := by
  induction ht generalizing bw bits with
  | leaf data freq =>
      have hbits := writeBits_wrote (writeBit_wrote h 1) data.toNat 8
      rw [List.append_assoc] at hbits
      rw [serializeTreePreorder, if_pos (isLeaf_leaf data freq)]
      exact hbits
  | node data freq hl hr ihl ihr =>
      have hbits := ihr (ihl (writeBit_wrote h 0))
      rw [List.append_assoc, List.append_assoc] at hbits
      rw [serializeTreePreorder, isLeaf_node data freq hl.ne_null, if_neg (by simp)]
      exact hbits

/-- What comes in of a tree: all of it, or what there is until the bits run out. -/
inductive Deserialized (bits : List Bool) (n : HuffmanNode) (rest : List Bool) : Prop
  | whole (t : BinTree UInt8) (ht : IsTree n t) (h : bits = preorder byteBits t ++ rest)
  | cut (h : rest = []) (hno : ∀ t rest, bits ≠ preorder byteBits t ++ rest)

/-- There is no node to read: the end of the file, or a leaf without its symbol. -/
def NoNode (bits : List Bool) : Prop :=
  bits = [] ∨ ∃ bs, bits = true :: bs ∧ bs.length < 8

/-- What a call of `deserializeTreePreorder` does: it reads as much of a tree as there is, and
makes a `NULL` if there is no node. -/
def Reads (br : BitReader) : Prop :=
  ∃ n br', deserializeTreePreorder br = some (n, br') ∧ Deserialized br.bits n br'.bits
    ∧ (n = .NULL ↔ NoNode br.bits)

section Deserialize

variable {br : BitReader} {bits bs rest : List Bool} {n : HuffmanNode}

/-- The bits of a file start with no node, an inner node or a leaf. -/
theorem noNode_or (bits : List Bool) :
    NoNode bits ∨ (∃ bs, bits = false :: bs) ∨ ∃ bs, bits = true :: bs ∧ 8 ≤ bs.length := by
  cases bits with
  | nil => exact Or.inl (Or.inl rfl)
  | cons b bs =>
      cases b with
      | false => exact Or.inr (Or.inl ⟨bs, rfl⟩)
      | true =>
          rcases Nat.lt_or_ge bs.length 8 with hlt | hge
          · exact Or.inl (Or.inr ⟨bs, rfl, hlt⟩)
          · exact Or.inr (Or.inr ⟨bs, rfl, hge⟩)

/-- A `0` starts a node. -/
theorem not_noNode_false (bs : List Bool) : ¬ NoNode (false :: bs) := by
  rintro (h | ⟨bs', h, -⟩)
  · exact List.cons_ne_nil _ _ h
  · simp at h

/-- No bits of a stored tree are the end of the input. -/
theorem not_noNode (t : BinTree UInt8) (rest : List Bool) :
    ¬ NoNode (preorder byteBits t ++ rest) := by
  cases t with
  | leaf a =>
      rintro (h | ⟨bs, h, hlt⟩)
      · simp [preorder] at h
      · rw [preorder, List.cons_append, List.cons.injEq] at h
        rw [← h.2, List.length_append, length_byteBits] at hlt
        omega
  | node l r => exact not_noNode_false _

/-- Where no node can be read no tree is stored. -/
theorem NoNode.no_tree (h : NoNode bits) (t : BinTree UInt8) (rest : List Bool) :
    bits ≠ preorder byteBits t ++ rest := by
  rintro rfl
  exact not_noNode t rest h

/-- The symbol eight bits stand for. -/
def symbol (bs : List Bool) : UInt8 :=
  UInt8.ofNat (pushBits 0 (bs.take 8))

/-- A `1` with eight bits behind it is a stored leaf. -/
theorem eq_preorder_leaf (h : bits = true :: bs) (hlen : 8 ≤ bs.length) :
    bits = preorder byteBits (.leaf (symbol bs)) ++ bs.drop 8 := by
  rw [h, preorder, symbol, byteBits_ofNat_pushBits (List.length_take_of_le hlen),
    List.cons_append, List.take_append_drop]

/-- Reading a tree uses bits up, or there are none; the recursion is bounded by what is left of the
file. -/
theorem Deserialized.length_le (h : Deserialized bits n rest) : rest.length ≤ bits.length := by
  cases h with
  | whole t ht h =>
      rw [h, List.length_append]
      omega
  | cut h hno =>
      rw [h]
      exact Nat.zero_le _

/-- Without a node nothing is left: only the end of the file makes a `NULL`. -/
theorem Deserialized.eq_nil (h : Deserialized bits .NULL rest) : rest = [] := by
  cases h with
  | whole t ht h => exact absurd rfl ht.ne_null
  | cut h hno => exact h

/-- An inner node is whole when both its children are. -/
theorem Deserialized.node {l r : HuffmanNode} {rest' : List Bool} (hl : Deserialized bs l rest)
    (hr : Deserialized rest r rest') :
    Deserialized (false :: bs) (.node DOLLAR 0 l r) rest' := by
  -- a cut child leaves nothing to read for the other one
  cases hl with
  | whole tl htl hbs =>
      cases hr with
      | whole tr htr hrest =>
          refine .whole (.node tl tr) (.node _ _ htl htr) ?_
          rw [hbs, hrest, preorder, List.cons_append, List.append_assoc]
      | cut hrest' hno =>
          refine .cut hrest' fun t more ht => ?_
          obtain ⟨tl', tr', rfl, ht'⟩ := exists_node_of_preorder ht
          rw [hbs] at ht'
          exact hno tr' more (preorder_inj byteBits_injective length_byteBits ht').2
  | cut hrest hno =>
      have hrest' : rest' = [] := by
        have := hr.length_le
        rw [hrest, List.length_nil, Nat.le_zero] at this
        exact List.eq_nil_of_length_eq_zero this
      refine .cut hrest' fun t more ht => ?_
      obtain ⟨tl', tr', rfl, ht'⟩ := exists_node_of_preorder ht
      exact hno tl' _ ht'

/-- A `0`: both children are read, one after the other. -/
theorem deserialize_node (h : br.bits = false :: bs)
    (hreads : ∀ br' : BitReader, br'.bits.length ≤ bs.length → Reads br') :
    ∃ l r br', deserializeTreePreorder br = some (.node DOLLAR 0 l r, br')
      ∧ Deserialized br.bits (.node DOLLAR 0 l r) br'.bits
      ∧ (l = .NULL ↔ NoNode bs) ∧ (l = .NULL → r = .NULL) := by
  obtain ⟨br1, hread, hbits1⟩ := readBit_cons h
  obtain ⟨l, br2, hrun2, hl, hlnull⟩ := hreads br1 (by rw [hbits1])
  rw [hbits1] at hl hlnull
  obtain ⟨r, br3, hrun3, hr, hrnull⟩ := hreads br2 hl.length_le
  refine ⟨l, r, br3, ?_, by rw [h]; exact hl.node hr, hlnull, ?_⟩
  · rw [deserializeTreePreorder, hread]
    simp [hrun2, hrun3]
  · intro h0
    rw [h0] at hl
    rw [hrnull, hl.eq_nil]
    exact Or.inl rfl

/-- At the end of the input the reader makes a `NULL`, and what is left of the bits is gone. -/
theorem deserialize_null (h : NoNode br.bits) :
    ∃ br', deserializeTreePreorder br = some (.NULL, br') ∧ br'.bits = [] := by
  rcases h with hnil | ⟨bs, hbits, hlt⟩
  · refine ⟨br, ?_, hnil⟩
    rw [deserializeTreePreorder, readBit_nil hnil]
    simp
  · obtain ⟨br1, hread, hbits1⟩ := readBit_cons hbits
    obtain ⟨br2, hrun, hbits2⟩ := readBits_short 0 (by rwa [hbits1])
    refine ⟨br2, ?_, hbits2⟩
    rw [deserializeTreePreorder, hread]
    simp [hrun]

/-- A `1`: the symbol is the next eight bits. -/
theorem deserialize_leaf (h : br.bits = true :: bs) (hlen : 8 ≤ bs.length) :
    ∃ br', deserializeTreePreorder br = some (createNode (symbol bs) 0, br')
      ∧ br'.bits = bs.drop 8 := by
  obtain ⟨br1, hread, hbits1⟩ := readBit_cons h
  have htake : (bs.take 8).length = 8 := List.length_take_of_le hlen
  obtain ⟨br2, hrun, hbits2⟩ := readBits_append
    (show br1.bits = bs.take 8 ++ bs.drop 8 by rw [hbits1, List.take_append_drop])
    (show 0 < 2 ^ 0 from Nat.one_pos) (by rw [htake]; omega)
  rw [htake] at hrun
  refine ⟨br2, ?_, hbits2⟩
  rw [deserializeTreePreorder, hread]
  simp [hrun, symbol]

/-- **Every tree is read**, or what there is of it. The induction is on the bits ahead. -/
theorem deserialize_spec (br : BitReader) : Reads br := by
  generalize hm : br.bits.length = m
  induction m using Nat.strongRecOn generalizing br with
  | ind m ih =>
      -- the next bits are too few for a node, those of an inner node, or those of a leaf
      rcases noNode_or br.bits with hnode | ⟨bs, hbits⟩ | ⟨bs, hbits, hlen⟩
      · obtain ⟨br', hrun, hrest⟩ := deserialize_null hnode
        exact ⟨.NULL, br', hrun, .cut hrest hnode.no_tree, iff_of_true rfl hnode⟩
      · obtain ⟨l, r, br', hrun, hd, -⟩ := deserialize_node hbits (fun br' hle =>
          ih _ (by rw [← hm, hbits, List.length_cons]; omega) br' rfl)
        refine ⟨_, br', hrun, hd, iff_of_false HuffmanNode.noConfusion ?_⟩
        rw [hbits]
        exact not_noNode_false bs
      · obtain ⟨br', hrun, hrest⟩ := deserialize_leaf hbits hlen
        have hleaf := eq_preorder_leaf hbits hlen
        rw [← hrest] at hleaf
        refine ⟨_, br', hrun, .whole _ (.leaf (symbol bs) 0) hleaf,
          iff_of_false HuffmanNode.noConfusion ?_⟩
        rw [hleaf]
        exact not_noNode _ _

end Deserialize

/-! ## The payload -/

section Payload

variable {bw : BitWriter} {base : List UInt8} {bits : List Bool}

/-- A codeword is written as its bits. -/
theorem writeCode_wrote (h : Wrote bw base bits) (p : List Bool) :
    Wrote (writeCode bw (p.map digit)) base (bits ++ p) := by
  induction p generalizing bw bits with
  | nil => rwa [List.append_nil]
  | cons b p ih =>
      have hbit : decide (charVal (digit b) - charVal '0' ≠ 0) = b := by
        cases b with
        | false => rfl
        | true => rfl
      have hnext := ih (writeBit_wrote h (charVal (digit b) - charVal '0'))
      rwa [hbit, List.append_assoc] at hnext

/-- The payload is the codewords of the characters, one after the other. -/
theorem writePayload_wrote {codeTable : UInt8 → CodeEntry} {code : UInt8 → List Bool}
    {input : List UInt8} (htable : ∀ b ∈ input, codeTable b = entry (code b))
    (h : Wrote bw base bits) :
    Wrote (writePayload codeTable bw input) base (bits ++ (input.map code).flatten) := by
  induction input generalizing bw bits with
  | nil => simpa [writePayload] using h
  | cons ch input ih =>
      have hfirst := writeCode_wrote h (code ch)
      have hnext := ih (fun b hb => htable b (List.mem_cons_of_mem ch hb)) hfirst
      have hrow : (codeTable ch).code = (code ch).map digit := by
        rw [htable ch List.mem_cons_self, entry]
      rw [List.append_assoc] at hnext
      rw [writePayload, List.foldl_cons, hrow]
      exact hnext

end Payload

section Decode

variable {root n : HuffmanNode} {t u : BinTree UInt8} {origSize : ℕ}

/-- Of the trees of the program only those with two `NULL`s are leaves. -/
theorem eq_leaf (ht : IsTree n t) (h : isLeaf n = true) :
    ∃ data freq, n = .node data freq .NULL .NULL ∧ t = .leaf data := by
  cases ht with
  | leaf data freq => exact ⟨data, freq, rfl, rfl⟩
  | node data freq hl hr =>
      rw [isLeaf_node data freq hl.ne_null] at h
      exact absurd h Bool.false_ne_true

/-- An inner node has a child for each bit, so a walk in a whole tree never comes to a `NULL`. -/
theorem child_spec (ht : IsTree n t) (h : isLeaf n = false) :
    ∃ l r, t = .node l r ∧ ∀ b : Bool, ∃ c, child n (b.toNat : ℤ) = some c
      ∧ IsTree c (if b then r else l) := by
  cases ht with
  | leaf data freq => exact absurd h (by simp [isLeaf_leaf])
  | @node nl nr tl tr data freq hl hr =>
      refine ⟨tl, tr, rfl, fun b => ?_⟩
      cases b with
      | false => exact ⟨nl, rfl, hl⟩
      | true => exact ⟨nr, rfl, hr⟩

/-- The output so far, with what the bits ahead have still to give, is the output. -/
structure Decoding (t : BinTree UInt8) (origSize : ℕ) (s : Decoder) (out : List UInt8) : Prop where
  inner : isLeaf s.curr = false
  decoded_le : s.bytesDecoded ≤ origSize
  ahead : ∃ u, IsTree s.curr u
    ∧ s.out ++ decodeFrom t u (origSize - s.bytesDecoded) s.br.bits = out

/-- One bit keeps the walk in step with the decoder of prefix codes: either all characters are out,
or there is a next state with one bit less. -/
theorem decode_body_spec {s : Decoder} {out : List UInt8} (ht : IsTree root t)
    (hroot : isLeaf root = false) (hsize : origSize < 2 ^ 64)
    (h : Decoding t origSize s out) :
    decode_body root origSize s = some (.done out)
      ∨ ∃ s', decode_body root origSize s = some (.next s') ∧ Decoding t origSize s' out
        ∧ s'.br.bits.length < s.br.bits.length := by
  obtain ⟨hinner, hle, u, hu, hout⟩ := h
  rw [decode_body]
  rcases Nat.lt_or_ge s.bytesDecoded origSize with hlt | hge
  · rw [if_pos hlt]
    obtain ⟨l, r, rfl, hchild⟩ := child_spec hu hinner
    cases hbits : s.br.bits with
    | nil =>
        left
        rw [hbits, decodeFrom_nil, List.append_nil] at hout
        rw [readBit_nil hbits, ← hout]
        simp
    | cons b bs =>
        right
        obtain ⟨br, hread, hbits'⟩ := readBit_cons hbits
        obtain ⟨c, hc, htree⟩ := hchild b
        rw [hbits, decodeFrom_cons] at hout
        have hlen : br.bits.length < (b :: bs).length := by
          rw [hbits', List.length_cons]
          omega
        rw [hread]
        simp only [toNat_ne_neg_one, if_false, hc, Option.bind_eq_bind, Option.bind_some,
          htree.ne_null]
        by_cases hleaf : isLeaf c = true
        · -- a symbol is complete, and the walk starts again at the root
          obtain ⟨data, freq, rfl, hleaf'⟩ := eq_leaf htree hleaf
          rw [if_pos hleaf, HuffmanNode.data, Option.bind_some,
            Nat.mod_eq_of_lt (show s.bytesDecoded + 1 < 2 ^ 64 by omega)]
          refine ⟨_, rfl, ⟨hroot, hlt, t, ht, ?_⟩, hlen⟩
          rw [hleaf', show origSize - s.bytesDecoded = origSize - (s.bytesDecoded + 1) + 1 by omega,
            decodeFrom_leaf] at hout
          rw [decodeFrom_self, hbits', List.append_assoc]
          exact hout
        · rw [if_neg hleaf]
          refine ⟨_, rfl, ⟨by simpa using hleaf, hle, _, htree, ?_⟩, hlen⟩
          rw [hbits']
          exact hout
  · left
    rw [Nat.sub_eq_zero_of_le hge, decodeFrom, List.append_nil] at hout
    rw [if_neg (by omega), hout]

/-- With all of the tree the payload is decoded as the code of the tree says, up to the size or the
end of the file. -/
theorem decodePayload_whole (ht : IsTree root t) (hsize : origSize < 2 ^ 64) (br : BitReader) :
    decodePayload root origSize br = some (decode t origSize br.bits) := by
  rw [decodePayload]
  by_cases hleaf : isLeaf root = true
  · obtain ⟨data, freq, rfl, rfl⟩ := eq_leaf ht hleaf
    obtain ⟨out, hrun, hout⟩ := forLoop_spec
      (f := fun _ out => (HuffmanNode.node data freq .NULL .NULL).data.bind fun data =>
        some (out ++ [data]))
      (fun i out => out = List.replicate i data) (Nat.zero_le origSize) (s := []) rfl (by
        rintro i out - - rfl
        exact ⟨_, rfl, List.replicate_succ'.symm⟩)
    rw [if_pos hleaf, decode_leaf, ← hout]
    exact hrun
  · rw [if_neg hleaf]
    obtain ⟨out, hrun, rfl⟩ := loop_spec (f := decode_body root origSize)
      (fun s => s.br.bits.length) (fun s => Decoding t origSize s (decode t origSize br.bits))
      (fun out => out = decode t origSize br.bits)
      (by
        intro s hs
        rcases decode_body_spec ht (by simpa using hleaf) hsize hs with hdone | hnext
        · exact Or.inl ⟨_, hdone, rfl⟩
        · exact Or.inr hnext)
      (s := { br, curr := root, bytesDecoded := 0, out := [] })
      ⟨by simpa using hleaf, Nat.zero_le _, t, ht, by
        rw [decodeFrom_self, List.nil_append, Nat.sub_zero]⟩
    exact hrun

/-- At the end of the file nothing is decoded. -/
theorem decodePayload_nil {br : BitReader} (hroot : isLeaf root = false) (h : br.bits = []) :
    decodePayload root origSize br = some [] := by
  rw [decodePayload, hroot, if_neg Bool.false_ne_true]
  apply loop_done
  rw [decode_body, readBit_nil h]
  split
  · simp
  · rfl

end Decode

/-! ## The header -/

section Header

variable {file : List UInt8}

/-- The header is all there: the mark, and eight bytes behind it for the size. -/
def HeaderOk (file : List UInt8) : Prop :=
  file.take MAGIC_LEN = HUF_MAGIC ∧ MAGIC_LEN + 8 ≤ file.length

/-- The size stored in the header. -/
def storedSize (file : List UInt8) : ℕ :=
  bigEndian 0 ((file.drop MAGIC_LEN).take 8)

/-- What follows the header: the tree and the payload, without a border between them. -/
def body (file : List UInt8) : List UInt8 :=
  (file.drop MAGIC_LEN).drop 8

/-- Eight bytes make a `uint64_t`. -/
theorem storedSize_lt (file : List UInt8) : storedSize file < 2 ^ 64 := by
  have hlt := bigEndian_lt (m := 0) Nat.one_pos ((file.drop MAGIC_LEN).take 8)
  have hlen : ((file.drop MAGIC_LEN).take 8).length ≤ 8 := List.length_take_le _ _
  have hpow : 256 ^ (0 + ((file.drop MAGIC_LEN).take 8).length) ≤ 256 ^ 8 :=
    Nat.pow_le_pow_right (by omega) (by omega)
  rw [storedSize]
  omega

/-- Behind a good header it is the size and the body that count. -/
theorem decompressFile_of_header (h : HeaderOk file) :
    decompressFile file = decompressBody (storedSize file) (body file) := by
  obtain ⟨hmagic, hlen⟩ := h
  rw [decompressFile, hmagic, if_neg (by simp [HUF_MAGIC, MAGIC_LEN]),
    readSize_spec (m := 0) (by rw [List.length_drop]; omega) Nat.one_pos (by omega)]
  rfl

/-- Anything else is refused before a file is opened for writing. -/
theorem decompressFile_of_not_header (h : ¬ HeaderOk file) :
    decompressFile file = some (-1, none) := by
  rw [decompressFile]
  by_cases hmagic : file.take MAGIC_LEN = HUF_MAGIC
  · -- the size breaks off
    have hlen : file.length < MAGIC_LEN + 8 := by
      by_contra hge
      exact h ⟨hmagic, by omega⟩
    rw [hmagic, if_neg (by simp [HUF_MAGIC, MAGIC_LEN]),
      readSize_short (by rw [List.length_drop]; omega)]
  · rw [if_pos (Or.inr hmagic)]

/-- The header that is written is read: the mark is found, the size is the one stored, and the rest
is what stands behind it. -/
theorem header_putSize {size : ℕ} (h : size < 2 ^ 64) (rest : List UInt8) :
    HeaderOk (putSize HUF_MAGIC size 8 ++ rest)
      ∧ storedSize (putSize HUF_MAGIC size 8 ++ rest) = size
      ∧ body (putSize HUF_MAGIC size 8 ++ rest) = rest := by
  have hmagic : HUF_MAGIC.length = MAGIC_LEN := rfl
  have hlen := length_putSize size 8
  have hvalue := bigEndian_putSize size 8
  rw [Nat.shiftRight_eq_zero size (8 * 8) h] at hvalue
  have hdrop : (putSize HUF_MAGIC size 8 ++ rest).drop MAGIC_LEN = putSize [] size 8 ++ rest := by
    rw [putSize_eq, List.append_assoc, List.drop_left' hmagic]
  refine ⟨⟨?_, ?_⟩, ?_, ?_⟩
  · rw [putSize_eq, List.append_assoc, List.take_left' hmagic]
  · rw [putSize_eq, List.length_append, List.length_append, hlen]
    exact Nat.le_add_right _ _
  · rw [storedSize, hdrop, List.take_left' hlen, hvalue]
  · rw [body, hdrop, List.drop_left' hlen]

end Header

end CourseLabs.Huffman
