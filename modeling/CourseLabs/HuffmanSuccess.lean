/-
`CSMCS26A017_Lab2_2.c`: what the return value of `decompressFile` says about its output.

The header is checked, and a file without a single tree node is refused. Past that the
function always returns `0`: the loop over the payload leaves with a warning when the file
ends, and so does a tree that breaks off, whose payload is empty then (`Outcome`). The
output is complete all the same when a whole tree and enough codewords are there, and in
one odd case: when the tree breaks off right behind its root, the root passes for a leaf
and its symbol `$` is written over and over.
-/
import CourseLabs.HuffmanRoundTrip

set_option autoImplicit false

namespace CourseLabs.Huffman

open CourseLabs.CMem CourseLabs.BitString CourseLabs.PrefixTree

/-! ## What may happen after the header -/

/-- The results of `decompressBody`, for the bits of the file and a size above `0`. -/
inductive Outcome (size : ℕ) (bits : List Bool) : ℤ × List UInt8 → Prop
  | whole (t : BinTree UInt8) (payload : List Bool) (h : bits = preorder byteBits t ++ payload) :
      Outcome size bits (0, decode t size payload)
  | refused (h : NoNode bits) : Outcome size bits (-1, [])
  | dollars (bs : List Bool) (h : bits = false :: bs) (hbs : NoNode bs) :
      Outcome size bits (0, List.replicate size DOLLAR)
  | cut (hno : ∀ t payload, bits ≠ preorder byteBits t ++ payload) (hnode : ¬ NoNode bits)
      (hchild : ∀ bs, bits = false :: bs → ¬ NoNode bs) : Outcome size bits (0, [])

section Outcome

variable {size : ℕ} {file : List UInt8} {bits bs : List Bool}

/-- The payload behind a tree that breaks off below its root. -/
theorem decodePayload_cut {l r : HuffmanNode} {br : BitReader} (hsize : size < 2 ^ 64)
    (hbits : br.bits = []) (hl : l = .NULL ↔ NoNode bs) (hr : l = .NULL → r = .NULL) :
    (NoNode bs ∧ decodePayload (.node DOLLAR 0 l r) size br = some (List.replicate size DOLLAR))
      ∨ (¬ NoNode bs ∧ decodePayload (.node DOLLAR 0 l r) size br = some []) := by
  by_cases hchild : NoNode bs
  · left
    have hnull := hl.mpr hchild
    rw [hr hnull, hnull, decodePayload_whole (.leaf DOLLAR 0) hsize, decode_leaf]
    exact ⟨hchild, rfl⟩
  · right
    exact ⟨hchild, decodePayload_nil (isLeaf_node DOLLAR 0 (fun h0 => hchild (hl.mp h0))) hbits⟩

theorem decompressBody_spec (hpos : 0 < size) (hsize : size < 2 ^ 64) (file : List UInt8) :
    ∃ code out, decompressBody size file = some (code, some out)
      ∧ Outcome size (file.flatMap byteBits) (code, out) := by
  obtain ⟨root, br, hrun, hd, hnull⟩ := deserialize_spec (bitReaderInit file)
  rw [bits_bitReaderInit] at hd hnull
  cases hd with
  | whole t ht hbits =>
      exact ⟨0, _, decompressBody_whole hpos hsize hbits, .whole t _ hbits⟩
  | cut hrest hno =>
      rcases noNode_or (file.flatMap byteBits) with hnode | ⟨bs, hbits⟩ | ⟨bs, hbits, hlen⟩
      · refine ⟨-1, [], ?_, .refused hnode⟩
        rw [decompressBody, if_neg (by omega), hrun, Option.bind_eq_bind, Option.bind_some]
        simp [hnull.mpr hnode]
      · -- the root is an inner node
        obtain ⟨l, r, br', hrun', -, hl, hr⟩ := deserialize_node
          (show (bitReaderInit file).bits = false :: bs by rw [bits_bitReaderInit, hbits])
          (fun br' _ => deserialize_spec br')
        rw [hrun] at hrun'
        obtain ⟨rfl, rfl⟩ := Prod.mk.inj (Option.some.inj hrun')
        have hbody : decompressBody size file
            = (decodePayload (.node DOLLAR 0 l r) size br).bind
              (fun out => some (0, some out)) := by
          rw [decompressBody, if_neg (by omega), hrun, Option.bind_eq_bind, Option.bind_some]
          rfl
        rcases decodePayload_cut hsize hrest hl hr with ⟨hchild, hout⟩ | ⟨hchild, hout⟩
        · exact ⟨0, _, by rw [hbody, hout, Option.bind_some], .dollars bs hbits hchild⟩
        · refine ⟨0, [], by rw [hbody, hout, Option.bind_some], .cut hno ?_ ?_⟩
          · rw [hbits]
            exact not_noNode_false bs
          · intro bs' hbs'
            rw [hbits, List.cons.injEq] at hbs'
            rwa [← hbs'.2]
      · exact absurd (eq_preorder_leaf hbits hlen) (hno _ _)

end Outcome

/-! ## The first bits of the file -/

section Stub

/-- Nothing, or one byte with one of its first two bits set: the start of a tree of which
not even a child of the root is there. -/
def Stub (file : List UInt8) : Prop :=
  file = [] ∨ ∃ b : UInt8, file = [b] ∧ 64 ≤ b.toNat

/-- The first two bits of a byte. -/
theorem byteBits_eq (b : UInt8) :
    ∃ bs, byteBits b = decide (128 ≤ b.toNat) :: decide (64 ≤ b.toNat % 128) :: bs
      ∧ bs.length = 6 := by
  have hb := b.toNat_lt
  have h7 : b.toNat.testBit 7 = decide (128 ≤ b.toNat) := by
    rw [Nat.testBit_eq_decide_div_mod_eq]
    congr 1
    exact propext (by omega)
  have h6 : b.toNat.testBit 6 = decide (64 ≤ b.toNat % 128) := by
    rw [Nat.testBit_eq_decide_div_mod_eq]
    congr 1
    exact propext (by omega)
  refine ⟨lowBits b.toNat 6, ?_, length_lowBits _ _⟩
  rw [byteBits, lowBits, lowBits, h7, h6]

theorem stub_iff (file : List UInt8) :
    Stub file ↔ NoNode (file.flatMap byteBits)
      ∨ ∃ bs, file.flatMap byteBits = false :: bs ∧ NoNode bs := by
  cases file with
  | nil => exact iff_of_true (Or.inl rfl) (Or.inl (Or.inl rfl))
  | cons b file =>
      obtain ⟨bs, hb, hlen⟩ := byteBits_eq b
      have hlt := b.toNat_lt
      rw [List.flatMap_cons, hb]
      constructor
      · rintro (h0 | ⟨c, h0, h64⟩)
        · exact absurd h0 (List.cons_ne_nil _ _)
        · obtain ⟨rfl, rfl⟩ := List.cons.inj h0
          by_cases h128 : 128 ≤ b.toNat
          -- a leaf bit, with seven bits behind it
          · left
            rw [decide_eq_true h128]
            exact Or.inr ⟨_, rfl, by simp [hlen]⟩
          -- a root, and a leaf bit with six bits behind it
          · right
            rw [decide_eq_false h128, decide_eq_true (show 64 ≤ b.toNat % 128 by omega)]
            exact ⟨_, rfl, Or.inr ⟨_, rfl, by simp [hlen]⟩⟩
      · -- a byte more would be more bits than there may be
        have hone : ∀ rest : List UInt8, (rest.flatMap byteBits).length < 8 → rest = [] := by
          intro rest h
          cases rest with
          | nil => rfl
          | cons c rest =>
              rw [List.flatMap_cons, List.length_append, length_byteBits] at h
              omega
        rintro ((h0 | ⟨bs', h0, hlen'⟩) | ⟨bs', h0, (h1 | ⟨bs'', h1, hlen'⟩)⟩)
        · exact absurd h0 (List.cons_ne_nil _ _)
        · rw [List.cons_append, List.cons_append, List.cons.injEq] at h0
          rw [← h0.2, List.length_cons, List.length_append] at hlen'
          rw [hone file (by omega)]
          exact Or.inr ⟨b, rfl, by have := of_decide_eq_true h0.1; omega⟩
        · rw [List.cons_append, List.cons_append, List.cons.injEq, h1] at h0
          exact absurd h0.2 (List.cons_ne_nil _ _)
        · rw [List.cons_append, List.cons_append, List.cons.injEq, h1, List.cons.injEq] at h0
          rw [← h0.2.2, List.length_append] at hlen'
          rw [hone file (by omega)]
          exact Or.inr ⟨b, rfl, by have := of_decide_eq_true h0.2.1; omega⟩

/-- A stub holds no tree. -/
theorem not_stub {file : List UInt8} {t : BinTree UInt8} {payload : List Bool}
    (h : file.flatMap byteBits = preorder byteBits t ++ payload) : ¬ Stub file := by
  rw [stub_iff, h]
  rintro (hnode | ⟨bs, hbits, hnode⟩)
  · exact not_noNode t payload hnode
  · obtain ⟨l, r, rfl, rfl⟩ := exists_node_of_preorder hbits.symm
    exact not_noNode l _ hnode

end Stub

/-! ## Success -/

/-- A whole tree, and `size` codewords of it. -/
def Whole (size : ℕ) (bits : List Bool) : Prop :=
  ∃ (t : BinTree UInt8) (w : List (UInt8 × List Bool)) (rest : List Bool),
    (∀ c ∈ w, c ∈ codes t) ∧ w.length = size
      ∧ bits = preorder byteBits t ++ ((w.map Prod.snd).flatten ++ rest)

/-- Without a byte there is no tree. -/
theorem Outcome.code_nil {size : ℕ} {code : ℤ} {out : List UInt8}
    (h : Outcome size [] (code, out)) : code ≠ 0 := by
  cases h with
  | whole t payload h => exact absurd h (NoNode.no_tree (Or.inl rfl) t payload)
  | refused h => decide
  | dollars bs h hbs => exact absurd h.symm (List.cons_ne_nil _ _)
  | cut hno hnode hchild => exact absurd (Or.inl rfl) hnode

/-- With an inner node the decoder never fails. -/
theorem Outcome.code_node {size : ℕ} {code : ℤ} {out : List UInt8} {bs : List Bool}
    (h : Outcome size (false :: bs) (code, out)) : code = 0 := by
  cases h with
  | whole t payload h => rfl
  | refused h => exact absurd h (not_noNode_false bs)
  | dollars bs h hbs => rfl
  | cut hno hnode hchild => rfl

theorem Outcome.complete_iff {size : ℕ} {file out : List UInt8} {code : ℤ} (hpos : 0 < size)
    (h : Outcome size (file.flatMap byteBits) (code, out)) :
    (code = 0 → out.length = size) ↔ Stub file ∨ Whole size (file.flatMap byteBits) := by
  cases h with
  -- the tree was read: the size is right exactly if the payload has all its codewords
  | whole t payload h =>
      rw [imp_iff_right (rfl : (0 : ℤ) = 0), length_decode_eq_iff]
      constructor
      · rintro ⟨w, rest, hw, hlen, rfl⟩
        exact Or.inr ⟨t, w, rest, hw, hlen, h⟩
      · rintro (hstub | ⟨u, w, rest, hw, hlen, hbits⟩)
        · exact absurd hstub (not_stub h)
        · rw [h] at hbits
          obtain ⟨rfl, hpayload⟩ := preorder_inj byteBits_injective length_byteBits hbits
          exact ⟨w, rest, hw, hlen, hpayload⟩
  -- no tree, and the exit code says so
  | refused h =>
      refine iff_of_true (fun h0 => absurd h0 (by decide)) (Or.inl ((stub_iff file).mpr ?_))
      exact Or.inl h
  -- a lone inner node, which decodes to as many `'$'` as are asked for
  | dollars bs h hbs =>
      refine iff_of_true (fun _ => List.length_replicate) (Or.inl ((stub_iff file).mpr ?_))
      exact Or.inr ⟨bs, h, hbs⟩
  -- the tree was cut off: nothing is decoded, and the exit code is `0` all the same
  | cut hno hnode hchild =>
      refine iff_of_false (fun h => ?_) ?_
      · have := h rfl
        rw [List.length_nil] at this
        omega
      · rintro (hstub | ⟨t, w, rest, -, -, hbits⟩)
        · rcases (stub_iff file).mp hstub with h | ⟨bs, h, hbs⟩
          · exact hnode h
          · exact hchild bs h hbs
        · exact hno t _ hbits

/-- When `0` is returned the output has the stored size. -/
def SuccessIsComplete (file : List UInt8) : Prop :=
  ∀ out, decompressFile file = some (0, out) →
    ∃ bytes, out = some bytes ∧ bytes.length = storedSize file

/-- Behind a whole header, and for a size above `0`, comes a tree with enough codewords, or
so little that the header is refused or the root passes for a leaf. -/
def Sound (file : List UInt8) : Prop :=
  HeaderOk file → storedSize file ≠ 0 →
    Stub (body file) ∨ Whole (storedSize file) ((body file).flatMap byteBits)

/-- Success is complete output on the sound files, and on no others. -/
theorem successIsComplete_iff (file : List UInt8) : SuccessIsComplete file ↔ Sound file := by
  by_cases hok : HeaderOk file
  · rw [SuccessIsComplete, Sound, decompressFile_of_header hok]
    -- an empty file is whole without a tree
    by_cases h0 : storedSize file = 0
    · refine iff_of_true ?_ (fun _ hne => absurd h0 hne)
      rintro out hout
      rw [decompressBody, if_pos h0, Option.some.injEq, Prod.mk.injEq] at hout
      exact ⟨[], hout.2.symm, h0.symm⟩
    · have hpos : 0 < storedSize file := Nat.pos_of_ne_zero h0
      obtain ⟨code, bytes, hrun, houtcome⟩ := decompressBody_spec hpos (storedSize_lt file)
        (body file)
      rw [hrun, ← imp_congr_right fun _ => imp_congr_right fun _ => houtcome.complete_iff hpos]
      simp only [hok, h0, ne_eq, not_false_eq_true, true_imp_iff, Option.some.injEq,
        Prod.mk.injEq]
      constructor
      · intro h hcode
        obtain ⟨bytes', hbytes, hlen⟩ := h _ ⟨hcode, rfl⟩
        rwa [Option.some.inj hbytes]
      · rintro h out ⟨hcode, rfl⟩
        exact ⟨bytes, rfl, h hcode⟩
  · refine iff_of_true ?_ (fun h => absurd h hok)
    intro out hout
    rw [decompressFile_of_not_header hok, Option.some.injEq, Prod.mk.injEq] at hout
    exact absurd hout.1 (by decide)

/-! ## Truncated files -/

/-- A compressed file that has lost its end. -/
def Truncated (file : List UInt8) : Prop :=
  ∃ input cells buffer lost, buffer.length = MAX_TREE_HT ∧ input.length < 2 ^ 64 ∧ lost ≠ []
    ∧ compressFile input cells buffer = some (0, file ++ lost)

/-- The loss is reported. -/
def TruncationIsReported (file : List UInt8) : Prop :=
  Truncated file → ∃ code out, decompressFile file = some (code, out) ∧ code ≠ 0

/-- What a truncated file with its header starts with. -/
theorem Truncated.cases {file : List UInt8} (h : Truncated file) :
    file.length < MAGIC_LEN + 8
      ∨ ∃ size part, 0 < size ∧ size < 2 ^ 64 ∧ file = putSize HUF_MAGIC size 8 ++ part
        ∧ ∀ b bs, part.flatMap byteBits = b :: bs → b = false := by
  obtain ⟨input, cells, buffer, lost, hbuffer, hlen, hlost, hrun⟩ := h
  have hheader : ∀ size, (putSize HUF_MAGIC size 8).length = MAGIC_LEN + 8 := by
    intro size
    rw [putSize_eq, List.length_append, length_putSize]
    rfl
  by_cases hne : input = []
  · left
    rw [hne, compressFile_nil, Option.some.injEq, Prod.mk.injEq] at hrun
    have hsum := congrArg List.length hrun.2
    rw [hheader, List.length_append] at hsum
    have := List.length_pos_iff.mpr hlost
    omega
  · obtain ⟨t, code, bytes, pad, hrun', hheight, -, -, hbits⟩ :=
      compressFile_spec cells hbuffer hne hlen
    rw [hrun', Option.some.injEq, Prod.mk.injEq] at hrun
    rcases Nat.lt_or_ge file.length (MAGIC_LEN + 8) with hlt | hge
    · exact Or.inl hlt
    · right
      obtain ⟨part, hpart⟩ := List.prefix_of_prefix_length_le (hrun.2 ▸ List.prefix_append _ bytes)
        (List.prefix_append file lost) (by rw [hheader]; exact hge)
      refine ⟨input.length, part, List.length_pos_iff.mpr hne, hlen, hpart.symm, ?_⟩
      intro b bs hb
      have hsplit : bytes = part ++ lost := by
        have heq := hrun.2
        rw [← hpart, List.append_assoc] at heq
        exact List.append_cancel_left heq
      rw [hsplit, List.flatMap_append, hb] at hbits
      -- the tree of a text has an inner node at its root
      cases t with
      | leaf a => exact absurd hheight (Nat.lt_irrefl 0)
      | node l r =>
          rw [preorder, List.cons_append, List.cons_append, List.cons_append,
            List.cons.injEq] at hbits
          exact hbits.1

/-- Of the truncated files the decoder refuses those without a byte after the header. -/
theorem truncationIsReported_iff (file : List UInt8) :
    TruncationIsReported file ↔ ¬ (Truncated file ∧ MAGIC_LEN + 8 < file.length) := by
  rw [TruncationIsReported, not_and, not_lt]
  apply imp_congr_right
  intro htrunc
  rcases htrunc.cases with hshort | ⟨size, part, hpos, hsize, rfl, hfirst⟩
  · refine iff_of_true ⟨-1, none, decompressFile_of_not_header ?_, by decide⟩ hshort.le
    rintro ⟨-, hlen⟩
    omega
  · obtain ⟨hok, hstored, hbody⟩ := header_putSize hsize part
    have hlen : (putSize HUF_MAGIC size 8 ++ part).length = MAGIC_LEN + 8 + part.length := by
      rw [putSize_eq, List.length_append, List.length_append, length_putSize]
      rfl
    obtain ⟨code, out, hrun, houtcome⟩ := decompressBody_spec hpos hsize part
    rw [decompressFile_of_header hok, hstored, hbody, hrun, hlen]
    cases part with
    | nil => exact iff_of_true ⟨code, some out, rfl, houtcome.code_nil⟩ (le_refl _)
    | cons b part =>
        refine iff_of_false ?_ (by rw [List.length_cons]; omega)
        obtain ⟨bs, hb, -⟩ := byteBits_eq b
        rw [List.flatMap_cons, hb, List.cons_append] at houtcome hfirst
        rw [hfirst _ _ rfl] at houtcome
        rintro ⟨code', out', hrun', hcode⟩
        rw [Option.some.injEq, Prod.mk.injEq] at hrun'
        exact hcode (hrun'.1.symm.trans houtcome.code_node)

/-- **When the return value tells the truth.** Success means complete output, and a
truncated file is reported, for the files that are sound and have not just lost something
behind their header. -/
theorem reports_iff (file : List UInt8) :
    SuccessIsComplete file ∧ TruncationIsReported file
      ↔ Sound file ∧ ¬ (Truncated file ∧ MAGIC_LEN + 8 < file.length) :=
  and_congr (successIsComplete_iff file) (truncationIsReported_iff file)

/-- The text `ab` compressed, without the last byte of the file: the right leaf of the
tree breaks off. -/
def truncatedAb : List UInt8 :=
  [72, 85, 70, 49, 0, 0, 0, 0, 0, 0, 0, 2, 0x58, 0x6C]

theorem decompressFile_truncatedAb : decompressFile truncatedAb = some (0, some []) := by
  have hleft : deserializeTreePreorder { fp := [0x6C], buffer := 0x58, bitCount := 7 }
      = some (createNode 97 0, { fp := [], buffer := 0x6C, bitCount := 6 }) := by
    rw [deserializeTreePreorder]
    rfl
  have hright : deserializeTreePreorder { fp := [], buffer := 0x6C, bitCount := 6 }
      = some (.NULL, { fp := [], buffer := 0x6C, bitCount := 0 }) := by
    rw [deserializeTreePreorder]
    rfl
  have hroot : deserializeTreePreorder (bitReaderInit [0x58, 0x6C])
      = some (.node DOLLAR 0 (createNode 97 0) .NULL,
        { fp := [], buffer := 0x6C, bitCount := 0 }) := by
    rw [deserializeTreePreorder]
    change (deserializeTreePreorder { fp := [0x6C], buffer := 0x58, bitCount := 7 }).bind _ = _
    rw [hleft, Option.bind_some]
    change (deserializeTreePreorder { fp := [], buffer := 0x6C, bitCount := 6 }).bind _ = _
    rw [hright, Option.bind_some]
  change decompressBody 2 [0x58, 0x6C] = _
  rw [decompressBody, if_neg (by decide), hroot, Option.bind_eq_bind, Option.bind_some]
  change (decodePayload _ 2 _).bind _ = _
  rw [decodePayload_nil (by rfl) (by rfl), Option.bind_some]

theorem not_reports :
    ¬ (SuccessIsComplete truncatedAb ∧ TruncationIsReported truncatedAb) := by
  rintro ⟨hcomplete, -⟩
  obtain ⟨bytes, hbytes, hlen⟩ := hcomplete _ decompressFile_truncatedAb
  rw [← Option.some.inj hbytes] at hlen
  exact absurd hlen (by decide)

end CourseLabs.Huffman
