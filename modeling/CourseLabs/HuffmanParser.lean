/-
`CSMCS26A017_Lab2_2.c`: which streams `deserializeTreePreorder` reads a complete tree off.

The parser returns `NULL` when there is not even a first node, and the whole tree when one
is there. In between it hands back what it has: a node whose children ran out of bits, and
no caller can tell. `onlyComplete_iff` says that these are all the streams on which it
accepts what is not a tree.
-/
import CourseLabs.HuffmanFile
import CourseLabs.HuffmanShape

set_option autoImplicit false

namespace CourseLabs.Huffman

open CourseLabs.BitString CourseLabs.PrefixTree

/-! ## What a parser of complete trees does -/

/-- The bits between two readers are those `serializeTreePreorder` writes for a tree. -/
def Consumes (br : BitReader) (root : HuffmanNode) (br' : BitReader) : Prop :=
  ∃ w, br.bits = w ++ br'.bits ∧ ∀ bw base bits, Wrote bw base bits →
    Wrote (serializeTreePreorder root bw) base (bits ++ w)

/-- The stream ends in the middle of a tree. -/
def EndsInTree (bits : List Bool) : Prop :=
  ∃ t more, more ≠ [] ∧ preorder byteBits t = bits ++ more

/-- A tree that is returned is complete and is what was read, and of a tree that breaks off
nothing is returned. -/
def OnlyComplete (br : BitReader) : Prop :=
  ∃ root br', deserializeTreePreorder br = some (root, br')
    ∧ (root ≠ .NULL → Full root ∧ Consumes br root br')
    ∧ (EndsInTree br.bits → root = .NULL)

/-! ## The two directions -/

section OnlyComplete

variable {bw : BitWriter} {base : List UInt8} {br br' : BitReader} {bits bits' : List Bool}
  {root : HuffmanNode} {t : BinTree UInt8}

/-- A writer has written one thing. -/
theorem Wrote.unique (h : Wrote bw base bits) (h' : Wrote bw base bits') : bits = bits' := by
  obtain ⟨-, -, body, hfp, -, rfl⟩ := h
  obtain ⟨-, -, body', hfp', -, rfl⟩ := h'
  rw [hfp] at hfp'
  rw [List.append_cancel_left hfp']

theorem consumes_iff (ht : IsTree root t) :
    Consumes br root br' ↔ br.bits = preorder byteBits t ++ br'.bits := by
  constructor
  · rintro ⟨w, hbits, hw⟩
    have hwrote : [] ++ w = [] ++ preorder byteBits t :=
      (hw _ _ _ (bitWriterInit_wrote [])).unique
        (serializeTreePreorder_wrote ht (bitWriterInit_wrote []))
    rw [List.nil_append, List.nil_append] at hwrote
    rw [hbits, hwrote]
  · intro hbits
    exact ⟨_, hbits, fun bw base bits h => serializeTreePreorder_wrote ht h⟩

/-- With a whole tree at the front, the stream is no part of another. -/
theorem not_endsInTree (t : BinTree UInt8) (rest : List Bool) :
    ¬ EndsInTree (preorder byteBits t ++ rest) := by
  rintro ⟨u, more, hmore, h⟩
  rw [List.append_assoc, ← List.append_nil (preorder byteBits u)] at h
  have hrest := (preorder_inj byteBits_injective length_byteBits h).2
  exact hmore (List.append_eq_nil_iff.mp hrest.symm).2

theorem onlyComplete_of_tree {payload : List Bool}
    (h : br.bits = preorder byteBits t ++ payload) : OnlyComplete br := by
  obtain ⟨root, br', hrun, hd, -⟩ := deserialize_spec br
  cases hd with
  | cut hrest hno => exact absurd h (hno t payload)
  | whole u hu hbits =>
      refine ⟨root, br', hrun, fun _ => ⟨hu.full, (consumes_iff hu).mpr hbits⟩, fun hend => ?_⟩
      rw [hbits] at hend
      exact absurd hend (not_endsInTree u br'.bits)

theorem onlyComplete_of_noNode (h : NoNode br.bits) : OnlyComplete br := by
  obtain ⟨br', hrun, -⟩ := deserialize_null h
  exact ⟨.NULL, br', hrun, fun hne => absurd rfl hne, fun _ => rfl⟩

/-- A complete answer is a tree at the front, or `NULL` for want of a node. -/
theorem OnlyComplete.tree_or (h : OnlyComplete br) :
    (∃ t payload, br.bits = preorder byteBits t ++ payload) ∨ NoNode br.bits := by
  obtain ⟨root, br', hrun, hcomplete, -⟩ := h
  obtain ⟨root', br'', hrun', -, hnull⟩ := deserialize_spec br
  rw [hrun, Option.some.injEq, Prod.mk.injEq] at hrun'
  obtain ⟨rfl, rfl⟩ := hrun'
  by_cases hroot : root = .NULL
  · exact Or.inr (hnull.mp hroot)
  · left
    obtain ⟨hfull, hconsumes⟩ := hcomplete hroot
    obtain ⟨t, ht⟩ := hfull.exists_isTree hroot
    exact ⟨t, br'.bits, (consumes_iff ht).mp hconsumes⟩

end OnlyComplete

/-- **When the parser accepts only complete trees**: on the streams with a whole tree at the
front, and on those without a first node. -/
theorem onlyComplete_iff (br : BitReader) :
    OnlyComplete br
      ↔ (∃ t payload, br.bits = preorder byteBits t ++ payload) ∨ NoNode br.bits := by
  constructor
  · exact fun h => h.tree_or
  · rintro (⟨t, payload, h⟩ | h)
    · exact onlyComplete_of_tree h
    · exact onlyComplete_of_noNode h

theorem true_mem_preorder (t : BinTree UInt8) : true ∈ preorder byteBits t := by
  induction t with
  | leaf a => exact List.mem_cons_self
  | node l r ihl ihr => exact List.mem_cons_of_mem _ (List.mem_append_left _ ihl)

/-- A file of one zero byte: eight inner nodes, one below the other, and no leaf. -/
theorem not_always_onlyComplete : ¬ ∀ br : BitReader, OnlyComplete br := by
  intro h
  have hbits : (bitReaderInit [0]).bits = List.replicate 8 false := by
    rw [bits_bitReaderInit]
    decide
  rcases (h (bitReaderInit [0])).tree_or with ⟨t, payload, hzero⟩ | hzero
  · have htrue : true ∈ List.replicate 8 false := by
      rw [← hbits, hzero]
      exact List.mem_append_left _ (true_mem_preorder t)
    exact absurd (List.eq_of_mem_replicate htrue) (by decide)
  · rw [hbits] at hzero
    exact not_noNode_false _ hzero

end CourseLabs.Huffman
