/-
`CSMCS26A017_Lab2_2.c` with its **pointers**: the tree nodes as blocks of memory, and the
decompressor.

Elsewhere a pointer to a node is the tree below it, which is right as long as no node is
shared, written to by two owners or used after it is freed. Here a pointer is an address, the
functions read and write a store, and the allocator is any there is. `Rep σ p n A` says that
at `p` there is the tree `n`, in the blocks `A`; the `freeTree` of a tree whose blocks are all
different frees each of them once (`freeTree_spec`). So the two models agree, and of
`decompressFile` no block is left over, whatever comes in (`decompressFile_returns_memory`):
the incomplete trees `deserializeTreePreorder` makes of a file that breaks off included.
-/
import CourseLabs.Blocks
import CourseLabs.HuffmanSuccess

set_option autoImplicit false

namespace CourseLabs.HuffmanMemory

open CourseLabs.Blocks CourseLabs.CLoop CourseLabs.CMem
open CourseLabs.Huffman (HuffmanNode BitReader BitWriter CodeEntry readBit readBits writeBit
  writeBits bitReaderInit DOLLAR MAGIC_LEN HUF_MAGIC readSize)

/-! ## The program -/

/-- A `HuffmanNode`: its children are addresses, and nothing says that there is a node at them. -/
structure Node where
  data : UInt8
  freq : ℕ
  left : ℕ
  right : ℕ

/-- A `MinHeap`: the array is a block of its own, at an address. -/
structure MinHeap where
  size : ℕ
  capacity : ℕ
  array : ℕ

/-- What `malloc` is called for: a node, a `MinHeap`, and the array of one. -/
inductive Block where
  | node (n : Node)
  | minHeap (h : MinHeap)
  | array (capacity : ℕ) (cells : ℕ → ℕ)

/-- The memory of a run of the program: what is allocated, and what is in it. -/
abbrev Memory : Type :=
  Store Block

/-- `*p`, of a node. It is undefined for `NULL`, for what has been freed and for a block of another
kind. -/
def nodeAt (σ : Memory) (p : ℕ) : Option Node :=
  match load σ p with
  | some (.node n) => some n
  | _ => none

/-- A node of its own block, with both children `NULL`. -/
def createNode (alloc : Allocator Block) (σ : Memory) (data : UInt8) (freq : ℕ) : ℕ × Memory :=
  malloc alloc σ (.node { data, freq, left := NULL, right := NULL })

/-- `p->left = left` -/
def setLeft (σ : Memory) (p left : ℕ) : Option Memory := do
  let n ← nodeAt σ p
  save σ p (.node { n with left })

/-- `p->right = right` -/
def setRight (σ : Memory) (p right : ℕ) : Option Memory := do
  let n ← nodeAt σ p
  save σ p (.node { n with right })

/-- Whether both children are `NULL`; undefined where there is no node. -/
def isLeaf (σ : Memory) (p : ℕ) : Option Bool := do
  let n ← nodeAt σ p
  some (n.left = NULL ∧ n.right = NULL)

/-- `freeTree`: the children first, then the node. On a node that two parents share it would free
twice. -/
def freeTree (σ : Memory) (root : ℕ) : Option Memory :=
  letI freeTree : Memory → ℕ → Option Memory := by exact freeTree
  if root = NULL then
    some σ
  else do
    let n ← nodeAt σ root
    let σ ← freeTree σ n.left
    let n ← nodeAt σ root
    let σ ← freeTree σ n.right
    free σ root
partial_fixpoint

/-- The reader of a stored tree. It asks for the memory of a node as soon as it has read its bit,
and keeps it when the file breaks off below. -/
def deserializeTreePreorder (alloc : Allocator Block) (σ : Memory) (br : BitReader) :
    Option (ℕ × BitReader × Memory) :=
  letI deserializeTreePreorder : Memory → BitReader → Option (ℕ × BitReader × Memory) := by
    exact deserializeTreePreorder alloc
  match readBit br with
  | (bit, br) =>
    if bit = -1 then
      some (NULL, br, σ)
    else if bit = 1 then
      match readBits br 8 0 with
      | (.error _, br) => some (NULL, br, σ)
      | (.ok charVal, br) =>
        let (p, σ) := createNode alloc σ (UInt8.ofNat charVal) 0
        some (p, br, σ)
    else do
      let (node, σ) := createNode alloc σ DOLLAR 0
      let (left, br, σ) ← deserializeTreePreorder σ br
      let σ ← setLeft σ node left
      let (right, br, σ) ← deserializeTreePreorder σ br
      let σ ← setRight σ node right
      some (node, br, σ)
partial_fixpoint

/-- The state of the payload loop; `curr` is an address. -/
structure Decoder where
  br : BitReader
  curr : ℕ
  bytesDecoded : ℕ
  out : List UInt8

/-- One bit of the payload: a step down from the node the walk has come to, or from the root. -/
def decode_body (σ : Memory) (root origSize : ℕ) (s : Decoder) :
    Option (Pass Decoder (List UInt8)) :=
  if s.bytesDecoded < origSize then
    match readBit s.br with
    | (bit, br) =>
      if bit = -1 then
        some (.done s.out)
      else do
        let n ← nodeAt σ s.curr
        let curr := if bit = 0 then n.left else n.right
        if curr = NULL then
          some (.done s.out)
        else if ← isLeaf σ curr then do
          let n ← nodeAt σ curr
          some (.next { br, curr := root, bytesDecoded := (s.bytesDecoded + 1) % 2 ^ 64,
                        out := s.out ++ [n.data] })
        else
          some (.next { s with br, curr })
  else
    some (.done s.out)

/-- The walks of all the characters, from the bits behind the stored tree. -/
def decodePayload (σ : Memory) (root origSize : ℕ) (br : BitReader) : Option (List UInt8) := do
  if ← isLeaf σ root then
    forLoop 0 origSize [] fun _ out => do
      let n ← nodeAt σ root
      some (out ++ [n.data])
  else
    loop (decode_body σ root origSize) { br, curr := root, bytesDecoded := 0, out := [] }

/-- `decompressFile` once the header is read and the output file is created. -/
def decompressBody (alloc : Allocator Block) (σ : Memory) (origSize : ℕ) (file : List UInt8) :
    Option ((ℤ × Option (List UInt8)) × Memory) :=
  if origSize = 0 then
    some ((0, some []), σ)
  else do
    let (root, br, σ) ← deserializeTreePreorder alloc σ (bitReaderInit file)
    if root = NULL then
      some ((-1, some []), σ)
    else do
      let out ← decodePayload σ root origSize br
      let σ ← freeTree σ root
      some ((0, some out), σ)

/-- `decompressFile`: the code it returns, the output file if it was created, and the memory. -/
def decompressFile (alloc : Allocator Block) (σ : Memory) (file : List UInt8) :
    Option ((ℤ × Option (List UInt8)) × Memory) :=
  if (file.take MAGIC_LEN).length ≠ MAGIC_LEN ∨ file.take MAGIC_LEN ≠ HUF_MAGIC then
    some ((-1, none), σ)
  else
    match readSize 8 (file.drop MAGIC_LEN) 0 with
    | .error e => some ((e, none), σ)
    | .ok (origSize, file) => decompressBody alloc σ origSize file

/-! ## Trees in memory -/

/-- At `p` there is the tree `n`, in the blocks `A`. -/
inductive Rep (σ : Memory) : ℕ → HuffmanNode → Multiset ℕ → Prop
  | null : Rep σ NULL .NULL 0
  | node {p l r : ℕ} {data : UInt8} {freq : ℕ} {left right : HuffmanNode} {A B : Multiset ℕ}
      (hp : nodeAt σ p = some { data, freq, left := l, right := r })
      (hl : Rep σ l left A) (hr : Rep σ r right B) :
      Rep σ p (.node data freq left right) (p ::ₘ (A + B))

section Rep

variable {alloc : Allocator Block} {σ σ' σ₀ : Memory} {p a : ℕ} {n : Node} {x : HuffmanNode}
  {A B : Multiset ℕ}

/-- A node is read where a block with a node is. -/
theorem nodeAt_eq_some : nodeAt σ p = some n ↔ load σ p = some (.node n) := by
  unfold nodeAt
  split
  · next m h => simp [h]
  · next h => simpa using fun h' => h n h'

theorem nodeAt_congr (h : σ'.lookup p = σ.lookup p) : nodeAt σ' p = nodeAt σ p := by
  rw [nodeAt, nodeAt, load_congr h]

/-- No block is at `NULL`. -/
theorem ne_null_of_nodeAt (h : nodeAt σ p = some n) : p ≠ NULL :=
  (load_eq_some.mp (nodeAt_eq_some.mp h)).1

/-- The missing tree, and only that, is at `NULL`, so the tests of the source for `NULL` are the
tests for a missing tree. -/
theorem Rep.null_iff (h : Rep σ p x A) : p = NULL ↔ x = .NULL := by
  cases h with
  | null => exact ⟨fun _ => rfl, fun _ => rfl⟩
  | node hp hl hr =>
      exact ⟨fun h0 => absurd h0 (ne_null_of_nodeAt hp), fun h0 => nomatch h0⟩

/-- The blocks of a tree are nodes. -/
theorem Rep.nodeAt_mem (h : Rep σ p x A) (ha : a ∈ A) : ∃ n, nodeAt σ a = some n := by
  induction h with
  | null => exact absurd ha (Multiset.notMem_zero a)
  | node hp hl hr ihl ihr =>
      rcases Multiset.mem_cons.mp ha with rfl | ha
      · exact ⟨_, hp⟩
      · rcases Multiset.mem_add.mp ha with ha | ha
        · exact ihl ha
        · exact ihr ha

/-- The blocks of a represented tree are allocated. -/
theorem Rep.mem (h : Rep σ p x A) (ha : a ∈ A) : a ∈ σ := by
  obtain ⟨n, hn⟩ := h.nodeAt_mem ha
  exact mem_of_load (nodeAt_eq_some.mp hn)

/-- **Only the blocks of a tree matter to it**: it stays what it is whatever happens to the others.
-/
theorem Rep.congr (h : Rep σ p x A) (hsame : ∀ a ∈ A, σ'.lookup a = σ.lookup a) :
    Rep σ' p x A := by
  induction h with
  | null => exact .null
  | node hp hl hr ihl ihr =>
      refine .node ?_ (ihl fun a ha => hsame a ?_) (ihr fun a ha => hsame a ?_)
      · rwa [nodeAt_congr (hsame _ (Multiset.mem_cons_self _ _))]
      · exact Multiset.mem_cons_of_mem (Multiset.mem_add.mpr (Or.inl ha))
      · exact Multiset.mem_cons_of_mem (Multiset.mem_add.mpr (Or.inr ha))

/-- What is added later is elsewhere, so the trees there were are there still. -/
theorem Rep.adds (h : Rep σ p x A) (hadd : Adds B σ σ') : Rep σ' p x A :=
  h.congr fun a ha => hadd.same a fun hB => hadd.fresh a hB (h.mem ha)

/-- The tests of the two models agree on a tree that is there. -/
theorem isLeaf_spec (h : Rep σ p x A) (hx : x ≠ .NULL) :
    isLeaf σ p = some (Huffman.isLeaf x) := by
  cases h with
  | null => exact absurd rfl hx
  | node hp hl hr =>
      rw [isLeaf, hp, Option.bind_eq_bind, Option.bind_some]
      simp only [hl.null_iff, hr.null_iff]
      cases hl with
      | null =>
          cases hr with
          | null => rfl
          | node hp' hl' hr' => simp [Huffman.isLeaf]
      | node hp' hl' hr' => simp [Huffman.isLeaf]

/-! ### Nodes -/

/-- What `createNode` has put into the new block. -/
theorem nodeAt_createNode (alloc : Allocator Block) (σ : Memory) (data : UInt8) (freq : ℕ) :
    nodeAt (createNode alloc σ data freq).2 (createNode alloc σ data freq).1
      = some { data, freq, left := NULL, right := NULL } :=
  nodeAt_eq_some.mpr (load_malloc alloc σ _)

/-- A new node is one more block, and nothing else has changed. -/
theorem adds_createNode (alloc : Allocator Block) (σ : Memory) (data : UInt8) (freq : ℕ) :
    Adds {(createNode alloc σ data freq).1} σ (createNode alloc σ data freq).2 :=
  adds_malloc alloc σ _

/-- A new node represents a tree of one node. -/
theorem rep_createNode (alloc : Allocator Block) (σ : Memory) (data : UInt8) (freq : ℕ) :
    Rep (createNode alloc σ data freq).2 (createNode alloc σ data freq).1
      (Huffman.createNode data freq) {(createNode alloc σ data freq).1} :=
  .node (nodeAt_createNode alloc σ data freq) .null .null

/-- A node that is written is there as it was written. -/
theorem save_node (h : nodeAt σ p = some n) (m : Node) :
    ∃ σ', save σ p (.node m) = some σ' ∧ nodeAt σ' p = some m ∧ SameOff {p} σ σ'
      ∧ ∀ a ∈ σ, a ∈ σ' := by
  have hload := nodeAt_eq_some.mp h
  have hp := ne_null_of_nodeAt h
  refine ⟨_, save_of_mem hp (mem_of_load hload) _, nodeAt_eq_some.mpr (load_insert hp _),
    sameOff_insert (Multiset.mem_singleton_self p) _, fun a ha => ?_⟩
  exact Finmap.mem_insert.mpr (Or.inr ha)

/-- A write to the left child changes that field of that block. -/
theorem setLeft_spec (h : nodeAt σ p = some n) (left : ℕ) :
    ∃ σ', setLeft σ p left = some σ' ∧ nodeAt σ' p = some { n with left } ∧ SameOff {p} σ σ'
      ∧ ∀ a ∈ σ, a ∈ σ' := by
  rw [setLeft, h]
  exact save_node h _

/-- A write to the right child changes that field of that block. -/
theorem setRight_spec (h : nodeAt σ p = some n) (right : ℕ) :
    ∃ σ', setRight σ p right = some σ' ∧ nodeAt σ' p = some { n with right }
      ∧ SameOff {p} σ σ' ∧ ∀ a ∈ σ, a ∈ σ' := by
  rw [setRight, h]
  exact save_node h _

/-- Writing to a node among the new blocks. -/
theorem adds_of_sameOff (hadd : Adds A σ₀ σ) (hp : p ∈ A) (hsame : SameOff {p} σ σ')
    (hmem : ∀ a ∈ σ, a ∈ σ') : Adds A σ₀ σ' :=
  hadd.write (hsame.mono (Multiset.singleton_subset.mpr hp)) fun a ha => hmem a (hadd.mem a ha)

/-! ### `freeTree` -/

/-- **A tree is freed block by block**, and nothing else is touched. -/
theorem freeTree_spec (h : Rep σ p x A) (hadd : Adds (A + B) σ₀ σ) :
    ∃ σ', freeTree σ p = some σ' ∧ Adds B σ₀ σ' ∧ SameOff A σ σ' := by
  induction x generalizing p σ A B with
  | NULL =>
      cases h
      rw [zero_add] at hadd
      exact ⟨σ, by rw [freeTree, if_pos rfl], hadd, SameOff.refl 0 σ⟩
  | node data freq left right ihl ihr =>
      cases h with
      | @node _ l r _ _ _ _ A₁ A₂ hp hl hr =>
          have hne := ne_null_of_nodeAt hp
          have hparts : p ::ₘ (A₁ + A₂) + B = A₁ + (A₂ + (p ::ₘ B)) := by
            rw [Multiset.cons_add, add_assoc, Multiset.add_cons, Multiset.add_cons]
          rw [hparts] at hadd
          have hsep : ∀ a ∈ A₁, a ∉ A₂ + (p ::ₘ B) := fun a ha =>
            Multiset.disjoint_left.mp (Multiset.nodup_add.mp hadd.nodup).2.2 ha
          -- the left child: the node and the right child are not in it
          obtain ⟨σ₁, hrun₁, hadd₁, hsame₁⟩ := ihl hl hadd
          have hkeep : ∀ a ∈ A₂ + (p ::ₘ B), σ₁.lookup a = σ.lookup a := fun a ha =>
            hsame₁ a fun h => hsep a h ha
          have hp₁ : nodeAt σ₁ p = nodeAt σ p := nodeAt_congr (hkeep p (by simp))
          have hr₁ : Rep σ₁ r right A₂ :=
            hr.congr fun a ha => hkeep a (Multiset.mem_add.mpr (Or.inl ha))
          -- the right child, and the node last
          obtain ⟨σ₂, hrun₂, hadd₂, hsame₂⟩ := ihr hr₁ hadd₁
          obtain ⟨hfree, hadd₃⟩ := hadd₂.free hne
          refine ⟨σ₂.erase p, ?_, hadd₃, fun a ha => ?_⟩
          · rw [freeTree, if_neg hne, hp]
            simp only [Option.bind_eq_bind, Option.bind_some, hrun₁]
            rw [hp₁, hp]
            simp only [Option.bind_some, hrun₂]
            exact hfree
          · rw [Multiset.mem_cons, Multiset.mem_add, not_or, not_or] at ha
            rw [Finmap.lookup_erase_ne ha.1, hsame₂ a ha.2.2, hsame₁ a ha.2.1]

/-! ### `deserializeTreePreorder` -/

/-- A node whose left child is set once it is there, and then the right one. -/
theorem inner_node {σ₁ σ₂ : Memory} {l : ℕ} {left : HuffmanNode} {data : UInt8}
    {freq : ℕ} (hnode : nodeAt σ₁ p = some { data, freq, left := NULL, right := NULL })
    (hadd : Adds {p} σ σ₁) (hl : Rep σ₂ l left A) (haddl : Adds A σ₁ σ₂) :
    ∃ σ₃, setLeft σ₂ p l = some σ₃ ∧ ∀ r right B σ₄, Rep σ₄ r right B → Adds B σ₃ σ₄ →
      ∃ σ₅, setRight σ₄ p r = some σ₅ ∧ Rep σ₅ p (.node data freq left right) (p ::ₘ (A + B))
        ∧ Adds (p ::ₘ (A + B)) σ σ₅ := by
  have hpA : p ∉ A := fun h => haddl.fresh p h (hadd.mem p (Multiset.mem_singleton_self p))
  have hnode₂ : nodeAt σ₂ p = _ := (nodeAt_congr (haddl.same p hpA)).trans hnode
  obtain ⟨σ₃, hset₃, hnode₃, hsame₃, hmem₃⟩ := setLeft_spec hnode₂ l
  refine ⟨σ₃, hset₃, fun r right B σ₄ hr haddr => ?_⟩
  have hadd₂ := hadd.trans haddl
  have hadd₃ := adds_of_sameOff hadd₂ (by simp) hsame₃ hmem₃
  have hpB : p ∉ B := fun h => haddr.fresh p h (hadd₃.mem p (by simp))
  have hnode₄ : nodeAt σ₄ p = _ := (nodeAt_congr (haddr.same p hpB)).trans hnode₃
  obtain ⟨σ₅, hset₅, hnode₅, hsame₅, hmem₅⟩ := setRight_spec hnode₄ r
  have hadd₅ := adds_of_sameOff (hadd₃.trans haddr) (by simp) hsame₅ hmem₅
  rw [add_assoc, Multiset.singleton_add] at hadd₅
  -- neither child has the node in it
  have hl₃ : Rep σ₃ l left A := hl.congr fun a ha => hsame₃ a fun h => by
    rw [Multiset.mem_singleton.mp h] at ha
    exact hpA ha
  have hkeep : ∀ {q y C}, p ∉ C → Rep σ₄ q y C → Rep σ₅ q y C := fun hC h =>
    h.congr fun a ha => hsame₅ a fun h => by
      rw [Multiset.mem_singleton.mp h] at ha
      exact hC ha
  exact ⟨σ₅, hset₅, .node hnode₅ (hkeep hpA (hl₃.adds haddr)) (hkeep hpB hr), hadd₅⟩

/-- **What is read is built in new blocks**: the store keeps what it had, and the tree takes up all
that is added. -/
theorem deserialize_rep {br br' : BitReader} (alloc : Allocator Block)
    (h : Huffman.deserializeTreePreorder br = some (x, br')) (σ : Memory) :
    ∃ p σ' A, deserializeTreePreorder alloc σ br = some (p, br', σ') ∧ Rep σ' p x A
      ∧ Adds A σ σ' := by
  revert σ
  -- the recursion is a partial fixpoint: what is proved of one call may be assumed of the two
  -- inside
  refine Huffman.deserializeTreePreorder.partial_correctness (motive := fun br r => ∀ σ, ∃ p σ' A,
    deserializeTreePreorder alloc σ br = some (p, r.2, σ') ∧ Rep σ' p r.1 A ∧ Adds A σ σ')
    ?_ br (x, br') h
  intro f hf br r hrun σ
  rw [deserializeTreePreorder]
  generalize readBit br = bit at *
  obtain ⟨bit, br₁⟩ := bit
  dsimp only at hrun ⊢
  -- the file ends where a node should be
  by_cases heof : bit = -1
  · rw [if_pos heof] at hrun ⊢
    obtain rfl := Option.some.inj hrun
    exact ⟨NULL, σ, 0, rfl, .null, .zero σ⟩
  · rw [if_neg heof] at hrun ⊢
    by_cases hleaf : bit = 1
    · rw [if_pos hleaf] at hrun ⊢
      generalize readBits br₁ 8 0 = res at *
      obtain ⟨res, br₂⟩ := res
      -- a leaf without its eight bits is none
      cases res with
      | error e =>
          obtain rfl := Option.some.inj hrun
          exact ⟨NULL, σ, 0, rfl, .null, .zero σ⟩
      | ok charVal =>
          obtain rfl := Option.some.inj hrun
          exact ⟨_, _, _, rfl, rep_createNode alloc σ _ 0, adds_createNode alloc σ _ 0⟩
    · rw [if_neg hleaf] at hrun ⊢
      obtain ⟨⟨left, br₂⟩, hleft, hrest⟩ := Option.bind_eq_some_iff.mp hrun
      obtain ⟨⟨right, br₃⟩, hright, heq⟩ := Option.bind_eq_some_iff.mp hrest
      obtain rfl := Option.some.inj heq
      -- an inner node: its block first, then the left tree, then the right one
      have hnode := nodeAt_createNode alloc σ DOLLAR 0
      have hadd := adds_createNode alloc σ DOLLAR 0
      generalize createNode alloc σ DOLLAR 0 = top at *
      obtain ⟨l, σ₂, A, hrunl, hl, haddl⟩ := hf br₁ (left, br₂) hleft top.2
      obtain ⟨σ₃, hset₃, hnext⟩ := inner_node hnode hadd hl haddl
      obtain ⟨r, σ₄, B, hrunr, hr, haddr⟩ := hf br₂ (right, br₃) hright σ₃
      obtain ⟨σ₅, hset₅, hrep, hadd₅⟩ := hnext r right B σ₄ hr haddr
      refine ⟨top.1, σ₅, _, ?_, hrep, hadd₅⟩
      simp only [hrunl, Option.bind_eq_bind, Option.bind_some, hset₃, hrunr, hset₅]

/-! ### The payload -/

/-- The same state, with the node at its address: what ties the loop on addresses to the loop on
trees, pass by pass. -/
structure Follows (σ : Memory) (s : Huffman.Decoder) (t : Decoder) : Prop where
  br : t.br = s.br
  curr : ∃ A, Rep σ t.curr s.curr A
  bytesDecoded : t.bytesDecoded = s.bytesDecoded
  out : t.out = s.out

/-- Following a pointer down is going down in the tree. -/
theorem child_rep {bit : ℤ} {y : HuffmanNode} (h : Rep σ p x A)
    (hy : Huffman.child x bit = some y) :
    ∃ n B, nodeAt σ p = some n ∧ Rep σ (if bit = 0 then n.left else n.right) y B := by
  cases h with
  | null =>
      rw [Huffman.child] at hy
      split at hy
      · exact nomatch hy
      · exact nomatch hy
  | node hp hl hr =>
      -- a set bit goes to the right child, a clear one to the left child
      rw [Huffman.child] at hy
      split at hy
      · next hbit =>
        obtain rfl := Option.some.inj hy
        exact ⟨_, _, hp, by rwa [if_pos hbit]⟩
      · next hbit =>
        obtain rfl := Option.some.inj hy
        exact ⟨_, _, hp, by rwa [if_neg hbit]⟩

/-- The character of a node is in its block. -/
theorem data_rep {data : UInt8} (h : Rep σ p x A) (hx : x.data = some data) :
    ∃ n, nodeAt σ p = some n ∧ n.data = data := by
  cases h with
  | null => exact nomatch hx
  | node hp hl hr => exact ⟨_, hp, Option.some.inj hx⟩

/-- The frequency of a node is in its block. -/
theorem freq_rep {freq : ℕ} (h : Rep σ p x A) (hx : x.freq = some freq) :
    ∃ n, nodeAt σ p = some n ∧ n.freq = freq := by
  cases h with
  | null => exact nomatch hx
  | node hp hl hr => exact ⟨_, hp, Option.some.inj hx⟩

/-- One bit takes both models one step down, or makes both put out a character. -/
theorem decode_body_sim {root : HuffmanNode} {origSize : ℕ} (hroot : Rep σ p root A)
    (s : Huffman.Decoder) (t : Decoder) (pass : Pass Huffman.Decoder (List UInt8))
    (h : Follows σ s t) (hrun : Huffman.decode_body root origSize s = some pass) :
    ∃ pass', decode_body σ p origSize t = some pass' ∧ Pass.Rel (Follows σ) Eq pass pass' := by
  obtain ⟨hbr, ⟨B, hcurr⟩, hdec, hout⟩ := h
  rw [Huffman.decode_body] at hrun
  rw [decode_body, hbr, hdec, hout]
  -- there is a character to decode
  by_cases hlt : s.bytesDecoded < origSize
  · rw [if_pos hlt] at hrun ⊢
    generalize readBit s.br = bit at *
    obtain ⟨bit, br⟩ := bit
    dsimp only at hrun ⊢
    by_cases heof : bit = -1
    · rw [if_pos heof] at hrun ⊢
      obtain rfl := Option.some.inj hrun
      exact ⟨_, rfl, .done rfl⟩
    · rw [if_neg heof] at hrun ⊢
      obtain ⟨y, hy, hrest⟩ := Option.bind_eq_some_iff.mp hrun
      obtain ⟨n, C, hn, hrep⟩ := child_rep hcurr hy
      rw [hn]
      simp only [Option.bind_eq_bind, Option.bind_some]
      -- no child on that side ends the decoding
      by_cases hnull : y = .NULL
      · rw [if_pos hnull] at hrest
        rw [if_pos (hrep.null_iff.mpr hnull)]
        obtain rfl := Option.some.inj hrest
        exact ⟨_, rfl, .done rfl⟩
      · rw [if_neg hnull] at hrest
        rw [if_neg fun h => hnull (hrep.null_iff.mp h), isLeaf_spec hrep hnull, Option.bind_some]
        -- a leaf puts out its character and goes back to the root
        by_cases hleaf : Huffman.isLeaf y = true
        · rw [if_pos hleaf] at hrest ⊢
          obtain ⟨data, hdata, heq⟩ := Option.bind_eq_some_iff.mp hrest
          obtain rfl := Option.some.inj heq
          obtain ⟨m, hm, rfl⟩ := data_rep hrep hdata
          rw [hm]
          exact ⟨_, rfl, .next ⟨rfl, ⟨A, hroot⟩, rfl, rfl⟩⟩
        · rw [if_neg hleaf] at hrest ⊢
          obtain rfl := Option.some.inj hrest
          exact ⟨_, rfl, .next ⟨rfl, ⟨C, hrep⟩, rfl, rfl⟩⟩
  · rw [if_neg hlt] at hrun ⊢
    obtain rfl := Option.some.inj hrun
    exact ⟨_, rfl, .done rfl⟩

/-- **The payload** is decoded the same, by two loops in step. Reading changes no memory. -/
theorem decodePayload_rep {root : HuffmanNode} {origSize : ℕ} {br : BitReader} {out : List UInt8}
    (h : Rep σ p root A) (hne : root ≠ .NULL)
    (hrun : Huffman.decodePayload root origSize br = some out) :
    decodePayload σ p origSize br = some out := by
  rw [Huffman.decodePayload] at hrun
  rw [decodePayload, isLeaf_spec h hne, Option.bind_eq_bind, Option.bind_some]
  -- one distinct byte is written origSize times; any other tree is walked
  by_cases hleaf : Huffman.isLeaf root = true
  · rw [if_pos hleaf] at hrun ⊢
    obtain ⟨out', hrun', rfl⟩ := forLoop_sim (g := fun _ out => do
      let n ← nodeAt σ p
      some (out ++ [n.data])) (fun s t => t = s) (by
        rintro i s s' t rfl hs
        obtain ⟨data, hdata, heq⟩ := Option.bind_eq_some_iff.mp hs
        obtain rfl := Option.some.inj heq
        obtain ⟨m, hm, rfl⟩ := data_rep h hdata
        exact ⟨_, by rw [hm]; rfl, rfl⟩) rfl hrun
    exact hrun'
  · rw [if_neg hleaf] at hrun ⊢
    have hstart : Follows σ { br, curr := root, bytesDecoded := 0, out := [] }
        { br, curr := p, bytesDecoded := 0, out := [] } := ⟨rfl, ⟨A, h⟩, rfl, rfl⟩
    obtain ⟨out', hrun', rfl⟩ := loop_sim (Follows σ) Eq (decode_body_sim h) hstart hrun
    exact hrun'

end Rep

/-! ## `decompressFile` -/

section Decompress

variable {file : List UInt8}

/-- What is behind the header is decoded the same, and the memory is as before: the stored tree is
the only thing that was allocated, and it is freed on every path. -/
theorem decompressBody_rep {origSize : ℕ} {r : ℤ × Option (List UInt8)} (alloc : Allocator Block)
    (σ : Memory) (h : Huffman.decompressBody origSize file = some r) :
    decompressBody alloc σ origSize file = some (r, σ) := by
  rw [Huffman.decompressBody] at h
  rw [decompressBody]
  by_cases h0 : origSize = 0
  · rw [if_pos h0] at h ⊢
    rw [Option.some.inj h]
  · rw [if_neg h0] at h ⊢
    obtain ⟨⟨root, br⟩, hparse, hrest⟩ := Option.bind_eq_some_iff.mp h
    obtain ⟨p, σ', A, hparse', hrep, hadd⟩ := deserialize_rep alloc hparse σ
    rw [hparse']
    simp only [Option.bind_eq_bind, Option.bind_some]
    dsimp only at hrest
    by_cases hnull : root = .NULL
    · rw [if_pos hnull] at hrest
      rw [if_pos (hrep.null_iff.mpr hnull), ← Option.some.inj hrest]
      subst hnull
      cases hrep
      rw [hadd.eq]
    · rw [if_neg hnull] at hrest
      obtain ⟨out, hout, heq⟩ := Option.bind_eq_some_iff.mp hrest
      -- the tree that was read is freed, and nothing is left of it
      obtain ⟨σ'', hfree, hadd', -⟩ := freeTree_spec (B := 0) hrep (by rwa [add_zero])
      rw [if_neg fun h => hnull (hrep.null_iff.mp h), decodePayload_rep hrep hnull hout]
      simp only [Option.bind_some, hfree]
      rw [← Option.some.inj heq, hadd'.eq]

/-- The whole of `decompressFile`, with the files whose header is wrong. -/
theorem decompressFile_rep {r : ℤ × Option (List UInt8)} (alloc : Allocator Block) (σ : Memory)
    (h : Huffman.decompressFile file = some r) : decompressFile alloc σ file = some (r, σ) := by
  rw [Huffman.decompressFile] at h
  rw [decompressFile]
  by_cases hmagic : (file.take MAGIC_LEN).length ≠ MAGIC_LEN ∨ file.take MAGIC_LEN ≠ HUF_MAGIC
  · rw [if_pos hmagic] at h ⊢
    rw [Option.some.inj h]
  · rw [if_neg hmagic] at h ⊢
    generalize readSize 8 (file.drop MAGIC_LEN) 0 = header at *
    cases header with
    | error e =>
        dsimp only at h ⊢
        rw [Option.some.inj h]
    | ok origSize => exact decompressBody_rep alloc σ h

/-- Every file has a result, complete or not; so the program on addresses has one to follow. -/
theorem exists_decompressFile (file : List UInt8) : ∃ r, Huffman.decompressFile file = some r := by
  by_cases h : Huffman.HeaderOk file
  · rw [Huffman.decompressFile_of_header h]
    rcases Nat.eq_zero_or_pos (Huffman.storedSize file) with h0 | hpos
    · exact ⟨_, by rw [h0, Huffman.decompressBody, if_pos rfl]⟩
    · obtain ⟨code, out, hrun, -⟩ :=
        Huffman.decompressBody_spec hpos (Huffman.storedSize_lt file) (Huffman.body file)
      exact ⟨_, hrun⟩
  · exact ⟨_, Huffman.decompressFile_of_not_header h⟩

/-- **`decompressFile` gives its memory back.** It does what it does on trees without
addresses, it ends, it reads, writes and frees no block that is not there, and every block it
allocates is freed: for every file, and every allocator. -/
theorem decompressFile_returns_memory (alloc : Allocator Block) (σ : Memory)
    (file : List UInt8) :
    ∃ r, Huffman.decompressFile file = some r ∧ decompressFile alloc σ file = some (r, σ) := by
  obtain ⟨r, hr⟩ := exists_decompressFile file
  exact ⟨r, hr, decompressFile_rep alloc σ hr⟩

end Decompress

end CourseLabs.HuffmanMemory
