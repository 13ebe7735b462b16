/-
`CSMCS26A017_Lab2_2.c` with its pointers: the min-heap of them, and `buildHuffmanTree`.

The array of the heap holds addresses. Beside it runs the array of the trees at these addresses,
with their blocks (`Tree`): an exchange in the one is the same exchange in the other, so the
heap of addresses does what the heap of trees does (`minHeapify_sim`, `insertMinHeap_sim`), and
what it holds is the same multiset throughout. That no two trees share a block is then a fact
about the sum of their blocks, which only a new node changes (`merge_body_sim`).
-/
import CourseLabs.HuffmanMemory

set_option autoImplicit false

namespace CourseLabs.HuffmanMemory

open CourseLabs.Blocks CourseLabs.CInt CourseLabs.CLoop CourseLabs.CMem CourseLabs.BinaryHeap
open CourseLabs.Huffman (HuffmanNode NUM_CHARS DOLLAR count_distinct)

/-! ## The program -/

/-- The `MinHeap` at an address, if there is one: an access to anything else is undefined. -/
def heapAt (σ : Memory) (p : ℕ) : Option MinHeap :=
  match load σ p with
  | some (.minHeap h) => some h
  | _ => none

/-- The array at an address: its length and its cells. -/
def arrayAt (σ : Memory) (p : ℕ) : Option (ℕ × (ℕ → ℕ)) :=
  match load σ p with
  | some (.array capacity cells) => some (capacity, cells)
  | _ => none

/-- `minHeap->size = size` -/
def setSize (σ : Memory) (minHeap size : ℕ) : Option Memory := do
  let h ← heapAt σ minHeap
  save σ minHeap (.minHeap { h with size })

/-- `minHeap->array[i]`, by way of both blocks, and inside of what was allocated for the array. -/
def getCell (σ : Memory) (minHeap i : ℕ) : Option ℕ := do
  let h ← heapAt σ minHeap
  let (capacity, cells) ← arrayAt σ h.array
  if i < capacity then some (cells i) else none

/-- `minHeap->array[i] = x`: only the block of the array changes. -/
def setCell (σ : Memory) (minHeap i x : ℕ) : Option Memory := do
  let h ← heapAt σ minHeap
  let (capacity, cells) ← arrayAt σ h.array
  if i < capacity then save σ h.array (.array capacity (upd cells i x)) else none

/-- `minHeap->array[i]->freq`, which dereferences a pointer that must be the one of a node. -/
def freqAt (σ : Memory) (minHeap i : ℕ) : Option ℕ := do
  let p ← getCell σ minHeap i
  let n ← nodeAt σ p
  some n.freq

/-- `createMinHeap`: two blocks, the first of which gets the address of the second. That one's
cells are left as they are. -/
def createMinHeap (alloc : Allocator Block) (σ : Memory) (capacity : ℕ) (cells : ℕ → ℕ) :
    Option (ℕ × Memory) := do
  let (minHeap, σ) := malloc alloc σ (.minHeap { size := 0, capacity, array := NULL })
  let (array, σ) := malloc alloc σ (.array capacity cells)
  let σ ← save σ minHeap (.minHeap { size := 0, capacity, array })
  some (minHeap, σ)

/-- Two pointers of the array change places. The nodes they point to stay where they are. -/
def swapNodes (σ : Memory) (minHeap i j : ℕ) : Option Memory := do
  let t ← getCell σ minHeap i
  let σ ← setCell σ minHeap i (← getCell σ minHeap j)
  setCell σ minHeap j t

/-- The comparison of `minHeapify`: `child`, if it is in the heap and below `smallest`. -/
def smaller (σ : Memory) (minHeap child smallest : ℕ) : Option ℕ := do
  let h ← heapAt σ minHeap
  if child < h.size then do
    let fc ← freqAt σ minHeap child
    let fs ← freqAt σ minHeap smallest
    some (if fc < fs then child else smallest)
  else
    some smallest

/-- The loop that moves a node down; it reads and writes pointers only, and frequencies through
them. -/
def minHeapify (σ : Memory) (minHeap idx : ℕ) : Option Memory :=
  letI minHeapify : Memory → ℕ → ℕ → Option Memory := by exact minHeapify
  do
    let left ← nat32 (2 * idx + 1)
    let right ← nat32 (2 * idx + 2)
    let smallest ← smaller σ minHeap left idx
    let smallest ← smaller σ minHeap right smallest
    if smallest ≠ idx then
      minHeapify (← swapNodes σ minHeap smallest idx) minHeap smallest
    else
      some σ
partial_fixpoint

/-- The pointer at the root, and the heap without it. -/
def extractMin (σ : Memory) (minHeap : ℕ) : Option (ℕ × Memory) := do
  let h ← heapAt σ minHeap
  if h.size = 0 then
    some (NULL, σ)
  else do
    let temp ← getCell σ minHeap 0
    let σ ← setCell σ minHeap 0 (← getCell σ minHeap (h.size - 1))
    let σ ← setSize σ minHeap (h.size - 1)
    let σ ← minHeapify σ minHeap 0
    some (temp, σ)

/-- The loop of `insertMinHeap`; the state is `i` and the memory. -/
def insert_body (minHeap node : ℕ) (s : ℕ × Memory) : Option (Pass (ℕ × Memory) (ℕ × Memory)) :=
  if s.1 > 0 then do
    let n ← nodeAt s.2 node
    let fp ← freqAt s.2 minHeap ((s.1 - 1) / 2)
    if n.freq < fp then do
      let σ ← setCell s.2 minHeap s.1 (← getCell s.2 minHeap ((s.1 - 1) / 2))
      some (.next ((s.1 - 1) / 2, σ))
    else
      some (.done s)
  else
    some (.done s)

/-- A pointer put at the end of the array and moved up. -/
def insertMinHeap (σ : Memory) (minHeap node : ℕ) : Option Memory := do
  let h ← heapAt σ minHeap
  let size ← nat32 (h.size + 1)
  let σ ← setSize σ minHeap size
  let (i, σ) ← loop (insert_body minHeap node) (size - 1, σ)
  setCell σ minHeap i node

/-- The array is freed before the `MinHeap` that points to it. -/
def freeMinHeap (σ : Memory) (minHeap : ℕ) : Option Memory :=
  if minHeap = NULL then
    some σ
  else do
    let h ← heapAt σ minHeap
    let σ ← (if h.array ≠ NULL then free σ h.array else some σ)
    free σ minHeap

/-- The search for the only character; the state is `i`. -/
def single_body (alloc : Allocator Block) (σ : Memory) (freqs : UInt8 → ℕ) (i : ℕ) :
    Option (Pass ℕ (Option (ℕ × Memory))) :=
  if i < NUM_CHARS then
    if freqs (UInt8.ofNat i) > 0 then do
      let (root, σ) := createNode alloc σ DOLLAR (freqs (UInt8.ofNat i))
      let (left, σ) := createNode alloc σ (UInt8.ofNat i) (freqs (UInt8.ofNat i))
      let σ ← setLeft σ root left
      -- dummy leaf node
      let (right, σ) := createNode alloc σ 0 0
      let σ ← setRight σ root right
      some (.done (some (root, σ)))
    else
      some (.next (i + 1))
  else
    some (.done none)

/-- The tree of a file with one byte value: a root with that leaf and a leaf nobody uses. -/
def single_tree (alloc : Allocator Block) (σ : Memory) (freqs : UInt8 → ℕ) (distinct : ℕ) :
    Option (Option (ℕ × Memory)) :=
  if distinct = 1 then loop (single_body alloc σ freqs) 0 else some none

/-- A leaf of its own for every byte value that occurs. -/
def insert_leaves (alloc : Allocator Block) (σ : Memory) (freqs : UInt8 → ℕ) (minHeap : ℕ) :
    Option Memory :=
  forLoop 0 NUM_CHARS σ fun i σ =>
    if freqs (UInt8.ofNat i) > 0 then
      let (node, σ) := createNode alloc σ (UInt8.ofNat i) (freqs (UInt8.ofNat i))
      insertMinHeap σ minHeap node
    else
      some σ

/-- The greedy loop: merge two lowest-frequency trees. -/
def merge_body (alloc : Allocator Block) (minHeap : ℕ) (σ : Memory) :
    Option (Pass Memory Memory) := do
  let h ← heapAt σ minHeap
  if h.size > 1 then do
    let (left, σ) ← extractMin σ minHeap
    let (right, σ) ← extractMin σ minHeap
    let l ← nodeAt σ left
    let r ← nodeAt σ right
    let (top, σ) := createNode alloc σ DOLLAR ((l.freq + r.freq) % 2 ^ 64)
    let σ ← setLeft σ top left
    let σ ← setRight σ top right
    let σ ← insertMinHeap σ minHeap top
    some (.next σ)
  else
    some (.done σ)

/-- `buildHuffmanTree`: the root and `*distinctCount`, and the memory. The heap is freed before the
return, the tree is not. -/
def buildHuffmanTree (alloc : Allocator Block) (σ : Memory) (freqs : UInt8 → ℕ)
    (cells : ℕ → ℕ) : Option ((ℕ × ℕ) × Memory) := do
  let distinct ← count_distinct freqs
  if distinct = 0 then
    some ((NULL, distinct), σ)
  else do
    match ← single_tree alloc σ freqs distinct with
    | some (root, σ) => some ((root, distinct), σ)
    | none => do
      let (minHeap, σ) ← createMinHeap alloc σ distinct cells
      let σ ← insert_leaves alloc σ freqs minHeap
      let σ ← loop (merge_body alloc minHeap) σ
      let (root, σ) ← extractMin σ minHeap
      let σ ← freeMinHeap σ minHeap
      some ((root, distinct), σ)

/-! ## The heap in memory -/

/-- A tree in memory: its address, the tree itself, and the blocks it takes up. -/
structure Tree where
  ptr : ℕ
  node : HuffmanNode
  addrs : Multiset ℕ

/-- The tree is there. -/
def Tree.In (t : Tree) (σ : Memory) : Prop :=
  Rep σ t.ptr t.node t.addrs

/-- At `p` there is the heap `h`, its array at `array`. At the positions `S`, the array has the
addresses of the trees `g`. -/
structure HeapRep (σ : Memory) (p array : ℕ) (h : Huffman.MinHeap) (g : ℕ → Tree)
    (S : Set ℕ) : Prop where
  heap : heapAt σ p = some { size := h.size, capacity := h.capacity, array }
  cells : ∃ cells, arrayAt σ array = some (h.capacity, cells) ∧ ∀ i ∈ S, cells i = (g i).ptr
  node : ∀ i ∈ S, h.array i = (g i).node
  tree : ∀ i ∈ S, (g i).In σ

section Sim

variable {alloc : Allocator Block} {σ σ' σ₀ : Memory} {p array : ℕ} {h h' : Huffman.MinHeap}
  {g : ℕ → Tree} {S S' : Set ℕ} {t : Tree} {i j : ℕ} {x : HuffmanNode}

theorem heapAt_eq_some {m : MinHeap} : heapAt σ p = some m ↔ load σ p = some (.minHeap m) := by
  unfold heapAt
  split
  · next m h => simp [h]
  · next h => simpa using fun h' => h m h'

theorem arrayAt_eq_some {capacity : ℕ} {cells : ℕ → ℕ} :
    arrayAt σ p = some (capacity, cells) ↔ load σ p = some (.array capacity cells) := by
  unfold arrayAt
  split
  · next c a h => simp [h]
  · next h => simpa using fun h' => h capacity cells h'

/-- The two blocks of the heap are no nodes, so writing to the heap does not change a tree. -/
theorem HeapRep.notMem (hr : HeapRep σ p array h g S) (ht : t.In σ) :
    p ∉ t.addrs ∧ array ∉ t.addrs := by
  obtain ⟨cells, hcells, -⟩ := hr.cells
  constructor
  · intro hp
    obtain ⟨n, hn⟩ := ht.nodeAt_mem hp
    rw [nodeAt_eq_some, heapAt_eq_some.mp hr.heap] at hn
    exact nomatch hn
  · intro hp
    obtain ⟨n, hn⟩ := ht.nodeAt_mem hp
    rw [nodeAt_eq_some, arrayAt_eq_some.mp hcells] at hn
    exact nomatch hn

/-- The two blocks of a heap are of different kinds, so they are two. -/
theorem HeapRep.ne (hr : HeapRep σ p array h g S) : p ≠ array := by
  rintro rfl
  obtain ⟨cells, hcells, -⟩ := hr.cells
  have hload := heapAt_eq_some.mp hr.heap
  rw [arrayAt_eq_some.mp hcells] at hload
  exact nomatch hload

/-- What is represented of many cells is represented of fewer. -/
theorem HeapRep.mono (hr : HeapRep σ p array h g S) (hS : S' ⊆ S) :
    HeapRep σ p array h g S' := by
  obtain ⟨cells, hcells, hptr⟩ := hr.cells
  exact ⟨hr.heap, ⟨cells, hcells, fun i hi => hptr i (hS hi)⟩, fun i hi => hr.node i (hS hi),
    fun i hi => hr.tree i (hS hi)⟩

/-- A tree of the heap, or beside it, stays when the blocks of the heap are written to. -/
theorem HeapRep.tree_in (hr : HeapRep σ p array h g S) (ht : t.In σ)
    (hsame : SameOff (p ::ₘ {array}) σ σ') : t.In σ' := by
  obtain ⟨hp, harray⟩ := hr.notMem ht
  refine Rep.congr ht fun a ha => hsame a fun h => ?_
  rcases Multiset.mem_cons.mp h with rfl | h
  · exact hp ha
  · rw [Multiset.mem_singleton.mp h] at ha
    exact harray ha

/-- New blocks leave the heap as it is: they were not there before. -/
theorem HeapRep.adds {A : Multiset ℕ} (hr : HeapRep σ p array h g S) (hadd : Adds A σ σ') :
    HeapRep σ' p array h g S := by
  obtain ⟨cells, hcells, hptr⟩ := hr.cells
  have hkeep : ∀ {a b}, load σ a = some b → load σ' a = some b := fun hload =>
    (load_congr (hadd.same _ fun hA => hadd.fresh _ hA (mem_of_load hload))).trans hload
  exact ⟨heapAt_eq_some.mpr (hkeep (heapAt_eq_some.mp hr.heap)),
    ⟨cells, arrayAt_eq_some.mpr (hkeep (arrayAt_eq_some.mp hcells)), hptr⟩, hr.node,
    fun i hi => Rep.adds (hr.tree i hi) hadd⟩

/-- What there was is there. -/
theorem HeapRep.mem {a : ℕ} (hr : HeapRep σ' p array h g S)
    (hsame : SameOff (p ::ₘ {array}) σ σ') (ha : a ∈ σ) : a ∈ σ' := by
  by_cases hmem : a ∈ p ::ₘ {array}
  · rcases Multiset.mem_cons.mp hmem with rfl | hmem
    · exact mem_of_load (heapAt_eq_some.mp hr.heap)
    · obtain ⟨cells, hcells, -⟩ := hr.cells
      rw [Multiset.mem_singleton.mp hmem]
      exact mem_of_load (arrayAt_eq_some.mp hcells)
  · exact (mem_congr (hsame a hmem)).mpr ha

/-! ### Cells -/

/-- Writing the size in one model is writing it in the other, and no other block is touched. -/
theorem setSize_sim (hr : HeapRep σ p array h g S) (size : ℕ) :
    ∃ σ', setSize σ p size = some σ' ∧ HeapRep σ' p array { h with size } g S
      ∧ SameOff (p ::ₘ {array}) σ σ' := by
  obtain ⟨cells, hcells, hptr⟩ := hr.cells
  have hload := heapAt_eq_some.mp hr.heap
  have hp := (load_eq_some.mp hload).1
  have hsame := sameOff_insert (σ := σ) (Multiset.mem_cons_self p {array})
    (.minHeap { size, capacity := h.capacity, array })
  have harray := Finmap.lookup_insert_of_ne (b := Block.minHeap
    { size, capacity := h.capacity, array }) σ hr.ne.symm
  refine ⟨_, ?_, ⟨heapAt_eq_some.mpr (load_insert hp _), ⟨cells, ?_, hptr⟩, hr.node,
    fun i hi => hr.tree_in (hr.tree i hi) hsame⟩, hsame⟩
  · rw [setSize, hr.heap]
    exact save_of_mem hp (mem_of_load hload) _
  · rw [arrayAt_eq_some, load_congr harray]
    exact arrayAt_eq_some.mp hcells

/-- A cell that is in use holds the address of the node the other model holds. -/
theorem getCell_sim (hr : HeapRep σ p array h g S) (hi : i ∈ S) (hx : h.get i = some x) :
    getCell σ p i = some (g i).ptr ∧ x = (g i).node := by
  obtain ⟨cells, hcells, hptr⟩ := hr.cells
  rw [Huffman.MinHeap.get] at hx
  split at hx
  · next hlt =>
    refine ⟨?_, by rw [← Option.some.inj hx, hr.node i hi]⟩
    rw [getCell, hr.heap]
    simp only [Option.bind_eq_bind, Option.bind_some, hcells, if_pos hlt, hptr i hi]
  · exact nomatch hx

/-- Storing a pointer is storing its tree: the cell is written on both sides, and every tree stays.
-/
theorem setCell_sim (hr : HeapRep σ p array h g S) (ht : t.In σ)
    (hset : h.set i t.node = some h') :
    ∃ σ', setCell σ p i t.ptr = some σ' ∧ HeapRep σ' p array h' (upd g i t) (insert i S)
      ∧ SameOff (p ::ₘ {array}) σ σ' ∧ h'.size = h.size := by
  obtain ⟨cells, hcells, hptr⟩ := hr.cells
  rw [Huffman.MinHeap.set] at hset
  split at hset
  · next hlt =>
    obtain rfl := Option.some.inj hset
    have hload := arrayAt_eq_some.mp hcells
    have harray := (load_eq_some.mp hload).1
    have hsame := sameOff_insert (σ := σ) (Multiset.mem_cons_of_mem (b := p)
      (Multiset.mem_singleton_self array)) (.array h.capacity (upd cells i t.ptr))
    have hp := Finmap.lookup_insert_of_ne (b := Block.array h.capacity (upd cells i t.ptr)) σ hr.ne
    -- the cell `i` is written on both sides, and no other
    have hcell : ∀ {k}, k ∈ insert i S → k = i ∨ k ≠ i ∧ k ∈ S := fun {k} hk => by
      by_cases hki : k = i
      · exact Or.inl hki
      · exact Or.inr ⟨hki, hk.resolve_left hki⟩
    refine ⟨_, ?_, ⟨?_, ⟨_, arrayAt_eq_some.mpr (load_insert harray _), fun k hk => ?_⟩,
      fun k hk => ?_, fun k hk => ?_⟩, hsame, rfl⟩
    · rw [setCell, hr.heap]
      simp only [Option.bind_eq_bind, Option.bind_some, hcells, if_pos hlt]
      exact save_of_mem harray (mem_of_load hload) _
    · rw [heapAt_eq_some, load_congr hp]
      exact heapAt_eq_some.mp hr.heap
    · rcases hcell hk with rfl | ⟨hki, hkS⟩
      · rw [upd_same, upd_same]
      · rw [upd_other hki, upd_other hki, hptr k hkS]
    · rcases hcell hk with rfl | ⟨hki, hkS⟩
      · rw [upd_same]
        exact upd_same h.array k t.node
      · rw [upd_other hki]
        exact (upd_other hki).trans (hr.node k hkS)
    · rcases hcell hk with rfl | ⟨hki, hkS⟩
      · rw [upd_same]
        exact hr.tree_in ht hsame
      · rw [upd_other hki]
        exact hr.tree_in (hr.tree k hkS) hsame
  · exact nomatch hset

/-- The frequency in a cell is read through the pointer in one model and off the tree in the
other. -/
theorem freqAt_sim {freq : ℕ} (hr : HeapRep σ p array h g S) (hi : i ∈ S)
    (hfreq : h.freqAt i = some freq) : freqAt σ p i = some freq := by
  obtain ⟨x, hx, hxf⟩ := Option.bind_eq_some_iff.mp hfreq
  obtain ⟨hget, rfl⟩ := getCell_sim hr hi hx
  obtain ⟨n, hn, rfl⟩ := freq_rep (hr.tree i hi) hxf
  rw [freqAt, hget, Option.bind_eq_bind, Option.bind_some, hn]
  rfl

/-! ### Down -/

/-- A swap of two pointers is a swap of two trees. -/
theorem swapNodes_sim (hr : HeapRep σ p array h g S) (hi : i ∈ S) (hj : j ∈ S)
    (hswap : Huffman.swapNodes h i j = some h') :
    ∃ σ', swapNodes σ p i j = some σ' ∧ HeapRep σ' p array h' (swapAt g i j) S
      ∧ SameOff (p ::ₘ {array}) σ σ' ∧ h'.size = h.size := by
  obtain ⟨t, ht, hrest⟩ := Option.bind_eq_some_iff.mp hswap
  obtain ⟨x, hx, hrest⟩ := Option.bind_eq_some_iff.mp hrest
  obtain ⟨h₁, hset₁, hset₂⟩ := Option.bind_eq_some_iff.mp hrest
  obtain ⟨hgeti, rfl⟩ := getCell_sim hr hi ht
  obtain ⟨hgetj, rfl⟩ := getCell_sim hr hj hx
  obtain ⟨σ₁, hrun₁, hr₁, hsame₁, hsize₁⟩ := setCell_sim hr (hr.tree j hj) hset₁
  rw [Set.insert_eq_of_mem hi] at hr₁
  obtain ⟨σ₂, hrun₂, hr₂, hsame₂, hsize₂⟩ :=
    setCell_sim hr₁ (hr.tree_in (hr.tree i hi) hsame₁) hset₂
  rw [Set.insert_eq_of_mem hj] at hr₂
  refine ⟨σ₂, ?_, hr₂, hsame₁.trans hsame₂, hsize₂.trans hsize₁⟩
  rw [swapNodes, hgeti, hgetj]
  simp only [Option.bind_eq_bind, Option.bind_some, hrun₁]
  exact hrun₂

/-- Both models choose the same child, and it is in the heap. -/
theorem smaller_sim {child smallest s : ℕ} (hr : HeapRep σ p array h g (Set.Iio h.size))
    (hs : smallest < h.size ∨ h.size = 0) (hrun : Huffman.smaller h child smallest = some s) :
    smaller σ p child smallest = some s ∧ (s < h.size ∨ h.size = 0 ∧ s = smallest) := by
  rw [Huffman.smaller] at hrun
  rw [smaller, hr.heap, Option.bind_eq_bind, Option.bind_some]
  dsimp only
  -- a child past the last node is not compared
  by_cases hc : child < h.size
  · rw [if_pos hc] at hrun ⊢
    have hs' : smallest < h.size := by omega
    obtain ⟨fc, hfc, hrest⟩ := Option.bind_eq_some_iff.mp hrun
    obtain ⟨fs, hfs, heq⟩ := Option.bind_eq_some_iff.mp hrest
    rw [freqAt_sim hr hc hfc, freqAt_sim hr hs' hfs]
    refine ⟨heq, Or.inl ?_⟩
    rw [← Option.some.inj heq]
    split
    · exact hc
    · exact hs'
  · rw [if_neg hc] at hrun ⊢
    obtain rfl := Option.some.inj hrun
    exact ⟨rfl, hs.imp_right fun h0 => ⟨h0, rfl⟩⟩

/-- **The heap of addresses is repaired as the heap of trees is.** -/
theorem minHeapify_sim {idx : ℕ} (hr : HeapRep σ p array h g (Set.Iio h.size))
    (hidx : idx < h.size ∨ h.size = 0) (hrun : Huffman.minHeapify h idx = some h') :
    ∃ σ' g', minHeapify σ p idx = some σ' ∧ HeapRep σ' p array h' g' (Set.Iio h.size)
      ∧ contents h.size g' = contents h.size g ∧ SameOff (p ::ₘ {array}) σ σ'
      ∧ h'.size = h.size := by
  revert σ g
  -- the recursion is a partial fixpoint: what is proved of one call may be assumed of the next
  refine Huffman.minHeapify.partial_correctness (motive := fun h idx h' =>
    (idx < h.size ∨ h.size = 0) → ∀ {σ g}, HeapRep σ p array h g (Set.Iio h.size) →
      ∃ σ' g', minHeapify σ p idx = some σ' ∧ HeapRep σ' p array h' g' (Set.Iio h.size)
        ∧ contents h.size g' = contents h.size g ∧ SameOff (p ::ₘ {array}) σ σ'
        ∧ h'.size = h.size) ?_ h idx h' hrun hidx
  intro f hf h idx h' hrun hidx σ g hr
  obtain ⟨left, hleft, hrest⟩ := Option.bind_eq_some_iff.mp hrun
  obtain ⟨right, hright, hrest⟩ := Option.bind_eq_some_iff.mp hrest
  obtain ⟨s₁, hs₁, hrest⟩ := Option.bind_eq_some_iff.mp hrest
  obtain ⟨s₂, hs₂, hrest⟩ := Option.bind_eq_some_iff.mp hrest
  -- the two comparisons read the same frequencies through the addresses
  obtain ⟨hsim₁, hlt₁⟩ := smaller_sim hr hidx hs₁
  obtain ⟨hsim₂, hlt₂⟩ := smaller_sim hr (hlt₁.imp_right And.left) hs₂
  rw [minHeapify, hleft, hright]
  simp only [Option.bind_eq_bind, Option.bind_some, hsim₁, hsim₂]
  by_cases hne : s₂ ≠ idx
  -- a child is smaller: both heaps swap the same two cells, and the call below does the rest
  · rw [if_pos hne] at hrest ⊢
    obtain ⟨h₁, hswap, hcall⟩ := Option.bind_eq_some_iff.mp hrest
    have hs₂' : s₂ < h.size := by omega
    have hidx' : idx < h.size := by omega
    obtain ⟨σ₁, hrun₁, hr₁, hsame₁, hsize₁⟩ := swapNodes_sim hr hs₂' hidx' hswap
    rw [← hsize₁] at hr₁ hs₂' hidx'
    obtain ⟨σ₂, g₂, hrun₂, hr₂, hcont₂, hsame₂, hsize₂⟩ :=
      hf h₁ s₂ h' hcall (Or.inl hs₂') hr₁
    rw [contents_swapAt hs₂' hidx', hsize₁] at hcont₂
    rw [hsize₁] at hr₂ hsize₂
    refine ⟨σ₂, g₂, ?_, hr₂, hcont₂, hsame₁.trans hsame₂, hsize₂⟩
    rw [hrun₁, Option.bind_some, hrun₂]
  -- the node is in place, and nothing is written
  · rw [if_neg hne] at hrest ⊢
    obtain rfl := Option.some.inj hrest
    exact ⟨σ, g, rfl, hr, rfl, SameOff.refl _ σ, rfl⟩

/-- **`extractMin`** takes out the address of the tree the other model takes out. The block of the
tree is the caller's from then on, and what is left in the heap are the others. -/
theorem extractMin_sim (hr : HeapRep σ p array h g (Set.Iio h.size)) (hpos : 0 < h.size)
    (hrun : Huffman.extractMin h = some (x, h')) :
    ∃ t σ' g', extractMin σ p = some (t.ptr, σ') ∧ x = t.node ∧ t.In σ'
      ∧ HeapRep σ' p array h' g' (Set.Iio h'.size) ∧ h.size = h'.size + 1
      ∧ contents h.size g = t ::ₘ contents h'.size g' ∧ SameOff (p ::ₘ {array}) σ σ' := by
  rw [Huffman.extractMin, if_neg (by omega)] at hrun
  obtain ⟨temp, htemp, hrest⟩ := Option.bind_eq_some_iff.mp hrun
  obtain ⟨last, hlast, hrest⟩ := Option.bind_eq_some_iff.mp hrest
  obtain ⟨h₁, hset, hrest⟩ := Option.bind_eq_some_iff.mp hrest
  obtain ⟨h₂, hheap, heq⟩ := Option.bind_eq_some_iff.mp hrest
  obtain ⟨rfl, rfl⟩ := Prod.mk.inj (Option.some.inj heq)
  obtain ⟨hget₀, rfl⟩ := getCell_sim hr (i := 0) hpos htemp
  obtain ⟨hgetl, rfl⟩ := getCell_sim hr (i := h.size - 1) (Nat.sub_lt hpos Nat.one_pos) hlast
  -- the last tree goes to the root, and the heap is repaired without its last cell
  obtain ⟨σ₁, hrun₁, hr₁, hsame₁, hsize₁⟩ :=
    setCell_sim hr (hr.tree _ (Nat.sub_lt hpos Nat.one_pos)) hset
  obtain ⟨σ₂, hrun₂, hr₂, hsame₂⟩ := setSize_sim hr₁ (h.size - 1)
  rw [← hsize₁] at hr₂ hrun₂
  have hfewer : Set.Iio (h₁.size - 1) ⊆ insert 0 (Set.Iio h₁.size) := fun k hk =>
    Or.inr (Nat.lt_of_lt_of_le hk (Nat.sub_le _ _))
  obtain ⟨σ₃, g₃, hrun₃, hr₃, hcont₃, hsame₃, hsize₃⟩ :=
    minHeapify_sim (hr₂.mono hfewer) (by dsimp only; omega) hheap
  dsimp only at hr₃ hcont₃ hsize₃
  have hsplit := contents_remove_root (h.size - 1) g
  rw [Nat.sub_add_cancel hpos] at hsplit
  refine ⟨g 0, σ₃, g₃, ?_, rfl, ?_, ?_, by omega, ?_, (hsame₁.trans hsame₂).trans hsame₃⟩
  · rw [extractMin, hr.heap]
    simp only [Option.bind_eq_bind, Option.bind_some, if_neg hpos.ne', hget₀, hgetl, hrun₁]
    rw [← hsize₁]
    simp only [hrun₂, Option.bind_some, hrun₃]
  · exact hr.tree_in (hr.tree 0 hpos) ((hsame₁.trans hsame₂).trans hsame₃)
  · rw [hsize₃]
    exact hr₃
  · rw [hsize₃, hcont₃, hsize₁]
    exact hsplit

/-! ### Up -/

/-- What the insertion loop keeps: `t` is on its way to the free cell. -/
structure Rising (σ₀ : Memory) (p array : ℕ) (t : Tree) (size : ℕ) (M : Multiset Tree)
    (s : ℕ × Huffman.MinHeap) (u : ℕ × Memory) : Prop where
  pos : u.1 = s.1
  lt : s.1 < size
  size_eq : s.2.size = size
  tree : t.In u.2
  same : SameOff (p ::ₘ {array}) σ₀ u.2
  heap : ∃ g, HeapRep u.2 p array s.2 g (Set.Iio size \ {s.1}) ∧ contents size (upd g s.1 t) = M

/-- One step up of the new node, in both models. -/
theorem insert_body_sim {size : ℕ} {M : Multiset Tree} (s : ℕ × Huffman.MinHeap)
    (u : ℕ × Memory) (pass : Pass (ℕ × Huffman.MinHeap) (ℕ × Huffman.MinHeap))
    (hs : Rising σ₀ p array t size M s u) (hrun : Huffman.insert_body t.node s = some pass) :
    ∃ pass', insert_body p t.ptr u = some pass'
      ∧ Pass.Rel (Rising σ₀ p array t size M) (Rising σ₀ p array t size M) pass pass' := by
  obtain ⟨i', h⟩ := s
  obtain ⟨i, σ⟩ := u
  have hall := hs
  obtain ⟨hpos, hlt, hsize, ht, hsame, g, hr, hcont⟩ := hs
  dsimp only at hpos hlt hsize ht hsame hr hcont
  subst hpos
  rw [Huffman.insert_body] at hrun
  rw [insert_body]
  dsimp only at hrun ⊢
  by_cases hi : i > 0
  · rw [if_pos hi] at hrun ⊢
    obtain ⟨fn, hfn, hrest⟩ := Option.bind_eq_some_iff.mp hrun
    obtain ⟨fp, hfp, hrest⟩ := Option.bind_eq_some_iff.mp hrest
    obtain ⟨n, hn, rfl⟩ := freq_rep ht hfn
    have hup : (i - 1) / 2 ∈ Set.Iio size \ {i} := by
      constructor
      · change (i - 1) / 2 < size
        omega
      · change (i - 1) / 2 ≠ i
        omega
    rw [hn, freqAt_sim hr hup hfp]
    simp only [Option.bind_eq_bind, Option.bind_some]
    by_cases hless : n.freq < fp
    · rw [if_pos hless] at hrest ⊢
      obtain ⟨x, hx, hrest⟩ := Option.bind_eq_some_iff.mp hrest
      obtain ⟨h₁, hset, heq⟩ := Option.bind_eq_some_iff.mp hrest
      obtain rfl := Option.some.inj heq
      obtain ⟨hget, rfl⟩ := getCell_sim hr hup hx
      -- the parent moves down, and its cell is the free one
      obtain ⟨σ₁, hrun₁, hr₁, hsame₁, hsize₁⟩ := setCell_sim hr (hr.tree _ hup) hset
      refine ⟨.next ((i - 1) / 2, σ₁), ?_, .next ⟨rfl, hup.1, hsize₁.trans hsize,
        hr.tree_in ht hsame₁, hsame.trans hsame₁, _, hr₁.mono fun k hk => ?_, ?_⟩⟩
      · rw [hget, Option.bind_some, hrun₁]
        rfl
      · by_cases hki : k = i
        · exact Or.inl hki
        · exact Or.inr ⟨hk.1, hki⟩
      · rw [← swapAt_upd (by omega)]
        exact (contents_swapAt hlt hup.1).trans hcont
    · rw [if_neg hless] at hrest ⊢
      obtain rfl := Option.some.inj hrest
      exact ⟨_, rfl, .done hall⟩
  · rw [if_neg hi] at hrun ⊢
    obtain rfl := Option.some.inj hrun
    exact ⟨_, rfl, .done hall⟩

/-- **`insertMinHeap`** stores the address of the tree the other model stores. -/
theorem insertMinHeap_sim (hr : HeapRep σ p array h g (Set.Iio h.size)) (ht : t.In σ)
    (hrun : Huffman.insertMinHeap h t.node = some h') :
    ∃ σ' g', insertMinHeap σ p t.ptr = some σ' ∧ HeapRep σ' p array h' g' (Set.Iio h'.size)
      ∧ h'.size = h.size + 1 ∧ contents h'.size g' = t ::ₘ contents h.size g
      ∧ SameOff (p ::ₘ {array}) σ σ' := by
  obtain ⟨size, hsize, hrest⟩ := Option.bind_eq_some_iff.mp hrun
  obtain ⟨⟨i', h₁⟩, hloop, hset⟩ := Option.bind_eq_some_iff.mp hrest
  obtain rfl := (nat32_eq_some_iff.mp hsize).1
  obtain ⟨σ₁, hrun₁, hr₁, hsame₁⟩ := setSize_sim hr (h.size + 1)
  -- the loop begins with a hole at the new last place, where the node would go
  have hstart : Rising σ p array t (h.size + 1) (t ::ₘ contents h.size g)
      (h.size + 1 - 1, { h with size := h.size + 1 }) (h.size + 1 - 1, σ₁) := by
    refine ⟨rfl, Nat.lt_succ_self _, rfl, hr.tree_in ht hsame₁, hsame₁, g,
      hr₁.mono fun k hk => ?_, ?_⟩
    · have hlt : k < h.size + 1 := hk.1
      have hne : k ≠ h.size + 1 - 1 := hk.2
      change k < h.size
      omega
    · rw [Nat.add_sub_cancel, contents_succ, upd_same]
      congr 1
      exact contents_congr fun k hk => upd_other (by omega)
  -- it ends with the hole where the node belongs, in both models at the same index
  obtain ⟨⟨i, σ₂⟩, hrun₂, hfin⟩ := loop_sim _ _ insert_body_sim hstart hloop
  obtain ⟨hpos, hlt, hsize₂, ht₂, hsame₂, g₂, hr₂, hcont₂⟩ := hfin
  dsimp only at hpos hlt hsize₂ ht₂ hsame₂ hr₂ hcont₂ hset
  subst hpos
  -- the last line of the source fills the hole
  obtain ⟨σ₃, hrun₃, hr₃, hsame₃, hsize₃⟩ := setCell_sim hr₂ ht₂ hset
  have hsize' : h'.size = h.size + 1 := hsize₃.trans hsize₂
  refine ⟨σ₃, _, ?_, hr₃.mono fun k hk => ?_, hsize', by rw [hsize', hcont₂],
    hsame₂.trans hsame₃⟩
  · rw [insertMinHeap, hr.heap]
    simp only [Option.bind_eq_bind, Option.bind_some, hsize, hrun₁, hrun₂]
    exact hrun₃
  · by_cases hki : k = i
    · exact Or.inl hki
    · refine Or.inr ⟨?_, hki⟩
      rwa [← hsize']

end Sim

/-! ## The heap and its trees -/

section Holds

variable {alloc : Allocator Block} {σ σ' σ₀ : Memory} {p array : ℕ} {h h' : Huffman.MinHeap}
  {t : Tree} {x : HuffmanNode} {T : Multiset Tree} {A B : Multiset ℕ} {freqs : UInt8 → ℕ}

/-- Of what has been allocated, the heap is at `p`, the trees `T` are in it, and the blocks `B`
are beside it. -/
structure Holds (σ₀ σ : Memory) (p array : ℕ) (h : Huffman.MinHeap) (T : Multiset Tree)
    (B : Multiset ℕ) : Prop where
  heap : ∃ g, HeapRep σ p array h g (Set.Iio h.size) ∧ contents h.size g = T
  adds : Adds (p ::ₘ array ::ₘ ((T.map Tree.addrs).sum + B)) σ₀ σ

theorem Holds.heapAt_eq (hh : Holds σ₀ σ p array h T B) :
    heapAt σ p = some { size := h.size, capacity := h.capacity, array } := by
  obtain ⟨g, hr, -⟩ := hh.heap
  exact hr.heap

/-- A node that is made while the heap is in use belongs to the heap's owner. -/
theorem Holds.addBlocks (hh : Holds σ₀ σ p array h T B) (hadd : Adds A σ σ') :
    Holds σ₀ σ' p array h T (B + A) := by
  obtain ⟨⟨g, hr, hcont⟩, hadds⟩ := hh
  refine ⟨⟨g, hr.adds hadd, hcont⟩, ?_⟩
  rw [← add_assoc, ← Multiset.cons_add, ← Multiset.cons_add]
  exact hadds.trans hadd

/-- A tree outside the heap survives what the heap does to its two blocks. -/
theorem Holds.keeps {q : ℕ} (hh : Holds σ₀ σ p array h T B) (hx : Rep σ q x A)
    (hsame : SameOff (p ::ₘ {array}) σ σ') : Rep σ' q x A := by
  obtain ⟨g, hr, -⟩ := hh.heap
  exact hr.tree_in (t := ⟨q, x, A⟩) hx hsame

/-- A tree beside the heap goes into it; its blocks are among those of the heap from then on. -/
theorem Holds.insert (hh : Holds σ₀ σ p array h T (t.addrs + B)) (ht : t.In σ)
    (hrun : Huffman.insertMinHeap h t.node = some h') :
    ∃ σ', insertMinHeap σ p t.ptr = some σ' ∧ Holds σ₀ σ' p array h' (t ::ₘ T) B := by
  obtain ⟨⟨g, hr, rfl⟩, hadds⟩ := hh
  obtain ⟨σ', g', hrun', hr', -, hcont', hsame⟩ := insertMinHeap_sim hr ht hrun
  refine ⟨σ', hrun', ⟨g', hr', hcont'⟩, ?_⟩
  rw [Multiset.map_cons, Multiset.sum_cons, add_comm t.addrs, add_assoc]
  exact hadds.write (hsame.mono (by simp)) fun a ha => hr'.mem hsame (hadds.mem a ha)

/-- A tree is taken out, and is beside the heap then. -/
theorem Holds.extract (hh : Holds σ₀ σ p array h T B) (hpos : 0 < h.size)
    (hrun : Huffman.extractMin h = some (x, h')) :
    ∃ t T' σ', extractMin σ p = some (t.ptr, σ') ∧ x = t.node ∧ t.In σ' ∧ T = t ::ₘ T'
      ∧ Holds σ₀ σ' p array h' T' (t.addrs + B) ∧ h.size = h'.size + 1
      ∧ ∀ u : Tree, u.In σ → u.In σ' := by
  obtain ⟨⟨g, hr, rfl⟩, hadds⟩ := hh
  obtain ⟨t, σ', g', hrun', hx, ht, hr', hsize, hcont, hsame⟩ := extractMin_sim hr hpos hrun
  refine ⟨t, _, σ', hrun', hx, ht, hcont, ⟨⟨g', hr', rfl⟩, ?_⟩, hsize,
    fun u hu => hr.tree_in hu hsame⟩
  rw [hcont, Multiset.map_cons, Multiset.sum_cons, add_comm t.addrs, add_assoc] at hadds
  exact hadds.write (hsame.mono (by simp)) fun a ha => hr'.mem hsame (hadds.mem a ha)

/-- The heap is freed, and what is beside it is left. -/
theorem freeMinHeap_spec (hh : Holds σ₀ σ p array h 0 B) :
    ∃ σ', freeMinHeap σ p = some σ' ∧ Adds B σ₀ σ' ∧ SameOff (p ::ₘ {array}) σ σ' := by
  obtain ⟨⟨g, hr, -⟩, hadds⟩ := hh
  obtain ⟨cells, hcells, -⟩ := hr.cells
  have hload := heapAt_eq_some.mp hr.heap
  have hp := (load_eq_some.mp hload).1
  have harray := (load_eq_some.mp (arrayAt_eq_some.mp hcells)).1
  rw [Multiset.map_zero, Multiset.sum_zero, zero_add, Multiset.cons_swap] at hadds
  obtain ⟨hfree₁, hadd₁⟩ := hadds.free harray
  obtain ⟨hfree₂, hadd₂⟩ := hadd₁.free hp
  refine ⟨_, ?_, hadd₂, fun a ha => ?_⟩
  · rw [freeMinHeap, if_neg hp, hr.heap]
    simp only [Option.bind_eq_bind, Option.bind_some, if_pos harray, hfree₁]
    exact hfree₂
  · rw [Multiset.mem_cons, Multiset.mem_singleton, not_or] at ha
    rw [Finmap.lookup_erase_ne ha.1, Finmap.lookup_erase_ne ha.2]

/-- **A new heap** has two new blocks and holds nothing. -/
theorem createMinHeap_spec (alloc : Allocator Block) (σ : Memory) (capacity : ℕ)
    (cells : ℕ → ℕ) (nodes : ℕ → HuffmanNode) :
    ∃ p array σ', createMinHeap alloc σ capacity cells = some (p, σ')
      ∧ Holds σ σ' p array (Huffman.createMinHeap capacity nodes) 0 0 := by
  have hadd := adds_malloc alloc σ (.minHeap { size := 0, capacity, array := NULL })
  have hne := alloc.ne_null σ
  have hp : (malloc alloc σ (.minHeap { size := 0, capacity, array := NULL })).1
    = alloc.pick σ := rfl
  rw [createMinHeap]
  generalize malloc alloc σ (.minHeap { size := 0, capacity, array := NULL }) = top at *
  obtain ⟨p, σ₁⟩ := top
  dsimp only at hp hadd ⊢
  rw [← hp] at hadd hne
  -- the array is the second block, so it is not the struct
  have hadd' := adds_malloc alloc σ₁ (.array capacity cells)
  have hload := load_malloc alloc σ₁ (.array capacity cells)
  have hfresh := alloc.fresh σ₁
  have harray : (malloc alloc σ₁ (.array capacity cells)).1 = alloc.pick σ₁ := rfl
  generalize malloc alloc σ₁ (.array capacity cells) = arr at *
  obtain ⟨array, σ₂⟩ := arr
  dsimp only at harray hadd' hload ⊢
  rw [← harray] at hadd' hfresh
  have hpmem := hadd.mem p (Multiset.mem_singleton_self p)
  have hadds := hadd.trans hadd'
  have hpa : array ≠ p := by
    rintro rfl
    exact hfresh hpmem
  refine ⟨p, array, _, by rw [save_of_mem hne (hadd'.mono hpmem)]; rfl, ⟨fun _ => ⟨0, .NULL, 0⟩,
    ⟨heapAt_eq_some.mpr (load_insert hne _), ⟨cells, ?_, ?_⟩, ?_, ?_⟩, rfl⟩, ?_⟩
  -- writing the address into the struct leaves the array as `malloc` gave it
  · rw [arrayAt_eq_some, load_congr (Finmap.lookup_insert_of_ne σ₂ hpa)]
    exact hload
  · exact fun i hi => absurd hi (Nat.not_lt_zero i)
  · exact fun i hi => absurd hi (Nat.not_lt_zero i)
  · exact fun i hi => absurd hi (Nat.not_lt_zero i)
  · rw [Multiset.map_zero, Multiset.sum_zero, add_zero]
    exact hadds.insert (by simp) _

/-! ## `buildHuffmanTree` -/

/-- A new node over two trees: one block more, and the two become its children. -/
theorem link_nodes {l r : ℕ} {left right : HuffmanNode} (alloc : Allocator Block)
    (hl : Rep σ l left A) (hr : Rep σ r right B) (data : UInt8) (freq : ℕ) :
    ∃ σ₁ σ₂, setLeft (createNode alloc σ data freq).2 (createNode alloc σ data freq).1 l = some σ₁
      ∧ setRight σ₁ (createNode alloc σ data freq).1 r = some σ₂
      ∧ Rep σ₂ (createNode alloc σ data freq).1 (.node data freq left right)
        ((createNode alloc σ data freq).1 ::ₘ (A + B))
      ∧ Adds {(createNode alloc σ data freq).1} σ σ₂ := by
  have hnode := nodeAt_createNode alloc σ data freq
  have hadd := adds_createNode alloc σ data freq
  generalize createNode alloc σ data freq = top at *
  obtain ⟨σ₁, hset₁, hnode₁, hsame₁, hmem₁⟩ := setLeft_spec hnode l
  obtain ⟨σ₂, hset₂, hnode₂, hsame₂, hmem₂⟩ := setRight_spec hnode₁ r
  have hadd₂ := adds_of_sameOff (adds_of_sameOff hadd (by simp) hsame₁ hmem₁) (by simp) hsame₂ hmem₂
  exact ⟨σ₁, σ₂, hset₁, hset₂, .node hnode₂ (hl.adds hadd₂) (hr.adds hadd₂), hadd₂⟩

/-- **A pass of the greedy loop allocates one node**, and the trees share no block. -/
theorem merge_body_sim (alloc : Allocator Block) (h : Huffman.MinHeap) (σ : Memory)
    (pass : Pass Huffman.MinHeap Huffman.MinHeap) (hh : ∃ T, Holds σ₀ σ p array h T 0)
    (hrun : Huffman.merge_body h = some pass) :
    ∃ pass', merge_body alloc p σ = some pass'
      ∧ Pass.Rel (fun h σ => ∃ T, Holds σ₀ σ p array h T 0)
        (fun h σ => h.size ≤ 1 ∧ ∃ T, Holds σ₀ σ p array h T 0) pass pass' := by
  obtain ⟨T, hh⟩ := hh
  rw [Huffman.merge_body] at hrun
  rw [merge_body, hh.heapAt_eq, Option.bind_eq_bind, Option.bind_some]
  dsimp only
  by_cases hsize : h.size > 1
  · rw [if_pos hsize] at hrun ⊢
    obtain ⟨⟨left, h₁⟩, hleft, hrest⟩ := Option.bind_eq_some_iff.mp hrun
    obtain ⟨⟨right, h₂⟩, hright, hrest⟩ := Option.bind_eq_some_iff.mp hrest
    obtain ⟨fl, hfl, hrest⟩ := Option.bind_eq_some_iff.mp hrest
    obtain ⟨fr, hfr, hrest⟩ := Option.bind_eq_some_iff.mp hrest
    obtain ⟨h₃, hinsert, heq⟩ := Option.bind_eq_some_iff.mp hrest
    obtain rfl := Option.some.inj heq
    -- two trees come out, and the blocks of the first are kept while the second is taken
    obtain ⟨l, T₁, σ₁, hrun₁, rfl, hl, -, hh₁, hsize₁, -⟩ := hh.extract (by omega) hleft
    obtain ⟨r, T₂, σ₂, hrun₂, rfl, hr, -, hh₂, -, hkeep⟩ := hh₁.extract (by omega) hright
    have hl₂ := hkeep l hl
    obtain ⟨nl, hnl, rfl⟩ := freq_rep hl₂ hfl
    obtain ⟨nr, hnr, rfl⟩ := freq_rep hr hfr
    -- the new node is one more block, with the two trees below it
    obtain ⟨σ₃, σ₄, hset₃, hset₄, htop, hadd⟩ :=
      link_nodes alloc hl₂ hr DOLLAR ((nl.freq + nr.freq) % 2 ^ 64)
    have hh₄ := hh₂.addBlocks hadd
    generalize hcreate : createNode alloc σ₂ DOLLAR ((nl.freq + nr.freq) % 2 ^ 64) = top at *
    -- so the blocks out of the heap are those of one tree again
    have hblocks : r.addrs + (l.addrs + 0) + {top.1} = top.1 ::ₘ (l.addrs + r.addrs) + 0 := by
      rw [add_zero, add_zero, add_comm r.addrs, ← Multiset.singleton_add, add_comm]
    rw [hblocks] at hh₄
    obtain ⟨σ₅, hrun₅, hh₅⟩ := Holds.insert (t := ⟨top.1, _, _⟩) hh₄ htop hinsert
    refine ⟨.next σ₅, ?_, .next ⟨_, hh₅⟩⟩
    simp only [Option.bind_eq_bind, Option.bind_some, hrun₁, hrun₂, hnl, hnr, hcreate, hset₃,
      hset₄]
    rw [hrun₅, Option.bind_some]
  -- one tree or none is left: the loop is over
  · rw [if_neg hsize] at hrun ⊢
    obtain rfl := Option.some.inj hrun
    exact ⟨_, rfl, .done ⟨by omega, T, hh⟩⟩

/-- The leaves of all byte values are made and stored in one pass of the loop each. -/
theorem insert_leaves_sim (alloc : Allocator Block) (hh : ∃ T, Holds σ₀ σ p array h T 0)
    (hrun : Huffman.insert_leaves freqs h = some h') :
    ∃ σ', insert_leaves alloc σ freqs p = some σ' ∧ ∃ T, Holds σ₀ σ' p array h' T 0 := by
  refine forLoop_sim (fun h σ => ∃ T, Holds σ₀ σ p array h T 0) ?_ hh hrun
  rintro i h h' σ ⟨T, hh⟩ hrun
  dsimp only at hrun ⊢
  by_cases hpos : freqs (UInt8.ofNat i) > 0
  · rw [if_pos hpos] at hrun ⊢
    have hrep := rep_createNode alloc σ (UInt8.ofNat i) (freqs (UInt8.ofNat i))
    have hh' := hh.addBlocks (adds_createNode alloc σ (UInt8.ofNat i) (freqs (UInt8.ofNat i)))
    generalize createNode alloc σ (UInt8.ofNat i) (freqs (UInt8.ofNat i)) = top at *
    rw [add_comm] at hh'
    obtain ⟨σ', hrun', hh''⟩ := Holds.insert (t := ⟨top.1, _, _⟩) hh' hrep hrun
    exact ⟨σ', hrun', _, hh''⟩
  · rw [if_neg hpos] at hrun ⊢
    obtain rfl := Option.some.inj hrun
    exact ⟨σ, rfl, T, hh⟩

/-- The last tree is taken out of the heap, if there is one. -/
theorem extract_last (hle : h.size ≤ 1) (hh : Holds σ₀ σ p array h T 0)
    (hrun : Huffman.extractMin h = some (x, h')) :
    ∃ q σ' A, extractMin σ p = some (q, σ') ∧ Rep σ' q x A ∧ Holds σ₀ σ' p array h' 0 A := by
  rcases Nat.eq_zero_or_pos h.size with h0 | hpos
  · rw [Huffman.extractMin, if_pos h0] at hrun
    obtain ⟨rfl, rfl⟩ := Prod.mk.inj (Option.some.inj hrun)
    refine ⟨NULL, σ, 0, ?_, .null, ?_⟩
    · rw [extractMin, hh.heapAt_eq, Option.bind_eq_bind, Option.bind_some, if_pos h0]
    · obtain ⟨g, -, hT⟩ := hh.heap
      rw [h0] at hT
      rwa [show T = 0 from hT.symm] at hh
  · obtain ⟨t, T', σ', hrun', rfl, ht, -, hh', hsize, -⟩ := hh.extract hpos hrun
    obtain ⟨g, -, hT⟩ := hh'.heap
    rw [show h'.size = 0 by omega] at hT
    rw [add_zero, show T' = 0 from hT.symm] at hh'
    exact ⟨t.ptr, σ', t.addrs, hrun', ht, hh'⟩

/-- A tree that has been built where there was `σ`. -/
def Built (σ : Memory) (x : HuffmanNode) (r : ℕ × Memory) : Prop :=
  ∃ A, Rep r.2 r.1 x A ∧ Adds A σ r.2

/-- The search for the one byte value ends at the same index in both models. -/
theorem single_body_sim (i j : ℕ) (pass : Pass ℕ (Option HuffmanNode)) (hij : j = i)
    (hrun : Huffman.single_body freqs i = some pass) :
    ∃ pass', single_body alloc σ freqs j = some pass'
      ∧ Pass.Rel (fun i j => j = i) (Option.Rel (Built σ)) pass pass' := by
  subst hij
  rw [Huffman.single_body] at hrun
  rw [single_body]
  by_cases hlt : j < NUM_CHARS
  · rw [if_pos hlt] at hrun ⊢
    by_cases hpos : freqs (UInt8.ofNat j) > 0
    -- the byte is found: the parent first, then the leaf and the empty leaf, as in the source
    · rw [if_pos hpos] at hrun ⊢
      obtain rfl := Option.some.inj hrun
      have hnode := nodeAt_createNode alloc σ DOLLAR (freqs (UInt8.ofNat j))
      have hadd := adds_createNode alloc σ DOLLAR (freqs (UInt8.ofNat j))
      generalize createNode alloc σ DOLLAR (freqs (UInt8.ofNat j)) = root at *
      have hl := rep_createNode alloc root.2 (UInt8.ofNat j) (freqs (UInt8.ofNat j))
      have haddl := adds_createNode alloc root.2 (UInt8.ofNat j) (freqs (UInt8.ofNat j))
      generalize hleft : createNode alloc root.2 (UInt8.ofNat j) (freqs (UInt8.ofNat j)) = left
        at *
      obtain ⟨σ₃, hset₃, hnext⟩ := inner_node hnode hadd hl haddl
      obtain ⟨σ₅, hset₅, hrep, hadd₅⟩ := hnext _ _ _ _ (rep_createNode alloc σ₃ 0 0)
        (adds_createNode alloc σ₃ 0 0)
      refine ⟨.done (some (root.1, σ₅)), ?_, .done (.some ⟨_, hrep, hadd₅⟩)⟩
      simp only [Option.bind_eq_bind, hleft, hset₃, Option.bind_some, hset₅]
    · rw [if_neg hpos] at hrun ⊢
      obtain rfl := Option.some.inj hrun
      exact ⟨_, rfl, .next rfl⟩
  · rw [if_neg hlt] at hrun ⊢
    obtain rfl := Option.some.inj hrun
    exact ⟨_, rfl, .done .none⟩

theorem single_tree_sim {distinct : ℕ} {r : Option HuffmanNode} (alloc : Allocator Block)
    (σ : Memory) (hrun : Huffman.single_tree freqs distinct = some r) :
    ∃ r', single_tree alloc σ freqs distinct = some r' ∧ Option.Rel (Built σ) r r' := by
  rw [Huffman.single_tree] at hrun
  rw [single_tree]
  by_cases h1 : distinct = 1
  · rw [if_pos h1] at hrun ⊢
    exact loop_sim (fun i j => j = i) (Option.Rel (Built σ))
      (fun i j pass hij hpass => single_body_sim i j pass hij hpass) rfl hrun
  · rw [if_neg h1] at hrun ⊢
    obtain rfl := Option.some.inj hrun
    exact ⟨_, rfl, .none⟩

/-- **The tree is built in new blocks**, and the heap it was built with is freed. -/
theorem buildHuffmanTree_rep {nodes : ℕ → HuffmanNode} {distinct : ℕ} (alloc : Allocator Block)
    (σ : Memory) (cells : ℕ → ℕ)
    (hrun : Huffman.buildHuffmanTree freqs nodes = some (x, distinct)) :
    ∃ r : ℕ × Memory, buildHuffmanTree alloc σ freqs cells = some ((r.1, distinct), r.2)
      ∧ Built σ x r := by
  rw [Huffman.buildHuffmanTree, Option.bind_eq_bind] at hrun
  obtain ⟨d, hd, hrest⟩ := Option.bind_eq_some_iff.mp hrun
  rw [buildHuffmanTree, hd, Option.bind_eq_bind, Option.bind_some]
  -- an empty text has no tree
  by_cases h0 : d = 0
  · rw [if_pos h0] at hrest ⊢
    obtain ⟨rfl, rfl⟩ := Prod.mk.inj (Option.some.inj hrest)
    exact ⟨(NULL, σ), rfl, 0, .null, .zero σ⟩
  · rw [if_neg h0] at hrest ⊢
    obtain ⟨single, hsingle, hrest⟩ := Option.bind_eq_some_iff.mp hrest
    obtain ⟨single', hsingle', hrel⟩ := single_tree_sim alloc σ hsingle
    rw [hsingle', Option.bind_eq_bind, Option.bind_some]
    -- one byte value has its tree made without a heap
    cases hrel with
    | @some y r hbuilt =>
        obtain ⟨rfl, rfl⟩ := Prod.mk.inj (Option.some.inj hrest)
        exact ⟨r, rfl, hbuilt⟩
    | none =>
        obtain ⟨h₁, hinsert, hrest⟩ := Option.bind_eq_some_iff.mp hrest
        obtain ⟨h₂, hmerge, hrest⟩ := Option.bind_eq_some_iff.mp hrest
        obtain ⟨⟨root, h₃⟩, hroot, heq⟩ := Option.bind_eq_some_iff.mp hrest
        obtain ⟨rfl, rfl⟩ := Prod.mk.inj (Option.some.inj heq)
        -- otherwise the five parts of the function one after the other: create, insert, merge,
        -- take the last tree, free
        obtain ⟨p, array, σ₁, hcreate, hh⟩ := createMinHeap_spec alloc σ d cells nodes
        obtain ⟨σ₂, hinsert', hh₂⟩ := insert_leaves_sim alloc ⟨0, hh⟩ hinsert
        obtain ⟨σ₃, hmerge', hle, T, hh₃⟩ := loop_sim _ _ (merge_body_sim alloc) hh₂ hmerge
        obtain ⟨q, σ₄, A, hroot', hrep, hh₄⟩ := extract_last hle hh₃ hroot
        obtain ⟨σ₅, hfree, hadd, hsame⟩ := freeMinHeap_spec hh₄
        refine ⟨(q, σ₅), ?_, A, hh₄.keeps hrep hsame, hadd⟩
        simp only [Option.bind_eq_bind, hcreate, hinsert', Option.bind_some, hmerge', hroot',
          hfree]

end Holds

end CourseLabs.HuffmanMemory
