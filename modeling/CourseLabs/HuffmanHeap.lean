/-
`CSMCS26A017_Lab2_2.c`, the tree nodes and the min-heap of them.

A pointer to a node is a value of `HuffmanNode`, `NULL` included: no node of the program
is shared and none is written to once its children are set. `malloc` is taken to succeed.
The heap array has `capacity` cells; an access outside them, or to a field of `NULL`, is
undefined. So is a child position that no `int` can hold, and `minHeapify` computes both
positions before it compares either with the size: a capacity of `2 ^ 30` is the most it
copes with. `HeapOk h M` is the invariant of the heap: it holds the multiset `M`, in heap
order. The order is the business of `BinaryHeap`.
-/
import CourseLabs.BinaryHeap
import CourseLabs.CInt
import CourseLabs.CLoop

set_option autoImplicit false

namespace CourseLabs.Huffman

open CourseLabs.CInt CourseLabs.CLoop CourseLabs.CMem CourseLabs.BinaryHeap

/-! ## The program -/

/-- A pointer to a node of the tree. The nodes have no addresses here; nothing in the building of
the tree depends on them. -/
inductive HuffmanNode where
  | NULL
  | node (data : UInt8) (freq : ℕ) (left right : HuffmanNode)
deriving DecidableEq, Repr

/-- `node->freq`, which is undefined for `NULL`, as are the other fields. -/
def HuffmanNode.freq : HuffmanNode → Option ℕ
  | .NULL => none
  | .node _ freq _ _ => some freq

/-- `node->data` -/
def HuffmanNode.data : HuffmanNode → Option UInt8
  | .NULL => none
  | .node data _ _ _ => some data

/-- `node->left` -/
def HuffmanNode.left : HuffmanNode → Option HuffmanNode
  | .NULL => none
  | .node _ _ left _ => some left

/-- `node->right` -/
def HuffmanNode.right : HuffmanNode → Option HuffmanNode
  | .NULL => none
  | .node _ _ _ right => some right

/-- `createNode`: a node with a byte and a frequency and without children. -/
def createNode (data : UInt8) (freq : ℕ) : HuffmanNode :=
  .node data freq .NULL .NULL

/-- The struct of the heap: the array of pointers, how many of them are in use, and how many there
is room for. -/
structure MinHeap where
  size : ℕ
  capacity : ℕ
  array : ℕ → HuffmanNode

/-- `malloc` leaves the cells as they are, so they are an argument, and every result holds for
whatever they contain. -/
def createMinHeap (capacity : ℕ) (array : ℕ → HuffmanNode) : MinHeap :=
  { size := 0, capacity, array }

/-- `minHeap->array[i]`, inside the memory that was allocated; beyond the size but below the
capacity a cell may still be read. -/
def MinHeap.get (h : MinHeap) (i : ℕ) : Option HuffmanNode :=
  if i < h.capacity then some (h.array i) else none

/-- `minHeap->array[i] = x`, inside the memory that was allocated. The size is another field and
does not change with it. -/
def MinHeap.set (h : MinHeap) (i : ℕ) (x : HuffmanNode) : Option MinHeap :=
  if i < h.capacity then some { h with array := upd h.array i x } else none

/-- `minHeap->array[i]->freq` -/
def MinHeap.freqAt (h : MinHeap) (i : ℕ) : Option ℕ := do
  (← h.get i).freq

/-- `swapNodes`, with both places checked against the array. It gets two pointers into it in the
source. -/
def swapNodes (h : MinHeap) (i j : ℕ) : Option MinHeap := do
  let t ← h.get i
  let h ← h.set i (← h.get j)
  h.set j t

/-- The comparison of `minHeapify`: `child`, if it is in the heap and below `smallest`. -/
def smaller (h : MinHeap) (child smallest : ℕ) : Option ℕ :=
  if child < h.size then do
    let fc ← h.freqAt child
    let fs ← h.freqAt smallest
    some (if fc < fs then child else smallest)
  else
    some smallest

/-- `minHeapify`: the node at a place goes down, to the smaller of its two children, until it is no
larger than either. -/
def minHeapify (h : MinHeap) (idx : ℕ) : Option MinHeap :=
  letI minHeapify : MinHeap → ℕ → Option MinHeap := by exact minHeapify
  do
    let left ← nat32 (2 * idx + 1)
    let right ← nat32 (2 * idx + 2)
    let smallest ← smaller h left idx
    let smallest ← smaller h right smallest
    if smallest ≠ idx then
      minHeapify (← swapNodes h smallest idx) smallest
    else
      some h
partial_fixpoint

/-- `extractMin`: the root is returned, the last node takes its place and goes down. An empty heap
gives the null pointer. -/
def extractMin (h : MinHeap) : Option (HuffmanNode × MinHeap) :=
  if h.size = 0 then
    some (.NULL, h)
  else do
    let temp ← h.get 0
    let h ← h.set 0 (← h.get (h.size - 1))
    let h ← minHeapify { h with size := h.size - 1 } 0
    some (temp, h)

/-- The loop of `insertMinHeap`; the state is `i` and the heap. -/
def insert_body (node : HuffmanNode) (s : ℕ × MinHeap) :
    Option (Pass (ℕ × MinHeap) (ℕ × MinHeap)) :=
  if s.1 > 0 then do
    let fn ← node.freq
    let fp ← s.2.freqAt ((s.1 - 1) / 2)
    if fn < fp then do
      let h ← s.2.set s.1 (← s.2.get ((s.1 - 1) / 2))
      some (.next ((s.1 - 1) / 2, h))
    else
      some (.done s)
  else
    some (.done s)

/-- `insertMinHeap`: the node climbs from the new place at the end, while it is smaller than the
parent there. Nothing checks the capacity: a node too many is written outside the array. -/
def insertMinHeap (h : MinHeap) (node : HuffmanNode) : Option MinHeap := do
  let size ← nat32 (h.size + 1)
  let (i, h) ← loop (insert_body node) (size - 1, { h with size })
  h.set i node

/-! ## The invariant -/

/-- The key the heap is ordered by: the frequency. The value for `NULL` is never used, as no `NULL`
is inserted. -/
def HuffmanNode.key (x : HuffmanNode) : ℕ :=
  x.freq.getD 0

/-- A node that is not null has its frequency, and the heap orders by it. -/
theorem HuffmanNode.freq_eq {x : HuffmanNode} (h : x ≠ .NULL) : x.freq = some x.key := by
  cases x with
  | NULL => exact absurd rfl h
  | node data freq left right => rfl

/-- The heap is in order and holds `M`. The capacity is small enough for the child positions to be
`int`s, and none of the cells is a `NULL`. -/
structure HeapOk (h : MinHeap) (M : Multiset HuffmanNode) : Prop where
  capacity_le : h.capacity ≤ 2 ^ 30
  size_le : h.size ≤ h.capacity
  contents_eq : contents h.size h.array = M
  ne_null : ∀ x ∈ M, x ≠ .NULL
  ordered : Ordered HuffmanNode.key h.size h.array

section Heap

variable {h : MinHeap} {M : Multiset HuffmanNode}

/-- The heap holds as many nodes as its size says. -/
theorem HeapOk.card_eq (hh : HeapOk h M) : M.card = h.size := by
  rw [← hh.contents_eq, card_contents]

/-- A new heap holds nothing. The capacity is bounded, as the places of children are `int`s. -/
theorem createMinHeap_ok {capacity : ℕ} (hcap : capacity ≤ 2 ^ 30) (array : ℕ → HuffmanNode) :
    HeapOk (createMinHeap capacity array) 0 :=
  ⟨hcap, Nat.zero_le _, rfl, by simp, fun j _ hj => absurd hj (Nat.not_lt_zero j)⟩

/-- Reading a place inside the array. -/
theorem get_of_lt {i : ℕ} (hi : i < h.capacity) : h.get i = some (h.array i) :=
  if_pos hi

/-- Writing a place inside the array. -/
theorem set_of_lt {i : ℕ} (hi : i < h.capacity) (x : HuffmanNode) :
    h.set i x = some { h with array := upd h.array i x } :=
  if_pos hi

/-- Inside the array, `swapNodes` is the swap of two places. -/
theorem swapNodes_of_lt {i j : ℕ} (hi : i < h.capacity) (hj : j < h.capacity) :
    swapNodes h i j = some { h with array := swapAt h.array i j } := by
  rw [swapNodes, get_of_lt hi, get_of_lt hj]
  simp only [Option.bind_eq_bind, Option.bind_some]
  rw [set_of_lt hi, Option.bind_some]
  exact if_pos hj

/-- A cell of the heap is no `NULL`, so that its frequency can be read: the one place where the
invariant about `NULL` is needed. -/
theorem freqAt_of_lt {n i : ℕ} (hn : n ≤ h.capacity)
    (hnull : ∀ x ∈ contents n h.array, x ≠ .NULL) (hi : i < n) :
    h.freqAt i = some (h.array i).key := by
  rw [MinHeap.freqAt, get_of_lt (by omega)]
  exact HuffmanNode.freq_eq (hnull _ (mem_contents.mpr ⟨i, hi, rfl⟩))

/-! ## Down -/

/-- A comparison picks the smaller of the two, where the child exists. -/
theorem smaller_spec (child : ℕ) {smallest : ℕ} (hcap : h.size ≤ h.capacity)
    (hnull : ∀ x ∈ contents h.size h.array, x ≠ .NULL) (hs : smallest < h.size) :
    ∃ s, smaller h child smallest = some s ∧ (s = smallest ∨ s = child) ∧ s < h.size
      ∧ (h.array s).key ≤ (h.array smallest).key
      ∧ (child < h.size → (h.array s).key ≤ (h.array child).key)
      ∧ (s ≠ smallest → (h.array s).key < (h.array smallest).key) := by
  rw [smaller]
  rcases Nat.lt_or_ge child h.size with hc | hc
  · rw [if_pos hc, freqAt_of_lt hcap hnull hc, freqAt_of_lt hcap hnull hs]
    simp only [Option.bind_eq_bind, Option.bind_some]
    rcases Nat.lt_or_ge (h.array child).key (h.array smallest).key with hlt | hge
    · exact ⟨child, by rw [if_pos hlt], Or.inr rfl, hc, hlt.le, fun _ => le_refl _, fun _ => hlt⟩
    · exact ⟨smallest, by rw [if_neg (by omega)], Or.inl rfl, hs, le_refl _, fun _ => hge,
        fun h => absurd rfl h⟩
  · exact ⟨smallest, if_neg (by omega), Or.inl rfl, hs, le_refl _, fun h' => absurd h' (by omega),
      fun h => absurd rfl h⟩

/-- The two comparisons find the least of a node and its children. -/
theorem smallest_spec {idx : ℕ} (hcap : h.size ≤ h.capacity)
    (hnull : ∀ x ∈ contents h.size h.array, x ≠ .NULL) (hidx : idx < h.size) :
    ∃ s1 s2, smaller h (2 * idx + 1) idx = some s1 ∧ smaller h (2 * idx + 2) s1 = some s2
      ∧ s2 < h.size
      ∧ (∀ j, 0 < j → j < h.size → parent j = idx → (h.array s2).key ≤ (h.array j).key)
      ∧ (s2 ≠ idx → parent s2 = idx ∧ 0 < s2 ∧ (h.array s2).key < (h.array idx).key) := by
  obtain ⟨s1, hrun1, hs1, hlt1, hle1, hleft1, hne1⟩ := smaller_spec (2 * idx + 1) hcap hnull hidx
  obtain ⟨s2, hrun2, hs2, hlt2, hle2, hright2, hne2⟩ := smaller_spec (2 * idx + 2) hcap hnull hlt1
  refine ⟨s1, s2, hrun1, hrun2, hlt2, ?_, fun hs => ?_⟩
  -- the smaller of the two children is below every child of idx
  · intro j hj hjn hpj
    rcases eq_of_parent_eq hj hpj with rfl | rfl
    · exact le_trans hle2 (hleft1 hjn)
    · exact hright2 hjn
  -- one of the two comparisons has moved the index to a child
  · have hchild : s2 = 2 * idx + 1 ∨ s2 = 2 * idx + 2 := by omega
    refine ⟨?_, by omega, ?_⟩
    · rcases hchild with hc | hc
      · rw [hc, parent_left]
      · rw [hc, parent_right]
    · rcases hs2 with hc | hc
      · rw [hc] at hs ⊢
        exact hne1 hs
      · exact lt_of_lt_of_le (hne2 (by omega)) hle1

/-- The two child positions, as `int`s: with room for them `minHeapify` is the text of the source
without the checks of the arithmetic. -/
theorem minHeapify_of_lt {idx : ℕ} (h : MinHeap) (hidx : 2 * idx + 2 < 2 ^ 31) :
    minHeapify h idx = (do
      let smallest ← smaller h (2 * idx + 1) idx
      let smallest ← smaller h (2 * idx + 2) smallest
      if smallest ≠ idx then
        minHeapify (← swapNodes h smallest idx) smallest
      else
        some h) := by
  rw [minHeapify, nat32_of_lt (by omega), nat32_of_lt hidx]
  rfl

/-- `minHeapify` repairs a heap that is out of order below `idx` only. -/
theorem minHeapify_spec (idx : ℕ) (hidx : idx < h.size ∨ h.size = 0 ∧ idx = 0)
    (hmax : h.capacity ≤ 2 ^ 30) (hroom : h.size < h.capacity)
    (hnull : ∀ x ∈ contents h.size h.array, x ≠ .NULL)
    (hord : DownOrdered HuffmanNode.key h.size h.array idx) :
    ∃ h', minHeapify h idx = some h' ∧ h'.capacity = h.capacity ∧ h'.size = h.size
      ∧ HeapOk h' (contents h.size h.array) := by
  -- the index goes up at each call, and stays in the heap
  generalize hm : h.size - idx = m
  induction m using Nat.strongRecOn generalizing h idx with
  | ind m ih =>
      have hcap : h.size ≤ h.capacity := hroom.le
      rcases hidx with hidx | ⟨h0, hidx0⟩
      · obtain ⟨s1, s2, hrun1, hrun2, hlt2, hmin, hless⟩ := smallest_spec hcap hnull hidx
        rw [minHeapify_of_lt h (by omega), hrun1]
        simp only [Option.bind_eq_bind, Option.bind_some, hrun2]
        by_cases hs : s2 = idx
        · rw [if_neg (not_not_intro hs)]
          rw [hs] at hmin
          exact ⟨h, rfl, rfl, rfl, hmax, hcap, rfl, hnull, hord.ordered hmin⟩
        · -- the least is a child: it is swapped up, and the call goes on below it
          obtain ⟨hpar, hpos, hlt⟩ := hless hs
          have hdown := parent_lt hpos
          have hmove := hord.move hpos hlt2 hpar hlt hmin
          have hsame := contents_swapAt (a := h.array) hlt2 hidx
          rw [if_pos hs, swapNodes_of_lt (by omega) (by omega), Option.bind_some]
          obtain ⟨h', hrun, hcap', hsize', hok⟩ :=
            ih (h.size - s2) (by omega) (h := { h with array := swapAt h.array s2 idx }) s2
              (Or.inl hlt2) hmax hroom (by rwa [hsame]) hmove rfl
          exact ⟨h', hrun, hcap', hsize', by rwa [← hsame]⟩
      · -- the heap is empty: both children are outside
        rw [minHeapify_of_lt h (by omega), smaller, if_neg (by omega), Option.bind_eq_bind,
          Option.bind_some, smaller, if_neg (by omega), Option.bind_eq_bind, Option.bind_some,
          if_neg (not_not_intro rfl)]
        exact ⟨h, rfl, rfl, rfl, hmax, hcap, rfl, hnull, fun j hj hjn => absurd hjn (by omega)⟩

/-- `extractMin` takes out a node of least frequency. The last node takes the place of the root and
sinks to where it belongs. -/
theorem extractMin_spec (hh : HeapOk h M) (hM : M ≠ 0) :
    ∃ x M' h', extractMin h = some (x, h') ∧ M = x ::ₘ M' ∧ (∀ y ∈ M', x.key ≤ y.key)
      ∧ HeapOk h' M' ∧ h'.capacity = h.capacity := by
  have hpos : 0 < h.size := by
    rw [← hh.card_eq]
    exact Multiset.card_pos.mpr hM
  have hcap := hh.size_le
  have hsplit := contents_remove_root (h.size - 1) h.array
  rw [Nat.sub_add_cancel hpos, hh.contents_eq] at hsplit
  -- the last node takes the place of the root and sinks
  obtain ⟨h', hrun, hcap', hsize', hok⟩ := minHeapify_spec 0
    (h := { size := h.size - 1, capacity := h.capacity,
            array := upd h.array 0 (h.array (h.size - 1)) })
    (by simp only [and_true]; omega) hh.capacity_le (by simp only; omega)
    (fun x hx => hh.ne_null x (hsplit ▸ Multiset.mem_cons_of_mem hx))
    (hh.ordered.downOrdered (Nat.sub_le _ _) _)
  refine ⟨h.array 0, _, h', ?_, hsplit, ?_, hok, hcap'⟩
  · rw [extractMin, if_neg (by omega), get_of_lt (by omega), get_of_lt (by omega)]
    simp only [Option.bind_eq_bind, Option.bind_some]
    rw [set_of_lt (by omega), Option.bind_some, hrun, Option.bind_some]
  · intro y hy
    have hy' : y ∈ contents h.size h.array := by
      rw [hh.contents_eq, hsplit]
      exact Multiset.mem_cons_of_mem hy
    obtain ⟨j, hj, rfl⟩ := mem_contents.mp hy'
    exact hh.ordered.root_le hj

/-! ## Up -/

/-- What the insertion loop keeps: with `node` in the free cell `i`, the array holds what
it has to, and only `i` and its parent can be out of order. -/
structure Inserting (node : HuffmanNode) (M : Multiset HuffmanNode) (capacity : ℕ)
    (s : ℕ × MinHeap) : Prop where
  lt : s.1 < s.2.size
  size_le : s.2.size ≤ s.2.capacity
  capacity_eq : s.2.capacity = capacity
  contents_eq : contents s.2.size (upd s.2.array s.1 node) = M
  ordered : UpOrdered HuffmanNode.key s.2.size (upd s.2.array s.1 node) s.1

/-- The loop has found the place: with the new node there the array is in order. -/
def Found (node : HuffmanNode) (M : Multiset HuffmanNode) (capacity : ℕ) (s : ℕ × MinHeap) : Prop :=
  Inserting node M capacity s
    ∧ Ordered HuffmanNode.key s.2.size (upd s.2.array s.1 node)

/-- One step up: either the place is found, or the parent has moved down into it and the hole is
one level higher. -/
theorem insert_body_spec {node : HuffmanNode} {capacity : ℕ} (hM : ∀ x ∈ M, x ≠ .NULL)
    (hnode : node ≠ .NULL) (s : ℕ × MinHeap) (hs : Inserting node M capacity s) :
    (∃ b, insert_body node s = some (.done b) ∧ Found node M capacity b)
      ∨ ∃ s', insert_body node s = some (.next s') ∧ Inserting node M capacity s' ∧ s'.1 < s.1 := by
  obtain ⟨i, h⟩ := s
  obtain ⟨hlt, hcap, hceq, hcont, hord⟩ := hs
  simp only at hlt hcap hceq hcont hord
  rcases Nat.eq_zero_or_pos i with rfl | hi
  · left
    exact ⟨(0, h), by rw [insert_body, if_neg (by simp)], ⟨hlt, hcap, hceq, hcont, hord⟩,
      hord.ordered (fun h0 => absurd h0 (lt_irrefl 0))⟩
  · have hp : (i - 1) / 2 < i := by omega
    have hpar : upd h.array i node (parent i) = h.array ((i - 1) / 2) := upd_other (by
      unfold parent
      omega)
    have hpnull : h.array ((i - 1) / 2) ≠ .NULL := by
      apply hM
      rw [← hcont, ← hpar]
      exact mem_contents.mpr ⟨parent i, by unfold parent; omega, rfl⟩
    have hbody : insert_body node (i, h)
        = if node.key < (h.array ((i - 1) / 2)).key then
            some (.next ((i - 1) / 2, { h with array := upd h.array i (h.array ((i - 1) / 2)) }))
          else some (.done (i, h)) := by
      rw [insert_body, if_pos hi, HuffmanNode.freq_eq hnode]
      simp only [MinHeap.freqAt, Option.bind_eq_bind, Option.bind_some]
      rw [get_of_lt (by omega), Option.bind_some, HuffmanNode.freq_eq hpnull, Option.bind_some]
      split
      · rw [Option.bind_some, set_of_lt (by omega), Option.bind_some]
      · rfl
    rw [hbody]
    by_cases hless : node.key < (h.array ((i - 1) / 2)).key
    · right
      -- the parent moves down
      have hmove := hord.move hi hlt (by rwa [upd_same, hpar])
      have hsame := contents_swapAt (a := upd h.array i node) hlt
        (show parent i < h.size by unfold parent; omega)
      rw [swapAt_upd (by unfold parent; omega)] at hmove hsame
      exact ⟨_, if_pos hless, ⟨by simp only; omega, hcap, hceq, hsame.trans hcont, hmove⟩, hp⟩
    · left
      refine ⟨_, if_neg hless, ⟨hlt, hcap, hceq, hcont, hord⟩, hord.ordered (fun _ => ?_)⟩
      rw [hpar, upd_same]
      omega

/-- An insertion adds the node to what the heap holds and keeps the order, as long as there is
room. -/
theorem insertMinHeap_spec {node : HuffmanNode} (hh : HeapOk h M) (hnode : node ≠ .NULL)
    (hsize : h.size < h.capacity) :
    ∃ h', insertMinHeap h node = some h' ∧ HeapOk h' (node ::ₘ M) ∧ h'.capacity = h.capacity := by
  have hnull : ∀ x ∈ node ::ₘ M, x ≠ .NULL := by
    intro x hx
    rcases Multiset.mem_cons.mp hx with rfl | hx
    · exact hnode
    · exact hh.ne_null x hx
  -- the invariant of the climb: only the new node may be above its place
  have hstart : Inserting node (node ::ₘ M) h.capacity (h.size, { h with size := h.size + 1 }) := by
    refine ⟨Nat.lt_succ_self _, hsize, rfl, ?_, hh.ordered.upOrdered node⟩
    rw [contents_succ, upd_same, ← hh.contents_eq]
    congr 1
    exact contents_congr (fun k hk => upd_other (by omega))
  have hmax := hh.capacity_le
  obtain ⟨⟨i, h1⟩, hrun, hins, hord⟩ := loop_spec (fun s => s.1)
    (Inserting node (node ::ₘ M) h.capacity) (Found node (node ::ₘ M) h.capacity)
    (insert_body_spec hnull hnode) hstart
  have hlt := hins.lt
  have hle := hins.size_le
  refine ⟨{ h1 with array := upd h1.array i node }, ?_, ⟨?_, hle, hins.contents_eq, hnull, hord⟩,
    hins.capacity_eq⟩
  · rw [insertMinHeap, nat32_of_lt (by omega), Option.bind_eq_bind, Option.bind_some,
      Nat.add_sub_cancel, hrun, Option.bind_eq_bind, Option.bind_some]
    exact set_of_lt (by simp only at hlt hle; omega) node
  · exact hins.capacity_eq.le.trans hmax

end Heap

end CourseLabs.Huffman
