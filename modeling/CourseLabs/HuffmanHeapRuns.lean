/-
`CSMCS26A017_Lab2_2.c`: the min-heap under any sequence of calls.

`HeapOk` is kept by a call (`HeapCall.run_spec`), so it holds after every run in which the
nodes fit into the array; along the run the stored nodes and those returned so far are the
nodes inserted. The nodes fit by a count of the calls alone, `Fits`.

The bound on the capacity is exact. With `2 ^ 30 + 1` nodes inserted in ascending order the
last one is moved to the root and sinks along the left edge, down to a cell whose right child
has no `int` for its position.
-/
import CourseLabs.HuffmanHeap

set_option autoImplicit false

namespace CourseLabs.Huffman

open CourseLabs.CInt CourseLabs.CLoop CourseLabs.CMem CourseLabs.BinaryHeap

/-! ## Calls in sequence -/

/-- A call on the heap; `insertMinHeap` is passed a node. -/
inductive HeapCall where
  | insert (node : HuffmanNode) (ne_null : node ≠ .NULL)
  | extract

/-- The heap, and what `extractMin` has returned so far. -/
structure HeapRun where
  returned : List HuffmanNode
  heap : MinHeap

/-- What a call of the heap does to it and to the list of nodes it has returned. -/
def HeapCall.run (s : HeapRun) : HeapCall → Option HeapRun
  | .insert node _ => do
    let heap ← insertMinHeap s.heap node
    some { s with heap }
  | .extract => do
    let (node, heap) ← extractMin s.heap
    some { returned := s.returned ++ [node], heap }

/-- A sequence of calls, one after the other. -/
def runCalls (calls : List HeapCall) (s : HeapRun) : Option HeapRun :=
  calls.foldlM HeapCall.run s

/-- From `size` stored nodes on, there are never more than `capacity`. -/
def Fits (capacity : ℕ) : ℕ → List HeapCall → Prop
  | _, [] => True
  | size, .insert _ _ :: calls => size + 1 ≤ capacity ∧ Fits capacity (size + 1) calls
  | size, .extract :: calls => Fits capacity (size - 1) calls

/-- The nodes a sequence inserts, as a multiset, since a frequency may occur twice. -/
def inserted : List HeapCall → Multiset HuffmanNode
  | [] => 0
  | .insert node _ :: calls => node ::ₘ inserted calls
  | .extract :: calls => inserted calls

/-- The nodes a heap holds. -/
def MinHeap.stored (h : MinHeap) : Multiset HuffmanNode :=
  contents h.size h.array

/-- The nodes among what was returned. -/
def HeapRun.extracted (s : HeapRun) : Multiset HuffmanNode :=
  Multiset.ofList (s.returned.filter (· ≠ .NULL))

/-- After a run that has inserted the nodes `M`: the heap is in order, and what it stores
is what went in and did not come out. -/
structure Disciplined (capacity : ℕ) (M : Multiset HuffmanNode) (s : HeapRun) : Prop where
  capacity_eq : s.heap.capacity = capacity
  ok : HeapOk s.heap s.heap.stored
  balance : s.heap.stored + s.extracted = M

/-! ## One call -/

section Runs

variable {capacity : ℕ} {M : Multiset HuffmanNode} {s : HeapRun}

/-- A heap in order holds what its multiset says. -/
theorem HeapOk.stored_eq {h : MinHeap} (hh : HeapOk h M) : h.stored = M :=
  hh.contents_eq

/-- Hence the multiset can be read off the heap. -/
theorem HeapOk.stored {h : MinHeap} (hh : HeapOk h M) : HeapOk h h.stored := by
  rwa [hh.stored_eq]

/-- Nothing to extract: `NULL`, and the heap as it was. -/
theorem extractMin_empty {h : MinHeap} (h0 : h.size = 0) : extractMin h = some (.NULL, h) :=
  if_pos h0

/-- An extraction takes one node out of the heap, and no node in it has a smaller frequency. -/
theorem extractMin_stored {h : MinHeap} (hh : HeapOk h h.stored) (hpos : 0 < h.size) :
    ∃ x h', extractMin h = some (x, h') ∧ x ≠ .NULL ∧ h.stored = x ::ₘ h'.stored
      ∧ (∀ y ∈ h.stored, x.key ≤ y.key) ∧ HeapOk h' h'.stored ∧ h'.capacity = h.capacity := by
  have hne : h.stored ≠ 0 := by
    rw [← Multiset.card_pos, hh.card_eq]
    exact hpos
  obtain ⟨x, M', h', hrun, hM, hmin, hok, hcap⟩ := extractMin_spec hh hne
  have hx : x ∈ h.stored := by
    rw [hM]
    exact Multiset.mem_cons_self x M'
  refine ⟨x, h', hrun, hh.ne_null x hx, by rw [hok.stored_eq, hM], ?_, hok.stored, hcap⟩
  intro y hy
  rw [hM] at hy
  rcases Multiset.mem_cons.mp hy with rfl | hy
  · exact le_refl _
  · exact hmin y hy

/-- The size a call leaves, if there is room for it. -/
def HeapCall.sizeAfter (size : ℕ) : HeapCall → ℕ
  | .insert _ _ => size + 1
  | .extract => size - 1

/-- A call that fits keeps the discipline. -/
theorem HeapCall.run_spec (call : HeapCall) (hs : Disciplined capacity M s)
    (hroom : call.sizeAfter s.heap.size ≤ capacity) :
    ∃ s', call.run s = some s' ∧ Disciplined capacity (M + inserted [call]) s'
      ∧ s'.heap.size = call.sizeAfter s.heap.size := by
  obtain ⟨hcap, hok, hbal⟩ := hs
  cases call with
  | insert node ne_null =>
      rw [sizeAfter] at hroom
      obtain ⟨h', hrun, hok', hcap'⟩ := insertMinHeap_spec hok ne_null (by omega)
      have hcard := hok'.card_eq
      rw [Multiset.card_cons, hok.card_eq] at hcard
      refine ⟨{ s with heap := h' }, ?_, ⟨hcap'.trans hcap, hok'.stored, ?_⟩, hcard.symm⟩
      · rw [HeapCall.run, hrun]
        rfl
      · change h'.stored + s.extracted = _
        rw [hok'.stored_eq, Multiset.cons_add, hbal, inserted, inserted, Multiset.cons_zero,
          ← Multiset.singleton_add, add_comm]
  | extract =>
      rcases Nat.eq_zero_or_pos s.heap.size with h0 | hpos
      · -- the `NULL` is no node
        refine ⟨{ s with returned := s.returned ++ [.NULL] }, ?_, ⟨hcap, hok, ?_⟩, ?_⟩
        · rw [HeapCall.run, extractMin_empty h0]
          rfl
        · rw [inserted, inserted, add_zero, ← hbal]
          simp [HeapRun.extracted]
        · rw [sizeAfter, h0]
      · obtain ⟨x, h', hrun, hx, hstored, -, hok', hcap'⟩ := extractMin_stored hok hpos
        have hcard := congrArg Multiset.card hstored
        rw [Multiset.card_cons, hok.card_eq, hok'.card_eq] at hcard
        refine ⟨{ returned := s.returned ++ [x], heap := h' }, ?_,
          ⟨hcap'.trans hcap, hok', ?_⟩, ?_⟩
        · rw [HeapCall.run, hrun]
          rfl
        · rw [inserted, inserted, add_zero, ← hbal, hstored]
          simp only [HeapRun.extracted, List.filter_append, List.filter_cons, hx, ne_eq,
            not_false_eq_true, decide_true, if_true, List.filter_nil, ← Multiset.coe_add,
            Multiset.coe_singleton]
          rw [add_comm (Multiset.ofList _) {x}, ← add_assoc, add_comm h'.stored {x},
            Multiset.singleton_add]
        · rw [sizeAfter]
          simp only
          omega

/-! ## Every run -/

/-- The insertions of the first call, and of the others. -/
theorem inserted_cons (call : HeapCall) (calls : List HeapCall) :
    inserted (call :: calls) = inserted [call] + inserted calls := by
  cases call with
  | insert node ne_null =>
      rw [inserted, inserted, inserted, Multiset.cons_zero, Multiset.singleton_add]
  | extract => rw [inserted, inserted, inserted, zero_add]

/-- A sequence that fits the heap does so call by call. -/
theorem Fits.cons {size : ℕ} {call : HeapCall} {calls : List HeapCall}
    (h : Fits capacity size (call :: calls)) (hsize : size ≤ capacity) :
    call.sizeAfter size ≤ capacity ∧ Fits capacity (call.sizeAfter size) calls := by
  cases call with
  | insert node ne_null => exact h
  | extract => exact ⟨by rw [HeapCall.sizeAfter]; omega, h⟩

/-- A sequence of calls that fits the heap can be run. The heap stays in order, and what was
inserted is stored in it or was returned. -/
theorem runCalls_spec {calls : List HeapCall} (hs : Disciplined capacity M s)
    (hfits : Fits capacity s.heap.size calls) :
    ∃ s', runCalls calls s = some s' ∧ Disciplined capacity (M + inserted calls) s' := by
  induction calls generalizing M s with
  | nil => exact ⟨s, rfl, by rwa [inserted, add_zero]⟩
  | cons call calls ih =>
      have hle := hs.ok.size_le
      rw [hs.capacity_eq] at hle
      obtain ⟨hroom, hrest⟩ := hfits.cons hle
      obtain ⟨s₁, hrun₁, hs₁, hsize⟩ := call.run_spec hs hroom
      rw [← hsize] at hrest
      obtain ⟨s₂, hrun₂, hs₂⟩ := ih hs₁ hrest
      refine ⟨s₂, ?_, by rwa [inserted_cons, ← add_assoc]⟩
      rw [runCalls, List.foldlM_cons, hrun₁]
      exact hrun₂

end Runs

/-- **The discipline of the heap.** After any calls that fit the heap is in order, and it
stores what was inserted less what was extracted; then `extractMin` takes out a node of least
frequency, or returns `NULL` from an empty heap, which stays as it is. -/
theorem heap_discipline {capacity : ℕ} (hcap : capacity ≤ 2 ^ 30) (array : ℕ → HuffmanNode)
    {calls : List HeapCall} (hfits : Fits capacity 0 calls) :
    ∃ s, runCalls calls { returned := [], heap := createMinHeap capacity array } = some s
      ∧ Disciplined capacity (inserted calls) s
      ∧ (s.heap.size = 0 → extractMin s.heap = some (.NULL, s.heap))
      ∧ (0 < s.heap.size → ∃ x h', extractMin s.heap = some (x, h') ∧ x ≠ .NULL
        ∧ s.heap.stored = x ::ₘ h'.stored ∧ ∀ y ∈ s.heap.stored, x.key ≤ y.key) := by
  have hstart : Disciplined capacity 0
      { returned := [], heap := createMinHeap capacity array } :=
    ⟨rfl, (createMinHeap_ok hcap array).stored, rfl⟩
  obtain ⟨s, hrun, hs⟩ := runCalls_spec hstart hfits
  rw [zero_add] at hs
  refine ⟨s, hrun, hs, extractMin_empty, fun hpos => ?_⟩
  obtain ⟨x, h', hextract, hx, hstored, hmin, -⟩ := extractMin_stored hs.ok hpos
  exact ⟨x, h', hextract, hx, hstored, hmin⟩

/-- Two insertions, with frequencies `5` and `2`. -/
theorem heap_discipline_two :
    ∃ s, runCalls [.insert (createNode 97 5) HuffmanNode.noConfusion,
        .insert (createNode 98 2) HuffmanNode.noConfusion]
        { returned := [], heap := createMinHeap 2 fun _ => .NULL } = some s
      ∧ Disciplined 2 (inserted [.insert (createNode 97 5) HuffmanNode.noConfusion,
        .insert (createNode 98 2) HuffmanNode.noConfusion]) s
      ∧ (s.heap.size = 0 → extractMin s.heap = some (.NULL, s.heap))
      ∧ (0 < s.heap.size → ∃ x h', extractMin s.heap = some (x, h') ∧ x ≠ .NULL
        ∧ s.heap.stored = x ::ₘ h'.stored ∧ ∀ y ∈ s.heap.stored, x.key ≤ y.key) :=
  heap_discipline (by decide) (fun _ => .NULL) ⟨by decide, by decide, trivial⟩

/-! ## A node more -/

/-- A call for each frequency below `n`, in ascending order. -/
def ascending (n : ℕ) : List HeapCall :=
  (List.range n).map fun freq => .insert (createNode 0 freq) HuffmanNode.noConfusion

section Overflow

variable {h : MinHeap} {k : ℕ}

/-- A sequence of insertions needs as much room as there are nodes, and an extraction behind it
none. -/
theorem fits_map_insert {capacity size : ℕ} (l : List ℕ) (hroom : size + l.length ≤ capacity) :
    Fits capacity size
      (l.map (fun freq => .insert (createNode 0 freq) HuffmanNode.noConfusion) ++ [.extract]) := by
  induction l generalizing size with
  | nil => trivial
  | cons freq l ih =>
      rw [List.length_cons] at hroom
      exact ⟨by omega, ih (by omega)⟩

/-- The largest node stays where it is put. -/
theorem insertMinHeap_ascending {n : ℕ} (hsize : h.size = n) (hroom : n < h.capacity)
    (hmax : h.capacity < 2 ^ 31) (hcells : ∀ j, j < n → h.array j = createNode 0 j) :
    insertMinHeap h (createNode 0 n)
      = some { h with size := n + 1, array := upd h.array n (createNode 0 n) } := by
  have hbody : insert_body (createNode 0 n) (n, { h with size := n + 1 })
      = some (.done (n, { h with size := n + 1 })) := by
    rcases Nat.eq_zero_or_pos n with rfl | hpos
    · exact if_neg (Nat.lt_irrefl 0)
    · have hfreq : MinHeap.freqAt { h with size := n + 1 } ((n - 1) / 2)
          = some ((n - 1) / 2) := by
        rw [MinHeap.freqAt, get_of_lt (by simp only; omega), hcells _ (by omega)]
        rfl
      rw [insert_body, if_pos hpos, hfreq]
      simp only [createNode, HuffmanNode.freq, Option.bind_eq_bind, Option.bind_some]
      rw [if_neg (by omega)]
  rw [insertMinHeap, hsize, nat32_of_lt (by omega), Option.bind_eq_bind, Option.bind_some,
    Nat.add_sub_cancel, loop_done hbody, Option.bind_eq_bind, Option.bind_some]
  exact if_pos hroom

/-- A heap filled in ascending order is the list of the frequencies. -/
theorem runCalls_ascending {capacity n : ℕ} (hn : n ≤ capacity) (hmax : capacity < 2 ^ 31)
    (array : ℕ → HuffmanNode) :
    ∃ h, runCalls (ascending n) { returned := [], heap := createMinHeap capacity array }
        = some { returned := [], heap := h }
      ∧ h.size = n ∧ h.capacity = capacity ∧ ∀ j, j < n → h.array j = createNode 0 j := by
  induction n with
  | zero => exact ⟨_, rfl, rfl, rfl, fun j hj => absurd hj (Nat.not_lt_zero j)⟩
  | succ n ih =>
      obtain ⟨h, hrun, hsize, hcap, hcells⟩ := ih (by omega)
      have hinsert := insertMinHeap_ascending hsize (by omega) (by omega) hcells
      refine ⟨{ h with size := n + 1, array := upd h.array n (createNode 0 n) }, ?_, rfl, hcap, ?_⟩
      · rw [runCalls, ascending] at hrun
        rw [runCalls, ascending, List.range_succ, List.map_append, List.foldlM_append, hrun,
          Option.bind_eq_bind, Option.bind_some, List.map_singleton, List.foldlM_cons]
        simp only [HeapCall.run, hinsert]
        rfl
      · intro j hj
        by_cases hjn : j = n
        · rw [hjn]
          exact upd_same _ _ _
        · exact (upd_other hjn).trans (hcells j (by omega))

/-- A comparison of two cells that hold their frequencies. -/
theorem smaller_of_cells {child smallest a b : ℕ} (hchild : child < h.size)
    (hcap : h.size ≤ h.capacity) (hsmallest : smallest < h.size)
    (ha : h.array child = createNode 0 a) (hb : h.array smallest = createNode 0 b) :
    smaller h child smallest = some (if a < b then child else smallest) := by
  have hcell : ∀ i c, i < h.size → h.array i = createNode 0 c → h.freqAt i = some c := by
    intro i c hi hc
    rw [MinHeap.freqAt, get_of_lt (by omega), hc]
    rfl
  rw [smaller, if_pos hchild, hcell child a hchild ha, hcell smallest b hsmallest hb]
  rfl

/-- On the left edge of `2 ^ 30` cells in ascending order a large node sinks down to a cell
whose children have no positions. The induction is on the levels below it. -/
theorem minHeapify_left_edge {levels : ℕ} (hk : k + levels = 30) (hsize : h.size = 2 ^ 30)
    (hcap : 2 ^ 30 ≤ h.capacity) (htop : h.array (2 ^ k - 1) = createNode 0 (2 ^ 30))
    (hcells : ∀ j, 2 ^ k ≤ j → j < 2 ^ 30 → h.array j = createNode 0 j) :
    minHeapify h (2 ^ k - 1) = none := by
  induction levels generalizing h k with
  | zero =>
      obtain rfl : k = 30 := hk
      rw [minHeapify]
      rfl
  | succ levels ih =>
      have hdouble : 2 ^ (k + 1) = 2 * 2 ^ k := by rw [pow_succ, Nat.mul_comm]
      have hpos : 0 < 2 ^ k := Nat.two_pow_pos k
      have hpow : 2 ^ (k + 1) ≤ 2 ^ 30 := Nat.pow_le_pow_right (by omega) (by omega)
      have hnext := @ih { h with array := swapAt h.array (2 ^ (k + 1) - 1) (2 ^ k - 1) } (k + 1)
        (by omega) hsize hcap
      generalize 2 ^ (k + 1) = q at *
      generalize 2 ^ k = p at *
      -- the left child is the smallest of the three, with or without a right one
      have hleft : smaller h (2 * (p - 1) + 1) (p - 1) = some (q - 1) := by
        rw [smaller_of_cells (by omega) (by omega) (by omega) (hcells _ (by omega) (by omega))
          htop, if_pos (by omega), show 2 * (p - 1) + 1 = q - 1 by omega]
      have hright : smaller h (2 * (p - 1) + 2) (q - 1) = some (q - 1) := by
        rcases Nat.lt_or_ge (2 * (p - 1) + 2) h.size with hlt | hge
        · rw [smaller_of_cells hlt (by omega) (by omega) (hcells _ (by omega) (by omega))
            (hcells (q - 1) (by omega) (by omega)), if_neg (by omega)]
        · exact if_neg (by omega)
      rw [minHeapify_of_lt h (by omega), hleft, Option.bind_eq_bind, Option.bind_some, hright,
        Option.bind_eq_bind, Option.bind_some, if_pos (by omega),
        swapNodes_of_lt (by omega) (by omega), Option.bind_some]
      apply hnext
      · exact (swapAt_left _ _ _).trans htop
      · intro j hj hjlt
        exact (swapAt_other (by omega) (by omega)).trans (hcells j (by omega) hjlt)

/-- The last of `2 ^ 30 + 1` nodes does not come down from the root. -/
theorem extractMin_ascending (hsize : h.size = 2 ^ 30 + 1) (hcap : h.capacity = 2 ^ 30 + 1)
    (hcells : ∀ j, j < 2 ^ 30 + 1 → h.array j = createNode 0 j) : extractMin h = none := by
  have hlast : h.array (h.size - 1) = createNode 0 (2 ^ 30) := by
    rw [hsize, Nat.add_sub_cancel]
    exact hcells (2 ^ 30) (by omega)
  have hsift := @minHeapify_left_edge
    { h with size := h.size - 1, array := upd h.array 0 (h.array (h.size - 1)) } 0 30 rfl
    (by simp only; omega) (by simp only; omega)
    ((upd_same h.array 0 _).trans hlast)
    (fun j hj hlt => by
      have hne : j ≠ 0 := by omega
      exact (upd_other hne).trans (hcells j (by omega)))
  rw [extractMin, if_neg (by omega), get_of_lt (by omega), get_of_lt (by omega)]
  simp only [Option.bind_eq_bind, Option.bind_some]
  rw [set_of_lt (by omega), Option.bind_some]
  exact congrArg (Option.bind · _) hsift

/-- The last extraction from a heap of `2 ^ 30 + 1` nodes overflows: sinking the root comes to a
place whose second child has an index that is no `int`. -/
theorem runCalls_overflow {n : ℕ} (hn : n = 2 ^ 30 + 1) (array : ℕ → HuffmanNode) :
    Fits n 0 (ascending n ++ [.extract])
      ∧ runCalls (ascending n ++ [.extract])
        { returned := [], heap := createMinHeap n array } = none := by
  constructor
  · exact fits_map_insert _ (by rw [List.length_range, Nat.zero_add])
  · obtain ⟨h, hrun, hsize, hcap, hcells⟩ := @runCalls_ascending n n (le_refl n) (by omega) array
    rw [runCalls] at hrun
    rw [hn] at hsize hcap hcells
    rw [runCalls, List.foldlM_append, hrun, Option.bind_eq_bind, Option.bind_some,
      List.foldlM_cons, HeapCall.run, extractMin_ascending hsize hcap hcells]
    rfl

end Overflow

/-- So the discipline does not hold of every capacity. -/
theorem not_heap_discipline :
    Fits (2 ^ 30 + 1) 0 (ascending (2 ^ 30 + 1) ++ [.extract])
      ∧ runCalls (ascending (2 ^ 30 + 1) ++ [.extract])
        { returned := [], heap := createMinHeap (2 ^ 30 + 1) fun _ => .NULL } = none :=
  runCalls_overflow rfl _

end CourseLabs.Huffman
