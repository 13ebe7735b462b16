/-
**Full binary trees as codes.** The codeword of a leaf is the path to it, `false` to the
left and `true` to the right.

* `decode t n` reads at most `n` symbols off a bit string. It gives back what was encoded
  (`decode_flatten`), and it comes short exactly when the string has fewer than `n`
  codewords at its start (`length_decode_eq_iff`).
* `preorder enc t` writes the tree itself: `false` for an inner node and `true`, with the
  symbol as `enc` has it, for a leaf. A tree can be read back from the start of any string
  (`preorder_inj`).
* `weight` and `cost` are the sums a code is judged by: `cost` is the weighted length of
  the codewords (`cost_eq_sum`).
-/
import Mathlib.Algebra.BigOperators.Group.List.Basic
import Mathlib.Data.Multiset.Basic
import Mathlib.Tactic.Linarith
import Mathlib.Tactic.Ring

set_option autoImplicit false

namespace CourseLabs.PrefixTree

/-- A binary tree with a symbol at every leaf, which is what a prefix code is the shape of. -/
inductive BinTree (α : Type) where
  | leaf (a : α)
  | node (l r : BinTree α)

section Codes

variable {α : Type}

/-- The symbols of a tree from left to right. -/
def leaves : BinTree α → List α
  | .leaf a => [a]
  | .node l r => leaves l ++ leaves r

/-- The symbols with their codewords, from left to right. -/
def codes : BinTree α → List (α × List Bool)
  | .leaf a => [(a, [])]
  | .node l r => (codes l).map (Prod.map id (List.cons false))
      ++ (codes r).map (Prod.map id (List.cons true))

/-- The length of the longest codeword: how deep the tree is. -/
def height : BinTree α → ℕ
  | .leaf _ => 0
  | .node l r => max (height l) (height r) + 1

/-- A codeword of a tree begins with the bit of the side it is in. The induction over trees below
is always this one. -/
theorem mem_codes_node {l r : BinTree α} {a : α} {p : List Bool} :
    (a, p) ∈ codes (.node l r)
      ↔ (∃ q, (a, q) ∈ codes l ∧ p = false :: q) ∨ ∃ q, (a, q) ∈ codes r ∧ p = true :: q := by
  simp only [codes, List.mem_append, List.mem_map, Prod.exists, Prod.map_apply, id_eq,
    Prod.mk.injEq]
  constructor
  · rintro (⟨b, q, hq, rfl, rfl⟩ | ⟨b, q, hq, rfl, rfl⟩)
    · exact Or.inl ⟨q, hq, rfl⟩
    · exact Or.inr ⟨q, hq, rfl⟩
  · rintro (⟨q, hq, rfl⟩ | ⟨q, hq, rfl⟩)
    · exact Or.inl ⟨a, q, hq, rfl, rfl⟩
    · exact Or.inr ⟨a, q, hq, rfl, rfl⟩

/-- The symbols of the code are the leaves of the tree, each as often as it occurs there. -/
theorem map_fst_codes (t : BinTree α) : (codes t).map Prod.fst = leaves t := by
  induction t with
  | leaf a => rfl
  | node l r ihl ihr =>
      rw [codes, leaves, List.map_append, List.map_map, List.map_map, ← ihl, ← ihr]
      rfl

/-- A tree is lower than it has leaves, as each step down leaves a leaf on the other side. -/
theorem height_lt_length_leaves (t : BinTree α) : height t < (leaves t).length := by
  induction t with
  | leaf a => exact Nat.one_pos
  | node l r ihl ihr =>
      rw [height, leaves, List.length_append]
      omega

/-! ## Decoding -/

/-- One symbol, and the rest of the bits: the walk from the root to a leaf. Bits that break off
give none. -/
def decodeOne : BinTree α → List Bool → Option (α × List Bool)
  | .leaf a, bits => some (a, bits)
  | .node _ _, [] => none
  | .node l r, b :: bits => decodeOne (if b then r else l) bits

/-- Up to `n` symbols, fewer when the bits end before. -/
def decode (t : BinTree α) : ℕ → List Bool → List α
  | 0, _ => []
  | n + 1, bits =>
    match decodeOne t bits with
    | none => []
    | some (a, rest) => a :: decode t n rest

/-- Reading a codeword that something follows gives its symbol and leaves the rest: the tree
decides where the word ends. -/
theorem decodeOne_codeword {t : BinTree α} {a : α} {p : List Bool} (h : (a, p) ∈ codes t)
    (rest : List Bool) : decodeOne t (p ++ rest) = some (a, rest) := by
  induction t generalizing p with
  | leaf b =>
      rw [codes, List.mem_singleton, Prod.mk.injEq] at h
      rw [h.1, h.2, List.nil_append, decodeOne]
  | node l r ihl ihr =>
      rcases mem_codes_node.mp h with ⟨q, hq, rfl⟩ | ⟨q, hq, rfl⟩
      · exact ihl hq
      · exact ihr hq

/-- A symbol is read off its codeword only: the bits that were used are those of the path to its
leaf. -/
theorem exists_codeword {t : BinTree α} {a : α} {bits rest : List Bool}
    (h : decodeOne t bits = some (a, rest)) : ∃ p, (a, p) ∈ codes t ∧ bits = p ++ rest := by
  induction t generalizing bits with
  | leaf b =>
      rw [decodeOne, Option.some.injEq, Prod.mk.injEq] at h
      obtain ⟨rfl, rfl⟩ := h
      exact ⟨[], List.mem_singleton.mpr rfl, rfl⟩
  | node l r ihl ihr =>
      cases bits with
      | nil => exact absurd h (by simp [decodeOne])
      | cons b bits =>
          rw [decodeOne] at h
          -- the bit chooses the subtree, whose induction hypothesis gives the rest of the code
          cases b with
          | false =>
              obtain ⟨p, hp, rfl⟩ := ihl h
              exact ⟨false :: p, mem_codes_node.mpr (Or.inl ⟨p, hp, rfl⟩), rfl⟩
          | true =>
              obtain ⟨p, hp, rfl⟩ := ihr h
              exact ⟨true :: p, mem_codes_node.mpr (Or.inr ⟨p, hp, rfl⟩), rfl⟩

/-- No codeword is a prefix of another: two paths of which one goes on from the other do not both
end in leaves. -/
theorem codeword_prefix_eq {t : BinTree α} {a b : α} {p q : List Bool} (ha : (a, p) ∈ codes t)
    (hb : (b, q) ∈ codes t) (h : p <+: q) : a = b ∧ p = q := by
  obtain ⟨r, rfl⟩ := h
  -- both are read off the longer one
  have hread := decodeOne_codeword hb []
  rw [List.append_nil, decodeOne_codeword ha r, Option.some.injEq, Prod.mk.injEq] at hread
  exact ⟨hread.1, by rw [hread.2, List.append_nil]⟩

/-- No codeword is longer than the tree is high. -/
theorem length_le_height {t : BinTree α} {a : α} {p : List Bool} (h : (a, p) ∈ codes t) :
    p.length ≤ height t := by
  induction t generalizing p with
  | leaf b =>
      rw [codes, List.mem_singleton, Prod.mk.injEq] at h
      rw [h.2, height, List.length_nil]
  | node l r ihl ihr =>
      rw [height]
      rcases mem_codes_node.mp h with ⟨q, hq, rfl⟩ | ⟨q, hq, rfl⟩
      · have := ihl hq
        rw [List.length_cons]
        omega
      · have := ihr hq
        rw [List.length_cons]
        omega

/-- Only of a single leaf is the codeword empty. -/
theorem length_pos_of_mem_codes {t : BinTree α} {a : α} {p : List Bool} (ht : 0 < height t)
    (h : (a, p) ∈ codes t) : 0 < p.length := by
  cases t with
  | leaf b => exact absurd ht (Nat.lt_irrefl 0)
  | node l r =>
      rcases mem_codes_node.mp h with ⟨q, -, rfl⟩ | ⟨q, -, rfl⟩
      · exact Nat.succ_pos _
      · exact Nat.succ_pos _

/-- **What was encoded is decoded**, whatever follows it, since no codeword can be taken for the
beginning of another. -/
theorem decode_flatten {t : BinTree α} {w : List (α × List Bool)} (h : ∀ c ∈ w, c ∈ codes t)
    (rest : List Bool) :
    decode t w.length ((w.map Prod.snd).flatten ++ rest) = w.map Prod.fst := by
  induction w with
  | nil => rfl
  | cons c w ih =>
      rw [List.map_cons, List.flatten_cons, List.append_assoc, List.length_cons, decode,
        decodeOne_codeword (h c List.mem_cons_self)]
      simp only [List.map_cons]
      rw [ih (fun c hc => h c (List.mem_cons_of_mem _ hc))]

/-- A tree with one leaf needs no bits: the number of symbols says everything. -/
theorem decode_leaf (a : α) (n : ℕ) (bits : List Bool) :
    decode (.leaf a) n bits = List.replicate n a := by
  induction n with
  | zero => rfl
  | succ n ih =>
      rw [decode, decodeOne, List.replicate_succ, ← ih]

/-- `decode t` with the first symbol read from somewhere inside the tree. -/
def decodeFrom (t u : BinTree α) : ℕ → List Bool → List α
  | 0, _ => []
  | n + 1, bits =>
    match decodeOne u bits with
    | none => []
    | some (a, rest) => a :: decode t n rest

section DecodeFrom

variable (t : BinTree α) {l r : BinTree α} {n : ℕ} {bits : List Bool}

/-- Decoding from the root is decoding. -/
theorem decodeFrom_self : decodeFrom t t n bits = decode t n bits := by
  cases n with
  | zero => rfl
  | succ n => rfl

/-- At a leaf the symbol is written and decoding goes on at the root. -/
theorem decodeFrom_leaf (a : α) :
    decodeFrom t (.leaf a) (n + 1) bits = a :: decode t n bits := by
  rw [decodeFrom, decodeOne]

/-- When the bits are out inside the tree, no symbol is decoded. -/
theorem decodeFrom_nil : decodeFrom t (.node l r) n [] = [] := by
  cases n with
  | zero => rfl
  | succ n => rfl

/-- A bit is a step down the tree, which is how a loop that keeps its place in the tree decodes. -/
theorem decodeFrom_cons (b : Bool) :
    decodeFrom t (.node l r) n (b :: bits) = decodeFrom t (if b then r else l) n bits := by
  cases n with
  | zero => rfl
  | succ n => rfl

end DecodeFrom

/-- `n` symbols come out exactly when `n` codewords are there. -/
theorem length_decode_eq_iff (t : BinTree α) (n : ℕ) (bits : List Bool) :
    (decode t n bits).length = n
      ↔ ∃ (w : List (α × List Bool)) (rest : List Bool), (∀ c ∈ w, c ∈ codes t)
        ∧ w.length = n ∧ bits = (w.map Prod.snd).flatten ++ rest := by
  constructor
  · intro h
    induction n generalizing bits with
    | zero => exact ⟨[], bits, by simp, rfl, rfl⟩
    | succ n ih =>
        rw [decode] at h
        -- a walk that finds no leaf leaves nothing to decode
        cases hone : decodeOne t bits with
        | none => simp [hone] at h
        | some c =>
            rw [hone] at h
            obtain ⟨p, hp, hbits⟩ := exists_codeword hone
            obtain ⟨w, rest, hw, hlen, hrest⟩ := ih c.2 (Nat.succ.inj h)
            refine ⟨(c.1, p) :: w, rest, ?_, by rw [List.length_cons, hlen], ?_⟩
            · intro c' hc'
              rcases List.mem_cons.mp hc' with rfl | hmem
              · exact hp
              · exact hw c' hmem
            · rw [hbits, hrest, List.map_cons, List.flatten_cons, List.append_assoc]
  · rintro ⟨w, rest, hw, rfl, rfl⟩
    rw [decode_flatten hw, List.length_map]

/-! ## The tree as a string -/

/-- A tree written down in preorder, one bit for each node and the symbol behind the bit of a
leaf. -/
def preorder (enc : α → List Bool) : BinTree α → List Bool
  | .leaf a => true :: enc a
  | .node l r => false :: (preorder enc l ++ preorder enc r)

/-- A leaf takes a bit and its symbol, and the inner nodes are one fewer than the leaves. -/
theorem length_preorder {enc : α → List Bool} {k : ℕ} (hlen : ∀ a, (enc a).length = k)
    (t : BinTree α) : (preorder enc t).length + 1 = (k + 2) * (leaves t).length := by
  induction t with
  | leaf a => rw [preorder, leaves, List.length_cons, hlen, List.length_singleton, Nat.mul_one]
  | node l r ihl ihr =>
      rw [preorder, leaves, List.length_cons, List.length_append, List.length_append, Nat.mul_add]
      omega

/-- A tree whose text starts with `false` is an inner node. -/
theorem exists_node_of_preorder {enc : α → List Bool} {t : BinTree α} {bs rest : List Bool}
    (h : false :: bs = preorder enc t ++ rest) :
    ∃ l r, t = .node l r ∧ bs = preorder enc l ++ (preorder enc r ++ rest) := by
  cases t with
  | leaf a => simp [preorder] at h
  | node l r =>
      rw [preorder, List.cons_append, List.append_assoc, List.cons.injEq] at h
      exact ⟨l, r, rfl, h.2⟩

/-- With symbols of one length, a tree at the start of a string is the only one there. -/
theorem preorder_inj {enc : α → List Bool} (hinj : Function.Injective enc) {k : ℕ}
    (hlen : ∀ a, (enc a).length = k) {t u : BinTree α} {rest rest' : List Bool}
    (h : preorder enc t ++ rest = preorder enc u ++ rest') : t = u ∧ rest = rest' := by
  induction t generalizing u rest rest' with
  | leaf a =>
      cases u with
      | leaf b =>
          simp only [preorder, List.cons_append, List.cons.injEq, true_and] at h
          -- the two symbols take the same number of bits
          obtain ⟨henc, hrest⟩ := List.append_inj h (by rw [hlen, hlen])
          exact ⟨by rw [hinj henc], hrest⟩
      | node l r => simp [preorder] at h
  | node l r ihl ihr =>
      cases u with
      | leaf b => simp [preorder] at h
      | node l' r' =>
          simp only [preorder, List.cons_append, List.append_assoc, List.cons.injEq,
            true_and] at h
          obtain ⟨rfl, hrest⟩ := ihl h
          obtain ⟨rfl, hrest'⟩ := ihr hrest
          exact ⟨rfl, hrest'⟩

end Codes

/-! ## Weights -/

section Weights

variable {α : Type} (w : α → ℕ)

/-- The sum of the weights of the leaves. -/
def weight : BinTree α → ℕ
  | .leaf a => w a
  | .node l r => weight l + weight r

/-- The sum of the weights of the inner nodes. -/
def cost : BinTree α → ℕ
  | .leaf _ => 0
  | .node l r => cost l + cost r + (weight w l + weight w r)

/-- The weight is a sum over the leaves, in any order. -/
theorem weight_eq_sum (t : BinTree α) : weight w t = ((leaves t).map w).sum := by
  induction t with
  | leaf a => simp [weight, leaves]
  | node l r ihl ihr => rw [weight, leaves, List.map_append, List.sum_append, ihl, ihr]

/-- One level down, each codeword costs its weight more. -/
theorem sum_cons (b : Bool) (cs : List (α × List Bool)) :
    ((cs.map (Prod.map id (List.cons b))).map (fun c => w c.1 * c.2.length)).sum
      = (cs.map (fun c => w c.1 * c.2.length)).sum + ((cs.map Prod.fst).map w).sum := by
  induction cs with
  | nil => rfl
  | cons c cs ih =>
      simp only [List.map_cons, List.sum_cons, ih, Prod.map_fst, Prod.map_snd, id_eq,
        List.length_cons]
      ring

/-- The cost is the sum over the code of weight times length of codeword, which is the size of a
text written in that code. -/
theorem cost_eq_sum (t : BinTree α) :
    cost w t = ((codes t).map (fun c => w c.1 * c.2.length)).sum := by
  induction t with
  | leaf a => simp [cost, codes]
  | node l r ihl ihr =>
      rw [cost, codes, List.map_append, List.sum_append, sum_cons, sum_cons, map_fst_codes,
        map_fst_codes, ← weight_eq_sum, ← weight_eq_sum, ihl, ihr]
      ring

end Weights

end CourseLabs.PrefixTree
