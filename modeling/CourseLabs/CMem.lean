/-
**Memory**: the arrays and buffers of the C programs.

An array whose indices are in range by construction is a total map, updated with
`upd`. A buffer whose size matters is a list of exactly that many cells: a read is
`b[i]?`, a write is `store`, and both are `none` outside the buffer, where C is
undefined. A `char` is a character below `256`, and a string ends at its first `NUL`.
A pointer to a string, as an argument, is the list of its characters without the `NUL`.
-/
import Mathlib.Data.Int.Notation
import Mathlib.Data.List.TakeWhile
import Mathlib.Tactic.Common

set_option autoImplicit false

namespace CourseLabs.CMem

section Upd

variable {α : Type}

/-- `a[i] = x` -/
def upd (a : ℕ → α) (i : ℕ) (x : α) : ℕ → α :=
  fun k => if k = i then x else a k

@[simp] theorem upd_same (a : ℕ → α) (i : ℕ) (x : α) : upd a i x i = x :=
  if_pos rfl

theorem upd_other {a : ℕ → α} {i k : ℕ} {x : α} (h : k ≠ i) : upd a i x k = a k :=
  if_neg h

end Upd

section Buffer

variable {α : Type}

/-- `b[i] = x`. A write outside of the array is undefined behaviour, so there is no result, and a
function that has one has stayed inside. -/
def store (b : List α) (i : ℕ) (x : α) : Option (List α) :=
  if i < b.length then some (b.set i x) else none

/-- A write inside the array. -/
theorem store_of_lt {b : List α} {i : ℕ} (h : i < b.length) (x : α) :
    store b i x = some (b.set i x) :=
  if_pos h

/-- A write changes no length, so an array keeps its size through a whole run. -/
theorem length_of_store {b b' : List α} {i : ℕ} {x : α} (h : store b i x = some b') :
    b'.length = b.length := by
  rw [store] at h
  split at h
  · cases h
    exact List.length_set
  · cases h

/-- `n` elements of `src` copied into an array of that size. -/
def memcpy (src : List α) (n : ℕ) : Option (List α) :=
  if n ≤ src.length then some (src.take n) else none

/-- A copy of no more than there is, so that every element that is read belongs to the source
array. -/
theorem memcpy_of_le {src : List α} {n : ℕ} (h : n ≤ src.length) :
    memcpy src n = some (src.take n) :=
  if_pos h

/-- An index that may be negative: the expression is an `int`, and no array has a cell in front of
the first. -/
def idx (z : ℤ) : Option ℕ :=
  if 0 ≤ z then some z.toNat else none

/-- An index that is not negative is itself. -/
theorem idx_natCast (n : ℕ) : idx (n : ℤ) = some n :=
  if_pos (Int.natCast_nonneg n)

/-- The cell behind `pre`, in the form the loops meet it: the part that is done, the element under
way, the rest. -/
theorem getElem?_append_cons (pre : List α) (x : α) (rest : List α) :
    (pre ++ x :: rest)[pre.length]? = some x := by
  rw [List.getElem?_append_right (Nat.le_refl _), Nat.sub_self, List.getElem?_cons_zero]

/-- Reading from the middle of an array that is given in three parts. -/
theorem getElem?_append_middle (pre : List α) {mid : List α} (post : List α) {k : ℕ}
    (h : k < mid.length) : (pre ++ mid ++ post)[pre.length + k]? = some mid[k] := by
  have hin : pre.length + k < (pre ++ mid).length := by
    rw [List.length_append]
    omega
  rw [List.getElem?_append_left hin, List.getElem?_append_right (Nat.le_add_right _ _),
    Nat.add_sub_cancel_left, List.getElem?_eq_getElem h]

/-- The write that proofs about buffers use: the cell behind a known prefix. -/
theorem store_append_cons (pre : List α) (x y : α) (rest : List α) :
    store (pre ++ x :: rest) pre.length y = some (pre ++ y :: rest) := by
  rw [store_of_lt, List.set_append_right _ _ (Nat.le_refl _), Nat.sub_self, List.set_cons_zero]
  rw [List.length_append, List.length_cons]
  omega

/-- A buffer filled from the front: one more cell. -/
theorem store_prefix {b done : List α} (h : done <+: b) (hlt : done.length < b.length) (x : α) :
    ∃ b', store b done.length x = some b' ∧ done ++ [x] <+: b' ∧ b'.length = b.length := by
  obtain ⟨rest, rfl⟩ := h
  cases rest with
  | nil => simp at hlt
  | cons y rest => exact ⟨_, store_append_cons done y x rest, ⟨rest, by simp⟩, by simp⟩

end Buffer

section Chars

/-- The value of a (signed) `char` in an expression. -/
def charVal (c : Char) : ℤ :=
  if c.toNat < 128 then (c.toNat : ℤ) else (c.toNat : ℤ) - 256

/-- An `int` stored in a `char`: the low eight bits of it are kept. -/
def toChar (z : ℤ) : Char :=
  Char.ofNat (z % 256).toNat

/-- The character that ends a string. An array may contain others behind it, which the functions on
strings do not see. -/
def NUL : Char := Char.ofNat 0

/-- The string a buffer holds: what stands before its first `NUL`. -/
def cstr (b : List Char) : List Char :=
  b.takeWhile (fun c => c ≠ NUL)

/-- `strlen`, of the string in a buffer. Without a `NUL` it would read on behind the array, so
there is no result. -/
def strlen (b : List Char) : Option ℕ :=
  if NUL ∈ b then some (cstr b).length else none

/-- `printf("%s", b)`: what is printed. It is undefined where `strlen` is. -/
def print_string (b : List Char) : Option (List Char) := do
  let len ← strlen b
  some (b.take len)

/-- `s[i]`, of a string that has its `NUL`: the cell behind the characters may be read, and none
beyond it. -/
def charAt (s : List Char) (i : ℕ) : Option Char :=
  (s ++ [NUL])[i]?

/-- `isspace` -/
def isspace (c : Char) : Bool :=
  c = ' ' ∨ 9 ≤ c.toNat ∧ c.toNat ≤ 13

/-- `strrchr`: the memory from the last `c` of the string on. -/
def strrchr : List Char → Char → Option (List Char)
  | [], _ => none
  | x :: b, c =>
    if x = NUL then
      none
    else
      match strrchr b c with
      | some p => some p
      | none => if x = c then some (x :: b) else none

/-- `strcspn`: how far the string goes before one of the rejected characters, or to its end. -/
def strcspn (b reject : List Char) : ℕ :=
  ((cstr b).takeWhile fun c => c ∉ reject).length

/-- `strcpy`, of a string into a buffer, which must have room for its `NUL` too. The cells behind
it stay. -/
def strcpy (dst s : List Char) : Option (List Char) :=
  if s.length < dst.length then some (s ++ NUL :: dst.drop (s.length + 1)) else none

/-- `strncpy`: `n` characters, filled up with `NUL` from the end of the source string on. -/
def strncpy (dst src : List Char) (n : ℕ) : Option (List Char) :=
  if n ≤ dst.length ∧ (NUL ∈ src ∨ n ≤ src.length) then
    some ((cstr src).take n ++ List.replicate (n - (cstr src).length) NUL ++ dst.drop n)
  else
    none

/-- `snprintf` with the buffer's size, of the formatted string. -/
def snprintf (dst s : List Char) : List Char :=
  if dst.length = 0 then
    dst
  else
    s.take (dst.length - 1) ++ NUL :: dst.drop ((s.take (dst.length - 1)).length + 1)

/-- There are buffers of any length, for witnesses. -/
theorem exists_buffer (n : ℕ) : ∃ b : List Char, n < b.length :=
  ⟨List.replicate (n + 1) NUL, by rw [List.length_replicate]; exact Nat.lt_succ_self n⟩

/-- The character behind a prefix of a string. -/
theorem charAt_append_cons (pre : List Char) (c : Char) (s : List Char) :
    charAt (pre ++ c :: s) pre.length = some c := by
  rw [charAt, List.append_assoc, List.cons_append, getElem?_append_cons]

/-- Behind its last character a string has its `NUL`, which may be read. -/
theorem charAt_length (s : List Char) : charAt s s.length = some NUL :=
  getElem?_append_cons s NUL []

/-- The next character of a string, or its `NUL`. -/
theorem charAt_append (pre t : List Char) :
    charAt (pre ++ t) pre.length = some (t.headD NUL) := by
  cases t with
  | nil =>
      rw [List.append_nil]
      exact charAt_length pre
  | cons c t => exact charAt_append_cons pre c t

/-- One further there is nothing to read: a loop that looks there has no result. -/
theorem charAt_past {s : List Char} {i : ℕ} (h : s.length < i) : charAt s i = none := by
  rw [charAt, List.getElem?_eq_none_iff, List.length_append, List.length_singleton]
  exact h

/-- What stands behind the first `NUL` is not part of the string. -/
theorem cstr_append_nul {s : List Char} (h : ∀ c ∈ s, c ≠ NUL) (rest : List Char) :
    cstr (s ++ NUL :: rest) = s := by
  rw [cstr, List.takeWhile_append_of_pos (by simpa using h)]
  simp

/-- A string that stands at the front of a buffer with its `NUL` is the string of the buffer. -/
theorem cstr_of_prefix {s b : List Char} (h : ∀ c ∈ s, c ≠ NUL) (hb : s ++ [NUL] <+: b) :
    cstr b = s := by
  obtain ⟨rest, rfl⟩ := hb
  rw [List.append_assoc]
  exact cstr_append_nul h rest

/-- A string has no `NUL` in it. -/
theorem cstr_ne_nul {b : List Char} : ∀ c ∈ cstr b, c ≠ NUL := by
  intro c hc
  simpa using List.all_eq_true.mp (@List.all_takeWhile _ _ b) c hc

theorem cstr_of_ne_nul {s : List Char} (h : ∀ c ∈ s, c ≠ NUL) : cstr s = s :=
  List.takeWhile_eq_self_iff.mpr (by simpa using h)

/-- Without a `NUL` in the first part the string goes on into the second. -/
theorem cstr_append_of_not_mem {s : List Char} (h : NUL ∉ s) (t : List Char) :
    cstr (s ++ t) = s ++ cstr t :=
  List.takeWhile_append_of_pos fun c hc => by simpa using fun heq : c = NUL => h (heq ▸ hc)

/-- The string at the start of memory with a `NUL` in it. -/
theorem exists_cstr_append (b rest : List Char) :
    ∃ rest', b ++ NUL :: rest = cstr b ++ NUL :: rest' := by
  induction b with
  | nil => exact ⟨rest, rfl⟩
  | cons c b ih =>
      obtain ⟨rest', hrest⟩ := ih
      by_cases hc : c = NUL
      · exact ⟨b ++ NUL :: rest, by simp [cstr, hc]⟩
      · refine ⟨rest', ?_⟩
        rw [cstr, List.takeWhile_cons_of_pos (by simpa using hc), List.cons_append,
          List.cons_append, hrest, cstr]

/-- A buffer with a `NUL` in it is its string, the `NUL`, and a rest. -/
theorem exists_cstr_split {b : List Char} (h : NUL ∈ b) : ∃ rest, b = cstr b ++ NUL :: rest := by
  obtain ⟨s, t, rfl⟩ := List.append_of_mem h
  obtain ⟨rest, hrest⟩ := exists_cstr_append s t
  have hcstr : cstr (s ++ NUL :: t) = cstr s := by
    rw [hrest]
    exact cstr_append_nul cstr_ne_nul rest
  exact ⟨rest, by rw [hcstr, hrest]⟩

theorem cstr_append_of_mem {s : List Char} (h : NUL ∈ s) (t : List Char) :
    cstr (s ++ t) = cstr s := by
  obtain ⟨rest, hrest⟩ := exists_cstr_split h
  conv_lhs => rw [hrest, List.append_assoc, List.cons_append]
  exact cstr_append_nul cstr_ne_nul (rest ++ t)

/-- `strncpy` with room for one more `NUL`, which is put behind: a string in any case. -/
theorem strncpy_store_spec {dst s : List Char} {n : ℕ} (hdst : dst.length = n + 1)
    (hs : ∀ c ∈ s, c ≠ NUL) (rest : List Char) :
    ∃ copy b, strncpy dst (s ++ NUL :: rest) n = some copy ∧ store copy n NUL = some b
      ∧ cstr b = s.take n ∧ b.length = n + 1 := by
  obtain ⟨x, hx⟩ : ∃ x, dst.drop n = [x] := by
    rw [← List.length_eq_one_iff, List.length_drop, hdst]
    omega
  have hlen : (s.take n ++ List.replicate (n - s.length) NUL).length = n := by
    rw [List.length_append, List.length_take, List.length_replicate]
    omega
  have hstore := store_append_cons (s.take n ++ List.replicate (n - s.length) NUL) x NUL []
  rw [hlen] at hstore
  refine ⟨_, _, ?_, hstore, ?_, ?_⟩
  · rw [strncpy, cstr_append_nul hs, if_pos ⟨by omega, Or.inl (by simp)⟩, hx]
  · rw [List.append_assoc, ← List.replicate_succ', List.replicate_succ]
    exact cstr_append_nul (fun c hc => hs c (List.mem_of_mem_take hc)) _
  · rw [List.length_append, hlen, List.length_singleton]

/-- A buffer longer than its string has the `NUL` of it. -/
theorem strlen_of_lt {b : List Char} (h : (cstr b).length < b.length) :
    strlen b = some (cstr b).length := by
  rw [strlen, if_pos]
  by_contra hnul
  rw [cstr_of_ne_nul fun c hc heq => hnul (heq ▸ hc)] at h
  exact Nat.lt_irrefl _ h

/-- A string that ends inside its array can be printed. -/
theorem print_string_of_lt {b : List Char} (h : (cstr b).length < b.length) :
    print_string b = some (cstr b) := by
  rw [print_string, strlen_of_lt h, Option.bind_eq_bind, Option.bind_some]
  exact congrArg some (List.prefix_iff_eq_take.mp (List.takeWhile_prefix _)).symm

theorem print_string_isSome {b : List Char} (h : NUL ∈ b) : (print_string b).isSome := by
  rw [print_string, strlen, if_pos h]
  rfl

/-- Without a `NUL` the read leaves the array, and the call has no result. -/
theorem print_string_none {b : List Char} (h : NUL ∉ b) : print_string b = none := by
  rw [print_string, strlen, if_neg h]
  rfl

theorem print_string_append_nul {s : List Char} (h : ∀ c ∈ s, c ≠ NUL) (rest : List Char) :
    print_string (s ++ NUL :: rest) = some s := by
  rw [print_string, strlen, if_pos (by simp), cstr_append_nul h, Option.bind_eq_bind,
    Option.bind_some, List.take_left]

/-- A `NUL` stored inside a string cuts it, and what stood behind is still in the buffer. -/
theorem cstr_set_nul {b : List Char} {k : ℕ} (hk : k ≤ (cstr b).length) (hlt : k < b.length) :
    cstr (b.set k NUL) = (cstr b).take k := by
  have htake : b.take k = (cstr b).take k := by
    obtain ⟨rest, hrest⟩ := List.takeWhile_prefix (l := b) fun c => c ≠ NUL
    change cstr b ++ rest = b at hrest
    conv_lhs => rw [← hrest, List.take_append_of_le_length hk]
  rw [List.set_eq_take_append_cons_drop, if_pos hlt, htake]
  exact cstr_append_nul (fun c hc => cstr_ne_nul c (List.mem_of_mem_take hc)) _

/-- A string that fits is printed whole, with its `NUL`; the rest of the buffer is of no interest.
-/
theorem snprintf_prefix {dst s : List Char} (h : s.length < dst.length) :
    s ++ [NUL] <+: snprintf dst s := by
  unfold snprintf
  rw [if_neg (by omega), List.take_of_length_le (by omega)]
  exact ⟨_, by rw [List.append_assoc, List.singleton_append]⟩

end Chars

/-! ## Binary strings -/

section Digits

/-- The character of a bit, as the programs read and print them. -/
def digit (x : Bool) : Char :=
  if x then '1' else '0'

/-- A string of `'0'` and `'1'`: the inputs that the programs on bits are for. -/
def Binary (s : List Char) : Prop :=
  ∀ c ∈ s, c = '0' ∨ c = '1'

/-- The bits of a binary string. -/
def bits (s : List Char) : List Bool :=
  s.map (fun c => c = '1')

theorem digit_ne_nul (x : Bool) : digit x ≠ NUL := by
  cases x with
  | false => decide
  | true => decide

theorem digit_injective : Function.Injective digit := by
  intro x y h
  cases x with
  | false =>
      cases y with
      | false => rfl
      | true => exact absurd h (by decide)
  | true =>
      cases y with
      | false => exact absurd h (by decide)
      | true => rfl

/-- Characters `'0'` and `'1'` stand for bits and back again. -/
theorem bits_digit (w : List Bool) : bits (w.map digit) = w := by
  rw [bits, List.map_map]
  convert List.map_id w
  funext x
  cases x with
  | false => rfl
  | true => rfl

theorem binary_digit (w : List Bool) : Binary (w.map digit) := by
  intro c hc
  obtain ⟨x, -, rfl⟩ := List.mem_map.mp hc
  cases x with
  | false => exact Or.inl rfl
  | true => exact Or.inr rfl

/-- A string of zeros and ones is one of bits, so that proofs can be about the bits. -/
theorem Binary.exists_bits {s : List Char} (h : Binary s) : ∃ w : List Bool, s = w.map digit := by
  induction s with
  | nil => exact ⟨[], rfl⟩
  | cons c s ih =>
      obtain ⟨w, rfl⟩ := ih (fun c hc => h c (List.mem_cons_of_mem _ hc))
      rcases h c List.mem_cons_self with rfl | rfl
      · exact ⟨false :: w, rfl⟩
      · exact ⟨true :: w, rfl⟩

/-- A buffer that starts with a binary string and a `NUL` holds that string. -/
theorem cstr_digits (w : List Bool) (rest : List Char) :
    cstr (w.map digit ++ NUL :: rest) = w.map digit := by
  apply cstr_append_nul
  intro c hc
  obtain ⟨x, -, rfl⟩ := List.mem_map.mp hc
  exact digit_ne_nul x

end Digits

end CourseLabs.CMem
