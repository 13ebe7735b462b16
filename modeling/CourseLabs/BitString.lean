/-
**Numbers as bit strings**, most significant bit first.

`lowBits x k` are the low `k` bits of `x`, and `pushBits v l` is `v` with the bits of `l`
pushed in from the right, the way a reader accumulates them. A byte is its eight bits
(`byteBits`).
-/
import Mathlib.Data.Nat.Bitwise
import Mathlib.Tactic.Linarith
import Mathlib.Tactic.Ring

set_option autoImplicit false

namespace CourseLabs.BitString

/-- The lowest bits of a number, the highest of them first, which is the order the writer takes
them in. -/
def lowBits (x : ℕ) : ℕ → List Bool
  | 0 => []
  | k + 1 => x.testBit k :: lowBits x k

/-- Bits shifted into a number from the right. -/
def pushBits (v : ℕ) : List Bool → ℕ
  | [] => v
  | b :: l => pushBits (2 * v + b.toNat) l

/-- The eight bits of a byte, the highest first. -/
def byteBits (b : UInt8) : List Bool :=
  lowBits b.toNat 8

section Bits

variable {x k : ℕ}

/-- As many bits as were asked for. -/
@[simp] theorem length_lowBits (x k : ℕ) : (lowBits x k).length = k := by
  induction k with
  | zero => rfl
  | succ k ih => rw [lowBits, List.length_cons, ih]

/-- A byte has eight bits. -/
@[simp] theorem length_byteBits (b : UInt8) : (byteBits b).length = 8 :=
  length_lowBits _ _

/-- A file has eight times as many bits as bytes. -/
theorem length_flatMap_byteBits (l : List UInt8) : (l.flatMap byteBits).length = 8 * l.length := by
  induction l with
  | nil => rfl
  | cons b l ih =>
      rw [List.flatMap_cons, List.length_append, length_byteBits, ih, List.length_cons]
      omega

/-- Two numbers that agree on their lowest bits have the same ones. -/
theorem lowBits_congr {y : ℕ} (h : ∀ i, i < k → x.testBit i = y.testBit i) :
    lowBits x k = lowBits y k := by
  induction k with
  | zero => rfl
  | succ k ih => rw [lowBits, lowBits, h k (by omega), ih (fun i hi => h i (by omega))]

/-- No bits set: a string of zeros. -/
theorem lowBits_eq_replicate (h : ∀ i, i < k → x.testBit i = false) :
    lowBits x k = List.replicate k false := by
  induction k with
  | zero => rfl
  | succ k ih =>
      rw [lowBits, h k (by omega), ih (fun i hi => h i (by omega)), List.replicate_succ]

/-- The high bits of a string are the low bits of the number shifted. -/
theorem lowBits_add (x j k : ℕ) : lowBits x (j + k) = lowBits (x >>> k) j ++ lowBits x k := by
  induction j with
  | zero => rw [Nat.zero_add, lowBits, List.nil_append]
  | succ j ih =>
      rw [Nat.succ_add, lowBits, lowBits, ih, Nat.testBit_shiftRight, Nat.add_comm k j]
      rfl

/-- Shifting by one place less brings the next bit in. -/
theorem two_mul_shiftRight_add (x k : ℕ) :
    2 * (x >>> (k + 1)) + (x.testBit k).toNat = x >>> k := by
  have hdiv : x >>> (k + 1) = x >>> k / 2 := by
    rw [Nat.shiftRight_succ]
  have hbit : (x.testBit k).toNat = x >>> k % 2 := by
    rw [Nat.toNat_testBit, Nat.shiftRight_eq_div_pow]
  rw [hdiv, hbit]
  omega

/-- To push the low bits onto the others gives the number back. -/
theorem pushBits_lowBits (x k : ℕ) : pushBits (x >>> k) (lowBits x k) = x := by
  induction k with
  | zero => rfl
  | succ k ih => rw [lowBits, pushBits, two_mul_shiftRight_add, ih]

/-- A number is put together from its bits, if there are as many as it needs. -/
theorem pushBits_lowBits_of_lt (h : x < 2 ^ k) : pushBits 0 (lowBits x k) = x := by
  have hzero : x >>> k = 0 := Nat.shiftRight_eq_zero x k h
  have := pushBits_lowBits x k
  rwa [hzero] at this

/-- What is shifted in does not change what was there, only its place. -/
theorem pushBits_eq (v : ℕ) (l : List Bool) : pushBits v l = v * 2 ^ l.length + pushBits 0 l := by
  induction l generalizing v with
  | nil => simp [pushBits]
  | cons b l ih =>
      rw [pushBits, pushBits, ih, ih (2 * 0 + b.toNat), List.length_cons, pow_succ]
      ring

/-- A number put together from bits is below the power of two for their count. -/
theorem pushBits_lt (l : List Bool) : pushBits 0 l < 2 ^ l.length := by
  induction l with
  | nil => simp [pushBits]
  | cons b l ih =>
      have hb := Bool.toNat_le b
      have hle : b.toNat * 2 ^ l.length ≤ 1 * 2 ^ l.length := Nat.mul_le_mul_right _ hb
      rw [pushBits, pushBits_eq, List.length_cons, pow_succ, mul_zero, zero_add]
      omega

/-- The bits pushed in are the low bits of the result. -/
theorem lowBits_pushBits (v : ℕ) (l : List Bool) : lowBits (pushBits v l) l.length = l := by
  induction l generalizing v with
  | nil => rfl
  | cons b l ih =>
      have htop : (pushBits (2 * v + b.toNat) l).testBit l.length = b := by
        have hlt := pushBits_lt l
        rw [Nat.testBit_eq_decide_div_mod_eq, pushBits_eq,
          Nat.add_comm, Nat.add_mul_div_right _ _ (Nat.two_pow_pos _), Nat.div_eq_of_lt hlt]
        cases b with
        | false => simp
        | true => simp [Nat.add_mod]
      rw [pushBits, List.length_cons, lowBits, htop, ih]

/-- An or with a bit below an even number adds it. -/
theorem two_mul_or_toNat (v : ℕ) (b : Bool) : 2 * v ||| b.toNat = 2 * v + b.toNat := by
  cases b with
  | false => rw [Bool.toNat_false, Nat.or_zero, Nat.add_zero]
  | true =>
      have := Nat.two_pow_add_eq_or_of_lt (i := 1) (b := 1) (by decide) v
      rw [pow_one] at this
      exact this.symm

/-- The bits of a byte made of a number are the lowest eight of that number. -/
theorem testBit_ofNat_byte {n i : ℕ} (hi : i < 8) :
    (UInt8.ofNat n).toNat.testBit i = n.testBit i := by
  rw [UInt8.toNat_ofNat', Nat.testBit_mod_two_pow]
  simp [hi]

/-- Eight bits make a byte. -/
theorem byteBits_ofNat_pushBits {l : List Bool} (h : l.length = 8) :
    byteBits (UInt8.ofNat (pushBits 0 l)) = l := by
  rw [byteBits, lowBits_congr (y := pushBits 0 l) (fun i hi => testBit_ofNat_byte hi), ← h,
    lowBits_pushBits]

/-- The first bits of a byte. -/
theorem take_byteBits (b : UInt8) {k : ℕ} (hk : k ≤ 8) :
    (byteBits b).take k = lowBits (b.toNat >>> (8 - k)) k := by
  have hsplit := lowBits_add b.toNat k (8 - k)
  rw [Nat.add_sub_cancel' hk] at hsplit
  rw [byteBits, hsplit, List.take_left' (length_lowBits _ _)]

/-- One bit more of a byte, from the left. -/
theorem take_byteBits_succ (b : UInt8) {k : ℕ} (hk : k < 8) :
    (byteBits b).take (k + 1) = (byteBits b).take k ++ [b.toNat.testBit (7 - k)] := by
  have hlast := lowBits_add (b.toNat >>> (7 - k)) k 1
  rw [take_byteBits b hk, take_byteBits b hk.le, show 8 - (k + 1) = 7 - k by omega, hlast,
    ← Nat.shiftRight_add, show 7 - k + 1 = 8 - k by omega, lowBits, lowBits,
    Nat.testBit_shiftRight, Nat.add_zero]

/-- A byte whose last bits are clear is its first bits and zeros. -/
theorem byteBits_eq_take {b : UInt8} {k : ℕ} (hk : k ≤ 8)
    (h : ∀ i, i < 8 - k → b.toNat.testBit i = false) :
    byteBits b = (byteBits b).take k ++ List.replicate (8 - k) false := by
  have hsplit := lowBits_add b.toNat k (8 - k)
  rw [Nat.add_sub_cancel' hk, lowBits_eq_replicate h] at hsplit
  rw [take_byteBits b hk]
  exact hsplit

/-- Different bytes have different bits. -/
theorem byteBits_injective : Function.Injective byteBits := by
  intro a b h
  have ha := pushBits_lowBits_of_lt (k := 8) a.toNat_lt
  have hb := pushBits_lowBits_of_lt (k := 8) b.toNat_lt
  rw [byteBits, byteBits] at h
  rw [h, hb] at ha
  exact UInt8.toNat_inj.mp ha.symm

end Bits

end CourseLabs.BitString
