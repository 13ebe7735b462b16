/-
`checksum.c`: the Internet checksum.

Sender and receiver add the words in a `uint32_t`, which wraps, and fold the carries. A
wrapped sum is still the same number on both sides, and the complement of a folded number
takes it to a multiple of `65535` that is not past `2 ^ 32 - 1`, itself one; so the last
addition does not wrap and the receiver folds to `0xFFFF`.

Up to `65537` words the sum itself does not wrap, since `65537 * 65535 = 2 ^ 32 - 1`. Then
the receiver accepts exactly the positive multiples of `65535`, and the sender's number is
the complement of the sum with end-around carries.
-/
import CourseLabs.CLoop
import CourseLabs.OnesComplement

set_option autoImplicit false

namespace CourseLabs.Checksum

open CourseLabs.CLoop CourseLabs.OnesComplement

/-! ## The program -/

/-- `for (size_t i = 0; i < count; i++) sum += words[i];` from `sum = 0`. -/
def sum_words (words : List UInt16) (count : ℕ) : Option ℕ :=
  forLoop 0 count 0 (fun i sum => do
    let word ← words[i]?
    some ((sum + word.toNat) % 2 ^ 32))

/-- `while (sum >> 16) sum = (sum & 0xFFFF) + (sum >> 16);` -/
def fold_body (sum : ℕ) : Option (Pass ℕ ℕ) :=
  if sum >>> 16 ≠ 0 then
    some (.next (((sum &&& 0xFFFF) + (sum >>> 16)) % 2 ^ 32))
  else
    some (.done sum)

def compute_checksum (words : List UInt16) (count : ℕ) : Option UInt16 := do
  let sum ← sum_words words count
  let sum ← loop fold_body sum
  some (UInt16.ofNat ((2 ^ 32 - 1 - sum) &&& 0xFFFF))

def verify_checksum (words : List UInt16) (count : ℕ) (checksum : UInt16) : Option ℤ := do
  let sum ← sum_words words count
  let sum ← loop fold_body ((sum + checksum.toNat) % 2 ^ 32)
  some (if sum = 0xFFFF then 1 else 0)

/-! ## The two loops -/

section Loops

/-- The accumulator is the sum of the words, modulo `2 ^ 32`. -/
theorem sum_words_spec {words : List UInt16} {count : ℕ} (hcount : count ≤ words.length) :
    sum_words words count = some (((words.take count).map UInt16.toNat).sum % 2 ^ 32) := by
  obtain ⟨sum, hrun, hsum⟩ := @forLoop_spec ℕ 0 count
    (fun i sum => do
      let word ← words[i]?
      some ((sum + word.toNat) % 2 ^ 32))
    (fun i sum => sum = ((words.take i).map UInt16.toNat).sum % 2 ^ 32) 0
    (Nat.zero_le count) rfl (by
      rintro i sum - hi rfl
      have hlt : i < words.length := by omega
      rw [List.getElem?_eq_getElem hlt]
      refine ⟨_, rfl, ?_⟩
      rw [List.take_succ_eq_append_getElem hlt, List.map_append, List.sum_append,
        List.map_singleton, List.sum_singleton, Nat.mod_add_mod])
  rw [sum_words, hrun, hsum]

/-- A pass that finds carries: they are added to the low half, which makes the sum smaller and
keeps its residue. -/
theorem fold_body_next {t : ℕ} (ht : t < 2 ^ 32) (hcarry : 2 ^ 16 ≤ t) :
    fold_body t = some (.next (t % 2 ^ 16 + t / 2 ^ 16)) := by
  have hfold := fold_lt (w := 16) (by decide) hcarry
  have hquot : t / 2 ^ 16 ≠ 0 := by omega
  rw [fold_body, Nat.shiftRight_eq_div_pow, if_pos hquot,
    show (0xFFFF : ℕ) = 2 ^ 16 - 1 from rfl, Nat.and_two_pow_sub_one_eq_mod,
    Nat.mod_eq_of_lt (by omega)]

theorem fold_body_done {t : ℕ} (ht : t < 2 ^ 16) : fold_body t = some (.done t) := by
  rw [fold_body, Nat.shiftRight_eq_div_pow, Nat.div_eq_of_lt ht]
  rfl

/-- The folding loop ends, and what it ends in is the residue of the accumulator. -/
theorem fold_spec {s : ℕ} (hs : s < 2 ^ 32) :
    loop fold_body s = some (residue (2 ^ 16 - 1) s) := by
  obtain ⟨t, hrun, ht⟩ := @loop_spec ℕ ℕ fold_body id
    (fun t => t < 2 ^ 32 ∧ residue (2 ^ 16 - 1) t = residue (2 ^ 16 - 1) s)
    (fun t => t = residue (2 ^ 16 - 1) s) (by
      rintro t ⟨hlt, hres⟩
      rcases Nat.lt_or_ge t (2 ^ 16) with hsmall | hcarry
      · left
        exact ⟨t, fold_body_done hsmall, by rw [← hres, residue_of_le (by omega)]⟩
      · right
        have hfold := fold_lt (w := 16) (by decide) hcarry
        exact ⟨_, fold_body_next hlt hcarry, ⟨by omega, by rw [residue_fold, hres]⟩, hfold⟩)
    s ⟨hs, rfl⟩
  rw [hrun, ht]

/-- `(uint16_t)(~sum & 0xFFFF)`, of a folded sum. -/
theorem complement_spec {t : ℕ} (ht : t ≤ 2 ^ 16 - 1) :
    (UInt16.ofNat ((2 ^ 32 - 1 - t) &&& 0xFFFF)).toNat = 2 ^ 16 - 1 - t := by
  rw [show (0xFFFF : ℕ) = 2 ^ 16 - 1 from rfl, Nat.and_two_pow_sub_one_eq_mod,
    UInt16.toNat_ofNat', Nat.mod_mod]
  omega

end Loops

/-! ## The receiver accepts -/

/-- **Every correct checksum is accepted**, whatever the words and however many there are: where
the 32-bit sum of the words has wrapped around, it has done so on both sides. -/
theorem checksum_accepted {words : List UInt16} {count : ℕ} (hcount : count ≤ words.length) :
    ∃ c, compute_checksum words count = some c ∧ verify_checksum words count c = some 1 := by
  have hsum := sum_words_spec hcount
  generalize ((words.take count).map UInt16.toNat).sum = total at hsum
  have hlt : total % 2 ^ 32 < 2 ^ 32 := Nat.mod_lt _ (Nat.two_pow_pos 32)
  generalize total % 2 ^ 32 = s at hsum hlt
  have hle : residue (2 ^ 16 - 1) s ≤ 2 ^ 16 - 1 := residue_le (by decide) s
  refine ⟨UInt16.ofNat ((2 ^ 32 - 1 - residue (2 ^ 16 - 1) s) &&& 0xFFFF), ?_, ?_⟩
  · unfold compute_checksum
    rw [hsum, Option.bind_eq_bind, Option.bind_some, fold_spec hlt]
    rfl
  -- `2 ^ 32 - 1` is a multiple of `65535`, so the sum with the complement is not past it
  · have hfits : s + (2 ^ 16 - 1 - residue (2 ^ 16 - 1) s) ≤ (2 ^ 16 - 1) * (2 ^ 16 + 1) :=
      add_complement_le (by decide) (by decide) (by omega)
    have hadd : s + (2 ^ 16 - 1 - residue (2 ^ 16 - 1) s) < 2 ^ 32 := by omega
    unfold verify_checksum
    rw [hsum, Option.bind_eq_bind, Option.bind_some, complement_spec hle,
      Nat.mod_eq_of_lt hadd, fold_spec hadd, residue_add_complement (by decide)]
    rfl

/-- The default data of `main`. -/
theorem checksum_accepted_main :
    ∃ c, compute_checksum [0x4500, 0x003c, 0x1c46, 0x4000, 0, 0, 0, 0] 4 = some c ∧
      verify_checksum [0x4500, 0x003c, 0x1c46, 0x4000, 0, 0, 0, 0] 4 c = some 1 :=
  checksum_accepted (by decide)

/-! ## Sums that do not wrap -/

section Sums

variable {words : List UInt16} {count : ℕ}

/-- The sum of the first `count` words. -/
def total (words : List UInt16) (count : ℕ) : ℕ :=
  ((words.take count).map UInt16.toNat).sum

theorem sum_toNat_le (words : List UInt16) :
    (words.map UInt16.toNat).sum ≤ words.length * (2 ^ 16 - 1) := by
  induction words with
  | nil => exact Nat.zero_le _
  | cons word words ih =>
      have := word.toNat_lt
      rw [List.map_cons, List.sum_cons, List.length_cons, Nat.succ_mul]
      omega

theorem total_le (words : List UInt16) (count : ℕ) : total words count ≤ count * (2 ^ 16 - 1) := by
  have hlen : (words.take count).length ≤ count := List.length_take_le count words
  exact le_trans (sum_toNat_le _) (Nat.mul_le_mul_right _ hlen)

theorem sum_words_total (hcount : count ≤ words.length) (hsize : count ≤ 65537) :
    sum_words words count = some (total words count) := by
  have hle := total_le words count
  rw [sum_words_spec hcount, ← total, Nat.mod_eq_of_lt (by omega)]

theorem compute_checksum_total (hcount : count ≤ words.length) (hsize : count ≤ 65537) :
    ∃ c, compute_checksum words count = some c
      ∧ c.toNat = 2 ^ 16 - 1 - residue (2 ^ 16 - 1) (total words count) := by
  have hle := total_le words count
  refine ⟨_, ?_, complement_spec (residue_le (by decide) (total words count))⟩
  rw [compute_checksum, sum_words_total hcount hsize, Option.bind_eq_bind, Option.bind_some,
    fold_spec (by omega)]
  rfl

/-- The receiver accepts the positive multiples of `65535`, where no addition wraps around: zero is
the only multiple that does not fold to `0xFFFF`. -/
theorem verify_checksum_total (hcount : count ≤ words.length) (hsize : count ≤ 65536)
    (c : UInt16) : verify_checksum words count c
      = some (if 0 < total words count + c.toNat
          ∧ 2 ^ 16 - 1 ∣ total words count + c.toNat then 1 else 0) := by
  have hle := total_le words count
  have hc := c.toNat_lt
  have hfits : total words count + c.toNat < 2 ^ 32 := by omega
  rw [verify_checksum, sum_words_total hcount (by omega), Option.bind_eq_bind, Option.bind_some,
    Nat.mod_eq_of_lt hfits, fold_spec hfits, Option.bind_some]
  simp only [← residue_eq_self_iff (show 0 < 2 ^ 16 - 1 by decide)]
  rfl

end Sums

/-! ## One value replaced -/

section Replaced

variable {words words' : List UInt16} {count : ℕ} {c c' old new : UInt16}

/-- The two representations of zero, one put in the place of the other: the only change of a word
that the sum does not show. -/
def BothZeros (old new : UInt16) : Prop :=
  (old = 0 ∧ new = 0xFFFF) ∨ (old = 0xFFFF ∧ new = 0)

theorem sum_set (words : List UInt16) {i : ℕ} (hi : words[i]? = some old) (new : UInt16) :
    ((words.set i new).map UInt16.toNat).sum + old.toNat
      = (words.map UInt16.toNat).sum + new.toNat := by
  induction words generalizing i with
  | nil => cases hi
  | cons word words ih =>
      cases i with
      | zero =>
          obtain rfl := Option.some.inj hi
          rw [List.set_cons_zero, List.map_cons, List.map_cons, List.sum_cons, List.sum_cons]
          omega
      | succ i =>
          have := ih (i := i) hi
          rw [List.set_cons_succ, List.map_cons, List.map_cons, List.sum_cons, List.sum_cons]
          omega

theorem total_set {i : ℕ} (hi : i < count) (hold : words[i]? = some old) (new : UInt16) :
    total (words.set i new) count + old.toNat = total words count + new.toNat := by
  rw [total, total, List.take_set]
  exact sum_set _ (by rwa [List.getElem?_take_of_lt hi]) new

/-- A value exchanged for another one takes an accepted sum away from the multiples. -/
theorem verify_checksum_replaced (hcount : count ≤ words.length) (hcount' : count ≤ words'.length)
    (hsize : count ≤ 65536) (haccept : verify_checksum words count c = some 1)
    (hsum : total words' count + c'.toNat + old.toNat = total words count + c.toNat + new.toNat)
    (hne : new ≠ old) (hzeros : ¬ BothZeros old new) :
    verify_checksum words' count c' = some 0 := by
  have hold := old.toNat_lt
  have hnew := new.toNat_lt
  rw [verify_checksum_total hcount hsize] at haccept
  rw [verify_checksum_total hcount' hsize, if_neg]
  rintro ⟨-, hdvd'⟩
  split at haccept
  swap
  · exact absurd (Option.some.inj haccept) (by decide)
  next haccepted =>
  -- added to what the sum was without `old`, both values give a multiple
  have hdvd := haccepted.2
  rw [← Nat.dvd_add_left (dvd_refl (2 ^ 16 - 1))] at hdvd hdvd'
  rcases eq_or_zeros_of_dvd (s := total words count + c.toNat + (2 ^ 16 - 1) - old.toNat)
    (show old.toNat ≤ 2 ^ 16 - 1 by omega) (show new.toNat ≤ 2 ^ 16 - 1 by omega)
    (by rwa [Nat.sub_add_cancel (by omega)])
    (by rwa [show total words count + c.toNat + (2 ^ 16 - 1) - old.toNat + new.toNat
      = total words' count + c'.toNat + (2 ^ 16 - 1) by omega]) with heq | ⟨h1, h2⟩ | ⟨h1, h2⟩
  · exact hne (UInt16.toNat_inj.mp heq).symm
  · exact hzeros (Or.inl ⟨UInt16.toNat_inj.mp h1, UInt16.toNat_inj.mp h2⟩)
  · exact hzeros (Or.inr ⟨UInt16.toNat_inj.mp h1, UInt16.toNat_inj.mp h2⟩)

/-- One bit makes neither the same value nor the other zero. -/
theorem flip_bit_ne (old : UInt16) {k : ℕ} (hk : k < 16) :
    old ^^^ UInt16.ofNat (2 ^ k) ≠ old
      ∧ ¬ BothZeros old (old ^^^ UInt16.ofNat (2 ^ k)) := by
  have hbit : ∀ k < 16, UInt16.ofNat (2 ^ k) ≠ 0 := by decide
  have hzero : ∀ k < 16, (0 : UInt16) ^^^ UInt16.ofNat (2 ^ k) ≠ 0xFFFF := by decide
  have hones : ∀ k < 16, (0xFFFF : UInt16) ^^^ UInt16.ofNat (2 ^ k) ≠ 0 := by decide
  constructor
  · intro h
    apply hbit k hk
    rw [← UInt16.xor_right_inj old, h, UInt16.xor_zero]
  · rintro (⟨rfl, h⟩ | ⟨rfl, h⟩)
    · exact hzero k hk h
    · exact hones k hk h

/-- **One replaced value is detected**, a word or the checksum, unless it is one zero for the
other; a single bit is always detected. -/
theorem replaced_value_detected (hcount : count ≤ words.length) (hsize : count ≤ 65536) :
    ∃ c, compute_checksum words count = some c
      ∧ (∀ i old, i < count → words[i]? = some old →
        (∀ new, new ≠ old → ¬ BothZeros old new →
          verify_checksum (words.set i new) count c = some 0)
        ∧ ∀ k < 16, verify_checksum (words.set i (old ^^^ UInt16.ofNat (2 ^ k))) count c = some 0)
      ∧ (∀ new, new ≠ c → ¬ BothZeros c new → verify_checksum words count new = some 0)
      ∧ ∀ k < 16, verify_checksum words count (c ^^^ UInt16.ofNat (2 ^ k)) = some 0 := by
  obtain ⟨c, hrun, hc⟩ := compute_checksum_total hcount (by omega)
  have haccept : verify_checksum words count c = some 1 := by
    rw [verify_checksum_total hcount hsize, if_pos]
    rw [← residue_eq_self_iff (by decide), hc]
    exact residue_add_complement (by decide) _
  have hword : ∀ i old new, i < count → words[i]? = some old → new ≠ old → ¬ BothZeros old new →
      verify_checksum (words.set i new) count c = some 0 := by
    intro i old new hi hold hne hzeros
    have hset := total_set hi hold new
    exact verify_checksum_replaced hcount (by rwa [List.length_set]) hsize haccept
      (by omega) hne hzeros
  have hchecksum : ∀ new, new ≠ c → ¬ BothZeros c new →
      verify_checksum words count new = some 0 := by
    intro new hne hzeros
    exact verify_checksum_replaced hcount hcount hsize haccept (by omega) hne hzeros
  refine ⟨c, hrun, fun i old hi hold => ⟨fun new => hword i old new hi hold, fun k hk => ?_⟩,
    hchecksum, fun k hk => ?_⟩
  · obtain ⟨hne, hzeros⟩ := flip_bit_ne old hk
    exact hword i old _ hi hold hne hzeros
  · obtain ⟨hne, hzeros⟩ := flip_bit_ne c hk
    exact hchecksum _ hne hzeros

/-- Scenario 2 of `main`: a bit of the second word is flipped. -/
theorem replaced_value_detected_main :
    ∃ c, compute_checksum [0x4500, 0x003c, 0x1c46, 0x4000, 0, 0, 0, 0] 4 = some c ∧
      verify_checksum [0x4500, 0x003d, 0x1c46, 0x4000, 0, 0, 0, 0] 4 c = some 0 := by
  obtain ⟨c, hrun, hword, -⟩ :=
    @replaced_value_detected [0x4500, 0x003c, 0x1c46, 0x4000, 0, 0, 0, 0] 4 (by decide) (by decide)
  exact ⟨c, hrun, (hword 1 0x003c (by decide) rfl).2 0 (by decide)⟩

end Replaced

/-! ## End-around carries -/

section Carries

variable {words : List UInt16} {count : ℕ}

/-- One's complement addition: the carry out of the upper end goes back in at the lower. -/
def end_around_add (a b : UInt16) : UInt16 :=
  a + b + UInt16.ofNat ((a.toNat + b.toNat) / 2 ^ 16)

theorem toNat_end_around_add (a b : UInt16) :
    (end_around_add a b).toNat = residue (2 ^ 16 - 1) (a.toNat + b.toNat) := by
  have hle := residue_le (m := 2 ^ 16 - 1) (by decide) (a.toNat + b.toNat)
  rw [← fold_add a.toNat_lt b.toNat_lt] at hle ⊢
  rw [end_around_add, UInt16.toNat_add, UInt16.toNat_add, UInt16.toNat_ofNat', Nat.add_mod_mod,
    Nat.mod_eq_of_lt (by omega)]

/-- Carries put back at every step, or all of them at the end. -/
theorem toNat_foldl_end_around_add (words : List UInt16) (a : UInt16) :
    (words.foldl end_around_add a).toNat
      = residue (2 ^ 16 - 1) (a.toNat + (words.map UInt16.toNat).sum) := by
  induction words generalizing a with
  | nil =>
      have := a.toNat_lt
      rw [List.foldl_nil, List.map_nil, List.sum_nil, Nat.add_zero, residue_of_le (by omega)]
  | cons word words ih =>
      rw [List.foldl_cons, ih, toNat_end_around_add, residue_add, List.map_cons, List.sum_cons,
        Nat.add_assoc]

/-- A sum of `32` bits has no carries left after two passes: the first leaves at most one,
and to put that one back makes no other. -/
theorem fold_twice {s : ℕ} (hs : s < 2 ^ 32) : (loopN fold_body 3 s).isSome := by
  have hexit : ∀ n t, t < 2 ^ 16 → (loopN fold_body (n + 1) t).isSome := by
    intro n t ht
    rw [loopN, fold_body_done ht]
    rfl
  rcases Nat.lt_or_ge s (2 ^ 16) with hsmall | hcarry
  · exact hexit 2 s hsmall
  · have hfirst : loopN fold_body 3 s = loopN fold_body 2 (s % 2 ^ 16 + s / 2 ^ 16) := by
      rw [loopN, fold_body_next hs hcarry]
      rfl
    have hle : s % 2 ^ 16 + s / 2 ^ 16 ≤ 2 * (2 ^ 16 - 1) := by omega
    rw [hfirst]
    generalize s % 2 ^ 16 + s / 2 ^ 16 = t at hle
    rcases Nat.lt_or_ge t (2 ^ 16) with hsmall | hcarry
    · exact hexit 1 t hsmall
    · rw [loopN, fold_body_next (by omega) hcarry]
      exact hexit 0 _ (by omega)

/-- **Deferred carries are end-around carries.** Up to `65537` words no addition wraps, two
passes fold the sum, and what is returned is the complement of the one's complement sum,
taken word by word in any order. -/
theorem checksum_is_end_around (hcount : count ≤ words.length) (hsize : count ≤ 65537) :
    (∀ i ≤ count, total words i < 2 ^ 32 ∧ sum_words words i = some (total words i))
    ∧ (loopN fold_body 3 (total words count)).isSome
    ∧ ∀ order : List UInt16, order.Perm (words.take count) →
      compute_checksum words count = some (~~~(order.foldl end_around_add 0)) := by
  have hle : ∀ i ≤ count, total words i < 2 ^ 32 := by
    intro i hi
    have := total_le words i
    omega
  refine ⟨fun i hi => ⟨hle i hi, sum_words_total (by omega) (by omega)⟩,
    fold_twice (hle count (le_refl count)), fun order hperm => ?_⟩
  obtain ⟨c, hrun, hc⟩ := compute_checksum_total hcount hsize
  have hsum : (order.foldl end_around_add 0).toNat
      = residue (2 ^ 16 - 1) (total words count) := by
    rw [toNat_foldl_end_around_add, (hperm.map UInt16.toNat).sum_nat, total, UInt16.toNat_zero,
      Nat.zero_add]
  rw [hrun, Option.some_inj, ← UInt16.toNat_inj, UInt16.toNat_not, hc, hsum]
  rfl

/-- The default data of `main`, from the last word to the first. -/
theorem checksum_is_end_around_main :
    compute_checksum [0x4500, 0x003c, 0x1c46, 0x4000, 0, 0, 0, 0] 4
      = some (~~~([0x4000, 0x1c46, 0x003c, 0x4500].foldl end_around_add 0)) := by
  obtain ⟨-, -, horder⟩ :=
    @checksum_is_end_around [0x4500, 0x003c, 0x1c46, 0x4000, 0, 0, 0, 0] 4 (by decide) (by decide)
  exact horder [0x4000, 0x1c46, 0x003c, 0x4500] (by decide)

end Carries

end CourseLabs.Checksum
