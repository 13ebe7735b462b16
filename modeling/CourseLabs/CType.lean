/-
**Letters**: `ctype.h` in the C locale, where the letters are those of ASCII.

A letter is a place in the alphabet in one of two cases (`letter_cases`). A permutation of
the places acts on the characters, keeps the case and leaves everything else alone
(`substitute`), and the inverse permutation undoes it.
-/
import CourseLabs.CMem
import Mathlib.Logic.Equiv.Defs

set_option autoImplicit false

namespace CourseLabs.CType

open CourseLabs.CMem

def isupper (c : Char) : Bool :=
  'A'.toNat ≤ c.toNat ∧ c.toNat ≤ 'Z'.toNat

def islower (c : Char) : Bool :=
  'a'.toNat ≤ c.toNat ∧ c.toNat ≤ 'z'.toNat

def isalpha (c : Char) : Bool :=
  isupper c || islower c

def toupper (c : Char) : Char :=
  if islower c then Char.ofNat (c.toNat - 32) else c

def tolower (c : Char) : Char :=
  if isupper c then Char.ofNat (c.toNat + 32) else c

/-! ## Places in the alphabet -/

/-- The capital letter with this place in the alphabet. -/
def upper (k : Fin 26) : Char :=
  Char.ofNat ('A'.toNat + k)

/-- The small letter with this place. -/
def lower (k : Fin 26) : Char :=
  Char.ofNat ('a'.toNat + k)

/-- The place of a letter. -/
def place (c : Char) : Fin 26 :=
  Fin.ofNat 26 (if isupper c then c.toNat - 'A'.toNat else c.toNat - 'a'.toNat)

section Places

variable (k : Fin 26)

@[simp] theorem toNat_upper : (upper k).toNat = 'A'.toNat + k := by
  decide +revert

@[simp] theorem toNat_lower : (lower k).toNat = 'a'.toNat + k := by
  decide +revert

@[simp] theorem isupper_upper : isupper (upper k) = true := by
  decide +revert

@[simp] theorem isupper_lower : isupper (lower k) = false := by
  decide +revert

@[simp] theorem islower_upper : islower (upper k) = false := by
  decide +revert

@[simp] theorem islower_lower : islower (lower k) = true := by
  decide +revert

@[simp] theorem toupper_upper : toupper (upper k) = upper k := by
  decide +revert

@[simp] theorem toupper_lower : toupper (lower k) = upper k := by
  decide +revert

@[simp] theorem tolower_upper : tolower (upper k) = lower k := by
  decide +revert

@[simp] theorem tolower_lower : tolower (lower k) = lower k := by
  decide +revert

@[simp] theorem place_upper : place (upper k) = k := by
  decide +revert

@[simp] theorem place_lower : place (lower k) = k := by
  decide +revert

/-- Capital letters at different places are different. -/
theorem upper_injective : Function.Injective upper :=
  Function.LeftInverse.injective place_upper

/-- Every character is a letter or has no case. -/
theorem letter_cases (c : Char) :
    (∃ k, c = upper k) ∨ (∃ k, c = lower k) ∨ isupper c = false ∧ islower c = false := by
  have hA : 'A'.toNat = 65 := rfl
  have hZ : 'Z'.toNat = 90 := rfl
  have ha : 'a'.toNat = 97 := rfl
  have hz : 'z'.toNat = 122 := rfl
  by_cases hupper : isupper c = true
  · left
    rw [isupper, decide_eq_true_iff] at hupper
    refine ⟨⟨c.toNat - 'A'.toNat, by omega⟩, ?_⟩
    rw [upper, Nat.add_sub_cancel' hupper.1, Char.ofNat_toNat]
  · by_cases hlower : islower c = true
    · right; left
      rw [islower, decide_eq_true_iff] at hlower
      refine ⟨⟨c.toNat - 'a'.toNat, by omega⟩, ?_⟩
      rw [lower, Nat.add_sub_cancel' hlower.1, Char.ofNat_toNat]
    · right; right
      exact ⟨by simpa using hupper, by simpa using hlower⟩

/-- A letter in both cases. -/
theorem exists_place {c : Char} (h : isalpha c = true) :
    ∃ k, toupper c = upper k ∧ tolower c = lower k := by
  rcases letter_cases c with ⟨k, rfl⟩ | ⟨k, rfl⟩ | ⟨hupper, hlower⟩
  · exact ⟨k, toupper_upper k, tolower_upper k⟩
  · exact ⟨k, toupper_lower k, tolower_lower k⟩
  · rw [isalpha, hupper, hlower] at h
    exact absurd h Bool.false_ne_true

end Places

/-! ## Substitution -/

/-- The letters permuted, in either case. -/
def substitute (σ : Equiv.Perm (Fin 26)) (c : Char) : Char :=
  if isupper c then upper (σ (place c)) else if islower c then lower (σ (place c)) else c

section Substitute

variable (σ : Equiv.Perm (Fin 26)) {c : Char}

@[simp] theorem substitute_upper (k : Fin 26) : substitute σ (upper k) = upper (σ k) := by
  rw [substitute, isupper_upper, if_pos rfl, place_upper]

@[simp] theorem substitute_lower (k : Fin 26) : substitute σ (lower k) = lower (σ k) := by
  rw [substitute, isupper_lower, islower_lower, if_neg Bool.false_ne_true, if_pos rfl, place_lower]

/-- What is no letter stays. -/
theorem substitute_other (hupper : isupper c = false) (hlower : islower c = false) :
    substitute σ c = c := by
  rw [substitute, hupper, hlower, if_neg Bool.false_ne_true, if_neg Bool.false_ne_true]

/-- The substitution by the inverse permutation undoes the one by the permutation, in both cases of
letters. -/
theorem substitute_symm (c : Char) : substitute σ.symm (substitute σ c) = c := by
  rcases letter_cases c with ⟨k, rfl⟩ | ⟨k, rfl⟩ | ⟨hupper, hlower⟩
  · rw [substitute_upper, substitute_upper, Equiv.symm_apply_apply]
  · rw [substitute_lower, substitute_lower, Equiv.symm_apply_apply]
  · rw [substitute_other σ hupper hlower, substitute_other σ.symm hupper hlower]

/-- `NUL` is no letter, and no letter becomes it. -/
theorem substitute_ne_nul (hc : c ≠ NUL) : substitute σ c ≠ NUL := by
  intro h
  have hback := substitute_symm σ c
  rw [h, substitute_other σ.symm rfl rfl] at hback
  exact hc hback.symm

end Substitute

end CourseLabs.CType
