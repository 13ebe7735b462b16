/-
**Files under names.**

A name stands for a place, and two names may stand for the same one. What a program does to
the files is told by the places it may have changed (`Changed`): everywhere else each file is
as it was, and none is gone anywhere. Such facts compose along a run.
-/
import CourseLabs.CMem
import Mathlib.Data.Set.Insert

set_option autoImplicit false

namespace CourseLabs.Files

open CourseLabs.CMem

/-- What the names stand for, and which of the places can be opened. -/
structure Names where
  place : List Char → ℕ
  readable : ℕ → Bool
  writable : ℕ → Bool

/-- The files there are. -/
abbrev Store (β : Type) := ℕ → Option β

section Store

variable {β : Type} {P Q : Set ℕ} {s t u : Store β}

/-- The contents of a file that can be opened for reading. -/
def read (n : Names) (s : Store β) (name : List Char) : Option β :=
  if n.readable (n.place name) then s (n.place name) else none

def write (n : Names) (s : Store β) (name : List Char) (contents : β) : Store β :=
  upd s (n.place name) (some contents)

theorem read_congr {n : Names} {name : List Char} (h : t (n.place name) = s (n.place name)) :
    read n t name = read n s name := by
  rw [read, read, h]

theorem read_of_readable {n : Names} {name : List Char}
    (h : n.readable (n.place name) = true) : read n s name = s (n.place name) :=
  if_pos h

theorem write_same (n : Names) (s : Store β) (name : List Char) (b : β) :
    write n s name b (n.place name) = some b :=
  upd_same _ _ _

/-- Only files at places in `P` may be new or have other contents. -/
structure Changed (P : Set ℕ) (s t : Store β) : Prop where
  kept : ∀ p, p ∉ P → t p = s p
  there : ∀ p, (s p).isSome → (t p).isSome

theorem Changed.refl (P : Set ℕ) (s : Store β) : Changed P s s :=
  ⟨fun _ _ => rfl, fun _ h => h⟩

theorem Changed.trans (h : Changed P s t) (h' : Changed P t u) : Changed P s u :=
  ⟨fun p hp => (h'.kept p hp).trans (h.kept p hp), fun p hp => h'.there p (h.there p hp)⟩

theorem Changed.mono (h : Changed P s t) (hsub : P ⊆ Q) : Changed Q s t :=
  ⟨fun p hp => h.kept p fun hmem => hp (hsub hmem), h.there⟩

/-- A change in `P`, then one in `Q`. -/
theorem Changed.trans_union (h : Changed P s t) (h' : Changed Q t u) : Changed (P ∪ Q) s u :=
  (h.mono Set.subset_union_left).trans (h'.mono Set.subset_union_right)

theorem Changed.write {n : Names} {name : List Char} (hmem : n.place name ∈ P) (s : Store β)
    (b : β) : Changed P s (write n s name b) := by
  refine ⟨fun p hp => ?_, fun p hp => ?_⟩
  · rw [Files.write, upd_other]
    exact fun heq => hp (heq ▸ hmem)
  · rw [Files.write, upd]
    split_ifs
    · rfl
    · exact hp

theorem Changed.read_eq {n : Names} {name : List Char} (h : Changed P s t)
    (hp : n.place name ∉ P) : read n t name = read n s name :=
  read_congr (h.kept _ hp)

end Store

end CourseLabs.Files
