/-
**Memory that is allocated and freed.**

A store holds blocks at addresses. `malloc` takes an address that is free, and which one is up
to the allocator; a block that is not there can be neither read nor written nor freed.

`Adds A σ σ'` says that `σ'` is `σ` and the blocks at the addresses `A` besides. Allocation
adds a block, freeing takes it back (`Adds.free`), and what adds none is the store itself
(`Adds.eq`). So a function that is shown to add nothing has freed what it allocated, all of it
and once, and has written to no block but its own.
-/
import Mathlib.Data.Finmap
import Mathlib.Order.Lattice.Nat

set_option autoImplicit false

namespace CourseLabs.Blocks

/-- The blocks, by their addresses. -/
abbrev Store (β : Type) : Type :=
  Finmap fun _ : ℕ => β

/-- The address of no block: nothing is ever stored there. -/
def NULL : ℕ :=
  0

/-- Where the next block goes: at an address that is free and not `NULL`. Nothing else is known of
it. -/
structure Allocator (β : Type) where
  pick : Store β → ℕ
  ne_null : ∀ σ, pick σ ≠ NULL
  fresh : ∀ σ, pick σ ∉ σ

/-- The allocator that never takes an address below one that is in use. -/
def bump (β : Type) : Allocator β where
  pick := fun σ => σ.keys.sup id + 1
  ne_null := fun σ => Nat.succ_ne_zero _
  fresh := fun σ h => by
    have hle := Finset.le_sup (f := id) (Finmap.mem_keys.mpr h)
    exact absurd hle (Nat.not_succ_le_self _)

section Store

variable {β : Type} {σ σ' σ'' : Store β} {A B : Multiset ℕ} {p a : ℕ} {b : β}

/-- Allocating a block with its contents. Where it comes to lie is the allocator's business, so
nothing depends on it. -/
def malloc (alloc : Allocator β) (σ : Store β) (b : β) : ℕ × Store β :=
  (alloc.pick σ, σ.insert (alloc.pick σ) b)

/-- `free` of `NULL` does nothing, and of an address without a block it is undefined. -/
def free (σ : Store β) (p : ℕ) : Option (Store β) :=
  if p = NULL then some σ else if p ∈ σ then some (σ.erase p) else none

/-- Read a block. It is undefined for an address at which there is none, any more or yet. -/
def load (σ : Store β) (p : ℕ) : Option β :=
  if p = NULL then none else σ.lookup p

/-- Write a block, which must have been allocated before. -/
def save (σ : Store β) (p : ℕ) (b : β) : Option (Store β) :=
  if p = NULL then none else if p ∈ σ then some (σ.insert p b) else none

/-- A load has a value exactly at a block that is live and not null. -/
theorem load_eq_some : load σ p = some b ↔ p ≠ NULL ∧ σ.lookup p = some b := by
  unfold load
  split
  · next h => simp [h]
  · next h => simp [h]

/-- A store to a live block has a value. -/
theorem save_of_mem (hp : p ≠ NULL) (h : p ∈ σ) (b : β) : save σ p b = some (σ.insert p b) := by
  rw [save, if_neg hp, if_pos h]

/-- What was stored last is what is loaded. -/
theorem load_insert (hp : p ≠ NULL) (b : β) : load (σ.insert p b) p = some b :=
  load_eq_some.mpr ⟨hp, Finmap.lookup_insert σ⟩

/-- A load depends on the block alone. -/
theorem load_congr (h : σ'.lookup p = σ.lookup p) : load σ' p = load σ p := by
  rw [load, load, h]

/-- A load that has a value was at a live block. -/
theorem mem_of_load (h : load σ p = some b) : p ∈ σ :=
  Finmap.mem_of_lookup_eq_some (load_eq_some.mp h).2

/-! ## What is added -/

/-- The same blocks, but for those at `A`: the frame of a computation that touches only these. -/
def SameOff (A : Multiset ℕ) (σ σ' : Store β) : Prop :=
  ∀ a, a ∉ A → σ'.lookup a = σ.lookup a

/-- Nothing differs from itself. -/
theorem SameOff.refl (A : Multiset ℕ) (σ : Store β) : SameOff A σ σ :=
  fun _ _ => rfl

/-- What two steps both leave alone, both together leave alone. -/
theorem SameOff.trans (h : SameOff A σ σ') (h' : SameOff A σ' σ'') : SameOff A σ σ'' :=
  fun a ha => (h' a ha).trans (h a ha)

/-- A wider set of exceptions is a weaker statement. -/
theorem SameOff.mono (h : SameOff A σ σ') (hAB : A ⊆ B) : SameOff B σ σ' :=
  fun a ha => h a fun hA => ha (hAB hA)

/-- A store changes nothing outside the block it goes to. -/
theorem sameOff_insert (hp : p ∈ A) (b : β) : SameOff A σ (σ.insert p b) := by
  intro a ha
  apply Finmap.lookup_insert_of_ne
  rintro rfl
  exact ha hp

/-- `σ'` is `σ` and the blocks `A`: these are new, all different, and what there was before has not
changed. -/
structure Adds (A : Multiset ℕ) (σ σ' : Store β) : Prop where
  nodup : A.Nodup
  fresh : ∀ a ∈ A, a ∉ σ
  mem : ∀ a ∈ A, a ∈ σ'
  same : SameOff A σ σ'

/-- A computation that allocates nothing adds no block. -/
theorem Adds.zero (σ : Store β) : Adds 0 σ σ :=
  ⟨Multiset.nodup_zero, fun _ h => absurd h (Multiset.notMem_zero _),
    fun _ h => absurd h (Multiset.notMem_zero _), SameOff.refl 0 σ⟩

/-- **Nothing is left over**, and nothing has changed: a computation that has freed what it
allocated leaves the store as it was. -/
theorem Adds.eq (h : Adds 0 σ σ') : σ' = σ :=
  Finmap.ext_lookup fun a => h.same a (Multiset.notMem_zero a)

/-- A block is live or not by the store alone. -/
theorem mem_congr (h : σ'.lookup a = σ.lookup a) : a ∈ σ' ↔ a ∈ σ := by
  rw [Finmap.mem_iff, Finmap.mem_iff, h]

/-- What has been added stays. -/
theorem Adds.mono (h : Adds A σ σ') (ha : a ∈ σ) : a ∈ σ' := by
  have hne : a ∉ A := fun hA => h.fresh a hA ha
  exact (mem_congr (h.same a hne)).mpr ha

/-- What two computations allocate, they allocate together. -/
theorem Adds.trans (h : Adds A σ σ') (h' : Adds B σ' σ'') : Adds (A + B) σ σ'' := by
  have hdisj : ∀ a ∈ A, a ∉ B := fun a ha hb => h'.fresh a hb (h.mem a ha)
  refine ⟨?_, ?_, ?_, ?_⟩
  · exact Multiset.nodup_add.mpr
      ⟨h.nodup, h'.nodup, Multiset.disjoint_left.mpr fun ha => hdisj _ ha⟩
  · intro a ha hmem
    rcases Multiset.mem_add.mp ha with hA | hB
    · exact h.fresh a hA hmem
    · exact h'.fresh a hB (h.mono hmem)
  · intro a ha
    rcases Multiset.mem_add.mp ha with hA | hB
    · exact h'.mono (h.mem a hA)
    · exact h'.mem a hB
  · intro a ha
    rw [Multiset.mem_add, not_or] at ha
    exact (h'.same a ha.2).trans (h.same a ha.1)

/-- Writing to blocks that have been added changes nothing that was there before them. -/
theorem Adds.write (h : Adds A σ σ') (hsame : SameOff A σ' σ'') (hmem : ∀ a ∈ A, a ∈ σ'') :
    Adds A σ σ'' :=
  ⟨h.nodup, h.fresh, hmem, h.same.trans hsame⟩

/-- A store to a block allocated before adds nothing. -/
theorem Adds.insert (h : Adds A σ σ') (hp : p ∈ A) (b : β) : Adds A σ (σ'.insert p b) :=
  h.write (sameOff_insert hp b) fun a ha => Finmap.mem_insert.mpr (Or.inr (h.mem a ha))

/-- An allocation adds exactly the block it returns. -/
theorem adds_malloc (alloc : Allocator β) (σ : Store β) (b : β) :
    Adds {alloc.pick σ} σ (malloc alloc σ b).2 := by
  refine ⟨Multiset.nodup_singleton _, ?_, ?_, sameOff_insert (Multiset.mem_singleton_self _) b⟩
  · intro a ha
    rw [Multiset.mem_singleton.mp ha]
    exact alloc.fresh σ
  · intro a ha
    exact Finmap.mem_insert.mpr (Or.inl (Multiset.mem_singleton.mp ha))

/-- A block has the contents it was allocated with, until something is stored to it. -/
theorem load_malloc (alloc : Allocator β) (σ : Store β) (b : β) :
    load (malloc alloc σ b).2 (malloc alloc σ b).1 = some b :=
  load_insert (alloc.ne_null σ) b

/-- **A block that was added can be freed**, and then it was not added. -/
theorem Adds.free (h : Adds (p ::ₘ A) σ σ') (hp : p ≠ NULL) :
    Blocks.free σ' p = some (σ'.erase p) ∧ Adds A σ (σ'.erase p) := by
  have hmem := h.mem p (Multiset.mem_cons_self p A)
  obtain ⟨hpA, hnodup⟩ := Multiset.nodup_cons.mp h.nodup
  refine ⟨by rw [Blocks.free, if_neg hp, if_pos hmem], hnodup, ?_, ?_, ?_⟩
  · exact fun a ha => h.fresh a (Multiset.mem_cons_of_mem ha)
  · intro a ha
    rw [Finmap.mem_erase]
    refine ⟨?_, h.mem a (Multiset.mem_cons_of_mem ha)⟩
    rintro rfl
    exact hpA ha
  · intro a ha
    by_cases hap : a = p
    · have hfresh := h.fresh p (Multiset.mem_cons_self p A)
      rw [hap, Finmap.lookup_erase, Finmap.lookup_eq_none.mpr hfresh]
    · rw [Finmap.lookup_erase_ne hap]
      apply h.same
      rw [Multiset.mem_cons, not_or]
      exact ⟨hap, ha⟩

end Store

end CourseLabs.Blocks
