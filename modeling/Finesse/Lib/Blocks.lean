import Mathlib

/-!
# Blocks from an allocator

What `malloc` and `free` do to values that are only reached through pointers.
An address is never handed out twice, so that a pointer to a block that was
freed stays one. Reading a block that is not there has no result.
-/

structure Blocks (α : Type) where
  cell : Nat → Option α
  next : Nat
  unused : ∀ p, next ≤ p → cell p = none

namespace Blocks

open Function

variable {α : Type}

def empty : Blocks α where
  cell _ := none
  next := 0
  unused _ _ := rfl

/-- A new block, at the address `next`. -/
def malloc (b : Blocks α) (a : α) : Blocks α where
  cell := update b.cell b.next (some a)
  next := b.next + 1
  unused p hp := by
    rw [update_of_ne (by omega), b.unused p (by omega)]

def free (b : Blocks α) (p : Nat) : Blocks α where
  cell := update b.cell p none
  next := b.next
  unused q hq := by
    by_cases h : q = p
    · rw [h, update_self]
    · rw [update_of_ne h, b.unused q hq]

variable {b : Blocks α} {p q : Nat} {a : α}

@[simp] theorem cell_malloc_next : (b.malloc a).cell b.next = some a := update_self _ _ _

theorem ne_next (h : b.cell p ≠ none) : p ≠ b.next := by
  rintro rfl
  exact h (b.unused _ (Nat.le_refl _))

theorem cell_malloc (h : b.cell p ≠ none) : (b.malloc a).cell p = b.cell p :=
  update_of_ne (ne_next h) _ _

@[simp] theorem cell_free_self : (b.free p).cell p = none := update_self _ _ _

theorem cell_free (h : q ≠ p) : (b.free p).cell q = b.cell q := update_of_ne h _ _

end Blocks
