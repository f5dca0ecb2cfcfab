import Mathlib

/-!
# Bitmaps in a machine word

A word used as a set of small numbers: `mask i` is the word with bit `i`
set, insertion is `||| mask i`, removal is `&&& ~~~mask i`. The code under
study tests membership in several ways (`b & mask`, or whether setting or
clearing the bit changes the word); each of them is related here to
`getLsbD`, which is the only view the proofs use.
-/

namespace Bitmap

open BitVec

variable {w : Nat}

/-- The word with exactly bit `i` set. -/
def mask (i : Nat) : BitVec w := 1#w <<< i

variable {i : Nat}

variable (hi : i < w)
include hi

theorem getLsbD_mask (j : Nat) : (mask i : BitVec w).getLsbD j = decide (i = j) := by
  simp only [mask, getLsbD_shiftLeft, getLsbD_one]
  by_cases h : i = j
  · subst h
    simp [hi, show 0 < w by omega]
  by_cases hj : j < i
  · simp [h, hj]
  · simp [h, show ¬ (j - i = 0) by omega]

@[simp] theorem getLsbD_insert (b : BitVec w) (j : Nat) :
    (b ||| mask i).getLsbD j = (b.getLsbD j || decide (i = j)) := by
  rw [getLsbD_or, getLsbD_mask hi]

@[simp] theorem getLsbD_remove (b : BitVec w) (j : Nat) :
    (b &&& ~~~mask i).getLsbD j = (b.getLsbD j && !decide (i = j)) := by
  rw [getLsbD_and, getLsbD_not, getLsbD_mask hi]
  by_cases hj : j < w
  · simp [hj]
  · simp [getLsbD_of_ge b j (by omega)]

theorem and_mask_eq_zero (b : BitVec w) : b &&& mask i = 0#w ↔ b.getLsbD i = false := by
  constructor
  · intro h
    have := congrArg (fun v => v.getLsbD i) h
    simpa [getLsbD_mask hi] using this
  intro h
  apply eq_of_getLsbD_eq
  intro j _
  rw [getLsbD_and, getLsbD_mask hi]
  by_cases hij : i = j
  · subst hij; simp [h]
  · simp [hij]

theorem insert_eq_self (b : BitVec w) : b = b ||| mask i ↔ b.getLsbD i = true := by
  constructor
  · intro h
    rw [h, getLsbD_insert hi]
    simp
  intro h
  apply eq_of_getLsbD_eq
  intro j _
  rw [getLsbD_insert hi]
  by_cases hij : i = j
  · subst hij; simp [h]
  · simp [hij]

theorem remove_eq_self (b : BitVec w) : b = b &&& ~~~mask i ↔ b.getLsbD i = false := by
  constructor
  · intro h
    rw [h, getLsbD_remove hi]
    simp
  intro h
  apply eq_of_getLsbD_eq
  intro j _
  rw [getLsbD_remove hi]
  by_cases hij : i = j
  · subst hij; simp [h]
  · simp [hij]

end Bitmap
