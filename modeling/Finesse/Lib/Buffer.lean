import Mathlib

/-!
# Buffers

A block of memory or the contents of a file is a list. Reading is `slice`,
writing in place is `splice`, and a change of length that fills up with a
blank is `resize`. `overwrite` is what a write to a file means: it goes past
the end if it has to, and what lies between is blank.
-/

namespace Buffer

open List

variable {α : Type*}

/-- The `n` elements from `o` on, or what there is of them. -/
def slice (l : List α) (o n : Nat) : List α := (l.drop o).take n

/-- The elements from `o` on replaced by `d`, which has to fit. -/
def splice (l : List α) (o : Nat) (d : List α) : List α :=
  l.take o ++ d ++ l.drop (o + d.length)

/-- Cut off at `n` elements, or filled up to `n` with `z`. -/
def resize (z : α) (l : List α) (n : Nat) : List α :=
  l.take n ++ replicate (n - l.length) z

/-- `d` written at `o`. Writing nothing changes nothing. -/
def overwrite (z : α) (l : List α) (o : Nat) (d : List α) : List α :=
  if d = [] then l
  else splice (resize z l (max l.length (o + d.length))) o d

@[simp] theorem length_resize (z : α) (l : List α) (n : Nat) : (resize z l n).length = n := by
  rw [resize, length_append, length_take, length_replicate]
  omega

@[simp] theorem resize_length (z : α) (l : List α) : resize z l l.length = l := by
  simp [resize]

@[simp] theorem resize_zero (z : α) (l : List α) : resize z l 0 = [] := by
  simp [resize]

theorem resize_ne_nil (z : α) (l : List α) {n : Nat} (hn : n ≠ 0) : resize z l n ≠ [] := by
  intro h
  have := length_resize z l n
  rw [h] at this
  exact hn this.symm

theorem resize_nil (z : α) (n : Nat) : resize z [] n = replicate n z := by
  simp [resize]

variable {d l : List α} {o : Nat} {z : α}

theorem resize_of_blank {n : Nat} (h : ∀ b ∈ l.take n, b = z) : resize z l n = resize z [] n := by
  rw [resize_nil, eq_replicate_iff]
  refine ⟨length_resize z l n, fun b hb => ?_⟩
  rcases mem_append.mp hb with hb | hb
  · exact h b hb
  · exact eq_of_mem_replicate hb

theorem resize_eq_blank_iff (z : α) (l : List α) (n : Nat) :
    resize z l n = resize z [] n ↔ ∀ b ∈ l.take n, b = z := by
  refine ⟨fun h b hb => ?_, resize_of_blank⟩
  have hmem : b ∈ resize z [] n := h ▸ mem_append_left _ hb
  rw [resize_nil] at hmem
  exact eq_of_mem_replicate hmem

theorem length_splice (h : o + d.length ≤ l.length) : (splice l o d).length = l.length := by
  simp only [splice, length_append, length_take, length_drop]
  omega

theorem splice_nil (l : List α) (o : Nat) : splice l o [] = l := by
  simp [splice]

theorem splice_splice {e : List α} (h : o ≤ l.length) :
    splice (splice l o d) (o + d.length) e = splice l o (d ++ e) := by
  have hlen : (l.take o ++ d).length = o + d.length := by
    rw [length_append, length_take, Nat.min_eq_left h]
  have hfront : (splice l o d).take (o + d.length) = l.take o ++ d := by
    rw [splice, ← hlen, take_left]
  have hback : (splice l o d).drop (o + d.length + e.length) = l.drop (o + (d ++ e).length) := by
    rw [splice, ← drop_drop, ← hlen, drop_left, hlen, drop_drop, length_append, Nat.add_assoc]
  rw [splice, hfront, hback, splice, append_assoc (l.take o) d e]

theorem overwrite_of_le (h : o + d.length ≤ l.length) : overwrite z l o d = splice l o d := by
  rw [overwrite]
  split
  · next hd => simp [splice, hd]
  · rw [Nat.max_eq_left h, resize_length]

theorem overwrite_of_lt (hd : d ≠ []) (h : l.length < o + d.length) :
    overwrite z l o d = splice (resize z l (o + d.length)) o d := by
  rw [overwrite, if_neg hd, Nat.max_eq_right (Nat.le_of_lt h)]

end Buffer
