import Mathlib

/-!
# Paths and the directories they lead into

A path is a list with separators in it. It leads into a directory if it is that
directory or goes on after it with a separator. That is more than having the
directory as a list at its start: what follows may extend the last component.
-/

namespace Finesse.Paths

open List

variable {α : Type*} {sep : α} {dir dir' path rest : List α}

/-- The path is the directory, or something in it. -/
def Covers (sep : α) (dir path : List α) : Prop :=
  path = dir ∨ dir ++ [sep] <+: path

instance [DecidableEq α] (sep : α) (dir path : List α) : Decidable (Covers sep dir path) :=
  inferInstanceAs (Decidable (_ ∨ _))

/-- The path as it is in the directory, if it leads there. -/
def below [DecidableEq α] (sep : α) (dir path : List α) : List α :=
  if Covers sep dir path then path.drop dir.length else path

theorem Covers.isPrefix (h : Covers sep dir path) : dir <+: path := by
  rcases h with rfl | h
  · exact prefix_refl _
  · exact (prefix_append dir [sep]).trans h

theorem covers_append_iff :
    Covers sep dir (dir ++ rest) ↔ rest = [] ∨ ∃ names, rest = sep :: names := by
  constructor
  · rintro (h | ⟨names, h⟩)
    · exact .inl (append_right_eq_self.mp h)
    · rw [append_assoc, append_cancel_left_eq] at h
      exact .inr ⟨names, h.symm⟩
  · rintro (rfl | ⟨names, rfl⟩)
    · exact .inl (append_nil dir)
    · exact .inr ⟨names, by rw [append_assoc]; rfl⟩

/-- Of the directories that a path leads into, no two have the same length. -/
theorem Covers.eq_of_length (h : Covers sep dir path) (h' : Covers sep dir' path)
    (hlen : dir.length = dir'.length) : dir = dir' :=
  (prefix_of_prefix_length_le h.isPrefix h'.isPrefix (Nat.le_of_eq hlen)).eq_of_length hlen

section

variable [DecidableEq α]

theorem below_append_sep (names : List α) : below sep dir (dir ++ sep :: names) = sep :: names := by
  rw [below, if_pos (covers_append_iff.mpr (.inr ⟨names, rfl⟩)), drop_left]

theorem below_of_not_prefix (h : ¬dir <+: path) : below sep dir path = path :=
  if_neg fun hc => h hc.isPrefix

/-- What merely extends the name of the directory is not in it. -/
theorem below_append_of_ne {c : α} (hc : c ≠ sep) :
    below sep dir (dir ++ c :: rest) = dir ++ c :: rest := by
  refine if_neg fun h => ?_
  rcases covers_append_iff.mp h with h | ⟨names, h⟩
  · cases h
  · exact hc (cons.inj h).1

end

end Finesse.Paths
