import Finesse.Lib.Memory

/-!
# Printed text

The text of numbers, and `snprintf`, which stores as much of a text as fits
before the zero at the end.
-/

namespace Memory

def ascii (text : List Char) : List UInt8 := text.map Char.toUInt8

@[simp] theorem length_ascii (text : List Char) : (ascii text).length = text.length :=
  List.length_map _

/-- A number as `%lu` and `%llx` print it. -/
def digits (base n : Nat) : List UInt8 := ascii (Nat.toDigits base n)

theorem digitChar_nonzero : ∀ d < 16, d.digitChar.toUInt8 ≠ 0 := by decide

theorem zero_notMem_digits {base : Nat} (hlow : 1 < base) (hhigh : base ≤ 16) (n : Nat) :
    (0 : UInt8) ∉ digits base n := by
  induction n using Nat.strongRecOn with
  | _ n ih =>
    by_cases hn : n < base
    · rw [digits, Nat.toDigits_of_lt_base hn, ascii, List.map_singleton, List.mem_singleton]
      exact (digitChar_nonzero n (by omega)).symm
    -- all digits but the last are those of the quotient
    have hpos : 0 < n / base := Nat.div_pos (by omega) (by omega)
    have hmod : n % base < base := Nat.mod_lt n (by omega)
    rw [digits, ← Nat.div_add_mod n base, ← Nat.toDigits_append_toDigits hlow hpos hmod, ascii,
      List.map_append, List.mem_append, not_or]
    exact ⟨ih (n / base) (Nat.div_lt_self (by omega) hlow), ih (n % base) (by omega)⟩

theorem length_digits_le_iff {base n k : Nat} (hb : 1 < base) (hk : 0 < k) :
    (digits base n).length ≤ k ↔ n < base ^ k := by
  rw [digits, length_ascii, Nat.length_toDigits_le_iff hb hk]

/-- `snprintf(&m[a], size, …)` of a text. It returns the length of the text. -/
def snprintf (m : Mem) (a size : Nat) (text : List UInt8) : Mem :=
  if size = 0 then m else store m a (text.take (size - 1) ++ [0])

theorem load_store_take (m : Mem) {a k : Nat} {d : List UInt8} (h : k ≤ d.length) :
    load (store m a d) a k = d.take k := by
  have hpart := take_drop_load (store m a d) (show 0 + k ≤ d.length by omega) (a := a)
  rw [load_store_self] at hpart
  exact hpart.symm

end Memory
