import Mathlib

/-!
# Modes of streams

`fopen_mode_to_flags` of `openclose.c` makes open flags of a mode string. The
first character chooses the flags to start with, and a loop adds a bit for
each modifier. The access mode is not a set of bits: 1 is for writing, 2 for
both, and the two together are 3, which is neither.
-/

namespace Finesse.Api

/-! The flags of `fcntl.h`. -/

def oRdonly : Nat := 0
def oWronly : Nat := 1
def oRdwr : Nat := 2
def oCreat : Nat := 0o100
def oExcl : Nat := 0o200
def oTrunc : Nat := 0o1000
def oAppend : Nat := 0o2000
def oCloexec : Nat := 0o2000000

/-- The inner `switch`: `b`, `t`, `m` and `c` are known, and change as little
as a character that is not. -/
def modifierFlags (flags : Nat) (c : Char) : Nat :=
  if c = '+' then flags ||| oRdwr
  else if c = 'x' then flags ||| oExcl
  else if c = 'e' then flags ||| oCloexec
  else flags

/-- The loop of `fopen_mode_to_flags`, with the rounds that are left. A string
is the list of the characters before its null. -/
def modifierLoop : Nat → List Char → Nat → Nat
  | 0, _, flags | _, [], flags => flags
  | n + 1, c :: cs, flags => modifierLoop n cs (modifierFlags flags c)

/-- `fopen_mode_to_flags`. Without a result it is -1, and `errno` is
`EINVAL`. -/
def fopenModeToFlags : List Char → Option Nat
  | [] => none
  | c :: cs =>
    -- the loop starts with the first character, which is no modifier
    if c = 'r' then some (modifierLoop 7 (c :: cs) oRdonly)
    else if c = 'w' then some (modifierLoop 7 (c :: cs) oWronly)
    else if c = 'a' then
      some (modifierLoop 7 (c :: cs) (oWronly ||| oCreat ||| oAppend))
    else none

/-- The bits of all modifiers in a mode but `+`. -/
def extraFlags (mods : List Char) : Nat :=
  (if 'x' ∈ mods then oExcl else 0) ||| if 'e' ∈ mods then oCloexec else 0

/-- What a mode is defined to mean: how the file is accessed, what becomes of
it when it is opened, and the other modifiers. -/
def definedFlags (c : Char) (mods : List Char) : Nat :=
  (if '+' ∈ mods then oRdwr else if c = 'r' then oRdonly else oWronly) |||
    (if c = 'w' then oCreat ||| oTrunc
      else if c = 'a' then oCreat ||| oAppend else 0) ||| extraFlags mods

/-- What the loop adds for a mode. -/
def addedFlags (mods : List Char) : Nat :=
  (if '+' ∈ mods then oRdwr else 0) ||| extraFlags mods

-- a bit that comes twice is the same as one that comes once
theorem addedFlags_cons (c : Char) (cs : List Char) :
    addedFlags (c :: cs) = modifierFlags 0 c ||| addedFlags cs := by
  unfold addedFlags extraFlags modifierFlags
  by_cases hp : c = '+'
  · subst hp
    by_cases h : '+' ∈ cs <;> simp [h, ← Nat.lor_assoc]
  by_cases hx : c = 'x'
  · subst hx
    by_cases h : 'x' ∈ cs <;> by_cases h' : '+' ∈ cs <;>
      simp [h, h', ← Nat.lor_assoc] <;> rfl
  by_cases he : c = 'e'
  · subst he
    by_cases h : 'e' ∈ cs <;> by_cases h' : '+' ∈ cs <;> by_cases h'' : 'x' ∈ cs <;>
      simp [h, h', h''] <;> rfl
  simp [hp, hx, he, Ne.symm hp, Ne.symm hx, Ne.symm he]

theorem modifierFlags_eq (flags : Nat) (c : Char) :
    modifierFlags flags c = flags ||| modifierFlags 0 c := by
  unfold modifierFlags
  split_ifs <;> simp

theorem modifierLoop_eq {mods : List Char} {n : Nat} (hn : mods.length ≤ n) (flags : Nat) :
    modifierLoop n mods flags = flags ||| addedFlags mods := by
  induction mods generalizing n flags with
  | nil => cases n <;> simp [modifierLoop, addedFlags, extraFlags]
  | cons c cs ih =>
    cases n with
    | zero => simp at hn
    | succ n =>
      rw [modifierLoop, ih (Nat.le_of_succ_le_succ hn), modifierFlags_eq,
        addedFlags_cons, Nat.lor_assoc]

/-- The flags are those the mode means for `r`, and for `a` without `+`. For
`w` neither `O_CREAT` nor `O_TRUNC` is among them, and `+` after `a` leaves the
bit of `O_WRONLY` beside that of `O_RDWR`. -/
theorem fopenModeToFlags_right_iff {c : Char} {mods : List Char}
    (hc : c ∈ ['r', 'w', 'a']) (hlen : mods.length ≤ 6) :
    fopenModeToFlags (c :: mods) = some (definedFlags c mods) ↔ c = 'r' ∨ c = 'a' ∧ '+' ∉ mods := by
  have hloop : ∀ flags, modifierLoop 7 (c :: mods) flags = flags ||| addedFlags (c :: mods) :=
    fun flags => modifierLoop_eq (Nat.succ_le_succ hlen) flags
  have hcase : c = 'r' ∨ c = 'w' ∨ c = 'a' := by simpa using hc
  simp only [fopenModeToFlags, hloop, definedFlags, addedFlags, extraFlags]
  obtain rfl | rfl | rfl := hcase
  · by_cases hp : '+' ∈ mods <;> simp [hp, oRdonly]
  · by_cases hp : '+' ∈ mods <;> by_cases hx : 'x' ∈ mods <;> by_cases he : 'e' ∈ mods <;>
      simp [hp, hx, he] <;> decide
  · by_cases hp : '+' ∈ mods <;> by_cases hx : 'x' ∈ mods <;> by_cases he : 'e' ∈ mods <;>
      simp [hp, hx, he] <;> decide

/-- The mode of a log file is right. -/
theorem fopenModeToFlags_append :
    fopenModeToFlags ['a', 'b', 'e'] = some (definedFlags 'a' ['b', 'e']) :=
  (fopenModeToFlags_right_iff (by decide) (by decide)).2 (by decide)

/-- A file that is not there is not made for `w`, one that is there is not cut
off, and `w+` asks for an access mode that does not exist. -/
theorem fopenModeToFlags_write :
    fopenModeToFlags ['w'] = some oWronly ∧ definedFlags 'w' [] = 0o1101 ∧
      fopenModeToFlags ['w', '+'] = some 3 ∧ definedFlags 'w' ['+'] = 0o1102 ∧
      ∀ mods ∈ [[], ['+']], fopenModeToFlags ('w' :: mods) ≠ some (definedFlags 'w' mods) := by
  decide

end Finesse.Api
