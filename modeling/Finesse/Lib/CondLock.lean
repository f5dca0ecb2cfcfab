import Mathlib

/-!
# A mutex with condition variables

The mutex is its owner, a condition variable is the list of the threads that
are blocked on it. To wait is to leave the mutex and join the list in one
step; a signal takes one thread off the list, a broadcast all of them, and a
thread that is off the list goes on as soon as it has the mutex again. A
spurious wakeup is a thread that takes itself off the list.

Who owns the mutex is all that mutual exclusion is about: `Changes t m m'`
is what a step of thread `t` may do to the mutex, and it keeps every other
thread's claim to be the owner, or not to be.
-/

structure CondLock (θ ζ : Type*) where
  owner : Option θ
  waiters : ζ → List θ

namespace CondLock

open Function

variable {θ ζ : Type*} {m m' : CondLock θ ζ} {z y : ζ} {t u : θ}

def lock (m : CondLock θ ζ) (t : θ) : Option (CondLock θ ζ) :=
  if m.owner = none then some { m with owner := some t } else none

def unlock (m : CondLock θ ζ) : CondLock θ ζ := { m with owner := none }

/-- What a step of `t` may do to the mutex: leave it alone, take it when it is
free, or give it up. -/
def Changes (t : θ) (m m' : CondLock θ ζ) : Prop :=
  m'.owner = m.owner ∨ (m.owner = none ∧ m'.owner = some t) ∨ (m.owner = some t ∧ m'.owner = none)

theorem lock_inv (h : m.lock t = some m') : m.owner = none ∧ m' = { m with owner := some t } := by
  unfold lock at h
  split at h
  · next hn => exact ⟨hn, (Option.some.inj h).symm⟩
  · cases h

theorem Changes.owner_iff (h : Changes t m m') (hu : u ≠ t) :
    m'.owner = some u ↔ m.owner = some u := by
  rcases h with h | ⟨h, h'⟩ | ⟨h, h'⟩
  · rw [h]
  · simp [h, h', hu.symm]
  · simp [h, h', hu.symm]

theorem Changes.of_eq (h : m'.owner = m.owner) : Changes t m m' := .inl h

theorem Changes.of_lock (h : m.lock t = some m') : Changes t m m' := by
  obtain ⟨hn, rfl⟩ := lock_inv h
  exact .inr (.inl ⟨hn, rfl⟩)

theorem Changes.of_unlock (h : m.owner = some t) : Changes t m m.unlock := .inr (.inr ⟨h, rfl⟩)

section Wait

variable [DecidableEq ζ]

/-- `t` blocks on `z` and leaves the mutex. -/
def wait (m : CondLock θ ζ) (z : ζ) (t : θ) : CondLock θ ζ where
  owner := none
  waiters := update m.waiters z (t :: m.waiters z)

def broadcast (m : CondLock θ ζ) (z : ζ) : CondLock θ ζ :=
  { m with waiters := update m.waiters z [] }

theorem mem_wait : u ∈ (m.wait z t).waiters y ↔ u ∈ m.waiters y ∨ (y = z ∧ u = t) := by
  unfold wait
  by_cases hy : y = z
  · subst hy
    simp [or_comm]
  · simp [hy]

theorem mem_broadcast : u ∈ (m.broadcast z).waiters y ↔ u ∈ m.waiters y ∧ y ≠ z := by
  unfold broadcast
  by_cases hy : y = z
  · subst hy
    simp
  · simp [hy]

theorem Changes.of_wait (h : m.owner = some t) : Changes t m (m.wait z t) := .inr (.inr ⟨h, rfl⟩)

end Wait

variable [DecidableEq θ]

/-- `t`, which a signal took off the list, goes on with the mutex. -/
def wake (m : CondLock θ ζ) (z : ζ) (t : θ) : Option (CondLock θ ζ) :=
  if t ∈ m.waiters z then none else m.lock t

theorem wake_inv (h : m.wake z t = some m') :
    t ∉ m.waiters z ∧ m.owner = none ∧ m' = { m with owner := some t } := by
  unfold wake at h
  split at h
  · cases h
  · next hn => exact ⟨hn, lock_inv h⟩

theorem Changes.of_wake (h : m.wake z t = some m') : Changes t m m' := by
  obtain ⟨-, hn, rfl⟩ := wake_inv h
  exact .inr (.inl ⟨hn, rfl⟩)

variable [DecidableEq ζ]

/-- `t` is no longer blocked on `z`. -/
def leave (m : CondLock θ ζ) (z : ζ) (t : θ) : CondLock θ ζ :=
  { m with waiters := update m.waiters z ((m.waiters z).filter (· ≠ t)) }

/-- A signal picks one of the threads that are blocked, if there is one. -/
def signal (m : CondLock θ ζ) (z : ζ) : Option θ → Option (CondLock θ ζ)
  | none => if m.waiters z = [] then some m else none
  | some t => if t ∈ m.waiters z then some (m.leave z t) else none

theorem mem_leave : u ∈ (m.leave z t).waiters y ↔ u ∈ m.waiters y ∧ (y = z → u ≠ t) := by
  unfold leave
  by_cases hy : y = z
  · subst hy
    simp
  · simp [hy]

/-- A signal leaves the mutex alone, and takes nobody but the one it picks off
the list. -/
theorem signal_inv {pick : Option θ} (h : m.signal z pick = some m') :
    (m' = m ∧ m.waiters z = []) ∨ ∃ u ∈ m.waiters z, m' = m.leave z u := by
  cases pick with
  | none =>
    simp only [signal] at h
    split at h
    · next hn => exact .inl ⟨(Option.some.inj h).symm, hn⟩
    · cases h
  | some u =>
    simp only [signal] at h
    split at h
    · next hu => exact .inr ⟨u, hu, (Option.some.inj h).symm⟩
    · cases h

theorem signal_owner {pick : Option θ} (h : m.signal z pick = some m') : m'.owner = m.owner := by
  rcases signal_inv h with ⟨rfl, -⟩ | ⟨u, -, rfl⟩ <;> rfl

end CondLock
