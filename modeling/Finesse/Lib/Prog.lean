import Mathlib

/-!
# Programs that may fail

Sequential code over a state: a program either returns a value and the next
state, or has no result, because an assertion failed. The lemmas of this file
take a program that has returned apart, so that a proof about it goes from
one intermediate state to the next without looking into the monad.

`Keeps R` says that a program only makes changes of the kind `R`, `Ends` what
holds when a program has returned, and `Returns` that it does not fail; all go
through a program piece by piece. Where it matters why a program has stopped,
`Stopping` programs give the reason.
-/

/-- A program over states `σ` that returns an `α` or fails. -/
abbrev Prog (σ α : Type) := StateT σ Option α

namespace Prog

variable {σ α β : Type}

/-- Stop unless `p`. -/
def assert (p : Prop) [Decidable p] : Prog σ Unit :=
  fun s => if p then some ((), s) else none

variable {f : Unit → Prog σ β} {p : Prop} [Decidable p] {x : Prog σ α} {s s' : σ} {b : β}
  {g : σ → σ}

theorem bind_inv {f : α → Prog σ β}
    (h : (x >>= f) s = some (b, s')) : ∃ a s1, x s = some (a, s1) ∧ f a s1 = some (b, s') := by
  change (x s).bind (fun p => f p.1 p.2) = some (b, s') at h
  obtain ⟨⟨a, s1⟩, hx, hf⟩ := Option.bind_eq_some_iff.mp h
  exact ⟨a, s1, hx, hf⟩

theorem bind_some {f : α → Prog σ β} {s1 : σ} {a : α}
    (h : x s = some (a, s1)) : (x >>= f) s = f a s1 := by
  change (x s).bind (fun p => f p.1 p.2) = f a s1
  rw [h]
  rfl

theorem bind_none {f : α → Prog σ β} (h : x s = none) : (x >>= f) s = none := by
  change (x s).bind (fun p => f p.1 p.2) = none
  rw [h]
  rfl

theorem pure_inv {a b : α} (h : (pure a : Prog σ α) s = some (b, s')) : a = b ∧ s = s' := by
  cases h
  exact ⟨rfl, rfl⟩

theorem modify_inv {f : σ → σ} {u : Unit}
    (h : (modify f : Prog σ Unit) s = some (u, s')) : s' = f s := by
  cases h
  rfl

theorem assert_inv {u : Unit} (h : (assert p : Prog σ Unit) s = some (u, s')) : p ∧ s = s' := by
  rw [assert] at h
  split at h
  · next hp =>
    cases h
    exact ⟨hp, rfl⟩
  · cases h

theorem get_bind (f : σ → Prog σ β) (s : σ) : ((get : Prog σ σ) >>= f) s = f s s := rfl

theorem modify_bind (g : σ → σ) (f : Unit → Prog σ β) (s : σ) :
    ((modify g : Prog σ Unit) >>= f) s = f () (g s) := rfl

theorem assert_pos (hp : p) (s : σ) : (assert p : Prog σ Unit) s = some ((), s) := if_pos hp

theorem assert_neg (hp : ¬ p) (s : σ) : (assert p : Prog σ Unit) s = none := if_neg hp

theorem get_bind_inv {f : σ → Prog σ β}
    (h : ((get : Prog σ σ) >>= f) s = some (b, s')) : f s s = some (b, s') :=
  h

theorem modify_bind_inv
    (h : ((modify g : Prog σ Unit) >>= f) s = some (b, s')) : f () (g s) = some (b, s') :=
  h

theorem assert_bind_inv
    (h : ((assert p : Prog σ Unit) >>= f) s = some (b, s')) : p ∧ f () s = some (b, s') := by
  obtain ⟨u, s1, ha, hf⟩ := bind_inv h
  obtain ⟨hp, rfl⟩ := assert_inv ha
  exact ⟨hp, hf⟩

/-- Every change that the program makes to the state is an `R`. -/
def Keeps (R : σ → σ → Prop) (x : Prog σ α) : Prop :=
  ∀ s a s', x s = some (a, s') → R s s'

namespace Keeps

variable {R : σ → σ → Prop}

theorem pure [Std.Refl R] (a : α) : Keeps R (Pure.pure a) := by
  intro s b s' h
  obtain ⟨-, rfl⟩ := pure_inv h
  exact Std.Refl.refl s

theorem bind [IsTrans σ R] {f : α → Prog σ β} (hx : Keeps R x)
    (hf : ∀ a, Keeps R (f a)) : Keeps R (x >>= f) := by
  intro s b s' h
  obtain ⟨a, s1, h1, h2⟩ := bind_inv h
  exact IsTrans.trans _ _ _ (hx s a s1 h1) (hf a s1 b s' h2)

theorem get_bind {f : σ → Prog σ β} (hf : ∀ s, Keeps R (f s)) : Keeps R (get >>= f) :=
  fun s b s' h => hf s s b s' h

theorem assert_bind (hf : p → Keeps R (f ())) : Keeps R (assert p >>= f) := by
  intro s b s' h
  obtain ⟨hp, h⟩ := assert_bind_inv h
  exact hf hp s b s' h

theorem ite {y : Prog σ α} (hx : p → Keeps R x)
    (hy : ¬ p → Keeps R y) : Keeps R (if p then x else y) := by
  split_ifs with hp
  exacts [hx hp, hy hp]

end Keeps

/-- If the program returns from the state `s`, the result is a `Q`. -/
def Ends (x : Prog σ α) (s : σ) (Q : α → σ → Prop) : Prop :=
  ∀ a s', x s = some (a, s') → Q a s'

namespace Ends

variable {Q : β → σ → Prop}

theorem pure (h : Q b s) : Ends (Pure.pure b) s Q := by
  intro c s' hx
  obtain ⟨rfl, rfl⟩ := pure_inv hx
  exact h

theorem bind {f : α → Prog σ β} {R : α → σ → Prop} (hx : Ends x s R)
    (hf : ∀ a s', R a s' → Ends (f a) s' Q) : Ends (x >>= f) s Q := by
  intro b s' h
  obtain ⟨a, s1, h1, h2⟩ := bind_inv h
  exact hf a s1 (hx a s1 h1) b s' h2

theorem get_bind {f : σ → Prog σ β} (h : Ends (f s) s Q) : Ends (get >>= f) s Q := h

theorem modify_bind (h : Ends (f ()) (g s) Q) : Ends (modify g >>= f) s Q := h

theorem assert_bind (h : p → Ends (f ()) s Q) : Ends (Prog.assert p >>= f) s Q := by
  intro b s' hx
  obtain ⟨hp, hx⟩ := assert_bind_inv hx
  exact h hp b s' hx

theorem ite {x y : Prog σ β} (hx : p → Ends x s Q)
    (hy : ¬ p → Ends y s Q) : Ends (if p then x else y) s Q := by
  split_ifs with hp
  exacts [hx hp, hy hp]

end Ends

/-- The program does not fail in the state `s`. -/
def Returns (x : Prog σ α) (s : σ) : Prop := ∃ a s', x s = some (a, s')

namespace Returns

theorem pure (a : α) : Returns (Pure.pure a) s := ⟨a, s, rfl⟩

/-- The second program may rely on what the first one has done. -/
theorem bind {f : α → Prog σ β} (hx : Returns x s)
    (hf : ∀ a s', x s = some (a, s') → Returns (f a) s') : Returns (x >>= f) s := by
  obtain ⟨a, s1, h⟩ := hx
  obtain ⟨b, s2, h'⟩ := hf a s1 h
  exact ⟨b, s2, (bind_some h).trans h'⟩

theorem bind_eq {f : α → Prog σ β} {a : α} {s1 : σ} (hx : x s = some (a, s1))
    (hf : Returns (f a) s1) : Returns (x >>= f) s := by
  obtain ⟨b, s2, h⟩ := hf
  exact ⟨b, s2, (bind_some hx).trans h⟩

theorem get_bind {f : σ → Prog σ β} (hf : Returns (f s) s) : Returns (get >>= f) s := hf

theorem modify_bind (hf : Returns (f ()) (g s)) : Returns (modify g >>= f) s := hf

theorem assert (hp : p) : Returns (Prog.assert p) s := ⟨(), s, assert_pos hp s⟩

theorem assert_bind (hp : p) (hf : Returns (f ()) s) : Returns (Prog.assert p >>= f) s := by
  refine (assert hp).bind fun _ s' h => ?_
  obtain ⟨-, rfl⟩ := assert_inv h
  exact hf

theorem ite {x y : Prog σ α} (hx : p → Returns x s)
    (hy : ¬ p → Returns y s) : Returns (if p then x else y) s := by
  split_ifs with hp
  exacts [hx hp, hy hp]

end Returns

end Prog

/-- A program over states `σ` that returns an `α` or stops for a reason. -/
abbrev Stopping (σ ε α : Type) := StateT σ (Except ε) α

namespace Stopping

variable {σ ε α β : Type}

/-- A program that stops for the reason `e` when `x` fails. -/
def ofProg (e : ε) (x : Prog σ α) : Stopping σ ε α := fun s =>
  match x s with
  | none => .error e
  | some r => .ok r

def stop (e : ε) : Stopping σ ε α := fun _ => .error e

theorem bind_apply (x : Stopping σ ε α) (f : α → Stopping σ ε β) (s : σ) :
    (x >>= f) s = match x s with
      | .error e => .error e
      | .ok (a, s1) => f a s1 := by
  change (x s).bind (fun p => f p.1 p.2) = _
  cases x s <;> rfl

theorem get_bind (f : σ → Stopping σ ε β) (s : σ) : ((get : Stopping σ ε σ) >>= f) s = f s s := rfl

variable {f : α → Stopping σ ε β} {x : Prog σ α} {s : σ} {e : ε}

theorem bind_ok {x : Stopping σ ε α} {s1 : σ} {a : α}
    (h : x s = .ok (a, s1)) : (x >>= f) s = f a s1 := by
  rw [bind_apply, h]

theorem ofProg_ok {r : α × σ} (h : x s = some r) : ofProg e x s = .ok r := by
  rw [ofProg, h]

end Stopping
