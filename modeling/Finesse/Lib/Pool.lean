import Finesse.Lib.Machine

/-!
# Thread pools

A pool is a shared state and, for every thread, a program counter (with
the thread's locals in it). Threads come from an arbitrary type, so there
may be any number of them. `exec t a pc s` is one atomic step of thread
`t`; a step of the pool picks a thread, and every interleaving is a run of
`Pool.step`.

`pool_monitor` is the proof rule: an invariant `I` of the shared state, an
assertion `L t` at each thread's program counter, and a guarantee `G t`
that every step of `t` gives to the others. A step has to establish `I`,
its own `L` and its `G`; what another thread asserts has to survive `G`.
A monitor of the events may carry the auxiliary state that the assertions talk
about.
-/

/-- Threads with their program counters, over one shared state. -/
structure Pool (θ π σ : Type*) where
  pcs : θ → π
  shared : σ

namespace Pool

variable {θ π σ α ε μ : Type*} [DecidableEq θ]

/-- The pool in which thread `t` has moved to `pc` and the shared state to
`s`. -/
def set (p : Pool θ π σ) (t : θ) (pc : π) (s : σ) : Pool θ π σ :=
  ⟨Function.update p.pcs t pc, s⟩

@[simp] theorem set_shared (p : Pool θ π σ) (t : θ) (pc : π) (s : σ) :
    (p.set t pc s).shared = s := rfl

@[simp] theorem set_pcs_self (p : Pool θ π σ) (t : θ) (pc : π) (s : σ) :
    (p.set t pc s).pcs t = pc := by simp [set]

variable {p : Pool θ π σ} {ev : List ε} {t : θ} {pc : π} {s : σ}

theorem set_pcs_ne (p : Pool θ π σ) {u : θ} (pc : π) (s : σ) (h : u ≠ t) :
    (p.set t pc s).pcs u = p.pcs u := by simp [set, h]

@[simp] theorem set_set (p : Pool θ π σ) (t : θ) (pc pc' : π) (s s' : σ) :
    (p.set t pc s).set t pc' s' = p.set t pc' s' := by simp [set]

/-- One step of the pool: thread `a.1` takes the step `a.2` asks for. -/
def step (exec : θ → α → π → σ → Option (List ε × π × σ))
    (p : Pool θ π σ) (a : θ × α) : Option (List ε × Pool θ π σ) :=
  match exec a.1 a.2 (p.pcs a.1) p.shared with
  | none => none
  | some (ev, pc, s) => some (ev, p.set a.1 pc s)

variable {exec : θ → α → π → σ → Option (List ε × π × σ)} {p' : Pool θ π σ} {a : θ × α}

theorem step_inv (h : step exec p a = some (ev, p')) :
    ∃ pc s, exec a.1 a.2 (p.pcs a.1) p.shared = some (ev, pc, s) ∧ p' = p.set a.1 pc s := by
  simp only [step] at h
  split at h
  · cases h
  next ev' pc s he =>
  simp only [Option.some.injEq, Prod.mk.injEq] at h
  obtain ⟨rfl, rfl⟩ := h
  exact ⟨pc, s, he, rfl⟩

theorem step_of_exec {a : α} {pc' : π} {s' : σ}
    (hpc : p.pcs t = pc) (h : exec t a pc p.shared = some (ev, pc', s')) :
    step exec p (t, a) = some (ev, p.set t pc' s') := by
  simp only [step, hpc, h]

theorem step_set {a : α} {pc' : π} {s' : σ} (h : exec t a pc s = some (ev, pc', s')) :
    step exec (p.set t pc s) (t, a) = some (ev, p.set t pc' s') := by
  rw [step_of_exec (set_pcs_self p t pc s) h, set_set]

variable {monitor : μ → ε → Option μ} {P : Pool θ π σ → θ × α → Prop}
  {I : σ → μ → Prop} {L : θ → π → σ → μ → Prop}
  {G : θ → σ → μ → σ → μ → Prop}

/-- The invariant of a pool: `I` of the shared state, `L` of every thread. -/
structure Holds (I : σ → μ → Prop) (L : θ → π → σ → μ → Prop)
    (p : Pool θ π σ) (m : μ) : Prop where
  shared : I p.shared m
  threads : ∀ t, L t (p.pcs t) p.shared m

theorem pool_step (hlocal : ∀ p m t a ev pc s, Holds I L p m → P p (t, a) →
      exec t a (p.pcs t) p.shared = some (ev, pc, s) →
      ∃ m', Machine.accept monitor m ev = some m' ∧ I s m' ∧ L t pc s m' ∧ G t p.shared m s m')
    (hstable : ∀ t u pc s m s' m', u ≠ t → I s m → G t s m s' m' → L u pc s m → L u pc s' m')
    {m : μ}
    (h : Holds I L p m) (hp : P p a) (hs : step exec p a = some (ev, p')) :
    ∃ m', Machine.accept monitor m ev = some m' ∧ Holds I L p' m' := by
  obtain ⟨t, a⟩ := a
  obtain ⟨pc, s, he, rfl⟩ := step_inv hs
  obtain ⟨m', hm', hI, hL, hG⟩ := hlocal p m t a ev pc s h hp he
  refine ⟨m', hm', hI, fun u => ?_⟩
  by_cases hu : u = t
  · subst hu
    simpa using hL
  · rw [set_pcs_ne p pc s hu]
    exact hstable t u _ _ _ _ _ hu h.shared hG (h.threads u)

/-! ## Invariants that look at the whole pool

Where a condition of a run is about the places of other threads, a step may
use them: the guarantee is then a relation between the pool before the step
and the new state. -/

omit [DecidableEq θ] in
/-- No two threads are in one role. -/
def Exclusive {κ : Type*} (role : π → Option κ) (p : Pool θ π σ) : Prop :=
  ∀ t u k, role (p.pcs t) = some k → role (p.pcs u) = some k → t = u

/-- A step takes on a role only when no other thread is in it. -/
theorem Exclusive.set {κ : Type*} {role : π → Option κ} (h : Exclusive role p)
    (hnew : ∀ k, role pc = some k → role (p.pcs t) = some k ∨
      ∀ u, u ≠ t → role (p.pcs u) ≠ some k) : Exclusive role (p.set t pc s) := by
  have key : ∀ u k, u ≠ t → role pc = some k → role (p.pcs u) ≠ some k := by
    intro u k hu hk hr
    rcases hnew k hk with ht | ho
    · exact hu (h u t k hr ht)
    · exact ho u hu hr
  intro u v k hr hr'
  by_cases hu : u = t
  · by_cases hv : v = t
    · rw [hu, hv]
    rw [hu, set_pcs_self] at hr
    rw [set_pcs_ne p pc s hv] at hr'
    exact absurd hr' (key v k hv hr)
  · rw [set_pcs_ne p pc s hu] at hr
    by_cases hv : v = t
    · rw [hv, set_pcs_self] at hr'
      exact absurd hr (key u k hu hr')
    · rw [set_pcs_ne p pc s hv] at hr'
      exact h u v k hr hr'

theorem asserts_set {A : θ → π → σ → Prop}
    (hself : A t pc s) (hother : ∀ u, u ≠ t → A u (p.pcs u) s) :
    ∀ u, A u ((p.set t pc s).pcs u) (p.set t pc s).shared := by
  intro u
  by_cases hu : u = t
  · rw [hu, set_pcs_self]
    exact hself
  · rw [set_pcs_ne p pc s hu]
    exact hother u hu

end Pool
