import Mathlib

/-!
# Runs of a deterministic machine

A machine is its step function: from a state and an input it either takes
a step, giving the events the step shows and the next state, or it has no
step. Nondeterminism (a scheduler, a random number, a reply of the
environment) is part of the input, so a run is a list of inputs and is
computed by `run`; a run that blocks has no result.

* `Along P s as` says that every step of the run meets `P`, a condition on
  the state before the step and the input. `run_invariant` is the rule for
  safety under it.
* a monitor `μ → ε → Option μ` reads the events, and accepts a run when it
  never returns `none`. `run_monitor` is the rule for forward simulations.
-/

namespace Machine

open Option List

variable {σ ι ε μ : Type*}

/-- The run of a machine over a list of inputs: its events and last state. -/
def run (step : σ → ι → Option (List ε × σ)) : σ → List ι → Option (List ε × σ)
  | s, [] => some ([], s)
  | s, a :: as =>
    match step s a with
    | none => none
    | some (ev, s1) =>
      match run step s1 as with
      | none => none
      | some (evs, s') => some (ev ++ evs, s')

/-- Every step of the run over `as` from `s` meets `P`. -/
def Along (step : σ → ι → Option (List ε × σ)) (P : σ → ι → Prop) : σ → List ι → Prop
  | _, [] => True
  | s, a :: as =>
    P s a ∧ ∀ ev s1, step s a = some (ev, s1) → Along step P s1 as

/-- The monitor's state after a list of events, if it accepts them all. -/
def accept (monitor : μ → ε → Option μ) : μ → List ε → Option μ
  | m, [] => some m
  | m, e :: es =>
    match monitor m e with
    | none => none
    | some m' => accept monitor m' es

variable {step : σ → ι → Option (List ε × σ)} {monitor : μ → ε → Option μ}

@[simp] theorem run_nil (s : σ) : run step s [] = some ([], s) := rfl

variable {Inv Q : σ → Prop} {P : σ → ι → Prop} {a : ι} {as : List ι} {ev tr : List ε}

theorem forall_step {s s1 : σ} (h : step s a = some (ev, s1)) :
    (∀ ev' s', step s a = some (ev', s') → Q s') ↔ Q s1 := by
  simp [h]

theorem run_cons {s s' : σ} (h : run step s (a :: as) = some (tr, s')) :
    ∃ ev s1 evs, step s a = some (ev, s1) ∧ run step s1 as = some (evs, s') ∧ tr = ev ++ evs := by
  simp only [run] at h
  cases hs : step s a with
  | none => simp [hs] at h
  | some p =>
    obtain ⟨ev, s1⟩ := p
    simp only [hs] at h
    cases hr : run step s1 as with
    | none => simp [hr] at h
    | some q =>
      obtain ⟨evs, s''⟩ := q
      simp only [hr, some.injEq, Prod.mk.injEq] at h
      obtain ⟨rfl, rfl⟩ := h
      exact ⟨ev, s1, evs, rfl, hr, rfl⟩

theorem run_step {s s1 s' : σ} (hs : step s a = some (ev, s1))
    (hr : run step s1 as = some (tr, s')) : run step s (a :: as) = some (ev ++ tr, s') := by
  rw [run, hs]
  simp only [hr]

theorem run_silent {s s1 s' : σ}
    (hs : step s a = some ([], s1)) (hr : run step s1 as = some (tr, s')) :
    run step s (a :: as) = some (tr, s') := run_step hs hr

theorem run_single {s s' : σ} (hs : step s a = some (ev, s')) :
    run step s [a] = some (ev, s') := by
  rw [run_step hs (run_nil s'), append_nil]

theorem run_append {s s1 s' : σ} {bs : List ι} {tr' : List ε}
    (h : run step s as = some (tr, s1)) (h' : run step s1 bs = some (tr', s')) :
    run step s (as ++ bs) = some (tr ++ tr', s') := by
  induction as generalizing s tr with
  | nil =>
    obtain ⟨rfl, rfl⟩ := Prod.mk.inj (some.inj h)
    exact h'
  | cons a as ih =>
    obtain ⟨ev, s2, evs, hs, hr, rfl⟩ := run_cons h
    rw [append_assoc]
    exact run_step hs (ih hr)

/-- A step that shows nothing, and is taken if `x` has a result. -/
theorem run_cons_map {α : Type*} {s : σ} {x : Option α} {f : α → σ}
    (h : step s a = x.map fun p => ([], f p)) :
    run step s (a :: as) = x.bind fun p => run step (f p) as := by
  rw [run, h]
  cases x with
  | none => rfl
  | some p =>
    simp only [map_some, bind_some]
    split <;> simp [*]

/-- A property kept by every step that meets `P` is kept by every run whose
steps all meet `P`. -/
theorem run_invariant (hstep : ∀ s a ev s', Inv s → P s a → step s a = some (ev, s') → Inv s') :
    ∀ {s s' : σ} {tr : List ε}, Inv s → run step s as = some (tr, s') → Along step P s as →
      Inv s' := by
  induction as with
  | nil =>
    intro s s' tr hi hr _
    simp only [run, some.injEq, Prod.mk.injEq] at hr
    exact hr.2 ▸ hi
  | cons a as ih =>
    intro s s' tr hi hr ha
    obtain ⟨ev, s1, evs, hs, hr', -⟩ := run_cons hr
    exact ih (hstep s a ev s1 hi ha.1 hs) hr' (ha.2 ev s1 hs)

/-- The same for a property of the state and of the events so far. -/
theorem run_history {Inv : List ε → σ → Prop}
    (hstep : ∀ tr s a ev s', Inv tr s → P s a → step s a = some (ev, s') → Inv (tr ++ ev) s') :
    ∀ {s s' : σ} {tr tr' : List ε}, Inv tr s → run step s as = some (tr', s') →
      Along step P s as → Inv (tr ++ tr') s' := by
  induction as with
  | nil =>
    intro s s' tr tr' hi hr _
    simp only [run, some.injEq, Prod.mk.injEq] at hr
    obtain ⟨rfl, rfl⟩ := hr
    rwa [append_nil]
  | cons a as ih =>
    intro s s' tr tr' hi hr ha
    obtain ⟨ev, s1, evs, hs, hr', rfl⟩ := run_cons hr
    rw [← append_assoc]
    exact ih (hstep tr s a ev s1 hi ha.1 hs) hr' (ha.2 ev s1 hs)

theorem along_trivial (s : σ) (as : List ι) : Along step (fun _ _ => True) s as := by
  induction as generalizing s with
  | nil => exact trivial
  | cons a as ih => exact ⟨trivial, fun _ s1 _ => ih s1⟩

/-- If in states that satisfy an invariant the condition `P` on a step gives
`Q`, a run whose steps all meet `P` meets `Q` throughout. -/
theorem along_of_along {P Q : σ → ι → Prop} (hq : ∀ s a, Inv s → P s a → Q s a)
    (hstep : ∀ s a ev s', Inv s → P s a → step s a = some (ev, s') → Inv s') :
    ∀ {s : σ}, Inv s → Along step P s as → Along step Q s as := by
  induction as with
  | nil => exact fun _ _ => trivial
  | cons a as ih =>
    intro s hi ha
    refine ⟨hq s a hi ha.1, fun ev s1 hs => ?_⟩
    exact ih (hstep s a ev s1 hi ha.1 hs) (ha.2 ev s1 hs)

/-- A run over `as` leads from `s` to `s'`, and all of its steps meet `P`. -/
def Reaches (step : σ → ι → Option (List ε × σ)) (P : σ → ι → Prop) (s : σ)
    (as : List ι) (s' : σ) : Prop :=
  (∃ tr, run step s as = some (tr, s')) ∧ Along step P s as

section Reaches

variable {s s1 s' : σ} {bs : List ι}

theorem Reaches.nil (s : σ) : Reaches step P s [] s := ⟨⟨[], rfl⟩, trivial⟩

theorem Reaches.cons (hp : P s a) (hs : step s a = some (ev, s1))
    (h : Reaches step P s1 as s') : Reaches step P s (a :: as) s' := by
  obtain ⟨⟨tr, hr⟩, ha⟩ := h
  exact ⟨⟨ev ++ tr, run_step hs hr⟩, hp, (forall_step hs).mpr ha⟩

theorem Reaches.append (h : Reaches step P s as s1) (h' : Reaches step P s1 bs s') :
    Reaches step P s (as ++ bs) s' := by
  induction as generalizing s with
  | nil =>
    obtain ⟨⟨tr, hr⟩, -⟩ := h
    obtain ⟨-, rfl⟩ := Prod.mk.inj (some.inj hr)
    exact h'
  | cons a as ih =>
    obtain ⟨⟨tr, hr⟩, hp, ha⟩ := h
    obtain ⟨ev, s2, evs, hs, hr', -⟩ := run_cons hr
    exact .cons hp hs (ih ⟨⟨evs, hr'⟩, ha ev s2 hs⟩)

end Reaches

/-- A decision procedure for `Along`, for runs that can be computed. -/
def check (step : σ → ι → Option (List ε × σ)) (p : σ → ι → Bool) : σ → List ι → Bool
  | _, [] => true
  | s, a :: as =>
    p s a && match step s a with
      | none => true
      | some (_, s1) => check step p s1 as

theorem along_of_check {p : σ → ι → Bool} (hp : ∀ a ∈ as, ∀ s, p s a = true → P s a) :
    ∀ {s : σ}, check step p s as = true → Along step P s as := by
  induction as with
  | nil => intro s _; exact trivial
  | cons a as ih =>
    intro s h
    obtain ⟨ha, has⟩ := forall_mem_cons.mp hp
    rw [check, Bool.and_eq_true] at h
    refine ⟨ha s h.1, fun ev s1 hs => ih has ?_⟩
    rw [hs] at h
    exact h.2

theorem along_of_decide [∀ s a, Decidable (P s a)] {s : σ}
    (h : check step (fun s a => decide (P s a)) s as = true) : Along step P s as :=
  along_of_check (fun _ _ _ => of_decide_eq_true) h

/-- Forward simulation with progress. If from related states every input that
meets `P` makes both machines step, with the same events and to related states,
then both run over every list of such inputs, and show the same. -/
theorem run_simulates {τ : Type*} {spec : τ → ι → Option (List ε × τ)}
    {R : σ → τ → Prop}
    (hstep : ∀ s t a, R s t → P s a → ∃ ev s' t',
      step s a = some (ev, s') ∧ spec t a = some (ev, t') ∧ R s' t') :
    ∀ {s : σ} {t : τ}, R s t → Along step P s as →
      ∃ tr s' t', run step s as = some (tr, s') ∧ run spec t as = some (tr, t') ∧ R s' t' := by
  induction as with
  | nil => intro s t hr _; exact ⟨[], s, t, rfl, rfl, hr⟩
  | cons a as ih =>
    intro s t hr ha
    obtain ⟨ev, s1, t1, hs, ht, hr1⟩ := hstep s t a hr ha.1
    obtain ⟨tr, s', t', hs', ht', hr'⟩ := ih hr1 (ha.2 ev s1 hs)
    exact ⟨ev ++ tr, s', t', run_step hs hs', run_step ht ht', hr'⟩

/-- Every state that the run over `as` from `s` reaches satisfies `Q`. -/
def Always (step : σ → ι → Option (List ε × σ)) (Q : σ → Prop) : σ → List ι → Prop
  | s, [] => Q s
  | s, a :: as => Q s ∧ ∀ ev s1, step s a = some (ev, s1) → Always step Q s1 as

/-- A run whose steps all meet `P` stays where the invariant puts it. -/
theorem always_of_along (hinv : ∀ s, Inv s → Q s)
    (hstep : ∀ s a ev s', Inv s → P s a → step s a = some (ev, s') → Inv s') :
    ∀ {s : σ}, Inv s → Along step P s as → Always step Q s as := by
  induction as with
  | nil => exact fun {s} hi _ => hinv s hi
  | cons a as ih =>
    intro s hi ha
    refine ⟨hinv s hi, fun ev s1 hs => ?_⟩
    exact ih (hstep s a ev s1 hi ha.1 hs) (ha.2 ev s1 hs)

/-- If steps that meet `P` keep the invariant, and steps that do not lead out
of `Q`, then a run stays in `Q` exactly when all of its steps meet `P`. -/
theorem always_iff_along (hinv : ∀ s, Inv s → Q s)
    (hgood : ∀ s a ev s', Inv s → P s a → step s a = some (ev, s') → Inv s')
    (hbad : ∀ s a ev s', Inv s → ¬ P s a → step s a = some (ev, s') → ¬ Q s') :
    ∀ {s s' : σ} {tr : List ε}, Inv s → run step s as = some (tr, s') →
      (Always step Q s as ↔ Along step P s as) := by
  induction as with
  | nil =>
    intro s s' tr hi _
    exact ⟨fun _ => trivial, fun _ => hinv s hi⟩
  | cons a as ih =>
    intro s s' tr hi hr
    obtain ⟨ev, s1, evs, hs, hr', -⟩ := run_cons hr
    rw [Always, Along, forall_step hs, forall_step hs]
    by_cases hp : P s a
    · rw [ih (hgood s a ev s1 hi hp hs) hr']
      exact and_congr_left' (iff_of_true (hinv s hi) hp)
    · -- the next state is outside `Q`, whatever the run does after it
      refine iff_of_false (fun h => hbad s a ev s1 hi hp hs ?_) fun h => hp h.1
      cases as with
      | nil => exact h.2
      | cons b bs => exact h.2.1

/-- The same for the events of a run: if steps that meet `P` keep the
invariant and show only safe events, and steps that do not show an unsafe
one, then all events are safe exactly when all steps meet `P`. -/
theorem safe_iff_along {Safe : ε → Prop}
    (hgood : ∀ s a ev s', Inv s → P s a → step s a = some (ev, s') → Inv s' ∧ ∀ e ∈ ev, Safe e)
    (hbad : ∀ s a ev s', Inv s → ¬ P s a → step s a = some (ev, s') → ∃ e ∈ ev, ¬ Safe e) :
    ∀ {s s' : σ} {tr : List ε}, Inv s → run step s as = some (tr, s') →
      ((∀ e ∈ tr, Safe e) ↔ Along step P s as) := by
  induction as with
  | nil =>
    intro s s' tr _ hr
    simp only [run, some.injEq, Prod.mk.injEq] at hr
    obtain ⟨rfl, -⟩ := hr
    exact ⟨fun _ => trivial, fun _ e he => absurd he not_mem_nil⟩
  | cons a as ih =>
    intro s s' tr hi hr
    obtain ⟨ev, s1, evs, hs, hr', rfl⟩ := run_cons hr
    rw [Along, forall_step hs, forall_mem_append]
    by_cases hp : P s a
    · obtain ⟨hi1, hev⟩ := hgood s a ev s1 hi hp hs
      rw [ih hi1 hr']
      exact and_congr_left' (iff_of_true hev hp)
    · obtain ⟨e, he, hne⟩ := hbad s a ev s1 hi hp hs
      exact iff_of_false (fun h => hne (h.1 e he)) fun h => hp h.1

/-! Runs on concrete inputs, from a state that is computed, too. What is needed
of them is decided in one computation. -/

section Computed

variable {init : Option (Unit × σ)} {K : σ → ι → Prop}
  {P : σ → List ε → σ → Prop} [∀ s a, Decidable (K s a)]
  [∀ s tr s', Decidable (P s tr s')]

theorem exists_result {α β : Type*} {x : Option (α × β)} {I Q : α → β → Prop}
    [∀ a b, Decidable (I a b)] (h : (x.map fun q => decide (I q.1 q.2)) = some true)
    (hQ : ∀ a b, x = some (a, b) → I a b → Q a b) : ∃ a b, x = some (a, b) ∧ Q a b := by
  obtain ⟨⟨a, b⟩, hx, hi⟩ := map_eq_some_iff.mp h
  exact ⟨a, b, hx, hQ a b hx (of_decide_eq_true hi)⟩

theorem exists_always {B R : σ → Prop} [DecidablePred B] (h : (init.map fun p => decide (B p.2) &&
      check step (fun s a => decide (K s a)) p.2 as) = some true)
    (hR : ∀ s, init = some ((), s) → Along step K s as → Always step R s as) :
    ∃ s, init = some ((), s) ∧ B s ∧ Always step R s as := by
  obtain ⟨⟨_, s⟩, hs, h⟩ := map_eq_some_iff.mp h
  obtain ⟨hb, hk⟩ := Bool.and_eq_true_iff.mp h
  exact ⟨s, hs, of_decide_eq_true hb, hR s hs (along_of_decide hk)⟩

variable (h : (init.bind fun p => (run step p.2 as).map fun q =>
  check step (fun s a => decide (K s a)) p.2 as && decide (P p.2 q.1 q.2)) = some true)
include h

theorem exists_run {Q : σ → σ → List ε → Prop}
    (hQ : ∀ s tr s', init = some ((), s) → run step s as = some (tr, s') →
      Along step K s as → P s tr s' → Q s s' tr) :
    ∃ s s' tr, init = some ((), s) ∧ run step s as = some (tr, s') ∧ Q s s' tr := by
  obtain ⟨⟨_, s⟩, hs, h⟩ := bind_eq_some_iff.mp h
  obtain ⟨⟨tr, s'⟩, hr, h⟩ := map_eq_some_iff.mp h
  obtain ⟨hk, hp⟩ := Bool.and_eq_true_iff.mp h
  exact ⟨s, s', tr, hs, hr, hQ s tr s' hs hr (along_of_decide hk) (of_decide_eq_true hp)⟩

theorem exists_run_next {β : Type*} {Q : σ → σ → β → List ε → Prop}
    (hQ : ∀ s tr s', init = some ((), s) → run step s as = some (tr, s') →
      Along step K s as → P s tr s' → ∃ b, Q s s' b tr) :
    ∃ s s' b tr, init = some ((), s) ∧ run step s as = some (tr, s') ∧ Q s s' b tr := by
  obtain ⟨s, s', tr, hs, hr, b, hb⟩ := exists_run (Q := fun s s' tr => ∃ b, Q s s' b tr) h hQ
  exact ⟨s, s', b, tr, hs, hr, hb⟩

end Computed

theorem accept_append {m m1 m2 : μ} {es fs : List ε} (he : accept monitor m es = some m1)
    (hf : accept monitor m1 fs = some m2) : accept monitor m (es ++ fs) = some m2 := by
  induction es generalizing m with
  | nil =>
    simp only [accept, some.injEq] at he
    simpa [he] using hf
  | cons e es ih =>
    simp only [accept, cons_append] at he ⊢
    cases hm : monitor m e with
    | none => simp [hm] at he
    | some m' =>
      simp only [hm] at he
      exact ih he

/-- Forward simulation. If every step keeps `R` and shows events that the
monitor accepts from the related state, the monitor accepts every run. -/
theorem run_monitor {R : σ → μ → Prop}
    (hstep : ∀ s m a ev s', R s m → P s a → step s a = some (ev, s') →
      ∃ m', accept monitor m ev = some m' ∧ R s' m') :
    ∀ {s s' : σ} {m : μ} {tr : List ε}, R s m →
      run step s as = some (tr, s') → Along step P s as →
      ∃ m', accept monitor m tr = some m' ∧ R s' m' := by
  induction as with
  | nil =>
    intro s s' m tr hi hr _
    simp only [run, some.injEq, Prod.mk.injEq] at hr
    obtain ⟨rfl, rfl⟩ := hr
    exact ⟨m, rfl, hi⟩
  | cons a as ih =>
    intro s s' m tr hi hr ha
    obtain ⟨ev, s1, evs, hs, hr', rfl⟩ := run_cons hr
    obtain ⟨m1, hm1, hi1⟩ := hstep s m a ev s1 hi ha.1 hs
    obtain ⟨m', hm', hi'⟩ := ih hi1 hr' (ha.2 ev s1 hs)
    exact ⟨m', accept_append hm1 hm', hi'⟩

end Machine
