import Mathlib

/-!
# Reader-writer locks

A lock is who holds it: one writer, or any number of readers, a thread that
took it twice being listed twice. Taking it is a step that is not there
while the lock cannot be had.

Threads that wait for locks wait for the threads that hold them. They do not
wait in a circle if every thread holds only locks that come, in some order,
before those it waits for.
-/

structure RwLock (θ : Type*) where
  writer : Option θ
  readers : List θ

namespace RwLock

variable {θ : Type*} [DecidableEq θ]

def free : RwLock θ := ⟨none, []⟩

def rdlock (l : RwLock θ) (t : θ) : Option (RwLock θ) :=
  if l.writer = none then some { l with readers := t :: l.readers } else none

def wrlock (l : RwLock θ) (t : θ) : Option (RwLock θ) :=
  if l.writer = none ∧ l.readers = [] then some { l with writer := some t }
  else none

/-- Drop what `t` holds: the write lock, or one read lock. -/
def unlock (l : RwLock θ) (t : θ) : RwLock θ :=
  if l.writer = some t then { l with writer := none }
  else { l with readers := l.readers.erase t }

variable {l l' : RwLock θ} {t u : θ}

/-- Readers and a writer exclude each other. -/
def Wf (l : RwLock θ) : Prop := l.writer ≠ none → l.readers = []

/-- What `t` does to a lock: the others hold what they held. -/
structure Step (t : θ) (l l' : RwLock θ) : Prop where
  readers : ∀ u, u ≠ t → l'.readers.count u = l.readers.count u
  writer : ∀ u, u ≠ t → (l'.writer = some u ↔ l.writer = some u)
  wf : l.Wf → l'.Wf

omit [DecidableEq θ] in
theorem rdlock_inv (h : l.rdlock t = some l') :
    l.writer = none ∧ l' = { l with readers := t :: l.readers } := by
  rw [rdlock] at h
  split at h
  · next hw => exact ⟨hw, (Option.some.inj h).symm⟩
  · cases h

omit [DecidableEq θ] in
theorem wrlock_inv (h : l.wrlock t = some l') :
    l.writer = none ∧ l.readers = [] ∧ l' = { l with writer := some t } := by
  rw [wrlock] at h
  split at h
  · next hw => exact ⟨hw.1, hw.2, (Option.some.inj h).symm⟩
  · cases h

theorem Step.refl (t : θ) (l : RwLock θ) : Step t l l := ⟨fun _ _ => rfl, fun _ _ => Iff.rfl, id⟩

theorem Step.rdlock (h : l.rdlock t = some l') : Step t l l' := by
  obtain ⟨hw, rfl⟩ := rdlock_inv h
  refine ⟨fun u hu => ?_, fun _ _ => Iff.rfl, fun _ hn => absurd hw hn⟩
  exact List.count_cons_of_ne (Ne.symm hu)

theorem Step.wrlock (h : l.wrlock t = some l') : Step t l l' := by
  obtain ⟨hw, hr, rfl⟩ := wrlock_inv h
  refine ⟨fun _ _ => rfl, fun u hu => ?_, fun _ _ => hr⟩
  rw [hw]
  exact ⟨fun h => absurd (Option.some.inj h).symm hu, nofun⟩

theorem unlock_of_writer (h : l.writer = some t) :
    l.unlock t = { l with writer := none } := if_pos h

theorem unlock_of_reader (h : l.writer ≠ some t) :
    l.unlock t = { l with readers := l.readers.erase t } := if_neg h

theorem Step.unlock (t : θ) (l : RwLock θ) : Step t l (l.unlock t) := by
  by_cases hw : l.writer = some t
  · rw [unlock_of_writer hw]
    refine ⟨fun _ _ => rfl, fun u hu => ?_, fun _ hn => absurd rfl hn⟩
    rw [hw]
    exact ⟨nofun, fun h => absurd (Option.some.inj h).symm hu⟩
  · rw [unlock_of_reader hw]
    refine ⟨fun u hu => ?_, fun _ _ => Iff.rfl, fun h hn => ?_⟩
    · exact List.count_erase_of_ne hu
    change l.readers.erase t = []
    rw [h hn]
    rfl

/-! ## How often a thread holds a lock -/

def holdings (l : RwLock θ) (t : θ) : Nat :=
  l.readers.count t + if l.writer = some t then 1 else 0

theorem holdings_rdlock (h : l.rdlock t = some l') : l'.holdings t = l.holdings t + 1 := by
  obtain ⟨hw, rfl⟩ := rdlock_inv h
  rw [holdings, holdings, List.count_cons_self]
  exact Nat.add_right_comm _ _ _

theorem holdings_wrlock (h : l.wrlock t = some l') : l'.holdings t = l.holdings t + 1 := by
  obtain ⟨hw, hr, rfl⟩ := wrlock_inv h
  rw [holdings, holdings, hw]
  simp

/-- Either lock. -/
def acquire (l : RwLock θ) (t : θ) (exclusive : Bool) : Option (RwLock θ) :=
  if exclusive then l.wrlock t else l.rdlock t

variable {exclusive : Bool}

theorem holdings_acquire (h : l.acquire t exclusive = some l') :
    l'.holdings t = l.holdings t + 1 := by
  cases exclusive
  · exact holdings_rdlock h
  · exact holdings_wrlock h

theorem Step.acquire (h : l.acquire t exclusive = some l') : Step t l l' := by
  cases exclusive
  · exact .rdlock h
  · exact .wrlock h

theorem holdings_unlock (l : RwLock θ) (t : θ) : (l.unlock t).holdings t = l.holdings t - 1 := by
  by_cases hw : l.writer = some t
  · rw [unlock_of_writer hw, holdings, holdings, if_pos hw]
    simp
  · rw [unlock_of_reader hw, holdings, holdings, if_neg hw, List.count_erase_self]
    simp

theorem Step.holdings (h : Step t l l') (hu : u ≠ t) : l'.holdings u = l.holdings u := by
  rw [RwLock.holdings, RwLock.holdings, h.readers u hu]
  simp only [h.writer u hu]

omit [DecidableEq θ] in
theorem writer_of_acquire (h : l.acquire t exclusive = some l') : l.writer = none := by
  cases exclusive
  · exact (rdlock_inv h).1
  · exact (wrlock_inv h).1

theorem Wf.others (hw : l.Wf) (h : l.writer = some t) (hu : u ≠ t) : l.holdings u = 0 := by
  rw [RwLock.holdings, hw (by rw [h]; nofun), h, if_neg fun he => hu (Option.some.inj he).symm]
  rfl

theorem Wf.writer_eq_none (hw : l.Wf) (h : 0 < l.readers.count t) : l.writer = none := by
  refine Classical.byContradiction fun hn => ?_
  rw [hw hn] at h
  exact Nat.lt_irrefl 0 h

theorem Wf.cases (hw : l.Wf) (h : 0 < l.holdings t) :
    l.writer = some t ∨ l.writer = none ∧ 0 < l.readers.count t := by
  by_cases ht : l.writer = some t
  · exact .inl ht
  · rw [RwLock.holdings, if_neg ht] at h
    exact .inr ⟨hw.writer_eq_none h, h⟩

end RwLock

/-! ## Circular waiting -/

/-- A thread waits for those that hold what it wants. -/
def WaitsFor {θ ρ : Type*} (wants holds : θ → ρ → Prop) (t u : θ) : Prop :=
  ∃ r, wants t r ∧ holds u r

/-- Threads that hold only what comes before what they want do not wait in a
circle. -/
theorem WaitsFor.acyclic {θ ρ : Type*} {wants holds : θ → ρ → Prop} (before : ρ → ρ → Prop)
    [IsStrictOrder ρ before] (h : ∀ t r r', holds t r → wants t r' → before r r') (t : θ) :
    ¬ Relation.TransGen (WaitsFor wants holds) t t := by
  -- along the way from `t` the locks that are held only move on
  have hway : ∀ {u}, Relation.TransGen (WaitsFor wants holds) t u →
      ∃ r r', wants t r ∧ holds u r' ∧ (r = r' ∨ before r r') := by
    intro u hu
    induction hu with
    | single hw =>
      obtain ⟨r, hr, hr'⟩ := hw
      exact ⟨r, r, hr, hr', .inl rfl⟩
    | tail _ hw ih =>
      obtain ⟨r, r', hr, hr', hle⟩ := ih
      obtain ⟨q, hq, hq'⟩ := hw
      have hlt := h _ r' q hr' hq
      refine ⟨r, q, hr, hq', .inr ?_⟩
      rcases hle with rfl | hle
      · exact hlt
      · exact trans_of before hle hlt
  intro hcycle
  obtain ⟨r, r', hr, hr', hle⟩ := hway hcycle
  have hlt := h t r' r hr' hr
  rcases hle with rfl | hle
  · exact irrefl_of before r hlt
  · exact irrefl_of before r (trans_of before hle hlt)
