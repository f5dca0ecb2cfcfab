import Finesse.Lib.Pool

/-!
# The largest number of inodes

An inode table counts its inodes and keeps the largest count it has had.
`BitbucketInsertInodeInTable` adds to the count and compares the value from
before that with the maximum, so the maximum lags behind from the first inode on
(`max_inode_count_iff`), whatever the compare-and-swap does.
-/

namespace Finesse.Bitbucket.InodeTable

open Machine Pool

/-- `InodeCount` and `MaxInodeCount` of a table. -/
structure Counters where
  inodeCount : Nat
  maxInodeCount : Nat
deriving DecidableEq, Repr

/-- Where a thread is in `BitbucketInsertInodeInTable`, after the bucket is unlocked,
with its `count` and `max`. -/
inductive CountPc where
  | idle
  | load (count : Nat)
  | swap (count max : Nat)
deriving DecidableEq, Repr

inductive CountAct where
  | insert
  | remove
  | next
deriving DecidableEq, Repr

variable {θ : Type}

/-- One access to the counters. A removal is the one in `InodeDeallocate`, where the
count is not zero. The event is the new value of `InodeCount`. -/
def Counters.exec (_ : θ) (a : CountAct) (pc : CountPc) (s : Counters) :
    Option (List Nat × CountPc × Counters) :=
  match pc, a with
  | .idle, .insert =>
    some ([s.inodeCount + 1], .load s.inodeCount, { s with inodeCount := s.inodeCount + 1 })
  | .idle, .remove =>
    if s.inodeCount = 0 then none
    else some ([s.inodeCount - 1], .idle, { s with inodeCount := s.inodeCount - 1 })
  | .load count, .next =>
    some ([], if s.maxInodeCount < count then .swap count s.maxInodeCount else .idle, s)
  | .swap count max, .next =>
    some ([], .idle, if s.maxInodeCount = max then { s with maxInodeCount := count } else s)
  | _, _ => none

/-- The largest value of `InodeCount` in its history. -/
def largest (history : List Nat) : Nat := history.foldl max 0

theorem largest_append (history : List Nat) (n : Nat) :
    largest (history ++ [n]) = max (largest history) n := by
  rw [largest, List.foldl_append]
  rfl

/-- What a thread is about to store is below `n`. -/
def CountPc.Below (n : Nat) : CountPc → Prop
  | .idle => True
  | .load count | .swap count _ => count < n

/-- The maximum lags behind, and so does what the threads are about to store. -/
structure Lags (history : List Nat) (p : Pool θ CountPc Counters) : Prop where
  maximum : p.shared.maxInodeCount < largest history
  seen : ∀ t, (p.pcs t).Below (largest history)

section

variable [DecidableEq θ] {p p' : Pool θ CountPc Counters} {a : θ × CountAct} {ev : List Nat}
  {pc : CountPc}

theorem CountPc.Below.mono {m n : Nat} (hle : m ≤ n) (h : pc.Below m) : pc.Below n := by
  cases pc with
  | idle => trivial
  | load | swap => exact Nat.lt_of_lt_of_le h hle

theorem Lags.set {history history' : List Nat} {t : θ} {s : Counters} (h : Lags history p)
    (hle : largest history ≤ largest history') (hmax : s.maxInodeCount < largest history')
    (hpc : pc.Below (largest history')) : Lags history' (p.set t pc s) where
  maximum := hmax
  seen := asserts_set (A := fun _ pc _ => CountPc.Below _ pc) hpc fun u _ => (h.seen u).mono hle

theorem Lags.step {history : List Nat} (h : Lags history p)
    (hs : step Counters.exec p a = some (ev, p')) : Lags (history ++ ev) p' := by
  obtain ⟨pc, s, he, rfl⟩ := step_inv hs
  have hmax := h.maximum
  have hseen := h.seen a.1
  unfold Counters.exec at he
  split at he
  · cases he
    refine h.set ?_ ?_ ?_
    all_goals rw [largest_append]
    · exact Nat.le_max_left _ _
    · exact Nat.lt_of_lt_of_le hmax (Nat.le_max_left _ _)
    · exact Nat.lt_of_lt_of_le (Nat.lt_succ_self _) (Nat.le_max_right _ _)
  · split at he
    · cases he
    cases he
    refine h.set ?_ ?_ trivial
    all_goals rw [largest_append]
    · exact Nat.le_max_left _ _
    · exact Nat.lt_of_lt_of_le hmax (Nat.le_max_left _ _)
  · next count hpc _ =>
    cases he
    rw [List.append_nil]
    rw [hpc] at hseen
    refine h.set (Nat.le_refl _) hmax ?_
    split
    · exact hseen
    · trivial
  · next count max hpc _ =>
    cases he
    rw [List.append_nil]
    rw [hpc] at hseen
    refine h.set (Nat.le_refl _) ?_ trivial
    split
    · exact hseen
    · exact hmax
  · cases he

/-- The maximum is right only as long as nothing has been inserted. -/
theorem max_inode_count_iff {as : List (θ × CountAct)} {tr : List Nat}
    (h : run (step Counters.exec) ⟨fun _ => .idle, ⟨0, 0⟩⟩ as = some (tr, p)) :
    p.shared.maxInodeCount = largest tr ↔ ∀ a ∈ as, a.2 ≠ .insert := by
  cases as with
  | nil =>
    cases h
    simp [largest]
  | cons a as =>
    obtain ⟨ev, p1, evs, hs, hr, rfl⟩ := run_cons h
    obtain ⟨pc, s, he, rfl⟩ := step_inv hs
    obtain ⟨t, act⟩ := a
    -- no other call is possible on an empty table
    cases act with
    | remove | next => cases he
    | insert =>
      cases he
      have hlags : Lags [1] (set ⟨fun _ => .idle, ⟨0, 0⟩⟩ t (.load 0) ⟨1, 0⟩) :=
        ⟨Nat.zero_lt_one, asserts_set (A := fun _ pc _ => CountPc.Below 1 pc)
          Nat.zero_lt_one fun _ _ => trivial⟩
      have hend := run_history (fun _ _ _ _ _ hi _ hs => Lags.step hi hs) hlags hr
        (along_trivial _ _)
      exact iff_of_false (Nat.ne_of_lt hend.maximum) fun hno => hno _ List.mem_cons_self rfl

end

/-- Two threads insert an inode each, and one is removed. -/
theorem max_inode_count_iff_two : ∃ tr p, run (step Counters.exec)
      (⟨fun _ => .idle, ⟨0, 0⟩⟩ : Pool Bool CountPc Counters)
      [(false, .insert), (true, .insert), (false, .next), (true, .next), (true, .next),
        (false, .remove)] = some (tr, p) ∧ tr = [1, 2, 1] ∧
    p.shared.maxInodeCount ≠ largest tr := by
  refine exists_result (I := fun tr _ => tr = [1, 2, 1]) (by decide)
    fun tr p h htr => ⟨htr, mt (max_inode_count_iff h).mp fun hno => ?_⟩
  exact hno (false, .insert) List.mem_cons_self rfl

/-- After the first insertion the maximum is still zero. -/
theorem first_inode_not_counted : ∃ tr p, run (step Counters.exec)
      (⟨fun _ => .idle, ⟨0, 0⟩⟩ : Pool Unit CountPc Counters) [((), .insert), ((), .next)] =
      some (tr, p) ∧ p.pcs () = .idle ∧ p.shared = ⟨1, 0⟩ ∧ largest tr = 1 :=
  exists_result (I := fun tr p => p.pcs () = .idle ∧ p.shared = ⟨1, 0⟩ ∧ largest tr = 1)
    (by decide) fun _ _ _ h => h

end Finesse.Bitbucket.InodeTable
