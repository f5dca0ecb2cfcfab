import Finesse.Comm.Region

/-!
# Request numbers

`get_request_number` takes the next value of a counter of 64 bits, and takes
another one if that is zero. The functions that send a request keep the number
in an `int`, which they call `status`, and assert that it is not zero. So the
skipped value is one of `2 ^ 32` for which the assertion fails
(`statuses_nonzero_iff`).
-/

namespace Finesse.Comm

open Machine BitVec List

variable {θ : Type}

/-- One `__sync_fetch_and_add` of `get_request_number`, by some client thread. The
event is the number that is returned; for zero there is none. -/
def fetchRequestNumber (counter : BitVec 64) (_ : θ) : Option (List (BitVec 64) × BitVec 64) :=
  some (if counter = 0#64 then [] else [counter], counter + 1#64)

/-- This is what `FinesseRequestReady` does at that point. -/
theorem readyNumber_fetch [DecidableEq θ] (t : θ) (i : Slot) (r : Nat) (s : Region θ) :
    finesseRequestReady t (.readyNumber i r) s = (fetchRequestNumber s.requestId t).map fun q =>
        ([], q.1.head?.elim (.readyNumber i r) (.readyStoreId i r),
          { s with requestId := q.2 }) := by
  rw [finesseRequestReady, fetchRequestNumber]
  split <;> rfl

/-- `status` of a sender, after `FinesseRequestReady` has returned the number. -/
def sentStatus (id : BitVec 64) : BitVec 32 := id.setWidth 32

/-- The numbers of a run are the values of the counter that are not zero. -/
theorem mem_fetched {ts : List θ} {tr : List (BitVec 64)} {c c' id : BitVec 64}
    (h : run fetchRequestNumber c ts = some (tr, c')) :
    id ∈ tr ↔ id ≠ 0#64 ∧ ∃ k < ts.length, id = c + BitVec.ofNat 64 k := by
  induction ts generalizing c tr with
  | nil =>
    cases h
    simp
  | cons t ts ih =>
    obtain ⟨ev, c1, evs, hs, hr, rfl⟩ := run_cons h
    cases hs
    have hnext : ∀ k, c + 1#64 + BitVec.ofNat 64 k = c + BitVec.ofNat 64 (k + 1) := fun k => by
      rw [BitVec.add_assoc, Nat.add_comm k, BitVec.ofNat_add]
    have hfirst : id ∈ (if c = 0#64 then [] else [c]) ↔ id ≠ 0#64 ∧ id = c := by
      split
      · next hc => simp [hc]
      next hc =>
      rw [mem_singleton]
      exact ⟨fun h => ⟨h ▸ hc, h⟩, And.right⟩
    rw [mem_append, ih hr, hfirst, ← and_or_left, length_cons, Nat.exists_lt_succ_left]
    simp only [hnext, BitVec.add_zero]

/-- The assertion of the senders holds for the numbers of a region as long as its
counter was not advanced more than `2 ^ 32 + 10` times. -/
theorem statuses_nonzero_iff (messages : Slot → Message) {ts : List θ} {tr : List (BitVec 64)}
    {c : BitVec 64} (h : run fetchRequestNumber
      (finesseInitializeMemoryRegion messages : Region θ).requestId ts = some (tr, c)) :
    (∀ id ∈ tr, sentStatus id ≠ 0#32) ↔ ts.length ≤ 2 ^ 32 + 10 := by
  have hvalue : ∀ k < 2 ^ 33, (-10#64 + BitVec.ofNat 64 k).toNat = (2 ^ 64 - 10 + k) % 2 ^ 64 := by
    intro k hk
    rw [toNat_add, toNat_ofNat, Nat.mod_eq_of_lt (show k < 2 ^ 64 by omega)]
    rfl
  replace h : run fetchRequestNumber (-10#64) ts = some (tr, c) := h
  constructor
  · intro hall
    by_contra hlong
    -- the counter has come to `2 ^ 32`
    refine hall (2 ^ 32) ((mem_fetched h).mpr ⟨by decide, 2 ^ 32 + 10, by omega, ?_⟩) (by decide)
    exact eq_of_toNat_eq (hvalue (2 ^ 32 + 10) (by decide)).symm
  · intro hshort id hid hzero
    obtain ⟨hne, k, hk, rfl⟩ := (mem_fetched h).mp hid
    have hv := hvalue k (by omega)
    have hlow := congrArg BitVec.toNat hzero
    rw [sentStatus, toNat_setWidth, hv] at hlow
    refine hne (eq_of_toNat_eq (hv.trans ?_))
    simp only [toNat_ofNat] at hlow ⊢
    omega

theorem statuses_nonzero_iff_wrapped : ∃ tr c,
    run (fetchRequestNumber (θ := Unit)) (-10#64) (replicate 20 ()) = some (tr, c) ∧
    tr.length = 19 ∧ ∀ id ∈ tr, sentStatus id ≠ 0#32 := by
  refine exists_result (I := fun tr _ => tr.length = 19) (by decide +kernel)
    fun tr c h hlen => ⟨hlen, ?_⟩
  exact (statuses_nonzero_iff (fun _ => ⟨0, 0, 0, 0, 0, 0, .request 0⟩) h).mpr (by simp)

/-- The number after `2 ^ 32 - 1` is zero as an `int`. -/
theorem number_lost : ∃ tr c, run (fetchRequestNumber (θ := Unit)) (-10#64)
    (replicate (2 ^ 32 + 11) ()) = some (tr, c) ∧
    ∃ id ∈ tr, id = 2 ^ 32 ∧ sentStatus id = 0#32 := by
  have hruns : ∀ (n : Nat) (c : BitVec 64), ∃ tr c', run (fetchRequestNumber (θ := Unit)) c
      (replicate n ()) = some (tr, c') := by
    intro n
    induction n with
    | zero => exact fun c => ⟨_, _, rfl⟩
    | succ n ih =>
      intro c
      obtain ⟨tr, c', hr⟩ := ih (c + 1#64)
      exact ⟨_, _, run_step rfl hr⟩
  obtain ⟨tr, c, hr⟩ := hruns (2 ^ 32 + 11) (-10#64)
  refine ⟨tr, c, hr, 2 ^ 32, (mem_fetched hr).mpr ⟨by decide, 2 ^ 32 + 10, ?_, by decide⟩, rfl,
    by decide⟩
  rw [length_replicate]
  decide

end Finesse.Comm
