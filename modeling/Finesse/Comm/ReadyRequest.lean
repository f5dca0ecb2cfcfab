import Finesse.Comm.Safety
import Finesse.Errno

/-!
# Taking a ready request

`FinesseGetReadyRequest` from where it holds the mutex, so that nobody changes
the word of waiting requests. It looks for a set bit from a random index upwards
and then below that index, with a mask that moves along, and would start over if
it found none. Between the two loops every bit is looked at once, so it never
does.
-/

namespace Finesse.Comm

open Relation (ReflTransGen)

variable {θ : Type}

/-- How a round of the outer loop ends: with an assertion that fails, with another
round, or with the return of a status and a message. -/
inductive Round where
  | failed
  | again
  | returned (status : Int) (requestBitmap : BitVec 64) (message : Option Slot)

/-- One of the two inner loops, over `n` indices from `i`: the index that is found,
and the word without its bit. -/
def scanBitmap (bitmap : BitVec 64) : Nat → Nat → BitVec 64 → Option (Nat × BitVec 64)
  | 0, _, _ => none
  | n + 1, i, mask =>
    if bitmap &&& mask ≠ 0#64 then some (i, bitmap &&& ~~~mask)
    else scanBitmap bitmap n (i + 1) (mask <<< 1)

namespace Region

/-- What follows when a bit was found, with the two assertions. -/
def handOut (s : Region θ) (found : Nat × BitVec 64) : Round :=
  if h : found.1 < 64 then
    if s.requestBitmap &&& makeMask64 found.1 = 0#64 ∨
        (s.messages ⟨found.1, h⟩).requestId = 0#64 then .failed
    else .returned 0 found.2 (some ⟨found.1, h⟩)
  else .failed

/-- A round of `FinesseGetReadyRequest`. -/
def getReadyRequest (s : Region θ) (rnd : Nat) : Round :=
  if s.shutdownRequested then .returned ENOTCONN s.requestBitmap none
  else if s.requestBitmap = 0#64 then .returned ENOENT s.requestBitmap none
  else
    match scanBitmap s.requestBitmap (64 - rnd) rnd (makeMask64 rnd) with
    | some found => s.handOut found
    | none =>
      match scanBitmap s.requestBitmap rnd 0 1#64 with
      | some found => s.handOut found
      | none => .again

end Region

theorem makeMask64_succ (i : Nat) : makeMask64 i <<< 1 = makeMask64 (i + 1) :=
  (BitVec.shiftLeft_add _ _ _).symm

theorem scanBitmap_spec (b : BitVec 64) : ∀ (n i : Nat), i + n ≤ 64 →
    (∃ j, i ≤ j ∧ j < i + n ∧ (∀ k, i ≤ k → k < j → b.getLsbD k = false) ∧ b.getLsbD j = true ∧
      scanBitmap b n i (makeMask64 i) = some (j, b &&& ~~~makeMask64 j)) ∨
    (scanBitmap b n i (makeMask64 i) = none ∧
      ∀ j, i ≤ j → j < i + n → b.getLsbD j = false) := by
  intro n
  induction n with
  | zero => exact fun i _ => .inr ⟨rfl, fun j hle hlt => absurd hlt (by omega)⟩
  | succ n ih =>
    intro i hi
    have htest := Bitmap.and_mask_eq_zero (show i < 64 by omega) b
    rw [scanBitmap, makeMask64_succ]
    by_cases hbit : b &&& makeMask64 i = 0#64
    · rw [if_neg (not_not_intro hbit)]
      have hfirst : ∀ m, (∀ k, i + 1 ≤ k → k < m → b.getLsbD k = false) →
          ∀ k, i ≤ k → k < m → b.getLsbD k = false := fun m hclear k hle hlt =>
        hle.eq_or_lt.elim (fun h => h ▸ htest.mp hbit) fun h => hclear k h hlt
      rcases ih (i + 1) (by omega) with ⟨j, hle, hlt, hclear, hset, hscan⟩ | ⟨hscan, hclear⟩
      · exact .inl ⟨j, by omega, by omega, hfirst j hclear, hset, hscan⟩
      · exact .inr ⟨hscan, hfirst _ (by rwa [Nat.add_right_comm] at hclear)⟩
    · rw [if_pos hbit]
      refine .inl ⟨i, Nat.le_refl i, by omega, fun k hle hlt => absurd hlt hle.not_gt, ?_, rfl⟩
      exact (Bool.not_eq_false _).mp (mt htest.mpr hbit)

theorem Region.handOut_set {s : Region θ} {i : Slot} {b : BitVec 64}
    (hset : s.requestBitmap.getLsbD i = true) : s.handOut (i, b) =
      if (s.messages i).requestId = 0#64 then .failed else .returned 0 b (some i) := by
  have htest : s.requestBitmap &&& makeMask64 i ≠ 0#64 := fun h => by
    rw [(test_zero _ i).mp h] at hset
    cases hset
  rw [handOut, dif_pos i.isLt]
  simp only [htest, false_or]

/-- A step of a thread in `finesseGetReadyRequest`, where it only looks. -/
def Region.Looks (s : Region θ) (t : θ) (p q : Pc) : Prop :=
  ∃ ev, finesseGetReadyRequest t p s = some (ev, q, s)

theorem Region.looks_over {s : Region θ} {t : θ} {f : Nat → Pc} {i j : Nat} (hle : i ≤ j)
    (hj : j ≤ 64) (hclear : ∀ k, i ≤ k → k < j → s.requestBitmap.getLsbD k = false)
    (hf : ∀ k : Slot, k < j → s.requestBitmap &&& makeMask64 k = 0#64 →
      s.Looks t (f k) (f (k + 1))) : ReflTransGen (s.Looks t) (f i) (f j) := by
  refine (reflTransGen_of_succ_of_le (fun a b => s.Looks t (f a) (f b)) (fun k hk => ?_) hle).lift f
    fun _ _ h => h
  obtain ⟨hik, hkj⟩ := hk
  exact hf ⟨k, by omega⟩ hkj ((test_zero _ ⟨k, by omega⟩).mpr (hclear k hik hkj))

/-- Without a shutdown, a round with waiting requests takes one of them, to which a
thread comes that makes the steps of the call. -/
theorem Region.getReadyRequest_takes {s : Region θ} {rnd : Nat} (hrnd : rnd < 64)
    (hrun : s.shutdownRequested = false) (hne : s.requestBitmap ≠ 0#64) :
    ∃ i : Slot, s.requestBitmap.getLsbD i = true ∧
      (∀ t, ReflTransGen (s.Looks t) (.takeShutdown rnd) (.takeClear s.requestBitmap i)) ∧
      s.getReadyRequest rnd = if (s.messages i).requestId = 0#64 then .failed
        else .returned 0 (s.requestBitmap &&& ~~~makeMask64 i) (some i) := by
  have hrun : ¬ s.shutdownRequested = true := by rw [hrun]; decide
  rw [getReadyRequest, if_neg hrun, if_neg hne]
  have hover : ∀ t {j}, rnd ≤ j → j ≤ 64 →
      (∀ k, rnd ≤ k → k < j → s.requestBitmap.getLsbD k = false) →
      ReflTransGen (s.Looks t) (.takeShutdown rnd) (.takeUp rnd s.requestBitmap j) :=
    fun t j hle hj hclear => .head ⟨[], if_neg hrun⟩ (.head ⟨[], if_neg hne⟩ (.head ⟨[], rfl⟩
      (looks_over hle hj hclear fun k _ hk => ⟨[], (dif_pos k.isLt).trans (if_pos hk)⟩)))
  rcases scanBitmap_spec s.requestBitmap (64 - rnd) rnd (by omega) with
    ⟨j, hle, hlt, hclear, hset, hscan⟩ | ⟨hscan, hup⟩
  · have hj : j < 64 := by omega
    rw [hscan]
    refine ⟨⟨j, hj⟩, hset, fun t => (hover t hle hj.le hclear).tail ⟨[], ?_⟩,
      handOut_set (i := ⟨j, hj⟩) hset⟩
    exact (dif_pos hj).trans (if_neg (mt (test_zero _ ⟨j, hj⟩).mp (by simp [hset])))
  rw [Nat.add_sub_cancel' hrnd.le] at hup
  rcases scanBitmap_spec s.requestBitmap rnd 0 (by omega) with
    ⟨j, -, hlt, hclear, hset, hdown⟩ | ⟨-, hdown⟩
  · have hj : j < 64 := by omega
    rw [hscan]
    dsimp only
    rw [show (1#64 : BitVec 64) = makeMask64 0 from rfl, hdown]
    refine ⟨⟨j, hj⟩, hset, fun t => ?_, handOut_set (i := ⟨j, hj⟩) hset⟩
    have hskip : s.Looks t (.takeUp rnd s.requestBitmap 64) (.takeDown rnd s.requestBitmap 0) :=
      ⟨[], rfl⟩
    have hwalk := looks_over (t := t) (f := .takeDown rnd s.requestBitmap) j.zero_le hj.le hclear
      fun k hkj hk => ⟨[], (dif_pos ⟨by omega, k.isLt⟩).trans (if_pos hk)⟩
    refine ((hover t hrnd.le le_rfl hup).tail hskip).trans (hwalk.tail ⟨[], ?_⟩)
    exact (dif_pos ⟨by omega, hj⟩).trans (if_neg (mt (test_zero _ ⟨j, hj⟩).mp (by simp [hset])))
  · -- both loops together have seen all 64 bits
    refine absurd (BitVec.eq_of_getLsbD_eq fun j hj => ?_) hne
    rw [BitVec.getLsbD_zero]
    by_cases hge : rnd ≤ j
    · exact hup j hge hj
    · exact hdown j (Nat.zero_le j) (by omega)

/-- Without a shutdown, one round is enough: it takes the bit of one waiting request
out of the word and returns its block, or there is none. The assertion that the request
has a number holds in every state that threads of clients and servers reach. -/
theorem getReadyRequest_right [DecidableEq θ] (s : Region θ) {rnd : Nat} (hrnd : rnd < 64)
    (hrun : s.shutdownRequested = false) :
    (s.requestBitmap ≠ 0#64 → ∃ i : Slot, s.requestBitmap.getLsbD i = true ∧
      s.getReadyRequest rnd = if (s.messages i).requestId = 0#64 then .failed
        else .returned 0 (s.requestBitmap &&& ~~~makeMask64 i) (some i)) ∧
    (s.getReadyRequest rnd = .returned ENOENT s.requestBitmap none ↔ s.requestBitmap = 0#64) ∧
    ∀ {messages as tr pcs}, Machine.run (Pool.step exec) (initial θ messages) as =
        some (tr, ⟨pcs, s⟩) →
      ∀ i : Slot, s.requestBitmap.getLsbD i = true → (s.messages i).requestId ≠ 0#64 := by
  refine ⟨fun hne => ?_, ⟨fun h => ?_, fun h => ?_⟩, fun hr i hset => ?_⟩
  · obtain ⟨i, hset, -, h⟩ := Region.getReadyRequest_takes hrnd hrun hne
    exact ⟨i, hset, h⟩
  · by_contra hne
    obtain ⟨i, -, -, hret⟩ := Region.getReadyRequest_takes hrnd hrun hne
    rw [hret] at h
    split at h
    · cases h
    · injection h with hstatus
      exact absurd hstatus (by decide)
  · rw [Region.getReadyRequest, if_neg (by rw [hrun]; decide), if_pos h]
  · obtain ⟨m, -, hI, -⟩ := run_sound hr
    obtain ⟨c, r, -, -, hid⟩ := hI.request_of_bit hset
    exact hid

/-- The only waiting request is below the index at which the search starts. -/
theorem getReadyRequest_right_below :
    let s : Region Unit := { finesseInitializeMemoryRegion fun _ =>
      ⟨1#64, 0, 0, 0, 0, 0, .request 0⟩ with requestBitmap := 8#64 }
    ∃ i : Slot, s.getReadyRequest 40 =
      .returned 0 (s.requestBitmap &&& ~~~makeMask64 i) (some i) := by
  intro s
  obtain ⟨i, -, h⟩ := (getReadyRequest_right s (by decide : 40 < 64) rfl).1
    (by decide : (8#64 : BitVec 64) ≠ 0#64)
  exact ⟨i, h⟩

end Finesse.Comm
