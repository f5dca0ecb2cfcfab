import Finesse.Lib.Machine

/-!
# Elapsed times

The statistics of messages, of bitbucket calls and of calls of the library each
have a copy of `timespec_diff`. It sets the nanoseconds of the difference only
when it has to borrow from the seconds, so it is right only then or when they are
the same (`timespec_right_iff`). The copies of `timespec_add` are right as long as
the seconds fit.
-/

namespace Finesse.Utils

open Option

structure Timespec where
  tvSec : Int
  tvNsec : Int
deriving DecidableEq, Repr

/-- The result of signed arithmetic. An overflow is undefined. -/
def long (x : Int) : Option Int := if -2 ^ 63 ≤ x ∧ x < 2 ^ 63 then some x else none

theorem long_some {x : Int} (hpos : 0 ≤ x) (hlt : x < 2 ^ 63) : long x = some x :=
  if_pos ⟨by omega, hlt⟩

theorem long_none {x : Int} (hge : ¬ x < 2 ^ 63) : long x = none := if_neg fun h => hge h.2

namespace Timespec

/-- A normalised time. -/
structure Normal (t : Timespec) : Prop where
  sec : -2 ^ 63 ≤ t.tvSec ∧ t.tvSec < 2 ^ 63
  nsec : 0 ≤ t.tvNsec ∧ t.tvNsec < 10 ^ 9

def nanos (t : Timespec) : Int := t.tvSec * 10 ^ 9 + t.tvNsec

def ofNanos (n : Int) : Timespec := ⟨n / 10 ^ 9, n % 10 ^ 9⟩

/-- The test that the three copies of `timespec_diff` make. -/
def Before (t u : Timespec) : Prop :=
  u.tvSec > t.tvSec ∨ u.tvSec = t.tvSec ∧ u.tvNsec ≥ t.tvNsec

instance (t u : Timespec) : Decidable (Before t u) := inferInstanceAs (Decidable (_ ∨ _))

/-- What they do when it succeeds. -/
def elapsed (t u : Timespec) : Option Timespec :=
  (long (u.tvSec - t.tvSec)).bind fun sec =>
    if u.tvNsec < t.tvNsec then
      (long (sec - 1)).map fun sec => ⟨sec, 10 ^ 9 + u.tvNsec - t.tvNsec⟩
    else some ⟨sec, 0⟩

end Timespec

open Timespec List

/-- `timespec_diff` of the bitbucket calls. It asserts that the times are in order. -/
def bitbucketTimespecDiff (t u : Timespec) : Option Timespec :=
  if Before t u then elapsed t u else none

/-- `timespec_diff` of the library calls. -/
def apiTimespecDiff (t u : Timespec) : Option Timespec :=
  if Before t u then elapsed t u else none

/-- `timespec_diff` of the messages, which ignores times that are just wrong. -/
def commTimespecDiff (t u : Timespec) : Option Timespec :=
  if Before t u then elapsed t u else some ⟨0, 0⟩

/-- The loop of `timespec_add`. -/
def carry (sec nsec : Int) : Option Timespec :=
  if 10 ^ 9 ≤ nsec then (long (sec + 1)).bind fun sec => carry sec (nsec - 10 ^ 9)
  else some ⟨sec, nsec⟩
termination_by nsec.toNat
decreasing_by omega

def timespecAdd (one two : Timespec) : Option Timespec :=
  (long (one.tvSec + two.tvSec)).bind fun sec => carry sec (one.tvNsec + two.tvNsec)

/-- `timespec_add_diff` of the messages. -/
def timespecAddDiff (accumulator start stop : Timespec) : Option Timespec :=
  (commTimespecDiff start stop).bind (timespecAdd accumulator)

variable {ds : List Timespec}

namespace Timespec

variable {t u : Timespec}

theorem nanos_ofNanos (n : Int) : (ofNanos n).nanos = n := by
  simp only [nanos, ofNanos]
  omega

theorem Normal.ofNanos_nanos (h : t.Normal) : ofNanos t.nanos = t := by
  obtain ⟨s, n⟩ := t
  have hn := h.nsec
  simp only [ofNanos, nanos, mk.injEq] at hn ⊢
  omega

/-- The difference is right if there is something to borrow or nothing to store. -/
theorem elapsed_right_iff (ht : t.Normal) (hu : u.Normal) (hle : Before t u) :
    (∃ d, elapsed t u = some d ∧ d.Normal ∧ t.nanos + d.nanos = u.nanos) ↔
      u.tvNsec ≤ t.tvNsec ∧ u.tvSec - t.tvSec < 2 ^ 63 := by
  obtain ⟨ts, tn⟩ := t
  obtain ⟨us, un⟩ := u
  have htn := ht.nsec
  have hun := hu.nsec
  simp only [Before, gt_iff_lt, ge_iff_le] at htn hun hle ⊢
  rw [elapsed]
  by_cases hfits : us - ts < 2 ^ 63
  · have hsec := long_some (show 0 ≤ us - ts by omega) hfits
    simp only [hsec, bind_some]
    by_cases hborrow : un < tn
    · have hless := long_some (show 0 ≤ us - ts - 1 by omega) (by omega)
      rw [if_pos hborrow, hless]
      refine iff_of_true ⟨_, rfl, ⟨⟨?_, ?_⟩, ?_, ?_⟩, ?_⟩ ⟨by omega, hfits⟩
      all_goals dsimp only [nanos]
      all_goals omega
    rw [if_neg hborrow]
    constructor
    · rintro ⟨d, hd, -, hsum⟩
      cases hd
      simp only [nanos] at hsum
      omega
    · rintro ⟨hsame, -⟩
      refine ⟨_, rfl, ⟨⟨?_, ?_⟩, ?_, ?_⟩, ?_⟩
      all_goals dsimp only [nanos]
      all_goals omega
  · simp only [long_none hfits, bind_none]
    exact iff_of_false nofun fun h => hfits h.2

/-- A normalised time that is not negative. -/
structure Duration (t : Timespec) : Prop extends Normal t where
  nonneg : 0 ≤ t.tvSec

/-- The durations that fit are those below this number of nanoseconds. -/
def limit : Int := 2 ^ 63 * 10 ^ 9

theorem Duration.of_nanos {n : Int} (hpos : 0 ≤ n) (hlt : n < limit) : Duration (ofNanos n) where
  sec := by
    simp only [limit, ofNanos] at hlt ⊢
    omega
  nsec := by
    simp only [ofNanos]
    omega
  nonneg := by
    simp only [ofNanos]
    omega

theorem Duration.nanos_nonneg (h : Duration t) : 0 ≤ t.nanos := by
  have := h.nonneg
  have := h.nsec
  rw [nanos]
  omega

/-- What the loop does, however often it has to carry. -/
theorem carry_eq (sec nsec : Int) (hsec : 0 ≤ sec ∧ sec < 2 ^ 63) (hnsec : 0 ≤ nsec) :
    carry sec nsec =
      if sec * 10 ^ 9 + nsec < limit then some (ofNanos (sec * 10 ^ 9 + nsec)) else none := by
  induction sec, nsec using carry.induct with
  | case1 sec nsec h ih =>
    rw [carry, if_pos h]
    by_cases hnext : sec + 1 < 2 ^ 63
    · rw [long_some (by omega) hnext, bind_some, ih (sec + 1) ⟨by omega, hnext⟩ (by omega),
        show (sec + 1) * 10 ^ 9 + (nsec - 10 ^ 9) = sec * 10 ^ 9 + nsec by omega]
    have hover : ¬ sec * 10 ^ 9 + nsec < limit := by
      rw [limit]
      omega
    rw [long_none hnext, bind_none, if_neg hover]
  | case2 sec nsec h =>
    have hfits : sec * 10 ^ 9 + nsec < limit := by
      rw [limit]
      omega
    rw [carry, if_neg h, if_pos hfits, some.injEq, ofNanos, mk.injEq]
    omega

theorem timespecAdd_eq (ht : Duration t) (hu : Duration u) : timespecAdd t u =
    if t.nanos + u.nanos < limit then some (ofNanos (t.nanos + u.nanos)) else none := by
  have htn := ht.nsec
  have hun := hu.nsec
  have hts := ht.nonneg
  have hus := hu.nonneg
  have hsum : t.nanos + u.nanos = (t.tvSec + u.tvSec) * 10 ^ 9 + (t.tvNsec + u.tvNsec) := by
    simp only [nanos]
    omega
  rw [timespecAdd, hsum]
  by_cases hfits : t.tvSec + u.tvSec < 2 ^ 63
  · rw [long_some (by omega) hfits, bind_some, carry_eq _ _ ⟨by omega, hfits⟩ (by omega)]
  have hover : ¬ (t.tvSec + u.tvSec) * 10 ^ 9 + (t.tvNsec + u.tvNsec) < limit := by
    rw [limit]
    omega
  rw [long_none hfits, bind_none, if_neg hover]

theorem sum_nanos_nonneg (hds : ∀ d ∈ ds, Duration d) : 0 ≤ (ds.map nanos).sum := by
  induction ds with
  | nil => exact Int.le_refl 0
  | cons d ds ih =>
    have hd := (hds d mem_cons_self).nanos_nonneg
    have := ih fun e he => hds e (mem_cons_of_mem d he)
    rw [map_cons, sum_cons]
    omega

theorem foldlM_timespecAdd (hds : ∀ d ∈ ds, Duration d) (ht : Duration t) :
    ds.foldlM timespecAdd t = if t.nanos + (ds.map nanos).sum < limit
      then some (ofNanos (t.nanos + (ds.map nanos).sum)) else none := by
  induction ds generalizing t with
  | nil =>
    have hlt : t.nanos < limit := by
      have := ht.sec
      have := ht.nsec
      simp only [nanos, limit]
      omega
    rw [map_nil, sum_nil, Int.add_zero, if_pos hlt, ht.ofNanos_nanos]
    rfl
  | cons d ds ih =>
    have hd := hds d mem_cons_self
    have hrest := fun e he => hds e (mem_cons_of_mem d he)
    have hsum := sum_nanos_nonneg hrest
    have hpos := ht.nanos_nonneg
    have hdpos := hd.nanos_nonneg
    rw [foldlM_cons, timespecAdd_eq ht hd, map_cons, sum_cons]
    by_cases hlt : t.nanos + d.nanos < limit
    · rw [if_pos hlt]
      refine (ih hrest (.of_nanos (by omega) hlt)).trans ?_
      rw [nanos_ofNanos, Int.add_assoc]
    · rw [if_neg hlt, if_neg (by omega)]
      rfl

theorem Duration.zero : Duration ⟨0, 0⟩ := ⟨⟨by decide, by decide⟩, by decide⟩

theorem foldlM_zero_iff (hds : ∀ d ∈ ds, Duration d) :
    ds.foldlM timespecAdd ⟨0, 0⟩ = some (ofNanos (ds.map nanos).sum) ↔
      (ds.map nanos).sum < limit := by
  rw [foldlM_timespecAdd hds .zero, show nanos ⟨0, 0⟩ = 0 from rfl, Int.zero_add]
  split
  · next h => exact iff_of_true rfl h
  · next h => exact iff_of_false nofun h

/-- Adding up the differences of messages is adding up durations. -/
theorem foldlM_timespecAddDiff {ps : List (Timespec × Timespec)}
    (h : ps.mapM (fun p => commTimespecDiff p.1 p.2) = some ds) (t : Timespec) :
    ps.foldlM (fun t p => timespecAddDiff t p.1 p.2) t = ds.foldlM timespecAdd t := by
  induction ps generalizing ds t with
  | nil =>
    cases h
    rfl
  | cons p ps ih =>
    rw [mapM_cons] at h
    obtain ⟨d, hd, h⟩ := bind_eq_some_iff.mp h
    obtain ⟨ds', hds, heq⟩ := bind_eq_some_iff.mp h
    cases heq
    rw [foldlM_cons, foldlM_cons, timespecAddDiff, hd]
    exact congrArg _ (funext fun t => ih hds t)

end Timespec

/-- For times in order, the three differences are right when the nanoseconds of the end
are not more than those of the beginning, and sums of durations are right when they fit. -/
theorem timespec_right_iff {t u : Timespec} (ht : t.Normal) (hu : u.Normal) (hle : Before t u)
    (hds : ∀ d ∈ ds, Duration d) :
    (∀ diff ∈ [bitbucketTimespecDiff, apiTimespecDiff, commTimespecDiff],
      (∃ d, diff t u = some d ∧ d.Normal ∧ t.nanos + d.nanos = u.nanos) ↔
        u.tvNsec ≤ t.tvNsec ∧ u.tvSec - t.tvSec < 2 ^ 63) ∧
    (ds.foldlM timespecAdd ⟨0, 0⟩ = some (ofNanos (ds.map nanos).sum) ↔
      (ds.map nanos).sum < 2 ^ 63 * 10 ^ 9) ∧
    ∀ ps : List (Timespec × Timespec), ps.mapM (fun p => commTimespecDiff p.1 p.2) = some ds →
      (ps.foldlM (fun t p => timespecAddDiff t p.1 p.2) ⟨0, 0⟩ = some (ofNanos (ds.map nanos).sum) ↔
        (ds.map nanos).sum < 2 ^ 63 * 10 ^ 9) := by
  refine ⟨?_, foldlM_zero_iff hds, fun ps hps => ?_⟩
  · intro diff hdiff
    have heq : diff t u = elapsed t u := by
      simp only [mem_cons, not_mem_nil, or_false] at hdiff
      rcases hdiff with rfl | rfl | rfl
      all_goals exact if_pos hle
    rw [heq]
    exact elapsed_right_iff ht hu hle
  · rw [foldlM_timespecAddDiff hps]
    exact foldlM_zero_iff hds

/-- From 1.9 s to 3.1 s, and two durations that carry. -/
theorem timespec_right_iff_carry :
    (∃ d, bitbucketTimespecDiff ⟨1, 900000000⟩ ⟨3, 100000000⟩ = some d ∧ d.Normal ∧
      nanos ⟨1, 900000000⟩ + d.nanos = nanos ⟨3, 100000000⟩) ∧
    foldlM timespecAdd ⟨0, 0⟩ [⟨1, 200000000⟩, ⟨0, 900000000⟩] = some ⟨2, 100000000⟩ := by
  have hds : ∀ d ∈ [(⟨1, 200000000⟩ : Timespec), ⟨0, 900000000⟩], Duration d := by
    simp only [forall_mem_cons]
    exact ⟨⟨⟨by decide, by decide⟩, by decide⟩, ⟨⟨by decide, by decide⟩, by decide⟩, nofun⟩
  have h := timespec_right_iff (t := ⟨1, 900000000⟩) (u := ⟨3, 100000000⟩)
    ⟨by decide, by decide⟩ ⟨by decide, by decide⟩ (by decide) hds
  exact ⟨(h.1 _ mem_cons_self).mpr (by decide), h.2.1.mpr (by decide)⟩

/-- A call of one nanosecond within a second takes no time. -/
theorem nanoseconds_dropped : bitbucketTimespecDiff ⟨1, 0⟩ ⟨1, 1⟩ = some ⟨0, 0⟩ ∧
    apiTimespecDiff ⟨1, 0⟩ ⟨1, 1⟩ = some ⟨0, 0⟩ ∧ commTimespecDiff ⟨1, 0⟩ ⟨1, 1⟩ = some ⟨0, 0⟩ ∧
    ¬ ∃ diff ∈ [bitbucketTimespecDiff, apiTimespecDiff, commTimespecDiff], ∃ d,
      diff ⟨1, 0⟩ ⟨1, 1⟩ = some d ∧ d.Normal ∧ nanos ⟨1, 0⟩ + d.nanos = nanos ⟨1, 1⟩ := by
  refine ⟨by decide, by decide, by decide, ?_⟩
  rintro ⟨diff, hdiff, d, hd, -, hsum⟩
  have hzero : diff ⟨1, 0⟩ ⟨1, 1⟩ = some ⟨0, 0⟩ := by
    clear hd
    revert diff
    decide
  cases hzero.symm.trans hd
  exact absurd hsum (by decide)

end Finesse.Utils
