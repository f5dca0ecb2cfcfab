import Finesse.Utils.TableUpkeep

/-!
# How many buckets the object table has

`FinesseCreateTable` turns an estimate of the number of entries into a number
of buckets: it brings a 1024th of the estimate into the range of the sizes
that are supported, and looks for the highest bit with a loop that nothing but
its own test ends. `CreateLookupTable` takes the number in sixteen bits and
knows six values.
-/

namespace Finesse.Utils

open Machine BitVec

/-- The clamps of `FinesseCreateTable`. -/
def clampBuckets (estimatedSize : BitVec 64) : BitVec 64 :=
  let bucketCount := estimatedSize / 1024#64
  let bucketCount := if 0#64 = bucketCount then 10240#64 else bucketCount
  let bucketCount := if bucketCount < 1024#64 then 1024#64 else bucketCount
  if bucketCount > 32768#64 then 32768#64 else bucketCount

/-- `while (1 != (bucket_count >> index)) index++`. `none`: the loop is still
running after `rounds` tests. -/
def seekHighBit : Nat → BitVec 64 → Nat → Option Nat
  | 0, _, _ => none
  | rounds + 1, bucketCount, index =>
    if bucketCount >>> index = 1#64 then some index
    else seekHighBit rounds bucketCount (index + 1)

/-- The `switch` of `CreateLookupTable`. `none`: not a supported bucket
count. -/
def supportedShift (bucketCount : BitVec 16) : Option Nat :=
  match bucketCount.toNat with
  | 1024 => some 10
  | 2048 => some 11
  | 4096 => some 12
  | 8192 => some 13
  | 16384 => some 14
  | 32768 => some 15
  | _ => none

/-- A table, with the length of the bucket array that stands behind it. -/
structure Allocation where
  table : Table
  bucketCount : BitVec 16

/-- `CreateLookupTable`. -/
def allocateTable (bucketCount : BitVec 16) (hashSeed : BitVec 32) : Option Allocation :=
  (supportedShift bucketCount).map fun shift =>
    { table := { createLookupTable shift with
        hashSeed := if 0#32 = hashSeed then 0x7800c666#32 else hashSeed }
      bucketCount }

/-- `FinesseCreateTable`, when its loop is watched for `rounds` tests. The
power of two is an `int` and is passed as a `uint16_t`. -/
def runCreateTable (rounds : Nat) (estimatedSize : BitVec 64) : Option Allocation := do
  let index ← seekHighBit rounds (clampBuckets estimatedSize) 10
  allocateTable ((1#32 <<< index).setWidth 16) 0#32

theorem clampBuckets_toNat (estimatedSize : BitVec 64) : (clampBuckets estimatedSize).toNat =
    min (max 1024 (if estimatedSize.toNat / 1024 = 0 then 10240
      else estimatedSize.toNat / 1024)) 32768 := by
  have hq : (estimatedSize / 1024#64).toNat = estimatedSize.toNat / 1024 := BitVec.toNat_udiv
  rw [clampBuckets, ← hq]
  generalize estimatedSize / 1024#64 = q
  simp only [eq_comm (a := 0#64), ← BitVec.toNat_inj, BitVec.lt_def, gt_iff_lt,
    apply_ite BitVec.toNat, BitVec.toNat_ofNat]
  split_ifs <;> omega

variable {c : BitVec 64} {index : Nat}

theorem shiftRight_eq_one (hc : 2 ^ index ≤ c.toNat) :
    c >>> index = 1#64 ↔ c.toNat < 2 ^ (index + 1) := by
  rw [← toNat_inj, toNat_ushiftRight, Nat.shiftRight_eq_div_pow,
    toNat_ofNat, Nat.mod_eq_of_lt (by decide : 1 < 2 ^ 64), Nat.pow_succ]
  have hpos : 0 < 2 ^ index := Nat.two_pow_pos index
  constructor
  · intro h
    have := Nat.lt_mul_div_succ c.toNat hpos
    rwa [h] at this
  · intro h
    exact Nat.div_eq_of_lt_le (by omega) (by omega)

theorem seekHighBit_eq {rounds index : Nat} (hlo : 2 ^ index ≤ c.toNat)
    (hhi : c.toNat < 2 ^ (index + rounds)) :
    seekHighBit rounds c index = some (Nat.log2 c.toNat) := by
  induction rounds generalizing index with
  | zero => exact absurd hhi (Nat.not_lt.mpr hlo)
  | succ rounds ih =>
    rw [seekHighBit]
    split
    · next h =>
      have hlt := (shiftRight_eq_one hlo).1 h
      have hne : c.toNat ≠ 0 := fun h0 => by
        rw [h0] at hlo
        exact absurd hlo (Nat.not_le.mpr (Nat.two_pow_pos index))
      exact congrArg some (Nat.log2_eq_iff hne |>.2 ⟨hlo, hlt⟩).symm
    · next h =>
      refine ih (Nat.not_lt.1 fun hlt => h ((shiftRight_eq_one hlo).2 hlt)) ?_
      rwa [Nat.add_assoc, Nat.add_comm 1]

theorem highBit_of_seek {rounds index i : Nat}
    (h : seekHighBit rounds c index = some i) : highBit rounds c.toNat index = i := by
  induction rounds generalizing index with
  | zero => cases h
  | succ rounds ih =>
    have hiff : c >>> index = 1#64 ↔ c.toNat >>> index = 1 := by
      rw [← toNat_inj, toNat_ushiftRight]
      rfl
    simp only [seekHighBit, highBit, ← hiff] at h ⊢
    split at h
    · next hone =>
      cases h
      exact if_pos hone
    · next hone => rw [if_neg hone, ih h]

/-- The constructor supports the powers that the loop can end at, and none of
them is too long for its parameter. -/
theorem supportedShift_two_pow (hge : 10 ≤ index) (hlt : index < 16) :
    supportedShift ((1#32 <<< index).setWidth 16) = some index ∧
      ((1#32 <<< index).setWidth 16 : BitVec 16).toNat = 2 ^ index := by
  have hcases : index = 10 ∨ index = 11 ∨ index = 12 ∨ index = 13 ∨ index = 14 ∨ index = 15 := by
    omega
  rcases hcases with rfl | rfl | rfl | rfl | rfl | rfl <;> exact ⟨rfl, rfl⟩

/-- Six tests are enough: the number of buckets is between the ends of the
range, and the tests go from one to the other. -/
theorem runCreateTable_eq (estimatedSize : BitVec 64) :
    let t := finesseCreateTable estimatedSize.toNat
    ∃ bucketCount, bucketCount.toNat = 2 ^ t.bucketCountShift ∧ t.bucketCountShift < 16 ∧
      supportedShift bucketCount = some t.bucketCountShift ∧
      ∀ rounds, 6 ≤ rounds → runCreateTable rounds estimatedSize = some ⟨t, bucketCount⟩ := by
  have hc := clampBuckets_toNat estimatedSize
  generalize hcount : clampBuckets estimatedSize = c at hc
  have hlo : 2 ^ 10 ≤ c.toNat := by omega
  have hhi : c.toNat < 2 ^ 16 := by omega
  have hseek : ∀ {n}, 6 ≤ n → seekHighBit n c 10 = some (Nat.log2 c.toNat) := fun hn =>
    seekHighBit_eq hlo (Nat.lt_of_lt_of_le hhi (Nat.pow_le_pow_right (by decide) (by omega)))
  have hbit := highBit_of_seek (hseek (Nat.le_refl 6))
  have hge : 10 ≤ Nat.log2 c.toNat := (Nat.le_log2 (by omega)).2 hlo
  have hlt : Nat.log2 c.toNat < 16 := (Nat.log2_lt (by omega)).2 hhi
  have hcreate : finesseCreateTable estimatedSize.toNat = createLookupTable (Nat.log2 c.toNat) := by
    rw [← hbit, hc]
    rfl
  obtain ⟨hsupported, hpow⟩ := supportedShift_two_pow hge hlt
  rw [hcreate]
  refine ⟨_, hpow, hlt, hsupported, fun rounds hr => ?_⟩
  rw [runCreateTable, hcount, hseek hr, Option.bind_eq_bind, Option.bind_some, allocateTable,
    hsupported]
  rfl

/-! ## The buckets of a table's keys -/

theorem Table.bucketIndex_step {t t' : Table} {ev : List Unit} {c : Call}
    (h : t.step c = some (ev, t')) : t'.bucketIndex = t.bucketIndex :=
  step_closed (P := fun t₁ => t₁.bucketIndex = t.bucketIndex)
    (fun t₁ i k ht => (lookupEntry_cacheOnly t₁ i k).index.trans ht)
    (fun _ _ _ ht => ht) (fun _ _ _ _ ht => ht) rfl h

theorem Table.bucketIndex_run {t t' : Table} {tr : List Unit} {calls : List Call}
    (h : Machine.run step t calls = some (tr, t')) : t'.bucketIndex = t.bucketIndex := by
  have hstep : ∀ t₁ c ev t₂, t₁.bucketIndex = t.bucketIndex → True →
      step t₁ c = some (ev, t₂) → t₂.bucketIndex = t.bucketIndex :=
    fun _ _ _ _ ht _ hst => (bucketIndex_step hst).trans ht
  exact run_invariant hstep rfl h (along_trivial _ _)

theorem Table.bucketIndex_lt {t : Table} (h : t.bucketCountShift < 64) (key : Key) :
    t.bucketIndex key < 2 ^ t.bucketCountShift := by
  cases key <;> exact getBucketIndex_lt h _ _

/-- Whatever the estimate, the loop ends and leaves a bucket count that the
constructor supports. Whatever is called on the table afterwards, the bucket
of every key is one that was allocated. -/
theorem bucket_index_allocated (estimatedSize : BitVec 64) : ∃ a : Allocation,
    (∀ rounds, 6 ≤ rounds → runCreateTable rounds estimatedSize = some a) ∧
    supportedShift a.bucketCount = some a.table.bucketCountShift ∧
    ∀ calls tr t, Machine.run Table.step a.table calls = some (tr, t) →
      ∀ key, t.bucketIndex key < a.bucketCount.toNat := by
  obtain ⟨bucketCount, hcount, hlt, hsupported, hcreate⟩ := runCreateTable_eq estimatedSize
  refine ⟨_, hcreate, hsupported, fun calls tr t hrun key => ?_⟩
  rw [Table.bucketIndex_run hrun, hcount]
  exact Table.bucketIndex_lt (Nat.lt_trans hlt (by decide)) key

end Finesse.Utils
