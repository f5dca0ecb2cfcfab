import Finesse.Lib.Bitmap

/-!
# Hashing of keys

The object table places an entry by `MurmurHash3_x64_128` of its key, the
two halves of the hash mixed and folded to the number of buckets. Nothing
that is proved about the table depends on which function this is; it is
here so that the table can be run.

The fold is meant to use the whole hash. Its loop goes up to the number of
pieces in steps of their size, so for the sizes in use it takes in the two
lowest pieces and no other (`truncateHash_right_iff`).
-/

namespace Finesse.Utils

open BitVec Bitmap

def rotl64 (x : BitVec 64) (r : Nat) : BitVec 64 := x <<< r ||| x >>> (64 - r)

def fmix64 (k : BitVec 64) : BitVec 64 :=
  let k := k ^^^ k >>> 33
  let k := k * 0xff51afd7ed558ccd#64
  let k := k ^^^ k >>> 33
  let k := k * 0xc4ceb9fe1a85ec53#64
  k ^^^ k >>> 33

def murmurC1 : BitVec 64 := 0x87c37b91114253d5#64
def murmurC2 : BitVec 64 := 0x4cf5ad432745937f#64

def murmurMix1 (k : BitVec 64) : BitVec 64 :=
  rotl64 (k * murmurC1) 31 * murmurC2

def murmurMix2 (k : BitVec 64) : BitVec 64 :=
  rotl64 (k * murmurC2) 33 * murmurC1

/-- Bytes in memory order as a little-endian word. A short list is padded
with zeros, which is what the fall-through switch on the tail computes. -/
def word64 : List (BitVec 8) → BitVec 64
  | [] => 0#64
  | b :: bs => b.setWidth 64 ||| word64 bs <<< 8

/-- The body: one round per block of 16 bytes. Returns the tail as well. -/
def murmurBody : Nat → List (BitVec 8) → BitVec 64 → BitVec 64 →
    List (BitVec 8) × BitVec 64 × BitVec 64
  | 0, key, h1, h2 => (key, h1, h2)
  | n + 1, key, h1, h2 =>
    let h1 := h1 ^^^ murmurMix1 (word64 (key.take 8))
    let h1 := (rotl64 h1 27 + h2) * 5#64 + 0x52dce729#64
    let h2 := h2 ^^^ murmurMix2 (word64 ((key.drop 8).take 8))
    let h2 := (rotl64 h2 31 + h1) * 5#64 + 0x38495ab5#64
    murmurBody n (key.drop 16) h1 h2

def murmurHash3X64128 (key : List (BitVec 8)) (seed : BitVec 32) : BitVec 64 × BitVec 64 :=
  let len := key.length
  let h := seed.setWidth 64
  let (tail, h1, h2) := murmurBody (len / 16) key h h
  let h2 := if 8 < tail.length then h2 ^^^ murmurMix2 (word64 (tail.drop 8))
    else h2
  let h1 := if 0 < tail.length then h1 ^^^ murmurMix1 (word64 (tail.take 8))
    else h1
  let h1 := h1 ^^^ BitVec.ofNat 64 len
  let h2 := h2 ^^^ BitVec.ofNat 64 len
  let h1 := h1 + h2
  let h2 := h2 + h1
  let h1 := fmix64 h1
  let h2 := fmix64 h2
  let h1 := h1 + h2
  let h2 := h2 + h1
  (h1, h2)

/-- The loop of `truncate_hash`: `index` goes up in steps of `shift`. -/
def truncateLoop (mask : BitVec 64) (shift : Nat) : Nat → Nat → BitVec 64 → BitVec 64 → BitVec 64
  | 0, _, _, th => th
  | fuel + 1, index, uh, th =>
    if index < 64 / shift then
      let uh := uh >>> shift
      truncateLoop mask shift fuel (index + shift) uh (th ^^^ (uh &&& mask))
    else th

/-- `truncate_hash`. Shifts are positive, so 64 rounds are enough. -/
def truncateHash (hash : BitVec 64) (shift : Nat) : BitVec 64 :=
  let mask := 1#64 <<< shift - 1#64
  truncateLoop mask shift 64 0 hash (hash &&& mask) &&& mask

/-- The `n` low bytes of a word, in memory order. -/
def bytes {w : Nat} (x : BitVec w) : Nat → List (BitVec 8)
  | 0 => []
  | n + 1 => x.setWidth 8 :: bytes (x >>> 8) n

def getBucketIndex (shift : Nat) (seed : BitVec 32) (key : List (BitVec 8)) : Nat :=
  let mh := murmurHash3X64128 key seed
  (truncateHash (mh.1 ^^^ mh.2) shift).toNat % 2 ^ 16

theorem truncateMask_lt {shift : Nat} (h : shift < 64) :
    (1#64 <<< shift - 1#64).toNat < 2 ^ shift := by
  have hpos : 0 < 2 ^ shift := Nat.two_pow_pos shift
  have hlt : 2 ^ shift < 2 ^ 64 := Nat.pow_lt_pow_right (by decide) h
  rw [toNat_sub, toNat_shiftLeft, toNat_ofNat,
    Nat.shiftLeft_eq, Nat.mod_eq_of_lt (by decide : 1 < 2 ^ 64), Nat.one_mul,
    Nat.mod_eq_of_lt hlt]
  omega

theorem getBucketIndex_lt {shift : Nat} (h : shift < 64) (seed : BitVec 32)
    (key : List (BitVec 8)) : getBucketIndex shift seed key < 2 ^ shift := by
  refine Nat.lt_of_le_of_lt (Nat.mod_le _ _) ?_
  rw [truncateHash, toNat_and]
  exact Nat.and_lt_two_pow _ (truncateMask_lt h)

/-! ## The fold -/

/-- The consecutive pieces of `shift` bits of a hash. The last one may be
shorter. -/
def pieces (hash : BitVec 64) (shift : Nat) : List (BitVec 64) :=
  (List.range ((63 + shift) / shift)).map fun i =>
    hash >>> (i * shift) &&& (1#64 <<< shift - 1#64)

def xorAll : List (BitVec 64) → BitVec 64 := List.foldr (· ^^^ ·) 0#64

section Fold

variable {shift : Nat} (hs : 10 ≤ shift ∧ shift ≤ 15) (hash : BitVec 64)
include hs

theorem truncateHash_eq : truncateHash hash shift =
    (hash &&& (1#64 <<< shift - 1#64)) ^^^ (hash >>> shift &&& (1#64 <<< shift - 1#64)) := by
  have hround : 64 / shift < 7 := Nat.div_lt_of_lt_mul (by omega)
  have hfirst : 0 < 64 / shift := Nat.div_pos (by omega) (by omega)
  have hsecond : ¬ (0 + shift < 64 / shift) := by omega
  simp only [truncateHash, truncateLoop, if_pos hfirst, if_neg hsecond]
  ext i
  simp only [getElem_and, getElem_xor]
  rw [Bool.and_xor_distrib_right, Bool.and_assoc, Bool.and_self, Bool.and_assoc, Bool.and_self]

theorem xorAll_pieces : xorAll (pieces hash shift) =
    truncateHash hash shift ^^^ xorAll ((pieces hash shift).drop 2) := by
  obtain ⟨n, hn⟩ : ∃ n, (63 + shift) / shift = n + 2 :=
    Nat.exists_eq_add_of_le' ((Nat.le_div_iff_mul_le (by omega)).mpr (by omega))
  rw [truncateHash_eq hs, pieces, hn, List.range_succ_eq_map, List.range_succ_eq_map]
  simp [xorAll, xor_assoc]

theorem truncateHash_xor (flip : BitVec 64) : truncateHash (hash ^^^ flip) shift =
    truncateHash hash shift ^^^ truncateHash flip shift := by
  simp only [truncateHash_eq hs, ushiftRight_xor_distrib]
  ext i
  simp only [getElem_and, getElem_xor, Bool.and_xor_distrib_right, Bool.xor_assoc,
    Bool.xor_left_comm]

/-- A bit reaches the index if it is in one of the two lowest pieces. -/
theorem truncateHash_mask {b : Nat} (hb : b < 64) :
    truncateHash (mask b) shift = 0#64 ↔ 2 * shift ≤ b := by
  have hall : ∀ n ≤ 15, 10 ≤ n → ∀ b < 64,
      truncateHash (mask b) n = 0#64 ↔ 2 * n ≤ b := by decide +kernel
  exact hall shift hs.2 hs.1 b hb

/-- The pieces above the second are not folded in, and a bit of them changes
no index. -/
theorem truncateHash_right_iff : (truncateHash hash shift = xorAll (pieces hash shift) ↔
      xorAll ((pieces hash shift).drop 2) = 0#64) ∧
    ∀ b < 64, (truncateHash (hash ^^^ mask b) shift ≠ truncateHash hash shift ↔
      b < 2 * shift) := by
  have hself : ∀ x y : BitVec 64, x = x ^^^ y ↔ y = 0#64 := fun x y => by
    rw [← xor_right_inj x (x := y), xor_zero, eq_comm]
  refine ⟨by rw [xorAll_pieces hs, hself], fun b hb => ?_⟩
  rw [truncateHash_xor hs, ne_comm, ne_eq, hself, truncateHash_mask hs hb, Nat.not_le]

end Fold

theorem truncateHash_right_iff_low : truncateHash 0x3ff#64 10 = xorAll (pieces 0x3ff#64 10) ∧
    truncateHash (0x3ff#64 ^^^ mask 19) 10 ≠ truncateHash 0x3ff#64 10 :=
  have h := truncateHash_right_iff (by decide : 10 ≤ 10 ∧ 10 ≤ 15) 0x3ff#64
  ⟨h.1.mpr (by decide), (h.2 19 (by decide)).mpr (by decide)⟩

/-- The highest bit of a hash is lost. -/
theorem high_bit_lost : truncateHash (mask 63) 10 = truncateHash 0#64 10 ∧
    truncateHash (mask 63) 10 ≠ xorAll (pieces (mask 63) 10) := by
  decide

end Finesse.Utils
