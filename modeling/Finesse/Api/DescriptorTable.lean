import Finesse.Errno
import Finesse.Lib.Machine

/-!
# The table of file descriptors

`fdmgr.c`: the library in the client finds the state of an open file by its
descriptor, in a hash table whose buckets are circular lists. A list is given
here by its entries from the head on. What lies outside the array of the
buckets is not there to be read: a call that went there would be `none`.

`descriptor_table_is_map` says what the table is for: any calls are answered
as a map would answer them.
-/

namespace Finesse.Api

open List Function Machine

variable {ο : Type*}

/-- `lookup_table_entry_t`, with an `int` as its key. -/
structure DescriptorEntry (ο : Type*) where
  key : BitVec 32
  object : ο

/-- `lookup_table_t`. -/
structure DescriptorTable (ο : Type*) where
  entryCountShift : Nat
  hash : BitVec 32 → BitVec 32
  buckets : List (List (DescriptorEntry ο))

/-- `default_hash`: the words of a key. An `int` is one word. -/
def defaultHash (key : BitVec 32) : BitVec 32 := [key].foldl (· ^^^ ·) (~~~0#32)

/-- The loop of `lookup_table_create`. `none`: still running after `rounds`
tests. -/
def seekShift : Nat → BitVec 32 → Nat → Option Nat
  | 0, _, _ => none
  | rounds + 1, sizeHint, shift =>
    if 1#32 <<< shift < sizeHint then seekShift rounds sizeHint (shift + 1) else some shift

/-- `lookup_table_create`, when there is memory for the table. -/
def lookupTableCreate (rounds : Nat) (sizeHint : BitVec 32)
    (hash : Option (BitVec 32 → BitVec 32)) : Option (DescriptorTable ο) :=
  let sizeHint := if sizeHint > 65536#32 then 65536#32 else sizeHint
  (seekShift rounds sizeHint 0).map fun shift =>
    { entryCountShift := shift
      hash := hash.getD defaultHash
      buckets := replicate (1#32 <<< shift).toNat [] }

namespace DescriptorTable

/-- `lookup_table_hash`. -/
def index (t : DescriptorTable ο) (key : BitVec 32) : Nat :=
  (t.hash key &&& (1#32 <<< t.entryCountShift - 1#32)).toNat

/-- `lookup_table_locked`, with the bucket that is searched. -/
def lookupLocked (t : DescriptorTable ο) (key : BitVec 32) :
    Option (List (DescriptorEntry ο) × Option (DescriptorEntry ο)) :=
  t.buckets[t.index key]?.map fun b => (b, b.find? (·.key = key))

/-- `lookup_table_insert`. The entry is allocated before anything is looked
at: `memory` says that it could be. -/
def insert (t : DescriptorTable ο) (key : BitVec 32) (object : ο) (memory : Bool) :
    Option (Int × DescriptorTable ο) :=
  if memory then
    (t.lookupLocked key).map fun
      | (_, some _) => (EEXIST, t)
      | (b, none) => (0, { t with buckets := t.buckets.set (t.index key) (b ++ [⟨key, object⟩]) })
  else some (ENOMEM, t)

/-- `lookup_table_lookup`. -/
def lookup (t : DescriptorTable ο) (key : BitVec 32) : Option (Int × Option ο) :=
  (t.lookupLocked key).map fun
    | (_, some e) => (0, some e.object)
    | (_, none) => (ENODATA, none)

/-- `lookup_table_remove`. -/
def remove (t : DescriptorTable ο) (key : BitVec 32) : Option (Int × DescriptorTable ο) :=
  (t.lookupLocked key).map fun
    | (b, some _) => (0, { t with buckets := t.buckets.set (t.index key) (b.eraseP (·.key = key)) })
    | (_, none) => (ENODATA, t)

end DescriptorTable

inductive DescriptorCall (ο : Type*) where
  | insert (key : BitVec 32) (object : ο) (memory : Bool)
  | lookup (key : BitVec 32)
  | remove (key : BitVec 32)

/-- A call, with its status and the object of a lookup. -/
def DescriptorTable.step (t : DescriptorTable ο) :
    DescriptorCall ο → Option (List (Int × Option ο) × DescriptorTable ο)
  | .insert key object memory => (t.insert key object memory).map fun r => ([(r.1, none)], r.2)
  | .lookup key => (t.lookup key).map fun r => ([r], t)
  | .remove key => (t.remove key).map fun r => ([(r.1, none)], r.2)

/-- What the calls mean: a map from keys to objects. -/
def mapStep (m : BitVec 32 → Option ο) :
    DescriptorCall ο → Option (List (Int × Option ο) × (BitVec 32 → Option ο))
  | .insert key object memory =>
    if memory = false then some ([(ENOMEM, none)], m)
    else if (m key).isSome then some ([(EEXIST, none)], m)
    else some ([(0, none)], update m key (some object))
  | .lookup key => some ([(if (m key).isSome then 0 else ENODATA, m key)], m)
  | .remove key =>
    if (m key).isSome then some ([(0, none)], update m key none)
    else some ([(ENODATA, none)], m)

/-! ## The number of buckets -/

theorem one_shiftLeft {shift : Nat} (h : shift ≤ 16) : (1#32 <<< shift).toNat = 2 ^ shift := by
  have hlt : 2 ^ shift < 2 ^ 32 := Nat.pow_lt_pow_right (by decide) (by omega)
  rw [BitVec.toNat_shiftLeft, Nat.shiftLeft_eq]
  exact (Nat.mod_eq_of_lt (by simpa using hlt)).trans (Nat.one_mul _)

/-- The loop ends at 65536 if not before. -/
theorem seekShift_some {sizeHint : BitVec 32} (hs : sizeHint.toNat ≤ 65536) {rounds shift : Nat}
    (hshift : shift ≤ 16) (hr : 16 < shift + rounds) :
    ∃ s, s ≤ 16 ∧ ∀ n, seekShift (rounds + n) sizeHint shift = some s := by
  induction rounds generalizing shift with
  | zero => omega
  | succ rounds ih =>
    by_cases hlt : 1#32 <<< shift < sizeHint
    · have hne : shift ≠ 16 := by
        rintro rfl
        exact absurd hlt (Nat.not_lt.mpr hs)
      have hnext : shift + 1 ≤ 16 := Nat.lt_of_le_of_ne hshift hne
      obtain ⟨s, hs', hseek⟩ := ih hnext (by omega)
      refine ⟨s, hs', fun n => ?_⟩
      rw [Nat.succ_add, seekShift, if_pos hlt, hseek]
    · refine ⟨shift, hshift, fun n => ?_⟩
      rw [Nat.succ_add, seekShift, if_neg hlt]

/-! ## The table and the map -/

/-- A table that holds a map. A key is on the list of its bucket once. -/
structure Represents (t : DescriptorTable ο) (m : BitVec 32 → Option ο) : Prop where
  shift : t.entryCountShift ≤ 16
  buckets : t.buckets.length = 2 ^ t.entryCountShift
  nodup : ∀ b ∈ t.buckets, (b.map DescriptorEntry.key).Nodup
  found : ∀ key b, t.buckets[t.index key]? = some b →
    (b.find? (·.key = key)).map DescriptorEntry.object = m key

variable {t : DescriptorTable ο} {m : BitVec 32 → Option ο} {key : BitVec 32}
  {b : List (DescriptorEntry ο)}

theorem Represents.index_lt (h : Represents t m) (key : BitVec 32) :
    t.index key < t.buckets.length := by
  have hpow := one_shiftLeft h.shift
  have hpos : 0 < 2 ^ t.entryCountShift := Nat.two_pow_pos _
  have hmask : (1#32 <<< t.entryCountShift - 1#32).toNat < 2 ^ t.entryCountShift := by
    rw [BitVec.toNat_sub_of_le (by rw [BitVec.le_def, hpow]; exact hpos), hpow]
    exact Nat.sub_lt hpos (by decide)
  rw [h.buckets, DescriptorTable.index, BitVec.toNat_and]
  exact Nat.and_lt_two_pow _ hmask

theorem Represents.lookupLocked (h : Represents t m) (key : BitVec 32) :
    ∃ b, t.buckets[t.index key]? = some b ∧ t.lookupLocked key = some (b, b.find? (·.key = key)) ∧
      (b.find? (·.key = key)).map DescriptorEntry.object = m key := by
  obtain ⟨b, hb⟩ : ∃ b, t.buckets[t.index key]? = some b :=
    ⟨_, getElem?_eq_getElem (h.index_lt key)⟩
  exact ⟨b, hb, by rw [DescriptorTable.lookupLocked, hb]; rfl, h.found key b hb⟩

/-- A change of one key's bucket that changes what is found under that key. -/
theorem Represents.set (h : Represents t m) {b' : List (DescriptorEntry ο)} {v : Option ο}
    (hb : t.buckets[t.index key]? = some b) (hnodup : (b'.map DescriptorEntry.key).Nodup)
    (hkey : (b'.find? (·.key = key)).map DescriptorEntry.object = v)
    (hother : ∀ k, k ≠ key → b'.find? (·.key = k) = b.find? (·.key = k)) :
    Represents { t with buckets := t.buckets.set (t.index key) b' } (update m key v) := by
  refine ⟨h.shift, (length_set ..).trans h.buckets, fun c hc => ?_, fun k c hc => ?_⟩
  · rcases mem_or_eq_of_mem_set hc with hc | rfl
    · exact h.nodup c hc
    · exact hnodup
  · change (t.buckets.set (t.index key) b')[t.index k]? = some c at hc
    by_cases hi : t.index key = t.index k
    · rw [← hi, getElem?_set_self (h.index_lt key)] at hc
      cases hc
      by_cases hk : k = key
      · rw [hk, update_self, hkey]
      · rw [update_of_ne hk, hother k hk]
        exact h.found k b (hi ▸ hb)
    · rw [getElem?_set_ne hi] at hc
      rw [update_of_ne (fun he => hi (congrArg t.index he.symm))]
      exact h.found k c hc

theorem find?_eraseP {b : List (DescriptorEntry ο)} (hn : (b.map DescriptorEntry.key).Nodup)
    (k : BitVec 32) : (b.eraseP (·.key = key)).find? (·.key = k) =
      if k = key then none else b.find? (·.key = k) := by
  induction b with
  | nil => simp
  | cons e b ih =>
    obtain ⟨he, hb⟩ := nodup_cons.1 hn
    by_cases hek : e.key = key
    · rw [eraseP_cons_of_pos (by simpa using hek)]
      split
      · next hk =>
        refine find?_eq_none.2 fun x hx hxk => he ?_
        have hxk : x.key = k := by simpa using hxk
        rw [hek, ← hk, ← hxk]
        exact mem_map_of_mem hx
      · next hk => rw [find?_cons_of_neg (by simpa [hek] using Ne.symm hk)]
    · rw [eraseP_cons_of_neg (by simpa using hek), find?_cons, find?_cons, ih hb]
      split
      · next hk =>
        have hk : e.key = k := by simpa using hk
        rw [if_neg (hk ▸ hek)]
      · rfl

theorem Represents.insert (h : Represents t m) (object : ο)
    (hb : t.buckets[t.index key]? = some b) (hnone : b.find? (·.key = key) = none) :
    Represents { t with buckets := t.buckets.set (t.index key) (b ++ [⟨key, object⟩]) }
      (update m key (some object)) := by
  have hne : ∀ e ∈ b, e.key ≠ key := fun e he => by simpa using find?_eq_none.1 hnone e he
  refine h.set hb ?_ ?_ fun k hk => ?_
  · rw [map_append, nodup_append]
    refine ⟨h.nodup b (mem_of_getElem? hb), by simp, fun k hk k' hk' he => ?_⟩
    obtain ⟨e, hm, rfl⟩ := mem_map.1 hk
    exact hne e hm (he.trans (by simpa using hk'))
  · rw [find?_append, hnone]
    simp
  · rw [find?_append]
    simp [Ne.symm hk]

theorem Represents.remove (h : Represents t m) (hb : t.buckets[t.index key]? = some b) :
    Represents { t with buckets := t.buckets.set (t.index key) (b.eraseP (·.key = key)) }
      (update m key none) := by
  have hn := h.nodup b (mem_of_getElem? hb)
  refine h.set hb (hn.sublist (eraseP_sublist.map _)) ?_ fun k hk => ?_
  · rw [find?_eraseP hn, if_pos rfl]
    rfl
  · rw [find?_eraseP hn, if_neg hk]

theorem Represents.lookup_eq (h : Represents t m) (key : BitVec 32) :
    t.lookup key = some (if (m key).isSome then 0 else ENODATA, m key) := by
  obtain ⟨b, -, hl, hm⟩ := h.lookupLocked key
  rw [DescriptorTable.lookup, hl, ← hm]
  cases b.find? (·.key = key) <;> rfl

theorem Represents.step (h : Represents t m) (c : DescriptorCall ο) : ∃ ev t' m',
    t.step c = some (ev, t') ∧ mapStep m c = some (ev, m') ∧ Represents t' m' := by
  cases c with
  | insert key object memory =>
    obtain ⟨b, hb, hl, hm⟩ := h.lookupLocked key
    simp only [DescriptorTable.step, DescriptorTable.insert, hl, mapStep, ← hm]
    cases memory with
    | false => exact ⟨_, t, m, rfl, rfl, h⟩
    | true =>
      cases hf : b.find? (·.key = key) with
      | none => exact ⟨_, _, _, rfl, rfl, h.insert object hb hf⟩
      | some e => exact ⟨_, t, m, rfl, rfl, h⟩
  | lookup key =>
    refine ⟨_, t, m, ?_, rfl, h⟩
    rw [DescriptorTable.step, h.lookup_eq key]
    rfl
  | remove key =>
    obtain ⟨b, hb, hl, hm⟩ := h.lookupLocked key
    simp only [DescriptorTable.step, DescriptorTable.remove, hl, mapStep, ← hm]
    cases hf : b.find? (·.key = key) with
    | none => exact ⟨_, t, m, rfl, rfl, h⟩
    | some e => exact ⟨_, _, _, rfl, rfl, h.remove hb⟩

theorem represents_create (sizeHint : BitVec 32) (hash : Option (BitVec 32 → BitVec 32)) :
    ∃ t₀ : DescriptorTable ο, (∀ rounds, 17 ≤ rounds →
      lookupTableCreate rounds sizeHint hash = some t₀) ∧ Represents t₀ fun _ => none := by
  have hhint : (if sizeHint > 65536#32 then 65536#32 else sizeHint).toNat ≤ 65536 := by
    split
    · exact Nat.le_refl _
    · next h => exact Nat.not_lt.1 h
  obtain ⟨shift, hshift, hseek⟩ := seekShift_some hhint (Nat.zero_le 16) (by decide : 16 < 0 + 17)
  refine ⟨⟨shift, hash.getD defaultHash, replicate (1#32 <<< shift).toNat []⟩, fun rounds hr => ?_,
    hshift, length_replicate.trans (one_shiftLeft hshift), fun b hb => ?_, fun key b hb => ?_⟩
  · obtain ⟨n, rfl⟩ := Nat.exists_eq_add_of_le hr
    rw [lookupTableCreate, hseek n]
    rfl
  · rw [eq_of_mem_replicate hb]
    exact nodup_nil
  · rw [eq_of_mem_replicate (mem_of_getElem? hb)]
    rfl

/-- Whatever the hint and the hash, a table can be made, and whatever is then
called on it is answered as by a map that is empty at first. The bucket of every
key is one of those that were allocated. -/
theorem descriptor_table_is_map (sizeHint : BitVec 32) (hash : Option (BitVec 32 → BitVec 32))
    (calls : List (DescriptorCall ο)) : ∃ t₀ : DescriptorTable ο,
      (∀ rounds, 17 ≤ rounds → lookupTableCreate rounds sizeHint hash = some t₀) ∧
      ∃ tr t m, Machine.run DescriptorTable.step t₀ calls = some (tr, t) ∧
        Machine.run mapStep (fun _ => none) calls = some (tr, m) ∧
        ∀ key, t.index key < t.buckets.length ∧
          t.lookup key = some (if (m key).isSome then 0 else ENODATA, m key) := by
  obtain ⟨t₀, hcreate, hempty⟩ := represents_create sizeHint hash
  obtain ⟨tr, t, m, hrun, hmap, h⟩ := run_simulates (P := fun _ _ => True)
    (fun _ _ c h _ => Represents.step h c) hempty (along_trivial _ calls)
  exact ⟨t₀, hcreate, tr, t, m, hrun, hmap, fun key => ⟨h.index_lt key, h.lookup_eq key⟩⟩

end Finesse.Api
