import Finesse.Lib.Machine
import Finesse.Utils.FastLookup

/-!
# References to objects

The table as its callers use it. A session is the table and a ledger of the
references that callers were given and have not released; a caller may
release only what the ledger says it holds. The contract is `Consistent`: an
object is found by its inode number, found by its uuid and on both lists
exactly as long as it has unreleased references.

The code does not meet it: the entry stays when the last reference is released,
and `insert_entry` looks for a uuid in the bucket of the inode number, so that
two objects may share a uuid. `consistent_iff_regular` says that a run keeps
the contract if and only if it does neither.
-/

namespace Finesse.Utils

open Function Option Machine Table

/-! ## Lookups in a well-formed table -/

namespace Table

variable (t : Table) (i : Nat) (f : Bucket → Bucket)

@[simp] theorem setBucket_entries : (t.setBucket i f).entries = t.entries := rfl

@[simp] theorem setBucket_bucketIndex : (t.setBucket i f).bucketIndex = t.bucketIndex := rfl

@[simp] theorem setEntry_buckets (a : Nat)
    (f : LookupEntry → LookupEntry) : (t.setEntry a f).buckets = t.buckets := rfl

/-- A table whose lists hold every entry in its place, whose caches point to
entries, and whose keys are unique. -/
structure Wf (t : Table) : Prop where
  lists : ∀ i k a, a ∈ (t.buckets i).list k ↔
    a < t.allocated ∧ t.bucketIndex ((t.entries a).keyLike k) = i
  cache : ∀ i a, (t.buckets i).lastEntry = some a → a < t.allocated
  unique : ∀ k a b, a < t.allocated → b < t.allocated →
    (t.entries a).keyLike k = k → (t.entries b).keyLike k = k → a = b
  valid : ∀ a < t.allocated, (t.entries a).inode ≠ 0#64 ∧
    (t.entries a).uuid ≠ 0#128 ∧ (t.entries a).freed = false

end Table

variable {t t' : Table} {a i : Nat} {ev : List (Option Nat)} {ino : Inode} {uuid : Uuid} {k : Key}
  {r : Option Nat}

theorem LookupEntry.matches_iff {e : LookupEntry} : e.matches k = true ↔ e.keyLike k = k := by
  simp [LookupEntry.matches]

/-- `t'` is `t` but for the caches, and its caches are sound if those of `t`
are. -/
structure CacheOnly (t t' : Table) : Prop where
  entries : t'.entries = t.entries
  allocated : t'.allocated = t.allocated
  index : t'.bucketIndex = t.bucketIndex
  list : ∀ i k, (t'.buckets i).list k = (t.buckets i).list k
  cache : ∀ i a, (t'.buckets i).lastEntry = some a →
    (t.buckets i).lastEntry = some a ∨ ∃ j k, a ∈ (t.buckets j).list k

theorem CacheOnly.refl (t : Table) : CacheOnly t t :=
  ⟨rfl, rfl, rfl, fun _ _ => rfl, fun _ _ h => .inl h⟩

theorem CacheOnly.wf (h : CacheOnly t t') (hw : t.Wf) : t'.Wf := by
  refine ⟨?_, ?_, ?_, ?_⟩
  · intro i k a
    rw [h.list, h.allocated, h.index, h.entries]
    exact hw.lists i k a
  · intro i a ha
    rw [h.allocated]
    rcases h.cache i a ha with hc | ⟨j, k, hm⟩
    · exact hw.cache i a hc
    · exact ((hw.lists j k a).mp hm).1
  · rw [h.allocated, h.entries]
    exact hw.unique
  · rw [h.allocated, h.entries]
    exact hw.valid

theorem cacheOnly_setCache (hmem : a ∈ (t.buckets i).list k) :
    CacheOnly t (t.setBucket i fun b => { b with lastEntry := some a }) := by
  refine ⟨rfl, rfl, rfl, fun j k' => ?_, fun j b hb => ?_⟩
  · by_cases hj : j = i
    · subst hj
      cases k' <;> simp [setBucket, Bucket.list]
    · simp [setBucket, hj]
  by_cases hj : j = i
  · subst hj
    simp only [setBucket, update_self, some.injEq] at hb
    exact .inr ⟨j, k, hb ▸ hmem⟩
  · simp only [setBucket, ne_eq, hj, not_false_eq_true, update_of_ne] at hb
    exact .inl hb

theorem lookupEntry_cacheOnly (t : Table) (i : Nat) (k : Key) :
    CacheOnly t (lookupEntry t i k).2 := by
  unfold lookupEntry
  dsimp only
  split
  · exact .refl t
  split
  · next a ha => exact cacheOnly_setCache (List.mem_of_find?_eq_some ha)
  · exact .refl t

theorem lookupEntry_some (hw : t.Wf)
    (h : (lookupEntry t i k).1 = some a) : a < t.allocated ∧ (t.entries a).keyLike k = k := by
  unfold lookupEntry at h
  dsimp only at h
  split at h
  · next b hb =>
    cases h
    rw [filter_eq_some_iff] at hb
    exact ⟨hw.cache i a hb.1, LookupEntry.matches_iff.mp hb.2⟩
  split at h
  · next b hb =>
    cases h
    have hm : (t.entries a).matches k = true := by
      simpa using List.find?_some hb
    exact ⟨((hw.lists i k a).mp (List.mem_of_find?_eq_some hb)).1, LookupEntry.matches_iff.mp hm⟩
  · cases h

theorem lookupEntry_eq_some (hw : t.Wf) : (lookupEntry t (t.bucketIndex k) k).1 = some a ↔
      a < t.allocated ∧ (t.entries a).keyLike k = k := by
  constructor
  · exact lookupEntry_some hw
  rintro ⟨ha, hk⟩
  cases hl : (lookupEntry t (t.bucketIndex k) k).1 with
  | some b =>
    obtain ⟨hb, hkb⟩ := lookupEntry_some hw hl
    rw [hw.unique k b a hb ha hkb hk]
  | none =>
    -- the scan of the list cannot have missed it
    exfalso
    unfold lookupEntry at hl
    dsimp only at hl
    split at hl
    · cases hl
    split at hl
    · cases hl
    next hf =>
    have hmem := (hw.lists (t.bucketIndex k) k a).mpr ⟨ha, by rw [hk]⟩
    have := List.find?_eq_none.mp hf a hmem
    exact this (LookupEntry.matches_iff.mpr hk)

theorem lookupEntry_eq_none (hw : t.Wf) (h : (lookupEntry t (t.bucketIndex k) k).1 = none)
    (ha : a < t.allocated) : (t.entries a).keyLike k ≠ k := by
  intro hk
  rw [(lookupEntry_eq_some hw).mpr ⟨ha, hk⟩] at h
  cases h

/-! ## What an operation does to the table -/

theorem Table.Wf.setCount (hw : t.Wf) (a n : Nat) :
    (t.setEntry a fun e => { e with referenceCount := n }).Wf := by
  have hkey : ∀ b k, ((t.setEntry a fun e =>
      { e with referenceCount := n }).entries b).keyLike k =
      (t.entries b).keyLike k := by
    intro b k
    by_cases hb : b = a
    · subst hb
      cases k <;> simp [setEntry, LookupEntry.keyLike]
    · simp [setEntry, hb]
  refine ⟨?_, hw.cache, ?_, ?_⟩
  · intro i k b
    rw [hkey]
    exact hw.lists i k b
  · intro k b c hb hc
    rw [hkey, hkey]
    exact hw.unique k b c hb hc
  intro b hb
  have hv := hw.valid b hb
  by_cases hba : b = a
  · subst hba
    simpa [setEntry] using hv
  · simpa [setEntry, hba] using hv

/-- The entry at `a` is found by its inode number, by its uuid, and is on
both lists. -/
structure Found (t : Table) (a : Nat) : Prop where
  byIno : ∃ t', finesseObjectLookupByIno t (t.entries a).inode = some (some a, t')
  byUuid : ∃ t', finesseObjectLookupByUuid t (t.entries a).uuid = some (some a, t')
  onInodeList : a ∈ (t.buckets (t.bucketIndex (.inode (t.entries a).inode))).inodeTableEntry
  onUuidList : a ∈ (t.buckets (t.bucketIndex (.uuid (t.entries a).uuid))).uuidTableEntry

theorem Table.Wf.found (hw : t.Wf) (ha : a < t.allocated)
    (hr : 0 < (t.entries a).referenceCount) : Found t a := by
  obtain ⟨hi, hu, -⟩ := hw.valid a ha
  refine ⟨?_, ?_, ?_, ?_⟩
  · have hl := (lookupEntry_eq_some hw).mpr
      ⟨ha, show (t.entries a).keyLike (.inode (t.entries a).inode) = _ from rfl⟩
    unfold finesseObjectLookupByIno
    rw [if_neg hi]
    split
    · next b t' heq => rw [heq] at hl; cases hl; exact ⟨_, rfl⟩
    · next t' heq => rw [heq] at hl; cases hl
  · have hl := (lookupEntry_eq_some hw).mpr
      ⟨ha, show (t.entries a).keyLike (.uuid (t.entries a).uuid) = _ from rfl⟩
    have hc := lookupEntry_cacheOnly t (t.bucketIndex
      (.uuid (t.entries a).uuid)) (.uuid (t.entries a).uuid)
    unfold finesseObjectLookupByUuid
    rw [if_neg hu]
    split
    · next b t' heq =>
      rw [heq] at hl hc
      cases hl
      have hne : (t'.entries a).referenceCount ≠ 0 := by
        have he : t'.entries = t.entries := hc.entries
        rw [he]
        omega
      rw [if_neg hne]
      exact ⟨_, rfl⟩
    · next t' heq => rw [heq] at hl; cases hl
  · exact (hw.lists _ (.inode 0#64) a).mpr ⟨ha, rfl⟩
  · exact (hw.lists _ (.uuid 0#128) a).mpr ⟨ha, rfl⟩

theorem CacheOnly.trans {t1 t2 : Table} (h : CacheOnly t t1)
    (h' : CacheOnly t1 t2) : CacheOnly t t2 := by
  refine ⟨h'.entries.trans h.entries, h'.allocated.trans h.allocated,
    h'.index.trans h.index, fun i k => (h'.list i k).trans (h.list i k), ?_⟩
  intro i a ha
  rcases h'.cache i a ha with hc | ⟨j, k, hm⟩
  · exact h.cache i a hc
  · exact .inr ⟨j, k, h.list j k ▸ hm⟩

/-! What each call consists of, as long as no assertion fails. -/

theorem lookupByIno_inv (h : finesseObjectLookupByIno t ino = some (r, t')) :
    ∃ t1, lookupEntry t (t.bucketIndex (.inode ino)) (.inode ino) = (r, t1) ∧
      t' = r.elim t1 t1.addReference := by
  unfold finesseObjectLookupByIno at h
  split at h
  · cases h
  split at h
  · next heq => cases h; exact ⟨_, heq, rfl⟩
  · next heq => cases h; exact ⟨_, heq, rfl⟩

theorem lookupByUuid_inv (h : finesseObjectLookupByUuid t uuid = some (r, t')) :
    ∃ t1, lookupEntry t (t.bucketIndex (.uuid uuid)) (.uuid uuid) = (r, t1) ∧
      t' = r.elim t1 t1.addReference := by
  unfold finesseObjectLookupByUuid at h
  split at h
  · cases h
  split at h
  · next heq =>
    split at h
    · cases h
    · cases h; exact ⟨_, heq, rfl⟩
  · next heq => cases h; exact ⟨_, heq, rfl⟩

/-- A release takes one reference away, unless it is the last one: then the
count is put back and nothing else happens. -/
theorem release_inv {obj : Nat} (h : finesseObjectRelease t obj = some t') :
    ∃ a t1, lookupEntry t (t.bucketIndex (.uuid (t.entries obj).uuid))
        (.uuid (t.entries obj).uuid) = (some a, t1) ∧
      t' = if (t1.entries a).referenceCount = 1
        then (t1.dropReference a).addReference a else t1.dropReference a := by
  unfold finesseObjectRelease at h
  dsimp only at h
  split at h
  · cases h
  split at h
  · cases h
  next a t1 heq =>
    refine ⟨a, t1, heq, ?_⟩
    split at h
    · cases h
    by_cases h1 : (t1.entries a).referenceCount = 1
    · have hz : ((t1.dropReference a).entries a).referenceCount = 0 := by
        simp [dropReference, setEntry, h1]
      simp only [h1, if_true, hz] at h ⊢
      exact (some.inj h).symm
    · simp only [h1, if_false] at h ⊢
      exact (some.inj h).symm

theorem create_inv
    (h : finesseObjectCreate t ino uuid = some (a, t')) : ino ≠ 0#64 ∧ uuid ≠ 0#128 ∧ ∃ t1,
      (lookupEntry t (t.bucketIndex (.inode ino)) (.inode ino) = (some a, t1) ∧
          t' = t1.addReference a ∨
        ∃ t2, lookupEntry t (t.bucketIndex (.inode ino)) (.inode ino) = (none, t1) ∧
          lookupEntry t1 (t.bucketIndex (.inode ino)) (.uuid uuid) = (none, t2) ∧
          a = t2.allocated ∧ t' = linkEntry t2 ino uuid) := by
  unfold finesseObjectCreate at h
  split at h
  · cases h
  next hkeys =>
    refine ⟨fun hi => hkeys (.inl hi), fun hu => hkeys (.inr hu), ?_⟩
    unfold insertEntry at h
    dsimp only at h
    split at h
    · next heq =>
      split at h
      · cases h
      · cases h; exact ⟨_, .inl ⟨heq, rfl⟩⟩
    · next heq =>
      split at h
      · cases h
      · next heq2 => cases h; exact ⟨_, .inr ⟨_, heq, heq2, rfl, rfl⟩⟩

theorem lookup_spec {t1 : Table} (hw : t.Wf) (h : lookupEntry t i k = (r, t1))
    (ht : t' = r.elim t1 t1.addReference) : ∃ t1, CacheOnly t t1 ∧ (r = none ∧ t' = t1 ∨
        ∃ a, r = some a ∧ a < t.allocated ∧ t' = t1.addReference a) := by
  have hc := lookupEntry_cacheOnly t i k
  rw [h] at hc
  cases r with
  | none => exact ⟨t1, hc, .inl ⟨rfl, ht⟩⟩
  | some a => exact ⟨t1, hc, .inr ⟨a, rfl, (lookupEntry_some hw (congrArg Prod.fst h)).1, ht⟩⟩

theorem release_spec (hw : t.Wf) (ha : a < t.allocated) (h : finesseObjectRelease t a = some t') :
    ∃ t1, CacheOnly t t1 ∧ t' = if (t.entries a).referenceCount = 1
        then (t1.dropReference a).addReference a else t1.dropReference a := by
  obtain ⟨b, t1, hl, ht⟩ := release_inv h
  have hc := lookupEntry_cacheOnly t (t.bucketIndex
    (.uuid (t.entries a).uuid)) (.uuid (t.entries a).uuid)
  have hfound := (lookupEntry_eq_some hw).mpr
    ⟨ha, show (t.entries a).keyLike (.uuid (t.entries a).uuid) = _ from rfl⟩
  rw [hl] at hc hfound
  cases hfound
  exact ⟨t1, hc, by rw [ht, hc.entries]⟩

theorem create_spec (hw : t.Wf) (h : finesseObjectCreate t ino uuid = some (a, t')) :
    ∃ t1, CacheOnly t t1 ∧ (a < t.allocated ∧ (t.entries a).inode = ino ∧ t' = t1.addReference a ∨
        a = t.allocated ∧ ino ≠ 0#64 ∧ uuid ≠ 0#128 ∧
          (∀ b < t.allocated, (t.entries b).inode ≠ ino) ∧
          t' = linkEntry t1 ino uuid) := by
  have hc := lookupEntry_cacheOnly t (t.bucketIndex (.inode ino)) (.inode ino)
  obtain ⟨hi, hu, t1, ⟨hl, ht⟩ | ⟨t2, hl, hl2, rfl, ht⟩⟩ := create_inv h
  · rw [hl] at hc
    obtain ⟨ha, hk⟩ := lookupEntry_some hw (congrArg Prod.fst hl)
    exact ⟨t1, hc, .inl ⟨ha, by simpa [LookupEntry.keyLike] using hk, ht⟩⟩
  have hc2 := lookupEntry_cacheOnly t1 (t.bucketIndex (.inode ino)) (.uuid uuid)
  rw [hl] at hc
  rw [hl2] at hc2
  refine ⟨t2, hc.trans hc2, .inr ⟨hc2.allocated.trans hc.allocated, hi, hu, ?_, ht⟩⟩
  intro b hb hbi
  refine lookupEntry_eq_none hw (congrArg Prod.fst hl) hb ?_
  simpa [LookupEntry.keyLike] using hbi

theorem linkEntry_list (t : Table) (ino : Inode) (uuid : Uuid) (i : Nat)
    (k : Key) : ((linkEntry t ino uuid).buckets i).list k = (t.buckets i).list k ++
        if i = t.bucketIndex (LookupEntry.keyLike ⟨2, ino, uuid, false⟩ k)
        then [t.allocated] else [] := by
  cases k with
  | inode _ =>
    simp only [linkEntry, setBucket, setEntry, Bucket.list, update_apply, LookupEntry.keyLike]
    split <;> split <;> simp_all [bucketIndex]
  | uuid _ =>
    simp only [linkEntry, setBucket, setEntry, Bucket.list, update_apply, LookupEntry.keyLike]
    split <;> split <;> simp_all [bucketIndex]

theorem linkEntry_lastEntry (t : Table) (ino : Inode) (uuid : Uuid) (i : Nat) :
    ((linkEntry t ino uuid).buckets i).lastEntry = (t.buckets i).lastEntry := by
  simp only [linkEntry, setBucket, setEntry, update_apply]
  split <;> split <;> simp_all

theorem linkEntry_entries (t : Table) (ino : Inode) (uuid : Uuid) (a : Nat) :
    (linkEntry t ino uuid).entries a =
      if a = t.allocated then ⟨2, ino, uuid, false⟩ else t.entries a := by
  simp [linkEntry, setBucket, setEntry, update_apply]

theorem linkEntry_allocated (t : Table) (ino : Inode) (uuid : Uuid) :
    (linkEntry t ino uuid).allocated = t.allocated + 1 := rfl

theorem linkEntry_bucketIndex (t : Table) (ino : Inode) (uuid : Uuid) :
    (linkEntry t ino uuid).bucketIndex = t.bucketIndex := rfl

theorem Table.Wf.link (hw : t.Wf) (hi : ino ≠ 0#64)
    (hu : uuid ≠ 0#128) (hnoIno : ∀ b < t.allocated, (t.entries b).inode ≠ ino)
    (hnoUuid : ∀ b < t.allocated, (t.entries b).uuid ≠ uuid) : (linkEntry t ino uuid).Wf := by
  have hfresh : ∀ k b, b < t.allocated → (t.entries b).keyLike k = k →
      LookupEntry.keyLike ⟨2, ino, uuid, false⟩ k ≠ k := by
    intro k b hb hk hnew
    cases k with
    | inode i =>
      simp only [LookupEntry.keyLike, Key.inode.injEq] at hk hnew
      exact hnoIno b hb (hk.trans hnew.symm)
    | uuid u =>
      simp only [LookupEntry.keyLike, Key.uuid.injEq] at hk hnew
      exact hnoUuid b hb (hk.trans hnew.symm)
  refine ⟨?_, ?_, ?_, ?_⟩
  · intro i k a
    rw [linkEntry_list, linkEntry_entries, linkEntry_allocated,
      linkEntry_bucketIndex, List.mem_append, hw.lists]
    by_cases ha : a = t.allocated
    · subst ha
      simp [eq_comm]
    rw [if_neg ha]
    have hlt : a < t.allocated + 1 ↔ a < t.allocated := by omega
    rw [hlt]
    split <;> simp [ha]
  · intro i a ha
    rw [linkEntry_lastEntry] at ha
    rw [linkEntry_allocated]
    have := hw.cache i a ha
    omega
  · intro k a b ha hb hka hkb
    rw [linkEntry_allocated] at ha hb
    rw [linkEntry_entries] at hka hkb
    split at hka
    · next hea =>
      split at hkb
      · next heb => rw [hea, heb]
      · next heb => exact absurd hka (hfresh k b (by omega) hkb)
    · next hea =>
      split at hkb
      · next heb => exact absurd hkb (hfresh k a (by omega) hka)
      · next heb => exact hw.unique k a b (by omega) (by omega) hka hkb
  · intro a ha
    rw [linkEntry_allocated] at ha
    rw [linkEntry_entries]
    split
    · exact ⟨hi, hu, rfl⟩
    · exact hw.valid a (by omega)

/-! ## Sessions -/

/-- The table, and for every object the references that were given out and
not yet released. -/
structure Session where
  table : Table
  held : Nat → Nat

inductive Call where
  | create (ino : Inode) (uuid : Uuid)
  | lookupByIno (ino : Inode)
  | lookupByUuid (uuid : Uuid)
  | release (obj : Nat)
deriving DecidableEq, Repr

variable {s s' : Session}

namespace Session

def give (s : Session) (t : Table) (a : Nat) (n : Nat) : Session :=
  ⟨t, update s.held a (s.held a + n)⟩

/-- The session after a lookup, which gives one reference if it found an
object. -/
def afterLookup (s : Session) : Option (Option Nat × Table) → Option (List (Option Nat) × Session)
  | none => none
  | some (some a, t) => some ([some a], s.give t a 1)
  | some (none, t) => some ([none], ⟨t, s.held⟩)

/-- One call, with the object it returns. -/
def step (s : Session) : Call → Option (List (Option Nat) × Session)
  | .create ino uuid =>
    match finesseObjectCreate s.table ino uuid with
    | none => none
    | some (a, t) =>
      some ([some a], s.give t a (if a = s.table.allocated then 2 else 1))
  | .lookupByIno ino => s.afterLookup (finesseObjectLookupByIno s.table ino)
  | .lookupByUuid uuid =>
    s.afterLookup (finesseObjectLookupByUuid s.table uuid)
  | .release a =>
    -- a caller releases only what it was given
    if s.held a = 0 then none
    else
      match finesseObjectRelease s.table a with
      | none => none
      | some t => some ([], ⟨t, update s.held a (s.held a - 1)⟩)

/-- An empty table of any size, with nothing given out. -/
def initial (estimatedSize : Nat) : Session :=
  ⟨finesseCreateTable estimatedSize, fun _ => 0⟩

/-- The contract: every object that was ever created is found exactly as
long as references to it are unreleased. -/
def Consistent (s : Session) : Prop :=
  ∀ a < s.table.allocated, ((∃ t, finesseObjectLookupByIno s.table (s.table.entries a).inode =
        some (some a, t)) ↔ 0 < s.held a) ∧
    ((∃ t, finesseObjectLookupByUuid s.table (s.table.entries a).uuid =
        some (some a, t)) ↔ 0 < s.held a) ∧
    (a ∈ (s.table.buckets (s.table.bucketIndex
      (.inode (s.table.entries a).inode))).inodeTableEntry ↔ 0 < s.held a) ∧
    (a ∈ (s.table.buckets (s.table.bucketIndex
      (.uuid (s.table.entries a).uuid))).uuidTableEntry ↔ 0 < s.held a)

/-- A release is regular if it is not of the last unreleased reference; a
creation, if its inode number is in the table or its uuid is not. -/
def Regular (s : Session) : Call → Prop
  | .create ino uuid =>
    (∃ a < s.table.allocated, (s.table.entries a).inode = ino) ∨
      ∀ a < s.table.allocated, (s.table.entries a).uuid ≠ uuid
  | .release a => 1 < s.held a
  | _ => True

/-! ## The contract and its two exceptions -/

/-- What regular calls keep: the table is in order, and every count is the
number of references given out, of which there are some. -/
structure Inv (s : Session) : Prop where
  wf : s.table.Wf
  counts : ∀ a < s.table.allocated, (s.table.entries a).referenceCount = s.held a
  heldPos : ∀ a < s.table.allocated, 0 < s.held a
  fresh : ∀ a, s.table.allocated ≤ a → s.held a = 0

theorem Inv.consistent (hs : s.Inv) : s.Consistent := by
  intro a ha
  have hh := hs.heldPos a ha
  have hf := hs.wf.found ha (by rw [hs.counts a ha]; exact hh)
  exact ⟨iff_of_true hf.byIno hh, iff_of_true hf.byUuid hh,
    iff_of_true hf.onInodeList hh, iff_of_true hf.onUuidList hh⟩

theorem inv_initial (estimatedSize : Nat) : (initial estimatedSize).Inv := by
  refine ⟨⟨?_, ?_, ?_, ?_⟩, ?_, ?_, ?_⟩
  · intro i k a
    cases k <;>
      simp [initial, finesseCreateTable, createLookupTable, Bucket.list]
  · intro i a h
    cases h
  · intro k a b ha
    exact absurd ha (Nat.not_lt_zero a)
  · intro a ha
    exact absurd ha (Nat.not_lt_zero a)
  · intro a ha
    exact absurd ha (Nat.not_lt_zero a)
  · intro a ha
    exact absurd ha (Nat.not_lt_zero a)
  · intro a _
    rfl

section

variable (hs : s.Inv)
include hs

theorem Inv.cacheOnly (hc : CacheOnly s.table t) : Inv ⟨t, s.held⟩ := by
  refine ⟨hc.wf hs.wf, ?_, ?_, ?_⟩
  · intro a ha
    change (t.entries a).referenceCount = s.held a
    rw [hc.entries]
    exact hs.counts a (hc.allocated ▸ ha)
  · intro a ha
    exact hs.heldPos a (hc.allocated ▸ ha)
  · intro a ha
    exact hs.fresh a (hc.allocated ▸ ha)

theorem Inv.setCount {n : Nat} (ha : a < s.table.allocated)
    (hn : 0 < n) : Inv ⟨s.table.setEntry a fun e => { e with referenceCount := n },
      update s.held a n⟩ := by
  refine ⟨hs.wf.setCount a n, ?_, ?_, ?_⟩
  · intro b hb
    by_cases hba : b = a
    · subst hba
      simp [setEntry]
    · simpa [setEntry, hba] using hs.counts b hb
  · intro b hb
    by_cases hba : b = a
    · subst hba
      simpa using hn
    · simpa [hba] using hs.heldPos b hb
  · intro b hb
    have hba : b ≠ a := by
      have : s.table.allocated ≤ b := hb
      omega
    simpa [hba] using hs.fresh b hb

theorem Inv.addReference
    (ha : a < s.table.allocated) : (s.give (s.table.addReference a) a 1).Inv := by
  have h := hs.setCount ha (Nat.succ_pos (s.held a))
  have he : s.table.addReference a =
      s.table.setEntry a fun e => { e with referenceCount := s.held a + 1 } := by
    simp [Table.addReference, Table.setEntry, hs.counts a ha]
  rw [he]
  exact h

theorem Inv.dropReference (ha : a < s.table.allocated) (hheld : 1 < s.held a) :
    Inv ⟨s.table.dropReference a, update s.held a (s.held a - 1)⟩ := by
  have h := hs.setCount (n := s.held a - 1) ha (by omega)
  have he : s.table.dropReference a =
      s.table.setEntry a fun e => { e with referenceCount := s.held a - 1 } := by
    simp [Table.dropReference, Table.setEntry, hs.counts a ha]
  rw [he]
  exact h

theorem Inv.link (hi : ino ≠ 0#64)
    (hu : uuid ≠ 0#128) (hnoIno : ∀ b < s.table.allocated, (s.table.entries b).inode ≠ ino)
    (hnoUuid : ∀ b < s.table.allocated, (s.table.entries b).uuid ≠ uuid) :
    (s.give (linkEntry s.table ino uuid) s.table.allocated 2).Inv := by
  refine ⟨hs.wf.link hi hu hnoIno hnoUuid, ?_, ?_, ?_⟩
  · intro b hb
    change b < s.table.allocated + 1 at hb
    change ((linkEntry s.table ino uuid).entries b).referenceCount = _
    rw [linkEntry_entries]
    by_cases hba : b = s.table.allocated
    · subst hba
      simp [give, hs.fresh]
    · simpa [give, hba] using hs.counts b (by omega)
  · intro b hb
    change b < s.table.allocated + 1 at hb
    by_cases hba : b = s.table.allocated
    · subst hba
      simp [give]
    · simpa [give, hba] using hs.heldPos b (by omega)
  · intro b hb
    change s.table.allocated + 1 ≤ b at hb
    have hba : b ≠ s.table.allocated := by omega
    simpa [give, hba] using hs.fresh b (by omega)

theorem Inv.afterLookup {r : Option (Option Nat × Table)}
    (hspec : ∀ q t', r = some (q, t') → ∃ t1, CacheOnly s.table t1 ∧ (q = none ∧ t' = t1 ∨
        ∃ a, q = some a ∧ a < s.table.allocated ∧ t' = t1.addReference a))
    (h : s.afterLookup r = some (ev, s')) : s'.Inv := by
  unfold Session.afterLookup at h
  split at h
  · cases h
  · next a t =>
    cases h
    obtain ⟨t1, hc, ⟨hq, -⟩ | ⟨b, hq, hb, rfl⟩⟩ := hspec _ _ rfl
    · cases hq
    cases hq
    have hs1 := hs.cacheOnly hc
    have ha : a < t1.allocated := hc.allocated ▸ hb
    exact Inv.addReference (s := ⟨t1, s.held⟩) hs1 ha
  · next t =>
    cases h
    obtain ⟨t1, hc, ⟨-, rfl⟩ | ⟨b, hq, -⟩⟩ := hspec _ _ rfl
    · exact hs.cacheOnly hc
    · cases hq

theorem inv_step {c : Call} (hreg : s.Regular c) (h : s.step c = some (ev, s')) : s'.Inv := by
  cases c with
  | create ino uuid =>
    simp only [step] at h
    split at h
    · cases h
    next a t hcr =>
    cases h
    obtain ⟨t1, hc, ⟨ha, -, rfl⟩ | ⟨rfl, hi, hu, hno, rfl⟩⟩ := create_spec hs.wf hcr
    · have hne : a ≠ s.table.allocated := by omega
      rw [if_neg hne]
      exact Inv.addReference (s := ⟨t1, s.held⟩) (hs.cacheOnly hc) (hc.allocated ▸ ha)
    rw [if_pos rfl]
    have hnoUuid : ∀ b < s.table.allocated, (s.table.entries b).uuid ≠ uuid := by
      rcases hreg with ⟨b, hb, hbi⟩ | hreg
      · exact absurd hbi (hno b hb)
      · exact hreg
    have hl := Inv.link (s := ⟨t1, s.held⟩) (hs.cacheOnly hc) hi hu (fun b hb => by
        rw [hc.entries]; exact hno b (hc.allocated ▸ hb))
      (fun b hb => by
        rw [hc.entries]; exact hnoUuid b (hc.allocated ▸ hb))
    rw [← hc.allocated]
    exact hl
  | lookupByIno ino =>
    exact hs.afterLookup (fun q t' hr =>
      let ⟨_, hl, ht⟩ := lookupByIno_inv hr
      lookup_spec hs.wf hl ht) h
  | lookupByUuid uuid =>
    exact hs.afterLookup (fun q t' hr =>
      let ⟨_, hl, ht⟩ := lookupByUuid_inv hr
      lookup_spec hs.wf hl ht) h
  | release a =>
    have hheld : 1 < s.held a := hreg
    have ha : a < s.table.allocated := by
      by_contra hlt
      have := hs.fresh a (by omega)
      omega
    simp only [step] at h
    rw [if_neg (by omega)] at h
    split at h
    · cases h
    next t hrel =>
    cases h
    obtain ⟨t1, hc, ht⟩ := release_spec hs.wf ha hrel
    rw [if_neg (by rw [hs.counts a ha]; omega)] at ht
    subst ht
    exact Inv.dropReference (s := ⟨t1, s.held⟩) (hs.cacheOnly hc) (hc.allocated ▸ ha) hheld

/-- Releasing the last reference leaves the object in the table. -/
theorem not_consistent_of_last_release (hreg : ¬ s.Regular (.release a))
    (h : s.step (.release a) = some (ev, s')) : ¬ s'.Consistent := by
  simp only [Regular] at hreg
  simp only [step] at h
  split at h
  · cases h
  next hheld =>
  have hone : s.held a = 1 := by omega
  have ha : a < s.table.allocated := by
    by_contra hlt
    have := hs.fresh a (by omega)
    omega
  split at h
  · cases h
  next t hrel =>
  cases h
  obtain ⟨t1, hc, ht⟩ := release_spec hs.wf ha hrel
  rw [if_pos (by rw [hs.counts a ha, hone])] at ht
  -- the count went to zero and back: the table is still in order
  have hcount : (t1.entries a).referenceCount = 1 := by
    rw [hc.entries, hs.counts a ha, hone]
  have heq : t = t1.setEntry a fun e => { e with referenceCount := 1 } := by
    rw [ht]
    simp [addReference, dropReference, setEntry, hcount]
  have hwf : t.Wf := heq ▸ (hc.wf hs.wf).setCount a 1
  have hat : a < t.allocated := by
    rw [heq]
    exact hc.allocated ▸ ha
  intro hcons
  have hfound := hwf.found hat (by rw [heq]; simp [setEntry])
  have hpos := (hcons a hat).1.mp hfound.byIno
  simp [hone] at hpos

/-- A new inode number under a known uuid makes two objects of one uuid, and
a lookup returns one of them. -/
theorem not_consistent_of_shared_uuid (hreg : ¬ s.Regular (.create ino uuid))
    (h : s.step (.create ino uuid) = some (ev, s')) : ¬ s'.Consistent := by
  simp only [Regular, not_or, not_exists, not_and, not_forall, Classical.not_not] at hreg
  obtain ⟨hnoIno, b, hb, hbu⟩ := hreg
  simp only [step] at h
  split at h
  · cases h
  next a t hcr =>
  cases h
  obtain ⟨t1, hc, ⟨ha, hai, -⟩ | ⟨rfl, hi, hu, hno, rfl⟩⟩ := create_spec hs.wf hcr
  · exact absurd hai (hnoIno a ha)
  intro hcons
  have hall := hc.allocated
  have hnew := hcons s.table.allocated (show _ < t1.allocated + 1 by omega)
  have hold := hcons b (show _ < t1.allocated + 1 by omega)
  have hbne : b ≠ s.table.allocated := by omega
  have hheld := hs.heldPos b hb
  obtain ⟨t2, h2⟩ := hnew.2.1.mpr (by simp [give])
  obtain ⟨t3, h3⟩ := hold.2.1.mpr (by simpa [give, hbne] using hheld)
  simp only [give, linkEntry_entries, hall, if_true, if_neg hbne, hc.entries, hbu] at h2 h3
  rw [h2] at h3
  simp only [some.injEq, Prod.mk.injEq] at h3
  exact hbne h3.1.symm

end

/-- A run of calls keeps every object findable exactly while it is held, if
and only if it never releases a last reference and never adds a new inode
number under a uuid that is in the table. -/
theorem consistent_iff_regular {estimatedSize : Nat} {calls : List Call} {tr : List (Option Nat)}
    {s : Session} (h : run step (initial estimatedSize) calls = some (tr, s)) :
    Always step Consistent (initial estimatedSize) calls ↔
      Along step Regular (initial estimatedSize) calls := by
  refine always_iff_along (fun s hs => hs.consistent)
    (fun s c ev s' hs hp hst => inv_step hs hp hst) ?_
    (inv_initial estimatedSize) h
  intro s c ev s' hs hp hst
  cases c with
  | create ino uuid => exact not_consistent_of_shared_uuid hs hp hst
  | lookupByIno ino => exact absurd trivial hp
  | lookupByUuid uuid => exact absurd trivial hp
  | release a => exact not_consistent_of_last_release hs hp hst

theorem exists_run (estimatedSize : Nat) (calls : List Call)
    (h : (run step (initial estimatedSize) calls).isSome = true) :
    ∃ tr s, run step (initial estimatedSize) calls = some (tr, s) := by
  obtain ⟨⟨tr, s⟩, hr⟩ := isSome_iff_exists.mp h
  exact ⟨tr, s, hr⟩

theorem consistent_iff_regular_lookup : ∃ tr s,
    run step (initial 0) [.create 1#64 1#128, .lookupByUuid 1#128, .release 0] = some (tr, s) ∧
    (Always step Consistent (initial 0) [.create 1#64 1#128, .lookupByUuid 1#128, .release 0] ↔
      Along step Regular (initial 0) [.create 1#64 1#128,
        .lookupByUuid 1#128, .release 0]) := by
  obtain ⟨tr, s, hr⟩ := exists_run 0
    [.create 1#64 1#128, .lookupByUuid 1#128, .release 0] (by decide +kernel)
  exact ⟨tr, s, hr, consistent_iff_regular hr⟩

/-- Create an object and release its two references: it is still found. -/
theorem released_object_found : ∃ tr s,
    run step (initial 0) [.create 1#64 1#128, .release 0, .release 0] =
      some (tr, s) ∧ s.held 0 = 0 ∧
    (∃ t, finesseObjectLookupByIno s.table 1#64 = some (some 0, t)) ∧
    ¬ s.Consistent := by
  have hrun : ((run step (initial 0) [.create 1#64 1#128, .release 0, .release 0]).map fun q =>
        (q.2.held 0, q.2.table.allocated, (q.2.table.entries 0).inode,
          (finesseObjectLookupByIno q.2.table 1#64).map Prod.fst)) =
      some (0, 1, 1#64, some (some 0)) := by decide +kernel
  obtain ⟨⟨tr, s⟩, hr, hq⟩ := map_eq_some_iff.mp hrun
  simp only [Prod.mk.injEq] at hq
  obtain ⟨hheld, hall, hino, hfind⟩ := hq
  obtain ⟨⟨r, t⟩, hl, hfst⟩ := map_eq_some_iff.mp hfind
  dsimp only at hfst
  subst hfst
  refine ⟨tr, s, hr, hheld, ⟨t, hl⟩, fun hcons => ?_⟩
  have hpos := (hcons 0 (by omega)).1.mp ⟨t, by rw [hino]; exact hl⟩
  omega

end Session

end Finesse.Utils
