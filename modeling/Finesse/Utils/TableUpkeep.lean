import Finesse.Utils.ObjectTable

/-!
# Caches, keys and counts of the object table

Three things the table keeps beside its lists: the entry each bucket found
last, the rule that a key is in the table once, and two kinds of counters. A
run here is any sequence of calls on the table, whoever makes them.
-/

namespace Finesse.Utils

open List Machine Option

variable {t t' : Table} {ev : List Unit} {c : Call}

namespace Table

/-- A call on the table. An object that is released is one the table gave out
at some time, not more. -/
def step (t : Table) : Call → Option (List Unit × Table)
  | .create ino uuid => (finesseObjectCreate t ino uuid).map fun r => ([], r.2)
  | .lookupByIno ino => (finesseObjectLookupByIno t ino).map fun r => ([], r.2)
  | .lookupByUuid uuid => (finesseObjectLookupByUuid t uuid).map fun r => ([], r.2)
  | .release obj =>
    if obj < t.allocated then (finesseObjectRelease t obj).map fun t' => ([], t')
    else none

/-- An entry that is in the table. -/
def Live (t : Table) (a : Nat) : Prop :=
  a < t.allocated ∧ (t.entries a).freed = false

/-- Every entry in the table is once on each of the lists it belongs to, a
cache holds an entry of its own bucket, and the buckets count what is on their
lists. -/
structure Placed (t : Table) : Prop where
  lists : ∀ i k a, a ∈ (t.buckets i).list k ↔ t.Live a ∧ t.bucketIndex ((t.entries a).keyLike k) = i
  nodup : ∀ i k, ((t.buckets i).list k).Nodup
  cache : ∀ i a, (t.buckets i).lastEntry = some a → ∃ k, a ∈ (t.buckets i).list k
  counted : ∀ i, (t.buckets i).entryCount =
    (t.buckets i).inodeTableEntry.length + (t.buckets i).uuidTableEntry.length

theorem placed_create (estimatedSize : Nat) : (finesseCreateTable estimatedSize).Placed := by
  refine ⟨fun i k a => ?_, fun i k => ?_, fun i a h => ?_, fun i => rfl⟩
  · cases k <;> simp [finesseCreateTable, createLookupTable, Bucket.list, Live]
  · cases k <;> exact nodup_nil
  · cases h

/-! ## What a call is made of -/

/-- A lookup leaves a bucket's lists and count alone, and its cache unless it
puts one of the bucket's entries there. -/
theorem lookupEntry_bucket (t : Table) (i : Nat) (k : Key) (j : Nat) :
    ∃ c, ((lookupEntry t i k).2.buckets j) = { t.buckets j with lastEntry := c } ∧
      (c = (t.buckets j).lastEntry ∨ ∃ a k', c = some a ∧ a ∈ (t.buckets j).list k') := by
  unfold lookupEntry
  dsimp only
  split
  · exact ⟨_, rfl, .inl rfl⟩
  split
  · next a ha =>
    by_cases hj : j = i
    · subst hj
      exact ⟨some a, by simp [setBucket], .inr ⟨a, k, rfl, mem_of_find?_eq_some ha⟩⟩
    · exact ⟨_, by simp [setBucket, hj], .inl rfl⟩
  · exact ⟨_, rfl, .inl rfl⟩

theorem Placed.lookup (h : t.Placed) (i : Nat) (k : Key) : (lookupEntry t i k).2.Placed := by
  have hc := lookupEntry_cacheOnly t i k
  have hb := lookupEntry_bucket t i k
  refine ⟨fun j k' a => ?_, fun j k' => ?_, fun j a ha => ?_, fun j => ?_⟩
  · rw [hc.list, hc.index, hc.entries, Live, hc.allocated, hc.entries]
    exact h.lists j k' a
  · rw [hc.list]
    exact h.nodup j k'
  · obtain ⟨c, he, hcase⟩ := hb j
    rw [he] at ha
    obtain ⟨k', hk'⟩ : ∃ k', a ∈ (t.buckets j).list k' := by
      rcases hcase with rfl | ⟨b, k', rfl, hm⟩
      · exact h.cache j a ha
      · cases ha
        exact ⟨k', hm⟩
    exact ⟨k', by rw [hc.list]; exact hk'⟩
  · obtain ⟨c, he, -⟩ := hb j
    rw [he]
    exact h.counted j

theorem Placed.setCount (h : t.Placed) (a : Nat) (n : Nat → Nat) :
    (t.setEntry a fun e => { e with referenceCount := n e.referenceCount }).Placed := by
  have hsame : ∀ b k, (((t.setEntry a fun e =>
      { e with referenceCount := n e.referenceCount }).entries b).keyLike k,
      ((t.setEntry a fun e =>
        { e with referenceCount := n e.referenceCount }).entries b).freed) =
      ((t.entries b).keyLike k, (t.entries b).freed) := by
    intro b k
    by_cases hb : b = a
    · subst hb
      cases k <;> simp [setEntry, LookupEntry.keyLike]
    · simp [setEntry, hb]
  refine ⟨fun j k b => ?_, h.nodup, h.cache, h.counted⟩
  obtain ⟨hk, hf⟩ := Prod.mk.inj (hsame b k)
  rw [Live, hk, hf]
  exact h.lists j k b

theorem linkEntry_count (t : Table) (ino : Inode) (uuid : Uuid) (i : Nat) :
    ((linkEntry t ino uuid).buckets i).entryCount = (t.buckets i).entryCount +
      (if i = t.bucketIndex (.inode ino) then 1 else 0) +
      (if i = t.bucketIndex (.uuid uuid) then 1 else 0) := by
  simp only [linkEntry, setBucket, setEntry, Function.update_apply]
  split <;> split <;> simp_all [bucketIndex]

theorem Placed.link (h : t.Placed) (ino : Inode) (uuid : Uuid) : (linkEntry t ino uuid).Placed := by
  have hold : ∀ i k, t.allocated ∉ (t.buckets i).list k := fun i k hm =>
    absurd ((h.lists i k _).1 hm).1.1 (Nat.lt_irrefl _)
  refine ⟨fun i k a => ?_, fun i k => ?_, fun i a ha => ?_, fun i => ?_⟩
  · simp only [linkEntry_list, mem_append, h.lists, Live, linkEntry_allocated,
      linkEntry_bucketIndex, linkEntry_entries]
    by_cases ha : a = t.allocated
    · subst ha
      rw [if_pos rfl]
      split
      · next hi => simp [hi]
      · next hi => simp [Ne.symm hi]
    · have hlt : a < t.allocated + 1 ↔ a < t.allocated := by omega
      rw [if_neg ha, hlt]
      split <;> simp [ha]
  · rw [linkEntry_list]
    split
    · exact nodup_append.2 ⟨h.nodup i k, by simp, fun b hb c hc he =>
        hold i k (by rwa [← mem_singleton.1 hc, ← he])⟩
    · simpa using h.nodup i k
  · rw [linkEntry_lastEntry] at ha
    obtain ⟨k, hk⟩ := h.cache i a ha
    exact ⟨k, by rw [linkEntry_list]; exact mem_append_left _ hk⟩
  · have hi : ((linkEntry t ino uuid).buckets i).inodeTableEntry = (t.buckets i).inodeTableEntry ++
          if i = t.bucketIndex (.inode ino) then [t.allocated] else [] :=
      linkEntry_list t ino uuid i (.inode 0#64)
    have hu : ((linkEntry t ino uuid).buckets i).uuidTableEntry = (t.buckets i).uuidTableEntry ++
          if i = t.bucketIndex (.uuid uuid) then [t.allocated] else [] :=
      linkEntry_list t ino uuid i (.uuid 0#128)
    rw [linkEntry_count, hi, hu, h.counted i, length_append, length_append,
      apply_ite List.length, apply_ite List.length]
    simp only [length_singleton, length_nil]
    omega

/-- What lookups keep, changes of a reference count keep, and a creation's
insertion keeps, is kept by every call. A release takes no entry out: the
value it compares with one is that from before the count was put back. -/
theorem step_closed {P : Table → Prop} (hlookup : ∀ t i k, P t → P (lookupEntry t i k).2)
    (hcount : ∀ t a (n : Nat → Nat), P t →
      P (t.setEntry a fun e => { e with referenceCount := n e.referenceCount }))
    (hlink : ∀ t ino uuid, c = .create ino uuid → P t → P (linkEntry t ino uuid))
    {t t' : Table} {ev : List Unit} (ht : P t) (h : t.step c = some (ev, t')) : P t' := by
  have hadd : ∀ t a, P t → P (t.addReference a) := fun t a => hcount t a (· + 1)
  have hdrop : ∀ t a, P t → P (t.dropReference a) := fun t a => hcount t a (· - 1)
  have hat : ∀ {t i k r t1}, P t → lookupEntry t i k = (r, t1) → P t1 :=
    fun {t i k r t1} ht hl => by simpa only [hl] using hlookup t i k ht
  have helim : ∀ {t i k} {r : Option Nat} {t1 : Table}, P t → lookupEntry t i k = (r, t1) →
      P (r.elim t1 t1.addReference) := fun {t i k r t1} ht hl => by
    cases r with
    | none => exact hat ht hl
    | some a => exact hadd _ _ (hat ht hl)
  cases c with
  | create ino uuid =>
    obtain ⟨⟨a, t1⟩, hr, he⟩ := map_eq_some_iff.1 h
    cases he
    obtain ⟨-, -, t1, ⟨hl, rfl⟩ | ⟨t2, hl, hl2, -, rfl⟩⟩ := create_inv hr
    · exact hadd _ _ (hat ht hl)
    · exact hlink _ _ _ rfl (hat (hat ht hl) hl2)
  | lookupByIno ino =>
    obtain ⟨⟨r, t1⟩, hr, he⟩ := map_eq_some_iff.1 h
    cases he
    obtain ⟨t1, hl, rfl⟩ := lookupByIno_inv hr
    exact helim ht hl
  | lookupByUuid uuid =>
    obtain ⟨⟨r, t1⟩, hr, he⟩ := map_eq_some_iff.1 h
    cases he
    obtain ⟨t1, hl, rfl⟩ := lookupByUuid_inv hr
    exact helim ht hl
  | release obj =>
    simp only [step] at h
    split at h
    · obtain ⟨t1, hr, he⟩ := map_eq_some_iff.1 h
      cases he
      obtain ⟨a, t1, hl, rfl⟩ := release_inv hr
      have h₁ := hdrop _ a (hat ht hl)
      split
      · exact hadd _ _ h₁
      · exact h₁
    · cases h

theorem placed_step (ht : t.Placed) (h : t.step c = some (ev, t')) : t'.Placed :=
  step_closed (fun _ i k ht => ht.lookup i k) (fun _ a n ht => ht.setCount a n)
    (fun _ ino uuid _ ht => ht.link ino uuid) ht h

theorem placed_run {estimatedSize : Nat} {calls : List Call} {tr : List Unit}
    (h : run step (finesseCreateTable estimatedSize) calls = some (tr, t)) : t.Placed :=
  run_invariant (P := fun _ _ => True)
    (fun _ _ _ _ ht _ hst => placed_step ht hst) (placed_create estimatedSize) h
    (along_trivial _ _)

/-! ## The caches after an entry is taken out -/

theorem clear_lastEntry (t : Table) (i j : Nat) :
    ((t.setBucket i fun b => { b with lastEntry := none }).buckets j).lastEntry =
      if j = i then none else (t.buckets j).lastEntry := by
  by_cases hj : j = i
  · subst hj
    simp [setBucket]
  · simp [setBucket, hj]

theorem clearCache_lastEntry {i : Nat} {e : Option Nat}
    (h : (t.buckets i).lastEntry = e) (j : Nat) : ((clearCache t i e).2.buckets j).lastEntry =
      if j = i then none else (t.buckets j).lastEntry := by
  rw [clearCache, if_pos h]
  exact clear_lastEntry t i j

/-- The first bucket does not keep the entry in its cache. The second one
does, since what it is compared with is not the entry any more. -/
theorem invalidateCaches_lastEntry (t : Table) (first second a j : Nat) :
    ((invalidateCaches t first second a).buckets j).lastEntry = some a ↔
      j ≠ first ∧ (t.buckets j).lastEntry = some a := by
  -- both exchanges done, the first cache is empty and the others are as they were
  obtain ⟨e, t1, hpair, he, hlast⟩ : ∃ e t1,
      clearCache (clearCache t first (some a)).2 first (clearCache t first (some a)).1 =
        (e, t1) ∧ e ≠ some a ∧ ∀ j, (t1.buckets j).lastEntry =
          if j = first then none else (t.buckets j).lastEntry := by
    by_cases hf : (t.buckets first).lastEntry = some a
    · have h₁ := clearCache_lastEntry hf
      have hne : ((clearCache t first (some a)).2.buckets first).lastEntry ≠ some a := by
        simp [h₁ first]
      have hfst : (clearCache t first (some a)).1 = some a := by rw [clearCache, if_pos hf]
      rw [hfst, clearCache, if_neg hne]
      exact ⟨_, _, rfl, hne, h₁⟩
    · rw [show clearCache t first (some a) = ((t.buckets first).lastEntry, t) from if_neg hf]
      exact ⟨_, _, by rw [clearCache, if_pos rfl], hf, fun j => clear_lastEntry t first j⟩
  simp only [invalidateCaches, hpair]
  generalize ht2 : (if (t1.buckets first).lastEntry = e then
    t1.setBucket first fun b => { b with lastEntry := none } else t1) = t2
  have hlast2 : ∀ j, (t2.buckets j).lastEntry =
      if j = first then none else (t.buckets j).lastEntry := by
    intro j
    rw [← ht2, ← hlast j]
    split
    · rw [clear_lastEntry, hlast j]
      split <;> rfl
    · rfl
  have hiff : ∀ j, (t2.buckets j).lastEntry = some a ↔
      j ≠ first ∧ (t.buckets j).lastEntry = some a := by
    intro j
    rw [hlast2]
    split <;> simp [*]
  rw [← hiff]
  split
  · next hs =>
    -- what is cleared here is not the entry
    rw [clear_lastEntry]
    by_cases hj : j = second
    · simp [hj, hs, he]
    · rw [if_neg hj]
  · rfl

theorem invalidateCaches_closed {P : Table → Prop}
    (hclear : ∀ t i, P t → P (t.setBucket i fun b => { b with lastEntry := none }))
    (ht : P t) (first second a : Nat) : P (invalidateCaches t first second a) := by
  have hc : ∀ t e, P t → P (clearCache t first e).2 := by
    intro t e ht
    rw [clearCache]
    split
    · exact hclear t first ht
    · exact ht
  have hite : ∀ (c : Prop) [Decidable c] t i, P t →
      P (if c then t.setBucket i fun b => { b with lastEntry := none } else t) := by
    intro c _ t i ht
    split
    · exact hclear t i ht
    · exact ht
  exact hite _ _ _ (hite _ _ _ (hc _ _ (hc _ _ ht)))

theorem setBucket_same {β : Type} (F : Bucket → β) (t : Table) (i : Nat) {f : Bucket → Bucket}
    (hf : ∀ b, F (f b) = F b) (j : Nat) : F ((t.setBucket i f).buckets j) = F (t.buckets j) := by
  by_cases hj : j = i
  · subst hj
    simp [setBucket, hf]
  · simp [setBucket, hj]

theorem invalidateCaches_list (t : Table) (first second a j : Nat) (k : Key) :
    ((invalidateCaches t first second a).buckets j).list k = (t.buckets j).list k :=
  invalidateCaches_closed (P := fun t' => (t'.buckets j).list k = (t.buckets j).list k)
    (fun t' i h => (setBucket_same (Bucket.list · k) t' i (fun _ => by cases k <;> rfl) j).trans h)
    rfl first second a

/-- The table when the entry is off its lists, in buckets `i` and `u`, and the
caches are still to be cleared. -/
def unlinkAt (t : Table) (a i u : Nat) : Table :=
  ((((t.setBucket i fun b => { b with inodeTableEntry := b.inodeTableEntry.erase a }).setBucket u
    fun b => { b with uuidTableEntry := b.uuidTableEntry.erase a }).setBucket (min i u)
      fun b => { b with entryCount := b.entryCount - 1 }).setBucket (max i u)
        fun b => { b with entryCount := b.entryCount - 1 }).setEntry a
          fun e => { e with freed := true }

theorem unlinkEntry_eq (t : Table) (a : Nat) : unlinkEntry t a =
    invalidateCaches (unlinkAt t a (t.bucketIndex (.inode (t.entries a).inode))
      (t.bucketIndex (.uuid (t.entries a).uuid)))
      (min (t.bucketIndex (.inode (t.entries a).inode)) (t.bucketIndex (.uuid (t.entries a).uuid)))
      (max (t.bucketIndex (.inode (t.entries a).inode)) (t.bucketIndex (.uuid (t.entries a).uuid)))
      a := rfl

theorem unlinkEntry_frame (t : Table) (a : Nat) :
    (unlinkEntry t a).entries a = { t.entries a with freed := true } ∧
      (unlinkEntry t a).bucketIndex = t.bucketIndex := by
  rw [unlinkEntry_eq]
  generalize t.bucketIndex (.inode (t.entries a).inode) = i
  generalize t.bucketIndex (.uuid (t.entries a).uuid) = u
  refine invalidateCaches_closed (P := fun t' => t'.entries a =
    { t.entries a with freed := true } ∧ t'.bucketIndex = t.bucketIndex) ?_ ?_ _ _ a
  · intro t' j h
    rwa [setBucket_entries, setBucket_bucketIndex]
  · simp [unlinkAt, setEntry]
    rfl

theorem unlinkAt_lastEntry (t : Table) (a i u j : Nat) :
    ((unlinkAt t a i u).buckets j).lastEntry = (t.buckets j).lastEntry := by
  rw [unlinkAt, setEntry_buckets]
  iterate 4 rw [setBucket_same Bucket.lastEntry _ _ (by intro; rfl)]

theorem unlinkAt_inodeList (t : Table) (a i u : Nat) :
    ((unlinkAt t a i u).buckets i).inodeTableEntry = (t.buckets i).inodeTableEntry.erase a := by
  rw [unlinkAt, setEntry_buckets]
  iterate 3 rw [setBucket_same Bucket.inodeTableEntry _ _ (by intro; rfl)]
  simp [setBucket]

theorem unlinkAt_uuidList (t : Table) (a i u : Nat) :
    ((unlinkAt t a i u).buckets u).uuidTableEntry = (t.buckets u).uuidTableEntry.erase a := by
  rw [unlinkAt, setEntry_buckets]
  iterate 2 rw [setBucket_same Bucket.uuidTableEntry _ _ (by intro; rfl)]
  rw [← setBucket_same Bucket.uuidTableEntry t i
    (f := fun b => { b with inodeTableEntry := b.inodeTableEntry.erase a }) (by intro; rfl) u]
  simp [setBucket]

theorem not_mem_unlinkEntry (h : ∀ i k, ((t.buckets i).list k).Nodup) (a : Nat) (k : Key) :
    a ∉ ((unlinkEntry t a).buckets (t.bucketIndex ((t.entries a).keyLike k))).list k := by
  have herase := (h (t.bucketIndex ((t.entries a).keyLike k)) k).not_mem_erase (a := a)
  rw [unlinkEntry_eq, invalidateCaches_list]
  cases k with
  | inode i => rwa [LookupEntry.keyLike, Bucket.list, unlinkAt_inodeList]
  | uuid u => rwa [LookupEntry.keyLike, Bucket.list, unlinkAt_uuidList]

/-- The entry at `a` is gone: no bucket has it in its cache, and lookups of its
keys do not return it. -/
structure Forgotten (t : Table) (a : Nat) : Prop where
  cache : ∀ i, (t.buckets i).lastEntry ≠ some a
  byIno : ∀ t', finesseObjectLookupByIno t (t.entries a).inode ≠ some (some a, t')
  byUuid : ∀ t', finesseObjectLookupByUuid t (t.entries a).uuid ≠ some (some a, t')

theorem lookupEntry_mem {i : Nat} {k : Key} {a : Nat} (h : (lookupEntry t i k).1 = some a) :
    (t.buckets i).lastEntry = some a ∨ a ∈ (t.buckets i).list k := by
  unfold lookupEntry at h
  dsimp only at h
  split at h
  · next hb =>
    cases h
    exact .inl (filter_eq_some_iff.1 hb).1
  split at h
  · next hb =>
    cases h
    exact .inr (mem_of_find?_eq_some hb)
  · cases h

/-- Taking out an entry with its last reference leaves no trace of it, but for
one case: its keys have different buckets, and the cache of the second holds
it. -/
theorem releaseEntry_forgotten_iff {t : Table} {a : Nat} (ht : t.Placed)
    (hone : (t.entries a).referenceCount = 1) : (releaseEntry t a).Forgotten a ↔
      (t.bucketIndex (.inode (t.entries a).inode) = t.bucketIndex (.uuid (t.entries a).uuid) ∨
        (t.buckets (max (t.bucketIndex (.inode (t.entries a).inode))
          (t.bucketIndex (.uuid (t.entries a).uuid)))).lastEntry ≠ some a) := by
  have hd : (t.dropReference a).Placed := ht.setCount a (· - 1)
  have hentry : (t.dropReference a).entries a = { t.entries a with referenceCount := 0 } := by
    simp [dropReference, setEntry, hone]
  have hidx : (t.dropReference a).bucketIndex = t.bucketIndex := rfl
  obtain ⟨hgone, hidx'⟩ := unlinkEntry_frame (t.dropReference a) a
  have hlast : ∀ j, ((unlinkEntry (t.dropReference a) a).buckets j).lastEntry = some a ↔
      j ≠ min (t.bucketIndex (.inode (t.entries a).inode))
        (t.bucketIndex (.uuid (t.entries a).uuid)) ∧ (t.buckets j).lastEntry = some a := by
    intro j
    rw [unlinkEntry_eq, invalidateCaches_lastEntry, unlinkAt_lastEntry, hentry, hidx]
    rfl
  rw [releaseEntry, if_pos hone]
  generalize hi : t.bucketIndex (.inode (t.entries a).inode) = i at hlast ⊢
  generalize hu : t.bucketIndex (.uuid (t.entries a).uuid) = u at hlast ⊢
  constructor
  · intro h
    by_contra hcon
    rw [not_or, Classical.not_not] at hcon
    exact h.cache _ ((hlast _).2 ⟨by omega, hcon.2⟩)
  intro h
  have hcache : ∀ j, ((unlinkEntry (t.dropReference a) a).buckets j).lastEntry ≠ some a := by
    intro j hj
    obtain ⟨hmin, hl⟩ := (hlast j).1 hj
    -- a cache that holds the entry belongs to one of its two buckets
    obtain ⟨k, hk⟩ := ht.cache j a hl
    have hplace : j = i ∨ j = u := by
      have := ((ht.lists j k a).1 hk).2
      cases k with
      | inode _ => exact .inl (this.symm.trans hi)
      | uuid _ => exact .inr (this.symm.trans hu)
    have hmax : j = max i u := by omega
    rcases h with h | h
    · omega
    · exact h (hmax ▸ hl)
  have hlookup : ∀ k t1, lookupEntry (unlinkEntry (t.dropReference a) a)
      (t.bucketIndex ((t.entries a).keyLike k)) k ≠ (some a, t1) := by
    intro k t1 hl
    have hnot := not_mem_unlinkEntry hd.nodup a k
    rw [hentry, hidx] at hnot
    rcases lookupEntry_mem (congrArg Prod.fst hl) with hm | hm
    · exact hcache _ hm
    · cases k <;> exact hnot hm
  refine ⟨hcache, fun t' hl => ?_, fun t' hl => ?_⟩
  · obtain ⟨t1, hl, -⟩ := lookupByIno_inv hl
    rw [hidx', hidx, hgone, hentry] at hl
    exact hlookup (.inode (t.entries a).inode) _ hl
  · obtain ⟨t1, hl, -⟩ := lookupByUuid_inv hl
    rw [hidx', hidx, hgone, hentry] at hl
    exact hlookup (.uuid (t.entries a).uuid) _ hl

/-- An entry that only the first of its buckets has seen leaves no trace. -/
theorem releaseEntry_forgotten_first : ∃ t : Table, t.Placed ∧
    (t.entries 0).referenceCount = 1 ∧ (releaseEntry t 0).Forgotten 0 := by
  have hrun : ((run step (finesseCreateTable 0) [.create 1#64 4#128, .release 0]).map fun q =>
        ((q.2.entries 0).referenceCount, decide ((q.2.buckets (max
          (q.2.bucketIndex (.inode (q.2.entries 0).inode))
          (q.2.bucketIndex (.uuid (q.2.entries 0).uuid)))).lastEntry ≠ some 0))) =
      some (1, true) := by decide +kernel
  obtain ⟨⟨tr, t⟩, hr, hq⟩ := map_eq_some_iff.1 hrun
  obtain ⟨hone, hcache⟩ := Prod.mk.inj hq
  exact ⟨t, placed_run hr, hone,
    (releaseEntry_forgotten_iff (placed_run hr) hone).2 (.inr (of_decide_eq_true hcache))⟩

/-- An object is created and found by its inode number, whose bucket comes
second. Once it is taken out, a lookup returns it all the same. -/
theorem released_entry_returned : ∃ t : Table, t.Placed ∧
    (t.entries 0).referenceCount = 1 ∧ ((releaseEntry t 0).entries 0).freed = true ∧
    ¬ (releaseEntry t 0).Forgotten 0 := by
  have hrun : ((run step (finesseCreateTable 0)
      [.create 1#64 4#128, .lookupByIno 1#64, .release 0, .release 0]).map fun q =>
        ((q.2.entries 0).referenceCount, ((releaseEntry q.2 0).entries 0).freed,
          (finesseObjectLookupByIno (releaseEntry q.2 0)
            ((releaseEntry q.2 0).entries 0).inode).map Prod.fst)) =
      some (1, true, some (some 0)) := by decide +kernel
  obtain ⟨⟨tr, t⟩, hr, hq⟩ := map_eq_some_iff.1 hrun
  obtain ⟨hone, hq⟩ := Prod.mk.inj hq
  obtain ⟨hfreed, hfind⟩ := Prod.mk.inj hq
  obtain ⟨⟨r, t'⟩, hl, hfst⟩ := map_eq_some_iff.1 hfind
  dsimp only at hfst
  subst hfst
  exact ⟨t, placed_run hr, hone, hfreed, fun h => h.byIno t' hl⟩

/-! ## Keys -/

/-- No two entries share an inode number or a uuid. -/
def KeysDistinct (t : Table) : Prop :=
  ∀ a b, t.Live a → t.Live b → a ≠ b →
    (t.entries a).inode ≠ (t.entries b).inode ∧ (t.entries a).uuid ≠ (t.entries b).uuid

/-- A creation has an inode number that is in the table, or a uuid that is
not. -/
def NewUuid (t : Table) : Call → Prop
  | .create ino uuid =>
    (∃ a < t.allocated, (t.entries a).inode = ino) ∨ ∀ a < t.allocated, (t.entries a).uuid ≠ uuid
  | _ => True

theorem Wf.keysDistinct (hw : t.Wf) : t.KeysDistinct := by
  intro a b ha hb hne
  constructor
  · intro h
    exact hne (hw.unique (.inode (t.entries a).inode) a b ha.1 hb.1 rfl (congrArg _ h.symm))
  · intro h
    exact hne (hw.unique (.uuid (t.entries a).uuid) a b ha.1 hb.1 rfl (congrArg _ h.symm))

theorem wf_step (hw : t.Wf) (hnew : t.NewUuid c) (h : t.step c = some (ev, t')) : t'.Wf := by
  have hcount : ∀ (t : Table) a (n : Nat → Nat), t.Wf →
      (t.setEntry a fun e => { e with referenceCount := n e.referenceCount }).Wf :=
    fun t a n hw => hw.setCount a (n (t.entries a).referenceCount)
  by_cases hc : ∃ ino uuid, c = .create ino uuid
  · obtain ⟨ino, uuid, rfl⟩ := hc
    obtain ⟨⟨a, t1⟩, hr, he⟩ := map_eq_some_iff.1 h
    cases he
    obtain ⟨t1, hc, ⟨-, -, rfl⟩ | ⟨-, hi, hu, hno, rfl⟩⟩ := create_spec hw hr
    · exact hcount t1 a (· + 1) (hc.wf hw)
    refine (hc.wf hw).link hi hu ?_ ?_ <;> rw [hc.allocated, hc.entries]
    · exact hno
    rcases hnew with ⟨b, hb, hbi⟩ | hnew
    · exact absurd hbi (hno b hb)
    · exact hnew
  · exact step_closed (fun t i k hw => (lookupEntry_cacheOnly t i k).wf hw) hcount
      (fun _ ino uuid he => absurd ⟨ino, uuid, he⟩ hc) hw h

theorem wf_create (estimatedSize : Nat) : (finesseCreateTable estimatedSize).Wf :=
  (Session.inv_initial estimatedSize).wf

/-- Keys are distinct in every state of a run, if and only if no creation has
a new inode number with a uuid that is in the table. The uuid is looked for in
the bucket of the inode number, where it is not found. -/
theorem keysDistinct_iff_newUuid {estimatedSize : Nat} {calls : List Call} {tr : List Unit}
    {t : Table} (h : run step (finesseCreateTable estimatedSize) calls = some (tr, t)) :
    Always step KeysDistinct (finesseCreateTable estimatedSize) calls ↔
      Along step NewUuid (finesseCreateTable estimatedSize) calls := by
  refine always_iff_along (fun _ hw => hw.keysDistinct)
    (fun _ _ _ _ hw hnew hst => wf_step hw hnew hst) ?_ (wf_create estimatedSize) h
  intro t c ev t' hw hnew hst hd
  cases c with
  | create ino uuid =>
    simp only [NewUuid, not_or, not_exists, not_and, not_forall, Classical.not_not] at hnew
    obtain ⟨hnoIno, b, hb, hbu⟩ := hnew
    obtain ⟨⟨a, t1⟩, hr, he⟩ := map_eq_some_iff.1 hst
    cases he
    obtain ⟨t1, hc, ⟨ha, hai, -⟩ | ⟨-, -, -, -, rfl⟩⟩ := create_spec hw hr
    · exact hnoIno a ha hai
    have hall := hc.allocated
    have hne : b ≠ t1.allocated := by omega
    refine (hd b t1.allocated ?_ ?_ hne).2 ?_
    · rw [Live, linkEntry_allocated, linkEntry_entries, if_neg hne, hc.entries]
      exact ⟨by omega, (hw.valid b hb).2.2⟩
    · rw [Live, linkEntry_allocated, linkEntry_entries, if_pos rfl]
      exact ⟨by omega, rfl⟩
    · rw [linkEntry_entries, linkEntry_entries, if_neg hne, if_pos rfl, hc.entries]
      exact hbu
  | lookupByIno ino => exact hnew trivial
  | lookupByUuid uuid => exact hnew trivial
  | release a => exact hnew trivial

theorem keysDistinct_iff_newUuid_two : ∃ tr t,
    run step (finesseCreateTable 0) [.create 1#64 1#128, .create 2#64 2#128] = some (tr, t) ∧
    (Always step KeysDistinct (finesseCreateTable 0) [.create 1#64 1#128, .create 2#64 2#128] ↔
      Along step NewUuid (finesseCreateTable 0) [.create 1#64 1#128, .create 2#64 2#128]) :=
  exists_result (I := fun _ _ => True) (by decide +kernel)
    fun _ _ hr _ => keysDistinct_iff_newUuid hr

/-- Two objects are created under one uuid. -/
theorem shared_uuid_created : ∃ tr t,
    run step (finesseCreateTable 0) [.create 1#64 1#128, .create 2#64 1#128] =
      some (tr, t) ∧ ¬ t.KeysDistinct := by
  refine exists_result (I := fun _ t => t.allocated = 2 ∧
    t.entries 0 = ⟨2, 1#64, 1#128, false⟩ ∧ t.entries 1 = ⟨2, 2#64, 1#128, false⟩)
    (by decide +kernel) ?_
  rintro tr t - ⟨hall, h0, h1⟩ h
  refine (h 0 1 ⟨by omega, ?_⟩ ⟨by omega, ?_⟩ (by decide)).2 ?_
  · exact congrArg LookupEntry.freed h0
  · exact congrArg LookupEntry.freed h1
  · exact (congrArg LookupEntry.uuid h0).trans (congrArg LookupEntry.uuid h1).symm

/-! ## Counts -/

/-- Every bucket counts the entries on its lists. -/
def BucketsRight (t : Table) : Prop :=
  ∀ i, (t.buckets i).entryCount =
    (t.buckets i).inodeTableEntry.length + (t.buckets i).uuidTableEntry.length

/-- The size of the table is the number of its entries. -/
def SizeRight (t : Table) : Prop :=
  finesseObjectGetTableSize t = (List.range t.allocated).countP fun a => !(t.entries a).freed

def NotCreate (_ : Table) (c : Call) : Prop := ∀ ino uuid, c ≠ .create ino uuid

theorem lookupEntry_entryCount (t : Table) (i : Nat) (k : Key) :
    (lookupEntry t i k).2.entryCount = t.entryCount := by
  unfold lookupEntry
  dsimp only
  split
  · rfl
  · split <;> rfl

theorem entryCount_step {n : Nat}
    (hn : t.entryCount = n) (h : t.step c = some (ev, t')) : t'.entryCount = n :=
  step_closed (P := fun t => t.entryCount = n)
    (fun t i k hn => (lookupEntry_entryCount t i k).trans hn) (fun _ _ _ hn => hn)
    (fun _ _ _ _ hn => hn) hn h

/-- Nothing was ever put into the table. -/
def Untouched (t : Table) : Prop :=
  t.Wf ∧ t.allocated = 0 ∧ t.entryCount = 0

/-- In every run the buckets' counts are right. The table's own is so only if
nothing is ever created, since it stays zero. -/
theorem counts_right {estimatedSize : Nat} {calls : List Call} {tr : List Unit} {t : Table}
    (h : run step (finesseCreateTable estimatedSize) calls = some (tr, t)) :
    Always step BucketsRight (finesseCreateTable estimatedSize) calls ∧
      (Always step SizeRight (finesseCreateTable estimatedSize) calls ↔
        Along step NotCreate (finesseCreateTable estimatedSize) calls) := by
  refine ⟨always_of_along (P := fun _ _ => True) (fun _ ht => ht.counted)
    (fun _ _ _ _ ht _ hst => placed_step ht hst) (placed_create estimatedSize)
    (along_trivial _ _), ?_⟩
  have hinit : Untouched (finesseCreateTable estimatedSize) := ⟨wf_create estimatedSize, rfl, rfl⟩
  refine always_iff_along ?_ ?_ ?_ hinit h
  · rintro t ⟨-, hall, hcount⟩
    rw [SizeRight, finesseObjectGetTableSize, hall, hcount]
    rfl
  · rintro t c ev t' ⟨hw, hall, hcount⟩ hnc hst
    have hnew : t.NewUuid c := by
      cases c with
      | create ino uuid => exact absurd rfl (hnc ino uuid)
      | _ => trivial
    exact ⟨wf_step hw hnew hst, step_closed (P := fun t => t.allocated = 0)
      (fun t i k hall => (lookupEntry_cacheOnly t i k).allocated.trans hall) (fun _ _ _ h => h)
      (fun _ ino uuid he => absurd he (hnc ino uuid)) hall hst, entryCount_step hcount hst⟩
  · rintro t c ev t' ⟨hw, hall, hcount⟩ hc hst hsize
    simp only [NotCreate, not_forall, Classical.not_not] at hc
    obtain ⟨ino, uuid, rfl⟩ := hc
    rw [SizeRight, finesseObjectGetTableSize, entryCount_step hcount hst] at hsize
    obtain ⟨⟨a, t1⟩, hr, he⟩ := map_eq_some_iff.1 hst
    cases he
    obtain ⟨t1, hc, ⟨ha, -⟩ | ⟨-, -, -, -, rfl⟩⟩ := create_spec hw hr
    · omega
    have hlive := countP_eq_zero.1 hsize.symm t1.allocated (mem_range.2 (Nat.lt_succ_self _))
    rw [linkEntry_entries, if_pos rfl] at hlive
    exact hlive rfl

theorem counts_right_lookup : ∃ tr t,
    run step (finesseCreateTable 0) [.create 1#64 1#128, .create 2#64 2#128, .lookupByIno 1#64,
      .lookupByUuid 2#128, .release 0] = some (tr, t) ∧
    Always step BucketsRight (finesseCreateTable 0) [.create 1#64 1#128, .create 2#64 2#128,
      .lookupByIno 1#64, .lookupByUuid 2#128, .release 0] :=
  exists_result (I := fun _ _ => True) (by decide +kernel)
    fun _ _ hr _ => (counts_right hr).1

/-- With one object in the table, its size is zero. -/
theorem size_zero_created : ∃ tr t,
    run step (finesseCreateTable 0) [.create 1#64 1#128] = some (tr, t) ∧
      finesseObjectGetTableSize t = 0 ∧ ¬ t.SizeRight := by
  refine exists_result (I := fun _ t => finesseObjectGetTableSize t = 0 ∧
    ((List.range t.allocated).countP fun a => !(t.entries a).freed) = 1)
    (by decide +kernel) ?_
  rintro tr t - ⟨hsize, hcount⟩
  refine ⟨hsize, fun h => ?_⟩
  rw [SizeRight, hsize, hcount] at h
  cases h

end Table

end Finesse.Utils
