import Finesse.Bitbucket.InodeThreads

/-!
# The invariant of concurrent use of inodes

The invariant of `InodeThreads` under the condition `Undisturbed`, in the
rely-guarantee style of `Pool`. Three facts carry it: the count of an inode is
the number of references on the accounts of the threads; an inode to which
somebody has a reference is in the table; and an inode whose last reference
one thread has claimed is left alone by all others. The count of an inode and
the counts of its reasons are not changed at once, so the accounts of a thread
may differ while it stands between the two, by what `Pc.owed` and `Pc.ahead`
say.
-/

namespace Finesse.Bitbucket.Threads

open Ledger Function List Shared Pc

/-! ## The invariant -/

section Invariant

variable {θ : Type} (hash : BitVec 64 → Nat)

/-- The references of a thread that are noted for any reason. -/
def Shared.reasons (s : Shared θ) (t : θ) (i : Nat) : Nat :=
  Reason.sum fun r => s.noted t (i, r)

theorem Shared.reasons_congr {s s' : Shared θ} {t : θ} {i : Nat}
    (h : ∀ r, s'.noted t (i, r) = s.noted t (i, r)) : s'.reasons t i = s.reasons t i :=
  congrArg Reason.sum (funext h)

variable {r : Reason}

theorem Shared.reasons_of_update {s s' : Shared θ} {t : θ} {i n : Nat}
    (h : s'.noted t (i, r) = n) (hother : ∀ r', r' ≠ r → s'.noted t (i, r') = s.noted t (i, r')) :
    s'.reasons t i + s.noted t (i, r) = s.reasons t i + n := by
  have hupd : (fun r' => s'.noted t (i, r')) = update (fun r' => s.noted t (i, r')) r n := by
    funext r'
    by_cases hr : r' = r
    · rw [hr, update_self, h]
    · rw [update_of_ne hr, hother r' hr]
  rw [reasons, hupd]
  exact Reason.sum_update _ r n

/-- An inode in the table. -/
structure Good (s : Shared θ) (i : Nat) : Prop where
  live : s.live i = true
  table : s.table i = true
  created : s.created i = true
  listed : i ∈ s.list (s.bucket hash i)
  tallied : i ∈ s.tallied

variable [Fintype θ]

/-- An inode that only its creator knows. -/
structure New (s : Shared θ) (t : θ) (i : Nat) : Prop where
  live : s.live i = true
  created : s.created i = false
  total : s.counted.total i = 1
  counted : 0 < s.counted t i

/-- An inode to which only `t` has references, for one reason. -/
structure Last (s : Shared θ) (t : θ) (i : Nat) (r : Reason) (bias : Nat) : Prop where
  noted : bias ≤ s.noted t (i, r)
  total : s.counted.total i = bias
  counted : s.counted t i = bias
  pos : 0 < bias

structure Inv (s : Shared θ) : Prop where
  locks : ∀ b, (s.locks b).Wf
  counts : ∀ i, s.referenceCount i = s.counted.total i
  reasons : ∀ i r, s.referenceReasons i r = s.noted.total (i, r)
  fits : ∀ i r, s.referenceReasons i r < 2 ^ 32
  listed : ∀ {b i}, i ∈ s.list b → s.live i = true ∧ s.bucket hash i = b
  nodup : ∀ b, (s.list b).Nodup
  cached : ∀ {b i}, s.lastInodeTableEntry b = some i → i ∈ s.list b
  numbers : ∀ {i j}, s.live i = true → s.live j = true → s.ino i = s.ino j → i = j
  tally : s.inodeCount = s.tallied.card
  entered : ∀ {b i}, i ∈ s.list b → s.created i = true → s.table i = true ∧ i ∈ s.tallied
  unused : ∀ {i}, s.next ≤ i → s.live i = false ∧ s.counted.total i = 0 ∧
    (∀ r, s.noted.total (i, r) = 0) ∧ i ∉ s.tallied ∧ s.created i = false

/-- What a thread knows at its place. No thread is stopped. -/
def Pc.Locals (pc : Pc) (t : θ) (s : Shared θ) : Prop :=
  match pc with
  | .idle | .lookupLock _ | .lookupLoad _ | .lookupUnlock _ => True
  | .failed _ => False
  | .createLock i | .createInsert i =>
    New s t i ∧ (∀ b, i ∉ s.list b) ∧ i ∉ s.tallied
  | .createUnlock i | .createPublish i | .createCount i =>
    New s t i ∧ i ∈ s.list (s.bucket hash i) ∧ i ∉ s.tallied
  | .createTable i => New s t i ∧ i ∈ s.list (s.bucket hash i) ∧ i ∈ s.tallied
  | .createCheck i =>
    New s t i ∧ i ∈ s.list (s.bucket hash i) ∧ i ∈ s.tallied ∧ s.table i = true
  | .lookupScan n cached => ∀ i, cached = some i → i ∈ s.list (hash n)
  | .lookupStore n i => i ∈ s.list (hash n)
  | .refLock w i _ =>
    match w with
    | some n => i ∈ s.list (hash n)
    | none => 0 < s.counted t i
  | .refCount _ i _ => Good hash s i
  | .refReason _ i r count =>
    Good hash s i ∧ count ≠ 0 ∧ s.referenceReasons i r ≤ count
  | .refUnlock _ i count reason => Good hash s i ∧ count ≠ 0 ∧ reason ≤ count
  | .refCheck _ count reason => count ≠ 0 ∧ reason ≤ count
  | .derefCount i r bias | .derefReasons i r bias | .derefLock i r bias
  | .derefSub i r bias => bias ≤ s.noted t (i, r) ∧ 0 < s.counted t i
  | .derefRestore i r bias => Good hash s i ∧ bias ≤ s.noted t (i, r) ∧
      s.counted.total i = 0 ∧ 0 < bias
  | .derefReason i r bias => Good hash s i ∧ bias ≤ s.noted t (i, r)
  | .derefUnlock i => Good hash s i
  | .lastUnlock i r bias | .lastLock i r bias | .lastSub i r bias => Last s t i r bias
  | .lastReason i r bias count => Good hash s i ∧ count = bias ∧
      bias ≤ s.noted t (i, r) ∧ s.counted.total i = 0
  | .freeRemove i => Good hash s i ∧ s.counted.total i = 0
  | .freeUnlock i | .freeCount i => s.live i = true ∧ s.table i = true ∧
      s.counted.total i = 0 ∧ (∀ b, i ∉ s.list b) ∧ i ∈ s.tallied
  | .freeObject i => s.live i = true ∧ s.counted.total i = 0 ∧ ∀ b, i ∉ s.list b

variable [DecidableEq θ]

structure Asserts (t : θ) (pc : Pc) (s : Shared θ) : Prop where
  reads : ∀ b, (s.locks b).readers.count t = (pc.reads hash s.ino).count b
  writes : ∀ b, (s.locks b).writer = some t ↔ pc.writes hash s.ino = some b
  balance : ∀ i, s.counted t i + pc.owed i = s.reasons t i + pc.ahead i
  known : ∀ i, 0 < s.counted t i → pc.creating ≠ some i → Good hash s i
  locals : pc.Locals hash t s

/-- The inode is as it was, for those who rely on it. -/
structure SameAt (s s' : Shared θ) (i : Nat) : Prop where
  live : s'.live i = s.live i
  table : s'.table i = s.table i
  created : s'.created i = s.created i
  list : ∀ b, i ∈ s'.list b ↔ i ∈ s.list b
  tallied : i ∈ s'.tallied ↔ i ∈ s.tallied
  total : s'.counted.total i = s.counted.total i

/-- What a step of `t` from `p` to `s'` leaves to the others. -/
structure Guarantee (p : Pool θ Pc (Shared θ)) (t : θ) (s' : Shared θ) : Prop where
  readers : ∀ u, u ≠ t → ∀ b, (s'.locks b).readers.count u = (p.shared.locks b).readers.count u
  writer : ∀ u, u ≠ t → ∀ b, (s'.locks b).writer = some u ↔ (p.shared.locks b).writer = some u
  counted : ∀ u, u ≠ t → ∀ i, p.shared.counted u i ≤ s'.counted u i
  noted : ∀ u, u ≠ t → ∀ k, p.shared.noted u k ≤ s'.noted u k
  balance : ∀ u, u ≠ t → ∀ i,
    s'.counted u i + p.shared.reasons u i = p.shared.counted u i + s'.reasons u i
  gains : ∀ u, u ≠ t → ∀ i, p.shared.counted u i < s'.counted u i → Good hash s' i
  next : p.shared.next ≤ s'.next
  ino : ∀ i < p.shared.next, s'.ino i = p.shared.ino i
  list : ∀ b, (p.shared.locks b).writer ≠ some t → s'.list b = p.shared.list b
  removed : ∀ b i, i ∈ p.shared.list b → i ∈ s'.list b ∨ p.shared.counted.total i = 0
  keeps : ∀ b i, i ∈ p.shared.list b → (p.shared.live i = true → s'.live i = true) ∧
    (p.shared.table i = true → s'.table i = true) ∧
    (p.shared.created i = true → s'.created i = true) ∧
    (i ∈ p.shared.tallied → i ∈ s'.tallied)
  fixed : ∀ u, u ≠ t → ∀ i,
    (p.pcs u).creating = some i ∨ (p.pcs u).claiming = some i → SameAt p.shared s' i
  reasons : ∀ u, u ≠ t → ∀ i r, (p.pcs u).adding = some (i, r) →
    s'.referenceReasons i r ≤ p.shared.referenceReasons i r

/-! ### What one thread knows survives the steps of the others -/

variable {hash} {p : Pool θ Pc (Shared θ)} {t u : θ} {pc : Pc} {s s' : Shared θ} {i b : Nat}
  {ino ino' : Nat → BitVec 64}

theorem Pc.reads_congr (h : ∀ i, pc.inode = some i → ino' i = ino i) :
    pc.reads hash ino' = pc.reads hash ino := by
  cases pc <;> first | rfl | simp only [reads, h _ rfl]

theorem Pc.writes_congr (h : ∀ i, pc.inode = some i → ino' i = ino i) :
    pc.writes hash ino' = pc.writes hash ino := by
  cases pc <;> first | rfl | simp only [writes, h _ rfl]

omit [DecidableEq θ] in
theorem Inv.lt_next (hI : Inv hash s) (h : s.live i = true) : i < s.next := by
  by_contra hlt
  rw [(hI.unused (Nat.le_of_not_lt hlt)).1] at h
  cases h

omit [DecidableEq θ] in
theorem Inv.writer_none (hI : Inv hash s) (h : u ∈ (s.locks b).readers) :
    (s.locks b).writer = none := by
  by_contra hw
  rw [hI.locks b hw] at h
  cases h

/-- A bucket that a thread has locked, in one way or the other. -/
def Asserts.Locked (hash : BitVec 64 → Nat) (pc : Pc) (s : Shared θ) (b : Nat) : Prop :=
  b ∈ pc.reads hash s.ino ∨ pc.writes hash s.ino = some b

theorem Asserts.writer_ne (hI : Inv hash s) (h : Asserts hash u pc s)
    (hb : Asserts.Locked hash pc s b) (hu : u ≠ t) : (s.locks b).writer ≠ some t := by
  rcases hb with hb | hb
  · have hc : 0 < (s.locks b).readers.count u := by
      rw [h.reads]
      exact count_pos_iff.mpr hb
    rw [hI.writer_none (count_pos_iff.mp hc)]
    exact nofun
  · rw [(h.writes b).mpr hb]
    exact fun hn => hu (Option.some.inj hn)

namespace Guarantee

section

variable (g : Guarantee hash p t s')
include g

variable (hI : Inv hash p.shared)
include hI

theorem good_of_listed
    (h : Good hash p.shared i) (hl : i ∈ s'.list (p.shared.bucket hash i)) : Good hash s' i := by
  obtain ⟨hlive, htable, hcreated, htallied⟩ := g.keeps _ i h.listed
  refine ⟨hlive h.live, htable h.table, hcreated h.created, ?_, htallied h.tallied⟩
  rw [bucket, g.ino i (hI.lt_next h.live)]
  exact hl

theorem good_of_counted
    (h : Good hash p.shared i) (hc : 0 < p.shared.counted u i) : Good hash s' i := by
  rcases g.removed _ i h.listed with hl | hz
  · exact g.good_of_listed hI h hl
  · have := p.shared.counted.le_total u i
    omega

theorem good_of_locked
    (ha : Asserts hash u (p.pcs u) p.shared) (hu : u ≠ t) (h : Good hash p.shared i)
    (hb : Asserts.Locked hash (p.pcs u) p.shared (p.shared.bucket hash i)) : Good hash s' i := by
  refine g.good_of_listed hI h ?_
  rw [g.list _ (ha.writer_ne hI hb hu)]
  exact h.listed

theorem mem_list_of_locked (ha : Asserts hash u (p.pcs u) p.shared) (hu : u ≠ t)
    (h : i ∈ p.shared.list b) (hb : Asserts.Locked hash (p.pcs u) p.shared b) : i ∈ s'.list b := by
  rw [g.list _ (ha.writer_ne hI hb hu)]
  exact h

end

variable (hash p t) in
theorem refl : Guarantee hash p t p.shared :=
  ⟨fun _ _ _ => rfl, fun _ _ _ => Iff.rfl, fun _ _ _ => Nat.le_refl _, fun _ _ _ => Nat.le_refl _,
    fun _ _ _ => rfl, fun _ _ _ hlt => absurd hlt (Nat.lt_irrefl _), Nat.le_refl _, fun _ _ => rfl,
    fun _ _ => rfl, fun _ _ hm => .inl hm, fun _ _ _ => ⟨id, id, id, id⟩,
    fun _ _ _ _ => ⟨rfl, rfl, rfl, fun _ => Iff.rfl, Iff.rfl, rfl⟩, fun _ _ _ _ _ => Nat.le_refl _⟩

end Guarantee

omit [DecidableEq θ] in
theorem SameAt.good (h : SameAt s s' i) (hino : s'.ino i = s.ino i)
    (hg : Good hash s i) : Good hash s' i := by
  refine ⟨h.live.trans hg.live, h.table.trans hg.table, h.created.trans hg.created,
    (h.list _).mpr ?_, h.tallied.mpr hg.tallied⟩
  rw [bucket, hino]
  exact hg.listed

omit [DecidableEq θ] in
theorem SameAt.new (h : SameAt s s' i) (hc : s.counted u i ≤ s'.counted u i)
    (hn : New s u i) : New s' u i :=
  ⟨h.live.trans hn.live, h.created.trans hn.created, h.total.trans hn.total,
    Nat.lt_of_lt_of_le hn.counted hc⟩

omit [DecidableEq θ] in
theorem SameAt.last {bias : Nat} (h : SameAt s s' i) (hc : s.counted u i ≤ s'.counted u i)
    (hn : s.noted u (i, r) ≤ s'.noted u (i, r)) (hl : Last s u i r bias) : Last s' u i r bias := by
  have htotal := h.total.trans hl.total
  refine ⟨Nat.le_trans hl.noted hn, htotal, ?_, hl.pos⟩
  have := s'.counted.le_total u i
  have := hl.counted
  omega

omit [DecidableEq θ] in
/-- What a thread knows is about inodes that it has an exclusive role for, that
it has references to, or whose buckets it has locked. -/
theorem Pc.Locals.transport (hL : pc.Locals hash u s)
    (hfix : ∀ i, pc.creating = some i ∨ pc.claiming = some i → SameAt s s' i)
    (hadd : ∀ i r, pc.adding = some (i, r) → s'.referenceReasons i r ≤ s.referenceReasons i r)
    (hc : ∀ i, s.counted u i ≤ s'.counted u i) (hn : ∀ k, s.noted u k ≤ s'.noted u k)
    (hgood : ∀ i, Good hash s i → Asserts.Locked hash pc s (s.bucket hash i) → Good hash s' i)
    (hmem : ∀ b i, i ∈ s.list b → Asserts.Locked hash pc s b → i ∈ s'.list b)
    (hino : ∀ i, pc.inode = some i → s'.ino i = s.ino i) : pc.Locals hash u s' := by
  have hbucket : ∀ i, pc.inode = some i → s'.bucket hash i = s.bucket hash i :=
    fun i hi => by rw [bucket, hino i hi, bucket]
  cases pc with
  | idle | lookupLock _ | lookupLoad _ | lookupUnlock _ => trivial
  | failed _ => exact hL
  | createLock i | createInsert i =>
    obtain ⟨hnew, hlist, htally⟩ := hL
    have hsame := hfix i (.inl rfl)
    exact ⟨hsame.new (hc i) hnew, fun b => (hsame.list b).not.mpr (hlist b),
      hsame.tallied.not.mpr htally⟩
  | createUnlock i | createPublish i | createCount i =>
    obtain ⟨hnew, hlist, htally⟩ := hL
    have hsame := hfix i (.inl rfl)
    refine ⟨hsame.new (hc i) hnew, ?_, hsame.tallied.not.mpr htally⟩
    rw [hbucket i rfl]
    exact (hsame.list _).mpr hlist
  | createTable i =>
    obtain ⟨hnew, hlist, htally⟩ := hL
    have hsame := hfix i (.inl rfl)
    refine ⟨hsame.new (hc i) hnew, ?_, hsame.tallied.mpr htally⟩
    rw [hbucket i rfl]
    exact (hsame.list _).mpr hlist
  | createCheck i =>
    obtain ⟨hnew, hlist, htally, htable⟩ := hL
    have hsame := hfix i (.inl rfl)
    refine ⟨hsame.new (hc i) hnew, ?_, hsame.tallied.mpr htally, hsame.table.trans htable⟩
    rw [hbucket i rfl]
    exact (hsame.list _).mpr hlist
  | lookupScan n cached =>
    exact fun i hi => hmem _ i (hL i hi) (.inl mem_cons_self)
  | lookupStore n i => exact hmem _ i hL (.inl mem_cons_self)
  | refLock w i r =>
    cases w with
    | some n => exact hmem _ i hL (.inl mem_cons_self)
    | none => exact Nat.lt_of_lt_of_le hL (hc i)
  | refCount w i r => exact hgood i hL (.inl mem_cons_self)
  | refReason w i r count =>
    exact ⟨hgood i hL.1 (.inl mem_cons_self), hL.2.1, Nat.le_trans (hadd i r rfl) hL.2.2⟩
  | refUnlock w i count reason =>
    exact ⟨hgood i hL.1 (.inl mem_cons_self), hL.2⟩
  | refCheck w count reason => exact hL
  | derefCount i r bias | derefReasons i r bias | derefLock i r bias
  | derefSub i r bias =>
    exact ⟨Nat.le_trans hL.1 (hn _), Nat.lt_of_lt_of_le hL.2 (hc i)⟩
  | derefRestore i r bias =>
    obtain ⟨hg, hnoted, htotal, hpos⟩ := hL
    have hsame := hfix i (.inr rfl)
    exact ⟨hsame.good (hino i rfl) hg, Nat.le_trans hnoted (hn _), hsame.total.trans htotal, hpos⟩
  | derefReason i r bias =>
    exact ⟨hgood i hL.1 (.inl mem_cons_self), Nat.le_trans hL.2 (hn _)⟩
  | derefUnlock i => exact hgood i hL (.inl mem_cons_self)
  | lastUnlock i r bias | lastLock i r bias | lastSub i r bias =>
    exact (hfix i (.inr rfl)).last (hc i) (hn _) hL
  | lastReason i r bias count =>
    obtain ⟨hg, hcount, hnoted, htotal⟩ := hL
    have hsame := hfix i (.inr rfl)
    exact ⟨hsame.good (hino i rfl) hg, hcount, Nat.le_trans hnoted (hn _), hsame.total.trans htotal⟩
  | freeRemove i =>
    have hsame := hfix i (.inr rfl)
    exact ⟨hsame.good (hino i rfl) hL.1, hsame.total.trans hL.2⟩
  | freeUnlock i | freeCount i =>
    obtain ⟨hlive, htable, htotal, hlist, htally⟩ := hL
    have hsame := hfix i (.inr rfl)
    exact ⟨hsame.live.trans hlive, hsame.table.trans htable,
      hsame.total.trans htotal, fun b => (hsame.list b).not.mpr (hlist b),
      hsame.tallied.mpr htally⟩
  | freeObject i =>
    obtain ⟨hlive, htotal, hlist⟩ := hL
    have hsame := hfix i (.inr rfl)
    exact ⟨hsame.live.trans hlive, hsame.total.trans htotal,
      fun b => (hsame.list b).not.mpr (hlist b)⟩

omit [DecidableEq θ] in
theorem Pc.Locals.live (hI : Inv hash s)
    (hknown : ∀ i, 0 < s.counted t i → pc.creating ≠ some i → Good hash s i)
    (hL : pc.Locals hash t s) (hi : pc.inode = some i) : s.live i = true := by
  cases pc with
  | idle | failed _ | lookupLock _ | lookupLoad _ | lookupScan _ _ | lookupStore _ _
  | lookupUnlock _ | refCheck _ _ _ => cases hi
  | createLock j | createInsert j | createUnlock j | createPublish j | createCount j
  | createTable j | createCheck j =>
    cases hi
    exact hL.1.live
  | refLock w j r =>
    cases hi
    cases w with
    | some n => exact (hI.listed hL).1
    | none => exact (hknown i hL nofun).live
  | refCount w j r =>
    cases hi
    exact Good.live hL
  | refReason w j r count | refUnlock w j count reason =>
    cases hi
    exact hL.1.live
  | derefCount j r bias | derefReasons j r bias | derefLock j r bias
  | derefSub j r bias =>
    cases hi
    exact (hknown i hL.2 nofun).live
  | derefRestore j r bias | derefReason j r bias | lastReason j r bias count
  | freeRemove j =>
    cases hi
    exact hL.1.live
  | derefUnlock j =>
    cases hi
    exact Good.live hL
  | lastUnlock j r bias | lastLock j r bias | lastSub j r bias =>
    cases hi
    exact (hknown i (hL.counted ▸ hL.pos) nofun).live
  | freeUnlock j | freeCount j | freeObject j =>
    cases hi
    exact hL.1

theorem Asserts.bounded (hI : Inv hash s) (h : Asserts hash t pc s) (hi : pc.inode = some i) :
    i < s.next :=
  hI.lt_next (h.locals.live hI h.known hi)

theorem Asserts.stable (hI : Inv hash p.shared) (hu : u ≠ t) (g : Guarantee hash p t s')
    (h : Asserts hash u (p.pcs u) p.shared) : Asserts hash u (p.pcs u) s' := by
  have hino : ∀ i, (p.pcs u).inode = some i → s'.ino i = p.shared.ino i :=
    fun i hi => g.ino i (h.bounded hI hi)
  refine ⟨fun b => ?_, fun b => ?_, fun i => ?_, fun i hc hne => ?_, ?_⟩
  · rw [g.readers u hu, h.reads, reads_congr hino]
  · rw [g.writer u hu, h.writes, writes_congr hino]
  · have := g.balance u hu i
    have := h.balance i
    omega
  · by_cases hlt : p.shared.counted u i < s'.counted u i
    · exact g.gains u hu i hlt
    have hle := g.counted u hu i
    have hpos : 0 < p.shared.counted u i := by omega
    exact g.good_of_counted hI (h.known i hpos hne) hpos
  · refine h.locals.transport (g.fixed u hu) (g.reasons u hu) (g.counted u hu)
      (g.noted u hu) (fun i => g.good_of_locked hI h hu)
      (fun b i => g.mem_list_of_locked hI h hu) hino

/-! ### One step of a thread -/

variable (hash) in
/-- The invariant of the pool. -/
structure Holds (p : Pool θ Pc (Shared θ)) : Prop where
  inv : Inv hash p.shared
  asserts : ∀ t, Asserts hash t (p.pcs t) p.shared
  adding : Pool.Exclusive adding p
  claiming : Pool.Exclusive claiming p
  -- an inode without references is about to leave the table
  held : ∀ i, Good hash p.shared i → 0 < p.shared.counted.total i ∨ ∃ u, (p.pcs u).claiming = some i

/-- No other thread is in the role. -/
def Takes {κ : Type} (role : Pc → Option κ) (p : Pool θ Pc (Shared θ)) (t : θ) (pc : Pc) : Prop :=
  ∀ k, role pc = some k → role (p.pcs t) = some k ∨ ∀ u, u ≠ t → role (p.pcs u) ≠ some k

variable (hash) in
/-- A step of `t` to `pc` and `s'` that keeps the invariant. -/
structure Sound (p : Pool θ Pc (Shared θ)) (t : θ) (pc : Pc) (s' : Shared θ) :
    Prop where
  inv : Inv hash s'
  asserts : Asserts hash t pc s'
  guarantee : Guarantee hash p t s'
  adding : Takes adding p t pc
  claiming : Takes claiming p t pc
  held : ∀ i, Good hash s' i → 0 < s'.counted.total i ∨ pc.claiming = some i ∨
    ∃ u, u ≠ t ∧ (p.pcs u).claiming = some i
  entered : ∀ b i, i ∈ s'.list b → i ∈ p.shared.list b ∨ p.shared.created i = false
  created : ∀ i, p.shared.created i = true → s'.created i = true

theorem Sound.holds (h : Holds hash p) (hs : Sound hash p t pc s') :
    Holds hash (p.set t pc s') where
  held := fun i hg => by
    rcases hs.held i hg with hpos | hself | ⟨u, hu, hclaim⟩
    · exact .inl hpos
    · exact .inr ⟨t, by rw [Pool.set_pcs_self]; exact hself⟩
    · exact .inr ⟨u, by rw [Pool.set_pcs_ne p pc s' hu]; exact hclaim⟩
  inv := hs.inv
  asserts := Pool.asserts_set hs.asserts fun u hu =>
    (h.asserts u).stable h.inv hu hs.guarantee
  adding := h.adding.set hs.adding
  claiming := h.claiming.set hs.claiming

omit [Fintype θ] [DecidableEq θ] in
theorem Takes.of_eq {κ : Type} {role : Pc → Option κ} (h : role pc = role (p.pcs t)) :
    Takes role p t pc := fun _ hk => .inl (h ▸ hk)

omit [Fintype θ] [DecidableEq θ] in
theorem Takes.of_none {κ : Type} {role : Pc → Option κ} (h : role pc = none) :
    Takes role p t pc := fun _ hk => nomatch h.symm.trans hk

theorem Holds.claimed (h : Holds hash p) (hg : Good hash p.shared i)
    (hkeep : (p.pcs t).claiming = some i → pc.claiming = some i) :
    0 < p.shared.counted.total i ∨ pc.claiming = some i ∨
      ∃ u, u ≠ t ∧ (p.pcs u).claiming = some i := by
  rcases h.held i hg with hpos | ⟨u, hu⟩
  · exact .inl hpos
  by_cases hut : u = t
  · exact .inr (.inl (hkeep (hut ▸ hu)))
  · exact .inr (.inr ⟨u, hut, hu⟩)

/-- Locks, caches and the public field of an inode may have changed. -/
def Quiet (s s' : Shared θ) : Prop :=
  ∃ locks cache published, s' =
    { s with locks := locks, lastInodeTableEntry := cache, publicTable := published }

omit [DecidableEq θ] in
theorem Quiet.sameAt (h : Quiet s s') (i : Nat) : SameAt s s' i := by
  obtain ⟨l, c, o, rfl⟩ := h
  exact ⟨rfl, rfl, rfl, fun _ => Iff.rfl, Iff.rfl, rfl⟩

omit [DecidableEq θ] in
theorem Quiet.locals (h : Quiet s s') (hL : pc.Locals hash t s) : pc.Locals hash t s' := by
  have hsame := h.sameAt
  obtain ⟨l, c, o, rfl⟩ := h
  exact hL.transport (fun i _ => hsame i) (fun _ _ _ => Nat.le_refl _)
    (fun _ => Nat.le_refl _) (fun _ => Nat.le_refl _)
    (fun i hg _ => (hsame i).good rfl hg) (fun _ _ hm _ => hm) (fun _ _ => rfl)

/-- Places that differ in the locks held there at most. -/
def Alike (pc pc' : Pc) : Prop :=
  (pc'.owed, pc'.ahead, pc'.creating, pc'.adding, pc'.claiming) =
    (pc.owed, pc.ahead, pc.creating, pc.adding, pc.claiming)

section

variable (h : Holds hash p)
include h

/-- A step that moves locks and caches at most, between places that are alike
but for the locks held there. -/
theorem Sound.quiet (hq : Quiet p.shared s')
    (hlocks : ∀ b, RwLock.Step t (p.shared.locks b) (s'.locks b))
    (hcache : ∀ {b i}, s'.lastInodeTableEntry b = some i → i ∈ p.shared.list b)
    (hreads : ∀ b, (s'.locks b).readers.count t = (pc.reads hash p.shared.ino).count b)
    (hwrites : ∀ b, (s'.locks b).writer = some t ↔ pc.writes hash p.shared.ino = some b)
    (halike : Alike (p.pcs t) pc) (hL : pc.Locals hash t p.shared) : Sound hash p t pc s' := by
  have hI := h.inv
  have ha := h.asserts t
  have hsame := hq.sameAt
  have hL' := hq.locals hL
  simp only [Alike, Prod.mk.injEq] at halike
  obtain ⟨howed, hahead, hcreating, hadding, hclaiming⟩ := halike
  obtain ⟨l, c, o, rfl⟩ := hq
  refine ⟨{ hI with locks := fun b => (hlocks b).wf (hI.locks b), cached := hcache },
    ⟨hreads, hwrites, fun i => ?_, fun i hc hne => ?_, hL'⟩,
    { Guarantee.refl hash p t with
      readers := fun u hu b => (hlocks b).readers u hu
      writer := fun u hu b => (hlocks b).writer u hu
      gains := fun _ _ _ hlt => absurd hlt (Nat.lt_irrefl _)
      fixed := fun u _ i _ => hsame i }, .of_eq hadding, .of_eq hclaiming,
    fun i hg => h.claimed { hg with } (hclaiming ▸ id), fun _ _ hm => .inl hm, fun _ => id⟩
  · rw [howed, hahead]
    exact ha.balance i
  · exact (hsame i).good rfl (ha.known i hc (hcreating ▸ hne))

variable {pc0 : Pc} (hpc : p.pcs t = pc0) (halike : Alike pc0 pc)
  (hL : pc.Locals hash t p.shared)
include hpc halike hL

theorem Sound.lock {l : RwLock θ}
    (hs : s' = { p.shared with locks := update p.shared.locks b l })
    (hstep : RwLock.Step t (p.shared.locks b) l)
    (hreads : l.readers.count t = (pc.reads hash p.shared.ino).count b ∧
      ∀ b', b' ≠ b → (pc.reads hash p.shared.ino).count b' = (pc0.reads hash p.shared.ino).count b')
    (hwrites : (l.writer = some t ↔ pc.writes hash p.shared.ino = some b) ∧
      ∀ b', b' ≠ b → (pc.writes hash p.shared.ino = some b' ↔
        pc0.writes hash p.shared.ino = some b')) : Sound hash p t pc s' := by
  subst hpc hs
  have ha := h.asserts t
  refine .quiet h ⟨_, _, _, rfl⟩ (fun b' => ?_) h.inv.cached (fun b' => ?_) (fun b' => ?_) halike hL
  · by_cases hb : b' = b
    · subst hb
      simpa using hstep
    · simpa [hb] using RwLock.Step.refl t (p.shared.locks b')
  · by_cases hb : b' = b
    · subst hb
      simpa using hreads.1
    · simp [hb, hreads.2 b' hb, ha.reads]
  · by_cases hb : b' = b
    · subst hb
      simpa using hwrites.1
    · simp [hb, hwrites.2 b' hb, ha.writes]

section Shared

variable (hwrites : pc.writes hash p.shared.ino = pc0.writes hash p.shared.ino)
include hwrites

theorem Sound.stay {cache : Nat → Option Nat} {published : Nat → Bool}
    (hs : s' = { p.shared with lastInodeTableEntry := cache, publicTable := published })
    (hcache : ∀ {b i}, cache b = some i → i ∈ p.shared.list b)
    (hreads : pc.reads hash p.shared.ino = pc0.reads hash p.shared.ino) :
    Sound hash p t pc s' := by
  subst hpc hs
  have ha := h.asserts t
  refine .quiet h ⟨_, _, _, rfl⟩ (fun b => .refl t _) hcache (fun b => ?_) (fun b => ?_) halike hL
  · rw [hreads]
    exact ha.reads b
  · rw [hwrites]
    exact ha.writes b

theorem Sound.rdlock (hs : p.shared.lockShared b t = some s')
    (hreads : pc.reads hash p.shared.ino = b :: pc0.reads hash p.shared.ino) :
    Sound hash p t pc s' := by
  have ha := hpc ▸ h.asserts t
  obtain ⟨l, hl, hs⟩ := Option.map_eq_some_iff.mp hs
  have hstep := RwLock.Step.rdlock hl
  obtain ⟨-, rfl⟩ := RwLock.rdlock_inv hl
  refine .lock h hpc halike hL hs.symm hstep ⟨?_, fun b' hb => ?_⟩ ⟨?_, fun b' hb => ?_⟩
  · rw [hreads, count_cons_self, count_cons_self, ha.reads]
  · rw [hreads, count_cons_of_ne (Ne.symm hb)]
  · rw [hwrites]
    exact ha.writes b
  · rw [hwrites]

theorem Sound.unlockShared (hs : s' = p.shared.unlock b t)
    (hreads : pc0.reads hash p.shared.ino = b :: pc.reads hash p.shared.ino) :
    Sound hash p t pc s' := by
  have ha := hpc ▸ h.asserts t
  have hmem : t ∈ (p.shared.locks b).readers := by
    rw [← count_pos_iff, ha.reads, hreads, count_cons_self]
    exact Nat.succ_pos _
  have hw : (p.shared.locks b).writer ≠ some t := by
    rw [h.inv.writer_none hmem]
    exact nofun
  refine .lock h hpc halike hL hs (.unlock t _) ⟨?_, fun b' hb => ?_⟩ ⟨?_, fun b' hb => ?_⟩
  · rw [RwLock.unlock_of_reader hw, count_erase_self, ha.reads, hreads,
      count_cons_self, Nat.add_sub_cancel]
  · rw [hreads, count_cons_of_ne (Ne.symm hb)]
  · rw [RwLock.unlock_of_reader hw, hwrites]
    exact ha.writes b
  · rw [hwrites]

end Shared

theorem Sound.wrlock (hs : p.shared.lockExclusive b t = some s')
    (hreads : pc.reads hash p.shared.ino = pc0.reads hash p.shared.ino)
    (hwrites : pc.writes hash p.shared.ino = some b ∧ pc0.writes hash p.shared.ino = none) :
    Sound hash p t pc s' := by
  have ha := hpc ▸ h.asserts t
  obtain ⟨l, hl, hs⟩ := Option.map_eq_some_iff.mp hs
  have hstep := RwLock.Step.wrlock hl
  obtain ⟨-, -, rfl⟩ := RwLock.wrlock_inv hl
  refine .lock h hpc halike hL hs.symm hstep ⟨?_, fun b' hb => ?_⟩ ⟨?_, fun b' hb => ?_⟩
  · rw [hreads]
    exact ha.reads b
  · rw [hreads]
  · exact iff_of_true rfl hwrites.1
  · rw [hwrites.1, hwrites.2]
    exact ⟨fun hn => absurd (Option.some.inj hn).symm hb, nofun⟩

theorem Sound.unlockExclusive (hs : s' = p.shared.unlock b t)
    (hreads : pc.reads hash p.shared.ino = pc0.reads hash p.shared.ino)
    (hwrites : pc0.writes hash p.shared.ino = some b ∧ pc.writes hash p.shared.ino = none) :
    Sound hash p t pc s' := by
  have ha := hpc ▸ h.asserts t
  have hw := (ha.writes b).mpr hwrites.1
  refine .lock h hpc halike hL hs (.unlock t _) ⟨?_, fun b' hb => ?_⟩ ⟨?_, fun b' hb => ?_⟩
  · rw [RwLock.unlock_of_writer hw, hreads]
    exact ha.reads b
  · rw [hreads]
  · rw [RwLock.unlock_of_writer hw, hwrites.2]
    exact ⟨nofun, nofun⟩
  · rw [hwrites.1, hwrites.2]
    exact ⟨nofun, fun hn => absurd (Option.some.inj hn).symm hb⟩

end

/-! ### The counts -/

/-- A thread owes and anticipates references to the inode that it is working
on only. -/
theorem Pc.owed_of_ne (h : pc.inode = some i) {j : Nat} (hj : j ≠ i) :
    pc.owed j = 0 ∧ pc.ahead j = 0 := by
  cases pc <;> cases h <;>
    first | exact ⟨rfl, rfl⟩ | exact ⟨if_neg hj, rfl⟩ | exact ⟨rfl, if_neg hj⟩

/-- Nobody else relies on how many references the inode has. -/
def Unclaimed (p : Pool θ Pc (Shared θ)) (t : θ) (i : Nat) : Prop :=
  ∀ u, u ≠ t → (p.pcs u).creating ≠ some i ∧ (p.pcs u).claiming ≠ some i

omit [Fintype θ] in
theorem Good.setCount (h : Good hash s i) (j c : Nat) (t : θ) (n : Nat) :
    Good hash (s.setCount j c t n) i :=
  { h with }

omit [Fintype θ] in
theorem Good.setReason (h : Good hash s i) (j : Nat) (r : Reason) (c : Nat) (t : θ)
    (n : Nat) : Good hash (s.setReason j r c t n) i :=
  { h with }

theorem Sound.count (h : Holds hash p) (hpc : p.pcs t = pc0) {c n : Nat} (hin0 : pc0.inode = some i)
    (hin : pc.inode = some i) (hval : c + p.shared.counted t i = p.shared.referenceCount i + n)
    (hfree : Unclaimed p t i) (hbalance : n + pc.owed i = p.shared.reasons t i + pc.ahead i)
    (hgood : 0 < n → Good hash p.shared i) (hadding : Takes Pc.adding p t pc)
    (hclaiming : Takes Pc.claiming p t pc)
    (hkeep : ∀ j, pc0.claiming = some j → pc.claiming = some j)
    (hheld : 0 < c ∨ pc.claiming = some i) (hL : pc.Locals hash t (p.shared.setCount i c t n))
    (hcreating : pc0.creating = none)
    (hreads : pc.reads hash p.shared.ino = pc0.reads hash p.shared.ino)
    (hwrites : pc.writes hash p.shared.ino = pc0.writes hash p.shared.ino) :
    Sound hash p t pc (p.shared.setCount i c t n) := by
  subst hpc
  have hI := h.inv
  have ha := h.asserts t
  have hself := p.shared.counted.total_set_self t i n
  have hother : ∀ j, j ≠ i → (p.shared.counted.set t i n).total j = p.shared.counted.total j :=
    fun j hj => p.shared.counted.total_set_other t n hj
  refine ⟨{ hI with counts := fun j => ?_, unused := fun {j} hj => ?_ },
    ⟨fun b => ?_, fun b => ?_, fun j => ?_, fun j hc hne => ?_, hL⟩,
    { Guarantee.refl hash p t with
      counted := fun u hu j => ?_
      balance := fun u hu j => ?_
      gains := fun u hu j hlt => ?_
      fixed := fun u hu j hrole => ?_ }, hadding, hclaiming, fun j hg => ?_,
    fun _ _ hm => .inl hm, fun _ => id⟩
  · by_cases hj : j = i
    · subst hj
      have := hI.counts j
      simp only [setCount, update_self]
      omega
    · simp only [setCount, update_of_ne hj, hother j hj, hI.counts]
  · have hji : j ≠ i := fun heq => by
      subst heq
      exact Nat.lt_irrefl _ (Nat.lt_of_lt_of_le (ha.bounded hI hin0) hj)
    obtain ⟨h1, h2, h3⟩ := hI.unused hj
    exact ⟨h1, (hother j hji).trans h2, h3⟩
  · rw [show (p.shared.setCount i c t n).ino = p.shared.ino from rfl, hreads]
    exact ha.reads b
  · rw [show (p.shared.setCount i c t n).ino = p.shared.ino from rfl, hwrites]
    exact ha.writes b
  · change p.shared.counted.set t i n t j + _ = p.shared.reasons t j + _
    by_cases hj : j = i
    · subst hj
      rw [set_apply, if_pos ⟨rfl, rfl⟩]
      exact hbalance
    · have hbal := ha.balance j
      rw [(owed_of_ne hin0 hj).1, (owed_of_ne hin0 hj).2] at hbal
      rwa [set_apply, if_neg (fun h => hj h.2), (owed_of_ne hin hj).1, (owed_of_ne hin hj).2]
  · refine Good.setCount ?_ i c t n
    replace hc : 0 < p.shared.counted.set t i n t j := hc
    by_cases hj : j = i
    · subst hj
      rw [set_apply, if_pos ⟨rfl, rfl⟩] at hc
      exact hgood hc
    · rw [set_apply, if_neg (fun h => hj h.2)] at hc
      refine ha.known j hc ?_
      simp [hcreating]
  · exact Nat.le_of_eq (set_other _ _ _ _ hu).symm
  · change p.shared.counted.set t i n u j + _ = _
    rw [set_other _ _ _ _ hu]
    rfl
  · replace hlt : p.shared.counted u j < p.shared.counted.set t i n u j := hlt
    rw [set_other _ _ _ _ hu] at hlt
    exact absurd hlt (Nat.lt_irrefl _)
  · have hji : j ≠ i := by
      rintro rfl
      rcases hrole with hrole | hrole
      · exact (hfree u hu).1 hrole
      · exact (hfree u hu).2 hrole
    exact ⟨rfl, rfl, rfl, fun _ => Iff.rfl, Iff.rfl, hother j hji⟩
  · by_cases hj : j = i
    · subst hj
      refine hheld.imp (fun hc => ?_) .inl
      have := hI.counts j
      change 0 < (p.shared.counted.set t j n).total j
      omega
    · change 0 < (p.shared.counted.set t i n).total j ∨ _
      rw [hother j hj]
      exact h.claimed { hg with } (hkeep j)

omit [Fintype θ] in
theorem Shared.setReason_of_ne {j c n : Nat} {r r' : Reason} (h : (j, r') ≠ (i, r)) :
    (s.setReason i r c t n).referenceReasons j r' = s.referenceReasons j r' := by
  by_cases hj : j = i
  · subst hj
    have hr : r' ≠ r := fun hr => h (by rw [hr])
    simp only [setReason, update_self, update_of_ne hr]
  · simp only [setReason, update_of_ne hj]

theorem Sound.reason (h : Holds hash p) (hpc : p.pcs t = pc0) {c n : Nat}
    (hin0 : pc0.inode = some i) (hin : pc.inode = some i)
    (hval : c + p.shared.noted t (i, r) = p.shared.referenceReasons i r + n)
    (hfits : c < 2 ^ 32)
    (hfree : p.shared.referenceReasons i r < c → ∀ u, u ≠ t → (p.pcs u).adding ≠ some (i, r))
    (hbalance : p.shared.counted t i + pc.owed i + p.shared.noted t (i, r) =
        p.shared.reasons t i + n + pc.ahead i)
    (hadding : Takes Pc.adding p t pc) (hclaiming : pc.claiming = pc0.claiming)
    (hL : pc.Locals hash t (p.shared.setReason i r c t n))
    (hcreating : pc0.creating = none)
    (hreads : pc.reads hash p.shared.ino = pc0.reads hash p.shared.ino)
    (hwrites : pc.writes hash p.shared.ino = pc0.writes hash p.shared.ino) :
    Sound hash p t pc (p.shared.setReason i r c t n) := by
  subst hpc
  have hI := h.inv
  have ha := h.asserts t
  have hself := p.shared.noted.total_set_self t (i, r) n
  have hother : ∀ k, k ≠ (i, r) →
      (p.shared.noted.set t (i, r) n).total k = p.shared.noted.total k :=
    fun k hk => p.shared.noted.total_set_other t n hk
  have hsum : (p.shared.setReason i r c t n).reasons t i + p.shared.noted t (i, r) =
      p.shared.reasons t i + n := by
    refine reasons_of_update ?_ fun r' hr => ?_
    · exact (set_apply ..).trans (if_pos ⟨rfl, rfl⟩)
    · exact (set_apply ..).trans (if_neg fun h => hr (Prod.mk.inj h.2).2)
  have hrest : ∀ u j, ¬ (u = t ∧ j = i) →
      (p.shared.setReason i r c t n).reasons u j = p.shared.reasons u j := by
    intro u j hne
    refine reasons_congr fun r' => ?_
    exact (set_apply ..).trans (if_neg fun h => hne ⟨h.1, (Prod.mk.inj h.2).1⟩)
  refine ⟨{ hI with
      reasons := fun j r' => ?_, fits := fun j r' => ?_, unused := fun {j} hj => ?_ },
    ⟨fun b => ?_, fun b => ?_, fun j => ?_, fun j hc hne => ?_, hL⟩,
    { Guarantee.refl hash p t with
      noted := fun u hu k => ?_
      balance := fun u hu j => ?_
      gains := fun _ _ _ hlt => absurd hlt (Nat.lt_irrefl _)
      fixed := fun _ _ _ _ => ⟨rfl, rfl, rfl, fun _ => Iff.rfl, Iff.rfl, rfl⟩
      reasons := fun u hu j r' hrole => ?_ }, hadding, .of_eq hclaiming,
    fun j hg => h.claimed { hg with } (hclaiming ▸ id), fun _ _ hm => .inl hm, fun _ => id⟩
  · by_cases hk : (j, r') = (i, r)
    · obtain ⟨rfl, rfl⟩ := Prod.mk.inj hk
      have := hI.reasons j r'
      simp only [setReason, update_self]
      omega
    · rw [setReason_of_ne hk, hI.reasons]
      exact (hother _ hk).symm
  · by_cases hk : (j, r') = (i, r)
    · obtain ⟨rfl, rfl⟩ := Prod.mk.inj hk
      simp only [setReason, update_self]
      exact hfits
    · rw [setReason_of_ne hk]
      exact hI.fits j r'
  · obtain ⟨h1, h2, h3, h4⟩ := hI.unused hj
    refine ⟨h1, h2, fun r' => ?_, h4⟩
    refine (hother _ fun hk => ?_).trans (h3 r')
    obtain ⟨rfl, -⟩ := Prod.mk.inj hk
    exact Nat.lt_irrefl _ (Nat.lt_of_lt_of_le (ha.bounded hI hin0) hj)
  · rw [show (p.shared.setReason i r c t n).ino = p.shared.ino from rfl, hreads]
    exact ha.reads b
  · rw [show (p.shared.setReason i r c t n).ino = p.shared.ino from rfl, hwrites]
    exact ha.writes b
  · change p.shared.counted t j + _ = _
    by_cases hj : j = i
    · subst hj
      omega
    have hbal := ha.balance j
    rw [(owed_of_ne hin0 hj).1, (owed_of_ne hin0 hj).2] at hbal
    rwa [hrest t j (fun h => hj h.2), (owed_of_ne hin hj).1, (owed_of_ne hin hj).2]
  · refine (ha.known j hc ?_).setReason i r c t n
    simp [hcreating]
  · exact Nat.le_of_eq (set_other _ _ _ _ hu).symm
  · rw [hrest u j (fun h => hu h.1)]
    rfl
  · by_cases hk : (j, r') = (i, r)
    · obtain ⟨rfl, rfl⟩ := Prod.mk.inj hk
      simp only [setReason, update_self]
      by_contra hlt
      exact hfree (Nat.lt_of_not_le hlt) u hu hrole
    · exact Nat.le_of_eq (setReason_of_ne hk)

end Invariant

end Finesse.Bitbucket.Threads
