import Finesse.Lib.Ledger
import Finesse.Lib.Pool
import Finesse.Lib.RwLock
import Finesse.Utils.ObjectTable

/-!
# The object table under concurrent use

Lookups and releases of `fastlookup.c` by any number of threads, with the
bucket locks and with every atomic operation on a reference count or on a
bucket's cache as a step of its own. The lists of a bucket change only under
its exclusive lock, so a scan of a list is one step, and so is the part of
`release_entry` that runs under both exclusive locks.

`FinesseObjectRelease` decrements the count under the shared lock. If that
made it zero, the count is put back before the bucket is unlocked. In
between, a lookup under the same shared lock finds the entry with a count
of zero, which `FinesseObjectLookupByUuid` asserts never to happen.
`refcount_safe_iff` says that nothing else goes wrong.
-/

namespace Finesse.Utils

open Ledger Function Machine Pool List

/-- Why an entry is being looked up. -/
inductive Purpose where
  | lookup
  | release (obj : Nat)
deriving DecidableEq, Repr

inductive TableAssertion where
  | nullKey
  | nullPointer
  /-- `FinesseObjectLookupByUuid`: no transition from zero to one. -/
  | zeroToOne
  /-- `FinesseObjectRelease`: the object is in the table. -/
  | releaseUnknown
  /-- `FinesseObjectRelease`: the count does not go below zero. -/
  | underflow
deriving DecidableEq, Repr

inductive TablePc where
  | idle
  | failed (a : TableAssertion)
  -- lookup_entry, under the shared lock
  | lock (w : Purpose) (k : Key)
  | load (w : Purpose) (k : Key)
  | testNull (w : Purpose) (k : Key) (e : Option Nat)
  | testInode (w : Purpose) (k : Key) (e : Option Nat)
  | reload (w : Purpose) (k : Key)
  | compare (w : Purpose) (k : Key) (e : Option Nat)
  | scan (w : Purpose) (k : Key)
  | store (w : Purpose) (k : Key) (a : Nat)
  -- FinesseObjectLookupByIno and FinesseObjectLookupByUuid
  | add (k : Key) (a : Nat)
  | unlockLookup (k : Key) (r : Option Nat)
  -- FinesseObjectRelease
  | sub (k : Key) (obj a : Nat)
  | restore (k : Key) (a : Nat)
  | unlockRelease (k : Key) (a refCount : Nat)
  -- release_entry
  | dropFirst (a : Nat)
  | dropSecond (a : Nat)
  | dropSub (a : Nat)
  | dropUnlink (a : Nat)
  | dropUnlockSecond (a : Nat)
  | dropUnlockFirst (a : Nat)
deriving DecidableEq, Repr

/-- The calls a thread may make when it is idle; `next` elsewhere. -/
inductive TableAct where
  | lookupByIno (ino : Inode)
  | lookupByUuid (uuid : Uuid)
  | release (obj : Nat)
  | next
deriving DecidableEq, Repr

inductive TableEvent (θ : Type) where
  /-- A lookup added a reference to a count of `old`. -/
  | observed (t : θ) (a old : Nat)
  | asserted (t : θ)
  /-- A release made the count zero, and later put it back. -/
  | zeroed (t : θ) (a : Nat)
  | restored (t : θ) (a : Nat)
  /-- An entry left the table while threads held `outstanding` references. -/
  | unlinked (a outstanding : Nat)
deriving DecidableEq, Repr

/-- Table, bucket locks, and the references held by threads. -/
structure SharedTable (θ : Type) where
  table : Table
  locks : Nat → RwLock θ
  held : Ledger θ Nat

section

variable {θ : Type} [DecidableEq θ]

namespace SharedTable

/-- `LockBucket(bucket, 0)`. -/
def lockShared (s : SharedTable θ) (i : Nat) (t : θ) : Option (SharedTable θ) :=
  ((s.locks i).rdlock t).map fun l =>
    { s with locks := update s.locks i l }

/-- `LockBucket(bucket, 1)`. -/
def lockExclusive (s : SharedTable θ) (i : Nat) (t : θ) : Option (SharedTable θ) :=
  ((s.locks i).wrlock t).map fun l =>
    { s with locks := update s.locks i l }

/-- `UnlockBucket`. -/
def unlock (s : SharedTable θ) (i : Nat) (t : θ) : SharedTable θ :=
  { s with locks := update s.locks i ((s.locks i).unlock t) }

/-- The two buckets of an entry in the order in which they are locked. -/
def first (s : SharedTable θ) (a : Nat) : Nat :=
  min (s.table.bucketIndex (.inode (s.table.entries a).inode))
    (s.table.bucketIndex (.uuid (s.table.entries a).uuid))

def second (s : SharedTable θ) (a : Nat) : Nat :=
  max (s.table.bucketIndex (.inode (s.table.entries a).inode))
    (s.table.bucketIndex (.uuid (s.table.entries a).uuid))

def lastEntry (s : SharedTable θ) (k : Key) : Option Nat :=
  (s.table.buckets (s.table.bucketIndex k)).lastEntry

end SharedTable

/-- Where a thread goes with the entry it found. -/
def Purpose.found (w : Purpose) (k : Key) (a : Nat) : TablePc :=
  match w with
  | .lookup => .add k a
  | .release obj => .sub k obj a

def Purpose.notFound (w : Purpose) (k : Key) : TablePc :=
  match w with
  | .lookup => .unlockLookup k none
  | .release _ => .failed .releaseUnknown

/-- The calls. A thread releases only references that it holds. -/
def tableCall (t : θ) (a : TableAct) (s : SharedTable θ) :
    Option (List (TableEvent θ) × TablePc × SharedTable θ) :=
  match a with
  | .lookupByIno ino =>
    if ino = 0#64 then some ([], .failed .nullKey, s)
    else some ([], .lock .lookup (.inode ino), s)
  | .lookupByUuid uuid =>
    if uuid = 0#128 then some ([], .failed .nullKey, s)
    else some ([], .lock .lookup (.uuid uuid), s)
  | .release obj =>
    if s.held t obj = 0 then none
    else if (s.table.entries obj).uuid = 0#128 then
      some ([], .failed .nullKey, s)
    else some ([], .lock (.release obj) (.uuid (s.table.entries obj).uuid), s)
  | .next => none

/-- `lookup_entry`, between taking the shared lock and the entry found. -/
def lookupStep (t : θ) (pc : TablePc) (s : SharedTable θ) :
    Option (List (TableEvent θ) × TablePc × SharedTable θ) :=
  match pc with
  | .lock w k =>
    (s.lockShared (s.table.bucketIndex k) t).map fun s' => ([], .load w k, s')
  | .load w k =>
    match k with
    | .inode _ => some ([], .compare w k (s.lastEntry k), s)
    | .uuid _ => some ([], .testNull w k (s.lastEntry k), s)
  | .testNull w k e =>
    match s.lastEntry k with
    | none => some ([], .compare w k e, s)
    | some _ => some ([], .testInode w k e, s)
  | .testInode w k e =>
    match s.lastEntry k with
    | none => some ([], .failed .nullPointer, s)
    | some b =>
      if (s.table.entries b).inode = 0#64 then some ([], .compare w k e, s)
      else some ([], .reload w k, s)
  | .reload w k => some ([], .compare w k (s.lastEntry k), s)
  | .compare w k e =>
    match e.filter fun a => (s.table.entries a).matches k with
    | some a => some ([], w.found k a, s)
    | none => some ([], .scan w k, s)
  | .scan w k =>
    match ((s.table.buckets (s.table.bucketIndex k)).list k).find?
        fun a => (s.table.entries a).matches k with
    | some a => some ([], .store w k a, s)
    | none => some ([], w.notFound k, s)
  | .store w k a =>
    some ([], w.found k a,
      { s with table := s.table.setBucket (s.table.bucketIndex k) fun b =>
        { b with lastEntry := some a } })
  | _ => none

/-- The rest of the two lookup functions. Only the lookup by uuid asserts. -/
def referenceStep (t : θ) (pc : TablePc) (s : SharedTable θ) :
    Option (List (TableEvent θ) × TablePc × SharedTable θ) :=
  match pc with
  | .add k a =>
    let old := (s.table.entries a).referenceCount
    let s' := { s with
      table := s.table.addReference a
      held := s.held.give t a }
    match k with
    | .inode _ => some ([.observed t a old], .unlockLookup k (some a), s')
    | .uuid _ =>
      if old = 0 then
        some ([.observed t a old, .asserted t], .failed .zeroToOne, s')
      else some ([.observed t a old], .unlockLookup k (some a), s')
  | .unlockLookup k _ => some ([], .idle, s.unlock (s.table.bucketIndex k) t)
  | _ => none

/-- The rest of `FinesseObjectRelease`. -/
def releaseStep (t : θ) (pc : TablePc) (s : SharedTable θ) :
    Option (List (TableEvent θ) × TablePc × SharedTable θ) :=
  match pc with
  | .sub k obj a =>
    let old := (s.table.entries a).referenceCount
    let s' := { s with
      table := s.table.dropReference a
      held := s.held.take t obj }
    if old = 0 then some ([], .failed .underflow, s')
    else if old = 1 then some ([.zeroed t a], .restore k a, s')
    else some ([], .unlockRelease k a old, s')
  | .restore k a =>
    let old := (s.table.entries a).referenceCount
    some ([.restored t a], .unlockRelease k a old, { s with table := s.table.addReference a })
  | .unlockRelease k a refCount =>
    some ([], if refCount = 1 then .dropFirst a else .idle, s.unlock (s.table.bucketIndex k) t)
  | _ => none

/-- `release_entry`. -/
def dropStep [Fintype θ] (t : θ) (pc : TablePc) (s : SharedTable θ) :
    Option (List (TableEvent θ) × TablePc × SharedTable θ) :=
  match pc with
  | .dropFirst a =>
    (s.lockExclusive (s.first a) t).map fun s' =>
      ([], if s.first a = s.second a then .dropSub a else .dropSecond a, s')
  | .dropSecond a =>
    (s.lockExclusive (s.second a) t).map fun s' => ([], .dropSub a, s')
  | .dropSub a =>
    let old := (s.table.entries a).referenceCount
    some ([], if old = 1 then .dropUnlink a else .dropUnlockSecond a,
      { s with table := s.table.dropReference a })
  | .dropUnlink a =>
    some ([.unlinked a (s.held.total a)], .dropUnlockSecond a,
      { s with table := unlinkEntry s.table a })
  | .dropUnlockSecond a =>
    some ([], .dropUnlockFirst a, if s.first a = s.second a then s else s.unlock (s.second a) t)
  | .dropUnlockFirst a => some ([], .idle, s.unlock (s.first a) t)
  | _ => none

/-- One step of thread `t`. -/
def tableExec [Fintype θ] (t : θ) (a : TableAct) (pc : TablePc) (s : SharedTable θ) :
    Option (List (TableEvent θ) × TablePc × SharedTable θ) :=
  match pc with
  | .idle => tableCall t a s
  | .failed _ => none
  | .lock .. | .load .. | .testNull .. | .testInode .. | .reload ..
  | .compare .. | .scan .. | .store .. => lookupStep t pc s
  | .add .. | .unlockLookup .. => referenceStep t pc s
  | .sub .. | .restore .. | .unlockRelease .. => releaseStep t pc s
  | .dropFirst _ | .dropSecond _ | .dropSub _ | .dropUnlink _
  | .dropUnlockSecond _ | .dropUnlockFirst _ => dropStep t pc s

end

/-- What a run must not show: a lookup that saw a count of zero, the failed
assertion, an entry unlinked while references are outstanding. -/
def TableEvent.Safe {θ : Type} : TableEvent θ → Prop
  | .observed _ _ old => old ≠ 0
  | .asserted _ => False
  | .unlinked _ outstanding => outstanding = 0
  | .zeroed .. | .restored .. => True

/-- The entry whose count the thread made zero and has not put back. -/
def TablePc.restores : TablePc → Option Nat
  | .restore _ a => some a
  | _ => none

/-- A lookup takes its reference only while no release stands between the
two halves of its decrement on the same entry. -/
def Undisturbed {θ : Type} (p : Pool θ TablePc (SharedTable θ)) (a : θ × TableAct) : Prop :=
  ∀ k e, p.pcs a.1 = .add k e → ∀ u, (p.pcs u).restores ≠ some e

/-! ## The invariant

The auxiliary state says which release stands between its two halves at an
entry, and how many releases were undone: each of those leaves a count that
no reference accounts for. -/

structure Undone (θ : Type) where
  owner : Nat → Option θ
  leaked : Nat → Nat

variable {k : Key} {a : TableAct}

section

variable {θ : Type}

def Undone.step (m : Undone θ) : TableEvent θ → Option (Undone θ)
  | .observed _ _ old => if old = 0 then none else some m
  | .asserted _ => none
  | .zeroed t a => some { m with owner := update m.owner a (some t) }
  | .restored _ a =>
    some ⟨update m.owner a none, update m.leaked a (m.leaked a + 1)⟩
  | .unlinked _ outstanding => if outstanding = 0 then some m else none

theorem safe_of_accept {ev : List (TableEvent θ)} : ∀ {m m' : Undone θ},
    accept Undone.step m ev = some m' → ∀ e ∈ ev, e.Safe := by
  induction ev with
  | nil => intro _ _ _ e he; cases he
  | cons d ev ih =>
    intro m m' h e he
    simp only [accept] at h
    cases hd : m.step d with
    | none => simp [hd] at h
    | some m1 =>
      simp only [hd] at h
      rcases mem_cons.mp he with rfl | he
      · cases e <;> simp_all [Undone.step, TableEvent.Safe]
      · exact ih h e he

/-- How a count relates to the references held. -/
def CountOk (count total leaked : Nat) : Option θ → Prop
  | none => count = total + leaked ∧ 0 < count
  | some _ => count = 0 ∧ total = 0 ∧ leaked = 0

structure TableInv [Fintype θ] (s : SharedTable θ) (m : Undone θ) : Prop where
  wf : s.table.Wf
  fresh : ∀ t a, s.table.allocated ≤ a → s.held t a = 0
  counts : ∀ a < s.table.allocated,
    CountOk (s.table.entries a).referenceCount (s.held.total a) (m.leaked a) (m.owner a)

/-- A thread that looks up for a release holds the reference it releases,
and looks for the uuid of that object. -/
def Purpose.Holds (w : Purpose) (k : Key) (t : θ) (s : SharedTable θ) : Prop :=
  match w with
  | .lookup => True
  | .release obj => 0 < s.held t obj ∧ k = .uuid (s.table.entries obj).uuid

/-- The entry at `a` is in the table under key `k`. -/
def Under (a : Nat) (k : Key) (s : SharedTable θ) : Prop :=
  a < s.table.allocated ∧ (s.table.entries a).keyLike k = k

/-- What holds of a thread's locals. `release_entry` is never entered. -/
def TablePc.Locals (pc : TablePc) (t : θ) (s : SharedTable θ) : Prop :=
  match pc with
  | .idle | .failed _ | .unlockLookup .. => True
  | .lock w k | .load w k | .reload w k | .scan w k => w.Holds k t s
  | .testNull w k e | .testInode w k e | .compare w k e =>
    w.Holds k t s ∧ ∀ a, e = some a → a < s.table.allocated
  | .store w k a => w.Holds k t s ∧ Under a k s
  | .add k a => Under a k s
  | .restore _ a => a < s.table.allocated
  | .sub k obj a => Purpose.Holds (.release obj) k t s ∧ Under a k s
  | .unlockRelease _ _ refCount => refCount ≠ 1
  | .dropFirst _ | .dropSecond _ | .dropSub _ | .dropUnlink _
  | .dropUnlockSecond _ | .dropUnlockFirst _ => False

structure TableAsserts (t : θ) (pc : TablePc) (s : SharedTable θ)
    (m : Undone θ) : Prop where
  owns : ∀ a, m.owner a = some t ↔ pc.restores = some a
  locals : pc.Locals t s

/-- What a step of `t` leaves to the others. -/
structure TableGuarantee (t : θ) (s : SharedTable θ) (m : Undone θ)
    (s' : SharedTable θ) (m' : Undone θ) : Prop where
  allocated : s'.table.allocated = s.table.allocated
  keys : ∀ a k, (s'.table.entries a).keyLike k = (s.table.entries a).keyLike k
  held : ∀ u, u ≠ t → ∀ a, s'.held u a = s.held u a
  owners : ∀ u, u ≠ t → ∀ a, m'.owner a = some u ↔ m.owner a = some u

variable {p : Pool θ TablePc (SharedTable θ)} {m' : Undone θ}

theorem TableGuarantee.under {t : θ} {s s' : SharedTable θ} {m : Undone θ}
    (g : TableGuarantee t s m s' m') {a : Nat} (h : Under a k s) : Under a k s' := by
  refine ⟨g.allocated ▸ h.1, ?_⟩
  rw [g.keys]
  exact h.2

theorem TableGuarantee.holds {t u : θ} {s s' : SharedTable θ}
    {m : Undone θ} (g : TableGuarantee t s m s' m') (hu : u ≠ t)
    {w : Purpose} (h : w.Holds k u s) : w.Holds k u s' := by
  cases w with
  | lookup => trivial
  | release obj =>
    refine ⟨?_, ?_⟩
    · rw [g.held u hu]
      exact h.1
    · rw [h.2]
      exact (g.keys obj (.uuid 0#128)).symm

theorem tableAsserts_stable {t u : θ} {pc : TablePc} {s s' : SharedTable θ}
    {m : Undone θ} (hu : u ≠ t) (g : TableGuarantee t s m s' m')
    (h : TableAsserts u pc s m) : TableAsserts u pc s' m' := by
  obtain ⟨howns, hloc⟩ := h
  refine ⟨fun a => (g.owners u hu a).trans (howns a), ?_⟩
  cases pc with
  | idle | failed | unlockLookup => trivial
  | restore k a => exact Nat.lt_of_lt_of_eq hloc g.allocated.symm
  | lock | load | reload | scan => exact g.holds hu hloc
  | testNull | testInode | compare =>
    exact ⟨g.holds hu hloc.1, fun a ha => g.allocated ▸ hloc.2 a ha⟩
  | store => exact ⟨g.holds hu hloc.1, g.under hloc.2⟩
  | add => exact g.under hloc
  | sub k obj a =>
    exact ⟨g.holds (w := .release obj) hu hloc.1, g.under hloc.2⟩
  | unlockRelease | dropFirst | dropSecond | dropSub | dropUnlink
  | dropUnlockSecond | dropUnlockFirst => exact hloc

/-! ## One step of a thread -/

theorem Purpose.found_restores (w : Purpose) (k : Key) (a : Nat) :
    (w.found k a).restores = none := by
  cases w <;> rfl

theorem Purpose.found_locals {w : Purpose} {a : Nat} {t : θ} {s : SharedTable θ}
    (hw : w.Holds k t s) (hu : Under a k s) : (w.found k a).Locals t s := by
  cases w with
  | lookup => exact hu
  | release obj => exact ⟨hw, hu⟩

variable [Fintype θ]

def TableSound (t : θ) (s : SharedTable θ) (m : Undone θ)
    (ev : List (TableEvent θ)) (pc : TablePc) (s' : SharedTable θ) : Prop :=
  ∃ m', accept Undone.step m ev = some m' ∧ TableInv s' m' ∧
    TableAsserts t pc s' m' ∧ TableGuarantee t s m s' m'

section

variable {t : θ} {s s' : SharedTable θ} {m : Undone θ} {pc pc' : TablePc} {ev : List (TableEvent θ)}

theorem dropStep_sound [DecidableEq θ] (hA : TableAsserts t pc s m)
    (h : dropStep t pc s = some (ev, pc', s')) : TableSound t s m ev pc' s' := by
  have hL := hA.locals
  unfold dropStep at h
  split at h
  · exact hL.elim
  · exact hL.elim
  · exact hL.elim
  · exact hL.elim
  · exact hL.elim
  · exact hL.elim
  · cases h

variable (hI : TableInv s m)
include hI

/-- A step that changes caches and locks at most, at a point where the thread
has no decrement half done. -/
theorem tableSound_quiet (hA : TableAsserts t pc s m)
    (hc : CacheOnly s.table s'.table) (hheld : s'.held = s.held) (hpc : pc.restores = none)
    (hpc' : pc'.restores = none) (hL : pc'.Locals t s') : TableSound t s m [] pc' s' := by
  refine ⟨m, rfl, ⟨hc.wf hI.wf, ?_, ?_⟩, ⟨?_, hL⟩, ⟨hc.allocated, ?_, ?_, ?_⟩⟩
  · intro u a ha
    rw [hheld]
    exact hI.fresh u a (hc.allocated ▸ ha)
  · intro a ha
    rw [hc.entries, hheld]
    exact hI.counts a (hc.allocated ▸ ha)
  · intro a
    rw [hA.owns a, hpc, hpc']
  · intro a k
    rw [hc.entries]
  · intro u _ a
    rw [hheld]
  · exact fun _ _ _ => Iff.rfl

theorem tableSound_locks (hA : TableAsserts t pc s m) (ht : s'.table = s.table)
    (hheld : s'.held = s.held) (hpc : pc.restores = none) (hpc' : pc'.restores = none)
    (hL : pc'.Locals t s') : TableSound t s m [] pc' s' :=
  tableSound_quiet hI hA (ht ▸ .refl _) hheld hpc hpc' hL

theorem TableInv.scan_finds {obj : Nat}
    (hw : Purpose.Holds (.release obj) k t s)
    (hnone : ((s.table.buckets (s.table.bucketIndex k)).list k).find?
      (fun a => (s.table.entries a).matches k) = none) : False := by
  have hobj : obj < s.table.allocated := by
    by_contra hlt
    have := hI.fresh t obj (by omega)
    have := hw.1
    omega
  have hk : (s.table.entries obj).keyLike k = k := by
    rw [hw.2]
    rfl
  have hmem := (hI.wf.lists (s.table.bucketIndex k) k obj).mpr ⟨hobj, by rw [hk]⟩
  exact find?_eq_none.mp hnone obj hmem (LookupEntry.matches_iff.mpr hk)

theorem tableCall_sound (hA : TableAsserts t .idle s m)
    (h : tableCall t a s = some (ev, pc', s')) : TableSound t s m ev pc' s' := by
  unfold tableCall at h
  split at h
  · split at h <;> cases h <;> exact tableSound_locks hI hA rfl rfl rfl rfl trivial
  · split at h <;> cases h <;> exact tableSound_locks hI hA rfl rfl rfl rfl trivial
  · next obj =>
    split at h
    · cases h
    next hheld =>
    split at h
    · cases h
      exact tableSound_locks hI hA rfl rfl rfl rfl trivial
    · cases h
      exact tableSound_locks hI hA rfl rfl rfl rfl ⟨Nat.pos_of_ne_zero hheld, rfl⟩
  · cases h

theorem lookupStep_sound (hA : TableAsserts t pc s m)
    (h : lookupStep t pc s = some (ev, pc', s')) : TableSound t s m ev pc' s' := by
  have hL := hA.locals
  unfold lookupStep at h
  split at h
  · obtain ⟨s1, hs, ⟨⟩⟩ := Option.map_eq_some_iff.mp h
    obtain ⟨l, -, rfl⟩ := Option.map_eq_some_iff.mp hs
    refine tableSound_locks hI hA rfl rfl rfl rfl ?_
    exact hL
  · next w k =>
    have hcache := hI.wf.cache (s.table.bucketIndex k)
    split at h <;> cases h <;>
      exact tableSound_locks hI hA rfl rfl rfl rfl ⟨hL, hcache⟩
  · split at h <;> cases h <;>
      exact tableSound_locks hI hA rfl rfl rfl rfl hL
  · split at h
    · cases h
      exact tableSound_locks hI hA rfl rfl rfl rfl trivial
    split at h <;> cases h
    · exact tableSound_locks hI hA rfl rfl rfl rfl hL
    · exact tableSound_locks hI hA rfl rfl rfl rfl hL.1
  · next w k =>
    cases h
    exact tableSound_locks hI hA rfl rfl rfl rfl ⟨hL, hI.wf.cache (s.table.bucketIndex k)⟩
  · next w k e =>
    split at h
    · next a ha =>
      cases h
      rw [Option.filter_eq_some_iff] at ha
      exact tableSound_locks hI hA rfl rfl rfl (w.found_restores k a) (Purpose.found_locals hL.1
          ⟨hL.2 a ha.1, LookupEntry.matches_iff.mp ha.2⟩)
    · cases h
      exact tableSound_locks hI hA rfl rfl rfl rfl hL.1
  · next w k =>
    split at h
    · next a ha =>
      cases h
      have hm : (s.table.entries a).matches k = true := by
        simpa using find?_some ha
      have hmem := (hI.wf.lists _ k a).mp (mem_of_find?_eq_some ha)
      exact tableSound_locks hI hA rfl rfl rfl rfl ⟨hL, hmem.1, LookupEntry.matches_iff.mp hm⟩
    · next hnone =>
      cases h
      cases w with
      | lookup => exact tableSound_locks hI hA rfl rfl rfl rfl trivial
      | release obj => exact (hI.scan_finds hL hnone).elim
  · next w k a =>
    cases h
    have hmem := (hI.wf.lists (s.table.bucketIndex k) k a).mpr ⟨hL.2.1, by rw [hL.2.2]⟩
    refine tableSound_quiet hI hA ?_ rfl rfl (w.found_restores k a)
      (Purpose.found_locals (s := { s with table := _ }) hL.1 hL.2)
    exact cacheOnly_setCache hmem
  · cases h

/-- A new count for one entry, and the ledger and auxiliary state to go with
it. -/
theorem tableSound_count {a n : Nat}
    (held' : Ledger θ Nat) (m' : Undone θ) (hacc : accept Undone.step m ev = some m')
    (hfresh : ∀ u b, s.table.allocated ≤ b → held' u b = 0)
    (hother : ∀ b, b ≠ a → held'.total b = s.held.total b ∧
      m'.leaked b = m.leaked b ∧ m'.owner b = m.owner b)
    (hok : a < s.table.allocated → CountOk n (held'.total a) (m'.leaked a) (m'.owner a))
    (hheld : ∀ u, u ≠ t → ∀ b, held' u b = s.held u b)
    (howner : ∀ u, u ≠ t → (m'.owner a = some u ↔ m.owner a = some u))
    (hA : TableAsserts t pc' { s with
      table := s.table.setEntry a fun e => { e with referenceCount := n }
      held := held' } m') :
    TableSound t s m ev pc' { s with
      table := s.table.setEntry a fun e => { e with referenceCount := n }
      held := held' } := by
  refine ⟨m', hacc, ⟨hI.wf.setCount a n, hfresh, ?_⟩, hA, ⟨rfl, ?_, hheld, ?_⟩⟩
  · intro b hb
    by_cases hba : b = a
    · subst hba
      simpa [Table.setEntry] using hok hb
    obtain ⟨h1, h2, h3⟩ := hother b hba
    have hcount := hI.counts b hb
    simpa [Table.setEntry, hba, h1, h2, h3] using hcount
  · intro b k
    by_cases hba : b = a
    · subst hba
      cases k <;> simp [Table.setEntry, LookupEntry.keyLike]
    · simp [Table.setEntry, hba]
  · intro u hu b
    by_cases hba : b = a
    · subst hba
      exact howner u hu
    · rw [(hother b hba).2.2]

variable [DecidableEq θ]

theorem add_sound {a : Nat} (hA : TableAsserts t (.add k a) s m)
    (hfree : m.owner a = none) (hpc' : pc'.restores = none) (hloc : ∀ s', pc'.Locals t s') :
    TableSound t s m [.observed t a (s.table.entries a).referenceCount] pc'
      { s with table := s.table.addReference a, held := s.held.give t a } := by
  have ha : a < s.table.allocated := hA.locals.1
  have hok := hI.counts a ha
  rw [hfree] at hok
  refine tableSound_count hI _ m ?_ ?_ ?_ ?_ ?_ (fun _ _ => Iff.rfl) ⟨?_, hloc _⟩
  · simp [accept, Undone.step, Nat.ne_of_gt hok.2]
  · intro u b hb
    rw [Ledger.give, set_apply, if_neg (by rintro ⟨-, rfl⟩; omega)]
    exact hI.fresh u b hb
  · intro b hb
    exact ⟨total_set_other _ _ _ hb, rfl, rfl⟩
  · intro _
    rw [hfree, total_give]
    exact ⟨by rw [hok.1]; omega, Nat.succ_pos _⟩
  · intro u hu b
    exact set_other _ _ _ _ hu
  · intro b
    rw [hA.owns b, hpc']
    rfl

theorem referenceStep_sound (hA : TableAsserts t pc s m)
    (hfree : ∀ k a, pc = .add k a → m.owner a = none)
    (h : referenceStep t pc s = some (ev, pc', s')) : TableSound t s m ev pc' s' := by
  unfold referenceStep at h
  split at h
  · next k a =>
    have hown := hfree k a rfl
    have hok := hI.counts a hA.locals.1
    rw [hown] at hok
    dsimp only at h
    split at h
    · cases h
      exact add_sound hI hA hown rfl fun _ => trivial
    split at h
    · next hz => exact absurd hz (Nat.ne_of_gt hok.2)
    · cases h
      exact add_sound hI hA hown rfl fun _ => trivial
  · cases h
    exact tableSound_locks hI hA rfl rfl rfl rfl trivial
  · cases h

theorem releaseStep_sound (hA : TableAsserts t pc s m)
    (h : releaseStep t pc s = some (ev, pc', s')) : TableSound t s m ev pc' s' := by
  unfold releaseStep at h
  split at h
  · next k obj a =>
    obtain ⟨hw, ha, hka⟩ := hA.locals
    have hobj : obj < s.table.allocated := by
      by_contra hlt
      have := hI.fresh t obj (by omega)
      have := hw.1
      omega
    -- the uuid names one entry, so it is the caller's own
    obtain rfl : a = obj := hI.wf.unique k a obj ha hobj hka (by rw [hw.2]; rfl)
    have htake := total_take hw.1
    have hok := hI.counts a ha
    have hfree : m.owner a = none := by
      cases ho : m.owner a with
      | none => rfl
      | some u =>
        rw [ho] at hok
        have := hok.2.1
        omega
    rw [hfree] at hok
    have hfresh : ∀ u b, s.table.allocated ≤ b → s.held.take t a u b = 0 := by
      intro u b hb
      rw [Ledger.take, set_apply, if_neg (by rintro ⟨-, rfl⟩; omega)]
      exact hI.fresh u b hb
    dsimp only at h
    split at h
    · next hz => exact absurd hz (Nat.ne_of_gt hok.2)
    split at h
    · next hone =>
      cases h
      refine tableSound_count hI _ _ rfl hfresh ?_ ?_
        (fun u hu b => set_other _ _ _ _ hu) ?_ ⟨?_, ha⟩
      · intro b hb
        exact ⟨total_set_other _ _ _ hb, rfl, by simp [hb]⟩
      · intro _
        have := hok.1
        simp only [update_self, CountOk]
        omega
      · intro u hu
        simp [hfree, Ne.symm hu]
      · intro b
        by_cases hb : b = a
        · subst hb
          simp [TablePc.restores]
        · simpa [hb, TablePc.restores, Ne.symm hb] using hA.owns b
    · next hmany =>
      cases h
      refine tableSound_count hI _ m rfl hfresh ?_ ?_ (fun u hu b => set_other _ _ _ _ hu)
        (fun _ _ => Iff.rfl) ⟨hA.owns, hmany⟩
      · intro b hb
        exact ⟨total_set_other _ _ _ hb, rfl, rfl⟩
      intro _
      have := hok.1
      rw [hfree]
      simp only [CountOk]
      omega
  · next k a =>
    have hown : m.owner a = some t := (hA.owns a).mpr rfl
    cases h
    have hok := hI.counts a hA.locals
    rw [hown] at hok
    refine tableSound_count hI s.held _ rfl hI.fresh ?_ ?_ (fun _ _ _ => rfl) ?_ ⟨?_, ?_⟩
    · intro b hb
      exact ⟨rfl, by simp [hb], by simp [hb]⟩
    · intro _
      simp [CountOk, hok.1, hok.2.1, hok.2.2]
    · intro u hu
      simp [hown, Ne.symm hu]
    · intro b
      by_cases hb : b = a
      · subst hb
        simp [TablePc.restores]
      · simpa [hb, TablePc.restores, Ne.symm hb] using hA.owns b
    · -- the addition returned the zero that the decrement left
      simp [TablePc.Locals, hok.1]
  · next k a refCount =>
    cases h
    rw [if_neg hA.locals]
    exact tableSound_locks hI hA rfl rfl rfl rfl trivial
  · cases h

theorem tableExec_sound (hA : TableAsserts t pc s m)
    (hfree : ∀ k e, pc = .add k e → m.owner e = none)
    (h : tableExec t a pc s = some (ev, pc', s')) : TableSound t s m ev pc' s' := by
  unfold tableExec at h
  split at h
  · exact tableCall_sound hI hA h
  · cases h
  all_goals first
    | exact lookupStep_sound hI hA h
    | exact referenceStep_sound hI hA hfree h
    | exact releaseStep_sound hI hA h
    | exact dropStep_sound hA h

end

/-! ## Runs -/

/-- Where the threads begin: idle, with the locks free, over a table in
order whose counts cover the references that the threads hold. -/
structure TableStart (p : Pool θ TablePc (SharedTable θ)) : Prop where
  idle : ∀ t, p.pcs t = .idle
  unlocked : ∀ i, p.shared.locks i = .free
  wf : p.shared.table.Wf
  fresh : ∀ t a, p.shared.table.allocated ≤ a → p.shared.held t a = 0
  counts : ∀ a < p.shared.table.allocated,
    p.shared.held.total a ≤ (p.shared.table.entries a).referenceCount ∧
      0 < (p.shared.table.entries a).referenceCount

/-- After calls by one thread alone, the others may join. -/
def TableStart.pool [DecidableEq θ] (s : Session) (t : θ) : Pool θ TablePc (SharedTable θ) :=
  ⟨fun _ => .idle, s.table, fun _ => .free, .single t s.held⟩

theorem tableStart_of_session [DecidableEq θ] {s : Session} (hs : s.Inv)
    (t : θ) : TableStart (TableStart.pool s t) := by
  refine ⟨fun _ => rfl, fun _ => rfl, hs.wf, ?_, ?_⟩
  · intro u a ha
    simp only [TableStart.pool, Ledger.single]
    split
    · exact hs.fresh a ha
    · rfl
  · intro a ha
    have htotal : (TableStart.pool s t).shared.held.total a = s.held a := total_single t s.held a
    have hc := hs.counts a ha
    have hp := hs.heldPos a ha
    rw [htotal]
    change s.held a ≤ (s.table.entries a).referenceCount ∧ 0 < (s.table.entries a).referenceCount
    omega

theorem TableStart.holds (h : TableStart p) : ∃ m, Holds TableInv TableAsserts p m := by
  refine ⟨⟨fun _ => none, fun a => (p.shared.table.entries a).referenceCount -
    p.shared.held.total a⟩, ⟨h.wf, h.fresh, fun a ha => ?_⟩, fun t => ⟨?_, ?_⟩⟩
  · obtain ⟨hle, hpos⟩ := h.counts a ha
    exact ⟨by dsimp only; omega, hpos⟩
  · intro a
    rw [h.idle t]
    simp [TablePc.restores]
  · rw [h.idle t]
    trivial

/-- In an undisturbed step nobody stands between the halves of a decrement
at the entry that a lookup takes. -/
theorem Undisturbed.free {t : θ} {m : Undone θ} (hp : Undisturbed p (t, a))
    (h : Holds TableInv TableAsserts p m) : ∀ k e, p.pcs t = .add k e → m.owner e = none := by
  intro k e hpc
  cases ho : m.owner e with
  | none => rfl
  | some u => exact absurd (((h.threads u).owns e).mp ho) (hp k e hpc u)

variable [DecidableEq θ] {p' : Pool θ TablePc (SharedTable θ)}

theorem undisturbed_step {a : θ × TableAct}
    {ev : List (TableEvent θ)} (h : ∃ m, Holds TableInv TableAsserts p m)
    (hp : Undisturbed p a) (hs : step tableExec p a = some (ev, p')) :
    (∃ m, Holds TableInv TableAsserts p' m) ∧ ∀ e ∈ ev, e.Safe := by
  obtain ⟨m, hm⟩ := h
  obtain ⟨m', hacc, hm'⟩ := pool_step (P := Undisturbed)
    (G := TableGuarantee) (fun p m t a ev pc s hi hp he =>
      tableExec_sound hi.shared (hi.threads t) (hp.free hi) he)
    (fun t u pc s m s' m' hu _ g hL => tableAsserts_stable hu g hL) hm hp hs
  exact ⟨⟨m', hm'⟩, safe_of_accept hacc⟩

theorem disturbed_step {a : θ × TableAct} {ev : List (TableEvent θ)}
    (h : ∃ m, Holds TableInv TableAsserts p m) (hp : ¬ Undisturbed p a)
    (hs : step tableExec p a = some (ev, p')) : ∃ e ∈ ev, ¬ e.Safe := by
  obtain ⟨m, hm⟩ := h
  obtain ⟨t, a⟩ := a
  simp only [Undisturbed, not_forall, Classical.not_not] at hp
  obtain ⟨k, e, hpc, u, hu⟩ := hp
  have hown := ((hm.threads u).owns e).mpr hu
  have hunder : Under e k p.shared := by
    have := (hm.threads t).locals
    rwa [hpc] at this
  have hzero := hm.shared.counts e hunder.1
  rw [hown] at hzero
  obtain ⟨pc, s, he, -⟩ := step_inv hs
  dsimp only at he
  rw [hpc] at he
  refine ⟨.observed t e 0, ?_, fun hsafe => hsafe rfl⟩
  simp only [tableExec, referenceStep, hzero.1] at he
  split at he
  · cases he
    exact mem_singleton.mpr rfl
  · cases he
    exact mem_cons_self

/-- In every run, no lookup sees a count of zero and no entry is unlinked
while a thread holds a reference to it, if and only if no lookup takes its
reference while a release stands between its decrement to zero and the
addition that undoes it. -/
theorem refcount_safe_iff {p p' : Pool θ TablePc (SharedTable θ)} {as : List (θ × TableAct)}
    {tr : List (TableEvent θ)} (hstart : TableStart p)
    (h : run (step tableExec) p as = some (tr, p')) :
    (∀ e ∈ tr, e.Safe) ↔ Along (step tableExec) Undisturbed p as :=
  safe_iff_along (fun _ _ _ _ hi hp hs => undisturbed_step hi hp hs)
    (fun _ _ _ _ hi hp hs => disturbed_step hi hp hs) hstart.holds h

end

/-! ## A disturbed release

Thread 0 has created an object and releases its two references; thread 1
looks the object up when the second release has made the count zero. -/

section Disturbed

-- one named proof for the literals, which would otherwise bring a proof each
local instance twoThreads : NeZero 2 := ⟨by decide⟩

/-- The table after `FinesseObjectCreate`, with both references held by
thread 0. -/
def oneObject : Pool (Fin 2) TablePc (SharedTable (Fin 2)) :=
  TableStart.pool ⟨linkEntry (finesseCreateTable 0) 1#64 1#128, fun a => if a = 0 then 2 else 0⟩ 0

theorem oneObject_start : TableStart oneObject := by
  have hi : (1#64 : Inode) ≠ 0#64 := by decide
  have hu : (1#128 : Uuid) ≠ 0#128 := by decide
  have hs := (Session.inv_initial 0).link hi hu (fun b hb => absurd hb (Nat.not_lt_zero b))
    (fun b hb => absurd hb (Nat.not_lt_zero b))
  have heq : (Session.initial 0).give (linkEntry (Session.initial 0).table 1#64 1#128)
      (Session.initial 0).table.allocated 2 =
      ⟨linkEntry (finesseCreateTable 0) 1#64 1#128, fun a => if a = 0 then 2 else 0⟩ := by
    simp only [Session.give, Session.initial, Session.mk.injEq, true_and]
    funext a
    rw [update_apply]
    rfl
  exact tableStart_of_session (heq ▸ hs) 0

/-- The steps of a release and of a lookup take turns. -/
def lookupWithin : List (Fin 2 × TableAct) :=
  (0, .release 0) :: (1, .lookupByUuid 1#128) :: (replicate 8 [(0, .next), (1, .next)]).flatten

def tableCalls (t : Fin 2) (a : TableAct) (n : Nat) : List (Fin 2 × TableAct) :=
  (t, a) :: replicate n (t, .next)

/-- A lookup finds the entry while its last release has not been undone. -/
def lookupBetween : List (Fin 2 × TableAct) :=
  tableCalls 0 (.release 0) 8 ++ tableCalls 0 (.release 0) 7 ++ tableCalls 1 (.lookupByUuid 1#128) 7

end Disturbed

theorem refcount_safe_iff_lookupWithin : ∃ tr p', TableStart oneObject ∧
    run (step tableExec) oneObject lookupWithin = some (tr, p') ∧
    ((∀ e ∈ tr, e.Safe) ↔ Along (step tableExec) Undisturbed oneObject lookupWithin) := by
  have hrun : (run (step tableExec) oneObject lookupWithin).isSome = true := by decide +kernel
  obtain ⟨⟨tr, p'⟩, hr⟩ := Option.isSome_iff_exists.mp hrun
  exact ⟨tr, p', oneObject_start, hr, refcount_safe_iff oneObject_start hr⟩

/-- The lookup sees a count of zero, and its assertion fails. -/
theorem lookup_between_sees_zero : ∃ tr p', TableStart oneObject ∧
    run (step tableExec) oneObject lookupBetween = some (tr, p') ∧
    p'.pcs 1 = .failed .zeroToOne ∧ TableEvent.observed 1 0 0 ∈ tr ∧
    ¬ ∀ e ∈ tr, e.Safe := by
  have hrun : ((run (step tableExec) oneObject lookupBetween).map fun q => (q.1, q.2.pcs 1)) =
      some ([.zeroed 0 0, .observed 1 0 0, .asserted 1], .failed .zeroToOne) := by decide +kernel
  obtain ⟨⟨tr, p'⟩, hr, hq⟩ := Option.map_eq_some_iff.mp hrun
  simp only [Prod.mk.injEq] at hq
  obtain ⟨rfl, hpc⟩ := hq
  refine ⟨_, p', oneObject_start, hr, hpc, by simp, fun hsafe => ?_⟩
  exact hsafe (.observed 1 0 0) (by simp) rfl

end Finesse.Utils
