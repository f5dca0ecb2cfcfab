import Finesse.Errno
import Finesse.Lib.Ledger
import Finesse.Lib.Machine
import Finesse.Lib.Prog
import Finesse.Utils.Murmur
import Finesse.Bitbucket.Inode

/-!
# The inode table

`inode.c` keeps the inodes of a volume in a hash table. A bucket is a list of
table entries, the number of them, and a cache of the entry that was found last.
Entries are added by `BitbucketCreateInode` and leave the table when the last
reference to their inode is dropped, from inside of
`BitbucketObjectDereference`.

For the other modules the table is a map from numbers to inodes. This one is
about the table itself, as one caller at a time sees it, with inodes and table
entries in a heap. Reading memory that was freed has no result, and neither has
an assertion that fails. What the type of an inode adds (the `Initialize` and
`Deallocate` functions that it registers) is left out, and so is the alert about
buckets of more than a hundred entries.
-/

namespace Finesse.Bitbucket

open Prog Function List Machine Finset
open Option (map_eq_some_iff mem_unique)

namespace Reason

/-- A sum over all reasons. -/
def sum (f : Reason → Nat) : Nat :=
  f .lookup + f .parent + f .dirent + f .enum + f .removeDirent + f .fuseLookup +
    f .fuseOpen + f .fuseOpendir

variable (f : Reason → Nat)

theorem le_sum (r : Reason) : f r ≤ sum f := by
  cases r <;> rw [sum] <;> omega

theorem add_le_sum {r r' : Reason} (h : r ≠ r') : f r + f r' ≤ sum f := by
  cases r <;> cases r' <;> first | exact absurd rfl h | (rw [sum]; omega)

theorem sum_update (r : Reason) (k : Nat) : sum (update f r k) + f r = sum f + k := by
  cases r <;> simp [sum] <;> omega

end Reason

variable {a' b' j : Nat}

namespace InodeTable

open Finesse.Utils

/-- `bitbucket_inode_table_entry_t`: its inode, and its bucket. -/
structure TableEntry where
  inode : Nat
  bucket : Nat
deriving DecidableEq, Repr

/-- `bitbucket_inode_bucket_t`, with the addresses of its entries. -/
structure Bucket where
  listEntry : List Nat
  count : Nat
  lastInodeTableEntry : Option Nat
  lookups : Nat
  failedLookups : Nat
  lastInodeMatch : Nat
  maxCount : Nat
deriving DecidableEq, Repr

/-- `bitbucket_inode_table_t`. -/
structure Table where
  bucketCount : Nat
  bucketCountShift : Nat
  inodeCount : Nat
  maxInodeCount : Nat
  hashSeed : BitVec 64
  buckets : Nat → Bucket

/-- An inode, with the header of its object. -/
structure Object where
  /-- `st_ino` -/
  ino : BitVec 64
  /-- `Table` of the private inode is set -/
  table : Bool
  /-- `Table` of the public inode is set -/
  publicTable : Bool
  referenceCount : Nat
  referenceReasons : Reason → Nat

/-- The table, and the memory of inodes and table entries: `none` stands for
an address that was not handed out yet, or whose memory was freed. -/
structure Heap where
  table : Table
  inode : Nat → Option Object
  entry : Nat → Option TableEntry
  nextInode : Nat
  nextEntry : Nat

abbrev T := Prog Heap

namespace Object

def addCount (n : Object) (k : Nat) : Object :=
  { n with referenceCount := n.referenceCount + k }

def subCount (n : Object) (k : Nat) : Object :=
  { n with referenceCount := n.referenceCount - k }

def addReason (n : Object) (r : Reason) (k : Nat) : Object :=
  { n with referenceReasons :=
      update n.referenceReasons r (n.referenceReasons r + k) }

def subReason (n : Object) (r : Reason) (k : Nat) : Object :=
  { n with referenceReasons :=
      update n.referenceReasons r (n.referenceReasons r - k) }

end Object

namespace Table

/-- The bucket of an inode number. The seed goes through a parameter of 32
bits. -/
def index (t : Table) (ino : BitVec 64) : Nat :=
  getBucketIndex t.bucketCountShift (t.hashSeed.setWidth 32) (bytes ino 8)

def setBucket (t : Table) (b : Nat) (f : Bucket → Bucket) : Table :=
  { t with buckets := update t.buckets b (f (t.buckets b)) }

end Table

namespace Heap

def setInode (s : Heap) (i : Nat) (n : Option Object) : Heap :=
  { s with inode := update s.inode i n }

def setEntry (s : Heap) (a : Nat) (e : Option TableEntry) : Heap :=
  { s with entry := update s.entry a e }

def setBucket (s : Heap) (b : Nat) (f : Bucket → Bucket) : Heap :=
  { s with table := s.table.setBucket b f }

end Heap

def loadInode (i : Nat) : T Object := fun s => (s.inode i).map (·, s)

def loadEntry (a : Nat) : T TableEntry := fun s => (s.entry a).map (·, s)

/-- A change of one inode in place. -/
def updateInode (i : Nat) (f : Object → Object) : T Unit := do
  let n ← loadInode i
  modify (·.setInode i (some (f n)))

def hashInode (ino : BitVec 64) : T Nat := do
  let s ← get
  assert (ino ≠ 0#64)
  assert (10 ≤ s.table.bucketCountShift)
  assert (s.table.bucketCountShift < 16)
  assert (s.table.index ino < 2 ^ s.table.bucketCountShift)
  pure (s.table.index ino)

/-- `LockInodeForLookup`, `LockInodeForChange` and `UnlockInode`, of which a
single caller sees the assertions. -/
def lockInode (ino : BitVec 64) : T Unit := do
  let b ← hashInode ino
  let s ← get
  assert (b < s.table.bucketCount)

/-- `InodeTableLock` and `InodeTableUnlock`. -/
def inodeTableLock (i : Nat) : T Unit := do
  let n ← loadInode i
  assert (n.table = true)
  lockInode n.ino

/-- The number in the inode of a table entry. -/
def entryNumber (a : Nat) : T (BitVec 64) := do
  let e ← loadEntry a
  let n ← loadInode e.inode
  pure n.ino

/-- The loop of `LookupInodeInTableLocked`. -/
def findEntry (ino : BitVec 64) : List Nat → T (Option Nat)
  | [] => pure none
  | a :: as => do
    let k ← entryNumber a
    if k = ino then pure (some a) else findEntry ino as

/-- The cached entry, if it is one for the number. -/
def cachedEntry (ino : BitVec 64) : Option Nat → T (Option Nat)
  | none => pure none
  | some a => do
    let k ← entryNumber a
    pure (if k = ino then some a else none)

def lookupInodeInTableLocked (ino : BitVec 64) : T (Option Nat) := do
  assert (ino ≠ 0#64)
  let b ← hashInode ino
  let s ← get
  assert (b < s.table.bucketCount)
  modify (·.setBucket b fun k => { k with lookups := k.lookups + 1 })
  let cached ← cachedEntry ino (s.table.buckets b).lastInodeTableEntry
  match cached with
  | some a => do
    modify (·.setBucket b fun k =>
      { k with lastInodeMatch := k.lastInodeMatch + 1 })
    pure (some a)
  | none => do
    let found ← findEntry ino (s.table.buckets b).listEntry
    match found with
    | some a => do
      modify (·.setBucket b fun k => { k with lastInodeTableEntry := some a })
      pure (some a)
    | none => do
      modify (·.setBucket b fun k =>
        { k with failedLookups := k.failedLookups + 1 })
      pure none

/-- `insert_list_head` of an entry, with the counts of the bucket. -/
def Bucket.insert (b : Bucket) (a : Nat) : Bucket :=
  { b with
    listEntry := a :: b.listEntry
    count := b.count + 1
    maxCount := max (b.count + 1) b.maxCount }

/-- `remove_list_entry` of an entry, and of the cache if it points to it. -/
def Bucket.remove (b : Bucket) (a : Nat) : Bucket :=
  { b with
    listEntry := b.listEntry.erase a
    lastInodeTableEntry :=
      if b.lastInodeTableEntry = some a then none else b.lastInodeTableEntry }

/-- The occupancy count goes up, and the maximum follows the count before. -/
def Table.addInode (t : Table) : Table :=
  { t with
    inodeCount := t.inodeCount + 1
    maxInodeCount := max t.inodeCount t.maxInodeCount }

/-- A table entry in new memory. -/
def Heap.addEntry (s : Heap) (e : TableEntry) : Heap :=
  { s with
    entry := update s.entry s.nextEntry (some e)
    nextEntry := s.nextEntry + 1 }

/-- An inode in new memory. -/
def Heap.addInode (s : Heap) (n : Object) : Heap :=
  { s with
    inode := update s.inode s.nextInode (some n)
    nextInode := s.nextInode + 1 }

/-- `malloc` of a table entry. -/
def allocateEntry (e : TableEntry) : T Nat := do
  let s ← get
  set (s.addEntry e)
  pure s.nextEntry

def bitbucketInsertInodeInTable (i : Nat) : T Int := do
  let n ← loadInode i
  assert (n.publicTable = false)
  assert (n.ino ≠ BitVec.ofNat 64 fuseRootId)
  let b ← hashInode n.ino
  let a ← allocateEntry ⟨i, b⟩
  lockInode n.ino
  let found ← lookupInodeInTableLocked n.ino
  let result ← match found with
    | some _ => do
      modify (·.setEntry a none)
      pure (-EEXIST)
    | none => do
      modify (·.setBucket b (·.insert a))
      pure 0
  updateInode i fun n => { n with publicTable := true }
  modify fun s => { s with table := s.table.addInode }
  pure result

/-- A new inode, before its entry is made. -/
def newObject (ino : BitVec 64) : Object where
  ino := ino
  table := false
  publicTable := false
  referenceCount := 1
  referenceReasons := fun r => if r = Reason.lookup then 1 else 0

/-- `BitbucketObjectCreate` of an inode with a new number. -/
def bitbucketObjectCreate (ino : BitVec 64) : T Nat := do
  let s ← get
  set (s.addInode (newObject ino))
  pure s.nextInode

/-- `BitbucketCreateInode`. The number is the one that
`get_new_inode_number` hands out. -/
def bitbucketCreateInode (ino : BitVec 64) : T Nat := do
  let i ← bitbucketObjectCreate ino
  -- what the insertion returns is not looked at
  let _ ← bitbucketInsertInodeInTable i
  updateInode i fun n => { n with table := true }
  let n ← loadInode i
  assert (n.referenceCount = 1)
  pure i

/-- `BitbucketReferenceInode`, which is `BitbucketObjectReference`. -/
def bitbucketReferenceInode (i : Nat) (r : Reason) : T Unit := do
  let n ← loadInode i
  inodeTableLock i
  updateInode i fun n => (n.addCount 1).addReason r 1
  inodeTableLock i
  -- no 0 -> 1 transitions
  assert (n.referenceCount ≠ 0)
  assert (n.referenceReasons r ≤ n.referenceCount)

def bitbucketLookupInodeInTable (ino : BitVec 64) : T (Option Nat) := do
  assert (ino ≠ 0#64)
  lockInode ino
  let found ← lookupInodeInTableLocked ino
  let inode ← match found with
    | none => pure none
    | some a => do
      let e ← loadEntry a
      bitbucketReferenceInode e.inode .lookup
      pure (some e.inode)
  lockInode ino
  pure inode

/-- `InodeDeallocate`. The caller has the bucket locked, so that its own
`InodeTableTrylock` fails as it should. -/
def inodeDeallocate (i : Nat) : T Unit := do
  let n ← loadInode i
  assert (n.table = true)
  let b ← hashInode n.ino
  let found ← lookupInodeInTableLocked n.ino
  match found with
  | none => assert False
  | some a => do
    let e ← loadEntry a
    modify (·.setBucket e.bucket (·.remove a))
    modify (·.setBucket b fun k => { k with count := k.count - 1 })
    inodeTableLock i
    let s ← get
    assert (s.table.inodeCount ≠ 0)
    modify fun s =>
      { s with table := { s.table with inodeCount := s.table.inodeCount - 1 } }
    modify (·.setEntry a none)
    modify (·.setInode i none)

/-- `BitbucketDereferenceInode`, which is `BitbucketObjectDereference`. Tells
whether the inode was deallocated. -/
def bitbucketDereferenceInode (i : Nat) (r : Reason) (bias : Nat) : T Bool := do
  let n ← loadInode i
  assert (bias ≤ n.referenceCount)
  assert (bias ≤ n.referenceReasons r)
  inodeTableLock i
  updateInode i (·.subCount bias)
  if bias = n.referenceCount then updateInode i (·.addCount bias)
  else do
    assert (bias ≤ n.referenceReasons r)
    updateInode i (·.subReason r bias)
  inodeTableLock i
  if bias = n.referenceCount then do
    -- once more, with the bucket locked for changes
    inodeTableLock i
    let n ← loadInode i
    updateInode i (·.subCount bias)
    assert (bias ≤ n.referenceCount)
    updateInode i (·.subReason r bias)
    assert (bias ≤ n.referenceReasons r)
    if bias = n.referenceCount then do
      inodeDeallocate i
      pure true
    else pure false
  else pure false

/-- The number of buckets of a table, as a power of two. -/
def tableShift (bucketCount : Nat) : Nat :=
  if bucketCount ≤ 1024 then 10
  else if bucketCount ≤ 2048 then 11
  else if bucketCount ≤ 4096 then 12
  else if bucketCount ≤ 8192 then 13
  else if bucketCount ≤ 16384 then 14
  else if bucketCount ≤ 32768 then 15
  else 16

def defaultSeed : BitVec 64 := 0x318df49e5b958865#64

/-- `BitbucketCreateInodeTable`, in a heap without inodes. The statistics that
it does not initialise start at zero. -/
def bitbucketCreateInodeTable (bucketCount : Nat) (hashSeed : BitVec 64) : Heap where
  table :=
    { bucketCount := 2 ^ tableShift bucketCount
      bucketCountShift := tableShift bucketCount
      inodeCount := 0
      maxInodeCount := 0
      hashSeed := if hashSeed = 0#64 then defaultSeed else hashSeed
      buckets := fun _ => ⟨[], 0, none, 0, 0, 0, 0⟩ }
  inode := fun _ => none
  entry := fun _ => none
  nextInode := 0
  nextEntry := 0

/-! ## The lists of the buckets -/

namespace Heap

def list (s : Heap) (b : Nat) : List Nat := (s.table.buckets b).listEntry

/-- The number of an inode, while the inode is in memory. -/
def number (s : Heap) (i : Nat) : Option (BitVec 64) := (s.inode i).map (·.ino)

theorem number_setInode (s : Heap) {i : Nat} {n n' : Object} (hi : s.inode i = some n)
    (hk : n'.ino = n.ino) : (s.setInode i (some n')).number = s.number := by
  funext j
  by_cases hj : j = i
  · simp only [number, setInode, hj, update_self, hi, Option.map_some, hk]
  · simp only [number, setInode, update_of_ne hj]

/-- The table entry at `a` is one of an inode with number `k`. -/
def At (s : Heap) (a : Nat) (k : BitVec 64) : Prop :=
  ∃ e, s.entry a = some e ∧ s.number e.inode = some k

end Heap

/-- The number of buckets is a power of two that `hash_inode` supports. -/
structure Table.Sized (t : Table) : Prop where
  shift_ge : 10 ≤ t.bucketCountShift
  shift_lt : t.bucketCountShift < 16
  bucketCount : t.bucketCount = 2 ^ t.bucketCountShift

/-- The lists hold entries of inodes in memory, each in the bucket of its
number and one for each number, and the caches and counts of the buckets agree
with them. -/
structure Linked (s : Heap) : Prop where
  sized : s.table.Sized
  placed : ∀ {b a}, a ∈ s.list b → ∃ e k, s.entry a = some e ∧ e.bucket = b ∧
    s.number e.inode = some k ∧ s.table.index k = b
  unique : ∀ {b b' a a' k}, a ∈ s.list b → a' ∈ s.list b' → s.At a k → s.At a' k → a = a'
  allocated : ∀ {b a}, a ∈ s.list b → a < s.nextEntry
  nodup : ∀ b, (s.list b).Nodup
  cached : ∀ {b a}, (s.table.buckets b).lastInodeTableEntry = some a → a ∈ s.list b
  count : ∀ b, (s.table.buckets b).count = (s.list b).length

/-- The count of the table agrees with the lists, too. -/
structure Lists (s : Heap) : Prop extends Linked s where
  inodeCount : s.table.inodeCount = ∑ b ∈ range s.table.bucketCount, (s.list b).length

/-- `s'` is `s` but for caches and statistics. -/
structure Searched (s s' : Heap) : Prop where
  inode : s'.inode = s.inode
  entry : s'.entry = s.entry
  nextInode : s'.nextInode = s.nextInode
  nextEntry : s'.nextEntry = s.nextEntry
  table : s'.table = { s.table with buckets := s'.table.buckets }
  list : s'.list = s.list
  count : ∀ b, (s'.table.buckets b).count = (s.table.buckets b).count
  cached : ∀ {b a}, (s'.table.buckets b).lastInodeTableEntry = some a →
    (s.table.buckets b).lastInodeTableEntry = some a ∨ a ∈ s.list b

namespace Heap

variable (s : Heap) (b : Nat) (f : Bucket → Bucket)

theorem list_setBucket (hl : ∀ k, (f k).listEntry = k.listEntry) :
    (s.setBucket b f).list = s.list := by
  funext b'
  by_cases hb : b' = b
  · subst hb
    simp only [list, setBucket, Table.setBucket, update_self, hl]
  · simp only [list, setBucket, Table.setBucket, update_of_ne hb]

theorem searched_setBucket (hl : ∀ k, (f k).listEntry = k.listEntry)
    (hc : ∀ k, (f k).count = k.count)
    (hcache : ∀ a, (f (s.table.buckets b)).lastInodeTableEntry = some a →
      (s.table.buckets b).lastInodeTableEntry = some a ∨ a ∈ s.list b) :
    Searched s (s.setBucket b f) := by
  refine ⟨rfl, rfl, rfl, rfl, rfl, s.list_setBucket b f hl, fun b' => ?_, fun {b' a} ha => ?_⟩
  · by_cases hb : b' = b
    · subst hb
      simp only [setBucket, Table.setBucket, update_self, hc]
    · simp only [setBucket, Table.setBucket, update_of_ne hb]
  · by_cases hb : b' = b
    · subst hb
      simp only [setBucket, Table.setBucket, update_self] at ha
      exact hcache a ha
    · simp only [setBucket, Table.setBucket, update_of_ne hb] at ha
      exact .inl ha

end Heap

theorem Table.Sized.index_lt {t : Table} (h : t.Sized) (ino : BitVec 64) :
    t.index ino < 2 ^ t.bucketCountShift :=
  getBucketIndex_lt (Nat.lt_of_lt_of_le h.shift_lt (by decide)) _ _

theorem Table.Sized.index_lt_count {t : Table} (h : t.Sized) (ino : BitVec 64) :
    t.index ino < t.bucketCount :=
  h.bucketCount ▸ h.index_lt ino

namespace Searched

variable {s s' s'' : Heap}

variable (h : Searched s s')
include h

theorem trans (h' : Searched s' s'') : Searched s s'' where
  inode := h'.inode.trans h.inode
  entry := h'.entry.trans h.entry
  nextInode := h'.nextInode.trans h.nextInode
  nextEntry := h'.nextEntry.trans h.nextEntry
  table := by rw [h'.table, h.table]
  list := h'.list.trans h.list
  count := fun b => (h'.count b).trans (h.count b)
  cached := fun ha => (h'.cached ha).elim h.cached fun ha => .inr (h.list ▸ ha)

theorem index : s'.table.index = s.table.index := by
  rw [h.table]
  rfl

theorem number : s'.number = s.number := by
  unfold Heap.number
  rw [h.inode]

theorem at_iff {a : Nat} {k : BitVec 64} : s'.At a k ↔ s.At a k := by
  rw [Heap.At, Heap.At, h.entry, h.number]

end Searched

theorem Linked.searched {s s' : Heap} (h : Linked s) (hs : Searched s s') : Linked s' where
  sized := by
    rw [hs.table]
    exact { h.sized with }
  placed := fun ha => by
    rw [hs.entry, hs.number, hs.index]
    exact h.placed (hs.list ▸ ha)
  unique := fun ha ha' hk hk' =>
    h.unique (hs.list ▸ ha) (hs.list ▸ ha') (hs.at_iff.mp hk) (hs.at_iff.mp hk')
  allocated := fun ha => hs.nextEntry ▸ h.allocated (hs.list ▸ ha)
  nodup := fun b => hs.list ▸ h.nodup b
  cached := fun ha => hs.list ▸ (hs.cached ha).elim h.cached id
  count := fun b => by rw [hs.count, hs.list, h.count]

theorem Lists.searched {s s' : Heap} (h : Lists s) (hs : Searched s s') : Lists s' where
  toLinked := h.toLinked.searched hs
  inodeCount := by
    rw [hs.list, hs.table]
    exact h.inodeCount

/-! ### Searching -/

section Search

variable {s : Heap} {ino : BitVec 64}

variable {a b i : Nat} {n : Object}

theorem loadInode_some (h : s.inode i = some n) : loadInode i s = some (n, s) := by
  rw [loadInode, h]
  rfl

theorem loadEntry_some {e : TableEntry} (h : s.entry a = some e) : loadEntry a s = some (e, s) := by
  rw [loadEntry, h]
  rfl

theorem updateInode_some (f : Object → Object) (h : s.inode i = some n) :
    updateInode i f s = some ((), s.setInode i (some (f n))) := by
  rw [updateInode, bind_some (loadInode_some h)]
  rfl

theorem hashInode_some (h : s.table.Sized) (hk : ino ≠ 0#64) :
    hashInode ino s = some (s.table.index ino, s) := by
  rw [hashInode, get_bind, bind_some (assert_pos hk s), bind_some (assert_pos h.shift_ge s),
    bind_some (assert_pos h.shift_lt s),
    bind_some (assert_pos (h.index_lt ino) s)]
  rfl

theorem lockInode_some (h : s.table.Sized) (hk : ino ≠ 0#64) : lockInode ino s = some ((), s) := by
  rw [lockInode, bind_some (hashInode_some h hk), get_bind]
  exact assert_pos (h.index_lt_count ino) s

theorem inodeTableLock_some (h : s.table.Sized) (hi : s.inode i = some n)
    (ht : n.table = true) (hk : n.ino ≠ 0#64) : inodeTableLock i s = some ((), s) := by
  rw [inodeTableLock, bind_some (loadInode_some hi), bind_some (assert_pos ht s)]
  exact lockInode_some h hk

theorem entryNumber_some {k : BitVec 64} (h : s.At a k) : entryNumber a s = some (k, s) := by
  obtain ⟨e, he, hn⟩ := h
  obtain ⟨n, hi, rfl⟩ := map_eq_some_iff.mp hn
  rw [entryNumber, bind_some (loadEntry_some he), bind_some (loadInode_some hi)]
  rfl

theorem Heap.At.eq {k k' : BitVec 64} (h : s.At a k) (h' : s.At a k') : k = k' := by
  obtain ⟨e, he, hn⟩ := h
  obtain ⟨e', he', hn'⟩ := h'
  obtain rfl : e = e' := mem_unique he he'
  exact mem_unique hn hn'

theorem findEntry_some (hl : ∀ {b a}, a ∈ s.list b → ∃ k, s.At a k)
    (ino : BitVec 64) : ∀ as : List Nat, (∀ a ∈ as, a ∈ s.list b) →
      ∃ o, findEntry ino as s = some (o, s) ∧ (∀ a, o = some a → a ∈ as ∧ s.At a ino) ∧
        (o = none → ∀ a ∈ as, ¬ s.At a ino) := by
  intro as
  induction as with
  | nil =>
    intro _
    exact ⟨none, rfl, fun a ha => (nomatch ha), fun _ a ha => (nomatch ha)⟩
  | cons a as ih =>
    intro hsub
    obtain ⟨k, hk⟩ := hl (hsub a mem_cons_self)
    rw [findEntry, bind_some (entryNumber_some hk)]
    by_cases heq : k = ino
    · subst heq
      rw [if_pos rfl]
      refine ⟨some a, rfl, ?_, nofun⟩
      rintro _ ⟨⟩
      exact ⟨mem_cons_self, hk⟩
    · rw [if_neg heq]
      obtain ⟨o, ho, hsome, hnone⟩ := ih fun a' ha' => hsub a' (mem_cons_of_mem a ha')
      refine ⟨o, ho, fun a' ha' => ?_, fun hn a' ha' hat => ?_⟩
      · exact ⟨mem_cons_of_mem a (hsome a' ha').1, (hsome a' ha').2⟩
      rcases mem_cons.mp ha' with rfl | ha'
      · exact heq (hk.eq hat)
      · exact hnone hn a' ha' hat

theorem cachedEntry_some (hl : ∀ {b a}, a ∈ s.list b → ∃ k, s.At a k)
    (ino : BitVec 64) {c : Option Nat} (hc : ∀ a, c = some a → a ∈ s.list b) :
    ∃ o, cachedEntry ino c s = some (o, s) ∧ ∀ a, o = some a → a ∈ s.list b ∧ s.At a ino := by
  cases c with
  | none => exact ⟨none, rfl, fun a ha => (nomatch ha)⟩
  | some a =>
    obtain ⟨k, hk⟩ := hl (hc a rfl)
    rw [cachedEntry, bind_some (entryNumber_some hk)]
    by_cases heq : k = ino
    · subst heq
      refine ⟨some a, by rw [if_pos rfl]; rfl, ?_⟩
      rintro _ ⟨⟩
      exact ⟨hc a rfl, hk⟩
    · exact ⟨none, by rw [if_neg heq]; rfl, fun a ha => (nomatch ha)⟩

theorem Linked.exists_at (h : Linked s) (ha : a ∈ s.list b) :
    ∃ k, s.At a k ∧ s.table.index k = b := by
  obtain ⟨e, k, he, -, hn, hb⟩ := h.placed ha
  exact ⟨k, ⟨e, he, hn⟩, hb⟩

/-- A search finds the entry of the number in its bucket, and changes the
cache and the statistics of that bucket. -/
theorem lookupInodeInTableLocked_some (h : Linked s) (hk : ino ≠ 0#64) :
    ∃ o s', lookupInodeInTableLocked ino s = some (o, s') ∧ Searched s s' ∧
      ∀ a, o = some a ↔ a ∈ s.list (s.table.index ino) ∧ s.At a ino := by
  rw [lookupInodeInTableLocked, bind_some (assert_pos hk s),
    bind_some (hashInode_some h.sized hk), get_bind,
    bind_some (assert_pos (h.sized.index_lt_count ino) s)]
  generalize hb : s.table.index ino = b
  obtain ⟨s1, hs1⟩ : ∃ s1, s1 = s.setBucket b
    fun k => { k with lookups := k.lookups + 1 } := ⟨_, rfl⟩
  have hsame : Searched s s1 := hs1 ▸
    s.searched_setBucket b _ (fun _ => rfl) (fun _ => rfl) fun _ => .inl
  have hat : ∀ {b a}, a ∈ s1.list b → ∃ k, s1.At a k := fun ha =>
    ((h.searched hsame).exists_at ha).imp fun _ hk => hk.1
  -- the entries of the number in the bucket are the same before and after
  have hiff : ∀ {a a'}, a ∈ s1.list b → s1.At a ino →
      (some a = some a' ↔ a' ∈ s.list b ∧ s.At a' ino) := by
    intro a a' ha hn
    rw [hsame.list] at ha
    constructor
    · rintro ⟨⟩
      exact ⟨ha, hsame.at_iff.mp hn⟩
    · rintro ⟨ha', hn'⟩
      rw [h.unique ha ha' (hsame.at_iff.mp hn) hn']
  rw [modify_bind, ← hs1]
  obtain ⟨c, hc, hcs⟩ := cachedEntry_some hat ino
    fun a (ha : (s.table.buckets b).lastInodeTableEntry = some a) =>
      hsame.list ▸ h.cached ha
  rw [bind_some hc]
  cases c with
  | some a =>
    obtain ⟨ha, hn⟩ := hcs a rfl
    exact ⟨some a, _, rfl, hsame.trans (s1.searched_setBucket b _ (fun _ => rfl)
      (fun _ => rfl) fun _ => .inl), fun a' => hiff ha hn⟩
  | none =>
    obtain ⟨o, ho, hsome, hnone⟩ := findEntry_some hat ino (s.list b) fun a ha => hsame.list ▸ ha
    rw [Heap.list] at ho
    simp only []
    rw [bind_some ho]
    cases o with
    | some a =>
      obtain ⟨ha, hn⟩ := hsome a rfl
      rw [← hsame.list] at ha
      exact ⟨some a, _, rfl, hsame.trans (s1.searched_setBucket b _ (fun _ => rfl)
        (fun _ => rfl) (by rintro _ ⟨⟩; exact .inr ha)), fun a' => hiff ha hn⟩
    | none =>
      refine ⟨none, _, rfl, hsame.trans (s1.searched_setBucket b _ (fun _ => rfl)
        (fun _ => rfl) fun _ => .inl), fun a => ⟨nofun, ?_⟩⟩
      rintro ⟨ha, hn⟩
      exact absurd (hsame.at_iff.mpr hn) (hnone rfl a ha)

end Search

/-! ### Changing the lists -/

namespace Heap

/-- An entry joins the list of a bucket. -/
def link (s : Heap) (b a : Nat) : Heap :=
  { s with table := (s.table.setBucket b (·.insert a)).addInode }

/-- An entry leaves the list of a bucket. -/
def unlink (s : Heap) (b a : Nat) : Heap :=
  let t := (s.table.setBucket b (·.remove a)).setBucket b fun k =>
    { k with count := k.count - 1 }
  { s with table := { t with inodeCount := t.inodeCount - 1 } }

variable (s : Heap) (b a : Nat)

theorem list_link : (s.link b a).list = update s.list b (a :: s.list b) := by
  funext b'
  by_cases hb : b' = b
  · subst hb
    simp only [list, link, Table.addInode, Table.setBucket, update_self, Bucket.insert]
  · simp only [list, link, Table.addInode, Table.setBucket, update_of_ne hb]

theorem list_unlink : (s.unlink b a).list = update s.list b ((s.list b).erase a) := by
  funext b'
  by_cases hb : b' = b
  · subst hb
    simp only [list, unlink, Table.setBucket, update_self, Bucket.remove]
  · simp only [list, unlink, Table.setBucket, update_of_ne hb]

variable {s b a}

theorem mem_list_link : a' ∈ (s.link b a).list b' ↔ a' ∈ s.list b' ∨ (b' = b ∧ a' = a) := by
  rw [list_link]
  by_cases hb : b' = b
  · subst hb
    simp [or_comm]
  · simp [hb]

theorem mem_list_unlink (hn : (s.list b).Nodup) :
    a' ∈ (s.unlink b a).list b' ↔ a' ∈ s.list b' ∧ (b' = b → a' ≠ a) := by
  rw [list_unlink]
  by_cases hb : b' = b
  · subst hb
    simp [hn.mem_erase_iff, and_comm]
  · simp [hb]

end Heap

theorem sum_length_update {n b : Nat} (hb : b < n) (l : Nat → List Nat) (x : List Nat) :
    (∑ c ∈ range n, (update l b x c).length) + (l b).length =
      (∑ c ∈ range n, (l c).length) + x.length := by
  refine sum_range_change hb (fun c hc => by rw [update_of_ne hc]) ?_
  rw [update_self, Nat.add_comm]

theorem Linked.frame {s s' : Heap} (h : Linked s)
    (ht : { s'.table with
      inodeCount := s.table.inodeCount
      maxInodeCount := s.table.maxInodeCount } = s.table)
    (hnext : s.nextEntry ≤ s'.nextEntry) (he : ∀ {b a}, a ∈ s.list b → s'.entry a = s.entry a)
    (hn : ∀ {b a e}, a ∈ s.list b → s.entry a = some e → s'.number e.inode = s.number e.inode) :
    Linked s' := by
  have hbuckets : s'.table.buckets = s.table.buckets := (congrArg Table.buckets ht :)
  have hidx : s'.table.index = s.table.index := (congrArg Table.index ht :)
  have hlist : s'.list = s.list := by
    unfold Heap.list
    rw [hbuckets]
  have hat : ∀ {b a k}, a ∈ s.list b → s'.At a k → s.At a k := by
    rintro b a k ha ⟨e, he', hk⟩
    rw [he ha] at he'
    exact ⟨e, he', hn ha he' ▸ hk⟩
  have hsized := h.sized
  rw [← ht] at hsized
  refine
    { sized := { hsized with }
      placed := fun {b a} ha => ?_
      unique := fun ha ha' hk hk' => ?_
      allocated := fun ha => ?_
      nodup := fun b => hlist ▸ h.nodup b
      cached := fun hc => ?_
      count := fun b => ?_ }
  · rw [hlist] at ha
    obtain ⟨e, k, hea, hb, hk, hi⟩ := h.placed ha
    exact ⟨e, k, (he ha).trans hea, hb, (hn ha hea).trans hk, (congrFun hidx k).trans hi⟩
  · rw [hlist] at ha ha'
    exact h.unique ha ha' (hat ha hk) (hat ha' hk')
  · rw [hlist] at ha
    exact Nat.lt_of_lt_of_le (h.allocated ha) hnext
  · rw [hlist]
    rw [hbuckets] at hc
    exact h.cached hc
  · rw [hlist, hbuckets]
    exact h.count b

section Link

variable {s : Heap} {a b i : Nat} {ino : BitVec 64}

theorem Linked.setInode (h : Linked s) {n n' : Object} (hi : s.inode i = some n)
    (hk : n'.ino = n.ino) : Linked (s.setInode i (some n')) := by
  refine h.frame rfl (Nat.le_refl _) (fun _ => rfl) fun _ _ => ?_
  rw [s.number_setInode hi hk]

/-- The cache and the count of a bucket agree with its list. -/
structure Bucket.Ok (k : Bucket) : Prop where
  nodup : k.listEntry.Nodup
  cached : ∀ {a}, k.lastInodeTableEntry = some a → a ∈ k.listEntry
  count : k.count = k.listEntry.length

variable {k : Bucket}

theorem Bucket.Ok.insert (h : k.Ok) (ha : a ∉ k.listEntry) : (k.insert a).Ok :=
  ⟨nodup_cons.mpr ⟨ha, h.nodup⟩, fun hc => mem_cons_of_mem a (h.cached hc),
    congrArg (· + 1) h.count⟩

theorem Bucket.Ok.remove (h : k.Ok) (ha : a ∈ k.listEntry) :
    Ok { k.remove a with count := (k.remove a).count - 1 } := by
  refine ⟨h.nodup.erase a, fun {a'} hc => ?_, ?_⟩
  · -- the cache is cleared when it is the entry that leaves
    simp only [Bucket.remove] at hc ⊢
    split at hc
    · cases hc
    next hne =>
    have hne' : a' ≠ a := fun heq => hne (heq ▸ hc)
    exact (mem_erase_of_ne hne').mpr (h.cached hc)
  · simp only [Bucket.remove, length_erase_of_mem ha, h.count]

theorem Linked.ok (h : Linked s) (b : Nat) : (s.table.buckets b).Ok :=
  ⟨h.nodup b, h.cached, h.count b⟩

theorem Linked.update_ok (h : Linked s) (hk : k.Ok) (b' : Nat) :
    (update s.table.buckets b k b').Ok := by
  by_cases hb : b' = b
  · rwa [hb, update_self]
  · rw [update_of_ne hb]
    exact h.ok b'

theorem Linked.link (h : Linked s) (hfree : ∀ {b}, a ∉ s.list b) (ha : a < s.nextEntry)
    (he : s.entry a = some ⟨i, s.table.index ino⟩) (hn : s.number i = some ino)
    (hnew : ∀ {b a'}, a' ∈ s.list b → ¬ s.At a' ino) : Linked (s.link (s.table.index ino) a) := by
  generalize hb : s.table.index ino = b at he
  have hok := h.update_ok (b := b) ((h.ok b).insert hfree)
  have hat : ∀ {k}, s.At a k → k = ino := fun hk => hk.eq ⟨_, he, hn⟩
  refine
    { sized := { h.sized with }
      placed := fun {b' a'} hm => ?_
      unique := fun {b1 b2 a1 a2 k} h1 h2 hk1 hk2 => ?_
      allocated := fun hm => ?_
      nodup := fun b' => (hok b').nodup
      cached := fun {b' _} => (hok b').cached
      count := fun b' => (hok b').count }
  · rcases Heap.mem_list_link.mp hm with hm | ⟨rfl, rfl⟩
    · exact h.placed hm
    · exact ⟨_, ino, he, rfl, hn, hb⟩
  · rcases Heap.mem_list_link.mp h1 with m1 | ⟨-, rfl⟩ <;>
      rcases Heap.mem_list_link.mp h2 with m2 | ⟨-, rfl⟩
    · exact h.unique m1 m2 hk1 hk2
    · obtain rfl := hat hk2
      exact absurd hk1 (hnew m1)
    · obtain rfl := hat hk1
      exact absurd hk2 (hnew m2)
    · rfl
  · rcases Heap.mem_list_link.mp hm with hm | ⟨-, rfl⟩
    · exact h.allocated hm
    · exact ha

end Link

namespace Lists

variable {s s' : Heap} {a b i : Nat} {ino : BitVec 64}

theorem frame (h : Lists s) (ht : s'.table = s.table) (hnext : s.nextEntry ≤ s'.nextEntry)
    (he : ∀ {b a}, a ∈ s.list b → s'.entry a = s.entry a)
    (hn : ∀ {b a e}, a ∈ s.list b → s.entry a = some e → s'.number e.inode = s.number e.inode) :
    Lists s' := by
  refine ⟨h.toLinked.frame (by rw [ht]) hnext he hn, ?_⟩
  unfold Heap.list
  rw [ht]
  exact h.inodeCount

theorem setInode (h : Lists s) {n n' : Object} (hi : s.inode i = some n)
    (hk : n'.ino = n.ino) : Lists (s.setInode i (some n')) :=
  ⟨h.toLinked.setInode hi hk, h.inodeCount⟩

theorem inodeCount_link (h : Lists s) (ino : BitVec 64) (a : Nat) :
    (s.link (s.table.index ino) a).table.inodeCount =
      ∑ b ∈ range (s.link (s.table.index ino) a).table.bucketCount,
        ((s.link (s.table.index ino) a).list b).length := by
  have hsum := sum_length_update (h.sized.index_lt_count ino) s.list
    (a :: s.list (s.table.index ino))
  have hcount := h.inodeCount
  rw [Heap.list_link]
  simp only [Heap.link, Table.addInode, Table.setBucket] at hsum ⊢
  rw [length_cons] at hsum
  omega

theorem unlink (h : Lists s) (ha : a ∈ s.list b) (hb : b < s.table.bucketCount) :
    Lists (s.unlink b a) := by
  have hmem : ∀ {b' a'}, a' ∈ (s.unlink b a).list b' → a' ∈ s.list b' :=
    fun hm => ((Heap.mem_list_unlink (h.nodup b)).mp hm).1
  have hok : ∀ b', ((s.unlink b a).table.buckets b').Ok := by
    simpa [Heap.unlink, Table.setBucket] using h.update_ok ((h.ok b).remove ha)
  have hlen := length_erase_of_mem ha
  have hpos : 0 < (s.list b).length := length_pos_of_mem ha
  refine
    { sized := { h.sized with }
      placed := fun hm => h.placed (hmem hm)
      unique := fun h1 h2 => h.unique (hmem h1) (hmem h2)
      allocated := fun hm => h.allocated (hmem hm)
      nodup := fun b' => (hok b').nodup
      cached := fun {b' _} => (hok b').cached
      count := fun b' => (hok b').count
      inodeCount := ?_ }
  have hsum := sum_length_update hb s.list ((s.list b).erase a)
  have hcount := h.inodeCount
  rw [Heap.list_unlink]
  simp only [Heap.unlink, Table.setBucket] at hsum ⊢
  omega

end Lists

/-! ## The references of an inode -/

namespace Object

variable (n : Object) (r : Reason) (k : Nat)

/-- The references for all reasons. -/
def total : Nat := Reason.sum n.referenceReasons

theorem total_addReason : (n.addReason r k).total = n.total + k := by
  have := Reason.sum_update n.referenceReasons r (n.referenceReasons r + k)
  simp only [total, addReason]
  omega

theorem total_subReason (h : k ≤ n.referenceReasons r) : (n.subReason r k).total = n.total - k := by
  have := Reason.sum_update n.referenceReasons r (n.referenceReasons r - k)
  have := Reason.le_sum n.referenceReasons r
  simp only [total, subReason]
  omega

/-- An inode in the table, with references that are all held for a reason. -/
structure Held (n : Object) : Prop where
  table : n.table = true
  ino : n.ino ≠ 0#64
  count : n.referenceCount ≠ 0
  reasons : n.total = n.referenceCount

variable {n r k}

theorem Held.add (h : n.Held) : ((n.addCount 1).addReason r 1).Held where
  table := h.table
  ino := h.ino
  count := Nat.succ_ne_zero n.referenceCount
  reasons := by
    have := h.reasons
    rw [total_addReason]
    exact congrArg (· + 1) this

theorem Held.sub (h : n.Held) (hr : k ≤ n.referenceReasons r) (hk : k ≤ n.referenceCount)
    (hne : k ≠ n.referenceCount) : ((n.subCount k).subReason r k).Held where
  table := h.table
  ino := h.ino
  count := by
    change n.referenceCount - k ≠ 0
    omega
  reasons := by
    rw [total_subReason (n.subCount k) r k hr]
    exact congrArg (· - k) h.reasons

end Object

/-- Every inode in memory is in the table and has references. -/
structure Wf (s : Heap) : Prop where
  lists : Lists s
  entered : ∀ {i n}, s.inode i = some n →
    ∃ a e, a ∈ s.list (s.table.index n.ino) ∧ s.entry a = some e ∧ e.inode = i
  held : ∀ {i n}, s.inode i = some n → n.Held
  allocated : ∀ {i n}, s.inode i = some n → i < s.nextInode

namespace Heap

variable (s : Heap) (i : Nat)

@[simp] theorem inode_setInode_self (n : Option Object) :
    (s.setInode i n).inode i = n := update_self ..

variable {i} in
theorem inode_setInode_ne (h : j ≠ i) (n : Option Object) :
    (s.setInode i n).inode j = s.inode j := update_of_ne h ..

@[simp] theorem setInode_setInode (n n' : Option Object) :
    (s.setInode i n).setInode i n' = s.setInode i n' := by
  simp only [setInode, update_idem]

theorem setInode_self {s : Heap} {i : Nat} {n : Option Object}
    (h : s.inode i = n) : s.setInode i n = s := by
  rw [setInode, ← h, update_eq_self]

end Heap

theorem Heap.inode_setInode_cases {s : Heap} {i : Nat} {n m : Object}
    (h : (s.setInode i (some n)).inode j = some m) : (j = i ∧ m = n) ∨ s.inode j = some m := by
  by_cases hij : j = i
  · subst hij
    rw [inode_setInode_self] at h
    exact .inl ⟨rfl, (Option.some.inj h).symm⟩
  · rw [s.inode_setInode_ne hij] at h
    exact .inr h

/-- Every inode in memory has references, but the table may have refused it. -/
structure Live (s : Heap) : Prop where
  linked : Linked s
  held : ∀ {i n}, s.inode i = some n → n.Held
  allocated : ∀ {i n}, s.inode i = some n → i < s.nextInode

section References

variable {s s' : Heap} {i : Nat} {n n' : Object} {r : Reason} {ino : BitVec 64}

theorem Wf.live (h : Wf s) : Live s := ⟨h.lists.toLinked, h.held, h.allocated⟩

theorem Live.searched (h : Live s) (hs : Searched s s') : Live s' where
  linked := h.linked.searched hs
  held := fun hi => h.held (hs.inode ▸ hi)
  allocated := fun hi => hs.nextInode ▸ h.allocated (hs.inode ▸ hi)

theorem Wf.searched (h : Wf s) (hs : Searched s s') : Wf s' where
  lists := h.lists.searched hs
  entered := fun hi => by
    rw [hs.list, hs.index, hs.entry]
    exact h.entered (hs.inode ▸ hi)
  held := (h.live.searched hs).held
  allocated := (h.live.searched hs).allocated

theorem Live.setInode (h : Live s) (hi : s.inode i = some n) (hk : n'.ino = n.ino)
    (hn : n'.Held) : Live (s.setInode i (some n')) := by
  refine ⟨h.linked.setInode hi hk, fun hj => ?_, fun hj => ?_⟩
  · rcases Heap.inode_setInode_cases hj with ⟨rfl, rfl⟩ | hj
    · exact hn
    · exact h.held hj
  · rcases Heap.inode_setInode_cases hj with ⟨rfl, rfl⟩ | hj
    · exact h.allocated hi
    · exact h.allocated hj

theorem Wf.setInode (h : Wf s) (hi : s.inode i = some n) (hk : n'.ino = n.ino)
    (hn : n'.Held) : Wf (s.setInode i (some n')) := by
  have hlive := h.live.setInode hi hk hn
  refine ⟨h.lists.setInode hi hk, fun hj => ?_, hlive.held, hlive.allocated⟩
  rcases Heap.inode_setInode_cases hj with ⟨rfl, rfl⟩ | hj
  · rw [hk]
    exact h.entered hi
  · exact h.entered hj

theorem Wf.number_inj (h : Wf s) (hi : s.number i = some ino)
    (hj : s.number j = some ino) : i = j := by
  obtain ⟨n, hin, hn⟩ := map_eq_some_iff.mp hi
  obtain ⟨m, hjm, hm⟩ := map_eq_some_iff.mp hj
  obtain ⟨a, e, ha, he, rfl⟩ := h.entered hin
  obtain ⟨a', e', ha', he', rfl⟩ := h.entered hjm
  obtain rfl := h.lists.unique ha ha' ⟨e, he, hi⟩ ⟨e', he', hj⟩
  rw [mem_unique he he']

theorem Live.reference (h : Live s) (hi : s.inode i = some n) : bitbucketReferenceInode i r s =
    some ((), s.setInode i (some ((n.addCount 1).addReason r 1))) := by
  have hn := h.held hi
  have h' := h.linked.setInode hi (rfl : ((n.addCount 1).addReason r 1).ino = n.ino)
  have hle : n.referenceReasons r ≤ n.referenceCount :=
    hn.reasons ▸ Reason.le_sum n.referenceReasons r
  rw [bitbucketReferenceInode, bind_some (loadInode_some hi),
    bind_some (inodeTableLock_some h.linked.sized hi hn.table hn.ino),
    bind_some (updateInode_some _ hi),
    bind_some (inodeTableLock_some h'.sized (Heap.inode_setInode_self ..) hn.table hn.ino),
    bind_some (assert_pos hn.count _)]
  exact assert_pos hle _

theorem Live.lookup (h : Live s) (hk : ino ≠ 0#64) : ∃ s1, Searched s s1 ∧
    ((∀ a ∈ s.list (s.table.index ino), ¬ s.At a ino) ∧
        bitbucketLookupInodeInTable ino s = some (none, s1) ∨
      ∃ j n, s.inode j = some n ∧ n.ino = ino ∧ bitbucketLookupInodeInTable ino s =
        some (some j, s1.setInode j (some ((n.addCount 1).addReason .lookup 1)))) := by
  obtain ⟨o, s1, ho, hs, hfound⟩ := lookupInodeInTableLocked_some h.linked hk
  have h1 := h.searched hs
  refine ⟨s1, hs, ?_⟩
  rw [bitbucketLookupInodeInTable, bind_some (assert_pos hk s),
    bind_some (lockInode_some h.linked.sized hk), bind_some ho]
  cases o with
  | none =>
    refine .inl ⟨fun a ha hat => ?_, ?_⟩
    · cases (hfound a).mpr ⟨ha, hat⟩
    simp only [pure_bind]
    rw [bind_some (lockInode_some h1.linked.sized hk)]
    rfl
  | some a =>
    obtain ⟨-, e, he, hi⟩ := (hfound a).mp rfl
    obtain ⟨n, hin, hn⟩ := map_eq_some_iff.mp hi
    have hin1 : s1.inode e.inode = some n := hs.inode ▸ hin
    have h2 := h1.linked.setInode hin1 (rfl : ((n.addCount 1).addReason .lookup 1).ino = n.ino)
    refine .inr ⟨e.inode, n, hin, hn, ?_⟩
    simp only [pure_bind]
    rw [bind_some (loadEntry_some (hs.entry ▸ he)), bind_some (h1.reference hin1),
      bind_some (lockInode_some h2.sized hk)]
    rfl

theorem Wf.lookup (h : Wf s) (hk : ino ≠ 0#64) :
    ∃ o s', bitbucketLookupInodeInTable ino s = some (o, s') ∧ Wf s' ∧
      s'.number = s.number ∧ s'.nextInode = s.nextInode ∧
      ∀ i, o = some i ↔ s.number i = some ino := by
  obtain ⟨s1, hs, ⟨hnone, hrun⟩ | ⟨j, n, hj, rfl, hrun⟩⟩ := h.live.lookup hk
  · refine ⟨none, s1, hrun, h.searched hs, hs.number, hs.nextInode, fun i => ⟨nofun, fun hi => ?_⟩⟩
    obtain ⟨n, hin, rfl⟩ := map_eq_some_iff.mp hi
    obtain ⟨a, e, ha, he, rfl⟩ := h.entered hin
    exact absurd ⟨e, he, hi⟩ (hnone a ha)
  have hj1 : s1.inode j = some n := hs.inode ▸ hj
  have hnumber : s.number j = some n.ino := congrArg (Option.map Object.ino) hj
  refine ⟨some j, _, hrun, (h.searched hs).setInode hj1 rfl (h.held hj).add, ?_, hs.nextInode,
    fun i => ⟨?_, fun hi => ?_⟩⟩
  · rw [← hs.number]
    exact s1.number_setInode hj1 rfl
  · rintro ⟨⟩
    exact hnumber
  · rw [h.number_inj hnumber hi]

end References

/-! ## Deallocation -/

section Deallocate

variable {s : Heap} {i a : Nat} {n : Object} {e : TableEntry}

variable {b : Nat}

theorem Lists.inodeCount_ne_zero (h : Lists s) (ha : a ∈ s.list b)
    (hb : b < s.table.bucketCount) : s.table.inodeCount ≠ 0 := by
  have hpos : 0 < (s.list b).length := length_pos_of_mem ha
  rw [h.inodeCount, ← add_sum_erase _ _ (mem_range.mpr hb)]
  omega

theorem inodeDeallocate_some (h : Lists s) (hi : s.inode i = some n) (ht : n.table = true)
    (hk : n.ino ≠ 0#64) (ha : a ∈ s.list (s.table.index n.ino)) (he : s.entry a = some e)
    (hei : e.inode = i) : ∃ s1, Searched s s1 ∧ inodeDeallocate i s = some ((),
      ((s1.unlink (s1.table.index n.ino) a).setEntry a none).setInode i none) := by
  have hat : s.At a n.ino := ⟨e, he, by rw [hei, Heap.number, hi]; rfl⟩
  obtain ⟨o, s1, ho, hs, hfound⟩ := lookupInodeInTableLocked_some h.toLinked hk
  have hl := h.searched hs
  obtain rfl := (hfound a).mpr ⟨ha, hat⟩
  have hi1 : s1.inode i = some n := hs.inode ▸ hi
  have he1 : s1.entry a = some e := hs.entry ▸ he
  have ha1 : a ∈ s1.list (s1.table.index n.ino) := by
    rw [hs.list, hs.index]
    exact ha
  obtain ⟨e', k, he', hb, hn, hidx⟩ := hl.placed ha1
  obtain rfl := mem_unique he1 he'
  -- the bucket may be unlocked while its counts are not up to date
  obtain ⟨s2, hs2⟩ : ∃ s2, s2 = (s1.setBucket (s1.table.index n.ino)
    (·.remove a)).setBucket (s1.table.index n.ino) fun k =>
      { k with count := k.count - 1 } := ⟨_, rfl⟩
  have hsized : s2.table.Sized := hs2 ▸ { hl.sized with }
  have hi2 : s2.inode i = some n := hs2 ▸ hi1
  have hc2 : s2.table.inodeCount ≠ 0 := hs2 ▸ hl.inodeCount_ne_zero ha1 (hl.sized.index_lt_count _)
  refine ⟨s1, hs, ?_⟩
  rw [inodeDeallocate, bind_some (loadInode_some hi), bind_some (assert_pos ht s),
    bind_some (hashInode_some h.sized hk), bind_some ho]
  simp only []
  rw [bind_some (loadEntry_some he1), hb, ← hs.index, modify_bind,
    modify_bind, ← hs2, bind_some (inodeTableLock_some hsized hi2 ht hk),
    get_bind, bind_some (assert_pos hc2 s2), hs2]
  rfl

theorem Lists.ne_of_mem_unlink (h : Lists s) (ha : a ∈ s.list b)
    (h' : a' ∈ (s.unlink b a).list b') : a' ≠ a := by
  obtain ⟨hm, hne⟩ := (Heap.mem_list_unlink (h.nodup b)).mp h'
  rintro rfl
  obtain ⟨e, -, he, hb, -⟩ := h.placed ha
  obtain ⟨e', -, he', hb', -⟩ := h.placed hm
  obtain rfl := mem_unique he he'
  exact hne (hb'.symm.trans hb) rfl

theorem Lists.freed (h : Lists s) (hi : s.inode i = some n) (ha : a ∈ s.list (s.table.index n.ino))
    (he : s.entry a = some e) (hei : e.inode = i) :
    Lists (((s.unlink (s.table.index n.ino) a).setEntry a none).setInode i none) := by
  have hn : s.number i = some n.ino := by
    rw [Heap.number, hi]
    rfl
  refine (h.unlink ha (h.sized.index_lt_count _)).frame rfl (Nat.le_refl _) (fun hm => ?_)
    fun {b' a' e'} hm he' => ?_
  · exact update_of_ne (h.ne_of_mem_unlink ha hm) _ _
  have hne := h.ne_of_mem_unlink ha hm
  have hj : e'.inode ≠ i := by
    intro hj
    exact hne (h.unique ((Heap.mem_list_unlink (h.nodup _)).mp hm).1 ha
      ⟨e', he', hj ▸ hn⟩ ⟨e, he, hei ▸ hn⟩)
  exact congrArg (Option.map Object.ino) (update_of_ne hj _ _)

/-- The last reference to an inode takes it out of the table, whatever its
counts are. -/
theorem Wf.deallocate (h : Wf s) (hi : s.inode i = some n) {n' : Object}
    (hk : n'.ino = n.ino) (ht : n'.table = n.table) :
    ∃ s', inodeDeallocate i (s.setInode i (some n')) = some ((), s') ∧ Wf s' ∧
      s'.inode = update s.inode i none ∧ s'.nextInode = s.nextInode := by
  obtain ⟨a, e, ha, he, hei⟩ := h.entered hi
  have hi' := s.inode_setInode_self i (some n')
  have hset := h.lists.setInode hi hk
  obtain ⟨s1, hs, hrun⟩ := inodeDeallocate_some hset hi'
    (ht ▸ (h.held hi).table) (hk ▸ (h.held hi).ino) (hk ▸ ha) he hei
  have ha1 : a ∈ s1.list (s1.table.index n'.ino) := by
    rw [hs.list, hs.index, hk]
    exact ha
  have hinode : update s1.inode i none = update s.inode i none := by
    rw [hs.inode, Heap.setInode, update_idem]
  have hlists := (hset.searched hs).freed (hs.inode ▸ hi') ha1 (hs.entry ▸ he) hei
  refine ⟨_, hrun, ⟨hlists, fun {j m} hj => ?_, fun {j m} hj => ?_,
    fun {j m} hj => ?_⟩, hinode, hs.nextInode⟩
  all_goals
    replace hj : update s1.inode i none j = some m := hj
    rw [hinode] at hj
    have hji : j ≠ i := by
      rintro rfl
      rw [update_self] at hj
      cases hj
    rw [update_of_ne hji] at hj
  · obtain ⟨a', e', ha', he', hei'⟩ := h.entered hj
    have hne : a' ≠ a := by
      rintro rfl
      obtain rfl := mem_unique he he'
      exact hji (hei'.symm.trans hei)
    refine ⟨a', e', ?_, ?_, hei'⟩
    · change a' ∈ (s1.unlink _ a).list (s1.table.index m.ino)
      refine (Heap.mem_list_unlink ((hset.searched hs).nodup _)).mpr ⟨?_, fun _ => hne⟩
      rw [hs.index, hs.list]
      exact ha'
    · exact (update_of_ne hne _ _).trans (hs.entry ▸ he')
  · exact h.held hj
  · exact hs.nextInode ▸ h.allocated hj

end Deallocate

section Dereference

variable {s s' : Heap} {i bias : Nat} {n : Object} {r : Reason}

theorem loadInode_inv (h : loadInode i s = some (n, s')) : s.inode i = some n ∧ s = s' := by
  obtain ⟨m, hm, ⟨⟩⟩ := map_eq_some_iff.mp h
  exact ⟨hm, rfl⟩

theorem dereference_inv {f : Bool} (h : bitbucketDereferenceInode i r bias s = some (f, s')) :
    ∃ n, s.inode i = some n ∧ bias ≤ n.referenceCount ∧ bias ≤ n.referenceReasons r := by
  obtain ⟨n, s1, hl, h⟩ := bind_inv h
  obtain ⟨hi, rfl⟩ := loadInode_inv hl
  obtain ⟨hc, h⟩ := assert_bind_inv h
  obtain ⟨hr, -⟩ := assert_bind_inv h
  exact ⟨n, hi, hc, hr⟩

theorem Wf.dereference (h : Wf s) (hi : s.inode i = some n) (hc : bias ≤ n.referenceCount)
    (hr : bias ≤ n.referenceReasons r) : ∃ s', bitbucketDereferenceInode i r bias s =
        some (decide (bias = n.referenceCount), s') ∧ Wf s' ∧
      s'.nextInode = s.nextInode ∧
      s'.number = if bias = n.referenceCount then update s.number i none
        else s.number := by
  have hn := h.held hi
  have hself := s.inode_setInode_self i
  have hlock : ∀ n' : Object, n'.ino = n.ino → n'.table = n.table →
      inodeTableLock i (s.setInode i (some n')) = some ((), s.setInode i (some n')) :=
    fun n' hk ht => inodeTableLock_some (h.lists.setInode hi hk).sized (hself _)
      (ht ▸ hn.table) (hk ▸ hn.ino)
  rw [bitbucketDereferenceInode, bind_some (loadInode_some hi),
    bind_some (assert_pos hc s), bind_some (assert_pos hr s),
    bind_some (inodeTableLock_some h.lists.sized hi hn.table hn.ino),
    bind_some (updateInode_some _ hi)]
  obtain ⟨m, hm⟩ : ∃ m, m = (n.subCount bias).subReason r bias := ⟨_, rfl⟩
  have hk : m.ino = n.ino := hm ▸ rfl
  have ht : m.table = n.table := hm ▸ rfl
  by_cases hlast : bias = n.referenceCount
  · -- the count is restored, and dropped again with the bucket locked
    have hback : (n.subCount bias).addCount bias = n := by
      rw [Object.addCount, Object.subCount, Nat.sub_add_cancel hc]
    have hlocked := inodeTableLock_some h.lists.sized hi hn.table hn.ino
    obtain ⟨s', hrun, hw, hinode, hnext⟩ := h.deallocate hi hk ht
    refine ⟨s', ?_, hw, hnext, ?_⟩
    · simp only [if_pos hlast]
      rw [bind_some (updateInode_some _ (hself _)), Heap.setInode_setInode, hback,
        Heap.setInode_self hi, bind_some hlocked, bind_some hlocked,
        bind_some (loadInode_some hi), bind_some (updateInode_some _ hi),
        bind_some (assert_pos hc _),
        bind_some (updateInode_some _ (hself _)), Heap.setInode_setInode,
        bind_some (assert_pos hr _), if_pos hlast, ← hm,
        bind_some hrun, decide_eq_true hlast]
      rfl
    · rw [if_pos hlast]
      funext j
      rw [Heap.number, hinode]
      by_cases hj : j = i
      · rw [hj, update_self, update_self]
        rfl
      · rw [update_of_ne hj, update_of_ne hj]
        rfl
  · refine ⟨s.setInode i (some m), ?_, h.setInode hi hk (hm ▸ hn.sub hr hc hlast), rfl, ?_⟩
    · simp only [if_neg hlast]
      rw [bind_some (assert_pos hr _),
        bind_some (updateInode_some _ (hself _)), Heap.setInode_setInode,
        ← hm, bind_some (hlock m hk ht), decide_eq_false hlast]
      rfl
    · rw [if_neg hlast]
      exact s.number_setInode hi hk

end Dereference

/-! ## Creation -/

/-- No inode in memory has the number. -/
def Heap.Fresh (s : Heap) (ino : BitVec 64) : Prop :=
  ∀ i < s.nextInode, s.number i ≠ some ino

instance (s : Heap) (ino : BitVec 64) : Decidable (s.Fresh ino) :=
  inferInstanceAs (Decidable (∀ i < s.nextInode, s.number i ≠ some ino))

section Create

variable {s : Heap} {ino : BitVec 64}

/-- An entry of the number is on a list. -/
def Heap.Has (s : Heap) (k : BitVec 64) : Prop :=
  ∃ b a, a ∈ s.list b ∧ s.At a k

/-- The state after a collision: the new entry is freed again, and the table's
count goes up all the same. -/
def Heap.reject (s : Heap) (a : Nat) : Heap :=
  { s.setEntry a none with table := s.table.addInode }

theorem Linked.addEntry (h : Linked s) (e : TableEntry) : Linked (s.addEntry e) :=
  h.frame rfl (Nat.le_succ _)
    (fun ha => update_of_ne (Nat.ne_of_lt (h.allocated ha)) _ _) fun _ _ => rfl

variable {k : BitVec 64}

theorem Linked.at_addEntry (h : Linked s) (e : TableEntry) {b a : Nat}
    (ha : a ∈ s.list b) : (s.addEntry e).At a k ↔ s.At a k := by
  have he : (s.addEntry e).entry a = s.entry a := update_of_ne (Nat.ne_of_lt (h.allocated ha)) _ _
  rw [Heap.At, he]
  rfl

section NewInode

variable (hfree : ∀ {i k}, s.number i = some k → i ≠ s.nextInode)

include hfree

theorem Linked.number_addInode (h : Linked s) (n : Object) {b a : Nat} {e : TableEntry}
    (ha : a ∈ s.list b) (he : s.entry a = some e) :
    (s.addInode n).number e.inode = s.number e.inode := by
  obtain ⟨e', k, he', -, hk, -⟩ := h.placed ha
  obtain rfl := mem_unique he he'
  exact congrArg (Option.map Object.ino) (update_of_ne (hfree hk) _ _)

theorem Linked.addInode (h : Linked s) (n : Object) : Linked (s.addInode n) :=
  h.frame rfl (Nat.le_refl _) (fun _ => rfl) fun ha he => h.number_addInode hfree n ha he

theorem Linked.has_addInode (h : Linked s) (n : Object) : (s.addInode n).Has k ↔ s.Has k := by
  refine exists_congr fun b => exists_congr fun a => and_congr_right fun ha => ?_
  refine exists_congr fun e => and_congr_right fun he => ?_
  rw [h.number_addInode hfree n ha he]

end NewInode

theorem bitbucketObjectCreate_some (ino : BitVec 64) (s : Heap) :
    bitbucketObjectCreate ino s = some (s.nextInode, s.addInode (newObject ino)) :=
  rfl

/-- An insertion links the new entry if no entry has the number of the inode,
and fails otherwise. -/
theorem Linked.insert (h : Linked s) {i : Nat} {n : Object} (hi : s.inode i = some n)
    (hp : n.publicTable = false) (hk : n.ino ≠ 0#64) (hroot : n.ino ≠ BitVec.ofNat 64 fuseRootId) :
    ∃ s1, Searched (s.addEntry ⟨i, s.table.index n.ino⟩) s1 ∧
      (s.Has n.ino ∧ bitbucketInsertInodeInTable i s = some (-EEXIST,
          (s1.reject s.nextEntry).setInode i (some { n with publicTable := true })) ∨
        ¬ s.Has n.ino ∧ bitbucketInsertInodeInTable i s = some (0,
          (s1.link (s1.table.index n.ino) s.nextEntry).setInode i
            (some { n with publicTable := true }))) := by
  have hl := h.addEntry ⟨i, s.table.index n.ino⟩
  obtain ⟨o, s1, ho, hs, hfound⟩ := lookupInodeInTableLocked_some hl hk
  have hi1 : s1.inode i = some n := hs.inode ▸ hi
  have hentry : allocateEntry ⟨i, s.table.index n.ino⟩ s =
      some (s.nextEntry, s.addEntry ⟨i, s.table.index n.ino⟩) := rfl
  have hset : ∀ b f, (s1.setBucket b f).inode i = some n := fun _ _ => hi1
  have hset' : ∀ a e, (s1.setEntry a e).inode i = some n := fun _ _ => hi1
  have hidx : s1.table.index = s.table.index := hs.index
  refine ⟨s1, hs, ?_⟩
  rw [bitbucketInsertInodeInTable, bind_some (loadInode_some hi),
    bind_some (assert_pos hp _), bind_some (assert_pos hroot _),
    bind_some (hashInode_some h.sized hk), bind_some hentry,
    bind_some (lockInode_some hl.sized hk), bind_some ho]
  cases o with
  | some a =>
    obtain ⟨ha, hat⟩ := (hfound a).mp rfl
    refine .inl ⟨⟨_, a, ha, (h.at_addEntry _ ha).mp hat⟩, ?_⟩
    simp only [pure_bind]
    rw [modify_bind, bind_some (updateInode_some _ (hset' _ _))]
    rfl
  | none =>
    refine .inr ⟨?_, ?_⟩
    · rintro ⟨b, a, ha, hat⟩
      obtain ⟨k, hk', rfl⟩ := h.exists_at ha
      obtain rfl := hat.eq hk'
      cases (hfound a).mpr ⟨ha, (h.at_addEntry _ ha).mpr hat⟩
    · simp only [pure_bind]
      rw [modify_bind, bind_some (updateInode_some _ (hset _ _)), hidx]
      rfl

/-- A new inode, after its entry is made or refused. -/
def createdObject (ino : BitVec 64) : Object :=
  { newObject ino with table := true, publicTable := true }

/-- What a creation hands out is the new inode, also after a collision. -/
theorem Linked.create (h : Linked s) (hfree : ∀ {i k}, s.number i = some k → i ≠ s.nextInode)
    (hk : ino ≠ 0#64) (hroot : ino ≠ BitVec.ofNat 64 fuseRootId) :
    ∃ s1, Searched ((s.addInode (newObject ino)).addEntry ⟨s.nextInode, s.table.index ino⟩) s1 ∧
      (s.Has ino ∧ bitbucketCreateInode ino s = some (s.nextInode,
          (s1.reject s.nextEntry).setInode s.nextInode (some (createdObject ino))) ∨
        ¬ s.Has ino ∧ bitbucketCreateInode ino s = some (s.nextInode,
          (s1.link (s1.table.index ino) s.nextEntry).setInode s.nextInode
            (some (createdObject ino)))) := by
  have hnew : (s.addInode (newObject ino)).inode s.nextInode = some (newObject ino) :=
    update_self ..
  have hrest : ∀ {r : Int} {s2 : Heap}, bitbucketInsertInodeInTable s.nextInode
        (s.addInode (newObject ino)) = some (r, s2.setInode s.nextInode
          (some { newObject ino with publicTable := true })) →
      bitbucketCreateInode ino s = some (s.nextInode,
        s2.setInode s.nextInode (some (createdObject ino))) := by
    intro r s2 hinsert
    have hone : (createdObject ino).referenceCount = 1 := rfl
    rw [bitbucketCreateInode, bind_some (bitbucketObjectCreate_some ino s), bind_some hinsert,
      bind_some (updateInode_some _ (Heap.inode_setInode_self ..)),
      Heap.setInode_setInode,
      bind_some (loadInode_some (Heap.inode_setInode_self ..))]
    exact bind_some (assert_pos hone _)
  obtain ⟨s1, hs, hcase⟩ := (h.addInode hfree (newObject ino)).insert hnew rfl hk hroot
  rw [h.has_addInode hfree] at hcase
  exact ⟨s1, hs, hcase.imp (.imp_right hrest) (.imp_right hrest)⟩

theorem Wf.not_has (h : Wf s) (hf : s.Fresh ino) : ¬ s.Has ino := by
  rintro ⟨b, a, -, e, -, hn⟩
  obtain ⟨n, hi, -⟩ := map_eq_some_iff.mp hn
  exact hf e.inode (h.allocated hi) hn

theorem Heap.inode_created {t : Heap}
    (hinode : t.inode = update s.inode s.nextInode (some (newObject ino))) :
    (t.setInode s.nextInode (some (createdObject ino))).inode =
      (s.setInode s.nextInode (some (createdObject ino))).inode := by
  rw [setInode, hinode, setInode, update_idem]

theorem Live.created (h : Live s) {t : Heap} (hl : Linked t) (hk : ino ≠ 0#64)
    (hinode : t.inode = update s.inode s.nextInode (some (newObject ino)))
    (hnext : t.nextInode = s.nextInode + 1) :
    Live (t.setInode s.nextInode (some (createdObject ino))) := by
  have hi : t.inode s.nextInode = some (newObject ino) := hinode ▸ update_self ..
  refine ⟨hl.setInode hi rfl, fun {j m} hj => ?_, fun {j m} hj => ?_⟩
  · rw [Heap.inode_created hinode] at hj
    rcases Heap.inode_setInode_cases hj with ⟨-, rfl⟩ | hj
    · exact ⟨rfl, hk, Nat.one_ne_zero, rfl⟩
    · exact h.held hj
  · rw [Heap.inode_created hinode] at hj
    change j < t.nextInode
    rw [hnext]
    rcases Heap.inode_setInode_cases hj with ⟨rfl, -⟩ | hj
    · exact Nat.lt_succ_self _
    · exact Nat.lt_succ_of_lt (h.allocated hj)

theorem Live.ne_nextInode (h : Live s) {i : Nat} (hi : s.number i = some k) : i ≠ s.nextInode := by
  obtain ⟨n, hn, -⟩ := map_eq_some_iff.mp hi
  exact Nat.ne_of_lt (h.allocated hn)

theorem Live.link (h : Live s) {s1 : Heap} (hnot : ¬ s.Has ino)
    (hs : Searched ((s.addInode (newObject ino)).addEntry ⟨s.nextInode, s.table.index ino⟩) s1) :
    Linked (s1.link (s1.table.index ino) s.nextEntry) := by
  have hadd := h.linked.addInode h.ne_nextInode (newObject ino)
  have hl := (hadd.addEntry ⟨s.nextInode, s.table.index ino⟩).searched hs
  refine hl.link (i := s.nextInode) (fun {b} ha => ?_) ?_ ?_ ?_ fun {b a} ha hat => ?_
  · rw [hs.list] at ha
    exact Nat.lt_irrefl _ (h.linked.allocated ha)
  · rw [hs.nextEntry]
    exact Nat.lt_succ_self _
  · rw [hs.entry, hs.index]
    exact update_self ..
  · change (s1.inode s.nextInode).map Object.ino = some ino
    rw [hs.inode]
    exact congrArg (Option.map Object.ino) (update_self s.nextInode _ s.inode)
  · rw [hs.list] at ha
    exact hnot ((h.linked.has_addInode h.ne_nextInode _).mp
      ⟨b, a, ha, (hadd.at_addEntry _ ha).mp (hs.at_iff.mp hat)⟩)

theorem Live.create (h : Live s) (hk : ino ≠ 0#64) (hroot : ino ≠ BitVec.ofNat 64 fuseRootId) :
    ∃ s', bitbucketCreateInode ino s = some (s.nextInode, s') ∧ Live s' := by
  obtain ⟨s1, hs, ⟨-, hrun⟩ | ⟨hnot, hrun⟩⟩ := h.linked.create h.ne_nextInode hk hroot
  · have hadd := (h.linked.addInode h.ne_nextInode (newObject ino)).addEntry
      ⟨s.nextInode, s.table.index ino⟩
    have hl : Linked (s1.reject s.nextEntry) := by
      refine (hadd.searched hs).frame rfl (Nat.le_refl _) (fun ha => ?_) fun _ _ => rfl
      rw [hs.list] at ha
      exact update_of_ne (Nat.ne_of_lt (h.linked.allocated ha)) _ _
    exact ⟨_, hrun, h.created hl hk hs.inode hs.nextInode⟩
  · exact ⟨_, hrun, h.created (h.link hnot hs) hk hs.inode hs.nextInode⟩

theorem Wf.create (h : Wf s) (hf : s.Fresh ino) (hk : ino ≠ 0#64)
    (hroot : ino ≠ BitVec.ofNat 64 fuseRootId) :
    ∃ s', bitbucketCreateInode ino s = some (s.nextInode, s') ∧ Wf s' ∧
      s'.nextInode = s.nextInode + 1 ∧
      s'.number = update s.number s.nextInode (some ino) := by
  have hnot := h.not_has hf
  obtain ⟨s1, hs, ⟨hhas, -⟩ | ⟨-, hrun⟩⟩ := h.live.linked.create h.live.ne_nextInode hk hroot
  · exact absurd hhas hnot
  have hadd := (h.live.linked.addInode h.live.ne_nextInode (newObject ino)).addEntry
    ⟨s.nextInode, s.table.index ino⟩
  have hcount := (Lists.searched ⟨hadd, h.lists.inodeCount⟩ hs).inodeCount_link ino s.nextEntry
  have hlive := h.live.created (h.live.link hnot hs) hk hs.inode hs.nextInode
  have hinode := Heap.inode_created (t := s1.link (s1.table.index ino) s.nextEntry) hs.inode
  refine ⟨_, hrun, ⟨⟨hlive.linked, hcount⟩, fun {j m} hj => ?_, hlive.held, hlive.allocated⟩,
    hs.nextInode, ?_⟩
  · rw [hinode] at hj
    change ∃ a e, a ∈ (s1.link (s1.table.index ino) s.nextEntry).list (s1.table.index m.ino) ∧
      s1.entry a = some e ∧ e.inode = j
    simp only [Heap.mem_list_link, hs.index, hs.entry, hs.list]
    rcases Heap.inode_setInode_cases hj with ⟨rfl, rfl⟩ | hj
    · exact ⟨s.nextEntry, ⟨s.nextInode, s.table.index ino⟩, .inr ⟨rfl, rfl⟩, update_self .., rfl⟩
    · obtain ⟨a, e, ha, he, hei⟩ := h.entered hj
      exact ⟨a, e, .inl ha, (update_of_ne (Nat.ne_of_lt (h.lists.allocated ha)) _ _).trans he, hei⟩
  · funext j
    rw [Heap.number, hinode]
    by_cases hj : j = s.nextInode
    · rw [hj, Heap.inode_setInode_self, update_self]
      rfl
    · rw [s.inode_setInode_ne hj, update_of_ne hj]
      rfl

end Create

/-! ## Runs -/

inductive Call where
  | create (ino : BitVec 64)
  | lookup (ino : BitVec 64)
  | reference (i : Nat) (r : Reason)
  | dereference (i : Nat) (r : Reason) (bias : Nat)
deriving DecidableEq, Repr

inductive Event where
  /-- an inode was created, with a number -/
  | created (i : Nat) (ino : BitVec 64)
  /-- the result of a lookup -/
  | found (ino : BitVec 64) (o : Option Nat)
  /-- the last reference was dropped, and the inode with it -/
  | deallocated (i : Nat)
deriving DecidableEq, Repr

def step (s : Heap) : Call → Option (List Event × Heap)
  | .create ino =>
    (bitbucketCreateInode ino s).map fun (i, s') => ([.created i ino], s')
  | .lookup ino =>
    (bitbucketLookupInodeInTable ino s).map fun (o, s') => ([.found ino o], s')
  | .reference i r =>
    (bitbucketReferenceInode i r s).map fun ((), s') => ([], s')
  | .dereference i r bias =>
    (bitbucketDereferenceInode i r bias s).map fun (last, s') =>
      (if last then [.deallocated i] else [], s')

/-- New numbers are fresh, not zero and not the number of the root. -/
def Call.Fresh (s : Heap) : Call → Prop
  | .create ino =>
    s.Fresh ino ∧ ino ≠ 0#64 ∧ ino ≠ BitVec.ofNat 64 fuseRootId
  | _ => True

instance (s : Heap) : (c : Call) → Decidable (c.Fresh s)
  | .create ino => inferInstanceAs (Decidable (s.Fresh ino ∧ _))
  | .lookup _ | .reference _ _ | .dereference _ _ _ => .isTrue trivial

/-- The inode was created with the number, and not deallocated since. -/
def Alive (tr : List Event) (i : Nat) (ino : BitVec 64) : Prop :=
  .created i ino ∈ tr ∧ .deallocated i ∉ tr

instance (tr : List Event) (i : Nat) (ino : BitVec 64) : Decidable (Alive tr i ino) :=
  inferInstanceAs (Decidable (_ ∧ _))

/-- The state after the events `tr`. -/
structure Reached (tr : List Event) (s : Heap) : Prop where
  wf : Wf s
  alive : ∀ i ino, s.number i = some ino ↔ Alive tr i ino
  unused : ∀ i, s.nextInode ≤ i → (∀ ino, .created i ino ∉ tr) ∧ .deallocated i ∉ tr

section Runs

variable {s s' : Heap} {tr ev : List Event} {c : Call} {ino : BitVec 64}

section

variable (h : Reached tr s)
include h

theorem Reached.create (hf : (Call.create ino).Fresh s)
    (hs : step s (.create ino) = some (ev, s')) : Reached (tr ++ ev) s' := by
  obtain ⟨hf, hk, hroot⟩ := hf
  obtain ⟨s1, hrun, hw, hnext, hnumber⟩ := h.wf.create hf hk hroot
  rw [step, hrun] at hs
  cases hs
  refine ⟨hw, fun i k => ?_, fun i hi => ?_⟩
  · rw [hnumber]
    by_cases hi : i = s.nextInode
    · subst hi
      obtain ⟨hnone, hdead⟩ := h.unused s.nextInode (Nat.le_refl _)
      simp [Alive, hnone, hdead, eq_comm]
    · rw [update_of_ne hi, h.alive]
      simp [Alive, hi]
  · obtain ⟨hnone, hdead⟩ := h.unused i (by omega)
    have hne : i ≠ s.nextInode := by omega
    simp [hnone, hdead, hne]

theorem Reached.keep (hw : Wf s') (hnumber : s'.number = s.number)
    (hnext : s'.nextInode = s.nextInode) (hc : ∀ i k, .created i k ∉ ev)
    (hd : ∀ i, .deallocated i ∉ ev) : Reached (tr ++ ev) s' := by
  refine ⟨hw, fun i k => ?_, fun i hi => ?_⟩
  · rw [hnumber, h.alive, Alive, Alive, mem_append, mem_append]
    simp [hc, hd]
  · obtain ⟨hnone, hdead⟩ := h.unused i (hnext ▸ hi)
    simp [hnone, hdead, hc, hd]

theorem Reached.lookup (hs : step s (.lookup ino) = some (ev, s')) : Reached (tr ++ ev) s' := by
  rw [step] at hs
  obtain ⟨⟨o, s1⟩, hrun, ⟨⟩⟩ := map_eq_some_iff.mp hs
  obtain ⟨hk, -⟩ := assert_bind_inv hrun
  obtain ⟨o', s2, hrun', hw, hnumber, hnext, -⟩ := h.wf.lookup hk
  obtain ⟨-, rfl⟩ : o = o' ∧ s' = s2 := by simpa using hrun.symm.trans hrun'
  exact h.keep hw hnumber hnext (by simp) (by simp)

theorem Reached.reference {i : Nat} {r : Reason}
    (hs : step s (.reference i r) = some (ev, s')) : Reached (tr ++ ev) s' := by
  rw [step] at hs
  obtain ⟨⟨u, s1⟩, hrun, ⟨⟩⟩ := map_eq_some_iff.mp hs
  obtain ⟨n, s0, hload, -⟩ := bind_inv hrun
  obtain ⟨hi, -⟩ := loadInode_inv hload
  rw [h.wf.live.reference hi] at hrun
  cases hrun
  exact h.keep (h.wf.setInode hi rfl (h.wf.held hi).add) (s.number_setInode hi rfl) rfl (by simp)
    (by simp)

theorem Reached.dereference {i bias : Nat} {r : Reason}
    (hs : step s (.dereference i r bias) = some (ev, s')) : Reached (tr ++ ev) s' := by
  rw [step] at hs
  obtain ⟨⟨last, s1⟩, hrun, heq⟩ := map_eq_some_iff.mp hs
  obtain ⟨n, hi, hc, hr⟩ := dereference_inv hrun
  obtain ⟨s2, hrun', hw, hnext, hnumber⟩ := h.wf.dereference hi hc hr
  rw [hrun'] at hrun
  cases hrun
  by_cases hlast : bias = n.referenceCount
  · rw [if_pos hlast] at hnumber
    rw [decide_eq_true hlast] at heq
    cases heq
    refine ⟨hw, fun j k => ?_, fun j hj => ?_⟩
    · rw [hnumber]
      by_cases hj : j = i
      · subst hj
        simp [Alive]
      · rw [update_of_ne hj, h.alive]
        simp [Alive, hj]
    · have hlt := h.wf.allocated hi
      obtain ⟨hnone, hdead⟩ := h.unused j (by omega)
      have hne : j ≠ i := by omega
      simp [hnone, hdead, hne]
  · rw [if_neg hlast] at hnumber
    rw [decide_eq_false hlast] at heq
    cases heq
    exact h.keep hw hnumber hnext (by simp) (by simp)

theorem Reached.step (hf : c.Fresh s)
    (hs : InodeTable.step s c = some (ev, s')) : Reached (tr ++ ev) s' := by
  cases c with
  | create ino => exact h.create hf hs
  | lookup ino => exact h.lookup hs
  | reference i r => exact h.reference hs
  | dereference i r bias => exact h.dereference hs

end

theorem reached_nil {bucketCount : Nat} (hb : bucketCount ≤ 32768)
    (seed : BitVec 64) : Reached [] (bitbucketCreateInodeTable bucketCount seed) := by
  have hsized : (bitbucketCreateInodeTable bucketCount seed).table.Sized := by
    refine ⟨?_, ?_, rfl⟩ <;> simp only [bitbucketCreateInodeTable, tableShift] <;>
      split_ifs <;> omega
  have hlists : Lists (bitbucketCreateInodeTable bucketCount seed) :=
    { sized := hsized
      placed := nofun
      unique := nofun
      allocated := nofun
      nodup := fun _ => nodup_nil
      cached := nofun
      count := fun _ => rfl
      inodeCount := (sum_const_zero).symm }
  refine ⟨⟨hlists, nofun, nofun, nofun⟩, fun i ino => ?_, fun i _ => ?_⟩
  · simp [Alive, Heap.number, bitbucketCreateInodeTable]
  · simp

end Runs

/-- In every run with fresh numbers, the table is a map from numbers to the
inodes that were created and not deallocated: a lookup returns just these. The
cache of a bucket is empty or an entry on its list, and the counts are those
of the lists. -/
theorem inode_table_refines {bucketCount : Nat} (hb : bucketCount ≤ 32768)
    (seed : BitVec 64) {cs : List Call} {tr : List Event} {s : Heap}
    (hf : Along step (fun s c => c.Fresh s) (bitbucketCreateInodeTable bucketCount seed) cs)
    (hr : run step (bitbucketCreateInodeTable bucketCount seed) cs = some (tr, s)) :
    (∀ ino, ino ≠ 0#64 → ∃ o s', bitbucketLookupInodeInTable ino s = some (o, s') ∧
      ∀ i, o = some i ↔ Alive tr i ino) ∧
    (∀ b, (∀ a, (s.table.buckets b).lastInodeTableEntry = some a →
        a ∈ (s.table.buckets b).listEntry) ∧
      (s.table.buckets b).count = (s.table.buckets b).listEntry.length) ∧
    s.table.inodeCount = ∑ b ∈ range s.table.bucketCount, (s.table.buckets b).listEntry.length := by
  have h : Reached tr s := run_history
    (fun _ _ _ _ _ h hf hs => Reached.step h hf hs) (reached_nil hb seed) hr hf
  refine ⟨fun ino hk => ?_, fun b => ⟨fun a => h.wf.lists.cached, h.wf.lists.count b⟩,
    h.wf.lists.inodeCount⟩
  obtain ⟨o, s', hrun, -, -, -, hfound⟩ := h.wf.lookup hk
  exact ⟨o, s', hrun, fun i => (hfound i).trans (h.alive i ino)⟩

/-- A run in which a number is used again after its inode is gone. -/
def reusedNumber : List Call :=
  [.create 5, .create 7, .lookup 5, .dereference 0 .lookup 2, .create 5, .lookup 7]

theorem inode_table_refines_reused :
    ∃ tr s, run step (bitbucketCreateInodeTable 1000 0) reusedNumber = some (tr, s) ∧
      tr = [.created 0 5, .created 1 7, .found 5 (some 0), .deallocated 0,
        .created 2 5, .found 7 (some 1)] ∧
      (∃ s', bitbucketLookupInodeInTable 5 s = some (some 2, s')) ∧
      s.table.inodeCount = ∑ b ∈ range s.table.bucketCount,
        (s.table.buckets b).listEntry.length := by
  have hrun : (run step (bitbucketCreateInodeTable 1000 0) reusedNumber).map
      Prod.fst = some [.created 0 5, .created 1 7, .found 5 (some 0), .deallocated 0,
        .created 2 5, .found 7 (some 1)] := by decide +kernel
  obtain ⟨⟨tr, s⟩, hr, rfl⟩ := map_eq_some_iff.mp hrun
  have hf : check step (fun s c => decide (c.Fresh s))
    (bitbucketCreateInodeTable 1000 0) reusedNumber = true := by decide +kernel
  obtain ⟨hfound, -, hcount⟩ := inode_table_refines (by decide) 0
    (along_of_decide hf) hr
  obtain ⟨o, s', hlookup, hiff⟩ := hfound 5 (by decide)
  obtain rfl := (hiff 2).mpr (by decide)
  exact ⟨_, s, hr, rfl, ⟨s', hlookup⟩, hcount⟩

/-! ## Collisions -/

section Collision

variable {s : Heap}

/-- The table has an entry of the inode. -/
def Heap.InTable (s : Heap) (i : Nat) : Prop :=
  ∃ b a e, a ∈ s.list b ∧ s.entry a = some e ∧ e.inode = i

/-- An insertion that fails changes neither the lists nor the count of the
table, nor the inode. -/
def Heap.RejectsRight (s : Heap) (i : Nat) : Prop :=
  ∀ s', bitbucketInsertInodeInTable i s = some (-EEXIST, s') →
    s'.list = s.list ∧ s'.table.inodeCount = s.table.inodeCount ∧ s'.inode i = s.inode i

theorem Linked.rejectsRight_iff (h : Linked s) {i : Nat} {n : Object}
    (hi : s.inode i = some n) (hp : n.publicTable = false) (hk : n.ino ≠ 0#64)
    (hroot : n.ino ≠ BitVec.ofNat 64 fuseRootId) : s.RejectsRight i ↔ ¬ s.Has n.ino := by
  obtain ⟨s1, hs, ⟨hhas, hrun⟩ | ⟨hnot, hrun⟩⟩ := h.insert hi hp hk hroot
  · refine iff_of_false (fun hright => ?_) (fun hnot => hnot hhas)
    -- the inode says that it is in a table
    have hinode := (hright _ hrun).2.2
    rw [Heap.inode_setInode_self, hi] at hinode
    have hmark : true = n.publicTable := congrArg Object.publicTable (Option.some.inj hinode)
    rw [hp] at hmark
    cases hmark
  · refine iff_of_true (fun s' hr => ?_) hnot
    rw [hrun] at hr
    have hzero : (0 : Int) = -EEXIST := congrArg Prod.fst (Option.some.inj hr)
    exact absurd hzero (by decide)

theorem Linked.inTable_create_iff (h : Linked s)
    (hmem : ∀ i n, s.inode i = some n → i < s.nextInode) {ino : BitVec 64} (hk : ino ≠ 0#64)
    (hroot : ino ≠ BitVec.ofNat 64 fuseRootId) :
    ∃ s', bitbucketCreateInode ino s = some (s.nextInode, s') ∧
      (s'.InTable s.nextInode ↔ ¬ s.Has ino) := by
  have hfree : ∀ {i k}, s.number i = some k → i ≠ s.nextInode := fun hn => by
    obtain ⟨n, hi, -⟩ := map_eq_some_iff.mp hn
    exact Nat.ne_of_lt (hmem _ n hi)
  obtain ⟨s1, hs, ⟨hhas, hrun⟩ | ⟨hnot, hrun⟩⟩ := h.create hfree hk hroot
  · refine ⟨_, hrun, iff_of_false ?_ fun hnot => hnot hhas⟩
    -- every entry on a list was there before
    rintro ⟨b, a, e, ha, he, hei⟩
    have ha : a ∈ s.list b := hs.list ▸ ha
    have hne : a ≠ s.nextEntry := Nat.ne_of_lt (h.allocated ha)
    replace he : update s1.entry s.nextEntry none a = some e := he
    rw [update_of_ne hne, hs.entry] at he
    replace he : s.entry a = some e := (update_of_ne hne _ _).symm.trans he
    obtain ⟨e', k, he', -, hn, -⟩ := h.placed ha
    obtain rfl := mem_unique he he'
    exact hfree hn hei
  · refine ⟨_, hrun, iff_of_true ⟨s1.table.index ino, s.nextEntry,
      ⟨s.nextInode, s.table.index ino⟩, ?_, ?_, rfl⟩ hnot⟩
    · exact Heap.mem_list_link.mpr (.inr ⟨rfl, rfl⟩)
    · exact (congrFun hs.entry _).trans (update_self ..)

/-- A collision is handled right just if there is none: what returns `-EEXIST`
has marked the inode and raised the count, and a creation hands out its inode
although the table has no entry of it. -/
theorem collision_handled_iff (h : Linked s) (hmem : ∀ i n, s.inode i = some n → i < s.nextInode) :
    (∀ i n, s.inode i = some n → n.publicTable = false → n.ino ≠ 0#64 →
      n.ino ≠ BitVec.ofNat 64 fuseRootId → (s.RejectsRight i ↔ ¬ s.Has n.ino)) ∧
    ∀ ino, ino ≠ 0#64 → ino ≠ BitVec.ofNat 64 fuseRootId →
      ∃ i s', bitbucketCreateInode ino s = some (i, s') ∧ (s'.InTable i ↔ ¬ s.Has ino) :=
  ⟨fun _ _ hi hp hk hroot => h.rejectsRight_iff hi hp hk hroot,
    fun _ hk hroot => ⟨_, h.inTable_create_iff hmem hk hroot⟩⟩

theorem created_five : ∃ s, bitbucketCreateInode 5 (bitbucketCreateInodeTable 1000 0) =
    some (0, s) ∧ Wf s ∧ s.nextInode = 1 ∧ s.number 0 = some 5 := by
  have hw := (reached_nil (by decide) 0 : Reached [] (bitbucketCreateInodeTable 1000 0)).wf
  obtain ⟨s, hc, hw1, hnext, hnum⟩ :=
    hw.create (fun i hi => absurd hi (Nat.not_lt_zero i)) (by decide : 5 ≠ 0#64) (by decide)
  exact ⟨s, hc, hw1, hnext, hnum ▸ update_self ..⟩

theorem collision_handled_iff_second : ∃ s i s',
    bitbucketCreateInode 5 (bitbucketCreateInodeTable 1000 0) = some (0, s) ∧
    bitbucketCreateInode 6 s = some (i, s') ∧ s'.InTable i := by
  obtain ⟨s, hs, hw, hnext, hnum⟩ := created_five
  obtain ⟨i, s', hc, hiff⟩ := (collision_handled_iff hw.lists.toLinked
    fun _ _ hi => hw.allocated hi).2 6 (by decide) (by decide)
  refine ⟨s, i, s', hs, hc, hiff.mpr (hw.not_has fun i hi => ?_)⟩
  obtain rfl : i = 0 := by omega
  rw [hnum]
  decide

/-- The second of two inodes with one number is counted, and it is not in the
table. -/
theorem rejected_inode_handed_out : ∃ s1 s2,
    bitbucketCreateInode 5 (bitbucketCreateInodeTable 1000 0) = some (0, s1) ∧
    bitbucketCreateInode 5 s1 = some (1, s2) ∧ s2.table.inodeCount = 2 ∧
    (s2.inode 1).map Object.publicTable = some true ∧ ¬ s2.InTable 1 := by
  obtain ⟨s1, hc, hw1, hnext, hnum⟩ := created_five
  obtain ⟨n, hi, hn⟩ := map_eq_some_iff.mp hnum
  obtain ⟨a, e, ha, he, hei⟩ := hw1.entered hi
  obtain ⟨s2, hc2, hiff⟩ := hw1.lists.toLinked.inTable_create_iff
    (fun _ _ hi => hw1.allocated hi) (by decide : 5 ≠ 0#64) (by decide)
  rw [hnext] at hc2 hiff
  have hend : ((bitbucketCreateInode 5 (bitbucketCreateInodeTable 1000 0)).bind fun q =>
      (bitbucketCreateInode 5 q.2).map fun q => (q.2.table.inodeCount,
        (q.2.inode 1).map Object.publicTable)) = some (2, some true) := by decide +kernel
  rw [hc, Option.bind_some, hc2, Option.map_some, Option.some.injEq, Prod.mk.injEq] at hend
  exact ⟨s1, s2, hc, hc2, hend.1, hend.2, fun hin => hiff.mp hin ⟨_, a, ha, e, he, hei ▸ hnum⟩⟩

end Collision

end InodeTable

end Finesse.Bitbucket
