import Finesse.Lib.Ledger
import Finesse.Lib.Pool
import Finesse.Lib.RwLock
import Finesse.Bitbucket.InodeTable

/-!
# Inodes under concurrent use

`BitbucketCreateInode`, `BitbucketLookupInodeInTable`,
`BitbucketReferenceInode` and `BitbucketDereferenceInode` by any number of
threads. Taking or dropping a bucket lock, an atomic operation on a count or
on the cache of a bucket, a read of a count and the publication of a field are
steps of their own. The list of a bucket changes only under its exclusive
lock, so a search of the list is one step, and so is a search together with
the insertion or the removal that follows it under the same exclusive lock.

The state has, besides what the program has, an account of who holds which
references. A thread that is not inside a call may use the references on its
account, and may hand them over to another thread.
-/

namespace Finesse.Bitbucket.Threads

open Function

/-- What a thread stops at: a failed assertion, or a use of freed memory,
which the magic numbers are there to detect. -/
inductive Failure where
  /-- `BitbucketInsertInodeInTable`: not the number of the root -/
  | rootNumber
  /-- `BitbucketLookupInodeInTable`: the number is not zero -/
  | nullNumber
  /-- `InodeTableLock` and `InodeTableUnlock`: the inode has a table -/
  | noTable
  | freed
  /-- `BitbucketCreateInode`: the new inode has one reference -/
  | countNotOne
  /-- `BitbucketObjectReference`: no transition from zero to one -/
  | zeroToOne
  /-- `BitbucketObjectReference`: a reason has at most all references -/
  | reasonAboveCount
  /-- `BitbucketObjectDereference`: no underflow -/
  | biasAboveCount
  | biasAboveReason
  /-- `InodeDeallocate`: the bucket is locked for changes -/
  | notLocked
  /-- `InodeDeallocate`: the inode is in the table -/
  | notInTable
  /-- `InodeDeallocate`: the table is not empty -/
  | noInodes
deriving DecidableEq, Repr

/-- Where a thread is. A reference that is taken inside of a lookup carries the
number that is looked up. -/
inductive Pc where
  | idle
  | failed (f : Failure)
  -- BitbucketCreateInode
  | createLock (i : Nat)
  | createInsert (i : Nat)
  | createUnlock (i : Nat)
  | createPublish (i : Nat)
  | createCount (i : Nat)
  | createTable (i : Nat)
  | createCheck (i : Nat)
  -- BitbucketLookupInodeInTable
  | lookupLock (ino : BitVec 64)
  | lookupLoad (ino : BitVec 64)
  | lookupScan (ino : BitVec 64) (cached : Option Nat)
  | lookupStore (ino : BitVec 64) (i : Nat)
  | lookupUnlock (ino : BitVec 64)
  -- BitbucketObjectReference
  | refLock (w : Option (BitVec 64)) (i : Nat) (r : Reason)
  | refCount (w : Option (BitVec 64)) (i : Nat) (r : Reason)
  | refReason (w : Option (BitVec 64)) (i : Nat) (r : Reason) (count : Nat)
  | refUnlock (w : Option (BitVec 64)) (i : Nat) (count reason : Nat)
  | refCheck (w : Option (BitVec 64)) (count reason : Nat)
  -- BitbucketObjectDereference
  | derefCount (i : Nat) (r : Reason) (bias : Nat)
  | derefReasons (i : Nat) (r : Reason) (bias : Nat)
  | derefLock (i : Nat) (r : Reason) (bias : Nat)
  | derefSub (i : Nat) (r : Reason) (bias : Nat)
  | derefRestore (i : Nat) (r : Reason) (bias : Nat)
  | derefReason (i : Nat) (r : Reason) (bias : Nat)
  | derefUnlock (i : Nat)
  | lastUnlock (i : Nat) (r : Reason) (bias : Nat)
  | lastLock (i : Nat) (r : Reason) (bias : Nat)
  | lastSub (i : Nat) (r : Reason) (bias : Nat)
  | lastReason (i : Nat) (r : Reason) (bias count : Nat)
  -- InodeDeallocate
  | freeRemove (i : Nat)
  | freeUnlock (i : Nat)
  | freeCount (i : Nat)
  | freeObject (i : Nat)
deriving DecidableEq, Repr

/-- The calls of an idle thread; `next` elsewhere. -/
inductive Act (θ : Type) where
  | create (ino : BitVec 64)
  | lookup (ino : BitVec 64)
  | reference (i : Nat) (r : Reason)
  | dereference (i : Nat) (r : Reason) (bias : Nat)
  /-- `k` references become those of another thread -/
  | hand (u : θ) (i : Nat) (r : Reason) (k : Nat)
  | next
deriving DecidableEq, Repr

inductive Event where
  /-- `InodeDeallocate` was entered while threads held `outstanding`
  references. -/
  | deallocated (i outstanding : Nat)
deriving DecidableEq, Repr

/-- Inodes, table and locks, with the accounts of the threads. -/
structure Shared (θ : Type) where
  live : Nat → Bool
  ino : Nat → BitVec 64
  /-- `Table` of the private inode is set -/
  table : Nat → Bool
  /-- `Table` of the public inode is set -/
  publicTable : Nat → Bool
  referenceCount : Nat → Nat
  referenceReasons : Nat → Reason → Nat
  /-- addresses from here on were never used -/
  next : Nat
  /-- the inodes of the entries in a bucket -/
  list : Nat → List Nat
  lastInodeTableEntry : Nat → Option Nat
  inodeCount : Nat
  locks : Nat → RwLock θ
  /-- references of a thread in the count of an inode -/
  counted : Ledger θ Nat
  /-- references of a thread in the count of a reason -/
  noted : Ledger θ (Nat × Reason)
  /-- inodes that `BitbucketCreateInode` has returned -/
  created : Nat → Bool
  /-- inodes that are in `InodeCount` -/
  tallied : Finset Nat

/-- What `__atomic_fetch_add` leaves in an unsigned count of `w` bits. -/
def fetchAdd (w c k : Nat) : Nat := (c + k) % 2 ^ w

/-- What `__atomic_fetch_sub` leaves there. -/
def fetchSub (w c k : Nat) : Nat := if k ≤ c then c - k else c + 2 ^ w - k

theorem fetchAdd_eq {w c k : Nat} (h : c + k < 2 ^ w) : fetchAdd w c k = c + k := Nat.mod_eq_of_lt h

theorem fetchSub_eq {w c k : Nat} (h : k ≤ c) : fetchSub w c k = c - k := if_pos h

section Steps

variable {θ : Type} [DecidableEq θ]

namespace Shared

variable (hash : BitVec 64 → Nat) (s : Shared θ)

/-- The bucket of an inode. -/
def bucket (i : Nat) : Nat := hash (s.ino i)

/-- `LockInodeBucket(.., 0)`. -/
def lockShared (b : Nat) (t : θ) : Option (Shared θ) :=
  ((s.locks b).rdlock t).map fun l =>
    { s with locks := update s.locks b l }

/-- `LockInodeBucket(.., 1)`. -/
def lockExclusive (b : Nat) (t : θ) : Option (Shared θ) :=
  ((s.locks b).wrlock t).map fun l =>
    { s with locks := update s.locks b l }

/-- `UnlockInodeBucket`. -/
def unlock (b : Nat) (t : θ) : Shared θ :=
  { s with locks := update s.locks b ((s.locks b).unlock t) }

/-- A new count of an inode, by an operation of `t` after which `n` of the
references counted are its own. -/
def setCount (i count : Nat) (t : θ) (n : Nat) : Shared θ :=
  { s with
    referenceCount := update s.referenceCount i count
    counted := s.counted.set t i n }

def addCount (i k : Nat) (t : θ) : Shared θ :=
  s.setCount i (fetchAdd 64 (s.referenceCount i) k) t (s.counted t i + k)

def subCount (i k : Nat) (t : θ) : Shared θ :=
  s.setCount i (fetchSub 64 (s.referenceCount i) k) t (s.counted t i - k)

/-- The same for the count of a reason. -/
def setReason (i : Nat) (r : Reason) (count : Nat) (t : θ) (n : Nat) : Shared θ :=
  { s with
    referenceReasons := update s.referenceReasons i
      (update (s.referenceReasons i) r count)
    noted := s.noted.set t (i, r) n }

def addReason (i : Nat) (r : Reason) (k : Nat) (t : θ) : Shared θ :=
  s.setReason i r (fetchAdd 32 (s.referenceReasons i r) k) t (s.noted t (i, r) + k)

def subReason (i : Nat) (r : Reason) (k : Nat) (t : θ) : Shared θ :=
  s.setReason i r (fetchSub 32 (s.referenceReasons i r) k) t (s.noted t (i, r) - k)

/-- The entry that a search of a bucket finds. -/
def find (b : Nat) (ino : BitVec 64) : Option Nat :=
  (s.list b).find? fun i => s.ino i = ino

/-- A search of the bucket would read memory that was freed. -/
def Dangling (b : Nat) (cached : Option Nat) : Prop :=
  (∃ i ∈ cached, s.live i = false) ∨ ∃ i ∈ s.list b, s.live i = false

instance (b : Nat) (cached : Option Nat) : Decidable (s.Dangling b cached) :=
  inferInstanceAs (Decidable (_ ∨ _))

/-- `BitbucketObjectCreate`, by `t`. -/
def create (ino : BitVec 64) (t : θ) : Shared θ :=
  { s with
    live := update s.live s.next true
    ino := update s.ino s.next ino
    table := update s.table s.next false
    publicTable := update s.publicTable s.next false
    referenceCount := update s.referenceCount s.next 1
    referenceReasons := update s.referenceReasons s.next
      fun r => if r = Reason.lookup then 1 else 0
    next := s.next + 1
    counted := s.counted.set t s.next 1
    noted := s.noted.set t (s.next, .lookup) 1 }

/-- `k` references of `t` become references of `u`. -/
def hand (t u : θ) (i : Nat) (r : Reason) (k : Nat) : Shared θ :=
  { s with
    counted := s.counted.move t u i k
    noted := s.noted.move t u (i, r) k }

end Shared

abbrev Result (θ : Type) := Option (List Event × Pc × Shared θ)

/-- The calls. A thread uses references that it holds. -/
def callStep (t : θ) (a : Act θ) (s : Shared θ) : Result θ :=
  match a with
  | .create ino =>
    -- `get_new_inode_number` does not return zero
    if ino = 0#64 then none
    else if ino = BitVec.ofNat 64 fuseRootId then some ([], .failed .rootNumber, s)
    else some ([], .createLock s.next, s.create ino t)
  | .lookup ino =>
    if ino = 0#64 then some ([], .failed .nullNumber, s)
    else some ([], .lookupLock ino, s)
  | .reference i r =>
    if s.counted t i = 0 then none else some ([], .refLock none i r, s)
  | .dereference i r bias =>
    if s.counted t i = 0 ∨ s.noted t (i, r) < bias then none
    else some ([], .derefCount i r bias, s)
  | .hand u i r k =>
    if s.noted t (i, r) < k then none else some ([], .idle, s.hand t u i r k)
  | .next => none

variable (hash : BitVec 64 → Nat)

/-- `InodeTableLock`, with where to go then. -/
def inodeTableLock (t : θ) (i : Nat) (exclusive : Bool) (pc : Pc) (s : Shared θ) : Result θ :=
  if s.table i = false then some ([], .failed .noTable, s)
  else
    (if exclusive then s.lockExclusive (s.bucket hash i) t
      else s.lockShared (s.bucket hash i) t).map fun s' => ([], pc, s')

/-- `InodeTableUnlock`, with where to go then. -/
def inodeTableUnlock (t : θ) (i : Nat) (pc : Pc) (s : Shared θ) : Result θ :=
  if s.table i = false then some ([], .failed .noTable, s)
  else some ([], pc, s.unlock (s.bucket hash i) t)

/-- `BitbucketCreateInode`, after the object was made. -/
def createStep (t : θ) (pc : Pc) (s : Shared θ) : Result θ :=
  match pc with
  | .createLock i =>
    (s.lockExclusive (s.bucket hash i) t).map fun s' => ([], .createInsert i, s')
  | .createInsert i =>
    let b := s.bucket hash i
    if s.Dangling b (s.lastInodeTableEntry b) then some ([], .failed .freed, s)
    else
      match s.find b (s.ino i) with
      | some j =>
        some ([], .createUnlock i, { s with
          lastInodeTableEntry := update s.lastInodeTableEntry b (some j) })
      | none =>
        some ([], .createUnlock i, { s with
          list := update s.list b (i :: s.list b) })
  | .createUnlock i => some ([], .createPublish i, s.unlock (s.bucket hash i) t)
  | .createPublish i =>
    some ([], .createCount i, { s with
      publicTable := update s.publicTable i true })
  | .createCount i =>
    some ([], .createTable i, { s with
      inodeCount := s.inodeCount + 1
      tallied := insert i s.tallied })
  | .createTable i =>
    some ([], .createCheck i, { s with table := update s.table i true })
  | .createCheck i =>
    -- the count is read into 32 bits
    if s.referenceCount i % 2 ^ 32 = 1 then
      some ([], .idle, { s with created := update s.created i true })
    else some ([], .failed .countNotOne, s)
  | _ => none

/-- `BitbucketLookupInodeInTable`, but for the reference that it takes. -/
def lookupStep (t : θ) (pc : Pc) (s : Shared θ) : Result θ :=
  match pc with
  | .lookupLock ino =>
    (s.lockShared (hash ino) t).map fun s' => ([], .lookupLoad ino, s')
  | .lookupLoad ino =>
    some ([], .lookupScan ino (s.lastInodeTableEntry (hash ino)), s)
  | .lookupScan ino cached =>
    if s.Dangling (hash ino) cached then some ([], .failed .freed, s)
    else
      match cached.filter fun i => s.ino i = ino with
      | some i => some ([], .refLock (some ino) i .lookup, s)
      | none =>
        match s.find (hash ino) ino with
        | some i => some ([], .lookupStore ino i, s)
        | none => some ([], .lookupUnlock ino, s)
  | .lookupStore ino i =>
    some ([], .refLock (some ino) i .lookup, { s with
      lastInodeTableEntry := update s.lastInodeTableEntry (hash ino) (some i) })
  | .lookupUnlock ino => some ([], .idle, s.unlock (hash ino) t)
  | _ => none

/-- `BitbucketObjectReference`. -/
def referenceStep (t : θ) (pc : Pc) (s : Shared θ) : Result θ :=
  match pc with
  | .refLock w i r => inodeTableLock hash t i false (.refCount w i r) s
  | .refCount w i r =>
    some ([], .refReason w i r (s.referenceCount i), s.addCount i 1 t)
  | .refReason w i r count =>
    some ([], .refUnlock w i count (s.referenceReasons i r), s.addReason i r 1 t)
  | .refUnlock w i count reason =>
    inodeTableUnlock hash t i (.refCheck w count reason) s
  | .refCheck w count reason =>
    if count = 0 then some ([], .failed .zeroToOne, s)
    else if count < reason then some ([], .failed .reasonAboveCount, s)
    else
      match w with
      | some ino => some ([], .lookupUnlock ino, s)
      | none => some ([], .idle, s)
  | _ => none

/-- `BitbucketObjectDereference`. -/
def dereferenceStep (t : θ) (pc : Pc) (s : Shared θ) : Result θ :=
  match pc with
  | .derefCount i r bias =>
    if s.referenceCount i < bias then some ([], .failed .biasAboveCount, s)
    else some ([], .derefReasons i r bias, s)
  | .derefReasons i r bias =>
    if s.referenceReasons i r < bias then some ([], .failed .biasAboveReason, s)
    else some ([], .derefLock i r bias, s)
  | .derefLock i r bias => inodeTableLock hash t i false (.derefSub i r bias) s
  | .derefSub i r bias =>
    some ([], if bias = s.referenceCount i then .derefRestore i r bias
      else .derefReason i r bias, s.subCount i bias t)
  | .derefRestore i r bias => some ([], .lastUnlock i r bias, s.addCount i bias t)
  | .derefReason i r bias =>
    if s.referenceReasons i r < bias then some ([], .failed .biasAboveReason, s)
    else some ([], .derefUnlock i, s.subReason i r bias t)
  | .derefUnlock i => inodeTableUnlock hash t i .idle s
  | .lastUnlock i r bias => inodeTableUnlock hash t i (.lastLock i r bias) s
  | .lastLock i r bias => inodeTableLock hash t i true (.lastSub i r bias) s
  | .lastSub i r bias =>
    if s.referenceCount i < bias then some ([], .failed .biasAboveCount, s)
    else some ([], .lastReason i r bias (s.referenceCount i), s.subCount i bias t)
  | .lastReason i r bias count =>
    if s.referenceReasons i r < bias then some ([], .failed .biasAboveReason, s)
    -- if others hold references now, the call returns without an unlock
    else some ([], if bias = count then .freeRemove i else .idle, s.subReason i r bias t)
  | _ => none

/-- `InodeDeallocate`, and the `free` that follows it. -/
def deallocateStep [Fintype θ] (t : θ) (pc : Pc) (s : Shared θ) : Result θ :=
  match pc with
  | .freeRemove i =>
    let b := s.bucket hash i
    if s.table i = false then some ([], .failed .noTable, s)
    else if (s.locks b).writer = none then some ([], .failed .notLocked, s)
    else if s.Dangling b (s.lastInodeTableEntry b) then some ([], .failed .freed, s)
    else
      match s.find b (s.ino i) with
      | none => some ([], .failed .notInTable, s)
      | some j =>
        some ([.deallocated i (s.counted.total i)], .freeUnlock i, { s with
          list := update s.list b ((s.list b).erase j)
          -- the search leaves the entry in the cache, which is then cleared
          lastInodeTableEntry := update s.lastInodeTableEntry b none })
  | .freeUnlock i => inodeTableUnlock hash t i (.freeCount i) s
  | .freeCount i =>
    if s.inodeCount = 0 then some ([], .failed .noInodes, s)
    else some ([], .freeObject i, { s with
      inodeCount := s.inodeCount - 1
      tallied := s.tallied.erase i })
  | .freeObject i =>
    some ([], .idle, { s with live := update s.live i false })
  | _ => none

/-- The inode whose memory a step uses. -/
def Pc.object : Pc → Option Nat
  | .createLock i | .createInsert i | .createUnlock i | .createPublish i
  | .createTable i | .createCheck i => some i
  | .refLock _ i _ | .refCount _ i _ | .refReason _ i _ _ | .refUnlock _ i _ _ => some i
  | .derefCount i _ _ | .derefReasons i _ _ | .derefLock i _ _ | .derefSub i _ _
  | .derefRestore i _ _ | .derefReason i _ _ | .derefUnlock i | .lastUnlock i _ _
  | .lastLock i _ _ | .lastSub i _ _ | .lastReason i _ _ _ => some i
  | .freeRemove i | .freeUnlock i | .freeObject i => some i
  | .idle | .failed _ | .createCount _ | .lookupLock _ | .lookupLoad _
  | .lookupScan _ _ | .lookupStore _ _ | .lookupUnlock _ | .refCheck _ _ _
  | .freeCount _ => none

/-- One step of thread `t`. -/
def exec [Fintype θ] (t : θ) (a : Act θ) (pc : Pc) (s : Shared θ) : Result θ :=
  if ∃ i ∈ pc.object, s.live i = false then some ([], .failed .freed, s)
  else
    match pc with
    | .idle => callStep t a s
    | .failed _ => none
    | .createLock _ | .createInsert _ | .createUnlock _ | .createPublish _
    | .createCount _ | .createTable _ | .createCheck _ => createStep hash t pc s
    | .lookupLock _ | .lookupLoad _ | .lookupScan _ _ | .lookupStore _ _
    | .lookupUnlock _ => lookupStep hash t pc s
    | .refLock _ _ _ | .refCount _ _ _ | .refReason _ _ _ _ | .refUnlock _ _ _ _
    | .refCheck _ _ _ => referenceStep hash t pc s
    | .derefCount _ _ _ | .derefReasons _ _ _ | .derefLock _ _ _ | .derefSub _ _ _
    | .derefRestore _ _ _ | .derefReason _ _ _ | .derefUnlock _ | .lastUnlock _ _ _
    | .lastLock _ _ _ | .lastSub _ _ _ | .lastReason _ _ _ _ =>
      dereferenceStep hash t pc s
    | .freeRemove _ | .freeUnlock _ | .freeCount _ | .freeObject _ =>
      deallocateStep hash t pc s

end Steps

/-- Nobody is inside a call, and there are no inodes. -/
def start (θ : Type) : Pool θ Pc (Shared θ) where
  pcs := fun _ => .idle
  shared :=
    { live := fun _ => false
      ino := fun _ => 0#64
      table := fun _ => false
      publicTable := fun _ => false
      referenceCount := fun _ => 0
      referenceReasons := fun _ _ => 0
      next := 0
      list := fun _ => []
      lastInodeTableEntry := fun _ => none
      inodeCount := 0
      locks := fun _ => .free
      counted := fun _ _ => 0
      noted := fun _ _ => 0
      created := fun _ => false
      tallied := ∅ }

/-! ## Places -/

namespace Pc

/-- The inode that a thread is working on. -/
def inode : Pc → Option Nat
  | .createCount i | .freeCount i => some i
  | pc => pc.object

/-- The buckets that a thread has locked for reading. -/
def reads (hash : BitVec 64 → Nat) (ino : Nat → BitVec 64) : Pc → List Nat
  | .lookupLoad n | .lookupScan n _ | .lookupStore n _ | .lookupUnlock n => [hash n]
  | .refLock w _ _ | .refCheck w _ _ => w.toList.map hash
  | .refCount w i _ | .refReason w i _ _ | .refUnlock w i _ _ =>
    hash (ino i) :: w.toList.map hash
  | .derefSub i _ _ | .derefRestore i _ _ | .derefReason i _ _ | .derefUnlock i
  | .lastUnlock i _ _ => [hash (ino i)]
  | _ => []

/-- The bucket that a thread has locked for changes. -/
def writes (hash : BitVec 64 → Nat) (ino : Nat → BitVec 64) : Pc → Option Nat
  | .createInsert i | .createUnlock i | .lastSub i _ _ | .lastReason i _ _ _
  | .freeRemove i | .freeUnlock i => some (hash (ino i))
  | _ => none

/-- References that are noted for a reason, but not counted. -/
def owed : Pc → Nat → Nat
  | .derefRestore i _ bias, j | .derefReason i _ bias, j
  | .lastReason i _ bias _, j => if j = i then bias else 0
  | _, _ => 0

/-- References that are counted, but not noted for a reason. -/
def ahead : Pc → Nat → Nat
  | .refReason _ i _ _, j => if j = i then 1 else 0
  | _, _ => 0

/-- The inode whose creation has not returned. -/
def creating : Pc → Option Nat
  | .createLock i | .createInsert i | .createUnlock i | .createPublish i
  | .createCount i | .createTable i | .createCheck i => some i
  | _ => none

/-- The inode whose last reference the thread has, as far as it knows. -/
def dropping : Pc → Option Nat
  | .derefRestore i _ _ | .lastUnlock i _ _ | .lastLock i _ _ | .lastSub i _ _ => some i
  | _ => none

/-- The inode whose last reference the thread has dropped. -/
def freeing : Pc → Option Nat
  | .lastReason i _ _ _ | .freeRemove i | .freeUnlock i | .freeCount i
  | .freeObject i => some i
  | _ => none

/-- The inode that the thread will free. -/
def claiming (pc : Pc) : Option Nat := pc.dropping <|> pc.freeing

/-- The count of a reason that is about to follow the count of the inode. -/
def adding : Pc → Option (Nat × Reason)
  | .refReason _ i r _ => some (i, r)
  | _ => none

/-- The same, when references are dropped. -/
def removing : Pc → Option (Nat × Reason)
  | .derefReason i r _ => some (i, r)
  | _ => none

end Pc

/-- The steps that the program gets right:

* the number of a new inode is not in use, and not that of the root; the
  number that is looked up is not zero,
* a lookup finds an inode only after `BitbucketCreateInode` has returned it,
* when a thread adds a reference, no thread has seen that it holds the last
  one and not yet dropped it, and no thread stands between the count of the
  inode and the count of the same reason,
* the counts do not wrap around. -/
def Undisturbed {θ : Type} (p : Pool θ Pc (Shared θ)) (a : θ × Act θ) : Prop :=
  match p.pcs a.1 with
  | .idle =>
    match a.2 with
    | .create ino => ino ≠ BitVec.ofNat 64 fuseRootId ∧
      ∀ i < p.shared.next, p.shared.live i = true → p.shared.ino i ≠ ino
    | .lookup ino => ino ≠ 0#64
    | _ => True
  | .refLock (some _) i _ => p.shared.created i = true
  | .refCount _ i r => p.shared.referenceCount i + 1 < 2 ^ 64 ∧
      ∀ u, (p.pcs u).dropping ≠ some i ∧ (p.pcs u).adding ≠ some (i, r) ∧
        (p.pcs u).removing ≠ some (i, r)
  | .refReason _ i r _ => p.shared.referenceReasons i r + 1 < 2 ^ 32
  | _ => True

instance {θ : Type} [Fintype θ] (p : Pool θ Pc (Shared θ)) (a : θ × Act θ) :
    Decidable (Undisturbed p a) := by
  unfold Undisturbed
  split <;> try split
  all_goals infer_instance

end Finesse.Bitbucket.Threads
