import Finesse.Utils.Murmur

/-!
# The object table

`fastlookup.c`: a hash table of objects that are found by inode number and
by uuid. Every entry is on two lists, one in the bucket of its inode number
and one in the bucket of its uuid, and every bucket remembers the entry it
found last. An entry carries a reference count; it leaves the table when
the count reaches zero.

Entries live in a heap and are named by their address. The table never
returns memory: with `UseFreedLists` set, an unlinked entry is marked as
freed and put on lists that nothing reads. An assertion that fails is
`none`. Locks and the hash that guards a bucket's list heads are left to other
modules: this is the table as one caller at a time sees it.
-/

namespace Finesse.Utils

abbrev Inode := BitVec 64
abbrev Uuid := BitVec 128

/-- `lookup_entry_t`, with the fields of its `finesse_object_t`. -/
structure LookupEntry where
  referenceCount : Nat
  inode : Inode
  uuid : Uuid
  freed : Bool
deriving DecidableEq, Repr

/-- `lookup_entry_table_bucket_t`. -/
structure Bucket where
  entryCount : Nat
  lastEntry : Option Nat
  inodeTableEntry : List Nat
  uuidTableEntry : List Nat

/-- `lookup_entry_table_t`, with the heap of its entries. Addresses below
`allocated` are in use. -/
structure Table where
  bucketCountShift : Nat
  hashSeed : BitVec 32
  entryCount : Nat
  buckets : Nat → Bucket
  entries : Nat → LookupEntry
  allocated : Nat

/-- A key of `lookup_entry`: an inode number, or a uuid. -/
inductive Key where
  | inode (i : Inode)
  | uuid (u : Uuid)
deriving DecidableEq, Repr

/-- The key of an entry, of the same kind as `k`. -/
def LookupEntry.keyLike (e : LookupEntry) : Key → Key
  | .inode _ => .inode e.inode
  | .uuid _ => .uuid e.uuid

def LookupEntry.matches (e : LookupEntry) (k : Key) : Bool := e.keyLike k = k

/-- The list of a bucket that a key is searched in. -/
def Bucket.list (b : Bucket) : Key → List Nat
  | .inode _ => b.inodeTableEntry
  | .uuid _ => b.uuidTableEntry

namespace Table

/-- `GetBucketIndexForInode` and `GetBucketIndexForUuid`. -/
def bucketIndex (t : Table) : Key → Nat
  | .inode i => getBucketIndex t.bucketCountShift t.hashSeed (bytes i 8)
  | .uuid u => getBucketIndex t.bucketCountShift t.hashSeed (bytes u 16)

def setBucket (t : Table) (i : Nat) (f : Bucket → Bucket) : Table :=
  { t with buckets := Function.update t.buckets i (f (t.buckets i)) }

def setEntry (t : Table) (a : Nat) (f : LookupEntry → LookupEntry) : Table :=
  { t with entries := Function.update t.entries a (f (t.entries a)) }

/-- `__atomic_fetch_add` of an entry's reference count. -/
def addReference (t : Table) (a : Nat) : Table :=
  t.setEntry a fun e => { e with referenceCount := e.referenceCount + 1 }

/-- `__atomic_fetch_sub` of an entry's reference count. -/
def dropReference (t : Table) (a : Nat) : Table :=
  t.setEntry a fun e => { e with referenceCount := e.referenceCount - 1 }

end Table

/-- The default table: `FinesseCreateTable` asks `CreateLookupTable` for a
power of two of buckets and the default seed. -/
def createLookupTable (shift : Nat) : Table where
  bucketCountShift := shift
  hashSeed := 0x7800c666#32
  entryCount := 0
  buckets := fun _ => ⟨0, none, [], []⟩
  entries := fun _ => ⟨0, 0#64, 0#128, false⟩
  allocated := 0

/-- The loop of `FinesseCreateTable`: the place of the highest bit. -/
def highBit : Nat → Nat → Nat → Nat
  | 0, _, index => index
  | fuel + 1, count, index =>
    if count >>> index = 1 then index else highBit fuel count (index + 1)

def finesseCreateTable (estimatedSize : Nat) : Table :=
  let count := estimatedSize / 1024
  let count := if count = 0 then 10240 else count
  let count := max 1024 count
  let count := min count 32768
  createLookupTable (highBit 6 count 10)

/-- `lookup_entry`: the entry under a key in bucket `i`, first in the
one-entry cache and then on the bucket's list. No reference is added. -/
def lookupEntry (t : Table) (i : Nat) (k : Key) : Option Nat × Table :=
  let cached := (t.buckets i).lastEntry.filter fun a => (t.entries a).matches k
  match cached with
  | some a => (some a, t)
  | none =>
    match ((t.buckets i).list k).find? fun a => (t.entries a).matches k with
    | some a => (some a, t.setBucket i fun b => { b with lastEntry := some a })
    | none => (none, t)

def finesseObjectLookupByIno (t : Table) (ino : Inode) : Option (Option Nat × Table) :=
  if ino = 0#64 then none
  else
    match lookupEntry t (t.bucketIndex (.inode ino)) (.inode ino) with
    | (some a, t') => some (some a, t'.addReference a)
    | (none, t') => some (none, t')

def finesseObjectLookupByUuid (t : Table) (uuid : Uuid) : Option (Option Nat × Table) :=
  if uuid = 0#128 then none
  else
    match lookupEntry t (t.bucketIndex (.uuid uuid)) (.uuid uuid) with
    | (some a, t') =>
      -- no 0 -> 1 transitions
      if (t'.entries a).referenceCount = 0 then none
      else some (some a, t'.addReference a)
    | (none, t') => some (none, t')

/-- `__atomic_compare_exchange_n` of a bucket's cache with NULL: on failure
the expected value is overwritten by the one found. -/
def clearCache (t : Table) (i : Nat) (expected : Option Nat) : Option Nat × Table :=
  if (t.buckets i).lastEntry = expected then
    (expected, t.setBucket i fun b => { b with lastEntry := none })
  else ((t.buckets i).lastEntry, t)

/-- The end of `release_entry`. Both exchanges name the first bucket, and
both pass the address of the local `Entry`. -/
def invalidateCaches (t : Table) (first second : Nat) (a : Nat) : Table :=
  let (e, t) := clearCache t first (some a)
  let (e, t) := clearCache t first e
  let t := if (t.buckets first).lastEntry = e then
    t.setBucket first fun b => { b with lastEntry := none } else t
  if (t.buckets second).lastEntry = e then
    t.setBucket second fun b => { b with lastEntry := none }
  else t

/-- The part of `release_entry` that takes an entry out of the table. -/
def unlinkEntry (t : Table) (a : Nat) : Table :=
  let e := t.entries a
  let i := t.bucketIndex (.inode e.inode)
  let u := t.bucketIndex (.uuid e.uuid)
  let t := t.setBucket i fun b =>
    { b with inodeTableEntry := b.inodeTableEntry.erase a }
  let t := t.setBucket u fun b =>
    { b with uuidTableEntry := b.uuidTableEntry.erase a }
  let t := t.setBucket (min i u) fun b =>
    { b with entryCount := b.entryCount - 1 }
  let t := t.setBucket (max i u) fun b =>
    { b with entryCount := b.entryCount - 1 }
  let t := t.setEntry a fun e => { e with freed := true }
  invalidateCaches t (min i u) (max i u) a

def releaseEntry (t : Table) (a : Nat) : Table :=
  let refCount := (t.entries a).referenceCount
  let t := t.dropReference a
  if refCount = 1 then unlinkEntry t a else t

/-- `FinesseObjectRelease`, for the object of the entry at `obj`. When the
count drops to zero under the shared lock it is put back, and what the
addition returns decides whether `release_entry` follows. -/
def finesseObjectRelease (t : Table) (obj : Nat) : Option Table :=
  let uuid := (t.entries obj).uuid
  if uuid = 0#128 then none
  else
    match lookupEntry t (t.bucketIndex (.uuid uuid)) (.uuid uuid) with
    | (none, _) => none
    | (some a, t) =>
      let refCount := (t.entries a).referenceCount
      if refCount = 0 then none
      else
        let t := t.dropReference a
        let (refCount, t) :=
          if refCount = 1 then
            ((t.entries a).referenceCount, t.addReference a)
          else (refCount, t)
        if refCount = 1 then some (releaseEntry t a) else some t

/-- The part of `insert_entry` that adds a new entry, with two references,
to the bucket of its inode number and to the bucket of its uuid. -/
def linkEntry (t : Table) (ino : Inode) (uuid : Uuid) : Table :=
  let a := t.allocated
  let t := { t with allocated := a + 1 }
  let t := t.setEntry a fun _ => ⟨2, ino, uuid, false⟩
  let t := t.setBucket (t.bucketIndex (.inode ino)) fun b =>
    { b with
      inodeTableEntry := b.inodeTableEntry ++ [a]
      entryCount := b.entryCount + 1 }
  t.setBucket (t.bucketIndex (.uuid uuid)) fun b =>
    { b with
      uuidTableEntry := b.uuidTableEntry ++ [a]
      entryCount := b.entryCount + 1 }

/-- `insert_entry`. The second lookup is for the uuid, in the bucket of the
inode number. -/
def insertEntry (t : Table) (ino : Inode) (uuid : Uuid) : Option (Nat × Table) :=
  let i := t.bucketIndex (.inode ino)
  match lookupEntry t i (.inode ino) with
  | (some a, t) =>
    if (t.entries a).freed then none else some (a, t.addReference a)
  | (none, t) =>
    match lookupEntry t i (.uuid uuid) with
    | (some _, _) => none
    | (none, t) => some (t.allocated, linkEntry t ino uuid)

def finesseObjectCreate (t : Table) (ino : Inode) (uuid : Uuid) : Option (Nat × Table) :=
  if ino = 0#64 ∨ uuid = 0#128 then none else insertEntry t ino uuid

/-- `FinesseObjectGetTableSize`, and `finesse_object_get_table_size`, which is
what a server tells its clients as the number of active name maps. -/
def finesseObjectGetTableSize (t : Table) : Nat := t.entryCount

end Finesse.Utils
