import Finesse.Errno
import Finesse.Lib.Prog
import Finesse.Bitbucket.File

/-!
# Inodes

`object.c` and `inode.c`, as one request at a time sees them: reference
counted inodes, kept apart by the reason for which each reference is held,
and the table that finds an inode by its number.

Inodes are named by their addresses, which are never used twice. Each field
of the volume is the value of one field in every inode. A failed assertion is
`none`, and so is any use of an inode that was freed, since its magic number
is gone. Locks and the hash buckets of the table are left to other modules, and
extended attributes are left out: `setxattr` never stores one.
-/

namespace Finesse.Bitbucket

open Prog Function

abbrev Name := List Char

inductive InodeType where
  | dir
  | file
  | symlink
deriving DecidableEq, Repr

/-- The reasons of `bitbucket_inode_t` references. -/
inductive Reason where
  | lookup
  | parent
  | dirent
  | enum
  | removeDirent
  | fuseLookup
  | fuseOpen
  | fuseOpendir
deriving DecidableEq, Repr

/-- `bitbucket_dir_entry_t`. -/
structure DirEntry where
  name : Name
  inode : Nat
  offset : Nat
deriving DecidableEq, Repr

/-- `bitbucket_inode_t` without the parts that are fields of their own in
the volume. -/
structure Inode where
  inodeType : InodeType
  /-- `st_ino` -/
  ino : Nat
  /-- `st_mode` -/
  mode : Nat
  /-- `st_nlink` -/
  nlink : Nat
  epoch : Nat
  /-- the storage of a regular file -/
  file : File
  /-- the contents of a symbolic link -/
  link : Name

/-- What the kernel was given and has not given back for an inode: entries,
open files and open directories. -/
structure Kernel where
  lookups : Nat
  opens : Nat
  opendirs : Nat
deriving DecidableEq, Repr

/-- A mounted volume. -/
structure Volume where
  inode : Nat → Inode
  /-- `Directory.Entries` and `Directory.Children` -/
  entries : Nat → List DirEntry
  /-- `Directory.Parent` -/
  parent : Nat → Option Nat
  referenceCount : Nat → Nat
  /-- how many references there are for a reason; see `reasonField` -/
  referenceReasons : Nat → Reason → Nat
  /-- the inode was created and not freed since -/
  live : Nat → Bool
  /-- addresses from here on were never used -/
  next : Nat
  unused : ∀ i, next ≤ i → live i = false
  /-- the inode table -/
  table : Nat → Option Nat
  /-- `RootDirectory` -/
  root : Nat
  /-- `BitbucketMagicDirectories` -/
  magic : List Nat
  kernel : Nat → Kernel

abbrev M := Prog Volume

namespace Volume

def inodeType (s : Volume) (i : Nat) : InodeType := (s.inode i).inodeType

def setInode (s : Volume) (i : Nat) (f : Inode → Inode) : Volume :=
  { s with inode := update s.inode i (f (s.inode i)) }

def setEntries (s : Volume) (d : Nat) (f : List DirEntry → List DirEntry) : Volume :=
  { s with entries := update s.entries d (f (s.entries d)) }

def setParent (s : Volume) (d : Nat) (p : Option Nat) : Volume :=
  { s with parent := update s.parent d p }

def setKernel (s : Volume) (i : Nat) (f : Kernel → Kernel) : Volume :=
  { s with kernel := update s.kernel i (f (s.kernel i)) }

/-- The counts of an inode after `n` references for `r` were added. -/
def addReferences (s : Volume) (i : Nat) (r : Reason) (n : Nat) : Volume :=
  { s with
    referenceCount :=
      update s.referenceCount i (s.referenceCount i + n)
    referenceReasons := update s.referenceReasons i
      (update (s.referenceReasons i) r (s.referenceReasons i r + n)) }

/-- The counts of an inode after `n` references for `r` were dropped. -/
def dropReferences (s : Volume) (i : Nat) (r : Reason) (n : Nat) : Volume :=
  { s with
    referenceCount :=
      update s.referenceCount i (s.referenceCount i - n)
    referenceReasons := update s.referenceReasons i
      (update (s.referenceReasons i) r (s.referenceReasons i r - n)) }

/-- The field `ReferenceReasons`, a `uint32_t` that wraps. -/
def reasonField (s : Volume) (i : Nat) (r : Reason) : BitVec 32 :=
  BitVec.ofNat 32 (s.referenceReasons i r)

theorem reasonField_addReferences (s : Volume) (i : Nat) (r : Reason) (n : Nat) :
    (s.addReferences i r n).reasonField i r = s.reasonField i r + BitVec.ofNat 32 n := by
  simp [reasonField, addReferences, BitVec.ofNat_add]

/-- What is asserted of the field before it is lowered holds of the number too, so
whatever the field allows is taken from the number. -/
theorem reasonField_dropReferences {s : Volume} {i : Nat} {r : Reason} {n : Nat}
    (h : n ≤ (s.reasonField i r).toNat) : n ≤ s.referenceReasons i r ∧
      (s.dropReferences i r n).reasonField i r = s.reasonField i r - BitVec.ofNat 32 n := by
  rw [reasonField, BitVec.toNat_ofNat] at h
  have hle := Nat.le_trans h (Nat.mod_le _ _)
  refine ⟨hle, BitVec.eq_of_toNat_eq ?_⟩
  simp only [reasonField, dropReferences, update_self, BitVec.toNat_sub, BitVec.toNat_ofNat]
  omega

/-- The inode is freed, and the entry under its number leaves the table. -/
def free (s : Volume) (i : Nat) : Volume :=
  { s with
    live := update s.live i false
    unused := fun j hj => by
      by_cases h : j = i
      · rw [h, update_self]
      · rw [update_of_ne h, s.unused j hj]
    table := update s.table (s.inode i).ino none }

end Volume

def fuseRootId : Nat := 1

/-- `CHECK_BITBUCKET_INODE_MAGIC`. -/
def checkMagic (i : Nat) : M Unit := do
  let s ← get
  assert (s.live i = true)

def bitbucketReferenceInode (i : Nat) (r : Reason) : M Unit := do
  checkMagic i
  let s ← get
  -- no 0 -> 1 transitions
  assert (s.referenceCount i ≠ 0)
  assert (s.referenceReasons i r ≤ s.referenceCount i)
  modify fun s => s.addReferences i r 1

/-- The `Deallocate` function of a file gives its memory back. -/
def fileDeallocate (f : File) : M Unit :=
  match f.map, f.storage with
  | .null, _ => pure ()
  | .dangling, none => assert False
  | _, none => pure ()
  | _, some _ => assert (f.size ≠ 0)

/-- The `Deallocate` function of an inode's type. -/
def registeredDeallocate (s : Volume) (i : Nat) : M Unit :=
  match s.inodeType i with
  | .dir => assert (s.entries i = [])
  | .file => fileDeallocate (s.inode i).file
  | .symlink => pure ()

def inodeDeallocate (i : Nat) : M Unit := do
  let s ← get
  assert ((s.table (s.inode i).ino).isSome = true)
  registeredDeallocate s i
  modify fun s => s.free i

def bitbucketDereferenceInode (i : Nat) (r : Reason) (bias : Nat) : M Unit := do
  checkMagic i
  let s ← get
  assert (bias ≤ s.referenceCount i)
  assert (bias ≤ s.referenceReasons i r)
  modify fun s => s.dropReferences i r bias
  if s.referenceCount i = bias then inodeDeallocate i else pure ()

def bitbucketLookupInodeInTable (ino : Nat) : M (Option Nat) := do
  assert (ino ≠ 0)
  let s ← get
  match s.table ino with
  | none => pure none
  | some i => do
    bitbucketReferenceInode i .lookup
    pure (some i)

/-- The first lines of most handlers: the inode under a number, with a lookup
reference. The root directory has a number of its own. -/
def lookupInode (ino : Nat) : M (Option Nat) := do
  let s ← get
  if ino = fuseRootId then do
    bitbucketReferenceInode s.root .lookup
    pure (some s.root)
  else bitbucketLookupInodeInTable ino

/-- `BitbucketLockInode`, exclusive: the epoch moves on. -/
def bitbucketLockInode (i : Nat) : M Unit := do
  checkMagic i
  modify fun s => s.setInode i fun n => { n with epoch := n.epoch + 1 }

/-- `BitbucketLockTwoInodes`, exclusive. -/
def bitbucketLockTwoInodes (i j : Nat) : M Unit := do
  assert (i ≠ j)
  bitbucketLockInode i
  bitbucketLockInode j

/-- What `InodeInitialize` takes from outside: the number that
`get_new_inode_number` hands out, and the epoch from `rand`. -/
structure NewInode where
  ino : Nat
  epoch : Nat
deriving DecidableEq, Repr

/-- `S_IFMT` and the types of `st_mode`. -/
def sIFMT : Nat := 0o170000
def sIFDIR : Nat := 0o040000
def sIFREG : Nat := 0o100000
def sIFLNK : Nat := 0o120000

def sIsDir (mode : Nat) : Bool := mode &&& sIFMT = sIFDIR

/-- An inode as `InodeInitialize` and the `Initialize` function of its type
make it. -/
def initialInode (t : InodeType) (new : NewInode) (storageDir : Bool) : Inode :=
  let mode := match t with
    | .dir => sIFDIR
    | .file => sIFREG
    | .symlink => sIFLNK
  { inodeType := t
    ino := new.ino
    mode := 0o777 ||| mode
    nlink := if t = .dir then 1 else 0
    epoch := new.epoch
    file := .create storageDir
    link := [] }

/-- The volume with a new inode, which has the reference of its creator. A
number that is in the table already is not entered again. -/
def Volume.create (s : Volume) (t : InodeType) (new : NewInode) (storageDir : Bool) : Volume :=
  { s with
    inode := update s.inode s.next (initialInode t new storageDir)
    entries := update s.entries s.next []
    parent := update s.parent s.next none
    referenceCount := update s.referenceCount s.next 1
    referenceReasons := update s.referenceReasons s.next fun r =>
      if r = Reason.lookup then 1 else 0
    live := update s.live s.next true
    next := s.next + 1
    unused := fun j hj => by
      rw [update_of_ne (by omega), s.unused j (by omega)]
    table := if (s.table new.ino).isSome then s.table
      else update s.table new.ino (some s.next)
    kernel := update s.kernel s.next ⟨0, 0, 0⟩ }

def bitbucketCreateInode (t : InodeType) (new : NewInode) (storageDir : Bool) : M Nat := do
  assert (new.ino ≠ fuseRootId)
  assert (new.ino ≠ 0)
  let s ← get
  set (s.create t new storageDir)
  pure s.next

/-! ## What these functions do

One lemma for each function that has returned: the assertions that held and
the next state. -/

section Inversion

variable {s s' : Volume} {i j : Nat} {r : Reason} {u : Unit}

theorem Volume.lt_next_of_live (h : s.live i = true) : i < s.next := by
  by_contra hlt
  rw [s.unused i (Nat.le_of_not_lt hlt)] at h
  cases h

theorem checkMagic_inv (h : checkMagic i s = some (u, s')) : s.live i = true ∧ s = s' := by
  have h := get_bind_inv h
  obtain ⟨hl, rfl⟩ := assert_inv h
  exact ⟨hl, rfl⟩

theorem reference_inv (h : bitbucketReferenceInode i r s = some (u, s')) :
    s.live i = true ∧ s.referenceCount i ≠ 0 ∧ s.referenceReasons i r ≤ s.referenceCount i ∧
      s' = s.addReferences i r 1 := by
  obtain ⟨_, s1, hm, h⟩ := bind_inv h
  obtain ⟨hl, rfl⟩ := checkMagic_inv hm
  obtain ⟨hc, h⟩ := assert_bind_inv (get_bind_inv h)
  obtain ⟨hr, h⟩ := assert_bind_inv h
  exact ⟨hl, hc, hr, modify_inv h⟩

theorem fileDeallocate_inv {f : File} (h : fileDeallocate f s = some (u, s')) : s = s' := by
  rw [fileDeallocate] at h
  cases hm : f.map <;> cases hs : f.storage <;> rw [hm, hs] at h
  all_goals first
    | exact (pure_inv h).2
    | exact (assert_inv h).2

theorem registeredDeallocate_inv {t : Volume} (h : registeredDeallocate t i s = some (u, s')) :
    (t.inodeType i = .dir → t.entries i = []) ∧ s = s' := by
  rw [registeredDeallocate] at h
  cases ht : t.inodeType i with
  | dir =>
    rw [ht] at h
    obtain ⟨he, hs⟩ := assert_inv h
    exact ⟨fun _ => he, hs⟩
  | file =>
    rw [ht] at h
    exact ⟨nofun, fileDeallocate_inv h⟩
  | symlink =>
    rw [ht] at h
    exact ⟨nofun, (pure_inv h).2⟩

theorem inodeDeallocate_inv (h : inodeDeallocate i s = some (u, s')) :
    (s.table (s.inode i).ino).isSome = true ∧
      (s.inodeType i = .dir → s.entries i = []) ∧ s' = s.free i := by
  obtain ⟨ht, h⟩ := assert_bind_inv (get_bind_inv h)
  obtain ⟨_, s1, hd, h⟩ := bind_inv h
  obtain ⟨he, rfl⟩ := registeredDeallocate_inv hd
  exact ⟨ht, he, modify_inv h⟩

theorem dereference_inv {bias : Nat} (h : bitbucketDereferenceInode i r bias s = some (u, s')) :
    s.live i = true ∧ bias ≤ s.referenceCount i ∧ bias ≤ s.referenceReasons i r ∧
      if s.referenceCount i = bias then
        (s.inodeType i = .dir → s.entries i = []) ∧ s' = (s.dropReferences i r bias).free i
      else s' = s.dropReferences i r bias := by
  obtain ⟨_, s1, hm, h⟩ := bind_inv h
  obtain ⟨hl, rfl⟩ := checkMagic_inv hm
  obtain ⟨hc, h⟩ := assert_bind_inv (get_bind_inv h)
  obtain ⟨hr, h⟩ := assert_bind_inv h
  have h := modify_bind_inv h
  refine ⟨hl, hc, hr, ?_⟩
  split
  · next he =>
    rw [if_pos he] at h
    exact (inodeDeallocate_inv h).2
  · next he =>
    rw [if_neg he] at h
    exact (pure_inv h).2.symm

theorem dereference_inode {bias : Nat} (h : bitbucketDereferenceInode i r bias s = some (u, s')) :
    s'.inode = s.inode := by
  obtain ⟨-, -, -, h⟩ := dereference_inv h
  split at h
  · rw [h.2]
    rfl
  · rw [h]
    rfl

/-- The state after a lookup: what was found has a reference. -/
def Volume.Looked (s s' : Volume) : Option Nat → Prop
  | none => s = s'
  | some i => s.live i = true ∧ s' = s.addReferences i .lookup 1

namespace Volume.Looked

variable {x : Option Nat}

variable (h : s.Looked s' x)
include h

theorem inode : s'.inode = s.inode := by
  cases x with
  | none => rw [show s = s' from h]
  | some i => rw [h.2]; rfl

theorem entries : s'.entries = s.entries := by
  cases x with
  | none => rw [show s = s' from h]
  | some i => rw [h.2]; rfl

theorem table : s'.table = s.table := by
  cases x with
  | none => rw [show s = s' from h]
  | some i => rw [h.2]; rfl

theorem root : s'.root = s.root := by
  cases x with
  | none => rw [show s = s' from h]
  | some i => rw [h.2]; rfl

end Volume.Looked

theorem lookupInTable_inv {ino : Nat} {o : Option Nat}
    (h : bitbucketLookupInodeInTable ino s = some (o, s')) : o = s.table ino ∧ s.Looked s' o := by
  obtain ⟨-, h⟩ := assert_bind_inv h
  have h := get_bind_inv h
  cases ht : s.table ino with
  | none =>
    rw [ht] at h
    obtain ⟨rfl, rfl⟩ := pure_inv h
    exact ⟨rfl, rfl⟩
  | some i =>
    rw [ht] at h
    obtain ⟨_, s1, hr, h⟩ := bind_inv h
    obtain ⟨rfl, rfl⟩ := pure_inv h
    obtain ⟨hl, -, -, hs⟩ := reference_inv hr
    exact ⟨rfl, hl, hs⟩

/-- The inode under a number. -/
def Volume.resolve (s : Volume) (ino : Nat) : Option Nat :=
  if ino = fuseRootId then some s.root else s.table ino

theorem lookupInode_inv {ino : Nat} {o : Option Nat} (h : lookupInode ino s = some (o, s')) :
    o = s.resolve ino ∧ s.Looked s' o := by
  have h := get_bind_inv h
  rw [Volume.resolve]
  split at h
  · next hino =>
    obtain ⟨_, s1, hr, h⟩ := bind_inv h
    obtain ⟨rfl, rfl⟩ := pure_inv h
    obtain ⟨hl, -, -, hs⟩ := reference_inv hr
    rw [if_pos hino]
    exact ⟨rfl, hl, hs⟩
  · next hino =>
    rw [if_neg hino]
    exact lookupInTable_inv h

theorem Volume.inodeType_setInode {f : Inode → Inode}
    (hf : ∀ k, (f k).inodeType = k.inodeType) : (s.setInode i f).inodeType = s.inodeType := by
  funext j
  by_cases hj : j = i
  · subst hj
    simp [Volume.setInode, Volume.inodeType, hf]
  · simp [Volume.setInode, Volume.inodeType, hj]

/-- The state after an inode was locked. -/
def Volume.tick (s : Volume) (i : Nat) : Volume :=
  s.setInode i fun n => { n with epoch := n.epoch + 1 }

theorem Volume.inodeType_tick (s : Volume) (i : Nat) : (s.tick i).inodeType = s.inodeType :=
  inodeType_setInode fun _ => rfl

theorem lockInode_inv (h : bitbucketLockInode i s = some (u, s')) :
    s.live i = true ∧ s' = s.tick i := by
  obtain ⟨_, s1, hm, h⟩ := bind_inv h
  obtain ⟨hl, rfl⟩ := checkMagic_inv hm
  exact ⟨hl, modify_inv h⟩

theorem lockTwoInodes_inv (h : bitbucketLockTwoInodes i j s = some (u, s')) :
    i ≠ j ∧ s.live i = true ∧ s.live j = true ∧ s' = (s.tick i).tick j := by
  obtain ⟨hne, h⟩ := assert_bind_inv h
  obtain ⟨_, s1, hi, h⟩ := bind_inv h
  obtain ⟨hl, rfl⟩ := lockInode_inv hi
  obtain ⟨hl', hs⟩ := lockInode_inv h
  exact ⟨hne, hl, hl', hs⟩

theorem createInode_inv {t : InodeType} {new : NewInode} {storageDir : Bool}
    (h : bitbucketCreateInode t new storageDir s = some (i, s')) :
    new.ino ≠ fuseRootId ∧ new.ino ≠ 0 ∧ i = s.next ∧ s' = s.create t new storageDir := by
  obtain ⟨h1, h⟩ := assert_bind_inv h
  obtain ⟨h0, h⟩ := assert_bind_inv h
  cases h
  exact ⟨h1, h0, rfl, rfl⟩

end Inversion

/-! ## When they return -/

section Returning

variable {s s' : Volume} {i ino b : Nat} {r : Reason}

theorem checkMagic_eq (hl : s.live i = true) : checkMagic i s = some ((), s) := assert_pos hl s

theorem reference_eq (hl : s.live i = true) (hc : s.referenceCount i ≠ 0)
    (hr : s.referenceReasons i r ≤ s.referenceCount i) :
    bitbucketReferenceInode i r s = some ((), s.addReferences i r 1) := by
  rw [bitbucketReferenceInode, bind_some (checkMagic_eq hl), get_bind,
    bind_some (assert_pos hc s), bind_some (assert_pos hr s)]
  rfl

theorem dereference_eq (hl : s.live i = true) (hc : b < s.referenceCount i)
    (hr : b ≤ s.referenceReasons i r) :
    bitbucketDereferenceInode i r b s = some ((), s.dropReferences i r b) := by
  rw [bitbucketDereferenceInode, bind_some (checkMagic_eq hl), get_bind,
    bind_some (assert_pos (Nat.le_of_lt hc) s), bind_some (assert_pos hr s), modify_bind,
    if_neg (Nat.ne_of_gt hc)]
  rfl

theorem lockInode_eq (hl : s.live i = true) : bitbucketLockInode i s = some ((), s.tick i) :=
  (bind_some (checkMagic_eq hl)).trans rfl

variable (hino : ino ≠ 0) (href : bitbucketReferenceInode i .lookup s = some ((), s'))
include hino href

theorem lookupInTable_eq (hi : s.table ino = some i) :
    bitbucketLookupInodeInTable ino s = some (some i, s') := by
  rw [bitbucketLookupInodeInTable, bind_some (assert_pos hino s), get_bind, hi]
  exact bind_some href

theorem lookupInode_eq (hi : s.resolve ino = some i) : lookupInode ino s = some (some i, s') := by
  rw [Volume.resolve] at hi
  rw [lookupInode, get_bind]
  split at hi
  · next hroot =>
    rw [if_pos hroot, Option.some.inj hi]
    exact bind_some href
  · next hroot =>
    rw [if_neg hroot]
    exact lookupInTable_eq hino href hi

end Returning

end Finesse.Bitbucket
