import Finesse.Bitbucket.Directory

/-!
# Requests on names

The handlers of the bitbucket file system that look up, make, move and remove
names, one function for each. Handlers find the inode of a number with a
lookup reference, which they drop before they return. What the kernel is
given in a reply (an entry, an open file) it holds until it gives it back.
-/

namespace Finesse.Bitbucket

open Prog (assert)

/-- The options of `bitbucket_userdata_t` that the handlers read. -/
structure Userdata where
  storageDir : Bool
  noXattr : Bool
  flushEnable : Bool
  fsyncDisable : Bool
deriving DecidableEq, Repr

/-- No option is set. -/
abbrev Userdata.plain : Userdata := ⟨false, false, false, false⟩

/-- `fuse_add_direntry`: an entry of a directory in a reply. -/
structure Dirent where
  name : Name
  ino : Nat
  offset : Nat
deriving DecidableEq, Repr

/-- What a handler sends to the kernel. -/
inductive Reply where
  | err (status : Int)
  | entry (ino : Nat)
  | create (ino : Nat)
  | opened
  | attr (ino mode size : Nat)
  | write (count : Nat)
  | buf (bytes : List UInt8)
  | link (contents : Name)
  | dirents (packed : List Dirent)
  | statfs
  | seek (off : Nat)
  | xattr (count : Nat)
  /-- `fuse_reply_none` -/
  | none
deriving DecidableEq, Repr

/-- `mode & ~S_IFMT`. -/
def permissions (mode : Nat) : Nat := mode - (mode &&& sIFMT)

/-- `st_size`. -/
def Inode.size (n : Inode) : Nat :=
  match n.inodeType with
  | .dir => 4096
  | .file => n.file.size
  | .symlink => 0

/-! ## What the kernel is given -/

/-- `fuse_reply_entry`. -/
def replyEntry (i : Nat) : M Reply := do
  modify fun s => s.setKernel i fun k => { k with lookups := k.lookups + 1 }
  let s ← get
  pure (.entry (s.inode i).ino)

/-- `fuse_reply_create`. -/
def replyCreate (i : Nat) : M Reply := do
  modify fun s => s.setKernel i fun k =>
    { k with lookups := k.lookups + 1, opens := k.opens + 1 }
  let s ← get
  pure (.create (s.inode i).ino)

/-- Drop the lookup reference that a handler holds. -/
def dropLookup (i : Nat) : M Unit := bitbucketDereferenceInode i .lookup 1

/-! ## Names -/

/-- `bitbucket_internal_lookup`. -/
def bitbucketLookup (parent : Nat) (name : Name) : M (List Reply) := do
  let p ← lookupInode parent
  match p with
  | none => pure [.err EBADF]
  | some p => do
    let i ← bitbucketLookupObjectInDirectory p name
    match i with
    | none => do
      dropLookup p
      pure [.err ENOENT]
    | some i => do
      bitbucketReferenceInode i .fuseLookup
      let reply ← replyEntry i
      dropLookup p
      dropLookup i
      pure [reply]

/-- `bitbucket_internal_mkdir`. -/
def bitbucketMkdir (parent : Nat) (name : Name) (mode : Nat) (new : NewInode) : M (List Reply) := do
  let p ← lookupInode parent
  match p with
  | none => pure [.err ENOENT]
  | some p => do
    let s ← get
    if !sIsDir (s.inode p).mode then do
      dropLookup p
      pure [.err ENOTDIR]
    else do
      let i ← bitbucketCreateDirectory p name new
      modify fun s => s.setInode i fun n =>
        { n with mode := (n.mode &&& sIFMT) ||| permissions mode }
      bitbucketReferenceInode i .fuseLookup
      let reply ← replyEntry i
      dropLookup p
      dropLookup i
      pure [reply]

/-- The switch of `bitbucket_internal_create`: the types that are not
implemented are assertions. -/
def createByMode (u : Userdata) (p : Nat) (name : Name) (mode : Nat)
    (new : NewInode) : M (Option Nat) :=
  let mask := mode &&& sIFMT
  if mask = sIFDIR then do
    let i ← bitbucketCreateDirectory p name new
    pure (some i)
  else if mask = 0 ∨ mask = sIFREG then do
    let i ← bitbucketCreateFile p name new u.storageDir
    pure (some i)
  else if mask = 0o020000 ∨ mask = 0o060000 ∨ mask = 0o010000 ∨
      mask = sIFLNK ∨ mask = 0o140000 then do
    assert False
    pure none
  else pure none

/-- `bitbucket_internal_create`. A name that exists is replied with an error,
and then an assertion fails. -/
def bitbucketCreate (u : Userdata) (parent : Nat) (name : Name) (mode : Nat)
    (new : NewInode) : M (List Reply) := do
  let p ← lookupInode parent
  match p with
  | none => pure [.err EBADF]
  | some p => do
    let i ← bitbucketLookupObjectInDirectory p name
    assert (i = none)
    let i ← createByMode u p name mode new
    match i with
    | none => do
      dropLookup p
      pure [.err EINVAL]
    | some i => do
      modify fun s => s.setInode i fun n =>
        { n with mode := (mode &&& sIFMT) ||| (mode &&& 0o7777) }
      bitbucketReferenceInode i .fuseLookup
      bitbucketReferenceInode i .fuseOpen
      dropLookup i
      let reply ← replyCreate i
      dropLookup p
      pure [reply]

/-- `bitbucket_internal_symlink`. The parent is found by its number in the
table, where the root directory is not under `FUSE_ROOT_ID`. -/
def bitbucketSymlink (link : Name) (parent : Nat) (name : Name)
    (new : NewInode) : M (List Reply) := do
  assert (link ≠ [])
  assert (name ≠ [])
  let p ← bitbucketLookupInodeInTable parent
  match p with
  | none => pure [.err EBADF]
  | some p => do
    let i ← bitbucketCreateSymlink p name link new
    dropLookup p
    bitbucketReferenceInode i .fuseLookup
    let reply ← replyEntry i
    dropLookup i
    pure [reply]

/-- The loop of `bitbucket_internal_link`. The removal of an entry that is in
the way ends the loop, and its status is not looked at. -/
def linkEntry (p i : Nat) (newname : Name) : M Unit := do
  let status ← bitbucketInsertDirectoryEntry p i newname
  if status = EEXIST then do
    let _ ← bitbucketRemoveFileFromDirectory p newname
    pure ()
  else pure ()

/-- `bitbucket_internal_link`. -/
def bitbucketLink (ino newparent : Nat) (newname : Name) : M (List Reply) := do
  if ino = fuseRootId then pure [.err EISDIR]
  else do
    let i ← bitbucketLookupInodeInTable ino
    match i with
    | none => pure [.err EBADF]
    | some i => do
      let p ← lookupInode newparent
      match p with
      | none => do
        dropLookup i
        pure [.err EBADF]
      | some p => do
        let s ← get
        if s.inodeType i ≠ .file then do
          dropLookup i
          dropLookup p
          pure [.err (if s.inodeType i = .dir then EISDIR else EINVAL)]
        else do
          linkEntry p i newname
          bitbucketReferenceInode i .fuseLookup
          let reply ← replyEntry i
          dropLookup i
          dropLookup p
          pure [reply]

/-- `bitbucket_internal_unlink`. -/
def bitbucketUnlink (parent : Nat) (name : Name) : M (List Reply) := do
  let p ← lookupInode parent
  match p with
  | none => pure [.err EBADF]
  | some p => do
    let s ← get
    if s.inodeType p ≠ .dir then do
      dropLookup p
      pure [.err EISDIR]
    else do
      let status ← bitbucketDeleteDirectoryEntry p name
      dropLookup p
      pure [.err status]

/-- `bitbucket_internal_rmdir`. Only the last way out drops the reference on
the child. -/
def bitbucketRmdir (parent : Nat) (name : Name) : M (List Reply) := do
  let p ← lookupInode parent
  match p with
  | none => pure [.err EBADF]
  | some p => do
    let s ← get
    if s.inodeType p ≠ .dir then do
      dropLookup p
      pure [.err ENOTDIR]
    else do
      let i ← bitbucketLookupObjectInDirectory p name
      match i with
      | none => do
        dropLookup p
        pure [.err ENOENT]
      | some i => do
        let s ← get
        if s.inodeType i ≠ .dir then do
          dropLookup p
          pure [.err ENOTDIR]
        else if 2 < (s.entries i).length then do
          dropLookup p
          pure [.err ENOTEMPTY]
        else do
          let status ← bitbucketDeleteDirectoryEntry p name
          if status ≠ 0 then do
            dropLookup p
            pure [.err status]
          else do
            let status ← bitbucketDeleteDirectory i
            assert (status = 0)
            dropLookup i
            dropLookup p
            pure [.err 0]

def renameNoreplace : Nat := 1
def renameExchange : Nat := 2

/-- The end of `bitbucket_internal_rename`: the old inode gets the new name
and loses the old one. -/
def moveEntry (oldParent newParent oldInode : Nat) (name newname : Name) : M Int := do
  -- otherwise the inode that was replaced has to go in again, and cannot
  insertNew newParent oldInode newname
  bitbucketDeleteDirectoryEntry oldParent name

/-- The part of `bitbucket_internal_rename` for a new name that exists. -/
def replaceEntry (oldParent newParent oldInode newInode : Nat)
    (name newname : Name) (flags : Nat) : M Int := do
  let s ← get
  if newInode = s.root then pure EINVAL
  else if flags &&& renameNoreplace ≠ 0 then pure EEXIST
  else if flags &&& renameExchange ≠ 0 then
    bitbucketExchangeObjectsInDirectory oldParent newParent name newname
  else if s.inodeType newInode = .dir ∧ 1 < (s.entries newInode).length then
    pure ENOTEMPTY
  else do
    let status ← bitbucketDeleteDirectoryEntry newParent newname
    if status ≠ 0 then pure status
    else moveEntry oldParent newParent oldInode name newname

/-- The body of `bitbucket_internal_rename` once both parents are found. The
second result are the inodes under both names, as far as they were looked
up. -/
def renameIn (oldParent newParent : Nat) (name newname : Name) (flags : Nat) :
    M (Int × Option Nat × Option Nat) := do
  let s ← get
  if s.inodeType oldParent ≠ .dir ∨ s.inodeType newParent ≠ .dir then
    pure (ENOTDIR, none, none)
  else do
    let oldInode ← bitbucketLookupObjectInDirectory oldParent name
    match oldInode with
    | none => pure (ENOENT, none, none)
    | some i =>
      if i = s.root then pure (EINVAL, some i, none)
      else do
        let newInode ← bitbucketLookupObjectInDirectory newParent newname
        match newInode with
        | none => do
          let status ← moveEntry oldParent newParent i name newname
          pure (status, some i, none)
        | some j => do
          let status ← replaceEntry oldParent newParent i j name newname flags
          pure (status, some i, some j)

def dropLookup? : Option Nat → M Unit
  | none => pure ()
  | some i => dropLookup i

/-- `bitbucket_internal_rename`. For `.` and `..` no reply is sent. -/
def bitbucketRename (parent : Nat) (name : Name) (newparent : Nat)
    (newname : Name) (flags : Nat) : M (List Reply) := do
  if name = dot ∨ name = dotdot ∨ newname = dot ∨ newname = dotdot then
    pure []
  else do
    let oldParent ← lookupInode parent
    let newParent ← lookupInode newparent
    match oldParent, newParent with
    | some p, some q => do
      let (status, i, j) ← renameIn p q name newname flags
      dropLookup p
      dropLookup q
      dropLookup? i
      dropLookup? j
      pure [.err status]
    | p, q => do
      dropLookup? p
      dropLookup? q
      pure [.err EBADF]

end Finesse.Bitbucket
