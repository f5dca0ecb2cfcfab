import Finesse.Bitbucket.NameRequests
import Finesse.Bitbucket.Pages

/-!
# Requests

The other handlers of the bitbucket file system, and the volume as a machine
that takes one request at a time.

Inputs that come from outside a handler are part of the request: the numbers
of new inodes, the result of `msync`, and for flock the outcome on the file's
lists of locks, which are left out (`none` if an assertion about them fails).
Forget requests are processed at once, as without the background option.
-/

namespace Finesse.Bitbucket

open Prog (assert)

/-! ## Open files and directories -/

/-- A part of a handler that works on the storage of a regular file. -/
def onFile (i : Nat) (f : File → Option (FileReply × File)) : M FileReply := fun s =>
  match f (s.inode i).file with
  | none => none
  | some (reply, file) => some (reply, s.setInode i fun n =>
    { n with file := file })

/-- `bitbucket_internal_open`. -/
def bitbucketOpen (ino : Nat) (trunc : Bool) : M (List Reply) := do
  let i ← lookupInode ino
  match i with
  | none => pure [.err EBADF]
  | some i => do
    truncateOnOpen i
    bitbucketReferenceInode i .fuseOpen
    modify fun s => s.setKernel i fun k => { k with opens := k.opens + 1 }
    dropLookup i
    pure [.opened]
where
  truncateOnOpen (i : Nat) : M Unit := do
    if trunc then do
      bitbucketLockInode i
      let s ← get
      if 0 < (s.inode i).size then do
        assert (s.inodeType i = .file)
        let _ ← onFile i File.truncate
        pure ()
      else pure ()
    else pure ()

/-- `bitbucket_internal_release`. -/
def bitbucketRelease (ino : Nat) : M (List Reply) := do
  let i ← lookupInode ino
  match i with
  | none => pure [.err EBADF]
  | some i => do
    bitbucketDereferenceInode i .fuseOpen 1
    modify fun s => s.setKernel i fun k => { k with opens := k.opens - 1 }
    dropLookup i
    pure [.err 0]

/-- `bitbucket_internal_opendir`. The reference of the open directory is
taken for inodes of any type, and the kernel gets it only for directories. -/
def bitbucketOpendir (ino : Nat) : M (List Reply) := do
  let i ← lookupInode ino
  match i with
  | none => pure [.err ENOENT]
  | some i => do
    bitbucketReferenceInode i .fuseOpendir
    dropLookup i
    let s ← get
    if sIsDir (s.inode i).mode then do
      modify fun s => s.setKernel i fun k =>
        { k with opendirs := k.opendirs + 1 }
      pure [.opened]
    else pure [.err ENOTDIR]

/-- `bitbucket_internal_releasedir`. -/
def bitbucketReleasedir (ino : Nat) : M (List Reply) := do
  let i ← lookupInode ino
  match i with
  | none => pure [.err EBADF]
  | some i => do
    bitbucketDereferenceInode i .fuseOpendir 1
    modify fun s => s.setKernel i fun k => { k with opendirs := k.opendirs - 1 }
    dropLookup i
    pure [.err 0]

def backgroundForget (ino nlookup : Nat) : M Unit := do
  let i ← bitbucketLookupInodeInTable ino
  match i with
  | none => pure ()
  | some i => do
    bitbucketDereferenceInode i .fuseLookup nlookup
    modify fun s => s.setKernel i fun k =>
      { k with lookups := k.lookups - nlookup }
    dropLookup i

/-- The loop of `bitbucket_internal_forget_multi`. -/
def backgroundForgets : List (Nat × Nat) → M Unit
  | [] => pure ()
  | (ino, nlookup) :: forgets => do
    backgroundForget ino nlookup
    backgroundForgets forgets

/-- `bitbucket_internal_forget_multi`; `bitbucket_internal_forget` has one. -/
def bitbucketForgetMulti (forgets : List (Nat × Nat)) : M (List Reply) := do
  backgroundForgets forgets
  pure [.none]

/-- The entries that a readdir or readdirplus request returns, with the offsets
they are sent with. The context of the enumeration is never cleaned up, and
its locks move the epoch of the directory on. -/
def enumerate (d nameOffset size off : Nat) : M (List (DirEntry × Nat) × Int) := do
  bitbucketInitalizeDirectoryEnumerationContext d
  let s ← get
  match Enumeration.readPage nameOffset size off (.of (s.entries d) (s.inode d).epoch) with
  | none => do
    assert False
    pure ([], 0)
  | some (page, x) => do
    modify fun s => s.setInode d fun n => { n with epoch := x.epoch }
    pure page

/-- The entries of a page as they are sent. -/
def Volume.dirents (s : Volume) (page : List (DirEntry × Nat)) : List Dirent :=
  page.map fun e => ⟨e.1.name, (s.inode e.1.inode).ino, e.2⟩

/-- `bitbucket_internal_readdir`. -/
def bitbucketReaddir (ino size off : Nat) : M (List Reply) := do
  if off = endOfDirectory then pure [.buf []]
  else do
    let i ← lookupInode ino
    match i with
    | none => do
      assert False
      pure []
    | some i => do
      let s ← get
      if !sIsDir (s.inode i).mode then do
        dropLookup i
        pure [.err ENOTDIR]
      else do
        let (packed, status) ← enumerate i 24 size off
        dropLookup i
        if status ≠ 0 then pure [.err status]
        else pure [.dirents (s.dirents packed)]

/-- The reference that readdirplus takes for an entry of `d`: not for
directories that are `d` or its parent. -/
def referencePlus (d : Nat) (e : DirEntry) : M Unit := do
  let s ← get
  if s.inodeType e.inode ≠ .dir ∨ (d ≠ e.inode ∧ s.parent d ≠ some e.inode) then
    bitbucketReferenceInode e.inode .fuseLookup
  else pure ()

/-- The kernel takes every entry of a readdirplus reply for a lookup, except
those with the names `.` and `..`. -/
def givePlus (e : DirEntry) : M Unit :=
  if e.name = dot ∨ e.name = dotdot then pure ()
  else modify fun s => s.setKernel e.inode fun k =>
    { k with lookups := k.lookups + 1 }

/-- What readdirplus does for the entries it returns. -/
def returnPlus (d : Nat) : List DirEntry → M Unit
  | [] => pure ()
  | e :: es => do
    referencePlus d e
    givePlus e
    returnPlus d es

/-- `bitbucket_internal_readdirplus`. -/
def bitbucketReaddirplus (ino size off : Nat) : M (List Reply) := do
  if off = endOfDirectory then pure [.buf []]
  else do
    let i ← lookupInode ino
    match i with
    | none => do
      assert False
      pure []
    | some i => do
      let s ← get
      if !sIsDir (s.inode i).mode then do
        dropLookup i
        pure [.err ENOTDIR]
      else do
        let (packed, status) ← enumerate i 152 size off
        returnPlus i (packed.map Prod.fst)
        dropLookup i
        if status ≠ 0 then pure [.err status]
        else pure [.dirents (s.dirents packed)]

/-! ## Data and attributes -/

def FileReply.toReply (n : Inode) : FileReply → Reply
  | .written count => .write count
  | .attr size => .attr n.ino n.mode size
  | .opened => .opened
  | .data bytes => .buf bytes

/-- `bitbucket_internal_write`. For an inode that is not a regular file the
lookup reference is not dropped. -/
def bitbucketWrite (ino off : Nat) (buf : List UInt8) : M (List Reply) := do
  if buf = [] then pure [.write 0]
  else do
    let i ← lookupInode ino
    match i with
    | none => pure [.err EBADF]
    | some i => do
      let s ← get
      if s.inodeType i ≠ .file then pure [.err EINVAL]
      else do
        let reply ← onFile i (File.write · off buf)
        dropLookup i
        pure [reply.toReply (s.inode i)]

/-- `bitbucket_internal_write_buf`. -/
def bitbucketWriteBuf (ino off : Nat) (bufv : FuseBufvec) : M (List Reply) := do
  if (bufv.seen.map FuseBuf.size).sum = 0 then pure [.write 0]
  else do
    let i ← lookupInode ino
    match i with
    | none => do
      assert False
      pure []
    | some i => do
      let s ← get
      if s.inodeType i ≠ .file then pure [.err EINVAL]
      else do
        let reply ← onFile i (File.writeBuf · off bufv)
        dropLookup i
        pure [reply.toReply (s.inode i)]

/-- `bitbucket_internal_read`. -/
def bitbucketRead (ino size off : Nat) : M (List Reply) := do
  if size = 0 then pure [.buf []]
  else do
    let i ← lookupInode ino
    match i with
    | none => do
      assert False
      pure []
    | some i => do
      let s ← get
      if s.inodeType i ≠ .file then do
        dropLookup i
        pure [.err EINVAL]
      else do
        let reply ← onFile i (File.read · off size)
        dropLookup i
        pure [reply.toReply (s.inode i)]

/-- `bitbucket_internal_copy_file_range`. Two inodes that are the same or
missing fail an assertion, and once something is copied the loop has no end;
what is left are ranges with nothing to copy. -/
def bitbucketCopyFileRange (inoIn offIn inoOut len : Nat) : M (List Reply) := do
  if inoIn = fuseRootId ∨ inoOut = fuseRootId then pure [.err EISDIR]
  else do
    let i ← bitbucketLookupInodeInTable inoIn
    let j ← bitbucketLookupInodeInTable inoOut
    match i, j with
    | some i, some j => do
      assert (i ≠ j)
      let s ← get
      if s.inodeType i ≠ .file ∨ s.inodeType j ≠ .file then do
        dropLookup i
        dropLookup j
        pure [.err EINVAL]
      else do
        -- `int copy_size = len`
        assert (len % 2 ^ 32 = 0 ∨ len % 2 ^ 32 < 2 ^ 31 ∧ (s.inode i).size ≤ offIn)
        dropLookup i
        dropLookup j
        pure [.write 0]
    | _, _ => do
      assert False
      pure []

/-- The attributes that setattr may set; times and owners are not kept. -/
structure SetAttr where
  mode : Option Nat
  size : Option Nat
  other : Bool
deriving DecidableEq, Repr

def setMode (i : Nat) : Option Nat → M Unit
  | none => pure ()
  | some mode => modify fun s => s.setInode i fun n =>
    { n with mode := (n.mode &&& sIFMT) ||| permissions mode }

def setSize (i : Nat) : Option Nat → M Unit
  | none => pure ()
  | some size => do
    let s ← get
    if (s.inode i).size = size then pure ()
    else do
      bitbucketLockInode i
      assert (s.inodeType i = .file)
      let _ ← onFile i (File.setSize · size)
      pure ()

/-- `bitbucket_internal_setattr`. -/
def bitbucketSetattr (ino : Nat) (a : SetAttr) : M (List Reply) := do
  let i ← lookupInode ino
  match i with
  | none => pure [.err EBADF]
  | some i => do
    setMode i a.mode
    setSize i a.size
    let s ← get
    assert (s.inodeType i = .dir → sIsDir (s.inode i).mode)
    assert (s.inodeType i = .file → (s.inode i).mode &&& sIFMT = sIFREG)
    dropLookup i
    if a.mode = none ∧ a.size = none ∧ a.other = false then pure [.err EINVAL]
    else pure [.attr (s.inode i).ino (s.inode i).mode (s.inode i).size]

/-- The handlers that find an inode, look at it and let it go. `missing` is
the reply for an inode that is not there. -/
def inspect (ino : Nat) (missing : List Reply) (f : Inode → List Reply) : M (List Reply) := do
  let i ← lookupInode ino
  match i with
  | none => pure missing
  | some i => do
    let s ← get
    dropLookup i
    pure (f (s.inode i))

/-- `bitbucket_internal_getattr`. With a file handle, which is the address of
an inode or, for directories, null, the number has to be that of the inode. -/
def bitbucketGetattr (ino : Nat) (fh : Option (Option Nat)) : M (List Reply) := do
  let s ← get
  assert (∀ h ∈ fh, ∃ i ∈ h, s.live i = true ∧ ino = (s.inode i).ino)
  inspect ino [.err EBADF] fun n => [.attr n.ino n.mode n.size]

/-- `bitbucket_internal_access`. -/
def bitbucketAccess (ino : Nat) : M (List Reply) :=
  inspect ino [.err EBADF] fun _ => [.err 0]

/-- `bitbucket_internal_fsyncdir`. -/
def bitbucketFsyncdir (ino : Nat) : M (List Reply) :=
  inspect ino [.err EBADF] fun _ => [.err 0]

/-- `bitbucket_internal_statfs`. -/
def bitbucketStatfs (ino : Nat) : M (List Reply) :=
  inspect ino [.err EBADF] fun _ => [.statfs]

/-- `bitbucket_internal_readlink`, which like symlink asks the table. -/
def bitbucketReadlink (ino : Nat) : M (List Reply) := do
  let i ← bitbucketLookupInodeInTable ino
  match i with
  | none => pure [.err EBADF]
  | some i => do
    let s ← get
    dropLookup i
    pure [if s.inodeType i = .symlink then .link (s.inode i).link
      else .err EBADF]

/-- `bitbucket_internal_flush` and `bitbucket_internal_fsync` for an inode
they look at: a mapped file is written back, which has to succeed. -/
def syncFile (ino : Nat) (sync msync : Bool) : M (List Reply) := do
  let i ← lookupInode ino
  match i with
  | none => pure [.err EBADF]
  | some i => do
    let s ← get
    assert (s.inodeType i = .file → (s.inode i).file.map ≠ .null → sync = true → msync = true)
    dropLookup i
    pure [.err 0]

/-- `bitbucket_internal_flush`. -/
def bitbucketFlush (u : Userdata) (ino : Nat) (msync : Bool) : M (List Reply) :=
  if !u.flushEnable then pure [.err 0]
  else syncFile ino (!u.fsyncDisable) msync

/-- `bitbucket_internal_fsync`. -/
def bitbucketFsync (u : Userdata) (ino : Nat) (msync : Bool) : M (List Reply) :=
  if u.fsyncDisable then pure [.err 0] else syncFile ino true msync

/-- `bitbucket_internal_flock`, with the outcome on the lists of locks. -/
def bitbucketFlock (ino : Nat) (outcome : Option Int) : M (List Reply) := do
  let i ← lookupInode ino
  match i with
  | none => pure [.err EBADF]
  | some i => do
    let s ← get
    if s.inodeType i ≠ .file then do
      dropLookup i
      pure [.err EINVAL]
    else do
      bitbucketLockInode i
      assert (outcome.isSome = true)
      dropLookup i
      pure [.err (outcome.getD 0)]

def ENOSYS : Int := 38

/-- `bitbucket_internal_getxattr`. No attribute is ever found, and for a
missing inode no reply is sent. -/
def bitbucketGetxattr (u : Userdata) (ino : Nat) : M (List Reply) :=
  if u.noXattr then pure [.err ENOSYS]
  else inspect ino [] fun _ => [.err ENODATA]

/-- `bitbucket_internal_setxattr`. An attribute that is not there is reported
as `ENODATA`, which is not the error that the handler expects. -/
def bitbucketSetxattr (u : Userdata) (ino : Nat) : M (List Reply) :=
  if u.noXattr then pure [.err ENOSYS]
  else inspect ino [.err EBADF] fun _ => [.err ENODATA]

/-- `bitbucket_internal_removexattr`. -/
def bitbucketRemovexattr (u : Userdata) (ino : Nat) : M (List Reply) :=
  if u.noXattr then pure [.err ENOSYS]
  else inspect ino [.err EBADF] fun _ => [.err ENOENT]

/-! ## The volume as a machine -/

inductive Request where
  | lookup (parent : Nat) (name : Name)
  | mkdir (parent : Nat) (name : Name) (mode : Nat) (new : NewInode)
  | create (parent : Nat) (name : Name) (mode : Nat) (new : NewInode)
  | symlink (link : Name) (parent : Nat) (name : Name) (new : NewInode)
  | link (ino newparent : Nat) (newname : Name)
  | rename (parent : Nat) (name : Name) (newparent : Nat) (newname : Name)
      (flags : Nat)
  | unlink (parent : Nat) (name : Name)
  | rmdir (parent : Nat) (name : Name)
  | open (ino : Nat) (trunc : Bool)
  | release (ino : Nat)
  | opendir (ino : Nat)
  | releasedir (ino : Nat)
  | forget (ino nlookup : Nat)
  | forgetMulti (forgets : List (Nat × Nat))
  | readdir (ino size off : Nat)
  | readdirplus (ino size off : Nat)
  | write (ino off : Nat) (buf : List UInt8)
  | writeBuf (ino off : Nat) (bufv : FuseBufvec)
  | read (ino size off : Nat)
  | copyFileRange (inoIn offIn inoOut len : Nat)
  | setattr (ino : Nat) (a : SetAttr)
  | getattr (ino : Nat) (fh : Option (Option Nat))
  | access (ino : Nat)
  | fsyncdir (ino : Nat)
  | statfs (ino : Nat)
  | readlink (ino : Nat)
  | flush (ino : Nat) (msync : Bool)
  | fsync (ino : Nat) (msync : Bool)
  | flock (ino : Nat) (outcome : Option Int)
  | getxattr (ino : Nat)
  | setxattr (ino : Nat)
  | removexattr (ino : Nat)
  | ioctl
  | lseek (off : Nat)
  /-- mknod, bmap, fallocate, getlk, setlk, poll, listxattr and
  retrieve_reply, which are assertions -/
  | unimplemented

def Request.handle (u : Userdata) : Request → M (List Reply)
  | .lookup parent name => bitbucketLookup parent name
  | .mkdir parent name mode new => bitbucketMkdir parent name mode new
  | .create parent name mode new => bitbucketCreate u parent name mode new
  | .symlink target parent name new => bitbucketSymlink target parent name new
  | .link ino newparent newname => bitbucketLink ino newparent newname
  | .rename parent name newparent newname flags =>
    bitbucketRename parent name newparent newname flags
  | .unlink parent name => bitbucketUnlink parent name
  | .rmdir parent name => bitbucketRmdir parent name
  | .open ino trunc => bitbucketOpen ino trunc
  | .release ino => bitbucketRelease ino
  | .opendir ino => bitbucketOpendir ino
  | .releasedir ino => bitbucketReleasedir ino
  | .forget ino nlookup => bitbucketForgetMulti [(ino, nlookup)]
  | .forgetMulti forgets => bitbucketForgetMulti forgets
  | .readdir ino size off => bitbucketReaddir ino size off
  | .readdirplus ino size off => bitbucketReaddirplus ino size off
  | .write ino off buf => bitbucketWrite ino off buf
  | .writeBuf ino off bufv => bitbucketWriteBuf ino off bufv
  | .read ino size off => bitbucketRead ino size off
  | .copyFileRange inoIn offIn inoOut len =>
    bitbucketCopyFileRange inoIn offIn inoOut len
  | .setattr ino a => bitbucketSetattr ino a
  | .getattr ino fh => bitbucketGetattr ino fh
  | .access ino => bitbucketAccess ino
  | .fsyncdir ino => bitbucketFsyncdir ino
  | .statfs ino => bitbucketStatfs ino
  | .readlink ino => bitbucketReadlink ino
  | .flush ino msync => bitbucketFlush u ino msync
  | .fsync ino msync => bitbucketFsync u ino msync
  | .flock ino outcome => bitbucketFlock ino outcome
  | .getxattr ino => bitbucketGetxattr u ino
  | .setxattr ino => bitbucketSetxattr u ino
  | .removexattr ino => bitbucketRemovexattr u ino
  | .ioctl => pure [.err EINVAL]
  | .lseek off => pure [.seek off]
  | .unimplemented => do
    assert False
    pure []

/-- One request. -/
def Volume.step (u : Userdata) (s : Volume) (r : Request) : Option (List Reply × Volume) :=
  r.handle u s

/-- A volume before it is mounted. -/
def Volume.empty : Volume where
  inode := fun _ => initialInode .file ⟨0, 0⟩ false
  entries := fun _ => []
  parent := fun _ => none
  referenceCount := fun _ => 0
  referenceReasons := fun _ _ => 0
  live := fun _ => false
  next := 0
  unused := fun _ _ => rfl
  table := fun _ => none
  root := 0
  magic := []
  kernel := fun _ => ⟨0, 0, 0⟩

/-- The root directory of a volume. -/
def mountRoot (new : NewInode) : M Unit := do
  let d ← bitbucketCreateRootDirectory new
  modify fun s => { s with root := d }

/-- One of the magic directories of `bitbucket_internal_init`. -/
def createMagic (p : Nat) (name : Name) (new : NewInode) : M Nat := do
  let d ← bitbucketCreateDirectory p name new
  modify fun s => { s.setInode d (fun n =>
    { n with mode := n.mode - (n.mode &&& 0o222) }) with
      magic := d :: s.magic }
  pure d

def createMagics (p : Nat) : List Name → List NewInode → M Unit
  | name :: names, new :: news => do
    let _ ← createMagic p name new
    createMagics p names news
  | _, _ => pure ()

/-- `bitbucket_internal_init`. -/
def bitbucketInit (root bitbucket : NewInode) (others : List NewInode) : M Unit := do
  mountRoot root
  let s ← get
  let p ← createMagic s.root "Bitbucket".toList bitbucket
  createMagics p ["Size".toList, "Name".toList, "Creation".toList, "Uuid".toList] others

/-- A volume that was mounted with the inode numbers 5 to 10. -/
abbrev newMount : Option (Unit × Volume) :=
  bitbucketInit ⟨5, 0⟩ ⟨6, 0⟩ [⟨7, 0⟩, ⟨8, 0⟩, ⟨9, 0⟩, ⟨10, 0⟩] .empty

end Finesse.Bitbucket
