import Finesse.Errno
import Finesse.Utils.FastLookup

/-!
# Path resolution

`pathname.c` and `FinesseServerInternalNameLookup`: the server walks a path
component by component, with one FUSE lookup in the file system below for
each of them.

The file system is a parameter, `FileSystem`: what it replies to a lookup may
depend on every call made before. The log of these calls is passed through
the functions, because a FUSE lookup that finds an inode takes a reference in
the file system that only a forget gives back. An assertion that fails is
`none`. Allocations succeed.
-/

namespace Finesse.Server

open List

open Finesse.Utils (Inode Uuid)

abbrev Name := List Char

/-- `struct fuse_attr`. -/
structure FuseAttr where
  ino : BitVec 64
  size : BitVec 64
  blocks : BitVec 64
  atime : BitVec 64
  mtime : BitVec 64
  ctime : BitVec 64
  atimensec : BitVec 32
  mtimensec : BitVec 32
  ctimensec : BitVec 32
  mode : BitVec 32
  nlink : BitVec 32
  uid : BitVec 32
  gid : BitVec 32
  rdev : BitVec 32
  blksize : BitVec 32
deriving DecidableEq, Repr

/-- What the file system replies to a lookup: an entry, or the error of a
reply that holds none (zero, for a reply that is too short). -/
inductive FuseReply where
  | entry (nodeid : Inode) (attr : FuseAttr)
  | error (status : Int)
deriving DecidableEq, Repr

/-- A call of `finesse_original_ops`. -/
inductive FuseCall where
  | lookup (parent : Inode) (name : Name) (reply : FuseReply)
  | forget (ino : Inode) (nlookup : Nat)
deriving DecidableEq, Repr

abbrev FileSystem := List FuseCall → Inode → Name → FuseReply

/-- The inode a reply names. A FUSE entry with the number zero says that
there is no such name, and takes no reference. -/
def FuseReply.found : FuseReply → Option Inode
  | .entry nodeid _ => if nodeid = 0#64 then none else some nodeid
  | .error _ => none

/-- The inode on which a call took a reference. -/
def FuseCall.taken : FuseCall → Option Inode
  | .lookup _ _ reply => reply.found
  | .forget _ _ => none

/-- `struct statx_timestamp`. -/
structure StatxTimestamp where
  sec : BitVec 64
  nsec : BitVec 32
deriving DecidableEq, Repr

/-- `struct statx`, as far as a lookup sets it. The rest is zero. -/
structure Statx where
  mask : BitVec 32
  blksize : BitVec 32
  attributes : BitVec 64
  nlink : BitVec 32
  uid : BitVec 32
  gid : BitVec 32
  mode : BitVec 16
  ino : Inode
  size : BitVec 64
  blocks : BitVec 64
  attributesMask : BitVec 64
  atime : StatxTimestamp
  ctime : StatxTimestamp
  mtime : StatxTimestamp
deriving DecidableEq, Repr

def Statx.zero : Statx :=
  ⟨0, 0, 0, 0, 0, 0, 0, 0, 0, 0, 0, ⟨0, 0⟩, ⟨0, 0⟩, ⟨0, 0⟩⟩

def statxBasicStats : BitVec 64 := 0x7ff#64

/-- What `FinesseServerInternalNameLookup` stores of an entry. -/
def Statx.ofEntry (nodeid : Inode) (attr : FuseAttr) : Statx where
  mask := 0
  blksize := attr.blksize
  attributes := 0
  nlink := attr.nlink
  uid := attr.uid
  gid := attr.gid
  mode := attr.mode.setWidth 16
  ino := nodeid
  size := attr.size
  blocks := attr.blocks
  attributesMask := statxBasicStats
  atime := ⟨attr.atime, attr.atimensec⟩
  ctime := ⟨attr.ctime, attr.ctimensec⟩
  mtime := ⟨attr.mtime, attr.mtimensec⟩

@[simp] theorem Statx.ino_zero : Statx.zero.ino = 0#64 := rfl

@[simp] theorem Statx.ino_ofEntry (nodeid : Inode) (attr : FuseAttr) :
    (Statx.ofEntry nodeid attr).ino = nodeid := rfl

@[simp] theorem Statx.mode_ofEntry (nodeid : Inode) (attr : FuseAttr) :
    (Statx.ofEntry nodeid attr).mode = attr.mode.setWidth 16 := rfl

def fuseRootId : Inode := 1#64

/-- `S_ISLNK`. -/
def isLink (mode : Nat) : Bool := mode &&& 0o170000 = 0o120000

def finesseServerInternalNameLookup (fs : FileSystem) (log : List FuseCall)
    (parent : Inode) (name : Name) : Option (Int × Statx × List FuseCall) :=
  if '/' ∈ name then none
  else
    let reply := fs log parent name
    let log := log ++ [.lookup parent name reply]
    match reply with
    | .error status => some (status, .zero, log)
    | .entry nodeid attr =>
      if nodeid ≠ attr.ino then none else some (0, .ofEntry nodeid attr, log)

/-- `FinesseServerPathResolutionParameters_t`, with what its callers set. -/
structure PathResolutionParameters where
  followSymlinks : Bool
  checkSecurity : Bool
  getFinalParent : Bool
  parent : Inode
  pathName : Name
deriving DecidableEq, Repr

def finesseAllocateServerPathResolutionParameters (parentInode : Inode)
    (pathName : Name) (flags : Nat) : PathResolutionParameters where
  followSymlinks := flags.testBit 0
  checkSecurity := flags.testBit 1
  getFinalParent := flags.testBit 2
  parent := parentInode
  pathName := pathName

/-- A path cut at its separators: at least one component, and one more than
there are separators. -/
def components : List Char → List Name
  | [] => [[]]
  | c :: cs =>
    if c = '/' then [] :: components cs
    else
      match components cs with
      | [] => [[c]]
      | seg :: segs => (c :: seg) :: segs

/-- The mount point is taken off a path that starts with it. -/
def stripMountpoint (mountpoint path : Name) : Name :=
  if mountpoint.isPrefixOf path then path.drop mountpoint.length else path

/-- The errors that `FinesseServerResolvePathName` expects of a lookup. -/
def isNoEntry (status : Int) : Bool := status = ENOENT || status = -ENOENT

/-- The loop of `FinesseServerResolvePathName` and the lookup after it, for
the components after the leading separator. -/
def resolveComponents (fs : FileSystem) (p : PathResolutionParameters) :
    Inode → List FuseCall → List Name → Option (Int × Statx × List FuseCall)
  | _, _, [] => none
  | ino, log, [final] =>
    match finesseServerInternalNameLookup fs log ino final with
    | none => none
    | some (status, stx, log) =>
      if status = 0 then some (0, stx, log)
      else if isNoEntry status then
        some (if p.getFinalParent then 0 else status, stx, log)
      else none
  | ino, log, seg :: next :: segs =>
    if seg = [] ∨ p.checkSecurity then none
    else
      match finesseServerInternalNameLookup fs log ino seg with
      | none => none
      | some (status, stx, log) =>
        if status ≠ 0 then
          if isNoEntry status then some (status, stx, log) else none
        -- symbolic links are looked up once more, and then not implemented
        else if isLink stx.mode.toNat ∨ stx.ino = 0#64 then none
        else resolveComponents fs p stx.ino log (next :: segs)

def finesseServerResolvePathName (fs : FileSystem) (mountpoint : Name)
    (p : PathResolutionParameters) (log : List FuseCall) :
    Option (Int × Statx × List FuseCall) :=
  let parentino := if p.parent = 0#64 then fuseRootId else p.parent
  match components (stripMountpoint mountpoint p.pathName) with
  | [] | [_] => some (EINVAL, .zero, log)
  | first :: final :: [] =>
    if first ≠ [] then none
    else
      match finesseServerInternalNameLookup fs log parentino final with
      | none => none
      | some (status, stx, log) =>
        if status ≠ 0 then
          if isNoEntry status then some (status, stx, log) else none
        else if stx.ino = 0#64 then none
        else some (0, stx, log)
  | first :: segs =>
    if first ≠ [] then none else resolveComponents fs p parentino log segs

def finesseGetResolvedInode (stx : Statx) : Int × Inode :=
  if stx.ino = 0#64 then (EINVAL, 0#64) else (0, stx.ino)

/-- The first component that resolving a path looks up. -/
def firstComponent (mountpoint path : Name) : Option Name :=
  match components (stripMountpoint mountpoint path) with
  | first :: name :: _ => if first = [] then some name else none
  | _ => none

/-! ## What a resolution does -/

variable {fs : FileSystem} {log : List FuseCall} {stx : Statx} {name : Name} {log' : List FuseCall}
  {status : Int}

theorem nameLookup_spec {parent : Inode}
    (h : finesseServerInternalNameLookup fs log parent name = some (status, stx, log')) :
    log' = log ++ [.lookup parent name (fs log parent name)] ∧
      ((fs log parent name).found = none → stx.ino = 0#64) := by
  simp only [finesseServerInternalNameLookup] at h
  split at h
  · cases h
  split at h
  · next e he =>
    simp only [Option.some.injEq, Prod.mk.injEq] at h
    obtain ⟨-, rfl, rfl⟩ := h
    exact ⟨by rw [he], fun _ => rfl⟩
  next nodeid attr he =>
  split at h
  · cases h
  simp only [Option.some.injEq, Prod.mk.injEq] at h
  obtain ⟨-, rfl, rfl⟩ := h
  refine ⟨by rw [he], fun hf => ?_⟩
  rw [Statx.ino_ofEntry]
  by_contra hne
  simp [he, FuseReply.found, hne] at hf

/-- The calls of a resolution that starts at `ino`: the first one is for the
first component, all of them are lookups, and if the first one finds nothing
then there is no other and no inode is returned. -/
structure Walked (fs : FileSystem) (ino : Inode) (first : Option Name)
    (log calls : List FuseCall) (stx : Statx) : Prop where
  head : calls.head? = first.map fun n => .lookup ino n (fs log ino n)
  lookups : ∀ c ∈ calls, ∃ parent name reply, c = .lookup parent name reply
  missing : (∀ c ∈ calls.head?, c.taken = none) → (∀ c ∈ calls, c.taken = none) ∧ stx.ino = 0#64

theorem Walked.nil (fs : FileSystem) (ino : Inode) (log : List FuseCall) :
    Walked fs ino none log [] .zero :=
  ⟨rfl, fun _ hc => absurd hc not_mem_nil, fun _ => ⟨fun _ hc => absurd hc not_mem_nil, rfl⟩⟩

theorem Walked.single {ino : Inode} (h : (fs log ino name).found = none → stx.ino = 0#64) :
    Walked fs ino (some name) log [.lookup ino name (fs log ino name)] stx := by
  refine ⟨rfl, ?_, ?_⟩
  · intro c hc
    exact ⟨ino, name, fs log ino name, mem_singleton.mp hc⟩
  intro hm
  have hf : (fs log ino name).found = none := hm _ rfl
  refine ⟨fun c hc => ?_, h hf⟩
  rw [mem_singleton.mp hc]
  exact hf

theorem Walked.cons {ino : Inode} {next : Option Name} {calls : List FuseCall} {stx' : Statx}
    (h : (fs log ino name).found = none → stx.ino = 0#64) (hne : stx.ino ≠ 0#64)
    (hw : Walked fs stx.ino next (log ++ [.lookup ino name (fs log ino name)]) calls stx') :
    Walked fs ino (some name) log (.lookup ino name (fs log ino name) :: calls) stx' := by
  refine ⟨rfl, ?_, ?_⟩
  · intro c hc
    rcases mem_cons.mp hc with rfl | hc
    · exact ⟨ino, name, fs log ino name, rfl⟩
    · exact hw.lookups c hc
  · intro hm
    exact absurd (h (hm _ rfl)) hne

variable {p : PathResolutionParameters}

theorem resolveComponents_walked {segs : List Name} :
    ∀ {ino : Inode} {log log' : List FuseCall} {status : Int} {stx : Statx},
      resolveComponents fs p ino log segs = some (status, stx, log') →
      ∃ calls, log' = log ++ calls ∧ Walked fs ino segs.head? log calls stx := by
  induction segs with
  | nil => intro ino log log' status stx h; cases h
  | cons seg segs ih =>
    intro ino log log' status stx h
    cases segs with
    | nil =>
      rw [resolveComponents] at h
      split at h
      · cases h
      next hl =>
      obtain ⟨rfl, hf⟩ := nameLookup_spec hl
      split at h
      · cases h
        exact ⟨_, rfl, .single hf⟩
      split at h
      · cases h
        exact ⟨_, rfl, .single hf⟩
      · cases h
    | cons next rest =>
      rw [resolveComponents] at h
      split at h
      · cases h
      split at h
      · cases h
      next hl =>
      obtain ⟨rfl, hf⟩ := nameLookup_spec hl
      split at h
      · split at h
        · cases h
          exact ⟨_, rfl, .single hf⟩
        · cases h
      · split at h
        · cases h
        next hne =>
        obtain ⟨calls, rfl, hw⟩ := ih h
        exact ⟨_, by simp, .cons hf (fun h0 => hne (.inr h0)) hw⟩

theorem components_ne_nil (path : Name) : components path ≠ [] := by
  cases path with
  | nil => simp [components]
  | cons c cs =>
    rw [components]
    split
    · exact cons_ne_nil _ _
    · split <;> exact cons_ne_nil _ _

theorem components_of_not_mem {path : Name} (h : '/' ∉ path) : components path = [path] := by
  induction path with
  | nil => rfl
  | cons c cs ih =>
    have hc : c ≠ '/' := fun e => h (e ▸ mem_cons_self)
    rw [components, if_neg hc, ih fun hm => h (mem_cons_of_mem _ hm)]

/-- A resolution looks up the first component of its path, if there is one,
in the parent directory, and goes on from there. -/
theorem resolvePathName_walked {mountpoint : Name} (hp : p.parent ≠ 0#64)
    (h : finesseServerResolvePathName fs mountpoint p log = some (status, stx, log')) :
    ∃ calls, log' = log ++ calls ∧
      Walked fs p.parent (firstComponent mountpoint p.pathName) log calls
        stx := by
  simp only [finesseServerResolvePathName, if_neg hp] at h
  rw [firstComponent]
  split at h
  · next hc => exact absurd hc (components_ne_nil _)
  · next hc =>
    cases h
    rw [hc]
    exact ⟨[], by simp, .nil fs p.parent log⟩
  · next first final hc =>
    split at h
    · cases h
    next hfirst =>
    rw [hc, not_not.mp hfirst]
    split at h
    · cases h
    next hl =>
    obtain ⟨rfl, hf⟩ := nameLookup_spec hl
    split at h
    · split at h
      · cases h
        exact ⟨_, rfl, .single hf⟩
      · cases h
    · split at h
      · cases h
      · cases h
        exact ⟨_, rfl, .single hf⟩
  · next first segs hne _ hc =>
    split at h
    · cases h
    next hfirst =>
    rw [hc, not_not.mp hfirst]
    obtain ⟨calls, rfl, hw⟩ := resolveComponents_walked h
    obtain ⟨seg, rest, rfl⟩ := exists_cons_of_ne_nil hne
    exact ⟨calls, rfl, hw⟩

end Finesse.Server
