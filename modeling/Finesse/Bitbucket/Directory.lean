import Finesse.Bitbucket.Inode

/-!
# Directories

`dir.c`, and the functions of `file.c` and `symlink.c` that make a file or a
symbolic link and enter it in a directory. A directory keeps its entries in a
list, newest first, and in a trie by name; the two change together and are
one list here. Every entry holds a reference on the inode it names, and a
directory holds one on its parent.
-/

namespace Finesse.Bitbucket

open Prog List

def dot : Name := ['.']
def dotdot : Name := ['.', '.']

/-- `TrieSearch`. -/
def findEntry (es : List DirEntry) (name : Name) : Option DirEntry :=
  es.find? fun e => e.name = name

variable {s s' : Volume} {e : DirEntry} {name : Name} {i : Nat}

section Entries

variable {es : List DirEntry} {n m : Name}

theorem findEntry_cons (e : DirEntry) :
    findEntry (e :: es) m = if e.name = m then some e else findEntry es m := by
  rw [findEntry, find?_cons]
  split
  · next h => rw [if_pos (of_decide_eq_true h)]
  · next h => rw [if_neg (of_decide_eq_false h), findEntry]

theorem findEntry_name (h : findEntry es n = some e) : e.name = n := by
  simpa using find?_some h

theorem findEntry_mem (h : findEntry es n = some e) : e ∈ es := mem_of_find?_eq_some h

theorem findEntry_of_mem (hnodup : (es.map DirEntry.name).Nodup)
    (he : e ∈ es) : findEntry es e.name = some e := by
  induction es with
  | nil => cases he
  | cons a es ih =>
    rw [map_cons, nodup_cons] at hnodup
    rw [findEntry_cons]
    rcases mem_cons.mp he with rfl | he
    · rw [if_pos rfl]
    have hne : a.name ≠ e.name := fun h =>
      hnodup.1 (mem_map.mpr ⟨e, he, h.symm⟩)
    rw [if_neg hne, ih hnodup.2 he]

theorem findEntry_remove : findEntry (es.filter fun e => e.name ≠ n) m =
      if m = n then none else findEntry es m := by
  induction es with
  | nil => simp [findEntry]
  | cons e es ih =>
    rw [filter_cons, findEntry_cons]
    by_cases he : e.name = n
    · rw [if_neg (by simpa using he), ih]
      by_cases hm : m = n
      · rw [if_pos hm, if_pos hm]
      · rw [if_neg hm, if_neg hm, if_neg fun h => hm (h.symm.trans he)]
    · rw [if_pos (by simpa using he), findEntry_cons, ih]
      by_cases hm : m = n
      · rw [if_pos hm, if_pos hm, if_neg fun h => he (h.trans hm)]
      · rw [if_neg hm, if_neg hm]

theorem findEntry_map {g : DirEntry → DirEntry} (hg : ∀ e, (g e).name = e.name) :
    findEntry (es.map g) m = (findEntry es m).map g := by
  rw [findEntry, find?_map, findEntry]
  congr 2
  funext e
  simp [hg]

end Entries

namespace Volume

/-- The inode that a name in a directory stands for. -/
def child (s : Volume) (d : Nat) (n : Name) : Option Nat :=
  (findEntry (s.entries d) n).map DirEntry.inode

/-- An entry for `i` is entered in the directory `d`. -/
def insertEntry (s : Volume) (d i : Nat) (name : Name) : Volume :=
  let s := s.setEntries d (⟨name, i, (s.inode d).epoch⟩ :: ·)
  if i ≠ d then s.setInode i fun n => { n with nlink := n.nlink + 1 } else s

/-- The entry under a name leaves the directory `d`. -/
def removeEntry (s : Volume) (d : Nat) (name : Name) : Volume :=
  s.setEntries d fun es => es.filter fun e => e.name ≠ name

/-- The entry under a name is made to name another inode. -/
def redirectEntry (s : Volume) (d : Nat) (name : Name) (i : Nat) : Volume :=
  s.setEntries d fun es =>
    es.map fun e => if e.name = name then { e with inode := i } else e

end Volume

/-- The locks of `BitbucketInsertDirectoryEntry`. -/
def lockForInsert (d i : Nat) : M Unit :=
  if d ≠ i then bitbucketLockTwoInodes d i else bitbucketLockInode d

/-- `BitbucketInsertDirectoryEntry`. The reference of the new entry is taken
before the name is looked for. -/
def bitbucketInsertDirectoryEntry (d i : Nat) (name : Name) : M Int := do
  let s ← get
  assert (s.inodeType d = .dir)
  assert (name ≠ [])
  assert (name.length + 1 < 1024)
  bitbucketReferenceInode i .dirent
  lockForInsert d i
  let s ← get
  match findEntry (s.entries d) name with
  | some _ => pure EEXIST
  | none => do
    modify fun s => s.insertEntry d i name
    pure 0

/-- The state after the locks of an insertion. -/
def Volume.tickTwo (s : Volume) (d i : Nat) : Volume :=
  if d ≠ i then (s.tick d).tick i else s.tick d

theorem insertDirectoryEntry_inv {d : Nat} {status : Int}
    (h : bitbucketInsertDirectoryEntry d i name s = some (status, s')) :
    s.inodeType d = .dir ∧ (name ≠ [] ∧ name.length + 1 < 1024) ∧ s.live d = true ∧
      s.live i = true ∧ ∃ s1, s1 = (s.addReferences i .dirent 1).tickTwo d i ∧
        (s.child d name = none ∧ status = 0 ∧ s' = s1.insertEntry d i name ∨
          s.child d name ≠ none ∧ status = EEXIST ∧ s' = s1) := by
  obtain ⟨hdir, h⟩ := assert_bind_inv (get_bind_inv h)
  obtain ⟨hnil, h⟩ := assert_bind_inv h
  obtain ⟨hlen, h⟩ := assert_bind_inv h
  obtain ⟨_, s1, hr, h⟩ := bind_inv h
  obtain ⟨hi, -, -, rfl⟩ := reference_inv hr
  obtain ⟨_, s2, hl, h⟩ := bind_inv h
  have h := get_bind_inv h
  obtain ⟨hd, hs2, hentries⟩ : s.live d = true ∧
      s2 = (s.addReferences i .dirent 1).tickTwo d i ∧ s2.entries = s.entries := by
    rw [Volume.tickTwo]
    rw [lockForInsert] at hl
    split at hl
    · next hne =>
      obtain ⟨-, hd, -, rfl⟩ := lockTwoInodes_inv hl
      exact ⟨hd, (if_pos hne).symm, rfl⟩
    · next hne =>
      obtain ⟨hd, rfl⟩ := lockInode_inv hl
      exact ⟨hd, (if_neg hne).symm, rfl⟩
  refine ⟨hdir, ⟨hnil, hlen⟩, hd, hi, s2, hs2, ?_⟩
  rw [hentries] at h
  rw [Volume.child]
  cases hc : findEntry (s.entries d) name with
  | some e =>
    rw [hc] at h
    obtain ⟨rfl, rfl⟩ := pure_inv h
    exact .inr ⟨nofun, rfl, rfl⟩
  | none =>
    rw [hc] at h
    dsimp only at h
    have h := modify_bind_inv h
    obtain ⟨rfl, rfl⟩ := pure_inv h
    exact .inl ⟨rfl, rfl, rfl⟩

def bitbucketLookupObjectInDirectory (d : Nat) (name : Name) : M (Option Nat) := do
  let s ← get
  assert (s.inodeType d = .dir)
  match findEntry (s.entries d) name with
  | none => pure none
  | some e => do
    bitbucketReferenceInode e.inode .lookup
    pure (some e.inode)

theorem lookupObject_inv {d : Nat} {o : Option Nat}
    (h : bitbucketLookupObjectInDirectory d name s = some (o, s')) :
    s.inodeType d = .dir ∧ o = s.child d name ∧ s.Looked s' o := by
  obtain ⟨hd, h⟩ := assert_bind_inv (get_bind_inv h)
  refine ⟨hd, ?_⟩
  rw [Volume.child]
  cases hc : findEntry (s.entries d) name with
  | none =>
    rw [hc] at h
    obtain ⟨rfl, rfl⟩ := pure_inv h
    exact ⟨rfl, rfl⟩
  | some e =>
    rw [hc] at h
    obtain ⟨_, s1, hr, h⟩ := bind_inv h
    obtain ⟨rfl, rfl⟩ := pure_inv h
    obtain ⟨hl, -, -, hs⟩ := reference_inv hr
    exact ⟨rfl, hl, hs⟩

/-- An entry that has to go in, because the inode is new or the name is. -/
def insertNew (d i : Nat) (name : Name) : M Unit := do
  let status ← bitbucketInsertDirectoryEntry d i name
  assert (status = 0)

def bitbucketCreateDirectory (p : Nat) (name : Name) (new : NewInode) : M Nat := do
  checkMagic p
  let s ← get
  assert (s.inodeType p = .dir)
  let d ← bitbucketCreateInode .dir new false
  modify fun s => s.setParent d (some p)
  bitbucketReferenceInode p .parent
  insertNew d d dot
  insertNew d p dotdot
  insertNew p d name
  let s ← get
  assert (s.referenceCount d = 3)
  pure d

def bitbucketCreateRootDirectory (new : NewInode) : M Nat := do
  let d ← bitbucketCreateInode .dir new false
  modify fun s => s.setParent d (some d)
  bitbucketReferenceInode d .parent
  insertNew d d dot
  insertNew d d dotdot
  let s ← get
  assert (s.referenceCount d = 4)
  pure d

section Create

variable {p : Nat} {new : NewInode}

theorem createDirectory_inv (h : bitbucketCreateDirectory p name new s = some (i, s')) :
    s.live p = true ∧ s.inodeType p = .dir ∧ i = s.next ∧ ∃ s1 s2,
      insertNew i i dot (((s.create .dir new false).setParent i (some p)).addReferences
        p .parent 1) = some ((), s1) ∧
      insertNew i p dotdot s1 = some ((), s2) ∧ insertNew p i name s2 = some ((), s') := by
  obtain ⟨_, s1, hm, h⟩ := bind_inv h
  obtain ⟨hlive, rfl⟩ := checkMagic_inv hm
  obtain ⟨hdir, h⟩ := assert_bind_inv (get_bind_inv h)
  obtain ⟨c, s1, hc, h⟩ := bind_inv h
  obtain ⟨-, -, rfl, rfl⟩ := createInode_inv hc
  obtain ⟨_, s2, hr, h⟩ := bind_inv (modify_bind_inv h)
  obtain ⟨-, -, -, rfl⟩ := reference_inv hr
  obtain ⟨_, s3, h1, h⟩ := bind_inv h
  obtain ⟨_, s4, h2, h⟩ := bind_inv h
  obtain ⟨_, s5, h3, h⟩ := bind_inv h
  obtain ⟨-, h⟩ := assert_bind_inv (get_bind_inv h)
  obtain ⟨rfl, rfl⟩ := pure_inv h
  exact ⟨hlive, hdir, rfl, s3, s4, h1, h2, h3⟩

theorem createRootDirectory_inv (h : bitbucketCreateRootDirectory new s = some (i, s')) :
    i = s.next ∧ ∃ s1, insertNew i i dot (((s.create .dir new false).setParent i
        (some i)).addReferences i .parent 1) = some ((), s1) ∧
      insertNew i i dotdot s1 = some ((), s') := by
  obtain ⟨c, s1, hc, h⟩ := bind_inv h
  obtain ⟨-, -, rfl, rfl⟩ := createInode_inv hc
  obtain ⟨_, s2, hr, h⟩ := bind_inv (modify_bind_inv h)
  obtain ⟨-, -, -, rfl⟩ := reference_inv hr
  obtain ⟨_, s3, h1, h⟩ := bind_inv h
  obtain ⟨_, s4, h2, h⟩ := bind_inv h
  obtain ⟨-, h⟩ := assert_bind_inv (get_bind_inv h)
  obtain ⟨rfl, rfl⟩ := pure_inv h
  exact ⟨rfl, s3, h1, h2⟩

end Create

/-- The link count in `RemoveDirEntryFromDirectory`. -/
def dropLink (i : Nat) : M Unit := do
  let s ← get
  assert (0 < (s.inode i).nlink)
  modify fun s => s.setInode i fun n => { n with nlink := n.nlink - 1 }

/-- `RemoveDirEntryFromDirectory`. The entry's inode is locked as well unless
it is the directory itself, and is kept from going away meanwhile. -/
def removeDirEntryFromDirectory (d : Nat) (name : Name) : M (Option DirEntry) := do
  let s ← get
  assert (s.inodeType d = .dir)
  bitbucketLockInode d
  match findEntry (s.entries d) name with
  | none => pure none
  | some e =>
    if e.inode = d then do
      modify fun s => s.removeEntry d name
      pure (some e)
    else do
      bitbucketReferenceInode e.inode .removeDirent
      bitbucketLockInode e.inode
      modify fun s => s.removeEntry d name
      dropLink e.inode
      bitbucketDereferenceInode e.inode .removeDirent 1
      pure (some e)

/-- The part of `BitbucketDeleteDirectoryEntry` for an entry of `d` that
named the directory `i`: its way back to `d` is taken out. -/
def detachDirectory (d i : Nat) : M Unit := do
  let de ← removeDirEntryFromDirectory i dotdot
  match de with
  | none => pure ()
  | some e => do
    assert (e.inode = d)
    let s ← get
    assert (s.parent i = some d)
    bitbucketDereferenceInode d .dirent 1
    bitbucketDereferenceInode d .parent 1
    modify fun s => s.setParent i none

def detachIfDirectory (d i : Nat) : M Unit := do
  let s ← get
  if s.inodeType i = .dir then detachDirectory d i else pure ()

def bitbucketDeleteDirectoryEntry (d : Nat) (name : Name) : M Int := do
  let s ← get
  assert (name ≠ [])
  assert (s.inodeType d = .dir)
  let found ← bitbucketLookupObjectInDirectory d name
  match found with
  | none => pure ENOENT
  | some i => do
    let dirent ← removeDirEntryFromDirectory d name
    assert (dirent.isSome = true)
    detachIfDirectory d i
    bitbucketDereferenceInode i .lookup 1
    bitbucketDereferenceInode i .dirent 1
    pure 0

def bitbucketDirectoryEntryCount (d : Nat) : M Nat := do
  let s ← get
  pure (s.entries d).length

def bitbucketDeleteDirectory (i : Nat) : M Int := do
  checkMagic i
  let s ← get
  assert (s.inodeType i = .dir)
  if s.parent i ≠ none then pure EINVAL
  else if 1 < (s.entries i).length then pure ENOTEMPTY
  else do
    let status ← bitbucketDeleteDirectoryEntry i dot
    if status = 0 then do
      checkMagic i
      let s ← get
      assert (1 ≤ s.referenceCount i)
      pure status
    else pure status

theorem deleteDirectory_inv (h : bitbucketDeleteDirectory i s = some (0, s')) :
    s.parent i = none ∧ (s.entries i).length ≤ 1 ∧
      bitbucketDeleteDirectoryEntry i dot s = some (0, s') := by
  obtain ⟨_, s1, hm, h⟩ := bind_inv h
  obtain ⟨-, rfl⟩ := checkMagic_inv hm
  obtain ⟨-, h⟩ := assert_bind_inv (get_bind_inv h)
  split at h
  · exact absurd (pure_inv h).1 (by decide)
  next hp =>
  split at h
  · exact absurd (pure_inv h).1 (by decide)
  next hlen =>
  obtain ⟨status, s1, hd, h⟩ := bind_inv h
  have hp := Decidable.not_not.mp hp
  split at h
  · next hz =>
    obtain ⟨_, s2, hm, h⟩ := bind_inv h
    obtain ⟨-, rfl⟩ := checkMagic_inv hm
    obtain ⟨-, h⟩ := assert_bind_inv (get_bind_inv h)
    obtain ⟨rfl, rfl⟩ := pure_inv h
    exact ⟨hp, Nat.le_of_not_lt hlen, hd⟩
  · next hz => exact absurd (pure_inv h).1 hz

/-- `BitbucketExchangeObjectsInDirectory`. Only the entries change. -/
def bitbucketExchangeObjectsInDirectory (oldParent newParent : Nat)
    (name newname : Name) : M Int := do
  bitbucketLockTwoInodes oldParent newParent
  let s ← get
  match findEntry (s.entries oldParent) name, findEntry (s.entries newParent) newname with
  | some e, some e' => do
    modify fun s => (s.redirectEntry oldParent name e'.inode).redirectEntry
      newParent newname e.inode
    pure 0
  | _, _ => pure ENOENT

theorem exchange_inv {p q : Nat} {newname : Name} {status : Int}
    (h : bitbucketExchangeObjectsInDirectory p q name newname s = some (status, s')) :
    p ≠ q ∧ (status = ENOENT ∧ s' = (s.tick p).tick q ∧
        (s.child p name = none ∨ s.child q newname = none) ∨
      ∃ e e', findEntry (s.entries p) name = some e ∧
        findEntry (s.entries q) newname = some e' ∧ status = 0 ∧
        s' = (((s.tick p).tick q).redirectEntry p name e'.inode).redirectEntry q
          newname e.inode) := by
  obtain ⟨_, s1, hl, h⟩ := bind_inv h
  obtain ⟨hpq, -, -, rfl⟩ := lockTwoInodes_inv hl
  have h := get_bind_inv h
  refine ⟨hpq, ?_⟩
  have hp : ((s.tick p).tick q).entries = s.entries := rfl
  rw [hp] at h
  cases he : findEntry (s.entries p) name with
  | none =>
    rw [he] at h
    obtain ⟨rfl, rfl⟩ := pure_inv h
    exact .inl ⟨rfl, rfl, .inl (congrArg (Option.map DirEntry.inode) he)⟩
  | some e =>
    cases he' : findEntry (s.entries q) newname with
    | none =>
      rw [he, he'] at h
      obtain ⟨rfl, rfl⟩ := pure_inv h
      exact .inl ⟨rfl, rfl, .inr (congrArg (Option.map DirEntry.inode) he')⟩
    | some e' =>
      rw [he, he'] at h
      dsimp only at h
      have h := modify_bind_inv h
      obtain ⟨rfl, rfl⟩ := pure_inv h
      exact .inr ⟨e, e', rfl, rfl, rfl, rfl⟩

def bitbucketCreateFile (p : Nat) (name : Name) (new : NewInode) (storageDir : Bool) : M Nat := do
  checkMagic p
  let s ← get
  assert (s.inodeType p = .dir)
  let i ← bitbucketCreateInode .file new storageDir
  insertNew p i name
  pure i

def bitbucketRemoveFileFromDirectory (p : Nat) (name : Name) : M Int := do
  let found ← bitbucketLookupObjectInDirectory p name
  match found with
  | none => pure ENOENT
  | some i => do
    let s ← get
    if (s.inode i).mode &&& sIFDIR = sIFDIR then do
      bitbucketDereferenceInode i .lookup 1
      pure EISDIR
    else do
      assert ((s.inode i).mode &&& sIFREG = sIFREG)
      assert (0 < (s.inode i).nlink)
      let status ← bitbucketDeleteDirectoryEntry p name
      bitbucketDereferenceInode i .lookup 1
      pure status

def bitbucketCreateSymlink (p : Nat) (name link : Name) (new : NewInode) : M Nat := do
  checkMagic p
  let s ← get
  assert (s.inodeType p = .dir)
  let i ← bitbucketCreateInode .symlink new false
  modify fun s => s.setInode i fun n => { n with link := link, nlink := 1 }
  insertNew p i name
  pure i

theorem createFile_inv {p : Nat} {new : NewInode} {b : Bool}
    (h : bitbucketCreateFile p name new b s = some (i, s')) :
    s.live p = true ∧ s.inodeType p = .dir ∧ i = s.next ∧
      insertNew p i name (s.create .file new b) = some ((), s') := by
  obtain ⟨_, s1, hm, h⟩ := bind_inv h
  obtain ⟨hlive, rfl⟩ := checkMagic_inv hm
  obtain ⟨hdir, h⟩ := assert_bind_inv (get_bind_inv h)
  obtain ⟨c, s1, hc, h⟩ := bind_inv h
  obtain ⟨-, -, rfl, rfl⟩ := createInode_inv hc
  obtain ⟨_, s2, hi, h⟩ := bind_inv h
  obtain ⟨rfl, rfl⟩ := pure_inv h
  exact ⟨hlive, hdir, rfl, hi⟩

theorem createSymlink_inv {p : Nat} {link : Name} {new : NewInode}
    (h : bitbucketCreateSymlink p name link new s = some (i, s')) :
    s.live p = true ∧ s.inodeType p = .dir ∧ i = s.next ∧
      insertNew p i name ((s.create .symlink new false).setInode i fun n =>
        { n with link := link, nlink := 1 }) = some ((), s') := by
  obtain ⟨_, s1, hm, h⟩ := bind_inv h
  obtain ⟨hlive, rfl⟩ := checkMagic_inv hm
  obtain ⟨hdir, h⟩ := assert_bind_inv (get_bind_inv h)
  obtain ⟨c, s1, hc, h⟩ := bind_inv h
  obtain ⟨-, -, rfl, rfl⟩ := createInode_inv hc
  obtain ⟨_, s2, hi, h⟩ := bind_inv (modify_bind_inv h)
  obtain ⟨rfl, rfl⟩ := pure_inv h
  exact ⟨hlive, hdir, rfl, hi⟩

/-! ## Enumeration -/

/-- `BitbucketInitalizeDirectoryEnumerationContext`, which keeps a reference
until the context is cleaned up. -/
def bitbucketInitalizeDirectoryEnumerationContext (d : Nat) : M Unit := do
  let s ← get
  assert (s.inodeType d = .dir)
  bitbucketReferenceInode d .enum
  assert (s.entries d ≠ [])

/-- `BitbucketSeekDirectory` on a new context: the entries from the one with
the given offset on. -/
def bitbucketSeekDirectory (es : List DirEntry) (offset : Nat) : List DirEntry :=
  if offset = 0 ∨ es.head?.map DirEntry.offset = some offset then es
  else es.dropWhile fun e => e.offset ≠ offset

/-- The loop of the readdir and readdirplus handlers: the entries that fit
into a buffer of `size` bytes, of which `used` are taken, and the status. An
entry takes `nameOffset` bytes and its name, in units of eight. -/
def packEntries (nameOffset size : Nat) : Nat → List DirEntry → List DirEntry × Int
  | used, [] =>
    ([], if used + nameOffset < size ∧ used = 0 then ENOENT else 0)
  | used, e :: es =>
    let entrySize := (nameOffset + e.name.length + 7) / 8 * 8
    if used + nameOffset < size ∧ entrySize ≤ size - used then
      let (packed, status) := packEntries nameOffset size (used + entrySize) es
      (e :: packed, status)
    else ([], 0)

end Finesse.Bitbucket
