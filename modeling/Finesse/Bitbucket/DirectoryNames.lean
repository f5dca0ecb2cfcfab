import Finesse.Bitbucket.Names

/-!
# What the functions of directories do to names

The names of a volume, and for each function of `dir.c` what it does to them:
either nothing, or one of the changes of `Names`. References, locks and link
counts are not part of the names.
-/

namespace Finesse.Bitbucket

open Prog Volume Names

variable {new : NewInode} {status : Int} {p : Nat} {o : Option Nat}

namespace Volume

/-- What is called what in a volume. -/
def names (s : Volume) : Names where
  isDir i := s.inodeType i = .dir
  child := s.child
  parent := s.parent
  root := s.root
  rootMode := (s.inode s.root).mode
  next := s.next

variable (s : Volume) (d i : Nat) (n : Name)

@[simp] theorem names_addReferences (r : Reason) (k : Nat) :
    (s.addReferences i r k).names = s.names := rfl

@[simp] theorem names_dropReferences (r : Reason) (k : Nat) :
    (s.dropReferences i r k).names = s.names := rfl

@[simp] theorem names_free : (s.free i).names = s.names := rfl

@[simp] theorem names_setKernel (f : Kernel → Kernel) : (s.setKernel i f).names = s.names := rfl

@[simp] theorem names_setParent (p : Option Nat) :
    (s.setParent d p).names = s.names.setParent d p := rfl

/-- Of an inode only the type is part of the names, and the mode of the
root. -/
theorem names_setInode_mode {f : Inode → Inode} (hf : ∀ k, (f k).inodeType = k.inodeType) :
    (s.setInode i f).names = { s.names with
      rootMode := ((s.setInode i f).inode s.root).mode } := by
  have hd : (s.setInode i f).names.isDir = s.names.isDir := by
    simp only [names, inodeType_setInode hf]
  exact Names.ext hd rfl rfl rfl rfl rfl

theorem names_setInode {f : Inode → Inode} (hf : ∀ k, (f k).inodeType = k.inodeType)
    (hm : i = s.root → ∀ k, (f k).mode = k.mode) : (s.setInode i f).names = s.names := by
  have hr : ((s.setInode i f).inode s.root).mode = s.names.rootMode := by
    by_cases hi : s.root = i
    · simp [names, setInode, hi, hm hi.symm]
    · simp [names, setInode, hi]
  rw [names_setInode_mode s i hf, hr]

@[simp] theorem names_tick : (s.tick i).names = s.names :=
  names_setInode s i (fun _ => rfl) fun _ _ => rfl

theorem names_tickTwo : (s.tickTwo d i).names = s.names := by
  rw [tickTwo]
  split
  · rw [names_tick, names_tick]
  · rw [names_tick]

theorem names_setEntries {f : List DirEntry → List DirEntry}
    (hf : ∀ m, (findEntry (f (s.entries d)) m).map DirEntry.inode =
      if m = n then o else (findEntry (s.entries d) m).map DirEntry.inode) :
    (s.setEntries d f).names = s.names.put d n o := by
  have : (s.setEntries d f).names.child = (s.names.put d n o).child := by
    funext e m
    by_cases he : e = d
    · subst he
      simp [names, child, setEntries, put, hf]
    · simp [names, child, setEntries, put, he]
  exact Names.ext rfl this rfl rfl rfl rfl

@[simp] theorem names_insertEntry : (s.insertEntry d i n).names = s.names.put d n (some i) := by
  have h := names_setEntries s d n (f := (⟨n, i, (s.inode d).epoch⟩ :: ·)) (o := some i) fun m => by
      rw [findEntry_cons]
      by_cases hm : m = n
      · subst hm
        rw [if_pos rfl, if_pos rfl]
        rfl
      · rw [if_neg hm, if_neg fun h => hm h.symm]
  rw [insertEntry]
  split
  · rw [names_setInode _ _ (fun _ => by rfl) fun _ _ => by rfl, h]
  · exact h

@[simp] theorem names_removeEntry : (s.removeEntry d n).names = s.names.put d n none := by
  refine names_setEntries s d n fun m => ?_
  rw [findEntry_remove]
  split <;> rfl

theorem names_redirectEntry {e : DirEntry} (he : findEntry (s.entries d) n = some e) :
    (s.redirectEntry d n i).names = s.names.put d n (some i) := by
  refine names_setEntries s d n fun m => ?_
  rw [findEntry_map fun e => by split <;> rfl]
  by_cases hm : m = n
  · subst hm
    rw [he, if_pos rfl]
    simp [findEntry_name he]
  rw [if_neg hm]
  cases hf : findEntry (s.entries d) m with
  | none => rfl
  | some k =>
    have hk : k.name ≠ n := fun h => hm ((findEntry_name hf).symm.trans h)
    simp [hk]

theorem names_create (t : InodeType) (new : NewInode) (b : Bool) (hr : s.root ≠ s.next) :
    (s.create t new b).names = s.names.fresh (t = .dir) := by
  have hd : (s.create t new b).names.isDir = (s.names.fresh (t = .dir)).isDir := by
    funext j
    by_cases hj : j = s.next
    · subst hj
      simp [names, create, fresh, inodeType, initialInode]
    · simp [names, create, fresh, inodeType, hj]
  have hc : (s.create t new b).names.child = (s.names.fresh (t = .dir)).child := by
    funext e m
    by_cases he : e = s.next
    · subst he
      simp [names, child, create, fresh, findEntry]
    · simp [names, child, create, fresh, he]
  have hm : (s.create t new b).names.rootMode = s.names.rootMode := by
    simp [names, create, hr]
  exact Names.ext hd hc rfl rfl hm rfl

end Volume

/-! ## Functions of directories -/

section Functions

variable {s s' : Volume} {d i : Nat} {name : Name} {u : Unit}

theorem names_reference {r : Reason} (h : bitbucketReferenceInode i r s = some (u, s')) :
    s'.names = s.names := by
  rw [(reference_inv h).2.2.2, names_addReferences]

theorem names_dereference {r : Reason} {bias : Nat}
    (h : bitbucketDereferenceInode i r bias s = some (u, s')) : s'.names = s.names := by
  obtain ⟨-, -, -, h⟩ := dereference_inv h
  split at h
  · rw [h.2, names_free, names_dropReferences]
  · rw [h, names_dropReferences]

theorem Volume.Looked.names (h : s.Looked s' o) : s'.names = s.names := by
  cases o with
  | none => rw [show s = s' from h]
  | some i => rw [h.2, names_addReferences]

theorem names_lockInode (h : bitbucketLockInode i s = some (u, s')) : s'.names = s.names := by
  rw [(lockInode_inv h).2, names_tick]

theorem names_insertDirectoryEntry
    (h : bitbucketInsertDirectoryEntry d i name s = some (status, s')) :
    s.names.isDir d ∧ i < s.next ∧ (s.names.child d name = none ∧ status = 0 ∧
        s'.names = s.names.put d name (some i) ∨
      s.names.child d name ≠ none ∧ status = EEXIST ∧ s'.names = s.names) := by
  obtain ⟨hd, -, -, hi, s1, rfl, ⟨hc, rfl, rfl⟩ | ⟨hc, rfl, rfl⟩⟩ := insertDirectoryEntry_inv h
  · refine ⟨hd, lt_next_of_live hi, .inl ⟨hc, rfl, ?_⟩⟩
    rw [names_insertEntry, names_tickTwo, names_addReferences]
  · exact ⟨hd, lt_next_of_live hi, .inr ⟨hc, rfl, names_tickTwo ..⟩⟩

theorem names_lookupObjectInDirectory
    (h : bitbucketLookupObjectInDirectory d name s = some (o, s')) :
    s.names.isDir d ∧ o = s.names.child d name ∧ s'.names = s.names := by
  obtain ⟨hd, ho, hl⟩ := lookupObject_inv h
  exact ⟨hd, ho, hl.names⟩

theorem names_insertNew (h : insertNew d i name s = some (u, s')) :
    s.names.isDir d ∧ i < s.next ∧ s.names.child d name = none ∧
      s'.names = s.names.put d name (some i) := by
  obtain ⟨status, s1, hi, h⟩ := bind_inv h
  obtain ⟨rfl, rfl⟩ := assert_inv h
  obtain ⟨hd, hlt, ⟨hc, -, hs⟩ | ⟨-, he, -⟩⟩ := names_insertDirectoryEntry hi
  · exact ⟨hd, hlt, hc, hs⟩
  · exact absurd he (by decide)

theorem names_createDirectory (hroot : s.root ≠ s.next)
    (h : bitbucketCreateDirectory p name new s = some (i, s')) :
    i = s.next ∧ s.names.isDir p ∧ (p ≠ s.next → s.names.child p name = none) ∧
      s'.names = s.names.mkdir p name := by
  obtain ⟨-, hp, rfl, s1, s2, h1, h2, h3⟩ := createDirectory_inv h
  obtain ⟨-, -, -, hn1⟩ := names_insertNew h1
  obtain ⟨-, -, -, hn2⟩ := names_insertNew h2
  obtain ⟨-, -, hfree, hn3⟩ := names_insertNew h3
  rw [names_addReferences, names_setParent, names_create _ _ _ _ hroot, eq_self] at hn1
  rw [hn2, hn1] at hfree hn3
  refine ⟨rfl, hp, fun hne => ?_, hn3⟩
  rw [put_child_of_ne fun h => hne h.1, put_child_of_ne fun h => hne h.1] at hfree
  exact (congrFun (Function.update_of_ne hne _ _) name).symm.trans hfree

theorem names_dropLink (h : dropLink i s = some (u, s')) : s'.names = s.names := by
  obtain ⟨-, h⟩ := assert_bind_inv (get_bind_inv h)
  rw [modify_inv h, names_setInode _ _ (fun _ => by rfl) fun _ _ => by rfl]

theorem names_removeDirEntryFromDirectory {o : Option DirEntry}
    (h : removeDirEntryFromDirectory d name s = some (o, s')) :
    o.map DirEntry.inode = s.names.child d name ∧ s'.names = s.names.put d name none := by
  obtain ⟨-, h⟩ := assert_bind_inv (get_bind_inv h)
  obtain ⟨_, s1, hl, h⟩ := bind_inv h
  have hl := names_lockInode hl
  cases hc : findEntry (s.entries d) name with
  | none =>
    rw [hc] at h
    obtain ⟨rfl, rfl⟩ := pure_inv h
    have hnone : s.names.child d name = none := congrArg (Option.map DirEntry.inode) hc
    exact ⟨hnone.symm, by rw [hl, put_none hnone]⟩
  | some e =>
    rw [hc] at h
    dsimp only at h
    have hsome : s.names.child d name = some e.inode := congrArg (Option.map DirEntry.inode) hc
    split at h
    · have h := modify_bind_inv h
      obtain ⟨rfl, rfl⟩ := pure_inv h
      exact ⟨hsome.symm, by rw [names_removeEntry, hl]⟩
    obtain ⟨_, s2, hr, h⟩ := bind_inv h
    obtain ⟨_, s3, hl', h⟩ := bind_inv h
    have h := modify_bind_inv h
    obtain ⟨_, s4, hd, h⟩ := bind_inv h
    obtain ⟨_, s5, hr', h⟩ := bind_inv h
    obtain ⟨rfl, rfl⟩ := pure_inv h
    refine ⟨hsome.symm, ?_⟩
    rw [names_dereference hr', names_dropLink hd, names_removeEntry,
      names_lockInode hl', names_reference hr, hl]

theorem names_detachDirectory (h : detachDirectory d i s = some (u, s')) :
    s.names.Back d i ∧ s'.names = s.names.detach i := by
  obtain ⟨o, s1, hr, h⟩ := bind_inv h
  obtain ⟨ho, hn⟩ := names_removeDirEntryFromDirectory hr
  rw [detach, Back, ← ho]
  cases o with
  | none =>
    obtain ⟨-, rfl⟩ := pure_inv h
    exact ⟨by simp, hn.trans (put_none ho.symm)⟩
  | some e =>
    obtain ⟨hd, h⟩ := assert_bind_inv h
    obtain ⟨hp, h⟩ := assert_bind_inv (get_bind_inv h)
    obtain ⟨_, s2, h1, h⟩ := bind_inv h
    obtain ⟨_, s3, h2, h⟩ := bind_inv h
    have hp' : s.names.parent i = some d := by
      rw [← hp]
      exact (congrFun (congrArg Names.parent hn) i).symm
    refine ⟨fun p hp => ?_, ?_⟩
    · obtain rfl : e.inode = p := by simpa using hp
      exact ⟨hd, hp'⟩
    · rw [modify_inv h, names_setParent, names_dereference h2, names_dereference h1, hn]
      rfl

theorem names_detachIfDirectory (h : detachIfDirectory d i s = some (u, s')) :
    (s.names.isDir i ∧ s.names.Back d i ∧ s'.names = s.names.detach i) ∨
      (¬ s.names.isDir i ∧ s'.names = s.names) := by
  have h := get_bind_inv h
  split at h
  · next hi => exact .inl ⟨hi, names_detachDirectory h⟩
  next hi =>
  obtain ⟨-, rfl⟩ := pure_inv h
  exact .inr ⟨hi, rfl⟩

theorem names_deleteDirectoryEntry
    (h : bitbucketDeleteDirectoryEntry d name s = some (status, s')) :
    s.names.isDir d ∧ (s.names.child d name = none ∧ status = ENOENT ∧ s'.names = s.names ∨
      ∃ i, s.names.child d name = some i ∧ status = 0 ∧
        (s.names.isDir i ∧ (s.names.put d name none).Back d i ∧
            s'.names = (s.names.put d name none).detach i ∨
          ¬ s.names.isDir i ∧ s'.names = s.names.put d name none)) := by
  have h := get_bind_inv h
  obtain ⟨-, h⟩ := assert_bind_inv h
  obtain ⟨hd, h⟩ := assert_bind_inv h
  obtain ⟨o, s1, hl, h⟩ := bind_inv h
  obtain ⟨-, ho, hn⟩ := names_lookupObjectInDirectory hl
  refine ⟨hd, ?_⟩
  cases o with
  | none =>
    obtain ⟨rfl, rfl⟩ := pure_inv h
    exact .inl ⟨ho.symm, rfl, hn⟩
  | some i =>
    obtain ⟨e, s2, hr, h⟩ := bind_inv h
    obtain ⟨-, h⟩ := assert_bind_inv h
    obtain ⟨_, s3, ht, h⟩ := bind_inv h
    obtain ⟨_, s4, h1, h⟩ := bind_inv h
    obtain ⟨_, s5, h2, h⟩ := bind_inv h
    obtain ⟨rfl, rfl⟩ := pure_inv h
    have hput : s2.names = s.names.put d name none := by
      rw [(names_removeDirEntryFromDirectory hr).2, hn]
    have hend : s5.names = s3.names := by
      rw [names_dereference h2, names_dereference h1]
    refine .inr ⟨i, ho.symm, rfl, ?_⟩
    rw [hend, ← hput]
    rcases names_detachIfDirectory ht with ⟨hi, ht⟩ | ⟨hi, ht⟩
    · rw [hput] at hi
      exact .inl ⟨hi, ht⟩
    · rw [hput] at hi
      exact .inr ⟨hi, ht⟩

theorem names_exchangeObjectsInDirectory {q : Nat} {name newname : Name}
    (h : bitbucketExchangeObjectsInDirectory p q name newname s = some (status, s')) :
    s'.names = s.names ∨ p ≠ q ∧ ∃ i j, s.names.child p name = some i ∧
      s.names.child q newname = some j ∧
      s'.names = (s.names.put p name (some j)).put q newname (some i) := by
  have hn : ((s.tick p).tick q).names = s.names := by
    rw [names_tick, names_tick]
  obtain ⟨hpq, ⟨-, rfl, -⟩ | ⟨e, e', he, he', -, rfl⟩⟩ := exchange_inv h
  · exact .inl hn
  refine .inr ⟨hpq, e.inode, e'.inode, congrArg (Option.map DirEntry.inode) he,
    congrArg (Option.map DirEntry.inode) he', ?_⟩
  have hq : findEntry ((((s.tick p).tick q).redirectEntry p name e'.inode).entries q)
      newname = some e' := by
    rw [← he']
    simp [redirectEntry, setEntries, hpq.symm, tick, setInode]
  rw [names_redirectEntry _ _ _ _ hq, names_redirectEntry ((s.tick p).tick q) _ _ _ he, hn]

variable (hs : s.names.Inv)
include hs

theorem Names.Inv.insertNew (hi : ¬ s.names.isDir i)
    (h : insertNew d i name s = some (u, s')) : s'.names.Inv ∧ s'.root = s.root := by
  obtain ⟨hd, hlt, hfree, hn⟩ := names_insertNew h
  refine ⟨?_, congrArg root hn⟩
  rw [hn]
  exact hs.put_free hfree hd hi hlt

theorem Names.Inv.createDirectory
    (h : bitbucketCreateDirectory p name new s = some (i, s')) : s'.names.Inv ∧ i ≠ s'.root := by
  obtain ⟨rfl, hp, hfree, hn⟩ := names_createDirectory hs.root_ne_next h
  have hr : s'.root = s.root := congrArg root hn
  rw [hn, hr]
  exact ⟨hs.mkdir hp (hfree (Nat.ne_of_lt (hs.dirUsed p hp))), hs.root_ne_next.symm⟩

theorem Names.Inv.create {t : InodeType} (ht : t ≠ .dir) (new : NewInode)
    (b : Bool) : (s.create t new b).names.Inv ∧ ¬ (s.create t new b).names.isDir s.next := by
  rw [names_create _ _ _ _ hs.root_ne_next, eq_false ht]
  exact ⟨hs.fresh_file, by simp [fresh, names]⟩

theorem Names.Inv.createFile {b : Bool}
    (h : bitbucketCreateFile p name new b s = some (i, s')) : s'.names.Inv ∧ i ≠ s'.root := by
  obtain ⟨-, -, rfl, hi⟩ := createFile_inv h
  obtain ⟨hs1, hfile⟩ := hs.create (t := .file) (by decide) new b
  obtain ⟨hs2, hr⟩ := hs1.insertNew hfile hi
  exact ⟨hs2, hr ▸ hs.root_ne_next.symm⟩

theorem Names.Inv.createSymlink {link : Name}
    (h : bitbucketCreateSymlink p name link new s = some (i, s')) : s'.names.Inv := by
  obtain ⟨-, -, rfl, hi⟩ := createSymlink_inv h
  obtain ⟨hs1, hfile⟩ := hs.create (t := .symlink) (by decide) new false
  have hn := names_setInode (s.create .symlink new false) s.next
    (f := fun n => { n with link := link, nlink := 1 }) (fun _ => rfl)
    fun _ _ => rfl
  rw [← hn] at hs1 hfile
  exact (hs1.insertNew hfile hi).1

theorem Names.Inv.deleteDirectoryEntry (hroot : d = s.root → Proper name)
    (h : bitbucketDeleteDirectoryEntry d name s = some (status, s')) :
    s'.names.Inv ∧ s'.names.isDir = s.names.isDir ∧ s'.root = s.root := by
  have hr : s'.names.root = s.names.root → s'.root = s.root := id
  obtain ⟨-, ⟨-, -, hn⟩ | ⟨i, hc, -, ⟨hi, hback, hn⟩ | ⟨hi, hn⟩⟩⟩ := names_deleteDirectoryEntry h
  · rw [hn] at hr ⊢
    exact ⟨hs, rfl, hr rfl⟩
  · rw [hn] at hr ⊢
    exact ⟨hs.delete_dir hc hi hroot hback, detach_isDir _, hr (detach_root _)⟩
  rw [hn] at hr ⊢
  refine ⟨hs.put_file (fun j hj => ?_) nofun, rfl, hr rfl⟩
  obtain rfl : i = j := by simpa [hc] using hj
  exact hi

end Functions

end Finesse.Bitbucket
