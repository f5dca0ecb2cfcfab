import Finesse.Bitbucket.Calls
import Finesse.Lib.Machine

/-!
# Requests keep the tree

The seven requests that change names keep the directories a tree, as long as
no directory is renamed and the entries `.` and `..` of the root directory
are not unlinked.
-/

namespace Finesse.Bitbucket

open Prog Volume Names Machine Option

/-! ## Requests -/

section Handlers

variable {s s' : Volume} {u : Unit} {parent : Nat} {name newname : Name} {new : NewInode}

theorem names_dropLookup {i : Nat} (h : dropLookup i s = some (u, s')) : s'.names = s.names :=
  names_dereference h

theorem Names.Inv.calls : Calls fun _ s => s.names.Inv where
  add h _ := h
  dereference h hx := names_dereference hx ▸ h
  setKernel _ h := by rwa [names_setKernel]

section

variable (hs : s.names.Inv)
include hs

theorem Names.Inv.bitbucketMkdir {mode : Nat} :
    Ends (bitbucketMkdir parent name mode new) s fun _ s' => s'.names.Inv := by
  refine calls.bitbucketMkdir (g := 0) hs fun p c r _ hs i s' hx => ?_
  obtain ⟨hs, hne⟩ := hs.createDirectory hx
  rwa [names_setInode _ _ (fun _ => by rfl) fun h => absurd h hne]

theorem Names.Inv.bitbucketCreate {us : Userdata} {mode : Nat} :
    Ends (bitbucketCreate us parent name mode new) s fun _ s' =>
      s'.names.Inv := by
  refine calls.bitbucketCreate (g := 0) hs fun p c r _ hs x hmem i s' hx => ?_
  have hnew : s'.names.Inv ∧ i ≠ s'.root := by
    rcases List.mem_pair.mp hmem with rfl | rfl
    · exact hs.createDirectory hx
    · exact hs.createFile hx
  dsimp only
  rw [names_setInode _ _ (fun _ => by rfl) fun h => absurd h hnew.2]
  exact hnew.1

theorem Names.Inv.bitbucketSymlink {link : Name} :
    Ends (bitbucketSymlink link parent name new) s fun _ s' => s'.names.Inv :=
  calls.bitbucketSymlink (g := 0) hs fun _ _ _ _ hs _ _ hx => hs.createSymlink hx

/-- Not even a link request over `.` or `..` of the root directory removes
them, because the mode of the root says that it is a directory. -/
theorem Names.Inv.removeFileFromDirectory {p : Nat} :
    Ends (bitbucketRemoveFileFromDirectory p name) s fun _ s' =>
      s'.names.Inv := by
  refine calls.removeFileFromDirectory (g := 0) hs fun i c r hi hmode hs status s' hx => ?_
  refine (hs.deleteDirectoryEntry ?_ hx).1
  rintro rfl
  have hne : i ≠ s.root := by
    rintro rfl
    exact hmode hs.rootMode
  constructor
  · rintro rfl
    exact hne (mem_unique hi hs.rootSelf)
  · rintro rfl
    exact hne (mem_unique hi hs.rootUp)

theorem Names.Inv.bitbucketLink {ino : Nat} :
    Ends (bitbucketLink ino parent newname) s fun _ s' => s'.names.Inv := by
  refine calls.bitbucketLink (g := 0) hs fun i p c r _ _ _ hi hs => ?_
  refine Ends.bind (R := fun status s1 =>
    s1.names.Inv) (fun status s1 hx => ?_) fun status s1 hs => ?_
  · obtain ⟨hp, hlt, ⟨hfree, -, hn⟩ | ⟨-, -, hn⟩⟩ := names_insertDirectoryEntry hx
    · rw [hn]
      refine hs.put_free hfree hp (fun hd => ?_) hlt
      exact nomatch hi.symm.trans hd
    · rwa [hn]
  · exact .ite (fun _ => hs.removeFileFromDirectory.bind fun _ _ h => .pure h) fun _ => .pure hs

theorem Names.Inv.bitbucketUnlink (hroot : s.resolve parent = some s.root → Proper name) :
    Ends (bitbucketUnlink parent name) s fun _ s' => s'.names.Inv := by
  refine calls.bitbucketUnlink (g := 0) hs fun p c r hp hs _ s' hx => ?_
  refine (hs.deleteDirectoryEntry (fun hr => hroot ?_) hx).1
  rw [hp, hr]
  rfl

/-- The two deletions of an rmdir request. They do not get through for `.`
and `..` of the root directory, because one of the two entries is gone when
the second deletion looks for it. -/
theorem Names.Inv.deleteDirectory {p i : Nat} {name : Name} {s1 : Volume}
    (hc : s.names.child p name = some i) (hi : s.names.isDir i)
    (hdel : bitbucketDeleteDirectoryEntry p name s = some (0, s1))
    (h : bitbucketDeleteDirectory i s1 = some (0, s')) : s'.names.Inv := by
  obtain ⟨hpar, -, h⟩ := deleteDirectory_inv h
  obtain ⟨-, ⟨-, h0, -⟩ | ⟨j, hj, -, ⟨-, hback, hn⟩ | ⟨hnd, -⟩⟩⟩ := names_deleteDirectoryEntry hdel
  · exact absurd h0 (by decide)
  · obtain rfl : i = j := by simpa [hc] using hj
    have hroot : p = s.root → Proper name := by
      rintro rfl
      constructor
      · rintro rfl
        obtain rfl : s.root = i := mem_unique hs.rootSelf hc
        obtain ⟨-, ⟨-, h0, -⟩ | ⟨k, hk, -, -⟩⟩ := names_deleteDirectoryEntry h
        · exact absurd h0 (by decide)
        · rw [hn, detach_child_dot, put_child_self] at hk
          cases hk
      · rintro rfl
        obtain rfl : s.root = i := mem_unique hs.rootUp hc
        rw [detach, put_child_self] at hn
        have : s1.parent s.root = some s.root :=
          (congrFun (congrArg Names.parent hn) s.root).trans hs.rootParent
        rw [hpar] at this
        cases this
    obtain ⟨hs1, -, hr⟩ := hs.deleteDirectoryEntry hroot hdel
    refine (hs1.deleteDirectoryEntry (fun he => ?_) h).1
    obtain rfl : i = s.root := he.trans hr
    exact absurd hc (hs.rootUnnamed _ _ (hroot (hs.root_of_back hc hback)))
  · obtain rfl : i = j := by simpa [hc] using hj
    exact absurd hi hnd

theorem Names.Inv.bitbucketRmdir :
    Ends (bitbucketRmdir parent name) s fun _ s' => s'.names.Inv := by
  refine calls.bitbucketRmdir (g := 0) hs (fun _ _ _ _ _ _ h => h)
    fun p i c r s1 _ hi hdir hs hdel status s' hx h0 => ?_
  subst h0
  exact hs.deleteDirectory hi hdir hdel hx

end

/-- A rename that changes a name does so for inodes that are not
directories. -/
def Volume.RenamesFiles (s : Volume) (p q i : Nat) (name newname : Name) (flags : Nat) : Prop :=
  s.RenameActs p q i name newname flags → s.inodeType i ≠ .dir ∧ (flags &&& renameExchange ≠ 0 →
      ∀ j ∈ s.child q newname, s.inodeType j ≠ .dir)

theorem Names.Inv.moveEntry {p q i : Nat} (hs : s.names.Inv) (hi : ¬ s.names.isDir i)
    (hname : Proper name) : Ends (moveEntry p q i name newname) s fun _ s' => s'.names.Inv := by
  intro status s' hx
  obtain ⟨_, s1, hins, hx⟩ := bind_inv hx
  exact ((hs.insertNew hi hins).1.deleteDirectoryEntry (fun _ => hname) hx).1

theorem Names.Inv.exchangeObjectsInDirectory {p q i j : Nat} {name newname : Name} {status : Int}
    (hs : s.names.Inv) (hc : s.names.child p name = some i) (hc' : s.names.child q newname = some j)
    (hi : ¬ s.names.isDir i) (hj : ¬ s.names.isDir j)
    (h : bitbucketExchangeObjectsInDirectory p q name newname s = some (status, s')) :
    s'.names.Inv := by
  rcases names_exchangeObjectsInDirectory h with hn | ⟨-, i', j', hi', hj', hn⟩
  · exact hn ▸ hs
  obtain rfl : i = i' := mem_unique hc hi'
  obtain rfl : j = j' := mem_unique hc' hj'
  obtain ⟨hp, hin⟩ := hs.used _ _ _ hc
  obtain ⟨hq, hjn⟩ := hs.used _ _ _ hc'
  rw [hn]
  have hs1 : (s.names.put p name (some j)).Inv := by
    refine hs.put_file (fun k hk => ?_) fun k hk => ?_
    · obtain rfl : i = k := mem_unique hc hk
      exact hi
    · obtain rfl : j = k := some.inj hk
      exact ⟨hj, hp, hjn⟩
  refine hs1.put_file (fun k hk => ?_) fun k hk => ?_
  · rw [put_child] at hk
    obtain rfl : j = k := by
      split at hk
      · exact some.inj hk
      · exact mem_unique hc' hk
    exact hj
  · obtain rfl : i = k := some.inj hk
    exact ⟨hi, hq, hin⟩

theorem Names.Inv.bitbucketRename {newparent flags : Nat} (hs : s.names.Inv)
    (hcond : ∀ p ∈ s.resolve parent, ∀ q ∈ s.resolve newparent,
      ∀ i ∈ s.child p name, s.RenamesFiles p q i name newname flags) :
    Ends (bitbucketRename parent name newparent newname flags) s fun _ s' => s'.names.Inv := by
  have hfile : ∀ {p q i}, s.Renames parent name newparent newname flags p q i →
      s.inodeType i ≠ .dir ∧ (flags &&& renameExchange ≠ 0 →
        ∀ j ∈ s.child q newname, s.inodeType j ≠ .dir) :=
    fun h => hcond _ h.parent _ h.newparent _ h.child h.acts
  refine calls.bitbucketRename (g := 0) hs fun p q i c r status s' h hs hstep => ?_
  cases hstep with
  | move _ hx => exact hs.moveEntry (hfile h).1 h.acts.1 _ _ hx
  | exchange hj hex hx =>
    exact hs.exchangeObjectsInDirectory h.child hj (hfile h).1 ((hfile h).2 hex _ hj) hx
  | replace hj _ hdel hx =>
    obtain ⟨hs, hdirs, -⟩ := hs.deleteDirectoryEntry (fun _ => h.acts.2.1) hdel
    refine hs.moveEntry ?_ h.acts.1 _ _ hx
    rw [hdirs]
    exact (hfile h).1

end Handlers

/-! ## Runs -/

/-- The requests that change names. -/
def Request.EditsNames : Request → Prop
  | .mkdir .. | .create .. | .symlink .. | .link .. | .rename .. | .unlink ..
  | .rmdir .. => True
  | _ => False

/-- The requests that leave the directories a tree: all but those that rename
a directory, and those that unlink `.` or `..` of the root directory. -/
def Volume.KeepsTree (s : Volume) : Request → Prop
  | .rename parent name newparent newname flags =>
    ∀ p ∈ s.resolve parent, ∀ q ∈ s.resolve newparent, ∀ i ∈ s.child p name,
      s.RenamesFiles p q i name newname flags
  | .unlink parent name => s.resolve parent = some s.root → Proper name
  | _ => True

instance (s : Volume) (p q i : Nat) (name newname : Name) (flags : Nat) :
    Decidable (s.RenameActs p q i name newname flags) := by
  delta RenameActs
  infer_instance

instance (s : Volume) (p q i : Nat) (name newname : Name) (flags : Nat) :
    Decidable (s.RenamesFiles p q i name newname flags) := by
  delta RenamesFiles
  infer_instance

instance : DecidablePred Request.EditsNames := fun r => by
  cases r <;> first | exact isTrue trivial | exact isFalse id

instance (s : Volume) (r : Request) : Decidable (s.KeepsTree r) := by
  cases r <;> dsimp only [KeepsTree] <;> infer_instance

theorem Names.Inv.step {u : Userdata} {s s' : Volume} {r : Request}
    {ev : List Reply} (hs : s.names.Inv) (hr : r.EditsNames ∧ s.KeepsTree r)
    (h : s.step u r = some (ev, s')) : s'.names.Inv := by
  obtain ⟨hr, hkeep⟩ := hr
  cases r with
  | mkdir => exact hs.bitbucketMkdir _ _ h
  | create => exact hs.bitbucketCreate _ _ h
  | symlink => exact hs.bitbucketSymlink _ _ h
  | link => exact hs.bitbucketLink _ _ h
  | rename => exact hs.bitbucketRename hkeep _ _ h
  | unlink => exact hs.bitbucketUnlink hkeep _ _ h
  | rmdir => exact hs.bitbucketRmdir _ _ h
  | _ => exact hr.elim

/-- A root directory and nothing else. -/
structure Names.RootOnly (t : Names) : Prop where
  isDir : ∀ i, t.isDir i ↔ i = t.root
  child : ∀ d n i, t.child d n = some i ↔ d = t.root ∧ i = t.root ∧ ¬ Proper n
  parent : ∀ d p, t.parent d = some p ↔ d = t.root ∧ p = t.root
  rootMode : t.rootMode &&& sIFDIR = sIFDIR
  next : t.root < t.next

theorem Names.RootOnly.inv {t : Names} (h : t.RootOnly) : t.Inv := by
  refine ⟨(h.isDir _).mpr rfl, ?_, ?_, (h.parent _ _).mpr ⟨rfl, rfl⟩, h.rootMode,
    ?_, ?_, ?_, ?_, ?_, ?_⟩
  · exact (h.child _ _ _).mpr ⟨rfl, rfl, fun h => h.1 rfl⟩
  · exact (h.child _ _ _).mpr ⟨rfl, rfl, fun h => h.2 rfl⟩
  · intro d n hn hc
    exact ((h.child _ _ _).mp hc).2.2 hn
  · intro d n i _ hn hc _
    exact absurd hn ((h.child _ _ _).mp hc).2.2
  · intro d n e m i hn _ hc _ _
    exact absurd hn ((h.child _ _ _).mp hc).2.2
  · intro d n i hc _ _
    rw [((h.child _ _ _).mp hc).1]
    exact .root
  · intro d n i hc
    obtain ⟨rfl, rfl, -⟩ := (h.child _ _ _).mp hc
    exact ⟨h.next, h.next⟩
  · intro i hi
    rw [(h.isDir i).mp hi]
    exact h.next

theorem names_mountRoot {new : NewInode} {u : Unit} {s : Volume}
    (h : mountRoot new .empty = some (u, s)) : s.names.RootOnly := by
  obtain ⟨d, s1, hr, h⟩ := bind_inv h
  obtain rfl := modify_inv h
  obtain ⟨rfl, s2, h1, h2⟩ := createRootDirectory_inv hr
  obtain ⟨-, -, -, hn1⟩ := names_insertNew h1
  obtain ⟨-, -, -, hn2⟩ := names_insertNew h2
  rw [hn1] at hn2
  have hn : { s1 with root := empty.next }.names = s1.names := by
    have : s1.root = empty.next := congrArg Names.root hn2
    rw [← this]
  rw [hn, hn2]
  refine ⟨fun i => ?_, fun d n i => ?_, fun d p => ?_, ?_, Nat.lt_succ_self 0⟩
  · show ((empty.create .dir new false).inode i).inodeType = .dir ↔ i = 0
    by_cases hi : i = 0
    · simp [hi, create, empty, initialInode]
    · simp [hi, create, empty, initialInode]
  · have hnone : (Volume.empty.create .dir new false).child d n = none := by
      simp [Volume.child, create, Volume.empty, findEntry]
    show ((((empty.create .dir new false).names.put 0 dot
      (some 0)).put 0 dotdot (some 0)).child d n = some i) ↔ d = 0 ∧ i = 0 ∧ _
    rw [Names.put_child, Names.put_child,
      show (empty.create .dir new false).names.child d n = none from hnone]
    by_cases hd : d = 0
    · by_cases hup : n = dotdot
      · rw [if_pos ⟨hd, hup⟩]
        simp [hd, hup, Proper, eq_comm]
      by_cases hself : n = dot
      · rw [if_neg fun h => hup h.2, if_pos ⟨hd, hself⟩]
        simp [hd, hself, Proper, eq_comm]
      · simp [hup, hself, Proper]
    · simp [hd]
  · show ((empty.create .dir new false).setParent 0 (some 0)).parent d = some p ↔ d = 0 ∧ p = 0
    by_cases hd : d = 0
    · simp [hd, Volume.setParent, eq_comm]
    · simp [hd, Volume.setParent, create, Volume.empty]
  · show ((empty.create .dir new false).inode 0).mode &&& sIFDIR = sIFDIR
    simp only [create, empty, Function.update_self, initialInode]
    decide

/-- From a new root directory, as long as no directory is renamed and the
root keeps its own two entries, the directories are a tree after every
request. -/
theorem names_stay_tree (u : Userdata) {new : NewInode} {s : Volume}
    (hroot : mountRoot new .empty = some ((), s)) (rs : List Request)
    (hrs : Along (step u) (fun s r => r.EditsNames ∧ s.KeepsTree r) s rs) :
    Always (step u) (fun s => s.names.Tree) s rs :=
  always_of_along (fun _ hs => Names.Inv.tree hs)
    (fun _ _ _ _ hs hr h => hs.step hr h) (names_mountRoot hroot).inv hrs

/-- A file is moved out of a directory, which is then removed. -/
theorem names_stay_tree_rename_file : ∃ s, mountRoot ⟨5, 0⟩ .empty = some ((), s) ∧
    (run (step .plain) s [.mkdir 1 ['a'] 0o755 ⟨6, 0⟩, .create 6 ['f'] 0o644 ⟨7, 0⟩,
       .rename 6 ['f'] 1 ['g'] 0, .rmdir 1 ['a']]).map Prod.fst =
      some [.entry 6, .create 7, .err 0, .err 0] ∧
    Always (step .plain) (fun s => s.names.Tree) s
      [.mkdir 1 ['a'] 0o755 ⟨6, 0⟩, .create 6 ['f'] 0o644 ⟨7, 0⟩,
       .rename 6 ['f'] 1 ['g'] 0, .rmdir 1 ['a']] :=
  exists_always (K := fun s r => r.EditsNames ∧ s.KeepsTree r)
    (by decide +kernel) fun _ hs hkeeps => names_stay_tree _ hs _ hkeeps

/-- A directory that is renamed in its own parent loses `..` for good. -/
theorem renamed_directory_loses_parent : ∃ s s' tr, mountRoot ⟨5, 0⟩ .empty = some ((), s) ∧
    run (step .plain) s [.mkdir 1 ['a'] 0o755 ⟨6, 0⟩, .rename 1 ['a'] 1 ['b'] 0] = some (tr, s') ∧
    tr = [.entry 6, .err 0] ∧ s'.names.Reachable 1 ∧
    s'.names.child 1 dotdot = none ∧ s'.names.parent 1 = none ∧
    ¬ s'.names.Tree := by
  refine exists_run (K := fun _ _ => True) (P := fun _ tr s' =>
    tr = [.entry 6, .err 0] ∧ s'.root = 0 ∧ s'.inodeType 1 = .dir ∧
      s'.child 0 ['b'] = some 1 ∧ s'.child 1 dotdot = none ∧ s'.parent 1 = none)
    (by decide +kernel) ?_
  rintro s tr s' - - - ⟨htr, hroot, hdir, hchild, hup, hparent⟩
  have hreach : s'.names.Reachable 1 := by
    refine .child (d := 0) (n := ['b']) ?_ (by decide) hchild hdir
    rw [← hroot]
    exact .root
  refine ⟨htr, hreach, hup, hparent, fun ht => ?_⟩
  have hne : 1 ≠ s'.names.root := by
    rw [show s'.names.root = 0 from hroot]
    decide
  obtain ⟨p, n, -, -, -, -, hp⟩ := ht.up 1 hreach hne
  exact nomatch hparent.symm.trans hp

end Finesse.Bitbucket
