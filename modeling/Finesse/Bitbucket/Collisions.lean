import Finesse.Bitbucket.Tree

/-!
# Names that exist already

A request for a new directory, file or symbolic link under a name that is
taken. The functions that make the inode enter it under its name last, and
take it for granted that the name is free: when it is not, an assertion fails
with the new inode in the table. `bitbucket_internal_create` looks for the
name first and replies `EEXIST`, but then an assertion fails that it has
found none. So none of these requests, in any state, does what it should.
-/

namespace Finesse.Bitbucket

open Prog Volume

/-- The parent and the name of a request that makes an inode. -/
def Request.makes : Request → Option (Nat × Name)
  | .mkdir parent name _ _ => some (parent, name)
  | .create parent name _ _ => some (parent, name)
  | .symlink _ parent name _ => some (parent, name)
  | _ => none

namespace Volume

/-- The name is in the directory already. -/
def Taken (s : Volume) (parent : Nat) (name : Name) : Prop :=
  ∃ p, s.resolve parent = some p ∧ s.inodeType p = .dir ∧ s.child p name ≠ none

/-- The inode table, the entries, the link counts and the references are as
before. -/
structure AsBefore (s s' : Volume) : Prop where
  table : s'.table = s.table
  live : s'.live = s.live
  entries : s'.entries = s.entries
  nlink : ∀ i, (s'.inode i).nlink = (s.inode i).nlink
  referenceCount : s'.referenceCount = s.referenceCount
  referenceReasons : s'.referenceReasons = s.referenceReasons

/-- A request for a name that is taken is refused with `EEXIST` and changes
nothing; create may open what is there instead. -/
def CollisionRight (u : Userdata) (s : Volume) (r : Request) : Prop :=
  ∀ parent name, r.makes = some (parent, name) → s.Taken parent name →
    ∃ rs s', r.handle u s = some (rs, s') ∧ (rs = [.err EEXIST] ∧ s.AsBefore s' ∨
        ∃ mode new i, r = .create parent name mode new ∧ rs = [.create (s.inode i).ino] ∧
          ∃ p, s.resolve parent = some p ∧ s.child p name = some i)

end Volume

variable {new : NewInode}

section Making

variable {s s' : Volume} {p i : Nat} {name : Name}

/-- A function that enters a new inode in a directory asserts that the name is
free. -/
theorem insertNew_child {d : Nat} {u : Unit} (h : insertNew d i name s = some (u, s')) :
    s.child d name = none ∧ ∀ q, q ≠ d → s'.child q = s.child q := by
  obtain ⟨-, -, hc, hn⟩ := names_insertNew h
  refine ⟨hc, fun q hq => ?_⟩
  have hput : s'.names.child = (s.names.put d name (some i)).child := by rw [hn]
  funext n
  exact (congrFun (congrFun hput q) n).trans (Names.put_child_of_ne fun h => hq h.1)

theorem create_child {t : InodeType} {a : NewInode} {b : Bool} (hp : p ≠ s.next) :
    (s.create t a b).child p = s.child p := by
  funext n
  simp [create, child, hp]

theorem createDirectory_child
    (h : bitbucketCreateDirectory p name new s = some (i, s')) : s.child p name = none := by
  obtain ⟨hl, -, rfl, s1, s2, h1, h2, h3⟩ := createDirectory_inv h
  have hp : p ≠ s.next := Nat.ne_of_lt (lt_next_of_live hl)
  have hfree := (insertNew_child h3).1
  rw [(insertNew_child h2).2 p hp, (insertNew_child h1).2 p hp] at hfree
  rw [← create_child (t := .dir) (a := new) (b := false) hp]
  exact hfree

theorem createSymlink_child {link : Name}
    (h : bitbucketCreateSymlink p name link new s = some (i, s')) : s.child p name = none := by
  obtain ⟨hl, -, rfl, hi⟩ := createSymlink_inv h
  have hp : p ≠ s.next := Nat.ne_of_lt (lt_next_of_live hl)
  rw [← create_child (t := .symlink) (a := new) (b := false) hp]
  exact (insertNew_child hi).1

end Making

section Handlers

variable {s s' : Volume} {rs : List Reply} {parent : Nat} {name : Name}

theorem Volume.Looked.child {o : Option Nat} (h : s.Looked s' o) : s'.child = s.child := by
  funext d n
  rw [Volume.child, h.entries, Volume.child]

/-- If mkdir comes back at all, the mode of the parent does not make it a
directory. -/
theorem mkdir_taken {mode : Nat} (ht : s.Taken parent name)
    (h : bitbucketMkdir parent name mode new s = some (rs, s')) : rs = [.err ENOTDIR] := by
  obtain ⟨p, hp, -, hc⟩ := ht
  obtain ⟨o, s1, hl, h⟩ := bind_inv h
  obtain ⟨rfl, hl⟩ := lookupInode_inv hl
  rw [hp] at h hl
  have h := get_bind_inv h
  split at h
  · obtain ⟨_, s2, -, h⟩ := bind_inv h
    exact (pure_inv h).1.symm
  obtain ⟨i, s2, hd, -⟩ := bind_inv h
  have hfree := createDirectory_child hd
  rw [hl.child] at hfree
  exact absurd hfree hc

theorem create_taken {u : Userdata} {mode : Nat}
    (ht : s.Taken parent name) : bitbucketCreate u parent name mode new s = none := by
  by_contra hne
  obtain ⟨⟨rs, s'⟩, h⟩ := Option.ne_none_iff_exists'.mp hne
  obtain ⟨p, hp, -, hc⟩ := ht
  obtain ⟨o, s1, hl, h⟩ := bind_inv h
  obtain ⟨rfl, hl⟩ := lookupInode_inv hl
  rw [hp] at h hl
  obtain ⟨i, s2, hi, h⟩ := bind_inv h
  obtain ⟨hnone, -⟩ := assert_bind_inv h
  rw [(lookupObject_inv hi).2.1, hl.child] at hnone
  exact hc hnone

/-- Under the number of an inode in the table, symlink does not come back;
under the root directory's, it does not find the parent or finds another one. -/
theorem symlink_taken {link : Name} (ht : s.Taken parent name)
    (h : bitbucketSymlink link parent name new s = some (rs, s')) :
    parent = fuseRootId ∧ rs ≠ [.err EEXIST] := by
  obtain ⟨p, hp, -, hc⟩ := ht
  obtain ⟨-, h⟩ := assert_bind_inv h
  obtain ⟨-, h⟩ := assert_bind_inv h
  obtain ⟨o, s1, hl, h⟩ := bind_inv h
  obtain ⟨ho, hl⟩ := lookupInTable_inv hl
  have root : parent = fuseRootId := by
    by_contra hne
    rw [resolve, if_neg hne] at hp
    rw [hp] at ho
    subst ho
    obtain ⟨i, s2, hd, -⟩ := bind_inv h
    have hfree := createSymlink_child hd
    rw [hl.child] at hfree
    exact hc hfree
  refine ⟨root, ?_⟩
  cases o with
  | none =>
    rw [← (pure_inv h).1]
    decide
  | some q =>
    obtain ⟨i, s2, -, h⟩ := bind_inv h
    obtain ⟨_, s3, -, h⟩ := bind_inv h
    obtain ⟨_, s4, -, h⟩ := bind_inv h
    obtain ⟨reply, s5, hr, h⟩ := bind_inv h
    obtain ⟨_, s6, -, h⟩ := bind_inv h
    have hr := get_bind_inv (modify_bind_inv hr)
    rw [← (pure_inv h).1, ← (pure_inv hr).1]
    intro h
    cases h

end Handlers

/-- A request that makes an inode is right exactly where its name is free. -/
theorem collision_right_iff (u : Userdata) (s : Volume) (r : Request) : s.CollisionRight u r ↔
      ∀ parent name, r.makes = some (parent, name) → ¬ s.Taken parent name := by
  constructor
  · intro h parent name hr ht
    obtain ⟨rs, s', hs, hres⟩ := h parent name hr ht
    cases r with
    | mkdir p n mode new =>
      cases hr
      have := mkdir_taken ht hs
      subst this
      rcases hres with ⟨he, -⟩ | ⟨_, _, _, he, -⟩
      · exact absurd he (by decide)
      · cases he
    | create p n mode new =>
      cases hr
      exact nomatch (create_taken ht).symm.trans hs
    | symlink link p n new =>
      cases hr
      rcases hres with ⟨he, -⟩ | ⟨_, _, _, he, -⟩
      · exact (symlink_taken ht hs).2 he
      · cases he
    | _ => cases hr
  · intro h parent name hr ht
    exact absurd ht (h parent name hr)

/-- The three requests for a name that has been made. -/
theorem collisions_fail : ∃ s s1 tr, newMount = some ((), s) ∧ Machine.run (Volume.step .plain) s
      [.mkdir 1 ['a'] 0o755 ⟨11, 0⟩, .mkdir 11 ['b'] 0o755 ⟨12, 0⟩] = some (tr, s1) ∧
    s1.Taken 11 ['b'] ∧
    ∀ r ∈ [Request.mkdir 11 ['b'] 0o755 ⟨13, 0⟩, .create 11 ['b'] 0o100644 ⟨13, 0⟩,
      .symlink ['c'] 11 ['b'] ⟨13, 0⟩], r.handle .plain s1 = none ∧
        ¬ s1.CollisionRight .plain r := by
  refine Machine.exists_run (K := fun _ _ => True) (P := fun _ _ s1 =>
    (s1.resolve 11 = some 6 ∧ s1.inodeType 6 = .dir ∧ s1.child 6 ['b'] ≠ none) ∧
      ∀ r ∈ [Request.mkdir 11 ['b'] 0o755 ⟨13, 0⟩, .create 11 ['b'] 0o100644 ⟨13, 0⟩,
        .symlink ['c'] 11 ['b'] ⟨13, 0⟩], r.makes = some (11, ['b']) ∧
          (r.handle .plain s1).isNone) (by decide +kernel) ?_
  rintro s tr s1 - - - ⟨⟨hp, hdir, hc⟩, hnone⟩
  have ht : s1.Taken 11 ['b'] := ⟨6, hp, hdir, hc⟩
  refine ⟨ht, fun r hr => ?_⟩
  obtain ⟨hmakes, hnone⟩ := hnone r hr
  rw [Option.isNone_iff_eq_none] at hnone
  refine ⟨hnone, fun h => ?_⟩
  obtain ⟨rs, s', hs, -⟩ := h 11 ['b'] hmakes ht
  exact nomatch hnone.symm.trans hs

end Finesse.Bitbucket
