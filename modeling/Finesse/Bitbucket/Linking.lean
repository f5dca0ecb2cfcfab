import Finesse.Bitbucket.LinkCounts

/-!
# What a link request does

If the new name is taken, the loop of the handler removes what it stands for
and ends, because the status of the removal takes the place of the one the
loop is about. The link is not made then, and the reply is the same.
-/

namespace Finesse.Bitbucket

open Prog Volume Option

section Functions

variable {s s' : Volume} {p i : Nat} {newname : Name}

/-- What the removal of a file does to its name: it stays if the mode is that
of a directory. -/
theorem removeFile_inv {status : Int}
    (h : bitbucketRemoveFileFromDirectory p newname s = some (status, s')) :
    (s'.child p newname = none ∧ ∀ j, s.child p newname = some j →
        (s.inode j).mode &&& sIFDIR ≠ sIFDIR) ∨
      ∃ j, s.child p newname = some j ∧ (s.inode j).mode &&& sIFDIR = sIFDIR ∧ s.SameLinks s' := by
  obtain ⟨o, s1, hl, h⟩ := bind_inv h
  obtain ⟨-, ho, hlook⟩ := lookupObject_inv hl
  have hs1 := Quiet.looked hlook
  cases o with
  | none =>
    obtain ⟨-, rfl⟩ := pure_inv h
    exact .inl ⟨(congrFun (congrFun hs1.child p) newname).trans ho.symm,
      fun j hj => absurd (ho.trans hj) nofun⟩
  | some j =>
    have h := get_bind_inv h
    rw [hlook.inode] at h
    split at h
    · next hmode =>
      obtain ⟨_, s2, hd, h⟩ := bind_inv h
      obtain ⟨-, rfl⟩ := pure_inv h
      exact .inr ⟨j, ho.symm, hmode, (hs1.trans (.dropLookup hd)).sameLinks⟩
    next hmode =>
    obtain ⟨-, h⟩ := assert_bind_inv h
    obtain ⟨-, h⟩ := assert_bind_inv h
    obtain ⟨status', s2, hdel, h⟩ := bind_inv h
    obtain ⟨_, s3, hd, h⟩ := bind_inv h
    obtain ⟨-, rfl⟩ := pure_inv h
    have hclear := (clear_deleteDirectoryEntry hdel).1
    refine .inl ⟨?_, fun k hk => ?_⟩
    · show s3.names.child p newname = none
      rw [names_dereference hd, hclear]
      exact Names.clear_child_self
    · obtain rfl := some.inj (ho.trans hk)
      exact hmode

/-- The link is made if the name is free. Otherwise the name goes, or nothing
happens. -/
theorem linkEntry_inv {u : Unit} (h : linkEntry p i newname s = some (u, s')) :
    s.inodeType p = .dir ∧ (s.child p newname = none ∧ (∃ s1, s.SameLinks s1 ∧ p < s1.next ∧
          s' = s1.insertEntry p i newname) ∨
        ∃ j, s.child p newname = some j ∧
          (s'.child p newname = none ∧ (s.inode j).mode &&& sIFDIR ≠ sIFDIR ∨
            (s.inode j).mode &&& sIFDIR = sIFDIR ∧ s.SameLinks s')) := by
  obtain ⟨status, s1, hi, h⟩ := bind_inv h
  obtain ⟨s2, hsame, -, hmode, hp, -, hdir, -, hcase⟩ := insertDirectoryEntry_edit hi
  refine ⟨(congrFun hsame.inodeType p).symm.trans hdir, ?_⟩
  have hchild : s.child p newname = (findEntry (s2.entries p) newname).map DirEntry.inode := by
    rw [hsame.entries]
    rfl
  rcases hcase with ⟨hc, rfl, rfl⟩ | ⟨hc, rfl, rfl⟩
  · rw [if_neg (by decide)] at h
    obtain ⟨-, rfl⟩ := pure_inv h
    exact .inl ⟨by rw [hchild, hc]; rfl, s2, hsame, hp, rfl⟩
  rw [if_pos rfl] at h
  obtain ⟨_, s3, hr, h⟩ := bind_inv h
  obtain ⟨-, rfl⟩ := pure_inv h
  obtain ⟨e, he⟩ := ne_none_iff_exists'.mp hc
  rw [he] at hchild
  have he1 : s1.child p newname = some e.inode := congrArg (Option.map DirEntry.inode) he
  refine .inr ⟨e.inode, hchild, ?_⟩
  rw [← hmode]
  rcases removeFile_inv hr with ⟨hnone, hm⟩ | ⟨j, hj, hm, hs3⟩
  · exact .inl ⟨hnone, hm _ he1⟩
  · obtain rfl := mem_unique he1 hj
    exact .inr ⟨hm, hsame.trans hs3⟩

end Functions

/-! ## The request -/

namespace Volume

/-- The entries that name an inode. -/
def nameCount (s : Volume) (i : Nat) : Nat :=
  ∑ d ∈ Finset.range s.next, (s.entries d).countP fun e => e.inode = i

/-- What a link request is for. -/
structure LinkRight (s s' : Volume) (ino newparent : Nat) (newname : Name)
    (rs : List Reply) : Prop where
  /-- The new name stands for the inode, whose count of links is that of its
  names, and only a file was replaced. -/
  linked : ∀ n, rs = [.entry n] → ∃ i p, s.table ino = some i ∧ s.resolve newparent = some p ∧
    s'.child p newname = some i ∧ (s'.inode i).nlink = s'.nameCount i ∧
    (∀ d m, ¬ (d = p ∧ m = newname) → s'.child d m = s.child d m) ∧
    ∀ j, s.child p newname = some j → s.inodeType j = .file
  /-- A directory is not replaced. -/
  refused : ∀ p j, s.resolve newparent = some p → s.child p newname = some j →
    s.inodeType j = .dir → (∃ e, e ≠ 0 ∧ rs = [.err e]) ∧ s.Quiet s'

/-- The request reaches the directory `p` with the file `i`. -/
structure LinkActs (s : Volume) (ino newparent i p : Nat) : Prop where
  notRoot : ino ≠ fuseRootId
  inode : s.table ino = some i
  parent : s.resolve newparent = some p
  file : s.inodeType i = .file

/-- The name is free, and the count of links is that of the names. A file
whose mode is that of a directory is not removed, so that its own name may
stand in the way. -/
def LinkEnters (s : Volume) (ino newparent : Nat) (newname : Name) : Prop :=
  ∀ i ∈ s.table ino, ∀ p ∈ s.resolve newparent, ino ≠ fuseRootId → s.inodeType i = .file →
    (s.inode i).nlink = s.nameCount i ∧ (s.child p newname = none ∨
      s.child p newname = some i ∧ (s.inode i).mode &&& sIFDIR = sIFDIR)

instance (s : Volume) (ino newparent : Nat) (newname : Name) :
    Decidable (s.LinkEnters ino newparent newname) := by
  delta LinkEnters
  infer_instance

section Counts

variable {s s' : Volume} {d i : Nat} {n : Name}

theorem SameLinks.nameCount (h : s.SameLinks s') (i : Nat) : s'.nameCount i = s.nameCount i := by
  rw [Volume.nameCount, Volume.nameCount, h.entries, h.next]

theorem SameLinks.child (h : s.SameLinks s') : s'.child = s.child := by
  funext d n
  rw [Volume.child, Volume.child, h.entries]

theorem nameCount_insertEntry (hd : d < s.next) :
    (s.insertEntry d i n).nameCount i = s.nameCount i + 1 := by
  have h := congrFun (congrFun (s.claimed_insertEntry d i (n := n) hd) .dirent) i
  exact h.trans (congrArg (s.nameCount i + ·) (Ledger.owe_self ..))

end Counts

end Volume

theorem link_cases {s s' : Volume} {ino newparent : Nat} {newname : Name} {rs : List Reply}
    (h : bitbucketLink ino newparent newname s = some (rs, s')) :
    ((∃ e, e ≠ 0 ∧ rs = [.err e]) ∧ s.Quiet s' ∧ ∀ i p, ¬ s.LinkActs ino newparent i p) ∨
      ∃ i p, s.LinkActs ino newparent i p ∧ (∃ n, rs = [.entry n]) ∧
        ∃ s1 s2 u, s.SameLinks s1 ∧ s1.inode = s.inode ∧
          linkEntry p i newname s1 = some (u, s2) ∧ s2.SameLinks s' := by
  revert s'
  revert rs
  show Ends _ s _
  have hP := Passes.calls (g := 0) (s := s)
  refine .ite (fun hroot => .pure (.inl ⟨⟨EISDIR, by decide, rfl⟩, .refl s,
    fun _ _ ha => ha.notRoot hroot⟩)) fun hroot => ?_
  refine hP.looked .refl (fun _ _ => lookupInTable_inv) (fun hi => ?_) fun i _ _ hi h => ?_
  · exact .pure (.inl ⟨⟨EBADF, by decide, rfl⟩, .refl s, fun i p ha =>
      nomatch hi.symm.trans ha.inode⟩)
  refine hP.looked h (fun _ _ => lookupInode_inv) (fun hp => ?_) fun p c r hp h => ?_
  · exact hP.drop h rfl fun _ h => .pure (.inl ⟨⟨EBADF, by decide, rfl⟩, h.quiet,
      fun i p ha => nomatch hp.symm.trans ha.parent⟩)
  refine .get_bind (.ite (fun ht => ?_) fun ht => ?_)
  · refine hP.drop h (add_right_comm _ _ _) fun _ h => hP.drop h rfl fun _ h =>
      .pure (.inl ⟨⟨_, ?_, rfl⟩, h.quiet, fun j q ha => ht ?_⟩)
    · split <;> decide
    · obtain rfl : i = j := mem_unique hi ha.inode
      exact ha.file
  intro rs s' hx
  obtain ⟨u, s2, hent, hx⟩ := bind_inv hx
  refine .inr ⟨i, p, ⟨hroot, hi, hp, not_not.mp ht⟩, ?_⟩
  suffices hend : (∃ n, rs = [.entry n]) ∧ s2.Quiet s' from
    ⟨hend.1, s.recount c r, s2, u, h.quiet.sameLinks, rfl, hent, hend.2.sameLinks⟩
  obtain ⟨_, s3, hr, hx⟩ := bind_inv hx
  obtain ⟨reply, s4, hrep, hx⟩ := bind_inv hx
  obtain ⟨_, s5, hd, hx⟩ := bind_inv hx
  obtain ⟨_, s6, hd', hx⟩ := bind_inv hx
  obtain ⟨rfl, rfl⟩ := pure_inv hx
  have hq := (Quiet.reference hr).trans (.replyEntry hrep)
  have hrep := get_bind_inv (modify_bind_inv hrep)
  obtain ⟨rfl, -⟩ := pure_inv hrep
  exact ⟨⟨_, rfl⟩, hq.trans ((Quiet.dropLookup hd).trans (.dropLookup hd'))⟩

theorem linkEntry_right {s s' : Volume} {p i : Nat} {newname : Name} {u : Unit}
    (h : linkEntry p i newname s = some (u, s')) (hi : s.inodeType i = .file) :
    (s'.child p newname = some i ∧ (s'.inode i).nlink = s'.nameCount i ↔
      (s.inode i).nlink = s.nameCount i ∧ (s.child p newname = none ∨
        s.child p newname = some i ∧ (s.inode i).mode &&& sIFDIR = sIFDIR)) ∧
    (s'.child p newname = some i →
      ∀ d m, ¬ (d = p ∧ m = newname) → s'.child d m = s.child d m) := by
  obtain ⟨hdir, ⟨hfree, s1, hsame, hp, rfl⟩ | ⟨j, hj, hcase⟩⟩ := linkEntry_inv h
  · have hip : i ≠ p := by
      rintro rfl
      exact nomatch hi.symm.trans hdir
    have hnames : ∀ d m, (s1.insertEntry p i newname).child d m =
        (s1.names.put p newname (some i)).child d m := fun d m =>
      congrFun (congrFun (congrArg Names.child (s1.names_insertEntry ..)) d) m
    refine ⟨?_, fun _ d m hdm => ?_⟩
    · rw [hnames, Names.put_child_self, insertEntry_nlink,
        nameCount_insertEntry hp, if_pos ⟨rfl, hip⟩, hsame.nlink,
        hsame.nameCount, Nat.add_right_cancel_iff]
      exact ⟨fun h => ⟨h.2, .inl hfree⟩, fun h => ⟨rfl, h.1⟩⟩
    · rw [hnames, Names.put_child_of_ne hdm]
      exact congrFun (congrFun hsame.child d) m
  · rcases hcase with ⟨hgone, hmode⟩ | ⟨hmode, hsame⟩
    · rw [hgone, hj]
      refine ⟨⟨fun h => absurd h.1 nofun, ?_⟩, nofun⟩
      rintro ⟨-, hnone | ⟨hij, hm⟩⟩
      · cases hnone
      · obtain rfl := some.inj hij
        exact absurd hm hmode
    · refine ⟨?_, fun _ d m _ => congrFun (congrFun hsame.child d) m⟩
      rw [hsame.child, hsame.nlink, hsame.nameCount, hj]
      constructor
      · rintro ⟨hij, hn⟩
        obtain rfl := some.inj hij
        exact ⟨hn, .inr ⟨rfl, hmode⟩⟩
      · rintro ⟨hn, hnone | ⟨hij, -⟩⟩
        · cases hnone
        · exact ⟨hij, hn⟩

/-- A link request does what it is for exactly if the name is free and the
count of links was right before. -/
theorem link_right_iff {s s' : Volume} {ino newparent : Nat} {newname : Name} {rs : List Reply}
    (h : bitbucketLink ino newparent newname s = some (rs, s')) :
    s.LinkRight s' ino newparent newname rs ↔
      s.LinkEnters ino newparent newname := by
  rcases link_cases h with ⟨⟨e, he, rfl⟩, hq, hnone⟩ |
    ⟨i, p, hacts, ⟨n, rfl⟩, s1, s2, u, hsame, hinode, hent, hend⟩
  · refine iff_of_true ⟨nofun, fun _ _ _ _ _ => ⟨⟨e, he, rfl⟩, hq⟩⟩ ?_
    intro i hi p hp hroot hfile
    exact absurd ⟨hroot, hi, hp, hfile⟩ (hnone i p)
  have hchild1 := hsame.child
  obtain ⟨hright, hothers⟩ := linkEntry_right hent ((congrFun hsame.inodeType i).trans hacts.file)
  rw [hchild1, hsame.nlink, hsame.nameCount, hinode, ← hend.child,
    ← hend.nlink, ← hend.nameCount] at hright
  rw [hchild1, ← hend.child] at hothers
  constructor
  · intro hlink i' hi' p' hp' _ _
    obtain rfl := mem_unique hacts.inode hi'
    obtain rfl := mem_unique hacts.parent hp'
    obtain ⟨i', p', hi', hp', hc, hn, -⟩ := hlink.linked n rfl
    obtain rfl := mem_unique hacts.inode hi'
    obtain rfl := mem_unique hacts.parent hp'
    exact hright.mp ⟨hc, hn⟩
  intro hcond
  have hcond := hcond i hacts.inode p hacts.parent hacts.notRoot hacts.file
  have hfile : ∀ j, s.child p newname = some j → s.inodeType j = .file := by
    intro j hj
    rcases hcond.2 with hfree | ⟨hij, -⟩
    · exact nomatch hfree.symm.trans hj
    · obtain rfl := mem_unique hij hj
      exact hacts.file
  obtain ⟨hc, hn⟩ := hright.mpr hcond
  refine ⟨fun _ _ => ⟨i, p, hacts.inode, hacts.parent, hc, hn, hothers hc,
    hfile⟩, fun p' j hp' hj hdir => ?_⟩
  obtain rfl := mem_unique hacts.parent hp'
  exact absurd ((hfile j hj).symm.trans hdir) nofun

/-- A second name for a file. -/
theorem link_right_iff_second : ∃ s s1 rs s', mountRoot ⟨5, 0⟩ .empty = some ((), s) ∧
    (Machine.run (step .plain) s [.create 1 ['f'] 0o100644 ⟨6, 0⟩]).map Prod.snd = some s1 ∧
    bitbucketLink 6 1 ['g'] s1 = some (rs, s') ∧ rs = [.entry 6] ∧
    s1.LinkRight s' 6 1 ['g'] rs := by
  have hrun : ((mountRoot ⟨5, 0⟩ .empty).bind fun p =>
      ((Machine.run (step .plain) p.2 [.create 1 ['f'] 0o100644 ⟨6, 0⟩]).map Prod.snd).bind
      fun s => (bitbucketLink 6 1 ['g'] s).map fun q =>
        (q.1, decide (s.LinkEnters 6 1 ['g']))) =
      some ([.entry 6], true) := by
    decide +kernel
  obtain ⟨⟨_, s⟩, hs, hrun⟩ := bind_eq_some_iff.mp hrun
  obtain ⟨s1, hs1, hrun⟩ := bind_eq_some_iff.mp hrun
  obtain ⟨⟨rs, s'⟩, hr, hend⟩ := map_eq_some_iff.mp hrun
  simp only [Prod.mk.injEq, decide_eq_true_eq] at hend
  exact ⟨s, s1, rs, s', hs, hs1, hr, hend.1, (link_right_iff hr).mpr hend.2⟩

/-- A link over a file removes the file and is not made, and one over a
directory is not made either. Both are answered with the entry. -/
theorem link_over_replies_entry : ∃ s s1 s2 s3, mountRoot ⟨5, 0⟩ .empty = some ((), s) ∧
    (Machine.run (step .plain) s [.create 1 ['f'] 0o100644 ⟨6, 0⟩, .create 1 ['g'] 0o100644 ⟨7, 0⟩,
        .mkdir 1 ['d'] 0o755 ⟨8, 0⟩]).map Prod.snd = some s1 ∧
    bitbucketLink 6 1 ['g'] s1 = some ([.entry 6], s2) ∧
    s1.child 0 ['g'] = some 2 ∧ s2.child 0 ['g'] = none ∧
    ¬ s1.LinkRight s2 6 1 ['g'] [.entry 6] ∧
    bitbucketLink 6 1 ['d'] s1 = some ([.entry 6], s3) ∧
    s1.child 0 ['d'] = some 3 ∧ s3.child 0 ['d'] = some 3 ∧
    ¬ s1.LinkRight s3 6 1 ['d'] [.entry 6] := by
  have hrun : ((mountRoot ⟨5, 0⟩ .empty).bind fun p =>
      ((Machine.run (step .plain) p.2
        [.create 1 ['f'] 0o100644 ⟨6, 0⟩, .create 1 ['g'] 0o100644 ⟨7, 0⟩,
          .mkdir 1 ['d'] 0o755 ⟨8, 0⟩]).map Prod.snd).bind
      fun s => (bitbucketLink 6 1 ['g'] s).bind fun q =>
        (bitbucketLink 6 1 ['d'] s).map fun q' =>
          ((q.1, q'.1, s.root), (s.child 0 ['g'], q.2.child 0 ['g']),
            s.child 0 ['d'], q'.2.child 0 ['d'], s.inodeType 3)) =
      some (([.entry 6], [.entry 6], 0), (some 2, none), some 3, some 3, .dir) := by
    decide +kernel
  obtain ⟨⟨_, s⟩, hs, hrun⟩ := bind_eq_some_iff.mp hrun
  obtain ⟨s1, hs1, hrun⟩ := bind_eq_some_iff.mp hrun
  obtain ⟨⟨rs, s2⟩, hg, hrun⟩ := bind_eq_some_iff.mp hrun
  obtain ⟨⟨rs', s3⟩, hd, hend⟩ := map_eq_some_iff.mp hrun
  simp only [Prod.mk.injEq] at hend
  obtain ⟨⟨rfl, rfl, hroot⟩, ⟨hg1, hg2⟩, hd1, hd3, htype⟩ := hend
  have hres : s1.resolve 1 = some 0 := congrArg some hroot
  refine ⟨s, s1, s2, s3, hs, hs1, hg, hg1, hg2, fun hright => ?_, hd, hd1, hd3, fun hright => ?_⟩
  · obtain ⟨i, p, -, hp, hc, -⟩ := hright.linked 6 rfl
    obtain rfl := mem_unique hres hp
    exact nomatch hg2.symm.trans hc
  · obtain ⟨⟨e, -, he⟩, -⟩ := hright.refused 0 3 hres hd1 htype
    cases he

end Finesse.Bitbucket
