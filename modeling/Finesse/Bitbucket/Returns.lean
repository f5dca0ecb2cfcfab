import Finesse.Bitbucket.Orderly

/-!
# Functions that do not fail

On a volume whose counts are those of the references that are held, the
functions of `dir.c` find the assertions true that they make about
directories. The arguments go through the functions step by step: what a step
has done is known from the lemmas about functions that have returned, and
what is left to see is that the next assertion holds.
-/

namespace Finesse.Bitbucket

open Prog
open Ledger Volume Option

/-! ## References -/

/-- The storage of the file can be given back. -/
def File.Disposable (f : File) : Prop :=
  match f.map, f.storage with
  | .null, _ => True
  | .dangling, none => False
  | _, none => True
  | _, some _ => f.size ≠ 0

/-- The inode can be freed. -/
def Volume.Disposable (s : Volume) (i : Nat) : Prop :=
  match s.inodeType i with
  | .dir => s.entries i = []
  | .file => (s.inode i).file.Disposable
  | .symlink => True

theorem returns_fileDeallocate {f : File} (h : f.Disposable) (t : Volume) :
    Returns (fileDeallocate f) t := by
  rw [File.Disposable] at h
  rw [fileDeallocate]
  cases hm : f.map <;> cases hs : f.storage <;> rw [hm, hs] at h
  all_goals first
    | exact .pure ()
    | exact .assert h

theorem returns_registeredDeallocate {s : Volume} {i : Nat} (h : s.Disposable i)
    (t : Volume) : Returns (registeredDeallocate s i) t := by
  rw [Disposable] at h
  rw [registeredDeallocate]
  cases ht : s.inodeType i with
  | dir =>
    rw [ht] at h
    exact .assert h
  | file =>
    rw [ht] at h
    exact returns_fileDeallocate h t
  | symlink => exact .pure ()

theorem returns_dereference {s : Volume} {i b : Nat} {r : Reason} (hl : s.live i = true)
    (hc : b ≤ s.referenceCount i) (hr : b ≤ s.referenceReasons i r)
    (hlast : s.referenceCount i = b → (s.table (s.inode i).ino).isSome = true ∧ s.Disposable i) :
    Returns (bitbucketDereferenceInode i r b) s := by
  refine .bind_eq (checkMagic_eq hl) (.get_bind (.assert_bind hc (.assert_bind hr ?_)))
  refine .modify_bind ?_
  split
  · next hb =>
    obtain ⟨htable, hfree⟩ := hlast hb
    refine .get_bind (.assert_bind htable (.bind ?_ fun _ _ _ => ⟨_, _, rfl⟩))
    exact returns_registeredDeallocate (s := s.dropReferences i r b) hfree _
  · exact .pure ()

namespace Counts

variable {o : Account} {s : Volume} {i b : Nat}

theorem total_pos (h : Counts o s) (hi : s.live i = true) : 0 < o.total i := by
  rw [← h.total i hi]
  exact h.kept i hi

theorem live_of_total (h : Counts o s) (hi : 0 < o.total i) : s.live i = true := by
  by_contra hl
  have hzero : o.total i = 0 :=
    Finset.sum_eq_zero fun r _ => h.dead i r (Bool.eq_false_of_not_eq_true hl)
  omega

theorem reference (h : Counts o s) (hi : s.live i = true) (r : Reason) :
    bitbucketReferenceInode i r s = some ((), s.addReferences i r 1) := by
  refine reference_eq hi (Nat.ne_of_gt (h.kept i hi)) ?_
  rw [h.reasons i r hi, h.total i hi]
  exact le_total _ r i

theorem dereference {r : Reason} (h : Counts (o + owe r i b) s) (hi : 0 < o.total i) :
    bitbucketDereferenceInode i r b s = some ((), s.dropReferences i r b) ∧
      Counts o (s.dropReferences i r b) := by
  have htotal := total_add o (owe r i b) i
  rw [total_owe_self] at htotal
  have hl := h.live_of_total (i := i) (by omega)
  have hcount := h.total i hl
  refine ⟨dereference_eq hl (by omega) ?_, h.drop fun _ => by omega⟩
  rw [h.reasons i r hl, add_apply, owe_self]
  exact Nat.le_add_left _ _

end Counts

namespace Held

variable {m o : Account} {s s' : Volume} {i d : Nat} {r q : Reason} {u : Unit}

theorem live_of_pos (h : Held m o s) (hr : 0 < (s.claimed + o) r i) : s.live i = true := by
  by_contra hl
  rw [h.counts.dead i r (Bool.eq_false_of_not_eq_true hl)] at hr
  exact Nat.lt_irrefl 0 hr

theorem claimed_dirent_pos (h : Held m o s) {n : Name}
    (hc : s.child d n = some i) : 0 < s.claimed .dirent i := by
  obtain ⟨e, he, rfl⟩ := map_eq_some_iff.mp hc
  have hlt := lt_next_of_live (h.live_of_find he)
  have hpos : 0 < (s.entries d).countP fun a => a.inode = e.inode :=
    List.countP_pos_iff.mpr ⟨e, findEntry_mem he, decide_eq_true rfl⟩
  exact Nat.lt_of_lt_of_le hpos (Finset.single_le_sum
    (f := fun d => (s.entries d).countP fun a => a.inode = e.inode)
    (fun _ _ => Nat.zero_le _) (Finset.mem_range.mpr hlt))

theorem claimed_parent_pos (h : Held m o s) (hp : s.parent d = some i) :
    0 < s.claimed .parent i := by
  have hlive : s.live d = true := by
    by_contra hl
    rw [(h.gone d (Bool.eq_false_of_not_eq_true hl)).2] at hp
    cases hp
  have hle := Finset.single_le_sum (f := fun d => if s.parent d = some i then 1 else 0)
    (fun _ _ => Nat.zero_le _) (Finset.mem_range.mpr (lt_next_of_live hlive))
  rw [if_pos hp] at hle
  exact hle

theorem live_of_child (h : Held m o s) {n : Name}
    (hc : s.child d n = some i) : s.live i = true := by
  refine h.live_of_pos (r := .dirent) ?_
  rw [add_apply]
  exact Nat.add_pos_left (h.claimed_dirent_pos hc) _

theorem live_of_root (h : Held m (m + o) s) : s.live s.root = true := by
  refine h.live_of_pos (r := .lookup) ?_
  rw [add_apply, add_apply, ← h.mount]
  simp [mounted]

theorem returns_dereference (h : Held m o s) (hr : 0 < (s.claimed + o) r i)
    (hq : 0 < (s.claimed + o) q i) (hne : q ≠ r) : Returns (bitbucketDereferenceInode i r 1) s := by
  have hi := h.live_of_pos hr
  have hreasons := h.counts.reasons i r hi
  have htotal := h.counts.total i hi
  have htwo := add_le_total (s.claimed + o) hne i
  exact Bitbucket.returns_dereference hi (by omega) (by omega) fun hlast => by omega

theorem returns_dereference_disposable (h : Held m o s) (hr : 0 < (s.claimed + o) r i)
    (hfree : s.Disposable i) : Returns (bitbucketDereferenceInode i r 1) s := by
  have hi := h.live_of_pos hr
  have hreasons := h.counts.reasons i r hi
  refine Bitbucket.returns_dereference hi (h.counts.kept i hi) (by omega) fun _ => ⟨?_, hfree⟩
  rw [h.found i hi]
  rfl

end Held

theorem returns_lockInode {s : Volume} {i : Nat} (hi : s.live i = true) :
    Returns (bitbucketLockInode i) s :=
  ⟨_, _, lockInode_eq hi⟩

/-! ## Lookups -/

section Lookups

variable {m o : Account} {s : Volume} {d i ino : Nat} {name : Name}

namespace Counts

variable (h : Counts o s)
include h

theorem returns_lookupInTable (hino : ino ≠ 0)
    (hlive : ∀ i, s.table ino = some i → s.live i = true) :
    Returns (bitbucketLookupInodeInTable ino) s := by
  refine .assert_bind hino (.get_bind ?_)
  cases ht : s.table ino with
  | none => exact .pure _
  | some i => exact .bind_eq (h.reference (hlive i ht) _) (.pure _)

theorem returns_lookupInode (hino : ino ≠ 0)
    (hlive : ∀ i, s.resolve ino = some i → s.live i = true) : Returns (lookupInode ino) s := by
  refine .get_bind ?_
  split
  · next hroot => exact .bind_eq (h.reference (hlive _ (if_pos hroot)) _) (.pure _)
  · next hroot =>
    exact h.returns_lookupInTable hino fun i hi => hlive i ((if_neg hroot).trans hi)

theorem returns_lookupObject (hd : s.inodeType d = .dir)
    (hlive : ∀ i, s.child d name = some i → s.live i = true) :
    Returns (bitbucketLookupObjectInDirectory d name) s := by
  refine .get_bind (.assert_bind hd ?_)
  cases hc : findEntry (s.entries d) name with
  | none => exact .pure _
  | some e =>
    exact .bind_eq (h.reference (hlive _ (congrArg (Option.map DirEntry.inode) hc)) _) (.pure _)

end Counts

theorem Held.live_of_resolve (h : Held m (m + o) s) (hi : s.resolve ino = some i) :
    s.live i = true := by
  rw [resolve] at hi
  split at hi
  · rw [← Option.some.inj hi]
    exact h.live_of_root
  · exact (h.table ino i hi).1

theorem Held.returns_lookupInode (h : Held m (m + o) s) (hino : ino ≠ 0) :
    Returns (lookupInode ino) s :=
  h.counts.returns_lookupInode hino fun _ => h.live_of_resolve

theorem Held.returns_lookupObject (h : Held m o s) (hd : s.inodeType d = .dir) :
    Returns (bitbucketLookupObjectInDirectory d name) s :=
  h.counts.returns_lookupObject hd fun _ => h.live_of_child

end Lookups

/-! ## Entries -/

section Entries

variable {m o : Account} {X : InodeType → Prop} {s s' : Volume} {d i : Nat} {name : Name}

theorem Volume.Counted.nlink_pos (h : s.Counted X) (hX : X .dir) (hi : s.live i = true)
    (hdir : s.inodeType i = .dir) : 0 < (s.inode i).nlink := by
  rw [h.links i (lt_next_of_live hi) (hdir ▸ hX), if_pos hdir]
  omega

namespace Counts

variable (h : Counts o s)
include h

theorem returns_insertDirectoryEntry (hd : s.inodeType d = .dir) (hlive : s.live d = true)
    (hi : s.live i = true) (hname : Short name) :
    Returns (bitbucketInsertDirectoryEntry d i name) s := by
  refine .get_bind (.assert_bind hd (.assert_bind hname.1 (.assert_bind hname.2 ?_)))
  refine .bind_eq (h.reference hi _) (.bind ?_ fun _ s2 hl => .get_bind ?_)
  · rw [Bitbucket.lockForInsert]
    split
    · next hne =>
      refine .assert_bind hne (.bind (returns_lockInode hlive) ?_)
      intro _ s2 hl
      rw [(lockInode_inv hl).2]
      exact returns_lockInode hi
    · exact returns_lockInode hlive
  · cases findEntry (s2.entries d) name with
    | none => exact .modify_bind (.pure _)
    | some e => exact .pure _

theorem returns_insertNew (hd : s.inodeType d = .dir) (hlive : s.live d = true)
    (hi : s.live i = true) (hname : Short name) (hfree : s.child d name = none) :
    Returns (Bitbucket.insertNew d i name) s := by
  refine .bind (h.returns_insertDirectoryEntry hd hlive hi hname) ?_
  intro status s1 hins
  obtain ⟨-, -, ⟨-, hz, -⟩ | ⟨hne, -, -⟩⟩ := names_insertDirectoryEntry hins
  · exact .assert hz
  · exact absurd hfree hne

end Counts

/-- Inodes are freed, and no others are made. Only directories move. -/
structure Volume.Tame (s s' : Volume) : Prop where
  live : ∀ i, s'.live i = true → s.live i = true
  inodeType : s'.inodeType = s.inodeType
  parent : ∀ i, s.inodeType i ≠ .dir → s'.parent i = s.parent i
  file : ∀ i, (s'.inode i).file = (s.inode i).file

namespace Volume.Tame

variable {r : Reason}

instance : Std.Refl Tame :=
  ⟨fun _ => ⟨fun _ => id, rfl, fun _ _ => rfl, fun _ => rfl⟩⟩

instance : IsTrans Volume Tame where
  trans _ _ _ h h' :=
    { live := fun i hi => h.live i (h'.live i hi)
      inodeType := h'.inodeType.trans h.inodeType
      parent := fun i hi => (h'.parent i (by rwa [h.inodeType])).trans (h.parent i hi)
      file := fun i => (h'.file i).trans (h.file i) }

theorem setInode {f : Inode → Inode} (ht : ∀ k, (f k).inodeType = k.inodeType)
    (hf : ∀ k, (f k).file = k.file) : s.Tame (s.setInode i f) := by
  refine ⟨fun _ => id, inodeType_setInode ht, fun _ _ => rfl, fun j => ?_⟩
  by_cases hj : j = i
  · subst hj
    simp [setInode, hf]
  · simp [Volume.setInode, hj]

theorem free (s : Volume) : s.Tame (s.free i) := by
  refine ⟨fun j hj => ?_, rfl, fun _ _ => rfl, fun _ => rfl⟩
  by_contra hl
  simp [Volume.free, Function.update_apply, Bool.eq_false_of_not_eq_true hl] at hj

theorem insertEntry : s.Tame (s.insertEntry d i name) := by
  have hset (f : List DirEntry → List DirEntry) : s.Tame (s.setEntries d f) :=
    ⟨fun _ => id, rfl, fun _ _ => rfl, fun _ => rfl⟩
  rw [Volume.insertEntry]
  split
  · exact IsTrans.trans _ _ _ (hset _) (setInode (fun _ => rfl) fun _ => rfl)
  · exact hset _

theorem reference : Keeps Tame (bitbucketReferenceInode i r) := by
  intro s u s' h
  rw [(reference_inv h).2.2.2]
  exact ⟨fun _ => id, rfl, fun _ _ => rfl, fun _ => rfl⟩

theorem dereference {b : Nat} : Keeps Tame (bitbucketDereferenceInode i r b) := by
  intro s u s' h
  obtain ⟨-, -, -, h⟩ := dereference_inv h
  have hdrop : s.Tame (s.dropReferences i r b) := ⟨fun _ => id, rfl, fun _ _ => rfl, fun _ => rfl⟩
  split at h
  · rw [h.2]
    exact IsTrans.trans _ _ _ hdrop (free _)
  · rw [h]
    exact hdrop

theorem lockInode : Keeps Tame (bitbucketLockInode i) := by
  intro s u s' h
  rw [(lockInode_inv h).2]
  exact setInode (fun _ => rfl) fun _ => rfl

theorem lockForInsert : Keeps Tame (lockForInsert d i) :=
  .ite (fun _ => .assert_bind fun _ => lockInode.bind fun _ => lockInode) fun _ => lockInode

theorem of_modify {f : Volume → Volume} (hf : ∀ s : Volume, s.Tame (f s)) :
    Keeps Tame (modify f : M Unit) := by
  intro s u s' h
  rw [modify_inv h]
  exact hf s

theorem insertDirectoryEntry : Keeps Tame (bitbucketInsertDirectoryEntry d i name) := by
  refine .get_bind fun _ => .assert_bind fun _ => .assert_bind fun _ =>
    .assert_bind fun _ => ?_
  refine reference.bind fun _ => lockForInsert.bind fun _ => .get_bind fun s => ?_
  cases findEntry (s.entries d) name with
  | none => exact (of_modify fun _ => insertEntry).bind fun _ => .pure _
  | some e => exact .pure _

theorem lookupObject : Keeps Tame (bitbucketLookupObjectInDirectory d name) := by
  refine .get_bind fun s => .assert_bind fun _ => ?_
  cases findEntry (s.entries d) name with
  | none => exact .pure _
  | some e => exact reference.bind fun _ => .pure _

theorem removeDirEntry : Keeps Tame (removeDirEntryFromDirectory d name) := by
  refine .get_bind fun s => .assert_bind fun _ => lockInode.bind fun _ => ?_
  have hremove : Keeps Tame (modify fun s => s.removeEntry d name : M Unit) :=
    of_modify fun s => ⟨fun _ => id, rfl, fun _ _ => rfl, fun _ => rfl⟩
  cases findEntry (s.entries d) name with
  | none => exact .pure _
  | some e =>
    refine .ite (fun _ => hremove.bind fun _ => .pure _) fun _ => ?_
    refine reference.bind fun _ => lockInode.bind fun _ => hremove.bind fun _ => ?_
    refine Keeps.bind ?_ fun _ => dereference.bind fun _ => .pure _
    refine .get_bind fun _ => .assert_bind fun _ => of_modify fun s => ?_
    exact setInode (fun _ => rfl) fun _ => rfl

theorem disposable (h : s.Tame s') (hdir : s.inodeType i ≠ .dir)
    (hi : s.Disposable i) : s'.Disposable i := by
  rw [Disposable] at hi ⊢
  rw [h.inodeType, h.file]
  cases ht : s.inodeType i with
  | dir => exact absurd ht hdir
  | file =>
    rw [ht] at hi
    exact hi
  | symlink => trivial

end Volume.Tame

variable (h : Held m o s)
include h

theorem Held.returns_removeDirEntry (hd : s.inodeType d = .dir) (hlive : s.live d = true)
    (hlinks : ∀ i, s.child d name = some i → i ≠ d → 0 < (s.inode i).nlink) :
    Returns (Bitbucket.removeDirEntryFromDirectory d name) s := by
  refine .get_bind (.assert_bind hd (.bind (returns_lockInode hlive) ?_))
  intro _ s1 hl
  have h1 := h.lockInode hl
  obtain ⟨-, rfl⟩ := lockInode_inv hl
  cases hc : findEntry (s.entries d) name with
  | none => exact .pure _
  | some e =>
    dsimp only
    split
    · exact .modify_bind (.pure _)
    next hne =>
    have hchild : s.child d name = some e.inode := congrArg (Option.map DirEntry.inode) hc
    have hi := h.live_of_child hchild
    refine .bind ⟨_, _, h1.counts.reference hi _⟩ fun _ s2 hr => ?_
    have h2 := h1.reference hr
    have hs2 := (reference_inv hr).2.2.2
    refine .bind (returns_lockInode (by rw [hs2]; exact hi)) fun _ s3 hl' => ?_
    have h3 := h2.lockInode hl'
    have hs3 := (lockInode_inv hl').2
    have hc3 : findEntry (s3.entries d) name = some e := by
      rw [hs3, hs2]
      exact hc
    have hquiet : s.Quiet s3 := (Quiet.lockInode hl).trans
      ((Quiet.reference hr).trans (.lockInode hl'))
    have h4 := h3.removeEntry hc3
    refine .modify_bind (.bind (.get_bind (.assert_bind ?_ ⟨_, _, rfl⟩)) ?_)
    · show 0 < (s3.inode e.inode).nlink
      rw [hquiet.nlink]
      exact hlinks _ hchild hne
    intro _ s4 hdl
    have h5 := h4.dropLink hdl
    refine .bind (h5.returns_dereference (q := .dirent) ?_ ?_ nofun) fun _ _ _ => .pure _
    · simp only [add_apply, owe_self]
      omega
    · simp only [add_apply, owe_self]
      omega

theorem Held.returns_detachIfDirectory (hcount : s.Counted X) (hX : X .dir)
    (hd : s.inodeType d = .dir) (hdo : 0 < o .lookup d) (hlive : s.live i = true)
    (hback : s.inodeType i = .dir →
      ∀ x, s.child i dotdot = some x → x = d ∧ s.parent i = some d) :
    Returns (Bitbucket.detachIfDirectory d i) s := by
  refine .get_bind ?_
  split
  case isFalse => exact .pure ()
  next hi =>
  have hback := hback hi
  refine .bind (h.returns_removeDirEntry hi hlive ?_) fun x s1 hr => ?_
  · intro x hx _
    rw [(hback x hx).1]
    exact hcount.nlink_pos hX (h.live_of_pos (r := .lookup) (by
      simp only [add_apply]; omega)) hd
  obtain ⟨hx, hn⟩ := names_removeDirEntryFromDirectory hr
  have h1 := h.removeDirEntryFromDirectory hr
  cases x with
  | none => exact .pure _
  | some e =>
    obtain ⟨hed, hpar⟩ := hback e.inode hx.symm
    have hpar1 : s1.parent i = some d := (congrFun (congrArg Names.parent hn) i).trans hpar
    refine .assert_bind hed (.get_bind (.assert_bind hpar1 ?_))
    rw [elim_some, hed] at h1
    refine .bind (h1.returns_dereference (q := .lookup) ?_ ?_ (by simp)) ?_
    · simp only [add_apply, owe_self]
      omega
    · simp only [add_apply]
      omega
    intro _ s2 hd1
    obtain ⟨hs2, h2⟩ := h1.dereference_kept (q := .lookup) hdo hd1
    refine .bind (h2.returns_dereference (q := .lookup) ?_ ?_ (by simp)) fun _ _ _ => ⟨_, _, rfl⟩
    · rw [add_apply]
      refine Nat.add_pos_left (h2.claimed_parent_pos (d := i) ?_) _
      rw [hs2]
      exact hpar1
    · rw [add_apply]
      omega

/-- The inode stays, or can be freed, when the entry in `d` under a name is taken
out that the caller has looked for: the caller has it, or it is a directory with
its `.`, or a file or link that can be freed. -/
def Volume.Spared (s : Volume) (o : Account) (name : Name) (i : Nat) : Prop :=
  0 < o .lookup i ∨ (s.inodeType i = .dir ∧ name ≠ dot ∧ s.child i dot = some i) ∨
    s.inodeType i ≠ .dir ∧ s.Disposable i

/-- A name is deleted while the caller has a reference to the directory. -/
theorem Held.returns_deleteDirectoryEntry
    (hcount : s.Counted X) (hX : X .dir) (hdo : 0 < o .lookup d) (hname : name ≠ [])
    (hd : s.inodeType d = .dir) (hc : s.child d name = some i)
    (hlinks : i ≠ d → 0 < (s.inode i).nlink)
    (hback : s.inodeType i = .dir → ∀ x, s.child i dotdot = some x →
      ¬ (i = d ∧ dotdot = name) → x = d ∧ s.parent i = some d)
    (hlast : s.Spared o name i) : Returns (bitbucketDeleteDirectoryEntry d name) s := by
  refine .get_bind (.assert_bind hname (.assert_bind hd ?_))
  refine .bind (h.returns_lookupObject hd) fun x s1 hl => ?_
  obtain ⟨-, hx, hlook⟩ := lookupObject_inv hl
  obtain rfl : x = some i := hx.trans hc
  have hq1 := Quiet.looked hlook
  have h1 := h.looked hlook
  rw [elim_some] at h1
  have hcount1 : s1.Counted X := hcount.edit (.same hq1.sameLinks)
  have hdlive : s1.live d = true :=
    h1.live_of_pos (r := .lookup) (by simp only [add_apply]; omega)
  have hd1 : s1.inodeType d = .dir := (congrFun hq1.inodeType d).trans hd
  refine .bind (h1.returns_removeDirEntry hd1 hdlive ?_) ?_
  · intro y hy hyd
    rw [hq1.child] at hy
    obtain rfl := mem_unique hc hy
    rw [hq1.nlink]
    exact hlinks hyd
  intro x s2 hr
  obtain ⟨hx, hn⟩ := names_removeDirEntryFromDirectory hr
  have hsome : s1.names.child d name = some i := (congrFun (congrFun hq1.child d) name).trans hc
  rw [hsome] at hx
  obtain ⟨e, rfl, hei⟩ := map_eq_some_iff.mp hx
  have h2 := h1.removeDirEntryFromDirectory hr
  rw [elim_some, hei] at h2
  have hcount2 : s2.Counted X := hcount1.edits (Edits.removeDirEntry s1 _ s2 hr)
  have hdir2 : ∀ y, s2.inodeType y = .dir ↔ s.inodeType y = .dir := by
    intro y
    rw [← hq1.inodeType]
    exact iff_of_eq (congrFun (congrArg Names.isDir hn) y)
  refine .assert_bind rfl (.bind (h2.returns_detachIfDirectory hcount2 hX
    ((hdir2 d).mpr hd) ?_ ?_ ?_) ?_)
  · simp only [add_apply]
    omega
  · exact h2.live_of_pos (r := .lookup) (by simp only [add_apply, owe_self]; omega)
  · intro hi y hy
    have hy : s2.names.child i dotdot = some y := hy
    rw [hn] at hy
    obtain ⟨hslot, hy⟩ := Names.child_of_put_none hy
    have hy : s.child i dotdot = some y := by
      rw [← hq1.child]
      exact hy
    obtain ⟨hyd, hpar⟩ := hback ((hdir2 i).mp hi) y hy hslot
    refine ⟨hyd, ?_⟩
    have hpar2 : s2.parent i = s1.parent i := congrFun (congrArg Names.parent hn) i
    rw [hpar2, hq1.parent]
    exact hpar
  intro _ s3 hdet
  have h3 := h2.detachIfDirectory (by simp only [add_apply]; omega) hdet
  refine .bind (h3.returns_dereference (q := .dirent) ?_ ?_ (by simp)) ?_
  · simp only [add_apply, owe_self]
    omega
  · simp only [add_apply, owe_self]
    omega
  intro _ s4 hdl
  rw [add_right_comm] at h3
  have h4 := (h3.dereference_kept (q := .dirent) (by rw [add_apply, owe_self]; omega) hdl).2
  have hpos : 0 < (s4.claimed + (o + owe .dirent i 1) : Account) .dirent i := by
    simp only [add_apply, owe_self]
    omega
  refine .bind ?_ fun _ _ _ => .pure _
  rcases hlast with hio | ⟨hi, hdot, hself⟩ | ⟨hi, hfree⟩
  · exact h4.returns_dereference (q := .lookup) hpos (by simp only [add_apply]; omega) (by simp)
  · -- the directory names itself
    have hself4 : s4.names.child i dot = some i := by
      rw [names_dereference hdl]
      rcases names_detachIfDirectory hdet with ⟨-, -, hn3⟩ | ⟨-, hn3⟩
      all_goals
        rw [hn3]
        first
          | rw [Names.detach_child_dot, hn, Names.put_child_of_ne fun he => hdot he.2.symm]
          | rw [hn, Names.put_child_of_ne fun he => hdot he.2.symm]
        exact (congrFun (congrFun hq1.child i) dot).trans hself
    have hclaimed := h4.claimed_dirent_pos hself4
    have hlive4 := h4.live_of_pos hpos
    have htotal := h4.counts.total i hlive4
    have hreasons := h4.counts.reasons i .dirent hlive4
    have hle := le_total (s4.claimed + (o + owe .dirent i 1)) .dirent i
    simp only [add_apply, owe_self] at hreasons hle
    exact Bitbucket.returns_dereference hlive4 (by omega) (by omega) fun hone => by omega
  · have hs3 : s3 = s2 := by
      have hdet := get_bind_inv hdet
      rw [if_neg fun he => hi ((hdir2 i).mp he)] at hdet
      exact (pure_inv hdet).2.symm
    have htame : s.Tame s4 := by
      rw [hs3] at hdl
      exact IsTrans.trans _ _ _ (Tame.lookupObject _ _ _ hl)
        (IsTrans.trans _ _ _ (Tame.removeDirEntry _ _ _ hr) (Tame.dereference _ _ _ hdl))
    exact h4.returns_dereference_disposable hpos (htame.disposable hi hfree)

end Entries

end Finesse.Bitbucket
