import Finesse.Bitbucket.NameBalance

/-!
# The accounts of a run

What follows for runs from what the handlers do: between requests every
reference belongs to something, as long as no request takes one of the ways
out that leave a reference behind.
-/

namespace Finesse.Bitbucket

open Prog Volume List Machine
open Ledger (owe)

/-! ## A volume that is mounted -/

theorem Names.RootOnly.linked {t : Names} (h : t.RootOnly) : t.Linked := by
  refine ⟨fun d p hp => ?_, fun i _ hi => ?_, fun d n i hc => ?_⟩
  · obtain ⟨rfl, rfl⟩ := (h.parent d p).mp hp
    exact ⟨h.inv.rootUp, h.inv.rootDir⟩
  · exact .inl ((h.child _ _ _).mp hi).1
  · rw [((h.child _ _ _).mp hc).1]
    exact h.inv.rootDir

theorem held_empty : Held empty.mounted 0 empty where
  counts := by
    refine ⟨nofun, nofun, nofun, fun i r _ => ?_⟩
    cases r <;> rfl
  mount := rfl
  dirs := fun _ h => absurd rfl h
  gone := fun _ _ => ⟨rfl, rfl⟩
  nodup := fun _ => nodup_nil
  found := nofun
  table := nofun

theorem Held.remount {m o : Account} {s : Volume} (h : Held m o s) (root : Nat) (magic : List Nat) :
    Held { s with root := root, magic := magic }.mounted o
      { s with root := root, magic := magic } :=
  { h with counts := h.counts.congr rfl rfl rfl, mount := rfl }

variable {new : NewInode} {p : Nat}

section Mount

variable {s s' : Volume} {d i : Nat} {name : Name} {u : Unit} {ns : List Nat}

theorem table_insertNew (h : insertNew d i name s = some (u, s')) : s'.table = s.table := by
  obtain ⟨status, s1, hins, hz⟩ := bind_inv h
  obtain ⟨-, rfl⟩ := assert_inv hz
  obtain ⟨-, -, -, -, s2, rfl, hcase⟩ := insertDirectoryEntry_inv hins
  have hs2 : ((s.addReferences i .dirent 1).tickTwo d i).table = s.table := by
    rw [tickTwo]
    split <;> rfl
  rcases hcase with ⟨-, -, rfl⟩ | ⟨-, -, rfl⟩
  · rw [insertEntry]
    split <;> exact hs2
  · exact hs2

/-- The inode table has no other numbers than these. -/
def Volume.Numbers (s : Volume) (ns : List Nat) : Prop :=
  ∀ n, n ∉ ns → s.table n = none

theorem Volume.Numbers.create {t : InodeType} {b : Bool}
    (h : s.Numbers ns) : (s.create t new b).Numbers (new.ino :: ns) := by
  intro n hn
  rw [mem_cons, not_or] at hn
  show (if (s.table new.ino).isSome then s.table else _) n = none
  split
  · exact h n hn.2
  · rw [Function.update_of_ne hn.1]
    exact h n hn.2

theorem numbers_createDirectory (h : s.Numbers ns)
    (hc : bitbucketCreateDirectory p name new s = some (i, s')) : s'.Numbers (new.ino :: ns) := by
  obtain ⟨-, -, rfl, s1, s2, h1, h2, h3⟩ := createDirectory_inv hc
  intro n hn
  rw [table_insertNew h3, table_insertNew h2, table_insertNew h1]
  exact h.create (t := .dir) (b := false) n hn

/-- Between requests: all references belong to something. -/
def Balanced (s : Volume) : Prop := Good s.mounted s.mounted s

theorem balanced_mountRoot (h : mountRoot new .empty = some (u, s)) :
    Balanced s ∧ s.Numbers [new.ino] := by
  have hlinked := (names_mountRoot h).linked
  obtain ⟨d, s1, hr, h⟩ := bind_inv h
  obtain rfl := modify_inv h
  obtain ⟨rfl, s4, h1, h2⟩ := createRootDirectory_inv hr
  have hlive : (empty.create .dir new false).live 0 = true := rfl
  have hcreate : Held empty.mounted (owe .lookup 0 1) (empty.create .dir new false) := by
    have := held_empty.create (t := .dir) (b := false) (rfl : empty.table new.ino = none)
    rwa [zero_add] at this
  have hparent := (hcreate.add (r := .parent) hlive).setParent_some (d := 0) hlive rfl
  have h5 := (hparent.insertNew h1).insertNew h2
  have hroot : s1.root = 0 := by
    obtain ⟨-, -, -, hn1⟩ := names_insertNew h1
    obtain ⟨-, -, -, hn2⟩ := names_insertNew h2
    rw [hn1] at hn2
    exact congrArg Names.root hn2
  have hsame : { s1 with root := empty.next } = s1 := by
    show { s1 with root := 0 } = s1
    rw [← hroot]
  rw [hsame] at hlinked ⊢
  have hmount : empty.mounted = owe .lookup 0 1 := by
    funext r i
    cases r with
    | lookup => by_cases hi : i = 0 <;> simp [mounted, empty, owe, hi]
    | _ => simp [mounted, owe]
  refine ⟨⟨?_, hlinked⟩, fun n hn => ?_⟩
  · rw [h5.mount]
    rw [hmount] at h5 ⊢
    exact h5
  · rw [table_insertNew h2, table_insertNew h1]
    exact (show empty.Numbers [] from fun _ _ => rfl).create (t := .dir) (b := false) n hn

theorem balanced_createMagic (h : Balanced s) (hns : s.Numbers ns) (hnew : new.ino ∉ ns)
    (hc : createMagic p name new s = some (i, s')) : Balanced s' ∧ s'.Numbers (new.ino :: ns) := by
  obtain ⟨d, s1, hd, hc⟩ := bind_inv hc
  have hc := modify_bind_inv hc
  obtain ⟨rfl, rfl⟩ := pure_inv hc
  have hgood : Good s.mounted (s.mounted + 0) s := by
    rw [add_zero]
    exact h
  have h1 := (hgood.createDirectory (hns _ hnew) hd).setInode (i := d)
    (f := fun n => { n with mode := n.mode - (n.mode &&& 0o222) })
    (fun _ => rfl) fun _ => rfl
  rw [add_zero] at h1
  have hmount : { s1.setInode d (fun n =>
      { n with mode := n.mode - (n.mode &&& 0o222) }) with
        magic := d :: s1.magic }.mounted = s.mounted + owe .lookup d 1 := by
    rw [← h1.mount]
    funext r x
    rw [Ledger.add_apply]
    by_cases hr : r = .lookup
    · simp only [mounted, setInode, if_pos hr, count_cons, owe]
      by_cases hx : x = d
      · simp [hx, hr]
        omega
      · simp [hx, Ne.symm hx]
    · simp [mounted, owe, hr]
  refine ⟨⟨?_, h1.linked⟩, (numbers_createDirectory hns hd : s1.Numbers _)⟩
  have hheld := h1.toHeld.remount s1.root (d :: s1.magic)
  rw [← hmount] at hheld
  exact hheld

theorem balanced_createMagics :
    ∀ {names : List Name} {news : List NewInode} {s s' : Volume} {ns : List Nat},
      Balanced s → s.Numbers ns → (news.map NewInode.ino ++ ns).Nodup →
      createMagics p names news s = some (u, s') → Balanced s'
  | [], _, _, _, _, h, _, _, hc => by
      obtain ⟨-, rfl⟩ := pure_inv hc
      exact h
  | _ :: _, [], _, _, _, h, _, _, hc => by
      obtain ⟨-, rfl⟩ := pure_inv hc
      exact h
  | _ :: _, new :: news, _, _, ns, h, hns, hnew, hc => by
      obtain ⟨_, s1, hm, hc⟩ := bind_inv hc
      rw [map_cons, cons_append, nodup_cons] at hnew
      have hni : new.ino ∉ ns := fun hmem =>
        hnew.1 (mem_append_right _ hmem)
      obtain ⟨h1, hns1⟩ := balanced_createMagic h hns hni hm
      refine balanced_createMagics h1 hns1 ?_ hc
      exact (perm_middle.nodup_iff).mpr (nodup_cons.mpr hnew)

theorem balanced_bitbucketInit {root bitbucket : NewInode} {others : List NewInode}
    (hnew : ((root :: bitbucket :: others).map NewInode.ino).Nodup)
    (h : bitbucketInit root bitbucket others .empty = some (u, s)) : Balanced s := by
  obtain ⟨_, s1, hroot, h⟩ := bind_inv h
  have h := get_bind_inv h
  obtain ⟨p, s2, hmagic, h⟩ := bind_inv h
  obtain ⟨h1, hns1⟩ := balanced_mountRoot hroot
  rw [map_cons, map_cons, nodup_cons, nodup_cons] at hnew
  obtain ⟨hr, hb, hothers⟩ := hnew
  have hne : bitbucket.ino ∉ [root.ino] := by
    rw [mem_singleton]
    rintro heq
    exact hr (heq ▸ mem_cons_self)
  obtain ⟨h2, hns2⟩ := balanced_createMagic h1 hns1 hne hmagic
  refine balanced_createMagics h2 hns2 ?_ h
  rw [mem_cons, not_or] at hr
  refine List.Nodup.append hothers ?_ ?_
  · exact nodup_cons.mpr ⟨hne, nodup_singleton _⟩
  intro n hn hmem
  rcases mem_cons.mp hmem with rfl | hmem
  · exact hb hn
  · exact hr.2 (mem_singleton.mp hmem ▸ hn)

end Mount

/-! ## Every run -/

/-- The requests that take and give back the same references. Left out are those
that keep one: of an enumeration, of what `rmdir`, `opendir` or `write` turn down,
of the entry that a link to a taken name does not get, of a directory's own entries
when it is unlinked or replaced; and an inode whose number is taken is in no table. -/
def Volume.Balances (s : Volume) : Request → Prop
  | .mkdir _ _ _ new | .create _ _ _ new | .symlink _ _ _ new =>
    s.table new.ino = none
  | .link ino newparent newname =>
    ino ≠ fuseRootId → ∀ i ∈ s.table ino, s.inodeType i = .file →
      ∀ p ∈ s.resolve newparent, s.child p newname = none
  | .rename parent name newparent newname flags =>
    ∀ p ∈ s.resolve parent, ∀ q ∈ s.resolve newparent, ∀ i ∈ s.child p name,
      s.ReplacesFile p q i name newname flags
  | .unlink parent name =>
    ∀ p ∈ s.resolve parent, ∀ i ∈ s.child p name, s.inodeType i ≠ .dir
  | .rmdir parent name =>
    ∀ p ∈ s.resolve parent, ∀ i ∈ s.child p name, name ≠ dotdot ∧
      s.inodeType i = .dir ∧ (s.entries i).length ≤ 2 ∧ s.child i dot = some i
  | .opendir ino => ∀ i ∈ s.resolve ino, sIsDir (s.inode i).mode = true
  | .readdir ino _ off | .readdirplus ino _ off =>
    off = endOfDirectory ∨ ∀ i ∈ s.resolve ino, sIsDir (s.inode i).mode = false
  | .write ino _ buf =>
    buf = [] ∨ ∀ i ∈ s.resolve ino, s.inodeType i = .file
  | .writeBuf ino _ bufv =>
    (bufv.seen.map FuseBuf.size).sum = 0 ∨ ∀ i ∈ s.resolve ino, s.inodeType i = .file
  | _ => True

instance (s : Volume) (p q i : Nat) (name newname : Name) (flags : Nat) :
    Decidable (s.ReplacesFile p q i name newname flags) :=
  inferInstanceAs (Decidable (s.RenameActs p q i name newname flags →
    flags &&& renameExchange = 0 → ∀ j ∈ s.child q newname, s.inodeType j ≠ .dir))

instance (s : Volume) (r : Request) : Decidable (s.Balances r) := by
  casesm Request <;> dsimp only [Balances] <;> infer_instance

theorem Balanced.step {u : Userdata} {s s' : Volume} {r : Request} {ev : List Reply}
    (hs : Balanced s) (hr : s.Balances r) (h : s.step u r = some (ev, s')) : Balanced s' := by
  have hm (r : Reason) (hr : r ≠ .lookup) (i : Nat) : s.mounted r i = 0 := if_neg hr
  have hs : Good s.mounted s.mounted s := hs
  suffices hgood : Good s.mounted s.mounted s' by
    rw [Balanced, hgood.mount]
    exact hgood
  cases r with
  | mkdir => exact hs.bitbucketMkdir hr _ _ h
  | create => exact hs.bitbucketCreate hr _ _ h
  | symlink => exact hs.bitbucketSymlink hr _ _ h
  | link => exact hs.bitbucketLink hr _ _ h
  | rename => exact hs.bitbucketRename hr _ _ h
  | unlink => exact hs.bitbucketUnlink hr _ _ h
  | rmdir => exact hs.bitbucketRmdir hr _ _ h
  | opendir =>
    exact Good.calls.bitbucketOpendir hs (fun i _ hi hd _ => absurd (hr i hi) hd) _ _ h
  | readdir =>
    exact Good.calls.bitbucketReaddir hs (fun i _ _ hi hoff hd _ =>
      absurd (hr.resolve_left hoff i hi) (by simp [hd])) _ _ h
  | readdirplus =>
    exact Good.calls.bitbucketReaddirplus hs (fun i _ _ hi hoff hd _ =>
      absurd (hr.resolve_left hoff i hi) (by simp [hd])) _ _ h
  | write =>
    exact Good.calls.bitbucketWrite hs
      (fun i _ hi hb ht _ => absurd (hr.resolve_left hb i hi) ht) _ _ h
  | writeBuf =>
    exact Good.calls.bitbucketWriteBuf hs
      (fun i _ hi hb ht _ => absurd (hr.resolve_left hb i hi) ht) _ _ h
  | _ => exact Good.calls.handle hs hm (by exact trivial) _ _ h

/-- The references that the system holds: those of the directory entries, of the
parents and of the kernel, and those that mounting keeps. -/
def Volume.owed (s : Volume) : Account := s.claimed + s.mounted

/-- No directory but the inode itself has an entry for the inode. -/
def Volume.Unlinked (s : Volume) (i : Nat) : Prop :=
  ∀ d, ∀ e ∈ s.entries d, e.inode = i → d = i ∧ e.name = dot

/-- The counts of the inodes are the references that the system holds, and an
inode that is unlinked, closed and forgotten is deallocated. -/
structure Volume.Accounted (s : Volume) : Prop where
  reasons : ∀ i r, s.live i = true → (s.reasonField i r).toNat = s.owed r i
  total : ∀ i, s.live i = true → s.referenceCount i = s.owed.total i
  deallocated : ∀ i, s.Unlinked i → s.kernel i = ⟨0, 0, 0⟩ → i ≠ s.root →
    i ∉ s.magic → s.live i = false

/-- No inode has as many references for one reason as its field cannot count. -/
def Volume.Fits (s : Volume) : Prop :=
  ∀ i < s.next, ∀ r, s.referenceReasons i r < 2 ^ 32

instance (s : Volume) : Decidable s.Fits :=
  inferInstanceAs (Decidable (∀ i < s.next, ∀ r, s.referenceReasons i r < 2 ^ 32))

section Deallocated

variable {m o : Account} {s : Volume} {i : Nat}

theorem Volume.Unlinked.eq_of_child {d : Nat} {n : Name} (h : s.Unlinked i)
    (hc : s.child d n = some i) : d = i ∧ n = dot := by
  obtain ⟨e, he, hei⟩ := Option.map_eq_some_iff.mp hc
  rw [← findEntry_name he]
  exact h d e (findEntry_mem he) hei

/-- The entry `.` of a directory does not outlive its other names. -/
theorem Good.no_entry (h : Good m o s) (hu : s.Unlinked i) (hi : i ≠ s.root)
    {d : Nat} {e : DirEntry} (he : e ∈ s.entries d) : e.inode ≠ i := by
  intro hei
  obtain ⟨rfl, hn⟩ := hu d e he hei
  have hself : s.child d dot = some d := by
    rw [← hn, child, findEntry_of_mem (h.nodup d) he, Option.map_some, hei]
  rcases h.linked.named d id hself with hr | ⟨p, n, hc, hne, -⟩
  · exact hi hr
  · exact hne (hu.eq_of_child hc)

theorem Good.not_parent (h : Good m o s) (hu : s.Unlinked i) (d : Nat) : s.parent d ≠ some i := by
  intro hp
  exact absurd (hu.eq_of_child (h.linked.back d i hp).1).2 (by decide)

theorem Good.claimed_eq_zero (h : Good m o s) (hu : s.Unlinked i) (hk : s.kernel i = ⟨0, 0, 0⟩)
    (hi : i ≠ s.root) (r : Reason) : s.claimed r i = 0 := by
  cases r with
  | dirent =>
    refine Finset.sum_eq_zero fun d _ => countP_eq_zero.mpr fun e he => ?_
    rw [decide_eq_true_eq]
    exact h.no_entry hu hi he
  | parent => exact Finset.sum_eq_zero fun d _ => if_neg (h.not_parent hu d)
  | fuseLookup => exact congrArg Kernel.lookups hk
  | fuseOpen => exact congrArg Kernel.opens hk
  | fuseOpendir => exact congrArg Kernel.opendirs hk
  | lookup | enum | removeDirent => rfl

theorem Volume.mounted_eq_zero (hi : i ≠ s.root) (hmagic : i ∉ s.magic)
    (r : Reason) : s.mounted r i = 0 := by
  rw [mounted, if_neg hi, count_eq_zero.mpr hmagic, ite_self]

theorem Balanced.accounted (h : Balanced s) (hfits : s.Fits) : s.Accounted where
  reasons := by
    intro i r hi
    rw [reasonField, BitVec.toNat_ofNat, Nat.mod_eq_of_lt (hfits i (lt_next_of_live hi) r)]
    exact h.counts.reasons i r hi
  total := h.counts.total
  deallocated := by
    intro i hu hk hi hmagic
    by_contra hlive
    rw [Bool.not_eq_false] at hlive
    have htotal : s.owed.total i = 0 := Finset.sum_eq_zero fun r _ =>
      Nat.add_eq_zero_iff.mpr ⟨h.claimed_eq_zero hu hk hi r, mounted_eq_zero hi hmagic r⟩
    have hcount : s.referenceCount i = s.owed.total i := h.counts.total i hlive
    have hkept := h.counts.kept i hlive
    omega

end Deallocated

/-- From a volume that was mounted with inode numbers that differ, as long as
every request gives back what it takes, the counts are those of what the system
holds after every request, unless one has reached `2 ^ 32`. -/
theorem references_accounted (u : Userdata) {root bitbucket : NewInode} {others : List NewInode}
    {s s' : Volume} {rs : List Request} {tr : List Reply}
    (hnew : ((root :: bitbucket :: others).map NewInode.ino).Nodup)
    (hinit : bitbucketInit root bitbucket others .empty = some ((), s))
    (hrun : Machine.run (step u) s rs = some (tr, s')) (hrs : Along (step u) Balances s rs)
    (hfits : s'.Fits) : s'.Accounted :=
  Balanced.accounted (run_invariant (fun _ _ _ _ hs hr h => Balanced.step hs hr h)
    (balanced_bitbucketInit hnew hinit) hrun hrs) hfits

/-- A file and a directory are made, used and removed, while another file stays. -/
theorem references_accounted_create_unlink : ∃ s s' tr, newMount = some ((), s) ∧
    Machine.run (step .plain) s
      [.mkdir 1 ['a'] 0o755 ⟨11, 0⟩, .create 11 ['f'] 0o644 ⟨12, 0⟩, .create 1 ['g'] 0o644 ⟨13, 0⟩,
       .unlink 11 ['f'], .release 12, .forget 12 1, .opendir 11,
       .releasedir 11, .rmdir 1 ['a'], .forget 11 1, .lookup 1 ['g']] = some (tr, s') ∧
    s'.live 6 = false ∧ s'.live 7 = false ∧ s'.referenceReasons 8 .fuseLookup = 2 ∧
    s'.Accounted := by
  refine exists_run (K := Balances) (P := fun _ _ s' => s'.live 6 = false ∧ s'.live 7 = false ∧
    s'.referenceReasons 8 .fuseLookup = 2 ∧ s'.Fits) (by decide +kernel) ?_
  rintro s tr s' hs hrun hkeeps ⟨h6, h7, h8, hfits⟩
  exact ⟨h6, h7, h8, references_accounted _ (by decide) hs hrun hkeeps hfits⟩

/-- A directory that was read is not deallocated when it is removed and
forgotten. -/
theorem enumerated_directory_stays : ∃ s s' tr, newMount = some ((), s) ∧
    Machine.run (step .plain) s [.mkdir 1 ['a'] 0o755 ⟨11, 0⟩, .readdir 11 4096 0, .rmdir 1 ['a'],
       .forget 11 1] = some (tr, s') ∧
    s'.entries 6 = [] ∧ s'.kernel 6 = ⟨0, 0, 0⟩ ∧ s'.live 6 = true ∧
    s'.reasonField 6 .enum = 1 ∧ ¬ s'.Accounted := by
  refine exists_run (K := fun _ _ => True) (P := fun _ _ s' =>
    s'.entries 6 = [] ∧ s'.kernel 6 = ⟨0, 0, 0⟩ ∧ s'.live 6 = true ∧
      s'.reasonField 6 .enum = 1) (by decide +kernel) ?_
  rintro s tr s' - - - ⟨hentries, hkernel, hlive, henum⟩
  refine ⟨hentries, hkernel, hlive, henum, fun h => ?_⟩
  have howed : s'.owed .enum 6 = 0 := rfl
  have := h.reasons 6 .enum hlive
  rw [henum, howed] at this
  cases this

end Finesse.Bitbucket
