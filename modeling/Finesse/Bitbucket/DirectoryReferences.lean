import Finesse.Bitbucket.Links
import Finesse.Bitbucket.References

/-!
# What the functions of directories do to references

For each function of `dir.c` and the functions of `inode.c` below it: which
references it takes or gives back, besides those that belong to the entries
and parent pointers that it changes.

Some functions change a pointer before they take the reference for it, or
drop the reference before the pointer. Between the two the accounts do not
add up; since taking and dropping references touches nothing else, the proofs
exchange the two steps.
-/

namespace Finesse.Bitbucket

open Prog Function Volume Option List Ledger

variable {name : Name} {b p : Nat} {status : Int}

namespace Held

variable {m o : Account} {s s' : Volume} {i d : Nat} {r : Reason} {u : Unit}

theorem add (h : Held m o s) (hi : s.live i = true) :
    Held m (o + owe r i 1) (s.addReferences i r 1) := by
  refine { h with counts := ?_ }
  rw [claimed_addReferences, ← add_assoc]
  exact h.counts.add hi

theorem drop (h : Held m (o + owe r i b) s)
    (hlast : s.live i = true → s.referenceCount i ≠ b) : Held m o (s.dropReferences i r b) := by
  refine { h with counts := ?_ }
  have := h.counts
  rw [← add_assoc] at this
  exact this.drop hlast

theorem free (h : Held m (o + owe r i b) s) (hi : s.live i = true)
    (hlast : s.referenceCount i = b) (hentries : s.entries i = []) (hparent : s.parent i = none) :
    Held m o ((s.dropReferences i r b).free i) where
  counts := by
    have := h.counts
    rw [← add_assoc] at this
    exact this.free hi hlast
  mount := h.mount
  dirs := h.dirs
  gone j hj := by
    by_cases hji : j = i
    · subst hji
      exact ⟨hentries, hparent⟩
    · refine h.gone j ?_
      simpa [Volume.free, Volume.dropReferences, hji] using hj
  nodup := h.nodup
  found j hj := by
    have hji : j ≠ i := by
      rintro rfl
      simp [Volume.free] at hj
    have hj : s.live j = true := by
      simpa [Volume.free, Volume.dropReferences, hji] using hj
    have hino : (s.inode j).ino ≠ (s.inode i).ino := by
      intro he
      have := h.found j hj
      rw [he, h.found i hi, some.injEq] at this
      exact hji this.symm
    show update s.table (s.inode i).ino none (s.inode j).ino = some j
    rw [update_of_ne hino]
    exact h.found j hj
  table n j hj := by
    have hn : n ≠ (s.inode i).ino := by
      rintro rfl
      simp [Volume.free, Volume.dropReferences] at hj
    have hj : s.table n = some j := by
      simpa [Volume.free, Volume.dropReferences, hn] using hj
    obtain ⟨hlive, hino⟩ := h.table n j hj
    have hji : j ≠ i := by
      rintro rfl
      exact hn hino.symm
    refine ⟨?_, hino⟩
    simpa [Volume.free, Volume.dropReferences, hji] using hlive

theorem reference (h : Held m o s) (hr : bitbucketReferenceInode i r s = some (u, s')) :
    Held m (o + owe r i 1) s' := by
  obtain ⟨hi, -, -, rfl⟩ := reference_inv hr
  exact h.add hi

theorem looked {x : Option Nat} (h : Held m o s) (hl : s.Looked s' x) :
    Held m (o + x.elim 0 fun i => owe .lookup i 1) s' := by
  cases x with
  | none =>
    rw [show s = s' from hl] at h
    rw [elim_none, add_zero]
    exact h
  | some i =>
    rw [hl.2]
    exact h.add hl.1

section

variable (h : Held m (o + owe r i b) s)
include h

theorem not_last {q : Reason} (hq : 0 < o q i) (hi : s.live i = true) : s.referenceCount i ≠ b := by
  have ht := h.counts.total i hi
  rw [total_add, total_add, total_owe_self] at ht
  have := le_total o q i
  omega

theorem dereference_kept {q : Reason} (hq : 0 < o q i)
    (hd : bitbucketDereferenceInode i r b s = some (u, s')) :
    s' = s.dropReferences i r b ∧ Held m o s' := by
  obtain ⟨hi, -, -, hs⟩ := dereference_inv hd
  have hlast := h.not_last hq hi
  rw [if_neg hlast] at hs
  subst hs
  exact ⟨rfl, h.drop fun _ => hlast⟩

theorem dropped (hup : s.entries i = [] → s.parent i = none) (hi : s.live i = true)
    (hs : if s.referenceCount i = b then
        (s.inodeType i = .dir → s.entries i = []) ∧ s' = (s.dropReferences i r b).free i
      else s' = s.dropReferences i r b) : Held m o s' := by
  split at hs
  · next hlast =>
    obtain ⟨hempty, rfl⟩ := hs
    have hentries : s.entries i = [] := by
      by_contra hne
      exact hne (hempty (h.dirs i hne))
    exact h.free hi hlast hentries (hup hentries)
  · next hlast =>
    subst hs
    exact h.drop fun _ => hlast

theorem dereference (hup : s.entries i = [] → s.parent i = none)
    (hd : bitbucketDereferenceInode i r b s = some (u, s')) : Held m o s' := by
  obtain ⟨hi, -, -, hs⟩ := dereference_inv hd
  exact h.dropped hup hi hs

end

theorem setInode {f : Inode → Inode} (h : Held m o s) (ht : ∀ k, (f k).inodeType = k.inodeType)
    (hn : ∀ k, (f k).ino = k.ino) : Held m o (s.setInode i f) := by
  have hino : ∀ j, ((s.setInode i f).inode j).ino = (s.inode j).ino := by
    intro j
    by_cases hj : j = i
    · subst hj
      simp [setInode, hn]
    · simp [Volume.setInode, hj]
  refine { h with
    counts := h.counts.congr rfl rfl rfl
    dirs := fun j hj => ?_
    found := fun j hj => ?_
    table := fun n j hj => ?_ }
  · rw [inodeType_setInode ht]
    exact h.dirs j hj
  · rw [hino]
    exact h.found j hj
  · rw [hino]
    exact h.table n j hj

theorem tick (h : Held m o s) : Held m o (s.tick i) := h.setInode (fun _ => rfl) fun _ => rfl

theorem lockInode (h : Held m o s) (hl : bitbucketLockInode i s = some (u, s')) : Held m o s' := by
  rw [(lockInode_inv hl).2]
  exact h.tick

theorem setEntries {o' : Account} {f : List DirEntry → List DirEntry} (h : Held m o s)
    (hc : (s.setEntries d f).claimed + o' = s.claimed + o)
    (hdir : f (s.entries d) ≠ [] → s.inodeType d = .dir ∧ s.live d = true)
    (hnodup : ((f (s.entries d)).map DirEntry.name).Nodup) : Held m o' (s.setEntries d f) where
  counts := by
    rw [hc]
    exact h.counts.congr rfl rfl rfl
  mount := h.mount
  dirs j hj := by
    by_cases hjd : j = d
    · subst hjd
      exact (hdir (by simpa [setEntries] using hj)).1
    · exact h.dirs j (by simpa [Volume.setEntries, hjd] using hj)
  gone j hj := by
    refine ⟨?_, (h.gone j hj).2⟩
    by_cases hjd : j = d
    · subst hjd
      by_contra hne
      have hlive := (hdir (by simpa [setEntries] using hne)).2
      exact absurd (hlive.symm.trans hj) (by decide)
    · simpa [Volume.setEntries, hjd] using (h.gone j hj).1
  nodup j := by
    by_cases hjd : j = d
    · subst hjd
      simpa [setEntries] using hnodup
    · simpa [Volume.setEntries, hjd] using h.nodup j
  found := h.found
  table := h.table

theorem insertEntry {n : Name} (h : Held m (o + owe .dirent i 1) s) (hd : s.live d = true)
    (hdir : s.inodeType d = .dir) (hfree : findEntry (s.entries d) n = none) :
    Held m o (s.insertEntry d i n) := by
  have hc := s.claimed_insertEntry d i (n := n) (lt_next_of_live hd)
  have hentries : Held m o (s.setEntries d (⟨n, i, (s.inode d).epoch⟩ :: ·)) := by
    refine h.setEntries ?_ (fun _ => ⟨hdir, hd⟩) ?_
    · have hc' : (s.setEntries d (⟨n, i, (s.inode d).epoch⟩ :: ·)).claimed =
          (s.insertEntry d i n).claimed := by
        rw [Volume.insertEntry]
        split <;> rfl
      rw [hc', hc]
      abel
    · rw [map_cons, nodup_cons]
      refine ⟨fun hmem => ?_, h.nodup d⟩
      obtain ⟨e, he, hen⟩ := mem_map.mp hmem
      exact absurd hen (by simpa using find?_eq_none.mp hfree e he)
  rw [Volume.insertEntry]
  split
  · exact hentries.setInode (fun _ => rfl) fun _ => rfl
  · exact hentries

theorem live_of_find {e : DirEntry} (h : Held m o s)
    (he : findEntry (s.entries d) name = some e) : s.live d = true := by
  by_contra hl
  rw [(h.gone d (Bool.eq_false_of_not_eq_true hl)).1] at he
  cases he

theorem removeEntry {n : Name} {e : DirEntry} (h : Held m o s)
    (he : findEntry (s.entries d) n = some e) :
    Held m (o + owe .dirent e.inode 1) (s.removeEntry d n) := by
  have hne : s.entries d ≠ [] := by
    intro h
    rw [h] at he
    cases he
  have hd := h.live_of_find he
  refine h.setEntries ?_ (fun _ => ⟨h.dirs d hne, hd⟩) ?_
  · rw [s.claimed_removeEntry d (lt_next_of_live hd) (h.nodup d) he]
    show (s.removeEntry d n).claimed + _ = _
    abel
  · exact (h.nodup d).sublist (filter_sublist.map _)

theorem setParent_some (h : Held m (o + owe .parent p 1) s) (hd : s.live d = true)
    (hnone : s.parent d = none) : Held m o (s.setParent d (some p)) := by
  refine { h with counts := ?_, gone := fun j hj => ⟨(h.gone j hj).1, ?_⟩ }
  · have := h.counts.congr (t := s.setParent d (some p)) rfl rfl rfl
    rw [s.claimed_setParent_some d (lt_next_of_live hd) hnone]
    rwa [add_assoc, add_comm (owe _ _ _)]
  · have hjd : j ≠ d := by
      rintro rfl
      exact absurd (hd.symm.trans hj) (by decide)
    simpa [setParent, hjd] using (h.gone j hj).2

variable (h : Held m o s)
include h

theorem setParent_none (hsome : s.parent d = some p) :
    Held m (o + owe .parent p 1) (s.setParent d none) := by
  refine { h with counts := ?_, gone := fun j hj => ⟨(h.gone j hj).1, ?_⟩ }
  · have hd : s.live d = true := by
      by_contra hl
      have := (h.gone d (Bool.eq_false_of_not_eq_true hl)).2
      rw [hsome] at this
      cases this
    have := h.counts.congr (t := s.setParent d none) rfl rfl rfl
    rw [s.claimed_setParent_none d (lt_next_of_live hd) hsome] at this
    rwa [add_comm o, ← add_assoc]
  · by_cases hjd : j = d
    · subst hjd
      simp [setParent]
    · simpa [setParent, hjd] using (h.gone j hj).2

theorem setKernel {o' : Account} {f : Kernel → Kernel}
    (hc : (s.setKernel i f).claimed + o' = s.claimed + o) : Held m o' (s.setKernel i f) := by
  refine { h with counts := ?_ }
  rw [hc]
  exact h.counts.congr rfl rfl rfl

theorem create {t : InodeType} {new : NewInode} {b : Bool}
    (hnew : s.table new.ino = none) : Held m (o + owe .lookup s.next 1) (s.create t new b) := by
  have hunused : s.live s.next = false := s.unused _ (Nat.le_refl _)
  have hzero : ∀ r, s.claimed r s.next = 0 := by
    intro r
    have := h.counts.dead s.next r hunused
    rw [add_apply] at this
    omega
  have hkernel : s.kernel s.next = ⟨0, 0, 0⟩ := by
    have h1 : (s.kernel s.next).lookups = 0 := hzero .fuseLookup
    have h2 : (s.kernel s.next).opens = 0 := hzero .fuseOpen
    have h3 : (s.kernel s.next).opendirs = 0 := hzero .fuseOpendir
    show Kernel.mk (s.kernel s.next).lookups _ (s.kernel s.next).opendirs = _
    rw [h1, h2, h3]
  refine ⟨?_, h.mount, fun j hj => ?_, fun j hj => ?_, fun j => ?_,
    fun j hj => ?_, fun n j hj => ?_⟩
  · rw [s.claimed_create hkernel, ← add_assoc]
    exact h.counts.create
  · by_cases hji : j = s.next
    · subst hji
      simp [Volume.create] at hj
    · simpa [Volume.create, Volume.inodeType, hji] using
        h.dirs j (by simpa [Volume.create, hji] using hj)
  · by_cases hji : j = s.next
    · subst hji
      simp [Volume.create]
    · simpa [Volume.create, hji] using h.gone j (by simpa [Volume.create, hji] using hj)
  · by_cases hji : j = s.next
    · subst hji
      simp [Volume.create]
    · simpa [Volume.create, hji] using h.nodup j
  · by_cases hji : j = s.next
    · subst hji
      simp [Volume.create, hnew, initialInode]
    have hf := h.found j (by simpa [Volume.create, hji] using hj)
    have hino : (s.inode j).ino ≠ new.ino := by
      intro he
      rw [he, hnew] at hf
      cases hf
    simpa [Volume.create, hji, hnew, hino] using hf
  · by_cases hn : n = new.ino
    · subst hn
      have hj : s.next = j := by simpa [Volume.create, hnew] using hj
      subst hj
      simp [Volume.create, initialInode]
    have hj : s.table n = some j := by
      simpa [Volume.create, hnew, hn] using hj
    obtain ⟨hlive, hino⟩ := h.table n j hj
    have hji : j ≠ s.next := by
      rintro rfl
      rw [hunused] at hlive
      cases hlive
    simpa [Volume.create, hji] using And.intro hlive hino

/-! ## Functions of directories -/

theorem tickTwo : Held m o (s.tickTwo d i) := by
  rw [Volume.tickTwo]
  split
  · exact h.tick.tick
  · exact h.tick

/-- The reference that was taken for a new entry is left over if there is
one under the name. -/
theorem insertDirectoryEntry (hi : bitbucketInsertDirectoryEntry d i name s = some (status, s')) :
    s.child d name = none ∧ Held m o s' ∨
      s.child d name ≠ none ∧ Held m (o + owe .dirent i 1) s' := by
  obtain ⟨hdir, -, hd, hlive, s1, hs1, hcase⟩ := insertDirectoryEntry_inv hi
  have h1 : Held m (o + owe .dirent i 1) s1 := hs1 ▸ (h.add hlive).tickTwo
  obtain ⟨hentries, htype, hlive1⟩ : s1.entries = s.entries ∧ s1.inodeType = s.inodeType ∧
      s1.live = s.live := by
    rw [hs1, Volume.tickTwo]
    split
    · exact ⟨rfl, (inodeType_tick _ i).trans (inodeType_tick _ d), rfl⟩
    · exact ⟨rfl, inodeType_tick _ d, rfl⟩
  rcases hcase with ⟨hc, -, rfl⟩ | ⟨hc, -, rfl⟩
  · refine .inl ⟨hc, h1.insertEntry ?_ ?_ ?_⟩
    · rw [hlive1]
      exact hd
    · rw [htype]
      exact hdir
    · rw [hentries]
      exact map_eq_none_iff.mp hc
  · exact .inr ⟨hc, h1⟩

theorem insertNew (hi : insertNew d i name s = some (u, s')) : Held m o s' := by
  have hfree := (names_insertNew hi).2.2.1
  obtain ⟨status, s1, hins, hz⟩ := bind_inv hi
  obtain ⟨-, rfl⟩ := assert_inv hz
  rcases h.insertDirectoryEntry hins with ⟨-, h⟩ | ⟨hne, -⟩
  · exact h
  · exact absurd hfree hne

theorem createDirectory {new : NewInode}
    (hnew : s.table new.ino = none) (hc : bitbucketCreateDirectory p name new s = some (i, s')) :
    Held m (o + owe .lookup i 1) s' := by
  obtain ⟨hp, -, rfl, s1, s2, h₁, h₂, h₃⟩ := createDirectory_inv hc
  have hcreate := h.create (t := .dir) (b := false) hnew
  have hparent : Held m (o + owe .lookup s.next 1)
      (((s.create .dir new false).setParent s.next (some p)).addReferences p .parent 1) := by
    have hlive : (s.create .dir new false).live p = true :=
      (update_of_ne (Nat.ne_of_lt (lt_next_of_live hp)) _ _).trans hp
    refine (hcreate.add (r := .parent) hlive).setParent_some ?_ ?_
    · simp [Volume.create, Volume.addReferences]
    · simp [Volume.create, Volume.addReferences]
  exact ((hparent.insertNew h₁).insertNew h₂).insertNew h₃

theorem dropLink (hd : dropLink i s = some (u, s')) : Held m o s' := by
  obtain ⟨-, hd⟩ := assert_bind_inv (get_bind_inv hd)
  rw [modify_inv hd]
  exact h.setInode (fun _ => rfl) fun _ => rfl

theorem removeDirEntryFromDirectory {x : Option DirEntry}
    (hr : removeDirEntryFromDirectory d name s = some (x, s')) :
    Held m (o + x.elim 0 fun e => owe .dirent e.inode 1) s' := by
  obtain ⟨-, hr⟩ := assert_bind_inv (get_bind_inv hr)
  obtain ⟨_, s1, hl, hr⟩ := bind_inv hr
  have h₁ := h.lockInode hl
  have hs1 := (lockInode_inv hl).2
  cases hc : findEntry (s.entries d) name with
  | none =>
    rw [hc] at hr
    obtain ⟨rfl, rfl⟩ := pure_inv hr
    rw [elim_none, add_zero]
    exact h₁
  | some e =>
    rw [hc] at hr
    dsimp only at hr
    have hc1 : findEntry (s1.entries d) name = some e := by
      rw [hs1]
      exact hc
    split at hr
    · have hr := modify_bind_inv hr
      obtain ⟨rfl, rfl⟩ := pure_inv hr
      exact h₁.removeEntry hc1
    obtain ⟨_, s2, href, hr⟩ := bind_inv hr
    obtain ⟨_, s3, hl', hr⟩ := bind_inv hr
    have hr := modify_bind_inv hr
    obtain ⟨_, s4, hlink, hr⟩ := bind_inv hr
    obtain ⟨_, s5, hdrop, hr⟩ := bind_inv hr
    obtain ⟨rfl, rfl⟩ := pure_inv hr
    have hc3 : findEntry (s3.entries d) name = some e := by
      rw [(lockInode_inv hl').2, (reference_inv href).2.2.2]
      exact hc1
    have h4 := (((h₁.reference href).lockInode hl').removeEntry hc3).dropLink hlink
    rw [add_right_comm] at h4
    refine (h4.dereference_kept (q := .dirent) ?_ hdrop).2
    rw [add_apply, owe_self]
    omega

theorem detachDirectory (hd : 0 < o .lookup d)
    (hx : detachDirectory d i s = some (u, s')) : Held m o s' := by
  obtain ⟨x, s1, hr, hx⟩ := bind_inv hx
  have h₁ := h.removeDirEntryFromDirectory hr
  cases x with
  | none =>
    obtain ⟨-, rfl⟩ := pure_inv hx
    rw [elim_none, add_zero] at h₁
    exact h₁
  | some e =>
    obtain ⟨he, hx⟩ := assert_bind_inv hx
    obtain ⟨hp, hx⟩ := assert_bind_inv (get_bind_inv hx)
    obtain ⟨_, s2, hde, hx⟩ := bind_inv hx
    obtain ⟨_, s3, hdp, hx⟩ := bind_inv hx
    rw [elim_some, he] at h₁
    obtain ⟨hs2, h₂⟩ := h₁.dereference_kept hd hde
    have hp2 : s2.parent i = some d := by
      rw [hs2]
      exact hp
    -- the pointer goes before its reference instead of after it
    have hswap := h₂.setParent_none hp2
    obtain ⟨hlive, -, -, hs3⟩ := dereference_inv hdp
    have hlast : s2.referenceCount d ≠ 1 := hswap.not_last hd hlive
    rw [if_neg hlast] at hs3
    rw [modify_inv hx, hs3]
    exact hswap.drop fun _ => hlast

theorem detachIfDirectory (hd : 0 < o .lookup d)
    (hx : detachIfDirectory d i s = some (u, s')) : Held m o s' := by
  have hx := get_bind_inv hx
  split at hx
  · exact h.detachDirectory hd hx
  · obtain ⟨-, rfl⟩ := pure_inv hx
    exact h

end Held

theorem Names.LinksBack.parent_eq_none {s : Volume} {i : Nat}
    (h : s.names.LinksBack) (hi : s.entries i = []) : s.parent i = none := by
  cases hp : s.parent i with
  | none => rfl
  | some p =>
    have hc : s.child i dotdot = some p := (h i p hp).1
    rw [Volume.child, hi] at hc
    cases hc

namespace Held

variable {m o : Account} {s s' : Volume} {d : Nat} {u : Unit}

theorem deleteDirectoryEntry (h : Held m o s) (hd : 0 < o .lookup d) (hback : s'.names.LinksBack)
    (hx : bitbucketDeleteDirectoryEntry d name s = some (status, s')) : Held m o s' := by
  have hx := get_bind_inv hx
  obtain ⟨-, hx⟩ := assert_bind_inv hx
  obtain ⟨-, hx⟩ := assert_bind_inv hx
  obtain ⟨x, s1, hl, hx⟩ := bind_inv hx
  obtain ⟨-, hchild, hlook⟩ := lookupObject_inv hl
  have h₁ := h.looked hlook
  cases x with
  | none =>
    obtain ⟨-, rfl⟩ := pure_inv hx
    rw [elim_none, add_zero] at h₁
    exact h₁
  | some i =>
    obtain ⟨e, s2, hr, hx⟩ := bind_inv hx
    obtain ⟨hsome, hx⟩ := assert_bind_inv hx
    obtain ⟨_, s3, ht, hx⟩ := bind_inv hx
    obtain ⟨_, s4, hdl, hx⟩ := bind_inv hx
    obtain ⟨_, s5, hde, hx⟩ := bind_inv hx
    obtain ⟨-, rfl⟩ := pure_inv hx
    obtain ⟨e, rfl⟩ := isSome_iff_exists.mp hsome
    have hei : e.inode = i := by
      have := (names_removeDirEntryFromDirectory hr).1
      rw [hlook.names] at this
      exact some.inj (this.trans hchild.symm)
    have h₂ := h₁.removeDirEntryFromDirectory hr
    rw [elim_some, elim_some, hei] at h₂
    have h₃ := h₂.detachIfDirectory (by simp only [add_apply]; omega) ht
    rw [add_right_comm] at h₃
    have h4 := (h₃.dereference_kept (q := .dirent) (by rw [add_apply, owe_self]; omega) hdl).2
    rw [names_dereference hde] at hback
    exact h4.dereference hback.parent_eq_none hde

/-- Entries name other inodes, with the same number of names for each. -/
theorem sameEntryNames {es : Nat → List DirEntry} (h : Held m o s)
    (hc : { s with entries := es }.claimed = s.claimed)
    (hn : ∀ d, (es d).map DirEntry.name = (s.entries d).map DirEntry.name) :
    Held m o { s with entries := es } := by
  have hnil : ∀ d, es d = [] ↔ s.entries d = [] := by
    intro d
    rw [← map_eq_nil_iff (f := DirEntry.name), hn, map_eq_nil_iff]
  refine ⟨?_, h.mount, fun j hj => ?_, fun j hj => ?_, fun j => ?_, h.found, h.table⟩
  · rw [hc]
    exact h.counts.congr rfl rfl rfl
  · exact h.dirs j fun he => hj ((hnil j).mpr he)
  · exact ⟨(hnil j).mpr (h.gone j hj).1, (h.gone j hj).2⟩
  · rw [hn]
    exact h.nodup j

theorem exchangeObjectsInDirectory {q : Nat} {newname : Name} (h : Held m o s)
    (hx : bitbucketExchangeObjectsInDirectory p q name newname s = some (status, s')) :
    Held m o s' := by
  have h₁ : Held m o ((s.tick p).tick q) := h.tick.tick
  obtain ⟨hpq, ⟨-, rfl, -⟩ | ⟨e, e', he, he', -, rfl⟩⟩ := exchange_inv hx
  · exact h₁
  generalize hs1 : (s.tick p).tick q = s1 at h₁
  have hentries : s1.entries = s.entries := hs1 ▸ rfl
  rw [← hentries] at he he'
  have hq : (s1.redirectEntry p name e'.inode).entries q = s1.entries q := update_of_ne hpq.symm _ _
  have hc := s1.claimed_redirectEntry p (j := e'.inode)
    (lt_next_of_live (h₁.live_of_find he)) (h₁.nodup p) he
  have hc' := (s1.redirectEntry p name e'.inode).claimed_redirectEntry q
    (j := e.inode) (lt_next_of_live (h₁.live_of_find he'))
    (by rw [hq]; exact h₁.nodup q) (by rw [hq]; exact he')
  refine h₁.sameEntryNames ?_ fun d => ?_
  · funext r x
    have h₂ := congrFun (congrFun hc r) x
    have h₃ := congrFun (congrFun hc' r) x
    simp only [add_apply] at h₂ h₃
    show ((s1.redirectEntry p name e'.inode).redirectEntry q newname e.inode).claimed r x =
      s1.claimed r x
    omega
  · exact (redirectEntry_names _ q d).trans (redirectEntry_names _ p d)

end Held

end Finesse.Bitbucket
