import Finesse.Bitbucket.Balance
import Finesse.Bitbucket.Tree

/-!
# Requests on names give back what they take

The handlers of requests on names, each with the condition under which it
leaves no reference behind.
-/

namespace Finesse.Bitbucket

open Prog Option
open Ledger (owe)
open Names

/-- A rename that replaces an inode does not replace a directory. -/
def Volume.ReplacesFile (s : Volume) (p q i : Nat) (name newname : Name) (flags : Nat) : Prop :=
  s.RenameActs p q i name newname flags → flags &&& renameExchange = 0 →
    ∀ j ∈ s.child q newname, s.inodeType j ≠ .dir

namespace Good

variable {m o : Account} {s s' : Volume} {u : Unit} {parent : Nat}
  {name newname : Name} {new : NewInode}

theorem bitbucketMkdir {mode : Nat} (h : Good m m s) (hnew : s.table new.ino = none) :
    Ends (bitbucketMkdir parent name mode new) s fun _ s' => Good m m s' :=
  calls.bitbucketMkdir h fun _ _ _ _ h _ _ hx =>
    (h.createDirectory hnew hx).setInode (fun _ => rfl) fun _ => rfl

theorem bitbucketCreate {us : Userdata} {mode : Nat} (h : Good m m s)
    (hnew : s.table new.ino = none) :
    Ends (bitbucketCreate us parent name mode new) s fun _ s' => Good m m s' := by
  refine calls.bitbucketCreate h fun p c r _ h x hmem i s' hx => ?_
  have hcreated : Good m (m + owe .lookup p 1 + owe .lookup i 1) s' := by
    rcases List.mem_pair.mp hmem with rfl | rfl
    · exact h.createDirectory hnew hx
    · exact h.createFile hnew hx
  exact hcreated.setInode (fun _ => rfl) fun _ => rfl

theorem bitbucketSymlink {link : Name} (h : Good m m s) (hnew : s.table new.ino = none) :
    Ends (bitbucketSymlink link parent name new) s fun _ s' => Good m m s' :=
  calls.bitbucketSymlink h fun _ _ _ _ h _ _ hx => h.createSymlink hnew hx

theorem linkEntry {p i : Nat} {newname : Name} (h : Good m o s) (hfree : s.child p newname = none)
    (hi : s.inodeType i = .file) (hx : linkEntry p i newname s = some (u, s')) : Good m o s' := by
  obtain ⟨status, s1, hins, hx⟩ := bind_inv hx
  obtain ⟨hp, -, ⟨-, rfl, hn⟩ | ⟨hne, -⟩⟩ := names_insertDirectoryEntry hins
  · rw [if_neg (by decide)] at hx
    obtain ⟨-, rfl⟩ := pure_inv hx
    rcases h.toHeld.insertDirectoryEntry hins with ⟨-, h1⟩ | ⟨hne, -⟩
    · refine ⟨h1, ?_⟩
      rw [hn]
      refine h.linked.put hfree hp fun hself => ?_
      have hd : s.inodeType i = .dir := hself.2 ▸ hp
      rw [hi] at hd
      cases hd
    · exact absurd hfree hne
  · exact absurd hfree hne

theorem bitbucketLink {ino : Nat} (h : Good m m s)
    (hfree : ino ≠ fuseRootId → ∀ i ∈ s.table ino, s.inodeType i = .file →
      ∀ p ∈ s.resolve parent, s.child p newname = none) :
    Ends (bitbucketLink ino parent newname) s fun _ s' => Good m m s' :=
  calls.bitbucketLink h fun i p _ _ hino hi hp hfile h _ _ hx =>
    h.linkEntry (hfree hino i hi hfile p hp) hfile hx

theorem bitbucketUnlink (h : Good m m s)
    (hfile : ∀ p ∈ s.resolve parent, ∀ i ∈ s.child p name, s.inodeType i ≠ .dir) :
    Ends (bitbucketUnlink parent name) s fun _ s' => Good m m s' :=
  calls.bitbucketUnlink h fun p _ _ hp h _ _ hx =>
    h.deleteFile (lookup_owe_pos m p) (hfile p hp) hx

/-- The two deletions of an rmdir request for the directory `i`, which the
handler holds as well as the directory it is in. -/
theorem deleteDirectory {p i : Nat} {name : Name} {s1 : Volume} (h : Good m o s)
    (hp : 0 < o .lookup p) (hi : 0 < o .lookup i) (hc : s.child p name = some i)
    (hdir : s.inodeType i = .dir) (hname : name ≠ dotdot) (hself : s.child i dot = some i)
    (hdel : bitbucketDeleteDirectoryEntry p name s = some (0, s1))
    (hx : bitbucketDeleteDirectory i s1 = some (0, s')) : Good m o s' := by
  obtain ⟨hpar, -, hx⟩ := deleteDirectory_inv hx
  obtain ⟨-, ⟨-, h0, -⟩ | ⟨j, hj, -, ⟨-, hback, hn⟩ | ⟨hnd, -⟩⟩⟩ := names_deleteDirectoryEntry hdel
  · exact absurd h0 (by decide)
  · obtain rfl : i = j := mem_unique hc hj
    have hl1 : s1.names.LinkedBut fun k => False ∨ k = i := by
      rw [hn]
      exact h.linked.delete_dir hc hback fun h => absurd h hname
    have h1 := h.toHeld.deleteDirectoryEntry hp hl1.back hdel
    have hgone : s'.names.child i dot = none ∧
        s'.names.LinkedBut fun k => (False ∨ k = i) ∨ k = i := by
      obtain ⟨-, ⟨-, h0, -⟩ | ⟨k, hk, -, hrest⟩⟩ := names_deleteDirectoryEntry hx
      · exact absurd h0 (by decide)
      obtain rfl : k = i := by
        rw [hn, detach_child_dot] at hk
        exact some.inj ((child_of_put_none hk).2.symm.trans hself)
      rcases hrest with ⟨-, hback', hn'⟩ | ⟨hnd, -⟩
      · rw [hn', detach_child_dot, put_child_self]
        exact ⟨rfl, hl1.delete_dir hk hback' fun h => absurd h (by decide)⟩
      · rw [hn, detach_isDir] at hnd
        exact absurd hdir hnd
    have hl : s'.names.Linked := by
      refine (hgone.2.settle fun h => ?_).settle fun h => ?_
      · exact nomatch hgone.1.symm.trans h
      · exact nomatch hgone.1.symm.trans h
    exact ⟨h1.deleteDirectoryEntry hi hl.back hx, hl⟩
  · obtain rfl : i = j := mem_unique hc hj
    exact absurd hdir hnd

theorem bitbucketRmdir (h : Good m m s)
    (hcond : ∀ p ∈ s.resolve parent, ∀ i ∈ s.child p name, name ≠ dotdot ∧
      s.inodeType i = .dir ∧ (s.entries i).length ≤ 2 ∧
      s.child i dot = some i) :
    Ends (bitbucketRmdir parent name) s fun _ s' => Good m m s' := by
  refine calls.bitbucketRmdir h (fun p i s' hp hi hout _ => ?_)
    fun p i c r s1 hp hi hdir h hdel status s' hx h0 => ?_
  · obtain ⟨-, hdir, hlen, -⟩ := hcond p hp i hi
    exact absurd hout (not_or.mpr ⟨not_not.mpr hdir, Nat.not_lt.mpr hlen⟩)
  subst h0
  obtain ⟨hname, -, -, hself⟩ := hcond p hp i hi
  exact h.deleteDirectory (lookup_pos (lookup_owe_pos m p) _)
    (lookup_owe_pos _ i) hi hdir hname hself hdel hx

/-- The last step of a rename. A directory that is renamed keeps a name. -/
theorem moveEntry {p q i : Nat} {name newname : Name} {status : Int} (h : Good m o s)
    (hp : 0 < o .lookup p) (hname : Proper name) (hnew : Proper newname)
    (hsrc : ∀ x ∈ s.child p name, x = i) (hdir : s.inodeType i = .dir → s.child p name = some i)
    (hx : moveEntry p q i name newname s = some (status, s')) : Good m o s' := by
  obtain ⟨_, s1, hins, hx⟩ := bind_inv hx
  have h1 := h.insertNew (fun he => hnew.1 he.1) hins
  obtain ⟨-, -, hfree, hn1⟩ := names_insertNew hins
  have hl : s'.names.Linked := by
    obtain ⟨-, ⟨-, -, hn⟩ | ⟨x, hc, -, ⟨hxd, hback, hn⟩ | ⟨hxd, hn⟩⟩⟩ :=
      names_deleteDirectoryEntry hx
    · exact hn ▸ h1.linked
    · obtain rfl : x = i := by
        rw [hn1, put_child] at hc
        split at hc
        · exact (some.inj hc).symm
        · exact hsrc x hc
      rw [hn1] at hxd
      have hslot : ¬ (q = p ∧ newname = name) := by
        rintro ⟨rfl, rfl⟩
        exact absurd (hfree.symm.trans (hdir hxd)) nofun
      rw [hn]
      refine (h1.linked.delete_dir hc hback fun h => absurd h hname.2).settle
        fun _ => .inr ⟨q, newname, ?_, fun he => hnew.1 he.2, fun he => hnew.2 he.1⟩
      rw [detach_child (.inr fun he => hnew.2 he.2), put_child_of_ne hslot, hn1, put_child_self]
    · rw [hn]
      exact h1.linked.remove_file hc hxd
  exact ⟨h1.toHeld.deleteDirectoryEntry hp hl.back hx, hl⟩

/-- A file is replaced: it loses its name before the other inode gets it. -/
theorem replaceEntry {p q i j : Nat} {status : Int} {s1 : Volume} (h : Good m o s)
    (hpo : 0 < o .lookup p) (hqo : 0 < o .lookup q) (hfile : s.inodeType j ≠ .dir)
    (hname : Proper name) (hnew : Proper newname) (hc : s.child p name = some i)
    (hc' : s.child q newname = some j)
    (hd : bitbucketDeleteDirectoryEntry q newname s = some (0, s1))
    (hx : Bitbucket.moveEntry p q i name newname s1 = some (status, s')) : Good m o s' := by
  have h1 := h.deleteFile hqo (fun k hk => by
    obtain rfl : j = k := mem_unique hc' hk
    exact hfile) hd
  have hn : s1.names = s.names.put q newname none := by
    obtain ⟨-, ⟨hnone, -, -⟩ | ⟨k, hk, -, ⟨hkd, -, -⟩ | ⟨-, hn⟩⟩⟩ := names_deleteDirectoryEntry hd
    · exact nomatch hc'.symm.trans hnone
    · obtain rfl : j = k := mem_unique hc' hk
      exact absurd hkd hfile
    · exact hn
  have hchild : ∀ x, s1.child p name = some x → ¬ (p = q ∧ name = newname) ∧ x = i := by
    intro x hx
    have hx : s1.names.child p name = some x := hx
    rw [hn] at hx
    obtain ⟨hslot, hx⟩ := child_of_put_none hx
    exact ⟨hslot, mem_unique hx hc⟩
  refine h1.moveEntry hpo hname hnew (fun x hx => (hchild x hx).2) (fun hid => ?_) hx
  have hid : s.inodeType i = .dir := by
    have hid : s1.names.isDir i := hid
    rw [hn] at hid
    exact hid
  show s1.names.child p name = some i
  rw [hn, put_child_of_ne]
  · exact hc
  rintro ⟨rfl, rfl⟩
  obtain rfl : i = j := mem_unique hc hc'
  exact hfile hid

theorem bitbucketRename {newparent flags : Nat} (h : Good m m s)
    (hcond : ∀ p ∈ s.resolve parent, ∀ q ∈ s.resolve newparent,
      ∀ i ∈ s.child p name, s.ReplacesFile p q i name newname flags) :
    Ends (bitbucketRename parent name newparent newname flags) s fun _ s' => Good m m s' := by
  refine calls.bitbucketRename h fun p q i c r status s' hr h hstep => ?_
  have hp : 0 < found (m + owe .lookup p 1 + owe .lookup q 1 + owe .lookup i 1)
      (s.child q newname) .lookup p :=
    found_pos (lookup_pos (lookup_pos (lookup_owe_pos m p) _) _) _
  have hq : 0 < found (m + owe .lookup p 1 + owe .lookup q 1 + owe .lookup i 1)
      (s.child q newname) .lookup q :=
    found_pos (lookup_pos (lookup_owe_pos _ q) _) _
  cases hstep with
  | move hj hx =>
    exact h.moveEntry hp hr.acts.1 hr.acts.2.1
      (fun x hx => mem_unique hx hr.child) (fun _ => hr.child) hx
  | exchange hj _ hx =>
    refine ⟨h.toHeld.exchangeObjectsInDirectory hx, ?_⟩
    rcases names_exchangeObjectsInDirectory hx with hn | ⟨hpq, k, l, hk, hl, hn⟩
    · exact hn ▸ h.linked
    · rw [hn]
      exact h.linked.exchange hpq hr.acts.1 hr.acts.2.1 hk hl
  | replace hj hex hd hx =>
    have hfile := hcond p hr.parent q hr.newparent i hr.child hr.acts hex _ hj
    exact h.replaceEntry hp hq hfile hr.acts.1 hr.acts.2.1 hr.child hj hd hx

end Good

end Finesse.Bitbucket
