import Finesse.Bitbucket.Calls
import Finesse.Bitbucket.DirectoryReferences

/-!
# What the handlers do to references

`Good m o s` is what holds at every step of a handler: the accounts add up
with the references `o` of the mounted volume and the handler, and the names
are linked. Between requests `o` is `m`. Each lemma says for one handler, or
for a part that several of them share, that it gives back what it takes, and
under which condition.
-/

namespace Finesse.Bitbucket

open Prog Volume Ledger

structure Good (m o : Account) (s : Volume) : Prop extends Held m o s where
  linked : s.names.Linked

namespace Held

variable {m o e : Account} {s s' : Volume} {i b : Nat} {r : Reason} {u : Unit} {f : Kernel → Kernel}

theorem giveKernel (hf : ∀ k, (f k).owes i = k.owes i + e)
    (h : Held m (o + e) s) : Held m o (s.setKernel i f) := by
  refine h.setKernel ?_
  have hc := s.claimed_setKernel i f
  rw [hf] at hc
  funext r x
  have hx := congrFun (congrFun hc r) x
  simp only [add_apply] at hx ⊢
  omega

/-- The kernel gives `b` references back. Those that it was never given are
others that nobody needs. -/
theorem takeBack (h : Held m (o + owe r i (b - (s.kernel i).owes i r i)) s)
    (hf : (f (s.kernel i)).owes i + owe r i (min b ((s.kernel i).owes i r i)) = (s.kernel i).owes i)
    (hup : s.entries i = [] → s.parent i = none)
    (hd : bitbucketDereferenceInode i r b s = some (u, s')) : Held m o (s'.setKernel i f) := by
  obtain ⟨hlive, -, -, hs⟩ := dereference_inv hd
  have hswap : Held m (o + owe r i b) (s.setKernel i f) := by
    refine h.setKernel ?_
    have hc := s.claimed_setKernel i f
    have hb : owe r i b = owe r i (min b ((s.kernel i).owes i r i)) +
        owe r i (b - (s.kernel i).owes i r i) := by
      rw [← owe_add]
      congr 1
      omega
    rw [hb]
    funext q j
    have hx := congrFun (congrFun hc q) j
    have hy := congrFun (congrFun hf q) j
    simp only [add_apply] at hx hy ⊢
    omega
  refine hswap.dropped hup hlive ?_
  split at hs
  · next hlast =>
    rw [if_pos (show (s.setKernel i f).referenceCount i = b from hlast), hs.2]
    exact ⟨hs.1, rfl⟩
  · next hlast =>
    rw [if_neg (show (s.setKernel i f).referenceCount i ≠ b from hlast), hs]
    rfl

end Held

variable {name : Name} {new : NewInode} {p : Nat}

namespace Good

variable {m o : Account} {s s' : Volume} {i : Nat} {r : Reason} {u : Unit}

theorem setInode {f : Inode → Inode} (h : Good m o s) (ht : ∀ k, (f k).inodeType = k.inodeType)
    (hn : ∀ k, (f k).ino = k.ino) : Good m o (s.setInode i f) := by
  refine ⟨h.toHeld.setInode ht hn, ?_⟩
  rw [names_setInode_mode s i ht]
  exact ⟨h.linked.back, h.linked.named, h.linked.dirs⟩

/-- What the kernel gives back is dropped, with nothing left over. -/
theorem calls : QuietCalls (Good m) where
  add h hl := ⟨h.toHeld.add hl, h.linked⟩
  dereference h hx := ⟨h.toHeld.dereference h.linked.back.parent_eq_none hx,
    names_dereference hx ▸ h.linked⟩
  setKernel hf h := ⟨h.toHeld.giveKernel hf, h.linked⟩
  setInode ht hi _ _ h := h.setInode ht hi
  takeBack := by
    intro g s i r b f s' hg hclaim hf h hx
    obtain ⟨hlive, -, hb, -⟩ := dereference_inv hx
    have hreason := h.counts.reasons i r hlive
    rw [add_apply, hg, hclaim] at hreason
    refine ⟨Held.takeBack ?_ (hf _) h.linked.back.parent_eq_none hx, ?_⟩
    · rw [Nat.sub_eq_zero_of_le (by omega), owe_zero, add_zero]
      exact h.toHeld
    · rw [names_setKernel, names_dereference hx]
      exact h.linked

/-! ## Functions of directories -/

theorem insertNew {d : Nat} (h : Good m o s) (hself : ¬ (name = dot ∧ i = d))
    (hi : insertNew d i name s = some (u, s')) : Good m o s' := by
  obtain ⟨hd, -, hfree, hn⟩ := names_insertNew hi
  refine ⟨h.toHeld.insertNew hi, ?_⟩
  rw [hn]
  exact h.linked.put hfree hd hself

theorem unused_child (h : Good m o s) (n : Name) : s.names.child s.names.next n = none := by
  show s.child s.next n = none
  rw [child, (h.gone s.next (s.unused _ (Nat.le_refl _))).1]
  rfl

theorem unused_parent (h : Good m o s) (d : Nat) : s.names.parent d ≠ some s.names.next := by
  intro hd
  have hd : s.parent d = some s.next := hd
  have hlive : s.live d = true := by
    by_contra hl
    rw [(h.gone d (Bool.eq_false_of_not_eq_true hl)).2] at hd
    cases hd
  have hzero := h.counts.dead s.next .parent (s.unused _ (Nat.le_refl _))
  rw [add_apply] at hzero
  have hone : (if s.parent d = some s.next then 1 else 0) ≤ s.claimed .parent s.next :=
    Finset.single_le_sum (f := fun d => if s.parent d = some s.next then 1 else 0)
      (fun _ _ => Nat.zero_le _)
      (Finset.mem_range.mpr (lt_next_of_live hlive))
  rw [if_pos hd] at hone
  omega

section

variable (h : Good m (m + o) s)
include h

theorem root_ne_next : s.root ≠ s.next := by
  have hm : 0 < m .lookup s.root := by
    rw [← h.mount]
    simp [mounted]
  have hlive : s.live s.root = true := by
    by_contra hl
    have := h.counts.dead s.root .lookup (Bool.eq_false_of_not_eq_true hl)
    simp only [add_apply] at this
    omega
  exact Nat.ne_of_lt (lt_next_of_live hlive)

theorem createDirectory
    (hnew : s.table new.ino = none) (hc : bitbucketCreateDirectory p name new s = some (i, s')) :
    Good m (m + o + owe .lookup i 1) s' := by
  obtain ⟨rfl, hp, hfree, hn⟩ := names_createDirectory h.root_ne_next hc
  refine ⟨h.toHeld.createDirectory hnew hc, ?_⟩
  obtain ⟨_, s1, hm, -⟩ := bind_inv hc
  have hne := Nat.ne_of_lt (lt_next_of_live (checkMagic_inv hm).1)
  rw [hn]
  exact h.linked.mkdir hp hne (hfree hne) h.unused_child

theorem create {t : InodeType} {b : Bool} (ht : t ≠ .dir)
    (hnew : s.table new.ino = none) : Good m (m + o + owe .lookup s.next 1) (s.create t new b) := by
  refine ⟨h.toHeld.create hnew, ?_⟩
  rw [names_create _ _ _ _ h.root_ne_next, eq_false ht]
  exact h.linked.fresh h.unused_parent h.unused_child

theorem createFile {b : Bool}
    (hnew : s.table new.ino = none) (hc : bitbucketCreateFile p name new b s = some (i, s')) :
    Good m (m + o + owe .lookup i 1) s' := by
  obtain ⟨hlive, -, rfl, hi⟩ := createFile_inv hc
  have hne := Nat.ne_of_lt (lt_next_of_live hlive)
  exact (h.create (t := .file) (by decide) hnew).insertNew (fun he => hne he.2.symm) hi

theorem createSymlink {link : Name}
    (hnew : s.table new.ino = none) (hc : bitbucketCreateSymlink p name link new s = some (i, s')) :
    Good m (m + o + owe .lookup i 1) s' := by
  obtain ⟨hlive, -, rfl, hi⟩ := createSymlink_inv hc
  have hne := Nat.ne_of_lt (lt_next_of_live hlive)
  have hlink := (h.create (t := .symlink) (b := false) (by decide) hnew).setInode
    (i := s.next) (f := fun n => { n with link := link, nlink := 1 })
    (fun _ => rfl) fun _ => rfl
  exact hlink.insertNew (fun he => hne he.2.symm) hi

end

/-- The entry of an inode that is not a directory is deleted, while the
handler holds the directory of the entry. -/
theorem deleteFile {d : Nat} {status : Int} (h : Good m o s) (hd : 0 < o .lookup d)
    (hfile : ∀ i ∈ s.child d name, s.inodeType i ≠ .dir)
    (hx : bitbucketDeleteDirectoryEntry d name s = some (status, s')) : Good m o s' := by
  have hlinked : s'.names.Linked := by
    obtain ⟨-, ⟨-, -, hn⟩ | ⟨i, hc, -, ⟨hi, -⟩ | ⟨hi, hn⟩⟩⟩ := names_deleteDirectoryEntry hx
    · exact hn ▸ h.linked
    · exact absurd hi (hfile i hc)
    · rw [hn]
      exact h.linked.remove_file hc hi
  exact ⟨h.toHeld.deleteDirectoryEntry hd hlinked.back hx, hlinked⟩

end Good

end Finesse.Bitbucket
