import Finesse.Bitbucket.LinkCounts

/-!
# The offsets of directory entries

An entry gets the epoch of its directory for an offset when it is inserted at
the head of the list. The directory is locked for that, which moves its epoch
on, and no lock or edit moves an epoch back. So from the head of the list on the
offsets decrease, and all of them were an epoch of the directory after a lock.
-/

namespace Finesse.Bitbucket

open Function Volume

namespace Volume

/-- The offsets of the entries of a directory at an epoch. -/
structure InOrder (es : List DirEntry) (epoch : Nat) : Prop where
  sorted : es.Pairwise fun a b => b.offset < a.offset
  pos : ∀ e ∈ es, 0 < e.offset
  le : ∀ e ∈ es, e.offset ≤ epoch

namespace InOrder

variable {es es' : List DirEntry} {k l : Nat} {e : DirEntry}

variable (h : InOrder es k)
include h

theorem later (hkl : k ≤ l) : InOrder es l :=
  ⟨h.sorted, h.pos, fun e he => Nat.le_trans (h.le e he) hkl⟩

theorem sublist (hs : es'.Sublist es) : InOrder es' k :=
  ⟨h.sorted.sublist hs, fun e he => h.pos e (hs.subset he), fun e he => h.le e (hs.subset he)⟩

theorem cons (he : k < e.offset) : InOrder (e :: es) e.offset := by
  refine ⟨List.pairwise_cons.mpr ⟨fun a ha => ?_, h.sorted⟩, ?_, ?_⟩
  · exact Nat.lt_of_le_of_lt (h.le a ha) he
  · rintro a (_ | ⟨_, ha⟩)
    · exact Nat.lt_of_le_of_lt (Nat.zero_le k) he
    · exact h.pos a ha
  · rintro a (_ | ⟨_, ha⟩)
    · exact Nat.le_refl _
    · exact Nat.le_of_lt (Nat.lt_of_le_of_lt (h.le a ha) he)

theorem map {f : DirEntry → DirEntry}
    (hf : ∀ e, (f e).offset = e.offset) : InOrder (es.map f) k := by
  refine ⟨List.pairwise_map.mpr (h.sorted.imp fun hab => ?_), ?_, ?_⟩
  · rw [hf, hf]
    exact hab
  · intro a ha
    obtain ⟨b, hb, rfl⟩ := List.mem_map.mp ha
    rw [hf]
    exact h.pos b hb
  · intro a ha
    obtain ⟨b, hb, rfl⟩ := List.mem_map.mp ha
    rw [hf]
    exact h.le b hb

end InOrder

/-- The offsets of all directories. -/
structure Stamped (s : Volume) : Prop extends Entered s where
  inOrder : ∀ d, InOrder (s.entries d) (s.inode d).epoch

namespace Stamped

variable {s s' : Volume} {d i : Nat} {n : Name}

theorem same (h : s.Stamped) (hs : s.SameLinks s') : s'.Stamped := by
  refine ⟨hs.entered h.toEntered, fun d => ?_⟩
  rw [hs.entries]
  exact (h.inOrder d).later (hs.epoch d)

theorem epoch_insertEntry (s : Volume) (d i e : Nat) (n : Name) :
    ((s.insertEntry d i n).inode e).epoch = (s.inode e).epoch := by
  rw [insertEntry]
  split
  · by_cases he : e = i <;> simp [setInode, setEntries, he]
  · rfl

theorem epoch_unlinkEntry (s : Volume) (d i e : Nat) (n : Name) :
    ((s.unlinkEntry d n i).inode e).epoch = (s.inode e).epoch := by
  rw [unlinkEntry]
  split
  · rfl
  · by_cases he : e = i <;> simp [setInode, removeEntry, setEntries, he]

variable (h : s.Stamped)
include h

theorem edit (he : Edit (fun _ => False) s s') : s'.Stamped := by
  have hcounted : s.Counted fun _ => False := ⟨h.toEntered, by simp⟩
  refine ⟨(hcounted.edit he).toEntered, fun x => ?_⟩
  cases he with
  | same hs => exact (h.same hs).inOrder x
  | create t new b =>
    by_cases hx : x = s.next
    · subst hx
      simp only [create, update_self]
      exact ⟨.nil, by simp, by simp⟩
    · simp only [create, update_of_ne hx]
      exact h.inOrder x
  | @insert s1 d i n hs hlock =>
    rw [insertEntry_entries, epoch_insertEntry]
    by_cases hx : x = d
    · subst hx
      rw [update_self, hs.entries]
      exact (h.inOrder x).cons (e := ⟨n, i, (s1.inode x).epoch⟩) hlock
    · rw [update_of_ne hx]
      exact (h.same hs).inOrder x
  | @unlink d n e =>
    rw [unlinkEntry_entries, epoch_unlinkEntry]
    by_cases hx : x = d
    · subst hx
      simp only [removeEntry, setEntries, update_self]
      exact (h.inOrder x).sublist List.filter_sublist
    · simp only [removeEntry, setEntries, update_of_ne hx]
      exact h.inOrder x
  | @relink i f _ hf =>
    by_cases hx : x = i
    · subst hx
      simp only [setInode, update_self, hf]
      exact h.inOrder x
    · simp only [setInode, update_of_ne hx]
      exact h.inOrder x

theorem edits (he : Edits (fun _ => False) s s') : s'.Stamped := by
  induction he with
  | refl => exact h
  | tail _ hstep ih => exact ih.edit hstep

theorem redirect {j : Nat} (hj : j < s.next) : (s.redirectEntry d n j).Stamped := by
  refine ⟨h.toEntered.redirect hj, fun x => ?_⟩
  by_cases hx : x = d
  · subst hx
    simp only [redirectEntry, setEntries, update_self]
    refine (h.inOrder x).map fun e => ?_
    split <;> rfl
  · simp only [redirectEntry, setEntries, update_of_ne hx]
    exact h.inOrder x

theorem exchange {p q : Nat} {name newname : Name} {e e' : DirEntry}
    (hx : s.Exchanged s' p q name newname e e') : s'.Stamped := by
  obtain ⟨he, he', -, s1, hs1, hs'⟩ := hx
  have h1 := h.same hs1
  rw [← hs1.entries] at he he'
  have hi := (h1.used p e (findEntry_mem he)).2
  have hj := (h1.used q e' (findEntry_mem he')).2
  exact ((h1.redirect hj).redirect hi).same hs'

theorem step {u : Userdata} {r : Request} {ev : List Reply}
    (hx : s.step u r = some (ev, s')) : s'.Stamped := by
  by_cases hedit : r.EditsNames
  · cases r with
    | mkdir => exact h.edits (Edits.bitbucketMkdir _ _ hx)
    | create => exact h.edits (Edits.bitbucketCreate _ _ hx)
    | symlink => exact h.edits (Edits.bitbucketSymlink id _ _ hx)
    | link => exact h.edits (Edits.bitbucketLink _ _ hx)
    | rename =>
      rcases rename_edits hx with ⟨hed, -⟩ | ⟨-, p, q, e, e', -, -, -, hx, -⟩
      · exact h.edits hed
      · exact h.exchange hx
    | unlink => exact h.edits (Edits.bitbucketUnlink _ _ hx)
    | rmdir => exact h.edits (Edits.bitbucketRmdir _ _ hx)
    | _ => exact hedit.elim
  · exact h.same (quiet_step (g := 0) (fun _ _ _ => rfl) hedit hx).1.sameLinks

end Stamped

end Volume

theorem stamped_empty : empty.Stamped :=
  ⟨(counted_empty (X := fun _ => False)).toEntered, fun _ => ⟨.nil, nofun, nofun⟩⟩

theorem stamped_run {u : Userdata} {root bitbucket : NewInode}
    {others : List NewInode} {s s' : Volume} {rs : List Request} {tr : List Reply}
    (hinit : bitbucketInit root bitbucket others .empty = some ((), s))
    (hrun : Machine.run (step u) s rs = some (tr, s')) : s'.Stamped :=
  Machine.run_invariant (fun _ _ _ _ hs _ h => Stamped.step hs h)
    (stamped_empty.edits (Edits.bitbucketInit root bitbucket others _ _ _ hinit))
    hrun (Machine.along_trivial s rs)

end Finesse.Bitbucket
