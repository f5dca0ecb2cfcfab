import Finesse.Bitbucket.Exits
import Finesse.Bitbucket.Xattr

/-!
# Copying between files

`bitbucket_internal_copy_file_range` is to copy the bytes there are, and to reply
with their number. Its outer loop ends only with a `copy_size` of zero, and nothing
sets it to zero after a copy: the handler copies the same bytes for ever, or it stops
at an assertion, since what is left of a file that ends inside the range is calculated
as a negative number. `copy_size` is an `int`, so with a length that has the bit
`2 ^ 31` set the loop runs on nothing.
-/

namespace Finesse.Bitbucket

open Prog Function Stopping Exits Buffer Volume

/-- A number of a file with the bytes `a`. -/
structure Volume.FileAt (s : Volume) (ino i : Nat) (a : List UInt8) : Prop extends
    s.Serves ino i where
  notRoot : ino ≠ fuseRootId
  type : s.inodeType i = .file
  bytes : (s.inode i).file.Represents a

/-- The handler returns, with the reply and the bytes that it should. The bytes
of the input file are `a`, those of the output file, the inode `j`, are `b`. -/
def Volume.CopiesRight (s : Volume) (inoIn offIn inoOut offOut len j : Nat)
    (a b : List UInt8) : Prop :=
  ∃ fuel s', Exits.bitbucketCopyFileRange fuel inoIn offIn inoOut offOut len s =
      .ok ([.write (min len (a.length - offIn))], s') ∧
    (s'.inode j).file.Represents (overwrite 0 b offOut (slice a offIn len)) ∧
    ∀ k, k ≠ j → (s'.inode k).file = (s.inode k).file

section

variable {s s' : Volume} {ino i j inoIn offIn inoOut offOut len fuel : Nat}
  {a b : List UInt8} {rs : List Reply}

theorem Volume.addReferences_comm (hne : i ≠ j) :
    (s.addReferences i .lookup 1).addReferences j .lookup 1 =
      (s.addReferences j .lookup 1).addReferences i .lookup 1 := by
  simp only [addReferences, update_of_ne hne, update_of_ne (Ne.symm hne), update_comm hne]

theorem Volume.Serves.add (h : s.Serves ino j) : (s.addReferences i .lookup 1).Serves ino j := by
  have hcount := h.count
  have hreasons := h.reasons
  refine ⟨h.number, h.found, h.live, ?_, ?_⟩
  · by_cases hij : j = i
    · subst hij
      simp [addReferences]
    · simpa [addReferences, hij] using hcount
  · by_cases hij : j = i
    · subst hij
      simpa [addReferences] using hreasons
    · simpa [addReferences, hij] using hreasons

theorem Volume.FileAt.lookup (h : s.FileAt ino i a) :
    bitbucketLookupInodeInTable ino s = some (some i, s.addReferences i .lookup 1) := by
  have := h.toServes.lookupInode
  rwa [lookupInode, Prog.get_bind, if_neg h.notRoot] at this

theorem Volume.FileAt.add (h : s.FileAt ino j b) : (s.addReferences i .lookup 1).FileAt ino j b :=
  ⟨h.toServes.add, h.notRoot, h.type, h.bytes⟩

theorem Volume.FileAt.size (h : s.FileAt ino i a) : (s.inode i).size = a.length := by
  have htype : (s.inode i).inodeType = .file := h.type
  rw [Inode.size, htype]
  exact h.bytes.size

section

variable (hi : s.FileAt inoIn i a)
include hi

theorem Volume.FileAt.drop (hj : s.FileAt inoOut j b) (hne : i ≠ j) :
    (do dropLookup i; dropLookup j : M Unit)
      ((s.addReferences i .lookup 1).addReferences j .lookup 1) = some ((), s) := by
  rw [addReferences_comm hne, bind_some hi.add.toServes.dropLookup]
  exact hj.toServes.dropLookup

theorem copyFileRange_self (hj : s.FileAt inoOut i b) :
    Exits.bitbucketCopyFileRange fuel inoIn offIn inoOut offOut len s = .error .assertion := by
  rw [Exits.bitbucketCopyFileRange, if_neg (not_or.mpr ⟨hi.notRoot, hj.notRoot⟩),
    bind_ok (ofProg_ok hi.lookup),
    bind_ok (ofProg_ok hj.add.lookup)]
  simp only [notNull, pure_bind]
  rw [bind_apply]
  simp only [call, ofProg, assert_neg (not_not.mpr rfl)]

theorem copyFileRange_eq (hj : s.FileAt inoOut j b) (hne : i ≠ j) :
    Exits.bitbucketCopyFileRange fuel inoIn offIn inoOut offOut len s = (do
        copyLoop i j offIn offOut len fuel false
        call do
          dropLookup i
          dropLookup j
        pure [.write 0] : H (List Reply))
        ((s.addReferences i .lookup 1).addReferences j .lookup 1) := by
  have hfiles : ¬(s.inodeType i ≠ .file ∨ s.inodeType j ≠ .file) :=
    not_or.mpr ⟨not_not.mpr hi.type, not_not.mpr hj.type⟩
  rw [Exits.bitbucketCopyFileRange, if_neg (not_or.mpr ⟨hi.notRoot, hj.notRoot⟩),
    bind_ok (ofProg_ok hi.lookup),
    bind_ok (ofProg_ok hj.add.lookup)]
  simp only [notNull, pure_bind]
  rw [bind_ok (ofProg_ok (assert_pos hne _)), Stopping.get_bind]
  exact congrFun (if_neg hfiles) _

theorem copyFileRange_nothing (hj : s.FileAt inoOut j b)
    (hne : i ≠ j) (hn : NothingToCopy s i offIn len) :
    Exits.bitbucketCopyFileRange (fuel + 1) inoIn offIn inoOut offOut len s =
      .ok ([.write 0], s) := by
  have hloop : copyLoop i j offIn offOut len (fuel + 1) false
      ((s.addReferences i .lookup 1).addReferences j .lookup 1) = .ok ((), _) :=
    copyLoop_ends hn
  rw [copyFileRange_eq hi hj hne, bind_ok hloop, bind_ok (ofProg_ok (hi.drop hj hne))]
  rfl

theorem nothingToCopy_of_reply (hj : s.FileAt inoOut j b)
    (h : Exits.bitbucketCopyFileRange fuel inoIn offIn inoOut offOut len s = .ok (rs, s')) :
    i ≠ j ∧ NothingToCopy s i offIn len := by
  by_cases hne : i = j
  · subst hne
    rw [copyFileRange_self hi hj] at h
    cases h
  refine ⟨hne, ?_⟩
  by_contra hn
  rw [copyFileRange_eq hi hj hne, bind_apply] at h
  have hendless : ∀ r, copyLoop i j offIn offOut len fuel false
      ((s.addReferences i .lookup 1).addReferences j .lookup 1) ≠ .ok r :=
    copyLoop_endless hne hn
  split at h
  · cases h
  · next hloop => exact hendless _ hloop

end

/-- Two files are copied as they should be exactly if there is nothing to copy,
they are not the same, and the length, as an `int`, is not negative. -/
theorem copy_right_iff (offIn offOut len : Nat) (hi : s.FileAt inoIn i a)
    (hj : s.FileAt inoOut j b) : s.CopiesRight inoIn offIn inoOut offOut len j a b ↔
      i ≠ j ∧ (len = 0 ∨ a.length ≤ offIn ∧ len % 2 ^ 32 < 2 ^ 31) := by
  have hnothing : NothingToCopy s i offIn len ↔
      len % 2 ^ 32 = 0 ∨ len % 2 ^ 32 < 2 ^ 31 ∧ a.length ≤ offIn := by
    rw [NothingToCopy, hi.size]
  constructor
  · rintro ⟨fuel, s', hr, -, -⟩
    obtain ⟨hne, hn⟩ := nothingToCopy_of_reply hi hj hr
    cases fuel with
    | zero =>
      rw [copyFileRange_eq hi hj hne] at hr
      cases hr
    | succ fuel =>
      rw [copyFileRange_nothing hi hj hne hn] at hr
      -- the reply is zero, so that there was nothing to copy
      have hzero : min len (a.length - offIn) = 0 := by
        obtain ⟨hrs, -⟩ := Prod.mk.inj (Except.ok.inj hr)
        exact (Reply.write.inj (List.cons.inj hrs).1).symm
      refine ⟨hne, ?_⟩
      rcases hnothing.mp hn with h | h <;> omega
  · rintro ⟨hne, h⟩
    have hn : NothingToCopy s i offIn len := hnothing.mpr (by
      rcases h with rfl | h
      · exact .inl rfl
      · exact .inr h.symm)
    have hslice : slice a offIn len = [] := by
      rw [slice, ← List.length_eq_zero_iff, List.length_take, List.length_drop]
      omega
    have hzero : min len (a.length - offIn) = 0 := by omega
    refine ⟨1, s, ?_, ?_, fun k _ => rfl⟩
    · rw [hzero]
      exact copyFileRange_nothing hi hj hne hn
    · rw [hslice, overwrite, if_pos rfl]
      exact hj.bytes

end

/-- What `FileAt` says of a file `f`, as a test. -/
def Volume.fileAt (s : Volume) (ino i : Nat) (f : File) : Bool :=
  ino ≠ 0 ∧ s.resolve ino = some i ∧ s.live i = true ∧ 0 < s.referenceCount i ∧
    s.referenceReasons i .lookup ≤ s.referenceCount i ∧ ino ≠ fuseRootId ∧
    s.inodeType i = .file ∧ (s.inode i).file = f

theorem Volume.fileAt_of_test {s : Volume} {ino i : Nat} {f : File} {a : List UInt8}
    (h : s.fileAt ino i f = true) (hf : f.Represents a) : s.FileAt ino i a := by
  obtain ⟨hino, hfound, hlive, hcount, hreasons, hroot, htype, rfl⟩ := of_decide_eq_true h
  exact ⟨⟨hino, hfound, hlive, hcount, hreasons⟩, hroot, htype, hf⟩

def twoFiles : List Request :=
  [.create 1 ['a'] 0o100644 ⟨11, 0⟩, .create 1 ['b'] 0o100644 ⟨12, 0⟩,
    .writeBuf 11 0 ⟨[⟨.mem [97], false, 0⟩], 0, 0⟩]

/-- Two files of a volume with a storage directory: the first one has a byte. -/
theorem two_files : ∃ s s' tr, newMount = some ((), s) ∧
    Machine.run (Volume.step ⟨true, false, false, false⟩) s twoFiles = some (tr, s') ∧
    s'.FileAt 11 6 [97] ∧ s'.FileAt 12 7 [] := by
  refine Machine.exists_run (K := fun _ _ => True) (P := fun _ _ s' =>
    s'.fileAt 11 6 ⟨1, .mapped 1, some [97]⟩ = true ∧
      s'.fileAt 12 7 ⟨0, .null, some []⟩ = true) (by decide +kernel) ?_
  rintro s tr s' - - - ⟨ha, hb⟩
  exact ⟨fileAt_of_test ha (.mapped (List.cons_ne_nil 97 [])), fileAt_of_test hb (.empty _)⟩

/-- Copying from behind the end of a file. -/
theorem copy_right_iff_behind_end : ∃ s s' tr, newMount = some ((), s) ∧
    Machine.run (Volume.step ⟨true, false, false, false⟩) s twoFiles = some (tr, s') ∧
    s'.FileAt 11 6 [97] ∧ s'.FileAt 12 7 [] ∧ s'.CopiesRight 11 1 12 0 5 7 [97] [] := by
  obtain ⟨s, s', tr, hs, hr, ha, hb⟩ := two_files
  exact ⟨s, s', tr, hs, hr, ha, hb, (copy_right_iff 1 0 5 ha hb).mpr (by decide)⟩

/-- A byte is copied to an empty file: there is no reply, however long the loop
runs. A byte is copied to another place of its file: a failed assertion. And a
length of `2 ^ 32` is zero: nothing is copied, where a byte could be. -/
theorem copy_never_ends : ∃ s s' tr, newMount = some ((), s) ∧
    Machine.run (Volume.step ⟨true, false, false, false⟩) s twoFiles = some (tr, s') ∧
    s'.FileAt 11 6 [97] ∧ s'.FileAt 12 7 [] ∧
    (∀ fuel r, Exits.bitbucketCopyFileRange fuel 11 0 12 0 1 s' ≠ .ok r) ∧
    ¬ s'.CopiesRight 11 0 12 0 1 7 [97] [] ∧
    (∀ fuel, Exits.bitbucketCopyFileRange fuel 11 0 11 1 1 s' = .error .assertion) ∧
    Exits.bitbucketCopyFileRange 1 11 0 12 0 (2 ^ 32) s' = .ok ([.write 0], s') := by
  obtain ⟨s, s', tr, hs, hr, ha, hb⟩ := two_files
  have hn : ¬ NothingToCopy s' 6 0 1 := by
    rw [NothingToCopy, ha.size]
    decide
  have hendless : ∀ fuel r, Exits.bitbucketCopyFileRange fuel 11 0 12 0 1 s' ≠ .ok r :=
    fun fuel r h => hn (nothingToCopy_of_reply ha hb h).2
  refine ⟨s, s', tr, hs, hr, ha, hb, hendless, ?_, ?_, ?_⟩
  · rintro ⟨fuel, s'', h, -⟩
    exact hendless fuel _ h
  · exact fun fuel => copyFileRange_self ha ha
  · exact copyFileRange_nothing ha hb (by decide) (.inl rfl)

end Finesse.Bitbucket
