import Finesse.Bitbucket.Requests

/-!
# How a copy ends

The model of the handlers says `none` when an assertion fails. Here
`bitbucket_internal_copy_file_range` is given again with its loop, and says why it does
not return: the pointer to an inode is `NULL`, the loop has no end, or another
assertion fails. It returns exactly if the handler without the loop does
(`copyFileRange_ok_iff`).
-/

namespace Finesse.Bitbucket

open Prog Stopping Volume Function

/-- Why a handler does not return. -/
inductive Stop where
  | nullInode
  | endless
  /-- an assertion about something else -/
  | assertion
deriving DecidableEq, Repr

abbrev H := Stopping Volume Stop

namespace Exits

/-- A part of a handler in which every assertion is about something else. -/
abbrev call {α : Type} (x : M α) : H α := ofProg .assertion x

/-- An inode that is locked, or asserted to be there. -/
def notNull : Option Nat → H Nat
  | none => stop .nullInode
  | some i => pure i

/-- `int copy_size = len`. -/
def copySize (len : Nat) : Int := (BitVec.ofNat 32 len).toInt

/-- `BitbucketAdjustFileStorage`, of which the status is not looked at. -/
def adjustStorage (j newLength : Nat) : M Unit := fun s =>
  match (s.inode j).file.bitbucketAdjustFileStorage newLength with
  | none => none
  | some file => some ((), s.setInode j fun n => { n with file := file })

/-- The `memcpy` from the one file to the other. -/
def copyBytes (i j offIn offOut n : Nat) : M Unit := fun s =>
  match (s.inode i).file.load offIn n with
  | none => none
  | some bytes =>
    match (s.inode j).file.store offOut bytes with
    | none => none
    | some file => some ((), s.setInode j fun n => { n with file := file })

/-- The output file is made long enough. -/
def growOut (j newLength : Nat) : M Unit := do
  let s ← get
  if (s.inode j).size < newLength then adjustStorage j newLength else pure ()

/-- The rest of the inner loop, once the locks are held. -/
def copyOut (i j offIn offOut n : Nat) : M Unit := do
  growOut j (offOut + n)
  let s ← get
  assert ((s.inode j).size ≤ offOut + n)
  copyBytes i j offIn offOut n

/-- The inner loop of `bitbucket_internal_copy_file_range`, with the value of
`copy_size` at its end. If the locks are upgraded the loop starts over, and
gets to the same place again. -/
def copyInner (i j offIn offOut len : Nat) (exclusive : Bool) : M (Int × Bool) := do
  if copySize len ≤ 0 then pure (copySize len, exclusive)
  else do
    let s ← get
    if (s.inode i).size ≤ offIn then pure (0, exclusive)
    else do
      let n := (copySize len).toNat
      -- for a range that ends behind the file the difference is negative
      assert (offIn + n ≤ (s.inode i).size)
      if exclusive = false ∧ (s.inode j).size < offOut + n then do
        bitbucketLockTwoInodes i j
        copyOut i j offIn offOut n
        pure (copySize len, true)
      else do
        copyOut i j offIn offOut n
        pure (copySize len, exclusive)

/-- The outer loop, which ends only if there is nothing to copy. -/
def copyLoop (i j offIn offOut len : Nat) : Nat → Bool → H Unit
  | 0, _ => stop .endless
  | fuel + 1, exclusive => do
    let (size, exclusive) ← call (copyInner i j offIn offOut len exclusive)
    if size = 0 then pure ()
    else copyLoop i j offIn offOut len fuel exclusive

/-- `bitbucket_internal_copy_file_range`. -/
def bitbucketCopyFileRange (fuel inoIn offIn inoOut offOut len : Nat) : H (List Reply) := do
  if inoIn = fuseRootId ∨ inoOut = fuseRootId then pure [.err EISDIR]
  else do
    let inInode ← call (bitbucketLookupInodeInTable inoIn)
    let outInode ← call (bitbucketLookupInodeInTable inoOut)
    let i ← notNull inInode
    let j ← notNull outInode
    call (assert (i ≠ j))
    let s ← get
    if s.inodeType i ≠ .file ∨ s.inodeType j ≠ .file then do
      call do
        dropLookup i
        dropLookup j
      pure [.err EINVAL]
    else do
      copyLoop i j offIn offOut len fuel false
      call do
        dropLookup i
        dropLookup j
      pure [.write 0]

end Exits

/-! ## Rounds of the loop -/

open Exits

variable {fuel i j len offIn offOut : Nat} {s s' : Volume} {ex : Bool}

theorem copySize_eq (len : Nat) : copySize len = if len % 2 ^ 32 < 2 ^ 31 then (len % 2 ^ 32 : Int)
    else (len % 2 ^ 32 : Int) - 2 ^ 32 := by
  rw [copySize, BitVec.toInt_eq_toNat_cond, BitVec.toNat_ofNat]
  split <;> split <;> omega

/-- There is nothing to copy from an inode. -/
def NothingToCopy (s : Volume) (i offIn len : Nat) : Prop :=
  len % 2 ^ 32 = 0 ∨ len % 2 ^ 32 < 2 ^ 31 ∧ (s.inode i).size ≤ offIn

theorem copyOut_inode {n : Nat} {w : Unit} (hne : i ≠ j)
    (h : copyOut i j offIn offOut n s = some (w, s')) : s'.inode i = s.inode i := by
  have hgrow : ∀ {t t' : Volume} {w : Unit} {m : Nat},
      adjustStorage j m t = some (w, t') → t'.inode i = t.inode i := by
    intro t t' w m h
    rw [adjustStorage] at h
    split at h <;> cases h
    simp [setInode, update_of_ne hne]
  have hcopy : ∀ {t t' : Volume} {w : Unit},
      copyBytes i j offIn offOut n t = some (w, t') → t'.inode i = t.inode i := by
    intro t t' w h
    rw [copyBytes] at h
    split at h
    · cases h
    · split at h <;> cases h
      simp [setInode, update_of_ne hne]
  obtain ⟨_, s1, hg, h⟩ := bind_inv h
  obtain ⟨-, h⟩ := assert_bind_inv (get_bind_inv h)
  rw [hcopy h]
  have hg := get_bind_inv hg
  split at hg
  · exact hgrow hg
  · rw [(pure_inv hg).2]

/-- A round of the outer loop either finds nothing to copy and changes
nothing, or has to be followed by another one. -/
theorem copyInner_cases {ex' : Bool} {size : Int}
    (hne : i ≠ j) (h : copyInner i j offIn offOut len ex s = some ((size, ex'), s')) :
    NothingToCopy s i offIn len ∧ size = 0 ∧ s' = s ∨ ¬ NothingToCopy s i offIn len ∧ size ≠ 0 ∧
        (s'.inode i).size = (s.inode i).size := by
  rw [NothingToCopy]
  have hsize := copySize_eq len
  rw [copyInner] at h
  split at h
  · next hle =>
    obtain ⟨heq, rfl⟩ := pure_inv h
    cases heq
    by_cases hz : len % 2 ^ 32 = 0
    · exact .inl ⟨.inl hz, by split at hsize <;> omega, rfl⟩
    · refine .inr ⟨?_, ?_, rfl⟩ <;> split at hsize <;> omega
  next hpos =>
  have h := get_bind_inv h
  split at h
  · next hend =>
    obtain ⟨heq, rfl⟩ := pure_inv h
    cases heq
    split at hsize
    · exact .inl ⟨.inr ⟨by assumption, hend⟩, rfl, rfl⟩
    · omega
  next hend =>
  obtain ⟨-, h⟩ := assert_bind_inv h
  have hcopied : size = copySize len ∧ (s'.inode i).size = (s.inode i).size := by
    split at h
    · obtain ⟨_, s1, hlock, h⟩ := bind_inv h
      obtain ⟨_, s2, hout, h⟩ := bind_inv h
      obtain ⟨heq, rfl⟩ := pure_inv h
      cases heq
      obtain ⟨-, -, -, rfl⟩ := lockTwoInodes_inv hlock
      rw [copyOut_inode hne hout]
      refine ⟨rfl, ?_⟩
      simp [tick, setInode, update_of_ne hne, Inode.size]
    · obtain ⟨_, s2, hout, h⟩ := bind_inv h
      obtain ⟨heq, rfl⟩ := pure_inv h
      cases heq
      rw [copyOut_inode hne hout]
      exact ⟨rfl, rfl⟩
  obtain ⟨rfl, hs⟩ := hcopied
  refine .inr ⟨?_, by omega, hs⟩
  split at hsize <;> omega

theorem copyLoop_ends (hn : NothingToCopy s i offIn len) :
    copyLoop i j offIn offOut len (fuel + 1) ex s = .ok ((), s) := by
  have hsize := copySize_eq len
  have hinner : copyInner i j offIn offOut len ex s = some ((0, ex), s) := by
    rw [copyInner]
    split
    · next hle =>
      have hz : copySize len = 0 := by
        rcases hn with hn | hn <;> split at hsize <;> omega
      rw [hz]
      rfl
    · next hpos =>
      rcases hn with hn | hn
      · split at hsize <;> omega
      change (if (s.inode i).size ≤ offIn then _ else _ : M (Int × Bool)) s = _
      rw [if_pos hn.2]
      rfl
  rw [copyLoop, bind_ok (ofProg_ok hinner)]
  rfl

theorem copyLoop_endless (hne : i ≠ j) : ∀ {s : Volume} {ex : Bool}, ¬ NothingToCopy s i offIn len →
      ∀ r, copyLoop i j offIn offOut len fuel ex s ≠ .ok r := by
  induction fuel with
  | zero =>
    intro s ex _ r h
    cases h
  | succ fuel ih =>
    intro s ex hn r h
    rw [copyLoop, bind_apply] at h
    cases hinner : copyInner i j offIn offOut len ex s with
    | none =>
      simp only [call, ofProg, hinner] at h
      cases h
    | some x =>
      obtain ⟨⟨size, ex'⟩, s1⟩ := x
      simp only [call, ofProg, hinner] at h
      obtain ⟨hc, -⟩ | ⟨-, hz, hs⟩ := copyInner_cases hne hinner
      · exact hn hc
      rw [if_neg hz] at h
      refine ih ?_ r h
      rwa [NothingToCopy, hs]

/-- With enough rounds the handler returns what the one without the loop does. -/
theorem copyFileRange_ok_iff {inoIn inoOut : Nat} {r : List Reply × Volume} :
    (∃ fuel, Exits.bitbucketCopyFileRange fuel inoIn offIn inoOut offOut len s = .ok r) ↔
      Bitbucket.bitbucketCopyFileRange inoIn offIn inoOut len s = some r := by
  have hstep : ∀ {α : Type} {x : M α} {f : Nat → α → H (List Reply)} {g : α → M (List Reply)}
      {t : Volume}, (∀ a t', x t = some (a, t') →
        ((∃ fuel, f fuel a t' = .ok r) ↔ g a t' = some r)) →
      ((∃ fuel, (call x >>= f fuel) t = .ok r) ↔ (x >>= g) t = some r) := by
    intro α x f g t h
    cases hx : x t with
    | none => simp [bind_none hx, bind_apply, ofProg, hx]
    | some p =>
      simp only [bind_ok (ofProg_ok hx), bind_some hx]
      exact h p.1 p.2 hx
  have hpure : ∀ {rs : List Reply} {t : Volume},
      (∃ _ : Nat, (pure rs : H (List Reply)) t = .ok r) ↔ (pure rs : M (List Reply)) t = some r :=
    (exists_const Nat).trans ⟨fun h => congrArg some (Except.ok.inj h),
      fun h => congrArg Except.ok (Option.some.inj h)⟩
  by_cases hroot : inoIn = fuseRootId ∨ inoOut = fuseRootId
  · simp only [Exits.bitbucketCopyFileRange, Bitbucket.bitbucketCopyFileRange, if_pos hroot]
    exact hpure
  simp only [Exits.bitbucketCopyFileRange, Bitbucket.bitbucketCopyFileRange, if_neg hroot]
  refine hstep fun o s1 _ => hstep fun o' s2 _ => ?_
  rcases o with _ | i
  · simp [notNull, stop, bind_apply, bind_none (assert_neg id _)]
  simp only [notNull, pure_bind]
  rcases o' with _ | j
  · simp [stop, bind_apply, bind_none (assert_neg id _)]
  simp only [pure_bind]
  refine hstep fun _ s3 ha => ?_
  obtain ⟨hne, rfl⟩ := assert_inv ha
  have hend : ∀ reply, (∃ _ : Nat, (call (do dropLookup i; dropLookup j) >>= fun _ =>
        (pure [reply] : H (List Reply))) s2 = .ok r) ↔
      (do dropLookup i; dropLookup j; pure [reply] : M (List Reply)) s2 = some r := by
    intro reply
    rw [← bind_assoc]
    exact hstep fun _ _ _ => hpure
  simp only [Stopping.get_bind, Prog.get_bind]
  by_cases hfile : s2.inodeType i ≠ .file ∨ s2.inodeType j ≠ .file
  · simp only [if_pos hfile]
    exact hend _
  simp only [if_neg hfile]
  by_cases hn : NothingToCopy s2 i offIn len
  · rw [bind_some (assert_pos (by rwa [NothingToCopy] at hn) _), ← hend]
    constructor
    · rintro ⟨_ | fuel, h⟩
      · cases h
      · rw [bind_ok (copyLoop_ends hn)] at h
        exact ⟨fuel, h⟩
    · rintro ⟨-, h⟩
      exact ⟨1, (bind_ok (copyLoop_ends hn)).trans h⟩
  · rw [bind_none (assert_neg (by rwa [NothingToCopy] at hn) _)]
    refine iff_of_false ?_ (by simp)
    rintro ⟨fuel, h⟩
    rw [bind_apply] at h
    cases hloop : copyLoop i j offIn offOut len fuel false s2 with
    | error e =>
      rw [hloop] at h
      cases h
    | ok r => exact copyLoop_endless hne hn r hloop

end Finesse.Bitbucket
