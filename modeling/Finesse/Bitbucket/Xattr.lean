import Finesse.Bitbucket.Returns
import Finesse.Bitbucket.XattrStore

/-!
# Extended attributes

`bitbucket_internal_setxattr`, `bitbucket_internal_getxattr` and
`bitbucket_internal_removexattr` are to answer as a map from names to values
does. They do not: the store reports an attribute that is not there as
`ENODATA`, where the handlers look for `ENOENT`, so none is ever put into it.
-/

namespace Finesse.Bitbucket

open Prog Function Volume Machine

/-! ## The handlers -/

/-- A volume with the attributes of its inodes. -/
structure Attributed where
  volume : Volume
  xattrs : Nat → Xattrs

namespace Attributed

def onVolume {α : Type} (x : M α) : Prog Attributed α := fun a =>
  (x a.volume).map fun r => (r.1, { a with volume := r.2 })

def onXattrs {α : Type} (i : Nat) (x : Prog Xattrs α) : Prog Attributed α :=
  fun a => (x (a.xattrs i)).map fun r =>
    (r.1, { a with xattrs := update a.xattrs i r.2 })

end Attributed

def xattrCreate : Nat := 1
def xattrReplace : Nat := 2

def ERANGE : Int := 34

/-- The part of `bitbucket_internal_setxattr` for an inode that is found and
locked, which is shared. -/
def setExtendedAttribute (name value : List UInt8) (flags : Nat) : Prog Xattrs Int := do
  let (status, _) ← bitbucketLookupExtendedAttribute name
  if status = 0 then
    if flags &&& xattrCreate ≠ 0 then pure EEXIST
    else do
      let status ← bitbucketRemoveExtendedAttribute name
      assert (status = 0)
      bitbucketInsertExtendedAttribute false true name value
  else if status = ENOENT then
    if flags &&& xattrReplace ≠ 0 then pure ENODATA
    else bitbucketInsertExtendedAttribute false true name value
  else pure status

/-- The part of `bitbucket_internal_getxattr` for an inode that is found. The
length that is replied is the size of the buffer, and if the buffer is too
small nothing is replied. -/
def getExtendedAttribute (name : List UInt8) (size : Nat) : Prog Xattrs (List Reply) := do
  let (status, data) ← bitbucketLookupExtendedAttribute name
  if status ≠ 0 then pure [.err status]
  else if size = 0 then pure [.xattr size]
  else if size < data.length then pure []
  else pure [.buf data]

/-- The part of `bitbucket_internal_removexattr` for an inode that is found. -/
def removeExtendedAttribute (name : List UInt8) : Prog Xattrs Int := do
  let (status, _) ← bitbucketLookupExtendedAttribute name
  if status = ENOENT then pure ENODATA
  else bitbucketRemoveExtendedAttribute name

inductive XattrRequest where
  | set (name value : List UInt8) (flags : Nat)
  | get (name : List UInt8) (size : Nat)
  | remove (name : List UInt8)
deriving DecidableEq, Repr

namespace XattrRequest

/-- What is done to the attributes, and the replies. -/
def act : XattrRequest → Prog Xattrs (List Reply)
  | .set name value flags => do
    let status ← setExtendedAttribute name value flags
    pure [.err status]
  | .get name size => getExtendedAttribute name size
  | .remove name => do
    let status ← removeExtendedAttribute name
    pure [.err status]

/-- The replies if the inode is not found. -/
def missing : XattrRequest → List Reply
  | .get _ _ => []
  | .set _ _ _ | .remove _ => [.err EBADF]

/-- `bitbucket_internal_setxattr`, `bitbucket_internal_getxattr` and
`bitbucket_internal_removexattr`, which differ in what they do to the
attributes. -/
def handle (u : Userdata) (ino : Nat) (r : XattrRequest) : Prog Attributed (List Reply) :=
  if u.noXattr then pure [.err ENOSYS]
  else do
    let i ← Attributed.onVolume (lookupInode ino)
    match i with
    | none => pure r.missing
    | some i => do
      let rs ← Attributed.onXattrs i r.act
      Attributed.onVolume (dropLookup i)
      pure rs

end XattrRequest

/-- One request on the inode with the number `ino`. -/
def Attributed.step (u : Userdata) (ino : Nat) (a : Attributed)
    (r : XattrRequest) : Option (List Reply × Attributed) :=
  r.handle u ino a

/-! ## What the handlers are for -/

/-- A map from names to byte strings. -/
abbrev AttributeMap := List UInt8 → Option (List UInt8)

/-- One request to the map, with the reply. -/
def AttributeMap.step (m : AttributeMap) : XattrRequest → Option (List Reply × AttributeMap)
  | .set name value flags =>
    if m name ≠ none ∧ flags &&& xattrCreate ≠ 0 then some ([.err EEXIST], m)
    else if m name = none ∧ flags &&& xattrReplace ≠ 0 then
      some ([.err ENODATA], m)
    else some ([.err 0], update m name (some value))
  | .get name size =>
    match m name with
    | none => some ([.err ENODATA], m)
    | some value =>
      if size = 0 then some ([.xattr value.length], m)
      else if size < value.length then some ([.err ERANGE], m)
      else some ([.buf value], m)
  | .remove name =>
    match m name with
    | none => some ([.err ENODATA], m)
    | some _ => some ([.err 0], update m name none)

/-- Nothing is stored. -/
def XattrRequest.OnlyReads : XattrRequest → Prop
  | .get _ _ => True
  | .set _ _ flags => flags &&& xattrReplace ≠ 0
  | .remove _ => False

instance (r : XattrRequest) : Decidable r.OnlyReads := by
  cases r with
  | set name value flags =>
    exact inferInstanceAs (Decidable (flags &&& xattrReplace ≠ 0))
  | get => exact isTrue trivial
  | remove => exact isFalse id

/-- The number is that of the inode `i`, and references to it can be
counted. -/
structure Volume.Serves (s : Volume) (ino i : Nat) : Prop where
  number : ino ≠ 0
  found : s.resolve ino = some i
  live : s.live i = true
  count : 0 < s.referenceCount i
  reasons : s.referenceReasons i .lookup ≤ s.referenceCount i

/-- So it is for every inode of a volume whose counts are right. -/
theorem Held.serves {m o : Account} {s : Volume} {ino i : Nat} (h : Held m (m + o) s)
    (hino : ino ≠ 0) (hi : s.resolve ino = some i) : s.Serves ino i := by
  have hlive := h.live_of_resolve hi
  refine ⟨hino, hi, hlive, h.counts.kept i hlive, ?_⟩
  rw [h.counts.reasons i _ hlive, h.counts.total i hlive]
  exact Ledger.le_total _ _ i

section Handlers

variable {s : Volume} {ino i : Nat} {u : Userdata}

namespace Volume.Serves

variable (h : s.Serves ino i)
include h

theorem lookupInode : lookupInode ino s = some (some i, s.addReferences i .lookup 1) :=
  lookupInode_eq h.number (reference_eq h.live (Nat.ne_of_gt h.count) h.reasons) h.found

theorem dropLookup : dropLookup i (s.addReferences i .lookup 1) = some ((), s) := by
  have hback : (s.addReferences i .lookup 1).dropReferences i .lookup 1 = s := by
    simp [addReferences, dropReferences]
  refine (dereference_eq (s := s.addReferences i .lookup 1) h.live ?_ ?_).trans (by rw [hback])
  · simpa [addReferences] using h.count
  · simp [addReferences]

theorem step (hu : u.noXattr = false) (xs : Nat → Xattrs)
    (r : XattrRequest) : Attributed.step u ino ⟨s, xs⟩ r = (r.act (xs i)).map fun out =>
        (out.1, ⟨s, update xs i out.2⟩) := by
  have hlookup : Attributed.onVolume (Bitbucket.lookupInode ino) ⟨s, xs⟩ =
      some (some i, ⟨s.addReferences i .lookup 1, xs⟩) := by
    rw [Attributed.onVolume, h.lookupInode]
    rfl
  rw [Attributed.step, XattrRequest.handle, if_neg (by simp [hu]), bind_some hlookup]
  dsimp only
  cases hact : r.act (xs i) with
  | none =>
    refine bind_none ?_
    rw [Attributed.onXattrs]
    dsimp only
    rw [hact]
    rfl
  | some out =>
    have hon : Attributed.onXattrs i r.act ⟨s.addReferences i .lookup 1, xs⟩ =
        some (out.1, ⟨s.addReferences i .lookup 1, update xs i out.2⟩) := by
      rw [Attributed.onXattrs]
      dsimp only
      rw [hact]
      rfl
    have hdrop : Attributed.onVolume (Bitbucket.dropLookup i)
        ⟨s.addReferences i .lookup 1, update xs i out.2⟩ =
        some ((), ⟨s, update xs i out.2⟩) := by
      rw [Attributed.onVolume, h.dropLookup]
      rfl
    rw [bind_some hon, bind_some hdrop]
    rfl

end Volume.Serves

end Handlers

/-! ## Sequences of requests -/

/-- The reply to a request while nothing is stored. -/
def XattrRequest.answer : XattrRequest → Reply
  | .set _ _ _ | .get _ _ => .err ENODATA
  | .remove _ => .err ENOENT

section Sequences

variable {s : Volume} {ino i : Nat} {u : Userdata} (r : XattrRequest)

theorem XattrRequest.act_initial : r.act .initial = some ([r.answer], .initial) := by
  cases r <;> rfl

theorem Volume.Serves.step_initial (h : s.Serves ino i) (hu : u.noXattr = false)
    (r : XattrRequest) : Attributed.step u ino ⟨s, fun _ => .initial⟩ r =
      some ([r.answer], ⟨s, fun _ => .initial⟩) := by
  rw [h.step hu, r.act_initial, Option.map_some, update_eq_self]

theorem Volume.Serves.run_initial (h : s.Serves ino i) (hu : u.noXattr = false)
    (rs : List XattrRequest) : run (Attributed.step u ino) ⟨s, fun _ => .initial⟩ rs =
      some (rs.map XattrRequest.answer, ⟨s, fun _ => .initial⟩) := by
  induction rs with
  | nil => rfl
  | cons r rs ih =>
    rw [run, h.step_initial hu r]
    dsimp only
    rw [ih]
    rfl

/-- The map gives the same reply if nothing is to be stored, and then nothing
is. -/
theorem AttributeMap.step_onlyReads {r : XattrRequest} (h : r.OnlyReads) :
    AttributeMap.step (fun _ => none) r = some ([r.answer], fun _ => none) := by
  cases r with
  | set name value flags =>
    have hr : flags &&& xattrReplace ≠ 0 := h
    simp [AttributeMap.step, XattrRequest.answer, hr]
  | get => rfl
  | remove => cases h

theorem AttributeMap.step_stores {r : XattrRequest} (h : ¬ r.OnlyReads) :
    ∃ e m, AttributeMap.step (fun _ => none) r = some ([e], m) ∧ e ≠ r.answer := by
  cases r with
  | set name value flags =>
    have hr : flags &&& xattrReplace = 0 := not_not.mp h
    refine ⟨.err 0, update (fun _ => none) name (some value), ?_,
      show Reply.err 0 ≠ .err ENODATA by decide⟩
    simp [AttributeMap.step, hr]
  | get => exact absurd trivial h
  | remove name =>
    exact ⟨.err ENODATA, fun _ => none, rfl, show Reply.err ENODATA ≠ .err ENOENT by decide⟩

theorem AttributeMap.run_iff (rs : List XattrRequest) :
    (run AttributeMap.step (fun _ => none) rs).map Prod.fst =
      some (rs.map XattrRequest.answer) ↔ ∀ r ∈ rs, r.OnlyReads := by
  induction rs with
  | nil => simp
  | cons r rs ih =>
    rw [run, List.forall_mem_cons]
    by_cases hr : r.OnlyReads
    · rw [AttributeMap.step_onlyReads hr, ← ih]
      dsimp only
      cases run AttributeMap.step (fun _ => none) rs with
      | none => simp
      | some p => simp [hr]
    -- the first reply differs already
    obtain ⟨e, m, hstep, hne⟩ := AttributeMap.step_stores hr
    rw [hstep]
    dsimp only
    refine iff_of_false (fun heq => ?_) fun hall => hr hall.1
    cases hrun : run AttributeMap.step m rs with
    | none =>
      rw [hrun] at heq
      cases heq
    | some p =>
      rw [hrun] at heq
      simp only [Option.map_some, List.cons_append, List.nil_append,
        List.map_cons, Option.some.injEq, List.cons.injEq] at heq
      exact hne heq.1

/-- With extended attributes enabled, for an inode without any, the replies to
a sequence of requests are those of a map exactly if the sequence stores and
removes nothing. -/
theorem xattr_replies_iff (h : s.Serves ino i) (hu : u.noXattr = false) (rs : List XattrRequest) :
    (run (Attributed.step u ino) ⟨s, fun _ => .initial⟩ rs).map Prod.fst =
        (run AttributeMap.step (fun _ => none) rs).map Prod.fst ↔
      ∀ r ∈ rs, r.OnlyReads := by
  rw [h.run_initial hu, Option.map_some, eq_comm, AttributeMap.run_iff]

end Sequences

/-- An attribute that is not there is read and replaced. -/
theorem xattr_replies_iff_replace : ∃ s, mountRoot ⟨5, 0⟩ .empty = some ((), s) ∧ s.Serves 1 0 ∧
    (run (Attributed.step .plain 1)
      ⟨s, fun _ => .initial⟩ [.set [97] [1] xattrReplace, .get [97] 10]).map
        Prod.fst = some [.err ENODATA, .err ENODATA] := by
  have hrun : (mountRoot ⟨5, 0⟩ .empty).map (fun p => (p.2.resolve 1, p.2.live 0,
      decide (0 < p.2.referenceCount 0 ∧ p.2.referenceReasons 0 .lookup ≤ p.2.referenceCount 0))) =
      some (some 0, true, true) := by
    decide +kernel
  obtain ⟨⟨_, s⟩, hs, hend⟩ := Option.map_eq_some_iff.mp hrun
  simp only [Prod.mk.injEq, decide_eq_true_eq] at hend
  obtain ⟨hfound, hlive, hcount, hreasons⟩ := hend
  have hserves : s.Serves 1 0 := ⟨by decide, hfound, hlive, hcount, hreasons⟩
  refine ⟨s, hs, hserves, ?_⟩
  rw [(xattr_replies_iff hserves rfl _).mpr (by decide)]
  rfl

/-- An attribute is set, read and removed. It is never there, and the reply to
the removal is not the one for that. -/
theorem xattr_not_stored : ∃ s a, mountRoot ⟨5, 0⟩ .empty = some ((), s) ∧
    run (Attributed.step .plain 1)
      ⟨s, fun _ => .initial⟩ [.set [97] [1] 0, .get [97] 10, .remove [97]] =
      some ([.err ENODATA, .err ENODATA, .err ENOENT], a) ∧
    (run AttributeMap.step (fun _ => none)
      [.set [97] [1] 0, .get [97] 10, .remove [97]]).map Prod.fst =
      some [.err 0, .buf [1], .err 0] := by
  have hrun : ((mountRoot ⟨5, 0⟩ .empty).bind fun p =>
      (run (Attributed.step .plain 1) ⟨p.2, fun _ => .initial⟩
        [.set [97] [1] 0, .get [97] 10, .remove [97]]).map Prod.fst) =
      some [.err ENODATA, .err ENODATA, .err ENOENT] := by
    decide +kernel
  obtain ⟨⟨_, s⟩, hs, hrun⟩ := Option.bind_eq_some_iff.mp hrun
  obtain ⟨⟨tr, a⟩, hr, rfl⟩ := Option.map_eq_some_iff.mp hrun
  exact ⟨s, a, hs, hr, by decide +kernel⟩

end Finesse.Bitbucket
