import Finesse.Bitbucket.References
import Finesse.Bitbucket.Requests

/-!
# The calls of handlers

Handlers look inodes up, take and drop references, and give some to the
kernel; in between they work on directories and files. `Calls P` says of a
property `P g s`, where `g` are the references in the hands of a handler and
`s` is the volume, that it goes along with these calls. Every handler is gone
through here once, for any such property. What is left to show for one of them
is what the functions of directories do to `P` that the handler calls.
-/

namespace Finesse.Bitbucket

open Prog Ledger

/-! ## What the kernel holds -/

namespace Kernel

/-- The references that stand for what the kernel was given. -/
def owes (k : Kernel) (i : Nat) : Account :=
  owe .fuseLookup i k.lookups + owe .fuseOpen i k.opens + owe .fuseOpendir i k.opendirs

variable (k : Kernel) (i n : Nat)

theorem owes_lookups : { k with lookups := k.lookups + n }.owes i =
    k.owes i + owe .fuseLookup i n := by
  simp only [owes, owe_add]
  abel

theorem owes_opens : { k with opens := k.opens + n }.owes i = k.owes i + owe .fuseOpen i n := by
  simp only [owes, owe_add]
  abel

theorem owes_opendirs : { k with opendirs := k.opendirs + n }.owes i =
    k.owes i + owe .fuseOpendir i n := by
  simp only [owes, owe_add]
  abel

theorem owes_fuseLookup : k.owes i .fuseLookup i = k.lookups := by
  simp [owes, add_apply, owe]

theorem owes_fuseOpen : k.owes i .fuseOpen i = k.opens := by
  simp [owes, add_apply, owe]

theorem owes_fuseOpendir : k.owes i .fuseOpendir i = k.opendirs := by
  simp [owes, add_apply, owe]

theorem owes_lookups_sub : { k with lookups := k.lookups - n }.owes i +
    owe .fuseLookup i (min n k.lookups) = k.owes i := by
  rw [← owes_lookups]
  congr 2
  dsimp only
  omega

theorem owes_opens_sub : { k with opens := k.opens - n }.owes i +
    owe .fuseOpen i (min n k.opens) = k.owes i := by
  rw [← owes_opens]
  congr 2
  dsimp only
  omega

theorem owes_opendirs_sub : { k with opendirs := k.opendirs - n }.owes i +
    owe .fuseOpendir i (min n k.opendirs) = k.owes i := by
  rw [← owes_opendirs]
  congr 2
  dsimp only
  omega

end Kernel

theorem Volume.claimed_setKernel (s : Volume) (i : Nat) (f : Kernel → Kernel) :
    (s.setKernel i f).claimed + (s.kernel i).owes i = s.claimed + (f (s.kernel i)).owes i := by
  funext r x
  cases r with
  | fuseLookup | fuseOpen | fuseOpendir =>
    by_cases hx : x = i
    · subst hx
      simp [add_apply, Kernel.owes, claimed, setKernel, owe, Nat.add_comm]
    · simp [add_apply, Kernel.owes, claimed, setKernel, owe, hx]
  | _ => rfl

/-! ## References in hand -/

/-- What a lookup has found is in hand. -/
def found (g : Account) : Option Nat → Account
  | none => g
  | some i => g + owe .lookup i 1

theorem found_add (g e : Account) (o : Option Nat) : found (g + e) o = found g o + e := by
  cases o with
  | none => rfl
  | some i => exact add_right_comm _ _ _

theorem found_comm (g : Account) (o o' : Option Nat) :
    found (found g o) o' = found (found g o') o := by
  cases o with
  | none => rfl
  | some i => exact found_add g _ o'

variable {new : NewInode} {u : Userdata} {d mode : Nat} {a : Account}

theorem lookup_pos (hd : 0 < a .lookup d) (c : Account) : 0 < (a + c : Account) .lookup d := by
  rw [add_apply]
  omega

theorem lookup_owe_pos (a : Account) (i : Nat) : 0 < (a + owe .lookup i 1 : Account) .lookup i := by
  rw [add_apply, owe_self]
  omega

theorem found_pos (hd : 0 < a .lookup d) (o : Option Nat) : 0 < found a o .lookup d := by
  cases o with
  | none => exact hd
  | some i => exact lookup_pos hd _

/-- The volume with other counts of references. -/
def Volume.recount (s : Volume) (c : Nat → Nat) (r : Nat → Reason → Nat) : Volume :=
  { s with referenceCount := c, referenceReasons := r }

/-- A rename that gets as far as changing a name. -/
def Volume.RenameActs (s : Volume) (p q i : Nat) (name newname : Name) (flags : Nat) : Prop :=
  Proper name ∧ Proper newname ∧ s.inodeType p = .dir ∧ s.inodeType q = .dir ∧
    i ≠ s.root ∧ ∀ j ∈ s.child q newname, j ≠ s.root ∧
      flags &&& renameNoreplace = 0 ∧ (flags &&& renameExchange = 0 →
        ¬ (s.inodeType j = .dir ∧ 1 < (s.entries j).length))

/-- It changes the name of `i` in `p`. -/
structure Volume.Renames (s : Volume) (parent : Nat) (name : Name)
    (newparent : Nat) (newname : Name) (flags p q i : Nat) : Prop where
  parent : s.resolve parent = some p
  newparent : s.resolve newparent = some q
  child : s.child p name = some i
  acts : s.RenameActs p q i name newname flags

structure Calls (P : Account → Volume → Prop) : Prop where
  add : ∀ {g s i r}, P g s → s.live i = true → P (g + owe r i 1) (s.addReferences i r 1)
  dereference : ∀ {g s i r b s'}, P (g + owe r i b) s →
    bitbucketDereferenceInode i r b s = some ((), s') → P g s'
  setKernel : ∀ {g e s i f}, (∀ k, (f k).owes i = k.owes i + e) →
    P (g + e) s → P g (s.setKernel i f)

namespace Calls

variable {β : Type} {P : Account → Volume → Prop} {Q : β → Volume → Prop}
  {g : Account} {s : Volume} {i p ino parent : Nat} {name newname : Name}

theorem createByMode {Q : Option Nat → Volume → Prop}
    (hdir : Ends (bitbucketCreateDirectory p name new) s fun i => Q (some i))
    (hfile : Ends (bitbucketCreateFile p name new u.storageDir) s fun i => Q (some i))
    (hnone : Q none s) : Ends (createByMode u p name mode new) s Q := by
  refine .ite (fun _ => hdir.bind fun i s' h => .pure h) fun _ => ?_
  refine .ite (fun _ => hfile.bind fun i s' h => .pure h) fun _ => ?_
  exact .ite (fun _ => .assert_bind False.elim) fun _ => .pure hnone

theorem delete_status {status : Int} {s' : Volume} (hc : s.child d name = some i)
    (hx : bitbucketDeleteDirectoryEntry d name s = some (status, s')) : status = 0 := by
  obtain ⟨-, ⟨hnone, -⟩ | ⟨-, -, h0, -⟩⟩ := names_deleteDirectoryEntry hx
  · exact nomatch hc.symm.trans hnone
  · exact h0

variable (hP : Calls P)
include hP

theorem inode (n : Nat → Inode) : Calls fun g s => P g s ∧ s.inode = n where
  add h hl := ⟨hP.add h.1 hl, h.2⟩
  dereference h hx := ⟨hP.dereference h.1 hx, (dereference_inode hx).trans h.2⟩
  setKernel hf h := ⟨hP.setKernel hf h.1, h.2⟩

theorem drop {g' : Account} {k : Unit → M β} (h : P g' s) (hg : g' = g + owe .lookup i 1)
    (hk : ∀ s', P g s' → Ends (k ()) s' Q) : Ends (dropLookup i >>= k) s Q :=
  Ends.bind (R := fun _ s' => P g s') (fun _ _ hx => hP.dereference (hg ▸ h) hx) fun _ => hk

theorem drop? {g' : Account} {k : Unit → M β} {o : Option Nat} (h : P g' s) (hg : g' = found g o)
    (hk : ∀ s', P g s' → Ends (k ()) s' Q) : Ends (dropLookup? o >>= k) s Q := by
  subst hg
  cases o with
  | none => exact hk s h
  | some i => exact hP.drop h rfl hk

theorem drop_pure {b : β} (h : P (g + owe .lookup i 1) s) :
    Ends (dropLookup i >>= fun _ => pure b) s fun _ s' => P g s' :=
  hP.drop h rfl fun _ h => .pure h

theorem drop_two {b : β} {j : Nat} (h : P (g + owe .lookup i 1 + owe .lookup j 1) s) :
    Ends (dropLookup i >>= fun _ => dropLookup j >>= fun _ => pure b) s fun _ s' => P g s' :=
  hP.drop h (add_right_comm _ _ _) fun _ h => hP.drop_pure h

variable (h : P g s)
include h

theorem reference {r : Reason} {k : Unit → M β}
    (hk : ∀ s', P (g + owe r i 1) s' → Ends (k ()) s' Q) :
    Ends (bitbucketReferenceInode i r >>= k) s Q := by
  refine Ends.bind (R := fun _ s' => P (g + owe r i 1) s') ?_ fun _ => hk
  intro _ s' hx
  obtain ⟨hlive, -, -, rfl⟩ := reference_inv hx
  exact hP.add h hlive

variable {k : Option Nat → M β}

theorem looked {x : M (Option Nat)} {o' : Option Nat}
    (hx : Ends x s fun o s' => o = o' ∧ s.Looked s' o)
    (hnone : o' = none → Ends (k none) s Q)
    (hsome : ∀ i c r, o' = some i → P (g + owe .lookup i 1) (s.recount c r) →
      Ends (k (some i)) (s.recount c r) Q) : Ends (x >>= k) s Q := by
  refine hx.bind ?_
  rintro (_ | i) s' ⟨rfl, hl⟩
  · obtain rfl : s = s' := hl
    exact hnone rfl
  · obtain ⟨hlive, rfl⟩ := hl
    exact hsome i _ _ rfl (hP.add h hlive)

theorem lookupInode (hnone : Ends (k none) s Q)
    (hsome : ∀ i c r, s.resolve ino = some i → P (g + owe .lookup i 1) (s.recount c r) →
      Ends (k (some i)) (s.recount c r) Q) :
    Ends (lookupInode ino >>= k) s Q :=
  hP.looked h (fun _ _ => lookupInode_inv) (fun _ => hnone) hsome

theorem lookupInodeInTable (hnone : Ends (k none) s Q)
    (hsome : ∀ i c r, s.table ino = some i → P (g + owe .lookup i 1) (s.recount c r) →
      Ends (k (some i)) (s.recount c r) Q) :
    Ends (bitbucketLookupInodeInTable ino >>= k) s Q :=
  hP.looked h (fun _ _ => lookupInTable_inv) (fun _ => hnone) hsome

theorem lookupObject (hnone : s.child p name = none → Ends (k none) s Q)
    (hsome : ∀ i c r, s.child p name = some i → P (g + owe .lookup i 1) (s.recount c r) →
      Ends (k (some i)) (s.recount c r) Q) :
    Ends (bitbucketLookupObjectInDirectory p name >>= k) s Q :=
  hP.looked h (fun _ _ hx => (lookupObject_inv hx).2) hnone hsome

theorem giveEntry {k : Reply → M β} (hk : ∀ r s', P g s' → Ends (k r) s' Q) :
    Ends (bitbucketReferenceInode i .fuseLookup >>= fun _ => replyEntry i >>= k)
      s Q :=
  hP.reference h fun _ h =>
    hk _ _ (hP.setKernel (fun k => k.owes_lookups i 1) h)

/-! ## Requests on names -/

theorem bitbucketLookup : Ends (bitbucketLookup parent name) s fun _ s' => P g s' := by
  refine hP.lookupInode h (.pure h) fun p c r _ h => ?_
  refine hP.lookupObject h (fun _ => hP.drop_pure h) fun i c r _ h => ?_
  exact hP.giveEntry h fun _ _ h => hP.drop_two h

theorem bitbucketMkdir
    (hcreate : ∀ p c r, s.resolve parent = some p → P (g + owe .lookup p 1) (s.recount c r) →
      Ends (bitbucketCreateDirectory p name new) (s.recount c r) fun i s' =>
        P (g + owe .lookup p 1 + owe .lookup i 1) (s'.setInode i fun n =>
          { n with mode := (n.mode &&& sIFMT) ||| permissions mode })) :
    Ends (bitbucketMkdir parent name mode new) s fun _ s' => P g s' := by
  refine hP.lookupInode h (.pure h) fun p c r hp h => ?_
  refine .get_bind (.ite (fun _ => hP.drop_pure h) fun _ => ?_)
  refine (hcreate p c r hp h).bind fun i s' h => .modify_bind ?_
  exact hP.giveEntry h fun _ _ h => hP.drop_two h

theorem bitbucketCreate
    (hcreate : ∀ p c r, s.resolve parent = some p → P (g + owe .lookup p 1) (s.recount c r) →
      ∀ x ∈ [bitbucketCreateDirectory p name new, bitbucketCreateFile p name new u.storageDir],
      Ends x (s.recount c r) fun i s' =>
        P (g + owe .lookup p 1 + owe .lookup i 1) (s'.setInode i fun n =>
          { n with mode := (mode &&& sIFMT) ||| (mode &&& 0o7777) })) :
    Ends (bitbucketCreate u parent name mode new) s fun _ s' => P g s' := by
  refine hP.lookupInode h (.pure h) fun p c r hp h => ?_
  refine hP.lookupObject h (fun _ => .assert_bind fun _ => ?_) fun i _ _ _ _ => .assert_bind nofun
  have hcreate := hcreate p c r hp h
  have hswitch : Ends (Bitbucket.createByMode u p name mode new) (s.recount c r)
      fun o s' => o.elim (P (g + owe .lookup p 1) s') fun i =>
        P (g + owe .lookup p 1 + owe .lookup i 1) (s'.setInode i fun n =>
          { n with mode := (mode &&& sIFMT) ||| (mode &&& 0o7777) }) :=
    createByMode (hcreate _ (.head _)) (hcreate _ (.tail _ (.head _))) h
  refine hswitch.bind ?_
  rintro (_ | i) s' h
  · exact hP.drop_pure h
  refine .modify_bind (hP.reference h fun _ h => hP.reference h fun _ h => ?_)
  refine hP.drop (g := g + owe .lookup p 1 +
    (owe .fuseLookup i 1 + owe .fuseOpen i 1)) h (by abel) fun s' h => ?_
  refine hP.drop_pure (hP.setKernel (fun k => ?_) h)
  have hk := Kernel.owes_lookups { k with opens := k.opens + 1 } i 1
  rw [Kernel.owes_opens] at hk
  rw [hk, add_assoc, add_comm (owe Reason.fuseOpen i 1)]

theorem bitbucketSymlink {link : Name}
    (hcreate : ∀ p c r, s.table parent = some p → P (g + owe .lookup p 1) (s.recount c r) →
      Ends (bitbucketCreateSymlink p name link new) (s.recount c r) fun i s' =>
        P (g + owe .lookup p 1 + owe .lookup i 1) s') :
    Ends (bitbucketSymlink link parent name new) s fun _ s' => P g s' := by
  refine .assert_bind fun _ => .assert_bind fun _ => ?_
  refine hP.lookupInodeInTable h (.pure h) fun p c r hp h => ?_
  refine (hcreate p c r hp h).bind fun i s' h => ?_
  refine hP.drop h (add_right_comm _ _ _) fun _ h => ?_
  exact hP.giveEntry h fun _ _ h => hP.drop_pure h

theorem bitbucketLink
    (hentry : ∀ i p c r, ino ≠ fuseRootId → s.table ino = some i →
      s.resolve parent = some p → s.inodeType i = .file →
      P (g + owe .lookup i 1 + owe .lookup p 1) (s.recount c r) →
      Ends (linkEntry p i newname) (s.recount c r) fun _ s' =>
        P (g + owe .lookup i 1 + owe .lookup p 1) s') :
    Ends (bitbucketLink ino parent newname) s fun _ s' => P g s' := by
  refine .ite (fun _ => .pure h) fun hino => ?_
  refine hP.lookupInodeInTable h (.pure h) fun i _ _ hi h => ?_
  refine hP.lookupInode h (hP.drop_pure h) fun p c r hp h => ?_
  refine .get_bind (.ite (fun _ => hP.drop_two h) fun ht => ?_)
  refine (hentry i p c r hino hi hp (not_not.mp ht) h).bind fun _ _ h => ?_
  exact hP.giveEntry h fun _ _ h => hP.drop_two h

theorem bitbucketUnlink (hdelete : ∀ p c r, s.resolve parent = some p →
      P (g + owe .lookup p 1) (s.recount c r) →
      Ends (bitbucketDeleteDirectoryEntry p name) (s.recount c r) fun _ s' =>
        P (g + owe .lookup p 1) s') :
    Ends (bitbucketUnlink parent name) s fun _ s' => P g s' := by
  refine hP.lookupInode h (.pure h) fun p c r hp h => ?_
  refine .get_bind (.ite (fun _ => hP.drop_pure h) fun _ => ?_)
  exact (hdelete p c r hp h).bind fun _ _ h => hP.drop_pure h

/-- The early ways out leave the reference on the child behind. -/
theorem bitbucketRmdir
    (hleave : ∀ p i s', s.resolve parent = some p → s.child p name = some i →
      s.inodeType i ≠ .dir ∨ 2 < (s.entries i).length →
      P (g + owe .lookup i 1) s' → P g s')
    (hdelete : ∀ p i c r s1, s.resolve parent = some p →
      s.child p name = some i → s.inodeType i = .dir →
      P (g + owe .lookup p 1 + owe .lookup i 1) (s.recount c r) →
      bitbucketDeleteDirectoryEntry p name (s.recount c r) = some (0, s1) →
      Ends (bitbucketDeleteDirectory i) s1 fun status s' =>
        status = 0 → P (g + owe .lookup p 1 + owe .lookup i 1) s') :
    Ends (bitbucketRmdir parent name) s fun _ s' => P g s' := by
  refine hP.lookupInode h (.pure h) fun p _ _ hp h => ?_
  refine .get_bind (.ite (fun _ => hP.drop_pure h) fun _ => ?_)
  refine hP.lookupObject h (fun _ => hP.drop_pure h) fun i c r hi h => ?_
  have hout : ∀ {b : List Reply}, s.inodeType i ≠ .dir ∨ 2 < (s.entries i).length →
      Ends (dropLookup p >>= fun _ => pure b) (s.recount c r) fun _ s' => P g s' :=
    fun ho => hP.drop h (add_right_comm _ _ _) fun s' h =>
      .pure (hleave p i s' hp hi ho h)
  refine .get_bind (.ite (fun ht => hout (.inl ht)) fun ht => ?_)
  refine .ite (fun hl => hout (.inr hl)) fun _ => ?_
  refine Ends.bind (R := fun status s1 => status = 0 ∧ bitbucketDeleteDirectoryEntry
    p name (s.recount c r) = some (status, s1)) (fun status s1 hx => ?_) ?_
  · exact ⟨delete_status (s := s.recount c r) hi hx, hx⟩
  rintro _ s1 ⟨rfl, hx⟩
  refine .ite (absurd rfl) fun _ => ?_
  refine (hdelete p i c r s1 hp hi (not_not.mp ht) h hx).bind fun status s' h => ?_
  exact .assert_bind fun h0 => hP.drop (h h0) rfl fun _ h => hP.drop_pure h

/-- A file is removed only if its mode does not say that it is a directory. -/
theorem removeFileFromDirectory
    (hdelete : ∀ i c r, s.child p name = some i → (s.inode i).mode &&& sIFDIR ≠ sIFDIR →
      P (g + owe .lookup i 1) (s.recount c r) →
      Ends (bitbucketDeleteDirectoryEntry p name) (s.recount c r) fun _ s' =>
        P (g + owe .lookup i 1) s') :
    Ends (bitbucketRemoveFileFromDirectory p name) s fun _ s' => P g s' := by
  refine hP.lookupObject h (fun _ => .pure h) fun i c r hi h => ?_
  refine .get_bind (.ite (fun _ => hP.drop_pure h) fun hmode => ?_)
  refine .assert_bind fun _ => .assert_bind fun _ => ?_
  exact (hdelete i c r hi hmode h).bind fun _ _ h => hP.drop_pure h

end Calls

/-! ### Rename -/

/-- What comes about from the references `g0` and the volume `s0` by these
calls. -/
inductive Passes (g0 : Account) (s0 : Volume) : Account → Volume → Prop
  | refl : Passes g0 s0 g0 s0
  | add {g s i r} (h : Passes g0 s0 g s) (hl : s.live i = true) :
    Passes g0 s0 (g + owe r i 1) (s.addReferences i r 1)
  | drop {g s i r b s'} (h : Passes g0 s0 (g + owe r i b) s)
    (hx : bitbucketDereferenceInode i r b s = some ((), s')) : Passes g0 s0 g s'
  | give {g e s i f} (hf : ∀ k : Kernel, (f k).owes i = k.owes i + e)
    (h : Passes g0 s0 (g + e) s) : Passes g0 s0 g (s.setKernel i f)

namespace Passes

variable {P : Account → Volume → Prop} {g g' : Account} {s s' : Volume}

theorem calls : Calls (Passes g s) := ⟨add, drop, give⟩

theorem keeps (h : Passes g s g' s') (hP : Calls P) (hs : P g s) : P g' s' := by
  induction h with
  | refl => exact hs
  | add _ hl ih => exact hP.add ih hl
  | drop _ hx ih => exact hP.dereference ih hx
  | give hf _ ih => exact hP.setKernel hf ih

end Passes

/-- The step of a rename that gets as far as changing a name. -/
inductive RenameStep (p q i : Nat) (name newname : Name) (flags : Nat)
    (s : Volume) (status : Int) (s' : Volume) : Prop
  | move (hfree : s.child q newname = none)
    (h : moveEntry p q i name newname s = some (status, s'))
  | exchange {j} (hj : s.child q newname = some j)
    (hex : flags &&& renameExchange ≠ 0)
    (h : bitbucketExchangeObjectsInDirectory p q name newname s = some (status, s'))
  | replace {j s1} (hj : s.child q newname = some j)
    (hex : flags &&& renameExchange = 0)
    (hd : bitbucketDeleteDirectoryEntry q newname s = some (0, s1))
    (h : moveEntry p q i name newname s1 = some (status, s'))

/-- The part of a rename for a new name that exists: it replies an error, or it
acts. -/
theorem replaceEntry_inv {s s' : Volume} {p q i j flags : Nat}
    {name newname : Name} {status : Int} (hj : s.child q newname = some j)
    (h : replaceEntry p q i j name newname flags s = some (status, s')) :
    (status ≠ 0 ∧ s' = s ∧ ¬ (j ≠ s.root ∧ flags &&& renameNoreplace = 0 ∧
        (flags &&& renameExchange = 0 → ¬ (s.inodeType j = .dir ∧ 1 < (s.entries j).length)))) ∨
      (j ≠ s.root ∧ flags &&& renameNoreplace = 0 ∧ (flags &&& renameExchange = 0 →
          ¬ (s.inodeType j = .dir ∧ 1 < (s.entries j).length))) ∧
        RenameStep p q i name newname flags s status s' := by
  have h := get_bind_inv h
  split at h
  · next hroot =>
    obtain ⟨rfl, rfl⟩ := pure_inv h
    exact .inl ⟨by decide, rfl, fun ha => ha.1 hroot⟩
  next hroot =>
  split at h
  · next hno =>
    obtain ⟨rfl, rfl⟩ := pure_inv h
    exact .inl ⟨by decide, rfl, fun ha => hno ha.2.1⟩
  next hno =>
  have hno := not_not.mp hno
  split at h
  · next hex =>
    exact .inr ⟨⟨hroot, hno, (absurd · hex)⟩, .exchange hj hex h⟩
  next hex =>
  have hex := not_not.mp hex
  split at h
  · next hfull =>
    obtain ⟨rfl, rfl⟩ := pure_inv h
    exact .inl ⟨by decide, rfl, fun ha => ha.2.2 hex hfull⟩
  next hempty =>
  obtain ⟨status', s1, hd, h⟩ := bind_inv h
  obtain rfl := Calls.delete_status hj hd
  rw [if_neg (not_not.mpr rfl)] at h
  exact .inr ⟨⟨hroot, hno, fun _ => hempty⟩, .replace hj hex hd h⟩

/-- A rename request that has returned: it sent no reply, or it changed no
name and replied an error, or it acted. -/
inductive RenameEnd (g : Account) (s : Volume) (parent : Nat) (name : Name)
    (newparent : Nat) (newname : Name) (flags : Nat) :
    List Reply → Volume → Prop
  | dots (h : ¬ (Proper name ∧ Proper newname)) :
    RenameEnd g s parent name newparent newname flags [] s
  | refused {status s'} (hz : status ≠ 0) (hpass : Passes g s g s')
    (hno : ∀ p q i, ¬ s.Renames parent name newparent newname flags p q i) :
    RenameEnd g s parent name newparent newname flags [.err status] s'
  | acted {p q i status c r s1 s'}
    (hr : s.Renames parent name newparent newname flags p q i)
    (hpass : Passes g s (found (g + owe .lookup p 1 + owe .lookup q 1 +
      owe .lookup i 1) (s.child q newname)) (s.recount c r))
    (hstep : RenameStep p q i name newname flags (s.recount c r) status s1)
    (hdone : Passes (found (g + owe .lookup p 1 + owe .lookup q 1 +
      owe .lookup i 1) (s.child q newname)) s1 g s') :
    RenameEnd g s parent name newparent newname flags [.err status] s'

section Rename

variable {P : Account → Volume → Prop} {g : Account} {s : Volume}
  {parent newparent p q flags : Nat} {name newname : Name}

theorem Calls.renameDone {Q : List Reply → Volume → Prop} {x y : Option Nat} {rs : List Reply}
    (hP : Calls P) (h : P (found (found (g + owe .lookup p 1 + owe .lookup q 1) x) y) s)
    (hk : ∀ s', P g s' → Q rs s') : Ends (dropLookup p >>= fun _ => dropLookup q >>= fun _ =>
      dropLookup? x >>= fun _ => dropLookup? y >>= fun _ => pure rs) s Q := by
  refine hP.drop (g := found (found (g + owe .lookup q 1) x) y) h ?_ fun _ h => ?_
  · rw [← found_add, ← found_add, add_right_comm]
  refine hP.drop (g := found (found g x) y) h ?_ fun _ h => ?_
  · rw [found_add, found_add]
  exact hP.drop? h (found_comm g x y) fun _ h => hP.drop? h rfl fun s' h =>
    .pure (hk s' h)

theorem rename_ends (g : Account) (s : Volume) (parent : Nat) (name : Name) (newparent : Nat)
    (newname : Name) (flags : Nat) : Ends (bitbucketRename parent name newparent newname flags) s
      (RenameEnd g s parent name newparent newname flags) := by
  have hP := Passes.calls (g := g) (s := s)
  refine .ite (fun hdots => .pure (.dots fun hp => ?_)) fun hdots => ?_
  · rcases hdots with h | h | h | h
    exacts [hp.1.1 h, hp.1.2 h, hp.2.1 h, hp.2.2 h]
  simp only [not_or] at hdots
  have hout : ∀ (o o' : Option Nat) {t : Volume}, o = none ∨ o' = none →
      s.resolve parent = o → s.resolve newparent = o' →
      Passes g s (found (found g o) o') t →
      Ends (dropLookup? o >>= fun _ => dropLookup? o' >>= fun _ =>
        pure [.err EBADF]) t (RenameEnd g s parent name newparent newname flags) := by
    intro o o' t hnone ho ho' h
    refine hP.drop? h (found_comm g o o') fun _ h => hP.drop? h rfl fun _ h =>
      .pure (.refused (by decide) h fun p q i hr => ?_)
    rcases hnone with rfl | rfl
    · exact nomatch ho.symm.trans hr.parent
    · exact nomatch ho'.symm.trans hr.newparent
  refine hP.looked .refl (fun _ _ => lookupInode_inv) (fun hp => ?_) fun p c r hp h => ?_
  · refine hP.looked .refl (fun _ _ => lookupInode_inv) (fun hq => ?_) fun q c r hq h => ?_
    · exact hout none none (.inl rfl) hp hq .refl
    · exact hout none (some q) (.inl rfl) hp hq h
  refine hP.looked h (fun _ _ => lookupInode_inv) (fun hq => ?_) fun q c r hq h => ?_
  · exact hout (some p) none (.inr rfl) hp hq h
  have hno : (∀ i, s.child p name = some i → ¬ s.RenameActs p q i name newname flags) →
      ∀ p q i, ¬ s.Renames parent name newparent newname flags p q i := by
    intro hno p' q' i hr
    obtain rfl := Option.mem_unique hp hr.parent
    obtain rfl := Option.mem_unique hq hr.newparent
    exact hno i hr.child hr.acts
  have hin : Ends (renameIn p q name newname flags) (s.recount c r) fun out s1 =>
      (out.1 ≠ 0 ∧ (∀ i, s.child p name = some i → ¬ s.RenameActs p q i name newname flags) ∧
        Passes g s (found (found (g + owe .lookup p 1 + owe .lookup q 1) out.2.1) out.2.2) s1) ∨
      ∃ i c r, s.Renames parent name newparent newname flags p q i ∧
        out.2 = (some i, s.child q newname) ∧
        Passes g s (found (g + owe .lookup p 1 + owe .lookup q 1 +
          owe .lookup i 1) (s.child q newname)) (s.recount c r) ∧
        RenameStep p q i name newname flags (s.recount c r) out.1 s1 := by
    refine .get_bind (.ite (fun hd => .pure (.inl ⟨by decide, fun i _ ha =>
      hd.elim (· ha.2.2.1) (· ha.2.2.2.1), h⟩)) fun hd => ?_)
    simp only [not_or, not_not] at hd
    refine hP.lookupObject h (fun hi => .pure (.inl ⟨by decide, fun i hc =>
      absurd (hi.symm.trans hc) nofun, h⟩)) fun i c r hi h => ?_
    have honly : ∀ {k}, s.child p name = some k → i = k := fun hk =>
      Option.mem_unique hi hk
    refine .ite (fun hroot => .pure (.inl ⟨nofun, fun k hk ha =>
      ha.2.2.2.2.1 (honly hk ▸ hroot), h⟩)) fun hroot => ?_
    have hacts : (∀ j ∈ s.child q newname, j ≠ s.root ∧
        flags &&& renameNoreplace = 0 ∧ (flags &&& renameExchange = 0 →
          ¬ (s.inodeType j = .dir ∧ 1 < (s.entries j).length))) →
        s.Renames parent name newparent newname flags p q i := fun hx =>
      ⟨hp, hq, hi, ⟨hdots.1, hdots.2.1⟩, hdots.2.2, hd.1, hd.2, hroot, hx⟩
    refine hP.lookupObject h (fun hj => ?_) fun j c r hj h => ?_
    · have hj : s.child q newname = none := hj
      refine Ends.bind (R := fun status s1 => RenameStep p q i name newname flags
        (s.recount c r) status s1) (fun _ _ hx => .move hj hx) fun status s1 hs => ?_
      refine .pure (.inr ⟨i, c, r, hacts (by simp [hj]), by rw [hj], ?_, hs⟩)
      rw [hj]
      exact h
    have hj : s.child q newname = some j := hj
    refine Ends.bind (fun _ _ hx => replaceEntry_inv (s := s.recount c r) hj hx)
      fun status s1 hs => ?_
    rcases hs with ⟨hz, rfl, hna⟩ | ⟨ha, hs⟩
    · refine .pure (.inl ⟨hz, fun k hk ha => hna ?_, h⟩)
      exact ha.2.2.2.2.2 j hj
    refine .pure (.inr ⟨i, c, r, hacts ?_, by rw [hj], ?_, hs⟩)
    · intro k hk
      obtain rfl := Option.mem_unique hj hk
      exact ha
    · rw [hj]
      exact h
  refine hin.bind fun ⟨status, x, y⟩ s1 h => ?_
  rcases h with ⟨hz, hna, h⟩ | ⟨i, c, r, hr, hout, hpass, hs⟩
  · exact hP.renameDone h fun s' h => .refused hz h (hno hna)
  · obtain ⟨rfl, rfl⟩ := Prod.mk.inj hout
    exact Passes.calls.renameDone .refl fun s' hdone => .acted hr hpass hs hdone

end Rename

namespace Calls

variable {P : Account → Volume → Prop} {g : Account} {s : Volume} {parent : Nat}
  {name newname : Name}

theorem bitbucketRename {newparent flags : Nat} (hP : Calls P) (h : P g s)
    (hstep : ∀ p q i c r status s', s.Renames parent name newparent newname flags p q i →
      P (found (g + owe .lookup p 1 + owe .lookup q 1 + owe .lookup i 1)
        (s.child q newname)) (s.recount c r) →
      RenameStep p q i name newname flags (s.recount c r) status s' →
      P (found (g + owe .lookup p 1 + owe .lookup q 1 + owe .lookup i 1) (s.child q newname)) s') :
    Ends (bitbucketRename parent name newparent newname flags) s fun _ s' => P g s' := by
  intro rs s' hx
  cases rename_ends g s parent name newparent newname flags rs s' hx with
  | dots => exact h
  | refused _ hpass => exact hpass.keeps hP h
  | acted hr hpass hs hdone =>
    exact hdone.keeps hP (hstep _ _ _ _ _ _ _ hr (hpass.keeps hP h) hs)

end Calls

/-! ## The other requests

They change nothing that names and counts of links are made of, and what the
kernel gives back they drop for it. -/

/-- The requests that change no name, and that leave no reference behind
whatever they find. -/
def Request.Settles : Request → Prop
  | .mkdir .. | .create .. | .symlink .. | .link .. | .rename .. | .unlink ..
  | .rmdir .. | .opendir .. | .readdir .. | .readdirplus .. | .write ..
  | .writeBuf .. => False
  | _ => True

structure QuietCalls (P : Account → Volume → Prop) : Prop extends Calls P where
  setInode : ∀ {g s i f}, (∀ k, (f k).inodeType = k.inodeType) →
    (∀ k, (f k).ino = k.ino) → (∀ k, (f k).nlink = k.nlink) →
    (s.inode i).epoch ≤ (f (s.inode i)).epoch → P g s → P g (s.setInode i f)
  takeBack : ∀ {g s i r b f s'}, g r i = 0 →
    (∀ s : Volume, s.claimed r i = (s.kernel i).owes i r i) →
    (∀ n : Kernel, (f n).owes i + owe r i (min b (n.owes i r i)) = n.owes i) →
    P g s → bitbucketDereferenceInode i r b s = some ((), s') →
    P g (s'.setKernel i f)

namespace QuietCalls

variable {β : Type} {P : Account → Volume → Prop} {Q : β → Volume → Prop}
  {g : Account} {s : Volume} {i ino size off : Nat}

theorem lookup_apply {r : Reason} (hg : ∀ i, g r i = 0) (hr : r ≠ .lookup)
    (j : Nat) : (g + owe Reason.lookup j 1) r i = 0 := by
  rw [add_apply, hg, owe_other _ fun h => hr h.1]

variable (hP : QuietCalls P) (h : P g s)
include hP h

theorem lockInode {k : Unit → M β}
    (hk : ∀ s', P g s' → Ends (k ()) s' Q) : Ends (bitbucketLockInode i >>= k) s Q := by
  refine Ends.bind (R := fun _ s' => P g s') (fun _ s' hx => ?_) fun _ => hk
  obtain ⟨-, rfl⟩ := lockInode_inv hx
  exact hP.setInode (fun _ => rfl) (fun _ => rfl) (fun _ => rfl) (Nat.le_succ _) h

theorem onFile {f : File → Option (FileReply × File)} {k : FileReply → M β}
    (hk : ∀ r s', P g s' → Ends (k r) s' Q) : Ends (onFile i f >>= k) s Q := by
  refine Ends.bind (R := fun _ s' => P g s') (fun _ s' hx => ?_) hk
  rw [Bitbucket.onFile] at hx
  split at hx
  · cases hx
  simp only [Option.some.injEq, Prod.mk.injEq] at hx
  obtain ⟨-, rfl⟩ := hx
  exact hP.setInode (fun _ => rfl) (fun _ => rfl) (fun _ => rfl) (Nat.le_refl _) h

theorem bitbucketOpen {trunc : Bool} :
    Ends (bitbucketOpen ino trunc) s fun _ s' => P g s' := by
  refine hP.lookupInode h (.pure h) fun i c r _ h => ?_
  have htrunc : Ends (bitbucketOpen.truncateOnOpen trunc i) (s.recount c r)
      fun _ s' => P (g + owe .lookup i 1) s' := by
    refine .ite (fun _ => hP.lockInode h fun _ h => .get_bind ?_) fun _ => .pure h
    refine .ite (fun _ => .assert_bind fun _ => ?_) fun _ => .pure h
    exact hP.onFile h fun _ _ h => .pure h
  refine htrunc.bind fun _ _ h => hP.reference h fun _ h => ?_
  exact .modify_bind (hP.drop_pure (hP.setKernel (fun k => k.owes_opens i 1) h))

theorem bitbucketRelease (hg : ∀ i, g .fuseOpen i = 0) :
    Ends (bitbucketRelease ino) s fun _ s' => P g s' := by
  refine hP.lookupInode h (.pure h) fun i _ _ _ h => ?_
  refine Ends.bind (fun _ s' hx => hP.takeBack (lookup_apply hg nofun i)
    (fun s => ((s.kernel i).owes_fuseOpen i).symm) (fun k => ?_) h hx)
    fun _ _ h => .modify_bind (hP.drop_pure h)
  rw [k.owes_fuseOpen]
  exact k.owes_opens_sub i 1

theorem bitbucketReleasedir (hg : ∀ i, g .fuseOpendir i = 0) :
    Ends (bitbucketReleasedir ino) s fun _ s' => P g s' := by
  refine hP.lookupInode h (.pure h) fun i _ _ _ h => ?_
  refine Ends.bind (fun _ s' hx => hP.takeBack (lookup_apply hg nofun i)
    (fun s => ((s.kernel i).owes_fuseOpendir i).symm) (fun k => ?_) h hx)
    fun _ _ h => .modify_bind (hP.drop_pure h)
  rw [k.owes_fuseOpendir]
  exact k.owes_opendirs_sub i 1

theorem bitbucketForgetMulti {forgets : List (Nat × Nat)} (hg : ∀ i, g .fuseLookup i = 0) :
    Ends (bitbucketForgetMulti forgets) s fun _ s' => P g s' := by
  have hloop : ∀ forgets s, P g s → Ends (backgroundForgets forgets) s fun _ s' => P g s' := by
    intro forgets
    induction forgets with
    | nil => exact fun s h => .pure h
    | cons f forgets ih =>
      intro s h
      refine Ends.bind (R := fun _ s' => P g s') ?_ fun _ => ih
      refine hP.lookupInodeInTable h (.pure h) fun i _ _ _ h => ?_
      refine Ends.bind (fun _ s' hx => hP.takeBack (lookup_apply hg nofun i)
        (fun s => ((s.kernel i).owes_fuseLookup i).symm) (fun k => ?_) h hx)
        fun _ _ h => .modify_bind fun _ _ hx => hP.dereference h hx
      rw [k.owes_fuseLookup]
      exact k.owes_lookups_sub i f.2
  exact (hloop forgets s h).bind fun _ _ h => .pure h

theorem bitbucketOpendir
    (hleave : ∀ i s', s.resolve ino = some i → ¬ sIsDir (s.inode i).mode →
      P (g + owe .fuseOpendir i 1) s' → P g s') :
    Ends (bitbucketOpendir ino) s fun _ s' => P g s' := by
  refine hP.lookupInode h (.pure h) fun i c r hi h => ?_
  have hP' := hP.toCalls.inode s.inode
  refine hP'.reference ⟨h, rfl⟩ fun _ h => hP'.drop h (add_right_comm _ _ _)
    fun s1 ⟨h, hs1⟩ => .get_bind (.ite (fun _ => ?_) fun hdir => .pure ?_)
  · exact .modify_bind (.pure (hP.setKernel (fun k => k.owes_opendirs i 1) h))
  · rw [hs1] at hdir
    exact hleave i s1 hi hdir h

/-- A directory that is listed keeps the reference of the enumeration. -/
theorem bitbucketReaddir
    (hlist : ∀ i c r, s.resolve ino = some i → off ≠ endOfDirectory →
      sIsDir (s.inode i).mode → P (g + owe .lookup i 1) (s.recount c r) →
      Ends (enumerate i 24 size off) (s.recount c r) fun _ s' =>
        P (g + owe .lookup i 1) s') :
    Ends (bitbucketReaddir ino size off) s fun _ s' => P g s' := by
  refine .ite (fun _ => .pure h) fun hoff => ?_
  refine hP.lookupInode h (.assert_bind False.elim) fun i c r hi h => ?_
  refine .get_bind (.ite (fun _ => hP.drop_pure h) fun hdir => ?_)
  refine (hlist i c r hi hoff (by simpa [Volume.recount] using hdir) h).bind fun _ _ h => ?_
  exact hP.drop h rfl fun _ h => .ite (fun _ => .pure h) fun _ => .pure h

theorem bitbucketReaddirplus
    (hlist : ∀ i c r, s.resolve ino = some i → off ≠ endOfDirectory →
      sIsDir (s.inode i).mode → P (g + owe .lookup i 1) (s.recount c r) →
      Ends (enumerate i 152 size off) (s.recount c r) fun out s1 =>
        Ends (returnPlus i (out.1.map Prod.fst)) s1 fun _ s' =>
          P (g + owe .lookup i 1) s') :
    Ends (bitbucketReaddirplus ino size off) s fun _ s' => P g s' := by
  refine .ite (fun _ => .pure h) fun hoff => ?_
  refine hP.lookupInode h (.assert_bind False.elim) fun i c r hi h => ?_
  refine .get_bind (.ite (fun _ => hP.drop_pure h) fun hdir => ?_)
  refine (hlist i c r hi hoff (by simpa [Volume.recount] using hdir) h).bind fun _ _ h => ?_
  exact h.bind fun _ _ h => hP.drop h rfl fun _ h =>
    .ite (fun _ => .pure h) fun _ => .pure h

theorem bitbucketWrite {buf : List UInt8}
    (hleave : ∀ i s', s.resolve ino = some i → buf ≠ [] →
      s.inodeType i ≠ .file → P (g + owe .lookup i 1) s' → P g s') :
    Ends (bitbucketWrite ino off buf) s fun _ s' => P g s' := by
  refine .ite (fun _ => .pure h) fun hbuf => ?_
  refine hP.lookupInode h (.pure h) fun i c r hi h => .get_bind ?_
  refine .ite (fun ht => .pure (hleave i _ hi hbuf ht h)) fun _ => ?_
  exact hP.onFile h fun _ _ h => hP.drop_pure h

theorem bitbucketWriteBuf {bufv : FuseBufvec} (hleave : ∀ i s', s.resolve ino = some i →
      (bufv.seen.map FuseBuf.size).sum ≠ 0 → s.inodeType i ≠ .file →
      P (g + owe .lookup i 1) s' → P g s') :
    Ends (bitbucketWriteBuf ino off bufv) s fun _ s' => P g s' := by
  refine .ite (fun _ => .pure h) fun hbuf => ?_
  refine hP.lookupInode h (.assert_bind False.elim) fun i c r hi h => .get_bind ?_
  refine .ite (fun ht => .pure (hleave i _ hi hbuf ht h)) fun _ => ?_
  exact hP.onFile h fun _ _ h => hP.drop_pure h

theorem bitbucketRead : Ends (bitbucketRead ino size off) s fun _ s' => P g s' := by
  refine .ite (fun _ => .pure h) fun _ => ?_
  refine hP.lookupInode h (.assert_bind False.elim) fun i c r _ h => ?_
  refine .get_bind (.ite (fun _ => hP.drop_pure h) fun _ => ?_)
  exact hP.onFile h fun _ _ h => hP.drop_pure h

theorem bitbucketCopyFileRange {inoOut len : Nat} :
    Ends (bitbucketCopyFileRange ino off inoOut len) s fun _ s' => P g s' := by
  refine .ite (fun _ => .pure h) fun _ => ?_
  refine hP.lookupInodeInTable h (hP.lookupInodeInTable h (.assert_bind False.elim)
    fun _ _ _ _ _ => .assert_bind False.elim) fun i _ _ _ h => ?_
  refine hP.lookupInodeInTable h (.assert_bind False.elim) fun j _ _ _ h => ?_
  refine .assert_bind fun _ => .get_bind (.ite (fun _ => hP.drop_two h) fun _ => ?_)
  exact .assert_bind fun _ => hP.drop_two h

theorem bitbucketSetattr {a : SetAttr} :
    Ends (bitbucketSetattr ino a) s fun _ s' => P g s' := by
  refine hP.lookupInode h (.pure h) fun i c r _ h => ?_
  have hmode : Ends (setMode i a.mode) (s.recount c r) fun _ s' =>
      P (g + owe .lookup i 1) s' := by
    cases a.mode with
    | none => exact .pure h
    | some mode =>
      intro _ s' hx
      rw [modify_inv hx]
      exact hP.setInode (fun _ => rfl) (fun _ => rfl) (fun _ => rfl) (Nat.le_refl _) h
  have hsize : ∀ s1, P (g + owe .lookup i 1) s1 → Ends (setSize i a.size) s1
      fun _ s' => P (g + owe .lookup i 1) s' := by
    intro s1 h
    cases a.size with
    | none => exact .pure h
    | some size =>
      refine .get_bind (.ite (fun _ => .pure h) fun _ => ?_)
      refine hP.lockInode h fun _ h => .assert_bind fun _ => ?_
      exact hP.onFile h fun _ _ h => .pure h
  refine hmode.bind fun _ s1 h => (hsize s1 h).bind fun _ _ h => .get_bind ?_
  refine .assert_bind fun _ => .assert_bind fun _ => hP.drop h rfl fun _ h => ?_
  exact .ite (fun _ => .pure h) fun _ => .pure h

theorem inspect {missing : List Reply} {f : Inode → List Reply} :
    Ends (inspect ino missing f) s fun _ s' => P g s' :=
  hP.lookupInode h (.pure h) fun _ _ _ _ h => .get_bind (hP.drop_pure h)

theorem bitbucketReadlink : Ends (bitbucketReadlink ino) s fun _ s' => P g s' :=
  hP.lookupInodeInTable h (.pure h) fun _ _ _ _ h => .get_bind (hP.drop_pure h)

theorem syncFile {sync msync : Bool} :
    Ends (syncFile ino sync msync) s fun _ s' => P g s' :=
  hP.lookupInode h (.pure h) fun _ _ _ _ h =>
    .get_bind (.assert_bind fun _ => hP.drop_pure h)

theorem bitbucketFlock {outcome : Option Int} :
    Ends (bitbucketFlock ino outcome) s fun _ s' => P g s' := by
  refine hP.lookupInode h (.pure h) fun i c r _ h => ?_
  refine .get_bind (.ite (fun _ => hP.drop_pure h) fun _ => ?_)
  exact hP.lockInode h fun _ h => .assert_bind fun _ => hP.drop_pure h

theorem handle {r : Request} (hg : ∀ r, r ≠ .lookup → ∀ i, g r i = 0)
    (hr : r.Settles) : Ends (r.handle u) s fun _ s' => P g s' := by
  cases r with
  | lookup => exact hP.bitbucketLookup h
  | «open» => exact hP.bitbucketOpen h
  | release => exact hP.bitbucketRelease h (hg _ nofun)
  | releasedir => exact hP.bitbucketReleasedir h (hg _ nofun)
  | forget | forgetMulti => exact hP.bitbucketForgetMulti h (hg _ nofun)
  | read => exact hP.bitbucketRead h
  | copyFileRange => exact hP.bitbucketCopyFileRange h
  | setattr => exact hP.bitbucketSetattr h
  | getattr => exact .get_bind (.assert_bind fun _ => hP.inspect h)
  | access ino => exact (hP.inspect h : Ends (bitbucketAccess ino) s _)
  | fsyncdir ino => exact (hP.inspect h : Ends (bitbucketFsyncdir ino) s _)
  | statfs ino => exact (hP.inspect h : Ends (bitbucketStatfs ino) s _)
  | readlink => exact hP.bitbucketReadlink h
  | flush | fsync => exact .ite (fun _ => .pure h) fun _ => hP.syncFile h
  | flock => exact hP.bitbucketFlock h
  | getxattr | setxattr | removexattr =>
    exact .ite (fun _ => .pure h) fun _ => hP.inspect h
  | ioctl | lseek => exact .pure h
  | unimplemented => exact .assert_bind False.elim
  | _ => exact hr.elim

end QuietCalls

end Finesse.Bitbucket
