import Finesse.Lib.Blocks
import Finesse.Lib.Machine
import Finesse.Bitbucket.Inode

/-!
# Enumeration of a directory

The enumeration contexts of `dir.c`. The entries of a directory are blocks of
memory that a list links, newest first, and a context has a pointer to the
entry that it will return next. Every change of the directory moves its epoch
on, and a context that finds another epoch than it knows seeks its entry
again, by the offset. But the seek is left out if the context has that offset
already, which it has, so that an entry that was deleted meanwhile is returned
after it was freed.

The epoch is a number of 64 bits that is taken not to run over; the check that
the directory is locked moves it on as well. A use of an entry that was freed is
`none`, as a failed assertion is.
-/

namespace Finesse.Bitbucket

open Prog List Machine

/-- The end of an enumeration: this is the offset after the last entry. -/
def endOfDirectory : Nat := 2 ^ 64 - 1

/-- `bitbucket_dir_enum_context_t`. -/
structure EnumContext where
  nextEntry : Option Nat
  offset : Nat
  epoch : Nat
  lastError : Int
deriving DecidableEq, Repr

/-- A directory and an enumeration context for it. -/
structure Enumeration where
  /-- `Directory.Entries` -/
  list : List Nat
  memory : Blocks DirEntry
  epoch : Nat
  context : EnumContext

namespace Enumeration

/-- An entry is read, so it must be there. -/
def read (p : Nat) : Prog Enumeration DirEntry := fun x =>
  (x.memory.cell p).map fun e => (e, x)

/-- To lock the directory exclusively, or to try, moves its epoch on. -/
def lock (x : Enumeration) : Enumeration := { x with epoch := x.epoch + 1 }

/-- `EnsureInodeLockedAgainstChanges`, for a directory that is locked: the
exclusive lock is tried, and fails. -/
def ensureInodeLockedAgainstChanges : Prog Enumeration Unit := modify lock

/-- The context is at an entry. -/
def moveTo (p : Nat) : Prog Enumeration Unit := do
  let e ← read p
  modify fun x => { x with context :=
    { x.context with nextEntry := some p, offset := e.offset, lastError := 0 } }

/-- The context is at no entry. -/
def moveNowhere : Prog Enumeration Unit :=
  modify fun x => { x with context :=
    { x.context with nextEntry := none, offset := 0, lastError := ENOENT } }

/-- The first entry with an offset. -/
def findOffset (offset : Nat) : List Nat → Prog Enumeration (Option Nat)
  | [] => pure none
  | p :: ps => do
    let e ← read p
    if e.offset = offset then pure (some p) else findOffset offset ps

/-- The part of `BitbucketSeekDirectory` that searches. -/
def searchOffset (offset : Nat) : Prog Enumeration Unit := do
  moveNowhere
  let x ← get
  let found ← findOffset offset x.list
  match found with
  | none => pure ()
  | some p => moveTo p

def rewind : Prog Enumeration Unit := do
  let x ← get
  match x.list with
  | [] => moveNowhere
  | p :: _ => moveTo p

/-- The positions of `BitbucketSeekDirectory`: nothing is done for the offset
that the context has. -/
def seekOffset (offset : Nat) : Prog Enumeration Unit := do
  let x ← get
  if offset = 0 then rewind
  else if x.context.offset = offset then pure ()
  else searchOffset offset

def bitbucketSeekDirectory (offset : Nat) : Prog Enumeration Int := do
  ensureInodeLockedAgainstChanges
  modify fun x => { x with context := { x.context with epoch := x.epoch } }
  seekOffset offset
  let x ← get
  pure x.context.lastError

/-- `BitbucketInitalizeDirectoryEnumerationContext`, besides the reference
that the context holds. -/
def bitbucketInitalizeDirectoryEnumerationContext : Prog Enumeration Unit := do
  modify fun x => { x with context := ⟨none, 0, x.epoch, 0⟩ }
  let status ← bitbucketSeekDirectory 0
  assert (status = 0)

/-- The entry after `p`. -/
def nextInList (l : List Nat) (p : Nat) : Option Nat :=
  (l.dropWhile (· ≠ p)).tail.head?

/-- The context moves on from the entry at `p`, which is read for it. -/
def moveOn (p : Nat) : Prog Enumeration Unit := do
  let _ ← read p
  let x ← get
  match nextInList x.list p with
  | none => modify fun x => { x with context :=
      { x.context with nextEntry := none, offset := endOfDirectory } }
  | some q => do
    let e ← read q
    modify fun x => { x with context :=
      { x.context with nextEntry := some q, offset := e.offset } }

/-- The entry of the context is returned. -/
def returnEntry : Prog Enumeration (Option Nat) := do
  let x ← get
  match x.context.nextEntry with
  | none => do
    assert False
    pure none
  | some p => do
    moveOn p
    pure (some p)

def bitbucketEnumerateDirectory : Prog Enumeration (Option Nat) := do
  ensureInodeLockedAgainstChanges
  let x ← get
  if x.context.lastError ≠ 0 then pure none
  else match x.context.nextEntry with
  | none => do
    modify fun x => { x with context :=
      { x.context with lastError := ENOENT, offset := 0 } }
    pure none
  | some _ =>
    if x.epoch ≠ x.context.epoch then do
      let status ← bitbucketSeekDirectory x.context.offset
      if status ≠ 0 then pure none else returnEntry
    else returnEntry

/-! ## Changes of the directory -/

/-- The entry with a name. -/
def find (x : Enumeration) (name : Name) : Option Nat :=
  x.list.find? fun p => (x.memory.cell p).map DirEntry.name = some name

/-- `BitbucketInsertDirectoryEntry`. The new entry is lost if there is one
under the name. -/
def bitbucketInsertDirectoryEntry (x : Enumeration) (i : Nat) (name : Name) : Enumeration :=
  let x := x.lock
  let y := { x with memory := x.memory.malloc ⟨name, i, x.epoch⟩ }
  match x.find name with
  | some _ => y
  | none => { y with list := x.memory.next :: x.list }

def bitbucketDeleteDirectoryEntry (x : Enumeration) (name : Name) : Enumeration :=
  match x.find name with
  | none => x
  | some p =>
    let x := x.lock
    { x with list := x.list.erase p, memory := x.memory.free p }

/-! ## Sequences of calls -/

end Enumeration

/-- A call on the context, or a change of the directory. -/
inductive EnumCall where
  | enumerate
  | seek (offset : Nat)
  | insert (i : Nat) (name : Name)
  | delete (name : Name)
deriving DecidableEq, Repr

namespace Enumeration

/-- One call; the events are the entries that are returned. -/
def step (x : Enumeration) : EnumCall → Option (List (Option Nat) × Enumeration)
  | .enumerate => (bitbucketEnumerateDirectory x).map fun r => ([r.1], r.2)
  | .seek offset => (bitbucketSeekDirectory offset x).map fun r => ([], r.2)
  | .insert i name => some ([], x.bitbucketInsertDirectoryEntry i name)
  | .delete name => some ([], x.bitbucketDeleteDirectoryEntry name)

/-- The entry of the context is in the directory. -/
def Placed (x : Enumeration) : Prop := ∀ p, x.context.nextEntry = some p → p ∈ x.list

instance (x : Enumeration) : Decidable x.Placed :=
  decidable_of_iff (∀ p ∈ x.context.nextEntry, p ∈ x.list) Iff.rfl

/-- The call returns; an enumeration returns only an entry that is in the
directory, and an error if its own is not. -/
def Right (x : Enumeration) (c : EnumCall) : Prop :=
  ∃ ev x', x.step c = some (ev, x') ∧ (∀ p, some p ∈ ev → p ∈ x'.list ∧ x'.memory.cell p ≠ none) ∧
    (c = .enumerate → ¬ x.Placed → x'.context.lastError ≠ 0)

/-- An enumeration that goes on finds its entry in the directory. -/
def Undisturbed (x : Enumeration) (c : EnumCall) : Prop :=
  c = .enumerate → x.context.lastError = 0 → x.Placed

instance (x : Enumeration) (c : EnumCall) : Decidable (x.Undisturbed c) :=
  inferInstanceAs (Decidable (_ → _ → _))

/-! ## Directories that are linked -/

/-- The entries in the list are there, once, and have offsets. -/
structure Linked (x : Enumeration) : Prop where
  live : ∀ p ∈ x.list, ∃ e, x.memory.cell p = some e ∧ e.offset ≠ 0
  nodup : x.list.Nodup

/-- The entry of the context has an offset, and was freed if it is no longer
in the directory. -/
structure Tracked (x : Enumeration) : Prop extends Linked x where
  saved : ∀ p, x.context.nextEntry = some p →
    (p ∈ x.list ∨ x.memory.cell p = none) ∧ p < x.memory.next ∧ x.context.offset ≠ 0

/-- Only the epoch and the context have changed. -/
structure SameList (x y : Enumeration) : Prop where
  list : y.list = x.list
  memory : y.memory = x.memory

section Reading

variable {x y : Enumeration} {p offset : Nat} {e : DirEntry}

theorem SameList.trans {z : Enumeration} (h : x.SameList y) (h' : y.SameList z) :
    x.SameList z := ⟨h'.list.trans h.list, h'.memory.trans h.memory⟩

theorem Linked.congr (h : x.Linked) (hs : x.SameList y) : y.Linked := by
  refine ⟨?_, ?_⟩
  · rw [hs.list, hs.memory]
    exact h.live
  · rw [hs.list]
    exact h.nodup

theorem Linked.lt_next (h : x.Linked) (hp : p ∈ x.list) : p < x.memory.next := by
  obtain ⟨e, he, -⟩ := h.live p hp
  by_contra hlt
  rw [x.memory.unused p (Nat.le_of_not_lt hlt)] at he
  cases he

theorem read_some (h : x.memory.cell p = some e) : read p x = some (e, x) := by
  rw [read, h]
  rfl

/-- The offset of the entry at an address. -/
def offsetAt (x : Enumeration) (p : Nat) : Nat :=
  ((x.memory.cell p).map DirEntry.offset).getD 0

theorem offsetAt_eq (h : x.memory.cell p = some e) : x.offsetAt p = e.offset := by
  rw [offsetAt, h]
  rfl

/-- The context is put at an entry or at none. -/
def place (x : Enumeration) : Option Nat → Enumeration
  | none => { x with context :=
      { x.context with nextEntry := none, offset := 0, lastError := ENOENT } }
  | some p => { x with context :=
      { x.context with nextEntry := some p, offset := x.offsetAt p, lastError := 0 } }

theorem sameList_place (x : Enumeration) (o : Option Nat) : x.SameList (x.place o) := by
  cases o <;> exact ⟨rfl, rfl⟩

theorem moveTo_some (h : x.memory.cell p = some e) : moveTo p x = some ((), x.place (some p)) := by
  rw [moveTo, bind_some (read_some h), place, offsetAt_eq h]
  rfl

theorem findOffset_eq {ps : List Nat} (h : ∀ p ∈ ps, ∃ e, x.memory.cell p = some e) :
    findOffset offset ps x = some (ps.find? fun p => x.offsetAt p = offset, x) := by
  induction ps with
  | nil => rfl
  | cons q qs ih =>
    obtain ⟨⟨e, he⟩, hqs⟩ := forall_mem_cons.mp h
    rw [findOffset, bind_some (read_some he), List.find?_cons, offsetAt_eq he]
    by_cases hoff : e.offset = offset
    · rw [if_pos hoff, decide_eq_true hoff]
      rfl
    · rw [if_neg hoff, decide_eq_false hoff]
      exact ih hqs

/-- Where a seek puts the context of a directory that is linked. -/
def sought (x : Enumeration) (offset : Nat) : Enumeration :=
  if offset = 0 then x.place x.list.head?
  else if x.context.offset = offset then x
  else x.place (x.list.find? fun p => x.offsetAt p = offset)

namespace Linked

theorem exists_cell (h : x.Linked) : ∀ p ∈ x.list, ∃ e, x.memory.cell p = some e :=
  fun p hp => (h.live p hp).imp fun _ he => he.1

theorem searchOffset (h : x.Linked) : searchOffset offset x =
      some ((), x.place (x.list.find? fun p => x.offsetAt p = offset)) := by
  have hfind : findOffset offset x.list (x.place none) = _ := findOffset_eq h.exists_cell
  rw [Enumeration.searchOffset, show moveNowhere = modify fun x => x.place none from rfl,
    modify_bind, get_bind, show (x.place none).list = x.list from rfl,
    bind_some hfind]
  cases ho : x.list.find? fun p => x.offsetAt p = offset with
  | none =>
    have ho' : (x.list.find? fun p => (x.place none).offsetAt p = offset) = none := ho
    rw [ho']
    rfl
  | some q =>
    have ho' : (x.list.find? fun p => (x.place none).offsetAt p = offset) = some q := ho
    obtain ⟨e, he⟩ := h.exists_cell q (mem_of_find?_eq_some ho)
    rw [ho']
    exact moveTo_some (x := x.place none) he

theorem rewind (h : x.Linked) : rewind x = some ((), x.place x.list.head?) := by
  rw [Enumeration.rewind, get_bind]
  cases hl : x.list with
  | nil => rfl
  | cons q qs =>
    obtain ⟨e, he⟩ := h.exists_cell q (by rw [hl]; exact mem_cons_self)
    exact moveTo_some he

theorem seekOffset (h : x.Linked) : seekOffset offset x = some ((), x.sought offset) := by
  rw [Enumeration.seekOffset, get_bind, sought]
  split
  · exact h.rewind
  split
  · rfl
  · exact h.searchOffset

end Linked

/-- The directory after `EnsureInodeLockedAgainstChanges`, with a context that
knows its epoch. -/
def synced (x : Enumeration) : Enumeration :=
  { x.lock with context := { x.context with epoch := x.lock.epoch } }

theorem Linked.seekDirectory (h : x.Linked) : bitbucketSeekDirectory offset x =
      some ((x.synced.sought offset).context.lastError, x.synced.sought offset) := by
  have hsync : x.synced.Linked := h.congr ⟨rfl, rfl⟩
  rw [bitbucketSeekDirectory, ensureInodeLockedAgainstChanges, modify_bind, modify_bind]
  exact (bind_some hsync.seekOffset).trans rfl

end Reading

/-! ## What an enumeration does -/

section Steps

variable {x y : Enumeration} {p : Nat}

/-- The context has moved on from the entry at `p`. -/
structure MovedOn (x y : Enumeration) (p : Nat) : Prop extends SameList x y where
  next : y.context.nextEntry = nextInList x.list p
  offset : y.context.offset = (nextInList x.list p).elim endOfDirectory x.offsetAt
  lastError : y.context.lastError = x.context.lastError

theorem mem_of_nextInList {l : List Nat} {p q : Nat} (h : nextInList l p = some q) : q ∈ l :=
  (dropWhile_sublist _).subset (mem_of_mem_tail (mem_of_head? h))

theorem Linked.moveOn (h : x.Linked) (hp : p ∈ x.list) :
    ∃ y, moveOn p x = some ((), y) ∧ x.MovedOn y p := by
  obtain ⟨e, he⟩ := h.exists_cell p hp
  rw [Enumeration.moveOn, bind_some (read_some he), get_bind]
  cases hn : nextInList x.list p with
  | none => exact ⟨_, rfl, ⟨rfl, rfl⟩, hn.symm ▸ rfl, hn.symm ▸ rfl, rfl⟩
  | some q =>
    obtain ⟨e', he'⟩ := h.exists_cell q (mem_of_nextInList hn)
    dsimp only
    rw [bind_some (read_some he')]
    refine ⟨_, rfl, ⟨rfl, rfl⟩, hn.symm, ?_, rfl⟩
    rw [hn, Option.elim_some, offsetAt_eq he']

theorem Linked.returnEntry (h : x.Linked) (hp : p ∈ x.list) (hnext : x.context.nextEntry = some p) :
    ∃ y, returnEntry x = some (some p, y) ∧ x.MovedOn y p := by
  obtain ⟨y, hy, hm⟩ := h.moveOn hp
  refine ⟨y, ?_, hm⟩
  rw [Enumeration.returnEntry, get_bind, hnext]
  dsimp only
  rw [bind_some hy]
  rfl

theorem Linked.enumerate_eq (h : x.Linked) (herr : x.context.lastError = 0)
    (hnext : x.context.nextEntry = some p) (hoff : x.context.offset ≠ 0) :
    ∃ y, bitbucketEnumerateDirectory x = Enumeration.returnEntry y ∧ x.SameList y ∧
      y.context.nextEntry = some p ∧ y.context.lastError = 0 := by
  have hlock : x.lock.Linked := h.congr ⟨rfl, rfl⟩
  rw [bitbucketEnumerateDirectory, ensureInodeLockedAgainstChanges, modify_bind,
    get_bind, show x.lock.context = x.context from rfl,
    if_neg (not_not.mpr herr), hnext]
  dsimp only
  split
  · -- the seek for the offset of the context does nothing
    have hsought : x.lock.synced.sought x.context.offset = x.lock.synced := by
      have heq : x.lock.synced.context.offset = x.context.offset := rfl
      rw [sought, if_neg hoff, if_pos heq]
    rw [bind_some hlock.seekDirectory, hsought,
      if_neg (not_not.mpr (show x.lock.synced.context.lastError = 0 from herr))]
    exact ⟨_, rfl, ⟨rfl, rfl⟩, hnext, herr⟩
  · exact ⟨_, rfl, ⟨rfl, rfl⟩, hnext, herr⟩

theorem Linked.enumerate (h : x.Linked) (herr : x.context.lastError = 0)
    (hnext : x.context.nextEntry = some p) (hoff : x.context.offset ≠ 0) (hp : p ∈ x.list) :
    ∃ y, bitbucketEnumerateDirectory x = some (some p, y) ∧ x.MovedOn y p := by
  obtain ⟨y, hy, hsame, hnext', herr'⟩ := h.enumerate_eq herr hnext hoff
  obtain ⟨z, hz, hm⟩ := (h.congr hsame).returnEntry (by rw [hsame.list]; exact hp) hnext'
  refine ⟨z, hy.trans hz, hsame.trans hm.toSameList, ?_, ?_, ?_⟩
  · rw [hm.next, hsame.list]
  · rw [hm.offset, hsame.list]
    congr 1
    funext q
    rw [offsetAt, offsetAt, hsame.memory]
  · rw [hm.lastError, herr', herr]

theorem enumerate_end (herr : x.context.lastError = 0) (hnext : x.context.nextEntry = none) :
    ∃ y, bitbucketEnumerateDirectory x = some (none, y) ∧ x.SameList y ∧
      y.context.nextEntry = none ∧ y.context.lastError ≠ 0 := by
  rw [bitbucketEnumerateDirectory, ensureInodeLockedAgainstChanges, modify_bind,
    get_bind, show x.lock.context = x.context from rfl,
    if_neg (not_not.mpr herr), hnext]
  exact ⟨_, rfl, ⟨rfl, rfl⟩, hnext, show ENOENT ≠ 0 by decide⟩

theorem enumerate_failed (herr : x.context.lastError ≠ 0) :
    bitbucketEnumerateDirectory x = some (none, x.lock) := by
  rw [bitbucketEnumerateDirectory, ensureInodeLockedAgainstChanges, modify_bind,
    get_bind, show x.lock.context = x.context from rfl, if_pos herr]
  rfl

end Steps

/-! ## What is kept -/

section Kept

variable {x y : Enumeration} {p i : Nat} {name : Name}

theorem Linked.insert (h : x.Linked) : (x.bitbucketInsertDirectoryEntry i name).Linked := by
  have hcell : ∀ p ∈ x.list, ∃ e,
      (x.memory.malloc ⟨name, i, x.epoch + 1⟩).cell p = some e ∧ e.offset ≠ 0 := by
    intro p hp
    obtain ⟨e, he, hoff⟩ := h.live p hp
    exact ⟨e, (Blocks.cell_malloc (by rw [he]; nofun)).trans he, hoff⟩
  rw [bitbucketInsertDirectoryEntry]
  dsimp only
  split
  · exact ⟨hcell, h.nodup⟩
  refine ⟨forall_mem_cons.mpr ⟨⟨_, Blocks.cell_malloc_next, nofun⟩, hcell⟩, ?_⟩
  refine nodup_cons.mpr ⟨fun hmem => ?_, h.nodup⟩
  exact Nat.lt_irrefl _ (h.lt_next hmem)

theorem Linked.delete (h : x.Linked) : (x.bitbucketDeleteDirectoryEntry name).Linked := by
  rw [bitbucketDeleteDirectoryEntry]
  split
  · exact h
  refine ⟨fun q hq => ?_, h.nodup.erase _⟩
  obtain ⟨hne, hq⟩ := h.nodup.mem_erase_iff.mp hq
  obtain ⟨e, he, hoff⟩ := h.live q hq
  exact ⟨e, (Blocks.cell_free hne).trans he, hoff⟩

namespace Tracked

variable (h : x.Tracked)
include h

theorem insert : (x.bitbucketInsertDirectoryEntry i name).Tracked := by
  have hold : ∀ (p : Nat) (l : List Nat), x.context.nextEntry = some p → (p ∈ x.list → p ∈ l) →
      (p ∈ l ∨ (x.memory.malloc ⟨name, i, x.epoch + 1⟩).cell p = none) ∧
        p < x.memory.next + 1 ∧ x.context.offset ≠ 0 := by
    intro p l hp hsub
    obtain ⟨hmem, hlt, hoff⟩ := h.saved p hp
    refine ⟨hmem.imp hsub fun hnone => ?_, by omega, hoff⟩
    exact (Function.update_of_ne (Nat.ne_of_lt hlt) _ _).trans hnone
  refine ⟨h.toLinked.insert, fun p hp => ?_⟩
  rw [bitbucketInsertDirectoryEntry] at hp ⊢
  dsimp only at hp ⊢
  split at hp
  · exact hold p x.list hp id
  · exact hold p _ hp (mem_cons_of_mem _)

theorem delete : (x.bitbucketDeleteDirectoryEntry name).Tracked := by
  refine ⟨h.toLinked.delete, fun p hp => ?_⟩
  rw [bitbucketDeleteDirectoryEntry] at hp ⊢
  split at hp
  · exact h.saved p hp
  next q hq =>
  obtain ⟨hmem, hlt, hoff⟩ := h.saved p hp
  refine ⟨?_, hlt, hoff⟩
  by_cases hpq : p = q
  · rw [hpq]
    exact .inr Blocks.cell_free_self
  · refine hmem.imp (fun hin => h.nodup.mem_erase_iff.mpr ⟨hpq, hin⟩) fun hnone => ?_
    exact (Blocks.cell_free hpq).trans hnone

/-- Only the context has changed, which is at an entry of the list or was
left alone. -/
theorem congr (hs : x.SameList y) (hc : ∀ p, y.context.nextEntry = some p →
      p ∈ x.list ∧ y.context.offset = x.offsetAt p ∨
        x.context.nextEntry = some p ∧ y.context.offset = x.context.offset) :
    y.Tracked := by
  refine ⟨h.toLinked.congr hs, fun p hp => ?_⟩
  rw [hs.list, hs.memory]
  rcases hc p hp with ⟨hmem, hoff⟩ | ⟨hold, hoff⟩
  · obtain ⟨e, he, hne⟩ := h.live p hmem
    refine ⟨.inl hmem, h.lt_next hmem, ?_⟩
    rw [hoff, offsetAt_eq he]
    exact hne
  · rw [hoff]
    exact h.saved p hold

theorem place {o : Option Nat} (ho : ∀ p, o = some p → p ∈ x.list) : (x.place o).Tracked := by
  refine h.congr (sameList_place x o) fun p hp => ?_
  cases o with
  | none => cases hp
  | some q =>
    obtain rfl := Option.some.inj hp
    exact .inl ⟨ho q rfl, rfl⟩

theorem sought (offset : Nat) : (x.sought offset).Tracked := by
  rw [Enumeration.sought]
  split
  · exact h.place fun p hp => mem_of_head? hp
  split
  · exact h
  · exact h.place fun p hp => mem_of_find?_eq_some hp

theorem synced : x.synced.Tracked := h.congr ⟨rfl, rfl⟩ fun _ hp => .inr ⟨hp, rfl⟩

theorem enumerate (hu : x.context.lastError = 0 → x.Placed) :
    ∃ o y, bitbucketEnumerateDirectory x = some (o, y) ∧ x.SameList y ∧ y.Tracked ∧
      (∀ p, o = some p → p ∈ x.list) ∧ (¬ x.Placed → y.context.lastError ≠ 0) := by
  by_cases herr : x.context.lastError = 0
  · have hplaced := hu herr
    cases hnext : x.context.nextEntry with
    | none =>
      obtain ⟨y, hy, hs, hnone, -⟩ := enumerate_end herr hnext
      refine ⟨none, y, hy, hs, h.congr hs fun p hp => ?_, nofun, absurd hplaced⟩
      exact nomatch hp.symm.trans hnone
    | some p =>
      have hp := hplaced p hnext
      obtain ⟨y, hy, hm⟩ := h.toLinked.enumerate herr hnext (h.saved p hnext).2.2 hp
      refine ⟨some p, y, hy, hm.toSameList, h.congr hm.toSameList fun q hq => ?_,
        fun q hq => Option.some.inj hq ▸ hp, absurd hplaced⟩
      have hn := hm.next.symm.trans hq
      refine .inl ⟨mem_of_nextInList hn, ?_⟩
      rw [hm.offset, hn, Option.elim_some]
  · exact ⟨none, x.lock, enumerate_failed herr, ⟨rfl, rfl⟩,
      h.congr ⟨rfl, rfl⟩ fun p hp => .inr ⟨hp, rfl⟩, nofun, fun _ => herr⟩

theorem step {c : EnumCall} (hc : x.Undisturbed c) :
    x.Right c ∧ ∀ ev y, x.step c = some (ev, y) → y.Tracked := by
  cases c with
  | enumerate =>
    obtain ⟨o, y, hy, hs, ht, ho, herr⟩ := h.enumerate (hc rfl)
    have hstep : x.step .enumerate = some ([o], y) := by
      rw [Enumeration.step, hy]
      rfl
    refine ⟨⟨[o], y, hstep, fun p hp => ?_, fun _ => herr⟩, fun ev z hz => ?_⟩
    · have hp := ho p (mem_singleton.mp hp).symm
      obtain ⟨e, he⟩ := h.exists_cell p hp
      rw [hs.list, hs.memory, he]
      exact ⟨hp, nofun⟩
    · obtain ⟨-, rfl⟩ := Prod.mk.inj (Option.mem_unique hstep hz)
      exact ht
  | seek offset =>
    have hstep : x.step (.seek offset) = some ([], x.synced.sought offset) := by
      rw [Enumeration.step, h.toLinked.seekDirectory]
      rfl
    refine ⟨⟨_, _, hstep, nofun, nofun⟩, fun ev z hz => ?_⟩
    obtain ⟨-, rfl⟩ := Prod.mk.inj (Option.mem_unique hstep hz)
    exact h.synced.sought offset
  | insert i name =>
    refine ⟨⟨_, _, rfl, nofun, nofun⟩, fun ev z hz => ?_⟩
    obtain ⟨-, rfl⟩ := Prod.mk.inj (Option.some.inj hz)
    exact h.insert
  | delete name =>
    refine ⟨⟨_, _, rfl, nofun, nofun⟩, fun ev z hz => ?_⟩
    obtain ⟨-, rfl⟩ := Prod.mk.inj (Option.some.inj hz)
    exact h.delete

/-- An enumeration whose entry was deleted reads it after it was freed. -/
theorem undisturbed_of_right {c : EnumCall} (hr : x.Right c) : x.Undisturbed c := by
  rintro rfl herr p hp
  obtain ⟨hmem, -, hoff⟩ := h.saved p hp
  refine hmem.resolve_right fun hfreed => ?_
  obtain ⟨y, hy, hs, hnext, -⟩ := h.toLinked.enumerate_eq herr hp hoff
  obtain ⟨ev, z, hz, -⟩ := hr
  have hread : read p y = none := by
    rw [read, hs.memory, hfreed]
    rfl
  have hnone : returnEntry y = none := by
    rw [returnEntry, get_bind, hnext]
    exact bind_none (bind_none hread)
  rw [Enumeration.step, hy, hnone] at hz
  cases hz

end Tracked

end Kept

/-- The context is new. -/
def fresh (x : Enumeration) : Enumeration :=
  synced { x with context := ⟨none, 0, x.epoch, 0⟩ }

theorem Linked.newContext {x : Enumeration} (h : x.Linked) :
    bitbucketInitalizeDirectoryEnumerationContext x =
      if x.list = [] then none else some ((), x.fresh.place x.list.head?) := by
  have hlink : Linked { x with context := ⟨none, 0, x.epoch, 0⟩ } := h.congr ⟨rfl, rfl⟩
  have hseek : bitbucketSeekDirectory 0 { x with context := ⟨none, 0, x.epoch, 0⟩ } =
      some ((x.fresh.place x.list.head?).context.lastError, x.fresh.place x.list.head?) := by
    rw [hlink.seekDirectory, sought, if_pos rfl]
    rfl
  rw [bitbucketInitalizeDirectoryEnumerationContext, modify_bind, bind_some hseek]
  cases x.list with
  | nil => exact assert_neg (show ENOENT ≠ 0 by decide) _
  | cons p ps => exact assert_pos (show (0 : Int) = 0 from rfl) _

end Enumeration

open Enumeration in
/-- From a new context on, every call is right exactly if no enumeration that
goes on has lost its entry to a deletion. -/
theorem enumeration_right_iff {x y : Enumeration} (hx : x.Linked)
    (hy : Enumeration.bitbucketInitalizeDirectoryEnumerationContext x = some ((), y))
    (cs : List EnumCall) : Along Enumeration.step Right y cs ↔
      Along Enumeration.step Undisturbed y cs := by
  have hstart : y.Tracked := by
    have hnew : x.fresh.Tracked := ⟨hx.congr ⟨rfl, rfl⟩, fun _ hp => nomatch hp⟩
    rw [hx.newContext] at hy
    split at hy
    · cases hy
    · obtain ⟨-, rfl⟩ := Prod.mk.inj (Option.some.inj hy)
      exact hnew.place fun p hp => mem_of_head? hp
  constructor
  · exact along_of_along (fun x c (h : x.Tracked) => h.undisturbed_of_right)
      (fun x c ev z h hr => (h.step (h.undisturbed_of_right hr)).2 ev z) hstart
  · exact along_of_along (fun x c (h : x.Tracked) hc => (h.step hc).1)
      (fun x c ev z h hc => (h.step hc).2 ev z) hstart

namespace Enumeration

/-- A directory without entries. -/
def empty : Enumeration := ⟨[], .empty, 0, ⟨none, 0, 0, 0⟩⟩

theorem linked_empty : empty.Linked := ⟨nofun, nodup_nil⟩

end Enumeration

open Enumeration in
/-- A directory with two entries, of which the one that the context is not at
is deleted. -/
theorem enumeration_right_iff_two : ∃ y, Enumeration.bitbucketInitalizeDirectoryEnumerationContext
      ((empty.bitbucketInsertDirectoryEntry 1 ['a']).bitbucketInsertDirectoryEntry
        2 ['b']) = some ((), y) ∧
    Along Enumeration.step Right y [.delete ['a'], .enumerate, .enumerate] := by
  have hlinked : ((empty.bitbucketInsertDirectoryEntry 1 ['a']).bitbucketInsertDirectoryEntry
      2 ['b']).Linked := linked_empty.insert.insert
  refine ⟨_, rfl, (enumeration_right_iff hlinked rfl _).mpr ?_⟩
  exact along_of_decide (by decide +kernel)

open Enumeration in
/-- The entry that the context is at is deleted, and used after that. -/
theorem enumerate_deleted_entry : ∃ y, Enumeration.bitbucketInitalizeDirectoryEnumerationContext
      (empty.bitbucketInsertDirectoryEntry 1 ['a']) = some ((), y) ∧
    y.context.lastError = 0 ∧
    Machine.run Enumeration.step y [.delete ['a'], .enumerate] = none :=
  ⟨_, rfl, rfl, by decide +kernel⟩

end Finesse.Bitbucket
