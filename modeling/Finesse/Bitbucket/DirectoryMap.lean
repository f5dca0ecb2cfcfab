import Finesse.Lib.Machine
import Finesse.Utils.Trie
import Finesse.Bitbucket.Accounts
import Finesse.Bitbucket.Returns

/-!
# A directory is a finite map

`dir.c` keeps the entries of a directory twice, in a list and in a trie by
name. The functions of `Directory` have one list for both; here the trie is a
structure of its own, searched and changed where the source does it, and as
long as it indexes the list the functions with the trie do what those with
the list do.

What a directory is for is the map from names to inodes. The callers hold a
reference on what they insert, so a deletion never takes the last one.
-/

namespace Finesse.Bitbucket

open Volume Machine Prog Function List Ledger

/-! ## The functions with the trie -/

/-- The bytes of a name. -/
def cString (name : Name) : List UInt8 := name.map Char.toUInt8

/-- The name is a string of bytes. -/
def Bytes (name : Name) : Prop := ∀ c ∈ name, c.toNat < 256

instance (name : Name) : Decidable (Bytes name) :=
  decidableBAll (fun c : Char => c.toNat < 256) name

/-- A volume with `Directory.Children` of its directories. -/
structure Indexed where
  volume : Volume
  children : Nat → Trie UInt8 DirEntry

namespace Indexed

def onVolume {α : Type} (f : M α) : Prog Indexed α := fun x =>
  (f x.volume).map fun r => (r.1, { x with volume := r.2 })

/-- `TrieSearch`, which is made for a null trie as well. -/
def search (x : Indexed) (d : Nat) (name : Name) : Option DirEntry :=
  (x.children d).search (cString name)

/-- A trie is made for a directory that has none. -/
def createChildren (x : Indexed) (d : Nat) : Indexed :=
  { x with children := update x.children d (trieOrNew (x.children d)) }

def insertEntry (x : Indexed) (d i : Nat) (name : Name) : Indexed where
  volume := x.volume.insertEntry d i name
  children := update x.children d ((x.children d).insert (cString name)
    ⟨name, i, (x.volume.inode d).epoch⟩)

/-- The status of `TrieDeletion` is not looked at. -/
def removeEntry (x : Indexed) (d : Nat) (name : Name) : Indexed where
  volume := x.volume.removeEntry d name
  children := update x.children d (trieDeletion (x.children d) (cString name)).2

def bitbucketInsertDirectoryEntry (d i : Nat) (name : Name) : Prog Indexed Int := do
  let x ← get
  assert (x.volume.inodeType d = .dir)
  assert (name ≠ [])
  assert (name.length + 1 < 1024)
  onVolume (bitbucketReferenceInode i .dirent)
  onVolume (lockForInsert d i)
  modify fun x => x.createChildren d
  let x ← get
  match x.search d name with
  | some _ => pure EEXIST
  | none => do
    modify fun x => x.insertEntry d i name
    pure 0

def bitbucketLookupObjectInDirectory (d : Nat) (name : Name) : Prog Indexed (Option Nat) := do
  let x ← get
  assert (x.volume.inodeType d = .dir)
  match x.search d name with
  | none => pure none
  | some e => do
    onVolume (bitbucketReferenceInode e.inode .lookup)
    pure (some e.inode)

def removeDirEntryFromDirectory (d : Nat) (name : Name) : Prog Indexed (Option DirEntry) := do
  let x ← get
  assert (x.volume.inodeType d = .dir)
  onVolume (bitbucketLockInode d)
  match x.search d name with
  | none => pure none
  | some e =>
    if e.inode = d then do
      modify fun x => x.removeEntry d name
      pure (some e)
    else do
      onVolume (bitbucketReferenceInode e.inode .removeDirent)
      onVolume (bitbucketLockInode e.inode)
      modify fun x => x.removeEntry d name
      onVolume (dropLink e.inode)
      onVolume (bitbucketDereferenceInode e.inode .removeDirent 1)
      pure (some e)

/-- The part of `BitbucketDeleteDirectoryEntry` for a directory. -/
def detachDirectory (d i : Nat) : Prog Indexed Unit := do
  let de ← removeDirEntryFromDirectory i dotdot
  match de with
  | none => pure ()
  | some e => do
    assert (e.inode = d)
    let x ← get
    assert (x.volume.parent i = some d)
    onVolume (bitbucketDereferenceInode d .dirent 1)
    onVolume (bitbucketDereferenceInode d .parent 1)
    onVolume (modify fun s => s.setParent i none)

def detachIfDirectory (d i : Nat) : Prog Indexed Unit := do
  let x ← get
  if x.volume.inodeType i = .dir then detachDirectory d i else pure ()

def bitbucketDeleteDirectoryEntry (d : Nat) (name : Name) : Prog Indexed Int := do
  let x ← get
  assert (name ≠ [])
  assert (x.volume.inodeType d = .dir)
  let found ← bitbucketLookupObjectInDirectory d name
  match found with
  | none => pure ENOENT
  | some i => do
    let dirent ← removeDirEntryFromDirectory d name
    assert (dirent.isSome = true)
    detachIfDirectory d i
    onVolume (bitbucketDereferenceInode i .lookup 1)
    onVolume (bitbucketDereferenceInode i .dirent 1)
    pure 0

/-! ## The trie and the list are in step -/

/-- The trie of the directory indexes its list. -/
structure InStep (x : Indexed) (d : Nat) : Prop where
  index : (x.children d).Indexes (fun e => cString e.name) (x.volume.entries d)
  bytes : ∀ e ∈ x.volume.entries d, Bytes e.name ∧ e.name ≠ []

end Indexed

theorem Char.toUInt8_inj {a b : Char} (ha : a.toNat < 256) (hb : b.toNat < 256)
    (h : a.toUInt8 = b.toUInt8) : a = b := by
  have h' := congrArg UInt8.toNat h
  rw [Char.toUInt8, Char.toUInt8, UInt32.toNat_toUInt8, UInt32.toNat_toUInt8] at h'
  have ha' : a.val.toNat < 256 := ha
  have hb' : b.val.toNat < 256 := hb
  refine Char.ext (UInt32.toNat.inj ?_)
  omega

theorem cString_inj {a b : Name} (ha : Bytes a) (hb : Bytes b) : cString a = cString b ↔ a = b := by
  refine ⟨fun h => ?_, congrArg cString⟩
  induction a generalizing b with
  | nil => exact (map_eq_nil_iff.mp h.symm).symm
  | cons c a ih =>
    cases b with
    | nil => cases h
    | cons c' b =>
      rw [cString, cString, map_cons, map_cons, List.cons.injEq] at h
      obtain ⟨hc, ha⟩ := forall_mem_cons.mp ha
      obtain ⟨hc', hb⟩ := forall_mem_cons.mp hb
      rw [Char.toUInt8_inj hc hc' h.1, ih ha hb h.2]

namespace Indexed

section Refinement

variable {x y : Indexed} {s : Volume} {d i : Nat} {name : Name}

theorem onVolume_some {α : Type} {f : M α} {a : α} (h : f x.volume = some (a, s)) :
    onVolume f x = some (a, { x with volume := s }) := by
  rw [onVolume, h]
  rfl

theorem InStep.congr (h : x.InStep d) (hc : y.children d = x.children d)
    (he : y.volume.entries d = x.volume.entries d) : y.InStep d := by
  refine ⟨?_, ?_⟩
  · rw [hc, he]
    exact h.index
  · rw [he]
    exact h.bytes

theorem InStep.search (h : x.InStep d) (hname : Bytes name) :
    x.search d name = findEntry (x.volume.entries d) name := by
  rw [Indexed.search, h.index.search, findEntry, ← List.head?_filter, ← List.head?_filter]
  refine congrArg List.head? (filter_congr fun e he => ?_)
  rw [decide_eq_decide]
  exact cString_inj (h.bytes e he).1 hname

theorem InStep.createChildren (h : x.InStep d) : (x.createChildren d).InStep d := by
  refine ⟨?_, h.bytes⟩
  rw [Indexed.createChildren]
  dsimp only
  rw [update_self]
  exact h.index.congr (search_trieOrNew _)

theorem insertEntry_entries (s : Volume) (d i : Nat) (name : Name) :
    (s.insertEntry d i name).entries d = ⟨name, i, (s.inode d).epoch⟩ :: s.entries d := by
  rw [Volume.insertEntry]
  split <;> exact update_self _ _ _

theorem InStep.insertEntry (h : x.InStep d) (hname : Bytes name) (hne : name ≠ [])
    (hnew : findEntry (x.volume.entries d) name = none) : (x.insertEntry d i name).InStep d := by
  refine ⟨?_, ?_⟩
  · rw [Indexed.insertEntry]
    dsimp only
    rw [update_self, insertEntry_entries]
    refine h.index.insert (a := ⟨name, i, (x.volume.inode d).epoch⟩) ?_
    exact (h.search hname).trans hnew
  · rw [Indexed.insertEntry]
    dsimp only
    rw [insertEntry_entries]
    exact forall_mem_cons.mpr ⟨⟨hname, hne⟩, h.bytes⟩

theorem InStep.removeEntry (h : x.InStep d) (hname : Bytes name) (hne : name ≠ []) :
    (x.removeEntry d name).InStep d := by
  have hentries : (x.volume.removeEntry d name).entries d =
      (x.volume.entries d).filter fun e => cString e.name ≠ cString name := by
    rw [Volume.removeEntry, Volume.setEntries]
    dsimp only
    rw [update_self]
    refine filter_congr fun e he => ?_
    rw [decide_eq_decide, not_iff_not, cString_inj (h.bytes e he).1 hname]
  have hstr : cString name ≠ [] := fun h0 => hne (map_eq_nil_iff.mp h0)
  refine ⟨?_, ?_⟩
  · rw [Indexed.removeEntry]
    dsimp only
    rw [update_self, hentries]
    refine (h.index.delete (cString name)).congr fun str => ?_
    exact search_trieDeletion hstr str
  · rw [Indexed.removeEntry]
    dsimp only
    rw [hentries]
    exact fun e he => h.bytes e (mem_of_mem_filter he)

end Refinement

/-- In every directory the trie and the list are in step. -/
def Sound (x : Indexed) : Prop := ∀ d, x.InStep d

/-! ## The functions with the list are refined -/

/-- What `g` does with the lists, `f` does with the tries as well. -/
def Refines {α : Type} (x : Indexed) (f : Prog Indexed α) (g : M α) : Prop :=
  ∀ a s, g x.volume = some (a, s) → ∃ y, f x = some (a, y) ∧ y.volume = s ∧ y.Sound

namespace Refines

variable {α β : Type} {x : Indexed} {f : Prog Indexed α} {g : M α}

theorem pure (hx : x.Sound) (a : α) : Refines x (Pure.pure a) (Pure.pure a) := by
  intro b s h
  obtain ⟨rfl, rfl⟩ := pure_inv h
  exact ⟨x, rfl, rfl, hx⟩

theorem bind {f' : α → Prog Indexed β} {g' : α → M β} (h : Refines x f g)
    (h' : ∀ a y, y.Sound → Refines y (f' a) (g' a)) : Refines x (f >>= f') (g >>= g') := by
  intro b s hs
  obtain ⟨a, s1, hg, hs⟩ := bind_inv hs
  obtain ⟨y, hf, rfl, hy⟩ := h a s1 hg
  obtain ⟨z, hf', rfl, hz⟩ := h' a y hy b s hs
  exact ⟨z, (bind_some hf).trans hf', rfl, hz⟩

theorem get_bind {f : Indexed → Prog Indexed α} {g : Volume → M α}
    (h : Refines x (f x) (g x.volume)) : Refines x (get >>= f) (get >>= g) :=
  h

theorem assert_bind {p : Prop} [Decidable p] {f : Unit → Prog Indexed α} {g : Unit → M α}
    (h : p → Refines x (f ()) (g ())) : Refines x (assert p >>= f) (assert p >>= g) := by
  intro a s hs
  obtain ⟨hp, hs⟩ := assert_bind_inv hs
  obtain ⟨y, hf, hy⟩ := h hp a s hs
  exact ⟨y, (bind_some (assert_pos hp x)).trans hf, hy⟩

variable {k : Indexed → Indexed}

theorem modify_bind {k' : Volume → Volume} {f : Unit → Prog Indexed α}
    {g : Unit → M α} (hk : (k x).volume = k' x.volume) (h : Refines (k x) (f ()) (g ())) :
    Refines x (modify k >>= f) (modify k' >>= g) := by
  intro a s hs
  have hs := modify_bind_inv hs
  rw [← hk] at hs
  exact h a s hs

theorem modify_left {f : Unit → Prog Indexed α}
    (hk : (k x).volume = x.volume) (h : Refines (k x) (f ()) g) : Refines x (modify k >>= f) g := by
  intro a s hs
  rw [← hk] at hs
  exact h a s hs

theorem onVolume (hx : x.Sound) (hg : Keeps (fun s s' => s'.entries = s.entries) g) :
    Refines x (onVolume g) g := by
  intro a s hs
  refine ⟨_, onVolume_some hs, rfl, fun d => (hx d).congr rfl ?_⟩
  exact congrFun (hg _ _ _ hs) d

end Refines

section Functions

variable {x : Indexed} {d i : Nat} {name : Name} {r : Reason}

theorem keeps_reference : Keeps (fun s s' => s'.entries = s.entries)
    (bitbucketReferenceInode i r) := by
  intro s u s' h
  rw [(reference_inv h).2.2.2]
  rfl

theorem keeps_dereference {bias : Nat} : Keeps (fun s s' => s'.entries = s.entries)
      (bitbucketDereferenceInode i r bias) := by
  intro s u s' h
  obtain ⟨-, -, -, h⟩ := dereference_inv h
  split at h
  · rw [h.2]
    rfl
  · rw [h]
    rfl

theorem keeps_lockInode : Keeps (fun s s' => s'.entries = s.entries) (bitbucketLockInode i) := by
  intro s u s' h
  rw [(lockInode_inv h).2]
  rfl

theorem keeps_lockForInsert : Keeps (fun s s' => s'.entries = s.entries) (lockForInsert d i) := by
  intro s u s' h
  rw [lockForInsert] at h
  split at h
  · rw [(lockTwoInodes_inv h).2.2.2]
    rfl
  · exact keeps_lockInode _ _ _ h

theorem keeps_dropLink : Keeps (fun s s' => s'.entries = s.entries) (dropLink i) := by
  intro s u s' h
  obtain ⟨-, h⟩ := assert_bind_inv (get_bind_inv h)
  rw [modify_inv h]
  rfl

variable (hx : x.Sound)
include hx

theorem Sound.of_inStep {y : Indexed} (hc : ∀ e, e ≠ d → y.children e = x.children e)
    (hv : ∀ e, e ≠ d → y.volume.entries e = x.volume.entries e) (hd : y.InStep d) : y.Sound := by
  intro e
  by_cases he : e = d
  · rw [he]
    exact hd
  · exact (hx e).congr (hc e he) (hv e he)

theorem Sound.createChildren : (x.createChildren d).Sound :=
  hx.of_inStep (fun _ he => update_of_ne he _ _) (fun _ _ => rfl) (hx d).createChildren

theorem Sound.insertEntry (hname : Bytes name) (hne : name ≠ [])
    (hnew : findEntry (x.volume.entries d) name = none) : (x.insertEntry d i name).Sound := by
  refine hx.of_inStep (fun e he => ?_) (fun e he => ?_) ((hx d).insertEntry hname hne hnew)
  · exact update_of_ne he _ _
  show (x.volume.insertEntry d i name).entries e = x.volume.entries e
  rw [Volume.insertEntry]
  split <;> exact update_of_ne he _ _

theorem Sound.removeEntry (hname : Bytes name) (hne : name ≠ []) :
    (x.removeEntry d name).Sound := by
  refine hx.of_inStep (fun e he => ?_) (fun e he => ?_) ((hx d).removeEntry hname hne)
  · exact update_of_ne he _ _
  · exact update_of_ne he _ _

theorem refines_insertDirectoryEntry (hname : Bytes name) :
    Refines x (bitbucketInsertDirectoryEntry d i name)
      (Bitbucket.bitbucketInsertDirectoryEntry d i name) := by
  refine .get_bind (.assert_bind fun _ => .assert_bind fun hne =>
    .assert_bind fun _ => ?_)
  refine (Refines.onVolume hx keeps_reference).bind fun _ y hy => ?_
  refine (Refines.onVolume hy keeps_lockForInsert).bind fun _ z hz => ?_
  refine .modify_left rfl (.get_bind ?_)
  have hz := hz.createChildren (d := d)
  rw [(hz d).search hname]
  cases hc : findEntry ((z.createChildren d).volume.entries d) name with
  | some e => exact .pure hz _
  | none => exact .modify_bind rfl (.pure (hz.insertEntry hname hne hc) _)

theorem refines_lookupObjectInDirectory (hname : Bytes name) :
    Refines x (bitbucketLookupObjectInDirectory d name)
      (Bitbucket.bitbucketLookupObjectInDirectory d name) := by
  refine .get_bind (.assert_bind fun _ => ?_)
  rw [(hx d).search hname]
  cases findEntry (x.volume.entries d) name with
  | none => exact .pure hx _
  | some e =>
    exact (Refines.onVolume hx keeps_reference).bind fun _ y hy => .pure hy _

theorem refines_removeDirEntryFromDirectory (hname : Bytes name)
    (hne : name ≠ []) : Refines x (removeDirEntryFromDirectory d name)
      (Bitbucket.removeDirEntryFromDirectory d name) := by
  refine .get_bind (.assert_bind fun _ => ?_)
  refine (Refines.onVolume hx keeps_lockInode).bind fun _ y hy => ?_
  rw [(hx d).search hname]
  cases findEntry (x.volume.entries d) name with
  | none => exact .pure hy _
  | some e =>
    dsimp only
    split
    · exact .modify_bind rfl (.pure (hy.removeEntry hname hne) _)
    refine (Refines.onVolume hy keeps_reference).bind fun _ z hz => ?_
    refine (Refines.onVolume hz keeps_lockInode).bind fun _ z hz => ?_
    refine .modify_bind rfl ?_
    have hz := hz.removeEntry (d := d) hname hne
    refine (Refines.onVolume hz keeps_dropLink).bind fun _ z hz => ?_
    exact (Refines.onVolume hz keeps_dereference).bind fun _ z hz => .pure hz _

theorem refines_detachIfDirectory :
    Refines x (detachIfDirectory d i) (Bitbucket.detachIfDirectory d i) := by
  refine .get_bind ?_
  split
  · refine (refines_removeDirEntryFromDirectory hx (by decide)
      (by decide)).bind fun o y hy => ?_
    cases o with
    | none => exact .pure hy ()
    | some e =>
      refine .assert_bind fun _ => .get_bind (.assert_bind fun _ => ?_)
      refine (Refines.onVolume hy keeps_dereference).bind fun _ z hz => ?_
      refine (Refines.onVolume hz keeps_dereference).bind fun _ z hz => ?_
      refine Refines.onVolume hz fun s u s' h => ?_
      rw [modify_inv h]
      rfl
  · exact .pure hx ()

theorem refines_deleteDirectoryEntry (hname : Bytes name) :
    Refines x (bitbucketDeleteDirectoryEntry d name)
      (Bitbucket.bitbucketDeleteDirectoryEntry d name) := by
  refine .get_bind (.assert_bind fun hne => .assert_bind fun _ => ?_)
  refine (refines_lookupObjectInDirectory hx hname).bind fun o y hy => ?_
  cases o with
  | none => exact .pure hy _
  | some i =>
    refine (refines_removeDirEntryFromDirectory hy hname hne).bind fun o y hy => ?_
    refine .assert_bind fun _ => ?_
    refine (refines_detachIfDirectory hy).bind fun _ y hy => ?_
    refine (Refines.onVolume hy keeps_dereference).bind fun _ y hy => ?_
    exact (Refines.onVolume hy keeps_dereference).bind fun _ y hy => .pure hy _

end Functions

end Indexed

/-! ## Calls that return -/

/-- What the calls on the directory `d` rely on: the counts of references are
right, with `o` for what the callers hold, who hold the directory; a file or
link has as many links as the directory has entries for it, and can be
freed. -/
structure Stocked (m o : Account) (s : Volume) (d : Nat) : Prop where
  held : Held m o s
  dir : s.inodeType d = .dir
  caller : ∃ r, 0 < o r d
  links : ∀ i, s.inodeType i ≠ .dir →
    ((s.entries d).countP fun e => e.inode = i) ≤ (s.inode i).nlink
  orphans : ∀ i, s.live i = true → s.inodeType i ≠ .dir → s.parent i = none
  files : ∀ i, s.live i = true → s.inodeType i ≠ .dir → s.Disposable i

namespace Stocked

variable {m o : Account} {s s' : Volume} {d i : Nat} {name : Name}

theorem live (h : Stocked m o s d) : s.live d = true := by
  obtain ⟨r, hr⟩ := h.caller
  exact h.held.live_of_pos (r := r) (Nat.lt_of_lt_of_le hr (Nat.le_add_left _ _))

theorem caller_add (h : Stocked m o s d) (a : Account) : ∃ r, 0 < (o + a) r d :=
  h.caller.imp fun _ hr => Nat.lt_of_lt_of_le hr (Nat.le_add_right _ _)

theorem of_tame {o' : Account} (h : Stocked m o s d) (ht : s.Tame s')
    (hheld : Held m o' s') (hcaller : ∃ r, 0 < o' r d)
    (hlinks : ∀ i, s.inodeType i ≠ .dir →
      ((s'.entries d).countP fun e => e.inode = i) ≤ (s'.inode i).nlink) :
    Stocked m o' s' d where
  held := hheld
  dir := (congrFun ht.inodeType d).trans h.dir
  caller := hcaller
  links i hi := hlinks i (by rwa [ht.inodeType] at hi)
  orphans i hl hi := by
    rw [ht.inodeType] at hi
    rw [ht.parent i hi]
    exact h.orphans i (ht.live i hl) hi
  files i hl hi := by
    rw [ht.inodeType] at hi
    exact ht.disposable hi (h.files i (ht.live i hl) hi)

theorem links_same (h : Stocked m o s d) (hs : s.SameLinks s') (hi : s.inodeType i ≠ .dir) :
    ((s'.entries d).countP fun e => e.inode = i) ≤ (s'.inode i).nlink := by
  rw [hs.entries, hs.nlink]
  exact h.links i hi

theorem links_insertEntry {j : Nat} (hne : i ≠ d)
    (hj : ((s.entries d).countP fun e => e.inode = j) ≤ (s.inode j).nlink) :
    (((s.insertEntry d i name).entries d).countP fun e => e.inode = j) ≤
      ((s.insertEntry d i name).inode j).nlink := by
  rw [Indexed.insertEntry_entries, countP_cons, insertEntry, if_pos hne]
  by_cases hij : i = j
  · subst hij
    simpa [setInode, setEntries] using hj
  · simpa [setInode, setEntries, hij, Ne.symm hij] using hj

theorem links_unlinkEntry {e : DirEntry} {j : Nat}
    (hnodup : ((s.entries d).map DirEntry.name).Nodup) (he : findEntry (s.entries d) name = some e)
    (hne : e.inode ≠ d) (hj : ((s.entries d).countP fun e => e.inode = j) ≤ (s.inode j).nlink) :
    (((s.unlinkEntry d name e.inode).entries d).countP fun e => e.inode = j) ≤
      ((s.unlinkEntry d name e.inode).inode j).nlink := by
  have hcount := countP_remove hnodup he j
  have hentries : (s.unlinkEntry d name e.inode).entries d =
      (s.entries d).filter fun e => e.name ≠ name := by
    rw [unlinkEntry, if_neg hne]
    exact update_self _ _ _
  rw [hentries, unlinkEntry, if_neg hne]
  by_cases hij : j = e.inode
  · subst hij
    rw [if_pos rfl] at hcount
    simp only [setInode, update_self]
    show _ ≤ (s.inode e.inode).nlink - 1
    omega
  · rw [if_neg hij, Nat.add_zero] at hcount
    rw [hcount, setInode]
    dsimp only
    rw [update_of_ne hij]
    exact hj

theorem insertDirectoryEntry (h : Stocked m o s d) (hi : s.live i = true)
    (hdir : s.inodeType i ≠ .dir) (hname : Short name) :
    ∃ status s' o', bitbucketInsertDirectoryEntry d i name s = some (status, s') ∧
      Stocked m o' s' d := by
  obtain ⟨status, s', hins⟩ :=
    h.held.counts.returns_insertDirectoryEntry h.dir h.live hi hname
  have htame := Tame.insertDirectoryEntry _ _ _ hins
  have hne : i ≠ d := by
    rintro rfl
    exact hdir h.dir
  have hlinks : ∀ j, s.inodeType j ≠ .dir →
      ((s'.entries d).countP fun e => e.inode = j) ≤ (s'.inode j).nlink := by
    intro j hj
    obtain ⟨s1, hsame, -, -, -, -, -, -, ⟨-, -, rfl⟩ | ⟨-, -, rfl⟩⟩ :=
      insertDirectoryEntry_edit hins
    · exact links_insertEntry hne (h.links_same hsame hj)
    · exact h.links_same hsame hj
  rcases h.held.insertDirectoryEntry hins with ⟨-, hheld⟩ | ⟨-, hheld⟩
  · exact ⟨status, s', o, hins, h.of_tame htame hheld h.caller hlinks⟩
  · exact ⟨status, s', _, hins, h.of_tame htame hheld (h.caller_add _) hlinks⟩

theorem lookupObject (h : Stocked m o s d) (name : Name) :
    ∃ x s' o', bitbucketLookupObjectInDirectory d name s = some (x, s') ∧
      Stocked m o' s' d := by
  obtain ⟨x, s', hl⟩ : Returns (bitbucketLookupObjectInDirectory d name) s :=
    h.held.returns_lookupObject h.dir
  obtain ⟨-, -, hlook⟩ := lookupObject_inv hl
  refine ⟨x, s', _, hl, h.of_tame (Tame.lookupObject _ _ _ hl)
    (h.held.looked hlook) (h.caller_add _) fun i hi => ?_⟩
  rw [hlook.entries, hlook.inode]
  exact h.links i hi

theorem removeDirEntry (h : Stocked m o s d) {e : DirEntry}
    (he : findEntry (s.entries d) name = some e) (hdir : s.inodeType e.inode ≠ .dir) :
    ∃ s', removeDirEntryFromDirectory d name s = some (some e, s') ∧
      Stocked m (o + owe .dirent e.inode 1) s' d := by
  have hne : e.inode ≠ d := fun hed => hdir (by rw [hed]; exact h.dir)
  have hpos : 0 < (s.entries d).countP fun a => a.inode = e.inode :=
    countP_pos_iff.mpr ⟨e, findEntry_mem he, decide_eq_true rfl⟩
  have hlinks : ∀ i, s.child d name = some i → i ≠ d → 0 < (s.inode i).nlink := by
    intro i hi _
    rw [child, he] at hi
    obtain rfl := Option.some.inj hi
    exact Nat.lt_of_lt_of_le hpos (h.links _ hdir)
  obtain ⟨x, s', hr⟩ := h.held.returns_removeDirEntry h.dir h.live hlinks
  have hheld := h.held.removeDirEntryFromDirectory hr
  obtain ⟨hx, hcases⟩ := removeDirEntry_inv hr
  obtain rfl : x = some e := hx.trans he
  refine ⟨s', hr, h.of_tame (Tame.removeDirEntry _ _ _ hr) hheld
    (h.caller_add _) fun j hj => ?_⟩
  obtain ⟨hx, -⟩ | ⟨e', s1, hx, hsame, he1, -, hsame'⟩ := hcases
  · cases hx
  obtain rfl := Option.some.inj hx
  rw [hsame'.entries, hsame'.nlink]
  refine links_unlinkEntry ?_ he1 hne (h.links_same hsame hj)
  rw [hsame.entries]
  exact h.held.nodup d

/-- A reference is dropped that the callers do not need for the directory. -/
theorem dereference {r : Reason} (h : Stocked m (o + owe r i 1) s d) (hdir : s.inodeType i ≠ .dir) :
    ∃ s', bitbucketDereferenceInode i r 1 s = some ((), s') ∧
      s.SameLinks s' ∧ Stocked m o s' d := by
  have hne : d ≠ i := by
    rintro rfl
    exact hdir h.dir
  have hpos : 0 < (s.claimed + (o + owe r i 1)) r i := by
    simp only [add_apply, owe_self]
    omega
  have hi := h.held.live_of_pos hpos
  obtain ⟨⟨⟩, s', hd⟩ := h.held.returns_dereference_disposable hpos (h.files i hi hdir)
  have hheld := h.held.dereference (fun _ => h.orphans i hi hdir) hd
  have hsame := (Quiet.dereference hd).sameLinks
  obtain ⟨q, hq⟩ := h.caller
  rw [add_apply, owe_other 1 fun hqi => hne hqi.2, Nat.add_zero] at hq
  exact ⟨s', hd, hsame, h.of_tame (Tame.dereference _ _ _ hd) hheld ⟨q, hq⟩
    fun j hj => h.links_same hsame hj⟩

theorem deleteDirectoryEntry (h : Stocked m o s d) (hname : name ≠ [])
    (hdir : ∀ i, s.child d name = some i → s.inodeType i ≠ .dir) :
    ∃ status s' o', bitbucketDeleteDirectoryEntry d name s = some (status, s') ∧
      Stocked m o' s' d := by
  obtain ⟨x, s1, hl⟩ : Returns (bitbucketLookupObjectInDirectory d name) s :=
    h.held.returns_lookupObject h.dir
  obtain ⟨-, hx, hlook⟩ := lookupObject_inv hl
  have hheld := h.held.looked hlook
  have hq1 := Quiet.looked hlook
  have h1 := h.of_tame (Tame.lookupObject _ _ _ hl) hheld
    (h.caller_add _) fun i hi => h.links_same hq1.sameLinks hi
  rw [bitbucketDeleteDirectoryEntry, get_bind, bind_some (assert_pos hname s),
    bind_some (assert_pos h.dir s), bind_some hl]
  cases x with
  | none => exact ⟨_, s1, _, rfl, h1⟩
  | some i =>
    obtain ⟨e, he, hei⟩ := Option.map_eq_some_iff.mp hx.symm
    have hi := hdir i hx.symm
    rw [← hei, ← hq1.inodeType] at hi
    obtain ⟨s2, hr, h2⟩ := h1.removeDirEntry (by rw [hq1.entries]; exact he) hi
    rw [Option.elim_some, hei, add_right_comm] at h2
    have hi2 : s2.inodeType i ≠ .dir := by
      rw [(Tame.removeDirEntry _ _ _ hr).inodeType, ← hei]
      exact hi
    obtain ⟨s3, hdl, -, h3⟩ := h2.dereference hi2
    have hi3 : s3.inodeType i ≠ .dir := by
      rw [(Tame.dereference _ _ _ hdl).inodeType]
      exact hi2
    obtain ⟨s4, hde, -, h4⟩ := h3.dereference hi3
    have hdetach : detachIfDirectory d i s2 = some ((), s2) := by
      rw [detachIfDirectory, get_bind, if_neg hi2]
      rfl
    refine ⟨0, s4, o, ?_, h4⟩
    dsimp only
    rw [bind_some hr, bind_some (assert_pos (Option.isSome_some (a := e)) s2),
      bind_some hdetach, bind_some hdl, bind_some hde]
    rfl

end Stocked

/-! ## Sequences of calls -/

/-- A call on one directory. -/
inductive DirCall where
  | insert (i : Nat) (name : Name)
  | lookup (name : Name)
  | delete (name : Name)
deriving DecidableEq, Repr

/-- What a call returns: a status or an inode. -/
inductive DirReturn where
  | status (code : Int)
  | object (i : Option Nat)
deriving DecidableEq, Repr

namespace DirCall

def name : DirCall → Name
  | .insert _ name => name
  | .lookup name => name
  | .delete name => name

/-- The inode that is inserted or deleted is a file or a link, and the name is
one that an entry may have. -/
structure Proper (s : Volume) (d : Nat) (c : DirCall) : Prop where
  short : Short c.name
  bytes : Bytes c.name
  inserted : ∀ i name, c = .insert i name → s.live i = true ∧ s.inodeType i ≠ .dir
  deleted : ∀ i name, c = .delete name → s.child d name = some i → s.inodeType i ≠ .dir

end DirCall

/-- One call on the directory `d`. -/
def Indexed.step (d : Nat) (x : Indexed) (c : DirCall) : Option (List DirReturn × Indexed) :=
  match c with
  | .insert i name =>
    (bitbucketInsertDirectoryEntry d i name x).map fun r => ([.status r.1], r.2)
  | .lookup name =>
    (bitbucketLookupObjectInDirectory d name x).map fun r => ([.object r.1], r.2)
  | .delete name =>
    (bitbucketDeleteDirectoryEntry d name x).map fun r => ([.status r.1], r.2)

/-- A map from names to inodes. -/
abbrev DirMap := Name → Option Nat

/-- One call on the map. -/
def DirMap.step (f : DirMap) : DirCall → Option (List DirReturn × DirMap)
  | .insert i name =>
    if f name = none then some ([.status 0], update f name (some i))
    else some ([.status EEXIST], f)
  | .lookup name => some ([.object (f name)], f)
  | .delete name =>
    if f name = none then some ([.status ENOENT], f)
    else some ([.status 0], update f name none)

/-- The directory stands for the map. -/
structure Indexed.Stands (m : Account) (d : Nat) (x : Indexed) (f : DirMap) :
    Prop where
  stocked : ∃ o, Stocked m o x.volume d
  sound : x.Sound
  map : x.volume.child d = f

theorem Volume.child_of_put {s s' : Volume} {d : Nat} {name : Name} {o : Option Nat}
    (h : s'.names = s.names.put d name o) : s'.child d = update (s.child d) name o := by
  funext n
  have hn := congrFun (congrFun (congrArg Names.child h) d) n
  rw [Names.put_child] at hn
  rw [show s'.child d n = _ from hn, update_apply]
  simp only [true_and]
  rfl

theorem Indexed.step_stands {m : Account} {d : Nat} {x : Indexed} {f : DirMap}
    {c : DirCall} (h : x.Stands m d f) (hc : c.Proper x.volume d) :
    ∃ ev y g, x.step d c = some (ev, y) ∧ DirMap.step f c = some (ev, g) ∧
      y.Stands m d g := by
  obtain ⟨⟨o, hs⟩, hx, rfl⟩ := h
  cases c with
  | insert i name =>
    have hname : Short name := hc.short
    have hbytes : Bytes name := hc.bytes
    obtain ⟨hi, hdir⟩ := hc.inserted i name rfl
    obtain ⟨status, s', o', hins, hs'⟩ := hs.insertDirectoryEntry hi hdir hname
    obtain ⟨y, hy, rfl, hsound⟩ := refines_insertDirectoryEntry hx hbytes _ _ hins
    have hstep : x.step d (.insert i name) = some ([.status status], y) := by
      rw [Indexed.step, hy]
      rfl
    obtain ⟨-, -, ⟨hnone, rfl, hn⟩ | ⟨hsome, rfl, hn⟩⟩ := names_insertDirectoryEntry hins
    · refine ⟨_, y, _, hstep, if_pos hnone, ⟨o', hs'⟩, hsound, ?_⟩
      exact child_of_put hn
    · exact ⟨_, y, _, hstep, if_neg hsome, ⟨o', hs'⟩, hsound, congrFun (congrArg Names.child hn) d⟩
  | lookup name =>
    have hbytes : Bytes name := hc.bytes
    obtain ⟨o, s', o', hl, hs'⟩ := hs.lookupObject name
    obtain ⟨y, hy, rfl, hsound⟩ := refines_lookupObjectInDirectory hx hbytes _ _ hl
    obtain ⟨-, ho, hn⟩ := names_lookupObjectInDirectory hl
    refine ⟨[.object o], y, _, ?_, ?_, ⟨o', hs'⟩, hsound, congrFun (congrArg Names.child hn) d⟩
    · rw [Indexed.step, hy]
      rfl
    · rw [ho]
      rfl
  | delete name =>
    have hname : Short name := hc.short
    have hbytes : Bytes name := hc.bytes
    obtain ⟨status, s', o', hdel, hs'⟩ :=
      hs.deleteDirectoryEntry hname.1 fun i => hc.deleted i name rfl
    obtain ⟨y, hy, rfl, hsound⟩ := refines_deleteDirectoryEntry hx hbytes _ _ hdel
    have hstep : x.step d (.delete name) = some ([.status status], y) := by
      rw [Indexed.step, hy]
      rfl
    obtain ⟨-, ⟨hnone, rfl, hn⟩ | ⟨i, hi, rfl, ⟨hdir, -⟩ | ⟨-, hn⟩⟩⟩ :=
      names_deleteDirectoryEntry hdel
    · exact ⟨_, y, _, hstep, if_pos hnone, ⟨o', hs'⟩, hsound, congrFun (congrArg Names.child hn) d⟩
    · exact absurd hdir (hc.deleted i name rfl hi)
    have hsome : x.volume.child d name ≠ none := by
      rw [show x.volume.child d name = some i from hi]
      nofun
    refine ⟨_, y, _, hstep, if_neg hsome, ⟨o', hs'⟩, hsound, ?_⟩
    exact child_of_put hn

/-- Every sequence of calls on a directory returns what the same calls on a
map from names to inodes return, and leads to the directory that stands for
the map. The words of its trie are then the names in its list, and each is
there once. -/
theorem directory_is_map {m o : Account} {d : Nat} {x : Indexed}
    (hs : Stocked m o x.volume d) (hx : x.Sound) (cs : List DirCall)
    (hcs : Along (Indexed.step d) (fun x c => c.Proper x.volume d) x cs) :
    ∃ rs y, run (Indexed.step d) x cs = some (rs, y) ∧
      run DirMap.step (x.volume.child d) cs = some (rs, y.volume.child d) ∧
      ((y.volume.entries d).map fun e => cString e.name).Nodup ∧
      ∀ str, str ∈ ((y.volume.entries d).map fun e => cString e.name) ↔
        (y.children d).search str ≠ none := by
  have hstep : ∀ x f c, Indexed.Stands m d x f → c.Proper x.volume d →
      ∃ ev y g, x.step d c = some (ev, y) ∧ DirMap.step f c = some (ev, g) ∧
        y.Stands m d g := fun x f c h hc => Indexed.step_stands h hc
  obtain ⟨rs, y, f, hrun, hspec, hy⟩ := run_simulates hstep ⟨⟨o, hs⟩, hx, rfl⟩ hcs
  obtain ⟨-, hsound, rfl⟩ := hy
  exact ⟨rs, y, hrun, hspec, (hsound d).index.nodup, (hsound d).index.mem_keys_iff⟩

/-- A directory and a file that are entered nowhere. -/
def Volume.sparse : Volume :=
  (empty.create .dir ⟨5, 0⟩ false).create .file ⟨6, 0⟩ false

theorem stocked_sparse : Stocked empty.mounted
    (0 + owe .lookup 0 1 + owe .lookup 1 1) sparse 0 := by
  have hdir : Held empty.mounted (0 + owe .lookup 0 1)
      (empty.create .dir ⟨5, 0⟩ false) := held_empty.create rfl
  refine ⟨hdir.create rfl, rfl, ⟨.lookup, by decide⟩, ?_, ?_, ?_⟩
  · intro i _
    exact Nat.zero_le _
  · intro i _ _
    simp [sparse, create, empty]
  intro i hi hne
  rcases i with _ | _ | i
  · exact absurd rfl hne
  · trivial
  · cases hi

/-- The file gets a name and a longer one, and loses the first. -/
def twoNames : List DirCall :=
  [.insert 1 ['f'], .insert 1 ['f', 'g'], .delete ['f'], .lookup ['f'], .lookup ['f', 'g']]

theorem directory_is_map_found : ∃ y, run (Indexed.step 0) ⟨sparse, fun _ => .null⟩ twoNames =
    some ([.status 0, .status 0, .status 0, .object none, .object (some 1)], y) := by
  have hempty : ∀ d, sparse.entries d = [] := by
    intro d
    simp [sparse, create, empty]
  have hsound : (Indexed.mk sparse fun _ => .null).Sound := by
    intro d
    refine ⟨?_, ?_⟩
    · rw [hempty]
      exact .null _
    · rw [hempty]
      simp
  have hproper : Along (Indexed.step 0) (fun x c => c.Proper x.volume 0) ⟨sparse, fun _ => .null⟩
      twoNames := by
    refine along_of_check (p := fun x _ => x.volume.live 1 && x.volume.inodeType 1 ≠ .dir &&
      ∀ i ∈ x.volume.child 0 ['f'], x.volume.inodeType i ≠ .dir) (fun c hc x hx => ?_)
      (by decide +kernel)
    simp only [Bool.and_eq_true, decide_eq_true_eq] at hx
    have hname : Short c.name ∧ Bytes c.name := by
      revert c
      simp [twoNames, Short, Bytes, DirCall.name]
    refine ⟨hname.1, hname.2, ?_, ?_⟩
    · rintro i name rfl
      obtain ⟨rfl, -⟩ | ⟨rfl, -⟩ : i = 1 ∧ _ ∨ i = 1 ∧ _ := by simpa [twoNames] using hc
      · exact hx.1
      · exact hx.1
    · rintro i name rfl
      obtain rfl : name = _ := by simpa [twoNames] using hc
      exact hx.2 i
  obtain ⟨rs, y, hrun, hspec, -⟩ := directory_is_map stocked_sparse hsound twoNames hproper
  have hreplies : rs = [.status 0, .status 0, .status 0, .object none, .object (some 1)] := by
    have h := (congrArg (Option.map Prod.fst) hspec).symm
    exact Option.some.inj h
  exact ⟨y, hreplies ▸ hrun⟩
end Finesse.Bitbucket
