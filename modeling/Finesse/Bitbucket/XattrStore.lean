import Finesse.Lib.Blocks
import Finesse.Lib.Machine
import Finesse.Lib.Prog
import Finesse.Utils.Trie

/-!
# The store of extended attributes

`xattr.c` keeps the attributes of an inode as blocks of memory that a list and
a trie by name both point to. `BitbucketInsertExtendedAttribute` has one
pointer for the attribute it searches for and for the one it makes, and frees
what the pointer is left with: a name that is there already costs the stored
attribute its memory, while the list and the trie keep pointing to it.

A use of an attribute that was freed is `none`, as a failed assertion is. An
attribute may find no memory; the nodes of the trie, for which the source does
not look, always do.
-/

namespace Finesse.Bitbucket

open Prog Machine List

/-- `bitbucket_xattr_t`. -/
structure Xattr where
  name : List UInt8
  data : List UInt8
deriving DecidableEq, Repr

/-- `ExtendedAttributes` and `ExtendedAttributeTrie` of an inode, with the
memory that they point to. -/
structure Xattrs where
  list : List Nat
  trie : Trie UInt8 Nat
  memory : Blocks Xattr

namespace Xattrs

/-- `BitbucketInitializeExtendedAttributes`. -/
def initial : Xattrs where
  list := []
  trie := .null
  memory := .empty

/-- An attribute is read, so it must be there. -/
def read (p : Nat) : Prog Xattrs Xattr := fun xs =>
  (xs.memory.cell p).map fun x => (x, xs)

/-- `free`, which must not be called twice. -/
def free (p : Nat) : Prog Xattrs Unit := do
  let xs ← get
  assert ((xs.memory.cell p).isSome = true)
  modify fun xs => { xs with memory := xs.memory.free p }

/-- A new attribute, at the head of the list. -/
def insert (xs : Xattrs) (x : Xattr) : Xattrs where
  list := xs.memory.next :: xs.list
  trie := xs.trie.insert x.name xs.memory.next
  memory := xs.memory.malloc x

end Xattrs

/-- `BitbucketInsertExtendedAttribute`. The lock of the inode is tried shared,
which must fail, so it has to be held exclusively. `room` says whether there
is memory for the attribute. -/
def bitbucketInsertExtendedAttribute (exclusive room : Bool)
    (name data : List UInt8) : Prog Xattrs Int :=
  if name = [] then pure EINVAL
  else do
    assert (exclusive = true)
    modify fun xs => { xs with trie := trieOrNew xs.trie }
    let xs ← get
    match xs.trie.search name with
    | some p => do
      -- the pointer is not null, so what it points to is freed
      Xattrs.free p
      pure EEXIST
    | none =>
      if room then do
        modify fun xs => xs.insert ⟨name, data⟩
        pure 0
      else pure ENOMEM

/-- `BitbucketLookupExtendedAttribute`: the status and the data. -/
def bitbucketLookupExtendedAttribute (name : List UInt8) : Prog Xattrs (Int × List UInt8) := do
  let xs ← get
  match xs.trie.search name with
  | none => pure (ENODATA, [])
  | some p => do
    let x ← Xattrs.read p
    pure (0, x.data)

def bitbucketRemoveExtendedAttribute (name : List UInt8) : Prog Xattrs Int := do
  let xs ← get
  match xs.trie.search name with
  | none => pure ENOENT
  | some p => do
    assert ((trieDeletion xs.trie name).1 = 0)
    let _ ← Xattrs.read p
    modify fun xs => { xs with
      trie := (trieDeletion xs.trie name).2, list := xs.list.erase p }
    Xattrs.free p
    pure 0

/-- The loop of `BitbucketDestroyExtendedAttributes`, over what is on the
list. -/
def destroyExtendedAttributes : List Nat → Prog Xattrs Unit
  | [] => pure ()
  | p :: ps => do
    let x ← Xattrs.read p
    let xs ← get
    assert ((trieDeletion xs.trie x.name).1 = 0)
    modify fun xs => { xs with trie := (trieDeletion xs.trie x.name).2, list := ps }
    Xattrs.free p
    destroyExtendedAttributes ps

def bitbucketDestroyExtendedAttributes : Prog Xattrs Unit := do
  let xs ← get
  destroyExtendedAttributes xs.list

/-! ## Sequences of calls -/

/-- A call, with the locks that it requires. -/
inductive XattrCall where
  | insert (room : Bool) (name data : List UInt8)
  | lookup (name : List UInt8)
  | remove (name : List UInt8)
  | destroy
deriving DecidableEq, Repr

/-- What a call returns: the status, and the data of a lookup. -/
abbrev XattrReturn := Int × List UInt8

/-- One call on the attributes of an inode. -/
def Xattrs.step (xs : Xattrs) : XattrCall → Option (List XattrReturn × Xattrs)
  | .insert room name data =>
    (bitbucketInsertExtendedAttribute true room name data xs).map fun r =>
      ([(r.1, [])], r.2)
  | .lookup name =>
    (bitbucketLookupExtendedAttribute name xs).map fun r => ([r.1], r.2)
  | .remove name =>
    (bitbucketRemoveExtendedAttribute name xs).map fun r => ([(r.1, [])], r.2)
  | .destroy => (bitbucketDestroyExtendedAttributes xs).map fun r => ([], r.2)

namespace Xattrs

/-- The list and the trie have the same attributes, which are there, once in
each. -/
structure Shared (xs : Xattrs) : Prop where
  trie : ∀ name p, xs.trie.search name = some p → xs.memory.cell p ≠ none ∧ xs.list.count p = 1
  list : ∀ p ∈ xs.list, xs.memory.cell p ≠ none ∧ ∃! name, xs.trie.search name = some p

/-- The call returns and leaves attributes that are shared; destruction leaves
no trie, and an insertion that fails leaves the attribute readable that was
there. -/
def Right (xs : Xattrs) (c : XattrCall) : Prop :=
  ∃ rs xs', xs.step c = some (rs, xs') ∧ xs'.Shared ∧ (c = .destroy → xs'.trie = .null) ∧
    ∀ room name data, c = .insert room name data → rs = [(EEXIST, [])] →
      ∃ value, bitbucketLookupExtendedAttribute name xs = some ((0, value), xs) ∧
        bitbucketLookupExtendedAttribute name xs' = some ((0, value), xs')

/-- The name that is inserted is not there, and what is destroyed is not the
empty root that an insertion without memory has left behind. -/
def Safe (xs : Xattrs) : XattrCall → Prop
  | .insert _ name _ => xs.trie.search name = none
  | .destroy => xs.trie ≠ .createNode
  | .lookup _ | .remove _ => True

/-! ## Attributes that are intact -/

/-- The name of the attribute at an address. -/
def nameAt (xs : Xattrs) (p : Nat) : List UInt8 :=
  ((xs.memory.cell p).map Xattr.name).getD []

/-- The trie indexes the list, whose attributes are there and have names, and
has no useless nodes, or only one. -/
structure Intact (xs : Xattrs) : Prop where
  index : xs.trie.Indexes xs.nameAt xs.list
  live : ∀ p ∈ xs.list, ∃ x, xs.memory.cell p = some x ∧ x.name ≠ []
  compact : xs.trie.Compact ∨ xs.trie = .createNode

theorem intact_initial : initial.Intact := ⟨.null _, nofun, .inl trivial⟩

variable {x : Xattr}

theorem nameAt_eq {xs : Xattrs} {p : Nat}
    (h : xs.memory.cell p = some x) : xs.nameAt p = x.name := by
  rw [nameAt, h]
  rfl

namespace Intact

variable {xs : Xattrs} {p : Nat} {name data : List UInt8}

variable (h : xs.Intact)
include h

theorem nodup : xs.list.Nodup := h.index.nodup.of_map

theorem shared : xs.Shared := by
  have hlive : ∀ p ∈ xs.list, xs.memory.cell p ≠ none := by
    intro p hp
    obtain ⟨x, hx, -⟩ := h.live p hp
    rw [hx]
    nofun
  refine ⟨fun name p hs => ?_, fun p hp => ⟨hlive p hp, ?_⟩⟩
  · have hp := (h.index.of_search hs).1
    exact ⟨hlive p hp, count_eq_one_of_mem h.nodup hp⟩
  · exact ⟨xs.nameAt p, h.index.search_of_mem hp, fun name hs =>
      (h.index.of_search hs).2.symm⟩

theorem of_search (hs : xs.trie.search name = some p) :
    p ∈ xs.list ∧ ∃ x, xs.memory.cell p = some x ∧ x.name = name ∧ name ≠ [] := by
  obtain ⟨hp, hname⟩ := h.index.of_search hs
  obtain ⟨x, hx, hne⟩ := h.live p hp
  rw [nameAt_eq hx] at hname
  exact ⟨hp, x, hx, hname, hname ▸ hne⟩

theorem insert (hname : name ≠ [])
    (hnew : xs.trie.search name = none) : (xs.insert ⟨name, data⟩).Intact := by
  have hcell : ∀ p ∈ xs.list, (xs.memory.malloc ⟨name, data⟩).cell p =
      xs.memory.cell p := by
    intro p hp
    obtain ⟨x, hx, -⟩ := h.live p hp
    exact Blocks.cell_malloc (by rw [hx]; nofun)
  have hindex : xs.trie.Indexes (xs.insert ⟨name, data⟩).nameAt xs.list := by
    refine h.index.congr_key fun p hp => ?_
    rw [nameAt, nameAt, show (xs.insert ⟨name, data⟩).memory.cell p = _ from hcell p hp]
  have hself : (xs.insert ⟨name, data⟩).nameAt xs.memory.next = name :=
    nameAt_eq (x := ⟨name, data⟩) Blocks.cell_malloc_next
  have hcompact : (xs.trie.insert name xs.memory.next).Compact := by
    rcases h.compact with hc | hc
    · exact hc.insert _ _
    · rw [hc]
      exact compact_insert_createNode hname _
  refine ⟨?_, ?_, .inl hcompact⟩
  · have hins := hindex.insert (a := xs.memory.next) (by rw [hself]; exact hnew)
    rw [hself] at hins
    exact hins
  · refine forall_mem_cons.mpr ⟨⟨_, Blocks.cell_malloc_next, hname⟩, ?_⟩
    intro p hp
    obtain ⟨x, hx, hne⟩ := h.live p hp
    exact ⟨x, (hcell p hp).trans hx, hne⟩

theorem drop (hs : xs.trie.search name = some p) :
    Intact ⟨xs.list.erase p, xs.trie.delete name, xs.memory.free p⟩ := by
  obtain ⟨hp, x, hx, hname, hne⟩ := h.of_search hs
  have herase : xs.list.erase p = xs.list.filter fun q => xs.nameAt q ≠ name := by
    rw [h.nodup.erase_eq_filter]
    refine filter_congr fun q hq => ?_
    rw [Bool.eq_iff_iff, bne_iff_ne, decide_eq_true_iff, not_iff_not, ← hname, ← nameAt_eq hx]
    exact ⟨congrArg _, fun heq => inj_on_of_nodup_map h.index.nodup hq hp heq⟩
  have hcell : ∀ q ∈ xs.list.erase p, (xs.memory.free p).cell q = xs.memory.cell q :=
    fun q hq => Blocks.cell_free (h.nodup.mem_erase_iff.mp hq).1
  have hcompact : (xs.trie.delete name).Compact := by
    rcases h.compact with hc | hc
    · exact hc.delete _
    · rw [hc, Trie.search_createNode] at hs
      cases hs
  refine ⟨?_, ?_, .inl hcompact⟩
  · have hdelete : (xs.trie.delete name).Indexes xs.nameAt (xs.list.erase p) := by
      rw [herase]
      exact h.index.delete name
    refine hdelete.congr_key fun q hq => ?_
    rw [nameAt, nameAt, show (Xattrs.mk _ _ (xs.memory.free p)).memory.cell q = _ from hcell q hq]
  · intro q hq
    obtain ⟨y, hy, hne⟩ := h.live q (mem_of_mem_erase hq)
    exact ⟨y, (hcell q hq).trans hy, hne⟩

theorem orNew : Intact { xs with trie := trieOrNew xs.trie } := by
  refine ⟨h.index.congr (search_trieOrNew _), h.live, ?_⟩
  dsimp only
  rw [trieOrNew]
  split
  · exact .inr rfl
  · exact h.compact

end Intact

/-! ## What the calls do -/

section Calls

variable {xs : Xattrs} {p : Nat} {name data : List UInt8}

theorem read_some (h : xs.memory.cell p = some x) : read p xs = some (x, xs) := by
  rw [read, h]
  rfl

theorem free_some (h : xs.memory.cell p = some x) :
    free p xs = some ((), { xs with memory := xs.memory.free p }) := by
  rw [free, get_bind, bind_some (assert_pos (by rw [h]; rfl) xs)]
  rfl

theorem insert_fresh (room : Bool) (hname : name ≠ []) (hnew : xs.trie.search name = none) :
    bitbucketInsertExtendedAttribute true room name data xs =
      let xs1 := { xs with trie := trieOrNew xs.trie }
      if room then some (0, xs1.insert ⟨name, data⟩) else some (ENOMEM, xs1) := by
  rw [bitbucketInsertExtendedAttribute, if_neg hname,
    bind_some (assert_pos rfl xs), modify_bind, get_bind]
  dsimp only
  rw [search_trieOrNew, hnew]
  cases room <;> rfl

variable (h : xs.Intact)
include h

/-- A name that is there costs the attribute its memory. -/
theorem Intact.insert_present (room : Bool) (hs : xs.trie.search name = some p) :
    bitbucketInsertExtendedAttribute true room name data xs = some (EEXIST, { xs with
        trie := trieOrNew xs.trie, memory := xs.memory.free p }) := by
  obtain ⟨-, x, hx, -, hname⟩ := h.of_search hs
  have hfree : free p { xs with trie := trieOrNew xs.trie } = _ := free_some hx
  rw [bitbucketInsertExtendedAttribute, if_neg hname,
    bind_some (assert_pos rfl xs), modify_bind, get_bind]
  dsimp only
  rw [search_trieOrNew, hs]
  dsimp only
  rw [bind_some hfree]
  rfl

theorem Intact.lookup (name : List UInt8) :
    ∃ r, bitbucketLookupExtendedAttribute name xs = some (r, xs) := by
  rw [bitbucketLookupExtendedAttribute, get_bind]
  cases hs : xs.trie.search name with
  | none => exact ⟨_, rfl⟩
  | some p =>
    obtain ⟨-, x, hx, -⟩ := h.of_search hs
    dsimp only
    rw [bind_some (read_some hx)]
    exact ⟨_, rfl⟩

theorem Intact.remove (name : List UInt8) :
    ∃ status xs', bitbucketRemoveExtendedAttribute name xs = some (status, xs') ∧
      xs'.Intact := by
  rw [bitbucketRemoveExtendedAttribute, get_bind]
  cases hs : xs.trie.search name with
  | none => exact ⟨_, xs, rfl, h⟩
  | some p =>
    obtain ⟨-, x, hx, -, hname⟩ := h.of_search hs
    have hdel := trieDeletion_eq hname (t := xs.trie) (by rw [hs]; nofun)
    have hfree : free p { xs with
      trie := (trieDeletion xs.trie name).2, list := xs.list.erase p } = _ := free_some hx
    refine ⟨0, _, ?_, h.drop hs⟩
    dsimp only
    rw [bind_some (assert_pos (congrArg Prod.fst hdel) xs),
      bind_some (read_some hx), modify_bind, bind_some hfree, hdel]
    rfl

/-- The loop of the destruction goes through the list, and no word is left. -/
theorem Intact.destroy (hcompact : xs.trie.Compact) :
    ∃ xs', destroyExtendedAttributes xs.list xs = some ((), xs') ∧ xs'.Intact ∧
      xs'.trie = .null := by
  induction hl : xs.list generalizing xs with
  | nil =>
    refine ⟨xs, rfl, h, hcompact.eq_null fun str => ?_⟩
    rw [h.index.search, hl]
    rfl
  | cons p ps ih =>
    have hp : p ∈ xs.list := by
      rw [hl]
      exact mem_cons_self
    obtain ⟨x, hx, hname⟩ := h.live p hp
    have hs := h.index.search_of_mem hp
    rw [nameAt_eq hx] at hs
    have hdel := trieDeletion_eq hname (t := xs.trie) (by rw [hs]; nofun)
    have hdrop := h.drop hs
    rw [hl, erase_cons_head] at hdrop
    obtain ⟨xs', hrest, hxs'⟩ := ih hdrop (hcompact.delete _) rfl
    have hfree : free p { xs with
      trie := (trieDeletion xs.trie x.name).2, list := ps } = _ := free_some hx
    refine ⟨xs', ?_, hxs'⟩
    rw [destroyExtendedAttributes, bind_some (read_some hx), get_bind,
      bind_some (assert_pos (congrArg Prod.fst hdel) xs),
      modify_bind, bind_some hfree, hdel]
    exact hrest

theorem Intact.step {c : XattrCall} (hc : xs.Safe c) :
    ∃ rs xs', xs.step c = some (rs, xs') ∧ xs'.Intact ∧ (c = .destroy → xs'.trie = .null) ∧
      ∀ room name data, c = .insert room name data → rs ≠ [(EEXIST, [])] := by
  cases c with
  | insert room name data =>
    rw [Xattrs.step]
    by_cases hname : name = []
    · refine ⟨_, xs, ?_, h, nofun, fun _ _ _ _ =>
        show [(EINVAL, [])] ≠ [(EEXIST, ([] : List UInt8))] by decide⟩
      rw [bitbucketInsertExtendedAttribute, if_pos hname]
      rfl
    have hc : xs.trie.search name = none := hc
    rw [insert_fresh room hname hc]
    cases room with
    | true =>
      refine ⟨_, _, rfl, h.orNew.insert hname ?_, nofun, fun _ _ _ _ =>
        show [(0, [])] ≠ [(EEXIST, ([] : List UInt8))] by decide⟩
      exact (search_trieOrNew _ _).trans hc
    | false =>
      exact ⟨_, _, rfl, h.orNew, nofun, fun _ _ _ _ =>
        show [(ENOMEM, [])] ≠ [(EEXIST, ([] : List UInt8))] by decide⟩
  | lookup name =>
    obtain ⟨r, hr⟩ := h.lookup name
    refine ⟨[r], xs, ?_, h, nofun, nofun⟩
    rw [Xattrs.step, hr]
    rfl
  | remove name =>
    obtain ⟨status, xs', hr, h'⟩ := h.remove name
    refine ⟨[(status, [])], xs', ?_, h', nofun, nofun⟩
    rw [Xattrs.step, hr]
    rfl
  | destroy =>
    obtain ⟨xs', hd, h', hnull⟩ := h.destroy (h.compact.resolve_right hc)
    refine ⟨[], xs', ?_, h', fun _ => hnull, nofun⟩
    rw [Xattrs.step, bitbucketDestroyExtendedAttributes, get_bind, hd]
    rfl

theorem Intact.safe_of_right {c : XattrCall} (hr : xs.Right c) : xs.Safe c := by
  obtain ⟨rs, xs', hstep, hshared, hnull, -⟩ := hr
  cases c with
  | insert room name data =>
    by_contra hs
    obtain ⟨p, hp⟩ := Option.ne_none_iff_exists'.mp hs
    rw [Xattrs.step, h.insert_present room hp] at hstep
    obtain ⟨-, rfl⟩ := Prod.mk.inj (Option.some.inj hstep)
    -- the trie still leads to the attribute that was freed
    exact (hshared.trie name p ((search_trieOrNew _ _).trans hp)).1 Blocks.cell_free_self
  | lookup name => trivial
  | remove name => trivial
  | destroy =>
    intro hroot
    have hlist : xs.list = [] := by
      rw [eq_nil_iff_forall_not_mem]
      intro p hp
      have hs := h.index.search_of_mem hp
      rw [hroot, Trie.search_createNode] at hs
      cases hs
    rw [Xattrs.step, bitbucketDestroyExtendedAttributes, get_bind, hlist] at hstep
    obtain ⟨-, rfl⟩ := Prod.mk.inj (Option.some.inj hstep)
    have hnull := hnull rfl
    rw [hroot] at hnull
    cases hnull

end Calls

end Xattrs

/-- In a sequence of calls on the attributes of an inode every call is right
exactly if every call is safe. -/
theorem attributes_right_iff (cs : List XattrCall) : Along Xattrs.step Xattrs.Right .initial cs ↔
      Along Xattrs.step Xattrs.Safe .initial cs := by
  have hright : ∀ xs c, Xattrs.Intact xs → xs.Safe c → xs.Right c := by
    intro xs c h hc
    obtain ⟨rs, xs', hs, h', hnull, hexist⟩ := h.step hc
    exact ⟨rs, xs', hs, h'.shared, hnull, fun room name data hi he =>
      absurd he (hexist room name data hi)⟩
  have hkeep : ∀ xs c rs xs', Xattrs.Intact xs → xs.Safe c →
      xs.step c = some (rs, xs') → xs'.Intact := by
    intro xs c rs xs' h hc hs
    obtain ⟨_, xs'', hs', h', -⟩ := h.step hc
    obtain ⟨-, rfl⟩ := Prod.mk.inj (Option.mem_unique hs hs')
    exact h'
  constructor
  · exact along_of_along (fun xs c (h : xs.Intact) => h.safe_of_right)
      (fun xs c rs xs' h hr => hkeep xs c rs xs' h (h.safe_of_right hr))
      Xattrs.intact_initial
  · exact along_of_along hright hkeep Xattrs.intact_initial

/-- A name is inserted twice. The second insertion fails and frees the
attribute, and a lookup of it does not return. -/
theorem attribute_inserted_twice : (run Xattrs.step .initial
      [.insert true [97] [1], .insert true [97] [2]]).map Prod.fst = some [(0, []), (EEXIST, [])] ∧
    (run Xattrs.step .initial
      [.insert true [97] [1], .insert true [97] [2], .lookup [97]]).map Prod.fst = none ∧
    ¬ Along Xattrs.step Xattrs.Right .initial
      [.insert true [97] [1], .insert true [97] [2]] := by
  refine ⟨by decide +kernel, by decide +kernel, fun h => ?_⟩
  obtain ⟨rs, xs, hs, hxs, -⟩ :=
    Xattrs.intact_initial.step (c := .insert true [97] [1]) rfl
  have hsafe : xs.trie.search [97] = none := hxs.safe_of_right (h.2 rs xs hs).1
  have hfound : (Xattrs.initial.step (.insert true [97] [1])).map (·.2.trie.search [97]) =
      some (some 0) := by decide +kernel
  rw [hs, Option.map_some, hsafe] at hfound
  cases hfound

end Finesse.Bitbucket
