import Finesse.Bitbucket.Removal

/-!
# Renames onto a name that exists

A rename request for a name that exists either replaces the inode under it or,
with `RENAME_EXCHANGE`, exchanges the two. What the handler does before and
after that step, to find and to give back the parents and the inodes under the
names, changes only references for lookups, so the request is that one step.
-/

namespace Finesse.Bitbucket

open Prog Volume Names Machine
open Ledger (owe)

/-! ## Around the step -/

/-- Nothing changes but references for lookups. -/
structure Volume.Untouched (s s' : Volume) : Prop extends Quiet s s' where
  reasons : ∀ i r, r ≠ .lookup → s'.referenceReasons i r = s.referenceReasons i r
  inode : s'.inode = s.inode

/-- The inode has a name, or can be freed. -/
def Volume.Stays (s : Volume) (i : Nat) : Prop :=
  (∃ d n, s.child d n = some i) ∨ s.Discards i

section Untouched

variable {m a : Account} {s s' s'' : Volume} {i : Nat} {u : Unit}

namespace Volume.Untouched

theorem refl (s : Volume) : s.Untouched s := ⟨.refl s, fun _ _ _ => rfl, rfl⟩

theorem trans (h : s.Untouched s') (h' : s'.Untouched s'') : s.Untouched s'' :=
  ⟨h.toQuiet.trans h'.toQuiet, fun i r hr => (h'.reasons i r hr).trans (h.reasons i r hr),
    h'.inode.trans h.inode⟩

theorem stays (h : s.Untouched s') (hi : s.Stays i) : s'.Stays i := by
  rw [Stays, Discards, h.inodeType, h.child, h.inode]
  exact hi

end Volume.Untouched

theorem Volume.Looked.untouched {o : Option Nat} (h : s.Looked s' o) : s.Untouched s' := by
  cases o with
  | none =>
    obtain rfl : s = s' := h
    exact .refl s
  | some i =>
    rw [h.2]
    refine ⟨.of_inode rfl rfl rfl rfl rfl rfl, fun x r hr => ?_, rfl⟩
    by_cases hx : x = i
    · subst hx
      simp [addReferences, hr]
    · simp [addReferences, hx]

theorem untouched_dropLookup (h : dropLookup i s = some (u, s')) : s.Untouched s' := by
  refine ⟨Quiet.dropLookup h, fun x r hr => ?_, dereference_inode h⟩
  have hreasons : s'.referenceReasons = (s.dropReferences i .lookup 1).referenceReasons := by
    have hs := (dereference_inv h).2.2.2
    split at hs
    · rw [hs.2]
      rfl
    · rw [hs]
  rw [hreasons]
  by_cases hx : x = i
  · subst hx
    simp [dropReferences, hr]
  · simp [dropReferences, hx]

theorem Shaped.drop {b : Account} (h : Shaped m b s) (hb : b = a + owe .lookup i 1)
    (hi : s.Stays i) : ∃ s', dropLookup i s = some ((), s') ∧ s.Untouched s' ∧ Shaped m a s' := by
  have hpos : 0 < b .lookup i := by
    rw [hb]
    exact lookup_owe_pos a i
  have hret : Returns (dropLookup i) s := by
    rcases hi with ⟨d, n, hc⟩ | hfree
    · exact h.returns_dropNamed hpos hc
    · exact h.returns_drop hpos hfree
  obtain ⟨⟨⟩, s', hd⟩ := hret
  exact ⟨s', hd, untouched_dropLookup hd, Shaped.calls.dereference (hb ▸ h) hd⟩

theorem Shaped.drop? {o : Option Nat} (h : Shaped m (found a o) s) (ho : ∀ i ∈ o, s.Stays i) :
    ∃ s', dropLookup? o s = some ((), s') ∧ s.Untouched s' ∧ Shaped m a s' := by
  cases o with
  | none => exact ⟨s, rfl, .refl s, h⟩
  | some i => exact h.drop rfl (ho i rfl)

end Untouched

/-- The end of `bitbucket_internal_rename` once both parents are found. -/
def renameDone (p q : Nat) (out : Int × Option Nat × Option Nat) : M (List Reply) := do
  dropLookup p
  dropLookup q
  dropLookup? out.2.1
  dropLookup? out.2.2
  pure [.err out.1]

section Frame

variable {m a : Account} {s : Volume} {parent newparent p q i j : Nat} {name newname : Name}

theorem Shaped.renameDone (status : Int) {o o' : Option Nat}
    (h : Shaped m (found (found (a + owe .lookup p 1 + owe .lookup q 1) o) o') s) (hp : s.Stays p)
    (hq : s.Stays q) (ho : ∀ i ∈ o, s.Stays i) (ho' : ∀ i ∈ o', s.Stays i) :
    ∃ s', Bitbucket.renameDone p q (status, o, o') s = some ([.err status], s') ∧
      s.Untouched s' := by
  obtain ⟨s1, hd1, hu1, h₁⟩ := h.drop (a := found (found (a + owe .lookup q 1) o) o')
    (by rw [add_right_comm, found_add, found_add]) hp
  obtain ⟨s2, hd2, hu2, h2⟩ := h₁.drop (a := found (found a o) o')
    (by rw [found_add, found_add]) (hu1.stays hq)
  have hu2 := hu1.trans hu2
  rw [found_comm] at h2
  obtain ⟨s3, hd3, hu3, h3⟩ := h2.drop? fun i hi => hu2.stays (ho i hi)
  have hu3 := hu2.trans hu3
  obtain ⟨s4, hd4, hu4, -⟩ := h3.drop? fun i hi => hu3.stays (ho' i hi)
  refine ⟨s4, ?_, hu3.trans hu4⟩
  rw [Bitbucket.renameDone, bind_some hd1, bind_some hd2, bind_some hd3, bind_some hd4]
  rfl

theorem renameDone_inv {s' : Volume} {out : Int × Option Nat × Option Nat} {rs : List Reply}
    (h : renameDone p q out s = some (rs, s')) : rs = [.err out.1] ∧ s.Untouched s' := by
  have hdrop : ∀ {o : Option Nat} {t t' : Volume} {u : Unit},
      dropLookup? o t = some (u, t') → t.Untouched t' := by
    intro o t t' u hd
    cases o with
    | none =>
      obtain ⟨-, rfl⟩ := pure_inv hd
      exact .refl t
    | some i => exact untouched_dropLookup hd
  obtain ⟨_, s1, hd1, h⟩ := bind_inv h
  obtain ⟨_, s2, hd2, h⟩ := bind_inv h
  obtain ⟨_, s3, hd3, h⟩ := bind_inv h
  obtain ⟨_, s4, hd4, h⟩ := bind_inv h
  obtain ⟨rfl, rfl⟩ := pure_inv h
  exact ⟨rfl, ((untouched_dropLookup hd1).trans (untouched_dropLookup hd2)).trans
    ((hdrop hd3).trans (hdrop hd4))⟩

theorem Volume.Orderly.rename_eq (hs : s.Orderly) (hparent : parent ≠ 0)
    (hnewparent : newparent ≠ 0) (hname : Proper name) (hnew : Proper newname)
    (hp : s.resolve parent = some p) (hq : s.resolve newparent = some q) (flags : Nat) :
    ∃ s', s.Untouched s' ∧ Shaped s.mounted (s.mounted + owe .lookup p 1 + owe .lookup q 1) s' ∧
      bitbucketRename parent name newparent newname flags s =
        (renameIn p q name newname flags >>= renameDone p q) s' := by
  have h : Shaped s.mounted (s.mounted + 0) s := by
    rw [add_zero]
    exact hs.toShaped
  obtain ⟨o, s1, hl⟩ := h.returns_lookupInode hparent
  obtain ⟨ho, hlook⟩ := lookupInode_inv hl
  have h₁ := h.looked hlook
  obtain rfl : o = some p := ho.trans hp
  have hres : s1.resolve newparent = s.resolve newparent := by
    rw [resolve, resolve, hlook.root, hlook.table]
  rw [add_zero] at h₁
  obtain ⟨o', s2, hl'⟩ := h₁.returns_lookupInode hnewparent
  obtain ⟨ho', hlook'⟩ := lookupInode_inv hl'
  have h2 := h₁.looked hlook'
  obtain rfl : o' = some q := ho'.trans (hres.trans hq)
  refine ⟨s2, hlook.untouched.trans hlook'.untouched, h2, ?_⟩
  rw [bitbucketRename, if_neg, bind_some hl, bind_some hl']
  · rfl
  rintro (he | he | he | he)
  · exact hname.1 he
  · exact hname.2 he
  · exact hnew.1 he
  · exact hnew.2 he

theorem Shaped.renameIn_eq (h : Shaped m a s) (hp : s.inodeType p = .dir)
    (hq : s.inodeType q = .dir) (hi : i ≠ s.root) (hc : s.child p name = some i)
    (hc' : s.child q newname = some j) (flags : Nat) :
    ∃ s', s.Untouched s' ∧ Shaped m (found (found a (some i)) (some j)) s' ∧
      Bitbucket.renameIn p q name newname flags s =
        (Bitbucket.replaceEntry p q i j name newname flags >>= fun status =>
          pure (status, some i, some j)) s' := by
  obtain ⟨o, s1, hl⟩ := h.returns_lookupObject hp name
  obtain ⟨-, ho, hlook⟩ := lookupObject_inv hl
  have h₁ := h.looked hlook
  obtain rfl : o = some i := ho.trans hc
  have hu := hlook.untouched
  obtain ⟨o', s2, hl'⟩ := h₁.returns_lookupObject ((congrFun hu.inodeType q).trans hq) newname
  obtain ⟨-, ho', hlook'⟩ := lookupObject_inv hl'
  have h2 := h₁.looked hlook'
  rw [hu.child] at ho'
  obtain rfl : o' = some j := ho'.trans hc'
  refine ⟨s2, hu.trans hlook'.untouched, h2, ?_⟩
  rw [Bitbucket.renameIn, get_bind, if_neg, bind_some hl]
  · dsimp only
    rw [if_neg hi, bind_some hl']
  rintro (he | he)
  · exact he hp
  · exact he hq

theorem Shaped.renameIn_missing (h : Shaped m a s) (hp : s.inodeType p = .dir)
    (hq : s.inodeType q = .dir) (hc : s.child p name = none) (newname : Name) (flags : Nat) :
    ∃ s', s.Untouched s' ∧ Shaped m a s' ∧ Bitbucket.renameIn p q name newname flags s =
        some ((ENOENT, none, none), s') := by
  obtain ⟨o, s1, hl⟩ := h.returns_lookupObject hp name
  obtain ⟨-, ho, hlook⟩ := lookupObject_inv hl
  have h₁ := h.looked hlook
  obtain rfl : o = none := ho.trans hc
  refine ⟨s1, hlook.untouched, h₁, ?_⟩
  rw [Bitbucket.renameIn, get_bind, if_neg, bind_some hl]
  · rfl
  rintro (he | he)
  · exact he hp
  · exact he hq

theorem Volume.Orderly.rename_replace (hs : s.Orderly) (hparent : parent ≠ 0)
    (hnewparent : newparent ≠ 0) (hname : Proper name) (hnew : Proper newname)
    (hp : s.resolve parent = some p) (hq : s.resolve newparent = some q)
    (hc : s.child p name = some i) (hc' : s.child q newname = some j) (flags : Nat) :
    ∃ s', s.Untouched s' ∧ Shaped s.mounted (found (found (s.mounted +
        owe .lookup p 1 + owe .lookup q 1) (some i)) (some j)) s' ∧
      bitbucketRename parent name newparent newname flags s =
        (replaceEntry p q i j name newname flags >>= fun status =>
          renameDone p q (status, some i, some j)) s' := by
  obtain ⟨s1, hu1, h₁, hr1⟩ := hs.rename_eq hparent hnewparent hname hnew hp hq flags
  have hdir : ∀ {d n x}, s.child d n = some x → s1.inodeType d = .dir := by
    intro d n x hx
    rw [hu1.inodeType]
    exact (hs.shape.self d n x hx).1
  obtain ⟨s2, hu2, h2, hr2⟩ := h₁.renameIn_eq (hdir hc) (hdir hc')
    (hu1.root ▸ hs.toShaped.ne_root hname hc)
    (by rw [hu1.child]; exact hc) (by rw [hu1.child]; exact hc') flags
  refine ⟨s2, hu1.trans hu2, h2, hr1.trans ?_⟩
  cases hrep : replaceEntry p q i j name newname flags s2 with
  | none =>
    rw [bind_none hrep] at hr2
    rw [bind_none hr2, bind_none hrep]
  | some r =>
    obtain ⟨status, s3⟩ := r
    rw [bind_some hrep] at hr2
    rw [bind_some hr2, bind_some hrep]

end Frame

/-! ## A directory onto a directory -/

/-- What a rename of a directory onto a directory is for: the directory is
replaced if it is empty, and otherwise nothing changes. -/
def Volume.ReplaceRight (s : Volume) (parent : Nat) (name : Name)
    (newparent : Nat) (newname : Name) : Prop :=
  ∀ p i q j, s.Denotes parent name p i → s.Denotes newparent newname q j →
    (s.Empty j → ∃ s', bitbucketRename parent name newparent newname 0 s =
      some ([.err 0], s') ∧ s'.child q newname = some i) ∧
    (¬ s.Empty j → ∃ s', bitbucketRename parent name newparent newname 0 s =
      some ([.err ENOTEMPTY], s') ∧ s.Quiet s')

/-- An empty directory that is to be replaced has lost its `..`, and is not
the one that replaces it. -/
def Volume.Replaces (s : Volume) (parent : Nat) (name : Name)
    (newparent : Nat) (newname : Name) : Prop :=
  ∀ p ∈ s.resolve parent, ∀ i ∈ s.child p name, s.inodeType i = .dir →
    ∀ q ∈ s.resolve newparent, ∀ j ∈ s.child q newname, s.inodeType j = .dir →
      parent ≠ 0 ∧ newparent ≠ 0 ∧ Proper name ∧ Proper newname ∧
        (s.Empty j → i ≠ j ∧ s.child j dotdot = none)

instance (s : Volume) (parent : Nat) (name : Name) (newparent : Nat)
    (newname : Name) : Decidable (s.Replaces parent name newparent newname) := by
  delta Replaces
  infer_instance

section Replace

variable {m a : Account} {s s' : Volume} {parent newparent p q i j : Nat}
  {name newname : Name} {rs : List Reply}

theorem nlink_insertNew {u : Unit} {d : Nat} (hne : i ≠ d)
    (h : insertNew d i name s = some (u, s')) : 0 < (s'.inode i).nlink := by
  obtain ⟨status, s1, hins, h⟩ := bind_inv h
  obtain ⟨rfl, rfl⟩ := assert_inv h
  obtain ⟨-, -, -, -, s1, -, ⟨-, -, rfl⟩ | ⟨-, hz, -⟩⟩ := insertDirectoryEntry_inv hins
  · simp [insertEntry, hne, setInode]
  · exact absurd hz (by decide)

theorem Shaped.returns_moveEntry (h : Shaped m a s) (hcount : s.Counted (· ≠ .symlink))
    (hp : 0 < a .lookup p) (hq : 0 < a .lookup q) (hi : 0 < a .lookup i) (hname : Proper name)
    (hnew : Proper newname) (hshort : Short newname) (hpdir : s.inodeType p = .dir)
    (hqdir : s.inodeType q = .dir)
    (hc : s.child p name = some i ∨ (p = q ∧ name = newname) ∧ s.child i dotdot = none)
    (hfree : s.child q newname = none) : Returns (Bitbucket.moveEntry p q i name newname) s := by
  obtain ⟨c, hheld⟩ := h.held
  have hlive : ∀ {x}, 0 < a .lookup x → s.live x = true := h.live
  refine .bind (hheld.counts.returns_insertNew hqdir (hlive hq) (hlive hi) hshort hfree) ?_
  intro u s1 hins
  have hn := (names_insertNew hins).2.2.2
  have hdirs : ∀ x, s1.inodeType x = .dir ↔ s.inodeType x = .dir := fun x =>
    iff_of_eq (congrFun (congrArg Names.isDir hn) x)
  have hkeep : ∀ {e k}, ¬ (e = q ∧ k = newname) → s1.child e k = s.child e k := by
    intro e k hek
    show s1.names.child e k = _
    rw [hn, put_child_of_ne hek]
    rfl
  have hc1 : s1.child p name = some i := by
    by_cases hslot : p = q ∧ name = newname
    · obtain ⟨rfl, rfl⟩ := hslot
      show s1.names.child p name = some i
      rw [hn, put_child_self]
    · rw [hkeep hslot]
      exact hc.resolve_right fun he => hslot he.1
  have hheld1 := hheld.insertNew hins
  have hcount1 := hcount.edits (Edits.insertNew s u s1 hins)
  refine hheld1.returns_deleteDirectoryEntry hcount1 nofun (lookup_pos hp c)
    (hcount1.short_of_child hc1).1 ((hdirs p).mpr hpdir) hc1 (fun _ => ?_) (fun _ x hx _ => ?_)
    (.inl (lookup_pos hi c))
  · by_cases hiq : i = q
    · exact hcount1.nlink_pos nofun (hheld1.live_of_child hc1) ((hdirs i).mpr (hiq ▸ hqdir))
    · exact nlink_insertNew hiq hins
  rw [hkeep fun he => hnew.2 he.2.symm] at hx
  rcases hc with hc | ⟨-, hup⟩
  · obtain rfl := h.shape.home hname hc hx
    refine ⟨rfl, ?_⟩
    show s1.names.parent i = some x
    rw [hn]
    exact (h.shape.back i x).mpr hx
  · exact absurd (hup.symm.trans hx) (by simp)

section Replacing

variable (h : Shaped m a s) (hcount : s.Counted (· ≠ .symlink)) (hp : 0 < a .lookup p)
  (hq : 0 < a .lookup q) (hi : 0 < a .lookup i) (hj : 0 < a .lookup j) (hname : Proper name)
  (hnew : Proper newname) (hc : s.child p name = some i) (hc' : s.child q newname = some j)
include h hcount hp hq hi hj hname hnew hc hc'

/-- The inode under the new name loses it, and the other one gets it. -/
theorem Shaped.returns_replace (hlink : s.inodeType j = .symlink → 0 < (s.inode j).nlink) :
    Returns (do
      let status ← bitbucketDeleteDirectoryEntry q newname
      if status ≠ 0 then pure status else Bitbucket.moveEntry p q i name newname : M Int) s := by
  refine .bind (h.returns_deleteDirectoryEntry hcount hq hnew hc' hlink (.inl hj)) ?_
  intro status s1 hdel
  have h₁ := h.deleteDirectoryEntry hq hnew hdel
  obtain ⟨hn, hz⟩ := clear_deleteDirectoryEntry hdel
  have hdirs : ∀ x, s1.inodeType x = .dir ↔ s.inodeType x = .dir := fun x =>
    iff_of_eq (congrFun ((congrArg Names.isDir hn).trans clear_isDir) x)
  split
  · exact .pure _
  refine h₁.returns_moveEntry (hcount.edits (Edits.deleteDirectoryEntry s status s1 hdel)) hp hq hi
    hname hnew (hcount.short_of_child hc') ((hdirs p).mpr (h.shape.self p name i hc).1)
    ((hdirs q).mpr (h.shape.self q newname j hc').1) ?_ ?_
  · show s1.names.child p name = some i ∨ _ ∧ s1.names.child i dotdot = none
    rw [hn]
    by_cases hslot : p = q ∧ name = newname
    · obtain ⟨rfl, rfl⟩ := hslot
      exact .inr ⟨⟨rfl, rfl⟩, h.shape.clear_up hc⟩
    · rw [clear_child ⟨hslot, fun _ _ _ he => hname.2 he.2⟩]
      exact .inl hc
  · show s1.names.child q newname = none
    rw [hn]
    exact clear_child_self

variable (hjdir : s.inodeType j = .dir) (hlen : (s.entries j).length ≤ 1)
include hjdir hlen

theorem Shaped.replaceEntry_empty :
    ∃ s', Bitbucket.replaceEntry p q i j name newname 0 s = some (0, s') ∧
      Shaped m a s' ∧ s'.names = s.names.move p name q newname i := by
  have hret : Returns (Bitbucket.replaceEntry p q i j name newname 0) s := by
    refine .get_bind ?_
    rw [if_neg (h.ne_root hnew hc'), if_neg (by decide), if_neg (by decide),
      if_neg fun he => absurd he.2 (Nat.not_lt.mpr hlen)]
    exact h.returns_replace hcount hp hq hi hj hname hnew hc hc' (by simp [hjdir])
  obtain ⟨status, s', hrep⟩ := hret
  have hacts : j ≠ s.root ∧ 0 &&& renameNoreplace = 0 ∧ (0 &&& renameExchange = 0 →
      ¬ (s.inodeType j = .dir ∧ 1 < (s.entries j).length)) :=
    ⟨h.ne_root hnew hc', by decide, fun _ hbig => absurd hbig.2 (by omega)⟩
  obtain ⟨-, -, hna⟩ | ⟨-, hstep⟩ := replaceEntry_inv hc' hrep
  · exact absurd hacts hna
  obtain ⟨rfl, hn⟩ := names_renameStep hname hc hstep
  refine ⟨s', hrep, h.renameStep hp hq (fun hex => absurd (by decide) hex) ?_ hname
    hnew hc hstep, hn (.inl (by decide))⟩
  exact kept_of_child hc'

end Replacing

theorem rename_replied {flags : Nat} {status : Int}
    (h : bitbucketRename parent name newparent newname flags s = some ([.err status], s')) :
    parent ≠ 0 ∧ newparent ≠ 0 ∧ Proper name ∧ Proper newname := by
  rw [bitbucketRename] at h
  split at h
  · cases (pure_inv h).1
  next hdots =>
  simp only [not_or] at hdots
  obtain ⟨o, s1, hl, h⟩ := bind_inv h
  obtain ⟨o', s2, hl', -⟩ := bind_inv h
  exact ⟨lookupInode_ne_zero hl, lookupInode_ne_zero hl', ⟨hdots.1, hdots.2.1⟩, hdots.2.2⟩

/-- A directory that has its `..` is never replaced. -/
theorem replaces_of_right (hs : s.Orderly) (h : s.ReplaceRight parent name newparent newname) :
    s.Replaces parent name newparent newname := by
  intro p hp i hc hi q hq j hc' hj
  obtain ⟨hempty, hfull⟩ := h p i q j ⟨hp, hc, hi⟩ ⟨hq, hc', hj⟩
  by_cases he : s.Empty j
  · obtain ⟨s', hr, hmoved⟩ := hempty he
    obtain ⟨hparent, hnewparent, hname, hnew⟩ := rename_replied hr
    refine ⟨hparent, hnewparent, hname, hnew, fun _ => ?_⟩
    rcases rename_cases hr with ⟨hrs, -⟩ | ⟨status, hz, hrs, -⟩ |
      ⟨p', q', i', hp', hq', hc1, hacts, -, hn⟩
    · cases hrs
    · cases hrs
      exact absurd rfl hz
    obtain rfl := Option.mem_unique hp hp'
    obtain rfl := Option.mem_unique hq hq'
    obtain rfl := Option.mem_unique hc hc1
    constructor
    · rintro rfl
      obtain ⟨rfl, rfl⟩ := hs.shape.unique p name q newname i hname hnew hc hc' hi
      have hgone : s'.names.child p name = none := by
        rw [hn (.inl (by decide))]
        exact move_child_old
      exact nomatch hmoved.symm.trans hgone
    · by_contra hup
      have hdot : s.child j dot ≠ none := fun hnone =>
        absurd ((hs.shape.whole q newname j hnew hc' hj).symm.trans hnone) nofun
      have htwo := two_le_length (child_ne_none.mp hdot) (child_ne_none.mp hup) (by decide)
      rw [List.length_map] at htwo
      exact (hacts.2.2.2.2.2 j hc').2.2 (by decide) ⟨hj, htwo⟩
  · obtain ⟨s', hr, -⟩ := hfull he
    obtain ⟨hparent, hnewparent, hname, hnew⟩ := rename_replied hr
    exact ⟨hparent, hnewparent, hname, hnew, fun he' => absurd he' he⟩

theorem replace_right_of_replaces (hs : s.Orderly) (h : s.Replaces parent name newparent newname) :
    s.ReplaceRight parent name newparent newname := by
  intro p i q j hd hd'
  obtain ⟨hparent, hnewparent, hname, hnew, hcond⟩ := h p hd.parent i hd.child
    hd.dir q hd'.parent j hd'.child hd'.dir
  obtain ⟨s1, hu, h₁, hr⟩ := hs.rename_replace hparent hnewparent hname hnew
    hd.parent hd'.parent hd.child hd'.child 0
  have hc : s1.child p name = some i := by rw [hu.child]; exact hd.child
  have hc' : s1.child q newname = some j := by rw [hu.child]; exact hd'.child
  have hidir : s1.inodeType i = .dir := by rw [hu.inodeType]; exact hd.dir
  have hjdir : s1.inodeType j = .dir := by rw [hu.inodeType]; exact hd'.dir
  have hpdir : s1.inodeType p = .dir := (h₁.shape.self p name i hc).1
  have hqdir : s1.inodeType q = .dir := (h₁.shape.self q newname j hc').1
  -- directories can be dropped, so the request ends after the step
  have hend : ∀ {status s2}, replaceEntry p q i j name newname 0 s1 =
      some (status, s2) → Shaped s.mounted (found (found (s.mounted +
        owe .lookup p 1 + owe .lookup q 1) (some i)) (some j)) s2 →
      s2.names.isDir = s1.names.isDir →
      ∃ s', bitbucketRename parent name newparent newname 0 s =
        some ([.err status], s') ∧ s2.Untouched s' := by
    intro status s2 hrep h2 hdirs
    have hstays : ∀ {x}, s1.inodeType x = .dir → s2.Stays x := fun hx =>
      .inr (discards_of_dir ((iff_of_eq (congrFun hdirs _)).mpr hx))
    obtain ⟨s3, hdone, hu'⟩ := h2.renameDone status (hstays hpdir)
      (hstays hqdir) (by rintro _ ⟨⟩; exact hstays hidir)
      (by rintro _ ⟨⟩; exact hstays hjdir)
    exact ⟨s3, by rw [hr, bind_some hrep, hdone], hu'⟩
  have hiff := hs.empty_iff hd'
  rw [← hu.entries] at hiff
  refine ⟨fun he => ?_, fun he => ?_⟩
  · obtain ⟨hne, hup⟩ := hcond he
    have hlen : (s1.entries j).length ≤ 1 := by
      obtain ⟨hle, htwo⟩ := hiff.mp he
      have := htwo hup
      omega
    obtain ⟨s2, hrep, h2, hn⟩ := h₁.replaceEntry_empty (hs.counted.edit (.same hu.sameLinks))
      (lookup_pos (lookup_pos (lookup_pos (lookup_owe_pos _ p) _) _) _)
      (lookup_pos (lookup_pos (lookup_owe_pos _ q) _) _)
      (lookup_pos (lookup_owe_pos _ i) _) (lookup_owe_pos _ j)
      hname hnew hc hc' hjdir hlen
    obtain ⟨s', hr', hu'⟩ := hend hrep h2 (by
      rw [hn, Names.move, clear_isDir, put_isDir, clear_isDir])
    refine ⟨s', hr', ?_⟩
    rw [hu'.child]
    show s2.names.child q newname = some i
    rw [hn]
    refine move_child_new hnew ?_
    rintro ⟨rfl, rfl⟩
    exact hne (Option.mem_unique hc hc')
  · have hlen : 1 < (s1.entries j).length := by
      by_contra hlt
      exact he (hiff.mpr ⟨by omega, fun _ => by omega⟩)
    have hrep : replaceEntry p q i j name newname 0 s1 = some (ENOTEMPTY, s1) := by
      rw [replaceEntry, get_bind, if_neg (h₁.ne_root hnew hc'), if_neg (by decide),
        if_neg (by decide), if_pos ⟨hjdir, hlen⟩]
      rfl
    obtain ⟨s', hr', hu'⟩ := hend hrep h₁ rfl
    exact ⟨s', hr', (hu.trans hu').toQuiet⟩

end Replace

/-- In every state that a volume reaches by requests that keep it orderly, a
rename of a directory onto a directory does what it is for exactly if the
directory that is replaced is not one that has its `..` and is empty. -/
theorem replace_right_iff {u : Userdata} {root bitbucket : NewInode} {others : List NewInode}
    {s s' : Volume} {rs : List Request} {tr : List Reply}
    (hnew : ((root :: bitbucket :: others).map NewInode.ino).Nodup)
    (hinit : bitbucketInit root bitbucket others .empty = some ((), s))
    (hrun : run (step u) s rs = some (tr, s'))
    (hrs : Along (step u) KeepsOrder s rs) (parent : Nat) (name : Name)
    (newparent : Nat) (newname : Name) : s'.ReplaceRight parent name newparent newname ↔
      s'.Replaces parent name newparent newname :=
  have hs := orderly_run hnew hinit hrun hrs
  ⟨replaces_of_right hs, replace_right_of_replaces hs⟩

/-- The directory that is replaced was renamed before. -/
theorem replace_right_iff_renamed : ∃ s s1 s2 tr, newMount = some ((), s) ∧ run (step .plain) s
      [.mkdir 1 ['a'] 0o755 ⟨11, 0⟩, .mkdir 1 ['b'] 0o755 ⟨12, 0⟩,
       .rename 1 ['b'] 1 ['c'] 0] = some (tr, s1) ∧
    s1.Denotes 1 ['a'] 0 6 ∧ s1.Denotes 1 ['c'] 0 7 ∧ s1.Empty 7 ∧
    bitbucketRename 1 ['a'] 1 ['c'] 0 s1 = some ([.err 0], s2) ∧
    s2.child 0 ['c'] = some 6 := by
  refine exists_run_next (K := KeepsOrder) (P := fun _ _ s1 =>
    (s1.Replaces 1 ['a'] 1 ['c'] ∧ s1.Empty 7) ∧ s1.resolve 1 = some 0 ∧
      (s1.child 0 ['a'] = some 6 ∧ s1.inodeType 6 = .dir) ∧
      s1.child 0 ['c'] = some 7 ∧ s1.inodeType 7 = .dir) (by decide +kernel) ?_
  rintro s tr s1 hs hr hkeeps ⟨⟨hcond, hempty⟩, hp, ⟨ha, hat⟩, hc, hct⟩
  have hd : s1.Denotes 1 ['a'] 0 6 := ⟨hp, ha, hat⟩
  have hd' : s1.Denotes 1 ['c'] 0 7 := ⟨hp, hc, hct⟩
  have hright := (replace_right_iff (by decide) hs hr hkeeps 1 ['a'] 1 ['c']).mpr hcond
  obtain ⟨s2, hr', hchild⟩ := (hright 0 6 0 7 hd hd').1 hempty
  exact ⟨s2, hd, hd', hempty, hr', hchild⟩

/-- A new directory is empty and is taken for one that is not. -/
theorem rename_onto_new_directory : ∃ s s1 s2 tr, newMount = some ((), s) ∧ run (step .plain) s
      [.mkdir 1 ['a'] 0o755 ⟨11, 0⟩, .mkdir 1 ['b'] 0o755 ⟨12, 0⟩] =
      some (tr, s1) ∧
    s1.Denotes 1 ['a'] 0 6 ∧ s1.Denotes 1 ['b'] 0 7 ∧ s1.Empty 7 ∧
    bitbucketRename 1 ['a'] 1 ['b'] 0 s1 = some ([.err ENOTEMPTY], s2) ∧
    ¬ s1.ReplaceRight 1 ['a'] 1 ['b'] := by
  refine exists_run_next (K := fun _ _ => True) (P := fun _ _ s1 =>
    ((bitbucketRename 1 ['a'] 1 ['b'] 0 s1).map Prod.fst = some [.err ENOTEMPTY] ∧
      s1.Empty 7) ∧ s1.resolve 1 = some 0 ∧
      (s1.child 0 ['a'] = some 6 ∧ s1.inodeType 6 = .dir) ∧
      s1.child 0 ['b'] = some 7 ∧ s1.inodeType 7 = .dir) (by decide +kernel) ?_
  rintro s tr s1 - - - ⟨⟨hren, hempty⟩, hp, ⟨ha, hat⟩, hb, hbt⟩
  obtain ⟨⟨_, s2⟩, hren, rfl⟩ := Option.map_eq_some_iff.mp hren
  have hd : s1.Denotes 1 ['a'] 0 6 := ⟨hp, ha, hat⟩
  have hd' : s1.Denotes 1 ['b'] 0 7 := ⟨hp, hb, hbt⟩
  refine ⟨s2, hd, hd', hempty, hren, fun h => ?_⟩
  obtain ⟨s', hr', -⟩ := (h 0 6 0 7 hd hd').1 hempty
  rw [hren] at hr'
  cases hr'

/-! ## Exchanges -/

/-- The inodes `i` and `j` have exchanged their names, and directories among
them lead back to where they are now. -/
structure Volume.Swapped (s s' : Volume) (p q i j : Nat) (name newname : Name) :
    Prop where
  old : s'.child p name = some j
  new : s'.child q newname = some i
  others : ∀ d n, ¬ (d = p ∧ n = name) → ¬ (d = q ∧ n = newname) →
    ¬ (n = dotdot ∧ (d = i ∨ d = j) ∧ s.inodeType d = .dir) →
    s'.child d n = s.child d n
  links : ∀ x, (s'.inode x).nlink = (s.inode x).nlink
  dirents : ∀ x, s'.referenceReasons x .dirent = s.referenceReasons x .dirent
  oldUp : s.inodeType j = .dir → s'.child j dotdot = some p ∧ s'.parent j = some p
  newUp : s.inodeType i = .dir → s'.child i dotdot = some q ∧ s'.parent i = some q

/-- What an exchange in two directories is for: the request returns, and
exchanges the names if both exist and otherwise changes nothing. -/
def Volume.ExchangeRight (s : Volume) (parent : Nat) (name : Name)
    (newparent : Nat) (newname : Name) (flags : Nat) : Prop :=
  ∀ p q, s.resolve parent = some p → s.resolve newparent = some q →
    s.inodeType p = .dir → s.inodeType q = .dir →
    ∃ rs s', bitbucketRename parent name newparent newname flags s = some (rs, s') ∧
    (rs = [.err 0] ↔ s.child p name ≠ none ∧ s.child q newname ≠ none) ∧
    (∀ i j, s.child p name = some i → s.child q newname = some j →
      s.Swapped s' p q i j name newname) ∧
    (s.child p name = none ∨ s.child q newname = none → rs = [.err ENOENT] ∧ s.Quiet s')

/-- If the old name exists, then so does the new one, in another directory,
and neither names a directory. -/
def Volume.Exchanges (s : Volume) (parent : Nat) (name : Name)
    (newparent : Nat) (newname : Name) (flags : Nat) : Prop :=
  ∀ p ∈ s.resolve parent, ∀ q ∈ s.resolve newparent, s.inodeType p = .dir → s.inodeType q = .dir →
    (parent ≠ 0 ∧ newparent ≠ 0 ∧ Proper name ∧ Proper newname) ∧
    ∀ i ∈ s.child p name, p ≠ q ∧ flags &&& renameNoreplace = 0 ∧
      s.inodeType i ≠ .dir ∧ s.child q newname ≠ none ∧
      ∀ j ∈ s.child q newname, s.inodeType j ≠ .dir

instance (s : Volume) (parent : Nat) (name : Name) (newparent : Nat)
    (newname : Name) (flags : Nat) :
    Decidable (s.Exchanges parent name newparent newname flags) := by
  delta Exchanges
  infer_instance

section Exchange

variable {m a : Account} {s s' : Volume} {parent newparent flags p q i j : Nat}
  {name newname : Name} {rs : List Reply}

theorem replaceEntry_exchange (hj : j ≠ s.root) (hno : flags &&& renameNoreplace = 0)
    (hex : flags &&& renameExchange ≠ 0) : replaceEntry p q i j name newname flags s =
      bitbucketExchangeObjectsInDirectory p q name newname s := by
  rw [replaceEntry, get_bind, if_neg hj, if_neg (not_not.mpr hno), if_pos hex]

theorem exchange_names {status : Int} (hc : s.child p name = some i)
    (hc' : s.child q newname = some j)
    (h : bitbucketExchangeObjectsInDirectory p q name newname s = some (status, s')) :
    status = 0 ∧ p ≠ q ∧ s'.names = (s.names.put p name (some j)).put q newname (some i) ∧
      (∀ x, (s'.inode x).nlink = (s.inode x).nlink) ∧
      s'.referenceReasons = s.referenceReasons := by
  obtain ⟨hpq, ⟨-, -, hnone | hnone⟩ | ⟨e, e', he, he', hz, hs⟩⟩ := exchange_inv h
  · exact nomatch hnone.symm.trans hc
  · exact nomatch hnone.symm.trans hc'
  have hei : e.inode = i :=
    Option.some.inj ((congrArg (Option.map DirEntry.inode) he).symm.trans hc)
  have hej : e'.inode = j :=
    Option.some.inj ((congrArg (Option.map DirEntry.inode) he').symm.trans hc')
  have hq : findEntry ((((s.tick p).tick q).redirectEntry p name e'.inode).entries
      q) newname = some e' := by
    rw [← he']
    simp [redirectEntry, setEntries, hpq.symm]
    rfl
  have hticks := (Quiet.tick s p).trans (Quiet.tick (s.tick p) q)
  refine ⟨hz, hpq, ?_, fun x => ?_, ?_⟩
  · rw [hs, names_redirectEntry _ _ _ _ hq,
      names_redirectEntry ((s.tick p).tick q) _ _ _ he, names_tick, names_tick, hei, hej]
  · rw [hs]
    exact hticks.nlink x
  · rw [hs]
    rfl

theorem returns_exchange (name newname : Name) (hp : s.live p = true) (hq : s.live q = true)
    (hpq : p ≠ q) : Returns (bitbucketExchangeObjectsInDirectory p q name newname) s := by
  refine .bind (.assert_bind hpq (.bind (returns_lockInode hp) ?_)) ?_
  · intro _ s1 hl
    rw [(lockInode_inv hl).2]
    exact returns_lockInode hq
  intro _ s1 hl
  refine .get_bind ?_
  cases findEntry (s1.entries p) name with
  | none => exact .pure _
  | some e =>
    cases findEntry (s1.entries q) newname with
    | none => exact .pure _
    | some e' => exact .modify_bind (.pure _)

theorem Shaped.exchange (h : Shaped m a s) (hp : 0 < a .lookup p) (hq : 0 < a .lookup q)
    (hpq : p ≠ q) (hc : s.child p name = some i) (hc' : s.child q newname = some j)
    (hi : s.inodeType i ≠ .dir) (hj : s.inodeType j ≠ .dir) :
    ∃ s', bitbucketExchangeObjectsInDirectory p q name newname s =
      some (0, s') ∧ Shaped m a s' := by
  obtain ⟨status, s', hx⟩ := returns_exchange name newname (h.live hp) (h.live hq) hpq
  obtain rfl := (exchange_names hc hc' hx).1
  exact ⟨s', hx, h.exchangeObjectsInDirectory hc hc' hi hj hx⟩

theorem exchanges_of_right (hs : s.Orderly) (hex : flags &&& renameExchange ≠ 0)
    (h : s.ExchangeRight parent name newparent newname flags) :
    s.Exchanges parent name newparent newname flags := by
  intro p hp q hq hpdir hqdir
  obtain ⟨rs, s', hr, hiff, hswap, hmiss⟩ := h p q hp hq hpdir hqdir
  obtain ⟨status, rfl⟩ : ∃ status, rs = [.err status] := by
    by_cases hboth : s.child p name ≠ none ∧ s.child q newname ≠ none
    · exact ⟨0, hiff.mpr hboth⟩
    · rw [not_and_or, not_not, not_not] at hboth
      exact ⟨ENOENT, (hmiss hboth).1⟩
  obtain ⟨hparent, hnewparent, hname, hnew⟩ := rename_replied hr
  refine ⟨⟨hparent, hnewparent, hname, hnew⟩, fun i hc => ?_⟩
  have hboth : s.child q newname ≠ none := by
    intro hnone
    have hacts : s.RenameActs p q i name newname flags :=
      ⟨hname, hnew, hpdir, hqdir, hs.toShaped.ne_root hname hc,
        fun j hj => nomatch hnone.symm.trans hj⟩
    obtain ⟨hst, -⟩ := hmiss (.inr hnone)
    rcases rename_cases hr with ⟨hrs, -⟩ | ⟨_, -, -, -, hna⟩ | ⟨_, _, _, -, -, -, -, hrs, -⟩
    · cases hrs
    · exact hna p hp q hq i hc hacts
    · rw [hrs] at hst
      exact absurd hst (by decide)
  obtain ⟨j, hc'⟩ := Option.ne_none_iff_exists'.mp hboth
  have hzero := hiff.mpr ⟨fun hnone => absurd (hnone.symm.trans hc) nofun, hboth⟩
  obtain rfl : status = 0 := by simpa using hzero
  have hno : flags &&& renameNoreplace = 0 := by
    rcases rename_cases hr with ⟨hrs, -⟩ | ⟨_, hz, hrs, -⟩ | ⟨_, q', _, -, hq', -, hacts, -⟩
    · cases hrs
    · cases hrs
      exact absurd rfl hz
    · obtain rfl := Option.mem_unique hq hq'
      exact (hacts.2.2.2.2.2 j hc').2.1
  obtain ⟨s1, hu, h₁, heq⟩ := hs.rename_replace hparent hnewparent hname hnew hp hq hc hc' flags
  rw [heq] at hr
  obtain ⟨status, s2, hrep, hdone⟩ := bind_inv hr
  rw [replaceEntry_exchange (by rw [hu.root]; exact hs.toShaped.ne_root hnew hc') hno hex] at hrep
  obtain ⟨-, hpq, hn, -⟩ := exchange_names (by rw [hu.child]; exact hc)
    (by rw [hu.child]; exact hc') hrep
  have hu' := (renameDone_inv hdone).2
  -- the ways back are those from before, and lead to the old parents
  have hup : ∀ x, s'.child x dotdot = s.child x dotdot := by
    intro x
    rw [hu'.child]
    show s2.names.child x dotdot = _
    rw [hn, put_child_of_ne fun he => hnew.2 he.2.symm, put_child_of_ne fun he => hname.2 he.2.symm]
    exact congrFun (congrFun hu.child x) dotdot
  have hswap := hswap i j hc hc'
  refine ⟨hpq, hno, fun hi => ?_, hboth, fun j' hj' hjdir => ?_⟩
  · obtain ⟨hq', -⟩ := hswap.newUp hi
    rw [hup] at hq'
    exact hpq (hs.shape.home hname hc hq').symm
  · obtain rfl := Option.mem_unique hc' hj'
    obtain ⟨hp', -⟩ := hswap.oldUp hjdir
    rw [hup] at hp'
    exact hpq (hs.shape.home hnew hc' hp')

theorem right_of_exchanges (hs : s.Orderly) (hex : flags &&& renameExchange ≠ 0)
    (h : s.Exchanges parent name newparent newname flags) :
    s.ExchangeRight parent name newparent newname flags := by
  intro p q hp hq hpdir hqdir
  obtain ⟨⟨hparent, hnewparent, hname, hnew⟩, hcond⟩ := h p hp q hq hpdir hqdir
  cases hc : s.child p name with
  | none =>
    obtain ⟨s1, hu1, h₁, hr1⟩ := hs.rename_eq hparent hnewparent hname hnew hp hq flags
    have hp1 : s1.inodeType p = .dir := by rw [hu1.inodeType]; exact hpdir
    have hq1 : s1.inodeType q = .dir := by rw [hu1.inodeType]; exact hqdir
    obtain ⟨s2, hu2, h2, hr2⟩ := h₁.renameIn_missing hp1 hq1
      (by rw [hu1.child]; exact hc) newname flags
    obtain ⟨s3, hdone, hu3⟩ := Shaped.renameDone ENOENT
      (show Shaped _ (found (found _ none) none) s2 from h2)
      (hu2.stays (.inr (discards_of_dir hp1))) (hu2.stays (.inr (discards_of_dir hq1))) nofun nofun
    refine ⟨[.err ENOENT], s3, ?_, iff_of_false (by decide) fun hne => hne.1 rfl,
      nofun, fun _ => ⟨rfl, ((hu1.trans hu2).trans hu3).toQuiet⟩⟩
    rw [hr1, bind_some hr2, hdone]
  | some i =>
    obtain ⟨hpq, hno, hi, hboth, hfile⟩ := hcond i hc
    obtain ⟨j, hc'⟩ := Option.ne_none_iff_exists'.mp hboth
    have hj := hfile j hc'
    obtain ⟨s1, hu, h₁, heq⟩ := hs.rename_replace hparent hnewparent hname hnew hp hq hc hc' flags
    have hc1 : s1.child p name = some i := by rw [hu.child]; exact hc
    have hc1' : s1.child q newname = some j := by rw [hu.child]; exact hc'
    obtain ⟨s2, hx, h2⟩ := h₁.exchange (lookup_pos (lookup_pos (lookup_pos
        (lookup_owe_pos _ p) _) _) _)
      (lookup_pos (lookup_pos (lookup_owe_pos _ q) _) _)
      hpq hc1 hc1' (by rw [hu.inodeType]; exact hi) (by rw [hu.inodeType]; exact hj)
    obtain ⟨-, -, hn, hlinks, hreasons⟩ := exchange_names hc1 hc1' hx
    have hchild : ∀ d n, s2.child d n =
        ((s1.names.put p name (some j)).put q newname (some i)).child d n :=
      fun d n => congrFun (congrFun (congrArg Names.child hn) d) n
    have hold : s2.child p name = some j := by
      rw [hchild, put_child_of_ne fun he => hpq he.1, put_child_self]
    have hnew2 : s2.child q newname = some i := by
      rw [hchild, put_child_self]
    have hstays : ∀ {x}, s.inodeType x = .dir → s2.Stays x := by
      intro x hx
      refine .inr (discards_of_dir ?_)
      show s2.names.isDir x
      rw [hn]
      show s1.inodeType x = .dir
      rw [hu.inodeType]
      exact hx
    obtain ⟨s3, hdone, hu'⟩ := h2.renameDone 0 (hstays hpdir) (hstays hqdir)
      (by rintro _ ⟨⟩; exact .inl ⟨_, _, hnew2⟩)
      (by rintro _ ⟨⟩; exact .inl ⟨_, _, hold⟩)
    refine ⟨[.err 0], s3, ?_, iff_of_true rfl ⟨nofun, hboth⟩, ?_, ?_⟩
    · have hroot := h₁.ne_root hnew hc1'
      rw [heq, bind_some ((replaceEntry_exchange hroot hno hex).trans hx), hdone]
    · intro i' j' hi' hj'
      obtain rfl := Option.some.inj hi'
      obtain rfl := Option.mem_unique hc' hj'
      refine ⟨by rw [hu'.child, hold], by rw [hu'.child, hnew2],
        fun d n hdp hdq _ => ?_, fun x => ?_, fun x => ?_, fun hdir => absurd hdir hj,
        fun hdir => absurd hdir hi⟩
      · rw [hu'.child, hchild, put_child_of_ne hdq, put_child_of_ne hdp]
        exact congrFun (congrFun hu.child d) n
      · rw [hu'.nlink, hlinks, hu.nlink]
      · rw [hu'.reasons x .dirent nofun, hreasons, hu.reasons x .dirent nofun]
    · rintro (hnone | hnone)
      · cases hnone
      · exact absurd hnone hboth

end Exchange

/-- In every state that a volume reaches by requests that keep it orderly, a
rename with `RENAME_EXCHANGE` does what it is for exactly if it exchanges
names in different directories that are not those of directories, or the old
name does not exist. -/
theorem exchange_right_iff {u : Userdata} {root bitbucket : NewInode} {others : List NewInode}
    {s s' : Volume} {rs : List Request} {tr : List Reply}
    (hnew : ((root :: bitbucket :: others).map NewInode.ino).Nodup)
    (hinit : bitbucketInit root bitbucket others .empty = some ((), s))
    (hrun : run (step u) s rs = some (tr, s')) (hrs : Along (step u) KeepsOrder s rs) (parent : Nat)
    (name : Name) (newparent : Nat) (newname : Name) (flags : Nat)
    (hex : flags &&& renameExchange ≠ 0) : s'.ExchangeRight parent name newparent newname flags ↔
      s'.Exchanges parent name newparent newname flags :=
  have hs := orderly_run hnew hinit hrun hrs
  ⟨exchanges_of_right hs hex, right_of_exchanges hs hex⟩

/-- Files in two directories are exchanged. -/
theorem exchange_right_iff_files : ∃ s s1 s2 tr, newMount = some ((), s) ∧ run (step .plain) s
      [.mkdir 1 ['a'] 0o755 ⟨11, 0⟩, .mkdir 1 ['b'] 0o755 ⟨12, 0⟩,
       .create 11 ['f'] 0o100644 ⟨13, 0⟩, .create 12 ['g'] 0o100644 ⟨14, 0⟩] =
      some (tr, s1) ∧
    bitbucketRename 11 ['f'] 12 ['g'] renameExchange s1 = some ([.err 0], s2) ∧
    s1.Swapped s2 6 7 8 9 ['f'] ['g'] := by
  refine exists_run_next (K := KeepsOrder) (P := fun _ _ s1 =>
    s1.Exchanges 11 ['f'] 12 ['g'] renameExchange ∧
      (s1.resolve 11 = some 6 ∧ s1.resolve 12 = some 7) ∧
      (s1.inodeType 6 = .dir ∧ s1.inodeType 7 = .dir) ∧
      s1.child 6 ['f'] = some 8 ∧ s1.child 7 ['g'] = some 9) (by decide +kernel) ?_
  rintro s tr s1 hs hr hkeeps ⟨hcond, ⟨hp, hq⟩, ⟨hpdir, hqdir⟩, hf, hg⟩
  have hright := (exchange_right_iff (by decide) hs hr hkeeps 11 ['f'] 12 ['g']
    renameExchange (by decide)).mpr hcond
  obtain ⟨rs, s2, hren, hiff, hswap, -⟩ := hright 6 7 hp hq hpdir hqdir
  obtain rfl := hiff.mpr ⟨by rw [hf]; nofun, by rw [hg]; nofun⟩
  exact ⟨s2, hren, hswap 8 9 hf hg⟩

/-- An exchange in one directory fails, one with a name that does not exist is
a move, and directories that are exchanged lead back to where they were. -/
theorem exchange_wrong : ∃ s s1 s2 s3 tr, newMount = some ((), s) ∧ run (step .plain) s
      [.mkdir 1 ['a'] 0o755 ⟨11, 0⟩, .mkdir 1 ['b'] 0o755 ⟨12, 0⟩,
       .mkdir 11 ['d'] 0o755 ⟨13, 0⟩, .mkdir 12 ['e'] 0o755 ⟨14, 0⟩] =
      some (tr, s1) ∧
    bitbucketRename 1 ['a'] 1 ['b'] renameExchange s1 = none ∧
    ¬ s1.ExchangeRight 1 ['a'] 1 ['b'] renameExchange ∧
    bitbucketRename 11 ['d'] 12 ['x'] renameExchange s1 = some ([.err 0], s2) ∧
    ¬ s1.ExchangeRight 11 ['d'] 12 ['x'] renameExchange ∧
    bitbucketRename 11 ['d'] 12 ['e'] renameExchange s1 = some ([.err 0], s3) ∧
    s3.child 7 ['e'] = some 8 ∧ s3.child 8 dotdot = some 6 ∧
    ¬ s1.ExchangeRight 11 ['d'] 12 ['e'] renameExchange := by
  have hrun : (newMount.bind fun p => (run (step .plain) p.2
        [.mkdir 1 ['a'] 0o755 ⟨11, 0⟩, .mkdir 1 ['b'] 0o755 ⟨12, 0⟩,
         .mkdir 11 ['d'] 0o755 ⟨13, 0⟩, .mkdir 12 ['e'] 0o755 ⟨14, 0⟩]).bind
        fun q => (bitbucketRename 11 ['d'] 12 ['x'] renameExchange q.2).bind
          fun r => (bitbucketRename 11 ['d'] 12 ['e'] renameExchange q.2).map
          fun r' => ((bitbucketRename 1 ['a'] 1 ['b'] renameExchange q.2).isNone,
            [r.1, r'.1], [0, 6, 7, 8].map q.2.inodeType,
            [q.2.resolve 1, q.2.resolve 11, q.2.resolve 12, q.2.child 6 ['d'],
              q.2.child 7 ['x'], q.2.child 7 ['e'], r'.2.child 7 ['e'],
              r'.2.child 8 dotdot])) =
      some (true, [[.err 0], [.err 0]], [.dir, .dir, .dir, .dir],
        [some 0, some 6, some 7, some 8, none, some 9, some 8, some 6]) := by
    decide +kernel
  obtain ⟨⟨_, s⟩, hs, hrun⟩ := Option.bind_eq_some_iff.mp hrun
  obtain ⟨⟨tr, s1⟩, hr, hrun⟩ := Option.bind_eq_some_iff.mp hrun
  obtain ⟨⟨rs, s2⟩, hx, hrun⟩ := Option.bind_eq_some_iff.mp hrun
  obtain ⟨⟨rs', s3⟩, he, hend⟩ := Option.map_eq_some_iff.mp hrun
  simp only [Prod.mk.injEq, List.map_cons, List.map_nil, List.cons.injEq, and_true,
    Option.isNone_iff_eq_none] at hend
  obtain ⟨hsame, ⟨rfl, rfl⟩, ⟨ht0, ht6, ht7, ht8⟩, h1, h11, h12, hcd, hcx, hce, hce', hup⟩ := hend
  refine ⟨s, s1, s2, s3, tr, hs, hr, hsame, fun h => ?_, hx, fun h => ?_, he, hce',
    hup, fun h => ?_⟩
  · obtain ⟨rs, s', hr', -⟩ := h 0 0 h1 h1 ht0 ht0
    rw [hsame] at hr'
    cases hr'
  · obtain ⟨rs, s', hr', -, -, hmiss⟩ := h 6 7 h11 h12 ht6 ht7
    rw [hx] at hr'
    cases hr'
    exact absurd (hmiss (.inr hcx)).1 (by decide)
  · obtain ⟨rs, s', hr', -, hswap, -⟩ := h 6 7 h11 h12 ht6 ht7
    rw [he] at hr'
    cases hr'
    obtain ⟨hq, -⟩ := (hswap 8 9 hcd hce).newUp ht8
    rw [hup] at hq
    cases hq

end Finesse.Bitbucket
