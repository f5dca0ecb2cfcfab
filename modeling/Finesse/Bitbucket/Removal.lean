import Finesse.Bitbucket.Returns

/-!
# Directories that are removed, replaced and exchanged

The handlers of `unlink`, `rmdir` and `rename` decide by the type of an inode
and by the count of its entries what may be done to it. On an orderly volume
this is compared with what the requests are for. A directory that was renamed
has no `..`, so the count does not tell whether it is empty.
-/

namespace Finesse.Bitbucket

open Prog Volume List Names Machine Finset Ledger

/-! ## Empty directories -/

/-- The directory has no entries but `.` and `..`. -/
def Volume.Empty (s : Volume) (i : Nat) : Prop :=
  ∀ e ∈ s.entries i, ¬ Proper e.name

instance (s : Volume) (i : Nat) : Decidable (s.Empty i) :=
  inferInstanceAs (Decidable (∀ e ∈ s.entries i, ¬ Proper e.name))

theorem not_proper {n : Name} : ¬ Proper n ↔ n = dot ∨ n = dotdot := by
  rw [Proper, not_and_or, not_not, not_not]

theorem dots_iff {l : List Name} (hl : l.Nodup) (hdot : dot ∈ l) : (∀ n ∈ l, ¬ Proper n) ↔
      l.length ≤ 2 ∧ (dotdot ∉ l → l.length ≠ 2) := by
  rw [← toFinset_card_of_nodup hl]
  constructor
  · intro h
    refine ⟨?_, fun hup => ?_⟩
    · refine Nat.le_trans (card_le_card (t := {dot, dotdot}) ?_) (by decide)
      intro n hn
      simpa using not_proper.mp (h n (mem_toFinset.mp hn))
    have hle : l.toFinset.card ≤ 1 := by
      refine card_le_card (t := {dot}) ?_
      intro n hn
      have hn := mem_toFinset.mp hn
      rcases not_proper.mp (h n hn) with rfl | rfl
      · exact Finset.mem_singleton_self _
      · exact absurd hn hup
    omega
  · rintro ⟨hle, hup⟩ n hn
    rw [not_proper]
    by_cases hmem : dotdot ∈ l
    · have heq : {dot, dotdot} = l.toFinset := by
        refine eq_of_subset_of_card_le ?_ (Nat.le_trans hle (by decide))
        intro k hk
        rcases mem_insert.mp hk with rfl | hk
        · exact mem_toFinset.mpr hdot
        · rw [Finset.mem_singleton.mp hk]
          exact mem_toFinset.mpr hmem
      have := heq ▸ mem_toFinset.mpr hn
      simpa using this
    · have heq : {dot} = l.toFinset := by
        refine eq_of_subset_of_card_le ?_ ?_
        · exact singleton_subset_iff.mpr (mem_toFinset.mpr hdot)
        have := hup hmem
        rw [card_singleton]
        omega
      have := heq ▸ mem_toFinset.mpr hn
      exact .inl (Finset.mem_singleton.mp this)

theorem two_le_length {l : List Name} {n k : Name} (hn : n ∈ l) (hk : k ∈ l)
    (hne : n ≠ k) : 2 ≤ l.length := by
  have hsub : ({n, k} : Finset Name) ⊆ l.toFinset := by
    intro x hx
    rcases mem_insert.mp hx with rfl | hx
    · exact mem_toFinset.mpr hn
    · rw [Finset.mem_singleton.mp hx]
      exact mem_toFinset.mpr hk
  calc 2 = ({n, k} : Finset Name).card := (card_pair hne).symm
    _ ≤ l.toFinset.card := card_le_card hsub
    _ ≤ l.length := l.toFinset_card_le

section Empty

variable {m a : Account} {s : Volume} {d i : Nat} {n : Name}

theorem Volume.child_ne_none : s.child d n ≠ none ↔ n ∈ (s.entries d).map DirEntry.name := by
  rw [child, ne_eq, Option.map_eq_none_iff, findEntry, List.find?_eq_none]
  simp [eq_comm]

theorem Shaped.nodup (h : Shaped m a s) (d : Nat) : ((s.entries d).map DirEntry.name).Nodup := by
  obtain ⟨c, hc⟩ := h.held
  exact hc.nodup d

theorem Shaped.empty_iff (h : Shaped m a s) (hdot : s.child i dot = some i) :
    s.Empty i ↔ (s.entries i).length ≤ 2 ∧
      (s.child i dotdot = none → (s.entries i).length ≠ 2) := by
  have hiff := dots_iff (h.nodup i) (Volume.child_ne_none.mp (by rw [hdot]; nofun))
  rw [length_map, ← Volume.child_ne_none, not_not] at hiff
  rw [← hiff]
  simp [Volume.Empty]

theorem Volume.Empty.child {j : Nat} (h : s.Empty i) (hc : s.child i n = some j) : ¬ Proper n := by
  obtain ⟨e, he, -⟩ := Option.map_eq_some_iff.mp hc
  rw [← findEntry_name he]
  exact h e (findEntry_mem he)

theorem Names.Shape.dot_of_child {t : Names} (h : t.Shape)
    (hc : t.child d n = some i) (hi : t.isDir i) : t.child i dot = some i := by
  by_cases hn : Proper n
  · exact h.whole d n i hn hc hi
  rcases not_proper.mp hn with rfl | rfl
  · rw [h.dot_eq hc]
    exact (h.self d dot i hc).2
  by_cases hd : d = t.root
  · rw [hd, h.rootUp] at hc
    rw [← Option.some.inj hc]
    exact h.rootSelf
  · obtain ⟨k, -, hk⟩ := h.housed d i hc hd
    exact (h.self i k d hk).2

end Empty

/-! ## References that are dropped at the end -/

/-- The memory of the inode, if it is a file, can be given back. -/
def Volume.Discards (s : Volume) (i : Nat) : Prop :=
  s.inodeType i = .file → (s.inode i).file.Disposable

section Drops

variable {m a : Account} {s s' : Volume} {d i p : Nat} {n : Name}

theorem Volume.discards_of_dir (h : s.inodeType i = .dir) : s.Discards i := fun hf =>
  absurd (h.symm.trans hf) (by decide)

theorem Volume.Discards.disposable (h : s.Discards i)
    (hdir : s.inodeType i = .dir → s.entries i = []) : s.Disposable i := by
  rw [Disposable]
  cases ht : s.inodeType i with
  | dir => exact hdir ht
  | file => exact h ht
  | symlink => trivial

variable (h : Shaped m a s)
include h

theorem Shaped.live (ha : 0 < a .lookup i) : s.live i = true := by
  obtain ⟨c, hc⟩ := h.held
  refine hc.live_of_pos (r := .lookup) ?_
  simp only [add_apply]
  omega

theorem Shaped.returns_dropNamed (ha : 0 < a .lookup i)
    (hc : s.child d n = some i) : Returns (dropLookup i) s := by
  obtain ⟨c, hheld⟩ := h.held
  have hpos := hheld.claimed_dirent_pos hc
  refine hheld.returns_dereference (q := .dirent) ?_ ?_ nofun
  · simp only [add_apply]
    omega
  · rw [add_apply]
    omega

theorem Shaped.returns_drop (ha : 0 < a .lookup i) (hi : s.Discards i) :
    Returns (dropLookup i) s := by
  by_cases hnil : s.entries i = []
  · obtain ⟨c, hheld⟩ := h.held
    refine hheld.returns_dereference_disposable ?_ (hi.disposable fun _ => hnil)
    simp only [add_apply]
    omega
  · exact h.returns_dropNamed ha (h.self hnil)

theorem Shaped.returns_dropDir (ha : 0 < a .lookup i)
    (hdir : s.inodeType i = .dir) : Returns (dropLookup i) s :=
  h.returns_drop ha (discards_of_dir hdir)

theorem Shaped.returns_dropLooked (hl : s.Looked s' (some i)) : Returns (dropLookup i) s' := by
  obtain ⟨c, hheld⟩ := h.held
  obtain ⟨hlive, rfl⟩ := hl
  exact ⟨_, _, ((hheld.counts.add hlive).dereference (hheld.counts.total_pos hlive)).1⟩

end Drops

/-! ## Names that are deleted -/

section Delete

variable {m a : Account} {s s' : Volume} {d i p : Nat} {name : Name}

theorem lookupInode_ne_zero {ino : Nat} {o : Option Nat}
    (h : lookupInode ino s = some (o, s')) : ino ≠ 0 := by
  have h := get_bind_inv h
  split at h
  · next hino =>
    rw [hino]
    decide
  · exact (assert_bind_inv h).1

theorem Shaped.returns_lookupInode {b : Account} (h : Shaped m (m + b) s)
    {ino : Nat} (hino : ino ≠ 0) : Returns (lookupInode ino) s := by
  obtain ⟨c, hheld⟩ := h.held
  rw [add_assoc] at hheld
  exact hheld.returns_lookupInode hino

theorem Shaped.returns_lookupObject (h : Shaped m a s) (hd : s.inodeType d = .dir) (name : Name) :
    Returns (bitbucketLookupObjectInDirectory d name) s := by
  obtain ⟨c, hheld⟩ := h.held
  exact hheld.returns_lookupObject hd

theorem Volume.Entered.short_of_child (h : s.Entered)
    (hc : s.child d name = some i) : Short name := by
  obtain ⟨e, he, -⟩ := Option.map_eq_some_iff.mp hc
  rw [← findEntry_name he]
  exact h.short d e (findEntry_mem he)

theorem Volume.Counted.nlink_pos_of_child {X : InodeType → Prop} (h : s.Counted X)
    (hX : X (s.inodeType i)) (hc : s.child d name = some i) (hne : i ≠ d) :
    0 < (s.inode i).nlink := by
  obtain ⟨e, he, rfl⟩ := Option.map_eq_some_iff.mp hc
  obtain ⟨hd, hi⟩ := h.used d e (findEntry_mem he)
  have hpos : 0 < (s.entries d).countP fun a => a.inode = e.inode :=
    countP_pos_iff.mpr ⟨e, findEntry_mem he, decide_eq_true rfl⟩
  have hle := Finset.single_le_sum
    (f := fun d => if d = e.inode then 0 else (s.entries d).countP fun a => a.inode = e.inode)
    (fun _ _ => Nat.zero_le _) (Finset.mem_range.mpr hd)
  rw [if_neg (Ne.symm hne)] at hle
  rw [h.links _ hi hX, others]
  omega

/-- A name is deleted of an inode that the caller has, or that can be freed. -/
theorem Shaped.returns_deleteDirectoryEntry (h : Shaped m a s) (hcount : s.Counted (· ≠ .symlink))
    (hp : 0 < a .lookup p) (hname : Proper name) (hc : s.child p name = some i)
    (hlink : s.inodeType i = .symlink → 0 < (s.inode i).nlink)
    (hlast : 0 < a .lookup i ∨ s.Discards i) :
    Returns (bitbucketDeleteDirectoryEntry p name) s := by
  obtain ⟨c, hheld⟩ := h.held
  refine hheld.returns_deleteDirectoryEntry hcount nofun (lookup_pos hp c)
    (hcount.short_of_child hc).1 (h.shape.self p name i hc).1 hc (fun hne => ?_)
    (fun _ x hx _ => ?_) ?_
  · by_cases hsym : s.inodeType i = .symlink
    · exact hlink hsym
    · exact hcount.nlink_pos_of_child hsym hc hne
  · obtain rfl := h.shape.home hname hc hx
    exact ⟨rfl, (h.shape.back i x).mpr hx⟩
  · rcases hlast with hi | hi
    · exact .inl (lookup_pos hi c)
    by_cases hdir : s.inodeType i = .dir
    · exact .inr (.inl ⟨hdir, hname.1, h.shape.whole p name i hname hc hdir⟩)
    · exact .inr (.inr ⟨hdir, hi.disposable fun hd => absurd hd hdir⟩)

theorem Shaped.returns_deleteDirectory (h : Shaped m a s) (hcount : s.Counted (· ≠ .symlink))
    (hi : 0 < a .lookup i) (hroot : i ≠ s.root)
    (hunnamed : ∀ e k, Proper k → s.names.child e k ≠ some i) (hdot : s.child i dot = some i)
    (honly : ∀ k x, s.child i k = some x → k = dot) :
    ∃ s', bitbucketDeleteDirectory i s = some (0, s') := by
  obtain ⟨c, hheld⟩ := h.held
  have hio := lookup_pos hi c
  have hdir : s.inodeType i = .dir := (h.shape.self i dot i hdot).1
  have hup : ∀ x, s.child i dotdot ≠ some x := fun x hx =>
    absurd (honly dotdot x hx) (by decide)
  have hpar : s.parent i = none := by
    cases hp : s.parent i with
    | none => rfl
    | some x => exact absurd ((h.shape.back i x).mp hp) (hup x)
  have hlen : (s.entries i).length ≤ 1 := by
    rw [← length_map DirEntry.name, ← toFinset_card_of_nodup (h.nodup i)]
    refine card_le_card (t := {dot}) fun k hk => ?_
    have hk := child_ne_none.mpr (mem_toFinset.mp hk)
    obtain ⟨x, hx⟩ := Option.ne_none_iff_exists'.mp hk
    exact Finset.mem_singleton.mpr (honly k x hx)
  obtain ⟨status, s', hdel⟩ : Returns (bitbucketDeleteDirectoryEntry i dot) s :=
    hheld.returns_deleteDirectoryEntry hcount nofun hio (by decide) hdir hdot
      (fun hne => absurd rfl hne) (fun _ x hx _ => absurd hx (hup x)) (.inl hio)
  have hz := (clear_deleteDirectoryEntry hdel).2.mpr (by
    show s.child i dot ≠ none
    rw [hdot]
    nofun)
  subst hz
  have h' := h.deleteDot hi hroot hunnamed hdot honly hdel
  have hlive := h'.live hi
  have hkept : 1 ≤ s'.referenceCount i := by
    obtain ⟨c', hheld'⟩ := h'.held
    exact hheld'.counts.kept i hlive
  have hmagic : ∀ {t : Volume}, t.live i = true →
      checkMagic i t = some ((), t) := fun ht => assert_pos ht _
  have hi' : s.live i = true := h.live hi
  refine ⟨s', ?_⟩
  rw [bitbucketDeleteDirectory, bind_some (hmagic hi'), get_bind,
    bind_some (assert_pos hdir s), if_neg (not_not.mpr hpar),
    if_neg (Nat.not_lt.mpr hlen), bind_some hdel, if_pos rfl,
    bind_some (hmagic hlive), get_bind,
    bind_some (assert_pos hkept s')]
  rfl

end Delete

/-! ## Removing a directory -/

section Rmdir

variable {s s' : Volume} {parent : Nat} {name : Name} {rs : List Reply}

/-- A rmdir request that has returned: it was refused, or the directory has at
most two entries, and lost its name and then its `.`, which was the only entry
left. -/
theorem rmdir_cases (hs : s.Orderly) (h : bitbucketRmdir parent name s = some (rs, s')) :
    (rs ≠ [.err 0] ∧ ∀ p i, s.resolve parent = some p →
        s.child p name = some i → s.inodeType i = .dir →
        2 < (s.entries i).length) ∨
      ∃ p i, s.resolve parent = some p ∧ s.child p name = some i ∧
        s.inodeType i = .dir ∧ (s.entries i).length ≤ 2 ∧ rs = [.err 0] ∧
        s'.names = (s.names.clear p name).clear i dot ∧
        (s.names.clear p name).parent i = none ∧
        (s.names.clear p name).child i dot ≠ none ∧
        ∀ k x, (s.names.clear p name).child i k = some x → k = dot := by
  revert s'
  revert rs
  show Ends _ s _
  have hP := Passes.calls (g := 0) (s := s)
  refine hP.looked .refl (fun _ _ => lookupInode_inv) (fun hp => ?_) fun p c r hp h => ?_
  · exact .pure (.inl ⟨by decide, fun p i hp' => nomatch hp.symm.trans hp'⟩)
  have hout : ∀ {b : List Reply} {t : Volume} {Q : List Reply → Volume → Prop},
      b ≠ [.err 0] → (∀ i, s.child p name = some i → s.inodeType i = .dir →
        2 < (s.entries i).length) → Ends (dropLookup p >>= fun _ => pure b) t
      fun rs s' => (rs ≠ [.err 0] ∧ ∀ p i, s.resolve parent = some p →
        s.child p name = some i → s.inodeType i = .dir →
        2 < (s.entries i).length) ∨ Q rs s' := by
    intro b t Q hb hbig
    refine Ends.bind (R := fun _ _ => True) (fun _ _ _ => trivial) fun _ _ _ =>
      .pure (.inl ⟨hb, fun p' i hp' => ?_⟩)
    obtain rfl := Option.mem_unique hp hp'
    exact hbig i
  refine .get_bind (.ite (fun hdir => hout (by decide) fun i hc => ?_) fun _ => ?_)
  · exact absurd (hs.shape.self p name i hc).1 hdir
  refine hP.lookupObject h (fun hno => hout (by decide) fun i hc => ?_) fun i c r hc _ => ?_
  · exact nomatch hno.symm.trans hc
  have hi : ∀ {i'}, s.child p name = some i' → i = i' := fun hc' =>
    Option.mem_unique hc hc'
  refine .get_bind (.ite (fun hdir => hout (by decide) fun i' hc' hdir' => ?_)
    fun hdir => .ite (fun hlen => hout (by decide) fun i' hc' _ => ?_) fun hlen => ?_)
  · exact absurd (hi hc' ▸ hdir') hdir
  · exact hi hc' ▸ hlen
  intro rs s' h
  obtain ⟨status, s1, hdel, h⟩ := bind_inv h
  obtain ⟨hn1, hz⟩ := clear_deleteDirectoryEntry hdel
  have hn1 : s1.names = s.names.clear p name := hn1
  rw [if_neg (not_not.mpr (hz.mpr fun hnone => nomatch hnone.symm.trans hc))] at h
  obtain ⟨status', s2, hdd, h⟩ := bind_inv h
  obtain ⟨hz', h⟩ := assert_bind_inv h
  obtain ⟨_, s3, hd, h⟩ := bind_inv h
  obtain ⟨_, s4, hd', h⟩ := bind_inv h
  obtain ⟨rfl, rfl⟩ := pure_inv h
  rw [hz'] at hdd
  obtain ⟨hpar, hlen', hdot⟩ := deleteDirectory_inv hdd
  obtain ⟨hn2, hz''⟩ := clear_deleteDirectoryEntry hdot
  have hsome := hz''.mp rfl
  refine .inr ⟨p, i, hp, hc, not_not.mp hdir, Nat.le_of_not_lt hlen, rfl, ?_⟩
  rw [names_dropLookup hd', names_dropLookup hd, hn2, ← hn1]
  refine ⟨rfl, hpar, hsome, fun k x hk => ?_⟩
  by_contra hne
  have hk' : s1.child i k ≠ none := fun hnone =>
    nomatch hnone.symm.trans hk
  have htwo := two_le_length (child_ne_none.mp hsome) (child_ne_none.mp hk') (Ne.symm hne)
  rw [length_map] at htwo
  omega

/-- A rmdir request returns if the directory that it removes is empty. -/
theorem returns_rmdir (hs : s.Orderly) (hparent : parent ≠ 0)
    (hempty : ∀ p i, s.resolve parent = some p → s.child p name = some i →
      s.inodeType i = .dir → (s.entries i).length ≤ 2 →
      Proper name ∧ s.Empty i) :
    Returns (bitbucketRmdir parent name) s := by
  have h : Shaped s.mounted (s.mounted + 0) s := by
    rw [add_zero]
    exact hs.toShaped
  refine .bind (h.returns_lookupInode hparent) fun o s1 hl => ?_
  obtain ⟨ho, hlook⟩ := lookupInode_inv hl
  have h1 := h.looked hlook
  have hq1 := Quiet.looked hlook
  cases o with
  | none => exact .pure _
  | some p =>
  refine .get_bind ?_
  split
  · exact .bind (h.returns_dropLooked hlook) fun _ _ _ => .pure _
  next hdir =>
  have hdir := not_not.mp hdir
  refine .bind (h1.returns_lookupObject hdir name) fun o' s2 hl' => ?_
  obtain ⟨-, ho', hlook'⟩ := lookupObject_inv hl'
  have h2 := h1.looked hlook'
  have hq2 := hq1.trans (.looked hlook')
  rw [hq1.child] at ho'
  have hdir2 : s2.inodeType p = .dir := by
    rw [hq2.inodeType, ← hq1.inodeType]
    exact hdir
  cases o' with
  | none =>
    exact .bind (h2.returns_dropDir (lookup_owe_pos _ p) hdir2) fun _ _ _ => .pure _
  | some i =>
  have hp : 0 < (found (found (s.mounted + 0) (some p))
      (some i)) .lookup p := lookup_pos (lookup_owe_pos _ p) _
  have hi : 0 < (found (found (s.mounted + 0) (some p)) (some i)) .lookup i := lookup_owe_pos _ i
  refine .get_bind ?_
  split
  · exact .bind (h2.returns_dropDir hp hdir2) fun _ _ _ => .pure _
  next hidir =>
  have hidir := not_not.mp hidir
  split
  · exact .bind (h2.returns_dropDir hp hdir2) fun _ _ _ => .pure _
  next hlen =>
  have hc : s2.child p name = some i := by
    rw [hq2.child]
    exact ho'.symm
  obtain ⟨hname, hemp⟩ := hempty p i ho.symm ho'.symm (by rw [← hq2.inodeType]; exact hidir)
    (by rw [← hq2.entries]; exact Nat.le_of_not_lt hlen)
  have hcount2 : s2.Counted (· ≠ .symlink) := hs.counted.edit (.same hq2.sameLinks)
  refine .bind (h2.returns_deleteDirectoryEntry hcount2 hp hname hc (by simp [hidir])
    (.inl hi)) ?_
  intro status s3 hdel
  have h3 := h2.deleteDirectoryEntry hp hname hdel
  have hcount3 := hcount2.edits (Edits.deleteDirectoryEntry s2 status s3 hdel)
  obtain ⟨hn3, hz⟩ := clear_deleteDirectoryEntry hdel
  have hdirs : ∀ x, s3.inodeType x = .dir ↔ s2.inodeType x = .dir := fun x =>
    iff_of_eq (congrFun ((congrArg Names.isDir hn3).trans clear_isDir) x)
  split
  · exact .bind (h3.returns_dropDir hp ((hdirs p).mpr hdir2)) fun _ _ _ => .pure _
  have hroot : i ≠ s3.root := by
    have hr : s3.root = s2.root := (congrArg Names.root hn3).trans clear_root
    exact hr ▸ h2.shape.ne_root hname hc
  have hdot : s3.names.child i dot = some i := by
    rw [hn3]
    exact Names.Shape.clear_dot hname (h2.shape.whole p name i hname hc hidir)
  have honly : ∀ k x, s3.names.child i k = some x → k = dot := by
    intro k x hk
    rw [hn3] at hk
    have hold : s.child i k = some x := by
      rw [← hq2.child]
      exact child_of_clear hk
    rcases not_proper.mp (hemp.child hold) with rfl | rfl
    · rfl
    · rw [h2.shape.clear_up hc] at hk
      cases hk
  have hunnamed : ∀ e k, Proper k → s3.names.child e k ≠ some i := by
    intro e k hk
    rw [hn3]
    exact h2.shape.clear_unnamed hname hc hidir hk
  obtain ⟨s4, hdd⟩ := h3.returns_deleteDirectory hcount3 hi hroot hunnamed hdot honly
  have h4 := h3.deleteDirectory hi hroot hunnamed hdd
  have hn4 := (clear_deleteDirectoryEntry (deleteDirectory_inv hdd).2.2).1
  have hdirs4 : ∀ x, s4.inodeType x = .dir ↔ s3.inodeType x = .dir := fun x =>
    iff_of_eq (congrFun ((congrArg Names.isDir hn4).trans clear_isDir) x)
  refine .bind ⟨0, s4, hdd⟩ fun status' s4' hdd' => ?_
  obtain ⟨rfl, rfl⟩ := Prod.mk.inj (Option.mem_unique hdd hdd')
  refine .assert_bind rfl (.bind (h4.returns_dropDir hi ?_) fun _ s5 hd => ?_)
  · exact (hdirs4 i).mpr ((hdirs i).mpr hidir)
  have h5 := Shaped.calls.dereference h4 hd
  refine .bind (h5.returns_dropDir (lookup_owe_pos _ p) ?_) fun _ _ _ => .pure _
  rw [(Quiet.dropLookup hd).inodeType]
  exact (hdirs4 p).mpr ((hdirs p).mpr hdir2)

end Rmdir

/-! ## Requests that remove names -/

/-- The name denotes the directory `i` in `p`. -/
structure Volume.Denotes (s : Volume) (parent : Nat) (name : Name) (p i : Nat) :
    Prop where
  parent : s.resolve parent = some p
  child : s.child p name = some i
  dir : s.inodeType i = .dir

/-- What requests that remove names are for: unlink refuses directories, and
rmdir returns, and removes exactly those that are empty. -/
def Volume.RemovalRight (s : Volume) : Request → Prop
  | .unlink parent name => ∀ p i, s.Denotes parent name p i →
    ∃ e s', e ≠ 0 ∧ bitbucketUnlink parent name s = some ([.err e], s') ∧ s.Quiet s'
  | .rmdir parent name => ∃ rs s', bitbucketRmdir parent name s = some (rs, s') ∧
    (rs = [.err 0] ↔ ∃ p i, s.Denotes parent name p i ∧ s.Empty i) ∧
    (rs = [.err 0] → ∀ p i, s.Denotes parent name p i → ∀ d n, s'.child d n ≠ some i)
  | _ => True

/-- The removals that are right: unlink of what is not a directory, and rmdir
of a directory with more than two entries, or of one under a proper name that
has its `..` unless `.` is its only entry. -/
def Volume.RemovesRight (s : Volume) : Request → Prop
  | .unlink parent name => ∀ p ∈ s.resolve parent, ∀ i ∈ s.child p name,
    s.inodeType i ≠ .dir
  | .rmdir parent name => parent ≠ 0 ∧ ∀ p ∈ s.resolve parent,
    ∀ i ∈ s.child p name, s.inodeType i = .dir → 2 < (s.entries i).length ∨ Proper name ∧
        (s.child i dotdot = none → (s.entries i).length ≠ 2)
  | _ => True

instance (s : Volume) (r : Request) : Decidable (s.RemovesRight r) := by
  casesm Request <;> dsimp only [RemovesRight] <;> infer_instance

section Right

variable {s s' : Volume} {parent p i : Nat} {name : Name} {rs : List Reply}

theorem Volume.Denotes.unique {p' i' : Nat} (h : s.Denotes parent name p i)
    (h' : s.Denotes parent name p' i') : p = p' ∧ i = i' := by
  obtain rfl := Option.mem_unique h.parent h'.parent
  exact ⟨rfl, Option.mem_unique h.child h'.child⟩

theorem Volume.Orderly.empty_iff (hs : s.Orderly) (h : s.Denotes parent name p i) :
    s.Empty i ↔ (s.entries i).length ≤ 2 ∧ (s.child i dotdot = none → (s.entries i).length ≠ 2) :=
  hs.toShaped.empty_iff (hs.shape.dot_of_child h.child h.dir)

theorem unlink_directory (h : bitbucketUnlink parent name s = some (rs, s'))
    (hd : s.Denotes parent name p i) (hs : s.Orderly) : rs = [.err 0] := by
  obtain ⟨o, s1, hl, h⟩ := bind_inv h
  have hq1 := Quiet.looked (lookupInode_inv hl).2
  obtain rfl : o = some p := (lookupInode_inv hl).1.trans hd.parent
  have h := get_bind_inv h
  have hdir : s.inodeType p = .dir := (hs.shape.self p name i hd.child).1
  rw [if_neg (not_not.mpr ((congrFun hq1.inodeType p).trans hdir))] at h
  obtain ⟨status, s2, hdel, h⟩ := bind_inv h
  obtain ⟨_, s3, hd', h⟩ := bind_inv h
  obtain ⟨rfl, rfl⟩ := pure_inv h
  have hz := (clear_deleteDirectoryEntry hdel).2.mpr (by
    show s1.child p name ≠ none
    rw [hq1.child, hd.child]
    nofun)
  rw [hz]

theorem proper_of_removed (hs : s.Orderly) (hc : s.child p name = some i)
    (hpar : (s.names.clear p name).parent i = none)
    (hdot : (s.names.clear p name).child i dot ≠ none)
    (honly : ∀ k x, (s.names.clear p name).child i k = some x → k = dot) : Proper name := by
  by_contra hn
  rcases not_proper.mp hn with rfl | rfl
  · obtain rfl := hs.shape.dot_eq hc
    exact hdot clear_child_self
  by_cases hp : p = s.root
  · -- the root directory keeps its parent
    subst hp
    obtain rfl := Option.mem_unique hs.shape.rootUp hc
    have hc' : s.names.child s.root dotdot = some s.root := hc
    rw [Names.clear, hc'] at hpar
    dsimp only at hpar
    have hdir : s.names.isDir s.root := hs.shape.rootDir
    rw [if_pos hdir, detach, put_child_self] at hpar
    have hback := (hs.shape.back s.root s.root).mpr hc
    cases hpar.symm.trans hback
  · obtain ⟨k, hk, hik⟩ := hs.shape.housed p i hc hp
    refine hk.1 (honly k p ?_)
    rw [clear_child ⟨fun he => hk.2 he.2, fun _ _ _ he => hk.2 he.2⟩]
    exact hik

theorem unlink_right_iff (hs : s.Orderly) :
    s.RemovalRight (.unlink parent name) ↔ s.RemovesRight (.unlink parent name) := by
  constructor
  · intro h p hp i hi hdir
    have hd : s.Denotes parent name p i := ⟨hp, hi, hdir⟩
    obtain ⟨e, s', he, hr, -⟩ := h p i hd
    have hzero := unlink_directory hr hd hs
    rw [List.cons.injEq, Reply.err.injEq] at hzero
    exact he hzero.1
  · intro h p i hd
    exact absurd hd.dir (h p hd.parent i hd.child)

/-- No entry names a directory that was empty and has lost its name and its
`.`. -/
theorem removed_unnamed (hs : s.Orderly) (hd : s.Denotes parent name p i)
    (hn : Proper name) (hempty : s.Empty i) (d : Nat) (n : Name) :
    ((s.names.clear p name).clear i dot).child d n ≠ some i := by
  intro hdn
  have hmid := child_of_clear hdn
  have hold : s.names.child d n = some i := child_of_clear hmid
  by_cases hprop : Proper n
  · exact hs.shape.clear_unnamed hn hd.child hd.dir hprop hmid
  rcases not_proper.mp hprop with rfl | rfl
  · obtain rfl := hs.shape.dot_eq hold
    rw [clear_child_self] at hdn
    cases hdn
  by_cases hroot : d = s.names.root
  · rw [hroot, hs.shape.rootUp] at hold
    exact hs.shape.ne_root hn hd.child (Option.some.inj hold).symm
  · obtain ⟨k, hk, hik⟩ := hs.shape.housed d i hold hroot
    exact hempty.child hik hk

theorem rmdir_right_iff (hs : s.Orderly) :
    s.RemovalRight (.rmdir parent name) ↔ s.RemovesRight (.rmdir parent name) := by
  constructor
  · rintro ⟨rs, s', hr, hiff, -⟩
    refine ⟨?_, fun p hp i hi hdir => ?_⟩
    · obtain ⟨o, s1, hl, -⟩ := bind_inv hr
      exact lookupInode_ne_zero hl
    have hd : s.Denotes parent name p i := ⟨hp, hi, hdir⟩
    rcases rmdir_cases hs hr with ⟨-, hlong⟩ |
      ⟨p', i', hp', hi', hdir', -, rfl, -, hpar, hdot, honly⟩
    · exact .inl (hlong p i hp hi hdir)
    obtain ⟨rfl, rfl⟩ := hd.unique ⟨hp', hi', hdir'⟩
    obtain ⟨p'', i'', hd'', hempty⟩ := hiff.mp rfl
    obtain ⟨rfl, rfl⟩ := hd.unique hd''
    exact .inr ⟨proper_of_removed hs hi hpar hdot honly, ((hs.empty_iff hd).mp hempty).2⟩
  rintro ⟨hparent, hcond⟩
  have hempty : ∀ p i, s.Denotes parent name p i →
      (s.entries i).length ≤ 2 → Proper name ∧ s.Empty i := by
    intro p i hd hlen
    rcases hcond p hd.parent i hd.child hd.dir with hlong | ⟨hn, hup⟩
    · omega
    · exact ⟨hn, (hs.empty_iff hd).mpr ⟨hlen, hup⟩⟩
  obtain ⟨rs, s', hr⟩ := returns_rmdir hs hparent
    fun p i hp hi hdir => hempty p i ⟨hp, hi, hdir⟩
  refine ⟨rs, s', hr, ?_⟩
  rcases rmdir_cases hs hr with ⟨hne, hlong⟩ | ⟨p, i, hp, hi, hdir, hlen, rfl, hn', -⟩
  · refine ⟨iff_of_false hne ?_, fun he => absurd he hne⟩
    rintro ⟨p, i, hd, hemp⟩
    have := hlong p i hd.parent hd.child hd.dir
    have := ((hs.empty_iff hd).mp hemp).1
    omega
  · have hd : s.Denotes parent name p i := ⟨hp, hi, hdir⟩
    obtain ⟨hn, hemp⟩ := hempty p i hd hlen
    refine ⟨iff_of_true rfl ⟨p, i, hd, hemp⟩, fun _ p' i' hd' d n => ?_⟩
    obtain ⟨rfl, rfl⟩ := hd.unique hd'
    show s'.names.child d n ≠ some i
    rw [hn']
    exact removed_unnamed hs hd hn hemp d n

end Right

/-- In every state that a volume reaches by requests that keep it orderly,
exactly the removals with the condition do what they are for. -/
theorem removal_right_iff {u : Userdata} {root bitbucket : NewInode} {others : List NewInode}
    {s s' : Volume} {rs : List Request} {tr : List Reply}
    (hnew : ((root :: bitbucket :: others).map NewInode.ino).Nodup)
    (hinit : bitbucketInit root bitbucket others .empty = some ((), s))
    (hrun : run (step u) s rs = some (tr, s')) (hrs : Along (step u) KeepsOrder s rs)
    (r : Request) : s'.RemovalRight r ↔ s'.RemovesRight r := by
  have hs := orderly_run hnew hinit hrun hrs
  cases r with
  | unlink => exact unlink_right_iff hs
  | rmdir => exact rmdir_right_iff hs
  | _ => exact Iff.rfl

/-- A directory from which a file was unlinked. -/
theorem removal_right_iff_rmdir : ∃ s s1 tr, newMount = some ((), s) ∧ run (step .plain) s
      [.mkdir 1 ['a'] 0o755 ⟨11, 0⟩, .create 11 ['f'] 0o100644 ⟨12, 0⟩,
       .unlink 11 ['f']] = some (tr, s1) ∧
    s1.Denotes 1 ['a'] 0 6 ∧ s1.RemovalRight (.rmdir 1 ['a']) := by
  refine exists_run (K := KeepsOrder) (P := fun _ _ s1 =>
    s1.RemovesRight (.rmdir 1 ['a']) ∧
      s1.resolve 1 = some 0 ∧ s1.child 0 ['a'] = some 6 ∧ s1.inodeType 6 = .dir)
    (by decide +kernel) ?_
  rintro s tr s1 hs hr hkeeps ⟨hright, hp, hc, hdir⟩
  exact ⟨⟨hp, hc, hdir⟩, (removal_right_iff (by decide) hs hr hkeeps _).mpr hright⟩

/-- A directory that was renamed holds a file. It can be unlinked, and rmdir,
which takes it for empty, fails after it has deleted its name. -/
theorem unlink_and_rmdir_of_renamed : ∃ s s1 s2 tr, newMount = some ((), s) ∧ run (step .plain) s
      [.mkdir 1 ['a'] 0o755 ⟨11, 0⟩, .rename 1 ['a'] 1 ['b'] 0,
       .create 11 ['f'] 0o100644 ⟨12, 0⟩] = some (tr, s1) ∧
    s1.Denotes 1 ['b'] 0 6 ∧
    bitbucketUnlink 1 ['b'] s1 = some ([.err 0], s2) ∧
    s2.child 0 ['b'] = none ∧ bitbucketRmdir 1 ['b'] s1 = none ∧
    ¬ s1.RemovalRight (.unlink 1 ['b']) ∧ ¬ s1.RemovalRight (.rmdir 1 ['b']) := by
  refine exists_run_next (K := fun _ _ => True) (P := fun _ _ s1 =>
    (bitbucketUnlink 1 ['b'] s1).map (fun q => (q.1, q.2.child 0 ['b'])) =
        some ([.err 0], none) ∧ (bitbucketRmdir 1 ['b'] s1).isNone ∧
      s1.resolve 1 = some 0 ∧ s1.child 0 ['b'] = some 6 ∧ s1.inodeType 6 = .dir)
    (by decide +kernel) ?_
  rintro s tr s1 - - - ⟨hun, hrm, hp, hc, hdir⟩
  obtain ⟨⟨_, s2⟩, hu, hend⟩ := Option.map_eq_some_iff.mp hun
  obtain ⟨rfl, hgone⟩ := Prod.mk.inj hend
  have hrm := Option.isNone_iff_eq_none.mp hrm
  have hd : s1.Denotes 1 ['b'] 0 6 := ⟨hp, hc, hdir⟩
  refine ⟨s2, hd, hu, hgone, hrm, fun h => ?_, fun h => ?_⟩
  · obtain ⟨e, s', he, hu', -⟩ := h 0 6 hd
    simp only [hu, Option.some.injEq, Prod.mk.injEq, List.cons.injEq, Reply.err.injEq] at hu'
    exact he hu'.1.1.symm
  · obtain ⟨rs, s', hr', -⟩ := h
    rw [hrm] at hr'
    cases hr'

end Finesse.Bitbucket
