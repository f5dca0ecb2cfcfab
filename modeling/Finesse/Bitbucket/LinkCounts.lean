import Finesse.Bitbucket.Quiet
import Finesse.Bitbucket.Renaming

/-!
# Counts of links

`st_nlink` of an inode and the directory entries that name it. An entry for
another inode is counted when it is made and when it is removed, and an
entry for the directory itself is not, so what the count of a directory
should be is one, for its `.`, and the number of entries in other directories
that name it.

Every change that a handler makes to entries and counts is one of a few
edits. `Counted` is kept by each of them; what is left are the two requests
that do something else.
-/

namespace Finesse.Bitbucket

open Prog Function Volume List Machine Option DirEntry

variable {e e' : DirEntry} {link : Name}

namespace Volume

/-- The entries of other directories that name `i`. -/
def others (s : Volume) (i : Nat) : Nat :=
  ∑ d ∈ Finset.range s.next, if d = i then 0 else (s.entries d).countP fun e => e.inode = i

/-- A name that an entry may have. -/
def Short (n : Name) : Prop := n ≠ [] ∧ n.length + 1 < 1024

/-- Entries have different names, are made in directories and lead from and
to inodes. -/
structure Entered (s : Volume) : Prop where
  nodup : ∀ d, ((s.entries d).map name).Nodup
  used : ∀ d, ∀ e ∈ s.entries d, d < s.next ∧ e.inode < s.next
  dirs : ∀ d, s.entries d ≠ [] → s.inodeType d = .dir
  short : ∀ d, ∀ e ∈ s.entries d, Short e.name

/-- The count of every inode of one of the types `X` is the number of entries
in other directories that name it, and one more for a directory. -/
structure Counted (X : InodeType → Prop) (s : Volume) : Prop
    extends Entered s where
  links : ∀ i, i < s.next → X (s.inodeType i) →
    (s.inode i).nlink = (if s.inodeType i = .dir then 1 else 0) + s.others i

/-- Nothing changes that the counts are about. -/
structure SameLinks (s s' : Volume) : Prop where
  entries : s'.entries = s.entries
  next : s'.next = s.next
  inodeType : s'.inodeType = s.inodeType
  nlink : ∀ i, (s'.inode i).nlink = (s.inode i).nlink
  epoch : ∀ i, (s.inode i).epoch ≤ (s'.inode i).epoch

/-- The entry under a name is removed, which named `i`. -/
def unlinkEntry (s : Volume) (d : Nat) (n : Name) (i : Nat) : Volume :=
  if i = d then s.removeEntry d n
  else (s.removeEntry d n).setInode i fun k => { k with nlink := k.nlink - 1 }

/-- The changes to entries and counts. -/
inductive Edit (X : InodeType → Prop) : Volume → Volume → Prop
  | same {s s' : Volume} (h : s.SameLinks s') : Edit X s s'
  | create {s : Volume} (t : InodeType) (new : NewInode) (b : Bool) :
    Edit X s (s.create t new b)
  /-- the directory was locked for the entry -/
  | insert {s s1 : Volume} {d i : Nat} {n : Name} (h : s.SameLinks s1)
    (hlock : (s.inode d).epoch < (s1.inode d).epoch) (hd : d < s1.next)
    (hi : i < s1.next) (hdir : s1.inodeType d = .dir) (hn : Short n)
    (hfree : findEntry (s1.entries d) n = none) : Edit X s (s1.insertEntry d i n)
  | unlink {s : Volume} {d : Nat} {n : Name} {e : DirEntry}
    (he : findEntry (s.entries d) n = some e)
    (hpos : e.inode ≠ d → 0 < (s.inode e.inode).nlink) :
    Edit X s (s.unlinkEntry d n e.inode)
  /-- the count of an inode that is not of the types `X` -/
  | relink {s : Volume} {i : Nat} {f : Inode → Inode}
    (hf : ∀ k, (f k).inodeType = k.inodeType)
    (he : ∀ k, (f k).epoch = k.epoch) (hi : ¬ X (s.inodeType i)) :
    Edit X s (s.setInode i f)

/-- Any number of edits. -/
abbrev Edits (X : InodeType → Prop) := Relation.ReflTransGen (Edit X)

theorem Quiet.sameLinks {s s' : Volume} (h : s.Quiet s') : s.SameLinks s' :=
  ⟨h.entries, h.next, h.inodeType, h.nlink, h.epoch⟩

/-! ## Entries that are counted -/

section Others

variable {s s' : Volume} {d i : Nat} {n : Name}

theorem SameLinks.others (h : s.SameLinks s') (i : Nat) : s'.others i = s.others i := by
  rw [Volume.others, Volume.others, h.entries, h.next]

theorem others_setEntries {f : List DirEntry → List DirEntry} {x a b : Nat} (hd : d < s.next)
    (hf : d ≠ x → (f (s.entries d)).countP (fun e => e.inode = x) + a =
      (s.entries d).countP (fun e => e.inode = x) + b)
    (hself : d = x → a = b) :
    (s.setEntries d f).others x + a = s.others x + b := by
  refine Finset.sum_range_change hd (fun e he => ?_) ?_
  · simp [setEntries, he]
  by_cases hx : d = x
  · simp [hx, hself hx]
  · simpa [setEntries, hx] using hf hx

theorem others_insertEntry (hd : d < s.next) (x : Nat) : (s.insertEntry d i n).others x =
      s.others x + if x = i ∧ i ≠ d then 1 else 0 := by
  have h := others_setEntries (s := s) (x := x) (a := 0) (f := (⟨n, i, (s.inode d).epoch⟩ :: ·))
    (b := if x = i ∧ i ≠ d then 1 else 0) hd ?_ ?_
  · rw [insertEntry]
    split
    · exact h
    · exact h
  · intro hx
    rw [countP_cons]
    by_cases hxi : x = i
    · subst hxi
      simp [Ne.symm hx]
    · simp [hxi, Ne.symm hxi]
  · rintro rfl
    rw [if_neg fun h => h.2 h.1.symm]

theorem others_removeEntry (hd : d < s.next)
    (hnodup : ((s.entries d).map name).Nodup) (he : findEntry (s.entries d) n = some e)
    (x : Nat) : (s.removeEntry d n).others x + (if x = e.inode ∧ e.inode ≠ d then 1 else 0) =
      s.others x := by
  refine (others_setEntries (b := 0) hd ?_ ?_).trans (Nat.add_zero _)
  · intro hx
    have hc := countP_remove hnodup he x
    by_cases hxe : x = e.inode
    · rw [if_pos hxe] at hc
      rw [if_pos ⟨hxe, fun h => hx (h.symm.trans hxe.symm)⟩, hc, Nat.add_zero]
    · rw [if_neg hxe] at hc
      rw [if_neg fun h => hxe h.1, hc, Nat.add_zero]
  · rintro rfl
    rw [if_neg fun h => h.2 h.1.symm]

theorem others_redirectEntry {j : Nat} (hd : d < s.next)
    (hnodup : ((s.entries d).map name).Nodup) (he : findEntry (s.entries d) n = some e)
    (x : Nat) : (s.redirectEntry d n j).others x + (if x = e.inode ∧ e.inode ≠ d then 1 else 0) =
      s.others x + if x = j ∧ j ≠ d then 1 else 0 := by
  refine others_setEntries hd ?_ ?_
  · intro hx
    have hc := countP_redirect hnodup he j x
    have hiff (k : Nat) : (x = k ∧ k ≠ d) ↔ x = k :=
      ⟨fun h => h.1, fun h => ⟨h, fun hk => hx (hk.symm.trans h.symm)⟩⟩
    simp only [hiff]
    exact hc
  · rintro rfl
    rw [if_neg fun h => h.2 h.1.symm, if_neg fun h => h.2 h.1.symm]

theorem others_create {t : InodeType} {new : NewInode} {b : Bool} (x : Nat) :
    (s.create t new b).others x = s.others x := by
  show ∑ d ∈ Finset.range (s.next + 1), _ = ∑ d ∈ Finset.range s.next, _
  have hnew : (s.create t new b).entries s.next = [] := update_self _ _ _
  rw [Finset.sum_range_succ, hnew, countP_nil, ite_self, Nat.add_zero]
  refine Finset.sum_congr rfl fun d hd => ?_
  have hd : (s.create t new b).entries d = s.entries d :=
    update_of_ne (Nat.ne_of_lt (Finset.mem_range.mp hd)) _ _
  rw [hd]

theorem Entered.others_next (h : s.Entered) : s.others s.next = 0 := by
  refine Finset.sum_eq_zero fun d hd => ?_
  rw [if_neg (Nat.ne_of_lt (Finset.mem_range.mp hd)), countP_eq_zero]
  intro e he
  have := (h.used d e he).2
  simp only [decide_eq_true_eq]
  omega

end Others

/-! ## Edits -/

section Edits

variable {X : InodeType → Prop} {s s' : Volume} {d i : Nat} {n : Name}

theorem insertEntry_entries : (s.insertEntry d i n).entries =
      update s.entries d (⟨n, i, (s.inode d).epoch⟩ :: s.entries d) := by
  rw [insertEntry]
  split <;> rfl

theorem insertEntry_next : (s.insertEntry d i n).next = s.next := by
  rw [insertEntry]
  split <;> rfl

theorem insertEntry_inodeType : (s.insertEntry d i n).inodeType = s.inodeType := by
  rw [insertEntry]
  split
  · exact inodeType_setInode fun _ => rfl
  · rfl

theorem insertEntry_nlink (x : Nat) : ((s.insertEntry d i n).inode x).nlink =
    (s.inode x).nlink + if x = i ∧ i ≠ d then 1 else 0 := by
  rw [insertEntry]
  by_cases hid : i = d
  · simp [hid, setEntries]
  by_cases hx : x = i
  · subst hx
    simp [hid, setInode, setEntries]
  · simp [hid, hx, setInode, setEntries]

theorem unlinkEntry_next : (s.unlinkEntry d n i).next = s.next := by
  rw [unlinkEntry]
  split <;> rfl

theorem unlinkEntry_entries : (s.unlinkEntry d n i).entries = (s.removeEntry d n).entries := by
  rw [unlinkEntry]
  split <;> rfl

theorem unlinkEntry_inodeType : (s.unlinkEntry d n i).inodeType = s.inodeType := by
  rw [unlinkEntry]
  split
  · rfl
  · exact inodeType_setInode fun _ => rfl

theorem unlinkEntry_nlink (hpos : i ≠ d → 0 < (s.inode i).nlink) (x : Nat) :
    ((s.unlinkEntry d n i).inode x).nlink +
      (if x = i ∧ i ≠ d then 1 else 0) = (s.inode x).nlink := by
  rw [unlinkEntry]
  by_cases hid : i = d
  · simp [hid, removeEntry, setEntries]
  by_cases hx : x = i
  · subst hx
    have := hpos hid
    simp only [hid, ne_eq, not_false_eq_true, and_self, if_true, if_false,
      setInode, removeEntry, setEntries, update_self]
    omega
  · simp [hid, hx, setInode, removeEntry, setEntries]

theorem Entered.change (h : s.Entered) {es : List DirEntry}
    (hentries : s'.entries = update s.entries d es) (hnext : s.next ≤ s'.next)
    (htype : ∀ x, s.entries x ≠ [] → s'.inodeType x = s.inodeType x)
    (hnodup : (es.map name).Nodup) (hes : ∀ e ∈ es, e.inode < s'.next ∧ Short e.name)
    (hd : es ≠ [] → d < s'.next ∧ s'.inodeType d = .dir) : s'.Entered := by
  have hcases : ∀ {x e}, e ∈ s'.entries x → x = d ∧ e ∈ es ∨ e ∈ s.entries x := by
    intro x e he
    rw [hentries] at he
    by_cases hx : x = d
    · rw [hx, update_self] at he
      exact .inl ⟨hx, he⟩
    · rw [update_of_ne hx] at he
      exact .inr he
  refine ⟨fun x => ?_, fun x e he => ?_, fun x hx => ?_, fun x e he => ?_⟩
  · rw [hentries]
    by_cases hx : x = d
    · rwa [hx, update_self]
    · rw [update_of_ne hx]
      exact h.nodup x
  · rcases hcases he with ⟨rfl, he⟩ | he
    · exact ⟨(hd (ne_nil_of_mem he)).1, (hes e he).1⟩
    · exact (h.used x e he).imp (Nat.lt_of_lt_of_le · hnext) (Nat.lt_of_lt_of_le · hnext)
  · obtain ⟨e, he⟩ := exists_mem_of_ne_nil _ hx
    rcases hcases he with ⟨rfl, he⟩ | he
    · exact (hd (ne_nil_of_mem he)).2
    · exact (htype x (ne_nil_of_mem he)).trans (h.dirs x (ne_nil_of_mem he))
  · rcases hcases he with ⟨-, he⟩ | he
    · exact (hes e he).2
    · exact h.short x e he

theorem Entered.insert (h : s.Entered) (hd : d < s.next) (hi : i < s.next)
    (hdir : s.inodeType d = .dir) (hn : Short n) (hfree : findEntry (s.entries d) n = none) :
    (s.insertEntry d i n).Entered := by
  refine h.change insertEntry_entries (Nat.le_of_eq insertEntry_next.symm)
    (fun x _ => congrFun insertEntry_inodeType x) ?_ ?_ fun _ => ?_
  · rw [map_cons, nodup_cons]
    refine ⟨fun hmem => ?_, h.nodup d⟩
    obtain ⟨a, ha, han⟩ := mem_map.mp hmem
    exact absurd han (by simpa using List.find?_eq_none.mp hfree a ha)
  · rw [insertEntry_next]
    exact forall_mem_cons.mpr ⟨⟨hi, hn⟩, fun e he => ⟨(h.used d e he).2, h.short d e he⟩⟩
  · rw [insertEntry_next, insertEntry_inodeType]
    exact ⟨hd, hdir⟩

theorem Entered.sub (h : s.Entered) {es : List DirEntry}
    (hentries : s'.entries = update s.entries d es) (hnext : s'.next = s.next)
    (htype : s'.inodeType = s.inodeType) (hes : (es.map name).Sublist ((s.entries d).map name))
    (hinode : ∀ e ∈ es, e.inode < s.next) : s'.Entered := by
  have hname : ∀ e ∈ es, ∃ e' ∈ s.entries d, e'.name = e.name := fun e he =>
    mem_map.mp (hes.subset (mem_map_of_mem he))
  refine h.change hentries (Nat.le_of_eq hnext.symm) (fun x _ => congrFun htype x)
    ((h.nodup d).sublist hes) (fun e he => ?_) fun hne => ?_
  · obtain ⟨e', he', hn⟩ := hname e he
    exact ⟨hnext ▸ hinode e he, hn ▸ h.short d e' he'⟩
  · obtain ⟨e, he⟩ := exists_mem_of_ne_nil _ hne
    obtain ⟨e', he', -⟩ := hname e he
    rw [hnext, htype]
    exact ⟨(h.used d e' he').1, h.dirs d (ne_nil_of_mem he')⟩

theorem Entered.unlink (h : s.Entered) : (s.unlinkEntry d n i).Entered :=
  h.sub unlinkEntry_entries unlinkEntry_next unlinkEntry_inodeType (filter_sublist.map _)
    fun e he => (h.used d e (mem_filter.mp he).1).2

theorem Entered.create {t : InodeType} {new : NewInode} {b : Bool} (h : s.Entered) :
    (s.create t new b).Entered := by
  have hentries : (s.create t new b).entries = update s.entries s.next [] := rfl
  refine h.change hentries (Nat.le_succ _) (fun x hx => ?_) nodup_nil nofun (absurd rfl)
  obtain ⟨e, he⟩ := exists_mem_of_ne_nil _ hx
  simp [Volume.inodeType, Volume.create, Nat.ne_of_lt (h.used x e he).1]

theorem SameLinks.entered (h : s.SameLinks s') (hs : s.Entered) : s'.Entered := by
  refine ⟨?_, ?_, ?_, ?_⟩
  · rw [h.entries]
    exact hs.nodup
  · rw [h.entries, h.next]
    exact hs.used
  · rw [h.entries, h.inodeType]
    exact hs.dirs
  · rw [h.entries]
    exact hs.short

theorem SameLinks.counted (hs : s.SameLinks s') (h : s.Counted X) : s'.Counted X := by
  refine ⟨hs.entered h.toEntered, fun i hi hx => ?_⟩
  rw [hs.inodeType] at hx ⊢
  rw [hs.nlink, hs.others]
  exact h.links i (hs.next ▸ hi) hx

theorem Counted.edit (h : s.Counted X) (he : Edit X s s') : s'.Counted X := by
  cases he with
  | same hs => exact hs.counted h
  | create t new b =>
    refine ⟨h.toEntered.create, fun i hi hx => ?_⟩
    rw [others_create]
    by_cases hin : i = s.next
    · subst hin
      rw [h.others_next]
      simp [create, inodeType, initialInode]
    have hinode : (s.create t new b).inode i = s.inode i := update_of_ne hin _ _
    have hi : i < s.next + 1 := hi
    rw [inodeType, hinode] at hx ⊢
    exact h.links i (by omega) hx
  | @insert s1 d i n hs _ hd hi hdir hn hfree =>
    have h := hs.counted h
    refine ⟨h.insert hd hi hdir hn hfree, fun x hx hX => ?_⟩
    rw [insertEntry_inodeType] at hX ⊢
    rw [insertEntry_next] at hx
    rw [insertEntry_nlink, others_insertEntry hd, h.links x hx hX]
    exact Nat.add_assoc _ _ _
  | @unlink d n e hf hpos =>
    refine ⟨h.unlink, fun x hx hX => ?_⟩
    rw [unlinkEntry_inodeType] at hX ⊢
    rw [unlinkEntry_next] at hx
    have hd := (h.used d e (findEntry_mem hf)).1
    have hlinks := h.links x hx hX
    have hothers := others_removeEntry hd (h.nodup d) hf x
    have hnlink := unlinkEntry_nlink (n := n) hpos x
    have hsame : (s.unlinkEntry d n e.inode).others x = (s.removeEntry d n).others x := by
      rw [others, others, unlinkEntry_entries, unlinkEntry_next]
      rfl
    omega
  | @relink i f hf _ hi =>
    refine ⟨⟨h.nodup, h.used, ?_, h.short⟩, fun x hx hX => ?_⟩
    · rw [inodeType_setInode hf]
      exact h.dirs
    rw [inodeType_setInode hf] at hX ⊢
    have hxi : x ≠ i := by
      rintro rfl
      exact hi hX
    have hinode : (s.setInode i f).inode x = s.inode x := update_of_ne hxi _ _
    rw [hinode]
    exact h.links x hx hX

theorem Counted.edits (h : s.Counted X) (he : Edits X s s') : s'.Counted X := by
  induction he with
  | refl => exact h
  | tail _ hstep ih => exact ih.edit hstep

end Edits

end Volume

/-! ## Functions -/

theorem Volume.mode_tick (s : Volume) (i j : Nat) :
    ((s.tick i).inode j).mode = (s.inode j).mode := by
  by_cases hj : j = i <;> simp [tick, setInode, hj]

theorem Volume.epoch_tick (s : Volume) (i : Nat) :
    (s.inode i).epoch < ((s.tick i).inode i).epoch := by
  simp [tick, setInode]

theorem insertDirectoryEntry_edit {s s' : Volume} {d i : Nat} {name : Name} {status : Int}
    (h : bitbucketInsertDirectoryEntry d i name s = some (status, s')) :
    ∃ s1, s.SameLinks s1 ∧ (s.inode d).epoch < (s1.inode d).epoch ∧
      (∀ j, (s1.inode j).mode = (s.inode j).mode) ∧ d < s1.next ∧ i < s1.next ∧
      s1.inodeType d = .dir ∧ Short name ∧
      (findEntry (s1.entries d) name = none ∧ status = 0 ∧ s' = s1.insertEntry d i name ∨
        findEntry (s1.entries d) name ≠ none ∧ status = EEXIST ∧ s' = s1) := by
  obtain ⟨hdir, hn, hd, hi, s1, hs1, hcase⟩ := insertDirectoryEntry_inv h
  have hq1 : s.Quiet (s.addReferences i .dirent 1) := .of_inode rfl rfl rfl rfl rfl rfl
  have hq2 := hq1.trans (.tick _ d)
  obtain ⟨hsame, hlock, hmode⟩ : s.SameLinks s1 ∧ (s.inode d).epoch < (s1.inode d).epoch ∧
      ∀ j, (s1.inode j).mode = (s.inode j).mode := by
    have htick := epoch_tick (s.addReferences i .dirent 1) d
    rw [hs1, tickTwo]
    split
    · have hq := Quiet.tick ((s.addReferences i .dirent 1).tick d) i
      exact ⟨(hq2.trans hq).sameLinks, Nat.lt_of_lt_of_le htick (hq.epoch d),
        fun j => (mode_tick _ i j).trans (mode_tick _ d j)⟩
    · exact ⟨hq2.sameLinks, htick, mode_tick _ d⟩
  refine ⟨s1, hsame, hlock, hmode, hsame.next ▸ lt_next_of_live hd,
    hsame.next ▸ lt_next_of_live hi, (congrFun hsame.inodeType d).trans hdir, hn, ?_⟩
  rw [hsame.entries]
  rwa [child, map_eq_none_iff, ne_eq, map_eq_none_iff] at hcase

theorem removeDirEntry_inv {s s' : Volume} {d : Nat} {name : Name} {o : Option DirEntry}
    (h : removeDirEntryFromDirectory d name s = some (o, s')) :
    o = findEntry (s.entries d) name ∧ (o = none ∧ s.SameLinks s' ∨
        ∃ e s1, o = some e ∧ s.SameLinks s1 ∧ findEntry (s1.entries d) name = some e ∧
          (e.inode ≠ d → 0 < (s1.inode e.inode).nlink) ∧
          (s1.unlinkEntry d name e.inode).SameLinks s') := by
  obtain ⟨-, h⟩ := assert_bind_inv (get_bind_inv h)
  obtain ⟨_, s1, hl, h⟩ := bind_inv h
  obtain ⟨-, rfl⟩ := lockInode_inv hl
  have hq1 := Quiet.tick s d
  cases hc : findEntry (s.entries d) name with
  | none =>
    rw [hc] at h
    obtain ⟨rfl, rfl⟩ := pure_inv h
    exact ⟨rfl, .inl ⟨rfl, hq1.sameLinks⟩⟩
  | some e =>
    rw [hc] at h
    dsimp only at h
    split at h
    · next hed =>
      have h := modify_bind_inv h
      obtain ⟨rfl, rfl⟩ := pure_inv h
      refine ⟨rfl, .inr ⟨e, s.tick d, rfl, hq1.sameLinks, hc, absurd hed, ?_⟩⟩
      rw [unlinkEntry, if_pos hed]
      exact (Quiet.refl _).sameLinks
    next hed =>
    obtain ⟨_, s2, hr, h⟩ := bind_inv h
    obtain ⟨_, s3, hl', h⟩ := bind_inv h
    have h := modify_bind_inv h
    obtain ⟨_, s4, hlink, h⟩ := bind_inv h
    obtain ⟨_, s5, hd, h⟩ := bind_inv h
    obtain ⟨rfl, rfl⟩ := pure_inv h
    obtain ⟨hpos, hlink⟩ := assert_bind_inv (get_bind_inv hlink)
    obtain rfl := modify_inv hlink
    have hq3 : s.Quiet s3 := hq1.trans ((Quiet.reference hr).trans (.lockInode hl'))
    refine ⟨rfl, .inr ⟨e, s3, rfl, hq3.sameLinks, ?_, fun _ => hpos, ?_⟩⟩
    · rw [hq3.entries]
      exact hc
    · rw [unlinkEntry, if_neg hed]
      exact (Quiet.dereference hd).sameLinks

namespace Volume.Edits

variable {X : InodeType → Prop} {α : Type} {d i : Nat} {name : Name}

theorem same {s s' : Volume} (h : s.SameLinks s') : Edits X s s' := .single (.same h)

theorem reference (r : Reason) : Keeps (Edits X) (bitbucketReferenceInode i r) :=
  fun _ _ _ h => same (Quiet.reference h).sameLinks

theorem dereference (r : Reason) (b : Nat) : Keeps (Edits X) (bitbucketDereferenceInode i r b) :=
  fun _ _ _ h => same (Quiet.dereference h).sameLinks

theorem lookupObject : Keeps (Edits X) (bitbucketLookupObjectInDirectory d name) :=
  fun _ _ _ h => same (Quiet.looked (lookupObject_inv h).2.2).sameLinks

theorem setParent (p : Option Nat) :
    Keeps (Edits X) (modify fun s => s.setParent d p : M Unit) := by
  intro s u s' h
  rw [modify_inv h]
  exact same ⟨rfl, rfl, rfl, fun _ => rfl, fun _ => Nat.le_refl _⟩

theorem checkMagic : Keeps (Edits X) (checkMagic i) := by
  intro s u s' h
  obtain ⟨-, rfl⟩ := checkMagic_inv h
  exact .refl

theorem createInode (t : InodeType) (new : NewInode) (b : Bool) :
    Keeps (Edits X) (bitbucketCreateInode t new b) := by
  intro s i s' h
  obtain ⟨-, -, -, rfl⟩ := createInode_inv h
  exact .single (.create t new b)

theorem insertDirectoryEntry : Keeps (Edits X) (bitbucketInsertDirectoryEntry d i name) := by
  intro s status s' h
  obtain ⟨s1, hsame, hlock, -, hd, hi, hdir, hn, ⟨hc, -, rfl⟩ | ⟨-, -, rfl⟩⟩ :=
    insertDirectoryEntry_edit h
  · exact .single (.insert hsame hlock hd hi hdir hn hc)
  · exact same hsame

theorem insertNew : Keeps (Edits X) (insertNew d i name) := by
  refine insertDirectoryEntry.bind fun status => ?_
  intro s u s' h
  obtain ⟨-, rfl⟩ := assert_inv h
  exact .refl

theorem removeDirEntry : Keeps (Edits X) (removeDirEntryFromDirectory d name) := by
  intro s o s' h
  obtain ⟨-, ⟨-, hsame⟩ | ⟨e, s1, -, hsame, hc, hpos, hsame'⟩⟩ := removeDirEntry_inv h
  · exact same hsame
  · exact ((same hsame).tail (.unlink hc hpos)).trans (same hsame')

theorem detachIfDirectory : Keeps (Edits X) (detachIfDirectory d i) := by
  refine .get_bind fun s => .ite (fun _ => ?_) fun _ => .pure _
  refine removeDirEntry.bind fun o => ?_
  cases o with
  | none => exact .pure _
  | some e =>
    refine .assert_bind fun _ => .get_bind fun s => .assert_bind fun _ => ?_
    exact (dereference _ _).bind fun _ => (dereference _ _).bind fun _ =>
      setParent none

theorem deleteDirectoryEntry : Keeps (Edits X) (bitbucketDeleteDirectoryEntry d name) := by
  refine .get_bind fun s => .assert_bind fun _ => .assert_bind fun _ => ?_
  refine lookupObject.bind fun o => ?_
  cases o with
  | none => exact .pure _
  | some i =>
    refine removeDirEntry.bind fun _ => .assert_bind fun _ => ?_
    exact detachIfDirectory.bind fun _ => (dereference _ _).bind fun _ =>
      (dereference _ _).bind fun _ => .pure _

theorem deleteDirectory : Keeps (Edits X) (bitbucketDeleteDirectory i) := by
  refine checkMagic.bind fun _ => .get_bind fun s => .assert_bind fun _ => ?_
  refine .ite (fun _ => .pure _) fun _ => .ite (fun _ => .pure _) fun _ => ?_
  refine deleteDirectoryEntry.bind fun status => .ite (fun _ => ?_) fun _ => .pure _
  exact checkMagic.bind fun _ => .get_bind fun s => .assert_bind fun _ => .pure _

theorem createDirectory (p : Nat) (new : NewInode) :
    Keeps (Edits X) (bitbucketCreateDirectory p name new) := by
  refine checkMagic.bind fun _ => .get_bind fun s => .assert_bind fun _ => ?_
  refine (createInode _ _ _).bind fun d => (setParent _).bind fun _ => ?_
  refine (reference _).bind fun _ => insertNew.bind fun _ => insertNew.bind fun _ => ?_
  exact insertNew.bind fun _ => .get_bind fun s => .assert_bind fun _ => .pure _

theorem createFile (p : Nat) (new : NewInode) (b : Bool) :
    Keeps (Edits X) (bitbucketCreateFile p name new b) := by
  refine checkMagic.bind fun _ => .get_bind fun s => .assert_bind fun _ => ?_
  exact (createInode _ _ _).bind fun _ => insertNew.bind fun _ => .pure _

theorem moveEntry (p q : Nat) (newname : Name) : Keeps (Edits X) (moveEntry p q i name newname) :=
  insertNew.bind fun _ => deleteDirectoryEntry

/-! ### Handlers -/

section Handlers

variable {s s0 : Volume} {new : NewInode} {parent : Nat}

theorem calls (s0 : Volume) : Calls fun _ s => s0.Edits X s where
  add h _ := h.tail (.same ⟨rfl, rfl, rfl, fun _ => rfl, fun _ => Nat.le_refl _⟩)
  dereference h hx := h.tail (.same (Quiet.dereference hx).sameLinks)
  setKernel _ h := h.tail (.same ⟨rfl, rfl, rfl, fun _ => rfl, fun _ => Nat.le_refl _⟩)

theorem setMode (h : s0.Edits X s) (f : Nat → Nat) :
    s0.Edits X (s.setInode i fun n => { n with mode := f n.mode }) :=
  h.tail (.same (Quiet.setInode (f := fun n => { n with mode := f n.mode })
    (fun _ => rfl) (fun _ => rfl) (Nat.le_refl _)).sameLinks)

theorem bitbucketMkdir {mode : Nat} :
    Ends (bitbucketMkdir parent name mode new) s fun _ s' => s.Edits X s' :=
  (calls s).bitbucketMkdir (g := 0) .refl fun p _ _ _ h _ _ hx =>
    setMode (h.trans (createDirectory p new _ _ _ hx)) fun m =>
      (m &&& sIFMT) ||| permissions mode

theorem bitbucketCreate {u : Userdata} {mode : Nat} :
    Ends (bitbucketCreate u parent name mode new) s fun _ s' => s.Edits X s' := by
  refine (calls s).bitbucketCreate (g := 0) .refl fun p _ _ _ h x hx i s' hr => ?_
  refine setMode (h.trans ?_) fun _ => (mode &&& sIFMT) ||| (mode &&& 0o7777)
  rcases mem_pair.mp hx with rfl | rfl
  · exact createDirectory p new _ _ _ hr
  · exact createFile p new _ _ _ _ hr

theorem removeFileFromDirectory (h : s0.Edits X s) :
    Ends (bitbucketRemoveFileFromDirectory d name) s fun _ s' => s0.Edits X s' :=
  (calls s0).removeFileFromDirectory (g := 0) h fun _ _ _ _ _ h _ _ hx =>
    h.trans (deleteDirectoryEntry _ _ _ hx)

theorem bitbucketLink {ino : Nat} :
    Ends (bitbucketLink ino parent name) s fun _ s' => s.Edits X s' := by
  refine (calls s).bitbucketLink (g := 0) .refl fun i p _ _ _ _ _ _ h => ?_
  refine Ends.bind (R := fun _ s' => s.Edits X s')
    (fun _ _ hx => h.trans (insertDirectoryEntry _ _ _ hx)) fun _ s' h => ?_
  exact .ite (fun _ => (removeFileFromDirectory h).bind fun _ _ h => .pure h) fun _ => .pure h

theorem bitbucketUnlink : Ends (bitbucketUnlink parent name) s fun _ s' => s.Edits X s' :=
  (calls s).bitbucketUnlink (g := 0) .refl fun _ _ _ _ h _ _ hx =>
    h.trans (deleteDirectoryEntry _ _ _ hx)

theorem bitbucketRmdir : Ends (bitbucketRmdir parent name) s fun _ s' => s.Edits X s' :=
  (calls s).bitbucketRmdir (g := 0) .refl (fun _ _ _ _ _ _ h => h)
    fun _ _ _ _ _ _ _ _ h hdel _ _ hx _ =>
      (h.trans (deleteDirectoryEntry _ _ _ hdel)).trans (deleteDirectory _ _ _ hx)

end Handlers

end Volume.Edits

/-! ### Exchanges -/

/-- Two entries name each other's inodes, and nothing else changes that the
counts are about. -/
def Volume.Exchanged (s s' : Volume) (p q : Nat) (name newname : Name) (e e' : DirEntry) : Prop :=
  findEntry (s.entries p) name = some e ∧
  findEntry (s.entries q) newname = some e' ∧ p ≠ q ∧
  ∃ s1, s.SameLinks s1 ∧ SameLinks ((s1.redirectEntry p name
    e'.inode).redirectEntry q newname e.inode) s'

section Exchanges

variable {X : InodeType → Prop} {s s' : Volume} {p q i : Nat} {name newname : Name}

theorem Volume.SameLinks.trans {s'' : Volume} (h : s.SameLinks s')
    (h' : s'.SameLinks s'') : s.SameLinks s'' :=
  ⟨h'.entries.trans h.entries, h'.next.trans h.next,
    h'.inodeType.trans h.inodeType, fun i => (h'.nlink i).trans (h.nlink i),
    fun i => Nat.le_trans (h.epoch i) (h'.epoch i)⟩

/-- A directory that has entries. -/
structure Volume.Busy (s : Volume) (d : Nat) : Prop where
  live : s.live d = true
  dir : s.inodeType d = .dir
  entries : s.entries d ≠ []

namespace Volume.Busy

variable {d : Nat} {u : Unit}

/-- A directory that has entries outlives the references that are dropped. -/
theorem calls : Calls fun _ s => s.Busy d where
  add h _ := ⟨h.live, h.dir, h.entries⟩
  dereference {_ s i _ _ _} h hx := by
    obtain ⟨-, -, -, hs⟩ := dereference_inv hx
    split at hs
    · obtain ⟨hempty, rfl⟩ := hs
      have hdi : d ≠ i := by
        rintro rfl
        exact h.entries (hempty h.dir)
      refine ⟨?_, h.dir, h.entries⟩
      show update s.live i false d = true
      rw [update_of_ne hdi]
      exact h.live
    · rw [hs]
      exact ⟨h.live, h.dir, h.entries⟩
  setKernel _ h := ⟨h.live, h.dir, h.entries⟩

theorem tick (h : s.Busy d) (i : Nat) : (s.tick i).Busy d :=
  ⟨h.live, (congrFun (Quiet.tick s i).inodeType d).trans h.dir, h.entries⟩

theorem redirect (h : s.Busy d) (e : Nat) (n : Name) (j : Nat) :
    (s.redirectEntry e n j).Busy d := by
  refine ⟨h.live, h.dir, fun hnil => h.entries ?_⟩
  have hnames := s.redirectEntry_names e (n := n) (j := j) d
  rw [hnil] at hnames
  exact map_eq_nil_iff.mp hnames.symm

end Volume.Busy

theorem ne_nil_of_find {es : List DirEntry} {n : Name} (h : findEntry es n = some e) : es ≠ [] :=
  ne_nil_of_mem (findEntry_mem h)

theorem rename_edits {parent newparent flags : Nat} {rs : List Reply}
    (h : bitbucketRename parent name newparent newname flags s = some (rs, s')) :
    (s.Edits X s' ∧ ∀ p ∈ s.resolve parent, ∀ q ∈ s.resolve newparent,
      ∀ i ∈ s.child p name, ∀ j ∈ s.child q newname,
      s.RenameActs p q i name newname flags → flags &&& renameExchange = 0) ∨
    flags &&& renameExchange ≠ 0 ∧ ∃ p q e e',
      s.resolve parent = some p ∧ s.resolve newparent = some q ∧
      s.RenameActs p q e.inode name newname flags ∧
      s.Exchanged s' p q name newname e e' ∧
      s'.live p = true ∧ s'.live q = true := by
  cases rename_ends 0 s parent name newparent newname flags rs s' h with
  | dots hdots =>
    exact .inl ⟨.refl, fun p _ q _ i _ j _ ha => absurd ⟨ha.1, ha.2.1⟩ hdots⟩
  | refused _ hpass hno =>
    exact .inl ⟨.single (.same hpass.quiet.sameLinks), fun p hp q hq i hi j _ ha =>
      absurd ⟨hp, hq, hi, ha⟩ (hno p q i)⟩
  | @acted p q i _ c r s1 _ hr hpass hs hdone =>
    have hstart : s.Edits X (s.recount c r) := .single (.same hpass.quiet.sameLinks)
    have hend := hdone.quiet.sameLinks
    cases hs with
    | move hfree hm =>
      refine .inl ⟨(hstart.trans (Edits.moveEntry p q newname _ _ _
        hm)).tail (.same hend), fun p' _ q' hq i _ j hj => ?_⟩
      obtain rfl := mem_unique hr.newparent hq
      exact nomatch hfree.symm.trans hj
    | exchange hj hex hx =>
      obtain ⟨_, s2, hl, -⟩ := bind_inv hx
      obtain ⟨-, hlp, hlq, -⟩ := lockTwoInodes_inv hl
      obtain ⟨hpq, ⟨-, -, hnone | hnone⟩ | ⟨e, e', he, he', -, rfl⟩⟩ := exchange_inv hx
      · exact nomatch hnone.symm.trans hr.child
      · exact nomatch hnone.symm.trans hj
      have hbusy : ∀ d, (s.recount c r).Busy d → s'.live d = true := fun d h =>
        (hdone.keeps Busy.calls ((((h.tick p).tick q).redirect _ _ _).redirect _ _ _)).live
      obtain rfl : e.inode = i := some.inj
        ((congrArg (Option.map DirEntry.inode) he).symm.trans hr.child)
      exact .inr ⟨hex, p, q, e, e', hr.parent, hr.newparent, hr.acts,
        ⟨he, he', hpq, _, (hpass.quiet.trans ((Quiet.tick _ p).trans (.tick _ q))).sameLinks, hend⟩,
        hbusy p ⟨hlp, hr.acts.2.2.1, ne_nil_of_find he⟩,
        hbusy q ⟨hlq, hr.acts.2.2.2.1, ne_nil_of_find he'⟩⟩
    | replace _ hex hdel hm =>
      exact .inl ⟨((hstart.trans (Edits.deleteDirectoryEntry _ _ _
        hdel)).trans (Edits.moveEntry p q newname _ _ _ hm)).tail
        (.same hend), fun _ _ _ _ _ _ _ _ _ => hex⟩

namespace Volume

theorem Entered.redirect (h : s.Entered) {d j : Nat} {n : Name}
    (hj : j < s.next) : (s.redirectEntry d n j).Entered := by
  have hnames := s.redirectEntry_names d (n := n) (j := j) d
  simp only [redirectEntry, setEntries, update_self] at hnames
  refine h.sub rfl rfl rfl (hnames ▸ .refl _) fun e he => ?_
  obtain ⟨e', he', rfl⟩ := mem_map.mp he
  split
  · exact hj
  · exact (h.used d e' he').2

theorem Exchanged.others (h : s.Entered) (hx : s.Exchanged s' p q name newname e e') (x : Nat) :
    s'.others x + ((if x = e.inode ∧ e.inode ≠ p then 1 else 0) +
        if x = e'.inode ∧ e'.inode ≠ q then 1 else 0) =
      s.others x + ((if x = e'.inode ∧ e'.inode ≠ p then 1 else 0) +
        if x = e.inode ∧ e.inode ≠ q then 1 else 0) := by
  obtain ⟨he, he', hpq, s1, hs1, hs'⟩ := hx
  have h1 := hs1.entered h
  rw [← hs1.entries] at he he'
  have hq : (s1.redirectEntry p name e'.inode).entries q = s1.entries q := update_of_ne hpq.symm _ _
  have hc := others_redirectEntry (j := e'.inode)
    (h1.used p e (findEntry_mem he)).1 (h1.nodup p) he x
  have hc' := others_redirectEntry (s := s1.redirectEntry p name e'.inode)
    (d := q) (n := newname) (e := e') (j := e.inode)
    (h1.used q e' (findEntry_mem he')).1 (by rw [hq]; exact h1.nodup q)
    (by rw [hq]; exact he') x
  rw [hs'.others, ← hs1.others x]
  omega

/-- The inodes that change places are not the directories of the entries. -/
def ExchangeApart (p q i j : Nat) : Prop :=
  i = j ∨ (i ≠ p ∧ i ≠ q) ∧ j ≠ p ∧ j ≠ q

instance (p q i j : Nat) : Decidable (ExchangeApart p q i j) :=
  inferInstanceAs (Decidable (_ ∨ _))

theorem Counted.exchange (h : s.Counted X) (hx : s.Exchanged s' p q name newname e e')
    (ha : ExchangeApart p q e.inode e'.inode) : s'.Counted X := by
  have hothers : ∀ x, s'.others x = s.others x := by
    intro x
    have := hx.others h.toEntered x
    rcases ha with heq | ⟨⟨hp, hq⟩, hp', hq'⟩
    · rw [heq] at this
      omega
    · simp only [ne_eq, hp, hq, hp', hq', not_false_eq_true, and_true] at this
      omega
  obtain ⟨he, he', hpq, s1, hs1, hs'⟩ := hx
  have h1 := hs1.entered h.toEntered
  rw [← hs1.entries] at he he'
  have hi := (h1.used p e (findEntry_mem he)).2
  have hj := (h1.used q e' (findEntry_mem he')).2
  have htype : s'.inodeType = s.inodeType := hs'.inodeType.trans hs1.inodeType
  refine ⟨hs'.entered ((h1.redirect hj).redirect hi), fun x hlt hX => ?_⟩
  rw [htype] at hX ⊢
  rw [hothers, (hs'.nlink x).trans (hs1.nlink x)]
  exact h.links x ((hs'.next.trans hs1.next) ▸ hlt) hX

end Volume

end Exchanges

/-! ### Symbolic links -/

section Symlinks

variable {X : InodeType → Prop} {s s' : Volume} {i : Nat} {name : Name} {new : NewInode}

/-- What is left of the creation of a symbolic link: an inode with count one
that gets a name. -/
theorem createSymlink_insert {p : Nat}
    (h : bitbucketCreateSymlink p name link new s = some (i, s')) :
    i = s.next ∧ p ≠ s.next ∧ ∃ s1, SameLinks ((s.create .symlink new false).setInode s.next
        fun n => { n with link := link, nlink := 1 }) s1 ∧
      (s.inode p).epoch < (s1.inode p).epoch ∧ p < s1.next ∧ i < s1.next ∧
      s1.inodeType p = .dir ∧ Short name ∧
      findEntry (s1.entries p) name = none ∧ s' = s1.insertEntry p i name := by
  obtain ⟨hlive, -, rfl, hi⟩ := createSymlink_inv h
  have hp : p ≠ s.next := Nat.ne_of_lt (lt_next_of_live hlive)
  refine ⟨rfl, hp, ?_⟩
  obtain ⟨status, s3, hins, hz⟩ := bind_inv hi
  obtain ⟨rfl, rfl⟩ := assert_inv hz
  obtain ⟨s4, hsame, hlock, -, hlt, hi, hdir, hn, ⟨hc, -, hs⟩ | ⟨-, he, -⟩⟩ :=
    insertDirectoryEntry_edit hins
  · have hinode : ((s.create .symlink new false).setInode s.next
        fun n => { n with link := link, nlink := 1 }).inode p = s.inode p :=
      (update_of_ne hp _ _).trans (update_of_ne hp _ _)
    rw [hinode] at hlock
    exact ⟨s4, hsame, hlock, hlt, hi, hdir, hn, hc, hs⟩
  · exact absurd he (by decide)

theorem Volume.Edits.bitbucketSymlink (hX : ¬ X .symlink) {parent : Nat} :
    Ends (bitbucketSymlink link parent name new) s fun _ s' => s.Edits X s' := by
  refine (calls s).bitbucketSymlink (g := 0) .refl fun p c r _ h i s' hx => ?_
  obtain ⟨rfl, hne, s1, hsame, hlock, hp, hi, hdir, hn, hc, rfl⟩ := createSymlink_insert hx
  have hrelink : ¬ X (((s.recount c r).create .symlink new false).inodeType
      (s.recount c r).next) := by
    simpa [inodeType, create, initialInode] using hX
  refine ((h.tail (.create .symlink new false)).tail
    (.relink (f := fun n => { n with link := link, nlink := 1 }) (fun _ => rfl)
      (fun _ => rfl) hrelink)).tail (.insert hsame ?_ hp hi hdir hn hc)
  rw [show (((s.recount c r).create .symlink new false).setInode
      (s.recount c r).next _).inode p = (s.recount c r).inode p from
    (update_of_ne hne _ _).trans (update_of_ne hne _ _)]
  exact hlock

end Symlinks

/-! ## Runs -/

/-- The count of a file or a symbolic link is the number of entries that name
it, and that of a directory is one more than the number of entries in other
directories that name it. -/
structure Volume.LinksRight (s : Volume) : Prop where
  files : ∀ i, s.live i = true → s.inodeType i ≠ .dir → (s.inode i).nlink =
    ∑ d ∈ Finset.range s.next, (s.entries d).countP fun e => e.inode = i
  dirs : ∀ i, s.live i = true → s.inodeType i = .dir →
    (s.inode i).nlink = 1 + ∑ d ∈ Finset.range s.next,
      if d = i then 0 else (s.entries d).countP fun e => e.inode = i

/-- The requests that keep the counts: all but those that make a symbolic
link, and those that exchange a directory with an entry of its own. -/
def Volume.KeepsLinks (s : Volume) : Request → Prop
  | .symlink _ parent _ _ => s.table parent = none
  | .rename parent name newparent newname flags =>
    flags &&& renameExchange ≠ 0 → ∀ p ∈ s.resolve parent,
      ∀ q ∈ s.resolve newparent, ∀ i ∈ s.child p name,
      ∀ j ∈ s.child q newname, s.RenameActs p q i name newname flags → ExchangeApart p q i j
  | _ => True

instance (s : Volume) (r : Request) : Decidable (s.KeepsLinks r) := by
  casesm Request <;> dsimp only [KeepsLinks] <;> infer_instance

section Runs

variable {s s' : Volume}

theorem Volume.Entered.others_eq (h : s.Entered) {i : Nat}
    (hi : s.inodeType i ≠ .dir) : s.others i = ∑ d ∈ Finset.range s.next,
      (s.entries d).countP fun e => e.inode = i := by
  refine Finset.sum_congr rfl fun d _ => ?_
  split
  · next hd =>
    subst hd
    have hnil : s.entries d = [] := by
      by_contra hne
      exact hi (h.dirs d hne)
    rw [hnil, countP_nil]
  · rfl

theorem Volume.Counted.linksRight (h : s.Counted fun _ => True) : s.LinksRight := by
  refine ⟨fun i hi hdir => ?_, fun i hi hdir => ?_⟩
  · rw [h.links i (lt_next_of_live hi) trivial, if_neg hdir, Nat.zero_add]
    exact h.others_eq hdir
  · rw [h.links i (lt_next_of_live hi) trivial, if_pos hdir]
    rfl

/-- A symbolic link is made with a count of one, and its name is counted
once more. -/
theorem symlink_breaks {name : Name} {parent : Nat} {new : NewInode} {rs : List Reply}
    (hs : s.Counted fun _ => True) (hp : s.table parent ≠ none)
    (h : bitbucketSymlink link parent name new s = some (rs, s')) : ¬ s'.LinksRight := by
  have hend' : s'.Entered :=
    (Counted.edits (X := (· ≠ .symlink)) ⟨hs.toEntered, fun i hi _ => hs.links i hi trivial⟩
      (Edits.bitbucketSymlink (fun h => h rfl) rs s' h)).toEntered
  obtain ⟨-, h⟩ := assert_bind_inv h
  obtain ⟨-, h⟩ := assert_bind_inv h
  obtain ⟨o, s1, hl, h⟩ := bind_inv h
  have ho := (lookupInTable_inv hl).1
  have hs1 := hs.edit (.same (Quiet.looked (lookupInTable_inv hl).2).sameLinks)
  cases o with
  | none => exact absurd ho.symm hp
  | some p =>
    obtain ⟨i, s2, hc, h⟩ := bind_inv h
    obtain ⟨_, s3, hd, h⟩ := bind_inv h
    obtain ⟨_, s4, hr, h⟩ := bind_inv h
    obtain ⟨_, s5, he, h⟩ := bind_inv h
    obtain ⟨_, s6, hd', h⟩ := bind_inv h
    obtain ⟨-, rfl⟩ := pure_inv h
    -- the kernel's reference keeps the link
    have hlive : s6.live i = true := by
      obtain ⟨hlive, hcount, -, hs4⟩ := reference_inv hr
      have he := get_bind_inv (modify_bind_inv he)
      have hs5 := (pure_inv he).2
      obtain ⟨hlive', -, -, hs6⟩ := dereference_inv hd'
      have htwo : s5.referenceCount i ≠ 1 := by
        rw [← hs5, hs4]
        simp only [setKernel, addReferences, update_self]
        omega
      rw [if_neg htwo] at hs6
      rw [hs6]
      exact hlive'
    have hend : s2.SameLinks s6 := ((Quiet.dropLookup hd).trans <| (Quiet.reference hr).trans <|
        (Quiet.replyEntry he).trans (.dropLookup hd')).sameLinks
    obtain ⟨rfl, hpi, s7, hsame, -, hlt, -, -, -, -, rfl⟩ := createSymlink_insert hc
    have htype : s6.inodeType s1.next = .symlink := by
      rw [hend.inodeType, insertEntry_inodeType, hsame.inodeType]
      simp [inodeType, setInode, create, initialInode]
    have hnlink : (s6.inode s1.next).nlink = 2 := by
      rw [hend.nlink, insertEntry_nlink, hsame.nlink, if_pos ⟨rfl, hpi.symm⟩]
      simp [setInode]
    have hothers : s6.others s1.next = 1 := by
      rw [hend.others, others_insertEntry hlt, hsame.others, if_pos ⟨rfl, hpi.symm⟩]
      show others (s1.create .symlink new false) s1.next + 1 = 1
      rw [others_create, hs1.others_next]
    intro hright
    have hfiles := hright.files s1.next hlive (by rw [htype]; decide)
    rw [← hend'.others_eq (by rw [htype]; decide), hnlink, hothers] at hfiles
    exact absurd hfiles (by decide)

/-- An exchange of a directory with an entry of its own changes the number
of entries that name the directory, and not its count. -/
theorem exchange_breaks {p q : Nat} {name newname : Name}
    (hs : s.Counted fun _ => True) (hp : s.inodeType p = .dir) (hq : s.inodeType q = .dir)
    (hlp : s'.live p = true) (hlq : s'.live q = true) (hx : s.Exchanged s' p q name newname e e')
    (ha : ¬ ExchangeApart p q e.inode e'.inode) : ¬ s'.LinksRight := by
  intro hright
  have hxp := hx.others hs.toEntered p
  have hxq := hx.others hs.toEntered q
  obtain ⟨-, -, hpq, s1, hs1, hs'⟩ := hx
  have hsame : ∀ x, s.inodeType x = .dir → s'.live x = true → s'.others x = s.others x := by
    intro x hdir hlive
    have htype : s'.inodeType x = .dir :=
      (congrFun (hs'.inodeType.trans hs1.inodeType) x).trans hdir
    have hnext : s'.next = s.next := hs'.next.trans hs1.next
    have hlinks := hs.links x (hnext ▸ lt_next_of_live hlive) trivial
    have hlinks' : (s'.inode x).nlink = 1 + s'.others x := hright.dirs x hlive htype
    rw [(hs'.nlink x).trans (hs1.nlink x), hlinks, if_pos hdir] at hlinks'
    omega
  rw [hsame p hp hlp] at hxp
  rw [hsame q hq hlq] at hxq
  rw [ExchangeApart] at ha
  split_ifs at hxp hxq <;> omega

/-- If symbolic links are not counted, then one may be made. -/
theorem Volume.Counted.step {X : InodeType → Prop} {u : Userdata} {r : Request}
    {ev : List Reply} (hs : s.Counted X)
    (hr : s.KeepsLinks r ∨ ¬ X .symlink ∧ ∃ link parent name new, r = .symlink link parent name new)
    (h : s.step u r = some (ev, s')) : s'.Counted X := by
  rcases hr with hr | ⟨hX, link, parent, name, new, rfl⟩
  swap
  · exact hs.edits (Edits.bitbucketSymlink hX ev s' h)
  by_cases hedit : r.EditsNames
  · cases r with
    | mkdir => exact hs.edits (Edits.bitbucketMkdir ev s' h)
    | create => exact hs.edits (Edits.bitbucketCreate ev s' h)
    | symlink link parent name new =>
      obtain ⟨-, h⟩ := assert_bind_inv h
      obtain ⟨-, h⟩ := assert_bind_inv h
      obtain ⟨o, s1, hl, h⟩ := bind_inv h
      obtain rfl := (lookupInTable_inv hl).1.trans hr
      obtain ⟨-, rfl⟩ := pure_inv h
      exact hs.edit (.same (Quiet.looked (lookupInTable_inv hl).2).sameLinks)
    | link => exact hs.edits (Edits.bitbucketLink ev s' h)
    | rename parent name newparent newname flags =>
      rcases rename_edits h with
        ⟨hed, -⟩ | ⟨hex, p, q, e, e', hp, hq, hacts, hx, -, -⟩
      · exact hs.edits hed
      exact hs.exchange hx (hr hex p hp q hq e.inode
        (congrArg (Option.map DirEntry.inode) hx.1) e'.inode
        (congrArg (Option.map DirEntry.inode) hx.2.1) hacts)
    | unlink => exact hs.edits (Edits.bitbucketUnlink ev s' h)
    | rmdir => exact hs.edits (Edits.bitbucketRmdir ev s' h)
    | _ => exact hedit.elim
  · exact hs.edit (.same (quiet_step (g := 0) (fun _ _ _ => rfl) hedit h).1.sameLinks)

theorem links_break {u : Userdata} {r : Request} {ev : List Reply} (hs : s.Counted fun _ => True)
    (hr : ¬ s.KeepsLinks r) (h : s.step u r = some (ev, s')) : ¬ s'.LinksRight := by
  cases r with
  | symlink link parent name new => exact symlink_breaks hs hr h
  | rename parent name newparent newname flags =>
    rcases rename_edits (X := fun _ => True) h with
      ⟨-, hnone⟩ | ⟨hex, p, q, e, e', hp, hq, hacts, hx, hlp, hlq⟩
    · exact absurd (fun hex p hp q hq i hi j hj ha =>
        absurd (hnone p hp q hq i hi j hj ha) hex) hr
    refine exchange_breaks hs hacts.2.2.1 hacts.2.2.2.1 hlp hlq hx fun ha =>
      hr fun _ p' hp' q' hq' i hi j hj _ => ?_
    obtain rfl : p = p' := mem_unique hp hp'
    obtain rfl : q = q' := mem_unique hq hq'
    have hei : s.child p name = some e.inode := congrArg (Option.map DirEntry.inode) hx.1
    have hej : s.child q newname = some e'.inode := congrArg (Option.map DirEntry.inode) hx.2.1
    obtain rfl : e.inode = i := mem_unique hei hi
    obtain rfl : e'.inode = j := mem_unique hej hj
    exact ha
  | _ => exact absurd trivial hr

theorem counted_empty {X : InodeType → Prop} : empty.Counted X where
  nodup _ := nodup_nil
  used _ _ he := nomatch he
  dirs _ he := absurd rfl he
  short _ _ he := nomatch he
  links _ hi := nomatch hi

section Mount

variable {X : InodeType → Prop}

theorem Volume.Edits.mountRoot (new : NewInode) : Keeps (Edits X) (mountRoot new) := by
  refine .bind ?_ fun d s u s' h => ?_
  · refine (createInode _ _ _).bind fun d => (setParent _).bind fun _ => ?_
    refine (reference _).bind fun _ => insertNew.bind fun _ => ?_
    exact insertNew.bind fun _ => .get_bind fun s => .assert_bind fun _ => .pure _
  · rw [modify_inv h]
    exact same ⟨rfl, rfl, rfl, fun _ => rfl, fun _ => Nat.le_refl _⟩

theorem Volume.Edits.createMagic (p : Nat) (name : Name) (new : NewInode) :
    Keeps (Edits X) (createMagic p name new) := by
  refine (createDirectory p new).bind fun d => .bind (fun s u s' h => ?_) fun _ => .pure _
  rw [modify_inv h]
  have hq := (Quiet.setInode (s := s) (i := d)
    (f := fun n => { n with mode := n.mode - (n.mode &&& 0o222) })
    (fun _ => rfl) (fun _ => rfl) (Nat.le_refl _)).sameLinks
  exact same ⟨hq.entries, hq.next, hq.inodeType, hq.nlink, hq.epoch⟩

theorem Volume.Edits.createMagics (p : Nat) (names : List Name) :
    ∀ news, Keeps (Edits X) (createMagics p names news) := by
  induction names with
  | nil =>
    intro news
    cases news <;> exact .pure _
  | cons name names ih =>
    intro news
    cases news with
    | nil => exact .pure _
    | cons new news => exact (createMagic p name new).bind fun _ => ih news

theorem Volume.Edits.bitbucketInit (root bitbucket : NewInode) (others : List NewInode) :
    Keeps (Edits X) (bitbucketInit root bitbucket others) :=
  (mountRoot root).bind fun _ => .get_bind fun s =>
    (createMagic s.root _ bitbucket).bind fun p => createMagics p _ others

end Mount

/-- From a volume that was mounted, the counts are right after every request
exactly if no request makes a symbolic link, and none exchanges a directory
with one of its own entries. -/
theorem links_right_iff (u : Userdata) {root bitbucket : NewInode} {others : List NewInode}
    {s s' : Volume} {rs : List Request} {tr : List Reply}
    (hinit : bitbucketInit root bitbucket others .empty = some ((), s))
    (hrun : Machine.run (step u) s rs = some (tr, s')) :
    Always (step u) LinksRight s rs ↔ Along (step u) KeepsLinks s rs :=
  always_iff_along (fun _ hs => Counted.linksRight hs)
    (fun _ _ _ _ hs hr h => Counted.step hs (.inl hr) h)
    (fun _ _ _ _ hs hr h => links_break hs hr h)
    (counted_empty.edits (Edits.bitbucketInit root bitbucket others _ _ _ hinit)) hrun

/-- A file gets a second name, a directory is moved and another removed. -/
theorem links_right_iff_link : ∃ s s' tr, newMount = some ((), s) ∧ Machine.run (step .plain) s
      [.mkdir 1 ['a'] 0o755 ⟨11, 0⟩, .create 11 ['f'] 0o644 ⟨12, 0⟩,
       .link 12 1 ['g'], .mkdir 1 ['b'] 0o755 ⟨13, 0⟩,
       .rename 1 ['a'] 13 ['c'] 0, .unlink 1 ['g'],
       .mkdir 1 ['d'] 0o755 ⟨14, 0⟩, .rmdir 1 ['d']] = some (tr, s') ∧
    tr = [.entry 11, .create 12, .entry 12, .entry 13, .err 0, .err 0, .entry 14, .err 0] ∧
    Always (step .plain) LinksRight s
      [.mkdir 1 ['a'] 0o755 ⟨11, 0⟩, .create 11 ['f'] 0o644 ⟨12, 0⟩,
       .link 12 1 ['g'], .mkdir 1 ['b'] 0o755 ⟨13, 0⟩,
       .rename 1 ['a'] 13 ['c'] 0, .unlink 1 ['g'],
       .mkdir 1 ['d'] 0o755 ⟨14, 0⟩, .rmdir 1 ['d']] := by
  refine exists_run (K := KeepsLinks) (P := fun _ tr _ => tr =
    [.entry 11, .create 12, .entry 12, .entry 13, .err 0, .err 0, .entry 14, .err 0])
    (by decide +kernel) fun s tr s' hs hr hkeeps htr => ?_
  exact ⟨htr, (links_right_iff _ hs hr).mpr hkeeps⟩

/-- A symbolic link with one name has two links. -/
theorem symlink_counts_two : ∃ s s' tr, newMount = some ((), s) ∧ Machine.run (step .plain) s
      [.mkdir 1 ['d'] 0o755 ⟨11, 0⟩, .symlink ['t'] 11 ['l'] ⟨12, 0⟩] = some (tr, s') ∧
    s'.live 7 = true ∧ s'.inodeType 7 = .symlink ∧ (s'.inode 7).nlink = 2 ∧
    (∑ d ∈ Finset.range s'.next,
      (s'.entries d).countP fun e => e.inode = 7) = 1 ∧ ¬ s'.LinksRight := by
  refine exists_run (K := fun _ _ => True) (P := fun _ _ s' =>
    s'.live 7 = true ∧ s'.inodeType 7 = .symlink ∧ (s'.inode 7).nlink = 2 ∧
      (∑ d ∈ Finset.range s'.next, (s'.entries d).countP fun e => e.inode = 7) = 1)
    (by decide +kernel) ?_
  rintro s tr s' - - - ⟨hlive, htype, hnlink, hnames⟩
  refine ⟨hlive, htype, hnlink, hnames, fun h => ?_⟩
  have := h.files 7 hlive (by rw [htype]; decide)
  rw [hnlink, hnames] at this
  exact absurd this (by decide)

end Runs

end Finesse.Bitbucket
