import Finesse.Bitbucket.Links
import Finesse.Bitbucket.Tree

/-!
# What a rename does

The names before and after a rename request. A rename is a deletion of the
new name, an insertion and a deletion of the old name, and a deletion of a
directory's name takes its `..` along. `Names.clear` and `Names.move` say
that in terms of names; what is left is to compare it with what a rename is
for, which only needs to look at the two names and at the two entries `..`.
-/

namespace Finesse.Bitbucket

open Prog Names Option

/-! ## Names -/

namespace Names

open Classical in
/-- The name `n` of the directory `d` is deleted. -/
noncomputable def clear (t : Names) (d : Nat) (n : Name) : Names :=
  match t.child d n with
  | none => t
  | some i => if t.isDir i then (t.put d n none).detach i else t.put d n none

/-- The inode `i` gets the name `m` in `q`, and loses the name `n` in `p`. -/
noncomputable def move (t : Names) (p : Nat) (n : Name) (q : Nat) (m : Name) (i : Nat) : Names :=
  ((t.clear q m).put q m (some i)).clear p n

/-- The names under which nothing changes when the name `n` in `d` is
deleted. -/
def Apart (t : Names) (d : Nat) (n : Name) (e : Nat) (m : Name) : Prop :=
  ¬ (e = d ∧ m = n) ∧ ∀ i, t.child d n = some i → t.isDir i → ¬ (e = i ∧ m = dotdot)

variable {p q : Nat}

section Clear

variable {t : Names} {d e i : Nat} {n m : Name}

@[simp] theorem clear_isDir : (t.clear d n).isDir = t.isDir := by
  rw [clear]
  split
  · rfl
  split
  · rw [detach_isDir, put_isDir]
  · rfl

@[simp] theorem clear_root : (t.clear d n).root = t.root := by
  rw [clear]
  split
  · rfl
  split
  · rw [detach_root, put_root]
  · rfl

theorem clear_of_none (h : t.child d n = none) : t.clear d n = t := by
  rw [clear, h]

theorem clear_child (h : t.Apart d n e m) : (t.clear d n).child e m = t.child e m := by
  obtain ⟨hd, hi⟩ := h
  rw [clear]
  split
  · rfl
  next i hc =>
  split
  · next hdir =>
    rw [detach_child (.inr (hi i hc hdir)), put_child_of_ne hd]
  · exact put_child_of_ne hd

theorem child_of_clear {j : Nat} (h : (t.clear d n).child e m = some j) : t.child e m = some j := by
  rw [clear] at h
  split at h
  · exact h
  split at h
  · exact (child_of_put_none (child_of_detach h)).2
  · exact (child_of_put_none h).2

theorem clear_child_self : (t.clear d n).child d n = none := by
  cases hc : (t.clear d n).child d n with
  | none => rfl
  | some j =>
    rw [clear] at hc
    split at hc
    · next hnone => exact nomatch hnone.symm.trans hc
    split at hc
    · exact absurd ⟨rfl, rfl⟩ (child_of_put_none (child_of_detach hc)).1
    · exact absurd ⟨rfl, rfl⟩ (child_of_put_none hc).1

theorem clear_child_up (hc : t.child d n = some i) (hi : t.isDir i) :
    (t.clear d n).child i dotdot = none := by
  rw [clear, hc]
  simp only [if_pos hi]
  cases hu : (t.put d n none).child i dotdot with
  | none =>
    rw [detach, hu]
    exact hu
  | some p =>
    rw [detach, hu]
    exact put_child_self none

/-- What moving a name does not change: all but the two names and the ways
back of the directories that lose one. -/
theorem move_child (hn : Proper n) (hm : Proper m) (hc : t.child p n = some i)
    (hne : t.child q m ≠ some i) {k : Name} (hp : ¬ (e = p ∧ k = n)) (hq : ¬ (e = q ∧ k = m))
    (hi : t.isDir i → ¬ (e = i ∧ k = dotdot))
    (hj : ∀ j, t.child q m = some j → t.isDir j → ¬ (e = j ∧ k = dotdot)) :
    (t.move p n q m i).child e k = t.child e k := by
  have hslot : ¬ (p = q ∧ n = m) := by
    rintro ⟨rfl, rfl⟩
    exact hne hc
  have hold : ((t.clear q m).put q m (some i)).child p n = some i := by
    rw [put_child_of_ne hslot, clear_child ⟨hslot, fun _ _ _ h => hn.2 h.2⟩]
    exact hc
  rw [move, clear_child, put_child_of_ne hq, clear_child ⟨hq, hj⟩]
  refine ⟨hp, fun j hcj hdir => ?_⟩
  obtain rfl : i = j := mem_unique hold hcj
  rw [put_isDir, clear_isDir] at hdir
  exact hi hdir

theorem move_child_none {k : Name} (hq : ¬ (e = q ∧ k = m))
    (h : t.child e k = none) : (t.move p n q m i).child e k = none := by
  cases hc : (t.move p n q m i).child e k with
  | none => rfl
  | some j =>
    have hput := child_of_clear hc
    rw [put_child_of_ne hq] at hput
    rw [child_of_clear hput] at h
    cases h

theorem move_child_old : (t.move p n q m i).child p n = none := clear_child_self

theorem move_child_new (hm : Proper m)
    (hslot : ¬ (p = q ∧ n = m)) : (t.move p n q m i).child q m = some i := by
  rw [move, clear_child, put_child_self]
  refine ⟨fun h => hslot ⟨h.1.symm, h.2.symm⟩, fun _ _ _ h => hm.2 h.2⟩

theorem move_child_up (hn : Proper n) (hc : t.child p n = some i)
    (hslot : ¬ (p = q ∧ n = m)) (hi : t.isDir i) : (t.move p n q m i).child i dotdot = none := by
  refine clear_child_up ?_ (by rwa [put_isDir, clear_isDir])
  rw [put_child_of_ne hslot, clear_child ⟨hslot, fun _ _ _ h => hn.2 h.2⟩]
  exact hc

theorem move_child_up_replaced {j : Nat} (hm : Proper m) (hc : t.child q m = some j)
    (hj : t.isDir j) : (t.move p n q m i).child j dotdot = none := by
  cases hu : (t.move p n q m i).child j dotdot with
  | none => rfl
  | some x =>
    have hput := child_of_clear hu
    rw [put_child_of_ne fun h => hm.2 h.2.symm, clear_child_up hc hj] at hput
    cases hput

end Clear

end Names

/-! ## Functions -/

variable {status : Int}

section Functions

variable {s s' : Volume} {p q i : Nat} {name newname : Name}

theorem clear_deleteDirectoryEntry {d : Nat}
    (h : bitbucketDeleteDirectoryEntry d name s = some (status, s')) :
    s'.names = s.names.clear d name ∧ (status = 0 ↔ s.names.child d name ≠ none) := by
  obtain ⟨-, ⟨hc, rfl, hn⟩ | ⟨i, hc, rfl, ⟨hi, -, hn⟩ | ⟨hi, hn⟩⟩⟩ := names_deleteDirectoryEntry h
  · rw [clear, hc]
    exact ⟨hn, by decide⟩
  · rw [clear, hc]
    exact ⟨hn.trans (if_pos hi).symm, fun _ => nofun, fun _ => rfl⟩
  · rw [clear, hc]
    exact ⟨hn.trans (if_neg hi).symm, fun _ => nofun, fun _ => rfl⟩

/-- An insertion and the deletion of the old name, which may be the one that
was just inserted. -/
theorem names_moveEntry (hc : s.names.child p name = some i ∨ p = q ∧ name = newname)
    (h : moveEntry p q i name newname s = some (status, s')) :
    status = 0 ∧ s'.names = (s.names.put q newname (some i)).clear p name := by
  obtain ⟨_, s1, hi, h⟩ := bind_inv h
  obtain ⟨-, -, -, hn⟩ := names_insertNew hi
  obtain ⟨hn', hz⟩ := clear_deleteDirectoryEntry h
  refine ⟨hz.mpr ?_, by rw [hn', hn]⟩
  rw [hn, put_child]
  split
  · nofun
  next hslot =>
  rw [hc.resolve_right hslot]
  nofun

/-- A rename that acts succeeds, and moves the name unless it exchanges two. -/
theorem names_renameStep {flags : Nat} (hname : Proper name)
    (hc : s.child p name = some i) (h : RenameStep p q i name newname flags s status s') :
    status = 0 ∧ (flags &&& renameExchange = 0 ∨ s.child q newname = none →
      s'.names = s.names.move p name q newname i) := by
  cases h with
  | move hfree hm =>
    obtain ⟨hz, hn⟩ := names_moveEntry (.inl hc) hm
    refine ⟨hz, fun _ => ?_⟩
    rw [hn, move, clear_of_none (t := s.names) (d := q) (n := newname) hfree]
  | exchange hj hex hx =>
    refine ⟨?_, fun h => h.elim (absurd · hex) (absurd · (by simp [hj]))⟩
    obtain ⟨-, ⟨-, -, hnone | hnone⟩ | ⟨e, e', -, -, rfl, -⟩⟩ := exchange_inv hx
    · exact nomatch hnone.symm.trans hc
    · exact nomatch hnone.symm.trans hj
    · rfl
  | @replace j s1 hj hex hd hm =>
    obtain ⟨hn1, -⟩ := clear_deleteDirectoryEntry hd
    have hold : s1.names.child p name = some i ∨ p = q ∧ name = newname := by
      by_cases hslot : p = q ∧ name = newname
      · exact .inr hslot
      refine .inl ?_
      rw [hn1, clear_child ⟨hslot, fun _ _ _ h => hname.2 h.2⟩]
      exact hc
    obtain ⟨hz, hn⟩ := names_moveEntry hold hm
    exact ⟨hz, fun _ => by rw [hn, hn1]; rfl⟩

theorem Passes.names {g g' : Account} (h : Passes g s g' s') : s'.names = s.names :=
  h.keeps (P := fun _ s' => s'.names = s.names) ⟨fun h _ => h,
    fun h hx => (names_dereference hx).trans h,
    fun _ h => (Volume.names_setKernel ..).trans h⟩ rfl

/-- A rename request that has returned: it sent no reply, or it changed no
name and replied an error, or it acted. -/
theorem rename_cases {parent newparent flags : Nat} {rs : List Reply}
    (h : bitbucketRename parent name newparent newname flags s = some (rs, s')) :
    (rs = [] ∧ ¬ (Proper name ∧ Proper newname) ∧ s'.names = s.names) ∨
    (∃ status, status ≠ 0 ∧ rs = [.err status] ∧ s'.names = s.names ∧
      ∀ p ∈ s.resolve parent, ∀ q ∈ s.resolve newparent,
        ∀ i ∈ s.child p name, ¬ s.RenameActs p q i name newname flags) ∨
    ∃ p q i, s.resolve parent = some p ∧ s.resolve newparent = some q ∧
      s.child p name = some i ∧ s.RenameActs p q i name newname flags ∧
      rs = [.err 0] ∧ (flags &&& renameExchange = 0 ∨
        s.child q newname = none → s'.names = s.names.move p name q newname i) := by
  cases rename_ends 0 s parent name newparent newname flags rs s' h with
  | dots hdots => exact .inl ⟨rfl, hdots, rfl⟩
  | refused hz hpass hno =>
    exact .inr (.inl ⟨_, hz, rfl, hpass.names, fun p hp q hq i hi ha =>
      hno p q i ⟨hp, hq, hi, ha⟩⟩)
  | @acted p q i _ c r s1 _ hr hpass hs hdone =>
    obtain ⟨rfl, hn⟩ := names_renameStep (s := s.recount c r) hr.acts.1 hr.child hs
    exact .inr (.inr ⟨p, q, i, hr.parent, hr.newparent, hr.child, hr.acts, rfl,
      fun hex => hdone.names.trans (hn hex)⟩)

end Functions

/-! ## Renames without exchange -/

/-- What a rename is for: the new name stands for what the old name stood
for, the old name for nothing, and the other names do not change. If both
stand for the same inode already, nothing changes. -/
structure Volume.Renamed (s s' : Volume) (p q i : Nat) (name newname : Name) :
    Prop where
  same : s.child q newname = some i → s'.child = s.child
  moved : s.child q newname ≠ some i → s'.child q newname = some i ∧ s'.child p name = none
  others : ∀ d n, ¬ (d = p ∧ n = name) → ¬ (d = q ∧ n = newname) → s'.child d n = s.child d n

/-- A rename request without exchange that replies success has renamed, and
any rename request that replies an error has changed no name. -/
def Volume.RenameRight (s s' : Volume) (parent : Nat) (name : Name)
    (newparent : Nat) (newname : Name) (flags : Nat) (rs : List Reply) : Prop :=
  (flags &&& renameExchange = 0 → rs = [.err 0] → ∃ p q i,
    s.resolve parent = some p ∧ s.resolve newparent = some q ∧
    s.child p name = some i ∧ s.Renamed s' p q i name newname) ∧
  ∀ status, status ≠ 0 → rs = [.err status] → s'.child = s.child

/-- If a rename request acts, then the two names stand for different inodes,
and neither of these is a directory with an entry `..`. -/
def Volume.RenameMoves (s : Volume) (parent : Nat) (name : Name)
    (newparent : Nat) (newname : Name) (flags : Nat) : Prop :=
  flags &&& renameExchange = 0 → ∀ p ∈ s.resolve parent,
    ∀ q ∈ s.resolve newparent, ∀ i ∈ s.child p name,
    s.RenameActs p q i name newname flags → s.child q newname ≠ some i ∧
      (s.inodeType i = .dir → s.child i dotdot = none) ∧
      ∀ j ∈ s.child q newname, s.inodeType j = .dir → s.child j dotdot = none

instance (s : Volume) (parent : Nat) (name : Name) (newparent : Nat)
    (newname : Name) (flags : Nat) :
    Decidable (s.RenameMoves parent name newparent newname flags) :=
  inferInstanceAs (Decidable (_ → _))

theorem rename_right_iff {s s' : Volume} {parent newparent flags : Nat} {name newname : Name}
    {rs : List Reply} (h : bitbucketRename parent name newparent newname flags s = some (rs, s')) :
    s.RenameRight s' parent name newparent newname flags rs ↔
      s.RenameMoves parent name newparent newname flags := by
  rcases rename_cases h with ⟨rfl, hnames, -⟩ |
    ⟨status, hz, rfl, hn, hna⟩ | ⟨p, q, i, hp, hq, hc, ha, rfl, hn⟩
  · refine iff_of_true ⟨fun _ => nofun, fun _ _ => nofun⟩ ?_
    intro _ p _ q _ i _ ha
    exact absurd ⟨ha.1, ha.2.1⟩ hnames
  · refine iff_of_true ⟨fun _ he => ?_, fun _ _ _ => congrArg child hn⟩ ?_
    · simp only [List.cons.injEq, Reply.err.injEq, and_true] at he
      exact absurd he hz
    · intro _ p hp q hq i hi ha
      exact absurd ha (hna p hp q hq i hi)
  have hzero : ∀ status, status ≠ 0 → [Reply.err 0] = [.err status] → s'.child = s.child := by
    intro status hz he
    simp only [List.cons.injEq, Reply.err.injEq, and_true] at he
    exact absurd he.symm hz
  by_cases hex : flags &&& renameExchange = 0
  · have hmove : s'.child = (s.names.move p name q newname i).child :=
      congrArg child (hn (.inl hex))
    have hname := ha.1
    have hnew := ha.2.1
    constructor
    · -- what the rename did to the old name and to the entries `..`
      rintro ⟨hright, -⟩ - p' hp' q' hq' i' hi' -
      obtain rfl : p = p' := mem_unique hp hp'
      obtain rfl : q = q' := mem_unique hq hq'
      obtain rfl : i = i' := mem_unique hc hi'
      obtain ⟨p', q', i', hp', hq', hi', hr⟩ := hright hex rfl
      obtain rfl : p = p' := mem_unique hp hp'
      obtain rfl : q = q' := mem_unique hq hq'
      obtain rfl : i = i' := mem_unique hc hi'
      have hne : s.child q newname ≠ some i := by
        intro hsame
        have hold : s'.child p name = none := by
          rw [hmove]
          exact move_child_old
        rw [hr.same hsame, hc] at hold
        cases hold
      have hslot : ¬ (p = q ∧ name = newname) := by
        rintro ⟨rfl, rfl⟩
        exact hne hc
      have hup (k : Nat) : s'.child k dotdot = s.child k dotdot :=
        hr.others k dotdot (fun h => hname.2 h.2.symm) fun h => hnew.2 h.2.symm
      refine ⟨hne, fun hi => ?_, fun j hj hdir => ?_⟩
      · rw [← hup, hmove]
        exact move_child_up hname hc hslot hi
      · rw [← hup, hmove]
        exact move_child_up_replaced hnew hj hdir
    · intro hcond
      obtain ⟨hne, hi, hj⟩ := hcond hex p hp q hq i hc ha
      have hslot : ¬ (p = q ∧ name = newname) := by
        rintro ⟨rfl, rfl⟩
        exact hne hc
      refine ⟨fun _ _ => ⟨p, q, i, hp, hq, hc, ?_⟩, hzero⟩
      refine ⟨fun hsame => absurd hsame hne, fun _ => ?_, fun d n hd hd' => ?_⟩
      · rw [hmove]
        exact ⟨move_child_new hnew hslot, move_child_old⟩
      rw [hmove]
      cases hdn : s.child d n with
      | none => exact move_child_none hd' hdn
      | some k =>
        -- an entry `..` that is there is not one that is lost
        refine (move_child hname hnew hc hne hd hd' ?_ ?_).trans hdn
        · rintro hdir ⟨rfl, rfl⟩
          exact absurd ((hi hdir).symm.trans hdn) nofun
        · rintro j hcj hdir ⟨rfl, rfl⟩
          exact absurd ((hj d hcj hdir).symm.trans hdn) nofun
  · exact iff_of_true ⟨fun h => absurd h hex, hzero⟩ fun h => absurd h hex

/-- A file is renamed over another one. -/
theorem rename_right_iff_replace : ∃ s s1 rs s', mountRoot ⟨5, 0⟩ .empty = some ((), s) ∧
    (Machine.run (Volume.step .plain) s
      [.create 1 ['f'] 0o644 ⟨6, 0⟩, .create 1 ['g'] 0o644 ⟨7, 0⟩]).map Prod.snd =
      some s1 ∧
    bitbucketRename 1 ['f'] 1 ['g'] 0 s1 = some (rs, s') ∧
    rs = [.err 0] ∧ s1.child 0 ['g'] = some 2 ∧
    s1.RenameRight s' 1 ['f'] 1 ['g'] 0 rs := by
  have hrun : ((mountRoot ⟨5, 0⟩ .empty).bind fun p =>
      ((Machine.run (Volume.step .plain) p.2
        [.create 1 ['f'] 0o644 ⟨6, 0⟩, .create 1 ['g'] 0o644 ⟨7, 0⟩]).map Prod.snd).bind
      fun s => (bitbucketRename 1 ['f'] 1 ['g'] 0 s).map fun q =>
        (q.1, s.child 0 ['g'], decide (s.RenameMoves 1 ['f'] 1 ['g'] 0))) =
      some ([.err 0], some 2, true) := by
    decide +kernel
  obtain ⟨⟨_, s⟩, hs, hrun⟩ := bind_eq_some_iff.mp hrun
  obtain ⟨s1, hs1, hrun⟩ := bind_eq_some_iff.mp hrun
  obtain ⟨⟨rs, s'⟩, hr, hend⟩ := map_eq_some_iff.mp hrun
  simp only [Prod.mk.injEq, decide_eq_true_eq] at hend
  obtain ⟨hrs, hg, hcond⟩ := hend
  exact ⟨s, s1, rs, s', hs, hs1, hr, hrs, hg, (rename_right_iff hr).mpr hcond⟩

/-- A file that is renamed to its own name is removed. -/
theorem rename_to_itself_removes : ∃ s s1 s', mountRoot ⟨5, 0⟩ .empty = some ((), s) ∧
    (Machine.run (Volume.step .plain) s [.create 1 ['f'] 0o644 ⟨6, 0⟩]).map Prod.snd = some s1 ∧
    bitbucketRename 1 ['f'] 1 ['f'] 0 s1 = some ([.err 0], s') ∧
    s1.child 0 ['f'] = some 1 ∧ s'.child 0 ['f'] = none ∧
    ¬ s1.RenameRight s' 1 ['f'] 1 ['f'] 0 [.err 0] := by
  have hrun : ((mountRoot ⟨5, 0⟩ .empty).bind fun p =>
      ((Machine.run (Volume.step .plain) p.2 [.create 1 ['f'] 0o644 ⟨6, 0⟩]).map Prod.snd).bind
      fun s => (bitbucketRename 1 ['f'] 1 ['f'] 0 s).map fun q =>
        (q.1, s.root, s.child 0 ['f'], q.2.child 0 ['f'])) =
      some ([.err 0], 0, some 1, none) := by
    decide +kernel
  obtain ⟨⟨_, s⟩, hs, hrun⟩ := bind_eq_some_iff.mp hrun
  obtain ⟨s1, hs1, hrun⟩ := bind_eq_some_iff.mp hrun
  obtain ⟨⟨rs, s'⟩, hr, hend⟩ := map_eq_some_iff.mp hrun
  simp only [Prod.mk.injEq] at hend
  obtain ⟨rfl, hroot, hold, hnew⟩ := hend
  refine ⟨s, s1, s', hs, hs1, hr, hold, hnew, fun hright => ?_⟩
  obtain ⟨p, q, i, hp, hq, hc, hren⟩ := hright.1 (by decide) rfl
  have hres : s1.resolve 1 = some 0 := congrArg some hroot
  obtain rfl : 0 = p := mem_unique hres hp
  obtain rfl : 0 = q := mem_unique hres hq
  rw [hren.same hc, hold] at hnew
  cases hnew

end Finesse.Bitbucket
