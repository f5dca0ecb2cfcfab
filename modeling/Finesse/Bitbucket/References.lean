import Finesse.Lib.Ledger
import Finesse.Bitbucket.DirectoryNames

/-!
# The accounts of references

Who may hold a reference on an inode: the directory entries that name it, the
directories whose parent it is, the kernel, the mounted volume, and for the
time of a request the handler. `claimed` is the ledger of the first three.
`Held m o s` says that the counts of every inode in `s` are those of `claimed`
and of a ledger `o`, which stands for the mounted volume (`m`) and the running
handler. Every function below is described by what it does to `o`.
-/

namespace Finesse.Bitbucket

open Prog (assert)
open Ledger Function Volume List DirEntry

instance : Fintype Reason where
  elems := {.lookup, .parent, .dirent, .enum, .removeDirent, .fuseLookup, .fuseOpen, .fuseOpendir}
  complete := fun r => by cases r <;> decide

abbrev Account := Ledger Reason Nat

namespace Volume

/-- What directories and the kernel hold. -/
def claimed (s : Volume) : Account := fun r i =>
  match r with
  | .dirent => ∑ d ∈ Finset.range s.next,
      (s.entries d).countP fun e => e.inode = i
  | .parent => ∑ d ∈ Finset.range s.next, if s.parent d = some i then 1 else 0
  | .fuseLookup => (s.kernel i).lookups
  | .fuseOpen => (s.kernel i).opens
  | .fuseOpendir => (s.kernel i).opendirs
  | .lookup | .enum | .removeDirent => 0

/-- What the mounted volume holds: the root and the magic directories. -/
def mounted (s : Volume) : Account := fun r i =>
  if r = .lookup then (if i = s.root then 1 else 0) + s.magic.count i else 0

end Volume

/-- The counts of the inodes are those of the ledger. -/
structure Counts (o : Account) (s : Volume) : Prop where
  reasons : ∀ i r, s.live i = true → s.referenceReasons i r = o r i
  total : ∀ i, s.live i = true → s.referenceCount i = o.total i
  kept : ∀ i, s.live i = true → 0 < s.referenceCount i
  dead : ∀ i r, s.live i = false → o r i = 0

structure Held (m o : Account) (s : Volume) : Prop where
  counts : Counts (s.claimed + o) s
  mount : s.mounted = m
  /-- only directories have entries -/
  dirs : ∀ d, s.entries d ≠ [] → s.inodeType d = .dir
  /-- what was freed names nothing -/
  gone : ∀ d, s.live d = false → s.entries d = [] ∧ s.parent d = none
  nodup : ∀ d, ((s.entries d).map name).Nodup
  /-- every inode is found under its number -/
  found : ∀ i, s.live i = true → s.table (s.inode i).ino = some i
  table : ∀ n i, s.table n = some i → s.live i = true ∧ (s.inode i).ino = n

/-! ## Counts -/

variable {n : Name} {e : DirEntry} {b j : Nat}

namespace Counts

variable {o : Account} {s : Volume} {i : Nat} {r : Reason}

theorem add (h : Counts o s) (hi : s.live i = true) :
    Counts (o + owe r i 1) (s.addReferences i r 1) := by
  refine ⟨fun j q hj => ?_, fun j hj => ?_, fun j hj => ?_, fun j q hj => ?_⟩
  · have hj' := h.reasons j q hj
    rw [add_apply, ← hj']
    by_cases hji : j = i
    · subst hji
      by_cases hq : q = r
      · subst hq
        simp [addReferences, owe_self]
      · simp [addReferences, hq, owe_other]
    · simp [addReferences, hji, owe_other]
  · have hj' := h.total j hj
    rw [total_add, ← hj']
    by_cases hji : j = i
    · subst hji
      simp [addReferences, total_owe_self]
    · simp [addReferences, hji, total_owe_other]
  · have hj' := h.kept j hj
    by_cases hji : j = i
    · subst hji
      simp [addReferences]
    · simpa [addReferences, hji] using hj'
  · have hji : j ≠ i := by
      rintro rfl
      exact absurd (hj.symm.trans hi) (by decide)
    rw [add_apply, h.dead j q hj, owe_other _ fun hq => hji hq.2]

theorem congr {t : Volume} (h : Counts o s) (hl : t.live = s.live)
    (hc : t.referenceCount = s.referenceCount)
    (hr : t.referenceReasons = s.referenceReasons) : Counts o t := by
  refine ⟨?_, ?_, ?_, ?_⟩
  · rw [hl, hr]
    exact h.reasons
  · rw [hl, hc]
    exact h.total
  · rw [hl, hc]
    exact h.kept
  · rw [hl]
    exact h.dead

theorem drop (h : Counts (o + owe r i b) s)
    (hlast : s.live i = true → s.referenceCount i ≠ b) : Counts o (s.dropReferences i r b) := by
  refine ⟨fun j q hj => ?_, fun j hj => ?_, fun j hj => ?_, fun j q hj => ?_⟩
  · have hj' := h.reasons j q hj
    rw [add_apply] at hj'
    by_cases hji : j = i
    · subst hji
      by_cases hq : q = r
      · subst hq
        rw [owe_self] at hj'
        simp [dropReferences, hj']
      · rw [owe_other _ fun hr => hq hr.1] at hj'
        simpa [dropReferences, hq] using hj'
    · rw [owe_other _ fun hr => hji hr.2] at hj'
      simpa [dropReferences, hji] using hj'
  · have hj' := h.total j hj
    rw [total_add] at hj'
    by_cases hji : j = i
    · subst hji
      rw [total_owe_self] at hj'
      simp [dropReferences, hj']
    · rw [total_owe_other _ _ hji] at hj'
      simpa [dropReferences, hji] using hj'
  · have hj' := h.kept j hj
    by_cases hji : j = i
    · subst hji
      have hb := h.total j hj
      rw [total_add, total_owe_self] at hb
      have := hlast hj
      show 0 < (s.dropReferences j r b).referenceCount j
      simp only [dropReferences, update_self]
      omega
    · simpa [dropReferences, hji] using hj'
  · have hj' := h.dead j q hj
    rw [add_apply] at hj'
    omega

theorem free (h : Counts (o + owe r i b) s) (hi : s.live i = true)
    (hlast : s.referenceCount i = b) : Counts o ((s.dropReferences i r b).free i) := by
  have hzero : o.total i = 0 := by
    have ht := h.total i hi
    rw [total_add, total_owe_self] at ht
    omega
  have hne : ∀ j, ((s.dropReferences i r b).free i).live j = true → j ≠ i ∧ s.live j = true := by
    intro j hj
    by_cases hji : j = i
    · subst hji
      simp [free] at hj
    · exact ⟨hji, by simpa [Volume.free, Volume.dropReferences, hji] using hj⟩
  refine ⟨fun j q hj => ?_, fun j hj => ?_, fun j hj => ?_, fun j q hj => ?_⟩
  · obtain ⟨hji, hj⟩ := hne j hj
    have hj' := h.reasons j q hj
    rw [add_apply, owe_other _ fun hr => hji hr.2] at hj'
    simpa [Volume.free, Volume.dropReferences, hji] using hj'
  · obtain ⟨hji, hj⟩ := hne j hj
    have hj' := h.total j hj
    rw [total_add, total_owe_other _ _ hji] at hj'
    simpa [Volume.free, Volume.dropReferences, hji] using hj'
  · obtain ⟨hji, hj⟩ := hne j hj
    simpa [Volume.free, Volume.dropReferences, hji] using h.kept j hj
  by_cases hji : j = i
  · subst hji
    exact eq_zero_of_total hzero q
  have hj : s.live j = false := by
    simpa [Volume.free, Volume.dropReferences, hji] using hj
  have hj' := h.dead j q hj
  rw [add_apply] at hj'
  omega

theorem create {t : InodeType} {new : NewInode} {b : Bool} (h : Counts o s) :
    Counts (o + owe .lookup s.next 1) (s.create t new b) := by
  have hunused : s.live s.next = false := s.unused _ (Nat.le_refl _)
  refine ⟨fun j q hj => ?_, fun j hj => ?_, fun j hj => ?_, fun j q hj => ?_⟩
  · rw [add_apply]
    by_cases hji : j = s.next
    · subst hji
      rw [h.dead _ q hunused]
      simp [Volume.create, owe]
    · have hj : s.live j = true := by simpa [Volume.create, hji] using hj
      rw [← h.reasons j q hj, owe_other _ fun hq => hji hq.2]
      simp [Volume.create, hji]
  · rw [total_add]
    by_cases hji : j = s.next
    · subst hji
      have hzero : o.total s.next = 0 := Finset.sum_eq_zero fun q _ => h.dead _ q hunused
      rw [hzero, total_owe_self]
      simp [Volume.create]
    · have hj : s.live j = true := by simpa [Volume.create, hji] using hj
      rw [← h.total j hj, total_owe_other _ _ hji]
      simp [Volume.create, hji]
  · by_cases hji : j = s.next
    · subst hji
      simp [Volume.create]
    · have hj : s.live j = true := by simpa [Volume.create, hji] using hj
      simpa [Volume.create, hji] using h.kept j hj
  · have hji : j ≠ s.next := by
      rintro rfl
      simp [Volume.create] at hj
    have hj : s.live j = false := by simpa [Volume.create, hji] using hj
    rw [add_apply, h.dead j q hj, owe_other _ fun hq => hji hq.2]

end Counts

/-! ## What is claimed -/

namespace Volume

variable (s : Volume) (d i : Nat)

@[simp] theorem claimed_addReferences (r : Reason) (n : Nat) :
    (s.addReferences i r n).claimed = s.claimed := rfl

@[simp] theorem claimed_setInode (f : Inode → Inode) : (s.setInode i f).claimed = s.claimed := rfl

/-- A change of the entries of one directory, in terms of the inodes that its
entries name before and after. -/
theorem claimed_setEntries {f : List DirEntry → List DirEntry} {k : Nat} {a : Nat} (hd : d < s.next)
    (hf : ∀ x, (f (s.entries d)).countP (fun e => e.inode = x) + (if x = j then a else 0) =
      (s.entries d).countP (fun e => e.inode = x) + if x = k then b else 0) :
    (s.setEntries d f).claimed + owe .dirent j a = s.claimed + owe .dirent k b := by
  funext r x
  rw [add_apply, add_apply]
  by_cases hr : r = .dirent
  · subst hr
    have hsum := Finset.sum_range_change hd
      (g := fun e => ((s.setEntries d f).entries e).countP fun e => e.inode = x)
      (f := fun e => (s.entries e).countP fun e => e.inode = x)
      (fun e he => by simp [setEntries, he]) (by simpa [setEntries] using hf x)
    simp only [owe, true_and]
    exact hsum
  · rw [owe_other _ fun h => hr h.1, owe_other _ fun h => hr h.1]
    cases r <;> first | rfl | exact absurd rfl hr

theorem claimed_insertEntry (hd : d < s.next) :
    (s.insertEntry d i n).claimed = s.claimed + owe .dirent i 1 := by
  have h : (s.setEntries d (⟨n, i, (s.inode d).epoch⟩ :: ·)).claimed =
      s.claimed + owe .dirent i 1 := by
    have := claimed_setEntries s d (j := i) (k := i) (a := 0) (b := 1)
      (f := (⟨n, i, (s.inode d).epoch⟩ :: ·)) hd fun x => by
        rw [countP_cons]
        by_cases hx : x = i
        · simp [hx]
        · simp [hx, Ne.symm hx]
    rw [owe_zero, add_zero] at this
    exact this
  rw [insertEntry]
  split
  · rw [claimed_setInode, h]
  · exact h

theorem countP_remove {es : List DirEntry}
    (hnodup : (es.map name).Nodup) (he : findEntry es n = some e) (x : Nat) :
    (es.filter fun e => e.name ≠ n).countP (fun e => e.inode = x) + (if x = e.inode then 1 else 0) =
      es.countP fun e => e.inode = x := by
  induction es with
  | nil => cases he
  | cons a es ih =>
    rw [map_cons, nodup_cons] at hnodup
    rw [findEntry_cons] at he
    by_cases ha : a.name = n
    · rw [if_pos ha, Option.some.injEq] at he
      subst he
      have hrest : es.filter (fun e => e.name ≠ n) = es := by
        refine filter_eq_self.mpr fun b hb => ?_
        have : b.name ≠ n := fun h => hnodup.1 (mem_map.mpr ⟨b, hb, h.trans ha.symm⟩)
        simpa using this
      rw [filter_cons_of_neg (by simpa using ha), hrest, countP_cons]
      by_cases hx : x = a.inode
      · simp [hx]
      · simp [hx, Ne.symm hx]
    · rw [if_neg ha] at he
      rw [filter_cons_of_pos (by simpa using ha), countP_cons,
        countP_cons, ← ih hnodup.2 he]
      omega

theorem claimed_removeEntry (hd : d < s.next)
    (hnodup : ((s.entries d).map name).Nodup) (he : findEntry (s.entries d) n = some e) :
    s.claimed = (s.removeEntry d n).claimed + owe .dirent e.inode 1 := by
  have := claimed_setEntries s d (j := e.inode) (k := 0) (a := 1) (b := 0)
    (f := fun es => es.filter fun e => e.name ≠ n) hd fun x => by
      rw [countP_remove hnodup he, ite_self, Nat.add_zero]
  rw [owe_zero, add_zero] at this
  exact this.symm

theorem redirectEntry_names (e : Nat) :
    ((s.redirectEntry d n j).entries e).map name = (s.entries e).map name := by
  by_cases he : e = d
  · subst he
    simp only [redirectEntry, setEntries, update_self, map_map]
    refine map_congr_left fun a _ => ?_
    rw [Function.comp_apply]
    split <;> rfl
  · simp only [redirectEntry, setEntries, update_of_ne he]

theorem countP_redirect {es : List DirEntry}
    (hnodup : (es.map name).Nodup) (he : findEntry es n = some e) (j x : Nat) :
    (es.map fun e => if e.name = n then { e with inode := j } else e).countP
        (fun e => e.inode = x) + (if x = e.inode then 1 else 0) =
      es.countP (fun e => e.inode = x) + if x = j then 1 else 0 := by
  induction es with
  | nil => cases he
  | cons a es ih =>
    rw [map_cons, nodup_cons] at hnodup
    rw [findEntry_cons] at he
    rw [map_cons, countP_cons, countP_cons]
    by_cases ha : a.name = n
    · rw [if_pos ha, Option.some.injEq] at he
      subst he
      have hrest : es.map (fun e => if e.name = n then
          { e with inode := j } else e) = es := by
        refine (map_congr_left (g := id) fun b hb => if_neg ?_).trans (map_id es)
        intro h
        exact hnodup.1 (mem_map.mpr ⟨b, hb, h.trans ha.symm⟩)
      rw [hrest, if_pos ha]
      simp only [decide_eq_true_eq, eq_comm (a := x)]
      omega
    · rw [if_neg ha] at he ⊢
      have := ih hnodup.2 he
      omega

theorem claimed_redirectEntry (hd : d < s.next)
    (hnodup : ((s.entries d).map name).Nodup) (he : findEntry (s.entries d) n = some e) :
    (s.redirectEntry d n j).claimed + owe .dirent e.inode 1 = s.claimed + owe .dirent j 1 :=
  claimed_setEntries s d hd fun x => countP_redirect hnodup he j x

theorem claimed_setParent {q : Option Nat} {k a : Nat} (hd : d < s.next)
    (hq : ∀ x, (if q = some x then 1 else 0) + (if x = j then a else 0) =
      (if s.parent d = some x then 1 else 0) + if x = k then b else 0) :
    (s.setParent d q).claimed + owe .parent j a = s.claimed + owe .parent k b := by
  funext r x
  rw [add_apply, add_apply]
  by_cases hr : r = .parent
  · subst hr
    have hsum := Finset.sum_range_change hd
      (g := fun e => if (s.setParent d q).parent e = some x then 1 else 0)
      (f := fun e => if s.parent e = some x then 1 else 0)
      (fun e he => by simp [setParent, he]) (by simpa [setParent] using hq x)
    simp only [owe, true_and]
    exact hsum
  · rw [owe_other _ fun h => hr h.1, owe_other _ fun h => hr h.1]
    cases r <;> first | rfl | exact absurd rfl hr

theorem claimed_setParent_some {p : Nat} (hd : d < s.next) (hnone : s.parent d = none) :
    (s.setParent d (some p)).claimed = s.claimed + owe .parent p 1 := by
  have := claimed_setParent s d (q := some p) (j := 0) (k := p) (a := 0) (b := 1) hd fun x => by
      rw [hnone]
      simp [eq_comm]
  rw [owe_zero, add_zero] at this
  exact this

theorem claimed_setParent_none {p : Nat} (hd : d < s.next) (hsome : s.parent d = some p) :
    s.claimed = (s.setParent d none).claimed + owe .parent p 1 := by
  have := claimed_setParent s d (q := none) (j := p) (k := 0) (a := 1) (b := 0) hd fun x => by
      rw [hsome]
      simp [eq_comm]
  rw [owe_zero, add_zero] at this
  exact this.symm

theorem claimed_create {t : InodeType} {new : NewInode} {b : Bool}
    (h : s.kernel s.next = ⟨0, 0, 0⟩) : (s.create t new b).claimed = s.claimed := by
  have hkernel : (s.create t new b).kernel = s.kernel := by
    show update s.kernel s.next ⟨0, 0, 0⟩ = s.kernel
    rw [← h, update_eq_self]
  have hentries : ∀ e ∈ Finset.range s.next, (s.create t new b).entries e = s.entries e := by
    intro e he
    exact update_of_ne (Nat.ne_of_lt (Finset.mem_range.mp he)) _ _
  have hparent : ∀ e ∈ Finset.range s.next, (s.create t new b).parent e = s.parent e := by
    intro e he
    exact update_of_ne (Nat.ne_of_lt (Finset.mem_range.mp he)) _ _
  funext r x
  cases r with
  | dirent =>
    show ∑ e ∈ Finset.range (s.next + 1), _ = ∑ e ∈ Finset.range s.next, _
    rw [Finset.sum_range_succ]
    have hnew : (s.create t new b).entries s.next = [] := update_self _ _ _
    rw [hnew, countP_nil, Nat.add_zero]
    exact Finset.sum_congr rfl fun e he => by rw [hentries e he]
  | parent =>
    show ∑ e ∈ Finset.range (s.next + 1), _ = ∑ e ∈ Finset.range s.next, _
    rw [Finset.sum_range_succ]
    have hnew : (s.create t new b).parent s.next = none := update_self _ _ _
    rw [hnew, if_neg nofun, Nat.add_zero]
    exact Finset.sum_congr rfl fun e he => by rw [hparent e he]
  | fuseLookup => exact congrArg Kernel.lookups (congrFun hkernel x)
  | fuseOpen => exact congrArg Kernel.opens (congrFun hkernel x)
  | fuseOpendir => exact congrArg Kernel.opendirs (congrFun hkernel x)
  | lookup => rfl
  | enum => rfl
  | removeDirent => rfl

end Volume

end Finesse.Bitbucket
