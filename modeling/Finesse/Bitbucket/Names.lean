import Finesse.Bitbucket.Directory

/-!
# The tree of directories

`Names` is the part of a volume that says what is called what, and `Names.Tree`
is the contract: every directory that can be reached from the root has entries
`.` and `..` and a parent pointer as it should, has exactly one other name, and
leads back to the root.

`Names.Inv` is what the requests keep. Directories that cannot be reached any
more, because their last name was removed while the kernel still holds them,
may be in any state; the invariant says of them only that they do not name
directories that can be reached. A directory is younger than the one it is
in, which is why there are no cycles.
-/

namespace Finesse.Bitbucket

open Function

/-- Which inodes are directories, what the names in a directory stand for,
and the parent pointers. The mode of the root directory is what keeps a link
request from removing its entries. -/
@[ext]
structure Names where
  isDir : Nat → Prop
  child : Nat → Name → Option Nat
  parent : Nat → Option Nat
  root : Nat
  rootMode : Nat
  next : Nat

/-- A name that is neither `.` nor `..`. -/
def Proper (n : Name) : Prop := n ≠ dot ∧ n ≠ dotdot

instance (n : Name) : Decidable (Proper n) :=
  inferInstanceAs (Decidable (_ ∧ _))

variable {u : Names} {x : Nat}

namespace Names

/-- The directories that can be reached from the root. -/
inductive Reachable (t : Names) : Nat → Prop
  | root : Reachable t t.root
  | child {d i : Nat} {n : Name} (hd : Reachable t d) (hn : Proper n)
    (hc : t.child d n = some i) (hi : t.isDir i) : Reachable t i

/-- The directory that is found by following `k` parent pointers. -/
def ancestor (t : Names) : Nat → Nat → Option Nat
  | 0, d => some d
  | k + 1, d => (t.parent d).bind (t.ancestor k)

/-- The directories form a tree. -/
structure Tree (t : Names) : Prop where
  /-- `.` names the directory itself -/
  self : ∀ d, t.Reachable d → t.child d dot = some d
  /-- `..` and the parent pointer of the root name the root -/
  rootUp : t.child t.root dotdot = some t.root ∧ t.parent t.root = some t.root
  /-- `..` and the parent pointer name the directory that contains it -/
  up : ∀ d, t.Reachable d → d ≠ t.root → ∃ p n, t.Reachable p ∧ Proper n ∧
    t.child p n = some d ∧ t.child d dotdot = some p ∧ t.parent d = some p
  /-- there is only one name besides `.` and `..` -/
  oneName : ∀ d, t.Reachable d → d ≠ t.root → ∃ p n, (Proper n ∧ t.child p n = some d) ∧
      ∀ q m, Proper m → t.child q m = some d → q = p ∧ m = n
  /-- parent pointers lead to the root -/
  leads : ∀ d, t.Reachable d → ∃ k, t.ancestor k d = some t.root

/-- What every request keeps. -/
structure Inv (t : Names) : Prop where
  rootDir : t.isDir t.root
  rootSelf : t.child t.root dot = some t.root
  rootUp : t.child t.root dotdot = some t.root
  rootParent : t.parent t.root = some t.root
  rootMode : t.rootMode &&& sIFDIR = sIFDIR
  rootUnnamed : ∀ d n, Proper n → t.child d n ≠ some t.root
  named : ∀ d n i, t.Reachable d → Proper n → t.child d n = some i →
    t.isDir i → t.child i dot = some i ∧ t.child i dotdot = some d ∧ t.parent i = some d ∧ d < i
  unique : ∀ d n e m i, Proper n → Proper m → t.child d n = some i →
    t.child e m = some i → t.isDir i → d = e ∧ n = m
  closed : ∀ d n i, t.child d n = some i → t.isDir i → t.Reachable i → t.Reachable d
  used : ∀ d n i, t.child d n = some i → d < t.next ∧ i < t.next
  dirUsed : ∀ i, t.isDir i → i < t.next

namespace Inv

variable {t : Names}

variable {d : Nat}

theorem self (h : t.Inv) (hd : t.Reachable d) : t.child d dot = some d := by
  cases hd with
  | root => exact h.rootSelf
  | child hd hn hc hi => exact (h.named _ _ _ hd hn hc hi).1

theorem isDir (h : t.Inv) (hd : t.Reachable d) : t.isDir d := by
  cases hd with
  | root => exact h.rootDir
  | child _ _ _ hi => exact hi

theorem root_ne_next (h : t.Inv) : t.root ≠ t.next := Nat.ne_of_lt (h.dirUsed _ h.rootDir)

theorem leads (h : t.Inv) (hd : t.Reachable d) : ∃ k, t.ancestor k d = some t.root := by
  induction hd with
  | root => exact ⟨0, rfl⟩
  | child hd hn hc hi ih =>
    obtain ⟨k, hk⟩ := ih
    refine ⟨k + 1, ?_⟩
    rw [ancestor, (h.named _ _ _ hd hn hc hi).2.2.1]
    exact hk

theorem tree (h : t.Inv) : t.Tree := by
  refine ⟨fun d hd => h.self hd, ⟨h.rootUp, h.rootParent⟩, ?_, ?_, fun d hd => h.leads hd⟩
  · intro d hd hne
    cases hd with
    | root => exact absurd rfl hne
    | child hp hn hc hi =>
      obtain ⟨-, hup, hpar, -⟩ := h.named _ _ _ hp hn hc hi
      exact ⟨_, _, hp, hn, hc, hup, hpar⟩
  · intro d hd hne
    cases hd with
    | root => exact absurd rfl hne
    | child hp hn hc hi =>
      refine ⟨_, _, ⟨hn, hc⟩, fun q m hm hq => ?_⟩
      exact h.unique _ _ _ _ _ hm hn hq hc hi

end Inv

/-! ## Changes

What the functions of `dir.c` do to the names, as operations on `Names`. -/

/-- The name `n` in the directory `d` stands for `o` from now on. -/
def put (t : Names) (d : Nat) (n : Name) (o : Option Nat) : Names :=
  { t with child := fun e m => if e = d ∧ m = n then o else t.child e m }

def setParent (t : Names) (d : Nat) (p : Option Nat) : Names :=
  { t with parent := update t.parent d p }

/-- There is a new inode, which is a directory or is not. -/
def fresh (t : Names) (dir : Prop) : Names where
  isDir := update t.isDir t.next dir
  child := update t.child t.next fun _ => none
  parent := update t.parent t.next none
  root := t.root
  rootMode := t.rootMode
  next := t.next + 1

/-- A new directory with the name `n` in `d`. -/
def mkdir (t : Names) (d : Nat) (n : Name) : Names :=
  ((((t.fresh True).setParent t.next (some d)).put t.next dot (some t.next)).put
    t.next dotdot (some d)).put d n (some t.next)

/-- The way back from a directory `i` is taken out, if there is one. -/
def detach (t : Names) (i : Nat) : Names :=
  match t.child i dotdot with
  | none => t
  | some _ => (t.put i dotdot none).setParent i none

section Changes

variable {t : Names} {d e : Nat} {n m : Name} (i : Nat)

@[simp] theorem detach_isDir : (t.detach i).isDir = t.isDir := by
  rw [detach]
  split <;> rfl

@[simp] theorem detach_root : (t.detach i).root = t.root := by
  rw [detach]
  split <;> rfl

@[simp] theorem detach_next : (t.detach i).next = t.next := by
  rw [detach]
  split <;> rfl

variable (o : Option Nat)

@[simp] theorem put_isDir : (t.put d n o).isDir = t.isDir := rfl
@[simp] theorem put_parent : (t.put d n o).parent = t.parent := rfl
@[simp] theorem put_root : (t.put d n o).root = t.root := rfl
@[simp] theorem put_next : (t.put d n o).next = t.next := rfl

theorem put_child : (t.put d n o).child e m = if e = d ∧ m = n then o else t.child e m := rfl

theorem put_child_self : (t.put d n o).child d n = o := if_pos ⟨rfl, rfl⟩

theorem put_child_of_ne {o : Option Nat} (h : ¬ (e = d ∧ m = n)) :
    (t.put d n o).child e m = t.child e m :=
  if_neg h

theorem put_none (h : t.child d n = none) : t.put d n none = t := by
  have : (t.put d n none).child = t.child := by
    funext e m
    rw [put_child]
    split
    · next hem => rw [hem.1, hem.2, h]
    · rfl
  exact Names.ext rfl this rfl rfl rfl rfl

theorem child_of_put_none {i : Nat} (h : (t.put d n none).child e m = some i) :
    ¬ (e = d ∧ m = n) ∧ t.child e m = some i := by
  rw [put_child] at h
  split at h
  · cases h
  · next hne => exact ⟨hne, h⟩

end Changes

/-- Two volumes with the same directories: they may differ in the names of
other inodes. -/
structure SameDirs (t u : Names) : Prop where
  isDir : ∀ i, u.isDir i ↔ t.isDir i
  child : ∀ d n i, t.isDir i → (u.child d n = some i ↔ t.child d n = some i)
  parent : ∀ i, t.isDir i → u.parent i = t.parent i
  root : u.root = t.root
  rootMode : u.rootMode = t.rootMode

theorem SameDirs.reachable {t : Names} (h : SameDirs t u) {d : Nat}
    (hd : t.Reachable d) : u.Reachable d := by
  induction hd with
  | root => exact h.root ▸ .root
  | child _ hn hc hi ih =>
    exact .child ih hn ((h.child _ _ _ hi).mpr hc) ((h.isDir _).mpr hi)

theorem SameDirs.symm {t : Names} (h : SameDirs t u) : SameDirs u t where
  isDir i := (h.isDir i).symm
  child d n i hi := (h.child d n i ((h.isDir i).mp hi)).symm
  parent i hi := (h.parent i ((h.isDir i).mp hi)).symm
  root := h.root.symm
  rootMode := h.rootMode.symm

namespace Inv

variable {t : Names}

variable (h : t.Inv)
include h

theorem of_sameDirs (hs : SameDirs t u)
    (hused : ∀ d n i, u.child d n = some i → d < u.next ∧ i < u.next)
    (hnext : t.next ≤ u.next) : u.Inv := by
  have hr : u.isDir u.root := (hs.isDir _).mpr (hs.root ▸ h.rootDir)
  refine ⟨hr, ?_, ?_, ?_, hs.rootMode ▸ h.rootMode, ?_, ?_, ?_, ?_, hused, ?_⟩
  · rw [hs.root, hs.child _ _ _ h.rootDir]
    exact h.rootSelf
  · rw [hs.root, hs.child _ _ _ h.rootDir]
    exact h.rootUp
  · rw [hs.root, hs.parent _ h.rootDir]
    exact h.rootParent
  · intro d n hn hc
    rw [hs.root, hs.child _ _ _ h.rootDir] at hc
    exact h.rootUnnamed d n hn hc
  · intro d n i hd hn hc hi
    have hdt := hs.symm.reachable hd
    rw [hs.isDir] at hi
    rw [hs.child _ _ _ hi] at hc ⊢
    rw [hs.child _ _ _ (h.isDir hdt), hs.parent _ hi]
    exact h.named d n i hdt hn hc hi
  · intro d n e m i hn hm hc hc' hi
    rw [hs.isDir] at hi
    rw [hs.child _ _ _ hi] at hc hc'
    exact h.unique d n e m i hn hm hc hc' hi
  · intro d n i hc hi hir
    rw [hs.isDir] at hi
    rw [hs.child _ _ _ hi] at hc
    exact hs.reachable (h.closed d n i hc hi (hs.symm.reachable hir))
  · intro i hi
    have := h.dirUsed i ((hs.isDir i).mp hi)
    omega

variable {d : Nat} {n : Name}

theorem put_file {o : Option Nat} (hold : ∀ i, t.child d n = some i → ¬ t.isDir i)
    (hnew : ∀ i ∈ o, ¬ t.isDir i ∧ d < t.next ∧ i < t.next) : (t.put d n o).Inv := by
  refine h.of_sameDirs ⟨fun _ => Iff.rfl, ?_, fun _ _ => rfl, rfl, rfl⟩ ?_ (Nat.le_refl _)
  · intro e m i hi
    by_cases hem : e = d ∧ m = n
    · obtain ⟨rfl, rfl⟩ := hem
      rw [put_child_self]
      exact ⟨fun ho => absurd hi (hnew i ho).1, fun ho => absurd hi (hold i ho)⟩
    · rw [put_child_of_ne hem]
  · intro e m i hc
    by_cases hem : e = d ∧ m = n
    · obtain ⟨rfl, rfl⟩ := hem
      rw [put_child_self] at hc
      exact (hnew i hc).2
    · rw [put_child_of_ne hem] at hc
      exact h.used e m i hc

theorem put_free {i : Nat} (hfree : t.child d n = none) (hd : t.isDir d)
    (hi : ¬ t.isDir i) (hlt : i < t.next) : (t.put d n (some i)).Inv := by
  refine h.put_file (fun j hj => ?_) fun j hj => ?_
  · rw [hfree] at hj
    cases hj
  · obtain rfl : i = j := by simpa using hj
    exact ⟨hi, h.dirUsed d hd, hlt⟩

theorem fresh_file : (t.fresh False).Inv := by
  have hfree : ¬ t.isDir t.next := fun hd => absurd (h.dirUsed _ hd) (by omega)
  have hnone : ∀ n, t.child t.next n = none := by
    intro n
    cases hc : t.child t.next n with
    | none => rfl
    | some i => exact absurd (h.used _ _ _ hc).1 (by omega)
  have hchild : ∀ d n, (t.fresh False).child d n = t.child d n := by
    intro d n
    by_cases hd : d = t.next
    · subst hd
      simp [fresh, hnone]
    · simp [fresh, hd]
  refine h.of_sameDirs ⟨?_, ?_, ?_, rfl, rfl⟩ ?_ (Nat.le_succ _)
  · intro i
    by_cases hi : i = t.next
    · subst hi
      simp [fresh, hfree]
    · simp [fresh, hi]
  · intro d n i _
    rw [hchild]
  · intro i hi
    have hne : i ≠ t.next := fun he => hfree (he ▸ hi)
    simp [fresh, hne]
  · intro d n i hc
    rw [hchild] at hc
    obtain ⟨hd, hi⟩ := h.used d n i hc
    exact ⟨Nat.lt_succ_of_lt hd, Nat.lt_succ_of_lt hi⟩

theorem up (hd : t.Reachable d) : ∃ p, t.child d dotdot = some p := by
  cases hd with
  | root => exact ⟨_, h.rootUp⟩
  | child hp hn hc hi => exact ⟨_, (h.named _ _ _ hp hn hc hi).2.1⟩

theorem proper (hd : t.Reachable d) (hfree : t.child d n = none) : Proper n := by
  constructor
  · rintro rfl
    rw [h.self hd] at hfree
    cases hfree
  · rintro rfl
    obtain ⟨p, hp⟩ := h.up hd
    rw [hp] at hfree
    cases hfree

end Inv

section Mkdir

variable {t : Names} {d : Nat} {n : Name}

theorem mkdir_isDir (i : Nat) : (t.mkdir d n).isDir i ↔ i = t.next ∨ t.isDir i := by
  by_cases hi : i = t.next
  · subst hi
    simp [mkdir, setParent, fresh]
  · simp [mkdir, setParent, fresh, hi]

theorem mkdir_parent (i : Nat) :
    (t.mkdir d n).parent i = if i = t.next then some d else t.parent i := by
  by_cases hi : i = t.next
  · subst hi
    simp [mkdir, setParent, fresh]
  · simp [mkdir, setParent, fresh, hi]

theorem mkdir_child_new : (t.mkdir d n).child d n = some t.next := put_child_self _

theorem mkdir_child_self (hd : d ≠ t.next) : (t.mkdir d n).child t.next dot = some t.next := by
  rw [mkdir, put_child_of_ne fun h => hd h.1.symm,
    put_child_of_ne fun h => absurd h.2 (by decide), put_child_self]

theorem mkdir_child_up (hd : d ≠ t.next) : (t.mkdir d n).child t.next dotdot = some d := by
  rw [mkdir, put_child_of_ne fun h => hd h.1.symm, put_child_self]

variable {m : Name} {e : Nat}

theorem mkdir_child_old (he : e ≠ t.next)
    (hem : ¬ (e = d ∧ m = n)) : (t.mkdir d n).child e m = t.child e m := by
  rw [mkdir, put_child_of_ne hem, put_child_of_ne fun h => he h.1, put_child_of_ne fun h => he h.1]
  show update t.child t.next (fun _ => none) e m = t.child e m
  rw [update_of_ne he]

theorem mkdir_child_cases {i : Nat} (h : (t.mkdir d n).child e m = some i) :
    (e = d ∧ m = n ∧ i = t.next) ∨ (e = t.next ∧ m = dot ∧ i = t.next) ∨
      (e = t.next ∧ m = dotdot ∧ i = d) ∨
      (e ≠ t.next ∧ t.child e m = some i) := by
  by_cases hem : e = d ∧ m = n
  · obtain ⟨rfl, rfl⟩ := hem
    rw [mkdir_child_new, Option.some.injEq] at h
    exact .inl ⟨rfl, rfl, h.symm⟩
  by_cases he : e = t.next
  · subst he
    rw [mkdir, put_child_of_ne hem, put_child, put_child] at h
    split at h
    · next hup =>
      rw [Option.some.injEq] at h
      exact .inr (.inr (.inl ⟨rfl, hup.2, h.symm⟩))
    split at h
    · next hself =>
      rw [Option.some.injEq] at h
      exact .inr (.inl ⟨rfl, hself.2, h.symm⟩)
    · simp [setParent, fresh] at h
  · rw [mkdir_child_old he hem] at h
    exact .inr (.inr (.inr ⟨he, h⟩))

theorem mkdir_child_keeps (h : t.Inv) (hfree : t.child d n = none) {i : Nat}
    (hc : t.child e m = some i) : (t.mkdir d n).child e m = some i := by
  rw [mkdir_child_old, hc]
  · exact Nat.ne_of_lt (h.used _ _ _ hc).1
  rintro ⟨rfl, rfl⟩
  rw [hfree] at hc
  cases hc

theorem mkdir_reachable (h : t.Inv) (hfree : t.child d n = none)
    (hx : t.Reachable x) : (t.mkdir d n).Reachable x := by
  induction hx with
  | root => exact .root
  | child _ hm hc hi ih =>
    exact .child ih hm (mkdir_child_keeps h hfree hc) ((mkdir_isDir _).mpr (.inr hi))

theorem reachable_of_mkdir (h : t.Inv) (hd : t.isDir d) (hx : (t.mkdir d n).Reachable x) :
    t.Reachable x ∨ (x = t.next ∧ t.Reachable d) := by
  induction hx with
  | root => exact .inl .root
  | child _ hm hc hi ih =>
    obtain ⟨rfl, rfl, rfl⟩ | ⟨-, rfl, -⟩ | ⟨-, rfl, -⟩ | ⟨he, hc⟩ := mkdir_child_cases hc
    · rcases ih with ih | ⟨rfl, -⟩
      · exact .inr ⟨rfl, ih⟩
      · exact absurd (h.dirUsed _ hd) (Nat.lt_irrefl _)
    · exact absurd rfl hm.1
    · exact absurd rfl hm.2
    have hlt := (h.used _ _ _ hc).2
    rcases ih with ih | ⟨ih, -⟩
    · rcases (mkdir_isDir _).mp hi with rfl | hi
      · exact absurd hlt (Nat.lt_irrefl _)
      · exact .inl (.child ih hm hc hi)
    · exact absurd ih he

theorem Inv.mkdir (h : t.Inv) (hd : t.isDir d) (hfree : t.child d n = none) :
    (t.mkdir d n).Inv := by
  have hlt : d < t.next := h.dirUsed d hd
  have hroot : t.root < t.next := h.dirUsed _ h.rootDir
  have hkeep : ∀ {e i m}, t.child e m = some i →
      (t.mkdir d n).child e m = some i := fun hc => mkdir_child_keeps h hfree hc
  have hold : ∀ {x}, x ≠ t.next → (t.mkdir d n).Reachable x → t.Reachable x := by
    intro x hx hr
    rcases reachable_of_mkdir h hd hr with hr | ⟨rfl, -⟩
    · exact hr
    · exact absurd rfl hx
  refine ⟨(mkdir_isDir _).mpr (.inr h.rootDir), hkeep h.rootSelf,
    hkeep h.rootUp, ?_, h.rootMode, ?_, ?_, ?_, ?_, ?_, ?_⟩
  · show (t.mkdir d n).parent t.root = some t.root
    rw [mkdir_parent, if_neg (Nat.ne_of_lt hroot)]
    exact h.rootParent
  · intro e m hm hc
    obtain ⟨-, -, hr⟩ | ⟨-, rfl, -⟩ | ⟨-, rfl, -⟩ | ⟨-, hc⟩ := mkdir_child_cases hc
    · exact absurd hr (Nat.ne_of_lt hroot)
    · exact hm.1 rfl
    · exact hm.2 rfl
    · exact h.rootUnnamed e m hm hc
  · intro e m i he hm hc hi
    obtain ⟨rfl, rfl, rfl⟩ | ⟨-, rfl, -⟩ | ⟨-, rfl, -⟩ | ⟨hne, hc⟩ := mkdir_child_cases hc
    · refine ⟨mkdir_child_self (Nat.ne_of_lt hlt), mkdir_child_up (Nat.ne_of_lt hlt), ?_, hlt⟩
      rw [mkdir_parent, if_pos rfl]
    · exact absurd rfl hm.1
    · exact absurd rfl hm.2
    have hin : i ≠ t.next := Nat.ne_of_lt (h.used _ _ _ hc).2
    have hit : t.isDir i := ((mkdir_isDir i).mp hi).resolve_left hin
    obtain ⟨hs, hu, hp, hlt⟩ := h.named e m i (hold hne he) hm hc hit
    refine ⟨hkeep hs, hkeep hu, ?_, hlt⟩
    rw [mkdir_parent, if_neg hin]
    exact hp
  · intro e m f k i hm hk hc hc' hi
    obtain ⟨rfl, rfl, rfl⟩ | ⟨-, rfl, -⟩ | ⟨-, rfl, -⟩ | ⟨-, hc⟩ := mkdir_child_cases hc
    · obtain ⟨rfl, rfl, -⟩ | ⟨-, rfl, -⟩ | ⟨-, rfl, -⟩ | ⟨-, hc'⟩ := mkdir_child_cases hc'
      · exact ⟨rfl, rfl⟩
      · exact absurd rfl hk.1
      · exact absurd rfl hk.2
      · exact absurd (h.used _ _ _ hc').2 (Nat.lt_irrefl _)
    · exact absurd rfl hm.1
    · exact absurd rfl hm.2
    · have hin : i ≠ t.next := Nat.ne_of_lt (h.used _ _ _ hc).2
      obtain ⟨-, -, rfl⟩ | ⟨-, rfl, -⟩ | ⟨-, rfl, -⟩ | ⟨-, hc'⟩ := mkdir_child_cases hc'
      · exact absurd rfl hin
      · exact absurd rfl hk.1
      · exact absurd rfl hk.2
      · exact h.unique e m f k i hm hk hc hc' (((mkdir_isDir i).mp hi).resolve_left hin)
  · intro e m i hc hi hr
    obtain ⟨rfl, rfl, rfl⟩ | ⟨rfl, rfl, rfl⟩ | ⟨rfl, rfl, rfl⟩ | ⟨hne, hc⟩ := mkdir_child_cases hc
    · rcases reachable_of_mkdir h hd hr with hr | ⟨-, hr⟩
      · exact absurd (h.dirUsed _ (h.isDir hr)) (Nat.lt_irrefl _)
      · exact mkdir_reachable h hfree hr
    · exact hr
    · have hdr := hold (Nat.ne_of_lt hlt) hr
      exact .child hr (h.proper hdr hfree) mkdir_child_new ((mkdir_isDir _).mpr (.inl rfl))
    · have hin : i ≠ t.next := Nat.ne_of_lt (h.used _ _ _ hc).2
      exact mkdir_reachable h hfree (h.closed e m i hc
        (((mkdir_isDir i).mp hi).resolve_left hin) (hold hin hr))
  · intro e m i hc
    show e < t.next + 1 ∧ i < t.next + 1
    obtain ⟨rfl, -, rfl⟩ | ⟨rfl, -, rfl⟩ | ⟨rfl, -, rfl⟩ | ⟨-, hc⟩ := mkdir_child_cases hc
    · omega
    · omega
    · omega
    · have := h.used e m i hc
      omega
  · intro i hi
    show i < t.next + 1
    rcases (mkdir_isDir i).mp hi with rfl | hi
    · omega
    · have := h.dirUsed i hi
      omega

end Mkdir

/-! ## Removal of a directory -/

/-- Two volumes that differ only in directories that cannot be reached, where
the second has no name that the first has not. -/
structure Pruned (t u : Names) : Prop where
  isDir : u.isDir = t.isDir
  root : u.root = t.root
  rootMode : u.rootMode = t.rootMode
  next : u.next = t.next
  child : ∀ d, t.Reachable d → u.child d = t.child d
  parent : ∀ d, t.Reachable d → u.parent d = t.parent d
  less : ∀ d n i, u.child d n = some i → t.child d n = some i

theorem Pruned.reachable_iff {t : Names} (h : Pruned t u) : u.Reachable x ↔ t.Reachable x := by
  constructor
  · intro hx
    induction hx with
    | root => exact h.root ▸ .root
    | child _ hn hc hi ih => exact .child ih hn (h.less _ _ _ hc) (h.isDir ▸ hi)
  · intro hx
    induction hx with
    | root => exact h.root ▸ .root
    | child hd hn hc hi ih =>
      rw [← h.child _ hd] at hc
      exact .child ih hn hc (h.isDir ▸ hi)

theorem Inv.of_pruned {t : Names} (h : t.Inv) (hp : Pruned t u) : u.Inv := by
  refine ⟨?_, ?_, ?_, ?_, hp.rootMode ▸ h.rootMode, ?_, ?_, ?_, ?_, ?_, ?_⟩
  · rw [hp.isDir, hp.root]
    exact h.rootDir
  · rw [hp.root, hp.child _ .root]
    exact h.rootSelf
  · rw [hp.root, hp.child _ .root]
    exact h.rootUp
  · rw [hp.root, hp.parent _ .root]
    exact h.rootParent
  · intro d n hn hc
    rw [hp.root] at hc
    exact h.rootUnnamed d n hn (hp.less _ _ _ hc)
  · intro d n i hd hn hc hi
    rw [hp.reachable_iff] at hd
    rw [hp.isDir] at hi
    have hc' := hp.less _ _ _ hc
    have hir : t.Reachable i := .child hd hn hc' hi
    rw [hp.child i hir, hp.parent i hir]
    exact h.named d n i hd hn hc' hi
  · intro d n e m i hn hm hc hc' hi
    rw [hp.isDir] at hi
    exact h.unique d n e m i hn hm (hp.less _ _ _ hc) (hp.less _ _ _ hc') hi
  · intro d n i hc hi hir
    rw [hp.isDir] at hi
    rw [hp.reachable_iff] at hir ⊢
    exact h.closed d n i (hp.less _ _ _ hc) hi hir
  · intro d n i hc
    rw [hp.next]
    exact h.used d n i (hp.less _ _ _ hc)
  · intro i hi
    rw [hp.isDir] at hi
    rw [hp.next]
    exact h.dirUsed i hi

section Cut

variable {t : Names} {d i : Nat} {n : Name}

/-- The directory `i` loses its name `n` in `d` and its way back. -/
def cut (t : Names) (d : Nat) (n : Name) (i : Nat) : Names :=
  ((t.put d n none).put i dotdot none).setParent i none

variable {e : Nat}

theorem child_of_cut {j : Nat} {m : Name} (h : (t.cut d n i).child e m = some j) :
    ¬ (e = d ∧ m = n) ∧ ¬ (e = i ∧ m = dotdot) ∧ t.child e m = some j := by
  obtain ⟨hi, h⟩ := child_of_put_none h
  obtain ⟨hd, h⟩ := child_of_put_none h
  exact ⟨hd, hi, h⟩

theorem cut_child {m : Name} (hd : ¬ (e = d ∧ m = n))
    (hi : ¬ (e = i ∧ m = dotdot)) : (t.cut d n i).child e m = t.child e m := by
  show ((t.put d n none).put i dotdot none).child e m = t.child e m
  rw [put_child_of_ne hi, put_child_of_ne hd]

theorem cut_parent (he : e ≠ i) : (t.cut d n i).parent e = t.parent e := update_of_ne he _ _

theorem reachable_of_cut (hx : (t.cut d n i).Reachable x) : t.Reachable x := by
  induction hx with
  | root => exact .root
  | child _ hm hc hi ih => exact .child ih hm (child_of_cut hc).2.2 hi

theorem Inv.cut (h : t.Inv) (hn : Proper n) (hc : t.child d n = some i)
    (hi : t.isDir i) : (t.cut d n i).Inv := by
  have hroot : t.root ≠ i := fun he => h.rootUnnamed d n hn (he ▸ hc)
  have hkeep : ∀ {e m}, e ≠ i → ¬ Proper m → (t.cut d n i).child e m = t.child e m := by
    intro e m he hm
    exact cut_child (fun hem => hm (hem.2 ▸ hn)) fun hei => he hei.1
  have hdot : ¬ Proper dot := fun hp => hp.1 rfl
  have hdotdot : ¬ Proper dotdot := fun hp => hp.2 rfl
  have hrootSelf := (hkeep hroot hdot).trans h.rootSelf
  have hrootUp := (hkeep hroot hdotdot).trans h.rootUp
  have hrootParent : (t.cut d n i).parent t.root = some t.root :=
    (cut_parent hroot).trans h.rootParent
  have hnamed : ∀ e m j, (t.cut d n i).Reachable e → Proper m →
      (t.cut d n i).child e m = some j → t.isDir j →
      (t.cut d n i).child j dot = some j ∧ (t.cut d n i).child j dotdot = some e ∧
        (t.cut d n i).parent j = some e ∧ e < j := by
    intro e m j he hm hcj hj
    obtain ⟨hne, -, hcj'⟩ := child_of_cut hcj
    have hji : j ≠ i := by
      intro hji
      exact hne (h.unique _ _ _ _ i hm hn (hji ▸ hcj') hc hi)
    rw [hkeep hji hdot, hkeep hji hdotdot, cut_parent hji]
    exact h.named e m j (reachable_of_cut he) hm hcj' hj
  refine ⟨h.rootDir, hrootSelf, hrootUp, hrootParent, h.rootMode, ?_, hnamed, ?_, ?_, ?_, h.dirUsed⟩
  · intro e m hm hce
    exact h.rootUnnamed e m hm (child_of_cut hce).2.2
  · intro e m f k j hm hk hce hcf hj
    exact h.unique e m f k j hm hk (child_of_cut hce).2.2 (child_of_cut hcf).2.2 hj
  · -- a directory that is still reached is named where it was reached from
    intro e m j hce hj hr
    obtain ⟨-, hei, hce'⟩ := child_of_cut hce
    have he : t.Reachable e := h.closed e m j hce' hj (reachable_of_cut hr)
    by_cases hm : Proper m
    · cases hr with
      | root => exact absurd hce' (h.rootUnnamed e m hm)
      | child hp hk hcp _ =>
        obtain ⟨rfl, -⟩ := h.unique _ _ _ _ j hm hk hce' (child_of_cut hcp).2.2 hj
        exact hp
    cases he with
    | root => exact .root
    | child hp hk hcp hie =>
      obtain ⟨hself, hup, -, -⟩ := h.named _ _ _ hp hk hcp hie
      by_cases hmd : m = dot
      · subst hmd
        obtain rfl : e = j := by simpa [hself] using hce'
        exact hr
      have hmdd : m = dotdot := by
        by_contra hne
        exact hm ⟨hmd, hne⟩
      subst hmdd
      rw [hup, Option.some.injEq] at hce'
      subst hce'
      refine .child hr hk ((cut_child ?_ fun hpi => hk.2 hpi.2).trans hcp) hie
      rintro ⟨rfl, rfl⟩
      rw [hc, Option.some.injEq] at hcp
      exact hei ⟨hcp.symm, rfl⟩
  · intro e m j hce
    exact h.used e m j (child_of_cut hce).2.2

/-- The assertions about a directory that loses its name in `d`. -/
def Back (t : Names) (d i : Nat) : Prop :=
  ∀ p, t.child i dotdot = some p → p = d ∧ t.parent i = some d

/-- In a directory other than the root neither `.` nor `..` names a directory
that is in it. -/
theorem Inv.not_back (h : t.Inv) (hd : t.Reachable d) (hroot : d ≠ t.root) (hn : ¬ Proper n)
    (hc : t.child d n = some i) : ¬ (t.put d n none).Back d i := by
  intro hback
  cases hd with
  | root => exact hroot rfl
  | @child p _ m hp hm hcp hdd =>
    obtain ⟨hself, hup, -, hlt⟩ := h.named _ _ _ hp hm hcp hdd
    by_cases hnd : n = dot
    · subst hnd
      obtain rfl : d = i := by simpa [hself] using hc
      have hne : ¬ (d = d ∧ dotdot = dot) := fun he => absurd he.2 (by decide)
      have := (hback p ((put_child_of_ne hne).trans hup)).1
      omega
    have hnu : n = dotdot := by
      by_contra hne
      exact hn ⟨hnd, hne⟩
    subst hnu
    obtain rfl : p = i := by simpa [hup] using hc
    have hne : ¬ (p = d ∧ dotdot = dotdot) := fun he => by omega
    rw [Back, put_child_of_ne hne] at hback
    cases hp with
    | root => exact hroot (hback _ h.rootUp).1.symm
    | child hq hk hcq hpd =>
      obtain ⟨-, hup', -, hlt'⟩ := h.named _ _ _ hq hk hcq hpd
      have := (hback _ hup').1
      omega

/-- What the assertions leave of a deletion that would take the root away. -/
theorem Inv.root_of_back (h : t.Inv) (hc : t.child d n = some t.root)
    (hback : (t.put d n none).Back d t.root) : d = t.root := by
  by_contra hroot
  have hn : ¬ Proper n := fun hn => h.rootUnnamed d n hn hc
  have hd : t.Reachable d := h.closed d n _ hc h.rootDir .root
  exact h.not_back hd hroot hn hc hback

theorem detach_child_dot (i : Nat) : (t.detach i).child d dot = t.child d dot := by
  rw [detach]
  split
  · rfl
  · exact put_child_of_ne fun h => absurd h.2 (by decide)

theorem pruned_delete (hd : ¬ t.Reachable d) (hi : ¬ t.Reachable i) :
    Pruned t ((t.put d n none).detach i) := by
  have hput : Pruned t (t.put d n none) := by
    refine ⟨rfl, rfl, rfl, rfl, fun e he => ?_, fun _ _ => rfl, fun e m j hc => ?_⟩
    · funext m
      exact put_child_of_ne fun hem => hd (hem.1 ▸ he)
    · exact (child_of_put_none hc).2
  rw [detach]
  split
  · exact hput
  refine ⟨rfl, rfl, rfl, rfl, fun e he => ?_, fun e he => ?_, fun e m j hc => ?_⟩
  · rw [← hput.child e he]
    funext m
    exact put_child_of_ne fun hem => hi (hem.1 ▸ he)
  · have hei : e ≠ i := fun hei => hi (hei ▸ he)
    exact update_of_ne hei _ _
  · exact hput.less _ _ _ (child_of_put_none hc).2

/-- The entry `n` of `d`, which names the directory `i`, is deleted. What
stops a deletion of `.` or `..` is the assertion that the directory deleted
is in `d`. It does not stop one in the root directory. -/
theorem Inv.delete_dir (h : t.Inv) (hc : t.child d n = some i) (hi : t.isDir i)
    (hroot : d = t.root → Proper n) (hback : (t.put d n none).Back d i) :
    ((t.put d n none).detach i).Inv := by
  by_cases hd : t.Reachable d
  · by_cases hn : Proper n
    · have hin : ¬ (i = d ∧ dotdot = n) := fun he => hn.2 he.2.symm
      obtain ⟨-, hup, -, -⟩ := h.named d n i hd hn hc hi
      rw [detach, put_child_of_ne hin, hup]
      exact h.cut hn hc hi
    · exact absurd hback (h.not_back hd (fun he => hn (hroot he)) hn hc)
  · have hir : ¬ t.Reachable i := fun hir => hd (h.closed d n i hc hi hir)
    exact h.of_pruned (pruned_delete hd hir)

end Cut

end Names

end Finesse.Bitbucket
