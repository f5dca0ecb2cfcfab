import Finesse.Bitbucket.Renaming

/-!
# The shapes that directories can have

A directory starts with `.` and `..`. It loses `..` when it is renamed or
unlinked and `.` when it is removed, and nothing puts them back. So the count
of its entries does not say whether it is empty. `Names.Shape` is what stays
true of the two entries: a directory that has entries has `.`, and if it has
`..`, then that leads to the directory that names it.

It is weaker than `Names.Inv` in that directories may be renamed, and it
speaks of all directories and not only of those that can be reached.
-/

namespace Finesse.Bitbucket

open Option

namespace Names

structure Shape (t : Names) : Prop where
  rootDir : t.isDir t.root
  rootSelf : t.child t.root dot = some t.root
  rootUp : t.child t.root dotdot = some t.root
  rootUnnamed : ∀ d n, Proper n → t.child d n ≠ some t.root
  /-- a directory that has entries was not removed -/
  self : ∀ d n i, t.child d n = some i → t.isDir d ∧ t.child d dot = some d
  whole : ∀ d n i, Proper n → t.child d n = some i → t.isDir i → t.child i dot = some i
  unique : ∀ d n e m i, Proper n → Proper m → t.child d n = some i →
    t.child e m = some i → t.isDir i → d = e ∧ n = m
  back : ∀ d p, t.parent d = some p ↔ t.child d dotdot = some p
  /-- `..` leads to a directory that names this one -/
  housed : ∀ d p, t.child d dotdot = some p → d ≠ t.root → ∃ n, Proper n ∧ t.child p n = some d
  used : ∀ d n i, t.child d n = some i → d < t.next ∧ i < t.next

namespace Shape

variable {t t' : Names} {d e i p q : Nat} {n m : Name}

section

variable (h : t.Shape)
include h

theorem dot_eq (hc : t.child d dot = some i) : i = d :=
  some.inj (hc.symm.trans (h.self d dot i hc).2)

theorem up_isDir (hc : t.child d dotdot = some p) : t.isDir p := by
  by_cases hd : d = t.root
  · subst hd
    obtain rfl := mem_unique h.rootUp hc
    exact h.rootDir
  · obtain ⟨n, -, hn⟩ := h.housed d p hc hd
    exact (h.self p n d hn).1

theorem linksBack : t.LinksBack := fun d p hp =>
  have hc := (h.back d p).mp hp
  ⟨hc, h.up_isDir hc⟩

theorem proper (hc : t.child d n = some i) (hi : ¬ t.isDir i) : Proper n := by
  constructor
  · rintro rfl
    obtain rfl := h.dot_eq hc
    exact hi (h.self i dot i hc).1
  · rintro rfl
    exact hi (h.up_isDir hc)

theorem ne_root (hn : Proper n) (hc : t.child d n = some i) : i ≠ t.root :=
  fun he => h.rootUnnamed d n hn (he ▸ hc)

theorem home (hn : Proper n) (hc : t.child d n = some i)
    (hup : t.child i dotdot = some p) : p = d := by
  obtain ⟨m, hm, hpm⟩ := h.housed i p hup (h.ne_root hn hc)
  exact (h.unique p m d n i hm hn hpm hc (h.self i dotdot p hup).1).1

theorem root_lt : t.root < t.next := (h.used _ _ _ h.rootSelf).1

/-! ## Changes -/

theorem congr (hchild : t'.child = t.child) (hparent : t'.parent = t.parent)
    (hroot : t'.root = t.root) (hdir : ∀ i, i < t.next → (t'.isDir i ↔ t.isDir i))
    (hnext : t.next ≤ t'.next) : t'.Shape where
  rootDir := by
    rw [hroot, hdir _ h.root_lt]
    exact h.rootDir
  rootSelf := by
    rw [hchild, hroot]
    exact h.rootSelf
  rootUp := by
    rw [hchild, hroot]
    exact h.rootUp
  rootUnnamed := by
    rw [hchild, hroot]
    exact h.rootUnnamed
  self d n i hc := by
    rw [hchild] at hc ⊢
    rw [hdir d (h.used d n i hc).1]
    exact h.self d n i hc
  whole d n i hn hc hi := by
    rw [hchild] at hc ⊢
    exact h.whole d n i hn hc ((hdir i (h.used d n i hc).2).mp hi)
  unique d n e m i hn hm hc hc' hi := by
    rw [hchild] at hc hc'
    exact h.unique d n e m i hn hm hc hc' ((hdir i (h.used d n i hc).2).mp hi)
  back := by
    rw [hparent, hchild]
    exact h.back
  housed := by
    rw [hchild, hroot]
    exact h.housed
  used d n i hc := by
    rw [hchild] at hc
    obtain ⟨hd, hi⟩ := h.used d n i hc
    exact ⟨Nat.lt_of_lt_of_le hd hnext, Nat.lt_of_lt_of_le hi hnext⟩

theorem unused_child (n : Name) : t.child t.next n = none := by
  cases hc : t.child t.next n with
  | none => rfl
  | some i => exact absurd (h.used _ _ _ hc).1 (Nat.lt_irrefl _)

theorem unused_parent : t.parent t.next = none := by
  cases hp : t.parent t.next with
  | none => rfl
  | some p => exact absurd ((h.back _ _).mp hp) (by rw [h.unused_child]; nofun)

theorem fresh (dir : Prop) : (t.fresh dir).Shape := by
  refine h.congr ?_ ?_ rfl (fun i hi => ?_) (Nat.le_succ _)
  · funext e k
    by_cases he : e = t.next
    · subst he
      simp [Names.fresh, h.unused_child]
    · simp [Names.fresh, he]
  · funext e
    by_cases he : e = t.next
    · subst he
      simp [Names.fresh, h.unused_parent]
    · simp [Names.fresh, he]
  · simp [Names.fresh, Nat.ne_of_lt hi]

theorem put_file {o : Option Nat} (hold : ∀ i, t.child d n = some i → ¬ t.isDir i)
    (hnew : ∀ i ∈ o, ¬ t.isDir i ∧ i < t.next ∧ t.child d dot = some d ∧ Proper n) :
    (t.put d n o).Shape := by
  -- names of directories are the same before and after
  have hiff : ∀ e k x, t.isDir x → ((t.put d n o).child e k = some x ↔ t.child e k = some x) := by
    intro e k x hx
    rw [put_child]
    split
    · next hek =>
      obtain ⟨rfl, rfl⟩ := hek
      exact ⟨fun ho => absurd hx (hnew x ho).1, fun hc => absurd hx (hold x hc)⟩
    · exact Iff.rfl
  have hfrom : ∀ e k x, (t.put d n o).child e k = some x →
      t.isDir e ∧ t.child e dot = some e ∧ e < t.next ∧ x < t.next := by
    intro e k x hc
    rw [put_child] at hc
    split at hc
    · next hek =>
      obtain ⟨-, hlt, hdot, -⟩ := hnew x hc
      rw [hek.1]
      exact ⟨(h.self _ _ _ hdot).1, hdot, (h.used _ _ _ hdot).1, hlt⟩
    · obtain ⟨hdir, hdot⟩ := h.self e k x hc
      exact ⟨hdir, hdot, h.used e k x hc⟩
  have hup : ∀ e x, (t.put d n o).child e dotdot = some x ↔ t.child e dotdot = some x := by
    intro e x
    constructor
    · intro hc
      rw [put_child] at hc
      split at hc
      · next hek => exact absurd hek.2.symm (hnew x hc).2.2.2.2
      · exact hc
    · intro hc
      exact (hiff _ _ _ (h.up_isDir hc)).mpr hc
  refine ⟨h.rootDir, ?_, ?_, ?_, ?_, ?_, ?_, ?_, ?_, ?_⟩
  · exact (hiff _ _ _ h.rootDir).mpr h.rootSelf
  · exact (hiff _ _ _ h.rootDir).mpr h.rootUp
  · intro e k hk hc
    exact h.rootUnnamed e k hk ((hiff _ _ _ h.rootDir).mp hc)
  · intro e k x hc
    obtain ⟨hdir, hdot, -⟩ := hfrom e k x hc
    exact ⟨hdir, (hiff _ _ _ hdir).mpr hdot⟩
  · intro e k x hk hc hx
    exact (hiff _ _ _ hx).mpr (h.whole e k x hk ((hiff _ _ _ hx).mp hc) hx)
  · intro e k e' k' x hk hk' hc hc' hx
    exact h.unique e k e' k' x hk hk' ((hiff _ _ _ hx).mp hc) ((hiff _ _ _ hx).mp hc') hx
  · intro e x
    rw [hup]
    exact h.back e x
  · intro e x hc hroot
    obtain ⟨k, hk, hxk⟩ := h.housed e x ((hup e x).mp hc) hroot
    exact ⟨k, hk, (hiff _ _ _ (hfrom _ _ _ hc).1).mpr hxk⟩
  · intro e k x hc
    exact (hfrom e k x hc).2.2

/-- A directory gets at most one new name and loses its others, and its way
back with them. -/
theorem relocate (hdot : t.child i dot = some i)
    (hroot : i ≠ t.root) (hsame : t'.isDir = t.isDir) (hr : t'.root = t.root)
    (hnext : t'.next = t.next)
    (hparent : ∀ e, t'.parent e = if e = i then none else t.parent e)
    (hup : t'.child i dotdot = none)
    (hold : ∀ e k x, t.child e k = some x → ¬ (e = i ∧ k = dotdot) →
      (x = i → ¬ Proper k) → t'.child e k = some x)
    (hnew : ∀ e k x, t'.child e k = some x →
      t.child e k = some x ∨ x = i ∧ Proper k ∧ t.child e dot = some e)
    (hone : ∀ e k e' k', Proper k → Proper k' → t'.child e k = some i →
      t'.child e' k' = some i → e = e' ∧ k = k') : t'.Shape where
  rootDir := by
    rw [hsame, hr]
    exact h.rootDir
  rootSelf := by
    rw [hr]
    exact hold _ _ _ h.rootSelf (fun he => hroot he.1.symm) fun _ hk => hk.1 rfl
  rootUp := by
    rw [hr]
    exact hold _ _ _ h.rootUp (fun he => hroot he.1.symm) fun _ hk => hk.2 rfl
  rootUnnamed e k hk hc := by
    rw [hr] at hc
    rcases hnew e k _ hc with hc | ⟨hi, -⟩
    · exact h.rootUnnamed e k hk hc
    · exact hroot hi.symm
  self e k x hc := by
    have hed : t.child e dot = some e := by
      rcases hnew e k x hc with hc | ⟨-, -, hed⟩
      · exact (h.self e k x hc).2
      · exact hed
    rw [hsame]
    exact ⟨(h.self e dot e hed).1,
      hold e dot e hed (fun he => absurd he.2 (by decide)) fun _ hk => hk.1 rfl⟩
  whole e k x hk hc hx := by
    have hxd : t.child x dot = some x := by
      rcases hnew e k x hc with hc | ⟨rfl, -⟩
      · exact h.whole e k x hk hc (hsame ▸ hx)
      · exact hdot
    exact hold x dot x hxd (fun he => absurd he.2 (by decide)) fun _ hk => hk.1 rfl
  unique e k e' k' x hk hk' hc hc' hx := by
    by_cases hxi : x = i
    · subst hxi
      exact hone e k e' k' hk hk' hc hc'
    have hc := (hnew e k x hc).resolve_right fun hi => hxi hi.1
    have hc' := (hnew e' k' x hc').resolve_right fun hi => hxi hi.1
    exact h.unique e k e' k' x hk hk' hc hc' (hsame ▸ hx)
  back e x := by
    rw [hparent]
    split
    · next he =>
      rw [he, hup]
    next he =>
    rw [h.back]
    constructor
    · intro hc
      exact hold e dotdot x hc (fun h => he h.1) fun _ hk => hk.2 rfl
    · intro hc
      exact (hnew e dotdot x hc).resolve_right fun hi => hi.2.1.2 rfl
  housed e x hc hne := by
    have hei : e ≠ i := by
      rintro rfl
      rw [hup] at hc
      cases hc
    have hc := (hnew e dotdot x hc).resolve_right fun hi => hi.2.1.2 rfl
    obtain ⟨k, hk, hxk⟩ := h.housed e x hc (hr ▸ hne)
    exact ⟨k, hk, hold x k e hxk (fun he => hk.2 he.2) fun he => absurd he hei⟩
  used e k x hc := by
    rw [hnext]
    rcases hnew e k x hc with hc | ⟨rfl, -, hed⟩
    · exact h.used e k x hc
    · exact ⟨(h.used _ _ _ hed).1, (h.used _ _ _ hdot).1⟩

theorem put_dot_none (hroot : i ≠ t.root) (honly : ∀ k x, t.child i k = some x → k = dot)
    (hunnamed : ∀ e k, Proper k → t.child e k ≠ some i) : (t.put i dot none).Shape := by
  have hkeep : ∀ {e k x}, t.child e k = some x → ¬ (e = i ∧ k = dot) →
      (t.put i dot none).child e k = some x := fun hc hek =>
    (put_child_of_ne hek).trans hc
  have hne : ∀ {k : Name}, Proper k → k ≠ dot := fun hk => hk.1
  refine ⟨h.rootDir, hkeep h.rootSelf fun he => hroot he.1.symm,
    hkeep h.rootUp fun he => hroot he.1.symm, ?_, ?_, ?_, ?_, ?_, ?_, ?_⟩
  · intro e k hk hc
    exact h.rootUnnamed e k hk (child_of_put_none hc).2
  · intro e k x hc
    obtain ⟨hek, hc⟩ := child_of_put_none hc
    obtain ⟨hdir, hdot⟩ := h.self e k x hc
    refine ⟨hdir, hkeep hdot fun he => hek ⟨he.1, ?_⟩⟩
    rw [he.1] at hc
    exact honly k x hc
  · intro e k x hk hc hx
    obtain ⟨-, hc⟩ := child_of_put_none hc
    refine hkeep (h.whole e k x hk hc hx) fun he => ?_
    rw [he.1] at hc
    exact hunnamed e k hk hc
  · intro e k e' k' x hk hk' hc hc' hx
    exact h.unique e k e' k' x hk hk' (child_of_put_none hc).2 (child_of_put_none hc').2 hx
  · intro e x
    rw [put_child_of_ne fun he => absurd he.2 (by decide)]
    exact h.back e x
  · intro e x hc hne'
    obtain ⟨k, hk, hxk⟩ := h.housed e x (child_of_put_none hc).2 hne'
    exact ⟨k, hk, hkeep hxk fun he => hne hk he.2⟩
  · intro e k x hc
    exact h.used e k x (child_of_put_none hc).2

theorem mkdir (hdot : t.child d dot = some d) (hn : Proper n)
    (hfree : t.child d n = none) : (t.mkdir d n).Shape := by
  have hlt := (h.used _ _ _ hdot).1
  have hd : d ≠ t.next := Nat.ne_of_lt hlt
  have hkeep : ∀ {e k x}, t.child e k = some x → (t.mkdir d n).child e k = some x := by
    intro e k x hc
    rw [mkdir_child_old (Nat.ne_of_lt (h.used _ _ _ hc).1)]
    · exact hc
    rintro ⟨rfl, rfl⟩
    rw [hfree] at hc
    cases hc
  have hdir : ∀ {x}, x ≠ t.next → ((t.mkdir d n).isDir x ↔ t.isDir x) := by
    intro x hx
    rw [mkdir_isDir]
    exact ⟨fun h => h.resolve_left hx, .inr⟩
  have hproper : ∀ {e k x}, Proper k → (t.mkdir d n).child e k = some x →
      (e = d ∧ k = n ∧ x = t.next) ∨ t.child e k = some x ∧ x ≠ t.next := by
    intro e k x hk hc
    rcases mkdir_child_cases hc with hnew | ⟨-, rfl, -⟩ | ⟨-, rfl, -⟩ | ⟨-, hc⟩
    · exact .inl hnew
    · exact absurd rfl hk.1
    · exact absurd rfl hk.2
    · exact .inr ⟨hc, Nat.ne_of_lt (h.used _ _ _ hc).2⟩
  have hup : ∀ {e x}, (t.mkdir d n).child e dotdot = some x →
      (e = t.next ∧ x = d) ∨ e ≠ t.next ∧ t.child e dotdot = some x := by
    intro e x hc
    rcases mkdir_child_cases hc with ⟨-, rfl, -⟩ | ⟨-, h, -⟩ | ⟨he, -, hx⟩ | hc
    · exact absurd rfl hn.2
    · exact absurd h (by decide)
    · exact .inl ⟨he, hx⟩
    · exact .inr hc
  refine ⟨(mkdir_isDir _).mpr (.inr h.rootDir), hkeep h.rootSelf,
    hkeep h.rootUp, ?_, ?_, ?_, ?_, ?_, ?_, ?_⟩
  · intro e k hk hc
    rcases hproper hk hc with ⟨-, -, hr⟩ | ⟨hc, -⟩
    · exact absurd hr (Nat.ne_of_lt h.root_lt)
    · exact h.rootUnnamed e k hk hc
  · intro e k x hc
    have hnew : (t.mkdir d n).isDir t.next ∧ (t.mkdir d n).child t.next dot = some t.next :=
      ⟨(mkdir_isDir _).mpr (.inl rfl), mkdir_child_self hd⟩
    rcases mkdir_child_cases hc with ⟨rfl, -⟩ | ⟨rfl, -⟩ | ⟨rfl, -⟩ | ⟨-, hc⟩
    · exact ⟨(mkdir_isDir _).mpr (.inr (h.self _ _ _ hdot).1), hkeep hdot⟩
    · exact hnew
    · exact hnew
    · obtain ⟨he, hed⟩ := h.self e k x hc
      exact ⟨(mkdir_isDir _).mpr (.inr he), hkeep hed⟩
  · intro e k x hk hc hx
    rcases hproper hk hc with ⟨-, -, rfl⟩ | ⟨hc, hne⟩
    · exact mkdir_child_self hd
    · exact hkeep (h.whole e k x hk hc ((hdir hne).mp hx))
  · intro e k e' k' x hk hk' hc hc' hx
    rcases hproper hk hc with ⟨rfl, rfl, rfl⟩ | ⟨hc, hne⟩
    · rcases hproper hk' hc' with ⟨rfl, rfl, -⟩ | ⟨-, hne⟩
      · exact ⟨rfl, rfl⟩
      · exact absurd rfl hne
    · rcases hproper hk' hc' with ⟨-, -, hx'⟩ | ⟨hc', -⟩
      · exact absurd hx' hne
      · exact h.unique e k e' k' x hk hk' hc hc' ((hdir hne).mp hx)
  · intro e x
    rw [mkdir_parent]
    split
    · next he =>
      rw [he, mkdir_child_up hd]
    next he =>
    rw [h.back]
    exact ⟨hkeep, fun hc => ((hup hc).resolve_left fun hnew => he hnew.1).2⟩
  · intro e x hc hroot
    rcases hup hc with ⟨rfl, rfl⟩ | ⟨-, hc⟩
    · exact ⟨n, hn, mkdir_child_new⟩
    · obtain ⟨k, hk, hxk⟩ := h.housed e x hc hroot
      exact ⟨k, hk, hkeep hxk⟩
  · intro e k x hc
    have hle : ∀ {y}, y < t.next → y < (t.mkdir d n).next := Nat.lt_succ_of_lt
    have hnew : t.next < (t.mkdir d n).next := Nat.lt_succ_self _
    rcases mkdir_child_cases hc with ⟨rfl, -, rfl⟩ | ⟨rfl, -, rfl⟩ | ⟨rfl, -, rfl⟩ | ⟨-, hc⟩
    · exact ⟨hle hlt, hnew⟩
    · exact ⟨hnew, hnew⟩
    · exact ⟨hnew, hle hlt⟩
    · exact ⟨hle (h.used e k x hc).1, hle (h.used e k x hc).2⟩

/-- The name of a directory is deleted, and it may just have got another one,
which is `m` in `q`. -/
theorem clear_dir {u : Names} (hn : Proper n) (hm : Proper m)
    (hc : t.child p n = some i) (hi : t.isDir i) (hq : t.child q dot = some q)
    (hdir : u.isDir = t.isDir) (hroot : u.root = t.root) (hnext : u.next = t.next)
    (hparent : u.parent = t.parent) (hold : ∀ e k x, t.child e k = some x → u.child e k = some x)
    (hnew : ∀ e k x, u.child e k = some x → t.child e k = some x ∨ e = q ∧ k = m ∧ x = i) :
    (u.clear p n).Shape := by
  have huc := hold p n i hc
  have hui : u.isDir i := hdir ▸ hi
  have hclear : u.clear p n = (u.put p n none).detach i := by
    rw [Names.clear, huc]
    exact if_pos hui
  refine h.relocate (h.whole p n i hn hc hi) (fun he => ?_) ?_ ?_ ?_ ?_
    (clear_child_up huc hui) ?_ ?_ ?_
  · exact h.rootUnnamed p n hn (he ▸ hc)
  · rw [clear_isDir, hdir]
  · rw [hclear, detach_root, put_root, hroot]
  · rw [hclear, detach_next, put_next, hnext]
  · intro e
    rw [hclear, detach, put_child_of_ne fun he => hn.2 he.2.symm]
    split
    · next hnone =>
      show u.parent e = _
      rw [hparent]
      split
      · next he =>
        rw [he]
        cases hp : t.parent i with
        | none => rfl
        | some x =>
          rw [hold _ _ _ ((h.back i x).mp hp)] at hnone
          cases hnone
      · rfl
    · show Function.update u.parent i none e = _
      rw [Function.update_apply, hparent]
  · intro e k x hek hup hx
    rw [clear_child, hold e k x hek]
    refine ⟨?_, fun j hj _ he => ?_⟩
    · rintro ⟨rfl, rfl⟩
      exact hx (mem_unique hek hc) hn
    · obtain rfl := mem_unique huc hj
      exact hup he
  · intro e k x hek
    rcases hnew e k x (child_of_clear hek) with hek | ⟨rfl, rfl, rfl⟩
    · exact .inl hek
    · exact .inr ⟨rfl, hm, hq⟩
  · -- the old name is gone, so that only the new one is left
    have hplace : ∀ e k, Proper k → (u.clear p n).child e k = some i → e = q ∧ k = m := by
      intro e k hk hek
      rcases hnew e k i (child_of_clear hek) with hold | ⟨he, hkm, -⟩
      · obtain ⟨rfl, rfl⟩ := h.unique e k p n i hk hn hold hc hi
        rw [clear_child_self] at hek
        cases hek
      · exact ⟨he, hkm⟩
    intro e k e' k' hk hk' hek hek'
    obtain ⟨rfl, rfl⟩ := hplace e k hk hek
    obtain ⟨rfl, rfl⟩ := hplace e' k' hk' hek'
    exact ⟨rfl, rfl⟩

theorem clear (hn : Proper n) : (t.clear d n).Shape := by
  cases hc : t.child d n with
  | none =>
    rw [clear_of_none hc]
    exact h
  | some i =>
    by_cases hi : t.isDir i
    · exact h.clear_dir hn hn hc hi (h.self d n i hc).2 rfl rfl rfl rfl
        (fun _ _ _ => id) fun _ _ _ => .inl
    rw [Names.clear, hc]
    simp only [if_neg hi]
    refine h.put_file (fun j hj => ?_) (by simp)
    obtain rfl := mem_unique hc hj
    exact hi

end

theorem put_clear_self (hfree : t.child d n = none)
    (hup : t.child i dotdot = none) : (t.put d n (some i)).clear d n = t := by
  have hput : (t.put d n (some i)).put d n none = t := by
    have hchild : ((t.put d n (some i)).put d n none).child = t.child := by
      funext e k
      rw [put_child, put_child]
      split
      · next he => rw [he.1, he.2, hfree]
      · rfl
    exact Names.ext rfl hchild rfl rfl rfl rfl
  rw [Names.clear, put_child_self]
  dsimp only
  split
  · rw [hput, detach, hup]
  · exact hput

theorem put_clear (h : t.Shape) (hn : Proper n) (hm : Proper m)
    (hfree : t.child q m = none) (hq : t.child q dot = some q)
    (hc : t.child p n = some i) : ((t.put q m (some i)).clear p n).Shape := by
  by_cases hi : t.isDir i
  · refine h.clear_dir hn hm hc hi hq rfl rfl rfl rfl (fun e k x hek => ?_) fun e k x hek => ?_
    · rw [put_child_of_ne]
      · exact hek
      · rintro ⟨rfl, rfl⟩
        exact nomatch hfree.symm.trans hek
    · rw [put_child] at hek
      split at hek
      · next he => exact .inr ⟨he.1, he.2, (some.inj hek).symm⟩
      · exact .inl hek
  · refine (h.put_file (fun j hj => ?_) fun j hj => ?_).clear hn
    · exact nomatch hfree.symm.trans hj
    · obtain rfl := some.inj hj
      exact ⟨hi, (h.used _ _ _ hc).2, hq, hm⟩

theorem clear_up (h : t.Shape) (hc : t.child d n = some i) :
    (t.clear d n).child i dotdot = none := by
  cases hx : (t.clear d n).child i dotdot with
  | none => rfl
  | some x =>
    have hi := (h.self i dotdot x (child_of_clear hx)).1
    rw [clear_child_up hc hi] at hx
    cases hx

theorem clear_unnamed (h : t.Shape) (hn : Proper n) (hc : t.child d n = some i) (hi : t.isDir i)
    {k : Name} (hk : Proper k) : (t.clear d n).child e k ≠ some i := by
  intro hek
  obtain ⟨rfl, rfl⟩ := h.unique e k d n i hk hn (child_of_clear hek) hc hi
  rw [clear_child_self] at hek
  cases hek

theorem clear_dot (hm : Proper m) (hq : t.child q dot = some q) :
    (t.clear d m).child q dot = some q := by
  rw [clear_child ⟨fun he => hm.1 he.2.symm, fun _ _ _ he => absurd he.2 (by decide)⟩]
  exact hq

theorem exchange {j : Nat} (h : t.Shape) (hc : t.child p n = some i) (hc' : t.child q m = some j)
    (hi : ¬ t.isDir i) (hj : ¬ t.isDir j) : ((t.put p n (some j)).put q m (some i)).Shape := by
  have hn := h.proper hc hi
  have hp := (h.self p n i hc).2
  have hq := (h.self q m j hc').2
  have hput : (t.put p n (some j)).Shape := by
    refine h.put_file (fun k hk => ?_) fun k hk => ?_
    · obtain rfl := mem_unique hc hk
      exact hi
    · obtain rfl := some.inj hk
      exact ⟨hj, (h.used _ _ _ hc').2, hp, hn⟩
  refine hput.put_file (fun k hk => ?_) fun k hk => ?_
  · obtain rfl : j = k := by
      rw [put_child] at hk
      split at hk
      · exact some.inj hk
      · exact mem_unique hc' hk
    exact hj
  · obtain rfl := some.inj hk
    refine ⟨hi, (h.used _ _ _ hc).2, ?_, h.proper hc' hj⟩
    rw [put_child_of_ne fun he => hn.1 he.2.symm]
    exact hq

end Shape

theorem RootOnly.shape {t : Names} (h : t.RootOnly) : t.Shape where
  rootDir := (h.isDir _).mpr rfl
  rootSelf := (h.child _ _ _).mpr ⟨rfl, rfl, fun hn => hn.1 rfl⟩
  rootUp := (h.child _ _ _).mpr ⟨rfl, rfl, fun hn => hn.2 rfl⟩
  rootUnnamed d n hn hc := ((h.child _ _ _).mp hc).2.2 hn
  self d n i hc := by
    obtain ⟨rfl, -, -⟩ := (h.child _ _ _).mp hc
    exact ⟨(h.isDir _).mpr rfl, (h.child _ _ _).mpr ⟨rfl, rfl, fun hn => hn.1 rfl⟩⟩
  whole d n i hn hc _ := absurd hn ((h.child _ _ _).mp hc).2.2
  unique d n e m i hn _ hc _ _ := absurd hn ((h.child _ _ _).mp hc).2.2
  back d p := by
    rw [h.parent, h.child]
    exact ⟨fun hp => ⟨hp.1, hp.2, fun hn => hn.2 rfl⟩, fun hc => ⟨hc.1, hc.2.1⟩⟩
  housed d p hc hroot := absurd ((h.child _ _ _).mp hc).1 hroot
  used d n i hc := by
    obtain ⟨rfl, rfl, -⟩ := (h.child _ _ _).mp hc
    exact ⟨h.next, h.next⟩

end Names

end Finesse.Bitbucket
