import Finesse.Bitbucket.Names

/-!
# Directories that are kept have names

A directory holds a reference on itself through its entry `.`, so it goes
away only if that entry does. `Names.Linked` says that no directory is left
with that entry and no other name, and that parent pointers agree with the
entries `..`. It is weaker than `Names.Inv`: renamed directories lose their
`..`, and nothing is said about cycles.
-/

namespace Finesse.Bitbucket

open Option

namespace Names

/-- An inode is named by an entry that is neither its own `.` nor the `..` of
a directory in it. -/
def Named (t : Names) (i : Nat) : Prop :=
  ∃ d n, t.child d n = some i ∧ ¬ (d = i ∧ n = dot) ∧ ¬ (n = dotdot ∧ t.parent d = some i)

/-- Parent pointers and the entries `..` agree, and lead to directories. -/
def LinksBack (t : Names) : Prop :=
  ∀ d p, t.parent d = some p → t.child d dotdot = some p ∧ t.isDir p

/-- Every directory but `x` that has its entry `.` has another name. -/
structure LinkedBut (x : Nat → Prop) (t : Names) : Prop where
  back : t.LinksBack
  named : ∀ i, ¬ x i → t.child i dot = some i → i = t.root ∨ t.Named i
  dirs : ∀ d n i, t.child d n = some i → t.isDir d

def Linked (t : Names) : Prop := LinkedBut (fun _ => False) t

section Linked

variable {t : Names} {x : Nat → Prop} {d i : Nat} {n : Name}

theorem LinkedBut.put (h : t.LinkedBut x) (hfree : t.child d n = none) (hd : t.isDir d)
    (hself : ¬ (n = dot ∧ i = d)) : (t.put d n (some i)).LinkedBut x := by
  have hkeep : ∀ {e m j}, t.child e m = some j → (t.put d n (some i)).child e m = some j := by
    intro e m j hc
    rw [put_child_of_ne]
    · exact hc
    rintro ⟨rfl, rfl⟩
    rw [hfree] at hc
    cases hc
  refine ⟨fun e p hp => ?_, fun j hx hj => ?_, fun e m j hc => ?_⟩
  · obtain ⟨hc, hdir⟩ := h.back e p hp
    exact ⟨hkeep hc, hdir⟩
  · have hold : t.child j dot = some j := by
      rw [put_child] at hj
      split at hj
      · next hslot =>
        exact absurd ⟨hslot.2.symm, (some.inj hj).trans hslot.1⟩ hself
      · exact hj
    rcases h.named j hx hold with hr | ⟨e, m, hc, hne, hup⟩
    · exact .inl hr
    · exact .inr ⟨e, m, hkeep hc, hne, hup⟩
  · rw [put_child] at hc
    split at hc
    · next hslot => exact hslot.1 ▸ hd
    · exact h.dirs e m j hc

theorem LinkedBut.remove_file (h : t.LinkedBut x) (hc : t.child d n = some i)
    (hi : ¬ t.isDir i) : (t.put d n none).LinkedBut x := by
  refine ⟨fun e p hp => ?_, fun j hx hj => ?_, fun e m j hce => ?_⟩
  · obtain ⟨hce, hdir⟩ := h.back e p hp
    refine ⟨?_, hdir⟩
    rw [put_child_of_ne]
    · exact hce
    rintro ⟨rfl, rfl⟩
    obtain rfl : p = i := mem_unique hce hc
    exact hi hdir
  · obtain ⟨-, hself⟩ := child_of_put_none hj
    rcases h.named j hx hself with hr | ⟨e, m, hce, hne, hup⟩
    · exact .inl hr
    refine .inr ⟨e, m, ?_, hne, hup⟩
    rw [put_child_of_ne]
    · exact hce
    rintro ⟨rfl, rfl⟩
    obtain rfl : j = i := mem_unique hce hc
    exact hi (h.dirs j dot j hself)
  · exact h.dirs e m j (child_of_put_none hce).2

theorem child_of_detach {e j : Nat} {m : Name}
    (h : (t.detach i).child e m = some j) : t.child e m = some j := by
  rw [detach] at h
  split at h
  · exact h
  · exact (child_of_put_none h).2

theorem parent_of_detach {e p : Nat} (h : (t.detach i).parent e = some p) :
    t.parent e = some p ∧ (t.child i dotdot = none ∨ e ≠ i) := by
  rw [detach] at h
  split at h
  · next hc => exact ⟨h, .inl hc⟩
  have hei : e ≠ i := by
    rintro rfl
    simp [setParent] at h
  exact ⟨by simpa [setParent, hei] using h, .inr hei⟩

theorem detach_child {e : Nat} {m : Name} (h : t.child i dotdot = none ∨ ¬ (e = i ∧ m = dotdot)) :
    (t.detach i).child e m = t.child e m := by
  rw [detach]
  split
  · rfl
  next hc =>
  rcases h with h | h
  · rw [h] at hc
    cases hc
  · exact put_child_of_ne h

/-- The name of a directory is removed, and its way back with it. Unless the
directory has another name it is left for later. -/
theorem LinkedBut.delete_dir (h : t.LinkedBut x) (hc : t.child d n = some i)
    (hback : (t.put d n none).Back d i) (hn : n = dotdot → t.parent d = none) :
    ((t.put d n none).detach i).LinkedBut fun j => x j ∨ j = i := by
  refine ⟨fun e p hp => ?_, fun j hx hj => ?_, fun e m j hce => ?_⟩
  · obtain ⟨hp, hei⟩ := parent_of_detach hp
    obtain ⟨hce, hdir⟩ := h.back e p hp
    have hslot : ¬ (e = d ∧ dotdot = n) := by
      rintro ⟨rfl, rfl⟩
      have := hn rfl
      rw [put_parent, this] at hp
      cases hp
    rw [detach_isDir, detach_child (hei.imp_right fun h he => h he.1), put_child_of_ne hslot]
    exact ⟨hce, hdir⟩
  · have hself := (child_of_put_none (child_of_detach hj)).2
    rw [detach_root]
    rcases h.named j (fun hj => hx (.inl hj)) hself with hr | ⟨e, m, hce, hne, hup⟩
    · exact .inl hr
    have hslot : ¬ (e = d ∧ m = n) := by
      rintro ⟨rfl, rfl⟩
      exact hx (.inr (mem_unique hce hc))
    have hce' : (t.put d n none).child e m = some j := (put_child_of_ne hslot).trans hce
    refine .inr ⟨e, m, ?_, hne, fun hj => hup ⟨hj.1, (parent_of_detach hj.2).1⟩⟩
    rw [detach_child]
    · exact hce'
    refine .inr ?_
    rintro ⟨rfl, rfl⟩
    obtain ⟨rfl, hp⟩ := hback j hce'
    exact hup ⟨rfl, hp⟩
  · rw [detach_isDir]
    exact h.dirs e m j (child_of_put_none (child_of_detach hce)).2

theorem LinkedBut.settle (h : t.LinkedBut fun j => x j ∨ j = i)
    (hi : t.child i dot = some i → i = t.root ∨ t.Named i) : t.LinkedBut x := by
  refine ⟨h.back, fun j hx hj => ?_, h.dirs⟩
  by_cases hji : j = i
  · subst hji
    exact hi hj
  · exact h.named j (fun hor => hor.elim hx hji) hj

theorem LinkedBut.mkdir (h : t.LinkedBut x) (hd : t.isDir d)
    (hlt : d ≠ t.next) (hfree : t.child d n = none)
    (hnew : ∀ m, t.child t.next m = none) : (t.mkdir d n).LinkedBut x := by
  have hkeep : ∀ {e i m}, t.child e m = some i → (t.mkdir d n).child e m = some i := by
    intro e i m hc
    rw [mkdir_child_old, hc]
    · rintro rfl
      rw [hnew] at hc
      cases hc
    · rintro ⟨rfl, rfl⟩
      rw [hfree] at hc
      cases hc
  refine ⟨fun e p hp => ?_, fun j hx hj => ?_, fun e m j hce => ?_⟩
  · rw [mkdir_parent] at hp
    rw [mkdir_isDir]
    split at hp
    · next he =>
      subst he
      obtain rfl : d = p := some.inj hp
      exact ⟨mkdir_child_up hlt, .inr hd⟩
    · obtain ⟨hce, hdir⟩ := h.back e p hp
      exact ⟨hkeep hce, .inr hdir⟩
  · have hcases := mkdir_child_cases hj
    by_cases hjn : j = t.next
    · subst hjn
      refine .inr ⟨d, n, mkdir_child_new, fun he => hlt he.1, ?_⟩
      rintro ⟨rfl, hp⟩
      rw [mkdir_parent, if_neg hlt] at hp
      rw [(h.back d _ hp).1] at hfree
      cases hfree
    have hold : t.child j dot = some j := by
      obtain ⟨-, -, hn⟩ | ⟨hn, -⟩ | ⟨hn, -⟩ | ⟨-, hc⟩ := hcases
      · exact absurd hn hjn
      · exact absurd hn hjn
      · exact absurd hn hjn
      · exact hc
    rcases h.named j hx hold with hr | ⟨e, m, hce, hne, hup⟩
    · exact .inl hr
    refine .inr ⟨e, m, hkeep hce, hne, fun hj => hup ⟨hj.1, ?_⟩⟩
    have hen : e ≠ t.next := by
      rintro rfl
      rw [hnew] at hce
      cases hce
    rw [mkdir_parent, if_neg hen] at hj
    exact hj.2
  · rw [mkdir_isDir]
    obtain ⟨rfl, -⟩ | ⟨rfl, -⟩ | ⟨rfl, -⟩ | ⟨-, hce⟩ := mkdir_child_cases hce
    · exact .inr hd
    · exact .inl rfl
    · exact .inl rfl
    · exact .inr (h.dirs e m j hce)

theorem LinkedBut.fresh (h : t.LinkedBut x) (hup : ∀ e, t.parent e ≠ some t.next)
    (hnew : ∀ m, t.child t.next m = none) : (t.fresh False).LinkedBut x := by
  have hchild : (t.fresh False).child = t.child := by
    funext e m
    by_cases he : e = t.next
    · subst he
      simp [Names.fresh, hnew]
    · simp [Names.fresh, he]
  have hisDir : ∀ i, i ≠ t.next → ((t.fresh False).isDir i ↔ t.isDir i) := by
    intro i hi
    simp [Names.fresh, hi]
  have hparent : ∀ e p, (t.fresh False).parent e = some p → t.parent e = some p := by
    intro e p hp
    by_cases he : e = t.next
    · subst he
      simp [Names.fresh] at hp
    · simpa [Names.fresh, he] using hp
  refine ⟨fun e p hp => ?_, fun j hx hj => ?_, fun e m j hce => ?_⟩
  · have hp := hparent e p hp
    rw [hisDir p fun he => hup e (he ▸ hp), hchild]
    exact h.back e p hp
  · rw [hchild] at hj
    rcases h.named j hx hj with hr | ⟨e, m, hce, hne, hup⟩
    · exact .inl hr
    · refine .inr ⟨e, m, by rw [hchild]; exact hce, hne, fun hj => hup ⟨hj.1, ?_⟩⟩
      exact hparent _ _ hj.2
  · rw [hchild] at hce
    have he : e ≠ t.next := by
      rintro rfl
      rw [hnew] at hce
      cases hce
    rw [hisDir e he]
    exact h.dirs e m j hce

theorem LinkedBut.exchange {p q j : Nat} {m : Name} (h : t.LinkedBut x) (hpq : p ≠ q)
    (hn : Proper n) (hm : Proper m) (hc : t.child p n = some i) (hc' : t.child q m = some j) :
    ((t.put p n (some j)).put q m (some i)).LinkedBut x := by
  have hother : ∀ {e k}, ¬ (e = p ∧ k = n) → ¬ (e = q ∧ k = m) →
      ((t.put p n (some j)).put q m (some i)).child e k = t.child e k := by
    intro e k hp hq
    rw [put_child_of_ne hq, put_child_of_ne hp]
  have hup : ∀ e, ((t.put p n (some j)).put q m (some i)).child e dotdot =
      t.child e dotdot :=
    fun e => hother (fun he => hn.2 he.2.symm) fun he => hm.2 he.2.symm
  have hself : ∀ e, ((t.put p n (some j)).put q m (some i)).child e dot =
      t.child e dot :=
    fun e => hother (fun he => hn.1 he.2.symm) fun he => hm.1 he.2.symm
  refine ⟨fun e k hk => ?_, fun k hx hk => ?_, fun e k l hcl => ?_⟩
  · rw [hup]
    exact h.back e k hk
  · rw [hself] at hk
    rcases h.named k hx hk with hr | ⟨e, l, hcl, hne, hup⟩
    · exact .inl hr
    by_cases hp : e = p ∧ l = n
    · obtain ⟨rfl, rfl⟩ := hp
      obtain rfl : k = i := mem_unique hcl hc
      exact .inr ⟨q, m, put_child_self _, fun he => hm.1 he.2, fun he => hm.2 he.1⟩
    by_cases hq : e = q ∧ l = m
    · obtain ⟨rfl, rfl⟩ := hq
      obtain rfl : k = j := mem_unique hcl hc'
      refine .inr ⟨p, n, ?_, fun he => hn.1 he.2, fun he => hn.2 he.1⟩
      rw [put_child_of_ne fun he => hpq he.1, put_child_self]
    · exact .inr ⟨e, l, (hother hp hq).trans hcl, hne, hup⟩
  · by_cases hp : e = p ∧ k = n
    · exact hp.1 ▸ h.dirs p n i hc
    by_cases hq : e = q ∧ k = m
    · exact hq.1 ▸ h.dirs q m j hc'
    · rw [hother hp hq] at hcl
      exact h.dirs e k l hcl

end Linked

end Names

end Finesse.Bitbucket
