import Finesse.Bitbucket.InodeInvariant

/-!
# Concurrent use of inodes, step by step

Every undisturbed step keeps the invariant, and so does every run: no
assertion fails, an inode is deallocated once and without references, and a
thread that leaves a call holds no lock. The runs at the end show how each
kind of disturbance goes wrong.
-/

namespace Finesse.Bitbucket.Threads

open Ledger Function List Option Machine Pool Shared Pc

variable {w : Option (BitVec 64)} {j : Nat}

section Steps

variable {θ : Type} [Fintype θ] [DecidableEq θ] {hash : BitVec 64 → Nat}
  {p : Pool θ Pc (Shared θ)} {t u : θ} {pc pc0 : Pc} {s s' : Shared θ} {i b : Nat}

/-! ### Who may change an inode -/

theorem Asserts.of_creating (h : Asserts hash t pc s) (hc : pc.creating = some i) : New s t i := by
  have hL := h.locals
  cases pc <;> cases hc <;> exact hL.1

theorem Asserts.of_dropping (h : Asserts hash t pc s) (hd : pc.dropping = some i) :
    s.counted.total i = 0 ∨ s.counted t i = s.counted.total i := by
  have hL := h.locals
  cases pc <;> cases hd
  · exact .inl hL.2.2.1
  all_goals exact .inr (hL.counted.trans hL.total.symm)

theorem Asserts.of_freeing (h : Asserts hash t pc s) (hf : pc.freeing = some i) :
    s.counted.total i = 0 ∧
      (pc.writes hash s.ino = some (s.bucket hash i) ∨ ∀ b, i ∉ s.list b) := by
  have hL := h.locals
  cases pc <;> cases hf
  · exact ⟨hL.2.2.2, .inl rfl⟩
  · exact ⟨hL.2, .inl rfl⟩
  · exact ⟨hL.2.2.1, .inr hL.2.2.2.1⟩
  · exact ⟨hL.2.2.1, .inr hL.2.2.2.1⟩
  · exact ⟨hL.2.1, .inr hL.2.2⟩

theorem Pc.claiming_cases (h : pc.claiming = some i) :
    pc.dropping = some i ∨ pc.freeing = some i := by
  rw [claiming] at h
  cases hd : pc.dropping with
  | none =>
    rw [hd] at h
    exact .inr h
  | some j =>
    rw [hd] at h
    exact .inl h

theorem Holds.unclaimed_of_counted (h : Holds hash p) (hc : 0 < p.shared.counted t i) :
    Unclaimed p t i := by
  intro u hu
  have hle := p.shared.counted.le_total t i
  have hadd := p.shared.counted.add_le_total (Ne.symm hu) i
  refine ⟨fun hrole => ?_, fun hrole => ?_⟩
  · have hnew := (h.asserts u).of_creating hrole
    have := hnew.total
    have := hnew.counted
    omega
  · rcases claiming_cases hrole with hd | hf
    · have := (h.asserts u).of_dropping hd
      omega
    · have := ((h.asserts u).of_freeing hf).1
      omega

theorem Holds.unclaimed_of_claiming (h : Holds hash p) (hc : (p.pcs t).claiming = some i)
    (hcreated : p.shared.created i = true) : Unclaimed p t i := by
  intro u hu
  refine ⟨fun hrole => ?_, fun hrole => hu (h.claiming u t i hrole hc)⟩
  have hnew := (h.asserts u).of_creating hrole
  rw [hnew.created] at hcreated
  cases hcreated

theorem Holds.unclaimed_of_free (h : Holds hash p) (hc : (p.pcs t).claiming = some i)
    (hzero : p.shared.counted.total i = 0) : Unclaimed p t i := by
  refine fun u hu => ⟨fun hrole => ?_, fun hrole => hu (h.claiming u t i hrole hc)⟩
  have := ((h.asserts u).of_creating hrole).total
  omega

theorem Holds.not_freeing (h : Holds hash p) (hg : Good hash p.shared i)
    (hread : t ∈ (p.shared.locks (p.shared.bucket hash i)).readers) (u : θ) :
    (p.pcs u).freeing ≠ some i := by
  intro hf
  rcases ((h.asserts u).of_freeing hf).2 with hw | hl
  · have hwriter := ((h.asserts u).writes _).mpr hw
    rw [h.inv.writer_none hread] at hwriter
    cases hwriter
  · exact hl _ hg.listed

/-- If nobody claims an inode and nobody is about to count one reference less
for the reason, the reason has at most all references. -/
theorem Holds.reason_le_count (h : Holds hash p) {r : Reason}
    (hclaim : ∀ u, (p.pcs u).claiming ≠ some i) (hremove : ∀ u, (p.pcs u).removing ≠ some (i, r)) :
    p.shared.referenceReasons i r ≤ p.shared.referenceCount i := by
  rw [h.inv.reasons, h.inv.counts]
  refine Finset.sum_le_sum fun u _ => ?_
  have ha := h.asserts u
  have hbal := ha.balance i
  have hL := ha.locals
  have hle : p.shared.noted u (i, r) ≤ p.shared.reasons u i :=
    Reason.le_sum (fun r' => p.shared.noted u (i, r')) r
  have hc := hclaim u
  have hr := hremove u
  generalize p.pcs u = pc at hbal hL hc hr
  cases pc with
  | derefReason j r' bias =>
    by_cases hj : i = j
    · subst hj
      have hne : r ≠ r' := fun heq => hr (by rw [heq]; rfl)
      have hadd : p.shared.noted u (i, r) + p.shared.noted u (i, r') ≤
          p.shared.reasons u i :=
        Reason.add_le_sum (fun r' => p.shared.noted u (i, r')) hne
      have hnoted := hL.2
      rw [owed, if_pos rfl] at hbal
      omega
    · rw [owed, if_neg hj] at hbal
      omega
  | derefRestore j r' bias =>
    have hj : i ≠ j := fun heq => hc (by rw [heq]; rfl)
    rw [owed, if_neg hj] at hbal
    omega
  | lastReason j r' bias count =>
    have hj : i ≠ j := fun heq => hc (by rw [heq]; rfl)
    rw [owed, if_neg hj] at hbal
    omega
  | _ =>
    simp only [owed] at hbal
    omega

theorem Asserts.good_of_counted (h : Asserts hash t pc s) (hc : 0 < s.counted t i)
    (hcr : pc.creating = none) : Good hash s i :=
  h.known i hc (hcr ▸ nofun)

theorem Asserts.object_live (hI : Inv hash s) (h : Asserts hash t pc s)
    (ho : pc.object = some i) : s.live i = true := by
  refine h.locals.live hI h.known ?_
  cases pc <;> first | exact ho | cases ho

/-! ### References -/

section Reference

variable {a : Act θ} {ev : List Event}

omit [Fintype θ] [DecidableEq θ] in
theorem inodeTableLock_inv {x : Bool} (ht : s.table i = true)
    (hs : inodeTableLock hash t i x pc0 s = some (ev, pc, s')) :
    pc = pc0 ∧ (if x then s.lockExclusive (s.bucket hash i) t
      else s.lockShared (s.bucket hash i) t) = some s' := by
  rw [inodeTableLock, if_neg (by rw [ht]; decide)] at hs
  obtain ⟨s1, hl, ⟨⟩⟩ := map_eq_some_iff.mp hs
  exact ⟨rfl, hl⟩

omit [Fintype θ] in
theorem inodeTableUnlock_inv (ht : s.table i = true)
    (hs : inodeTableUnlock hash t i pc0 s = some (ev, pc, s')) :
    pc = pc0 ∧ s' = s.unlock (s.bucket hash i) t := by
  rw [inodeTableUnlock, if_neg (by rw [ht]; decide)] at hs
  cases hs
  exact ⟨rfl, rfl⟩

variable {r : Reason}

variable (h : Holds hash p)
include h

/-- An inode that a lookup has found, or one to which the thread has a
reference. -/
theorem Holds.refLock_good
    (hpc : p.pcs t = .refLock w i r) (hu : Undisturbed p (t, a)) : Good hash p.shared i := by
  have ha := hpc ▸ h.asserts t
  have hL := ha.locals
  cases w with
  | none => exact ha.good_of_counted hL rfl
  | some n =>
    rw [Undisturbed, hpc] at hu
    obtain ⟨hlive, hb⟩ := h.inv.listed hL
    obtain ⟨htable, htally⟩ := h.inv.entered hL hu
    exact ⟨hlive, htable, hu, hb ▸ hL, htally⟩

theorem Sound.refCount (hpc : p.pcs t = .refCount w i r) (hu : Undisturbed p (t, a)) :
    Sound hash p t (.refReason w i r (p.shared.referenceCount i)) (p.shared.addCount i 1 t) := by
  have ha := hpc ▸ h.asserts t
  have hg : Good hash p.shared i := ha.locals
  rw [Undisturbed, hpc] at hu
  obtain ⟨hfits, hu⟩ := hu
  rw [addCount, fetchAdd_eq hfits]
  have hread : t ∈ (p.shared.locks (p.shared.bucket hash i)).readers := by
    rw [← count_pos_iff, ha.reads, reads]
    exact count_pos_iff.mpr mem_cons_self
  have hclaim : ∀ u, (p.pcs u).claiming ≠ some i := by
    intro u hc
    rcases claiming_cases hc with hd | hf
    · exact (hu u).1 hd
    · exact h.not_freeing hg hread u hf
  have hfree : Unclaimed p t i := by
    refine fun u _ => ⟨fun hc => ?_, hclaim u⟩
    have := ((h.asserts u).of_creating hc).created
    rw [hg.created] at this
    cases this
  have hpos : p.shared.referenceCount i ≠ 0 := by
    rw [h.inv.counts]
    rcases h.held i hg with hpos | ⟨u, hc⟩
    · exact Nat.ne_of_gt hpos
    · exact absurd hc (hclaim u)
  have hle := h.reason_le_count hclaim fun u => (hu u).2.2
  refine .count h hpc rfl rfl (by omega) hfree ?_ (fun _ => hg)
    (fun k hk => .inr fun u _ => ?_) (.of_none rfl) (fun j hj => by cases hj)
    (.inl (Nat.succ_pos _)) ⟨hg.setCount i _ t _, hpos, hle⟩ rfl rfl rfl
  · have hbal := ha.balance i
    simp only [owed, ahead, if_true] at hbal ⊢
    omega
  · cases hk
    exact (hu u).2.1

theorem Sound.refReason {count : Nat}
    (hpc : p.pcs t = .refReason w i r count) (hu : Undisturbed p (t, a)) :
    Sound hash p t (.refUnlock w i count (p.shared.referenceReasons i r))
      (p.shared.addReason i r 1 t) := by
  have ha := hpc ▸ h.asserts t
  obtain ⟨hg, hcount, hle⟩ := ha.locals
  rw [Undisturbed, hpc] at hu
  rw [addReason, fetchAdd_eq hu]
  refine .reason h hpc rfl rfl (by omega) hu (fun _ u hu hadd => ?_) ?_
    (.of_none rfl) rfl ⟨hg.setReason i r _ t _, hcount, hle⟩ rfl rfl rfl
  · exact hu (h.adding u t (i, r) hadd (by rw [hpc]; rfl))
  have hbal := ha.balance i
  simp only [owed, ahead, if_true] at hbal ⊢
  omega

theorem referenceStep_sound (hpc : p.pcs t = pc0) (hu : Undisturbed p (t, a))
    (hs : referenceStep hash t pc0 p.shared = some (ev, pc, s')) : Sound hash p t pc s' := by
  have ha := hpc ▸ h.asserts t
  have hL := ha.locals
  unfold referenceStep at hs
  split at hs
  · next w i r =>
    have hg := h.refLock_good hpc hu
    obtain ⟨rfl, hl⟩ := inodeTableLock_inv hg.table hs
    exact .rdlock h hpc rfl hg rfl hl rfl
  · cases hs
    exact .refCount h hpc hu
  · cases hs
    exact .refReason h hpc hu
  · next w i count reason =>
    obtain ⟨hg, hcheck⟩ := hL
    obtain ⟨rfl, rfl⟩ := inodeTableUnlock_inv hg.table hs
    exact .unlockShared h hpc rfl hcheck rfl rfl rfl
  · next w count reason =>
    obtain ⟨hcount, hreason⟩ := hL
    rw [if_neg hcount, if_neg (Nat.not_lt.mpr hreason)] at hs
    cases w with
    | some n =>
      cases hs
      exact .stay h hpc rfl trivial rfl rfl h.inv.cached rfl
    | none =>
      cases hs
      exact .stay h hpc rfl trivial rfl rfl h.inv.cached rfl
  · cases hs

end Reference

/-! ### Dereferences -/

section Dereference

variable {a : Act θ} {ev : List Event} {r : Reason} {bias : Nat}

theorem Asserts.le_counted (ha : Asserts hash t pc s) (hn : bias ≤ s.noted t (i, r))
    (howed : pc.owed i = 0) (hahead : pc.ahead i = 0) : bias ≤ s.counted t i := by
  have hle : s.noted t (i, r) ≤ s.reasons t i := Reason.le_sum (fun r' => s.noted t (i, r')) r
  have hbal := ha.balance i
  omega

variable (h : Holds hash p)
include h

theorem Sound.derefSub (hpc : p.pcs t = .derefSub i r bias) :
    Sound hash p t (if bias = p.shared.referenceCount i then .derefRestore i r bias
      else .derefReason i r bias) (p.shared.subCount i bias t) := by
  have ha := hpc ▸ h.asserts t
  obtain ⟨hnoted, hpos⟩ := ha.locals
  have hg := ha.good_of_counted hpos rfl
  have hlt := h.inv.lt_next hg.live
  have hle := ha.le_counted hnoted rfl rfl
  have htotal := p.shared.counted.le_total t i
  have hself := p.shared.counted.total_set_self t i (p.shared.counted t i - bias)
  have hcount := h.inv.counts i
  have hfree := h.unclaimed_of_counted hpos
  have hbal := ha.balance i
  simp only [owed, ahead] at hbal
  rw [subCount, fetchSub_eq (by omega)]
  by_cases hlast : bias = p.shared.referenceCount i
  · rw [if_pos hlast]
    refine .count h hpc rfl rfl (by omega) hfree ?_ (fun _ => hg)
      (.of_none rfl) (fun k hk => .inr fun u hu => ?_) (fun j hj => by cases hj) (.inr rfl)
      ⟨hg.setCount i _ t _, hnoted, ?_, ?_⟩ rfl rfl rfl
    · simp only [owed, ahead, if_true]
      omega
    · cases hk
      exact (hfree u hu).2
    · change (p.shared.counted.set t i _).total i = 0
      omega
    · omega
  · rw [if_neg hlast]
    refine .count h hpc rfl rfl (by omega) hfree ?_ (fun _ => hg)
      (.of_none rfl) (.of_none rfl) (fun j hj => by cases hj) (.inl (by omega))
      ⟨hg.setCount i _ t _, hnoted⟩ rfl rfl rfl
    simp only [owed, ahead, if_true]
    omega

theorem Sound.derefRestore (hpc : p.pcs t = .derefRestore i r bias) :
    Sound hash p t (.lastUnlock i r bias) (p.shared.addCount i bias t) := by
  have ha := hpc ▸ h.asserts t
  obtain ⟨hg, hnoted, hzero, hpos⟩ := ha.locals
  have hlt := h.inv.lt_next hg.live
  have hfits : p.shared.referenceCount i + bias < 2 ^ 64 := by
    have := h.inv.fits i r
    have := h.inv.reasons i r
    have := h.inv.counts i
    have := p.shared.noted.le_total t (i, r)
    omega
  rw [addCount, fetchAdd_eq hfits]
  have htotal := p.shared.counted.le_total t i
  have hself := p.shared.counted.total_set_self t i (p.shared.counted t i + bias)
  have hclaim : (p.pcs t).claiming = some i := by rw [hpc]; rfl
  refine .count h hpc rfl rfl (by omega) (h.unclaimed_of_claiming hclaim hg.created)
    ?_ (fun _ => hg)
    (.of_none rfl) (.of_eq (by rw [hpc]; rfl)) (fun j hj => hj) (.inr rfl)
    ⟨hnoted, ?_, ?_, hpos⟩ rfl rfl rfl
  · have hbal := ha.balance i
    simp only [owed, ahead, if_true] at hbal ⊢
    omega
  · change (p.shared.counted.set t i _).total i = bias
    omega
  · change p.shared.counted.set t i _ t i = bias
    rw [set_apply, if_pos ⟨rfl, rfl⟩]
    omega

theorem Sound.lastSub (hpc : p.pcs t = .lastSub i r bias) :
    Sound hash p t (.lastReason i r bias (p.shared.referenceCount i))
      (p.shared.subCount i bias t) := by
  have ha := hpc ▸ h.asserts t
  obtain ⟨hnoted, htotal, hcounted, hpos⟩ := ha.locals
  have hg := ha.good_of_counted (hcounted ▸ hpos) rfl
  have hlt := h.inv.lt_next hg.live
  have hcount := h.inv.counts i
  have hself := p.shared.counted.total_set_self t i (p.shared.counted t i - bias)
  have hclaim : (p.pcs t).claiming = some i := by rw [hpc]; rfl
  rw [subCount, fetchSub_eq (by omega)]
  refine .count h hpc rfl rfl (by omega) (h.unclaimed_of_claiming hclaim hg.created)
    ?_ (fun _ => hg)
    (.of_none rfl) (.of_eq (by rw [hpc]; rfl)) (fun j hj => hj) (.inr rfl)
    ⟨hg.setCount i _ t _, by omega, hnoted, ?_⟩ rfl rfl rfl
  · have hbal := ha.balance i
    simp only [owed, ahead, if_true] at hbal ⊢
    omega
  · change (p.shared.counted.set t i _).total i = 0
    omega

theorem Sound.subReason (hpc : p.pcs t = pc0)
    (hnoted : bias ≤ p.shared.noted t (i, r)) (hin0 : pc0.inode = some i) (hin : pc.inode = some i)
    (howed : pc0.owed i = bias ∧ pc.owed i = 0) (hahead : pc0.ahead i = 0 ∧ pc.ahead i = 0)
    (hadding : pc.adding = none) (hclaiming : pc.claiming = pc0.claiming)
    (hL : pc.Locals hash t (p.shared.subReason i r bias t)) (hcreating : pc0.creating = none)
    (hreads : pc.reads hash p.shared.ino = pc0.reads hash p.shared.ino)
    (hwrites : pc.writes hash p.shared.ino = pc0.writes hash p.shared.ino) :
    Sound hash p t pc (p.shared.subReason i r bias t) := by
  have ha := hpc ▸ h.asserts t
  have hreason := h.inv.reasons i r
  have htotal := p.shared.noted.le_total t (i, r)
  have hfits := h.inv.fits i r
  have hsub : p.shared.subReason i r bias t = p.shared.setReason i r
      (p.shared.referenceReasons i r - bias) t (p.shared.noted t (i, r) - bias) := by
    rw [Shared.subReason, fetchSub_eq (by omega)]
  rw [hsub] at hL ⊢
  refine .reason h hpc hin0 hin (by omega) (by omega)
    (fun hlt => absurd hlt (Nat.not_lt.mpr (Nat.sub_le _ _))) ?_
    (.of_none hadding) hclaiming hL hcreating hreads hwrites
  have hbal := ha.balance i
  rw [howed.1, hahead.1] at hbal
  rw [howed.2, hahead.2]
  omega

theorem dereferenceStep_sound (hpc : p.pcs t = pc0)
    (hs : dereferenceStep hash t pc0 p.shared = some (ev, pc, s')) : Sound hash p t pc s' := by
  have hI := h.inv
  have ha := hpc ▸ h.asserts t
  have hL := ha.locals
  unfold dereferenceStep at hs
  split at hs
  · next i r bias =>
    have hle := ha.le_counted hL.1 rfl rfl
    have htotal := p.shared.counted.le_total t i
    have hcount := hI.counts i
    rw [if_neg (by omega)] at hs
    cases hs
    exact .stay h hpc rfl hL rfl rfl hI.cached rfl
  · next i r bias =>
    have htotal := p.shared.noted.le_total t (i, r)
    have hreason := hI.reasons i r
    have hle := hL.1
    rw [if_neg (by omega)] at hs
    cases hs
    exact .stay h hpc rfl hL rfl rfl hI.cached rfl
  · next i r bias =>
    have hg := ha.good_of_counted hL.2 rfl
    obtain ⟨rfl, hl⟩ := inodeTableLock_inv hg.table hs
    exact .rdlock h hpc rfl hL rfl hl rfl
  · cases hs
    exact .derefSub h hpc
  · cases hs
    exact .derefRestore h hpc
  · next i r bias =>
    obtain ⟨hg, hnoted⟩ := hL
    have htotal := p.shared.noted.le_total t (i, r)
    have hreason := hI.reasons i r
    rw [if_neg (by omega)] at hs
    cases hs
    exact .subReason h hpc hnoted rfl rfl ⟨if_pos rfl, rfl⟩ ⟨rfl, rfl⟩ rfl rfl
      (hg.setReason i r _ t _) rfl rfl rfl
  · next i =>
    obtain ⟨rfl, rfl⟩ := inodeTableUnlock_inv (Good.table hL) hs
    exact .unlockShared h hpc rfl trivial rfl rfl rfl
  · next i r bias =>
    have hg := ha.good_of_counted (hL.counted ▸ hL.pos) rfl
    obtain ⟨rfl, rfl⟩ := inodeTableUnlock_inv hg.table hs
    exact .unlockShared h hpc rfl hL rfl rfl rfl
  · next i r bias =>
    have hg := ha.good_of_counted (hL.counted ▸ hL.pos) rfl
    obtain ⟨rfl, hl⟩ := inodeTableLock_inv hg.table hs
    exact .wrlock h hpc rfl hL hl rfl ⟨rfl, rfl⟩
  · next i r bias =>
    have hcount := hI.counts i
    have htotal := hL.total
    rw [if_neg (by omega)] at hs
    cases hs
    exact .lastSub h hpc
  · next i r bias count =>
    obtain ⟨hg, rfl, hnoted, hzero⟩ := hL
    have htotal := p.shared.noted.le_total t (i, r)
    have hreason := hI.reasons i r
    rw [if_neg (by omega), if_pos rfl] at hs
    cases hs
    exact .subReason h hpc hnoted rfl rfl ⟨if_pos rfl, rfl⟩ ⟨rfl, rfl⟩ rfl rfl
      ⟨hg.setReason i r _ t _, hzero⟩ rfl rfl rfl
  · cases hs

end Dereference

/-! ### Lookups -/

section Lookup

variable {ev : List Event} {n : BitVec 64}

omit [DecidableEq θ] in
theorem Inv.not_dangling (hI : Inv hash s) {cached : Option Nat}
    (hc : ∀ i, cached = some i → i ∈ s.list b) : ¬ s.Dangling b cached := by
  rintro (⟨i, hi, hdead⟩ | ⟨i, hi, hdead⟩)
  · rw [(hI.listed (hc i hi)).1] at hdead
    cases hdead
  · rw [(hI.listed hi).1] at hdead
    cases hdead

omit [Fintype θ] [DecidableEq θ] in
theorem Shared.find_some (h : s.find b n = some i) : i ∈ s.list b ∧ s.ino i = n :=
  ⟨mem_of_find?_eq_some h, by simpa using List.find?_some h⟩

theorem lookupStep_sound (h : Holds hash p) (hpc : p.pcs t = pc0)
    (hs : lookupStep hash t pc0 p.shared = some (ev, pc, s')) : Sound hash p t pc s' := by
  have hI := h.inv
  have ha := hpc ▸ h.asserts t
  have hL := ha.locals
  unfold lookupStep at hs
  split at hs
  · obtain ⟨s1, hl, ⟨⟩⟩ := map_eq_some_iff.mp hs
    exact .rdlock h hpc rfl trivial rfl hl rfl
  · cases hs
    exact .stay h hpc rfl (fun i hi => hI.cached hi) rfl rfl hI.cached rfl
  · next n cached =>
    rw [if_neg (hI.not_dangling hL)] at hs
    split at hs
    · next i hi =>
      cases hs
      have hmem := hL i (filter_eq_some_iff.mp hi).1
      exact .stay h hpc rfl hmem rfl rfl hI.cached rfl
    · split at hs
      · next i hi =>
        cases hs
        exact .stay h hpc rfl (find_some hi).1 rfl rfl hI.cached rfl
      · cases hs
        exact .stay h hpc rfl trivial rfl rfl hI.cached rfl
  · next n i =>
    cases hs
    refine .stay h hpc rfl hL rfl rfl (fun {b j} hj => ?_) rfl
    by_cases hb : b = hash n
    · subst hb
      rw [update_self] at hj
      cases hj
      exact hL
    · rw [update_of_ne hb] at hj
      exact hI.cached hj
  · cases hs
    exact .unlockShared h hpc rfl trivial rfl rfl rfl
  · cases hs

end Lookup

/-! ### Creation and deallocation -/

/-- Nothing but the fields of inode `i` has changed, its place in the table, and
the cache of a bucket. -/
structure Touches (i : Nat) (t : θ) (s s' : Shared θ) : Prop where
  locks : s'.locks = s.locks
  counted : s'.counted = s.counted
  noted : s'.noted = s.noted
  reasons : s'.referenceReasons = s.referenceReasons
  next : s'.next = s.next
  ino : s'.ino = s.ino
  list : ∀ b, (s.locks b).writer ≠ some t → s'.list b = s.list b
  others : ∀ j, j ≠ i → s'.live j = s.live j ∧ s'.table j = s.table j ∧
    s'.created j = s.created j ∧ (∀ b, j ∈ s'.list b ↔ j ∈ s.list b) ∧
    (j ∈ s'.tallied ↔ j ∈ s.tallied)

omit [Fintype θ] [DecidableEq θ] in
theorem Touches.good_iff (h : Touches i t s s') (hj : j ≠ i) : Good hash s' j ↔ Good hash s j := by
  obtain ⟨hlive, htable, hcreated, hlist, htally⟩ := h.others j hj
  have hb : s'.bucket hash j = s.bucket hash j := by
    rw [bucket, h.ino, bucket]
  constructor
  · rintro ⟨h1, h2, h3, h4, h5⟩
    exact ⟨hlive ▸ h1, htable ▸ h2, hcreated ▸ h3, (hlist _).mp (hb ▸ h4), htally.mp h5⟩
  rintro ⟨h1, h2, h3, h4, h5⟩
  exact ⟨hlive.trans h1, htable.trans h2, hcreated.trans h3, (hlist _).mpr (hb ▸ h4), htally.mpr h5⟩

theorem Sound.touch (h : Holds hash p) (hpc : p.pcs t = pc0)
    (htouch : Touches i t p.shared s') (hfree : Unclaimed p t i) (hI : Inv hash s')
    (hremoved : ∀ b, i ∈ p.shared.list b → i ∈ s'.list b ∨ p.shared.counted.total i = 0)
    (hkeeps : ∀ b, i ∈ p.shared.list b → (p.shared.live i = true → s'.live i = true) ∧
      (p.shared.table i = true → s'.table i = true) ∧
      (p.shared.created i = true → s'.created i = true) ∧
      (i ∈ p.shared.tallied → i ∈ s'.tallied))
    (hentered : ∀ b, i ∈ s'.list b → i ∈ p.shared.list b ∨ p.shared.created i = false)
    (hcreated : p.shared.created i = true → s'.created i = true)
    (hcreating : ∀ j, pc0.creating = some j → j = i)
    (hclaiming : pc.claiming = pc0.claiming ∨
      pc.claiming = none ∧ ∀ j, pc0.claiming = some j → j = i)
    (hknown : 0 < p.shared.counted t i → pc.creating ≠ some i → Good hash s' i)
    (hheld : Good hash s' i → 0 < p.shared.counted.total i ∨ pc.claiming = some i)
    (hL : pc.Locals hash t s')
    (hreads : pc.reads hash p.shared.ino = pc0.reads hash p.shared.ino)
    (hwrites : pc.writes hash p.shared.ino = pc0.writes hash p.shared.ino)
    (howed : pc.owed = pc0.owed) (hahead : pc.ahead = pc0.ahead)
    (hadding : pc.adding = none) : Sound hash p t pc s' := by
  subst hpc
  have ha := h.asserts t
  have hreasons : ∀ u j, s'.reasons u j = p.shared.reasons u j := fun u j => by
    rw [reasons, htouch.noted, reasons]
  refine ⟨hI, ⟨fun b => ?_, fun b => ?_, fun j => ?_, fun j hc hne => ?_, hL⟩,
    ⟨fun _ _ b => ?_, fun _ _ b => ?_, fun _ _ j => ?_, fun _ _ k => ?_, fun u _ j => ?_,
      fun u _ j hlt => ?_, Nat.le_of_eq htouch.next.symm, fun j _ => ?_, htouch.list,
      fun b j hj => ?_, fun b j hj => ?_, fun u hu j hrole => ?_,
      fun _ _ j r _ => ?_⟩, .of_none hadding, ?_, fun j hg => ?_, fun b j hj => ?_, fun j hj => ?_⟩
  · rw [htouch.locks, htouch.ino, hreads]
    exact ha.reads b
  · rw [htouch.locks, htouch.ino, hwrites]
    exact ha.writes b
  · rw [htouch.counted, hreasons, howed, hahead]
    exact ha.balance j
  · rw [htouch.counted] at hc
    by_cases hj : j = i
    · subst hj
      exact hknown hc hne
    · exact (htouch.good_iff hj).mpr (ha.known j hc fun hn => hj (hcreating j hn))
  · rw [htouch.locks]
  · rw [htouch.locks]
  · rw [htouch.counted]
  · rw [htouch.noted]
  · rw [htouch.counted, hreasons]
  · rw [htouch.counted] at hlt
    exact absurd hlt (Nat.lt_irrefl _)
  · rw [htouch.ino]
  · by_cases hji : j = i
    · subst hji
      exact hremoved b hj
    · exact .inl (((htouch.others j hji).2.2.2.1 b).mpr hj)
  · by_cases hji : j = i
    · subst hji
      exact hkeeps b hj
    · obtain ⟨hlive, htable, hcreated, -, htally⟩ := htouch.others j hji
      exact ⟨hlive.trans, htable.trans, hcreated.trans, htally.mpr⟩
  · have hji : j ≠ i := by
      rintro rfl
      exact hrole.elim (hfree u hu).1 (hfree u hu).2
    obtain ⟨hlive, htable, hcreated, hlist, htally⟩ := htouch.others j hji
    exact ⟨hlive, htable, hcreated, hlist, htally, by rw [htouch.counted]⟩
  · rw [htouch.reasons]
  · exact hclaiming.elim .of_eq fun hc => .of_none hc.1
  · rw [htouch.counted]
    by_cases hji : j = i
    · subst hji
      exact (hheld hg).imp_right .inl
    refine h.claimed ((htouch.good_iff hji).mp hg) fun hc => ?_
    rcases hclaiming with heq | ⟨-, hone⟩
    · exact heq.trans hc
    · exact absurd (hone j hc) hji
  · by_cases hji : j = i
    · subst hji
      exact hentered b hj
    · exact .inl (((htouch.others j hji).2.2.2.1 b).mp hj)
  · by_cases hji : j = i
    · subst hji
      exact hcreated hj
    · exact (htouch.others j hji).2.2.1.trans hj

section Create

variable {ev : List Event}

omit [DecidableEq θ] in
theorem Inv.find_none (hI : Inv hash s) (hlive : s.live i = true)
    (hnew : ∀ b, i ∉ s.list b) : s.find b (s.ino i) = none := by
  cases hf : s.find b (s.ino i) with
  | none => rfl
  | some j =>
    obtain ⟨hmem, hino⟩ := find_some hf
    obtain rfl := hI.numbers (hI.listed hmem).1 hlive hino
    exact absurd hmem (hnew b)

omit [DecidableEq θ] in
theorem Inv.find_self (hI : Inv hash s) (hmem : i ∈ s.list b) : s.find b (s.ino i) = some i := by
  cases hf : s.find b (s.ino i) with
  | none =>
    have := List.find?_eq_none.mp hf i hmem
    simp at this
  | some j =>
    obtain ⟨hj, hino⟩ := find_some hf
    rw [hI.numbers (hI.listed hj).1 (hI.listed hmem).1 hino]

variable (h : Holds hash p)
include h

theorem Sound.createInsert (hpc : p.pcs t = .createInsert i) :
    Sound hash p t (.createUnlock i) { p.shared with
      list := update p.shared.list (p.shared.bucket hash i)
        (i :: p.shared.list (p.shared.bucket hash i)) } := by
  have hI := h.inv
  have ha := hpc ▸ h.asserts t
  obtain ⟨hnew, hlist, htally⟩ := ha.locals
  have hmem : ∀ {b j}, j ∈ update p.shared.list (p.shared.bucket hash i)
      (i :: p.shared.list (p.shared.bucket hash i)) b ↔
      j ∈ p.shared.list b ∨ (j = i ∧ b = p.shared.bucket hash i) := by
    intro b j
    by_cases hb : b = p.shared.bucket hash i
    · subst hb
      rw [update_self, mem_cons]
      tauto
    · rw [update_of_ne hb]
      tauto
  refine .touch h hpc ⟨rfl, rfl, rfl, rfl, rfl, rfl, fun b hb => ?_, fun j hj => ?_⟩
    (h.unclaimed_of_counted hnew.counted)
    { hI with
      listed := fun {b j} hj => ?_
      nodup := fun b => ?_
      cached := fun {b j} hj => ?_
      entered := fun {b j} hj hc => ?_ }
    (fun b hb => absurd hb (hlist b)) (fun b hb => absurd hb (hlist b))
    (fun _ _ => .inr hnew.created) id (fun j hj => by cases hj; rfl) (.inl rfl)
    (fun _ hne => absurd rfl hne) (fun _ => .inl (hnew.total ▸ Nat.one_pos))
    ⟨{ hnew with }, hmem.mpr (.inr ⟨rfl, rfl⟩), htally⟩ rfl rfl rfl rfl rfl
  · refine update_of_ne (fun heq => hb ?_) _ _
    rw [heq]
    exact (ha.writes _).mpr rfl
  · refine ⟨rfl, rfl, rfl, fun b => ?_, Iff.rfl⟩
    exact hmem.trans ⟨fun h => h.resolve_right fun h => hj h.1, .inl⟩
  · rcases hmem.mp hj with hj | ⟨rfl, rfl⟩
    · exact hI.listed hj
    · exact ⟨hnew.live, rfl⟩
  · by_cases hb : b = p.shared.bucket hash i
    · subst hb
      simp only [update_self]
      exact nodup_cons.mpr ⟨hlist _, hI.nodup _⟩
    · simp only [update_of_ne hb]
      exact hI.nodup b
  · exact hmem.mpr (.inl (hI.cached hj))
  · rcases hmem.mp hj with hj | ⟨rfl, rfl⟩
    · exact hI.entered hj hc
    · exact absurd (hnew.created.symm.trans hc) (by decide)

theorem Sound.createCount (hpc : p.pcs t = .createCount i) :
    Sound hash p t (.createTable i) { p.shared with
      inodeCount := p.shared.inodeCount + 1
      tallied := insert i p.shared.tallied } := by
  have hI := h.inv
  have ha := hpc ▸ h.asserts t
  obtain ⟨hnew, hlist, htally⟩ := ha.locals
  have hlt := hI.lt_next hnew.live
  refine .touch h hpc ⟨rfl, rfl, rfl, rfl, rfl, rfl, fun _ _ => rfl,
      fun j hj => ⟨rfl, rfl, rfl, fun _ => Iff.rfl, ?_⟩⟩
    (h.unclaimed_of_counted hnew.counted)
    { hI with tally := ?_, entered := fun hj hc => ?_, unused := fun {j} hj => ?_ }
    (fun b hb => .inl hb) (fun b hb => ⟨id, id, id, Finset.mem_insert_of_mem⟩)
    (fun _ => .inl) id (fun j hj => by cases hj; rfl) (.inl rfl) (fun _ hne => absurd rfl hne)
    (fun _ => .inl (hnew.total ▸ Nat.one_pos))
    ⟨{ hnew with }, hlist, Finset.mem_insert_self i _⟩ rfl rfl rfl rfl rfl
  · exact ⟨fun hm => Finset.mem_of_mem_insert_of_ne hm hj, Finset.mem_insert_of_mem⟩
  · rw [Finset.card_insert_of_notMem htally, hI.tally]
  · exact (hI.entered hj hc).imp_right Finset.mem_insert_of_mem
  obtain ⟨h1, h2, h3, h4, h5⟩ := hI.unused hj
  refine ⟨h1, h2, h3, fun hm => ?_, h5⟩
  rcases Finset.mem_insert.mp hm with rfl | hm
  · exact Nat.lt_irrefl _ (Nat.lt_of_lt_of_le hlt hj)
  · exact h4 hm

theorem Sound.createTable (hpc : p.pcs t = .createTable i) :
    Sound hash p t (.createCheck i) { p.shared with
      table := update p.shared.table i true } := by
  have hI := h.inv
  have ha := hpc ▸ h.asserts t
  obtain ⟨hnew, hlist, htally⟩ := ha.locals
  have hkeep : ∀ j, p.shared.table j = true → update p.shared.table i true j = true := by
    intro j hj
    by_cases hji : j = i
    · rw [hji, update_self]
    · rw [update_of_ne hji, hj]
  refine .touch h hpc ⟨rfl, rfl, rfl, rfl, rfl, rfl, fun _ _ => rfl,
      fun j hj => ⟨rfl, update_of_ne hj _ _, rfl, fun _ => Iff.rfl, Iff.rfl⟩⟩
    (h.unclaimed_of_counted hnew.counted)
    { hI with entered := fun hj hc => (hI.entered hj hc).imp_left (hkeep _) }
    (fun b hb => .inl hb) (fun b hb => ⟨id, hkeep i, id, id⟩)
    (fun _ => .inl) id (fun j hj => by cases hj; rfl) (.inl rfl) (fun _ hne => absurd rfl hne)
    (fun _ => .inl (hnew.total ▸ Nat.one_pos))
    ⟨{ hnew with }, hlist, htally, update_self ..⟩ rfl rfl rfl rfl rfl

theorem Sound.createCheck (hpc : p.pcs t = .createCheck i) : Sound hash p t .idle { p.shared with
      created := update p.shared.created i true } := by
  have hI := h.inv
  have ha := hpc ▸ h.asserts t
  obtain ⟨hnew, hlist, htally, htable⟩ := ha.locals
  have hlt := hI.lt_next hnew.live
  refine .touch h hpc ⟨rfl, rfl, rfl, rfl, rfl, rfl, fun _ _ => rfl,
      fun j hj => ⟨rfl, rfl, update_of_ne hj _ _, fun _ => Iff.rfl, Iff.rfl⟩⟩
    (h.unclaimed_of_counted hnew.counted)
    { hI with entered := fun {b j} hj hc => ?_, unused := fun {j} hj => ?_ }
    (fun b hb => .inl hb) (fun b hb => ⟨id, id, fun _ => update_self .., id⟩)
    (fun _ => .inl) (fun _ => update_self ..) (fun j hj => by cases hj; rfl) (.inl rfl)
    (fun _ _ => ⟨hnew.live, htable, update_self .., hlist, htally⟩)
    (fun _ => .inl (hnew.total ▸ Nat.one_pos)) trivial rfl rfl rfl rfl rfl
  · by_cases hji : j = i
    · subst hji
      exact ⟨htable, htally⟩
    · exact hI.entered hj ((update_of_ne hji _ _).symm.trans hc)
  · obtain ⟨h1, h2, h3, h4, h5⟩ := hI.unused hj
    refine ⟨h1, h2, h3, h4, ?_⟩
    rw [← h5]
    refine update_of_ne (fun heq => ?_) _ _
    exact Nat.lt_irrefl _ (Nat.lt_of_lt_of_le hlt (heq ▸ hj))

theorem createStep_sound (hpc : p.pcs t = pc0)
    (hs : createStep hash t pc0 p.shared = some (ev, pc, s')) : Sound hash p t pc s' := by
  have hI := h.inv
  have ha := hpc ▸ h.asserts t
  have hL := ha.locals
  unfold createStep at hs
  split at hs
  · obtain ⟨s1, hl, ⟨⟩⟩ := map_eq_some_iff.mp hs
    exact .wrlock h hpc rfl hL hl rfl ⟨rfl, rfl⟩
  · dsimp only at hs
    rw [if_neg (hI.not_dangling fun i hi => hI.cached hi), hI.find_none hL.1.live hL.2.1] at hs
    cases hs
    exact .createInsert h hpc
  · cases hs
    exact .unlockExclusive h hpc rfl hL rfl rfl ⟨rfl, rfl⟩
  · cases hs
    exact .stay h hpc rfl hL rfl rfl hI.cached rfl
  · cases hs
    exact .createCount h hpc
  · cases hs
    exact .createTable h hpc
  · rw [hI.counts, hL.1.total, if_pos (by decide)] at hs
    cases hs
    exact .createCheck h hpc
  · cases hs

end Create

section Deallocate

variable {ev : List Event}

variable (h : Holds hash p)
include h

theorem Sound.freeRemove (hpc : p.pcs t = .freeRemove i) :
    Sound hash p t (.freeUnlock i) { p.shared with
      list := update p.shared.list (p.shared.bucket hash i)
        ((p.shared.list (p.shared.bucket hash i)).erase i)
      lastInodeTableEntry :=
        update p.shared.lastInodeTableEntry (p.shared.bucket hash i) none } := by
  have hI := h.inv
  have ha := hpc ▸ h.asserts t
  obtain ⟨hg, hzero⟩ := ha.locals
  have hmem : ∀ {b j}, j ∈ update p.shared.list (p.shared.bucket hash i)
      ((p.shared.list (p.shared.bucket hash i)).erase i) b ↔
      j ∈ p.shared.list b ∧ j ≠ i := by
    intro b j
    by_cases hb : b = p.shared.bucket hash i
    · subst hb
      rw [update_self, (hI.nodup _).mem_erase_iff, and_comm]
    rw [update_of_ne hb]
    refine ⟨fun hj => ⟨hj, ?_⟩, And.left⟩
    rintro rfl
    exact hb (hI.listed hj).2.symm
  have hclaim : (p.pcs t).claiming = some i := by rw [hpc]; rfl
  refine .touch h hpc ⟨rfl, rfl, rfl, rfl, rfl, rfl, fun b hb => ?_, fun j hj => ?_⟩
    (h.unclaimed_of_claiming hclaim hg.created)
    { hI with
      listed := fun hj => hI.listed (hmem.mp hj).1
      nodup := fun b => ?_
      cached := fun {b j} hj => ?_
      entered := fun hj hc => hI.entered (hmem.mp hj).1 hc }
    (fun b hb => .inr hzero) (fun b hb => ⟨id, id, id, id⟩)
    (fun b hb => .inl (hmem.mp hb).1) id (fun j hj => by cases hj) (.inl rfl)
    (fun hc => ?_) (fun _ => .inr rfl)
    ⟨hg.live, hg.table, hzero, fun b hb => (hmem.mp hb).2 rfl, hg.tallied⟩
    rfl rfl rfl rfl rfl
  · refine update_of_ne (fun heq => hb ?_) _ _
    rw [heq]
    exact (ha.writes _).mpr rfl
  · exact ⟨rfl, rfl, rfl, fun b => hmem.trans ⟨And.left, fun hm => ⟨hm, hj⟩⟩, Iff.rfl⟩
  · by_cases hb : b = p.shared.bucket hash i
    · subst hb
      simp only [update_self]
      exact (hI.nodup _).erase i
    · simp only [update_of_ne hb]
      exact hI.nodup b
  · refine hmem.mpr ?_
    by_cases hb : b = p.shared.bucket hash i
    · subst hb
      simp only [update_self] at hj
      cases hj
    · simp only [update_of_ne hb] at hj
      refine ⟨hI.cached hj, ?_⟩
      rintro rfl
      exact hb (hI.listed (hI.cached hj)).2.symm
  · have := p.shared.counted.le_total t i
    omega

theorem Sound.freeCount (hpc : p.pcs t = .freeCount i) :
    Sound hash p t (.freeObject i) { p.shared with
      inodeCount := p.shared.inodeCount - 1
      tallied := p.shared.tallied.erase i } := by
  have hI := h.inv
  have ha := hpc ▸ h.asserts t
  obtain ⟨hlive, htable, hzero, hlist, htally⟩ := ha.locals
  have hclaim : (p.pcs t).claiming = some i := by rw [hpc]; rfl
  refine .touch h hpc ⟨rfl, rfl, rfl, rfl, rfl, rfl, fun _ _ => rfl,
      fun j hj => ⟨rfl, rfl, rfl, fun _ => Iff.rfl, ?_⟩⟩ (h.unclaimed_of_free hclaim hzero)
    { hI with tally := ?_, entered := fun {b j} hj hc => ?_, unused := fun hj => ?_ }
    (fun b hb => .inl hb) (fun b hb => absurd hb (hlist b)) (fun _ => .inl) id
    (fun j hj => by cases hj) (.inl rfl) (fun hc => ?_) (fun _ => .inr rfl)
    ⟨hlive, hzero, hlist⟩ rfl rfl rfl rfl rfl
  · exact ⟨Finset.mem_of_mem_erase, Finset.mem_erase_of_ne_of_mem hj⟩
  · rw [Finset.card_erase_of_mem htally, hI.tally]
  · refine (hI.entered hj hc).imp_right fun hm => Finset.mem_erase_of_ne_of_mem ?_ hm
    rintro rfl
    exact hlist b hj
  · obtain ⟨h1, h2, h3, h4, h5⟩ := hI.unused hj
    exact ⟨h1, h2, h3, fun hm => h4 (Finset.mem_of_mem_erase hm), h5⟩
  · have := p.shared.counted.le_total t i
    omega

theorem Sound.freeObject (hpc : p.pcs t = .freeObject i) : Sound hash p t .idle { p.shared with
      live := update p.shared.live i false } := by
  have hI := h.inv
  have ha := hpc ▸ h.asserts t
  obtain ⟨hlive, hzero, hlist⟩ := ha.locals
  have hclaim : (p.pcs t).claiming = some i := by rw [hpc]; rfl
  have hwas : ∀ {j}, update p.shared.live i false j = true → p.shared.live j = true := by
    intro j hj
    by_cases hji : j = i
    · rw [hji]
      exact hlive
    · rwa [update_of_ne hji] at hj
  refine .touch h hpc ⟨rfl, rfl, rfl, rfl, rfl, rfl, fun _ _ => rfl,
      fun j hj => ⟨update_of_ne hj _ _, rfl, rfl, fun _ => Iff.rfl, Iff.rfl⟩⟩
    (h.unclaimed_of_free hclaim hzero)
    { hI with
      listed := fun {b j} hj => ?_
      numbers := fun hj hk => hI.numbers (hwas hj) (hwas hk)
      unused := fun {j} hj => ?_ }
    (fun b hb => .inl hb) (fun b hb => absurd hb (hlist b)) (fun _ => .inl) id
    (fun j hj => by cases hj) (.inr ⟨rfl, fun j hj => by cases hj; rfl⟩)
    (fun hc => ?_) (fun hg => absurd hg.listed (hlist _)) trivial rfl rfl rfl rfl rfl
  · have hji : j ≠ i := by
      rintro rfl
      exact hlist b hj
    exact ⟨(update_of_ne hji _ _).trans (hI.listed hj).1, (hI.listed hj).2⟩
  · obtain ⟨h1, h2, h3, h4, h5⟩ := hI.unused hj
    refine ⟨?_, h2, h3, h4, h5⟩
    have hji : j ≠ i := by
      rintro rfl
      rw [h1] at hlive
      cases hlive
    exact (update_of_ne hji _ _).trans h1
  · have := p.shared.counted.le_total t i
    omega

theorem deallocateStep_sound (hpc : p.pcs t = pc0)
    (hs : deallocateStep hash t pc0 p.shared = some (ev, pc, s')) : Sound hash p t pc s' := by
  have hI := h.inv
  have ha := hpc ▸ h.asserts t
  have hL := ha.locals
  unfold deallocateStep at hs
  split at hs
  · next i =>
    obtain ⟨hg, hzero⟩ := hL
    have hwriter : (p.shared.locks (p.shared.bucket hash i)).writer = some t :=
      (ha.writes _).mpr rfl
    dsimp only at hs
    rw [if_neg (by rw [hg.table]; decide), if_neg (by rw [hwriter]; exact nofun),
      if_neg (hI.not_dangling fun i hi => hI.cached hi), hI.find_self hg.listed] at hs
    cases hs
    exact .freeRemove h hpc
  · next i =>
    obtain ⟨rfl, rfl⟩ := inodeTableUnlock_inv hL.2.1 hs
    exact .unlockExclusive h hpc rfl hL rfl rfl ⟨rfl, rfl⟩
  · next i =>
    have hpos : p.shared.inodeCount ≠ 0 := by
      rw [hI.tally]
      exact Finset.card_ne_zero_of_mem hL.2.2.2.2
    rw [if_neg hpos] at hs
    cases hs
    exact .freeCount h hpc
  · cases hs
    exact .freeObject h hpc
  · cases hs

end Deallocate

/-! ### Calls -/

section Call

variable {a : Act θ} {ev : List Event}

theorem Pc.inode_of_role (h : pc.creating = some i ∨ pc.claiming = some i) : pc.inode = some i := by
  rcases h with h | h
  · cases pc <;> first | exact h | cases h
  · rcases claiming_cases h with h | h <;> cases pc <;> first | exact h | cases h

theorem Pc.inode_of_adding {r : Reason} (h : pc.adding = some (i, r)) : pc.inode = some i := by
  cases pc <;> cases h
  rfl

theorem Sound.hand (h : Holds hash p) (hpc : p.pcs t = .idle) {r : Reason} {k : Nat}
    (hk : k ≤ p.shared.noted t (i, r)) : Sound hash p t .idle (p.shared.hand t u i r k) := by
  have hI := h.inv
  have ha := hpc ▸ h.asserts t
  have hc : k ≤ p.shared.counted t i := ha.le_counted hk rfl rfl
  by_cases htu : t = u
  · subst htu
    have hself : p.shared.hand t t i r k = p.shared := by
      rw [hand, move_same hc, move_same hk]
    rw [hself]
    exact .stay h hpc rfl trivial rfl rfl hI.cached rfl
  have htotal := p.shared.counted.total_move hc (u := u)
  have htotal' := p.shared.noted.total_move hk (u := u)
  have hgood : ∀ {j}, Good hash p.shared j → Good hash (p.shared.hand t u i r k) j :=
    fun hg => { hg with }
  have hother : ∀ v j, ¬ (v = t ∧ j = i) → ¬ (v = u ∧ j = i) →
      (p.shared.hand t u i r k).counted v j = p.shared.counted v j ∧
      (p.shared.hand t u i r k).reasons v j = p.shared.reasons v j := by
    intro v j hv hv'
    refine ⟨move_other _ _ hv hv', reasons_congr fun r' => ?_⟩
    exact move_other _ _ (fun h => hv ⟨h.1, (Prod.mk.inj h.2).1⟩)
      fun h => hv' ⟨h.1, (Prod.mk.inj h.2).1⟩
  have hfrom : (p.shared.hand t u i r k).reasons t i + p.shared.noted t (i, r) =
      p.shared.reasons t i + (p.shared.noted t (i, r) - k) := by
    refine reasons_of_update (move_from _ htu _ _) fun r' hr => ?_
    exact move_other _ _ (fun h => hr (Prod.mk.inj h.2).2) fun h => hr (Prod.mk.inj h.2).2
  have hto : (p.shared.hand t u i r k).reasons u i + p.shared.noted u (i, r) =
      p.shared.reasons u i + (p.shared.noted u (i, r) + k) := by
    refine reasons_of_update (move_to _ htu _ _) fun r' hr => ?_
    exact move_other _ _ (fun h => hr (Prod.mk.inj h.2).2) fun h => hr (Prod.mk.inj h.2).2
  have hcfrom : (p.shared.hand t u i r k).counted t i = p.shared.counted t i - k :=
    move_from _ htu _ _
  have hcto : (p.shared.hand t u i r k).counted u i = p.shared.counted u i + k := move_to _ htu _ _
  refine ⟨{ hI with
      counts := fun j => (hI.counts j).trans (htotal j).symm
      reasons := fun j r' => (hI.reasons j r').trans (htotal' (j, r')).symm
      unused := fun {j} hj => ?_ },
    ⟨ha.reads, ha.writes, fun j => ?_, fun j hpos _ => ?_, trivial⟩,
    { Guarantee.refl hash p t with
      counted := fun v hv j => ?_
      noted := fun v hv q => ?_
      balance := fun v hv j => ?_
      gains := fun v hv j hlt => ?_
      fixed := fun v _ j _ => ⟨rfl, rfl, rfl, fun _ => Iff.rfl, Iff.rfl, htotal j⟩ },
    .of_none rfl, .of_none rfl, fun j hg => ?_, fun _ _ hm => .inl hm, fun _ => id⟩
  · obtain ⟨h1, h2, h3, h4⟩ := hI.unused hj
    exact ⟨h1, (htotal j).trans h2, fun r' => (htotal' (j, r')).trans (h3 r'), h4⟩
  · have hbal := ha.balance j
    by_cases hj : j = i
    · subst hj
      omega
    rw [(hother t j (fun h => hj h.2) fun h => hj h.2).1,
      (hother t j (fun h => hj h.2) fun h => hj h.2).2]
    exact hbal
  · refine hgood (ha.good_of_counted ?_ rfl)
    by_cases hj : j = i
    · subst hj
      omega
    · rwa [(hother t j (fun h => hj h.2) fun h => hj h.2).1] at hpos
  · by_cases hvj : v = u ∧ j = i
    · obtain ⟨rfl, rfl⟩ := hvj
      omega
    · exact Nat.le_of_eq (hother v j (fun h => hv h.1) hvj).1.symm
  · by_cases hvq : v = u ∧ q = (i, r)
    · obtain ⟨rfl, rfl⟩ := hvq
      have : (p.shared.hand t v i r k).noted v (i, r) = p.shared.noted v (i, r) + k :=
        move_to _ htu _ _
      omega
    · exact Nat.le_of_eq (move_other _ _ (fun h => hv h.1) hvq).symm
  · by_cases hvj : v = u ∧ j = i
    · obtain ⟨rfl, rfl⟩ := hvj
      omega
    · rw [(hother v j (fun h => hv h.1) hvj).1, (hother v j (fun h => hv h.1) hvj).2]
  · have hvj : v = u ∧ j = i := by
      by_contra hvj
      rw [(hother v j (fun h => hv h.1) hvj).1] at hlt
      exact Nat.lt_irrefl _ hlt
    obtain ⟨rfl, rfl⟩ := hvj
    exact hgood (ha.good_of_counted (by omega) rfl)
  · change 0 < (p.shared.counted.move t u i k).total j ∨ _
    rw [htotal j]
    exact h.claimed { hg with } (hpc ▸ id)

omit [Fintype θ] in
theorem Shared.create_counted (s : Shared θ) (n : BitVec 64)
    (h : ¬ (u = t ∧ j = s.next)) : (s.create n t).counted u j = s.counted u j :=
  (set_apply ..).trans (if_neg h)

omit [Fintype θ] in
theorem Shared.create_reasons (s : Shared θ) (n : BitVec 64)
    (h : ¬ (u = t ∧ j = s.next)) : (s.create n t).reasons u j = s.reasons u j :=
  reasons_congr fun _ =>
    (set_apply ..).trans (if_neg fun h' => h ⟨h'.1, (Prod.mk.inj h'.2).1⟩)

theorem Shared.create_sameAt (s : Shared θ) (n : BitVec 64) (t : θ)
    (h : j ≠ s.next) : SameAt s (s.create n t) j :=
  ⟨update_of_ne h _ _, update_of_ne h _ _, rfl, fun _ => Iff.rfl, Iff.rfl, total_set_other _ _ _ h⟩

omit [Fintype θ] in
theorem Shared.create_ino (s : Shared θ) (n : BitVec 64) (t : θ)
    (h : j ≠ s.next) : (s.create n t).ino j = s.ino j := update_of_ne h _ _

theorem Inv.create_total (hI : Inv hash s) (n : BitVec 64) (t : θ) :
    (s.create n t).counted.total s.next = 1 := by
  have hself := s.counted.total_set_self t s.next 1
  have hzero := (hI.unused (Nat.le_refl s.next)).2.1
  have := s.counted.eq_zero_of_total hzero t
  change (s.counted.set t s.next 1).total s.next = 1
  omega

theorem Inv.create_noted (hI : Inv hash s) (n : BitVec 64) (t : θ) (r : Reason) :
    (s.create n t).noted.total (s.next, r) = if r = Reason.lookup then 1 else 0 := by
  have hzero := (hI.unused (Nat.le_refl s.next)).2.2.1
  by_cases hr : r = Reason.lookup
  · subst hr
    have hself := s.noted.total_set_self t (s.next, .lookup) 1
    have := s.noted.eq_zero_of_total (hzero .lookup) t
    have := hzero .lookup
    rw [if_pos rfl]
    change (s.noted.set t (s.next, .lookup) 1).total (s.next, .lookup) = 1
    omega
  · rw [if_neg hr, ← hzero r]
    exact total_set_other _ _ _ fun h => hr (Prod.mk.inj h).2

omit [DecidableEq θ] in
theorem Inv.lt_next_of_mem (hI : Inv hash s) (h : i ∈ s.list b) : i ≠ s.next :=
  Nat.ne_of_lt (hI.lt_next (hI.listed h).1)

theorem Inv.create (hI : Inv hash s) {n : BitVec 64}
    (hnew : ∀ i < s.next, s.live i = true → s.ino i ≠ n) : Inv hash (s.create n t) := by
  have hlive : ∀ {j}, j ≠ s.next → (s.create n t).live j = true →
      j < s.next ∧ s.live j = true := fun hj hl => by
    have hl := (s.create_sameAt n t hj).live ▸ hl
    exact ⟨hI.lt_next hl, hl⟩
  refine ⟨hI.locks, fun j => ?_, fun j r => ?_, fun j r => ?_, fun {b j} hj => ?_,
    hI.nodup, hI.cached, fun {i j} hi hj heq => ?_, hI.tally, fun {b j} hj hc => ?_,
    fun {j} hj => ?_⟩
  · by_cases hj : j = s.next
    · subst hj
      rw [hI.create_total]
      exact update_self ..
    · rw [(s.create_sameAt n t hj).total, ← hI.counts]
      exact update_of_ne hj _ _
  · by_cases hj : j = s.next
    · subst hj
      rw [hI.create_noted]
      simp only [Shared.create, update_self]
    · have htotal : (s.create n t).noted.total (j, r) = s.noted.total (j, r) :=
        total_set_other _ _ _ fun h => hj (Prod.mk.inj h).1
      rw [htotal, ← hI.reasons]
      exact congrFun (update_of_ne hj _ _) r
  · by_cases hj : j = s.next
    · subst hj
      simp only [Shared.create, update_self]
      split <;> decide
    · simp only [Shared.create, update_of_ne hj]
      exact hI.fits j r
  · have hne := hI.lt_next_of_mem hj
    refine ⟨(s.create_sameAt n t hne).live.trans (hI.listed hj).1, ?_⟩
    rw [bucket, s.create_ino n t hne]
    exact (hI.listed hj).2
  · have hself : (s.create n t).ino s.next = n := update_self ..
    by_cases hin : i = s.next <;> by_cases hjn : j = s.next
    · rw [hin, hjn]
    · obtain ⟨hlt, hl⟩ := hlive hjn hj
      rw [hin, hself, s.create_ino n t hjn] at heq
      exact absurd heq.symm (hnew j hlt hl)
    · obtain ⟨hlt, hl⟩ := hlive hin hi
      rw [hjn, hself, s.create_ino n t hin] at heq
      exact absurd heq (hnew i hlt hl)
    · rw [s.create_ino n t hin, s.create_ino n t hjn] at heq
      exact hI.numbers (hlive hin hi).2 (hlive hjn hj).2 heq
  · have hne := hI.lt_next_of_mem hj
    exact (hI.entered hj hc).imp_left (s.create_sameAt n t hne).table.trans
  · have hlt : s.next < j := hj
    have hne : j ≠ s.next := Nat.ne_of_gt hlt
    obtain ⟨h1, h2, h3, h4⟩ := hI.unused (Nat.le_of_lt hlt)
    refine ⟨(s.create_sameAt n t hne).live.trans h1,
      (s.create_sameAt n t hne).total.trans h2, fun r => ?_, h4⟩
    rw [← h3 r]
    exact total_set_other _ _ _ fun h => hne (Prod.mk.inj h).1

theorem Sound.create (h : Holds hash p) (hpc : p.pcs t = .idle) {n : BitVec 64}
    (hnew : ∀ i < p.shared.next, p.shared.live i = true → p.shared.ino i ≠ n) :
    Sound hash p t (.createLock p.shared.next) (p.shared.create n t) := by
  have hI := h.inv
  have ha := hpc ▸ h.asserts t
  obtain ⟨hdead, hzero, hnone, htally, hcreated⟩ := hI.unused (Nat.le_refl p.shared.next)
  have hlisted : ∀ b, p.shared.next ∉ p.shared.list b := fun b hm => hI.lt_next_of_mem hm rfl
  have hcself : (p.shared.create n t).counted t p.shared.next = 1 :=
    (set_apply ..).trans (if_pos ⟨rfl, rfl⟩)
  have hself : (p.shared.create n t).reasons t p.shared.next +
      p.shared.noted t (p.shared.next, .lookup) =
      p.shared.reasons t p.shared.next + 1 := by
    refine reasons_of_update ((set_apply ..).trans (if_pos ⟨rfl, rfl⟩)) fun r hr => ?_
    exact (set_apply ..).trans (if_neg fun h => hr (Prod.mk.inj h.2).2)
  have hgood : ∀ {j}, Good hash p.shared j → Good hash (p.shared.create n t) j := fun hg => by
      have hne := hI.lt_next_of_mem hg.listed
      exact (p.shared.create_sameAt n t hne).good (p.shared.create_ino n t hne) hg
  have hrole : ∀ {v j}, (p.pcs v).inode = some j → j ≠ p.shared.next :=
    fun hj => Nat.ne_of_lt ((h.asserts _).bounded hI hj)
  refine ⟨hI.create hnew, ⟨ha.reads, ha.writes, fun j => ?_, fun j hpos hne => ?_,
      ⟨⟨update_self .., hcreated, hI.create_total n t, ?_⟩, hlisted, htally⟩⟩,
    { Guarantee.refl hash p t with
      counted := fun v hv j => ?_
      noted := fun v hv k => ?_
      balance := fun v hv j => ?_
      gains := fun v hv j hlt => ?_
      next := Nat.le_succ _
      ino := fun j hj => ?_
      keeps := fun b j hj => ?_
      fixed := fun v hv j hr => ?_
      reasons := fun v hv j r hr => ?_ },
    .of_none rfl, .of_none rfl, fun j hg => ?_, fun _ _ hm => .inl hm, fun _ => id⟩
  · by_cases hj : j = p.shared.next
    · subst hj
      have hbal := ha.balance p.shared.next
      have := p.shared.counted.eq_zero_of_total hzero t
      have := p.shared.noted.eq_zero_of_total (hnone .lookup) t
      simp only [owed, ahead] at hbal ⊢
      omega
    · rw [p.shared.create_counted n fun h => hj h.2, p.shared.create_reasons n fun h => hj h.2]
      exact ha.balance j
  · have hj : j ≠ p.shared.next := fun heq => hne (heq ▸ rfl)
    rw [p.shared.create_counted n fun h => hj h.2] at hpos
    exact hgood (ha.good_of_counted hpos rfl)
  · rw [hcself]
    exact Nat.one_pos
  · exact Nat.le_of_eq (p.shared.create_counted n fun h => hv h.1).symm
  · exact Nat.le_of_eq (set_other _ _ _ _ hv).symm
  · rw [p.shared.create_counted n fun h => hv h.1, p.shared.create_reasons n fun h => hv h.1]
  · rw [p.shared.create_counted n fun h => hv h.1] at hlt
    exact absurd hlt (Nat.lt_irrefl _)
  · exact p.shared.create_ino n t (Nat.ne_of_lt hj)
  · have hsame := p.shared.create_sameAt n t (hI.lt_next_of_mem hj)
    exact ⟨hsame.live.trans, hsame.table.trans, hsame.created.trans, hsame.tallied.mpr⟩
  · exact p.shared.create_sameAt n t (hrole (inode_of_role hr))
  · refine Nat.le_of_eq (congrFun (update_of_ne ?_ _ _) r)
    exact hrole (inode_of_adding hr)
  · have hne : j ≠ p.shared.next := hI.lt_next_of_mem hg.listed
    have hsame := p.shared.create_sameAt n t hne
    have hg : Good hash p.shared j := by
      refine ⟨hsame.live ▸ hg.live, hsame.table ▸ hg.table, hg.created, ?_, hg.tallied⟩
      have hl := hg.listed
      rwa [bucket, p.shared.create_ino n t hne] at hl
    rw [hsame.total]
    exact h.claimed hg (hpc ▸ id)

theorem callStep_sound (h : Holds hash p) (hpc : p.pcs t = .idle) (hu : Undisturbed p (t, a))
    (hs : callStep t a p.shared = some (ev, pc, s')) : Sound hash p t pc s' := by
  have hI := h.inv
  have ha := hpc ▸ h.asserts t
  rw [Undisturbed, hpc] at hu
  unfold callStep at hs
  split at hs
  · next n =>
    split at hs
    · cases hs
    rw [if_neg hu.1] at hs
    cases hs
    exact .create h hpc hu.2
  · next n =>
    rw [if_neg hu] at hs
    cases hs
    exact .stay h hpc rfl trivial rfl rfl hI.cached rfl
  · next i r =>
    split at hs
    · cases hs
    next hc =>
    cases hs
    have hpos := Nat.pos_of_ne_zero hc
    exact .stay h hpc rfl hpos rfl rfl hI.cached rfl
  · next i r bias =>
    split at hs
    · cases hs
    next hc =>
    cases hs
    have hpos : 0 < p.shared.counted t i := by omega
    exact .stay h hpc rfl ⟨by omega, hpos⟩ rfl rfl hI.cached rfl
  · next u i r k =>
    split at hs
    · cases hs
    next hk =>
    cases hs
    exact .hand h hpc (Nat.le_of_not_lt hk)
  · cases hs

end Call

/-! ## Runs -/

section Runs

variable {a : θ × Act θ} {ev : List Event} {p' : Pool θ Pc (Shared θ)}

theorem exec_sound {x : Act θ} (h : Holds hash p) (hu : Undisturbed p (t, x))
    (hs : exec hash t x (p.pcs t) p.shared = some (ev, pc, s')) : Sound hash p t pc s' := by
  have hlive : ¬ ∃ i ∈ (p.pcs t).object, p.shared.live i = false := by
    rintro ⟨i, hi, hdead⟩
    rw [(h.asserts t).object_live h.inv hi] at hdead
    cases hdead
  unfold exec at hs
  rw [if_neg hlive] at hs
  split at hs
  · next hpc => exact callStep_sound h hpc hu hs
  · cases hs
  all_goals first
    | exact createStep_sound h rfl hs
    | exact lookupStep_sound h rfl hs
    | exact referenceStep_sound h rfl hu hs
    | exact dereferenceStep_sound h rfl hs
    | exact deallocateStep_sound h rfl hs

omit [Fintype θ] [DecidableEq θ] in
theorem event_of_map {o : Option (Shared θ)} {pc1 : Pc}
    (hs : (o.map fun s' => (([] : List Event), pc1, s')) = some (ev, pc, s')) : ev = [] := by
  obtain ⟨_, -, ⟨⟩⟩ := map_eq_some_iff.mp hs
  rfl

/-- The only step with an event is the removal of an inode from the table. -/
theorem exec_event {x : Act θ} (hs : exec hash t x pc0 s = some (ev, pc, s')) :
    ev = [] ∨ ∃ i, pc0 = .freeRemove i ∧ pc = .freeUnlock i ∧
      ev = [.deallocated i (s.counted.total i)] := by
  cases pc0 with
  | freeRemove i =>
    simp only [exec, deallocateStep] at hs
    repeat' split at hs
    all_goals cases hs
    all_goals first | exact .inl rfl | exact .inr ⟨i, rfl, rfl, rfl⟩
  | _ =>
    left
    simp only [exec, callStep, createStep, lookupStep, referenceStep, dereferenceStep,
      deallocateStep, inodeTableLock, inodeTableUnlock] at hs
    repeat' split at hs
    all_goals first | (cases hs <;> rfl) | exact event_of_map hs

def Event.inode : Event → Nat
  | .deallocated i _ => i

variable (hash) in
/-- The state after the events `tr`. -/
structure Reached (tr : List Event) (p : Pool θ Pc (Shared θ)) : Prop where
  holds : Holds hash p
  outstanding : ∀ i n, .deallocated i n ∈ tr → n = 0
  gone : ∀ i n, .deallocated i n ∈ tr → p.shared.created i = true ∧ ∀ b, i ∉ p.shared.list b
  once : (tr.map Event.inode).Nodup

theorem reached_nil : Reached hash [] (start θ) := by
  have hz : ∀ i, (start θ).shared.counted.total i = 0 := fun _ => Finset.sum_const_zero
  have hn : ∀ k, (start θ).shared.noted.total k = 0 := fun _ => Finset.sum_const_zero
  refine ⟨⟨⟨fun _ h => absurd rfl h, fun i => (hz i).symm, fun i r => (hn (i, r)).symm,
      fun _ _ => Nat.two_pow_pos 32, nofun, fun _ => nodup_nil, nofun,
      nofun, rfl, nofun,
      fun {i} _ => ⟨rfl, hz i, fun r => hn (i, r), Finset.notMem_empty i, rfl⟩⟩,
    fun t => ⟨fun b => rfl, fun b => ⟨nofun, nofun⟩, fun i => rfl,
      fun i h => absurd h (Nat.lt_irrefl 0), trivial⟩,
    fun t u k h => (nomatch h), fun t u k h => (nomatch h),
    fun i h => (nomatch h.live)⟩, fun i n h => (nomatch h), fun i n h => (nomatch h),
    nodup_nil⟩

theorem Reached.step {tr : List Event} (h : Reached hash tr p) (hu : Undisturbed p a)
    (hs : step (exec hash) p a = some (ev, p')) : Reached hash (tr ++ ev) p' := by
  obtain ⟨pc, s', he, rfl⟩ := step_inv hs
  have hsound := exec_sound h.holds hu he
  have hholds := hsound.holds h.holds
  -- an inode that has left the table does not come back
  have hgone : ∀ i, p.shared.created i = true → (∀ b, i ∉ p.shared.list b) →
      s'.created i = true ∧ ∀ b, i ∉ s'.list b := by
    intro i hc hl
    refine ⟨hsound.created i hc, fun b hb => ?_⟩
    rcases hsound.entered b i hb with hb | hnew
    · exact hl b hb
    · cases hc.symm.trans hnew
  rcases exec_event he with rfl | ⟨i, hpc, rfl, rfl⟩
  · rw [append_nil]
    exact ⟨hholds, h.outstanding, fun i n hm =>
      hgone i (h.gone i n hm).1 (h.gone i n hm).2, h.once⟩
  obtain ⟨hg, hzero⟩ := (hpc ▸ h.holds.asserts a.1).locals
  rw [hzero]
  have hfresh : i ∉ tr.map Event.inode := by
    intro hm
    obtain ⟨⟨j, n⟩, hmem, rfl⟩ := mem_map.mp hm
    exact (h.gone j n hmem).2 _ hg.listed
  have hL := (hholds.asserts a.1).locals
  rw [set_pcs_self] at hL
  have hcases : ∀ {j n}, .deallocated j n ∈ tr ++ [Event.deallocated i 0] →
      .deallocated j n ∈ tr ∨ j = i ∧ n = 0 := by
    intro j n hm
    rcases mem_append.mp hm with hm | hm
    · exact .inl hm
    · cases mem_singleton.mp hm
      exact .inr ⟨rfl, rfl⟩
  refine ⟨hholds, fun j n hm => ?_, fun j n hm => ?_, ?_⟩
  · rcases hcases hm with hm | ⟨-, rfl⟩
    · exact h.outstanding j n hm
    · rfl
  · rcases hcases hm with hm | ⟨rfl, -⟩
    · exact hgone j (h.gone j n hm).1 (h.gone j n hm).2
    · exact ⟨hsound.created j hg.created, hL.2.2.2.1⟩
  rw [map_append]
  refine nodup_append.mpr ⟨h.once, nodup_singleton _, ?_⟩
  rintro x hx y hy rfl
  rw [mem_singleton.mp hy] at hx
  exact hfresh hx

end Runs

end Steps

variable {θ : Type} [Fintype θ] [DecidableEq θ]

/-- No assertion has failed and no freed memory was used, every inode was
deallocated at most once and without outstanding references, and a thread that
is not inside a call holds no lock. -/
structure Safe (tr : List Event) (p : Pool θ Pc (Shared θ)) : Prop where
  asserts : ∀ t f, p.pcs t ≠ .failed f
  once : (tr.map Event.inode).Nodup
  outstanding : ∀ i n, .deallocated i n ∈ tr → n = 0
  unlocked : ∀ t, p.pcs t = .idle → ∀ b,
    (p.shared.locks b).writer ≠ some t ∧ t ∉ (p.shared.locks b).readers

theorem Reached.safe {hash : BitVec 64 → Nat} {tr : List Event}
    {p : Pool θ Pc (Shared θ)} (h : Reached hash tr p) : Safe tr p := by
  refine ⟨fun t f hpc => ?_, h.once, h.outstanding, fun t hpc b => ⟨?_, ?_⟩⟩
  · have hL := (h.holds.asserts t).locals
    rw [hpc] at hL
    exact hL
  · rw [Ne, (h.holds.asserts t).writes, hpc]
    exact nofun
  · rw [← count_eq_zero, (h.holds.asserts t).reads, hpc]
    rfl

/-- Every run of any number of threads whose steps are all undisturbed is
safe, whatever the hash function. -/
theorem inodes_safe (hash : BitVec 64 → Nat) {as : List (θ × Act θ)} {tr : List Event}
    {p : Pool θ Pc (Shared θ)} (hr : run (step (exec hash)) (start θ) as = some (tr, p))
    (hu : Along (step (exec hash)) Undisturbed (start θ) as) : Safe tr p := by
  have h : Reached hash ([] ++ tr) p := run_history
    (fun _ _ _ _ _ h hu hs => Reached.step h hu hs) reached_nil hr hu
  exact h.safe

/-- In the runs below there is one inode, so one bucket is enough. -/
def oneBucket : BitVec 64 → Nat := fun _ => 0

/-- A call of thread `t` and the `n` steps that follow. -/
def calls (t : Fin 2) (a : Act (Fin 2)) (n : Nat) : List (Fin 2 × Act (Fin 2)) :=
  (t, a) :: replicate n (t, .next)

/-- Calls of both threads whose next `n` steps take turns. -/
def together (a b : Act (Fin 2)) (n : Nat) : List (Fin 2 × Act (Fin 2)) :=
  (0, a) :: (1, b) :: (replicate n [(0, Act.next), (1, .next)]).flatten

/-- Both threads use an inode that one of them has created, and both drop it. -/
def shareInode : List (Fin 2 × Act (Fin 2)) :=
  calls 0 (.create 5) 7 ++ together (.reference 0 .fuseOpen) (.lookup 5) 5 ++
    replicate 5 (1, .next) ++ calls 0 (.hand 1 0 .fuseOpen 1) 0 ++
    together (.dereference 0 .lookup 1) (.dereference 0 .fuseOpen 1) 6 ++
    calls 1 (.dereference 0 .lookup 1) 13

theorem inodes_safe_shareInode : ∃ p, run (step (exec oneBucket)) (start (Fin 2)) shareInode =
      some ([.deallocated 0 0], p) ∧ p.pcs 1 = .idle ∧ Safe [.deallocated 0 0] p := by
  have hrun : ((run (step (exec oneBucket)) (start (Fin 2)) shareInode).map
      fun q => (q.1, q.2.pcs 1)) = some ([.deallocated 0 0], .idle) := by decide +kernel
  obtain ⟨⟨tr, p⟩, hr, hq⟩ := map_eq_some_iff.mp hrun
  simp only [Prod.mk.injEq] at hq
  obtain ⟨rfl, hpc⟩ := hq
  have hu : check (step (exec oneBucket)) (fun p a => Undisturbed p a)
    (start (Fin 2)) shareInode = true := by decide +kernel
  exact ⟨p, hr, hpc, inodes_safe oneBucket hr (along_of_decide hu)⟩

/-! ## Runs that are disturbed -/

/-- Thread 1 takes a reference while thread 0 stands between the two halves of
its decrement. -/
def lookupAtZero : List (Fin 2 × Act (Fin 2)) :=
  calls 0 (.create 5) 7 ++ calls 0 (.dereference 0 .lookup 1) 4 ++ calls 1 (.lookup 5) 9

/-- Thread 1 takes a reference after thread 0 has seen that it has the last
one. -/
def lookupAtLast : List (Fin 2 × Act (Fin 2)) :=
  calls 0 (.create 5) 7 ++ calls 0 (.dereference 0 .lookup 1) 6 ++
    calls 1 (.lookup 5) 10 ++ replicate 3 (0, .next)

/-- Thread 1 finds the inode before its `Table` is set. -/
def lookupAtInsert : List (Fin 2 × Act (Fin 2)) :=
  calls 0 (.create 5) 3 ++ calls 1 (.lookup 5) 5

/-- Thread 1 takes a reference before thread 0 checks the count of its new
inode. -/
def lookupAtCheck : List (Fin 2 × Act (Fin 2)) :=
  calls 0 (.create 5) 6 ++ calls 1 (.lookup 5) 6 ++ [(0, .next)]

/-- Thread 1 adds references while thread 0 is between the two counts that it
adds to. -/
def referenceBetween : List (Fin 2 × Act (Fin 2)) :=
  calls 0 (.create 5) 7 ++ calls 1 (.lookup 5) 10 ++
    calls 0 (.reference 0 .lookup) 2 ++ calls 1 (.reference 0 .lookup) 5 ++
    replicate 3 (0, .next)

/-- Where thread `t` is after a run, and whether it has the bucket of inode
number 5 locked for changes. -/
def outcome (t : Fin 2) (as : List (Fin 2 × Act (Fin 2))) : Option (Pc × Bool) :=
  (run (step (exec oneBucket)) (start (Fin 2)) as).map fun q =>
    (q.2.pcs t, decide ((q.2.shared.locks (oneBucket 5)).writer = some t))

/-- The asserts that fail, and the dereference that returns with the lock. -/
theorem disturbed_runs : outcome 1 lookupAtZero = some (.failed .zeroToOne, false) ∧
    outcome 0 lookupAtLast = some (.idle, true) ∧
    outcome 1 lookupAtInsert = some (.failed .noTable, false) ∧
    outcome 0 lookupAtCheck = some (.failed .countNotOne, false) ∧
    outcome 0 referenceBetween = some (.failed .reasonAboveCount, false) := by
  decide +kernel

end Finesse.Bitbucket.Threads
