import Finesse.Lib.Pool
import Finesse.Bitbucket.InodeTable

/-!
# New inode numbers

`get_new_inode_number` draws a first number and a bias and then adds the bias for
every number that it hands out. Both are below `2 ^ 31`, so `2 ^ 33` numbers do not
wrap around, and they are different (`inode_numbers_distinct`). But nothing keeps
one of them from being the number of the root, and a table may be larger than
`hash_inode` supports (`table_calls_succeed_iff`).
-/

namespace Finesse.Bitbucket.InodeTable

open Prog List Machine Option

variable {θ : Type}

/-- The static variables of `get_new_inode_number`. -/
structure Generator (θ : Type) where
  initialized : Bool
  initLock : Option θ
  lastInodeNumber : BitVec 64
  inodeBias : BitVec 64

/-- `__atomic_fetch_add` of the bias. Zero is not handed out. -/
def Generator.fetch (g : Generator θ) : Option (BitVec 64) × Generator θ :=
  (if g.lastInodeNumber = 0#64 then none else some g.lastInodeNumber,
    { g with lastInodeNumber := g.lastInodeNumber + g.inodeBias })

inductive NumberPc where
  | idle
  /-- the first test of `initialized` -/
  | test
  | lock
  /-- the test of `initialized` with the lock -/
  | loop
  /-- about to draw `last_inode_number` -/
  | start
  /-- the test of `inode_bias` -/
  | bias
  | draw
  | done
  | unlock
  | fetch
deriving DecidableEq, Repr

inductive NumberAct where
  | call
  | next
  /-- a step with the value of `random()` -/
  | random (value : BitVec 31)
deriving DecidableEq, Repr

/-- A step of `get_new_inode_number`. The events are the numbers that are returned. -/
def getNewInodeNumber [DecidableEq θ] (t : θ) (a : NumberAct) (pc : NumberPc) (s : Generator θ) :
    Option (List (BitVec 64) × NumberPc × Generator θ) :=
  match pc, a with
  | .idle, .call => some ([], .test, s)
  | .test, .next => some ([], if s.initialized then .fetch else .lock, s)
  | .lock, .next =>
    if s.initLock = none then some ([], .loop, { s with initLock := some t }) else none
  | .loop, .next => some ([], if s.initialized then .unlock else .start, s)
  | .start, .random v => some ([], .bias, { s with lastInodeNumber := v.setWidth 64 })
  | .bias, .next => some ([], if s.inodeBias = 0#64 then .draw else .done, s)
  | .draw, .random v => some ([], .bias, { s with inodeBias := v.setWidth 64 })
  | .done, .next => some ([], .loop, { s with initialized := true })
  | .unlock, .next => some ([], .fetch, { s with initLock := none })
  | .fetch, .next =>
    some (s.fetch.1.toList, if s.fetch.1 = none then .fetch else .idle, s.fetch.2)
  | _, _ => none

/-! ## Distinct numbers -/

/-- The numbers in `history` were handed out. As long as they are few, they are below
the next one, which has not wrapped around. -/
structure Handed (history : List (BitVec 64)) (last bias : BitVec 64) : Prop where
  nonzero : 0#64 ∉ history
  distinct : (history.take (2 ^ 33)).Nodup
  below : history.length ≤ 2 ^ 33 → (∀ n ∈ history, n.toNat < last.toNat) ∧
    last.toNat < 2 ^ 31 + (history.length + 1) * bias.toNat

section Handed

variable {history : List (BitVec 64)} {last bias : BitVec 64}

theorem Handed.add (hbias : bias.toNat < 2 ^ 31) {k : Nat} (hk : k ≤ 2 ^ 33)
    (hlast : last.toNat < 2 ^ 31 + (k + 1) * bias.toNat) :
    (last + bias).toNat = last.toNat + bias.toNat := by
  have hprod : (k + 1) * bias.toNat ≤ (2 ^ 33 + 1) * (2 ^ 31 - 1) :=
    Nat.mul_le_mul (by omega) (by omega)
  rw [BitVec.toNat_add, Nat.mod_eq_of_lt (by omega)]

theorem Handed.skip (h : Handed history 0#64 bias) : Handed history (0#64 + bias) bias := by
  refine ⟨h.nonzero, h.distinct, fun hlen => ?_⟩
  rw [BitVec.zero_add]
  have hmul := Nat.add_one_mul history.length bias.toNat
  exact ⟨fun n hn => absurd ((h.below hlen).1 n hn) (Nat.not_lt_zero _), by omega⟩

theorem Handed.next (h : Handed history last bias) (hbias : bias.toNat < 2 ^ 31)
    (hpos : bias ≠ 0#64) (hlast : last ≠ 0#64) : Handed (history ++ [last]) (last + bias) bias := by
  have hzero : 0#64 ∉ history ++ [last] := by
    rw [mem_append, mem_singleton]
    exact fun hm => hm.elim h.nonzero fun heq => hlast heq.symm
  by_cases hlen : history.length < 2 ^ 33
  · obtain ⟨hlt, hbound⟩ := h.below (Nat.le_of_lt hlen)
    have hadd := Handed.add hbias (Nat.le_of_lt hlen) hbound
    have hmul := Nat.add_one_mul (history.length + 1) bias.toNat
    have hpos : 0 < bias.toNat := Nat.pos_of_ne_zero fun h0 => hpos (BitVec.eq_of_toNat_eq h0)
    refine ⟨hzero, ?_, fun _ => ⟨fun n hn => ?_, ?_⟩⟩
    · rw [take_of_length_le (by rw [length_append, length_singleton]; omega)]
      have hnodup := h.distinct
      rw [take_of_length_le (Nat.le_of_lt hlen)] at hnodup
      refine nodup_append.mpr ⟨hnodup, nodup_singleton last, fun n hn m hm heq => ?_⟩
      rw [mem_singleton.mp hm] at heq
      exact Nat.lt_irrefl _ (heq ▸ hlt n hn)
    · rw [hadd]
      rcases mem_append.mp hn with hn | hn
      · have := hlt n hn
        omega
      · rw [mem_singleton.mp hn]
        omega
    · rw [hadd, length_append, length_singleton]
      omega
  · refine ⟨hzero, ?_, fun hle => absurd hle ?_⟩
    · rw [take_append_of_le_length (by omega)]
      exact h.distinct
    · rw [length_append, length_singleton]
      omega

end Handed

/-- What a thread knows at its place. -/
def NumberPc.Knows (t : θ) (s : Generator θ) : NumberPc → Prop
  | .idle | .test | .lock => True
  | .loop => s.initLock = some t
  | .start => s.initLock = some t ∧ s.initialized = false
  | .bias | .draw =>
    s.initLock = some t ∧ s.initialized = false ∧ s.lastInodeNumber.toNat < 2 ^ 31
  | .done => s.initLock = some t ∧ s.initialized = false ∧ s.lastInodeNumber.toNat < 2 ^ 31 ∧
    s.inodeBias ≠ 0#64
  | .unlock => s.initLock = some t ∧ s.initialized = true
  | .fetch => s.initialized = true

/-- The state after the numbers in `history` were handed out. -/
structure Numbered (history : List (BitVec 64)) (p : Pool θ NumberPc (Generator θ)) : Prop where
  bias : p.shared.inodeBias.toNat < 2 ^ 31
  empty : p.shared.initialized = false → history = []
  handed : p.shared.initialized = true → p.shared.inodeBias ≠ 0#64 ∧
    Handed history p.shared.lastInodeNumber p.shared.inodeBias
  knows : ∀ t, (p.pcs t).Knows t p.shared

/-- What a step of `t` leaves to the other threads. -/
def Generator.Leaves (t : θ) (s s' : Generator θ) : Prop :=
  s' = s ∨ s.initLock = none ∧ s'.initialized = s.initialized ∨
    s.initLock = some t ∧ (s.initialized = true → s'.initialized = true) ∨
    s.initialized = true ∧ s'.initialized = true ∧ s'.initLock = s.initLock

theorem NumberPc.Knows.stable {t u : θ} (hu : u ≠ t) {s s' : Generator θ} {pc : NumberPc}
    (h : pc.Knows u s) (hl : Generator.Leaves t s s') : pc.Knows u s' := by
  rcases hl with rfl | ⟨hfree, hinit⟩ | ⟨hown, hinit⟩ | ⟨hinit, hinit', hlock⟩
  · exact h
  · cases pc with
    | idle | test | lock => trivial
    | fetch => exact hinit.trans h
    | loop => exact nomatch hfree.symm.trans h
    | start | bias | draw | done | unlock => exact nomatch hfree.symm.trans h.1
  · have hne : s.initLock ≠ some u := fun hlock =>
      hu (mem_unique hlock hown)
    cases pc with
    | idle | test | lock => trivial
    | fetch => exact hinit h
    | loop => exact absurd h hne
    | start | bias | draw | done | unlock => exact absurd h.1 hne
  · cases pc with
    | idle | test | lock => trivial
    | fetch => exact hinit'
    | loop => exact hlock.trans h
    | start => exact nomatch hinit.symm.trans h.2
    | bias | draw | done => exact nomatch hinit.symm.trans h.2.1
    | unlock => exact ⟨hlock.trans h.1, hinit'⟩

section Runs

variable [DecidableEq θ] {p p' : Pool θ NumberPc (Generator θ)} {history ev : List (BitVec 64)}

theorem Numbered.set {t : θ} {pc : NumberPc} {s : Generator θ} {history' : List (BitVec 64)}
    (h : Numbered history p) (hl : Generator.Leaves t p.shared s)
    (hbias : s.inodeBias.toNat < 2 ^ 31) (hempty : s.initialized = false → history' = [])
    (hhanded : s.initialized = true → s.inodeBias ≠ 0#64 ∧
      Handed history' s.lastInodeNumber s.inodeBias)
    (hknows : pc.Knows t s) : Numbered history' (p.set t pc s) :=
  ⟨hbias, hempty, hhanded, Pool.asserts_set (A := fun t pc s => NumberPc.Knows t s pc) hknows
    fun u hu => (h.knows u).stable hu hl⟩

theorem toNat_random (v : BitVec 31) : (v.setWidth 64).toNat < 2 ^ 31 := by
  rw [BitVec.toNat_setWidth, Nat.mod_eq_of_lt (Nat.lt_trans v.isLt (by decide))]
  exact v.isLt

theorem Numbered.step {a : θ × NumberAct} (h : Numbered history p)
    (hs : Pool.step getNewInodeNumber p a = some (ev, p')) : Numbered (history ++ ev) p' := by
  obtain ⟨pc, s, he, rfl⟩ := Pool.step_inv hs
  obtain ⟨t, a⟩ := a
  have hk := h.knows t
  have hstay : ∀ {pc' : NumberPc}, pc'.Knows t p.shared →
      Numbered (history ++ []) (p.set t pc' p.shared) := fun hk => by
    rw [append_nil]
    exact h.set (.inl rfl) h.bias h.empty h.handed hk
  dsimp only at he
  generalize p.pcs t = pc₀ at he hk
  cases pc₀ with
  | idle =>
    cases a <;> cases he
    exact hstay trivial
  | test =>
    cases a <;> cases he
    refine hstay ?_
    split
    · next hinit => exact hinit
    · trivial
  | lock =>
    cases a with
    | call | random => cases he
    | next =>
      obtain ⟨hfree, he⟩ := ite_none_right_eq_some.mp he
      cases he
      rw [append_nil]
      exact h.set (.inr (.inl ⟨hfree, rfl⟩)) h.bias h.empty h.handed rfl
  | loop =>
    cases a <;> cases he
    refine hstay ?_
    split
    · next hinit => exact ⟨hk, hinit⟩
    · next hinit => exact ⟨hk, (Bool.not_eq_true _).mp hinit⟩
  | start =>
    cases a <;> cases he
    obtain ⟨hlock, hinit⟩ := hk
    rw [append_nil]
    refine h.set (.inr (.inr (.inl ⟨hlock, id⟩))) h.bias h.empty (fun hi => ?_)
      ⟨hlock, hinit, toNat_random _⟩
    exact nomatch hinit.symm.trans hi
  | bias =>
    cases a <;> cases he
    obtain ⟨hlock, hinit, hlast⟩ := hk
    refine hstay ?_
    split
    · exact ⟨hlock, hinit, hlast⟩
    · next hne => exact ⟨hlock, hinit, hlast, hne⟩
  | draw =>
    cases a <;> cases he
    obtain ⟨hlock, hinit, hlast⟩ := hk
    rw [append_nil]
    refine h.set (.inr (.inr (.inl ⟨hlock, id⟩))) (toNat_random _) h.empty (fun hi => ?_)
      ⟨hlock, hinit, hlast⟩
    exact nomatch hinit.symm.trans hi
  | done =>
    cases a <;> cases he
    obtain ⟨hlock, hinit, hlast, hne⟩ := hk
    rw [append_nil, h.empty hinit]
    refine h.set (.inr (.inr (.inl ⟨hlock, fun _ => rfl⟩))) h.bias nofun (fun _ => ⟨hne, ?_⟩) hlock
    exact ⟨not_mem_nil, nodup_nil,
      fun _ => ⟨nofun, Nat.lt_of_lt_of_le hlast (Nat.le_add_right _ _)⟩⟩
  | unlock =>
    cases a <;> cases he
    obtain ⟨hlock, hinit⟩ := hk
    rw [append_nil]
    exact h.set (.inr (.inr (.inl ⟨hlock, id⟩))) h.bias h.empty h.handed hinit
  | fetch =>
    cases a <;> cases he
    have hinit : p.shared.initialized = true := hk
    obtain ⟨hpos, hhanded⟩ := h.handed hinit
    have hleave : Generator.Leaves t p.shared p.shared.fetch.2 :=
      .inr (.inr (.inr ⟨hinit, hinit, rfl⟩))
    have hempty : p.shared.fetch.2.initialized = false → history ++ p.shared.fetch.1.toList = [] :=
      fun hi => nomatch hinit.symm.trans hi
    by_cases hzero : p.shared.lastInodeNumber = 0#64
    · have hnone : p.shared.fetch.1 = none := if_pos hzero
      rw [hnone] at hempty ⊢
      refine h.set hleave h.bias hempty (fun _ => ⟨hpos, ?_⟩) hinit
      rw [hzero] at hhanded
      have hskip := hhanded.skip
      rw [← hzero] at hskip
      rw [toList_none, append_nil]
      exact hskip
    · have hsome : p.shared.fetch.1 = some p.shared.lastInodeNumber := if_neg hzero
      rw [hsome] at hempty ⊢
      exact h.set hleave h.bias hempty (fun _ => ⟨hpos, hhanded.next h.bias hpos hzero⟩) trivial

/-- The first `2 ^ 33` numbers that are handed out, by any number of threads, are
different, and none is zero. -/
theorem inode_numbers_distinct {as : List (θ × NumberAct)} {tr : List (BitVec 64)}
    (h : run (Pool.step getNewInodeNumber) ⟨fun _ => .idle, ⟨false, none, 0, 0⟩⟩ as =
      some (tr, p)) : (tr.take (2 ^ 33)).Nodup ∧ 0#64 ∉ tr := by
  have hinit : Numbered [] (⟨fun _ => .idle, ⟨false, none, 0, 0⟩⟩ : Pool θ _ (Generator θ)) :=
    ⟨(by decide : (0#64).toNat < 2 ^ 31), fun _ => rfl, nofun, fun _ => trivial⟩
  have hend := run_history (fun _ _ _ _ _ hi _ hs => Numbered.step hi hs) hinit h
    (along_trivial _ _)
  rw [nil_append] at hend
  cases hstart : p.shared.initialized with
  | false =>
    rw [hend.empty hstart]
    exact ⟨nodup_nil, not_mem_nil⟩
  | true => exact ⟨(hend.handed hstart).2.distinct, (hend.handed hstart).2.nonzero⟩

end Runs

/-- One thread draws 0 and then 5, and another one asks after it. -/
def drawZero : List (Bool × NumberAct) :=
  (true, .call) :: replicate 3 (true, .next) ++
    [(true, .random 0), (true, .next), (true, .random 5)] ++ replicate 6 (true, .next) ++
    (false, .call) :: replicate 2 (false, .next)

theorem inode_numbers_distinct_two : ∃ tr p, run (Pool.step getNewInodeNumber)
      ⟨fun _ => .idle, ⟨false, none, 0, 0⟩⟩ drawZero = some (tr, p) ∧ tr = [5, 10] ∧ tr.Nodup := by
  refine exists_result (I := fun tr _ => tr = [5, 10]) (by decide +kernel) ?_
  rintro _ p h rfl
  exact ⟨rfl, (inode_numbers_distinct h).1⟩

/-! ## Numbers in a table -/

/-- `get_new_inode_number` after it was initialised. The bias is not zero, so that the
loop has at most two rounds. -/
def Generator.number (g : Generator θ) : BitVec 64 × Generator θ :=
  match g.fetch.1 with
  | some ino => (ino, g.fetch.2)
  | none => (g.fetch.2.lastInodeNumber, g.fetch.2.fetch.2)

/-- The next `n` numbers. -/
def Generator.numbers : Nat → Generator θ → List (BitVec 64)
  | 0, _ => []
  | n + 1, g => g.number.1 :: numbers n g.number.2

inductive TableCall where
  | create
  | lookup (ino : BitVec 64)
deriving DecidableEq, Repr

/-- A call with a new number, or with a number that somebody has. -/
def tableStep (q : Generator θ × Heap) : TableCall → Option (List Nat × (Generator θ × Heap))
  | .create =>
    (bitbucketCreateInode q.1.number.1 q.2).map fun r => ([r.1], (q.1.number.2, r.2))
  | .lookup ino => (bitbucketLookupInodeInTable ino q.2).map fun r => (r.1.toList, (q.1, r.2))

variable {ino : BitVec 64} {s s' : Heap}

theorem hashInode_inv {b : Nat}
    (h : hashInode ino s = some (b, s')) : s.table.bucketCountShift < 16 := by
  obtain ⟨-, h⟩ := assert_bind_inv (get_bind_inv h)
  obtain ⟨-, h⟩ := assert_bind_inv h
  exact (assert_bind_inv h).1

theorem bitbucketCreateInode_inv {i : Nat} (h : bitbucketCreateInode ino s = some (i, s')) :
    ino ≠ BitVec.ofNat 64 fuseRootId ∧ s.table.bucketCountShift < 16 := by
  rw [bitbucketCreateInode, bind_some (bitbucketObjectCreate_some ino s)] at h
  obtain ⟨r, s1, h, -⟩ := bind_inv h
  have hload : (s.addInode (newObject ino)).inode s.nextInode = some (newObject ino) :=
    Function.update_self ..
  rw [bitbucketInsertInodeInTable, bind_some (loadInode_some hload)] at h
  obtain ⟨-, h⟩ := assert_bind_inv h
  obtain ⟨hroot, h⟩ := assert_bind_inv h
  obtain ⟨b, s2, hhash, -⟩ := bind_inv h
  have hshift := hashInode_inv hhash
  exact ⟨hroot, hshift⟩

theorem bitbucketLookupInodeInTable_inv {o : Option Nat}
    (h : bitbucketLookupInodeInTable ino s = some (o, s')) : s.table.bucketCountShift < 16 := by
  obtain ⟨-, h⟩ := assert_bind_inv h
  obtain ⟨u, s1, hlock, -⟩ := bind_inv h
  obtain ⟨b, s2, hhash, -⟩ := bind_inv hlock
  exact hashInode_inv hhash

theorem tableStep_inv {q q' : Generator θ × Heap} {c : TableCall} {ev : List Nat}
    (h : tableStep q c = some (ev, q')) : q.2.table.bucketCountShift < 16 := by
  cases c with
  | create =>
    obtain ⟨r, hr, -⟩ := map_eq_some_iff.mp h
    exact (bitbucketCreateInode_inv hr).2
  | lookup ino =>
    obtain ⟨r, hr, -⟩ := map_eq_some_iff.mp h
    exact bitbucketLookupInodeInTable_inv hr

theorem Generator.number_ne_zero {g : Generator θ} (hbias : g.inodeBias ≠ 0#64) :
    g.number.1 ≠ 0#64 ∧ g.number.2.inodeBias ≠ 0#64 := by
  by_cases hzero : g.lastInodeNumber = 0#64
  · have hnone : g.fetch.1 = none := if_pos hzero
    rw [number, hnone]
    refine ⟨?_, hbias⟩
    change g.lastInodeNumber + g.inodeBias ≠ 0#64
    rw [hzero, BitVec.zero_add]
    exact hbias
  · have hsome : g.fetch.1 = some g.lastInodeNumber := if_neg hzero
    rw [number, hsome]
    exact ⟨hzero, hbias⟩

/-- In a table that `hash_inode` supports, calls fail for the number of the root only. -/
theorem Live.run_iff {g : Generator θ} (h : Live s) (hbias : g.inodeBias ≠ 0#64)
    {cs : List TableCall} (hcs : ∀ ino, .lookup ino ∈ cs → ino ≠ 0#64) :
    (∃ tr q, run tableStep (g, s) cs = some (tr, q)) ↔
      BitVec.ofNat 64 fuseRootId ∉ g.numbers (cs.count .create) := by
  induction cs generalizing g s with
  | nil => exact iff_of_true ⟨[], (g, s), rfl⟩ not_mem_nil
  | cons c cs ih =>
    have hrest : ∀ ino, .lookup ino ∈ cs → ino ≠ 0#64 := fun ino hm =>
      hcs ino (mem_cons_of_mem c hm)
    have hcons : ∀ {q : Generator θ × Heap} {ev : List Nat}, tableStep (g, s) c = some (ev, q) →
        ((∃ tr q, run tableStep (g, s) (c :: cs) = some (tr, q)) ↔
          ∃ tr q', run tableStep q cs = some (tr, q')) := by
      intro q ev hs
      constructor
      · rintro ⟨tr, q', hr⟩
        obtain ⟨ev', q1, evs, hs', hr, -⟩ := run_cons hr
        cases hs.symm.trans hs'
        exact ⟨evs, q', hr⟩
      · rintro ⟨tr, q', hr⟩
        exact ⟨_, q', run_step hs hr⟩
    cases c with
    | create =>
      obtain ⟨hne, hbias'⟩ := Generator.number_ne_zero hbias
      rw [count_cons_self, Generator.numbers, mem_cons, not_or]
      by_cases hroot : BitVec.ofNat 64 fuseRootId = g.number.1
      · refine iff_of_false ?_ fun hm => hm.1 hroot
        rintro ⟨tr, q, hr⟩
        obtain ⟨ev, q1, evs, hs, -⟩ := run_cons hr
        obtain ⟨r, hc, -⟩ := map_eq_some_iff.mp hs
        exact (bitbucketCreateInode_inv hc).1 hroot.symm
      · obtain ⟨s', hc, hlive⟩ := h.create hne (Ne.symm hroot)
        have hs : tableStep (g, s) .create = some ([s.nextInode], (g.number.2, s')) := by
          rw [tableStep, hc]
          rfl
        rw [hcons hs, ih hlive hbias' hrest]
        exact (and_iff_right hroot).symm
    | lookup ino =>
      have hk := hcs ino mem_cons_self
      rw [count_cons_of_ne (show TableCall.lookup ino ≠ .create from nofun)]
      obtain ⟨s1, hsearch, ⟨-, hl⟩ | ⟨j, n, hj, -, hl⟩⟩ := h.lookup hk
      · have hs : tableStep (g, s) (.lookup ino) = some ([], (g, s1)) := by
          rw [tableStep, hl]
          rfl
        rw [hcons hs, ih (h.searched hsearch) hbias hrest]
      have hj1 : s1.inode j = some n := hsearch.inode ▸ hj
      have hs : tableStep (g, s) (.lookup ino) = some ([j], (g,
          s1.setInode j (some ((n.addCount 1).addReason .lookup 1)))) := by
        rw [tableStep, hl]
        rfl
      have hlive : Live (s1.setInode j (some ((n.addCount 1).addReason .lookup 1))) :=
        (h.searched hsearch).setInode hj1 rfl (h.held hj).add
      rw [hcons hs, ih hlive hbias hrest]

/-- Calls on a new table run into no assertion just if there are none, or the table is
not larger than `hash_inode` supports and no new inode gets the number of the root. -/
theorem table_calls_succeed_iff (bucketCount : Nat) (seed : BitVec 64) (start bias : BitVec 31)
    (hbias : bias ≠ 0) {cs : List TableCall} (hcs : ∀ ino, .lookup ino ∈ cs → ino ≠ 0#64) :
    (∃ tr q, run tableStep
        ((⟨true, none, start.setWidth 64, bias.setWidth 64⟩ : Generator Unit),
          bitbucketCreateInodeTable bucketCount seed) cs = some (tr, q)) ↔
      cs = [] ∨ bucketCount ≤ 32768 ∧ 1#64 ∉ Generator.numbers (cs.count .create)
        (⟨true, none, start.setWidth 64, bias.setWidth 64⟩ : Generator Unit) := by
  have hpos : bias.setWidth 64 ≠ 0#64 := fun h => by
    refine hbias (BitVec.eq_of_toNat_eq ?_)
    have := congrArg BitVec.toNat h
    rwa [BitVec.toNat_setWidth, Nat.mod_eq_of_lt (Nat.lt_trans bias.isLt (by decide))] at this
  by_cases hsize : bucketCount ≤ 32768
  · have hlive := (reached_nil hsize seed).wf.live
    rw [hlive.run_iff (g := ⟨true, none, start.setWidth 64, bias.setWidth 64⟩) hpos hcs]
    constructor
    · exact fun h => .inr ⟨hsize, h⟩
    rintro (rfl | ⟨-, h⟩)
    · exact not_mem_nil
    · exact h
  · cases cs with
    | nil => exact iff_of_true ⟨_, _, rfl⟩ (.inl rfl)
    | cons c cs =>
      refine iff_of_false ?_ fun h => h.elim nofun fun h => hsize h.1
      rintro ⟨tr, q, hr⟩
      obtain ⟨ev, q1, evs, hs, -⟩ := run_cons hr
      have hshift := tableStep_inv hs
      simp only [bitbucketCreateInodeTable, tableShift] at hshift
      split_ifs at hshift <;> omega

theorem table_calls_succeed_iff_zero : ∃ tr q, run tableStep
    ((⟨true, none, 0, 5⟩ : Generator Unit), bitbucketCreateInodeTable 1000 0)
    [.create, .create, .lookup 5, .lookup 7] = some (tr, q) :=
  (table_calls_succeed_iff 1000 0 0 5 (by decide) (by simp)).mpr
    (.inr ⟨by decide, by decide⟩)

/-- In a table of 65536 buckets every creation fails, and in one of 1024 buckets that of
the first number, if 1 was drawn. -/
theorem creations_fail :
    (∀ ino, bitbucketCreateInode ino (bitbucketCreateInodeTable 40000 0) = none) ∧
    tableStep ((⟨true, none, 1, 5⟩ : Generator Unit), bitbucketCreateInodeTable 1000 0) .create =
      none := by
  constructor
  · intro ino
    refine eq_none_iff_forall_ne_some.mpr fun r hr => ?_
    exact absurd (bitbucketCreateInode_inv hr).2 (by decide)
  · rw [tableStep, map_eq_none_iff]
    refine eq_none_iff_forall_ne_some.mpr fun r hr => ?_
    exact (bitbucketCreateInode_inv hr).1 rfl

end Finesse.Bitbucket.InodeTable
