import Finesse.Lib.Pool
import Finesse.Lib.RwLock

/-!
# The hash that guards a bucket's list heads

A bucket of the object table keeps a hash of its two list heads. `LockBucket`
compares it with the heads once it has the lock. `UnlockBucket` finds out by two
attempts to lock again whether its caller has the bucket exclusively; if so it
stores the hash of the heads, and if not it compares again.

Threads lock buckets, edit lists and unlock buckets as they like, with every
access of `LockBucket` and `UnlockBucket` to a lock, to the heads or to the
stored hash as a step of its own. The hash function is arbitrary: it sees where
the heads point, and which bucket they are of. An edit may change the lists of
several buckets, as those of `insert_entry` and `release_entry` do.
-/

namespace Finesse.Utils

open Function Machine

/-- The two lists of a bucket. -/
structure Chains where
  inodeTableEntry : List Nat
  uuidTableEntry : List Nat

/-- Where the two heads point. A head that points to itself is `none`. -/
abbrev Heads := (Option Nat × Option Nat) × (Option Nat × Option Nat)

def Chains.heads (c : Chains) : Heads :=
  ((c.inodeTableEntry.head?, c.inodeTableEntry.getLast?),
    (c.uuidTableEntry.head?, c.uuidTableEntry.getLast?))

/-- What `insert_entry` and `release_entry` do to the buckets of an inode
number and of a uuid: the two list entries of an entry are put at the end of
the lists, or taken out of them. -/
def editBoth (i u : Nat) (f : List Nat → List Nat) (c : Nat → Chains) : Nat → Chains :=
  let c := update c i { c i with inodeTableEntry := f (c i).inodeTableEntry }
  update c u { c u with uuidTableEntry := f (c u).uuidTableEntry }

/-- What a thread does to the buckets. -/
inductive BucketAct where
  | lock (b : Nat) (exclusive : Bool)
  | edit (f : (Nat → Chains) → Nat → Chains)
  | unlock (b : Nat)
  | next

/-- Where a thread is in `LockBucket` and in `UnlockBucket`, with the value of
`currentHashValue`. -/
inductive Stage (η : Type) where
  | outside
  | lockHash (b : Nat)
  | lockCheck (b : Nat) (h : η)
  | unlockHash (b : Nat)
  | tryWrite (b : Nat) (h : η)
  | tryRead (b : Nat) (h : η)
  | undo (b : Nat) (h : η)
  | check (b : Nat) (h : η)
  | store (b : Nat) (h : η)
  | drop (b : Nat)
  /-- An assertion did not hold. -/
  | failed

structure Guarded (θ η : Type) where
  chains : Nat → Chains
  locks : Nat → RwLock θ
  lastHashValue : Nat → η

section

variable {θ η : Type} (hash : Nat → Heads → η)

/-- `HashFunction(Bucket)`. -/
def Guarded.hashOf (s : Guarded θ η) (b : Nat) : η := hash b (s.chains b).heads

def Guarded.setLock (s : Guarded θ η) (b : Nat) (l : RwLock θ) : Guarded θ η :=
  { s with locks := update s.locks b l }

/-- The buckets as `CreateLookupTable` leaves them, and no thread does anything
yet. -/
def Guarded.start : Pool θ (Stage η) (Guarded θ η) where
  pcs _ := .outside
  shared :=
    { chains _ := ⟨[], []⟩
      locks _ := .free
      lastHashValue b := hash b (Chains.heads ⟨[], []⟩) }

variable [DecidableEq θ]

/-- A step of a thread. Inside the two functions its act is ignored. -/
def bucketExec [DecidableEq η] (t : θ) (act : BucketAct) (stage : Stage η) (s : Guarded θ η) :
    Option (List Unit × Stage η × Guarded θ η) :=
  match stage with
  | .outside =>
    match act with
    | .lock b exclusive =>
      ((s.locks b).acquire t exclusive).map fun l => ([], .lockHash b, s.setLock b l)
    | .edit f => some ([], .outside, { s with chains := f s.chains })
    | .unlock b => some ([], .unlockHash b, s)
    | .next => none
  | .lockHash b => some ([], .lockCheck b (s.hashOf hash b), s)
  | .lockCheck b h => some ([], if s.lastHashValue b = h then .outside else .failed, s)
  | .unlockHash b => some ([], .tryWrite b (s.hashOf hash b), s)
  -- the lock must not be had
  | .tryWrite b h => some ([], if ((s.locks b).wrlock t).isSome then .failed else .tryRead b h, s)
  | .tryRead b h =>
    match (s.locks b).rdlock t with
    | some l => some ([], .undo b h, s.setLock b l)
    -- EBUSY or EDEADLK: the caller has the bucket exclusively
    | none => some ([], .store b h, s)
  | .undo b h => some ([], .check b h, s.setLock b ((s.locks b).unlock t))
  | .check b h => some ([], if s.lastHashValue b = h then .drop b else .failed, s)
  | .store b h => some ([], .drop b, { s with lastHashValue := update s.lastHashValue b h })
  | .drop b => some ([], .outside, s.setLock b ((s.locks b).unlock t))
  | .failed => none

/-- A thread changes the heads of buckets that it has exclusively, and unlocks
buckets that it has. -/
def Disciplined (t : θ) (act : BucketAct) (stage : Stage η) (s : Guarded θ η) : Prop :=
  match stage, act with
  | .outside, .edit f => ∀ b, (f s.chains b).heads ≠ (s.chains b).heads →
      (s.locks b).writer = some t
  | .outside, .unlock b => 0 < (s.locks b).holdings t
  | _, _ => True

/-! ## Any interleaving -/

/-- The bucket that is being locked or unlocked. -/
def Stage.bucket : Stage η → Option Nat
  | .outside | .failed => none
  | .lockHash b | .lockCheck b _ | .unlockHash b | .tryWrite b _ | .tryRead b _ | .undo b _
  | .check b _ | .store b _ | .drop b => some b

/-- What a thread knows of that bucket: how often it reads it, whether it
writes it, the stored hash and that of the heads. -/
def Stage.Knows (reads : Nat) (writes : Prop) (last current : η) : Stage η → Prop
  | .outside | .unlockHash _ => True
  | .lockHash _ => last = current
  | .lockCheck _ h => last = h
  | .tryWrite _ h | .tryRead _ h => h = current
  | .undo _ h => 1 < reads ∧ h = current
  | .check _ h => 0 < reads ∧ h = current
  | .store _ h => writes ∧ h = current
  | .drop _ => writes → last = current
  | .failed => False

/-- A bucket that nobody has exclusively is as its hash says. -/
def HashInv (s : Guarded θ η) : Prop :=
  ∀ b, (s.locks b).Wf ∧ ((s.locks b).writer = none → s.lastHashValue b = s.hashOf hash b)

structure StageOk (t : θ) (stage : Stage η) (s : Guarded θ η) : Prop where
  alive : stage ≠ .failed
  owns : ∀ b, stage.bucket = some b → 0 < (s.locks b).holdings t
  knows : ∀ b, stage.bucket = some b → stage.Knows ((s.locks b).readers.count t)
    ((s.locks b).writer = some t) (s.lastHashValue b) (s.hashOf hash b)

/-- What `t` leaves alone: the locks of others, and the heads and the hashes
of the buckets that others have. -/
structure Leaves (t : θ) (s s' : Guarded θ η) : Prop where
  locks : ∀ b, RwLock.Step t (s.locks b) (s'.locks b)
  kept : ∀ b u, u ≠ t → 0 < (s.locks b).holdings u →
    s'.hashOf hash b = s.hashOf hash b ∧ s'.lastHashValue b = s.lastHashValue b

variable {hash} {s s' : Guarded θ η} {stage stage' : Stage η} {t u : θ} {b : Nat} {l : RwLock θ}

theorem StageOk.stable (h : StageOk hash u stage s) (g : Leaves hash t s s') (hu : u ≠ t) :
    StageOk hash u stage s' := by
  refine ⟨h.alive, fun b hb => ?_, fun b hb => ?_⟩
  · rw [(g.locks b).holdings hu]
    exact h.owns b hb
  · obtain ⟨hcur, hlast⟩ := g.kept b u hu (h.owns b hb)
    rw [(g.locks b).readers u hu, (g.locks b).writer u hu, hcur, hlast]
    exact h.knows b hb

theorem StageOk.outside (t : θ) (s : Guarded θ η) : StageOk hash t .outside s :=
  ⟨nofun, nofun, nofun⟩

theorem StageOk.at (hb : stage.bucket = some b) (howns : 0 < (s.locks b).holdings t)
    (hknows : stage.Knows ((s.locks b).readers.count t) ((s.locks b).writer = some t)
      (s.lastHashValue b) (s.hashOf hash b)) : StageOk hash t stage s := by
  refine ⟨fun he => ?_, fun c hc => ?_, fun c hc => ?_⟩
  · rw [he] at hb
    cases hb
  · cases hb.symm.trans hc
    exact howns
  · cases hb.symm.trans hc
    exact hknows

theorem Leaves.refl (t : θ) (s : Guarded θ η) : Leaves hash t s s :=
  ⟨fun _ => .refl _ _, fun _ _ _ _ => ⟨rfl, rfl⟩⟩

omit [DecidableEq θ] in
theorem setLock_self (s : Guarded θ η) (b : Nat) (l : RwLock θ) : (s.setLock b l).locks b = l := by
  simp [Guarded.setLock]

theorem setLock_sound (hI : HashInv hash s) (hstep : RwLock.Step t (s.locks b) l)
    (hfree : l.writer = none → s.lastHashValue b = s.hashOf hash b)
    (hok : StageOk hash t stage (s.setLock b l)) : HashInv hash (s.setLock b l) ∧
      StageOk hash t stage (s.setLock b l) ∧ Leaves hash t s (s.setLock b l) := by
  have hne : ∀ {c}, c ≠ b → (s.setLock b l).locks c = s.locks c := fun hc => by
    simp [Guarded.setLock, hc]
  refine ⟨fun c => ?_, hok, fun c => ?_, fun _ _ _ _ => ⟨rfl, rfl⟩⟩ <;> by_cases hc : c = b
  · subst hc
    rw [setLock_self]
    exact ⟨hstep.wf (hI c).1, hfree⟩
  · rw [hne hc]
    exact hI c
  · subst hc
    rwa [setLock_self]
  · rw [hne hc]
    exact .refl _ _

theorem edit_sound {f : (Nat → Chains) → Nat → Chains} (hI : HashInv hash s)
    (hf : ∀ b, (f s.chains b).heads ≠ (s.chains b).heads → (s.locks b).writer = some t) :
    HashInv hash { s with chains := f s.chains } ∧
      Leaves hash t s { s with chains := f s.chains } := by
  have hkeep : ∀ b, (s.locks b).writer ≠ some t →
      hash b (f s.chains b).heads = s.hashOf hash b := fun b hb => by
    by_cases hh : (f s.chains b).heads = (s.chains b).heads
    · rw [hh]
      rfl
    · exact absurd (hf b hh) hb
  refine ⟨fun b => ⟨(hI b).1, fun hw => ?_⟩, fun _ => .refl _ _, fun b u hu hpos => ⟨?_, rfl⟩⟩
  · exact ((hI b).2 hw).trans (hkeep b (by rw [hw]; nofun)).symm
  · exact hkeep b fun hw => absurd hpos (Nat.not_lt.2 (Nat.le_of_eq ((hI b).1.others hw hu)))

variable [DecidableEq η] {ev : List Unit}

theorem bucketExec_sound {act : BucketAct} (hI : HashInv hash s) (h : StageOk hash t stage s)
    (hd : Disciplined t act stage s) (he : bucketExec hash t act stage s = some (ev, stage', s')) :
    HashInv hash s' ∧ StageOk hash t stage' s' ∧ Leaves hash t s s' := by
  have hwf : ∀ {b}, (s.locks b).Wf := fun {b} => (hI b).1
  cases stage with
  | failed => cases he
  | outside =>
    cases act with
    | lock b exclusive =>
      obtain ⟨l, hl, he⟩ := Option.map_eq_some_iff.1 he
      cases he
      have hfree := (hI b).2 (RwLock.writer_of_acquire hl)
      refine setLock_sound hI (.acquire hl) (fun _ => hfree) (.at rfl ?_ hfree)
      rw [setLock_self, RwLock.holdings_acquire hl]
      exact Nat.succ_pos _
    | edit f =>
      cases he
      obtain ⟨hI', hleaves⟩ := edit_sound hI hd
      exact ⟨hI', .outside t _, hleaves⟩
    | unlock b =>
      cases he
      exact ⟨hI, .at rfl hd trivial, .refl t s⟩
    | next => cases he
  | lockHash b =>
    cases he
    exact ⟨hI, .at rfl (h.owns b rfl) (h.knows b rfl), .refl t s⟩
  | lockCheck b x =>
    cases he
    have hlast : s.lastHashValue b = x := h.knows b rfl
    rw [if_pos hlast]
    exact ⟨hI, .outside t s, .refl t s⟩
  | unlockHash b =>
    cases he
    exact ⟨hI, .at rfl (h.owns b rfl) rfl, .refl t s⟩
  | tryWrite b x =>
    cases he
    have hpos := h.owns b rfl
    have hbusy : (s.locks b).wrlock t = none := by
      cases hl : (s.locks b).wrlock t with
      | none => rfl
      | some l =>
        obtain ⟨hw, hr, -⟩ := RwLock.wrlock_inv hl
        rw [RwLock.holdings, hw, hr] at hpos
        cases hpos
    rw [hbusy]
    exact ⟨hI, .at rfl hpos (h.knows b rfl), .refl t s⟩
  | tryRead b x =>
    have hx : x = s.hashOf hash b := h.knows b rfl
    have hpos := h.owns b rfl
    cases hl : (s.locks b).rdlock t with
    | none =>
      simp only [bucketExec, hl] at he
      cases he
      -- a reader could have taken it again
      have hw : (s.locks b).writer = some t := by
        refine (hwf.cases hpos).resolve_right fun hr => ?_
        rw [RwLock.rdlock, if_pos hr.1] at hl
        cases hl
      exact ⟨hI, .at rfl hpos ⟨hw, hx⟩, .refl t s⟩
    | some l =>
      simp only [bucketExec, hl] at he
      cases he
      obtain ⟨hw, hreaders⟩ := RwLock.rdlock_inv hl
      obtain hwriter | ⟨-, hreads⟩ := hwf.cases hpos
      · cases hw.symm.trans hwriter
      refine setLock_sound hI (.rdlock hl) (fun _ => (hI b).2 hw) (.at rfl ?_ ⟨?_, hx⟩)
      · rw [setLock_self, RwLock.holdings_rdlock hl]
        exact Nat.succ_pos _
      · rw [setLock_self, hreaders, List.count_cons_self]
        exact Nat.succ_lt_succ hreads
  | undo b x =>
    cases he
    obtain ⟨hreads, hx⟩ := h.knows b rfl
    have hw := hwf.writer_eq_none (Nat.lt_trans Nat.zero_lt_one hreads)
    have hreads' : 0 < ((s.locks b).unlock t).readers.count t := by
      rw [RwLock.unlock_of_reader (by simp [hw]), List.count_erase_self]
      exact Nat.sub_pos_of_lt hreads
    refine setLock_sound hI (.unlock t _) (fun _ => (hI b).2 hw) (.at rfl ?_ ⟨?_, hx⟩)
    · rw [setLock_self]
      exact Nat.lt_of_lt_of_le hreads' (Nat.le_add_right _ _)
    · rwa [setLock_self]
  | check b x =>
    cases he
    obtain ⟨hreads, hx⟩ := h.knows b rfl
    have hlast := (hI b).2 (hwf.writer_eq_none hreads)
    rw [if_pos (hlast.trans hx.symm)]
    exact ⟨hI, .at rfl (h.owns b rfl) fun _ => hlast, .refl t s⟩
  | store b x =>
    cases he
    obtain ⟨hw, hx⟩ := h.knows b rfl
    refine ⟨fun c => ⟨hwf, fun hn => ?_⟩, .at rfl (h.owns b rfl) fun _ => ?_, fun _ => .refl _ _,
      fun c u hu hpos => ⟨rfl, ?_⟩⟩
    · refine (update_of_ne (fun hc => ?_) x s.lastHashValue).trans ((hI c).2 hn)
      rw [show (s.locks c).writer = some t from hc ▸ hw] at hn
      cases hn
    · exact (update_self b x s.lastHashValue).trans hx
    · refine update_of_ne (fun hc => ?_) x s.lastHashValue
      rw [hwf.others (hc ▸ hw) hu] at hpos
      cases hpos
  | drop b =>
    cases he
    refine setLock_sound hI (.unlock t _) (fun _ => ?_) (.outside t _)
    rcases hwf.cases (h.owns b rfl) with hw | ⟨hw, -⟩
    · exact h.knows b rfl hw
    · exact (hI b).2 hw

def BucketsOk (hash : Nat → Heads → η) (p : Pool θ (Stage η) (Guarded θ η)) : Prop :=
  HashInv hash p.shared ∧ ∀ t, StageOk hash t (p.pcs t) p.shared

theorem BucketsOk.step {p p' : Pool θ (Stage η) (Guarded θ η)} {a : θ × BucketAct}
    (h : BucketsOk hash p) (hd : Disciplined a.1 a.2 (p.pcs a.1) p.shared)
    (hs : Pool.step (bucketExec hash) p a = some (ev, p')) : BucketsOk hash p' := by
  obtain ⟨stage, s, he, rfl⟩ := Pool.step_inv hs
  obtain ⟨hI, hok, hleaves⟩ := bucketExec_sound h.1 (h.2 a.1) hd he
  exact ⟨hI, Pool.asserts_set hok fun u hu => (h.2 u).stable hleaves hu⟩

variable (hash)

/-- If every change of heads is made under the exclusive locks of the buckets,
then in every interleaving the stored hash is that of the heads whenever it is
compared, and `UnlockBucket` tells right what its caller has. Whoever has the
buckets of an entry exclusively may put it on their lists or take it out. -/
theorem bucket_hash_asserts_hold :
    (∀ (as : List (θ × BucketAct)) (tr : List Unit) (p : Pool θ (Stage η) (Guarded θ η)),
      Along (Pool.step (bucketExec hash)) (fun p a => Disciplined a.1 a.2 (p.pcs a.1) p.shared)
        (Guarded.start hash) as →
      Machine.run (Pool.step (bucketExec hash)) (Guarded.start hash) as = some (tr, p) →
      ∀ t, p.pcs t ≠ .failed) ∧
    ∀ (s : Guarded θ η) (t : θ) (i u : Nat) (f : List Nat → List Nat),
      (s.locks i).writer = some t → (s.locks u).writer = some t →
      Disciplined t (.edit (editBoth i u f)) (.outside : Stage η) s := by
  refine ⟨fun as tr p has hrun t => ?_, fun s t i u f hi hu b hb => ?_⟩
  · have hinit : BucketsOk hash (Guarded.start (θ := θ) hash) :=
      ⟨fun _ => ⟨fun _ => rfl, fun _ => rfl⟩, fun t => .outside t _⟩
    have hok := run_invariant (fun _ _ _ _ h hd hs => h.step hd hs) hinit hrun has
    exact (hok.2 t).alive
  · by_cases hbi : b = i
    · rwa [hbi]
    by_cases hbu : b = u
    · rwa [hbu]
    · exact absurd (by simp [editBoth, hbi, hbu]) hb

end

def acts (t : Nat) (a : BucketAct) (n : Nat) : List (Nat × BucketAct) :=
  (t, a) :: List.replicate n (t, .next)

/-- Thread 0 enters an object in two buckets, and thread 1 reads one of them. -/
def enterAndRead : List (Nat × BucketAct) :=
  acts 0 (.lock 0 true) 2 ++ acts 0 (.lock 1 true) 2 ++ acts 0 (.edit (editBoth 0 1 (· ++ [7]))) 0 ++
    acts 0 (.unlock 0) 5 ++ acts 1 (.lock 0 false) 1 ++ acts 0 (.unlock 1) 5 ++ acts 1 .next 0 ++
    acts 1 (.unlock 0) 6

theorem bucket_hash_asserts_hold_entered : ∃ tr p, Machine.run (Pool.step (bucketExec fun _ h => h))
      (Guarded.start fun _ h => h) enterAndRead = some (tr, p) ∧
    (p.shared.chains 1).uuidTableEntry = [7] ∧ ∀ t, p.pcs t ≠ .failed := by
  obtain ⟨hruns, hedit⟩ := bucket_hash_asserts_hold (θ := Nat) (η := Heads) fun _ h => h
  refine exists_result (I := fun _ p => (p.shared.chains 1).uuidTableEntry = [7]) (by decide +kernel)
    fun tr p hrun h => ⟨h, hruns enterAndRead tr p ?_ hrun⟩
  refine along_of_check (p := fun p a => match a.2 with
    | .edit _ => (p.shared.locks 0).writer = some a.1 ∧ (p.shared.locks 1).writer = some a.1
    | .unlock b => 0 < (p.shared.locks b).holdings a.1
    | _ => true) ?_ (by decide +kernel)
  rintro ⟨t, act⟩ ha p hp
  dsimp only [Disciplined]
  split
  · obtain ⟨rfl, rfl⟩ : t = 0 ∧ _ := by simpa [enterAndRead, acts] using ha
    obtain ⟨hi, hu⟩ := of_decide_eq_true hp
    exact hedit p.shared 0 0 1 _ hi hu
  · exact of_decide_eq_true hp
  · trivial
end Finesse.Utils
