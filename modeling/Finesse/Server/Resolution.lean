import Finesse.Server.NameMap

/-!
# When a map request ends

The handlers of name map, stat, unlink and statfs by name all map a name by
`FinesseServerInternalMapRequest`, which holds assertions about the name, about
the parent key and about what the file system replies.
`internalMapRequest_spec` says exactly when none of them fires (`MapRuns`), and
which inode the request then finds (`MapFinds`).

The object table adds no condition. Every entry that was ever made keeps at
least one reference, since the release of the last one is undone
(`release_spec`), so that in the tables a server reaches lookups, releases
and creations with a fresh uuid all succeed (`Kept`).
-/

namespace Finesse.Server

open Finesse.Utils List Table

/-! ## The tables of a server -/

/-- A table in which every object still has a reference. -/
structure Kept (t : Table) : Prop where
  wf : t.Wf
  held : ∀ a < t.allocated, 0 < (t.entries a).referenceCount

/-- The two tables hold the same objects. -/
structure SameObjects (t t' : Table) : Prop where
  allocated : t'.allocated = t.allocated
  inode : ∀ a, (t'.entries a).inode = (t.entries a).inode
  uuid : ∀ a, (t'.entries a).uuid = (t.entries a).uuid

/-- An object that is found under a key. -/
def Holds (t : Table) (key : Uuid) (ino : Inode) : Prop :=
  ∃ a < t.allocated, (t.entries a).uuid = key ∧ (t.entries a).inode = ino

/-- What `uuid_generate_time_safe` returns. -/
def Fresh (t : Table) (uuid : Uuid) : Prop :=
  uuid ≠ 0#128 ∧ ∀ a < t.allocated, (t.entries a).uuid ≠ uuid

instance (t : Table) (key : Uuid) (ino : Inode) : Decidable (Holds t key ino) :=
  inferInstanceAs (Decidable (∃ _, _))

instance (t : Table) (uuid : Uuid) : Decidable (Fresh t uuid) :=
  inferInstanceAs (Decidable (_ ∧ _))

theorem SameObjects.refl (t : Table) : SameObjects t t := ⟨rfl, fun _ => rfl, fun _ => rfl⟩

theorem SameObjects.trans {t t1 t2 : Table} (h : SameObjects t t1)
    (h' : SameObjects t1 t2) : SameObjects t t2 :=
  ⟨h'.allocated.trans h.allocated, fun a => (h'.inode a).trans (h.inode a),
    fun a => (h'.uuid a).trans (h.uuid a)⟩

variable {key parentUuid : Option Uuid} {p : PathResolutionParameters} {log : List FuseCall}
  {uuid : Uuid} {ino parentIno : Inode} {mountpoint name : Name} {status : Int} {s : State}
  {segs : List Name} {flags : Nat} {t' : Table}

theorem SameObjects.fresh {t : Table} (h : SameObjects t t')
    (hu : Fresh t uuid) : Fresh t' uuid := by
  refine ⟨hu.1, fun a ha => ?_⟩
  rw [h.uuid]
  exact hu.2 a (h.allocated ▸ ha)

theorem SameObjects.of_cacheOnly {t : Table} (h : CacheOnly t t') : SameObjects t t' :=
  ⟨h.allocated, fun a => by rw [h.entries], fun a => by rw [h.entries]⟩

theorem kept_initial : Kept State.initial.table :=
  ⟨(Session.inv_initial 0).wf, fun a ha => absurd ha (Nat.not_lt_zero a)⟩

namespace Kept

variable {t : Table}

variable (hk : Kept t)
include hk

theorem cacheOnly (h : CacheOnly t t') : Kept t' := by
  refine ⟨h.wf hk.wf, fun a ha => ?_⟩
  rw [h.entries]
  exact hk.held a (h.allocated ▸ ha)

theorem setCount (a : Nat) {n : Nat} (hn : 0 < n) :
    Kept (t.setEntry a fun e => { e with referenceCount := n }) ∧
    SameObjects t (t.setEntry a fun e => { e with referenceCount := n }) := by
  refine ⟨⟨hk.wf.setCount a n, fun b hb => ?_⟩, rfl, fun b => ?_, fun b => ?_⟩
  · by_cases hba : b = a
    · subst hba
      simpa [setEntry] using hn
    · simpa [setEntry, hba] using hk.held b hb
  · by_cases hba : b = a
    · subst hba
      simp [setEntry]
    · simp [setEntry, hba]
  · by_cases hba : b = a
    · subst hba
      simp [setEntry]
    · simp [setEntry, hba]

theorem addReference (a : Nat) : Kept (t.addReference a) ∧ SameObjects t (t.addReference a) :=
  hk.setCount a (Nat.succ_pos _)

theorem lookup {key : Uuid} (hkey : key ≠ 0#128) :
    ∃ r t', objectLookupByUuid t key = some (r, t') ∧ Kept t' ∧ SameObjects t t' ∧
      (r = none ∧ (∀ ino, ¬ Holds t key ino) ∨
        ∃ a, r = some a ∧ a < t.allocated ∧ (t.entries a).uuid = key) := by
  have hc := lookupEntry_cacheOnly t (t.bucketIndex (.uuid key)) (.uuid key)
  cases hl : lookupEntry t (t.bucketIndex (.uuid key)) (.uuid key) with
  | mk r t1 =>
  rw [hl] at hc
  have hk1 := hk.cacheOnly hc
  cases r with
  | none =>
    refine ⟨none, t1, ?_, hk1, .of_cacheOnly hc, .inl ⟨rfl, ?_⟩⟩
    · simp only [objectLookupByUuid, finesseObjectLookupByUuid, if_neg hkey, hl]
    rintro ino ⟨a, ha, hu, -⟩
    refine lookupEntry_eq_none hk.wf (congrArg Prod.fst hl) ha ?_
    rw [LookupEntry.keyLike, hu]
  | some a =>
    obtain ⟨ha, hu⟩ := lookupEntry_some hk.wf (congrArg Prod.fst hl)
    have ha1 : a < t1.allocated := hc.allocated ▸ ha
    have hpos := hk1.held a ha1
    obtain ⟨hk2, hs2⟩ := hk1.addReference a
    refine ⟨some a, t1.addReference a, ?_, hk2,
      (SameObjects.of_cacheOnly hc).trans hs2, .inr ⟨a, rfl, ha, ?_⟩⟩
    · have hlive := (hk2.wf.valid a (hs2.allocated ▸ ha1)).2.2
      simp only [objectLookupByUuid, finesseObjectLookupByUuid, if_neg hkey,
        hl, if_neg (Nat.ne_of_gt hpos), hlive, Bool.false_eq_true, if_false]
    · simpa [LookupEntry.keyLike] using hu

theorem release {a : Nat} (ha : a < t.allocated) :
    ∃ t', objectRelease t a = some t' ∧ Kept t' ∧ SameObjects t t' := by
  obtain ⟨-, hu, hlive⟩ := hk.wf.valid a ha
  have hl := (lookupEntry_eq_some hk.wf).mpr
    ⟨ha, show (t.entries a).keyLike (.uuid (t.entries a).uuid) = _ from rfl⟩
  have hsome : ∃ t', finesseObjectRelease t a = some t' := by
    have hc := lookupEntry_cacheOnly t (t.bucketIndex
      (.uuid (t.entries a).uuid)) (.uuid (t.entries a).uuid)
    simp only [finesseObjectRelease, if_neg hu]
    split
    · next heq => rw [heq] at hl; cases hl
    next b t1 heq =>
    rw [heq] at hl hc
    cases hl
    have hpos := (hk.cacheOnly hc).held a (hc.allocated ▸ ha)
    rw [if_neg (Nat.ne_of_gt hpos)]
    by_cases h1 : (t1.entries a).referenceCount = 1
    · simp only [h1, if_true]
      split <;> exact ⟨_, rfl⟩
    · simp only [h1, if_false]
      exact ⟨_, rfl⟩
  obtain ⟨t', ht'⟩ := hsome
  refine ⟨t', by simp [objectRelease, hlive, ht'], ?_⟩
  obtain ⟨t1, hc, ht⟩ := release_spec hk.wf ha ht'
  have hk1 := hk.cacheOnly hc
  split at ht
  · obtain ⟨hk2, hs2⟩ := hk1.setCount a (Nat.succ_pos
      ((t1.dropReference a).entries a).referenceCount)
    have heq : t' = t1.setEntry a fun e => { e with referenceCount :=
        ((t1.dropReference a).entries a).referenceCount + 1 } := by
      simp [ht, Table.addReference, Table.dropReference, Table.setEntry]
    rw [heq]
    exact ⟨hk2, (SameObjects.of_cacheOnly hc).trans hs2⟩
  · next hne =>
    have hpos := hk.held a ha
    rw [← hc.entries] at hpos hne
    obtain ⟨hk2, hs2⟩ := hk1.setCount a (show 0 < (t1.entries a).referenceCount - 1 by omega)
    rw [ht]
    exact ⟨hk2, (SameObjects.of_cacheOnly hc).trans hs2⟩

theorem link (hi : ino ≠ 0#64) (hu : Fresh t uuid)
    (hno : ∀ b < t.allocated, (t.entries b).inode ≠ ino) : Kept (linkEntry t ino uuid) := by
  refine ⟨hk.wf.link hi hu.1 hno hu.2, fun a ha => ?_⟩
  rw [linkEntry_allocated] at ha
  rw [linkEntry_entries]
  split
  · exact Nat.two_pos
  · exact hk.held a (by omega)

theorem create (hi : ino ≠ 0#64) (hu : Fresh t uuid) :
    ∃ a t', objectCreate t ino uuid = some (a, t') ∧ Kept t' ∧
      a < t'.allocated ∧ (t'.entries a).inode = ino := by
  have hsome : ∃ a t', finesseObjectCreate t ino uuid = some (a, t') := by
    have hc := lookupEntry_cacheOnly t (t.bucketIndex (.inode ino)) (.inode ino)
    simp only [finesseObjectCreate, hi, hu.1, or_self, if_false, insertEntry]
    split
    · next a t1 heq =>
      have ha := (lookupEntry_some hk.wf (congrArg Prod.fst heq)).1
      rw [heq] at hc
      have hlive := ((hk.cacheOnly hc).wf.valid a (hc.allocated ▸ ha)).2.2
      rw [hlive]
      exact ⟨_, _, rfl⟩
    · next t1 heq =>
      rw [heq] at hc
      split
      · next b _ heq2 =>
        -- no entry has the new uuid, in whatever bucket
        obtain ⟨hb, hkey⟩ := lookupEntry_some (hk.cacheOnly hc).wf (congrArg Prod.fst heq2)
        have hbu := ((SameObjects.of_cacheOnly hc).fresh hu).2 b hb
        simp only [LookupEntry.keyLike, Key.uuid.injEq] at hkey
        exact absurd hkey hbu
      · exact ⟨_, _, rfl⟩
  obtain ⟨a, t', ht'⟩ := hsome
  have hout : Kept t' ∧ a < t'.allocated ∧ (t'.entries a).inode = ino := by
    obtain ⟨t1, hc, ⟨ha, hino, rfl⟩ | ⟨rfl, -, -, hno, rfl⟩⟩ := create_spec hk.wf ht'
    · obtain ⟨hk2, hs2⟩ := (hk.cacheOnly hc).addReference a
      refine ⟨hk2, hs2.allocated ▸ hc.allocated ▸ ha, ?_⟩
      rw [hs2.inode, hc.entries, hino]
    refine ⟨(hk.cacheOnly hc).link hi ((SameObjects.of_cacheOnly hc).fresh hu) ?_, ?_, ?_⟩
    · intro b hb
      rw [hc.entries]
      exact hno b (hc.allocated ▸ hb)
    · rw [linkEntry_allocated, hc.allocated]
      exact Nat.lt_succ_self _
    · rw [linkEntry_entries, if_pos hc.allocated.symm]
  refine ⟨a, t', ?_, hout⟩
  simp [objectCreate, ht', (hout.1.wf.valid a hout.2.1).2.2]

theorem mapInode (hi : ino ≠ 0#64) (hu : Fresh t uuid) :
    ∃ a new t', Server.mapInode t ino uuid = some (a, new, t') ∧ Kept t' ∧
      a < t'.allocated ∧ (t'.entries a).inode = ino := by
  obtain ⟨a, t', hcr, hk', ha, hino⟩ := hk.create hi hu
  simp only [Server.mapInode, hi, hu.1, or_self, if_false, hcr]
  split
  · obtain ⟨t2, hrel, hk2, hs2⟩ := hk'.release ha
    rw [hrel]
    exact ⟨a, true, t2, rfl, hk2, hs2.allocated ▸ ha, (hs2.inode a).trans hino⟩
  · exact ⟨a, false, t', rfl, hk', ha, hino⟩

theorem holds_unique {key : Uuid} {ino' : Inode}
    (h : Holds t key ino) (h' : Holds t key ino') : ino = ino' := by
  obtain ⟨a, ha, hu, rfl⟩ := h
  obtain ⟨b, hb, hu', rfl⟩ := h'
  rw [hk.wf.unique (.uuid key) a b ha hb (by rw [LookupEntry.keyLike, hu])
    (by rw [LookupEntry.keyLike, hu'])]

theorem parentInode {key : Uuid} (hkey : key ≠ 0#128) :
    ∃ r t', Server.parentInode t key = some (r, t') ∧ Kept t' ∧
      SameObjects t t' ∧ ∀ ino, r = some ino ↔ Holds t key ino := by
  obtain ⟨r, t1, hl, hk1, hs1, ⟨rfl, hno⟩ | ⟨a, rfl, ha, hu⟩⟩ := hk.lookup hkey
  · refine ⟨none, t1, by rw [Server.parentInode, hl], hk1, hs1, fun ino => ?_⟩
    exact ⟨by simp, fun h => absurd h (hno ino)⟩
  obtain ⟨t2, hrel, hk2, hs2⟩ := hk1.release (hs1.allocated ▸ ha)
  refine ⟨some (t1.entries a).inode, t2, ?_, hk2, hs1.trans hs2, fun ino => ?_⟩
  · rw [Server.parentInode, hl]
    simp only [hrel]
  rw [hs1.inode]
  have hholds : Holds t key (t.entries a).inode := ⟨a, ha, hu, rfl⟩
  constructor
  · rintro ⟨⟩
    exact hholds
  · intro h
    rw [hk.holds_unique hholds h]

end Kept

/-! ## Paths -/

/-- A reply to the lookup of a component that more components follow: the
walk goes on, or says that there is no such entry. -/
def FuseReply.Passes : FuseReply → Prop
  | .entry nodeid attr =>
    nodeid = attr.ino ∧ nodeid ≠ 0#64 ∧ isLink (attr.mode.setWidth 16).toNat = false
  | .error status => isNoEntry status

/-- A reply to the lookup of the only component of a path. -/
def FuseReply.Answers : FuseReply → Prop
  | .entry nodeid attr => nodeid = attr.ino ∧ nodeid ≠ 0#64
  | .error status => isNoEntry status

/-- A reply to the lookup of the last of several components. -/
def FuseReply.Ends : FuseReply → Prop
  | .entry nodeid attr => nodeid = attr.ino
  | .error status => status = 0 ∨ isNoEntry status

/-- No component but the last is empty, resolution is not asked to check
security, and the file system replies to the lookups as is expected. -/
def Walkable (fs : FileSystem) (p : PathResolutionParameters) :
    Inode → List FuseCall → List Name → Prop
  | _, _, [] => False
  | ino, log, [final] => (fs log ino final).Ends
  | ino, log, seg :: next :: segs =>
    seg ≠ [] ∧ p.checkSecurity = false ∧ (fs log ino seg).Passes ∧
    ∀ found, (fs log ino seg).found = some found →
      Walkable fs p found (log ++ [.lookup ino seg (fs log ino seg)]) (next :: segs)

/-- The inode that a walk finds at its end. -/
def reached (fs : FileSystem) : Inode → List FuseCall → List Name → Option Inode
  | _, _, [] => none
  | ino, log, [final] => (fs log ino final).found
  | ino, log, seg :: next :: segs =>
    match (fs log ino seg).found with
    | none => none
    | some found => reached fs found
        (log ++ [.lookup ino seg (fs log ino seg)]) (next :: segs)

/-- `FinesseServerResolvePathName` ends for a path, given what is left of it
when the mount point has been taken off: there is no separator in it, or it
starts with one and can be walked. -/
def Resolvable (fs : FileSystem) (p : PathResolutionParameters) (ino : Inode)
    (log : List FuseCall) : List Name → Prop
  | [] | [_] => True
  | [first, final] => first = [] ∧ (fs log ino final).Answers
  | first :: segs => first = [] ∧ Walkable fs p ino log segs

/-- The inode that a path leads to. -/
def resolved (fs : FileSystem) (ino : Inode) (log : List FuseCall) : List Name → Option Inode
  | [] | [_] => none
  | _ :: segs => reached fs ino log segs

/-- The inode that a resolution returns. -/
def resolvedInode (status : Int) (stx : Statx) : Option Inode :=
  if status = 0 ∧ stx.ino ≠ 0#64 then some stx.ino else none

theorem not_mem_components {path : Name} : ∀ seg ∈ components path, '/' ∉ seg := by
  induction path with
  | nil => simp [components]
  | cons c cs ih =>
    intro seg hseg
    rw [components] at hseg
    split at hseg
    · rcases mem_cons.mp hseg with rfl | hseg
      · exact not_mem_nil
      · exact ih seg hseg
    next hc =>
    split at hseg
    · next hnil => exact absurd hnil (components_ne_nil cs)
    next first segs hcons =>
    rcases mem_cons.mp hseg with rfl | hseg
    · rw [mem_cons, not_or]
      exact ⟨fun e => hc e.symm, ih first (hcons ▸ mem_cons_self)⟩
    · exact ih seg (hcons ▸ mem_cons_of_mem _ hseg)

variable {fs : FileSystem}

theorem nameLookup_eq {parent : Inode} (hname : '/' ∉ name) :
    finesseServerInternalNameLookup fs log parent name = match fs log parent name with
      | .error status => some (status, .zero, log ++ [.lookup parent name (fs log parent name)])
      | .entry nodeid attr =>
        if nodeid ≠ attr.ino then none
        else some (0, .ofEntry nodeid attr, log ++ [.lookup parent name (fs log parent name)]) := by
  unfold finesseServerInternalNameLookup
  exact if_neg hname

theorem isNoEntry_ne_zero (h : isNoEntry status = true) : status ≠ 0 := by
  rintro rfl
  exact absurd h (by decide)

theorem resolveComponents_isSome :
    ∀ {ino : Inode} {log : List FuseCall}, (∀ seg ∈ segs, '/' ∉ seg) →
      ((resolveComponents fs p ino log segs).isSome ↔ Walkable fs p ino log segs) := by
  induction segs with
  | nil => intro ino log _; simp [resolveComponents, Walkable]
  | cons seg segs ih =>
    intro ino log hsegs
    have hseg := hsegs seg mem_cons_self
    cases segs with
    | nil =>
      rw [resolveComponents, Walkable, nameLookup_eq hseg]
      cases fs log ino seg with
      | error status =>
        simp only [FuseReply.Ends]
        split
        · next h0 => simp [h0]
        · next h0 => split <;> simp_all
      | entry nodeid attr =>
        simp only [FuseReply.Ends]
        by_cases hn : nodeid = attr.ino <;> simp [hn]
    | cons next rest =>
      have hrest := fun ino' log' => @ih ino' log' fun s hs =>
        hsegs s (mem_cons_of_mem _ hs)
      rw [resolveComponents, Walkable, nameLookup_eq hseg]
      cases hc : p.checkSecurity with
      | true => simp
      | false =>
      by_cases he : seg = []
      · simp [he]
      cases hr : fs log ino seg with
      | error status =>
        simp only [FuseReply.Passes, FuseReply.found]
        by_cases hs : isNoEntry status = true
        · simp [he, hs, isNoEntry_ne_zero hs]
        · simp [he, hs]
      | entry nodeid attr =>
        simp only [FuseReply.Passes, FuseReply.found]
        by_cases hn : nodeid = attr.ino
        · subst hn
          by_cases h0 : attr.ino = 0#64
          · simp [he, h0]
          by_cases hl : isLink (attr.mode.toNat % 65536) = true
          · simp [he, hl]
          · simp [he, hl, h0, hrest]
        · simp [he, hn]

theorem resolveComponents_reached : ∀ {ino : Inode} {log log' : List FuseCall} {status : Int}
      {stx : Statx}, (∀ seg ∈ segs, '/' ∉ seg) →
      resolveComponents fs p ino log segs = some (status, stx, log') →
      resolvedInode status stx = reached fs ino log segs := by
  induction segs with
  | nil => intro ino log log' status stx _ h; cases h
  | cons seg segs ih =>
    intro ino log log' status stx hsegs h
    have hseg := hsegs seg mem_cons_self
    cases segs with
    | nil =>
      rw [resolveComponents, nameLookup_eq hseg] at h
      rw [reached]
      cases hr : fs log ino seg with
      | error e =>
        simp only [hr] at h
        split at h
        · cases h
          simp [FuseReply.found, resolvedInode]
        split at h
        · cases h
          simp [FuseReply.found, resolvedInode]
        · cases h
      | entry nodeid attr =>
        simp only [hr] at h
        split at h
        · cases h
        next hn =>
        split at hn
        · cases hn
        cases hn
        cases h
        by_cases h0 : nodeid = 0#64 <;>
          simp [FuseReply.found, resolvedInode, h0]
    | cons next rest =>
      rw [resolveComponents, nameLookup_eq hseg] at h
      rw [reached]
      split at h
      · cases h
      cases hr : fs log ino seg with
      | error e =>
        simp only [hr] at h
        split at h
        · next hne =>
          split at h
          · cases h
            simp [FuseReply.found, resolvedInode, hne]
          · cases h
        · simp at h
      | entry nodeid attr =>
        simp only [hr] at h
        by_cases hn : nodeid = attr.ino
        · simp only [hn, ne_eq, not_true_eq_false, if_false] at h
          split at h
          · cases h
          next hstop =>
          rw [not_or, Statx.ino_ofEntry] at hstop
          rw [ih (fun s hs => hsegs s (mem_cons_of_mem _ hs)) h]
          simp [FuseReply.found, hn, hstop.2]
        · simp [hn] at h

theorem resolvePathName_isSome (hp : p.parent ≠ 0#64) :
    (finesseServerResolvePathName fs mountpoint p log).isSome ↔ Resolvable fs p p.parent log
        (components (stripMountpoint mountpoint p.pathName)) := by
  have hsegs := @not_mem_components (stripMountpoint mountpoint p.pathName)
  simp only [finesseServerResolvePathName, if_neg hp]
  generalize components (stripMountpoint mountpoint p.pathName) = segs at *
  rcases segs with _ | ⟨first, _ | ⟨final, _ | ⟨next, rest⟩⟩⟩
  · simp [Resolvable]
  · simp [Resolvable]
  · rw [Resolvable]
    by_cases hf : first = []
    · simp only [hf, ne_eq, not_true_eq_false, if_false, true_and,
        nameLookup_eq (hsegs final (by simp))]
      cases fs log p.parent final with
      | error status =>
        simp only [FuseReply.Answers]
        by_cases hs : isNoEntry status = true
        · simp [hs, isNoEntry_ne_zero hs]
        · simp [hs]
      | entry nodeid attr =>
        simp only [FuseReply.Answers]
        by_cases hn : nodeid = attr.ino
        · subst hn
          by_cases h0 : attr.ino = 0#64 <;> simp [h0]
        · simp [hn]
    · simp [hf]
  · rw [Resolvable, ← resolveComponents_isSome fun s hs =>
      hsegs s (mem_cons_of_mem _ hs)]
    · by_cases hf : first = [] <;> simp [hf]
    · simp
    · simp

theorem resolvePathName_finds {log' : List FuseCall} {stx : Statx} (hp : p.parent ≠ 0#64)
    (h : finesseServerResolvePathName fs mountpoint p log = some (status, stx, log')) :
    resolvedInode status stx = resolved fs p.parent log
      (components (stripMountpoint mountpoint p.pathName)) := by
  have hsegs := @not_mem_components (stripMountpoint mountpoint p.pathName)
  simp only [finesseServerResolvePathName, if_neg hp] at h
  generalize components (stripMountpoint mountpoint p.pathName) = segs at *
  rcases segs with _ | ⟨first, _ | ⟨final, _ | ⟨next, rest⟩⟩⟩
  · cases h
    simp [resolved, resolvedInode, EINVAL]
  · cases h
    simp [resolved, resolvedInode, EINVAL]
  · rw [resolved, reached]
    · simp only [nameLookup_eq (hsegs final (by simp))] at h
      split at h
      · cases h
      cases hr : fs log p.parent final with
      | error e =>
        simp only [hr] at h
        split at h
        · next hne =>
          split at h
          · cases h
            simp [hne, FuseReply.found, resolvedInode]
          · cases h
        · simp at h
      | entry nodeid attr =>
        simp only [hr] at h
        by_cases hn : nodeid = attr.ino
        · simp only [hn, ne_eq, not_true_eq_false, if_false] at h
          split at h
          · cases h
          next h0 =>
          rw [Statx.ino_ofEntry] at h0
          cases h
          simp [FuseReply.found, resolvedInode, hn, h0]
        · simp [hn] at h
    · simp
  · rw [resolved, ← resolveComponents_reached (fun s hs =>
      hsegs s (mem_cons_of_mem _ hs))]
    · simp only at h
      split at h
      · cases h
      · exact h
    · simp

theorem resolveComponents_status :
    ∀ {ino : Inode} {log log' : List FuseCall} {status : Int} {stx : Statx},
      resolveComponents fs p ino log segs = some (status, stx, log') →
      status = 0 ∨ isNoEntry status := by
  induction segs with
  | nil => intro ino log log' status stx h; cases h
  | cons seg segs ih =>
    intro ino log log' status stx h
    cases segs with
    | nil =>
      rw [resolveComponents] at h
      split at h
      · cases h
      split at h
      · cases h
        exact .inl rfl
      split at h
      · next hs =>
        cases h
        split
        · exact .inl rfl
        · exact .inr hs
      · cases h
    | cons next rest =>
      rw [resolveComponents] at h
      split at h
      · cases h
      split at h
      · cases h
      split at h
      · split at h
        · next hs =>
          cases h
          exact .inr hs
        · cases h
      · split at h
        · cases h
        · exact ih h

theorem resolvePathName_status {log' : List FuseCall} {stx : Statx}
    (h : finesseServerResolvePathName fs mountpoint p log = some (status, stx, log')) :
    status = 0 ∨ status = EINVAL ∨ isNoEntry status := by
  simp only [finesseServerResolvePathName] at h
  split at h
  · cases h
    exact .inr (.inl rfl)
  · cases h
    exact .inr (.inl rfl)
  · split at h
    · cases h
    split at h
    · cases h
    split at h
    · split at h
      · next hs =>
        cases h
        exact .inr (.inr hs)
      · cases h
    · split at h
      · cases h
      · cases h
        exact .inl rfl
  · split at h
    · cases h
    · exact (resolveComponents_status h).imp_right .inr

/-! ## Map requests -/

/-- The value of an `int`. -/
def IsInt (status : Int) : Prop := -2 ^ 31 ≤ status ∧ status < 2 ^ 31

instance (status : Int) : Decidable (IsInt status) :=
  inferInstanceAs (Decidable (_ ∧ _))

/-- The errors of a file system are of type `int`. -/
def IntErrors (fs : FileSystem) : Prop :=
  ∀ log ino name status, fs log ino name = .error status → IsInt status

theorem isInt_of_isNoEntry (h : isNoEntry status = true) : IsInt status := by
  rw [isNoEntry, Bool.or_eq_true, decide_eq_true_iff, decide_eq_true_iff] at h
  rcases h with rfl | rfl <;> decide

/-- The inode a map request starts from, given the parent key if there is
one. -/
def Starts (t : Table) : Option Uuid → Inode → Prop
  | none, ino => ino = fuseRootId
  | some key, ino => Holds t key ino

/-- What a map request leaves behind: objects that can be found again, and
an object for the caller exactly if it succeeds. -/
structure Mapped (status : Int) (obj : Option Nat) (s' : State) : Prop where
  kept : Kept s'.table
  object : ∀ a, obj = some a → a < s'.table.allocated
  int : IsInt status
  found : status = 0 ↔ obj.isSome

theorem Mapped.failure {t : Table} (hk : Kept t)
    (h : status ≠ 0) (hint : IsInt status) : Mapped status none ⟨t, log⟩ :=
  ⟨hk, nofun, hint, by simp [h]⟩

theorem Mapped.success {a : Nat} {t : Table}
    (hk : Kept t) (ha : a < t.allocated) : Mapped 0 (some a) ⟨t, log⟩ :=
  ⟨hk, fun _ h => Option.some.inj h ▸ ha, by decide, by simp⟩

/-- A request ends if and only if `runs`, and then its object is that of the
inode it `finds`. -/
def Spec (r : Option (Int × Option Nat × State)) (runs : Prop) (finds : Inode → Prop) : Prop :=
  match r with
  | none => ¬ runs
  | some (status, obj, s') =>
    runs ∧ Mapped status obj s' ∧
      ∀ ino, finds ino ↔ ∃ a, obj = some a ∧ (s'.table.entries a).inode = ino

theorem Kept.startInode {t : Table} (hk : Kept t) (hkey : ∀ k ∈ key, k ≠ 0#128) :
    ∃ t', Kept t' ∧ SameObjects t t' ∧ (Server.startInode t fuseRootId key = some (none, t') ∧
          (∀ ino, ¬ Starts t key ino) ∨
        ∃ ino, Server.startInode t fuseRootId key = some (some ino, t') ∧
          ∀ ino', Starts t key ino' ↔ ino' = ino) := by
  cases key with
  | none =>
    exact ⟨t, hk, .refl t, .inr ⟨fuseRootId, rfl, fun ino' => .rfl⟩⟩
  | some key =>
    obtain ⟨r, t', hp, hk', hs', hr⟩ := hk.parentInode (hkey key rfl)
    refine ⟨t', hk', hs', ?_⟩
    cases r with
    | none => exact .inl ⟨hp, fun ino h => nomatch (hr ino).mpr h⟩
    | some ino =>
      refine .inr ⟨ino, hp, fun ino' => ?_⟩
      rw [Starts, ← hr, Option.some.injEq, eq_comm]

theorem filter_ne_zero : ∀ k ∈ parentUuid.filter (· ≠ 0#128), k ≠ 0#128 := fun k hk => by
  simpa using (Option.filter_eq_some_iff.mp hk).2

theorem Kept.starts_ne_zero {t : Table} (hk : Kept t) (h : Starts t key ino) : ino ≠ 0#64 := by
  cases key with
  | none =>
    rw [show ino = fuseRootId from h]
    decide
  | some key =>
    obtain ⟨a, ha, -, rfl⟩ := h
    exact (hk.wf.valid a ha).1

section

variable (fs : FileSystem) (se : FuseSession)

/-- `FinsesseServerInternalPathMapRequest` ends. -/
def PathRuns (parentUuid : Option Uuid) (name : Name) (flags : Nat) (s : State) : Prop :=
  name ≠ se.mountpoint ∧
  ∀ ino, Starts s.table (parentUuid.filter (· ≠ 0#128)) ino →
    Resolvable fs (finesseAllocateServerPathResolutionParameters ino name
      flags) ino s.log (components (stripMountpoint se.mountpoint name))

/-- The inode that `FinsesseServerInternalPathMapRequest` finds. -/
def PathFinds (parentUuid : Option Uuid) (name : Name) (s : State) (found : Inode) : Prop :=
  ∃ ino, Starts s.table (parentUuid.filter (· ≠ 0#128)) ino ∧
    resolved fs ino s.log (components (stripMountpoint se.mountpoint name)) = some found

/-- A reply to the one lookup of `FinesseServerInternalNameMapRequest`. -/
def FuseReply.Maps : FuseReply → Prop
  | .entry nodeid attr => nodeid = attr.ino ∧ nodeid ≠ 0#64
  | .error status => status ≠ 0

/-- The key under which `FinesseServerInternalNameMapRequest` looks for the
parent: it ignores the key of a request without a parent inode. -/
def nameParent (parentIno : Inode) (parentUuid : Option Uuid) : Option Uuid :=
  if parentIno = 0#64 then none else parentUuid.filter (· ≠ 0#128)

/-- `FinesseServerInternalNameMapRequest` ends for a name without
separator. -/
def NameRuns (parentIno : Inode) (parentUuid : Option Uuid) (name : Name) (s : State) : Prop :=
  (parentIno ≠ 0#64 → parentUuid ≠ none) ∧
  ∀ ino, Starts s.table (nameParent parentIno parentUuid) ino →
    se.mountpoint.isPrefixOf name → (fs s.log ino name).Maps

/-- The inode that `FinesseServerInternalNameMapRequest` finds. -/
def NameFinds (parentIno : Inode) (parentUuid : Option Uuid) (name : Name)
    (s : State) (found : Inode) : Prop :=
  se.mountpoint.isPrefixOf name ∧
  ∃ ino, Starts s.table (nameParent parentIno parentUuid) ino ∧
    (fs s.log ino name).found = some found

/-- The name goes on after the mount point. -/
def Inside (name : Name) : Prop :=
  se.mountpoint.length < name.length ∧ se.mountpoint.isPrefixOf name

instance (name : Name) : Decidable (Inside se name) :=
  inferInstanceAs (Decidable (_ ∧ _))

/-- What is left of the name when the mount point has been taken off. -/
def nameToParse (name : Name) : Name :=
  if Inside se name then name.drop se.mountpoint.length else name

/-- `FinesseServerInternalMapRequest` ends. -/
def MapRuns (parentIno : Inode) (parentUuid : Option Uuid) (name : Name)
    (flags : Nat) (s : State) : Prop :=
  (Inside se name → parentUuid.filter (· ≠ 0#128) = none) ∧
  if '/' ∈ nameToParse se name then
    PathRuns fs se parentUuid (nameToParse se name) flags s
  else NameRuns fs se (if Inside se name then fuseRootId else parentIno)
    parentUuid (nameToParse se name) s

/-- The inode that `FinesseServerInternalMapRequest` finds. -/
def MapFinds (parentIno : Inode) (parentUuid : Option Uuid) (name : Name)
    (s : State) : Inode → Prop :=
  if '/' ∈ nameToParse se name then
    PathFinds fs se parentUuid (nameToParse se name) s
  else NameFinds fs se (if Inside se name then fuseRootId else parentIno)
    parentUuid (nameToParse se name) s

end

theorem isPrefixOf_iff_eq :
    name.length ≤ mountpoint.length ∧ mountpoint.isPrefixOf name = true ↔ name = mountpoint := by
  constructor
  · rintro ⟨hlen, hp⟩
    obtain ⟨rest, rfl⟩ := isPrefixOf_iff_prefix.mp hp
    rw [length_append] at hlen
    have hrest : rest = [] := eq_nil_of_length_eq_zero (by omega)
    rw [hrest, append_nil]
  · rintro rfl
    exact ⟨Nat.le_refl _, isPrefixOf_iff_prefix.mpr (prefix_refl _)⟩

variable {se : FuseSession}

theorem pathMapRequest_spec (hk : Kept s.table) (hu : Fresh s.table uuid)
    (hroot : parentIno = 0#64 ∨ parentIno = fuseRootId) :
    Spec (pathMapRequest fs se parentIno parentUuid name flags uuid s)
      (PathRuns fs se parentUuid name flags s)
      (PathFinds fs se parentUuid name s) := by
  have hino : (if parentIno = 0#64 then fuseRootId else parentIno) =
      fuseRootId := by
    rcases hroot with rfl | rfl <;> rfl
  simp only [pathMapRequest, hino, isPrefixOf_iff_eq, ne_eq, not_true_eq_false, false_and, if_false]
  by_cases hname : name = se.mountpoint
  · rw [if_pos hname]
    exact fun h => h.1 hname
  rw [if_neg hname]
  obtain ⟨t, hk1, hs1, ⟨hstart, hno⟩ | ⟨ino, hstart, hst⟩⟩ :=
    hk.startInode (@filter_ne_zero parentUuid)
  · simp only [ne_eq] at hstart
    rw [hstart]
    refine ⟨⟨hname, fun ino h => absurd h (hno ino)⟩,
      .failure hk1 (by decide) (by decide), fun found => ?_⟩
    constructor
    · rintro ⟨ino, h, -⟩
      exact absurd h (hno ino)
    · rintro ⟨_, h, -⟩
      cases h
  have hne := hk.starts_ne_zero ((hst ino).mpr rfl)
  simp only [ne_eq] at hstart
  rw [hstart]
  -- the request is about the only inode it can start from
  have hruns : PathRuns fs se parentUuid name flags s ↔
      (finesseServerResolvePathName fs se.mountpoint
        (finesseAllocateServerPathResolutionParameters ino name flags)
        s.log).isSome := by
    rw [resolvePathName_isSome hne]
    constructor
    · exact fun h => h.2 ino ((hst ino).mpr rfl)
    intro h
    refine ⟨hname, fun ino' h' => ?_⟩
    rw [(hst ino').mp h']
    exact h
  have hfinds : ∀ found, PathFinds fs se parentUuid name s found ↔ resolved fs ino s.log
        (components (stripMountpoint se.mountpoint name)) = some found := by
    intro found
    simp only [PathFinds, hst, exists_eq_left]
  rw [hruns]
  simp only [if_neg hne]
  split
  · next hnone => simp [Spec, hnone]
  next status stx log hres =>
  have hres' : resolvedInode status stx = resolved fs ino s.log
      (components (stripMountpoint se.mountpoint name)) :=
    resolvePathName_finds hne hres
  have hsome : (finesseServerResolvePathName fs se.mountpoint
      (finesseAllocateServerPathResolutionParameters ino name flags)
      s.log).isSome := by rw [hres]; rfl
  simp only [← hres'] at hfinds
  by_cases hstatus : status = 0
  · by_cases h0 : stx.ino = 0#64
    · simp only [hstatus, finesseGetResolvedInode, h0]
      refine ⟨hsome, .failure hk1 (by decide) (by decide), ?_⟩
      simp [hfinds, resolvedInode, h0]
    obtain ⟨a, new, t', hmap, hk', ha, hino⟩ := hk1.mapInode h0 (hs1.fresh hu)
    simp only [hstatus, finesseGetResolvedInode, h0, if_false, not_true_eq_false, hmap]
    refine ⟨hsome, .success hk' ha, ?_⟩
    simp [hfinds, resolvedInode, h0, hstatus, hino]
  · rw [if_pos hstatus]
    have hint : IsInt status := by
      rcases resolvePathName_status hres with rfl | rfl | hs
      · decide
      · decide
      · exact isInt_of_isNoEntry hs
    refine ⟨hsome, .failure hk1 hstatus hint, ?_⟩
    simp [hfinds, resolvedInode, hstatus]

theorem nameParent_ne_zero : ∀ k ∈ nameParent parentIno parentUuid, k ≠ 0#128 := by
  intro k hk
  rw [nameParent] at hk
  split at hk
  · cases hk
  · exact filter_ne_zero k hk

/-- Without a null pointer, a name map request depends on its parent through
one key, which is null for the root. -/
theorem nameMapRequest_key (h : parentIno ≠ 0#64 → parentUuid ≠ none) :
    nameMapRequest fs se parentIno parentUuid name uuid s = nameMapRequest fs se fuseRootId
        (some ((nameParent parentIno parentUuid).getD 0#128)) name uuid s := by
  by_cases h0 : parentIno = 0#64
  · simp [nameMapRequest, nameParent, h0, fuseRootId]
  obtain ⟨key, rfl⟩ := Option.ne_none_iff_exists'.mp (h h0)
  by_cases hkey : key = 0#128
  · simp [nameMapRequest, nameParent, h0, fuseRootId, hkey, Option.filter]
  · simp [nameMapRequest, nameParent, h0, fuseRootId, hkey, Option.filter]

theorem startInode_getD {t : Table} (hkey : ∀ k ∈ key, k ≠ 0#128) :
    (if key.getD 0#128 = 0#128 then some (some fuseRootId, t)
      else parentInode t (key.getD 0#128)) = startInode t fuseRootId key := by
  cases key with
  | none => rfl
  | some key => simp [startInode, hkey key rfl]

theorem nameMapRequest_spec (hfs : IntErrors fs) (hk : Kept s.table) (hu : Fresh s.table uuid)
    (hname : '/' ∉ name) : Spec (nameMapRequest fs se parentIno parentUuid name uuid s)
      (NameRuns fs se parentIno parentUuid name s)
      (NameFinds fs se parentIno parentUuid name s) := by
  by_cases hnull : parentIno ≠ 0#64 → parentUuid ≠ none
  · have hkey := @nameParent_ne_zero parentUuid parentIno
    rw [nameMapRequest_key hnull]
    simp only [nameMapRequest, show fuseRootId ≠ 0#64 by decide, if_false, startInode_getD hkey]
    obtain ⟨t, hk1, hs1, ⟨hstart, hno⟩ | ⟨ino, hstart, hst⟩⟩ := hk.startInode hkey
    · rw [hstart]
      refine ⟨⟨hnull, fun ino h => absurd h (hno ino)⟩, .failure hk1 (by decide) (by decide), ?_⟩
      simp [NameFinds, hno]
    have hruns : NameRuns fs se parentIno parentUuid name s ↔
        (se.mountpoint.isPrefixOf name → (fs s.log ino name).Maps) := by
      simp only [NameRuns, hst, forall_eq]
      exact ⟨And.right, fun h => ⟨hnull, h⟩⟩
    have hfinds : ∀ found, NameFinds fs se parentIno parentUuid name s found ↔
        se.mountpoint.isPrefixOf name ∧ (fs s.log ino name).found = some found := by
      simp [NameFinds, hst]
    rw [hstart, hruns]
    by_cases hp : se.mountpoint.isPrefixOf name = true
    · simp only [hp, not_true_eq_false, if_false, nameLookup_eq hname, forall_const]
      cases hr : fs s.log ino name with
      | error status =>
        by_cases h0 : status = 0
        · simp [h0, mapInode, Spec, FuseReply.Maps]
        simp only [if_pos h0]
        refine ⟨h0, .failure hk1 h0 (hfs _ _ _ _ hr), ?_⟩
        simp [hfinds, hr, FuseReply.found]
      | entry nodeid attr =>
        by_cases hn : nodeid = attr.ino
        · subst hn
          by_cases h0 : attr.ino = 0#64
          · simp [h0, mapInode, Spec, FuseReply.Maps]
          obtain ⟨a, new, t', hmap, hk', ha, hino⟩ := hk1.mapInode h0 (hs1.fresh hu)
          have hfound : ∀ found, NameFinds fs se parentIno parentUuid name
              s found ↔ attr.ino = found := by
            simp [hfinds, hp, hr, FuseReply.found, h0]
          simp only [ne_eq, not_true_eq_false, if_false, Statx.ino_ofEntry, hmap]
          cases new with
          | true =>
            exact ⟨⟨rfl, h0⟩, .success hk' ha, by simp [hfound, hino]⟩
          | false =>
            exact ⟨⟨rfl, h0⟩, .success hk' ha, by simp [hfound, hino]⟩
        · simp [hn, Spec, FuseReply.Maps]
    · simp only [if_pos hp]
      refine ⟨fun h => absurd h hp, .failure hk1 (by decide) (by decide), ?_⟩
      simp [hfinds, hp]
  · simp only [not_forall, not_not] at hnull
    obtain ⟨h0, rfl⟩ := hnull
    simp only [nameMapRequest, if_neg h0]
    exact fun h => h.1 h0 rfl

/-- A map request that starts from the root or from a key ends if and only
if `MapRuns`, and finds an inode if and only if `MapFinds`. -/
theorem internalMapRequest_spec (hfs : IntErrors fs) (hk : Kept s.table) (hu : Fresh s.table uuid)
    (hroot : parentIno = 0#64 ∨ parentIno = fuseRootId) :
    Spec (finesseServerInternalMapRequest fs se parentIno parentUuid name flags uuid s)
      (MapRuns fs se parentIno parentUuid name flags s)
      (MapFinds fs se parentIno parentUuid name s) := by
  by_cases hin : Inside se name
  · have hino : (if parentIno = 0#64 then fuseRootId else parentIno) =
        fuseRootId := by
      rcases hroot with rfl | rfl <;> rfl
    simp only [Inside] at hin
    simp only [finesseServerInternalMapRequest, MapRuns, MapFinds, nameToParse,
      Inside, hino, hin, ne_eq, not_true_eq_false, false_or, true_and, and_self,
      if_true, forall_const]
    cases parentUuid.filter (¬ · = 0#128) with
    | some key => simp [Spec]
    | none =>
      simp only [Option.isSome_none, Bool.false_eq_true, if_false, true_and]
      split
      · exact pathMapRequest_spec hk hu (.inr rfl)
      · next hname => exact nameMapRequest_spec hfs hk hu hname
  · simp only [finesseServerInternalMapRequest, MapRuns, MapFinds, nameToParse,
      hin, false_implies, true_and]
    simp only [Inside] at hin
    simp only [hin, false_and, if_false]
    split
    · exact pathMapRequest_spec hk hu hroot
    · next hname => exact nameMapRequest_spec hfs hk hu hname

variable (parentUuid name flags se) in
theorem internalMapRequest_cases (hfs : IntErrors fs) (hk : Kept s.table) (hu : Fresh s.table uuid)
    (hroot : parentIno = 0#64 ∨ parentIno = fuseRootId) :
    (finesseServerInternalMapRequest fs se parentIno parentUuid name flags uuid
        s = none ∧ ¬ MapRuns fs se parentIno parentUuid name flags s) ∨
    MapRuns fs se parentIno parentUuid name flags s ∧
      ((∃ status s', finesseServerInternalMapRequest fs se parentIno parentUuid
          name flags uuid s = some (status, none, s') ∧ status ≠ 0 ∧
          IsInt status ∧ Kept s'.table ∧
          ∀ ino, ¬ MapFinds fs se parentIno parentUuid name s ino) ∨
        ∃ a s', finesseServerInternalMapRequest fs se parentIno parentUuid name
          flags uuid s = some (0, some a, s') ∧ Kept s'.table ∧
          a < s'.table.allocated ∧
          ∀ ino, MapFinds fs se parentIno parentUuid name s ino ↔
            ino = (s'.table.entries a).inode) := by
  have hspec := @internalMapRequest_spec parentUuid _ _ name _ flags fs se hfs hk hu hroot
  unfold Spec at hspec
  split at hspec
  · next hnone => exact .inl ⟨hnone, hspec⟩
  next status obj s' hsome =>
  obtain ⟨hruns, hm, hfinds⟩ := hspec
  refine .inr ⟨hruns, ?_⟩
  cases obj with
  | none =>
    have h0 : status ≠ 0 := fun h => by simpa using hm.found.mp h
    exact .inl ⟨status, s', hsome, h0, hm.int, hm.kept, by simp [hfinds]⟩
  | some a =>
    have h0 : status = 0 := hm.found.mpr rfl
    subst h0
    exact .inr ⟨a, s', hsome, hm.kept, hm.object a rfl, by
      simp [hfinds, eq_comm]⟩

end Finesse.Server
