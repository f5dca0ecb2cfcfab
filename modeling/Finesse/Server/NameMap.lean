import Finesse.Server.PathName
import Finesse.Utils.ObjectTable

/-!
# Name maps

`namemap.c`: a client asks the server to map a path to a key and later
releases the key. A map request resolves the path with FUSE lookups and
enters the inode it finds in the object table under a new uuid, which is the
key; a key that is released as often as it was mapped should leave the
table, and every FUSE lookup should be balanced by a forget.

Neither happens. The release handler looks the key up, which takes a
reference, and releases that reference only; and the one forget in the file is
never reached (`nameMap_unreached`). `settled_iff_unanswered` says when the
contract holds all the same: when no request finds anything.
-/

namespace Finesse.Server

open Finesse.Utils List Machine Option

/-! ## The object table's default instance -/

/-- `finesse_object_lookup_by_uuid`. -/
def objectLookupByUuid (t : Table) (uuid : Uuid) : Option (Option Nat × Table) :=
  match finesseObjectLookupByUuid t uuid with
  | some (some a, t) => if (t.entries a).freed then none else some (some a, t)
  | r => r

/-- `finesse_object_release`. -/
def objectRelease (t : Table) (obj : Nat) : Option Table :=
  if (t.entries obj).freed then none else finesseObjectRelease t obj

/-- `finesse_object_create`. -/
def objectCreate (t : Table) (ino : Inode) (uuid : Uuid) : Option (Nat × Table) :=
  match finesseObjectCreate t ino uuid with
  | some (a, t) => if (t.entries a).freed then none else some (a, t)
  | none => none

/-! ## The requests -/

/-- `struct fuse_session`: the mount point, and whether the server handle is
set. -/
structure FuseSession where
  mountpoint : Name
  serverHandle : Bool
deriving DecidableEq, Repr

/-- The object table, and the FUSE calls made so far. -/
structure State where
  table : Table
  log : List FuseCall

/-- The object under a parent key. The reference is released at once. -/
def parentInode (t : Table) (uuid : Uuid) : Option (Option Inode × Table) :=
  match objectLookupByUuid t uuid with
  | none => none
  | some (none, t) => some (none, t)
  | some (some a, t) =>
    match objectRelease t a with
    | none => none
    | some t' => some (some (t.entries a).inode, t')

/-- The inode that a path is relative to: that of the parent key, if there
is one. -/
def startInode (t : Table) (parentIno : Inode) : Option Uuid → Option (Option Inode × Table)
  | none => some (some parentIno, t)
  | some key => parentInode t key

/-- The end of both map requests: the inode enters the table under `uuid`,
which `uuid_generate_time_safe` returned, unless it is there already. A new
object has two references, of which one is released. The result also says
whether the object is new. -/
def mapInode (t : Table) (ino : Inode) (uuid : Uuid) : Option (Nat × Bool × Table) :=
  if ino = 0#64 ∨ uuid = 0#128 then none
  else
    match objectCreate t ino uuid with
    | none => none
    | some (a, t) =>
      if (t.entries a).uuid = uuid then
        match objectRelease t a with
        | none => none
        | some t => some (a, true, t)
      else some (a, false, t)

/-- `FinsesseServerInternalPathMapRequest`. -/
def pathMapRequest (fs : FileSystem) (se : FuseSession) (parentIno : Inode)
    (parentUuid : Option Uuid) (name : Name) (flags : Nat) (uuid : Uuid)
    (s : State) : Option (Int × Option Nat × State) :=
  if name.length ≤ se.mountpoint.length ∧ se.mountpoint.isPrefixOf name then
    none
  else
    let parentIno := if parentIno = 0#64 then fuseRootId else parentIno
    let parentUuid := parentUuid.filter (· ≠ 0#128)
    if parentIno ≠ fuseRootId ∧ parentUuid.isSome then none
    else
      match startInode s.table parentIno parentUuid with
      | none => none
      | some (none, t) => some (EBADF, none, ⟨t, s.log⟩)
      | some (some parentIno, t) =>
        if parentIno = 0#64 then none
        else
          let p := finesseAllocateServerPathResolutionParameters parentIno name flags
          match finesseServerResolvePathName fs se.mountpoint p s.log with
          | none => none
          | some (status, stx, log) =>
            if status ≠ 0 then some (status, none, ⟨t, log⟩)
            else
              let (status, ino) := finesseGetResolvedInode stx
              if status ≠ 0 then some (status, none, ⟨t, log⟩)
              else
                match mapInode t ino uuid with
                | none => none
                | some (a, _, t) => some (0, some a, ⟨t, log⟩)

/-- `FinesseServerInternalNameMapRequest`. -/
def nameMapRequest (fs : FileSystem) (se : FuseSession) (parentIno : Inode)
    (parentUuid : Option Uuid) (name : Name) (uuid : Uuid) (s : State) :
    Option (Int × Option Nat × State) :=
  let parent := if parentIno = 0#64 then some (some fuseRootId, s.table)
    else match parentUuid with
      | none => none
      | some key =>
        if key = 0#128 then some (some fuseRootId, s.table)
        else parentInode s.table key
  match parent with
  | none => none
  | some (none, t) => some (EBADF, none, ⟨t, s.log⟩)
  | some (some parentIno, t) =>
    if ¬ se.mountpoint.isPrefixOf name then
      some (ENOTDIR, none, ⟨t, s.log⟩)
    else
      match finesseServerInternalNameLookup fs s.log parentIno name with
      | none => none
      | some (status, stx, log) =>
        if status ≠ 0 then some (status, none, ⟨t, log⟩)
        else
          match mapInode t stx.ino uuid with
          | none => none
          | some (a, true, t) => some (0, some a, ⟨t, log⟩)
          | some (a, false, t) =>
            some (0, some a, ⟨t, log ++ [.forget stx.ino 1]⟩)

def finesseServerInternalMapRequest (fs : FileSystem) (se : FuseSession)
    (parentIno : Inode) (parentUuid : Option Uuid) (name : Name) (flags : Nat)
    (uuid : Uuid) (s : State) : Option (Int × Option Nat × State) :=
  let strip := se.mountpoint.length < name.length ∧ se.mountpoint.isPrefixOf name
  let parentIno := if strip ∧ parentIno = 0#64 then fuseRootId else parentIno
  if strip ∧ (parentIno ≠ fuseRootId ∨ (parentUuid.filter (· ≠ 0#128)).isSome) then none
  else
    let name := if strip then name.drop se.mountpoint.length else name
    if '/' ∈ name then
      pathMapRequest fs se parentIno parentUuid name flags uuid s
    else nameMapRequest fs se parentIno parentUuid name uuid s

/-- A request, with the uuid that `uuid_generate_time_safe` returns in it. -/
inductive Request where
  | map (parent : Uuid) (name : Name) (flags : Nat) (uuid : Uuid)
  | mapRelease (key : Uuid)
deriving DecidableEq, Repr

inductive ServerEvent where
  | fuse (call : FuseCall)
  | mapped (key : Uuid)
  | mapFailed (result : Int)
  | released (key : Uuid)
deriving DecidableEq, Repr

def finesseServerNativeMapRequest (fs : FileSystem) (se : FuseSession) (parent : Uuid) (name : Name)
    (flags : Nat) (uuid : Uuid) (s : State) : Option (List ServerEvent × State) :=
  if !se.serverHandle then some ([], s)
  else if '/' ∉ name then none
  else
    match finesseServerInternalMapRequest fs se 0#64 (some parent) name flags uuid s with
    | none => none
    | some (status, finobj, s') =>
      let calls := (s'.log.drop s.log.length).map .fuse
      match finobj with
      | some a =>
        if status ≠ 0 then none
        else some (calls ++ [.mapped (s'.table.entries a).uuid], s')
      | none =>
        if status = 0 then none else some (calls ++ [.mapFailed ENOENT], s')

def finesseServerNativeMapReleaseRequest (key : Uuid) (s : State) :
    Option (List ServerEvent × State) :=
  match objectLookupByUuid s.table key with
  | none => none
  | some (none, t) => some ([.released key], ⟨t, s.log⟩)
  | some (some a, t) =>
    match objectRelease t a with
    | none => none
    | some t => some ([.released key], ⟨t, s.log⟩)

def State.step (fs : FileSystem) (se : FuseSession) (s : State) :
    Request → Option (List ServerEvent × State)
  | .map parent name flags uuid =>
    finesseServerNativeMapRequest fs se parent name flags uuid s
  | .mapRelease key => finesseServerNativeMapReleaseRequest key s

/-- The table is created by its first use. -/
def State.initial : State := ⟨finesseCreateTable 0, []⟩

/-! ## What a map request does -/

/-- The outcome of a map request: the key of its parent is not in the table,
or the path is walked from the inode `ino`, and if that found an inode it may
have been entered in the table. -/
inductive MapOutcome (fs : FileSystem) (start : Option (Option Inode × Table))
    (first : Option Name) (uuid : Uuid) (log calls : List FuseCall) :
    Option Nat → Table → Prop
  | badParent {t : Table} (hstart : start = some (none, t))
      (hcalls : calls = []) : MapOutcome fs start first uuid log calls none t
  | unresolved {ino : Inode} {t : Table} {stx : Statx}
      (hstart : start = some (some ino, t))
      (hwalk : Walked fs ino first log calls stx) :
      MapOutcome fs start first uuid log calls none t
  | entered {ino : Inode} {t t' : Table} {stx : Statx} {a : Nat} {new : Bool}
      (hstart : start = some (some ino, t))
      (hwalk : Walked fs ino first log calls stx) (hfound : stx.ino ≠ 0#64)
      (hmap : mapInode t stx.ino uuid = some (a, new, t')) :
      MapOutcome fs start first uuid log calls (some a) t'

variable {ev : List ServerEvent} {se : FuseSession} {fs : FileSystem} {s s' : State} {name : Name}
  {parent uuid : Uuid} {flags : Nat} {r : Request} {obj : Option Nat} {status : Int}

theorem pathMapRequest_outcome {parentIno : Inode} {parentUuid : Option Uuid}
    (hroot : parentIno = 0#64 ∨ parentIno = fuseRootId)
    (h : pathMapRequest fs se parentIno parentUuid name flags uuid s = some (status, obj, s')) :
    ∃ calls, s'.log = s.log ++ calls ∧ MapOutcome fs (startInode s.table fuseRootId
        (parentUuid.filter (· ≠ 0#128))) (firstComponent se.mountpoint name)
        uuid s.log calls obj s'.table := by
  have hino : (if parentIno = 0#64 then fuseRootId else parentIno) =
      fuseRootId := by
    rcases hroot with rfl | rfl <;> rfl
  simp only [pathMapRequest, hino] at h
  split at h
  · cases h
  split at h
  · cases h
  split at h
  · cases h
  · next hstart =>
    cases h
    exact ⟨[], by simp, .badParent hstart rfl⟩
  next ino t hstart =>
  split at h
  · cases h
  next hne =>
  split at h
  · cases h
  next st stx log hres =>
  obtain ⟨calls, rfl, hw⟩ := resolvePathName_walked hne hres
  split at h
  · cases h
    exact ⟨calls, rfl, .unresolved hstart hw⟩
  by_cases hfound : stx.ino = 0#64
  · simp only [finesseGetResolvedInode, if_pos hfound] at h
    rw [if_pos (by decide)] at h
    cases h
    exact ⟨calls, rfl, .unresolved hstart hw⟩
  simp only [finesseGetResolvedInode, if_neg hfound] at h
  rw [if_neg (by decide)] at h
  split at h
  · cases h
  next hmap =>
  cases h
  exact ⟨calls, rfl, .entered hstart hw hfound hmap⟩

/-- A name that holds a separator before the mount point is taken off and
none after does not start with the mount point a second time. -/
theorem nameMap_unreached {mountpoint : Name} (hname : '/' ∈ name)
    (hrest : '/' ∉ stripMountpoint mountpoint name) :
    mountpoint.isPrefixOf (stripMountpoint mountpoint name) = false := by
  rw [stripMountpoint] at hrest ⊢
  split at hrest
  · next hp =>
    rw [if_pos hp]
    obtain ⟨rest, rfl⟩ := isPrefixOf_iff_prefix.mp hp
    rw [drop_left] at hrest ⊢
    have hm : '/' ∈ mountpoint := (mem_append.mp hname).resolve_right hrest
    refine Bool.eq_false_iff.mpr fun hpre => hrest ?_
    have hsub := isPrefixOf_iff_prefix.mp hpre
    exact hsub.subset hm
  · exact absurd hname hrest

theorem firstComponent_of_not_mem {mountpoint : Name} (h : '/' ∉ name) :
    firstComponent mountpoint name = none := by
  have hs : '/' ∉ stripMountpoint mountpoint name := by
    rw [stripMountpoint]
    split
    · exact fun hm => h (mem_of_mem_drop hm)
    · exact h
  rw [firstComponent, components_of_not_mem hs]

/-- `FinesseServerInternalMapRequest` as the handler of a client's map
request calls it. -/
theorem internalMapRequest_outcome (hname : '/' ∈ name)
    (h : finesseServerInternalMapRequest fs se 0#64 (some parent) name flags
      uuid s = some (status, obj, s')) :
    ∃ calls, s'.log = s.log ++ calls ∧ MapOutcome fs (startInode s.table fuseRootId
        ((some parent).filter (· ≠ 0#128)))
        (firstComponent se.mountpoint (stripMountpoint se.mountpoint name))
        uuid s.log calls obj s'.table := by
  by_cases hp : se.mountpoint.isPrefixOf name
  · by_cases hlen : se.mountpoint.length < name.length
    · have hstrip : stripMountpoint se.mountpoint name =
          name.drop se.mountpoint.length := if_pos hp
      simp only [finesseServerInternalMapRequest, hp, hlen, true_and, if_true] at h
      rw [← hstrip] at h
      split at h
      · cases h
      next hpar =>
      split at h
      · exact pathMapRequest_outcome (.inr rfl) h
      next hrest =>
      have hnull : parent = 0#128 := by
        by_contra hne
        exact hpar (.inr (by simp [hne]))
      simp only [nameMapRequest, hnull, nameMap_unreached hname hrest] at h
      cases h
      rw [firstComponent_of_not_mem hrest, hnull]
      exact ⟨[], by simp, .unresolved rfl (.nil fs fuseRootId s.log)⟩
    · -- the name is the mount point, and the handler stops
      simp only [finesseServerInternalMapRequest, hlen, false_and, if_false,
        if_pos hname, pathMapRequest, hp] at h
      rw [if_pos ⟨Nat.le_of_not_lt hlen, trivial⟩] at h
      cases h
  · have hstrip : stripMountpoint se.mountpoint name = name := if_neg hp
    simp only [finesseServerInternalMapRequest, hp, Bool.false_eq_true,
      and_false, false_and, if_false, if_pos hname] at h
    rw [hstrip]
    exact pathMapRequest_outcome (.inl rfl) h

theorem nativeMapRequest_outcome (hse : se.serverHandle = true)
    (h : finesseServerNativeMapRequest fs se parent name flags uuid s = some (ev, s')) :
    ∃ calls obj, s'.log = s.log ++ calls ∧ ev = calls.map .fuse ++ [match obj with
        | some a => .mapped (s'.table.entries a).uuid
        | none => .mapFailed ENOENT] ∧
      MapOutcome fs (startInode s.table fuseRootId ((some parent).filter (· ≠ 0#128)))
        (firstComponent se.mountpoint (stripMountpoint se.mountpoint name))
        uuid s.log calls obj s'.table := by
  simp only [finesseServerNativeMapRequest, hse, Bool.not_true, Bool.false_eq_true, if_false] at h
  split at h
  · cases h
  next hname =>
  split at h
  · cases h
  next status obj s1 hmap =>
  obtain ⟨calls, hlog, hout⟩ := internalMapRequest_outcome (not_not.mp hname) hmap
  rw [hlog, drop_left] at h
  cases obj with
  | some a =>
    simp only at h
    split at h
    · cases h
    · cases h
      exact ⟨calls, some a, hlog, rfl, hout⟩
  | none =>
    simp only at h
    split at h
    · cases h
    · cases h
      exact ⟨calls, none, hlog, rfl, hout⟩

/-! ## The contract -/

/-- The references that the FUSE lookups of a run took on an inode. -/
def lookups (ev : List ServerEvent) (ino : Inode) : Nat :=
  ev.countP fun
    | .fuse call => call.taken = some ino
    | _ => false

/-- The references on an inode that a run gave back. -/
def forgets (ev : List ServerEvent) (ino : Inode) : Nat :=
  (ev.map fun
    | .fuse (.forget i n) => if i = ino then n else 0
    | _ => 0).sum

/-- Every key that was returned to a client has been released as often as it
was mapped. -/
def Released (ev : List ServerEvent) : Prop :=
  ∀ key, .mapped key ∈ ev → ev.count (.released key) = ev.count (.mapped key)

/-- The contract at the end of a run: released keys do not resolve, and
lookups are balanced by forgets. -/
def Settled (ev : List ServerEvent) (s : State) : Prop :=
  (∀ key, .released key ∈ ev → ¬ ∃ a t, objectLookupByUuid s.table key = some (some a, t)) ∧
  ∀ ino, lookups ev ino = forgets ev ino

/-- The request is no map request relative to the root whose first component
the file system finds there. -/
def Unanswered (fs : FileSystem) (se : FuseSession) (s : State) : Request → Prop
  | .map parent name _ _ => se.serverHandle = true → parent = 0#128 →
    ∀ first, firstComponent se.mountpoint (stripMountpoint se.mountpoint name) = some first →
      (fs s.log fuseRootId first).found = none
  | .mapRelease _ => True

/-- No reference was taken on an inode. -/
def ServerEvent.Idle : ServerEvent → Prop
  | .fuse call => call.taken = none
  | _ => True

/-- Nothing was ever entered in the table. -/
structure Vacant (t : Table) : Prop where
  wf : t.Wf
  empty : t.allocated = 0

theorem vacant_initial : Vacant State.initial.table := ⟨(Session.inv_initial 0).wf, rfl⟩

theorem Vacant.lookup {t t' : Table} (hv : Vacant t) {key : Uuid} {r : Option Nat}
    (h : objectLookupByUuid t key = some (r, t')) : r = none ∧ Vacant t' := by
  have hnone : ∀ {q t1}, finesseObjectLookupByUuid t key = some (q, t1) → q = none ∧ Vacant t1 := by
    intro q t1 hl
    obtain ⟨_, hl, ht⟩ := lookupByUuid_inv hl
    obtain ⟨t2, hc, ⟨rfl, rfl⟩ | ⟨a, -, ha, -⟩⟩ := lookup_spec hv.wf hl ht
    · exact ⟨rfl, hc.wf hv.wf, hc.allocated.trans hv.empty⟩
    · rw [hv.empty] at ha
      exact absurd ha (Nat.not_lt_zero a)
  rw [objectLookupByUuid] at h
  split at h
  · next hl => cases (hnone hl).1
  · exact hnone h

theorem Vacant.start {t t' : Table} (hv : Vacant t) {r : Option Inode}
    (h : startInode t fuseRootId ((some parent).filter (· ≠ 0#128)) = some (r, t')) :
    Vacant t' ∧ ∀ ino, r = some ino → parent = 0#128 ∧ ino = fuseRootId := by
  by_cases hp : parent = 0#128
  · rw [filter_some_neg (by simp [hp])] at h
    cases h
    exact ⟨hv, fun ino hi => ⟨hp, (some.inj hi).symm⟩⟩
  rw [filter_some_pos (by simp [hp])] at h
  simp only [startInode, parentInode] at h
  split at h
  · cases h
  · next hl =>
    cases h
    exact ⟨(hv.lookup hl).2, fun ino hi => by cases hi⟩
  · next hl => cases (hv.lookup hl).1

/-- As long as nothing was found, a request that finds nothing leaves the
table as it is and takes no reference. -/
theorem step_idle (hv : Vacant s.table) (hr : Unanswered fs se s r)
    (h : s.step fs se r = some (ev, s')) : Vacant s'.table ∧ ∀ e ∈ ev, e.Idle := by
  cases r with
  | map parent name flags uuid =>
    cases hse : se.serverHandle with
    | false =>
      rw [State.step, finesseServerNativeMapRequest, hse] at h
      cases h
      exact ⟨hv, fun e he => absurd he not_mem_nil⟩
    | true =>
      obtain ⟨calls, obj, -, rfl, hout⟩ := nativeMapRequest_outcome hse h
      -- whatever was walked started with a lookup that found nothing
      have hmiss : ∀ {ino stx t}, startInode s.table fuseRootId
          ((some parent).filter (· ≠ 0#128)) = some (some ino, t) →
          Walked fs ino (firstComponent se.mountpoint
            (stripMountpoint se.mountpoint name)) s.log calls stx →
          (∀ c ∈ calls, c.taken = none) ∧ stx.ino = 0#64 := by
        intro ino stx t hstart hw
        obtain ⟨hp, rfl⟩ := (hv.start hstart).2 ino rfl
        refine hw.missing fun c hc => ?_
        rw [hw.head] at hc
        obtain ⟨first, hf, rfl⟩ := map_eq_some_iff.mp hc
        exact hr hse hp first hf
      have hidle : (∀ c ∈ calls, c.taken = none) → ∀ reply : ServerEvent,
          reply.Idle → ∀ e ∈ calls.map .fuse ++ [reply], e.Idle := by
        intro hc reply hreply e he
        rcases mem_append.mp he with he | he
        · obtain ⟨c, hm, rfl⟩ := mem_map.mp he
          exact hc c hm
        · rwa [mem_singleton.mp he]
      generalize hobj : s'.table = t' at hout
      cases hout with
      | badParent hstart hcalls =>
        subst hcalls
        exact ⟨(hv.start hstart).1, hidle (by simp) _ trivial⟩
      | unresolved hstart hw =>
        exact ⟨(hv.start hstart).1, hidle (hmiss hstart hw).1 _ trivial⟩
      | entered hstart hw hfound _ =>
        exact absurd (hmiss hstart hw).2 hfound
  | mapRelease key =>
    simp only [State.step, finesseServerNativeMapReleaseRequest] at h
    split at h
    · cases h
    · next hl =>
      cases h
      refine ⟨(hv.lookup hl).2, fun e he => ?_⟩
      rw [mem_singleton.mp he]
      exact trivial
    · next hl => cases (hv.lookup hl).1

theorem step_taken (hr : ¬ Unanswered fs se s r)
    (h : s.step fs se r = some (ev, s')) : ∃ e ∈ ev, ¬ e.Idle := by
  cases r with
  | map parent name flags uuid =>
    simp only [Unanswered, not_forall] at hr
    obtain ⟨hse, hp, first, hfirst, hfound⟩ := hr
    obtain ⟨calls, obj, -, rfl, hout⟩ := nativeMapRequest_outcome hse h
    have hstart : startInode s.table fuseRootId ((some parent).filter (· ≠ 0#128)) =
        some (some fuseRootId, s.table) := by
      rw [filter_some_neg (by simp [hp])]
      rfl
    have hhead : ∃ ino stx t, some (some ino, t) =
        some (some fuseRootId, s.table) ∧ Walked fs ino (some first) s.log
          calls stx := by
      rw [hstart, hfirst] at hout
      cases hout with
      | badParent h0 _ => cases h0
      | unresolved h0 hw => exact ⟨_, _, _, h0.symm, hw⟩
      | entered h0 hw _ _ => exact ⟨_, _, _, h0.symm, hw⟩
    obtain ⟨ino, stx, t, heq, hw⟩ := hhead
    cases heq
    have hmem : FuseCall.lookup fuseRootId first
        (fs s.log fuseRootId first) ∈ calls :=
      mem_of_mem_head? (hw.head ▸ rfl)
    exact ⟨_, mem_append_left _ (mem_map_of_mem hmem), hfound⟩
  | mapRelease key => exact absurd trivial hr

theorem step_no_forget (h : s.step fs se r = some (ev, s')) :
    ∀ e ∈ ev, ∀ ino n, e ≠ .fuse (.forget ino n) := by
  rintro e he ino n rfl
  cases r with
  | map parent name flags uuid =>
    cases hse : se.serverHandle with
    | false =>
      rw [State.step, finesseServerNativeMapRequest, hse] at h
      cases h
      cases he
    | true =>
      obtain ⟨calls, obj, -, rfl, hout⟩ := nativeMapRequest_outcome hse h
      have hmem : FuseCall.forget ino n ∈ calls := by
        rcases mem_append.mp he with he | he
        · obtain ⟨c, hm, hc⟩ := mem_map.mp he
          cases hc
          exact hm
        · cases obj <;> cases mem_singleton.mp he
      have hwalk : ∀ {i first stx}, Walked fs i first s.log calls stx →
          False := by
        intro i first stx hw
        obtain ⟨_, _, _, hc⟩ := hw.lookups _ hmem
        cases hc
      cases hout with
      | badParent _ hcalls => cases hcalls ▸ hmem
      | unresolved _ hw => exact hwalk hw
      | entered _ hw _ _ => exact hwalk hw
  | mapRelease key =>
    simp only [State.step, finesseServerNativeMapReleaseRequest] at h
    split at h
    · cases h
    · cases h
      cases mem_singleton.mp he
    split at h
    · cases h
    · cases h
      cases mem_singleton.mp he

theorem lookups_eq_zero : (∀ ino, lookups ev ino = 0) ↔ ∀ e ∈ ev, e.Idle := by
  simp only [lookups, countP_eq_zero]
  constructor
  · intro h e he
    cases e with
    | fuse call =>
      cases ht : call.taken with
      | none => exact ht
      | some ino => exact absurd (by simp [ht]) (h ino _ he)
    | _ => exact trivial
  · intro h ino e he
    cases e with
    | fuse call =>
      have ht : call.taken = none := h _ he
      simp [ht]
    | _ => simp

theorem forgets_eq_zero (h : ∀ e ∈ ev, ∀ ino n, e ≠ .fuse (.forget ino n))
    (ino : Inode) : forgets ev ino = 0 := by
  refine sum_eq_zero fun n hn => ?_
  obtain ⟨e, he, rfl⟩ := mem_map.mp hn
  split
  · exact absurd rfl (h _ he _ _)
  · rfl

/-- In a run that has released all its keys, the released keys are gone and
all FUSE lookups are forgotten if and only if no map request of the run found
the first component of its path. -/
theorem settled_iff_unanswered {fs : FileSystem} {se : FuseSession} {rs : List Request}
    {ev : List ServerEvent} {s : State}
    (h : run (State.step fs se) State.initial rs = some (ev, s)) : Released ev → (Settled ev s ↔
      Along (State.step fs se) (Unanswered fs se) State.initial rs) := by
  intro _
  have hforget : ∀ ino, forgets ev ino = 0 := by
    refine forgets_eq_zero ?_
    exact (safe_iff_along (fun s a e s' (hi : True) _ hs => ⟨hi, step_no_forget hs⟩)
      (fun s a e s' _ hf _ => absurd trivial hf) trivial h).mpr
      (along_trivial _ _)
  have hidle := safe_iff_along (fun s a e s' hv hp hs => step_idle hv hp hs)
    (fun s a e s' _ hp hs => step_taken hp hs) vacant_initial h
  constructor
  · rintro ⟨-, hbal⟩
    refine hidle.mp (lookups_eq_zero.mp fun ino => ?_)
    rw [hbal, hforget]
  intro ha
  have hv : Vacant s.table := run_invariant
    (fun s a e s' (hv : Vacant s.table) hp hs => (step_idle hv hp hs).1)
    vacant_initial h ha
  refine ⟨?_, fun ino => ?_⟩
  · rintro key - ⟨a, t, hl⟩
    cases (hv.lookup hl).1
  · rw [hforget, lookups_eq_zero.mpr (hidle.mpr ha)]

/-- A file system with one file, `a`, in its root. -/
def oneFile : FileSystem := fun _ _ name =>
  if name = ['a'] then
    .entry 7#64 ⟨7, 0, 0, 0, 0, 0, 0, 0, 0, 0o100644, 1, 0, 0, 0, 4096⟩
  else .error (-ENOENT)

def mounted : FuseSession := ⟨"/mnt".toList, true⟩

theorem settled_iff_unanswered_missing : ∃ ev s, run (State.step oneFile mounted) State.initial
      [.map 0#128 "/mnt/b".toList 0 1#128, .mapRelease 1#128] = some (ev, s) ∧
    Released ev ∧ (Settled ev s ↔
      Along (State.step oneFile mounted) (Unanswered oneFile mounted) State.initial
        [.map 0#128 "/mnt/b".toList 0 1#128, .mapRelease 1#128]) := by
  have hrun : ((run (State.step oneFile mounted) State.initial
      [.map 0#128 "/mnt/b".toList 0 1#128, .mapRelease 1#128]).map Prod.fst) =
      some [.fuse (.lookup 1#64 ['b'] (.error (-2))), .mapFailed 2, .released 1#128] := by
    decide +kernel
  obtain ⟨⟨ev, s⟩, hr, hev⟩ := map_eq_some_iff.mp hrun
  have hrel : Released ev := by
    intro key hm
    simp only at hev
    simp [hev] at hm
  exact ⟨ev, s, hr, hrel, settled_iff_unanswered hr hrel⟩

/-- A file is mapped and its key released: the key still resolves, and the
file system was never told to forget the file. -/
theorem released_key_resolves : ∃ ev s, run (State.step oneFile mounted) State.initial
      [.map 0#128 "/mnt/a".toList 0 1#128, .mapRelease 1#128] = some (ev, s) ∧
    Released ev ∧
    (∃ t, objectLookupByUuid s.table 1#128 = some (some 0, t)) ∧
    lookups ev 7#64 = 1 ∧ forgets ev 7#64 = 0 ∧ ¬ Settled ev s := by
  have hrun : ((run (State.step oneFile mounted) State.initial
      [.map 0#128 "/mnt/a".toList 0 1#128, .mapRelease 1#128]).map fun q =>
        (q.1, (objectLookupByUuid q.2.table 1#128).map Prod.fst)) =
      some ([.fuse (.lookup 1#64 ['a'] (oneFile [] 1#64 ['a'])),
        .mapped 1#128, .released 1#128], some (some 0)) := by
    decide +kernel
  obtain ⟨⟨ev, s⟩, hr, hq⟩ := map_eq_some_iff.mp hrun
  simp only [Prod.mk.injEq] at hq
  obtain ⟨hev, hl⟩ := hq
  obtain ⟨⟨r, t⟩, hl, hr0⟩ := map_eq_some_iff.mp hl
  have hres : objectLookupByUuid s.table 1#128 = some (some 0, t) := by
    rw [hl, ← hr0]
  have hlook : lookups ev 7#64 = 1 := by rw [hev]; decide
  have hforget : forgets ev 7#64 = 0 := by rw [hev]; decide
  refine ⟨ev, s, hr, ?_, ⟨t, hres⟩, hlook, hforget, ?_⟩
  · intro key hm
    have hkey : key = 1#128 := by simpa [hev] using hm
    rw [hkey, hev]
    decide
  · rintro ⟨-, hbal⟩
    have := hbal 7#64
    rw [hlook, hforget] at this
    cases this

end Finesse.Server
