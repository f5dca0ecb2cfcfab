import Finesse.Server.PathWalk

/-!
# What is left in the parameters of a resolution

`FinesseServerResolvePathName` also leaves three things in the parameters of the
caller: `Parent`, the directory it came to, `Cursor`, the place in the path up to
which it went, and `FinalName`, where the last component starts. A caller that is
about to create or remove a name asks for them with `GET_FINAL_PARENT`: it wants
the directory that holds the name, whether or not the name is there.

The function computes the places in a copy of the path that has no mount point in
it, and uses them as places in the path itself; and the inode that the caller can
read is that of the child. Only if the parent is not there is the result right.
-/

namespace Finesse.Server

open List
open Finesse.Utils (Inode)

/-- Where `Cursor` points to: into the path of the parameters, or into the copy,
which is freed before the function returns. -/
inductive Cursor where
  | null
  | inPath (idx : Nat)
  | inWork (idx : Nat)
deriving DecidableEq, Repr

/-- The status, the calls, and what the parameters hold at the end. -/
structure Resolved where
  status : Int
  statx : Statx
  log : List FuseCall
  parent : Inode
  cursor : Cursor
  finalName : Option Nat
deriving DecidableEq, Repr

/-- The part that the callers read. -/
def Resolved.result (r : Resolved) : Int × Statx × List FuseCall :=
  (r.status, r.statx, r.log)

/-- `workcurrent - workpath`, as an `unsigned`. -/
def asUnsigned (idx : Nat) : Nat := idx % 2 ^ 32

/-- The loop of `FinesseServerResolvePathName` and the lookup after it. The
component that is next starts at `idx` of the copy. -/
def resolveSegments (fs : FileSystem) (p : PathResolutionParameters) :
    Nat → Inode → List FuseCall → List Name → Option Resolved
  | _, _, _, [] => none
  | idx, ino, log, [final] =>
    match finesseServerInternalNameLookup fs log ino final with
    | none => none
    | some (status, stx, log) =>
      let r : Resolved := ⟨status, stx, log, ino, .inPath (asUnsigned idx),
        some (asUnsigned idx + 1)⟩
      if status = 0 then some r
      else if isNoEntry status then
        some { r with status := if p.getFinalParent then 0 else status }
      else none
  | idx, ino, log, seg :: next :: segs =>
    if seg = [] ∨ p.checkSecurity then none
    else
      match finesseServerInternalNameLookup fs log ino seg with
      | none => none
      | some (status, stx, log) =>
        if status ≠ 0 then
          if isNoEntry status then
            some ⟨status, stx, log, ino, .inPath (asUnsigned idx), none⟩
          else none
        else if isLink stx.mode.toNat ∨ stx.ino = 0#64 then none
        else resolveSegments fs p (idx + seg.length + 1) stx.ino log (next :: segs)

/-- `FinesseServerResolvePathName`, with all that it leaves in the parameters. -/
def resolveParameters (fs : FileSystem) (mountpoint : Name)
    (p : PathResolutionParameters) (log : List FuseCall) : Option Resolved :=
  let parentino := if p.parent = 0#64 then fuseRootId else p.parent
  match components (stripMountpoint mountpoint p.pathName) with
  | [] | [_] => some ⟨EINVAL, .zero, log, p.parent, .null, none⟩
  | first :: final :: [] =>
    if first ≠ [] then none
    else
      match finesseServerInternalNameLookup fs log parentino final with
      | none => none
      | some (status, stx, log) =>
        if status ≠ 0 then
          -- `ino` is still zero here
          if isNoEntry status then some ⟨status, stx, log, 0#64, .inWork 1, none⟩
          else none
        else if stx.ino = 0#64 then none
        else some ⟨0, stx, log, p.parent, .null, none⟩
  | first :: segs =>
    if first ≠ [] then none else resolveSegments fs p 1 parentino log segs

/-! ## The same function -/

variable {mountpoint : Name} {r : Resolved}

section Result

variable {fs : FileSystem} {p : PathResolutionParameters}

theorem resolveSegments_result {segs : List Name} :
    ∀ {idx : Nat} {ino : Inode} {log : List FuseCall},
      (resolveSegments fs p idx ino log segs).map Resolved.result =
        resolveComponents fs p ino log segs := by
  induction segs with
  | nil => intro idx ino log; rfl
  | cons seg segs ih =>
    intro idx ino log
    cases segs with
    | nil =>
      rw [resolveSegments, resolveComponents]
      cases finesseServerInternalNameLookup fs log ino seg with
      | none => rfl
      | some reply =>
        simp only []
        split
        · next h => rw [Option.map_some, Resolved.result, h]
        · split <;> rfl
    | cons next rest =>
      rw [resolveSegments, resolveComponents]
      split
      · rfl
      cases finesseServerInternalNameLookup fs log ino seg with
      | none => rfl
      | some reply =>
        simp only []
        split
        · split <;> rfl
        split
        · rfl
        · exact ih

/-- The parameters are left by the function that the callers use. -/
theorem resolveParameters_result {log : List FuseCall} :
    (resolveParameters fs mountpoint p log).map Resolved.result =
      finesseServerResolvePathName fs mountpoint p log := by
  simp only [resolveParameters, finesseServerResolvePathName]
  rcases components (stripMountpoint mountpoint p.pathName) with
    _ | ⟨first, _ | ⟨final, _ | ⟨next, segs⟩⟩⟩
  · rfl
  · rfl
  · simp only []
    split
    · rfl
    cases finesseServerInternalNameLookup fs log _ final with
    | none => rfl
    | some reply =>
      simp only []
      split
      · split <;> rfl
      · split <;> rfl
  · simp only []
    split
    · rfl
    · exact resolveSegments_result

end Result

/-! ## What a caller is promised -/

/-- A path that names some components, with the mount point before them or
without it. -/
def Spells (mountpoint path : Name) (names : List Name) : Prop :=
  path = mountpoint ++ pathOf names ∨ (path = pathOf names ∧ mountpoint.isPrefixOf path = false)

/-- `FINESSE_SERVER_PATH_RESOLUTION_GET_FINAL_PARENT`. -/
def getFinalParentFlag : Nat := 4

/-- The parameters of a caller that wants the directory of a name. -/
def finalParentOf (parent : Inode) (path : Name) : PathResolutionParameters :=
  finesseAllocateServerPathResolutionParameters parent path getFinalParentFlag

/-- If the directory that is to hold the last component is there, it is what was
resolved, and the last component is what both places are at. If a component is
missing, `Parent` is the directory that it is missing from. -/
structure ParentRight (fs : FileSystem) (mountpoint : Name) (parent : Inode)
    (path : Name) (names : List Name) (log : List FuseCall) : Prop where
  found : ∀ dir, (lookAll fs (.start parent) log names.dropLast).2 = .ok dir →
    ∃ r, resolveParameters fs mountpoint (finalParentOf parent path) log = some r ∧
      r.status = 0 ∧ finesseGetResolvedInode r.statx = (0, dir.ino) ∧
      ∃ idx, r.cursor = .inPath idx ∧ r.finalName = some idx ∧ names.getLast? = some (path.drop idx)
  missing : ∀ pre name post dir status, names = pre ++ name :: post →
    (lookAll fs (.start parent) log pre).2 = .ok dir →
    (lookAll fs (.start parent) log (pre ++ [name])).2 = .error status →
    ∃ r, resolveParameters fs mountpoint (finalParentOf parent path) log = some r ∧
      r.parent = dir.ino

/-- A component before the last one is missing, and up to it there is nothing
that the function does not handle: no symbolic link, no other error, and no entry
without an inode of its own. -/
def ParentMissing (fs : FileSystem) : Statx → List FuseCall → List Name → Prop
  | _, _, [] => False
  | _, _, [_] => False
  | stx, log, seg :: next :: segs =>
    match fs log stx.ino seg with
    | .error status => isNoEntry status
    | .entry nodeid attr =>
      nodeid = attr.ino ∧ nodeid ≠ 0#64 ∧ isLink (Statx.ofEntry nodeid attr).mode.toNat = false ∧
        ParentMissing fs (.ofEntry nodeid attr)
          (log ++ [.lookup stx.ino seg (.entry nodeid attr)]) (next :: segs)

section Walk

variable {fs : FileSystem} {p : PathResolutionParameters} {idx : Nat} {stx : Statx}
  {log : List FuseCall} {seg next : Name} {segs names : List Name}

theorem resolveSegments_cons (hsec : p.checkSecurity = false) (hseg : seg ≠ []) (hsep : '/' ∉ seg) :
    resolveSegments fs p idx stx.ino log (seg :: next :: segs) = match fs log stx.ino seg with
      | .error status =>
        if isNoEntry status then
          some ⟨status, .zero, log ++ [.lookup stx.ino seg (.error status)], stx.ino,
            .inPath (asUnsigned idx), none⟩
        else none
      | .entry nodeid attr =>
        if nodeid = attr.ino ∧ nodeid ≠ 0#64 ∧
            isLink (Statx.ofEntry nodeid attr).mode.toNat = false then
          resolveSegments fs p (idx + seg.length + 1) (Statx.ofEntry nodeid attr).ino
            (log ++ [.lookup stx.ino seg (.entry nodeid attr)]) (next :: segs)
        else none := by
  rw [resolveSegments, if_neg (by simp [hseg, hsec])]
  cases hr : fs log stx.ino seg with
  | error status =>
    rw [nameLookup_missing hsep hr]
    by_cases h0 : status = 0
    -- a reply that is too short is no error, but leaves no inode either
    · rw [h0]
      rfl
    · simp only [ne_eq, h0, not_false_eq_true, if_true]
  | entry nodeid attr =>
    by_cases hino : nodeid = attr.ino
    · rw [nameLookup_found hsep hr hino]
      simp only [ne_eq, not_true_eq_false, if_false]
      by_cases hstop : isLink (Statx.ofEntry nodeid attr).mode.toNat = true ∨
          (Statx.ofEntry nodeid attr).ino = 0#64
      · rw [if_pos hstop, if_neg]
        rintro ⟨-, h0, hlink⟩
        rcases hstop with h | h
        · rw [hlink] at h; cases h
        · exact h0 h
      · obtain ⟨hlink, h0⟩ := not_or.mp hstop
        rw [if_neg hstop, if_pos ⟨hino, h0, Bool.eq_false_iff.mpr hlink⟩]
    · have hnone : finesseServerInternalNameLookup fs log stx.ino seg = none := by
        rw [nameLookup_eq hsep, hr]
        exact if_pos hino
      rw [hnone]
      exact (if_neg fun h => hino h.1).symm

theorem resolveSegments_missing (hsec : p.checkSecurity = false) :
    ∀ {idx : Nat} {stx : Statx} {log : List FuseCall},
      (∀ c ∈ names, c ≠ [] ∧ '/' ∉ c) → ParentMissing fs stx log names →
      ∃ r, resolveSegments fs p idx stx.ino log names = some r ∧
        ∀ pre name post dir status, names = pre ++ name :: post →
          (lookAll fs stx log pre).2 = .ok dir →
          (lookAll fs stx log (pre ++ [name])).2 = .error status → r.parent = dir.ino := by
  induction names with
  | nil => intro idx stx log _ h; cases h
  | cons seg segs ih =>
    intro idx stx log hnames h
    obtain ⟨hseg, hsep⟩ := hnames seg mem_cons_self
    cases segs with
    | nil => cases h
    | cons next rest =>
      rw [resolveSegments_cons hsec hseg hsep]
      rw [ParentMissing] at h
      cases hr : fs log stx.ino seg with
      | error e =>
        rw [hr] at h
        refine ⟨_, if_pos h, fun pre name post dir status heq hdir _ => ?_⟩
        cases pre with
        | nil => cases hdir; rfl
        | cons c pre =>
          obtain ⟨rfl, -⟩ := List.cons.inj heq
          rw [lookAll_missing hr] at hdir
          cases hdir
      | entry nodeid attr =>
        rw [hr] at h
        obtain ⟨hino, h0, hlink, hrest⟩ := h
        obtain ⟨r, hres, hparent⟩ := ih (fun c hc => hnames c (mem_cons_of_mem _ hc)) hrest
        refine ⟨r, (if_pos ⟨hino, h0, hlink⟩).trans hres,
          fun pre name post dir status heq hdir hstatus => ?_⟩
        cases pre with
        | nil =>
          obtain ⟨rfl, -⟩ := List.cons.inj heq
          rw [nil_append, lookAll_found hr] at hstatus
          cases hstatus
        | cons c pre =>
          obtain ⟨rfl, htail⟩ := List.cons.inj heq
          rw [cons_append, lookAll_found hr] at hstatus
          rw [lookAll_found hr] at hdir
          exact hparent pre name post dir status htail hdir hstatus

/-- Where the walk to the parent fails, the function returns only if it can
handle all that comes before. -/
theorem parentMissing_of_some (hsec : p.checkSecurity = false) :
    ∀ {idx : Nat} {stx : Statx} {log : List FuseCall} {r : Resolved} {status : Int},
      (∀ c ∈ names, c ≠ [] ∧ '/' ∉ c) →
      resolveSegments fs p idx stx.ino log names = some r →
      (lookAll fs stx log names.dropLast).2 = .error status →
      ParentMissing fs stx log names := by
  induction names with
  | nil => intro idx stx log r status _ h; cases h
  | cons seg segs ih =>
    intro idx stx log r status hnames h hwalk
    obtain ⟨hseg, hsep⟩ := hnames seg mem_cons_self
    cases segs with
    | nil => cases hwalk
    | cons next rest =>
      rw [resolveSegments_cons hsec hseg hsep] at h
      rw [ParentMissing]
      cases hr : fs log stx.ino seg with
      | error e =>
        rw [hr] at h
        by_contra hno
        cases (if_neg hno).symm.trans h
      | entry nodeid attr =>
        simp only [hr] at h
        split at h
        · next hok =>
          rw [dropLast_cons_of_ne_nil (cons_ne_nil _ _), lookAll_found hr] at hwalk
          exact ⟨hok.1, hok.2.1, hok.2.2, ih (fun c hc => hnames c (mem_cons_of_mem _ hc)) h hwalk⟩
        · cases h

theorem lookAll_stops : ∀ {stx : Statx} {log : List FuseCall} {status : Int},
    (lookAll fs stx log names).2 = .error status →
    ∃ pre name post dir, names = pre ++ name :: post ∧ (lookAll fs stx log pre).2 = .ok dir ∧
      (lookAll fs stx log (pre ++ [name])).2 = .error status := by
  induction names with
  | nil => intro stx log status h; cases h
  | cons name names ih =>
    intro stx log status h
    cases hr : fs log stx.ino name with
    | error e =>
      rw [lookAll_missing hr] at h
      exact ⟨[], name, names, stx, rfl, rfl, by rw [nil_append, lookAll_missing hr, h]⟩
    | entry nodeid attr =>
      rw [lookAll_found hr] at h
      obtain ⟨pre, c, post, dir, rfl, hdir, hstatus⟩ := ih h
      refine ⟨name :: pre, c, post, dir, rfl, ?_, ?_⟩
      · rwa [lookAll_found hr]
      · rwa [cons_append, lookAll_found hr]

theorem ParentMissing.not_found : ∀ {stx dir : Statx} {log : List FuseCall},
    ParentMissing fs stx log names → (lookAll fs stx log names.dropLast).2 ≠ .ok dir := by
  induction names with
  | nil => intro stx dir log h; cases h
  | cons seg segs ih =>
    intro stx dir log h
    cases segs with
    | nil => cases h
    | cons next rest =>
      rw [ParentMissing] at h
      rw [dropLast_cons_of_ne_nil (cons_ne_nil _ _)]
      cases hr : fs log stx.ino seg with
      | error e =>
        rw [lookAll_missing hr]
        exact fun he => nomatch he
      | entry nodeid attr =>
        rw [hr] at h
        rw [lookAll_found hr]
        exact ih h.2.2.2

/-- `FinalName` stands one character after `Cursor`, if anywhere. -/
def Resolved.Apart (r : Resolved) : Prop :=
  ∀ idx, r.cursor = .inPath idx → r.finalName ≠ some idx

theorem Resolved.apart_of_succ {idx : Nat} (hc : r.cursor = .inPath idx)
    (hf : r.finalName = some (idx + 1)) : r.Apart := by
  intro i hi he
  rw [hc] at hi
  rw [hf] at he
  cases hi
  exact absurd (Option.some.inj he) (Nat.succ_ne_self _)

theorem Resolved.apart_of_none (hf : r.finalName = none) : r.Apart :=
  fun _ _ he => nomatch hf.symm.trans he

theorem resolveSegments_apart : ∀ {idx : Nat} {ino : Inode} {log : List FuseCall}
    {r : Resolved}, resolveSegments fs p idx ino log names = some r → r.Apart := by
  induction names with
  | nil => intro idx ino log r h; cases h
  | cons seg segs ih =>
    intro idx ino log r h
    cases segs with
    | nil =>
      rw [resolveSegments] at h
      split at h
      · cases h
      simp only [] at h
      split at h
      · cases h
        exact Resolved.apart_of_succ rfl rfl
      split at h
      · cases h
        exact Resolved.apart_of_succ rfl rfl
      · cases h
    | cons next rest =>
      rw [resolveSegments] at h
      split at h
      · cases h
      split at h
      · cases h
      split at h
      · split at h
        · cases h
          exact Resolved.apart_of_none rfl
        · cases h
      · split at h
        · cases h
        · exact ih h

theorem resolveParameters_apart (h : resolveParameters fs mountpoint p log = some r) : r.Apart := by
  simp only [resolveParameters] at h
  split at h
  · cases h; exact Resolved.apart_of_none rfl
  · cases h; exact Resolved.apart_of_none rfl
  · split at h
    · cases h
    split at h
    · cases h
    split at h
    · split at h
      · cases h; exact Resolved.apart_of_none rfl
      · cases h
    · split at h
      · cases h
      · cases h; exact Resolved.apart_of_none rfl
  · split at h
    · cases h
    · exact resolveSegments_apart h

end Walk

theorem Spells.strip {path : Name} {names : List Name}
    (h : Spells mountpoint path names) : stripMountpoint mountpoint path = pathOf names := by
  rw [stripMountpoint]
  rcases h with rfl | ⟨rfl, hno⟩
  · have hpre := isPrefixOf_iff_prefix.mpr (prefix_append mountpoint (pathOf names))
    rw [if_pos hpre, drop_left]
  · rw [hno]
    rfl

theorem resolveParameters_eq {fs : FileSystem} {path : Name} {parent : Inode} {log : List FuseCall}
    {seg next : Name} {segs : List Name} (hnames : ∀ c ∈ seg :: next :: segs, c ≠ [] ∧ '/' ∉ c)
    (hpath : Spells mountpoint path (seg :: next :: segs)) :
    resolveParameters fs mountpoint (finalParentOf parent path) log =
      resolveSegments fs (finalParentOf parent path) 1 (Statx.start parent).ino log
        (seg :: next :: segs) := by
  have hcomp : components (stripMountpoint mountpoint (finalParentOf parent path).pathName) =
      [] :: seg :: next :: segs := by
    rw [show (finalParentOf parent path).pathName = path from rfl, hpath.strip]
    exact components_pathOf fun c hc => (hnames c hc).2
  simp only [resolveParameters, hcomp]
  rfl

/-- The parameters are right exactly if the walk stops before the parent. -/
theorem parent_right_iff {fs : FileSystem} {mountpoint path : Name} {parent : Inode}
    {names : List Name} {log : List FuseCall} (hne : names ≠ [])
    (hnames : ∀ c ∈ names, c ≠ [] ∧ '/' ∉ c) (hpath : Spells mountpoint path names) :
    ParentRight fs mountpoint parent path names log ↔
      ParentMissing fs (.start parent) log names := by
  constructor
  · intro h
    -- the parent cannot be there, because the places would have to coincide
    cases hwalk : (lookAll fs (.start parent) log names.dropLast).2 with
    | ok dir =>
      obtain ⟨r, hr, -, -, idx, hcursor, hfinal, -⟩ := h.found dir hwalk
      exact absurd hfinal (resolveParameters_apart hr idx hcursor)
    | error status =>
      obtain ⟨pre, name, post, dir, heq, hdir, hstatus⟩ := lookAll_stops hwalk
      obtain ⟨last, hlast⟩ : ∃ last, names = names.dropLast ++ [last] :=
        ⟨_, (dropLast_append_getLast hne).symm⟩
      obtain ⟨r, hr, -⟩ := h.missing pre name (post ++ [last]) dir status
        (by rw [hlast, heq, append_assoc, cons_append]) hdir hstatus
      match names, hnames, hpath, hr, hwalk with
      | [], _, _, _, hwalk => cases hwalk
      | [_], _, _, _, hwalk => cases hwalk
      | seg :: next :: segs, hnames, hpath, hr, hwalk =>
        rw [resolveParameters_eq hnames hpath] at hr
        exact parentMissing_of_some rfl hnames hr hwalk
  · intro h
    refine ⟨fun dir hdir => absurd hdir h.not_found, ?_⟩
    match names, hnames, hpath, h with
    | seg :: next :: segs, hnames, hpath, h =>
      rw [resolveParameters_eq hnames hpath]
      obtain ⟨r, hr, hparent⟩ :=
        @resolveSegments_missing fs (finalParentOf parent path) _ rfl 1 _ _ hnames h
      intro pre name post dir status heq hdir hstatus
      exact ⟨r, hr, hparent pre name post dir status heq hdir hstatus⟩

/-- The path `/mnt/x/f`, where there is no directory `x`. -/
theorem parent_right_iff_missingDirectory :
    ParentRight oneDirectory "/mnt".toList 0#64 "/mnt/x/f".toList [['x'], ['f']] [] :=
  (parent_right_iff (by decide) (by decide) (.inl rfl)).mpr
    (show ParentMissing oneDirectory (.start 0#64) [] [['x'], ['f']] from rfl)

/-- The path `/mnt/d/f`: the inode is that of the file, not that of the directory,
and the places are those of the path without the mount point. The path `/f`: the
root is there and the file is not, but the status is an error. -/
theorem final_parent_not_found :
    (∃ dir, (lookAll oneDirectory (.start 0#64) [] [['d']]).2 = .ok dir ∧ dir.ino = 2#64) ∧
    (∃ r, resolveParameters oneDirectory "/mnt".toList
        (finalParentOf 0#64 "/mnt/d/f".toList) [] = some r ∧
      finesseGetResolvedInode r.statx = (0, 3#64) ∧
      r.cursor = .inPath 3 ∧ r.finalName = some 4 ∧
      "/mnt/d/f".toList.drop 3 = "t/d/f".toList ∧
      "/mnt/d/f".toList.drop 4 = "/d/f".toList) ∧
    (∃ r, resolveParameters oneDirectory "/mnt".toList
        (finalParentOf 0#64 "/f".toList) [] = some r ∧
      r.status = -ENOENT ∧ r.parent = 0#64 ∧ r.cursor = .inWork 1 ∧ r.finalName = none) ∧
    ¬ParentRight oneDirectory "/mnt".toList 0#64 "/mnt/d/f".toList [['d'], ['f']] [] := by
  refine ⟨⟨_, rfl, rfl⟩, ⟨_, rfl, by decide⟩, ⟨_, rfl, by decide⟩, fun h => ?_⟩
  obtain ⟨r, hr, -, -, idx, hcursor, hfinal, -⟩ := h.found _ rfl
  exact resolveParameters_apart hr idx hcursor hfinal

end Finesse.Server
