import Finesse.Server.Resolution

/-!
# A path as a fold

What `FinesseServerResolvePathName` is for: the components of a path are looked
up one after the other, each in what the one before it led to, until one is not
there. The function has a loop over a copy of the path that it cuts up, a lookup
after the loop for the last component, and a branch of its own for a path of one
component. `resolvePathName_eq` says that it comes to the same.

One thing differs. A missing component is to be reported as `ENOENT`, as the
comment over the function has it, but the status is the error of the FUSE reply,
and FUSE replies with the negative number.
-/

namespace Finesse.Server

open List
open Finesse.Utils (Inode)

/-! ## The fold -/

/-- The path of some components. -/
def pathOf (names : List Name) : Name := names.flatMap ('/' :: ·)

/-- One component is looked up, unless one before it was missing. -/
def look (fs : FileSystem) (st : List FuseCall × Except Int Statx) (name : Name) :
    List FuseCall × Except Int Statx :=
  match st with
  | (log, .error status) => (log, .error status)
  | (log, .ok stx) =>
    let reply := fs log stx.ino name
    (log ++ [.lookup stx.ino name reply], match reply with
      | .entry nodeid attr => .ok (.ofEntry nodeid attr)
      | .error status => .error status)

/-- All the components of a path, from an inode on. -/
def lookAll (fs : FileSystem) (stx : Statx) (log : List FuseCall) (names : List Name) :
    List FuseCall × Except Int Statx :=
  names.foldl (look fs) (log, .ok stx)

/-- Where a path starts: in the parent, or in the root if there is none. -/
def Statx.start (parent : Inode) : Statx :=
  { Statx.zero with ino := if parent = 0#64 then fuseRootId else parent }

/-- What is left to return of a fold. -/
def outcome : List FuseCall × Except Int Statx → Int × Statx × List FuseCall
  | (log, .ok stx) => (0, stx, log)
  | (log, .error status) => (status, .zero, log)

/-! ## What is assumed of the file system and the path -/

/-- An entry names one inode, and the only error is `ENOENT`, with the sign that
`fuse_reply_err` gives it. -/
def FuseReply.NoOtherError : FuseReply → Prop
  | .entry nodeid attr => nodeid = attr.ino ∧ nodeid ≠ 0#64
  | .error status => status = -ENOENT

/-- No component but the last leads to a symbolic link. -/
def CrossesNoLink (fs : FileSystem) (stx : Statx) (log : List FuseCall)
    (names : List Name) : Prop :=
  ∀ pre post, names = pre ++ post → pre ≠ [] → post ≠ [] →
    ∀ found, (lookAll fs stx log pre).2 = .ok found → isLink found.mode.toNat = false

/-- The function makes the lookups of the fold and no others, and returns the
attributes that it ends with, or `ENOENT`. -/
def ResolvesRight (fs : FileSystem) (mountpoint : Name) (parent : Inode)
    (names : List Name) (log : List FuseCall) : Prop :=
  let walk := lookAll fs (.start parent) log names
  ∃ status stx, finesseServerResolvePathName fs mountpoint
      (finesseAllocateServerPathResolutionParameters parent (pathOf names) 0) log =
        some (status, stx, walk.1) ∧
    match walk.2 with
    | .ok found => status = 0 ∧ stx = found
    | .error _ => status = ENOENT

/-! ## The path and its components -/

theorem components_append {c p : Name} (hc : '/' ∉ c) {first : Name} {segs : List Name}
    (hp : components p = first :: segs) : components (c ++ p) = (c ++ first) :: segs := by
  induction c with
  | nil => exact hp
  | cons x xs ih =>
    have hx : x ≠ '/' := fun e => hc (e ▸ mem_cons_self)
    rw [cons_append, components, if_neg hx, ih fun hm => hc (mem_cons_of_mem _ hm)]
    rfl

theorem components_pathOf {names : List Name} (h : ∀ c ∈ names, '/' ∉ c) :
    components (pathOf names) = [] :: names := by
  induction names with
  | nil => rfl
  | cons c rest ih =>
    have hrest := ih fun d hd => h d (mem_cons_of_mem _ hd)
    have hc := components_append (h c mem_cons_self) hrest
    rw [pathOf, flatMap_cons, cons_append, components, if_pos rfl]
    rw [← pathOf, hc, append_nil]

variable {attr : FuseAttr} {nodeid : Inode}

section Walk

variable {fs : FileSystem} {p : PathResolutionParameters} {stx : Statx}
  {log : List FuseCall} {name : Name} {names : List Name}

theorem lookAll_found (h : fs log stx.ino name = .entry nodeid attr) :
    lookAll fs stx log (name :: names) = lookAll fs (.ofEntry nodeid attr)
      (log ++ [.lookup stx.ino name (.entry nodeid attr)]) names := by
  rw [lookAll, foldl_cons, look]
  simp only [h]
  rfl

theorem lookAll_missing {status : Int} (h : fs log stx.ino name = .error status) :
    lookAll fs stx log (name :: names) =
      (log ++ [.lookup stx.ino name (.error status)], .error status) := by
  rw [lookAll, foldl_cons, look]
  simp only [h]
  induction names with
  | nil => rfl
  | cons _ _ ih => exact ih

theorem CrossesNoLink.tail (h : CrossesNoLink fs stx log (name :: names))
    (hr : fs log stx.ino name = .entry nodeid attr) : CrossesNoLink fs (.ofEntry nodeid attr)
      (log ++ [.lookup stx.ino name (.entry nodeid attr)]) names := by
  intro pre post heq hpre hpost found hfound
  refine h (name :: pre) post (by rw [heq]; rfl) (cons_ne_nil _ _) hpost found ?_
  rwa [lookAll_found hr]

theorem CrossesNoLink.head (h : CrossesNoLink fs stx log (name :: names)) (hne : names ≠ [])
    (hr : fs log stx.ino name = .entry nodeid attr) :
    isLink (Statx.ofEntry nodeid attr).mode.toNat = false :=
  h [name] names rfl (cons_ne_nil _ _) hne _ (by rw [lookAll_found hr]; rfl)

theorem nameLookup_found (hname : '/' ∉ name) (hr : fs log stx.ino name = .entry nodeid attr)
    (hino : nodeid = attr.ino) : finesseServerInternalNameLookup fs log stx.ino name =
      some (0, .ofEntry nodeid attr, log ++ [.lookup stx.ino name (.entry nodeid attr)]) := by
  rw [nameLookup_eq hname, hr]
  exact if_neg (not_not.mpr hino)

theorem nameLookup_missing (hname : '/' ∉ name) {status : Int}
    (hr : fs log stx.ino name = .error status) :
    finesseServerInternalNameLookup fs log stx.ino name =
      some (status, .zero, log ++ [.lookup stx.ino name (.error status)]) := by
  rw [nameLookup_eq hname, hr]

/-- The loop and the lookup after it are the fold. -/
theorem resolveComponents_eq (hfs : ∀ log ino name, (fs log ino name).NoOtherError)
    (hsec : p.checkSecurity = false) (hfinal : p.getFinalParent = false)
    (hnames : ∀ c ∈ names, c ≠ [] ∧ '/' ∉ c) (hne : names ≠ []) :
    ∀ {stx : Statx} {log : List FuseCall}, CrossesNoLink fs stx log names →
      resolveComponents fs p stx.ino log names = some (outcome (lookAll fs stx log names)) := by
  induction names with
  | nil => exact absurd rfl hne
  | cons name names ih =>
    intro stx log hlink
    obtain ⟨hempty, hname⟩ := hnames name mem_cons_self
    have hreply := hfs log stx.ino name
    cases names with
    | nil =>
      rw [resolveComponents]
      cases hr : fs log stx.ino name with
      | entry nodeid attr =>
        rw [hr] at hreply
        rw [nameLookup_found hname hr hreply.1, lookAll_found hr]
        rfl
      | error status =>
        rw [hr] at hreply
        obtain rfl : status = -ENOENT := hreply
        rw [nameLookup_missing hname hr, lookAll_missing hr]
        simp only [hfinal]
        rfl
    | cons next rest =>
      rw [resolveComponents, if_neg (by simp [hempty, hsec])]
      cases hr : fs log stx.ino name with
      | entry nodeid attr =>
        rw [hr] at hreply
        have hstop : ¬(isLink (Statx.ofEntry nodeid attr).mode.toNat = true ∨
            (Statx.ofEntry nodeid attr).ino = 0#64) := by
          rw [hlink.head (cons_ne_nil _ _) hr]
          exact not_or.mpr ⟨Bool.false_ne_true, hreply.2⟩
        rw [nameLookup_found hname hr hreply.1, lookAll_found hr]
        simp only [ne_eq, not_true_eq_false, if_false, if_neg hstop]
        exact ih (fun c hc => hnames c (mem_cons_of_mem _ hc)) (cons_ne_nil _ _) (hlink.tail hr)
      | error status =>
        rw [hr] at hreply
        obtain rfl : status = -ENOENT := hreply
        rw [nameLookup_missing hname hr, lookAll_missing hr]
        rfl

/-- The whole function is the fold, also for a path of one component. -/
theorem resolvePathName_eq {mountpoint : Name}
    (hfs : ∀ log ino name, (fs log ino name).NoOtherError) (hsec : p.checkSecurity = false)
    (hfinal : p.getFinalParent = false) (hnames : ∀ c ∈ names, c ≠ [] ∧ '/' ∉ c) (hne : names ≠ [])
    (hpath : p.pathName = pathOf names) (hmount : mountpoint.isPrefixOf (pathOf names) = false)
    (hlink : CrossesNoLink fs (.start p.parent) log names) :
    finesseServerResolvePathName fs mountpoint p log =
      some (outcome (lookAll fs (.start p.parent) log names)) := by
  have hcomp : components (stripMountpoint mountpoint p.pathName) = [] :: names := by
    rw [hpath, stripMountpoint, if_neg (by rw [hmount]; exact Bool.false_ne_true)]
    exact components_pathOf fun c hc => (hnames c hc).2
  have hino : (if p.parent = 0#64 then fuseRootId else p.parent) = (Statx.start p.parent).ino := rfl
  simp only [finesseServerResolvePathName, hcomp, hino]
  generalize Statx.start p.parent = start at hlink ⊢
  rcases names with _ | ⟨name, _ | ⟨next, rest⟩⟩
  · exact absurd rfl hne
  · obtain ⟨-, hname⟩ := hnames name mem_cons_self
    have hreply := hfs log start.ino name
    simp only [ne_eq, not_true_eq_false, if_false]
    cases hr : fs log start.ino name with
    | entry nodeid attr =>
      rw [hr] at hreply
      rw [nameLookup_found hname hr hreply.1, lookAll_found hr]
      exact if_neg hreply.2
    | error status =>
      rw [hr] at hreply
      obtain rfl : status = -ENOENT := hreply
      rw [nameLookup_missing hname hr, lookAll_missing hr]
      rfl
  · simp only [ne_eq, not_true_eq_false, if_false]
    exact resolveComponents_eq hfs hsec hfinal hnames hne hlink

theorem lookAll_error (hfs : ∀ log ino name, (fs log ino name).NoOtherError) :
    ∀ {stx : Statx} {log : List FuseCall} {status : Int},
      (lookAll fs stx log names).2 = .error status → status = -ENOENT := by
  induction names with
  | nil => intro stx log status h; cases h
  | cons name names ih =>
    intro stx log status h
    have hreply := hfs log stx.ino name
    cases hr : fs log stx.ino name with
    | entry nodeid attr =>
      rw [lookAll_found hr] at h
      exact ih h
    | error e =>
      rw [lookAll_missing hr] at h
      rw [hr] at hreply
      cases h
      exact hreply

/-- A path is resolved as it should be exactly if all its components are
there. -/
theorem resolve_right_iff {mountpoint : Name} {parent : Inode}
    (hfs : ∀ log ino name, (fs log ino name).NoOtherError) (hnames : ∀ c ∈ names, c ≠ [] ∧ '/' ∉ c)
    (hne : names ≠ []) (hmount : mountpoint.isPrefixOf (pathOf names) = false)
    (hlink : CrossesNoLink fs (.start parent) log names) :
    ResolvesRight fs mountpoint parent names log ↔
      ∃ found, (lookAll fs (.start parent) log names).2 = .ok found := by
  have heq := @resolvePathName_eq fs
    (finesseAllocateServerPathResolutionParameters parent (pathOf names) 0) log names
    mountpoint hfs rfl rfl hnames hne rfl hmount hlink
  rw [ResolvesRight]
  generalize hwalk : lookAll fs (.start parent) log names = walk
  change finesseServerResolvePathName _ _ _ _ =
    some (outcome (lookAll fs (.start parent) log names)) at heq
  rw [hwalk] at heq
  obtain ⟨log', result⟩ := walk
  cases result with
  | ok found => exact iff_of_true ⟨0, found, heq, rfl, rfl⟩ ⟨found, rfl⟩
  | error e =>
    refine iff_of_false ?_ (fun ⟨_, h⟩ => nomatch h)
    rintro ⟨status, stx, h, rfl⟩
    -- what is returned is the error of the reply
    obtain ⟨he, -⟩ := Prod.mk.inj (Option.mem_unique heq h)
    have hneg : e = -ENOENT := lookAll_error hfs (congrArg Prod.snd hwalk)
    rw [hneg] at he
    exact absurd he (by decide)

end Walk

/-- The attributes of a directory, or of a file. -/
def attrOf (ino : Inode) (mode : BitVec 32) : FuseAttr :=
  ⟨ino, 0, 0, 0, 0, 0, 0, 0, 0, mode, 1, 0, 0, 0, 4096⟩

/-- A file system with a directory `d` and a file `f` in it. -/
def oneDirectory : FileSystem := fun _ parent name =>
  if parent = fuseRootId ∧ name = ['d'] then .entry 2#64 (attrOf 2#64 0o040755)
  else if parent = 2#64 ∧ name = ['f'] then .entry 3#64 (attrOf 3#64 0o100644)
  else .error (-ENOENT)

theorem oneDirectory_noOtherError (log : List FuseCall) (ino : Inode) (name : Name) :
    (oneDirectory log ino name).NoOtherError := by
  rw [oneDirectory]
  split
  · exact ⟨rfl, by decide⟩
  split
  · exact ⟨rfl, by decide⟩
  · rfl

theorem intErrors_oneDirectory : IntErrors oneDirectory := by
  intro log ino name status h
  have hreply := oneDirectory_noOtherError log ino name
  rw [h] at hreply
  rw [show status = -ENOENT from hreply]
  decide

theorem oneDirectory_crossesNoLink (name : Name) :
    CrossesNoLink oneDirectory (.start 0#64) [] [['d'], name] := by
  intro pre post heq hpre hpost found hfound
  match pre, heq with
  | [], _ => exact absurd rfl hpre
  | [_], heq =>
    obtain ⟨rfl, -⟩ := List.cons.inj heq
    cases hfound
    decide
  | _ :: _ :: _, heq =>
    obtain ⟨-, heq⟩ := List.cons.inj heq
    obtain ⟨-, heq⟩ := List.cons.inj heq
    exact absurd (append_eq_nil_iff.mp heq.symm).2 hpost

/-- The path `/d/f`. -/
theorem resolve_right_iff_file : ResolvesRight oneDirectory "/mnt".toList 0#64 [['d'], ['f']] [] :=
  (resolve_right_iff oneDirectory_noOtherError (by decide) (by decide) (by decide)
    (oneDirectory_crossesNoLink ['f'])).mpr ⟨_, rfl⟩

/-- The path `/d/x` is looked up as it should be, but the status is the negative
number. -/
theorem missing_component_negative : finesseServerResolvePathName oneDirectory "/mnt".toList
        (finesseAllocateServerPathResolutionParameters 0#64 "/d/x".toList 0) [] =
      some (-2, .zero, (lookAll oneDirectory (.start 0#64) [] [['d'], ['x']]).1) ∧
    (lookAll oneDirectory (.start 0#64) [] [['d'], ['x']]).2 = .error (-2) ∧ ENOENT = 2 ∧
    ¬ResolvesRight oneDirectory "/mnt".toList 0#64 [['d'], ['x']] [] := by
  refine ⟨by decide, rfl, rfl, ?_⟩
  rintro ⟨status, stx, h, hstatus⟩
  obtain ⟨hneg, -⟩ := Prod.mk.inj (Option.some.inj h)
  exact absurd (hneg.trans (show status = ENOENT from hstatus)) (by decide)

end Finesse.Server
