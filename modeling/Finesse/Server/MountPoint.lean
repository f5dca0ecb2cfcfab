import Finesse.Lib.Paths
import Finesse.Server.PathWalk

/-!
# The mount point in a path

A client names a file by a path with the mount point of the file system at the
start. The server takes the mount point off in three places.
`FinesseServerInternalMapRequest` does so if the path is longer than the mount
point and starts with its characters; `FinsesseServerInternalPathMapRequest`
asserts that what it is given is not the mount point itself; and
`FinesseServerResolvePathName` takes the mount point off once more if it finds it
there again.

None of the three looks at the character after the mount point.
`strips_right_iff` says for which paths that comes to the right thing.
-/

namespace Finesse.Server

open Finesse.Utils Finesse.Paths List

/-- What `FinesseServerResolvePathName` copies to its work buffer for an absolute
path: nothing if an assertion fires before, or if the name that is left has no
separator and is not resolved as a path. -/
def resolvedPath (se : FuseSession) (path : Name) : Option Name :=
  let name := nameToParse se path
  if '/' ∈ name then
    if name.length ≤ se.mountpoint.length ∧ se.mountpoint.isPrefixOf name then none
    else some (stripMountpoint se.mountpoint name)
  else none

/-- The path is resolved as it is in the file system. -/
def StripsRight (se : FuseSession) (path : Name) : Prop :=
  resolvedPath se path = some (below '/' se.mountpoint path)

instance (se : FuseSession) (path : Name) : Decidable (StripsRight se path) :=
  inferInstanceAs (Decidable (_ = _))

/-! ## What a map request does with the path -/

variable {name : Name}

section Request

variable {fs : FileSystem} {se : FuseSession} {key : Option Uuid} {path w : Name}
  {flags : Nat} {uuid : Uuid} {s : State}

theorem resolveComponents_pathName {p : PathResolutionParameters}
    {segs : List Name} : ∀ {ino : Inode} {log : List FuseCall},
      resolveComponents fs { p with pathName := name } ino log segs =
        resolveComponents fs p ino log segs := by
  induction segs with
  | nil => intro ino log; rfl
  | cons seg segs ih =>
    intro ino log
    cases segs with
    | nil => rw [resolveComponents, resolveComponents]
    | cons next rest =>
      rw [resolveComponents, resolveComponents]
      simp only [ih]

theorem stripMountpoint_nil (name : Name) : stripMountpoint [] name = name := if_pos rfl

theorem resolvePathName_strip {mountpoint : Name} {ino : Inode} {log : List FuseCall} :
    finesseServerResolvePathName fs mountpoint
        (finesseAllocateServerPathResolutionParameters ino name flags) log =
      finesseServerResolvePathName fs [] (finesseAllocateServerPathResolutionParameters ino
          (stripMountpoint mountpoint name) flags) log := by
  simp only [finesseServerResolvePathName, finesseAllocateServerPathResolutionParameters,
    stripMountpoint_nil]
  rcases components (stripMountpoint mountpoint name) with
    _ | ⟨first, _ | ⟨seg, _ | ⟨next, segs⟩⟩⟩
  · rfl
  · rfl
  · rfl
  · simp only []
    split
    · rfl
    · exact resolveComponents_pathName.symm

theorem stripMountpoint_ne_nil {mountpoint : Name} (hne : name ≠ [])
    (h : name ≠ mountpoint) : stripMountpoint mountpoint name ≠ [] := by
  rw [stripMountpoint]
  split
  · next hp =>
    obtain ⟨rest, rfl⟩ := isPrefixOf_iff_prefix.mp hp
    rw [drop_left]
    exact fun hrest => h (by rw [hrest, append_nil])
  · exact hne

/-- A server whose file system is mounted on nothing, given the path that is left,
does the same. -/
theorem pathMapRequest_strip {parentIno : Inode} (hne : name ≠ [])
    (h : ¬(name.length ≤ se.mountpoint.length ∧ se.mountpoint.isPrefixOf name = true)) :
    pathMapRequest fs se parentIno key name flags uuid s =
      pathMapRequest fs { se with mountpoint := [] } parentIno key
        (stripMountpoint se.mountpoint name) flags uuid s := by
  have hrest : stripMountpoint se.mountpoint name ≠ [] :=
    stripMountpoint_ne_nil hne (mt isPrefixOf_iff_eq.mpr h)
  have h' : ¬((stripMountpoint se.mountpoint name).length ≤ ([] : Name).length ∧
      isPrefixOf [] (stripMountpoint se.mountpoint name) = true) :=
    fun hc => hrest (isPrefixOf_iff_eq.mp hc)
  rw [pathMapRequest, pathMapRequest, if_neg h, if_neg h']
  simp only [@resolvePathName_strip name fs flags se.mountpoint]

theorem pathMapRequest_root : pathMapRequest fs se fuseRootId key name flags uuid s =
      pathMapRequest fs se 0#64 key name flags uuid s := rfl

theorem internalMapRequest_eq : finesseServerInternalMapRequest fs se 0#64 key path flags uuid s =
      if Inside se path ∧ (key.filter (· ≠ 0#128)).isSome then none
      else if '/' ∈ nameToParse se path then
        pathMapRequest fs se 0#64 key (nameToParse se path) flags uuid s
      else nameMapRequest fs se (if Inside se path then fuseRootId else 0#64) key
        (nameToParse se path) uuid s := by
  by_cases hin : Inside se path
  · simp only [nameToParse, hin, true_and]
    simp only [Inside] at hin
    simp only [finesseServerInternalMapRequest, hin, and_self, if_true, ne_eq,
      not_true_eq_false, false_or, true_and, pathMapRequest_root]
  · simp only [nameToParse, hin, false_and, if_false]
    simp only [Inside] at hin
    simp only [finesseServerInternalMapRequest, hin, false_and, if_false]

/-- A map request resolves the path that it is said to. -/
theorem mapRequest_resolves (hkey : key.filter (· ≠ 0#128) = none)
    (h : resolvedPath se path = some w) :
    finesseServerInternalMapRequest fs se 0#64 key path flags uuid s =
      pathMapRequest fs { se with mountpoint := [] } 0#64 key w flags uuid s := by
  rw [internalMapRequest_eq, hkey, if_neg (by simp)]
  rw [resolvedPath] at h
  split at h
  · next hsep =>
    split at h
    · cases h
    next hok =>
    cases h
    rw [if_pos hsep, pathMapRequest_strip (ne_nil_of_mem hsep) hok]
  · cases h

end Request

/-! ## Which paths are resolved as they should be -/

section Strips

variable {se : FuseSession} {path rest : Name}

theorem resolvedPath_outside (hp : ¬se.mountpoint <+: path) (habs : '/' ∈ path) :
    resolvedPath se path = some path := by
  have hno : ¬se.mountpoint.isPrefixOf path = true := mt isPrefixOf_iff_prefix.mp hp
  have hname : nameToParse se path = path := if_neg fun h => hno h.2
  simp only [resolvedPath, hname, if_pos habs, if_neg fun h => hno (And.right h),
    stripMountpoint, if_neg hno]

theorem resolvedPath_self (se : FuseSession) : resolvedPath se se.mountpoint = none := by
  have hname : nameToParse se se.mountpoint = se.mountpoint := if_neg fun h => Nat.lt_irrefl _ h.1
  simp only [resolvedPath, hname, isPrefixOf_iff_eq, if_true, ite_self]

theorem nameToParse_append (hrest : rest ≠ []) : nameToParse se (se.mountpoint ++ rest) = rest := by
  have hpos := length_pos_of_ne_nil hrest
  have hin : Inside se (se.mountpoint ++ rest) :=
    ⟨by rw [length_append]; omega, isPrefixOf_iff_prefix.mpr (prefix_append _ _)⟩
  rw [nameToParse, if_pos hin, drop_left]

theorem resolvedPath_length {w : Name} (hrest : rest ≠ [])
    (h : resolvedPath se (se.mountpoint ++ rest) = some w) : w.length ≤ rest.length := by
  simp only [resolvedPath, nameToParse_append hrest] at h
  split at h
  · split at h
    · cases h
    cases h
    rw [stripMountpoint]
    split
    · rw [length_drop]; omega
    · exact Nat.le_refl _
  · cases h

/-- A path in the mount point: the mount point must not be there twice. -/
theorem strips_inside (hne : se.mountpoint ≠ []) :
    StripsRight se (se.mountpoint ++ '/' :: rest) ↔ ¬se.mountpoint <+: '/' :: rest := by
  have hname := @nameToParse_append se _ (cons_ne_nil '/' rest)
  simp only [StripsRight, below_append_sep, resolvedPath, hname, mem_cons_self, if_true,
    isPrefixOf_iff_eq]
  constructor
  · rintro h ⟨more, hmore⟩
    rw [← hmore] at h
    split at h
    · cases h
    have hpre := isPrefixOf_iff_prefix.mpr (prefix_append se.mountpoint more)
    rw [stripMountpoint, if_pos hpre, drop_left] at h
    -- the mount point is taken off a second time, and it is not empty
    have hlen := congrArg List.length (Option.some.inj h)
    have hpos := length_pos_of_ne_nil hne
    rw [length_append] at hlen
    omega
  · intro hp
    have hno : ¬se.mountpoint.isPrefixOf ('/' :: rest) = true := mt isPrefixOf_iff_prefix.mp hp
    have hne' : '/' :: rest ≠ se.mountpoint := fun h => hp (h ▸ prefix_refl _)
    rw [if_neg hne', stripMountpoint, if_neg hno]

/-- An absolute path is resolved as it should be exactly if it does not start
with the characters of the mount point, or goes on after them with a separator and
not with the mount point again. -/
theorem strips_right_iff (habs : ∃ names, path = '/' :: names) : StripsRight se path ↔
      ¬se.mountpoint <+: path ∨ se.mountpoint = [] ∨
        ∃ rest, path = se.mountpoint ++ '/' :: rest ∧ ¬se.mountpoint <+: '/' :: rest := by
  obtain ⟨names, hnames⟩ := habs
  by_cases hp : se.mountpoint <+: path
  · simp only [hp, not_true_eq_false, false_or]
    by_cases hnil : se.mountpoint = []
    · refine iff_of_true ?_ (.inl hnil)
      simp only [StripsRight, resolvedPath, nameToParse, hnil, hnames, Inside, below]
      simp [stripMountpoint]
    simp only [hnil, false_or]
    obtain ⟨rest, rfl⟩ := hp
    cases rest with
    | nil =>
      -- the mount point itself, for which the assertion fires
      rw [append_nil]
      refine iff_of_false (fun h => by cases (resolvedPath_self se).symm.trans h) ?_
      rintro ⟨rest, h, -⟩
      cases self_eq_append_right.mp h
    | cons c rest =>
      by_cases hc : c = '/'
      · subst hc
        rw [strips_inside hnil]
        constructor
        · exact fun h => ⟨rest, rfl, h⟩
        · rintro ⟨rest', h, hno⟩
          rwa [(List.cons.inj (append_cancel_left h)).2]
      · refine iff_of_false (fun h => ?_) ?_
        · rw [StripsRight, below_append_of_ne hc] at h
          have hlen := resolvedPath_length (cons_ne_nil c rest) h
          have hpos := length_pos_of_ne_nil hnil
          rw [length_append] at hlen
          omega
        · rintro ⟨rest', h, -⟩
          exact hc (List.cons.inj (append_cancel_left h)).1
  · refine iff_of_true ?_ (.inl hp)
    rw [StripsRight, below_of_not_prefix hp, resolvedPath_outside hp (hnames ▸ mem_cons_self)]

end Strips

/-- The path `/mnt/d`. -/
theorem strips_right_iff_directory : StripsRight mounted "/mnt/d".toList :=
  (strips_right_iff ⟨_, rfl⟩).mpr (.inr (.inr ⟨['d'], rfl, by decide⟩))

/-- The path `/mnt/d` again, as a request maps it. -/
theorem mapRequest_resolves_directory :
    finesseServerInternalMapRequest oneDirectory mounted 0#64 none "/mnt/d".toList 0 7#128
        .initial =
      pathMapRequest oneDirectory { mounted with mountpoint := [] } 0#64 none "/d".toList 0 7#128
        .initial :=
  mapRequest_resolves rfl (by decide)

/-- The path `/mnt/mnt/d` is resolved as `/d`, so that a request for it finds the
directory `d` in the root. For the sibling `/mntx/d` what is left is `x/d`, and for
`/mnt` nothing is left: both requests end in an assertion. -/
theorem mountpoint_stripped_twice : resolvedPath mounted "/mnt/mnt/d".toList = some "/d".toList ∧
    resolvedPath mounted "/mntx/d".toList = some "x/d".toList ∧
    resolvedPath mounted "/mnt".toList = none ∧
    ¬StripsRight mounted "/mnt/mnt/d".toList ∧ ¬StripsRight mounted "/mntx/d".toList ∧
    ¬StripsRight mounted "/mnt".toList ∧
    ((finesseServerInternalMapRequest oneDirectory mounted 0#64 none "/mnt/mnt/d".toList 0 7#128
      .initial).map fun r => (r.1, r.2.2.log)) =
      some (0, [.lookup fuseRootId ['d'] (.entry 2#64 (attrOf 2#64 0o040755))]) ∧
    finesseServerInternalMapRequest oneDirectory mounted 0#64 none "/mntx/d".toList 0 7#128
      .initial = none ∧
    finesseServerInternalMapRequest oneDirectory mounted 0#64 none "/mnt".toList 0 7#128
      .initial = none := by
  refine ⟨by decide, by decide, by decide, by decide, by decide, by decide, ?_, ?_, ?_⟩
  · decide +kernel
  · rfl
  · rfl

end Finesse.Server
