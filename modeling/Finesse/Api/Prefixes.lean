import Finesse.Lib.Machine
import Finesse.Lib.Paths
import Finesse.Comm.ServerName

/-!
# The mounts of a client

The library in the client keeps a table of the mounts that have a Finesse server
behind them, in the order of `/etc/mtab`. For every call that takes a path,
`finesse_check_prefix` looks for the server to send it to; a path that is in none of
the mounts goes to the system as before.

The loop takes the first entry whose characters the path starts with.
`check_right_iff` says for which tables and names that is the right one.
-/

namespace Finesse.Api

open Finesse.Paths Finesse.Comm Memory List

variable {κ : Type*}

/-- An entry of `finesse_prefix_table` that is in use: the mount point, with its
length, and the handle of the connection. -/
structure PrefixEntry (κ : Type*) where
  mount : List Char
  clientHandle : κ
deriving DecidableEq, Repr

/-- `finesse_prefix_table`: the entries in use come first. -/
structure PrefixTable (κ : Type*) where
  entries : List (PrefixEntry κ)
  size : entries.length ≤ 64
  fits : ∀ e ∈ entries, e.mount.length ≤ 256

/-- The loop of `finesse_check_prefix`. -/
def checkEntries (name : List Char) : List (PrefixEntry κ) → Option κ
  | [] => none
  | e :: rest =>
    if name.length < e.mount.length then checkEntries name rest
    else if name.take e.mount.length = e.mount then some e.clientHandle
    else checkEntries name rest

def finesseCheckPrefix (t : PrefixTable κ) (name : List Char) : Option κ :=
  checkEntries name t.entries

variable {name : List Char}

theorem checkEntries_hit {e : PrefixEntry κ} {entries : List (PrefixEntry κ)} (h : e.mount <+: name) :
    checkEntries name (e :: entries) = some e.clientHandle := by
  rw [checkEntries, if_neg (Nat.not_lt.mpr h.length_le), if_pos (prefix_iff_eq_take.mp h).symm]

theorem checkEntries_miss {e : PrefixEntry κ} {entries : List (PrefixEntry κ)} (h : ¬e.mount <+: name) :
    checkEntries name (e :: entries) = checkEntries name entries := by
  have hne : ¬name.take e.mount.length = e.mount := fun he =>
    h (prefix_iff_eq_take.mpr he.symm)
  rw [checkEntries, if_neg hne, ite_self]

/-! ## How the table is filled -/

def PrefixTable.empty : PrefixTable κ := ⟨[], Nat.zero_le _, fun _ h => nomatch h⟩

/-- An entry is filled in. Those before it are in use. -/
def PrefixTable.fill (t : PrefixTable κ) (index : Nat) (e : PrefixEntry κ)
    (h : index < 64 ∧ e.mount.length ≤ 256) : PrefixTable κ where
  entries := t.entries.take index ++ e :: t.entries.drop (index + 1)
  size := by
    have := t.size
    rw [length_append, length_take, length_cons, length_drop]
    omega
  fits := by
    intro e' he
    rcases mem_append.mp he with he | he
    · exact t.fits e' (mem_of_mem_take he)
    rcases mem_cons.mp he with rfl | he
    · exact h.2
    · exact t.fits e' (mem_of_mem_drop he)

/-- A line of `/etc/mtab`: the directory, and what comes of the attempt to connect
to its server. -/
structure MountEntry (κ : Type*) where
  dir : CString
  connection : Except Int κ

def MountEntry.mount (e : MountEntry κ) : List Char := e.dir.bytes.map fun b => Char.ofNat b.toNat

/-- The loop of `finesse_setup_server_connections`. The name of the server fits the
entry, which has as much room for it as `scratch`. -/
def setupConnections (sha256 : List UInt8 → Digest) (m : Mem) :
    Nat → PrefixTable κ → List (MountEntry κ) → Option (PrefixTable κ)
  | _, t, [] => some t
  | index, t, e :: mtab =>
    match generateServerName sha256 m e.dir 128 with
    | .error status =>
      if status = EOVERFLOW then none else setupConnections sha256 m index t mtab
    | .ok _ =>
      match e.connection with
      | .error _ => setupConnections sha256 m index t mtab
      | .ok handle =>
        if h : index < 64 ∧ e.mount.length ≤ 256 then
          setupConnections sha256 m (index + 1) (t.fill index ⟨e.mount, handle⟩ h) mtab
        else none

/-- `finesse_setup_server_connections`, which starts at the first entry. -/
def finesseSetupServerConnections (sha256 : List UInt8 → Digest) (m : Mem) (t : PrefixTable κ)
    (mtab : List (MountEntry κ)) : Option (PrefixTable κ) :=
  setupConnections sha256 m 0 t mtab

/-! ## The client

`finesse_init` is `finesse_real_init` until that has run, and again after
`finesse_shutdown`. -/

structure Client (κ : Type*) where
  /-- `finesse_init` is `finesse_dummy_init`, and `finesse_shutdown` is
  `finesse_real_shutdown` -/
  ready : Bool
  table : PrefixTable κ

def Client.start : Client κ := ⟨false, .empty⟩

/-- What the client is called for. `stop` is what `FinesseStopClientConnection`
returns for a connection. -/
inductive ClientCall (κ : Type*) where
  | init (mtab : List (MountEntry κ))
  | check (name : List Char)
  | shutdown (stop : κ → Int)

def finesseInit (sha256 : List UInt8 → Digest) (m : Mem) (c : Client κ)
    (mtab : List (MountEntry κ)) : Option (Client κ) :=
  if c.ready then some c
  else (finesseSetupServerConnections sha256 m c.table mtab).map fun t => ⟨true, t⟩

/-- `finesse_shutdown`: every entry in use loses its handle. -/
def finesseShutdown (c : Client κ) (stop : κ → Int) : Option (Client κ) :=
  if c.ready then
    if ∀ e ∈ c.table.entries, stop e.clientHandle = 0 then some ⟨false, .empty⟩ else none
  else some c

/-- The events are the answers for paths. -/
def Client.step (sha256 : List UInt8 → Digest) (m : Mem) (c : Client κ) :
    ClientCall κ → Option (List (Option κ) × Client κ)
  | .init mtab => (finesseInit sha256 m c mtab).map fun c => ([], c)
  | .check name => some ([finesseCheckPrefix c.table name], c)
  | .shutdown stop => (finesseShutdown c stop).map fun c => ([], c)

/-- The server of a mount, for the paths that start with its characters. -/
def MountEntry.serves (name : List Char) (e : MountEntry κ) : Option κ :=
  if e.mount <+: name then e.connection.toOption else none

/-- What the client is for, in terms of the lines that it has read: a path goes to the
first mount with a server that it starts with. -/
def Mounts.step (mounts : Option (List (MountEntry κ))) :
    ClientCall κ → Option (List (Option κ) × Option (List (MountEntry κ)))
  | .init mtab =>
    if mounts.isSome then some ([], mounts)
    else if (∀ e ∈ mtab, e.dir.length ≤ 102) ∧
        (mtab.filterMap fun e => e.connection.toOption).length ≤ 64 then some ([], some mtab)
    else none
  | .check name => some ([(mounts.getD []).findSome? (MountEntry.serves name)], mounts)
  | .shutdown stop =>
    if ∀ e ∈ mounts.getD [], ∀ handle ∈ e.connection.toOption, stop handle = 0 then some ([], none)
    else none

section Client

variable {sha256 : List UInt8 → Digest} {m : Mem} {mtab : List (MountEntry κ)} {e : MountEntry κ}
  {t t' : PrefixTable κ} {c : Client κ} {mounts : Option (List (MountEntry κ))}

/-- The entry that a line leads to. -/
def MountEntry.registered (e : MountEntry κ) : Option (PrefixEntry κ) :=
  e.connection.toOption.map fun handle => ⟨e.mount, handle⟩

/-- The directory and not the name made of it decides whether there is room, and the
25 characters before the directory count. -/
theorem generateServerName_scratch (p : CString) : generateServerName sha256 m p 128 =
    if p.length ≤ 102 then .ok (servicePath (shown (mountDigest sha256 p).words))
    else .error EOVERFLOW := by
  have hpath : ∀ text, (servicePath text).length = 25 + text.length := fun text => by
    simp [servicePath]
    omega
  have hshown : (shown (sha256 (servicePath p.bytes)).words).length ≤ 39 := length_shown _
  rw [generateServerName, hpath]
  dsimp only
  rw [stringAt_hashString, Option.getD_some, hpath]
  by_cases hp : p.length ≤ 102
  · rw [if_pos hp, if_neg (by rw [CString.length] at hp; omega), if_neg]
    · rfl
    · omega
  · rw [if_neg hp, if_pos (by rw [CString.length] at hp; omega)]

/-- While the entries before `index` are those in use, the table gets the mounts with a
server, in the order of the file. -/
theorem setupConnections_eq_some_iff : ∀ {t : PrefixTable κ},
    setupConnections sha256 m t.entries.length t mtab = some t' ↔
      (∀ e ∈ mtab, e.dir.length ≤ 102) ∧
        t'.entries = t.entries ++ mtab.filterMap MountEntry.registered := by
  induction mtab with
  | nil =>
    rintro ⟨es, _, _⟩
    obtain ⟨es', _, _⟩ := t'
    simp [setupConnections, eq_comm]
  | cons e mtab ih =>
    intro t
    rw [setupConnections, generateServerName_scratch, forall_mem_cons]
    by_cases hdir : e.dir.length ≤ 102
    swap
    · simp [hdir]
    rw [if_pos hdir]
    cases hc : e.connection with
    | error status => simp [MountEntry.registered, hc, ih, hdir, Except.toOption]
    | ok handle =>
      have hreg : e.registered = some ⟨e.mount, handle⟩ := by
        rw [MountEntry.registered, hc]
        rfl
      have hmount : e.mount.length ≤ 256 := by
        rw [MountEntry.mount, length_map]
        exact Nat.le_trans hdir (by decide)
      simp only [filterMap_cons_some hreg]
      split_ifs with hroom
      · have hfill : (t.fill t.entries.length ⟨e.mount, handle⟩ hroom).entries =
            t.entries ++ [⟨e.mount, handle⟩] := by
          simp [PrefixTable.fill]
        have hnext := ih (t := t.fill t.entries.length ⟨e.mount, handle⟩ hroom)
        rw [hfill, length_append, length_singleton, append_assoc, singleton_append] at hnext
        rw [hnext, and_iff_right hdir]
      · refine iff_of_false nofun fun h => hroom ⟨?_, hmount⟩
        have hlen := t'.size
        rw [h.2, length_append, length_cons] at hlen
        omega

/-- The table holds the mounts of the lines that were read, and nothing before that. -/
def Client.Shows (c : Client κ) (mounts : Option (List (MountEntry κ))) : Prop :=
  c.ready = mounts.isSome ∧ c.table.entries = (mounts.getD []).filterMap MountEntry.registered

theorem length_registered : (mtab.filterMap MountEntry.registered).length =
    (mtab.filterMap fun e => e.connection.toOption).length := by
  induction mtab with
  | nil => rfl
  | cons e mtab ih =>
    cases hc : e.connection <;> simp [MountEntry.registered, hc, Except.toOption] <;> exact ih

theorem setup_eq_some_iff : finesseSetupServerConnections sha256 m .empty mtab = some t' ↔
    (∀ e ∈ mtab, e.dir.length ≤ 102) ∧ t'.entries = mtab.filterMap MountEntry.registered :=
  setupConnections_eq_some_iff (t := .empty)

variable (sha256 m mtab) in
theorem Client.Shows.init (h : Client.Shows c none) :
    finesseInit sha256 m c mtab = none ∧ Mounts.step none (.init mtab) = none ∨
      ∃ c', finesseInit sha256 m c mtab = some c' ∧
        Mounts.step none (.init mtab) = some ([], some mtab) ∧ c'.Shows (some mtab) := by
  obtain ⟨ready, t, _, _⟩ := c
  obtain ⟨rfl, rfl⟩ : ready = false ∧ t = [] := h
  have hspec : Mounts.step none (.init mtab) = if (∀ e ∈ mtab, e.dir.length ≤ 102) ∧
      (mtab.filterMap MountEntry.registered).length ≤ 64 then some ([], some mtab) else none := by
    rw [length_registered]
    rfl
  change (finesseSetupServerConnections sha256 m .empty mtab).map _ = none ∧ _ ∨
    ∃ c', (finesseSetupServerConnections sha256 m .empty mtab).map _ = some c' ∧ _
  rw [hspec]
  by_cases hfits : (∀ e ∈ mtab, e.dir.length ≤ 102) ∧
      (mtab.filterMap MountEntry.registered).length ≤ 64
  · have hmounts : ∀ e ∈ mtab.filterMap MountEntry.registered, e.mount.length ≤ 256 := by
      intro e he
      obtain ⟨l, hl, hreg⟩ := mem_filterMap.mp he
      obtain ⟨handle, -, rfl⟩ := Option.map_eq_some_iff.mp hreg
      rw [MountEntry.mount, length_map]
      exact Nat.le_trans (hfits.1 l hl) (by decide)
    have hset : finesseSetupServerConnections sha256 m .empty mtab = some ⟨_, hfits.2, hmounts⟩ :=
      setup_eq_some_iff.mpr ⟨hfits.1, rfl⟩
    exact .inr ⟨_, congrArg _ hset, if_pos hfits, rfl, rfl⟩
  · refine .inl ⟨?_, if_neg hfits⟩
    cases hset : finesseSetupServerConnections sha256 m .empty mtab with
    | none => rfl
    | some t =>
      obtain ⟨hdirs, hentries⟩ := setup_eq_some_iff.mp hset
      exact absurd ⟨hdirs, hentries ▸ t.size⟩ hfits

end Client

/-! ## What the table is for -/

/-- A handle of the longest mount point that the path leads into. -/
def PrefixTable.Owner (t : PrefixTable κ) (name : List Char) (handle : κ) : Prop :=
  ∃ e ∈ t.entries, e.clientHandle = handle ∧ Covers '/' e.mount name ∧
    ∀ e' ∈ t.entries, Covers '/' e'.mount name → e'.mount.length ≤ e.mount.length

/-- The answer is the connection that the path belongs to, if it belongs to one. -/
def ChecksRight (t : PrefixTable κ) (name : List Char) : Prop :=
  match finesseCheckPrefix t name with
  | none => ∀ e ∈ t.entries, ¬Covers '/' e.mount name
  | some handle => t.Owner name handle

instance [DecidableEq κ] (t : PrefixTable κ) (name : List Char) (handle : κ) :
    Decidable (t.Owner name handle) :=
  inferInstanceAs (Decidable (∃ e ∈ t.entries, _))

instance [DecidableEq κ] (t : PrefixTable κ) (name : List Char) : Decidable (ChecksRight t name) :=
  match h : finesseCheckPrefix t name with
  | none => decidable_of_iff (∀ e ∈ t.entries, ¬Covers '/' e.mount name)
      (by rw [ChecksRight, h])
  | some handle => decidable_of_iff (t.Owner name handle) (by rw [ChecksRight, h])

/-- The same mounts, registered in some order. -/
def PrefixTable.Reordered (t t' : PrefixTable κ) : Prop := t'.entries.Perm t.entries

/-- The answer is right in whatever order the mounts were registered. It is also the
same then, unless there are two connections for one mount point. -/
structure RightInAnyOrder (t : PrefixTable κ) (name : List Char) : Prop where
  right : ∀ t', t.Reordered t' → ChecksRight t' name
  same : (t.entries.map (·.mount)).Nodup → ∀ t', t.Reordered t' →
    finesseCheckPrefix t' name = finesseCheckPrefix t name

section Check

variable {t t' : PrefixTable κ} {e : PrefixEntry κ} {entries : List (PrefixEntry κ)}
  {name : List Char} {handle : κ}

theorem checkEntries_none (h : checkEntries name entries = none) :
    ∀ e ∈ entries, ¬e.mount <+: name := by
  induction entries with
  | nil => exact fun e he => nomatch he
  | cons e entries ih =>
    have hno : ¬e.mount <+: name := fun hp =>
      nomatch (checkEntries_hit hp).symm.trans h
    rw [checkEntries_miss hno] at h
    intro e' he
    rcases mem_cons.mp he with rfl | he
    · exact hno
    · exact ih h e' he

theorem checkEntries_some (h : checkEntries name entries = some handle) :
    ∃ e ∈ entries, e.clientHandle = handle ∧ e.mount <+: name := by
  induction entries with
  | nil => cases h
  | cons e entries ih =>
    by_cases hp : e.mount <+: name
    · rw [checkEntries_hit hp] at h
      exact ⟨e, mem_cons_self, Option.some.inj h, hp⟩
    rw [checkEntries_miss hp] at h
    obtain ⟨e', he, hrest⟩ := ih h
    exact ⟨e', mem_cons_of_mem _ he, hrest⟩

theorem PrefixTable.Owner.reordered (h : t.Owner name handle) (hr : t'.Reordered t) :
    t'.Owner name handle := by
  obtain ⟨e, he, hh, hc, hlong⟩ := h
  exact ⟨e, hr.mem_iff.mp he, hh, hc, fun e' he' => hlong e' (hr.mem_iff.mpr he')⟩

theorem exists_reordered (he : e ∈ t.entries) :
    ∃ t', t.Reordered t' ∧ ∃ rest, t'.entries = e :: rest := by
  obtain ⟨before, after, heq⟩ := append_of_mem he
  have hperm : (e :: (before ++ after)).Perm t.entries := heq ▸ perm_middle.symm
  exact ⟨⟨e :: (before ++ after), hperm.length_eq ▸ t.size,
    fun e' he' => t.fits e' (hperm.mem_iff.mp he')⟩, hperm, before ++ after, rfl⟩

/-- If no two entries are for the same mount point, the right answer is one. -/
theorem PrefixTable.Owner.unique {handle' : κ} (hnodup : (t.entries.map (·.mount)).Nodup)
    (h : t.Owner name handle) (h' : t.Owner name handle') : handle = handle' := by
  obtain ⟨e, he, rfl, hc, hlong⟩ := h
  obtain ⟨e', he', rfl, hc', hlong'⟩ := h'
  have hmount : e.mount = e'.mount :=
    hc.eq_of_length hc' (Nat.le_antisymm (hlong' e he hc) (hlong e' he' hc'))
  rw [inj_on_of_nodup_map hnodup he he' hmount]

theorem ChecksRight.eq (hnodup : (t.entries.map (·.mount)).Nodup) (hr : t.Reordered t')
    (h : ChecksRight t name) (h' : ChecksRight t' name) :
    finesseCheckPrefix t' name = finesseCheckPrefix t name := by
  rw [ChecksRight] at h h'
  cases hc : finesseCheckPrefix t name with
  | none =>
    rw [hc] at h
    cases hc' : finesseCheckPrefix t' name with
    | none => rfl
    | some handle =>
      rw [hc'] at h'
      obtain ⟨e, he, -, hcov, -⟩ := h'
      exact absurd hcov (h e (hr.mem_iff.mp he))
  | some handle =>
    rw [hc] at h
    cases hc' : finesseCheckPrefix t' name with
    | none =>
      rw [hc'] at h'
      obtain ⟨e, he, -, hcov, -⟩ := h
      exact absurd hcov (h' e (hr.mem_iff.mpr he))
    | some handle' =>
      rw [hc'] at h'
      rw [(h'.reordered hr).unique hnodup h]

/-- In whatever order the mounts were registered, the answer is right, exactly if
every mount point whose characters the name starts with has the connection that the
name belongs to. -/
theorem check_right_iff : RightInAnyOrder t name ↔
      ∀ e ∈ t.entries, e.mount <+: name → t.Owner name e.clientHandle := by
  constructor
  · intro h e he hp
    -- the entry may be the one that the loop meets first
    obtain ⟨t', hr, rest, heq⟩ := exists_reordered he
    have hright := h.right t' hr
    rw [ChecksRight, finesseCheckPrefix, heq, checkEntries_hit hp] at hright
    exact hright.reordered hr
  · intro h
    have hright : ∀ t', t.Reordered t' → ChecksRight t' name := by
      intro t' hr
      rw [ChecksRight]
      cases hc : finesseCheckPrefix t' name with
      | none => exact fun e he hcov => checkEntries_none hc e he hcov.isPrefix
      | some handle =>
        obtain ⟨e, he, rfl, hp⟩ := checkEntries_some hc
        exact (h e (hr.mem_iff.mp he) hp).reordered hr.symm
    exact ⟨hright, fun hnodup t' hr => (hright t (.refl _)).eq hnodup hr (hright t' hr)⟩

end Check

/-- Two mounts, one of them in the other. -/
def nested : PrefixTable Nat :=
  ⟨[⟨"/a".toList, 0⟩, ⟨"/a/b".toList, 1⟩], by decide, by decide⟩

/-- The same two mounts, registered the other way round. -/
def nestedInnerFirst : PrefixTable Nat :=
  ⟨[⟨"/a/b".toList, 1⟩, ⟨"/a".toList, 0⟩], by decide, by decide⟩

/-- The path `/ax/f` is in neither of the two, but is taken for a path in `/a`. The
path `/a/b/f` is in both, and belongs to the one that was registered first. -/
theorem mount_of_another_path : finesseCheckPrefix nested "/ax/f".toList = some 0 ∧
    ¬ChecksRight nested "/ax/f".toList ∧
    nested.Reordered nestedInnerFirst ∧
    finesseCheckPrefix nested "/a/b/f".toList = some 0 ∧
    finesseCheckPrefix nestedInnerFirst "/a/b/f".toList = some 1 ∧
    ¬ChecksRight nested "/a/b/f".toList ∧
    ¬RightInAnyOrder nested "/a/b/f".toList := by
  refine ⟨by decide, by decide, List.Perm.swap _ _ _, by decide, by decide, by decide, fun h => ?_⟩
  exact absurd (h.right nested (.refl _)) (by decide)

end Finesse.Api
