import Finesse.Server.PathWalk
import Finesse.Server.Worker

/-!
# What is unlinked

A file system is asked to unlink a name in a directory. A client names the file by a
path, absolute or relative to a directory that it holds the key of, so the handler
has to find the directory and the last component.

It does neither. `Unlink` maps the whole path, which gives the file and not the
directory, and passes the inode of the file together with the whole path. The path
contains a separator, and its last component does not, so no call is ever the right
one (`unlinks_right_iff`).
-/

namespace Finesse.Server

open Finesse.Utils Finesse.Comm Comm.Offset

/-- `Unlink`, with the inodes and names that `unlink` of the file system is called
with. -/
def unlinkWithCalls (x : Incoming) (se : FuseSession) (s : State) :
    Option (List (Inode × Name) × List Response × State) :=
  let parent := x.key parameters
  match x.name unlinkName with
  | none => none
  | some name =>
    match finesseServerInternalMapRequest x.ops.lookup se (parentIno parent)
        (some parent) name 0 x.uuid s with
    | none => none
    | some (status, finobj, s) =>
      if status ≠ 0 then some ([], [.unlink (errno status)], s)
      else
        match finobj with
        | none => none
        | some a =>
          match objectRelease s.table a with
          | none => none
          | some t =>
            some ([((s.table.entries a).inode, name)],
              [.unlink (x.ops.unlink (s.table.entries a).inode name)], ⟨t, s.log⟩)

/-- The calls are those of the handler. -/
theorem unlinkWithCalls_result (x : Incoming) (se : FuseSession) (s : State) :
    (unlinkWithCalls x se s).map Prod.snd = finesseServerFuseUnlink x se s := by
  unfold unlinkWithCalls finesseServerFuseUnlink
  cases x.name unlinkName with
  | none => rfl
  | some name =>
    dsimp only
    cases finesseServerInternalMapRequest x.ops.lookup se _ _ name 0 x.uuid s with
    | none => rfl
    | some r =>
      obtain ⟨status, finobj, s'⟩ := r
      dsimp only
      split
      · rfl
      cases finobj with
      | none => rfl
      | some a =>
        dsimp only
        cases objectRelease s'.table a <;> rfl

/-! ## What a client asks for -/

section

variable (x : Incoming) (se : FuseSession) (s : State)

/-- The request names some components, from an inode on: by an absolute path, or by
the key of a directory and a path that does not start with a separator. -/
structure UnlinkNames (name : Name) (start : Inode) (names : List Name) : Prop where
  nonempty : names ≠ []
  components : ∀ c ∈ names, c ≠ [] ∧ '/' ∉ c
  path : (x.key parameters = 0#128 ∧ start = fuseRootId ∧
      name = se.mountpoint ++ pathOf names) ∨
    (x.key parameters ≠ 0#128 ∧ Holds s.table (x.key parameters) start ∧
      '/' :: name = pathOf names)

/-- The inode that the handler maps the name to. -/
def UnlinkFinds (name : Name) (ino : Inode) : Prop :=
  MapFinds x.ops.lookup se (parentIno (x.key parameters))
    (some (x.key parameters)) name s ino

/-- A path that resolves is unlinked in the directory that holds it, under its last
component; for another path the file system is asked for nothing. -/
structure UnlinksRight (name : Name) : Prop where
  found : ∀ start names file, UnlinkNames x se s name start names →
    (lookAll x.ops.lookup (.start start) s.log names).2 = .ok file →
    ∃ dir last rs s', (lookAll x.ops.lookup (.start start) s.log names.dropLast).2 = .ok dir ∧
      last ∈ names.getLast? ∧ unlinkWithCalls x se s = some ([(dir.ino, last)], rs, s')
  missing : ∀ start names status, UnlinkNames x se s name start names →
    (lookAll x.ops.lookup (.start start) s.log names).2 = .error status →
    ∀ calls rs s', unlinkWithCalls x se s = some (calls, rs, s') → calls = []

end

section

variable {x : Incoming} {se : FuseSession} {s : State} {name : Name}

/-- The handler stops, makes no call because it finds nothing, or makes one call with
the inode that it found and the name of the request. -/
theorem unlinkWithCalls_cases (hk : Kept s.table) (hu : Fresh s.table x.uuid)
    (hname : x.name unlinkName = some name) :
    (unlinkWithCalls x se s = none ∧ ¬UnlinkRuns x se s name) ∨
    UnlinkRuns x se s name ∧ ∃ calls rs s', unlinkWithCalls x se s = some (calls, rs, s') ∧
      (calls = [] ∧ (∀ ino, ¬UnlinkFinds x se s name ino) ∨
        ∃ ino, calls = [(ino, name)] ∧ UnlinkFinds x se s name ino) := by
  unfold unlinkWithCalls
  rw [hname]
  dsimp only
  obtain ⟨hnone, hno⟩ | ⟨hruns, ⟨status, s', hsome, h0, -, -, hno⟩ |
      ⟨a, s', hsome, hk', ha, hfinds⟩⟩ :=
    internalMapRequest_cases (some (x.key parameters)) name 0 se x.ops.intErrors hk hu
      (parentIno_eq (x.key parameters))
  · rw [hnone]
    exact .inl ⟨rfl, hno⟩
  · rw [hsome]
    simp only [if_pos h0]
    exact .inr ⟨hruns, _, _, _, rfl, .inl ⟨rfl, hno⟩⟩
  · obtain ⟨t, hrel, -, -⟩ := hk'.release ha
    simp only [hsome, ne_eq, not_true_eq_false, if_false, hrel]
    exact .inr ⟨hruns, _, _, _, rfl, .inr ⟨_, rfl, (hfinds _).mpr rfl⟩⟩

/-- A name without separator is never found, because the mount point has one. -/
theorem sep_of_unlinkFinds {ino : Inode} (hmount : '/' ∈ se.mountpoint)
    (h : UnlinkFinds x se s name ino) : '/' ∈ name := by
  by_contra hsep
  have hno : ¬se.mountpoint.isPrefixOf name = true := fun hp =>
    hsep ((List.isPrefixOf_iff_prefix.mp hp).subset hmount)
  have hparse : nameToParse se name = name := if_neg fun hin => hno hin.2
  rw [UnlinkFinds, MapFinds, hparse, if_neg hsep] at h
  exact hno h.1

/-- In every state that the server reaches, an unlink request is carried out as it
should be exactly if its path does not resolve and the handler, which may take the
path for another one, does not find anything either. -/
theorem unlinks_right_iff (hs : Reached se s) (hu : Fresh s.table x.uuid)
    (hmount : '/' ∈ se.mountpoint) (hname : x.name unlinkName = some name) :
    UnlinksRight x se s name ↔ ∀ start names, UnlinkNames x se s name start names →
      (∃ status, (lookAll x.ops.lookup (.start start) s.log names).2 = .error status) ∧
        ¬(UnlinkRuns x se s name ∧ ∃ ino, UnlinkFinds x se s name ino) := by
  have hcases := @unlinkWithCalls_cases x se s name hs.kept hu hname
  constructor
  · intro h start names hpath
    cases hwalk : (lookAll x.ops.lookup (.start start) s.log names).2 with
    | ok file =>
      obtain ⟨dir, last, rs, s', -, hlast, hcall⟩ := h.found start names file hpath hwalk
      obtain ⟨hnone, -⟩ | ⟨-, calls, rs', s'', hsome, ⟨rfl, -⟩ | ⟨ino, rfl, hfinds⟩⟩ := hcases
      · cases hnone.symm.trans hcall
      · cases hsome.symm.trans hcall
      cases hsome.symm.trans hcall
      -- the call has the whole name, which has a separator in it
      exact absurd (sep_of_unlinkFinds hmount hfinds)
        (hpath.components name (List.mem_of_mem_getLast? hlast)).2
    | error status =>
      refine ⟨⟨status, rfl⟩, fun ⟨hruns, ino, hfinds⟩ => ?_⟩
      obtain ⟨-, hno⟩ | ⟨-, calls, rs, s', hsome, ⟨-, hno⟩ | ⟨ino', rfl, -⟩⟩ := hcases
      · exact hno hruns
      · exact hno ino hfinds
      · cases h.missing start names status hpath hwalk _ _ _ hsome
  · intro h
    refine ⟨fun start names file hpath hfile => ?_,
      fun start names _ hpath _ calls rs s' hcall => ?_⟩
    · obtain ⟨⟨status, hwalk⟩, -⟩ := h start names hpath
      cases hwalk.symm.trans hfile
    obtain ⟨-, hno⟩ := h start names hpath
    obtain ⟨hnone, -⟩ | ⟨hruns, calls', rs', s'', hsome, ⟨rfl, -⟩ | ⟨ino, rfl, hfinds⟩⟩ := hcases
    · cases hnone.symm.trans hcall
    · cases hsome.symm.trans hcall
      rfl
    · exact absurd ⟨hruns, ino, hfinds⟩ hno

end

/-! Requests to a server of the file system `oneDirectory`. -/

def oneDirectoryOps : Operations := { oneFileOps with
  lookup := oneDirectory
  intErrors := intErrors_oneDirectory }

/-- The requests to unlink `/mnt/d/f` and `/mnt/d/x`. -/
def unlinkF : Incoming := { message (.unlink 0#128
    ⟨[47, 109, 110, 116, 47, 100, 47, 102], by decide⟩) with ops := oneDirectoryOps }

def unlinkX : Incoming := { message (.unlink 0#128
    ⟨[47, 109, 110, 116, 47, 100, 47, 120], by decide⟩) with ops := oneDirectoryOps }

theorem unlinkX_names {start : Inode} {names : List Name}
    (h : UnlinkNames unlinkX mounted .initial "/mnt/d/x".toList start names) :
    start = fuseRootId ∧ names = [['d'], ['x']] := by
  obtain ⟨-, hstart, hname⟩ | ⟨hkey, -⟩ := h.path
  · refine ⟨hstart, ?_⟩
    have hpath : pathOf names = "/d/x".toList :=
      (List.append_cancel_left (show "/mnt".toList ++ "/d/x".toList = _ from hname)).symm
    have hcomp := components_pathOf fun c hc => (h.components c hc).2
    rw [hpath] at hcomp
    exact (List.cons.inj hcomp).2.symm
  · exact absurd (show unlinkX.key parameters = 0#128 by decide +kernel) hkey

theorem unlinkX_notFound (ino : Inode) :
    ¬UnlinkFinds unlinkX mounted .initial "/mnt/d/x".toList ino := by
  have hkey : unlinkX.key parameters = 0#128 := by decide +kernel
  rw [UnlinkFinds, hkey]
  rintro ⟨start, rfl, hfound⟩
  cases hfound

/-- A file that is not there. -/
theorem unlinks_right_iff_missing : UnlinksRight unlinkX mounted .initial "/mnt/d/x".toList := by
  refine (unlinks_right_iff (reached_initial mounted) (by decide +kernel) (by decide)
    (by decide +kernel)).mpr fun start names hpath => ?_
  obtain ⟨rfl, rfl⟩ := unlinkX_names hpath
  exact ⟨⟨_, rfl⟩, fun ⟨_, ino, hfinds⟩ => unlinkX_notFound ino hfinds⟩

/-- The file `f` is to be unlinked in the directory with the inode 2, but the call is
for the inode 3, which is the file, and for the whole path. -/
theorem unlink_of_the_file_itself : unlinkF.name unlinkName = some "/mnt/d/f".toList ∧
    UnlinkNames unlinkF mounted .initial "/mnt/d/f".toList fuseRootId [['d'], ['f']] ∧
    (∃ dir, (lookAll oneDirectory (.start fuseRootId) [] [['d']]).2 = .ok dir ∧ dir.ino = 2#64) ∧
    (unlinkWithCalls unlinkF mounted .initial).map Prod.fst = some [(3#64, "/mnt/d/f".toList)] ∧
    ¬UnlinksRight unlinkF mounted .initial "/mnt/d/f".toList := by
  have hnames : UnlinkNames unlinkF mounted .initial "/mnt/d/f".toList fuseRootId
      [['d'], ['f']] := ⟨by decide, by decide, .inl ⟨by decide +kernel, rfl, rfl⟩⟩
  have hcalls : (unlinkWithCalls unlinkF mounted .initial).map Prod.fst =
      some [(3#64, "/mnt/d/f".toList)] := by decide +kernel
  refine ⟨by decide +kernel, hnames, ⟨_, rfl, rfl⟩, hcalls, fun h => ?_⟩
  obtain ⟨dir, last, rs, s', -, hlast, hcall⟩ := h.found _ _ _ hnames rfl
  rw [hcall] at hcalls
  obtain ⟨-, hpath⟩ := Prod.mk.inj (List.cons.inj (Option.some.inj hcalls)).1
  cases hlast
  exact absurd hpath (by decide)

end Finesse.Server
