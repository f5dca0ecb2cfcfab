import Finesse.Server.Handlers

/-!
# What the handlers send

Each handler is described by an `Outcome`: when it ends, and which response
it then sends. The conditions are about the message, the objects in the table
and what the file system replies; in the states that a server reaches, the
table itself is never the reason of a failure.
-/

namespace Finesse.Server

open Memory Comm.Offset Finesse.Utils Finesse.Comm

/-- A handler ends and its responses can be sent if and only if `runs`; the
table it leaves is in order, and its responses are as `sends` describes. -/
def Outcome (r : Option (List Response × State)) (runs : Prop)
    (sends : List Response → Prop) : Prop :=
  match r with
  | none => ¬ runs
  | some (rs, s') =>
    Kept s'.table ∧ ((∀ q ∈ rs, q.writes.isSome) ↔ runs) ∧ sends rs

theorem Outcome.one {q : Response} {s' : State} {runs : Prop} {sends : List Response → Prop}
    (hk : Kept s'.table) (hruns : q.writes.isSome ↔ runs) (hq : sends [q]) :
    Outcome (some ([q], s')) runs sends :=
  ⟨hk, by simpa using hruns, hq⟩

section

variable (x : Incoming) (se : FuseSession) (s : State)

theorem parentIno_eq (parent : Uuid) : parentIno parent = 0#64 ∨ parentIno parent = fuseRootId := by
  rw [parentIno]
  split
  · exact .inr rfl
  · exact .inl rfl

/-! ## Unlink -/

/-- `Unlink` ends. -/
def UnlinkRuns (name : Name) : Prop :=
  MapRuns x.ops.lookup se (parentIno (x.key parameters))
    (some (x.key parameters)) name 0 s

/-- The file system unlinks the name that was found. -/
def UnlinkSucceeds (name : Name) : Prop :=
  ∃ ino, MapFinds x.ops.lookup se (parentIno (x.key parameters))
    (some (x.key parameters)) name s ino ∧ x.ops.unlink ino name = 0#32

end

theorem errno_eq_zero {status : Int} (h : IsInt status) : errno status = 0#32 ↔ status = 0 := by
  obtain ⟨hlo, hhi⟩ := h
  rw [errno]
  constructor
  · intro h0
    have hmod := congrArg BitVec.toNat h0
    rw [BitVec.toNat_ofInt, BitVec.toNat_ofNat] at hmod
    omega
  · rintro rfl
    rfl

variable {name : Name} {key : Uuid} {x : Incoming} {s : State} {se : FuseSession}

theorem unlink_outcome
    (hk : Kept s.table) (hu : Fresh s.table x.uuid) (hname : x.name unlinkName = some name) :
    Outcome (finesseServerFuseUnlink x se s) (UnlinkRuns x se s name)
      fun rs => ∃ e, rs = [.unlink e] ∧ (e = 0#32 ↔ UnlinkSucceeds x se s name) := by
  unfold finesseServerFuseUnlink
  rw [hname]
  dsimp only
  obtain ⟨hnone, hno⟩ | ⟨hruns, ⟨status, s', hsome, h0, hint, hk', hno⟩ |
      ⟨a, s', hsome, hk', ha, hfinds⟩⟩ :=
    internalMapRequest_cases (some (x.key parameters)) name 0 se x.ops.intErrors hk hu
      (parentIno_eq (x.key parameters))
  · rw [hnone]
    exact hno
  · rw [hsome]
    simp only [if_pos h0]
    refine .one hk' (iff_of_true rfl hruns) ⟨_, rfl, ?_⟩
    simp [errno_eq_zero hint, h0, UnlinkSucceeds, hno]
  · obtain ⟨t, hrel, hkt, -⟩ := hk'.release ha
    simp only [hsome, ne_eq, not_true_eq_false, if_false, hrel]
    refine .one hkt (iff_of_true rfl hruns) ⟨_, rfl, ?_⟩
    simp [UnlinkSucceeds, hfinds]

section

variable (x : Incoming) (se : FuseSession) (s : State)

/-! ## Stat -/

/-- The attributes of a file that is no symbolic link. -/
def AttrReply.Usable : AttrReply → Prop
  | .noData _ => False
  | .data error attr _ => error = 0#32 ∧ isLink attr.mode.toNat = false

/-- `Stat` ends with a response. Without a name, it does if the request names
no parent or if it names an inode; with one, if the name is mapped and what
was found has attributes, and no flag is set. -/
def StatRuns (name : Name) : Prop :=
  if name.length = 0 then
    x.key parameters = 0#128 ∨ x.key statInode ≠ 0#128
  else
    MapRuns x.ops.lookup se (parentIno (x.key parameters))
      (some (x.key parameters)) name 0 s ∧
    ∀ ino, MapFinds x.ops.lookup se (parentIno (x.key parameters))
        (some (x.key parameters)) name s ino →
      intAt x.mem (msg statFlags) = 0#32 ∧ (x.ops.getattr ino).Usable

end

theorem statObject_outcome {a : Nat} {runs : Prop} (hk : Kept s.table) (ha : a < s.table.allocated)
    (hruns : runs ↔ intAt x.mem (msg statFlags) = 0#32 ∧
      (x.ops.getattr (s.table.entries a).inode).Usable) :
    Outcome (statObject x (some a) s) runs
      fun rs => ∃ attr timeout e, rs = [.stat attr timeout e] := by
  obtain ⟨t, hrel, hkt, -⟩ := hk.release ha
  rw [statObject]
  split
  · next hflags => exact fun h => hflags (hruns.mp h).1
  next hflags =>
  rw [hruns]
  simp only [hrel, not_not.mp hflags, true_and]
  cases x.ops.getattr (s.table.entries a).inode with
  | noData error =>
    exact .one hkt (by simp [Response.writes, AttrReply.Usable]) ⟨_, _, _, rfl⟩
  | data error attr timeout =>
    simp only [AttrReply.Usable]
    split
    · next he =>
      exact .one hkt (by simp [Response.writes, he]) ⟨_, _, _, rfl⟩
    next he =>
    split
    · next hl => simp [Outcome, hl]
    next hl =>
    refine .one hkt ?_ ⟨_, _, _, rfl⟩
    simpa [Response.writes, hl] using he

theorem stat_outcome (hk : Kept s.table)
    (hu : Fresh s.table x.uuid) (hname : x.name statName = some name) :
    Outcome (finesseServerFuseStat x se s) (StatRuns x se s name)
      fun rs => ∃ attr timeout e, rs = [.stat attr timeout e] := by
  unfold finesseServerFuseStat StatRuns
  rw [hname]
  dsimp only
  by_cases hlen : name.length = 0
  · rw [if_pos hlen, if_pos hlen]
    by_cases h : x.key parameters = 0#128 ∨ x.key statInode ≠ 0#128
    · rw [if_pos h]
      exact .one hk (iff_of_true rfl h) ⟨_, _, _, rfl⟩
    rw [if_neg h]
    rw [not_or, not_not] at h
    -- the null key is looked up
    have hnull : objectLookupByUuid s.table (x.key statInode) =
        none := by
      rw [h.2, objectLookupByUuid, finesseObjectLookupByUuid, if_pos rfl]
    rw [hnull]
    exact fun hc => hc.elim h.1 fun hne => hne h.2
  · rw [if_neg hlen, if_neg hlen]
    obtain ⟨hnone, hno⟩ | ⟨hruns, ⟨status, s', hsome, h0, -, hk', hno⟩ |
        ⟨a, s', hsome, hk', ha, hfinds⟩⟩ :=
      internalMapRequest_cases (some (x.key parameters)) name 0 se x.ops.intErrors hk hu
        (parentIno_eq (x.key parameters))
    · rw [hnone]
      exact fun h => hno h.1
    · rw [hsome]
      simp only [if_pos h0]
      exact .one hk' (iff_of_true rfl ⟨hruns, fun ino h => absurd h (hno ino)⟩) ⟨_, _, _, rfl⟩
    · simp only [hsome, ne_eq, not_true_eq_false, if_false]
      refine statObject_outcome hk' ha ?_
      simp [hruns, hfinds]

/-! ## Statfs -/

/-- The file system reports an error, or sends data. -/
def StatfsReply.Answers : StatfsReply → Prop
  | .noData error => error ≠ 0#32
  | _ => True

/-- The file system sends all of the data. -/
def StatfsReply.Succeeds : StatfsReply → Prop
  | .data error _ => error = 0#32
  | _ => False

theorem fstatfs_cases (hk : Kept s.table)
    (hkey : key ≠ 0#128) : (finesseFstatfsHandler x key s = none ∧
      ∃ ino, Holds s.table key ino ∧ ¬ (x.ops.statfs ino).Answers) ∨
    ∃ buf e s', finesseFstatfsHandler x key s = some ([.statfs buf e], s') ∧
      Kept s'.table ∧ SameObjects s.table s'.table ∧
      (Response.statfs buf e).writes.isSome ∧
      (∀ ino, Holds s.table key ino → (x.ops.statfs ino).Answers) ∧
      (e = 0#32 ↔ ∃ ino, Holds s.table key ino ∧ (x.ops.statfs ino).Succeeds) := by
  unfold finesseFstatfsHandler
  rw [if_neg hkey]
  obtain ⟨r, t, hl, hkt, hs, ⟨rfl, hno⟩ | ⟨a, rfl, ha, hua⟩⟩ := hk.lookup hkey
  · rw [hl]
    refine .inr ⟨none, _, _, rfl, hkt, hs, rfl, fun ino h => absurd h (hno ino), ?_⟩
    simp [hno, errno, EBADF]
  obtain ⟨t', hrel, hkt', hs'⟩ := hkt.release (hs.allocated ▸ ha)
  have hholds : Holds s.table key (t.entries a).inode := ⟨a, ha, hua, (hs.inode a).symm⟩
  have honly : ∀ ino, Holds s.table key ino ↔ ino = (t.entries a).inode :=
    fun ino => ⟨fun h => hk.holds_unique h hholds, fun h => h ▸ hholds⟩
  simp only [hl, honly, hrel, forall_eq, exists_eq_left]
  cases x.ops.statfs (t.entries a).inode with
  | noData error =>
    by_cases he : error = 0#32
    · exact .inl ⟨by simp [StatfsReply.error, he], not_not.mpr he⟩
    refine .inr ⟨none, error, ⟨t, s.log⟩, by simp [StatfsReply.error, he],
      hkt, hs, by simp [Response.writes, he], he, ?_⟩
    simp [he, StatfsReply.Succeeds]
  | short error =>
    by_cases he : error = 0#32
    · refine .inr ⟨none, errno EOVERFLOW, ⟨t', s.log⟩, by
        simp [StatfsReply.error, he], hkt', hs.trans hs', rfl, trivial, ?_⟩
      simp [StatfsReply.Succeeds, errno, EOVERFLOW]
    · refine .inr ⟨none, error, ⟨t, s.log⟩, by simp [StatfsReply.error, he],
        hkt, hs, by simp [Response.writes, he], trivial, ?_⟩
      simp [he, StatfsReply.Succeeds]
  | data error st =>
    by_cases he : error = 0#32
    · refine .inr ⟨some (stvfs st), 0#32, ⟨t', s.log⟩, by
        simp [StatfsReply.error, he], hkt', hs.trans hs', rfl, trivial, ?_⟩
      simp [StatfsReply.Succeeds, he]
    · refine .inr ⟨none, error, ⟨t, s.log⟩, by simp [StatfsReply.error, he],
        hkt, hs, by simp [Response.writes, he], trivial, ?_⟩
      simp [he, StatfsReply.Succeeds]

theorem fstatfs_outcome (hk : Kept s.table) : Outcome (finesseFstatfsHandler x key s)
      (key ≠ 0#128 ∧ ∀ ino, Holds s.table key ino → (x.ops.statfs ino).Answers)
      fun rs => ∃ buf e, rs = [.statfs buf e] ∧ (e = 0#32 ↔ ∃ ino, Holds s.table key ino ∧
          (x.ops.statfs ino).Succeeds) := by
  by_cases hkey : key = 0#128
  · unfold finesseFstatfsHandler
    rw [if_pos hkey]
    exact fun h => h.1 hkey
  obtain ⟨hnone, ino, hino, hno⟩ | ⟨buf, e, s', hsome, hk', -, hw, hall, he⟩ :=
    @fstatfs_cases key x s hk hkey
  · rw [hnone]
    exact fun h => hno (h.2 ino hino)
  · rw [hsome]
    exact .one hk' (iff_of_true hw ⟨hkey, hall⟩) ⟨buf, e, rfl, he⟩

section

variable (x : Incoming) (se : FuseSession) (s : State)

/-- The inode that the name of a statfs request is resolved to. -/
def StatfsFinds (name : Name) (ino : Inode) : Prop :=
  MapFinds x.ops.lookup se 0#64 none name s ino

/-- `finesse_statfs_handler` ends. -/
def StatfsRuns (name : Name) : Prop :=
  MapRuns x.ops.lookup se 0#64 none name 0 s ∧
  ∀ ino, StatfsFinds x se s name ino → (x.ops.statfs ino).Answers

end

theorem statfs_outcome (hk : Kept s.table) (hu : Fresh s.table x.uuid)
    (hname : x.name statfsOptions = some name) :
    Outcome (finesseStatfsHandler x se s) (StatfsRuns x se s name)
      fun rs => rs = [] ∧ (∀ ino, ¬ StatfsFinds x se s name ino) ∨
        ∃ buf e, rs = [.statfs buf e] ∧ (∃ ino, StatfsFinds x se s name ino) ∧
          (e = 0#32 ↔ ∃ ino, StatfsFinds x se s name ino ∧ (x.ops.statfs ino).Succeeds) := by
  unfold finesseStatfsHandler
  rw [hname]
  dsimp only
  obtain ⟨hnone, hno⟩ | ⟨hruns, ⟨status, s', hsome, h0, -, hk', hno⟩ |
      ⟨a, s', hsome, hk', ha, hfinds⟩⟩ :=
    internalMapRequest_cases none name 0 se x.ops.intErrors hk hu (.inl rfl)
  · rw [hnone]
    exact fun h => hno h.1
  · rw [hsome]
    simp only [if_pos h0]
    refine ⟨hk', ?_, .inl ⟨rfl, hno⟩⟩
    exact iff_of_true nofun ⟨hruns, fun ino h => absurd h (hno ino)⟩
  have hfound : ∀ ino, StatfsFinds x se s name ino ↔
      Holds s'.table (s'.table.entries a).uuid ino := by
    intro ino
    have hholds : Holds s'.table (s'.table.entries a).uuid
        (s'.table.entries a).inode := ⟨a, ha, rfl, rfl⟩
    rw [StatfsFinds, hfinds]
    exact ⟨fun h => h ▸ hholds, fun h => hk'.holds_unique h hholds⟩
  simp only [hsome, ne_eq, not_true_eq_false, if_false]
  obtain ⟨hnone, ino, hino, hno⟩ |
      ⟨buf, e, s2, hsome, hk2, hs2, hw, hall, he⟩ :=
    @fstatfs_cases _ x s' hk' (hk'.wf.valid a ha).2.1
  · rw [hnone]
    exact fun h => hno (h.2 ino ((hfound ino).mpr hino))
  obtain ⟨t, hrel, hkt, -⟩ := hk2.release (hs2.allocated ▸ ha)
  simp only [hsome, hrel]
  refine .one hkt (iff_of_true hw ⟨hruns, fun ino h => ?_⟩)
    (.inr ⟨buf, e, rfl, ⟨_, (hfinds _).mpr rfl⟩, ?_⟩)
  · exact hall ino ((hfound ino).mp h)
  · simp only [hfound]
    exact he

/-! ## Access -/

theorem access_outcome (hk : Kept s.table) :
    Outcome (finesseServerFuseAccess x s) (x.key parameters ≠ 0#128 ∧
          (∀ ino, ¬ Holds s.table (x.key parameters) ino) ∨
        x.ops.access fuseRootId (intAt x.mem (msg accessMask)) ≠ 0#32)
      fun rs => rs = [.access (errno EBADF)] ∧ x.key parameters ≠ 0#128 ∧
          (∀ ino, ¬ Holds s.table (x.key parameters) ino) ∨
        ∃ e, rs = [.statfs none e] ∧ (x.key parameters = 0#128 ∨
          ∃ ino, Holds s.table (x.key parameters) ino) := by
  unfold finesseServerFuseAccess
  dsimp only
  generalize x.ops.access fuseRootId (intAt x.mem (msg accessMask)) = e
  have hw : (Response.statfs none e).writes.isSome ↔ e ≠ 0#32 := by
    by_cases he : e = 0#32 <;> simp [Response.writes, he]
  by_cases hkey : x.key parameters = 0#128
  · rw [if_pos hkey]
    refine .one hk ?_ (.inr ⟨e, rfl, .inl hkey⟩)
    rw [hw]
    exact ⟨.inr, fun h => h.resolve_left fun hc => hc.1 hkey⟩
  rw [if_neg hkey]
  obtain ⟨r, t, hl, hkt, hs, ⟨rfl, hno⟩ | ⟨a, rfl, ha, hua⟩⟩ := hk.lookup hkey
  · rw [hl]
    exact .one hkt (iff_of_true rfl (.inl ⟨hkey, hno⟩)) (.inl ⟨rfl, hkey, hno⟩)
  obtain ⟨t', hrel, hkt', hs'⟩ := hkt.release (hs.allocated ▸ ha)
  have hholds : Holds s.table (x.key parameters) (s.table.entries a).inode := ⟨a, ha, hua, rfl⟩
  simp only [hl, hrel]
  refine .one hkt' ?_ (.inr ⟨e, rfl, .inr ⟨_, hholds⟩⟩)
  rw [hw]
  exact ⟨.inr, fun h => h.resolve_left fun hc => hc.2 _ hholds⟩

/-! ## Name maps -/

theorem filterMap_response (calls : List FuseCall) (e : ServerEvent) :
    (calls.map ServerEvent.fuse ++ [e]).filterMap ServerEvent.response =
      (ServerEvent.response e).toList := by
  have hcalls : (calls.map ServerEvent.fuse).filterMap ServerEvent.response = [] := by
    rw [List.filterMap_eq_nil_iff]
    intro e he
    obtain ⟨c, -, rfl⟩ := List.mem_map.mp he
    rfl
  rw [List.filterMap_append, hcalls, List.nil_append]
  cases h : ServerEvent.response e <;> simp [h]

section

variable (x : Incoming) (se : FuseSession) (s : State)

/-- The flags of a map request. -/
def mapFlags : Nat := (intAt x.mem (msg Offset.mapFlags)).toNat

/-- `FinesseServerNativeMapRequest` ends. -/
def NativeMapRuns (name : Name) : Prop :=
  '/' ∈ name ∧ MapRuns x.ops.lookup se 0#64 (some (x.key parameters)) name (mapFlags x) s

/-- The name of a map request is found. -/
def NativeMapFinds (name : Name) : Prop :=
  ∃ ino, MapFinds x.ops.lookup se 0#64 (some (x.key parameters)) name s ino

end

theorem nativeMap_outcome
    (hk : Kept s.table) (hu : Fresh s.table x.uuid) (hse : se.serverHandle = true) :
    Outcome (responses (finesseServerNativeMapRequest x.ops.lookup se
        (x.key parameters) name (mapFlags x) x.uuid s))
      (NativeMapRuns x se s name)
      fun rs => ∃ key e, rs = [.nameMap key e] ∧ key ≠ some 0#128 ∧
        (e = 0#32 ↔ NativeMapFinds x se s name) := by
  unfold finesseServerNativeMapRequest
  rw [hse]
  by_cases hname : '/' ∈ name
  · simp only [Bool.not_true, Bool.false_eq_true, if_false, hname, not_true_eq_false]
    obtain ⟨hnone, hno⟩ | ⟨hruns, ⟨status, s', hsome, h0, -, hk', hno⟩ |
        ⟨a, s', hsome, hk', ha, hfinds⟩⟩ :=
      internalMapRequest_cases (some (x.key parameters)) name (mapFlags x) se x.ops.intErrors
        hk hu (.inl rfl)
    · rw [hnone]
      exact fun h => hno h.2
    · simp only [hsome, h0, if_false, responses, filterMap_response]
      refine .one hk' (iff_of_true rfl ⟨hname, hruns⟩) ⟨none, _, rfl, nofun, ?_⟩
      simp [NativeMapFinds, hno, errno, ENOENT]
    simp only [hsome, ne_eq, not_true_eq_false, if_false, responses, filterMap_response]
    refine .one hk' (iff_of_true rfl ⟨hname, hruns⟩) ⟨some _, _, rfl, fun h => ?_, ?_⟩
    · exact (hk'.wf.valid a ha).2.1 (Option.some.inj h)
    · simp [NativeMapFinds, hfinds]
  · simp only [Bool.not_true, Bool.false_eq_true, if_false, hname, not_false_eq_true, if_true]
    exact fun h => hname h.1

theorem nativeMapRelease_outcome (hk : Kept s.table) :
    Outcome (responses (finesseServerNativeMapReleaseRequest key s))
      (key ≠ 0#128) fun rs => rs = [.nameMapRelease 0#32] := by
  unfold finesseServerNativeMapReleaseRequest
  by_cases hkey : key = 0#128
  · rw [hkey, show objectLookupByUuid s.table 0#128 = none by
      rw [objectLookupByUuid, finesseObjectLookupByUuid, if_pos rfl]]
    exact fun h => h rfl
  obtain ⟨r, t, hl, hkt, hs, ⟨rfl, -⟩ | ⟨a, rfl, ha, -⟩⟩ := hk.lookup hkey
  · rw [hl]
    exact .one hkt (iff_of_true rfl hkey) rfl
  obtain ⟨t', hrel, hkt', -⟩ := hkt.release (hs.allocated ▸ ha)
  simp only [hl, hrel]
  exact .one hkt' (iff_of_true rfl hkey) rfl

end Finesse.Server
