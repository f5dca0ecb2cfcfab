import Finesse.Server.PathWalk
import Finesse.Server.Worker

/-!
# What a stat request is answered

A client that asks for the attributes of a file names it by an absolute path, by the
key of a directory and a path in it, or, for a file that is open, by its key alone.
The handler finds the inode, asks the file system for its attributes, and copies them
to a `struct stat`, field by field.

A request with a key alone is refused, the seconds of the time of change are lost,
and an error of the file system fails an assertion.
-/

namespace Finesse.Server

open Memory Comm.Offset List Finesse.Utils Finesse.Comm

/-! ## The fields of `struct stat` -/

/-- The offsets and the sizes of the fields that FUSE attributes carry, in the order
of `FuseAttr`. -/
def statLayout : List (Nat × Nat) :=
  [(8, 8), (48, 8), (64, 8), (72, 8), (88, 8), (104, 8), (80, 8), (96, 8), (112, 8),
   (24, 4), (16, 8), (28, 4), (32, 4), (40, 8), (56, 8)]

/-- The values of these fields. -/
def statValues (st : Bytes sizeofStat) : List Nat :=
  statLayout.map fun f => ofLe ((st.1.drop f.1).take f.2)

/-- The values that they should have. -/
def FuseAttr.values (attr : FuseAttr) : List Nat :=
  [attr.ino.toNat, attr.size.toNat, attr.blocks.toNat, attr.atime.toNat, attr.mtime.toNat,
   attr.ctime.toNat, attr.atimensec.toNat, attr.mtimensec.toNat, attr.ctimensec.toNat,
   attr.mode.toNat, attr.nlink.toNat, attr.uid.toNat, attr.gid.toNat, attr.rdev.toNat,
   attr.blksize.toNat]

theorem FuseAttr.values_injective {attr attr' : FuseAttr} (h : attr.values = attr'.values) :
    attr = attr' := by
  obtain ⟨_, _, _, _, _, _, _, _, _, _, _, _, _, _, _⟩ := attr
  obtain ⟨_, _, _, _, _, _, _, _, _, _, _, _, _, _, _⟩ := attr'
  simpa only [values, cons.injEq, BitVec.toNat_inj, and_true, mk.injEq] using h

/-- Only the seconds of the time of change are lost. -/
theorem statValues_statout (attr : FuseAttr) :
    statValues (statout attr) = { attr with ctime := 0#64 }.values := by
  have hzero : ofLe (load (fun _ => 0) 104 8) = 0 := rfl
  simp (disch := simp [sizeofStat]) only [statValues, statLayout, statout, map_cons,
    map_nil, take_drop_load, Nat.zero_add, run_cons, run_nil, load_store_apart,
    load_store_of_length, ofLe_le_toNat, FuseAttr.values, hzero, BitVec.toNat_zero]

/-! ## The answer to a request -/

/-- The attributes of a reply, if it is not an error. -/
def AttrReply.attributes : AttrReply → Option FuseAttr
  | .noData _ => none
  | .data error attr _ => if error = 0#32 then some attr else none

/-- One response is sent: with the attributes, or with an error if there are none. -/
def Answered (r : Option (List Response × State)) (attributes : Option FuseAttr) : Prop :=
  ∃ attr timeout e s', r = some ([.stat attr timeout e], s') ∧
    (Response.stat attr timeout e).writes.isSome ∧
    match attributes with
    | none => e ≠ 0#32
    | some want => e = 0#32 ∧ ∃ st ∈ attr, statValues st = want.values

theorem not_answered_none {attributes : Option FuseAttr} : ¬Answered none attributes :=
  fun ⟨_, _, _, _, h, _⟩ => nomatch h

theorem not_answered_null {attributes : Option FuseAttr} {timeout : Bytes 8} {e : BitVec 32}
    {s : State} : ¬Answered (some ([.stat none timeout e], s)) attributes := by
  rintro ⟨attr, timeout', e', s', h, hsent, -⟩
  cases h
  cases hsent

theorem answered_error {attributes : Option FuseAttr} {e : BitVec 32} {s : State} (he : e ≠ 0#32) :
    Answered (some ([.stat (some zerostat) zeroTimeout e], s)) attributes ↔ attributes = none := by
  constructor
  · rintro ⟨attr, timeout, e', s', h, -, hmatch⟩
    cases h
    cases attributes with
    | none => rfl
    | some want => exact absurd hmatch.1 he
  · rintro rfl
    exact ⟨_, _, _, _, rfl, rfl, he⟩

theorem answered_statout {attributes : Option FuseAttr} {attr : FuseAttr} {timeout : Bytes 8}
    {s : State} : Answered (some ([.stat (some (statout attr)) timeout 0#32], s)) attributes ↔
      attributes = some { attr with ctime := 0#64 } := by
  constructor
  · rintro ⟨attr', timeout', e, s', h, -, hmatch⟩
    cases h
    cases attributes with
    | none => exact absurd rfl hmatch
    | some want =>
      obtain ⟨-, st, hst, hvalues⟩ := hmatch
      cases hst
      rw [statValues_statout] at hvalues
      rw [FuseAttr.values_injective hvalues]
  · rintro rfl
    exact ⟨_, _, _, _, rfl, rfl, rfl, _, rfl, statValues_statout attr⟩

section

variable (x : Incoming) (se : FuseSession) (s : State)

/-- The inode that the handler maps a name to. -/
def StatFinds (name : Name) (ino : Inode) : Prop :=
  MapFinds x.ops.lookup se (parentIno (x.key parameters))
    (some (x.key parameters)) name s ino

/-- A request names an inode: by an absolute path, by the key of a directory and a
path that does not start with a separator, or by its key alone. -/
inductive StatNames : Name → Inode → Prop
  | absolute {names : List Name} {file : Statx} (hkey : x.key parameters = 0#128)
      (hnames : ∀ c ∈ names, c ≠ [] ∧ '/' ∉ c)
      (hwalk : (lookAll x.ops.lookup (.start fuseRootId) s.log names).2 = .ok file) :
      StatNames (se.mountpoint ++ pathOf names) file.ino
  | relative {name : Name} {start : Inode} {names : List Name} {file : Statx}
      (hkey : x.key parameters ≠ 0#128)
      (hstart : Holds s.table (x.key parameters) start)
      (hnames : ∀ c ∈ names, c ≠ [] ∧ '/' ∉ c) (hpath : '/' :: name = pathOf names)
      (hwalk : (lookAll x.ops.lookup (.start start) s.log names).2 = .ok file) :
      StatNames name file.ino
  | key {ino : Inode} (hparent : x.key parameters = 0#128)
      (hino : Holds s.table (x.key statInode) ino) : StatNames [] ino

/-- Whatever the request names, the answer has its attributes. -/
def StatsRight (name : Name) : Prop :=
  ∀ ino, StatNames x se s name ino →
    Answered (finesseServerFuseStat x se s) (x.ops.getattr ino).attributes

/-- What is asked of the file system's attributes of the inode that is named: none if
the name is empty or not found, and otherwise those of the inode that is found, which
must not be a link, with a time of change before the first second. -/
def StatHolds (name : Name) (ino : Inode) : Prop :=
  if name.length = 0 then (x.ops.getattr ino).attributes = none
  else
    MapRuns x.ops.lookup se (parentIno (x.key parameters))
      (some (x.key parameters)) name 0 s ∧
    ((x.ops.getattr ino).attributes = none ∧ (∀ found, ¬StatFinds x se s name found) ∨
      ∃ found attr, StatFinds x se s name found ∧ intAt x.mem (msg statFlags) = 0#32 ∧
        (x.ops.getattr found).attributes = some attr ∧ isLink attr.mode.toNat = false ∧
        (x.ops.getattr ino).attributes = some { attr with ctime := 0#64 })

end

variable {ino : Inode} {ctime : BitVec 64}

section

variable {x : Incoming} {se : FuseSession} {s : State} {name : Name} {attributes : Option FuseAttr}

theorem statObject_answered {a : Nat} (hk : Kept s.table) (ha : a < s.table.allocated) :
    Answered (statObject x (some a) s) attributes ↔ intAt x.mem (msg statFlags) = 0#32 ∧ ∃ attr,
        (x.ops.getattr (s.table.entries a).inode).attributes = some attr ∧
        isLink attr.mode.toNat = false ∧ attributes = some { attr with ctime := 0#64 } := by
  obtain ⟨t, hrel, -, -⟩ := hk.release ha
  rw [statObject]
  by_cases hflags : intAt x.mem (msg statFlags) = 0#32
  · simp only [hflags, ne_eq, not_true_eq_false, if_false, hrel, true_and]
    cases x.ops.getattr (s.table.entries a).inode with
    | noData error =>
      refine iff_of_false not_answered_null ?_
      rintro ⟨attr, h, -⟩
      cases h
    | data error attr timeout =>
      simp only [AttrReply.attributes]
      by_cases he : error = 0#32
      · simp only [he, not_true_eq_false, if_false, if_true, Option.some.injEq, exists_eq_left']
        by_cases hl : isLink attr.mode.toNat = true
        · rw [if_pos hl]
          exact iff_of_false not_answered_none fun h => by rw [hl] at h; cases h.1
        · rw [if_neg hl, answered_statout]
          exact ⟨fun h => ⟨Bool.eq_false_iff.mpr hl, h⟩, And.right⟩
      · simp only [he, not_false_eq_true, if_true, if_false]
        exact iff_of_false not_answered_null (by simp)
  · rw [if_pos hflags]
    exact iff_of_false not_answered_none fun h => hflags h.1

theorem stat_answered_name (hk : Kept s.table) (hu : Fresh s.table x.uuid)
    (hname : x.name statName = some name) (hlen : name.length ≠ 0) :
    Answered (finesseServerFuseStat x se s) (x.ops.getattr ino).attributes ↔
      StatHolds x se s name ino := by
  unfold finesseServerFuseStat StatHolds
  rw [hname]
  dsimp only
  rw [if_neg hlen, if_neg hlen]
  obtain ⟨hnone, hno⟩ | ⟨hruns, ⟨status, s', hsome, h0, hint, -, hno⟩ |
      ⟨a, s', hsome, hk', ha, hfinds⟩⟩ :=
    internalMapRequest_cases (some (x.key parameters)) name 0 se x.ops.intErrors hk hu
      (parentIno_eq (x.key parameters))
  · rw [hnone]
    exact iff_of_false not_answered_none fun h => hno h.1
  · rw [hsome]
    simp only [if_pos h0]
    rw [answered_error (mt (errno_eq_zero hint).mp h0)]
    constructor
    · exact fun h => ⟨hruns, .inl ⟨h, hno⟩⟩
    rintro ⟨-, ⟨h, -⟩ | ⟨found, attr, hf, -⟩⟩
    · exact h
    · exact absurd hf (hno found)
  · simp only [hsome, ne_eq, not_true_eq_false, if_false]
    rw [statObject_answered hk' ha]
    constructor
    · rintro ⟨hflags, attr, hattr, hl, h⟩
      exact ⟨hruns, .inr ⟨_, attr, (hfinds _).mpr rfl, hflags, hattr, hl, h⟩⟩
    rintro ⟨-, ⟨-, hno⟩ | ⟨found, attr, hf, hflags, hattr, hl, h⟩⟩
    · exact absurd ((hfinds _).mpr rfl) (hno _)
    · obtain rfl := (hfinds found).mp hf
      exact ⟨hflags, attr, hattr, hl, h⟩

/-- Without a name a request is refused, unless it has a parent. -/
theorem stat_answered_key (hname : x.name statName = some name)
    (hlen : name.length = 0) (hparent : x.key parameters = 0#128) :
    Answered (finesseServerFuseStat x se s) (x.ops.getattr ino).attributes ↔
      StatHolds x se s name ino := by
  unfold finesseServerFuseStat StatHolds
  rw [hname]
  dsimp only
  rw [if_pos hlen, if_pos hlen, if_pos (.inl hparent)]
  exact answered_error (by decide)

/-- Only a request without parent has an empty name. -/
theorem StatNames.parent (h : StatNames x se s name ino)
    (hlen : name.length = 0) : x.key parameters = 0#128 := by
  cases h with
  | absolute hkey => exact hkey
  | key hkey => exact hkey
  | @relative _ _ names _ _ _ hnames hpath =>
    rw [eq_nil_of_length_eq_zero hlen] at hpath
    match names, hnames, hpath with
    | c :: rest, hnames, hpath =>
      have hc := (cons.inj hpath).2
      exact absurd (append_eq_nil_iff.mp hc.symm).1 (hnames c mem_cons_self).1

/-- In every state that the server reaches, a stat request is answered as it should
be exactly under the conditions of `StatHolds`. -/
theorem stats_right_iff (hs : Reached se s) (hu : Fresh s.table x.uuid)
    (hname : x.name statName = some name) :
    StatsRight x se s name ↔ ∀ ino, StatNames x se s name ino → StatHolds x se s name ino := by
  refine forall_congr' fun ino => forall_congr' fun hnames => ?_
  by_cases hlen : name.length = 0
  · exact stat_answered_key hname hlen (hnames.parent hlen)
  · exact stat_answered_name hs.kept hu hname hlen

end

/-! Requests for the directory `/mnt/d` of the file system `oneDirectory`. -/

/-- The attributes of `d`, which was changed at some time. -/
def attrD (ctime : BitVec 64) : FuseAttr := { attrOf 2#64 0o040755 with ctime := ctime }

def statRequest : Incoming := message (.stat none none 0#32
  (some ⟨[47, 109, 110, 116, 47, 100], by decide⟩))

def statD (ctime : BitVec 64) : Incoming := { statRequest with
  ops := { oneFileOps with
    lookup := oneDirectory
    intErrors := intErrors_oneDirectory
    getattr := fun _ => .data 0#32 (attrD ctime) zeroTimeout } }

theorem statD_key (ctime : BitVec 64) : (statD ctime).key parameters = 0#128 := by
  unfold Incoming.key
  exact (by decide +kernel : keyAt statRequest.mem parameters = 0#128)

theorem statD_names
    (h : StatNames (statD ctime) mounted .initial "/mnt/d".toList ino) : ino = 2#64 := by
  generalize hname : "/mnt/d".toList = name at h
  cases h with
  | @absolute names file _ hnames hwalk =>
    have hpath : pathOf names = "/d".toList :=
      (append_cancel_left (show "/mnt".toList ++ "/d".toList = _ from hname)).symm
    have hcomp := components_pathOf fun c hc => (hnames c hc).2
    rw [hpath] at hcomp
    obtain rfl := (cons.inj hcomp).2
    cases hwalk
    rfl
  | relative hkey => exact absurd (statD_key ctime) hkey
  | key => cases hname

theorem statD_finds {found : Inode} :
    StatFinds (statD ctime) mounted .initial "/mnt/d".toList found ↔ found = 2#64 := by
  rw [StatFinds, statD_key]
  constructor
  · rintro ⟨start, rfl, hfound⟩
    cases hfound
    rfl
  · rintro rfl
    exact ⟨fuseRootId, rfl, rfl⟩

theorem statD_runs : MapRuns (statD ctime).ops.lookup mounted
      (parentIno ((statD ctime).key parameters))
      (some ((statD ctime).key parameters)) "/mnt/d".toList 0 .initial := by
  rw [statD_key]
  refine ⟨fun _ => rfl, ?_, ?_⟩
  · decide
  · rintro ino rfl
    exact ⟨rfl, rfl, by decide⟩

/-- A directory that was not changed since the first second. -/
theorem stats_right_iff_unchanged : StatsRight (statD 0#64) mounted .initial "/mnt/d".toList := by
  refine (stats_right_iff (reached_initial mounted) (by decide +kernel)
    (by decide +kernel)).mpr fun ino h => ?_
  obtain rfl := statD_names h
  refine ⟨statD_runs, .inr ⟨2#64, attrD 0#64, statD_finds.mpr rfl, ?_, rfl, by decide, rfl⟩⟩
  decide +kernel

/-- A directory that was changed in the fifth second is reported as changed in the
first one. A request that names a file by its key alone is refused. And when the file
system replies with an error, the response cannot be sent. -/
theorem stat_of_a_changed_directory :
    (finesseServerFuseStat (statD 5#64) mounted .initial).map Prod.fst =
      some [.stat (some (statout (attrD 5#64))) zeroTimeout 0#32] ∧
    (attrD 5#64).values[5]? = some 5 ∧ (statValues (statout (attrD 5#64)))[5]? = some 0 ∧
    ¬StatsRight (statD 5#64) mounted .initial "/mnt/d".toList ∧
    (∀ s, finesseServerFuseStat (message (.stat none (some 7#128) 0#32 none)) mounted s =
      some ([.stat (some zerostat) zeroTimeout (errno EINVAL)], s)) ∧
    (finesseServerFuseStat (message (.stat none none 0#32
        (some ⟨[47, 109, 110, 116, 47, 97], by decide⟩))) mounted .initial).map Prod.fst =
      some [.stat none zeroTimeout 2#32] ∧
    (Response.stat none zeroTimeout 2#32).writes = none := by
  refine ⟨by decide +kernel, rfl, by decide +kernel, fun h => ?_, fun s => ?_,
    by decide +kernel, rfl⟩
  · have hnames : StatNames (statD 5#64) mounted .initial "/mnt/d".toList 2#64 :=
      @StatNames.absolute _ _ _ [['d']] _ (statD_key _) (by decide) rfl
    have hname : (statD 5#64).name statName = some "/mnt/d".toList := by decide +kernel
    have hholds := (stat_answered_name (reached_initial mounted).kept (by decide +kernel)
      hname (by decide)).mp (h 2#64 hnames)
    obtain ⟨-, ⟨hno, -⟩ | ⟨found, attr, -, -, -, -, hattr⟩⟩ := hholds
    · cases hno
    · cases congrArg FuseAttr.ctime (Option.some.inj hattr)
  · have hname : (message (.stat none (some 7#128) 0#32 none)).name statName =
        some [] := by decide +kernel
    have hkey : (message (.stat none (some 7#128) 0#32 none)).key parameters =
        0#128 := by decide +kernel
    unfold finesseServerFuseStat
    rw [hname]
    dsimp only
    rw [if_pos length_nil, if_pos (.inl hkey)]

end Finesse.Server
