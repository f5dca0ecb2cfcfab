import Finesse.Lib.Machine
import Finesse.Server.Service

/-!
# Every message is answered

What the worker owes a client is one response to every message, marked as
such, and a receiver that can read it. `served_iff` says for which messages
there is one response, `named_request_ends_iff` when the requests that carry
a name do not stop the server, and `conveyed_iff` when the client gets what
the handler computed.
-/

namespace Finesse.Server

open Memory Comm.Offset Option Finesse.Utils Finesse.Comm

/-! ## Messages and their handlers -/

/-- What is asked of the server. A request that carries a name is one only if
the name ends inside the region. -/
inductive Service where
  | statfs (name : Name)
  | fstatfs
  | stat (name : Name)
  | access
  | unlink (name : Name)
  | test
  | serverStat
  | nameMap (name : Name)
  | nameMapRelease
  | notSupported (kind : Option Kind) (responseType : Nat)
  | badClass
  | invalid
deriving DecidableEq

/-- A service that needs the name at an offset. -/
def Incoming.named (x : Incoming) (o : Nat) (f : Name → Service) : Service :=
  match x.name o with
  | none => .invalid
  | some name => f name

def Incoming.service (x : Incoming) : Service :=
  let messageClass := word x.mem (msg Offset.messageClass) 4
  let type := word x.mem (msg messageType) 4
  let statFsType := word x.mem (msg parameters) 4
  if messageClass = finesseFuseMessage then
    if type < finesseFuseReqBaseType ∨ finesseFuseReqMax ≤ type then .invalid
    else if type = fuseReqStatfs then
      if statFsType = statfsByName then x.named statfsOptions .statfs
      else if statFsType = statfsByInode then .fstatfs
      else .invalid
    else if type = fuseReqStat then x.named statName .stat
    else if type = fuseReqAccess then .access
    else if type = fuseReqUnlink then x.named unlinkName .unlink
    else .notSupported (if type = fuseReqCreate then some .create else none) fuseRspErr
  else if messageClass = finesseNativeMessage then
    if type < finesseNativeReqBaseType ∨ finesseNativeReqMax ≤ type then
      .invalid
    else if type = nativeReqTest then .test
    else if type = nativeReqServerStat then .serverStat
    else if type = nativeReqMap then x.named mapName .nameMap
    else if type = nativeReqMapRelease then .nameMapRelease
    else .notSupported (if type = nativeReqDirmap then some .dirMap else none) nativeRspErr
  else .badClass

/-- The handler of each service. -/
def Service.handle (x : Incoming) (se : FuseSession) (s : State) :
    Service → Option (List Response × State)
  | .statfs _ => finesseStatfsHandler x se s
  | .fstatfs => finesseFstatfsHandler x (x.key statfsOptions) s
  | .stat _ => finesseServerFuseStat x se s
  | .access => finesseServerFuseAccess x s
  | .unlink _ => finesseServerFuseUnlink x se s
  | .test => some ([.test 0#32], s)
  | .serverStat => some ([.serverStat x.counters 0#32], s)
  | .nameMap name => responses (finesseServerNativeMapRequest x.ops.lookup se
      (x.key parameters) name (mapFlags x) x.uuid s)
  | .nameMapRelease =>
    responses (finesseServerNativeMapReleaseRequest (x.key parameters) s)
  | .notSupported _ type => some ([.notSupported type], s)
  | .badClass => some ([.badClass], s)
  | .invalid => none

/-- The name that comes with a service is that of the message, and of the
requests that are not supported there are two that clients send. -/
def Service.Valid (x : Incoming) : Service → Prop
  | .statfs name => x.name statfsOptions = some name
  | .stat name => x.name statName = some name
  | .unlink name => x.name unlinkName = some name
  | .nameMap name => x.name mapName = some name
  | .notSupported kind _ => ∀ k, kind = some k → k = .create ∨ k = .dirMap
  | _ => True

variable {se : FuseSession} {x : Incoming} {s : State}

theorem handle_named {o : Nat} {f : Name → Service}
    {r : Option (List Response × State)} (hnone : x.name o = none → r = none)
    (hsome : ∀ name, x.name o = some name → r = (f name).handle x se s ∧ (f name).Valid x) :
    r = (x.named o f).handle x se s ∧ (x.named o f).Valid x := by
  rw [Incoming.named]
  split
  · next hn => exact ⟨hnone hn, trivial⟩
  · next name hn => exact hsome name hn

theorem dispatch_eq (x : Incoming) (se : FuseSession) (s : State) :
    dispatch x se s = x.service.handle x se s ∧ x.service.Valid x := by
  unfold dispatch finesseServerHandleFuseRequest
    finesseServerHandleNativeRequest finesseServerFuseStatFs Incoming.service
  dsimp only
  split
  · split
    · exact ⟨rfl, trivial⟩
    split
    · split
      · refine handle_named (fun hn => ?_) fun name hn => ⟨rfl, hn⟩
        rw [finesseStatfsHandler, hn]
      split
      · exact ⟨rfl, trivial⟩
      · exact ⟨rfl, trivial⟩
    split
    · refine handle_named (fun hn => ?_) fun name hn => ⟨rfl, hn⟩
      rw [finesseServerFuseStat, hn]
    split
    · exact ⟨rfl, trivial⟩
    split
    · refine handle_named (fun hn => ?_) fun name hn => ⟨rfl, hn⟩
      rw [finesseServerFuseUnlink, hn]
    refine ⟨rfl, fun k hk => .inl ?_⟩
    split at hk
    · exact (some.inj hk).symm
    · cases hk
  split
  · split
    · exact ⟨rfl, trivial⟩
    split
    · exact ⟨rfl, trivial⟩
    split
    · exact ⟨rfl, trivial⟩
    split
    · refine handle_named (fun hn => ?_) fun name hn => ⟨?_, hn⟩
      · rw [hn]
      · rw [hn]
        rfl
    split
    · exact ⟨rfl, trivial⟩
    refine ⟨rfl, fun k hk => .inr ?_⟩
    split at hk
    · exact (some.inj hk).symm
    · cases hk
  · exact ⟨rfl, trivial⟩

variable {v : Service} {q : Response} {s' : State} {m : Mem}

namespace Service

section

variable (x : Incoming) (se : FuseSession) (s : State)

/-- The handler ends, and its response can be sent. -/
def Runs : Service → Prop
  | .statfs name => StatfsRuns x se s name
  | .fstatfs => x.key statfsOptions ≠ 0#128 ∧
      ∀ ino, Holds s.table (x.key statfsOptions) ino → (x.ops.statfs ino).Answers
  | .stat name => StatRuns x se s name
  | .access => x.key parameters ≠ 0#128 ∧
        (∀ ino, ¬ Holds s.table (x.key parameters) ino) ∨
      x.ops.access fuseRootId (intAt x.mem (msg accessMask)) ≠ 0#32
  | .unlink name => UnlinkRuns x se s name
  | .nameMap name => NativeMapRuns x se s name
  | .nameMapRelease => x.key parameters ≠ 0#128
  | .test | .serverStat | .notSupported _ _ | .badClass => True
  | .invalid => False

/-- The result of the handler is zero. -/
def Succeeds : Service → Prop
  | .statfs name => ∃ ino, StatfsFinds x se s name ino ∧
      (x.ops.statfs ino).Succeeds
  | .fstatfs => ∃ ino, Holds s.table (x.key statfsOptions) ino ∧
      (x.ops.statfs ino).Succeeds
  | .unlink name => UnlinkSucceeds x se s name
  | .nameMap name => NativeMapFinds x se s name
  | _ => True

/-- The responses of the handler. -/
def Sends (rs : List Response) : Service → Prop
  | .statfs name => rs = [] ∧ (∀ ino, ¬ StatfsFinds x se s name ino) ∨
      ∃ buf e, rs = [.statfs buf e] ∧ (∃ ino, StatfsFinds x se s name ino) ∧
        (e = 0#32 ↔ Succeeds x se s (.statfs name))
  | .fstatfs => ∃ buf e, rs = [.statfs buf e] ∧
      (e = 0#32 ↔ Succeeds x se s .fstatfs)
  | .stat _ => ∃ attr timeout e, rs = [.stat attr timeout e]
  | .access => rs = [.access (errno EBADF)] ∧
        x.key parameters ≠ 0#128 ∧
        (∀ ino, ¬ Holds s.table (x.key parameters) ino) ∨
      ∃ e, rs = [.statfs none e] ∧ (x.key parameters = 0#128 ∨
        ∃ ino, Holds s.table (x.key parameters) ino)
  | .unlink name => ∃ e, rs = [.unlink e] ∧
      (e = 0#32 ↔ Succeeds x se s (.unlink name))
  | .test => rs = [.test 0#32]
  | .serverStat => rs = [.serverStat x.counters 0#32]
  | .nameMap name => ∃ key e, rs = [.nameMap key e] ∧ key ≠ some 0#128 ∧
      (e = 0#32 ↔ Succeeds x se s (.nameMap name))
  | .nameMapRelease => rs = [.nameMapRelease 0#32]
  | .notSupported _ type => rs = [.notSupported type]
  | .badClass => rs = [.badClass]
  | .invalid => False

end

theorem handle_outcome
    (hk : Kept s.table) (hu : Fresh s.table x.uuid) (hse : se.serverHandle = true)
    (hname : v.Valid x) : Outcome (v.handle x se s) (v.Runs x se s) (v.Sends x se s) := by
  cases v with
  | statfs name => exact statfs_outcome hk hu hname
  | fstatfs => exact fstatfs_outcome hk
  | stat name => exact stat_outcome hk hu hname
  | access => exact access_outcome hk
  | unlink name => exact unlink_outcome hk hu hname
  | nameMap name => exact nativeMap_outcome hk hu hse
  | nameMapRelease => exact nativeMapRelease_outcome hk
  | test => exact .one hk (iff_of_true rfl trivial) rfl
  | serverStat => exact .one hk (iff_of_true rfl trivial) rfl
  | notSupported kind type => exact .one hk (iff_of_true rfl trivial) rfl
  | badClass => exact .one hk (iff_of_true rfl trivial) rfl
  | invalid => exact id

end Service

/-! ## The worker -/

/-- A message as the message protocol hands it to a running server: a request
with a number. -/
structure Taken (x : Incoming) (se : FuseSession) : Prop where
  handle : se.serverHandle = true
  requestId : word x.mem Block.requestId 8 ≠ 0
  request : word x.mem Block.messageType 4 = finesseRequest

theorem Service.Sends.short {rs : List Response} (h : Service.Sends x se s rs v) :
    rs = [] ∨ ∃ q, rs = [q] := by
  cases v with
  | statfs name =>
    obtain ⟨rfl, -⟩ | ⟨buf, e, rfl, -⟩ := h
    · exact .inl rfl
    · exact .inr ⟨_, rfl⟩
  | access =>
    obtain ⟨rfl, -⟩ | ⟨e, rfl, -⟩ := h <;> exact .inr ⟨_, rfl⟩
  | fstatfs =>
    obtain ⟨buf, e, rfl, -⟩ := h
    exact .inr ⟨_, rfl⟩
  | stat name =>
    obtain ⟨attr, timeout, e, rfl⟩ := h
    exact .inr ⟨_, rfl⟩
  | unlink name =>
    obtain ⟨e, rfl, -⟩ := h
    exact .inr ⟨_, rfl⟩
  | nameMap name =>
    obtain ⟨key, e, rfl, -⟩ := h
    exact .inr ⟨_, rfl⟩
  | invalid => exact h.elim
  | _ => exact .inr ⟨_, h⟩

theorem send_isSome {time : Bytes 16} (h : word m Block.messageType 4 = finesseRequest) :
    (q.send m time).isSome ↔ q.writes.isSome := by
  rw [Response.send, if_neg fun hc => hc.2 h, isSome_map]

theorem worker_cases (hk : Kept s.table)
    (hu : Fresh s.table x.uuid) (ht : Taken x se) (hc : x.connected = true) :
    finesseProcessRequestWorker x se s = none ∧ ¬ x.service.Runs x se s ∨
    x.service.Runs x se s ∧ ∃ s', Kept s'.table ∧
      ((finesseProcessRequestWorker x se s = some ([], x.mem, s') ∧ x.service.Sends x se s []) ∨
        ∃ q m, finesseProcessRequestWorker x se s = some ([q], m, s') ∧
          q.send x.mem x.time = some m ∧ x.service.Sends x se s [q]) := by
  obtain ⟨heq, hname⟩ := dispatch_eq x se s
  have hout := Service.handle_outcome hk hu ht.handle hname
  rw [← heq] at hout
  have hguard : ¬ (!se.serverHandle ∨ word x.mem Block.requestId 8 = 0 ∨
      word x.mem Block.messageType 4 ≠ finesseRequest) := by
    simp [ht.handle, ht.requestId, ht.request]
  rw [finesseProcessRequestWorker, if_neg hguard]
  cases hd : dispatch x se s with
  | none =>
    rw [hd] at hout
    exact .inl ⟨rfl, hout⟩
  | some r =>
    obtain ⟨rs, s'⟩ := r
    rw [hd] at hout
    obtain ⟨hk', hruns, hsends⟩ := hout
    obtain rfl | ⟨q, rfl⟩ := hsends.short
    · exact .inr ⟨hruns.mp nofun, s', hk', .inl ⟨rfl, hsends⟩⟩
    simp only [transmit, hc, if_true]
    have hq : q.writes.isSome ↔ x.service.Runs x se s := by
      simpa using hruns
    rw [← hq, ← send_isSome (q := q) (m := x.mem) ht.request]
    cases hsend : q.send x.mem x.time with
    | none => exact .inl ⟨rfl, by simp⟩
    | some m =>
      exact .inr ⟨rfl, s', hk', .inr ⟨q, m, rfl, hsend, hsends⟩⟩

/-- The server as a machine, with the responses it sends as events. -/
def serve (se : FuseSession) (s : State) (x : Incoming) :
    Option (List (List Response × Mem) × State) :=
  (finesseProcessRequestWorker x se s).map fun q => ([(q.1, q.2.1)], q.2.2)

/-- A state that a server reaches, when every uuid that is generated is
new. -/
def Reached (se : FuseSession) (s : State) : Prop :=
  ∃ xs tr, Machine.run (serve se) State.initial xs = some (tr, s) ∧
    Machine.Along (serve se) (fun s x => Fresh s.table x.uuid) State.initial xs

theorem reached_initial (se : FuseSession) : Reached se State.initial := ⟨[], [], rfl, trivial⟩

theorem Kept.serve {ev : List (List Response × Mem)} (hk : Kept s.table) (hu : Fresh s.table x.uuid)
    (h : serve se s x = some (ev, s')) : Kept s'.table := by
  obtain ⟨⟨rs, m, s1⟩, hw, ⟨⟩⟩ := map_eq_some_iff.mp h
  rw [finesseProcessRequestWorker] at hw
  split at hw
  · cases hw
  next hguard =>
  obtain ⟨hd, hname⟩ := dispatch_eq x se s
  have hse : se.serverHandle = true := by
    simpa using (not_or.mp hguard).1
  have hout := Service.handle_outcome hk hu hse hname
  rw [← hd] at hout
  split at hw
  · cases hw
  next hsome =>
  rw [hsome] at hout
  obtain ⟨q, -, ⟨⟩⟩ := map_eq_some_iff.mp hw
  exact hout.1

theorem Reached.kept (h : Reached se s) : Kept s.table := by
  obtain ⟨xs, tr, hrun, hfresh⟩ := h
  exact Machine.run_invariant (fun s x ev s' (hk : Kept s.table) hu hs =>
    hk.serve hu hs) kept_initial hrun hfresh

/-! Messages to a server with one file, for the cases below. -/

theorem intErrors_oneFile : IntErrors oneFile := by
  intro log ino name status h
  rw [oneFile] at h
  split at h
  · cases h
  · cases h
    decide

def oneFileOps : Operations where
  lookup := oneFile
  intErrors := intErrors_oneFile
  getattr := fun _ => .noData 2#32
  statfs := fun _ => .noData 38#32
  access := fun _ _ => 0#32
  unlink := fun _ _ => 0#32

section Message

-- one named proof for the literals, which would otherwise bring a proof each
local instance blocks : NeZero 64 := ⟨by decide⟩

/-- The message of a client, in a block that was not used before. -/
def message (c : ClientRequest) : Incoming where
  slot := 0
  mem := run (fun _ => 0) ((c.send ⟨⟨zeros 16, length_zeros 16⟩, ⟨zeros 16, length_zeros 16⟩, 1#64⟩
    (fun _ => 0)).getD [])
  connected := true
  time := ⟨zeros 16, length_zeros 16⟩
  counters := ⟨zeros 660, length_zeros 660⟩
  uuid := 1#128
  ops := oneFileOps

end Message

/-- Whatever a server has served, a key that is not null is looked up without a failed
assertion. The inode is found that the table holds under the key, if there is one,
and the table keeps its objects. -/
theorem reached_key_found {key : Uuid} (h : Reached se s) (hkey : key ≠ 0#128) :
    ∃ r t, parentInode s.table key = some (r, t) ∧ SameObjects s.table t ∧
      (∀ a < t.allocated, 0 < (t.entries a).referenceCount) ∧
      ∀ ino, r = some ino ↔ Holds s.table key ino := by
  obtain ⟨r, t, hp, hk, hsame, hr⟩ := h.kept.parentInode hkey
  exact ⟨r, t, hp, hsame, hk.held, hr⟩

/-- A file is mapped, and its key finds it. -/
theorem reached_key_found_mapped : ∃ ev s r t, serve mounted State.initial (message (.nameMap none
        ⟨[47, 109, 110, 116, 47, 97], by decide⟩ 0#32)) = some (ev, s) ∧
    parentInode s.table 1#128 = some (r, t) ∧ r = some 7#64 := by
  have hmap : (serve mounted State.initial (message (.nameMap none
      ⟨[47, 109, 110, 116, 47, 97], by decide⟩ 0#32))).map (fun p =>
        (p.2.table.allocated, (p.2.table.entries 0).uuid, (p.2.table.entries 0).inode)) =
      some (1, 1#128, 7#64) := by
    decide +kernel
  obtain ⟨⟨ev, s⟩, hs, heq⟩ := map_eq_some_iff.mp hmap
  simp only [Prod.mk.injEq] at heq
  have hreached : Reached mounted s := by
    refine ⟨[_], _, Machine.run_single hs, ?_, fun _ _ _ => trivial⟩
    decide +kernel
  obtain ⟨r, t, hp, -, -, hr⟩ := reached_key_found hreached (by decide : 1#128 ≠ 0#128)
  exact ⟨ev, s, r, t, hs, hp, (hr 7#64).mpr ⟨0, by omega, heq.2⟩⟩

/-! ## Requests that carry a name -/

/-- In every state that the server reaches, a name map, stat or unlink request
ends without a failed assertion exactly under the conditions of its
handler. -/
theorem named_request_ends_iff {se : FuseSession} {s : State} {x : Incoming} {name : Name}
    (hs : Reached se s) (hu : Fresh s.table x.uuid) (ht : Taken x se) (hc : x.connected = true) :
    (x.service = .nameMap name → ((finesseProcessRequestWorker x se s).isSome ↔
        NativeMapRuns x se s name)) ∧
    (x.service = .stat name →
      ((finesseProcessRequestWorker x se s).isSome ↔ StatRuns x se s name)) ∧
    (x.service = .unlink name → ((finesseProcessRequestWorker x se s).isSome ↔
        UnlinkRuns x se s name)) := by
  have hall : (finesseProcessRequestWorker x se s).isSome ↔
      x.service.Runs x se s := by
    obtain ⟨hnone, hno⟩ | ⟨hruns, s', -, ⟨hsome, -⟩ | ⟨q, m, hsome, -⟩⟩ :=
      worker_cases hs.kept hu ht hc
    · simp [hnone, hno]
    · simp [hsome, hruns]
    · simp [hsome, hruns]
  refine ⟨fun h => ?_, fun h => ?_, fun h => ?_⟩ <;> rw [hall, h] <;> rfl

theorem named_request_ends_iff_file : (finesseProcessRequestWorker (message (.nameMap none
        ⟨[47, 109, 110, 116, 47, 97], by decide⟩ 0#32)) mounted
        State.initial).isSome ↔
      NativeMapRuns (message (.nameMap none
        ⟨[47, 109, 110, 116, 47, 97], by decide⟩ 0#32)) mounted State.initial
        "/mnt/a".toList :=
  (named_request_ends_iff (reached_initial mounted) (by decide +kernel)
    ⟨by decide +kernel, by decide +kernel, by decide +kernel⟩ rfl).1
    (by decide +kernel)

/-- A repeated separator stops the server, and so does a path of two
components that is mapped for reading and writing. -/
theorem names_stop_the_server : (message (.nameMap none ⟨[47, 109, 110, 116, 47, 47, 97], by decide⟩
      0#32)).service = .nameMap "/mnt//a".toList ∧
    finesseProcessRequestWorker (message (.nameMap none
      ⟨[47, 109, 110, 116, 47, 47, 97], by decide⟩ 0#32)) mounted
      State.initial = none ∧
    (message (.nameMap none ⟨[47, 109, 110, 116, 47, 97, 47, 97], by decide⟩
      2#32)).service = .nameMap "/mnt/a/a".toList ∧
    finesseProcessRequestWorker (message (.nameMap none
      ⟨[47, 109, 110, 116, 47, 97, 47, 97], by decide⟩ 2#32)) mounted
      State.initial = none :=
  ⟨by decide +kernel, isNone_iff_eq_none.mp (by decide +kernel),
    by decide +kernel, isNone_iff_eq_none.mp (by decide +kernel)⟩

/-! ## One response -/

/-- The worker leaves exactly one response to a message, marked as a
response. -/
def Served (x : Incoming) (se : FuseSession) (s : State) : Prop :=
  ∃ q m s', finesseProcessRequestWorker x se s = some ([q], m, s') ∧ Marked m

/-- A message gets its response if its handler runs, except that statfs does
not answer when its name is not found, and that nobody is told that a request
is not supported. -/
def Service.Replies (x : Incoming) (se : FuseSession) (s : State) : Service → Prop
  | .statfs name => StatfsRuns x se s name ∧
      ∃ ino, StatfsFinds x se s name ino
  | .notSupported _ _ => False
  | v => v.Runs x se s

theorem Service.Replies.runs (h : v.Replies x se s) : v.Runs x se s := by
  cases v with
  | statfs name => exact h.1
  | notSupported kind type => exact h.elim
  | _ => exact h

theorem Service.eq_statfs_of_nil (h : Service.Sends x se s [] v) :
    ∃ name, v = .statfs name ∧ ∀ ino, ¬ StatfsFinds x se s name ino := by
  cases v with
  | statfs name =>
    obtain ⟨-, hno⟩ | ⟨_, _, hc, -⟩ := h
    · exact ⟨name, rfl, hno⟩
    · cases hc
  | fstatfs => exact absurd h (by simp [Service.Sends])
  | stat name => exact absurd h (by simp [Service.Sends])
  | access => exact absurd h (by simp [Service.Sends])
  | unlink name => exact absurd h (by simp [Service.Sends])
  | nameMap name => exact absurd h (by simp [Service.Sends])
  | _ => cases h

theorem Service.replies_iff_of_one (hruns : v.Runs x se s) (h : Service.Sends x se s [q] v) :
    v.Replies x se s ↔ ∀ type, q ≠ .notSupported type := by
  cases v with
  | statfs name =>
    obtain ⟨hc, -⟩ | ⟨buf, e, hq, hfound, -⟩ := h
    · cases hc
    · cases hq
      exact iff_of_true ⟨hruns, hfound⟩ nofun
  | notSupported kind type =>
    cases h
    exact iff_of_false id fun hne => hne type rfl
  | fstatfs =>
    obtain ⟨buf, e, hq, -⟩ := h
    cases hq
    exact iff_of_true hruns nofun
  | stat name =>
    obtain ⟨attr, timeout, e, hq⟩ := h
    cases hq
    exact iff_of_true hruns nofun
  | access =>
    obtain ⟨hq, -⟩ | ⟨e, hq, -⟩ := h <;> cases hq <;>
      exact iff_of_true hruns nofun
  | unlink name =>
    obtain ⟨e, hq, -⟩ := h
    cases hq
    exact iff_of_true hruns nofun
  | nameMap name =>
    obtain ⟨key, e, hq, -⟩ := h
    cases hq
    exact iff_of_true hruns nofun
  | invalid => exact hruns.elim
  | _ =>
    cases h
    exact iff_of_true hruns nofun

theorem transmit_disconnected (hc : x.connected = false)
    {rs : List Response} : ∀ {m m' : Mem} {sent : List Response},
      transmit x m rs = some (sent, m') → sent = [] := by
  induction rs with
  | nil =>
    rintro m m' sent ⟨⟩
    rfl
  | cons r rs ih =>
    intro m m' sent h
    simp only [transmit, hc, Bool.false_eq_true, if_false] at h
    split at h
    · exact ih h
    · cases h

theorem connected_of_worker (h : finesseProcessRequestWorker x se s = some ([q], m, s')) :
    x.connected = true := by
  by_contra hc
  rw [Bool.not_eq_true] at hc
  rw [finesseProcessRequestWorker] at h
  split at h
  · cases h
  split at h
  · cases h
  obtain ⟨⟨sent, m'⟩, htr, heq⟩ := map_eq_some_iff.mp h
  cases transmit_disconnected hc htr
  cases heq

theorem served_iff {se : FuseSession} {s : State} {x : Incoming}
    (hs : Reached se s) (hu : Fresh s.table x.uuid) (ht : Taken x se) :
    Served x se s ↔ x.connected = true ∧ x.service.Replies x se s := by
  cases hc : x.connected with
  | false =>
    refine iff_of_false (fun ⟨q, m, s', h, _⟩ => ?_) fun h => nomatch h.1
    rw [connected_of_worker h] at hc
    cases hc
  | true =>
    rw [Served]
    simp only [true_and]
    obtain ⟨hnone, hno⟩ | ⟨hruns, s', -, ⟨hsome, hsends⟩ |
        ⟨q, m, hsome, hsend, hsends⟩⟩ := worker_cases hs.kept hu ht hc
    · simp only [hnone, reduceCtorEq, false_and, exists_false, false_iff]
      exact fun h => hno h.runs
    · simp only [hsome]
      obtain ⟨name, hv, hno⟩ := Service.eq_statfs_of_nil hsends
      rw [hv]
      refine iff_of_false ?_ fun ⟨_, ino, hino⟩ => hno ino hino
      rintro ⟨q, m, s1, heq, -⟩
      cases heq
    · rw [Service.replies_iff_of_one hruns hsends, ← marked_iff hsend ht.request, hsome]
      constructor
      · rintro ⟨q', m', s1, heq, hm⟩
        cases heq
        exact hm
      · exact fun hm => ⟨q, m, s', rfl, hm⟩

theorem served_iff_file : Served (message (.nameMap none ⟨[47, 109, 110, 116, 47, 97], by decide⟩
        0#32)) mounted State.initial ↔
      true = true ∧ (message (.nameMap none
        ⟨[47, 109, 110, 116, 47, 97], by decide⟩ 0#32)).service.Replies
        (message (.nameMap none ⟨[47, 109, 110, 116, 47, 97], by decide⟩ 0#32))
        mounted State.initial :=
  served_iff (reached_initial mounted) (by decide +kernel)
    ⟨by decide +kernel, by decide +kernel, by decide +kernel⟩

/-- A statfs request for a name that is not there gets no response, and a
create request one that is not marked. -/
theorem messages_without_response : (∃ m s', finesseProcessRequestWorker (message (.statfs
      ⟨[47, 109, 110, 116, 47, 98], by decide⟩)) mounted State.initial =
      some ([], m, s')) ∧
    ∃ m s', finesseProcessRequestWorker (message (.create 0#128
        ⟨[47, 98], by decide⟩ ⟨zeros 144, length_zeros 144⟩)) mounted
        State.initial = some ([.notSupported fuseRspErr], m, s') ∧
      ¬ Marked m := by
  constructor
  · have h : (finesseProcessRequestWorker (message (.statfs
        ⟨[47, 109, 110, 116, 47, 98], by decide⟩)) mounted State.initial).map
        Prod.fst = some [] := by decide +kernel
    obtain ⟨⟨rs, m, s'⟩, hw, rfl⟩ := map_eq_some_iff.mp h
    exact ⟨m, s', hw⟩
  · have h : (finesseProcessRequestWorker (message (.create 0#128
        ⟨[47, 98], by decide⟩ ⟨zeros 144, length_zeros 144⟩)) mounted
        State.initial).map (fun r => (r.1, decide (Marked r.2.1))) =
        some ([.notSupported fuseRspErr], false) := by decide +kernel
    obtain ⟨⟨rs, m, s'⟩, hw, heq⟩ := map_eq_some_iff.mp h
    simp only [Prod.mk.injEq, decide_eq_false_iff_not] at heq
    obtain ⟨rfl, hm⟩ := heq
    exact ⟨m, s', hw, hm⟩

/-! ## What the client gets -/

namespace Service

/-- The receiver that waits for the response. -/
def kind : Service → Option Kind
  | .statfs _ | .fstatfs => some .statfs
  | .stat _ => some .stat
  | .access => some .access
  | .unlink _ => some .unlink
  | .test => some .test
  | .serverStat => some .serverStat
  | .nameMap _ => some .nameMap
  | .nameMapRelease => some .nameMapRelease
  | .notSupported kind _ => kind
  | .badClass | .invalid => none

/-- The handler's result reaches the client: most receivers need success, and
the one of access needs that the block still holds the error of a bad parent
key from an earlier use. -/
def Conveys (x : Incoming) (se : FuseSession) (s : State) : Service → Prop
  | .access => x.key parameters ≠ 0#128 ∧
      (∀ ino, ¬ Holds s.table (x.key parameters) ino) ∧
      intAt x.mem (msg Offset.result) = errno EBADF
  | .notSupported kind _ => kind = some .dirMap
  | v => v.Succeeds x se s

end Service

/-- What the worker has sent to a client is read by the receiver for its kind
of request as the handler meant it exactly if the service conveys its
result. -/
theorem decoded_iff {m' : Mem}
    {k : Kind} (hs : Reached se s) (hu : Fresh s.table x.uuid) (ht : Taken x se)
    (h : finesseProcessRequestWorker x se s = some ([q], m, s')) (hkind : x.service.kind = some k)
    (hi : Intact m m') : Decoded k q m' ↔ x.service.Conveys x se s := by
  have hsame : Decoded k q m' ↔ Decoded k q m := by
    simp only [Decoded, hi.receive]
  rw [hsame]
  have hvalid := (dispatch_eq x se s).2
  obtain ⟨hnone, -⟩ | ⟨-, s1, -, ⟨hsome, -⟩ | ⟨q1, m1, hsome, hsend, hsends⟩⟩ :=
    worker_cases hs.kept hu ht (connected_of_worker h)
  · rw [hnone] at h
    cases h
  · rw [hsome] at h
    cases h
  rw [hsome] at h
  cases h
  generalize x.service = v at *
  cases v with
  | statfs name =>
    cases hkind
    obtain ⟨hc, -⟩ | ⟨buf, e, hq, -, he⟩ := hsends
    · cases hc
    cases hq
    rw [decoded_statfs hsend, he]
    rfl
  | fstatfs =>
    cases hkind
    obtain ⟨buf, e, hq, he⟩ := hsends
    cases hq
    rw [decoded_statfs hsend, he]
    rfl
  | stat name =>
    cases hkind
    obtain ⟨attr, timeout, e, hq⟩ := hsends
    cases hq
    exact iff_of_true (decoded_stat hsend) trivial
  | access =>
    cases hkind
    obtain ⟨hq, hkey, hno⟩ | ⟨e, hq, hfound⟩ := hsends
    · cases hq
      rw [decoded_access hsend]
      exact ⟨fun h => ⟨hkey, hno, h⟩, fun h => h.2.2⟩
    · cases hq
      refine iff_of_false (not_decoded_access_statfs hsend) fun hc => ?_
      exact hfound.elim hc.1 fun h => h.elim hc.2.1
  | unlink name =>
    cases hkind
    obtain ⟨e, hq, he⟩ := hsends
    cases hq
    rw [decoded_unlink hsend, he]
    rfl
  | test =>
    cases hkind
    cases hsends
    exact iff_of_true ((decoded_test hsend).mpr rfl) trivial
  | serverStat =>
    cases hkind
    cases hsends
    exact iff_of_true ((decoded_serverStat hsend).mpr rfl) trivial
  | nameMap name =>
    cases hkind
    obtain ⟨key, e, hq, hkey, he⟩ := hsends
    cases hq
    rw [decoded_nameMap hkey hsend, he]
    rfl
  | nameMapRelease =>
    cases hkind
    cases hsends
    exact iff_of_true ((decoded_nameMapRelease hsend).mpr rfl) trivial
  | notSupported kind type =>
    cases hsends
    obtain rfl | rfl := hvalid k hkind
    · refine iff_of_false (not_decoded_notSupported hsend ht.request) ?_
      intro hc
      rw [Service.Conveys, show kind = some .create from hkind] at hc
      cases hc
    · exact iff_of_true decoded_dirMap hkind
  | badClass => cases hkind
  | invalid => cases hkind

/-- A request is answered, and the receiver gets what the handler computed. -/
def Conveyed (k : Kind) (x : Incoming) (se : FuseSession) (s : State) : Prop :=
  ∃ q m s', finesseProcessRequestWorker x se s = some ([q], m, s') ∧
    ∀ m', Intact m m' → Decoded k q m'

/-- In every state that the server reaches, the receiver for a kind of request
gets what the handler computed exactly if the client is still there, the
handler runs and the service conveys its result. -/
theorem conveyed_iff {se : FuseSession} {s : State} {x : Incoming} {k : Kind} (hs : Reached se s)
    (hu : Fresh s.table x.uuid) (ht : Taken x se) (hkind : x.service.kind = some k) :
    Conveyed k x se s ↔ x.connected = true ∧ x.service.Runs x se s ∧
      x.service.Conveys x se s := by
  constructor
  · rintro ⟨q, m, s', h, hall⟩
    have hc := connected_of_worker h
    refine ⟨hc, ?_, (decoded_iff hs hu ht h hkind (.refl m)).mp (hall m (.refl m))⟩
    obtain ⟨hnone, -⟩ | ⟨hruns, -⟩ := worker_cases hs.kept hu ht hc
    · rw [hnone] at h
      cases h
    · exact hruns
  · rintro ⟨hc, hruns, hconv⟩
    obtain ⟨-, hno⟩ | ⟨-, s', -, ⟨-, hsends⟩ | ⟨q, m, hsome, -⟩⟩ := worker_cases hs.kept hu ht hc
    · exact absurd hruns hno
    · obtain ⟨name, hv, hno⟩ := Service.eq_statfs_of_nil hsends
      rw [hv] at hconv
      obtain ⟨ino, hino, -⟩ := hconv
      exact absurd hino (hno ino)
    · exact ⟨q, m, s', hsome, fun m' hi =>
        (decoded_iff hs hu ht hsome hkind hi).mpr hconv⟩

theorem conveyed_iff_file : Conveyed .nameMap (message (.nameMap none
        ⟨[47, 109, 110, 116, 47, 97], by decide⟩ 0#32)) mounted State.initial ↔
      true = true ∧ (message (.nameMap none
        ⟨[47, 109, 110, 116, 47, 97], by decide⟩ 0#32)).service.Runs
        (message (.nameMap none ⟨[47, 109, 110, 116, 47, 97], by decide⟩ 0#32))
        mounted State.initial ∧
      (message (.nameMap none ⟨[47, 109, 110, 116, 47, 97], by decide⟩ 0#32)).service.Conveys
        (message (.nameMap none ⟨[47, 109, 110, 116, 47, 97], by decide⟩ 0#32))
        mounted State.initial :=
  conveyed_iff (reached_initial mounted) (by decide +kernel)
    ⟨by decide +kernel, by decide +kernel, by decide +kernel⟩
    (by decide +kernel)

/-- The server tells a client that a name is not there, and the client stops
when it reads this. -/
theorem missing_name_stops_the_client : ∃ m s', finesseProcessRequestWorker (message (.nameMap none
      ⟨[47, 109, 110, 116, 47, 98], by decide⟩ 0#32)) mounted State.initial =
      some ([.nameMap none 2#32], m, s') ∧
    receive m .nameMap = none ∧ ¬ Decoded .nameMap (.nameMap none 2#32) m := by
  have h : (finesseProcessRequestWorker (message (.nameMap none
      ⟨[47, 109, 110, 116, 47, 98], by decide⟩ 0#32)) mounted
      State.initial).map (fun r => (r.1, receive r.2.1 .nameMap)) =
      some ([.nameMap none 2#32], none) := by decide +kernel
  obtain ⟨⟨rs, m, s'⟩, hw, heq⟩ := map_eq_some_iff.mp h
  simp only [Prod.mk.injEq] at heq
  obtain ⟨rfl, hr⟩ := heq
  refine ⟨m, s', hw, hr, ?_⟩
  rintro ⟨data, hd, -⟩
  rw [hr] at hd
  cases hd

end Finesse.Server
