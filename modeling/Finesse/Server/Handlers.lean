import Finesse.Server.Resolution
import Finesse.Comm.Responses

/-!
# The server

`finesse_process_request_worker` takes the messages of the clients one after
the other, and dispatches each to the handler of its class and type
(`server/fuse.c`, `native.c`, `stat.c`, `statfs.c`, `access.c`, `unlink.c`,
`namemap.c`). A handler may map a name, asks the file system below, and sends
a response.

The state between two messages is the object table, and the log of lookups.
The file system is part of what the worker meets with a message, so that it
may change in any way from one message to the next. A failed assertion is
`none`; it stops the server.
-/

namespace Finesse.Server

open Memory Comm.Offset Finesse.Utils Finesse.Comm

/-! ## The file system -/

/-- `struct fuse_kstatfs`. -/
structure FuseStatfs where
  blocks : BitVec 64
  bfree : BitVec 64
  bavail : BitVec 64
  files : BitVec 64
  ffree : BitVec 64
  bsize : BitVec 32
  namelen : BitVec 32
  frsize : BitVec 32
deriving DecidableEq, Repr

/-- A reply to getattr. One that is too short holds no attributes. The
timeout is the number that the handler computes from the reply. -/
inductive AttrReply where
  | noData (error : BitVec 32)
  | data (error : BitVec 32) (attr : FuseAttr) (timeout : Bytes 8)
deriving DecidableEq

/-- A reply to statfs. -/
inductive StatfsReply where
  | noData (error : BitVec 32)
  | short (error : BitVec 32)
  | data (error : BitVec 32) (st : FuseStatfs)
deriving DecidableEq

def StatfsReply.error : StatfsReply → BitVec 32
  | .noData error | .short error | .data error _ => error

/-- `finesse_original_ops`, as it replies while one message is served. -/
structure Operations where
  lookup : FileSystem
  intErrors : IntErrors lookup
  getattr : Inode → AttrReply
  statfs : Inode → StatfsReply
  access : Inode → BitVec 32 → BitVec 32
  unlink : Inode → Name → BitVec 32

/-- The `struct stat` that the handler fills in. The seconds of `st_ctim` are
never set: what is meant for them is stored over the nanoseconds. -/
def statout (attr : FuseAttr) : Bytes sizeofStat :=
  ⟨load (run (fun _ => 0) [⟨8, le 8 attr.ino.toNat⟩, ⟨24, le 4 attr.mode.toNat⟩,
     ⟨16, le 8 attr.nlink.toNat⟩, ⟨28, le 4 attr.uid.toNat⟩,
     ⟨32, le 4 attr.gid.toNat⟩, ⟨40, le 8 attr.rdev.toNat⟩,
     ⟨48, le 8 attr.size.toNat⟩, ⟨56, le 8 attr.blksize.toNat⟩,
     ⟨64, le 8 attr.blocks.toNat⟩, ⟨72, le 8 attr.atime.toNat⟩,
     ⟨80, le 8 attr.atimensec.toNat⟩, ⟨88, le 8 attr.mtime.toNat⟩,
     ⟨96, le 8 attr.mtimensec.toNat⟩, ⟨112, le 8 attr.ctime.toNat⟩,
     ⟨112, le 8 attr.ctimensec.toNat⟩]) 0 sizeofStat, length_load _ _ _⟩

def zerostat : Bytes sizeofStat := ⟨zeros sizeofStat, length_zeros _⟩

def zeroTimeout : Bytes 8 := ⟨zeros 8, length_zeros _⟩

/-- The `struct statvfs` that the handler fills in. -/
def stvfs (st : FuseStatfs) : Bytes sizeofStatvfs :=
  ⟨load (run (fun _ => 0) [⟨0, le 8 st.bsize.toNat⟩, ⟨8, le 8 st.frsize.toNat⟩,
     ⟨16, le 8 st.blocks.toNat⟩, ⟨24, le 8 st.bfree.toNat⟩,
     ⟨32, le 8 st.bavail.toNat⟩, ⟨40, le 8 st.files.toNat⟩,
     ⟨48, le 8 st.ffree.toNat⟩, ⟨80, le 8 st.namelen.toNat⟩]) 0 sizeofStatvfs,
    length_load _ _ _⟩

/-! ## The handlers -/

/-- What the worker meets when it serves one message: the message and its
slot, whether the client is still connected when the response is sent, the
clock, the counters of the server, the uuid that would be generated, and the
file system. -/
structure Incoming where
  slot : Slot
  mem : Mem
  connected : Bool
  time : Bytes 16
  counters : Bytes 660
  uuid : Uuid
  ops : Operations

-- Irreducible, so that no proof computes with the bytes of a message.
/-- The name at an offset of the message. -/
@[irreducible] def Incoming.name (x : Incoming) (o : Nat) : Option Name :=
  (nameAt x.slot x.mem o).map fun bytes => bytes.map fun b => Char.ofNat b.toNat

@[irreducible] def Incoming.key (x : Incoming) (o : Nat) : Uuid := keyAt x.mem o

/-- A status as it is stored in a message. -/
def errno (status : Int) : BitVec 32 := BitVec.ofInt 32 status

/-- The parent inode that `Stat` and `Unlink` pass with a parent key. -/
def parentIno (parent : Uuid) : Inode :=
  if parent = 0#128 then fuseRootId else 0#64

/-- The end of `Stat`, when there should be an object. Without attributes the
response is sent without them. -/
def statObject (x : Incoming) (finobj : Option Nat) (s : State) : Option (List Response × State) :=
  if intAt x.mem (msg statFlags) ≠ 0#32 then none
  else
    match finobj with
    | none => none
    | some a =>
      match objectRelease s.table a with
      | none => none
      | some t =>
        match x.ops.getattr (s.table.entries a).inode with
        | .noData error => some ([.stat none zeroTimeout error], ⟨t, s.log⟩)
        | .data error attr timeout =>
          if error ≠ 0#32 then
            some ([.stat none zeroTimeout error], ⟨t, s.log⟩)
          else if isLink attr.mode.toNat then none
          else some ([.stat (some (statout attr)) timeout error], ⟨t, s.log⟩)

/-- `Stat`. -/
def finesseServerFuseStat (x : Incoming) (se : FuseSession) (s : State) :
    Option (List Response × State) :=
  let parent := x.key parameters
  let inode := x.key statInode
  match x.name statName with
  | none => none
  | some name =>
    if name.length = 0 then
      if parent = 0#128 ∨ inode ≠ 0#128 then
        some ([.stat (some zerostat) zeroTimeout (errno EINVAL)], s)
      else
        match objectLookupByUuid s.table inode with
        | none => none
        | some (finobj, t) => statObject x finobj ⟨t, s.log⟩
    else
      match finesseServerInternalMapRequest x.ops.lookup se (parentIno parent)
          (some parent) name 0 x.uuid s with
      | none => none
      | some (status, finobj, s) =>
        if status ≠ 0 then
          some ([.stat (some zerostat) zeroTimeout (errno status)], s)
        else statObject x finobj s

/-- `Unlink`. The file is unlinked under the whole name of the request, in
the inode that the name was resolved to. -/
def finesseServerFuseUnlink (x : Incoming) (se : FuseSession) (s : State) :
    Option (List Response × State) :=
  let parent := x.key parameters
  match x.name unlinkName with
  | none => none
  | some name =>
    match finesseServerInternalMapRequest x.ops.lookup se (parentIno parent)
        (some parent) name 0 x.uuid s with
    | none => none
    | some (status, finobj, s) =>
      if status ≠ 0 then some ([.unlink (errno status)], s)
      else
        match finobj with
        | none => none
        | some a =>
          match objectRelease s.table a with
          | none => none
          | some t =>
            some ([.unlink (x.ops.unlink (s.table.entries a).inode name)], ⟨t, s.log⟩)

/-- `Access`. The inode asked about is always the root, and its answer is sent
as the response to statfs. -/
def finesseServerFuseAccess (x : Incoming) (s : State) : Option (List Response × State) :=
  let parent := x.key parameters
  let error := x.ops.access fuseRootId (intAt x.mem (msg accessMask))
  if parent = 0#128 then some ([.statfs none error], s)
  else
    match objectLookupByUuid s.table parent with
    | none => none
    | some (none, t) => some ([.access (errno EBADF)], ⟨t, s.log⟩)
    | some (some a, t) =>
      match objectRelease t a with
      | none => none
      | some t => some ([.statfs none error], ⟨t, s.log⟩)

/-- `finesse_fstatfs_handler`. When the file system reports an error, the
reference to the object is kept. -/
def finesseFstatfsHandler (x : Incoming) (key : Uuid) (s : State) :
    Option (List Response × State) :=
  if key = 0#128 then none
  else
    match objectLookupByUuid s.table key with
    | none => none
    | some (none, t) => some ([.statfs none (errno EBADF)], ⟨t, s.log⟩)
    | some (some a, t) =>
      let reply := x.ops.statfs (t.entries a).inode
      if reply.error ≠ 0#32 then
        some ([.statfs none reply.error], ⟨t, s.log⟩)
      else
        let response := match reply with
          | .noData _ => none
          | .short _ => some (.statfs none (errno EOVERFLOW))
          | .data _ st => some (.statfs (some (stvfs st)) 0#32)
        match response, objectRelease t a with
        | some r, some t => some ([r], ⟨t, s.log⟩)
        | _, _ => none

/-- `finesse_statfs_handler`. Nothing is sent when the name is not found. -/
def finesseStatfsHandler (x : Incoming) (se : FuseSession) (s : State) :
    Option (List Response × State) :=
  match x.name statfsOptions with
  | none => none
  | some name =>
    match finesseServerInternalMapRequest x.ops.lookup se 0#64 none name 0 x.uuid s with
    | none => none
    | some (status, finobj, s) =>
      if status ≠ 0 then some ([], s)
      else
        match finobj with
        | none => none
        | some a =>
          match finesseFstatfsHandler x (s.table.entries a).uuid s with
          | none => none
          | some (rs, s) =>
            match objectRelease s.table a with
            | none => none
            | some t => some (rs, ⟨t, s.log⟩)

def finesseServerFuseStatFs (x : Incoming) (se : FuseSession) (s : State) :
    Option (List Response × State) :=
  let statFsType := word x.mem (msg parameters) 4
  if statFsType = statfsByName then finesseStatfsHandler x se s
  else if statFsType = statfsByInode then
    finesseFstatfsHandler x (x.key statfsOptions) s
  else none

/-- The response that a handler of `namemap.c` sends. -/
def ServerEvent.response : ServerEvent → Option Response
  | .fuse _ => none
  | .mapped key => some (.nameMap (some key) 0#32)
  | .mapFailed result => some (.nameMap none (errno result))
  | .released _ => some (.nameMapRelease 0#32)

/-- A handler of `namemap.c`, with its responses only. -/
def responses : Option (List ServerEvent × State) → Option (List Response × State)
  | none => none
  | some (ev, s) => some (ev.filterMap ServerEvent.response, s)

/-! ## The worker -/

/-- `FinesseServerHandleFuseRequest`. The types that are counted are those in
range. -/
def finesseServerHandleFuseRequest (x : Incoming) (se : FuseSession)
    (s : State) : Option (List Response × State) :=
  let type := word x.mem (msg messageType) 4
  if type < finesseFuseReqBaseType ∨ finesseFuseReqMax ≤ type then none
  else if type = fuseReqStatfs then finesseServerFuseStatFs x se s
  else if type = fuseReqStat then finesseServerFuseStat x se s
  else if type = fuseReqAccess then finesseServerFuseAccess x s
  else if type = fuseReqUnlink then finesseServerFuseUnlink x se s
  else some ([.notSupported fuseRspErr], s)

def finesseServerHandleNativeRequest (x : Incoming) (se : FuseSession)
    (s : State) : Option (List Response × State) :=
  let type := word x.mem (msg messageType) 4
  if type < finesseNativeReqBaseType ∨ finesseNativeReqMax ≤ type then none
  else if type = nativeReqTest then some ([.test 0#32], s)
  else if type = nativeReqServerStat then
    some ([.serverStat x.counters 0#32], s)
  else if type = nativeReqMap then
    match x.name mapName with
    | none => none
    | some name => responses (finesseServerNativeMapRequest x.ops.lookup se
        (x.key parameters) name
        (intAt x.mem (msg mapFlags)).toNat x.uuid s)
  else if type = nativeReqMapRelease then
    responses (finesseServerNativeMapReleaseRequest (x.key parameters) s)
  else some ([.notSupported nativeRspErr], s)

/-- The switch of `finesse_process_request_worker`. -/
def dispatch (x : Incoming) (se : FuseSession) (s : State) : Option (List Response × State) :=
  let messageClass := word x.mem (msg Offset.messageClass) 4
  if messageClass = finesseFuseMessage then
    finesseServerHandleFuseRequest x se s
  else if messageClass = finesseNativeMessage then
    finesseServerHandleNativeRequest x se s
  else some ([.badClass], s)

/-- The responses are sent one after the other. To a client that has left,
only the response to a request that is not supported is dropped; the other
senders stop. -/
def transmit (x : Incoming) : Mem → List Response → Option (List Response × Mem)
  | m, [] => some ([], m)
  | m, r :: rs =>
    if x.connected then
      match r.send m x.time with
      | none => none
      | some m => (transmit x m rs).map fun q => (r :: q.1, q.2)
    else
      match r with
      | .notSupported _ => transmit x m rs
      | _ => none

/-- One round of `finesse_process_request_worker`: the responses it sends for
a message, the block it leaves, and the state after it. -/
def finesseProcessRequestWorker (x : Incoming) (se : FuseSession) (s : State) :
    Option (List Response × Mem × State) :=
  if !se.serverHandle ∨ word x.mem Block.requestId 8 = 0 ∨
      word x.mem Block.messageType 4 ≠ finesseRequest then none
  else
    match dispatch x se s with
    | none => none
    | some (rs, s) => (transmit x x.mem rs).map fun q => (q.1, q.2, s)

end Finesse.Server
