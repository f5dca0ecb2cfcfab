import Finesse.Comm.Layout

/-!
# Requests

The functions with which a client sends a request
(`communications/namemap.c`, `stat.c`, `access.c`, `unlink.c`, `create.c`,
`statfs.c`, `dirmap.c`, `serverstat.c` and `testmsg.c`), and what the handlers
of the server read back. Every sender takes a block, fills in the parameters of
its request, and hands the block over.

Two things are asked of a sender: that the server reads what the client
passed (`read_back_iff`), and that nothing is written outside the block
(`written_inside_iff`). Neither always holds.
-/

namespace Finesse.Comm

open Memory Offset Option List
open Finesse.Utils (Uuid)

def fuseReqStat : Nat := 44
def fuseReqUnlink : Nat := 50
def fuseReqStatfs : Nat := 65
def fuseReqAccess : Nat := 70
def fuseReqCreate : Nat := 71
def nativeReqTest : Nat := 1024
def nativeReqServerStat : Nat := 1025
def nativeReqMap : Nat := 1026
def nativeReqMapRelease : Nat := 1027
def nativeReqDirmap : Nat := 1028

/-- `StatFsType`. -/
def statfsByName : Nat := 31
def statfsByInode : Nat := 32

def finesseServerstatsVersion : Nat := 1
def testVersion : Nat := 0x10

/-! ## The senders -/

/-- What the two transport functions add to a request: the times of the
statistics, and the request number. -/
structure Transport where
  start : Bytes 16
  queue : Bytes 16
  requestId : BitVec 64
deriving DecidableEq

/-- The writes of `FinesseGetRequestBuffer` and, in it, of
`FincommCallStatRequestStart`. -/
def requestBufferWrites (x : Transport) (messageClass type : Nat) : List Write :=
  [⟨Block.messageType, le 4 finesseRequest⟩, ⟨Block.result, le 4 enosys⟩,
   ⟨msg version, le 8 finesseMessageVersion⟩,
   ⟨msg Offset.messageClass, le 4 messageClass⟩,
   ⟨msg messageType, le 4 type⟩,
   ⟨msg requestClass, le 4 messageClass⟩,
   ⟨msg Offset.requestType, le 4 type⟩,
   ⟨msg requestCompletionTime, zeros 16⟩,
   ⟨msg responseReceiptTime, zeros 16⟩,
   ⟨msg responseQueueTime, zeros 16⟩,
   ⟨msg requestDequeueTime, zeros 16⟩,
   ⟨msg requestQueueTime, zeros 16⟩,
   ⟨msg requestStartTime, x.start⟩]

/-- The writes of `FinesseRequestReady` to the block. -/
def requestReadyWrites (x : Transport) : List Write :=
  [⟨Block.requestId, le 8 x.requestId.toNat⟩, ⟨msg requestQueueTime, x.queue⟩]

/-- A key that may be missing. -/
def storeKey (o : Nat) : Option Uuid → Write
  | none => ⟨msg o, zeros 16⟩
  | some k => ⟨msg o, keyBytes k⟩

/-- `nameLength < bufSize`, which every sender of a name asserts. -/
def Accepted (o : Nat) (name : CString) : Prop :=
  name.length < shmPageSize - o

instance (o : Nat) (name : CString) : Decidable (Accepted o name) :=
  inferInstanceAs (Decidable (_ < _))

/-- The name and its zero end inside the block. -/
def Fits (o : Nat) (name : CString) : Prop :=
  msg o + name.length + 1 ≤ shmPageSize

instance (o : Nat) (name : CString) : Decidable (Fits o name) :=
  inferInstanceAs (Decidable (_ ≤ _))

/-- `FinesseSendNameMapRequest`. The length of the name is checked once more
in the block, and then the parent is cleared. -/
def finesseSendNameMapRequest (m : Mem) (parentDir : Option Uuid)
    (nameToMap : CString) (flags : BitVec 32) : Option (List Write) :=
  let ws := [storeKey parameters parentDir, ⟨msg mapFlags, intBytes flags⟩,
    ⟨msg mapName, nameToMap.terminated⟩]
  if ¬ Accepted mapName nameToMap then none
  else if (stringAt (run m ws) (msg mapName) shmPageSize).map
      length ≠ some nameToMap.length then none
  else some (ws ++ [⟨msg parameters, zeros 16⟩])

def finesseSendNameMapReleaseRequest (mapKey : Uuid) : List Write :=
  [⟨msg parameters, keyBytes mapKey⟩]

def finesseSendCommonStatRequest (parent inode : Option Uuid)
    (flags : BitVec 32) (path : Option CString) : Option (List Write) :=
  let ws := [storeKey parameters parent, storeKey statInode inode,
    ⟨msg statFlags, intBytes flags⟩]
  if path = none ∧ inode = none then none
  else
    let ws := ws ++ [⟨msg statName, [0]⟩]
    match path with
    | none => some ws
    | some path =>
      if ¬ Accepted statName path then none
      else some (ws ++ [⟨msg statName, path.terminated⟩])

/-- `FinesseSendAccessRequest`. The parent is cleared if `NULL == 0`, which is
always, and the mode is not used. -/
def finesseSendAccessRequest (_parent : Option Uuid) (path : CString)
    (_mode : BitVec 32) : Option (List Write) :=
  if ¬ Accepted accessName path then none
  else some [⟨msg parameters, zeros 16⟩, ⟨msg accessName, path.terminated⟩]

def finesseSendUnlinkRequest (parent : Uuid) (nameToUnlink : CString) : Option (List Write) :=
  if ¬ Accepted unlinkName nameToUnlink then none
  else some [⟨msg parameters, keyBytes parent⟩,
    ⟨msg unlinkName, nameToUnlink.terminated⟩]

/-- `FinesseSendCreateRequest`, which copies the parent twice. -/
def finesseSendCreateRequest (parent : Uuid) (path : CString)
    (attr : Bytes sizeofStat) : Option (List Write) :=
  if ¬ Accepted createName path then none
  else some [⟨msg parameters, keyBytes parent⟩, ⟨msg createAttr, attr⟩,
    ⟨msg parameters, keyBytes parent⟩,
    ⟨msg createName, path.terminated⟩]

def finesseSendStatfsRequest (path : CString) : Option (List Write) :=
  if ¬ Accepted statfsOptions path then none
  else some [⟨msg parameters, le 4 statfsByName⟩,
    ⟨msg statfsOptions, path.terminated⟩]

def finesseSendFstatfsRequest (inode : Uuid) : Option (List Write) :=
  if inode = 0#128 then none
  else some [⟨msg parameters, le 4 statfsByInode⟩,
    ⟨msg statfsOptions, keyBytes inode⟩]

/-- `FinesseSendDirMapRequest`. The key is copied from where the pointer to it
lies and not from where it points, so what is copied are the sixteen bytes
there. -/
def finesseSendDirMapRequest (stack : Bytes 16) (path : CString) : Option (List Write) :=
  if ¬ Accepted dirmapName path then none
  else some [⟨msg parameters, stack⟩, ⟨msg dirmapName, path.terminated⟩]

def finesseSendServerStatRequest : List Write :=
  [⟨msg parameters, le 2 finesseServerstatsVersion⟩]

def finesseSendTestRequest : List Write :=
  [⟨msg parameters, le 8 testVersion⟩]

/-- A call of one of the senders. -/
inductive ClientRequest where
  | nameMap (parentDir : Option Uuid) (nameToMap : CString) (flags : BitVec 32)
  | nameMapRelease (mapKey : Uuid)
  | stat (parent inode : Option Uuid) (flags : BitVec 32)
      (path : Option CString)
  | access (parent : Option Uuid) (path : CString) (mode : BitVec 32)
  | unlink (parent : Uuid) (nameToUnlink : CString)
  | create (parent : Uuid) (path : CString) (attr : Bytes sizeofStat)
  | statfs (path : CString)
  | fstatfs (inode : Uuid)
  | dirMap (stack : Bytes 16) (path : CString)
  | serverStat
  | test

namespace ClientRequest

/-- The class and the type that the sender asks `FinesseGetRequestBuffer`
for. -/
def kind : ClientRequest → Nat × Nat
  | .nameMap .. => (finesseNativeMessage, nativeReqMap)
  | .nameMapRelease .. => (finesseNativeMessage, nativeReqMapRelease)
  | .stat .. => (finesseFuseMessage, fuseReqStat)
  | .access .. => (finesseFuseMessage, fuseReqAccess)
  | .unlink .. => (finesseFuseMessage, fuseReqUnlink)
  | .create .. => (finesseFuseMessage, fuseReqCreate)
  | .statfs .. => (finesseFuseMessage, fuseReqStatfs)
  | .fstatfs .. => (finesseFuseMessage, fuseReqStatfs)
  | .dirMap .. => (finesseNativeMessage, nativeReqDirmap)
  | .serverStat => (finesseNativeMessage, nativeReqServerStat)
  | .test => (finesseNativeMessage, nativeReqTest)

/-- The writes of the sender itself; `m` is the memory with the new block. -/
def fields (m : Mem) : ClientRequest → Option (List Write)
  | .nameMap parentDir nameToMap flags =>
    finesseSendNameMapRequest m parentDir nameToMap flags
  | .nameMapRelease mapKey => some (finesseSendNameMapReleaseRequest mapKey)
  | .stat parent inode flags path =>
    finesseSendCommonStatRequest parent inode flags path
  | .access parent path mode => finesseSendAccessRequest parent path mode
  | .unlink parent nameToUnlink => finesseSendUnlinkRequest parent nameToUnlink
  | .create parent path attr => finesseSendCreateRequest parent path attr
  | .statfs path => finesseSendStatfsRequest path
  | .fstatfs inode => finesseSendFstatfsRequest inode
  | .dirMap stack path => finesseSendDirMapRequest stack path
  | .serverStat => some finesseSendServerStatRequest
  | .test => some finesseSendTestRequest

/-- All that is written for a request. -/
def send (x : Transport) (m : Mem) (c : ClientRequest) : Option (List Write) :=
  let buffer := requestBufferWrites x c.kind.1 c.kind.2
  (c.fields (run m buffer)).map fun ws => buffer ++ ws ++ requestReadyWrites x

/-! ## What the server reads -/

/-- The parameters of the request in a block, as the handlers of the server
read them, are the arguments of the sender. Of a missing key the server reads
the null key, and of a missing path the empty name. -/
def ReadParameters (i : Slot) (m : Mem) : ClientRequest → Prop
  | .nameMap parentDir nameToMap flags =>
    keyAt m parameters = parentDir.getD 0#128 ∧
    intAt m (msg mapFlags) = flags ∧
    nameAt i m mapName = some nameToMap.bytes
  | .nameMapRelease mapKey => keyAt m parameters = mapKey
  | .stat parent inode flags path =>
    keyAt m parameters = parent.getD 0#128 ∧
    keyAt m statInode = inode.getD 0#128 ∧
    intAt m (msg statFlags) = flags ∧
    nameAt i m statName = some (path.elim [] CString.bytes)
  | .access parent path mode =>
    keyAt m parameters = parent.getD 0#128 ∧
    intAt m (msg accessMask) = mode ∧
    nameAt i m accessName = some path.bytes
  | .unlink parent nameToUnlink =>
    keyAt m parameters = parent ∧
    nameAt i m unlinkName = some nameToUnlink.bytes
  | .create parent path attr =>
    keyAt m parameters = parent ∧
    load m (msg createAttr) sizeofStat = attr ∧
    nameAt i m createName = some path.bytes
  | .statfs path =>
    word m (msg parameters) 4 = statfsByName ∧
    nameAt i m statfsOptions = some path.bytes
  | .fstatfs inode =>
    word m (msg parameters) 4 = statfsByInode ∧
    keyAt m statfsOptions = inode
  -- no handler reads a parameter of these
  | .dirMap .. | .serverStat | .test => True

/-- The server reads what the client passed. -/
def ReadBack (i : Slot) (m : Mem) (c : ClientRequest) : Prop :=
  word m (msg Offset.messageClass) 4 = c.kind.1 ∧
  word m (msg messageType) 4 = c.kind.2 ∧ c.ReadParameters i m

/-- The condition under which the server reads what the client passed: names
end inside the block; name map and access have no parent; and the mode is what
the bytes of the path, and the bytes that were in the block before, spell in
the place of the mask. -/
def Faithful (m : Mem) : ClientRequest → Prop
  | .nameMap parentDir nameToMap _ =>
    parentDir.getD 0#128 = 0#128 ∧ Fits mapName nameToMap
  | .stat _ _ _ path => ∀ p ∈ path, Fits statName p
  | .access parent path mode => parent.getD 0#128 = 0#128 ∧
    load (store m (msg accessName) path.terminated)
      (msg accessMask) 4 = intBytes mode ∧ Fits accessName path
  | .unlink _ nameToUnlink => Fits unlinkName nameToUnlink
  | .create _ path _ => Fits createName path
  | .statfs path => Fits statfsOptions path
  | .nameMapRelease .. | .fstatfs .. | .dirMap .. | .serverStat | .test => True

/-- The names of the request end inside the block. -/
def NamesFit : ClientRequest → Prop
  | .nameMap _ nameToMap _ => Fits mapName nameToMap
  | .stat _ _ _ path => ∀ p ∈ path, Fits statName p
  | .access _ path _ => Fits accessName path
  | .unlink _ nameToUnlink => Fits unlinkName nameToUnlink
  | .create _ path _ => Fits createName path
  | .statfs path => Fits statfsOptions path
  | .dirMap _ path => Fits dirmapName path
  | .nameMapRelease .. | .fstatfs .. | .serverStat | .test => True

end ClientRequest

/-! ## The transport -/

section Transport

variable {x : Transport} {messageClass type : Nat} {m m' : Mem}

theorem requestBuffer_above {a : Nat} (ha : msg parameters ≤ a) :
    run m (requestBufferWrites x messageClass type) a = m a := by
  refine run_of_le ?_ ha
  have hx := x.start.2
  simp [requestBufferWrites, hx]

theorem load_requestBuffer_class : load (run m (requestBufferWrites x messageClass type))
      (msg Offset.messageClass) 4 = le 4 messageClass := by
  have hx := x.start.2
  simp [requestBufferWrites, hx]

theorem load_requestBuffer_type : load (run m (requestBufferWrites x messageClass type))
      (msg Offset.messageType) 4 = le 4 type := by
  have hx := x.start.2
  simp [requestBufferWrites, hx]

theorem untouched_requestReady : Untouched m (run m (requestReadyWrites x)) := by
  intro a hlo hhi hstats
  have hx := x.queue.2
  simp only [requestReadyWrites, run_cons, run_nil, store, length_le, hx]
  simp at hlo hhi hstats ⊢
  rw [if_neg (by omega), if_neg (by omega)]

end Transport

/-! ## Reading back -/

section Names

variable {i : Slot} {m m' : Mem} {o : Nat} {name : CString}
  (hl : load m (msg o) (name.length + 1) = name.terminated)
include hl

theorem nameAt_of_fits (ho : parameters ≤ o) (hf : Fits o name)
    (h : Untouched m m') : nameAt i m' o = some name.bytes := by
  simp only [Fits, msg, dataOffset, shmPageSize] at hf
  refine stringAt_of_load (h.load hl (.inr ?_)) ?_
  · simp at ho ⊢
    omega
  have hroom : shmPageSize ≤ (64 - i.val) * shmPageSize := Nat.le_mul_of_pos_left _ (by omega)
  simp only [msg, dataOffset, shmPageSize] at hroom ⊢
  omega

/-- A name that reaches into the next block is at the mercy of others. -/
theorem fits_of_nameAt (ho : msg o ≤ shmPageSize)
    (h : ∀ m', Untouched m m' → nameAt i m' o = some name.bytes) : Fits o name := by
  by_contra hf
  rw [Fits, Nat.not_le] at hf
  obtain ⟨k, hk⟩ : ∃ k, shmPageSize = msg o + k := Nat.exists_eq_add_of_le ho
  have hlen : k < name.terminated.length := by
    rw [CString.length_terminated]
    omega
  have hread := (stringAt_eq_some.mp (h _ (untouched_update m (m shmPageSize + 1)))).2.1
  have hold := eq_of_load hl (getElem?_eq_getElem hlen)
  have hnew := eq_of_load hread (getElem?_eq_getElem hlen)
  rw [← hk] at hold hnew
  rw [Function.update_self, hold] at hnew
  exact absurd hnew (by simp)

/-- The server finds the name whatever others do if and only if it fits. -/
theorem forall_nameAt_iff (ho : parameters ≤ o) (ho' : msg o ≤ shmPageSize) :
    (∀ m', Untouched m m' → nameAt i m' o = some name.bytes) ↔ Fits o name :=
  ⟨fits_of_nameAt hl ho', fun hf _ h => nameAt_of_fits hl ho hf h⟩

end Names

variable {flags : BitVec 32} {parent : Option Uuid} {c : ClientRequest} {path : CString}

namespace ClientRequest

variable {x : Transport} {i : Slot} {m m' : Mem} {ws : List Write}

theorem storeKey_eq (o : Nat) (k : Option Uuid) :
    storeKey o k = ⟨msg o, keyBytes (k.getD 0#128)⟩ := by
  cases k with
  | none => rw [storeKey, ← le_zero]; rfl
  | some k => rfl

/-- The senders write into the parameters only, and only a name can reach out
of the block. -/
theorem fields_spec (h : c.fields m = some ws) :
    (∀ w ∈ ws, msg parameters ≤ w.addr ∧ 0 < w.bytes.length) ∧
      ((∀ w ∈ ws, w.addr + w.bytes.length ≤ shmPageSize) ↔ c.NamesFit) := by
  cases c with
  | nameMap parentDir nameToMap flags =>
    simp only [fields, finesseSendNameMapRequest, storeKey_eq] at h
    split at h
    · cases h
    split at h
    · cases h
    · cases h
      simp [NamesFit, Fits, Nat.add_assoc]
  | stat parent inode flags path =>
    simp only [fields, finesseSendCommonStatRequest, storeKey_eq] at h
    split at h
    · cases h
    cases path with
    | none =>
      cases h
      simp [NamesFit]
    | some path =>
      simp only at h
      split at h
      · cases h
      · cases h
        simp [NamesFit, Fits, Nat.add_assoc]
  | nameMapRelease | serverStat | test =>
    cases h
    simp [finesseSendNameMapReleaseRequest, finesseSendServerStatRequest,
      finesseSendTestRequest, NamesFit]
  | create parent path attr =>
    have hattr := attr.2
    simp only [fields, finesseSendCreateRequest] at h
    split at h
    · cases h
    · cases h
      simp [NamesFit, Fits, Nat.add_assoc, hattr]
  | dirMap stack path =>
    have hstack := stack.2
    simp only [fields, finesseSendDirMapRequest] at h
    split at h
    · cases h
    · cases h
      simp [NamesFit, Fits, Nat.add_assoc, hstack]
  | access | unlink | statfs | fstatfs =>
    simp only [fields, finesseSendAccessRequest, finesseSendUnlinkRequest,
      finesseSendStatfsRequest, finesseSendFstatfsRequest] at h
    split at h
    · cases h
    · cases h
      simp [NamesFit, Fits, Nat.add_assoc]

variable {parentDir : Option Uuid} {nameToMap : CString}

theorem fields_nameMap (h : (nameMap parentDir nameToMap flags).fields m = some ws) :
    ws = [⟨msg parameters, keyBytes (parentDir.getD 0#128)⟩, ⟨msg mapFlags, intBytes flags⟩,
      ⟨msg mapName, nameToMap.terminated⟩,
      ⟨msg parameters, keyBytes 0#128⟩] := by
  simp only [fields, finesseSendNameMapRequest, storeKey_eq] at h
  split at h
  · cases h
  split at h
  · cases h
  · rw [← some.inj h, show zeros 16 = keyBytes 0#128 from (le_zero 16).symm]
    rfl

theorem readParameters_nameMap (h : (nameMap parentDir nameToMap flags).fields m = some ws) :
    (∀ m', Untouched (run m ws) m' → (nameMap parentDir nameToMap flags).ReadParameters i m') ↔
      (nameMap parentDir nameToMap flags).Faithful m := by
  have hws := fields_nameMap h
  have hkey : load (run m ws) (msg parameters) 16 = keyBytes 0#128 := by
    rw [hws]
    simp
  have hflags : load (run m ws) (msg mapFlags) 4 = intBytes flags := by
    rw [hws]
    simp
  have hname : load (run m ws) (msg mapName) (nameToMap.length + 1) =
      nameToMap.terminated := by
    rw [hws]
    simp
  constructor
  · intro hall
    refine ⟨?_, fits_of_nameAt hname (by simp) fun m' h => (hall m' h).2.2⟩
    rw [← (hall _ (.refl _)).1]
    exact keyAt_eq_iff.mpr hkey
  · rintro ⟨hnull, hf⟩ m' hm
    refine ⟨?_, hm.intAt hflags (by simp), nameAt_of_fits hname (by simp) hf hm⟩
    rw [hnull]
    exact hm.keyAt hkey (by simp)

theorem load_stat {inode : Option Uuid} {path : Option CString}
    (h : (stat parent inode flags path).fields m = some ws) :
    load (run m ws) (msg parameters) 16 = keyBytes (parent.getD 0#128) ∧
    load (run m ws) (msg statInode) 16 = keyBytes (inode.getD 0#128) ∧
    load (run m ws) (msg statFlags) 4 = intBytes flags ∧
    load (run m ws) (msg statName) ((path.getD .empty).length + 1) =
      (path.getD .empty).terminated := by
  simp only [fields, finesseSendCommonStatRequest, storeKey_eq] at h
  split at h
  · cases h
  cases path with
  | none =>
    obtain rfl := some.inj h
    simp [CString.empty, CString.terminated, CString.length]
  | some path =>
    simp only at h
    split at h
    · cases h
    obtain rfl := some.inj h
    simp

theorem readParameters_stat {inode : Option Uuid} {path : Option CString}
    (h : (stat parent inode flags path).fields m = some ws) :
    (∀ m', Untouched (run m ws) m' → (stat parent inode flags path).ReadParameters i m') ↔
      (stat parent inode flags path).Faithful m := by
  obtain ⟨hparent, hinode, hflags, hname⟩ := load_stat h
  have hbytes : (path.getD .empty).bytes = path.elim [] CString.bytes := by
    cases path <;> rfl
  have hfits : (stat parent inode flags path).Faithful m ↔ Fits statName (path.getD .empty) := by
    cases path with
    | none => exact ⟨fun _ => by decide, fun _ => nofun⟩
    | some p => exact ⟨fun h => h p rfl, fun h q hq => some.inj hq ▸ h⟩
  rw [hfits, ← forall_nameAt_iff (i := i) hname (by simp) (by simp), hbytes]
  refine forall₂_congr fun m' hm => ⟨fun h => h.2.2.2, fun h => ?_⟩
  exact ⟨hm.keyAt hparent (by simp), hm.keyAt hinode (by simp), hm.intAt hflags (by simp), h⟩

theorem readParameters_access {mode : BitVec 32}
    (h : (access parent path mode).fields m = some ws) :
    (∀ m', Untouched (run m ws) m' → (access parent path mode).ReadParameters i m') ↔
      (access parent path mode).Faithful m := by
  simp only [fields, finesseSendAccessRequest] at h
  split at h
  · cases h
  have hws := some.inj h
  have hkey : load (run m ws) (msg parameters) 16 = keyBytes 0#128 := by
    rw [← hws, show zeros 16 = keyBytes 0#128 from (le_zero 16).symm]
    simp
  have hname : load (run m ws) (msg accessName) (path.length + 1) =
      path.terminated := by
    rw [← hws]
    simp
  -- the mask lies under the name, and what the name leaves free is old
  have hmask : load (run m ws) (msg accessMask) 4 =
      load (store m (msg accessName) path.terminated) (msg accessMask) 4 := by
    rw [← hws]
    refine load_congr fun a ha _ => ?_
    simp only [run_cons, run_nil, store]
    split
    · rfl
    · rw [if_neg (by simp at ha ⊢; omega)]
  constructor
  · intro hall
    obtain ⟨hk, hi, -⟩ := hall _ (.refl _)
    refine ⟨?_, ?_, fits_of_nameAt hname (by simp) fun m' h => (hall m' h).2.2⟩
    · rw [← hk]
      exact keyAt_eq_iff.mpr hkey
    · rw [← hmask]
      exact intAt_eq_iff.mp hi
  · rintro ⟨hnull, hmode, hf⟩ m' hm
    rw [← hmask] at hmode
    refine ⟨?_, hm.intAt hmode (by simp), nameAt_of_fits hname (by simp) hf hm⟩
    rw [hnull]
    exact hm.keyAt hkey (by simp)

variable {name : CString}

/-- The requests that have a name and fields that always arrive. -/
theorem forall_and_nameAt_iff {o : Nat} {p : Mem → Prop}
    (ho : parameters ≤ o) (ho' : msg o ≤ shmPageSize)
    (hl : load m (msg o) (name.length + 1) = name.terminated) (hp : ∀ m', Untouched m m' → p m') :
    (∀ m', Untouched m m' → p m' ∧ nameAt i m' o = some name.bytes) ↔
      Fits o name := by
  rw [← forall_nameAt_iff (i := i) hl ho ho']
  exact forall₂_congr fun m' hm => ⟨And.right, fun h => ⟨hp m' hm, h⟩⟩

theorem readParameters_unlink {parent : Uuid} (h : (unlink parent name).fields m = some ws) :
    (∀ m', Untouched (run m ws) m' → (unlink parent name).ReadParameters i m') ↔
      (unlink parent name).Faithful m := by
  simp only [fields, finesseSendUnlinkRequest] at h
  split at h
  · cases h
  have hws := some.inj h
  refine forall_and_nameAt_iff (by simp) (by simp) ?_ fun m' hm => hm.keyAt ?_ (by simp)
  all_goals
    rw [← hws]
    simp

theorem readParameters_create {parent : Uuid} {attr : Bytes sizeofStat}
    (h : (create parent path attr).fields m = some ws) :
    (∀ m', Untouched (run m ws) m' → (create parent path attr).ReadParameters i m') ↔
      (create parent path attr).Faithful m := by
  simp only [fields, finesseSendCreateRequest] at h
  split at h
  · cases h
  have hws := some.inj h
  have hattr := attr.2
  simp only [ReadParameters, ← and_assoc]
  refine forall_and_nameAt_iff (by simp) (by simp) ?_ fun m' hm =>
    ⟨hm.keyAt ?_ (by simp), hm.load ?_ (by simp)⟩
  all_goals
    rw [← hws]
    simp [hattr]

theorem readParameters_statfs (h : (statfs path).fields m = some ws) :
    (∀ m', Untouched (run m ws) m' → (statfs path).ReadParameters i m') ↔
      (statfs path).Faithful m := by
  simp only [fields, finesseSendStatfsRequest] at h
  split at h
  · cases h
  have hws := some.inj h
  refine forall_and_nameAt_iff (by simp) (by simp) ?_ fun m' hm =>
    (word_eq_iff (by decide)).mpr (hm.load ?_ (by simp))
  all_goals
    rw [← hws]
    simp

theorem readParameters_fstatfs {inode : Uuid} (h : (fstatfs inode).fields m = some ws)
    (hm : Untouched (run m ws) m') : (fstatfs inode).ReadParameters i m' := by
  simp only [fields, finesseSendFstatfsRequest] at h
  split at h
  · cases h
  have hws := some.inj h
  refine ⟨(word_eq_iff (by decide)).mpr (hm.load ?_ (by simp)), hm.keyAt ?_ (by simp)⟩
  all_goals
    rw [← hws]
    simp

theorem readParameters_nameMapRelease {mapKey : Uuid}
    (h : (nameMapRelease mapKey).fields m = some ws) (hm : Untouched (run m ws) m') :
    (nameMapRelease mapKey).ReadParameters i m' := by
  obtain rfl := some.inj h
  refine hm.keyAt ?_ (by simp)
  exact load_store_of_length _ (by simp)

theorem readParameters_iff (h : c.fields m = some ws) :
    (∀ m', Untouched (run m ws) m' → c.ReadParameters i m') ↔ c.Faithful m := by
  cases c with
  | nameMap => exact readParameters_nameMap h
  | nameMapRelease =>
    exact iff_of_true (fun _ hm => readParameters_nameMapRelease h hm) trivial
  | stat => exact readParameters_stat h
  | access => exact readParameters_access h
  | unlink => exact readParameters_unlink h
  | create => exact readParameters_create h
  | statfs => exact readParameters_statfs h
  | fstatfs => exact iff_of_true (fun _ hm => readParameters_fstatfs h hm) trivial
  | dirMap | serverStat | test => exact iff_of_true (fun _ _ => trivial) trivial

theorem faithful_congr (h : ∀ a, msg parameters ≤ a → m' a = m a) :
    c.Faithful m' ↔ c.Faithful m := by
  cases c with
  | access parent path mode =>
    have hl : load (store m' (msg accessName) path.terminated) (msg accessMask) 4 =
        load (store m (msg accessName) path.terminated) (msg accessMask) 4 := by
      refine load_congr fun a ha _ => ?_
      rw [store, store, h a (Nat.le_trans (by simp) ha)]
    simp only [Faithful, hl]
  | _ => exact Iff.rfl

theorem kind_lt (c : ClientRequest) : c.kind.1 < 256 ^ 4 ∧ c.kind.2 < 256 ^ 4 := by
  cases c <;> simp [kind, finesseFuseMessage, finesseNativeMessage, nativeReqMap,
    nativeReqMapRelease, nativeReqDirmap, nativeReqServerStat, nativeReqTest,
    fuseReqStat, fuseReqAccess, fuseReqUnlink, fuseReqCreate, fuseReqStatfs]

/-- Whatever others do, the server reads what the client passed if and only if
the request is faithful. -/
theorem read_back_iff (x : Transport) (i : Slot) (m : Mem) (c : ClientRequest)
    {ws : List Write} (h : c.send x m = some ws) :
    (∀ m', Untouched (run m ws) m' → c.ReadBack i m') ↔ c.Faithful m := by
  obtain ⟨fs, hf, rfl⟩ := map_eq_some_iff.mp h
  rw [← faithful_congr fun a ha => requestBuffer_above ha,
    ← readParameters_iff (i := i) hf, run_append, run_append]
  have hready := untouched_requestReady (x := x)
    (m := run (run m (requestBufferWrites x c.kind.1 c.kind.2)) fs)
  -- class and type were written with the block, below the parameters
  have hlow : ∀ {a n v}, load (run m (requestBufferWrites x c.kind.1 c.kind.2))
      a n = le n v → a + n ≤ msg parameters →
      load (run (run m (requestBufferWrites x c.kind.1 c.kind.2)) fs) a n =
        le n v := by
    intro a n v hl ha
    rw [← hl]
    exact load_congr fun y _ hy =>
      run_of_lt (fun w hw => ((fields_spec hf).1 w hw).1) (Nat.lt_of_lt_of_le hy ha)
  have hclass := hlow load_requestBuffer_class (by simp)
  have htype := hlow load_requestBuffer_type (by simp)
  have hkind := kind_lt c
  constructor
  · intro hall m' hm
    exact (hall m' (hready.symm.trans hm)).2.2
  intro hall m' hm
  have hm := hready.trans hm
  exact ⟨(word_eq_iff hkind.1).mpr (hm.load hclass (by simp)),
    (word_eq_iff hkind.2).mpr (hm.load htype (by simp)), hall m' hm⟩

/-- An unlink request arrives. -/
theorem read_back_unlink : ∃ ws, (unlink 5#128 ⟨[97], by decide⟩).send
      ⟨⟨zeros 16, rfl⟩, ⟨zeros 16, rfl⟩, 1#64⟩ (fun _ => 0) = some ws ∧
    ∀ m', Untouched (run (fun _ => 0) ws) m' → (unlink 5#128 ⟨[97], by decide⟩).ReadBack 0 m' :=
  ⟨_, rfl, (read_back_iff _ 0 _ _ rfl).mpr (by simp [Faithful, Fits, CString.length])⟩

/-- The parent of a name map request does not arrive, and neither does the
mode of an access request. -/
theorem parent_and_mode_lost : ∃ ws vs, (nameMap (some 1#128) ⟨[47, 97], by decide⟩ 0#32).send
      ⟨⟨zeros 16, rfl⟩, ⟨zeros 16, rfl⟩, 1#64⟩ (fun _ => 0) = some ws ∧
    keyAt (run (fun _ => 0) ws) parameters = 0#128 ∧
    ¬ (nameMap (some 1#128) ⟨[47, 97], by decide⟩ 0#32).ReadBack 0 (run (fun _ => 0) ws) ∧
    (access none ⟨[47, 97], by decide⟩ 4#32).send
      ⟨⟨zeros 16, rfl⟩, ⟨zeros 16, rfl⟩, 1#64⟩ (fun _ => 0) = some vs ∧
    intAt (run (fun _ => 0) vs) (msg accessMask) = 0#32 ∧
    ¬ (access none ⟨[47, 97], by decide⟩ 4#32).ReadBack 0 (run (fun _ => 0) vs) := by
  refine ⟨_, _, rfl, ?_, ?_, rfl, ?_, ?_⟩
  · decide +kernel
  · rintro ⟨-, -, hk, -⟩
    exact absurd hk (by decide +kernel)
  · decide +kernel
  · rintro ⟨-, -, -, hm, -⟩
    exact absurd hm (by decide +kernel)

/-! ## Where a request is written -/

/-- The place of a block in the region: `Messages` starts at the second
page. -/
def blockStart (i : Slot) : Nat := (i + 1) * shmPageSize

/-- Every byte of the writes to block `i` lies, in the region, from `lo` of the
block on and inside the block. -/
def InBlock (i : Slot) (lo : Nat) (ws : List Write) : Prop :=
  ∀ w ∈ ws, ∀ k < w.bytes.length, blockStart i + lo ≤ blockStart i + w.addr + k ∧
      blockStart i + w.addr + k < blockStart i + shmPageSize

theorem inBlock_iff {lo : Nat} (h : ∀ w ∈ ws, lo ≤ w.addr ∧ 0 < w.bytes.length) :
    InBlock i lo ws ↔ ∀ w ∈ ws, w.addr + w.bytes.length ≤ shmPageSize := by
  refine forall₂_congr fun w hw => ⟨fun hin => ?_, fun hin k hk => ?_⟩
  · have hpos := (h w hw).2
    have := (hin (w.bytes.length - 1) (by omega)).2
    omega
  · have := (h w hw).1
    omega

theorem transport_inBlock (x : Transport) (c : ClientRequest) :
    InBlock i 0 (requestBufferWrites x c.kind.1 c.kind.2 ++ requestReadyWrites x) := by
  have hs := x.start.2
  have hq := x.queue.2
  rw [inBlock_iff] <;> simp [requestBufferWrites, requestReadyWrites, hs, hq]

/-- The parameters of a request are written inside the `Data` of its block, and
the whole request inside the block, if and only if its names fit. -/
theorem written_inside_iff (x : Transport) (i : Slot) (m : Mem)
    (c : ClientRequest) {ws : List Write} (h : c.send x m = some ws) :
    (InBlock i 0 ws ∧ ∃ fs, c.fields (run m (requestBufferWrites x c.kind.1 c.kind.2)) = some fs ∧
      ws = requestBufferWrites x c.kind.1 c.kind.2 ++ fs ++
        requestReadyWrites x ∧ InBlock i dataOffset fs) ↔ c.NamesFit := by
  obtain ⟨fs, hf, rfl⟩ := map_eq_some_iff.mp h
  obtain ⟨hlow, hfit⟩ := fields_spec hf
  have hdata : InBlock i dataOffset fs ↔ c.NamesFit := by
    rw [← hfit]
    exact inBlock_iff fun w hw => ⟨Nat.le_trans (by simp) (hlow w hw).1, (hlow w hw).2⟩
  constructor
  · rintro ⟨-, fs', hf', -, hin⟩
    rw [hf] at hf'
    cases hf'
    exact hdata.mp hin
  intro hc
  refine ⟨fun w hw k hk => ?_, fs, hf, rfl, hdata.mpr hc⟩
  have htr := transport_inBlock (i := i) x c w
  simp only [mem_append] at hw htr
  rcases hw with (hw | hw) | hw
  · exact htr (.inl hw) k hk
  · exact ⟨by omega, (hdata.mpr hc w hw k hk).2⟩
  · exact htr (.inr hw) k hk

theorem written_inside_unlink : ∃ ws, (unlink 5#128 ⟨[97], by decide⟩).send
      ⟨⟨zeros 16, rfl⟩, ⟨zeros 16, rfl⟩, 1#64⟩ (fun _ => 0) = some ws ∧
    InBlock 63 0 ws :=
  ⟨_, rfl, ((written_inside_iff ⟨⟨zeros 16, rfl⟩, ⟨zeros 16, rfl⟩, 1#64⟩ 63
    (fun _ => 0) (unlink 5#128 ⟨[97], by decide⟩) rfl).mpr
    (by simp [NamesFit, Fits, CString.length])).1⟩

/-- A name that is accepted and does not fit is written over the request number
of the next block. -/
theorem overruns_of_not_fits (x : Transport) (m : Mem) (parent : Uuid)
    (hacc : Accepted unlinkName name) (hfit : ¬ Fits unlinkName name) : ∃ ws,
    (unlink parent name).send x m = some ws ∧
    (∃ w ∈ ws, ∃ k < w.bytes.length, blockStart 0 + w.addr + k = blockStart 1 + Block.requestId) ∧
    ¬ InBlock 0 0 ws := by
  have hlen : 3936 < name.terminated.length := by
    simp [Fits] at hfit ⊢
    omega
  refine ⟨requestBufferWrites x finesseFuseMessage fuseReqUnlink ++
    [⟨msg parameters, keyBytes parent⟩,
      ⟨msg unlinkName, name.terminated⟩] ++ requestReadyWrites x, ?_, ?_⟩
  · rw [send, fields, finesseSendUnlinkRequest, if_neg (not_not.mpr hacc)]
    rfl
  have hmem : ∀ {us vs : List Write}, (⟨msg unlinkName, name.terminated⟩ : Write) ∈
        us ++ [⟨msg parameters, keyBytes parent⟩,
          ⟨msg unlinkName, name.terminated⟩] ++ vs := by
    simp
  refine ⟨⟨_, hmem, 3936, hlen, by simp [blockStart]⟩, fun hin => ?_⟩
  have := (hin _ hmem 3936 hlen).2
  simp at this

/-- So is the longest name that the unlink sender accepts. -/
theorem long_name_overruns : ∃ name ws, Accepted unlinkName name ∧ name.length = 3951 ∧
    (unlink 1#128 name).send ⟨⟨zeros 16, rfl⟩, ⟨zeros 16, rfl⟩, 1#64⟩ (fun _ => 0) = some ws ∧
    (∃ w ∈ ws, ∃ k < w.bytes.length, blockStart 0 + w.addr + k = blockStart 1 + Block.requestId) ∧
    ¬ InBlock 0 0 ws := by
  obtain ⟨name, hlong⟩ : ∃ name : CString, name.length = 3951 := ⟨⟨replicate 3951 97, fun h =>
      absurd (eq_of_mem_replicate h) (by decide)⟩, length_replicate⟩
  have hacc : Accepted unlinkName name := by simp [Accepted, hlong]
  obtain ⟨ws, h⟩ := overruns_of_not_fits
    ⟨⟨zeros 16, rfl⟩, ⟨zeros 16, rfl⟩, 1#64⟩ (fun _ => 0) 1#128 hacc
    (by simp [Fits, hlong])
  exact ⟨name, ws, hacc, hlong, h⟩

end ClientRequest

end Finesse.Comm
