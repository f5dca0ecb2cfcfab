import Finesse.Comm.Requests
import Finesse.Errno

/-!
# Responses

The functions with which the server fills in a response
(`FinesseSend...Response`) and the functions with which a client receives one
(`FinesseGet...Response`). A response is built in the block of its request:
what its sender does not write is still there from the request, or from an
earlier use of the block.

Each `decoded` lemma says when a client gets what a sender was given. The
receivers of the responses to a name map and to its release stop unless the
result is zero; those of statfs, unlink and the test message do not look at
it, and the one of access looks in a field that the sender did not write.
-/

namespace Finesse.Comm

open Memory Offset List
open Finesse.Utils (Uuid)

def finesseResponse : Nat := 242

def fuseRspErr : Nat := 513
def fuseRspCreate : Nat := 515
def fuseRspAttr : Nat := 516
def fuseRspStatfs : Nat := 523
def nativeRspErr : Nat := 1152
def nativeRspTest : Nat := 1153
def nativeRspServerStat : Nat := 1154
def nativeRspMap : Nat := 1155
def nativeRspMapRelease : Nat := 1156

namespace Offset

@[simp] abbrev mapKey : Nat := 132
@[simp] abbrev attrTimeout : Nat := 272
@[simp] abbrev serverStatData : Nat := 136

end Offset

/-- `FINESSE_SERVER_STAT_LENGTH`. -/
@[simp] abbrev sizeofServerStat : Nat := 664

def finesseServerStatVersion : Nat := 1

/-- `FinesseServerStat`: its version, its length, and the counters. -/
def serverStatBytes (counters : Bytes 660) : List UInt8 :=
  le 2 finesseServerStatVersion ++ le 2 sizeofServerStat ++ counters

@[simp] theorem length_serverStatBytes (counters : Bytes 660) :
    (serverStatBytes counters).length = sizeofServerStat := by
  simp [serverStatBytes, counters.property]

/-! ## The senders -/

/-- A call that sends a response, with the arguments of the handler. The last
two are calls of `FinesseSendResponse` for a block that the caller has filled
in itself: that of a request that is not supported, and that of a message of
no known class. -/
inductive Response where
  | test (result : BitVec 32)
  | serverStat (counters : Bytes 660) (result : BitVec 32)
  | nameMap (mapKey : Option Uuid) (result : BitVec 32)
  | nameMapRelease (result : BitVec 32)
  | stat (attr : Option (Bytes sizeofStat)) (timeout : Bytes 8)
      (result : BitVec 32)
  | statfs (buf : Option (Bytes sizeofStatvfs)) (result : BitVec 32)
  | access (result : BitVec 32)
  | unlink (result : BitVec 32)
  | notSupported (responseType : Nat)
  | badClass
deriving DecidableEq

/-- The fields that all the senders set, and the parameters `ws`. -/
def responseWrites (messageClass type : Nat) (result : BitVec 32) (ws : List Write) : List Write :=
  [⟨Block.result, intBytes result⟩, ⟨Block.messageType, le 4 finesseResponse⟩,
   ⟨msg version, le 8 finesseMessageVersion⟩,
   ⟨msg Offset.messageClass, le 4 messageClass⟩,
   ⟨msg messageType, le 4 type⟩] ++ ws

namespace Response

/-- The writes of the sender, up to `FinesseResponseReady`. -/
def writes : Response → Option (List Write)
  | .test result => some <|
      responseWrites finesseNativeMessage nativeRspTest result
        [⟨msg parameters, le 8 testVersion⟩]
  | .serverStat counters result => some <|
      responseWrites finesseNativeMessage nativeRspServerStat result
        [⟨msg parameters, le 4 0⟩, ⟨msg serverStatData, serverStatBytes counters⟩]
  | .nameMap (some key) result => some <|
      responseWrites finesseNativeMessage nativeRspMap result
        [⟨msg parameters, intBytes result⟩, ⟨msg mapKey, keyBytes key⟩]
  | .nameMap none result =>
    if result = 0#32 then none
    else some <| responseWrites finesseNativeMessage nativeRspMap result
      [⟨msg parameters, intBytes result⟩]
  | .nameMapRelease result => some <|
      responseWrites finesseNativeMessage nativeRspMapRelease result
        [⟨msg parameters, intBytes result⟩]
  | .stat none _ _ => none
  | .stat (some attr) timeout result => some <|
      responseWrites finesseFuseMessage fuseRspAttr result [⟨msg Offset.result, intBytes result⟩,
         ⟨msg parameters, attr⟩,
         ⟨msg attrTimeout, timeout⟩]
  | .statfs (some buf) result => some <|
      responseWrites finesseFuseMessage fuseRspStatfs result
        (if result = 0#32 then [⟨msg parameters, buf⟩] else [])
  | .statfs none result =>
    if result = 0#32 then none
    else some (responseWrites finesseFuseMessage fuseRspStatfs result [])
  | .access result =>
    some (responseWrites finesseFuseMessage fuseRspErr result [])
  | .unlink result =>
    some (responseWrites finesseFuseMessage fuseRspErr result [])
  | .notSupported responseType =>
    some [⟨msg messageType, le 4 responseType⟩,
      ⟨msg Offset.result, intBytes (BitVec.ofInt 32 ENOTSUP)⟩]
  | .badClass =>
    some [⟨Block.result, intBytes (BitVec.ofInt 32 EINVAL)⟩,
      ⟨Block.messageType, le 4 finesseResponse⟩]

/-- Whether the sender asserts that the block still holds a request. -/
def checksRequest : Response → Bool
  | .notSupported _ | .badClass => false
  | _ => true

/-- The senders, and `FinesseResponseReady` at their end, which enters the
time. -/
def send (m : Mem) (time : Bytes 16) (r : Response) : Option Mem :=
  if r.checksRequest ∧ word m Block.messageType 4 ≠ finesseRequest then none
  else r.writes.map fun ws =>
    run m (ws ++ [⟨msg responseQueueTime, time⟩])

/-- The result that the handler passes. -/
def result : Response → BitVec 32
  | .test result | .serverStat _ result | .nameMap _ result
  | .nameMapRelease result | .stat _ _ result | .statfs _ result
  | .access result | .unlink result => result
  | .notSupported _ => BitVec.ofInt 32 ENOTSUP
  | .badClass => BitVec.ofInt 32 EINVAL

/-- What the handler passes besides the result. -/
def payload : Response → List UInt8
  | .serverStat counters _ => serverStatBytes counters
  | .nameMap (some key) _ => keyBytes key
  | .stat (some attr) timeout _ => attr ++ timeout
  | .statfs (some buf) _ => buf
  | _ => []

end Response

/-! ## The receivers -/

/-- The kinds of request for which a client has a function that receives the
response. -/
inductive Kind where
  | test | serverStat | nameMap | nameMapRelease | stat | statfs | access
  | unlink | create | dirMap
deriving DecidableEq, Repr

/-- `FINESSE_RESPONSE == Message->MessageType`, which every receiver asserts
first. -/
def Marked (m : Mem) : Prop := word m Block.messageType 4 = finesseResponse

/-- The other assertions about a FUSE response. -/
def FuseResponse (m : Mem) (type : Nat) : Prop :=
  word m (msg version) 8 = finesseMessageVersion ∧
  word m (msg Offset.messageClass) 4 = finesseFuseMessage ∧
  word m (msg messageType) 4 = type

/-- The other assertions about a native response. -/
def NativeResponse (m : Mem) (type : Nat) : Prop :=
  word m Block.result 4 = 0 ∧
  word m (msg Offset.messageClass) 4 = finesseNativeMessage ∧
  word m (msg messageType) 4 = type ∧
  word m (msg parameters) 4 = 0

instance (m : Mem) : Decidable (Marked m) :=
  inferInstanceAs (Decidable (_ = _))

instance (m : Mem) (type : Nat) : Decidable (FuseResponse m type) :=
  inferInstanceAs (Decidable (_ ∧ _))

instance (m : Mem) (type : Nat) : Decidable (NativeResponse m type) :=
  inferInstanceAs (Decidable (_ ∧ _))

/-- `FinesseGet...Response`: the result code that the caller gets, which for
most kinds is what the function returns, and the data. `none` is a failed
assertion. `FinesseGetDirMapResponse` does not look at the message. -/
def receive (m : Mem) : Kind → Option (BitVec 32 × List UInt8)
  | .test =>
    if Marked m ∧ word m (msg parameters) 8 = testVersion then
      some (0#32, []) else none
  | .serverStat =>
    if Marked m ∧ word m (msg serverStatData) 2 = finesseServerStatVersion ∧
        word m (msg serverStatData + 2) 2 = sizeofServerStat then
      some (0#32, load m (msg serverStatData) sizeofServerStat)
    else none
  | .nameMap =>
    if Marked m ∧ NativeResponse m nativeRspMap ∧ keyAt m mapKey ≠ 0#128 then
      some (0#32, load m (msg mapKey) 16) else none
  | .nameMapRelease =>
    if Marked m ∧ NativeResponse m nativeRspMapRelease then some (0#32, [])
    else none
  | .stat =>
    if Marked m ∧ FuseResponse m fuseRspAttr then
      some (intAt m (msg Offset.result), load m (msg Offset.parameters) sizeofStat ++
        load m (msg attrTimeout) 8) else none
  | .statfs =>
    if Marked m ∧ FuseResponse m fuseRspStatfs then
      some (0#32, load m (msg parameters) sizeofStatvfs) else none
  | .access =>
    if Marked m ∧ FuseResponse m fuseRspErr then
      some (intAt m (msg Offset.result), []) else none
  | .unlink =>
    if Marked m ∧ FuseResponse m fuseRspErr then some (0#32, []) else none
  | .create =>
    -- the key, the generation, the attributes and the timeout
    if Marked m ∧ FuseResponse m fuseRspCreate then
      some (intAt m (msg Offset.result), load m (msg Offset.parameters) 176)
    else none
  | .dirMap => some (BitVec.ofInt 32 ENOTSUP, [])

/-- The client gets the result that the handler passed, and if that is zero
also the data. -/
def Decoded (k : Kind) (r : Response) (m : Mem) : Prop :=
  ∃ data, receive m k = some (r.result, data) ∧ (r.result = 0#32 → data = r.payload)

/-! ## What arrives -/

/-- Until the client reads a response, only the times of its statistics
change. -/
def Intact (m m' : Mem) : Prop :=
  ∀ a < shmPageSize, ¬ (msg requestClass ≤ a ∧ a < msg messageType) → m' a = m a

theorem Intact.refl (m : Mem) : Intact m m := fun _ _ _ => rfl

theorem Intact.load {m m' : Mem} (h : Intact m m') {a n : Nat}
    (ha : a + n ≤ msg requestClass ∨ msg messageType ≤ a ∧ a + n ≤ shmPageSize) :
    load m' a n = load m a n := by
  simp only [msg, dataOffset, shmPageSize, requestClass, messageType] at ha
  refine load_congr fun x hx hn => h x ?_ ?_ <;>
    simp only [msg, dataOffset, shmPageSize, requestClass, messageType] <;> omega

theorem Intact.receive {m m' : Mem} (h : Intact m m') (k : Kind) : receive m' k = receive m k := by
  cases k
  case dirMap => rfl
  all_goals
    refine if_congr ?_ ?_ rfl <;>
      simp (disch := decide) only [Marked, FuseResponse, NativeResponse, keyAt, intAt, word, h.load]

/-- The fields that `responseWrites` sets. -/
structure Header (m : Mem) (messageClass type : Nat) (result : BitVec 32) :
    Prop where
  result : load m Block.result 4 = intBytes result
  marked : Marked m
  version : word m (msg version) 8 = finesseMessageVersion
  messageClass : word m (msg Offset.messageClass) 4 = messageClass
  type : word m (msg messageType) 4 = type

/-- A write to another field of the message. -/
def Beside (w : Write) : Prop :=
  msg Offset.result ≤ w.addr ∧ w.addr + w.bytes.length ≤ msg Offset.messageType ∨
    msg parameters ≤ w.addr

variable {result : BitVec 32} {buf : Option (Bytes sizeofStatvfs)} {type : Nat} {r : Response}
  {ws : List Write}

theorem header_send {m : Mem} {messageClass : Nat}
    {time : Bytes 16} (hc : messageClass < 256 ^ 4) (ht : type < 256 ^ 4)
    (hws : ∀ w ∈ ws, Beside w) : Header (run m (responseWrites messageClass type result ws ++
      [⟨msg responseQueueTime, time⟩])) messageClass type result := by
  have happart : ∀ {b n}, b + n ≤ msg Offset.result ∨ msg messageType ≤ b ∧ b + n ≤ msg parameters →
      load (run m (responseWrites messageClass type result ws ++
          [⟨msg responseQueueTime, time⟩])) b n =
        load (run m (responseWrites messageClass type result [])) b n := by
    intro b n hb
    rw [responseWrites, append_assoc, run_append, responseWrites, append_nil]
    refine load_run_apart fun w hw => ?_
    have hbeside : Beside w := by
      rcases mem_append.mp hw with hw | hw
      · exact hws w hw
      · rw [mem_singleton.mp hw]
        exact .inl ⟨by simp, by simp [time.property]⟩
    simp only [Beside, msg, dataOffset, Offset.result, Offset.messageType, parameters] at hbeside hb
    omega
  refine ⟨?_, (word_eq_iff (by decide)).mpr ?_, (word_eq_iff (by decide)).mpr ?_,
    (word_eq_iff hc).mpr ?_, (word_eq_iff ht).mpr ?_⟩ <;>
  · rw [happart (by decide)]
    simp [responseWrites]

theorem load_send {m : Mem} {messageClass : Nat} {time : Bytes 16} {b n : Nat}
    (hb : msg Offset.parameters ≤ b) : load (run m (responseWrites messageClass type result ws ++
      [⟨msg Offset.responseQueueTime, time⟩])) b n =
    load (run (run m (responseWrites messageClass type result [])) ws) b n := by
  simp only [msg, dataOffset, Offset.parameters] at hb
  rw [responseWrites, responseWrites, List.append_nil, run_append, run_append, run_cons, run_nil]
  refine load_store_apart _ (.inr ?_)
  simp only [msg, dataOffset, Offset.responseQueueTime, time.property]
  omega

theorem Header.fuse {m : Mem}
    (h : Header m finesseFuseMessage type result) : Marked m ∧ FuseResponse m type :=
  ⟨h.marked, h.version, h.messageClass, h.type⟩

/-- The receivers of native responses assert that both results are zero. -/
theorem Header.native {m : Mem} (h : Header m finesseNativeMessage type result)
    (hp : load m (msg Offset.parameters) 4 = intBytes result) :
    NativeResponse m type ↔ result = 0#32 := by
  have hword : ∀ {a}, load m a 4 = intBytes result → word m a 4 = result.toNat :=
    fun ha => (word_eq_iff result.isLt).mpr ha
  rw [NativeResponse, hword h.result, hword hp]
  constructor
  · exact fun hn => BitVec.eq_of_toNat_eq hn.1
  · rintro rfl
    exact ⟨rfl, h.messageClass, h.type, rfl⟩

theorem send_eq_some {m m' : Mem} {time : Bytes 16} (h : r.send m time = some m') :
    ∃ ws, r.writes = some ws ∧ m' = run m (ws ++ [⟨msg Offset.responseQueueTime, time⟩]) := by
  simp only [Response.send] at h
  split at h
  · cases h
  · obtain ⟨ws, hws, rfl⟩ := Option.map_eq_some_iff.mp h
    exact ⟨ws, hws, rfl⟩

theorem decoded_of_receive {k : Kind} {m : Mem}
    {c : BitVec 32} {data : List UInt8} (h : receive m k = some (c, data)) :
    Decoded k r m ↔ r.result = c ∧ (r.result = 0#32 → data = r.payload) := by
  simp [Decoded, h, and_assoc, @eq_comm _ c]

section

variable {m m' : Mem} {time : Bytes 16}

theorem decoded_unlink (h : (Response.unlink result).send m time = some m') :
    Decoded .unlink (.unlink result) m' ↔ result = 0#32 := by
  obtain ⟨ws, hws, rfl⟩ := send_eq_some h
  cases hws
  have hh := @header_send result fuseRspErr [] m finesseFuseMessage time
    (by decide) (by decide) nofun
  rw [decoded_of_receive (show receive _ .unlink = some (0#32, []) from if_pos hh.fuse)]
  simp [Response.result, Response.payload]

theorem decoded_access (h : (Response.access result).send m time = some m') :
    Decoded .access (.access result) m' ↔ intAt m (msg Offset.result) = result := by
  obtain ⟨ws, hws, rfl⟩ := send_eq_some h
  cases hws
  have hh := @header_send result fuseRspErr [] m finesseFuseMessage time
    (by decide) (by decide) nofun
  have hstale : intAt (run m (responseWrites finesseFuseMessage fuseRspErr
      result [] ++ [⟨msg responseQueueTime, time⟩]))
      (msg Offset.result) = intAt m (msg Offset.result) := by
    rw [intAt, word, load_run_apart, intAt, word]
    simp [responseWrites, time.property]
  rw [decoded_of_receive (show receive _ .access = some (_, []) from
    if_pos hh.fuse), hstale, @eq_comm _ (intAt _ _)]
  simp [Response.result, Response.payload]

section

variable (h : (Response.statfs buf result).send m time = some m')
include h

theorem header_statfs :
    Header m' finesseFuseMessage fuseRspStatfs result ∧ (result = 0#32 → ∃ b, buf = some b ∧
        load m' (msg Offset.parameters) sizeofStatvfs = b) := by
  obtain ⟨ws, hws, rfl⟩ := send_eq_some h
  cases buf with
  | none =>
    rw [Response.writes] at hws
    split at hws
    · cases hws
    next hne =>
    cases hws
    exact ⟨header_send (by decide) (by decide) nofun, fun h0 => absurd h0 hne⟩
  | some b =>
    cases hws
    refine ⟨header_send (by decide) (by decide) ?_, fun h0 => ⟨b, rfl, ?_⟩⟩
    · split <;> simp [Beside]
    · rw [load_send (Nat.le_refl _), if_pos h0, run_cons, run_nil,
        load_store_of_length _ b.property]

/-- The client stops when the server answers a request for access with the
response to statfs. -/
theorem not_decoded_access_statfs : ¬ Decoded .access (.statfs buf result) m' := by
  rintro ⟨data, hr, -⟩
  rw [receive, if_neg] at hr
  · cases hr
  rintro ⟨-, -, -, htype⟩
  rw [(header_statfs h).1.type] at htype
  cases htype

theorem decoded_statfs : Decoded .statfs (.statfs buf result) m' ↔ result = 0#32 := by
  obtain ⟨hh, hbuf⟩ := header_statfs h
  rw [decoded_of_receive (show receive _ .statfs = some (0#32, _) from
    if_pos hh.fuse)]
  refine ⟨And.left, fun h0 => ⟨h0, fun _ => ?_⟩⟩
  obtain ⟨b, rfl, hload⟩ := hbuf h0
  exact hload

end

theorem decoded_stat {attr : Option (Bytes sizeofStat)} {timeout : Bytes 8}
    (h : (Response.stat attr timeout result).send m time = some m') :
    Decoded .stat (.stat attr timeout result) m' := by
  obtain ⟨ws, hws, rfl⟩ := send_eq_some h
  cases attr with
  | none => cases hws
  | some attr =>
    cases hws
    have hh := @header_send result fuseRspAttr
      [⟨msg Offset.result, intBytes result⟩, ⟨msg Offset.parameters, attr⟩,
        ⟨msg attrTimeout, timeout⟩] m finesseFuseMessage time (by decide) (by decide)
      (by simp [Beside])
    rw [decoded_of_receive (show receive _ .stat = some (_, _) from
      if_pos hh.fuse)]
    refine ⟨(intAt_eq_iff.mpr ?_).symm, fun _ => ?_⟩
    · simp [responseWrites, Response.result, attr.property, timeout.property, time.property]
    · rw [load_send (Nat.le_refl _), load_send (by decide)]
      simp [attr.property, timeout.property, Response.payload]

/-- A client whose receiver stops at a result that is not zero gets what was
sent if and only if the result is zero. -/
theorem decoded_iff_of_stops {k : Kind} {data : List UInt8}
    (hstop : receive m' k = if r.result = 0#32 then some (0#32, data) else none)
    (hdata : r.result = 0#32 → data = r.payload) : Decoded k r m' ↔ r.result = 0#32 := by
  by_cases h0 : r.result = 0#32
  · rw [if_pos h0] at hstop
    rw [decoded_of_receive hstop]
    exact ⟨And.left, fun h => ⟨h, hdata⟩⟩
  · rw [if_neg h0] at hstop
    simp [Decoded, hstop, h0]

theorem decoded_nameMapRelease (h : (Response.nameMapRelease result).send m time = some m') :
    Decoded .nameMapRelease (.nameMapRelease result) m' ↔ result = 0#32 := by
  obtain ⟨ws, hws, hm⟩ := send_eq_some h
  cases hws
  have hh : Header m' finesseNativeMessage nativeRspMapRelease result :=
    hm ▸ header_send (by decide) (by decide) (by simp [Beside])
  have hn := hh.native (by
    rw [hm, load_send (Nat.le_refl _)]
    simp)
  refine decoded_iff_of_stops (if_congr ?_ rfl rfl) fun _ => rfl
  rw [hn]
  exact ⟨And.right, fun h0 => ⟨hh.marked, h0⟩⟩

theorem header_nameMap {key : Option Uuid}
    (h : (Response.nameMap key result).send m time = some m') :
    Header m' finesseNativeMessage nativeRspMap result ∧
      load m' (msg parameters) 4 = intBytes result ∧
      (result = 0#32 → ∃ k, key = some k ∧ load m' (msg mapKey) 16 = keyBytes k) := by
  obtain ⟨ws, hws, rfl⟩ := send_eq_some h
  cases key with
  | none =>
    rw [Response.writes] at hws
    split at hws
    · cases hws
    next hne =>
    cases hws
    refine ⟨header_send (by decide) (by decide) (by simp [Beside]), ?_, fun h0 => absurd h0 hne⟩
    rw [load_send (Nat.le_refl _)]
    simp
  | some key =>
    cases hws
    refine ⟨header_send (by decide) (by decide) (by simp [Beside]), ?_, fun _ => ⟨key, rfl, ?_⟩⟩
    · rw [load_send (Nat.le_refl _)]
      simp
    · rw [load_send (by decide)]
      simp

theorem decoded_nameMap {key : Option Uuid} (hkey : key ≠ some 0#128)
    (h : (Response.nameMap key result).send m time = some m') :
    Decoded .nameMap (.nameMap key result) m' ↔ result = 0#32 := by
  obtain ⟨hh, hp, hload⟩ := header_nameMap h
  have hn := hh.native hp
  refine decoded_iff_of_stops (if_congr ?_ rfl rfl) fun h0 => ?_
  · rw [hn]
    refine ⟨fun hc => hc.2.1, fun h0 => ⟨hh.marked, h0, fun hnull => hkey ?_⟩⟩
    obtain ⟨k, rfl, hk⟩ := hload h0
    rw [keyAt_eq_iff.mpr hk] at hnull
    rw [hnull]
  · obtain ⟨k, rfl, hk⟩ := hload h0
    exact hk

theorem decoded_test (h : (Response.test result).send m time = some m') :
    Decoded .test (.test result) m' ↔ result = 0#32 := by
  obtain ⟨ws, hws, hm⟩ := send_eq_some h
  cases hws
  have hh : Header m' finesseNativeMessage nativeRspTest result :=
    hm ▸ header_send (by decide) (by decide) (by simp [Beside])
  have hv : word m' (msg parameters) 8 = testVersion := by
    refine (word_eq_iff (by decide)).mpr ?_
    rw [hm, load_send (Nat.le_refl _)]
    simp
  rw [decoded_of_receive (show receive _ .test = some (0#32, []) from
    if_pos ⟨hh.marked, hv⟩)]
  simp [Response.result, Response.payload]

theorem decoded_serverStat {counters : Bytes 660}
    (h : (Response.serverStat counters result).send m time = some m') :
    Decoded .serverStat (.serverStat counters result) m' ↔ result = 0#32 := by
  obtain ⟨ws, hws, hm⟩ := send_eq_some h
  cases hws
  have hh : Header m' finesseNativeMessage nativeRspServerStat result :=
    hm ▸ header_send (by decide) (by decide) (by simp [Beside])
  have hload : load m' (msg serverStatData) sizeofServerStat =
      serverStatBytes counters := by
    rw [hm, load_send (by decide)]
    simp
  -- the version and the length are at the start of the data
  have hsplit := hload
  rw [show sizeofServerStat = 2 + (2 + 660) from rfl, load_add, load_add,
    serverStatBytes, append_assoc] at hsplit
  obtain ⟨hversion, hrest⟩ := append_inj hsplit (by simp)
  obtain ⟨hlength, -⟩ := append_inj hrest (by simp)
  rw [decoded_of_receive (show receive _ .serverStat = some (0#32, _) from
    if_pos ⟨hh.marked, (word_eq_iff (by decide)).mpr hversion,
      (word_eq_iff (by decide)).mpr hlength⟩)]
  exact ⟨And.left, fun h0 => ⟨h0, fun _ => hload⟩⟩

theorem writes_mark (h : r.writes = some ws) (hr : r.checksRequest = true) :
    ∃ messageClass type rest, ws = responseWrites messageClass type r.result rest ∧
      messageClass < 256 ^ 4 ∧ type < 256 ^ 4 ∧ ∀ w ∈ rest, Beside w := by
  revert h
  cases r with
  | nameMap key result =>
    cases key with
    | none =>
      rw [Response.writes]
      split
      · nofun
      · rintro ⟨⟩
        exact ⟨_, _, _, rfl, by decide, by decide, by simp [Beside]⟩
    | some key =>
      rintro ⟨⟩
      exact ⟨_, _, _, rfl, by decide, by decide, by simp [Beside]⟩
  | stat attr timeout result =>
    cases attr with
    | none => nofun
    | some attr =>
      rintro ⟨⟩
      exact ⟨_, _, _, rfl, by decide, by decide, by simp [Beside]⟩
  | statfs buf result =>
    cases buf with
    | none =>
      rw [Response.writes]
      split
      · nofun
      · rintro ⟨⟩
        exact ⟨_, _, _, rfl, by decide, by decide, nofun⟩
    | some buf =>
      rintro ⟨⟩
      refine ⟨_, _, _, rfl, by decide, by decide, ?_⟩
      split <;> simp [Beside]
  | notSupported type => cases hr
  | badClass => cases hr
  | _ =>
    rintro ⟨⟩
    exact ⟨_, _, _, rfl, by decide, by decide, by simp [Beside]⟩

/-- Every response but that to a request which is not supported is marked as
a response. -/
theorem marked_iff (h : r.send m time = some m')
    (hreq : word m Block.messageType 4 = finesseRequest) :
    Marked m' ↔ ∀ type, r ≠ .notSupported type := by
  obtain ⟨ws, hws, rfl⟩ := send_eq_some h
  cases hr : r.checksRequest with
  | true =>
    obtain ⟨_, _, _, rfl, hc, ht, hbeside⟩ := writes_mark hws hr
    refine ⟨fun _ type => ?_, fun _ => (header_send hc ht hbeside).marked⟩
    rintro rfl
    cases hr
  | false =>
    cases r with
    | notSupported type =>
      cases hws
      refine ⟨fun hm => ?_, fun hne => absurd rfl (hne type)⟩
      rw [Marked, word, load_run_apart (by simp [time.property]), ← word, hreq] at hm
      cases hm
    | badClass =>
      cases hws
      refine ⟨fun _ => by simp, fun _ => (word_eq_iff (by decide)).mpr ?_⟩
      simp
    | _ => cases hr

/-- A client that waits for the response to a request that is not supported
stops, unless it does not look at the response. -/
theorem not_decoded_notSupported (h : (Response.notSupported type).send m time = some m')
    (hreq : word m Block.messageType 4 = finesseRequest) :
    ¬ Decoded .create (.notSupported type) m' := by
  rintro ⟨data, hr, -⟩
  rw [receive, if_neg fun hc => (marked_iff h hreq).mp hc.1 type rfl] at hr
  cases hr

theorem decoded_dirMap : Decoded .dirMap (.notSupported type) m' := ⟨[], rfl, fun h =>
    absurd (show BitVec.ofInt 32 ENOTSUP = 0#32 from h) (by decide)⟩

end

end Finesse.Comm
