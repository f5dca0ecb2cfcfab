import Finesse.Lib.Bitmap
import Finesse.Lib.Mailbox
import Finesse.Lib.Pool

/-!
# The shared memory region and its six operations

A client and a server share one `fincomm_shared_memory_region`: three 64-bit
bitmaps, two mutexes, a request counter, and 64 message blocks. The client
allocates a block, sets up the request in it and marks it ready. The server
takes it, builds the response in place and marks that ready. The client polls
or blocks for the response and frees the block.

Every function is cut at its accesses to shared memory; `exec` is one access.
An atomic operation is a single step, while an unprotected read-modify-write
such as `RequestBitmap |= mask` is a load and a store. A condition wait is a
release, a sleep from which the thread may wake at any time, and a
re-acquisition. A failed assertion moves the thread to `failed`.

Between two calls a program counter says how far the protocol has come, and a
call is possible only where the protocol allows it. A real thread with several
requests in flight, or one that hands a block over, is several threads here.

Timestamps and call statistics are left out; no step reads them. A block's
pointer is its index: the address computation at the head of each function
inverts `&Messages[index]`.
-/

namespace Finesse.Comm

/-- Index of a message block, below `SHM_MESSAGE_COUNT`. -/
abbrev Slot := Fin 64

/-- `fincomm_message_block`, with the head of its `finesse_msg`. What the two
parties write into the rest of the data is the `payload`. -/
structure Message where
  requestId : BitVec 64
  result : Nat
  messageType : Nat
  version : Nat
  messageClass : Nat
  requestType : Nat
  payload : Payload

/-- `fincomm_shared_memory_region`. `allocations` counts the allocations so
far and is read by no function of the code. -/
structure Region (θ : Type) where
  requestBitmap : BitVec 64
  requestWaiters : BitVec 64
  requestMutex : Option θ
  responseBitmap : BitVec 64
  responseMutex : Option θ
  lastBufferAllocated : Nat
  allocationBitmap : BitVec 64
  requestId : BitVec 64
  shutdownRequested : Bool
  messages : Slot → Message
  allocations : Nat

def makeMask64 (i : Nat) : BitVec 64 := Bitmap.mask i

variable (b : BitVec 64)

theorem test_zero (i : Slot) : b &&& makeMask64 i = 0#64 ↔ b.getLsbD i = false :=
  Bitmap.and_mask_eq_zero i.isLt b

theorem insert_bit (i j : Slot) :
    (b ||| makeMask64 i).getLsbD j = if j = i then true else b.getLsbD j := by
  rw [makeMask64, Bitmap.getLsbD_insert i.isLt]
  by_cases h : j = i
  · simp [h]
  · simp [h, Fin.val_inj, Ne.symm h]

theorem remove_bit (i j : Slot) : (b &&& ~~~makeMask64 i).getLsbD j =
      if j = i then false else b.getLsbD j := by
  rw [makeMask64, Bitmap.getLsbD_remove i.isLt]
  by_cases h : j = i
  · simp [h]
  · simp [h, Fin.val_inj, Ne.symm h]

def finesseRequest : Nat := 241
def finesseFuseMessage : Nat := 251
def finesseNativeMessage : Nat := 252
def finesseMessageVersion : Nat := 0xbeef0cabbad1dead
def finesseFuseReqBaseType : Nat := 42
def finesseFuseReqMax : Nat := 85
def finesseNativeReqBaseType : Nat := 1024
def finesseNativeReqMax : Nat := 1030
def enosys : Nat := 38

/-- The region as `FinesseInitializeMemoryRegion` leaves it. It does not
touch the message blocks, so their contents are arbitrary. -/
def finesseInitializeMemoryRegion {θ : Type} (messages : Slot → Message) : Region θ where
  requestBitmap := 0#64
  requestWaiters := 0#64
  requestMutex := none
  responseBitmap := 0#64
  responseMutex := none
  lastBufferAllocated := 63
  allocationBitmap := 0#64
  requestId := -10#64
  shutdownRequested := false
  messages := messages
  allocations := 0

/-- The assertions of the six functions. -/
inductive Assertion where
  /-- `FinesseGetRequestBuffer`: the new block's request bit is clear. -/
  | allocatedNotRequested
  /-- `FinesseGetRequestBuffer`: class and type of the message are valid. -/
  | messageClass
  | messageType
  /-- `get_request_number`: the number is not zero. -/
  | requestNumber
  /-- `FinesseRequestReady`: the request bit is clear. -/
  | requestNotReady
  /-- `FinesseResponseReady`: the response bit is clear. -/
  | responseNotReady
  /-- `FinesseGetReadyRequest`: the bit it clears was set. -/
  | takenWasReady
  /-- `FinesseGetReadyRequest`: the request taken has a number. -/
  | takenRequestId
  /-- `FinesseReleaseRequestBuffer`: the block is allocated. -/
  | releaseAllocated
deriving DecidableEq, Repr

/-- Does the assertion concern a bitmap or a request number? -/
def Assertion.ofBitmapOrRequestId : Assertion → Bool
  | .messageClass | .messageType => false
  | _ => true

/-- What a thread does next. The label matters at the resting points, where
it picks the call and its arguments; inside a function it is ignored. -/
inductive Act where
  | getRequestBuffer (messageClass messageType : Nat)
  | compose
  | requestReady
  | getResponse (wait : Bool)
  | release
  | readyRequestWait
  | getReadyRequest (random : Nat)
  | serve
  | responseReady
  | shutdown
  | next
deriving DecidableEq, Repr

/-- Where a thread is, with its locals. `i` is the block it works on and `r`
the number of the request it owns. -/
inductive Pc where
  -- between calls
  | idle
  | allocated (i : Slot) (r : Nat)
  | composed (i : Slot) (r : Nat)
  | refused (i : Slot) (r : Nat)
  | sent (i : Slot) (r : Nat)
  | answered (i : Slot) (r : Nat)
  | taken (i : Slot)
  | served (i : Slot) (p : Payload)
  | failed (a : Assertion)
  -- FinesseGetRequestBuffer
  | getLoad (c y : Nat)
  | getHint (c y : Nat) (b : BitVec 64)
  | getCas (c y : Nat) (b : BitVec 64) (i : Slot)
  | scanLoad (c y : Nat) (index : Nat)
  | scanCas (c y : Nat) (b : BitVec 64) (i : Slot)
  | getStoreHint (c y : Nat) (i : Slot) (r : Nat)
  | getCheck (c y : Nat) (i : Slot) (r : Nat)
  | getHeader (c y : Nat) (i : Slot) (r : Nat)
  -- FinesseRequestReady
  | readyLoad (i : Slot) (r : Nat)
  | readyNumber (i : Slot) (r : Nat)
  | readyStoreId (i : Slot) (r : Nat) (id : BitVec 64)
  | readyLock (i : Slot) (r : Nat)
  | readyTest (i : Slot) (r : Nat)
  | readyStore (i : Slot) (r : Nat) (b : BitVec 64)
  | readyUnlock (i : Slot) (r : Nat)
  -- FinesseGetResponse
  | respLock (i : Slot) (r : Nat) (wait : Bool)
  | respTest (i : Slot) (r : Nat) (wait : Bool)
  | respSleep (i : Slot) (r : Nat)
  | respClear (i : Slot) (r : Nat)
  | respStore (i : Slot) (r : Nat) (b : BitVec 64)
  | respUnlock (i : Slot) (r : Nat) (status : Bool)
  -- FinesseReleaseRequestBuffer
  | relStoreId (i : Slot) (r : Nat)
  | relLoad (i : Slot) (r : Nat)
  | relCas (i : Slot) (r : Nat) (b : BitVec 64)
  | relReload (i : Slot) (r : Nat)
  -- FinesseReadyRequestWait
  | waitLock
  | waitTest
  | waitCount
  | waitBlock
  | waitSleep
  | waitUncount
  | waitUnlock
  | waitStatus
  -- FinesseGetReadyRequest
  | takeLock (rnd : Nat)
  | takeShutdown (rnd : Nat)
  | takeEmpty (rnd : Nat)
  | takeOriginal (rnd : Nat)
  | takeUp (rnd : Nat) (original : BitVec 64) (index : Nat)
  | takeDown (rnd : Nat) (original : BitVec 64) (index : Nat)
  | takeClear (original : BitVec 64) (i : Slot)
  | takeStore (original : BitVec 64) (i : Slot) (b : BitVec 64)
  | takeSanity (original : BitVec 64) (i : Slot)
  | takeUnlock (found : Option Slot)
  | takeCheckId (i : Slot)
  -- FinesseResponseReady
  | ansLock (i : Slot) (p : Payload)
  | ansTest (i : Slot) (p : Payload)
  | ansStore (i : Slot) (p : Payload) (b : BitVec 64)
  | ansUnlock (i : Slot)
deriving DecidableEq, Repr

section

variable {θ : Type} [DecidableEq θ]

namespace Region

/-- `pthread_mutex_lock` of the request mutex: no step while it is held. -/
def lockRequest (s : Region θ) (t : θ) : Option (Region θ) :=
  if s.requestMutex = none then some { s with requestMutex := some t }
  else none

def unlockRequest (s : Region θ) : Region θ := { s with requestMutex := none }

def lockResponse (s : Region θ) (t : θ) : Option (Region θ) :=
  if s.responseMutex = none then some { s with responseMutex := some t }
  else none

def unlockResponse (s : Region θ) : Region θ :=
  { s with responseMutex := none }

/-- Replace block `i` by `f` of it. -/
def setMessage (s : Region θ) (i : Slot) (f : Message → Message) : Region θ :=
  { s with messages := Function.update s.messages i (f (s.messages i)) }

end Region

/-- The index the hint points at. -/
def hintIndex (last : Nat) : Slot := ⟨(last + 1) % 64, Nat.mod_lt _ (by decide)⟩

/-- The class and type checks of `FinesseGetRequestBuffer`. -/
def checkMessageType (c y : Nat) : Option Assertion :=
  if c = finesseFuseMessage then
    if finesseFuseReqBaseType ≤ y ∧ y < finesseFuseReqMax then none
    else some .messageType
  else if c = finesseNativeMessage then
    if finesseNativeReqBaseType ≤ y ∧ y < finesseNativeReqMax then none
    else some .messageType
  else some .messageClass

/-- A compare-and-swap of the allocation bitmap that takes block `i`. -/
def casAllocate (t : θ) (b : BitVec 64) (i : Slot) (won : Nat → Pc) (lost : Pc)
    (s : Region θ) : List (Event Slot θ) × Pc × Region θ :=
  if s.allocationBitmap = b then
    ([⟨t, i, .alloc s.allocations⟩], won s.allocations, { s with
        allocationBitmap := b ||| makeMask64 i
        allocations := s.allocations + 1 })
  else ([], lost, s)

def finesseGetRequestBuffer (t : θ) (pc : Pc) (s : Region θ) :
    Option (List (Event Slot θ) × Pc × Region θ) :=
  match pc with
  | .getLoad c y => some ([], .getHint c y s.allocationBitmap, s)
  | .getHint c y b =>
    let i := hintIndex s.lastBufferAllocated
    -- the block after the last one is still in use: scan
    if b = b ||| makeMask64 i then some ([], .scanLoad c y 0, s)
    else some ([], .getCas c y b i, s)
  | .getCas c y b i =>
    some (casAllocate t b i (.getStoreHint c y i) (.scanLoad c y 0) s)
  | .scanLoad c y index =>
    if h : index < 64 then
      let b := s.allocationBitmap
      if b = b ||| makeMask64 index then
        some ([], .scanLoad c y (index + 1), s)
      else some ([], .scanCas c y b ⟨index, h⟩, s)
    else some ([], .idle, s)
  | .scanCas c y b i =>
    -- a lost race moves on to the next index
    some (casAllocate t b i (.getStoreHint c y i) (.scanLoad c y (i + 1)) s)
  | .getStoreHint c y i r =>
    some ([], .getCheck c y i r, { s with lastBufferAllocated := i })
  | .getCheck c y i r =>
    if s.requestBitmap &&& makeMask64 i = 0#64 then
      some ([], .getHeader c y i r, s)
    else some ([], .failed .allocatedNotRequested, s)
  | .getHeader c y i r =>
    match checkMessageType c y with
    | some a => some ([], .failed a, s)
    | none =>
      some ([], .allocated i r, s.setMessage i fun m =>
        { m with
          messageType := finesseRequest
          result := enosys
          version := finesseMessageVersion
          messageClass := c
          requestType := y })
  | _ => none

/-- `FinesseRequestReady`, with `get_request_number` as its second point. -/
def finesseRequestReady (t : θ) (pc : Pc) (s : Region θ) :
    Option (List (Event Slot θ) × Pc × Region θ) :=
  match pc with
  | .readyLoad i r =>
    if s.allocationBitmap &&& makeMask64 i = 0#64 then
      some ([], .refused i r, s)
    else some ([], .readyNumber i r, s)
  | .readyNumber i r =>
    -- zero is not a request number: take another one
    let s' := { s with requestId := s.requestId + 1#64 }
    if s.requestId = 0#64 then some ([], .readyNumber i r, s')
    else some ([], .readyStoreId i r s.requestId, s')
  | .readyStoreId i r id =>
    if id = 0#64 then some ([], .failed .requestNumber, s)
    else some ([], .readyLock i r, s.setMessage i fun m => { m with requestId := id })
  | .readyLock i r => (s.lockRequest t).map fun s' => ([], .readyTest i r, s')
  | .readyTest i r =>
    if s.requestBitmap &&& makeMask64 i = 0#64 then
      some ([], .readyStore i r s.requestBitmap, s)
    else some ([], .failed .requestNotReady, s)
  | .readyStore i r b =>
    some ([⟨t, i, .ready r⟩], .readyUnlock i r, { s with requestBitmap := b ||| makeMask64 i })
  | .readyUnlock i r => some ([], .sent i r, s.unlockRequest)
  | _ => none

/-- `FinesseGetResponse`, returning whether there was a response. -/
def finesseGetResponse (t : θ) (pc : Pc) (s : Region θ) :
    Option (List (Event Slot θ) × Pc × Region θ) :=
  match pc with
  | .respLock i r wait =>
    (s.lockResponse t).map fun s' => ([], .respTest i r wait, s')
  | .respTest i r wait =>
    if s.responseBitmap &&& makeMask64 i = 0#64 then
      if wait then some ([], .respSleep i r, s.unlockResponse)
      else some ([], .respUnlock i r false, s)
    else some ([], .respClear i r, s)
  | .respSleep i r =>
    (s.lockResponse t).map fun s' => ([], .respTest i r true, s')
  | .respClear i r => some ([], .respStore i r s.responseBitmap, s)
  | .respStore i r b =>
    some ([⟨t, i, .consume r (s.messages i).payload⟩], .respUnlock i r true,
      { s with responseBitmap := b &&& ~~~makeMask64 i })
  | .respUnlock i r status =>
    some ([], if status then .answered i r else .sent i r, s.unlockResponse)
  | _ => none

def finesseReleaseRequestBuffer (t : θ) (pc : Pc) (s : Region θ) :
    Option (List (Event Slot θ) × Pc × Region θ) :=
  match pc with
  | .relStoreId i r =>
    some ([], .relLoad i r, s.setMessage i fun m => { m with requestId := 0#64 })
  | .relLoad i r =>
    let b := s.allocationBitmap
    if b = b &&& ~~~makeMask64 i then some ([], .failed .releaseAllocated, s)
    else some ([], .relCas i r b, s)
  | .relCas i r b =>
    if s.allocationBitmap = b then
      some ([⟨t, i, .release r⟩], .idle, { s with allocationBitmap := b &&& ~~~makeMask64 i })
    else some ([], .relReload i r, s)
  | .relReload i r => some ([], .relCas i r s.allocationBitmap, s)
  | _ => none

def finesseReadyRequestWait (t : θ) (pc : Pc) (s : Region θ) :
    Option (List (Event Slot θ) × Pc × Region θ) :=
  match pc with
  | .waitLock => (s.lockRequest t).map fun s' => ([], .waitTest, s')
  | .waitTest =>
    if s.requestBitmap = 0#64 ∧ s.shutdownRequested = false then
      some ([], .waitCount, s)
    else some ([], .waitUnlock, s)
  | .waitCount =>
    some ([], .waitBlock, { s with requestWaiters := s.requestWaiters + 1#64 })
  | .waitBlock => some ([], .waitSleep, s.unlockRequest)
  | .waitSleep => (s.lockRequest t).map fun s' => ([], .waitUncount, s')
  | .waitUncount =>
    some ([], .waitTest, { s with requestWaiters := s.requestWaiters - 1#64 })
  | .waitUnlock => some ([], .waitStatus, s.unlockRequest)
  | .waitStatus => some ([], .idle, s)
  | _ => none

/-- `FinesseGetReadyRequest`. The scan goes up from a random index to the
last block and then from the first block up to the random index. -/
def finesseGetReadyRequest (t : θ) (pc : Pc) (s : Region θ) :
    Option (List (Event Slot θ) × Pc × Region θ) :=
  match pc with
  | .takeLock rnd => (s.lockRequest t).map fun s' => ([], .takeShutdown rnd, s')
  | .takeShutdown rnd =>
    if s.shutdownRequested then some ([], .takeUnlock none, s)
    else some ([], .takeEmpty rnd, s)
  | .takeEmpty rnd =>
    if s.requestBitmap = 0#64 then some ([], .takeUnlock none, s)
    else some ([], .takeOriginal rnd, s)
  | .takeOriginal rnd => some ([], .takeUp rnd s.requestBitmap rnd, s)
  | .takeUp rnd original index =>
    if h : index < 64 then
      if s.requestBitmap &&& makeMask64 index = 0#64 then
        some ([], .takeUp rnd original (index + 1), s)
      else some ([], .takeClear original ⟨index, h⟩, s)
    else some ([], .takeDown rnd original 0, s)
  | .takeDown rnd original index =>
    if h : index < rnd ∧ index < 64 then
      if s.requestBitmap &&& makeMask64 index = 0#64 then
        some ([], .takeDown rnd original (index + 1), s)
      else some ([], .takeClear original ⟨index, h.2⟩, s)
    -- nothing found: once more round the outer loop
    else some ([], .takeShutdown rnd, s)
  | .takeClear original i => some ([], .takeStore original i s.requestBitmap, s)
  | .takeStore original i b =>
    some ([⟨t, i, .take (s.messages i).payload⟩], .takeSanity original i,
      { s with requestBitmap := b &&& ~~~makeMask64 i })
  | .takeSanity original i =>
    if original &&& makeMask64 i = 0#64 then
      some ([], .failed .takenWasReady, s)
    else some ([], .takeUnlock (some i), s)
  | .takeUnlock found =>
    let pc' := match found with
      | none => .idle
      | some i => .takeCheckId i
    some ([], pc', s.unlockRequest)
  | .takeCheckId i =>
    if (s.messages i).requestId = 0#64 then
      some ([], .failed .takenRequestId, s)
    else some ([], .taken i, s)
  | _ => none

def finesseResponseReady (t : θ) (pc : Pc) (s : Region θ) :
    Option (List (Event Slot θ) × Pc × Region θ) :=
  match pc with
  | .ansLock i p => (s.lockResponse t).map fun s' => ([], .ansTest i p, s')
  | .ansTest i p =>
    if s.responseBitmap &&& makeMask64 i = 0#64 then
      some ([], .ansStore i p s.responseBitmap, s)
    else some ([], .failed .responseNotReady, s)
  | .ansStore i p b =>
    some ([⟨t, i, .respond p⟩], .ansUnlock i, { s with responseBitmap := b ||| makeMask64 i })
  | .ansUnlock _ => some ([], .idle, s.unlockResponse)
  | _ => none

/-- The protocol: which calls are possible between two functions. Setting up
the request and building the response are the caller's own steps. -/
def protocol (a : Act) (pc : Pc) (s : Region θ) : Option (List (Event Slot θ) × Pc × Region θ) :=
  match pc, a with
  | .idle, .getRequestBuffer c y => some ([], .getLoad c y, s)
  | .idle, .readyRequestWait => some ([], .waitLock, s)
  | .idle, .getReadyRequest random => some ([], .takeLock (random % 64), s)
  | .idle, .shutdown => some ([], .idle, { s with shutdownRequested := true })
  | .allocated i r, .compose =>
    some ([], .composed i r, s.setMessage i fun m => { m with payload := .request r })
  | .composed i r, .requestReady => some ([], .readyLoad i r, s)
  | .sent i r, .getResponse wait => some ([], .respLock i r wait, s)
  | .answered i r, .release => some ([], .relStoreId i r, s)
  | .taken i, .serve =>
    let p := (s.messages i).payload.answer
    some ([], .served i p, s.setMessage i fun m => { m with payload := p })
  | .served i p, .responseReady => some ([], .ansLock i p, s)
  | _, _ => none

/-- One step of thread `t`. -/
def exec (t : θ) (a : Act) (pc : Pc) (s : Region θ) :
    Option (List (Event Slot θ) × Pc × Region θ) :=
  match pc with
  | .idle | .allocated .. | .composed .. | .refused .. | .sent ..
  | .answered .. | .taken .. | .served .. | .failed .. => protocol a pc s
  | .getLoad .. | .getHint .. | .getCas .. | .scanLoad .. | .scanCas ..
  | .getStoreHint .. | .getCheck .. | .getHeader .. =>
    finesseGetRequestBuffer t pc s
  | .readyLoad .. | .readyNumber .. | .readyStoreId .. | .readyLock ..
  | .readyTest .. | .readyStore .. | .readyUnlock .. =>
    finesseRequestReady t pc s
  | .respLock .. | .respTest .. | .respSleep .. | .respClear ..
  | .respStore .. | .respUnlock .. => finesseGetResponse t pc s
  | .relStoreId .. | .relLoad .. | .relCas .. | .relReload .. =>
    finesseReleaseRequestBuffer t pc s
  | .waitLock | .waitTest | .waitCount | .waitBlock | .waitSleep
  | .waitUncount | .waitUnlock | .waitStatus => finesseReadyRequestWait t pc s
  | .takeLock .. | .takeShutdown .. | .takeEmpty .. | .takeOriginal ..
  | .takeUp .. | .takeDown .. | .takeClear .. | .takeStore ..
  | .takeSanity .. | .takeUnlock .. | .takeCheckId .. =>
    finesseGetReadyRequest t pc s
  | .ansLock .. | .ansTest .. | .ansStore .. | .ansUnlock .. =>
    finesseResponseReady t pc s

/-- An initialised region with every thread idle. -/
def initial (θ : Type) (messages : Slot → Message) : Pool θ Pc (Region θ) :=
  ⟨fun _ => .idle, finesseInitializeMemoryRegion messages⟩

end

end Finesse.Comm
