import Finesse.Lib.CondLock
import Finesse.Comm.Region

/-!
# The server's connection manager

The threads of `fcs.c` around one server connection: the listener that takes
in clients, one monitor for each client that tells the server threads of
waiting requests, the server threads, the thread that calls
`FinesseStopServerConnection`, and the clients themselves.

The server threads and the monitors meet under `monitor_mutex`, at two
condition variables and the bitmap of waiting clients. The table of clients
has no lock. A monitor also blocks on the condition variable of its client's
region, and both waits are cancellation points: a monitor that is cancelled
while it is blocked takes the mutex of that wait again and then ends.

A step is one access to what the threads share. The functions of a region
that hold its `RequestMutex` from beginning to end are one step each;
`Comm.Region` has them in full. Any request that is set may be the
one that `FinesseGetReadyRequest` finds, and `FinesseDestroyMemoryRegion` may
wake at any time.

Left out are the mapping and unmapping of memory, sockets and descriptors,
and what a thread finds in memory that was freed: `teardown_client_connection`
and `FinesseStopServerConnection` end with the entry cleared.
-/

namespace Finesse.Connections

open Function
open Comm (Slot makeMask64)

/-- The threads. Clients, and with them their monitors, are numbered in the
order in which the listener accepts them; `κ` names the server threads. -/
inductive Thread (κ : Type) where
  | listener
  | stopper
  | server (k : κ)
  | monitor (c : Nat)
  | client (c : Nat)
deriving DecidableEq, Repr

/-- `server_connection_state_t` of a client, with its monitor thread and the
header of its region. -/
structure Client where
  /-- `index` in the argument of the monitor -/
  index : Slot := 0
  /-- `pthread_create` has made the monitor -/
  created : Bool := false
  /-- `monitor_thread_active` -/
  active : Bool := false
  /-- `pthread_cancel` was called for the monitor -/
  cancelled : Bool := false
  /-- the monitor can be joined -/
  ended : Bool := false
  /-- the client has its `fincomm_registration_confirmation` -/
  confirmed : Bool := false
  allocationBitmap : BitVec 64 := 0#64
  requestBitmap : BitVec 64 := 0#64
  responseBitmap : BitVec 64 := 0#64
  shutdownRequested : Bool := false
  /-- the monitor is blocked on `RequestPending` -/
  blocked : Bool := false
  /-- the monitor ended as the owner of `RequestMutex` -/
  abandoned : Bool := false
deriving DecidableEq, Repr

/-- The condition variables that go with `monitor_mutex`. -/
inductive Condition where
  | monitorCond
  | serverCond
deriving DecidableEq, Repr

/-- `server_internal_connection_state_t`, and the clients it points to. -/
structure Connection (κ : Type) where
  shutdown : Bool
  /-- `monitor_mutex`, `monitor_cond` and `server_cond` -/
  monitor : CondLock (Thread κ) Condition
  /-- `waiting_client_request_bitmap` -/
  waiting : BitVec 64
  /-- `client_server_connection_state_table` -/
  table : Slot → Option Nat
  clients : Nat → Client
  /-- the number of the next client -/
  accepted : Nat
  /-- `pthread_cancel` was called for the listener -/
  listenerCancelled : Bool
  /-- the listener can be joined, and the join returns `PTHREAD_CANCELED` -/
  listenerEnded : Option Bool

/-- A change to one client. -/
def Connection.modify {κ : Type} (s : Connection κ) (c : Nat)
    (f : Client → Client) : Connection κ :=
  { s with clients := update s.clients c (f (s.clients c)) }

/-- `FinesseStartServerConnection`, up to the creation of the listener. -/
def finesseStartServerConnection {κ : Type} : Connection κ where
  shutdown := false
  monitor := ⟨none, fun _ => []⟩
  waiting := 0#64
  table := fun _ => none
  clients := fun _ => {}
  accepted := 0
  listenerCancelled := false
  listenerEnded := none

/-! ## Where a thread is -/

/-- `listener_worker`. -/
inductive ListenerPc where
  | accept
  | insert (c i : Nat)
  | create (c : Nat)
  | activate (c : Nat)
  | confirm (c : Nat)
  | notify
  | ended
  /-- `assert(index < SHM_MESSAGE_COUNT)` -/
  | full
deriving DecidableEq, Repr

/-- `inbound_request_worker` in its loop, with `FinesseReadyRequestWait`. -/
inductive MonitorPoint where
  | readyTest
  | readySleep
  | readyStatus
  | lock
  | mark
  | signal
  | wait
  | sleep
  | unmark
  | unlock
  | inactive
  | leave
deriving DecidableEq, Repr

/-- `inbound_request_worker`; `ccs` is the client it has found in the table. -/
inductive MonitorPc where
  | start
  | load
  | run (ccs : Nat) (p : MonitorPoint)
  | ended
  /-- the assertion that its bit is clear -/
  | failed
deriving DecidableEq, Repr

/-- `teardown_client_connection`. -/
inductive Teardown where
  | active
  | cancel
  | join
  | done
deriving DecidableEq, Repr

/-- The locals of `FinesseGetRequest`. -/
structure Frame where
  rnd : Slot
  found : Bool
  captured : BitVec 64
deriving DecidableEq, Repr

/-- `FinesseGetRequest`. The scan goes over `[rnd, 64)` first (`upper`), and
then over `[0, rnd)`. -/
inductive Point where
  | lock
  | capture
  | loop
  | find (i : Nat)
  | notify
  | wait
  | sleep
  | recapture
  | unlock
  | check
  | scan (upper : Bool) (i : Nat)
  | get (upper : Bool) (i : Slot)
  | teardown (upper : Bool) (i : Slot) (c : Nat) (d : Teardown)
  | finish (r : Option (Slot × Nat × Slot))
deriving DecidableEq, Repr

inductive ServerPc where
  | idle
  | run (f : Frame) (p : Point)
  /-- `FinesseGetRequest` has returned the request in block `m` of client `c`,
  whose entry is `i`. -/
  | serving (i : Slot) (c : Nat) (m : Slot)
  /-- the assertion that the bit of an empty entry is clear -/
  | failed
  /-- another assertion, or a null pointer -/
  | crashed
deriving DecidableEq, Repr

/-- `FinesseStopServerConnection`. -/
inductive StopperPc where
  | start
  | broadcast
  | cancel
  | join
  | sweep (i : Nat)
  | teardown (i : Slot) (c : Nat) (d : Teardown)
  | done
  /-- `assert(PTHREAD_CANCELED == result)` -/
  | failed
deriving DecidableEq, Repr

inductive Pc where
  | listener (p : ListenerPc)
  | stopper (p : StopperPc)
  | server (p : ServerPc)
  | monitor (p : MonitorPc)
  | client
deriving DecidableEq, Repr

/-- What a thread does next, where it has a choice. -/
inductive Act (κ : Type) where
  | next
  /-- a wakeup nobody asked for -/
  | spurious
  /-- a pending cancellation takes effect -/
  | cancel
  /-- the signal goes to `t` -/
  | pick (t : Thread κ)
  /-- `FinesseGetRequest`, with its random number -/
  | call (rnd : Slot)
  /-- the request that is found is the one in block `m` -/
  | take (m : Slot)
  | send (m : Slot)
  | finish (m : Slot)
  | close
  | kick
deriving DecidableEq, Repr

/-- What `FinesseGetRequest` returns. -/
inductive Outcome where
  | eshutdown
  | request (i m : Slot)
  /-- status zero without a message -/
  | nothing
deriving DecidableEq, Repr

inductive Event (κ : Type) where
  /-- a call blocks on `server_cond` -/
  | waits (k : κ)
  | returns (k : κ) (r : Outcome)
deriving DecidableEq, Repr

section Steps

variable {κ : Type} [DecidableEq κ]

/-! ## The steps of each thread -/

/-- `listener_worker`. That the registration is well formed, and that the
region can be mapped, is the environment's doing. -/
def listenerStep (a : Act κ) (p : ListenerPc) (s : Connection κ) :
    Option (ListenerPc × Connection κ) :=
  match p, a with
  | .accept, .next =>
    if s.shutdown then some (.ended, { s with listenerEnded := some false })
    else some (.insert s.accepted 0, { s with accepted := s.accepted + 1 })
  | .insert c i, .next =>
    if h : i < 64 then
      match s.table ⟨i, h⟩ with
      | some _ => some (.insert c (i + 1), s)
      | none =>
        some (.create c, { s.modify c fun x => { x with index := ⟨i, h⟩ } with
          table := update s.table ⟨i, h⟩ (some c) })
    else some (.full, s)
  | .create c, .next =>
    some (.activate c, s.modify c fun x => { x with created := true })
  | .activate c, .next =>
    some (.confirm c, s.modify c fun x => { x with active := true })
  | .confirm c, .next =>
    some (.notify, s.modify c fun x => { x with confirmed := true })
  | .notify, .next =>
    some (.accept, { s with monitor := s.monitor.broadcast .serverCond })
  -- `accept` and `send` are cancellation points
  | .accept, .cancel | .confirm _, .cancel =>
    if s.listenerCancelled then some (.ended, { s with listenerEnded := some true })
    else none
  | _, _ => none

/-- The loop of `inbound_request_worker` for the monitor of client `c`. -/
def monitorLoop (c d : Nat) (a : Act κ) (p : MonitorPoint) (s : Connection κ) :
    Option (MonitorPc × Connection κ) :=
  match p, a with
  -- FinesseReadyRequestWait
  | .readyTest, .next =>
    if (s.clients d).abandoned then none
    else if (s.clients d).requestBitmap = 0#64 ∧ (s.clients d).shutdownRequested = false then
      some (.run d .readySleep, s.modify d fun x => { x with blocked := true })
    else some (.run d .readyStatus, s)
  | .readySleep, .next =>
    if (s.clients d).blocked then none else some (.run d .readyTest, s)
  | .readySleep, .spurious =>
    some (.run d .readySleep, s.modify d fun x => { x with blocked := false })
  | .readySleep, .cancel =>
    if (s.clients c).cancelled ∧ (s.clients d).abandoned = false then
      some (.ended, (s.modify d fun x =>
        { x with blocked := false, abandoned := true }).modify c fun x =>
          { x with ended := true })
    else none
  | .readyStatus, .next =>
    if (s.clients d).shutdownRequested then some (.run d .inactive, s)
    else some (.run d .lock, s)
  | .lock, .next =>
    (s.monitor.lock (.monitor c)).map fun m => (.run d .mark, { s with monitor := m })
  | .mark, .next =>
    some (.run d .signal, { s with waiting := s.waiting ||| makeMask64 (s.clients c).index })
  | .signal, .next =>
    (s.monitor.signal .serverCond none).map fun m =>
      (.run d .wait, { s with monitor := m })
  | .signal, .pick t =>
    (s.monitor.signal .serverCond (some t)).map fun m =>
      (.run d .wait, { s with monitor := m })
  | .wait, .next =>
    some (.run d .sleep, { s with monitor := s.monitor.wait .monitorCond (.monitor c) })
  | .sleep, .next =>
    (s.monitor.wake .monitorCond (.monitor c)).map fun m =>
      (.run d .unmark, { s with monitor := m })
  | .sleep, .spurious =>
    some (.run d .sleep, { s with monitor := s.monitor.leave .monitorCond (.monitor c) })
  | .sleep, .cancel =>
    -- the wait ends with the mutex, and nobody unlocks it
    if (s.clients c).cancelled then
      ((s.monitor.leave .monitorCond (.monitor c)).lock (.monitor c)).map fun m =>
        (.ended, { s with monitor := m }.modify c fun x => { x with ended := true })
    else none
  | .unmark, .next =>
    some (.run d .unlock, { s with waiting := s.waiting &&& ~~~makeMask64 (s.clients c).index })
  | .unlock, .next =>
    some (.run d .readyTest, { s with monitor := s.monitor.unlock })
  | .inactive, .next =>
    some (.run d .leave, s.modify d fun x => { x with active := false })
  | .leave, .next =>
    some (.ended, s.modify c fun x => { x with ended := true })
  | _, _ => none

/-- `inbound_request_worker`. -/
def monitorStep (c : Nat) (a : Act κ) (p : MonitorPc) (s : Connection κ) :
    Option (MonitorPc × Connection κ) :=
  match p, a with
  | .start, .next =>
    if (s.clients c).created = false then none
    else if s.waiting.getLsbD (s.clients c).index then some (.failed, s)
    else some (.load, s)
  | .load, .next =>
    match s.table (s.clients c).index with
    | none => some (.ended, s.modify c fun x => { x with ended := true })
    | some d => some (.run d .readyTest, s)
  | .run d p, a => monitorLoop c d a p s
  | _, _ => none

/-- `teardown_client_connection`. A thread that has ended and was not joined
can be cancelled, to no effect. -/
def teardownClientConnection (c : Nat) (d : Teardown) (s : Connection κ) :
    Option (Teardown × Connection κ) :=
  match d with
  | .active => some (if (s.clients c).active then .cancel else .done, s)
  | .cancel => some (.join, s.modify c fun x => { x with cancelled := true })
  | .join =>
    if (s.clients c).ended then
      some (.done, s.modify c fun x => { x with active := false })
    else none
  | .done => none

/-- The end of the range that is scanned. -/
def Frame.last (f : Frame) (upper : Bool) : Nat := if upper then 64 else f.rnd

/-- One entry of `scan_for_request`; at the end of the range, what
`FinesseGetRequest` does with nothing found. -/
def scanForRequest (f : Frame) (upper : Bool) (i : Nat) (s : Connection κ) : ServerPc :=
  if h : i < f.last upper ∧ i < 64 then
    match s.table ⟨i, h.2⟩ with
    | none =>
      if f.captured.getLsbD i then .failed else .run f (.scan upper (i + 1))
    | some _ =>
      if f.captured.getLsbD i then .run f (.get upper ⟨i, h.2⟩)
      else .run f (.scan upper (i + 1))
  else if upper then .run f (.scan false 0)
  else .run { f with found := false } .lock

/-- `FinesseGetReadyRequest` for entry `i` of the table: a request, or with
`next` one of the two errors. -/
def getReadyRequest (f : Frame) (upper : Bool) (i : Slot) (a : Act κ)
    (s : Connection κ) : Option (ServerPc × Connection κ) :=
  match s.table i with
  | none => some (.crashed, s)
  | some c =>
    if (s.clients c).abandoned then none
    else
      match a with
      | .take m =>
        if (s.clients c).shutdownRequested = false ∧ (s.clients c).requestBitmap.getLsbD m then
          some (.run f (.finish (some (i, c, m))), s.modify c fun x =>
            { x with requestBitmap := x.requestBitmap &&& ~~~makeMask64 m })
        else none
      | .next =>
        if (s.clients c).shutdownRequested then
          some (.run f (.teardown upper i c .active), s)
        else if (s.clients c).requestBitmap = 0#64 then
          some (.run { f with captured := f.captured &&& ~~~makeMask64 i }
            (.scan upper (i + 1)), s)
        else none
      | _ => none

def finesseGetRequest (k : κ) (a : Act κ) (f : Frame) (p : Point)
    (s : Connection κ) : Option (List (Event κ) × ServerPc × Connection κ) :=
  match p, a with
  | .lock, .next =>
    (s.monitor.lock (.server k)).map fun m =>
      ([], .run f .capture, { s with monitor := m })
  | .capture, .next => some ([], .run { f with captured := s.waiting } .loop, s)
  | .loop, .next =>
    some ([], if f.found = false ∨ f.captured = 0#64 then .run f (.find 0)
      else .run f .unlock, s)
  | .find i, .next =>
    if h : i < 64 then
      match s.table ⟨i, h⟩ with
      | some _ => some ([], .run { f with found := true } .notify, s)
      | none => some ([], .run f (.find (i + 1)), s)
    else some ([], .run f .notify, s)
  | .notify, .next =>
    some ([], .run f .wait,
      if f.found then { s with monitor := s.monitor.broadcast .monitorCond } else s)
  | .wait, .next =>
    some ([.waits k], .run f .sleep, { s with monitor := s.monitor.wait .serverCond (.server k) })
  | .sleep, .next =>
    (s.monitor.wake .serverCond (.server k)).map fun m =>
      ([], .run f .recapture, { s with monitor := m })
  | .sleep, .spurious =>
    some ([], .run f .sleep, { s with monitor := s.monitor.leave .serverCond (.server k) })
  | .recapture, .next => some ([], .run { f with captured := s.waiting } .loop, s)
  | .unlock, .next =>
    some ([], .run f .check, { s with monitor := s.monitor.unlock })
  | .check, .next =>
    some ([], if s.shutdown then .run f (.finish none)
      else if f.captured = 0#64 then .crashed
      else .run f (.scan true f.rnd), s)
  | .scan upper i, .next => some ([], scanForRequest f upper i s, s)
  | .get upper i, a =>
    (getReadyRequest f upper i a s).map fun q => ([], q.1, q.2)
  | .teardown upper i c d, .next =>
    if d = .done then
      some ([], .run f (.scan upper (i + 1)), { s with table := update s.table i none })
    else
      (teardownClientConnection c d s).map fun q =>
        ([], .run f (.teardown upper i c q.1), q.2)
  | .finish r, .next =>
    if s.shutdown then some ([.returns k .eshutdown], .idle, s)
    else
      match r with
      | some (i, c, m) => some ([.returns k (.request i m)], .serving i c m, s)
      | none => some ([.returns k .nothing], .idle, s)
  | _, _ => none

/-- A server thread: `FinesseGetRequest`, and `FinesseSendResponse` for what
it returned. -/
def serverStep (k : κ) (a : Act κ) (p : ServerPc) (s : Connection κ) :
    Option (List (Event κ) × ServerPc × Connection κ) :=
  match p, a with
  | .idle, .call rnd => some ([], .run ⟨rnd, false, 0#64⟩ .lock, s)
  | .run f p, a => finesseGetRequest k a f p s
  | .serving i c m, .next =>
    match s.table i with
    | none => some ([], .idle, s)
    | some d =>
      -- the block has to be one of the region, without a response in it
      if d ≠ c ∨ (s.clients c).responseBitmap.getLsbD m then some ([], .crashed, s)
      else
        some ([], .idle, s.modify c fun x =>
          { x with responseBitmap := x.responseBitmap ||| makeMask64 m })
  | _, _ => none

/-- `FinesseStopServerConnection`. -/
def stopperStep (a : Act κ) (p : StopperPc) (s : Connection κ) :
    Option (StopperPc × Connection κ) :=
  match p, a with
  | .start, .next => some (.broadcast, { s with shutdown := true })
  | .broadcast, .next =>
    some (.cancel, { s with monitor := s.monitor.broadcast .serverCond })
  | .cancel, .next => some (.join, { s with listenerCancelled := true })
  | .join, .next =>
    match s.listenerEnded with
    | none => none
    | some cancelled => some (if cancelled then .sweep 0 else .failed, s)
  | .sweep i, .next =>
    if h : i < 64 then
      match s.table ⟨i, h⟩ with
      | some c => some (.teardown ⟨i, h⟩ c .active, s)
      | none => some (.sweep (i + 1), s)
    else some (.done, s)
  | .teardown i c d, .next =>
    if d = .done then
      some (.sweep (i + 1), { s with table := update s.table i none })
    else
      (teardownClientConnection c d s).map fun q => (.teardown i c q.1, q.2)
  | _, _ => none

/-- A client: it sends a request (`FinesseGetRequestBuffer` and
`FinesseRequestReady`), takes a response (`FinesseGetResponse` and
`FinesseReleaseRequestBuffer`), or shuts its region down
(`FinesseDestroyMemoryRegion`) and wakes its monitor. -/
def clientStep (c : Nat) (a : Act κ) (s : Connection κ) : Option (Connection κ) :=
  let x := s.clients c
  match a with
  | .send m =>
    if x.confirmed ∧ x.shutdownRequested = false ∧ x.abandoned = false ∧
        x.allocationBitmap.getLsbD m = false then
      some (s.modify c fun x =>
        { x with
          allocationBitmap := x.allocationBitmap ||| makeMask64 m
          requestBitmap := x.requestBitmap ||| makeMask64 m
          blocked := false })
    else none
  | .finish m =>
    if x.responseBitmap.getLsbD m then
      some (s.modify c fun x =>
        { x with
          allocationBitmap := x.allocationBitmap &&& ~~~makeMask64 m
          responseBitmap := x.responseBitmap &&& ~~~makeMask64 m })
    else none
  | .close =>
    if x.confirmed ∧ x.shutdownRequested = false ∧ x.allocationBitmap = 0#64 then
      some (s.modify c fun x => { x with shutdownRequested := true })
    else none
  | .kick =>
    if x.shutdownRequested then
      some (s.modify c fun x => { x with blocked := false })
    else none
  | _ => none

/-- One step of a thread. -/
def exec (t : Thread κ) (a : Act κ) (pc : Pc) (s : Connection κ) :
    Option (List (Event κ) × Pc × Connection κ) :=
  match t, pc with
  | .listener, .listener p =>
    (listenerStep a p s).map fun q => ([], .listener q.1, q.2)
  | .stopper, .stopper p =>
    (stopperStep a p s).map fun q => ([], .stopper q.1, q.2)
  | .server k, .server p =>
    (serverStep k a p s).map fun q => (q.1, .server q.2.1, q.2.2)
  | .monitor c, .monitor p =>
    (monitorStep c a p s).map fun q => ([], .monitor q.1, q.2)
  | .client c, .client => (clientStep c a s).map fun s' => ([], .client, s')
  | _, _ => none

/-- The threads of a server connection. -/
abbrev Threads (κ : Type) := Pool (Thread κ) Pc (Connection κ)

/-- One step of the connection manager. -/
abbrev step : Threads κ → Thread κ × Act κ → Option (List (Event κ) × Threads κ) :=
  Pool.step exec

omit [DecidableEq κ] in
/-- Where a thread starts. -/
def Thread.entry : Thread κ → Pc
  | .listener => .listener .accept
  | .stopper => .stopper .start
  | .server _ => .server .idle
  | .monitor _ => .monitor .start
  | .client _ => .client

omit [DecidableEq κ] in
/-- A server connection that has just been started. -/
def initial : Threads κ := ⟨Thread.entry, finesseStartServerConnection⟩

end Steps

end Finesse.Connections
