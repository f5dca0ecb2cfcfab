import Finesse.Comm.ConnectionInvariant

/-!
# Clients that disconnect

With one server thread, a client may connect, send, and shut its region down
between any two steps of the others. The server notices a client that has
shut down when it scans the table for requests, and tears the connection
down: it cancels the monitor, joins it, and clears the entry.

A monitor that has set its bit blocks on `monitor_cond`, and a thread that is
cancelled in `pthread_cond_wait` first takes the mutex again. Nobody unlocks it,
and nobody clears the bit. When no monitor is cancelled between its decision to
set the bit and its return from the wait, everything is as it should be
(`disconnects_safe`).
-/

namespace Finesse.Connections

open Machine

open Comm (Slot)

/-- The invariant of the connection manager. -/
structure Orderly (p : Threads Unit) : Prop where
  sound : Sound p.shared
  threads : ∀ t, Asserts t (p.pcs t) p.shared

/-- The monitor of `c` is neither blocked on `monitor_cond` nor about to be. -/
def Uncommitted (p : Threads Unit) (c : Nat) : Prop :=
  ∀ q, p.pcs (.monitor c) = .monitor q → q.committed = false

/-- The server is not being stopped, and where a thread is about to cancel the
monitor of a client, that monitor is uncommitted. -/
def CancelsSafely (p : Threads Unit) (a : Thread Unit × Act Unit) : Prop :=
  a.1 ≠ .stopper ∧ ∀ f upper i c,
    p.pcs a.1 = .server (.run f (.teardown upper i c .cancel)) → Uncommitted p c

variable {p : Threads Unit}

theorem Orderly.monitor (h : Orderly p) (c : Nat) :
    ∃ q, p.pcs (.monitor c) = .monitor q ∧ MonitorOk c q p.shared := by
  have hc := h.threads (.monitor c)
  cases hp : p.pcs (.monitor c) with
  | monitor q =>
    rw [hp] at hc
    exact ⟨q, rfl, hc⟩
  | _ =>
    rw [hp] at hc
    exact hc.elim

theorem Orderly.server (h : Orderly p) :
    ∃ q, p.pcs (.server ()) = .server q ∧ ServerOk q p.shared := by
  have hc := h.threads (.server ())
  cases hp : p.pcs (.server ()) with
  | server q =>
    rw [hp] at hc
    exact ⟨q, rfl, hc⟩
  | _ =>
    rw [hp] at hc
    exact hc.elim

theorem orderly_initial : Orderly initial := by
  refine ⟨⟨nofun, ?_, fun _ _ => ⟨rfl, rfl⟩, nofun⟩, fun t => ?_⟩
  · intro i hi
    simp [initial, finesseStartServerConnection] at hi
  cases t with
  | listener => trivial
  | stopper => trivial
  | server k => exact ⟨nofun, nofun, nofun, nofun⟩
  | monitor c =>
    refine ⟨nofun, nofun, fun _ => rfl, ?_, nofun, ⟨nofun, nofun⟩, ⟨nofun, nofun⟩, nofun,
      nofun, nofun⟩
    rintro (h | ⟨-, h⟩) <;> cases h
  | client c => trivial

variable {ev : List (Event Unit)}

theorem Orderly.exec {t : Thread Unit} {a : Act Unit}
    {pc : Pc} {s : Connection Unit} (h : Orderly p) (hc : CancelsSafely p (t, a))
    (he : Connections.exec t a (p.pcs t) p.shared = some (ev, pc, s)) :
    Asserts t pc s ∧ Guarantee (Uncommitted p) t p.shared s := by
  have ht := h.threads t
  cases t with
  | listener =>
    cases hp : p.pcs .listener with
    | listener q =>
      rw [hp] at he ht
      obtain ⟨⟨q', s'⟩, hs, ⟨⟩⟩ := Option.map_eq_some_iff.mp he
      exact listener_local h.sound ht hs
    | _ =>
      rw [hp] at he
      cases he
  | stopper => exact absurd rfl hc.1
  | server k =>
    cases hp : p.pcs (.server k) with
    | server q =>
      rw [hp] at he ht
      obtain ⟨⟨ev', q', s'⟩, hs, ⟨⟩⟩ := Option.map_eq_some_iff.mp he
      refine server_local h.sound (fun c => ?_) (fun f upper i c hq => ?_) ht hs
      · obtain ⟨r, -, hr⟩ := h.monitor c
        exact ⟨r, hr⟩
      · exact hc.2 f upper i c (by rw [hp, hq])
    | _ =>
      rw [hp] at he
      cases he
  | monitor c =>
    cases hp : p.pcs (.monitor c) with
    | monitor q =>
      rw [hp] at he ht
      obtain ⟨⟨q', s'⟩, hs, ⟨⟩⟩ := Option.map_eq_some_iff.mp he
      exact monitor_local h.sound ht hs
    | _ =>
      rw [hp] at he
      cases he
  | client c =>
    cases hp : p.pcs (.client c) with
    | client =>
      rw [hp] at he
      obtain ⟨s', hs, ⟨⟩⟩ := Option.map_eq_some_iff.mp he
      exact ⟨trivial, client_local hs⟩
    | _ =>
      rw [hp] at he
      cases he

theorem Orderly.step {p' : Threads Unit} {a : Thread Unit × Act Unit} (h : Orderly p)
    (hc : CancelsSafely p a) (hs : Connections.step p a = some (ev, p')) : Orderly p' := by
  obtain ⟨t, a⟩ := a
  obtain ⟨pc, s, he, rfl⟩ := Pool.step_inv hs
  obtain ⟨hL, hG⟩ := h.exec hc he
  refine ⟨h.sound.step hG, Pool.asserts_set hL fun u hu => ?_⟩
  refine (h.threads u).stable hG h.sound hu fun c q hm hq hsafe => hsafe q ?_
  rw [← hm, hq]

/-- A set bit belongs to a client in the table, the two assertions about it
have not failed, and no monitor that ended has the mutex. -/
structure Intact (p : Threads Unit) : Prop where
  entry : ∀ i : Slot, p.shared.waiting.getLsbD i = true → p.shared.table i ≠ none
  scan : p.pcs (.server ()) ≠ .server .failed
  start : ∀ c, p.pcs (.monitor c) ≠ .monitor .failed
  mutex : ∀ c, p.pcs (.monitor c) = .monitor .ended → p.shared.monitor.owner ≠ some (.monitor c)

theorem Orderly.intact (h : Orderly p) : Intact p where
  entry := h.sound.marked
  scan hp := by
    obtain ⟨q, hq, hok⟩ := h.server
    rw [hq] at hp
    cases hp
    exact hok.notFailed rfl
  start c hp := by
    obtain ⟨q, hq, hok⟩ := h.monitor c
    rw [hq] at hp
    cases hp
    exact hok.notFailed rfl
  mutex c hp ho := by
    obtain ⟨q, hq, hok⟩ := h.monitor c
    rw [hq] at hp
    cases hp
    exact nomatch hok.mutex.mp ho

/-- In every run in which monitors are cancelled only while they are
uncommitted, every state is intact. -/
theorem disconnects_safe {as : List (Thread Unit × Act Unit)}
    (h : Along step CancelsSafely initial as) : Always step Intact initial as :=
  always_of_along (fun _ hp => Orderly.intact hp)
    (fun _ _ _ _ hp hc hs => Orderly.step hp hc hs) orderly_initial h

/-! ## Runs

A client sends a request, which the server takes and answers. The server then
waits again, having told the monitor to look once more, and is woken by the next
client to connect before that monitor gets to run. -/

section Runs

-- one named proof for the literals, which would otherwise bring a proof each
local instance someSlot : NeZero 64 := ⟨by decide⟩

/-- `n` steps of `t`. -/
def go (t : Thread Unit) (n : Nat) : List (Thread Unit × Act Unit) :=
  List.replicate n (t, .next)

/-- A call of `FinesseGetRequest`, up to its first wait. -/
def call : List (Thread Unit × Act Unit) :=
  (.server (), .call 0) :: go (.server ()) 6

/-- The monitor of the first client, from the lock to the wait. -/
def marks : List (Thread Unit × Act Unit) :=
  go (.monitor 0) 2 ++ (.monitor 0, .pick (.server ())) :: go (.monitor 0) 1

/-- The first client is served; `more` is what it does while the server waits
again. -/
def staleRun (more : List (Act Unit)) : List (Thread Unit × Act Unit) :=
  go .listener 6 ++ go (.monitor 0) 3 ++ call ++ (.client 0, .send 0) ::
    go (.monitor 0) 3 ++ marks ++ go (.server ()) 6 ++ (.server (), .take 0) ::
    go (.server ()) 2 ++ call ++ more.map (fun a => (.client 0, a)) ++
    go .listener 7 ++ go (.server ()) 4 ++ go (.monitor 0) 5

/-- The client has closed, so the monitor is about to leave when the server
cancels it. Another client gets the entry. -/
def leavingRun : List (Thread Unit × Act Unit) :=
  staleRun [.finish 0, .close] ++ go (.server ()) 5 ++ go (.monitor 0) 2 ++
    go (.server ()) 2 ++ go .listener 6 ++ go (.monitor 2) 3

/-- The client has sent another request, which the monitor has seen and the
server takes. By the time the monitor sets its bit the client has closed, and
the server cancels the monitor in its wait. -/
def blockedRun : List (Thread Unit × Act Unit) :=
  staleRun [.send 1] ++ go (.server ()) 2 ++ (.server (), .take 1) :: go (.server ()) 2 ++
    [(.client 0, .finish 0), (.client 0, .finish 1), (.client 0, .close)] ++ call ++
    marks ++ go (.server ()) 9 ++ (.monitor 0, .cancel) :: go (.server ()) 2

end Runs

/-- A decision procedure for `CancelsSafely`. -/
def cancelsSafely (p : Threads Unit) (a : Thread Unit × Act Unit) : Bool :=
  decide (a.1 ≠ .stopper) && match p.pcs a.1 with
    | .server (.run _ (.teardown _ _ c .cancel)) =>
      match p.pcs (.monitor c) with
      | .monitor q => !q.committed
      | _ => true
    | _ => true

theorem cancelsSafely_sound (p : Threads Unit) (a : Thread Unit × Act Unit)
    (h : cancelsSafely p a = true) : CancelsSafely p a := by
  rw [cancelsSafely, Bool.and_eq_true, decide_eq_true_eq] at h
  refine ⟨h.1, fun f upper i c hp q hq => ?_⟩
  have h2 := h.2
  rw [hp] at h2
  simp only [hq] at h2
  simpa using h2

theorem disconnects_safe_leaving : check step cancelsSafely initial leavingRun = true ∧
      (run step initial leavingRun).map (fun r =>
        (r.2.shared.table 0, r.2.pcs (.monitor 0), r.2.pcs (.monitor 2))) =
        some (some 2, .monitor .ended, .monitor (.run 2 .readySleep)) ∧
      Always step Intact initial leavingRun := by
  have h : check step cancelsSafely initial leavingRun = true := by
    decide +kernel
  exact ⟨h, by decide +kernel,
    disconnects_safe (along_of_check (fun a _ p => cancelsSafely_sound p a) h)⟩

/-- The bit is set, the entry is empty, and the monitor has ended with the
mutex; the assertion of the next monitor for the entry fails. -/
theorem cancel_blocked_monitor : ((run step initial blockedRun).map fun r =>
      (r.2.shared.waiting.getLsbD 0, r.2.shared.table 0, r.2.pcs (.monitor 0),
        r.2.shared.monitor.owner)) =
      some (true, none, .monitor .ended, some (.monitor 0)) ∧
    ((run step initial (blockedRun ++ go .listener 6 ++ go (.monitor 2) 1)).map fun r =>
        r.2.pcs (.monitor 2)) = some (.monitor .failed) := by
  decide +kernel

end Finesse.Connections
