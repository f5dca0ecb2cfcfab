import Finesse.Comm.Disconnects

/-!
# Stopping the server

`FinesseStopServerConnection` sets `shutdown` and wakes the threads that are
blocked on `server_cond`. `FinesseGetRequest` looks at `shutdown` only after
its loop has ended, and every pass through the outer loop waits at least
once, so a call that has not reached its wait blocks after everybody has been
woken. So does one that finds no request and tries again.

Every other call returns `ESHUTDOWN`, whatever the other threads do.
-/

namespace Finesse.Connections

open Option Machine Pool

variable {κ : Type}

/-! ## Only one step sets `shutdown` -/

variable {s s' : Connection κ} {a : Act κ} {ev : List (Event κ)} {q' : ServerPc} {f : Frame}
  {p : Threads κ} {upper : Bool} {c : Nat} {k : κ} {q : Point}

theorem listenerStep_shutdown {q q' : ListenerPc}
    (he : listenerStep a q s = some (q', s')) : s'.shutdown = s.shutdown := by
  unfold listenerStep at he
  repeat' split at he
  all_goals cases he
  all_goals rfl

theorem clientStep_shutdown (he : clientStep c a s = some s') : s'.shutdown = s.shutdown := by
  unfold clientStep at he
  dsimp only at he
  repeat' split at he
  all_goals cases he
  all_goals rfl

theorem teardownClientConnection_shutdown {d d' : Teardown}
    (he : teardownClientConnection c d s = some (d', s')) : s'.shutdown = s.shutdown := by
  unfold teardownClientConnection at he
  repeat' split at he
  all_goals cases he
  all_goals rfl

theorem stopperStep_shutdown {q q' : StopperPc}
    (he : stopperStep a q s = some (q', s')) : s'.shutdown = s.shutdown ∨ q = .start := by
  unfold stopperStep at he
  repeat' split at he
  all_goals first
    | exact .inr rfl
    | (cases he <;> exact .inl rfl)
    | (obtain ⟨_, hd, ⟨⟩⟩ := map_eq_some_iff.mp he
       exact .inl (teardownClientConnection_shutdown hd))

theorem getReadyRequest_shutdown {i : Comm.Slot}
    (he : getReadyRequest f upper i a s = some (q', s')) : s'.shutdown = s.shutdown := by
  unfold getReadyRequest at he
  repeat' split at he
  all_goals cases he
  all_goals rfl

variable [DecidableEq κ]

theorem monitorLoop_shutdown {d : Nat} {q : MonitorPoint} {q' : MonitorPc}
    (he : monitorLoop c d a q s = some (q', s')) : s'.shutdown = s.shutdown := by
  unfold monitorLoop at he
  repeat' split at he
  all_goals first
    | (cases he <;> rfl)
    | (obtain ⟨m, -, he⟩ := map_eq_some_iff.mp he; cases he; rfl)

theorem monitorStep_shutdown {q q' : MonitorPc}
    (he : monitorStep c a q s = some (q', s')) : s'.shutdown = s.shutdown := by
  unfold monitorStep at he
  repeat' split at he
  all_goals first
    | (cases he <;> rfl)
    | exact monitorLoop_shutdown he

theorem finesseGetRequest_shutdown
    (he : finesseGetRequest k a f q s = some (ev, q', s')) : s'.shutdown = s.shutdown := by
  unfold finesseGetRequest at he
  repeat' split at he
  all_goals first
    | (cases he <;> rfl)
    | (obtain ⟨_, hd, ⟨⟩⟩ := map_eq_some_iff.mp he
       first
       | rfl
       | exact getReadyRequest_shutdown hd
       | exact teardownClientConnection_shutdown hd)

theorem serverStep_shutdown {q : ServerPc}
    (he : serverStep k a q s = some (ev, q', s')) : s'.shutdown = s.shutdown := by
  unfold serverStep at he
  repeat' split at he
  all_goals first
    | (cases he <;> rfl)
    | exact finesseGetRequest_shutdown he

/-- `shutdown` is set by the first step of `FinesseStopServerConnection` and by
no other. -/
theorem exec_shutdown {t : Thread κ} {pc pc' : Pc} (he : exec t a pc s = some (ev, pc', s')) :
    s'.shutdown = s.shutdown ∨ pc = .stopper .start := by
  unfold exec at he
  split at he
  · obtain ⟨q, hq, ⟨⟩⟩ := map_eq_some_iff.mp he
    exact .inl (listenerStep_shutdown hq)
  · obtain ⟨q, hq, ⟨⟩⟩ := map_eq_some_iff.mp he
    rcases stopperStep_shutdown hq with h | h
    · exact .inl h
    · exact .inr (by rw [h])
  · obtain ⟨q, hq, ⟨⟩⟩ := map_eq_some_iff.mp he
    exact .inl (serverStep_shutdown hq)
  · obtain ⟨q, hq, ⟨⟩⟩ := map_eq_some_iff.mp he
    exact .inl (monitorStep_shutdown hq)
  · obtain ⟨q, hq, ⟨⟩⟩ := map_eq_some_iff.mp he
    exact .inl (clientStep_shutdown hq)
  · cases he

/-! ## Calls that are past their last wait -/

/-- A server thread is at a place from which it reaches a wait only by waking
without a client and a bit, by trying again, or by a new call. -/
def ServerPc.past : ServerPc → Bool
  | .run f .loop => f.found && f.captured != 0#64
  | .run _ .lock | .run _ .capture | .run _ (.find _) | .run _ .notify
  | .run _ .wait => false
  | _ => true

/-- The events of a step after `shutdown` was set: no wait begins, and a call
returns nothing but `ESHUTDOWN`. -/
def Stopped (ev : List (Event κ)) : Prop :=
  ∀ k, .waits k ∉ ev ∧ ∀ r, .returns k r ∈ ev → r = .eshutdown

omit [DecidableEq κ] in
theorem stopped_nil : Stopped ([] : List (Event κ)) := fun _ => ⟨nofun, nofun⟩

omit [DecidableEq κ] in
theorem scanForRequest_past {i : Nat}
    (h : upper = false → i < f.rnd) : (scanForRequest f upper i s).past = true := by
  unfold scanForRequest
  split
  · repeat' split
    all_goals rfl
  next hi =>
  split
  · rfl
  next hu =>
  have hu : upper = false := by simpa using hu
  subst hu
  have := h rfl
  exact absurd ⟨this, Nat.lt_trans this f.rnd.isLt⟩ hi

omit [DecidableEq κ] in
theorem getReadyRequest_past {i : Comm.Slot}
    (he : getReadyRequest f upper i a s = some (q', s')) : q'.past = true := by
  unfold getReadyRequest at he
  repeat' split at he
  all_goals cases he
  all_goals rfl

theorem finesseGetRequest_past (hs : s.shutdown = true) (hq : (ServerPc.run f q).past = true)
    (hwake : q = .recapture → f.found = true ∧ s.waiting ≠ 0#64)
    (hretry : ∀ i, q = .scan false i → i < f.rnd)
    (he : finesseGetRequest k a f q s = some (ev, q', s')) : q'.past = true ∧ Stopped ev := by
  unfold finesseGetRequest at he
  split at he
  · cases hq
  · cases hq
  · -- loop
    cases he
    simp only [ServerPc.past, Bool.and_eq_true, bne_iff_ne, ne_eq] at hq
    rw [if_neg (by simp [hq])]
    exact ⟨rfl, stopped_nil⟩
  · cases hq
  · cases hq
  · cases hq
  · -- sleep, woken
    obtain ⟨m, -, ⟨⟩⟩ := map_eq_some_iff.mp he
    exact ⟨rfl, stopped_nil⟩
  · cases he
    exact ⟨rfl, stopped_nil⟩
  · -- recapture
    cases he
    obtain ⟨hf, hw⟩ := hwake rfl
    exact ⟨by simp [ServerPc.past, hf, hw], stopped_nil⟩
  · cases he
    exact ⟨rfl, stopped_nil⟩
  · -- check
    cases he
    rw [if_pos hs]
    exact ⟨rfl, stopped_nil⟩
  · -- scan
    cases he
    refine ⟨scanForRequest_past ?_, stopped_nil⟩
    rintro rfl
    exact hretry _ rfl
  · obtain ⟨⟨q, t⟩, hg, ⟨⟩⟩ := map_eq_some_iff.mp he
    exact ⟨getReadyRequest_past hg, stopped_nil⟩
  · split at he
    · cases he
      exact ⟨rfl, stopped_nil⟩
    · obtain ⟨q, -, ⟨⟩⟩ := map_eq_some_iff.mp he
      exact ⟨rfl, stopped_nil⟩
  · -- finish
    rw [if_pos hs] at he
    cases he
    refine ⟨rfl, fun k' => ⟨by simp, fun r hr => ?_⟩⟩
    simp only [List.mem_singleton, Event.returns.injEq] at hr
    exact hr.2
  · cases he

/-- How many of its own steps a call that has woken takes to return. -/
def Point.rest : Point → Nat
  | .recapture => 5
  | .loop => 4
  | .unlock => 3
  | .check => 2
  | .finish _ => 1
  | _ => 0

/-- A call that has woken is not held up by the others, and every step brings
it closer to its return. -/
theorem finesseGetRequest_rest (hs : s.shutdown = true) (hq : (ServerPc.run f q).past = true)
    (hr : 0 < q.rest) : ∃ ev q' s', finesseGetRequest k .next f q s = some (ev, q', s') ∧
      (ev = [.returns k .eshutdown] ∨ ∃ f' r, q' = .run f' r ∧ 0 < r.rest ∧ r.rest < q.rest) := by
  cases q with
  | recapture =>
    exact ⟨_, _, _, rfl, .inr ⟨_, .loop, rfl, by decide, by decide⟩⟩
  | loop =>
    simp only [ServerPc.past, Bool.and_eq_true, bne_iff_ne, ne_eq] at hq
    refine ⟨_, _, _, rfl, .inr ⟨f, .unlock, ?_, by decide, by decide⟩⟩
    rw [if_neg (by simp [hq])]
  | unlock => exact ⟨_, _, _, rfl, .inr ⟨_, .check, rfl, by decide, by decide⟩⟩
  | check =>
    refine ⟨_, _, _, rfl, .inr ⟨f, .finish none, ?_, by decide, by decide⟩⟩
    rw [if_pos hs]
  | finish r =>
    refine ⟨[.returns k .eshutdown], .idle, s, ?_, .inl rfl⟩
    simp only [finesseGetRequest]
    rw [if_pos hs]
  | _ => exact absurd hr (Nat.lt_irrefl 0)

/-! ## Every run -/

/-- When `shutdown` is being set, no call is on its way to a wait. Once it is
set, no call is made, a call that wakes has a client and finds a bit set, and
a call whose scan has come to its end does not try again. -/
structure Prompt (p : Threads κ) (a : Thread κ × Act κ) : Prop where
  stop : p.pcs a.1 = .stopper .start → ∀ k q, p.pcs (.server k) = .server q → q.past = true
  call : p.shared.shutdown = true → p.pcs a.1 ≠ .server .idle
  wake : p.shared.shutdown = true → ∀ f, p.pcs a.1 = .server (.run f .recapture) →
    f.found = true ∧ p.shared.waiting ≠ 0#64
  retry : p.shared.shutdown = true → ∀ f i, p.pcs a.1 = .server (.run f (.scan false i)) → i < f.rnd

/-- After `shutdown` was set, a step begins no wait and returns nothing but
`ESHUTDOWN`, and the next step of a call that has woken is its return or one
step closer to it. -/
structure Answered (p : Threads κ) (a : Thread κ × Act κ) : Prop where
  events : p.shared.shutdown = true → ∀ ev p', step p a = some (ev, p') → Stopped ev
  returns : p.shared.shutdown = true → ∀ k f q, a = (.server k, .next) →
    p.pcs (.server k) = .server (.run f q) → 0 < q.rest →
    ∃ ev p', step p a = some (ev, p') ∧ (ev = [.returns k .eshutdown] ∨
      ∃ f' r, p'.pcs (.server k) = .server (.run f' r) ∧ 0 < r.rest ∧ r.rest < q.rest)

/-- After `shutdown` was set, every call is past its last wait. -/
def AllPast (p : Threads κ) : Prop :=
  p.shared.shutdown = true → ∀ k q, p.pcs (.server k) = .server q → q.past = true

theorem Prompt.serverStep {q : ServerPc} (hp : Prompt p (.server k, a))
    (hs : p.shared.shutdown = true) (hq : p.pcs (.server k) = .server q) (hpast : q.past = true)
    (he : Connections.serverStep k a q p.shared = some (ev, q', s)) :
    q'.past = true ∧ Stopped ev := by
  unfold Connections.serverStep at he
  split at he
  · exact absurd hq (hp.call hs)
  · refine finesseGetRequest_past hs hpast ?_ ?_ he
    · rintro rfl
      exact hp.wake hs _ hq
    · rintro i rfl
      exact hp.retry hs _ i hq
  · repeat' split at he
    all_goals cases he
    all_goals exact ⟨rfl, stopped_nil⟩
  · cases he

theorem exec_events {t : Thread κ} {pc pc' : Pc} (he : exec t a pc s = some (ev, pc', s')) :
    ev = [] ∨ ∃ k q q', t = .server k ∧ pc = .server q ∧ pc' = .server q' ∧
      Connections.serverStep k a q s = some (ev, q', s') := by
  unfold exec at he
  split at he
  · obtain ⟨q, -, ⟨⟩⟩ := map_eq_some_iff.mp he
    exact .inl rfl
  · obtain ⟨q, -, ⟨⟩⟩ := map_eq_some_iff.mp he
    exact .inl rfl
  · obtain ⟨⟨ev', q', t⟩, hq, ⟨⟩⟩ := map_eq_some_iff.mp he
    exact .inr ⟨_, _, _, rfl, rfl, rfl, hq⟩
  · obtain ⟨q, -, ⟨⟩⟩ := map_eq_some_iff.mp he
    exact .inl rfl
  · obtain ⟨q, -, ⟨⟩⟩ := map_eq_some_iff.mp he
    exact .inl rfl
  · cases he

theorem AllPast.step {p' : Threads κ} {a : Thread κ × Act κ} (h : AllPast p)
    (hp : Prompt p a) (hs : Connections.step p a = some (ev, p')) : AllPast p' := by
  obtain ⟨t, a⟩ := a
  obtain ⟨pc, s, he, rfl⟩ := step_inv hs
  intro hsd k q hq
  rcases exec_shutdown he with hsame | hstart
  · have hset : p.shared.shutdown = true := hsame.symm.trans hsd
    by_cases hk : .server k = t
    · subst hk
      rw [set_pcs_self] at hq
      subst hq
      cases hpc : p.pcs (.server k) with
      | server r =>
        rw [hpc] at he
        obtain ⟨⟨ev', q', s'⟩, hr, ⟨⟩⟩ := map_eq_some_iff.mp he
        exact (hp.serverStep hset hpc (h hset k r hpc) hr).1
      | _ =>
        rw [hpc] at he
        cases he
    · rw [set_pcs_ne _ _ _ hk] at hq
      exact h hset k q hq
  · -- the step that sets `shutdown`
    have hk : Thread.server k ≠ t := by
      rintro rfl
      rw [hstart] at he
      cases he
    rw [set_pcs_ne _ _ _ hk] at hq
    exact hp.stop hstart k q hq

theorem AllPast.answered {a : Thread κ × Act κ} (h : AllPast p)
    (hp : Prompt p a) : Answered p a where
  events hsd ev p' hs := by
    obtain ⟨t, a⟩ := a
    obtain ⟨pc, s, he, rfl⟩ := step_inv hs
    rcases exec_events he with rfl | ⟨k, q, q', rfl, hq, -, hr⟩
    · exact stopped_nil
    · exact (hp.serverStep hsd hq (h hsd k q hq) hr).2
  returns hsd k f q ha hq hr := by
    subst ha
    obtain ⟨ev, q', s, hg, hres⟩ := finesseGetRequest_rest (k := k) hsd (h hsd k _ hq) hr
    refine ⟨ev, p.set (.server k) (.server q') s, ?_, ?_⟩
    · simp only [Connections.step, Pool.step, hq, exec, Connections.serverStep, hg, map_some]
    rcases hres with hev | ⟨f', r, rfl, h1, h2⟩
    · exact .inl hev
    · exact .inr ⟨f', r, by rw [set_pcs_self], h1, h2⟩

omit [DecidableEq κ] in
theorem allPast_initial : AllPast (initial : Threads κ) := by
  intro hs
  simp [initial, finesseStartServerConnection] at hs

/-- In every run whose steps are prompt, every step after `shutdown` was set is
answered. -/
theorem stopping_answered {as : List (Thread κ × Act κ)} (h : Along step Prompt initial as) :
    Along step Answered initial as :=
  along_of_along (fun p _ (hi : AllPast p) hp => hi.answered hp)
    (fun _ _ _ _ hi hp hs => hi.step hp hs) allPast_initial h

/-- A decision procedure for `Prompt`. -/
def prompt (p : Threads Unit) (a : Thread Unit × Act Unit) : Bool :=
  match p.pcs a.1 with
  | .stopper .start =>
    match p.pcs (.server ()) with
    | .server q => q.past
    | _ => true
  | .server .idle => !p.shared.shutdown
  | .server (.run f .recapture) =>
    !p.shared.shutdown || (f.found && p.shared.waiting != 0#64)
  | .server (.run f (.scan false i)) => !p.shared.shutdown || decide (i < f.rnd)
  | _ => true

theorem prompt_sound (p : Threads Unit) (a : Thread Unit × Act Unit)
    (h : prompt p a = true) : Prompt p a := by
  refine ⟨fun hp k q hq => ?_, fun hs hp => ?_, fun hs f hp => ?_, fun hs f i hp => ?_⟩
  · simpa [prompt, hp, hq] using h
  · simp [prompt, hp, hs] at h
  · simpa [prompt, hp, hs] using h
  · simpa [prompt, hp, hs] using h

section Told

local instance toldSlot : NeZero 64 := someSlot

/-- A monitor has told the server of a request when the server is stopped. -/
def toldRun : List (Thread Unit × Act Unit) :=
  go .listener 6 ++ go (.monitor 0) 3 ++ call ++ (.client 0, .send 0) ::
    go (.monitor 0) 3 ++ marks ++ go .stopper 2 ++ go (.server ()) 6

end Told

theorem stopping_answered_told : check step prompt initial toldRun = true ∧
      (run step initial toldRun).map (·.1) = some [.waits (), .returns () .eshutdown] ∧
      Along step Answered initial toldRun := by
  have h : check step prompt initial toldRun = true := by decide +kernel
  exact ⟨h, by decide +kernel, stopping_answered (along_of_check (fun a _ p => prompt_sound p a) h)⟩

/-- There is a client, `shutdown` has been set and the waiting threads have been
told; a call made then begins a wait. -/
theorem call_after_shutdown_waits :
    (run step (initial : Threads Unit) (go .listener 6 ++ go .stopper 2)).map
        (fun r => (r.1, r.2.shared.shutdown)) = some ([], true) ∧
      (run step (initial : Threads Unit)
        (go .listener 6 ++ go .stopper 2 ++ call)).map (fun r => r.1) =
        some [.waits ()] := by
  decide +kernel

end Finesse.Connections
