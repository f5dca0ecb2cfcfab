import Finesse.Lib.CondLock
import Finesse.Lib.Machine

/-!
# Waiting for the reply to a request

A handler passes a request to the file system and waits until the reply has come
(`FinesseWaitForFuseRequestCompletion`). The reply comes through
`finesse_send_reply_iov`, maybe in another thread, which keeps a copy of the data
in the request and calls `FinesseSignalFuseRequestCompletion`.

The waiter tests `completed` with the mutex held, and waits if it is not set. The
signaller sets `completed` and broadcasts without the mutex. If both happen after
the test and before the wait, nobody wakes the waiter.
-/

namespace Finesse.Server

open Option Machine CondLock

inductive Party where
  | waiter
  | replier
deriving DecidableEq, Repr

/-- Where the waiter is in `FinesseWaitForFuseRequestCompletion`. At `sleep` it is
blocked, or has been woken and needs the mutex. -/
inductive WaitPc where
  | check
  | lock
  | test
  | wait
  | sleep
  | unlock
  | returned
deriving DecidableEq, Repr

/-- Where the other thread is in `finesse_send_reply_iov`; the last four of its
steps before it returns are `FinesseSignalFuseRequestCompletion`. -/
inductive ReplyPc where
  | validate
  | capture
  | pending
  | complete
  | broadcast
  | finish
  | returned
  | failed
deriving DecidableEq, Repr

/-- The arguments of `finesse_send_reply_iov`. -/
structure Reply where
  error : Int
  iov : List (List (BitVec 8))
  freeReq : Int
deriving DecidableEq, Repr

/-- `struct finesse_req` with the threads that use it. -/
structure Completion where
  completed : Bool
  iov : Option (List (List (BitVec 8)))
  lock : CondLock Party Unit
  waiter : WaitPc
  replier : ReplyPc

/-- A blocked thread may also wake up for no reason. -/
inductive WaitAct where
  | next
  | spurious
deriving DecidableEq, Repr

/-- A request from `FinesseAllocFuseRequest`. -/
def Completion.start : Completion :=
  ⟨false, none, ⟨none, fun _ => []⟩, .check, .validate⟩

def finesseWaitForFuseRequestCompletion (c : Completion) (a : WaitAct) : Option Completion :=
  match c.waiter with
  | .check => some { c with waiter := if c.completed then .returned else .lock }
  | .lock => (c.lock.lock .waiter).map fun l => { c with lock := l, waiter := .test }
  | .test => some { c with waiter := if c.completed then .unlock else .wait }
  | .wait => some { c with lock := c.lock.wait () .waiter, waiter := .sleep }
  | .sleep =>
    match a with
    | .next => (c.lock.wake () .waiter).map fun l => { c with lock := l, waiter := .test }
    | .spurious => some { c with lock := c.lock.leave () .waiter }
  | .unlock => some { c with lock := c.lock.unlock, waiter := .returned }
  | .returned => none

def finesseSendReplyIov (reply : Reply) (c : Completion) : Option Completion :=
  match c.replier with
  | .validate =>
    some { c with
      replier := if reply.error ≤ -1000 ∨ 0 < reply.error then .failed else .capture }
  | .capture =>
    if c.iov = none then some { c with iov := some reply.iov, replier := .pending }
    else some { c with replier := .failed }
  -- FinesseSignalFuseRequestCompletion
  | .pending => some { c with replier := if c.completed then .failed else .complete }
  | .complete => some { c with completed := true, replier := .broadcast }
  | .broadcast => some { c with lock := c.lock.broadcast (), replier := .finish }
  | .finish => some { c with replier := if reply.freeReq = 0 then .returned else .failed }
  | .returned | .failed => none

def Completion.step (reply : Reply) (c : Completion) (a : Party × WaitAct) :
    Option (List Unit × Completion) :=
  match a.1 with
  | .waiter => (finesseWaitForFuseRequestCompletion c a.2).map ([], ·)
  | .replier => (finesseSendReplyIov reply c).map ([], ·)

/-- The waiter is blocked, `completed` is set, and nobody is about to wake the
waiter. -/
def Completion.Lost (c : Completion) : Prop :=
  .waiter ∈ c.lock.waiters () ∧ c.completed = true ∧ c.replier ≠ .broadcast

instance : DecidablePred Completion.Lost := fun _ =>
  inferInstanceAs (Decidable (_ ∧ _ ∧ _))

/-- The step is not a broadcast while the waiter is between its test and its wait. -/
def OutsideWindow (c : Completion) (a : Party × WaitAct) : Prop :=
  a.1 = .replier → c.replier = .broadcast → c.waiter ≠ .wait

instance : DecidableRel OutsideWindow := fun _ _ =>
  inferInstanceAs (Decidable (_ → _ → _))

/-- `completed` has been set. -/
def ReplyPc.late : ReplyPc → Bool
  | .broadcast | .finish | .returned | .failed => true
  | _ => false

structure Completion.Inv (c : Completion) : Prop where
  late : c.completed = true → c.replier.late = true
  awake : c.completed = true → c.replier ≠ .broadcast →
    .waiter ∉ c.lock.waiters () ∧ c.waiter ≠ .wait

namespace Completion

variable {c c' : Completion} {reply : Reply}

theorem Inv.start : Completion.start.Inv := ⟨nofun, nofun⟩

theorem Inv.not_lost (h : c.Inv) : ¬ c.Lost := by
  rintro ⟨hmem, hcompleted, hne⟩
  exact (h.awake hcompleted hne).1 hmem

theorem Inv.wait (h : c.Inv) {a : WaitAct}
    (hs : finesseWaitForFuseRequestCompletion c a = some c') : c'.Inv := by
  unfold finesseWaitForFuseRequestCompletion at hs
  split at hs
  · cases hs
    refine ⟨h.late, fun hc hb => ⟨(h.awake hc hb).1, ?_⟩⟩
    dsimp only
    split <;> nofun
  · obtain ⟨l, hl, rfl⟩ := map_eq_some_iff.mp hs
    obtain ⟨-, rfl⟩ := lock_inv hl
    exact ⟨h.late, fun hc hb => ⟨(h.awake hc hb).1, nofun⟩⟩
  · cases hs
    -- with `completed` set, the test does not lead to the wait
    refine ⟨h.late, fun hc hb => ⟨(h.awake hc hb).1, ?_⟩⟩
    dsimp only at hc ⊢
    rw [hc]
    nofun
  · next hpc =>
    cases hs
    exact ⟨h.late, fun hc hb => absurd hpc (h.awake hc hb).2⟩
  · split at hs
    · obtain ⟨l, hl, rfl⟩ := map_eq_some_iff.mp hs
      obtain ⟨-, -, rfl⟩ := wake_inv hl
      exact ⟨h.late, fun hc hb => ⟨(h.awake hc hb).1, nofun⟩⟩
    · cases hs
      refine ⟨h.late, fun hc hb => ⟨fun hmem => ?_, (h.awake hc hb).2⟩⟩
      exact (h.awake hc hb).1 (mem_leave.mp hmem).1
  · cases hs
    exact ⟨h.late, fun hc hb => ⟨(h.awake hc hb).1, nofun⟩⟩
  · cases hs

theorem Inv.of_pending (h : c.completed = false) : c.Inv := by
  constructor
  all_goals
    intro hc
    rw [h] at hc
    cases hc

theorem Inv.pending_of_early (h : c.Inv) (hl : c.replier.late = false) : c.completed = false := by
  cases hc : c.completed with
  | false => rfl
  | true =>
    rw [h.late hc] at hl
    cases hl

theorem Inv.sendReply (h : c.Inv) {a : WaitAct} (hout : OutsideWindow c (.replier, a))
    (hs : finesseSendReplyIov reply c = some c') : c'.Inv := by
  unfold finesseSendReplyIov at hs
  split at hs
  · next hpc =>
    cases hs
    exact .of_pending (h.pending_of_early (by rw [hpc]; rfl))
  · next hpc =>
    have hpending := h.pending_of_early (by rw [hpc]; rfl)
    split at hs
    · cases hs
      exact .of_pending hpending
    · cases hs
      exact .of_pending hpending
  · next hpc =>
    cases hs
    exact .of_pending (h.pending_of_early (by rw [hpc]; rfl))
  · cases hs
    exact ⟨fun _ => rfl, fun _ hb => absurd rfl hb⟩
  · next hpc =>
    cases hs
    refine ⟨fun _ => rfl, fun _ _ => ⟨fun hmem => ?_, hout rfl hpc⟩⟩
    exact (mem_broadcast.mp hmem).2 rfl
  · next hpc =>
    cases hs
    refine ⟨fun _ => ?_, fun hc _ => h.awake hc (by rw [hpc]; nofun)⟩
    dsimp only
    split <;> rfl
  · cases hs
  · cases hs

theorem Inv.step (h : c.Inv) {a : Party × WaitAct} {ev : List Unit} (hout : OutsideWindow c a)
    (hs : Completion.step reply c a = some (ev, c')) : c'.Inv := by
  obtain ⟨t, a⟩ := a
  cases t with
  | waiter =>
    obtain ⟨c1, h1, ⟨⟩⟩ := map_eq_some_iff.mp hs
    exact h.wait h1
  | replier =>
    obtain ⟨c1, h1, ⟨⟩⟩ := map_eq_some_iff.mp hs
    exact h.sendReply hout h1

end Completion

/-- In every run in which the broadcast does not come between the test and the wait
of the waiter, the waiter is never blocked with `completed` set and no wakeup to
come. -/
theorem completion_not_lost {reply : Reply} {as : List (Party × WaitAct)}
    (h : Along (Completion.step reply) OutsideWindow .start as) :
    Always (Completion.step reply) (fun c => ¬ c.Lost) .start as :=
  always_of_along (fun _ => Completion.Inv.not_lost)
    (fun _ _ _ _ hi hout hs => hi.step hout hs) Completion.Inv.start h

/-- The waiter is blocked when the broadcast comes. -/
def replyAfterWait : List (Party × WaitAct) :=
  List.replicate 4 (.waiter, .next) ++ List.replicate 6 (.replier, .next) ++
    List.replicate 3 (.waiter, .next)

theorem completion_not_lost_replyAfterWait :
    Always (Completion.step ⟨0, [], 0⟩) (fun c => ¬ c.Lost) .start replyAfterWait :=
  completion_not_lost (along_of_decide (by decide +kernel))

/-- The whole reply comes after the test of the waiter, and the waiter waits then. -/
def replyBeforeWait : List (Party × WaitAct) :=
  List.replicate 3 (.waiter, .next) ++ List.replicate 6 (.replier, .next) ++ [(.waiter, .next)]

/-- Nobody has a step to take any more, except for a wakeup without reason. -/
theorem waiter_blocked_forever : ∃ tr c,
    run (Completion.step ⟨0, [], 0⟩) .start replyBeforeWait = some (tr, c) ∧
    c.Lost ∧ Completion.step ⟨0, [], 0⟩ c (.waiter, .next) = none ∧
    Completion.step ⟨0, [], 0⟩ c (.replier, .next) = none := by
  have hrun : ((run (Completion.step ⟨0, [], 0⟩) .start replyBeforeWait).map fun q =>
      (decide q.2.Lost, (Completion.step ⟨0, [], 0⟩ q.2 (.waiter, .next)).isNone,
        (Completion.step ⟨0, [], 0⟩ q.2 (.replier, .next)).isNone)) =
      some (true, true, true) := by decide +kernel
  obtain ⟨⟨tr, c⟩, hr, hq⟩ := map_eq_some_iff.mp hrun
  simp only [Prod.mk.injEq, decide_eq_true_eq, isNone_iff_eq_none] at hq
  exact ⟨tr, c, hr, hq⟩

end Finesse.Server
