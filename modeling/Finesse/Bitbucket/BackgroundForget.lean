import Finesse.Bitbucket.Offsets

/-!
# Forgetting in the background

`forget.c`. With the background option, a forget request is put on a queue, and
a worker thread serves it later. The worker has the lock of the queue from when
it takes a work item until the queue is empty and all is served, so that nothing
is posted meanwhile. The volume is not locked, and other requests come between
any two inodes that it forgets. A request about more than 64 inodes is served at once,
and so is one that finds no memory for a work item. So the volume sees some forgets late.
-/

namespace Finesse.Bitbucket

open List Machine

/-- `BACKGROUND_FORGET_COUNT_MAX` -/
def backgroundForgetCountMax : Nat := 64

/-- `background_forget_work_t`. The length of the list is `Count`. -/
structure ForgetWork where
  thingsToForget : List (Nat × Nat)
  count_le : thingsToForget.length ≤ backgroundForgetCountMax

/-- A volume, the queue, what the worker has still to do of the item that it
took last, `background_thread_started`, and whether the worker has taken an item
since something was posted. -/
structure Background where
  volume : Volume
  queue : List ForgetWork
  taken : List (Nat × Nat)
  started : Bool
  locked : Bool
  running : queue ≠ [] → started

namespace Background

/-- `background_forget_startup`. -/
def startup (b : Background) : Background := { b with started := true, running := fun _ => rfl }

/-- Start the worker and put a work item on the queue, unless the worker has the
lock. -/
def post (b : Background) (work : ForgetWork) : Option (List Reply × Background) :=
  if b.taken = [] ∧ (b.locked → b.queue = []) then
    some ([.none],
      { b.startup with queue := b.queue ++ [work], locked := false, running := fun _ => rfl })
  else none

/-- Serve a request at once. -/
def direct (u : Userdata) (b : Background) (r : Request) : Option (List Reply × Background) :=
  (b.volume.step u r).map fun p => (p.1, { b with volume := p.2 })

/-- `bitbucket_internal_forget`; `memory` says whether `malloc` succeeds. -/
def forget (u : Userdata) (bgForget : Nat) (b : Background) (memory : Bool) (ino nlookup : Nat) :
    Option (List Reply × Background) :=
  if bgForget = 0 then b.direct u (.forget ino nlookup)
  else if memory then b.post ⟨[(ino, nlookup)], by simp [backgroundForgetCountMax]⟩
  else b.startup.direct u (.forget ino nlookup)

/-- `bitbucket_internal_forget_multi`. -/
def forgetMulti (u : Userdata) (bgForget : Nat) (b : Background) (memory : Bool)
    (forgets : List (Nat × Nat)) : Option (List Reply × Background) :=
  if bgForget = 1 then
    if h : forgets.length ≤ backgroundForgetCountMax ∧ memory then b.post ⟨forgets, h.1⟩
    else b.startup.direct u (.forgetMulti forgets)
  else b.direct u (.forgetMulti forgets)

/-- What happens next: a request comes, the worker takes an item off the queue,
or it forgets an inode of the item it has. -/
inductive Input where
  | request (r : Request) (memory : Bool)
  | take
  | serve

/-- The requests of the kernel, and `background_forget_worker`. -/
def step (u : Userdata) (bgForget : Nat) (b : Background) :
    Input → Option (List Reply × Background)
  | .request (.forget ino nlookup) memory => b.forget u bgForget memory ino nlookup
  | .request (.forgetMulti forgets) memory => b.forgetMulti u bgForget memory forgets
  | .request r _ => b.direct u r
  | .take =>
    match b.queue with
    | work :: queue =>
      if b.started ∧ b.taken = [] then
        some ([], ⟨b.volume, queue, work.thingsToForget, true, true, fun _ => rfl⟩)
      else none
    | [] => none
  | .serve =>
    match b.taken with
    | (ino, nlookup) :: taken =>
      (backgroundForget ino nlookup b.volume).map fun p =>
        ([], { b with volume := p.2, taken := taken })
    | [] => none

/-- A volume that nothing has been posted for. -/
def idle (s : Volume) : Background := ⟨s, [], [], false, false, nofun⟩

/-- What has been posted and is not forgotten yet. -/
def pending (b : Background) : List (Nat × Nat) :=
  b.taken ++ b.queue.flatMap (·.thingsToForget)

def Input.requests : Input → List Request
  | .request r _ => [r]
  | _ => []

end Background

/-- The inodes that a request is to forget. -/
def Request.forgets : Request → List (Nat × Nat)
  | .forget ino nlookup => [(ino, nlookup)]
  | .forgetMulti forgets => forgets
  | _ => []

def Request.isForget : Request → Bool
  | .forget .. | .forgetMulti _ => true
  | _ => false

/-- While the requests `rs` came and `tr` was sent, the volume has changed as it
does by the requests `served`. -/
structure Background.Served (u : Userdata) (b b' : Background) (rs : List Request)
    (tr : List Reply) (served : List Request) (replies : List Reply) : Prop where
  run : Machine.run (Volume.step u) b.volume served = some (replies, b'.volume)
  /-- what was to be forgotten is forgotten once, or is waiting -/
  once : served.flatMap Request.forgets ++ b'.pending ~ b.pending ++ rs.flatMap Request.forgets
  others : served.filter (!·.isForget) = rs.filter (!·.isForget)
  replies : replies.filter (· ≠ .none) = tr.filter (· ≠ .none)

namespace Background

variable {u : Userdata} {bgForget : Nat} {b b1 b' : Background} {tr tr' : List Reply}

namespace Served

variable {rs rs' served served' : List Request} {replies replies' : List Reply}

theorem append (h : b.Served u b1 rs tr served replies)
    (h' : b1.Served u b' rs' tr' served' replies') :
    b.Served u b' (rs ++ rs') (tr ++ tr') (served ++ served') (replies ++ replies') where
  run := run_append h.run h'.run
  once := by
    rw [flatMap_append, flatMap_append, append_assoc, ← append_assoc b.pending]
    calc _ ~ served.flatMap Request.forgets ++ (b1.pending ++ rs'.flatMap Request.forgets) :=
          h'.once.append_left _
      _ ~ _ := by
          rw [← append_assoc]
          exact h.once.append_right _
  others := by rw [filter_append, filter_append, h.others, h'.others]
  replies := by rw [filter_append, filter_append, h.replies, h'.replies]

theorem startup (h : b.startup.Served u b' rs tr served replies) :
    b.Served u b' rs tr served replies :=
  ⟨h.run, h.once, h.others, h.replies⟩

end Served

theorem post_served {r : Request} {work : ForgetWork} (h : b.post work = some (tr, b'))
    (hr : r.isForget) (hw : work.thingsToForget = r.forgets) : b.Served u b' [r] tr [] [] := by
  rw [post] at h
  split at h
  · next ht =>
    cases h
    refine ⟨rfl, ?_, by simp [hr], rfl⟩
    simp [pending, startup, ht.1, hw]
  · cases h

theorem direct_served {r : Request} (h : b.direct u r = some (tr, b')) :
    b.Served u b' [r] tr [r] tr := by
  obtain ⟨⟨ev, v⟩, hv, h⟩ := Option.map_eq_some_iff.mp h
  cases h
  refine ⟨run_single hv, ?_, rfl, rfl⟩
  simp only [flatMap_singleton]
  exact perm_append_comm

theorem serve_served {ino nlookup : Nat} {taken : List (Nat × Nat)} {v : Volume}
    (ht : b.taken = (ino, nlookup) :: taken)
    (h : backgroundForget ino nlookup b.volume = some ((), v)) :
    b.Served u { b with volume := v, taken := taken } [] [] [.forget ino nlookup] [.none] where
  run := run_single ((Prog.bind_some (Prog.bind_some h)).trans rfl)
  once := by simp [pending, ht, Request.forgets]
  others := rfl
  replies := rfl

theorem step_served {a : Input} (h : b.step u bgForget a = some (tr, b')) :
    ∃ served replies, b.Served u b' a.requests tr served replies := by
  cases a with
  | request r memory =>
    cases r with
    | forget ino nlookup =>
      simp only [step, forget] at h
      split_ifs at h
      · exact ⟨_, _, direct_served h⟩
      · exact ⟨_, _, post_served h rfl rfl⟩
      · exact ⟨_, _, (direct_served h).startup⟩
    | forgetMulti forgets =>
      simp only [step, forgetMulti] at h
      split_ifs at h
      · exact ⟨_, _, post_served h rfl rfl⟩
      · exact ⟨_, _, (direct_served h).startup⟩
      · exact ⟨_, _, direct_served h⟩
    | _ => exact ⟨_, _, direct_served h⟩
  | take =>
    simp only [step] at h
    split at h
    · next work queue hq =>
      split_ifs at h with ht
      cases h
      refine ⟨[], [], rfl, ?_, rfl, rfl⟩
      simp [pending, hq, ht.2, Input.requests]
    · cases h
  | serve =>
    simp only [step] at h
    split at h
    · next ino nlookup taken ht =>
      obtain ⟨⟨⟨⟩, v⟩, hv, h⟩ := Option.map_eq_some_iff.mp h
      cases h
      exact ⟨_, _, serve_served ht hv⟩
    · cases h

theorem run_served {as : List Input} (h : Machine.run (step u bgForget) b as = some (tr, b')) :
    ∃ served replies, b.Served u b' (as.flatMap Input.requests) tr served replies := by
  induction as generalizing b tr with
  | nil =>
    obtain ⟨rfl, rfl⟩ := Prod.mk.inj (Option.some.inj h)
    exact ⟨[], [], rfl, by simp, rfl, rfl⟩
  | cons a as ih =>
    obtain ⟨ev, b1, evs, hs, hr, rfl⟩ := run_cons h
    obtain ⟨served, replies, h1⟩ := step_served hs
    obtain ⟨served', replies', h'⟩ := ih hr
    exact ⟨_, _, h1.append h'⟩

/-- Whatever the worker has done so far, and when: the volume is as some requests
leave it that are served one after the other. These are the requests that came,
in their order and with their replies, but for the forgets; what was to be
forgotten is forgotten by them once, or waits for the worker. -/
theorem background_served {s : Volume} {as : List Input}
    (hrun : Machine.run (step u bgForget) (idle s) as = some (tr, b')) :
    ∃ served replies, Machine.run (Volume.step u) s served = some (replies, b'.volume) ∧
      served.flatMap Request.forgets ++ b'.pending ~
        (as.flatMap Input.requests).flatMap Request.forgets ∧
      served.filter (!·.isForget) = (as.flatMap Input.requests).filter (!·.isForget) ∧
      replies.filter (· ≠ .none) = tr.filter (· ≠ .none) := by
  obtain ⟨served, replies, h⟩ := run_served hrun
  exact ⟨served, replies, h.run, h.once, h.others, h.replies⟩

/-- A file is forgotten after a directory was made. -/
theorem background_served_file : ∃ tr b', (newMount.bind fun p =>
      Machine.run (step .plain 1) (idle p.2)
        [.request (.create 1 ['f'] 0o644 ⟨11, 0⟩) true, .request (.unlink 1 ['f']) true,
         .request (.release 11) true, .request (.forget 11 1) true, .take,
         .request (.mkdir 1 ['a'] 0o755 ⟨12, 0⟩) true, .serve]) = some (tr, b') ∧
    b'.volume.live 6 = false ∧ ∃ s served replies,
      Machine.run (Volume.step .plain) s served =
        some (replies, b'.volume) ∧ served.flatMap Request.forgets ++ b'.pending ~ [(11, 1)] := by
  refine exists_result (I := fun _ b' => b'.volume.live 6 = false) (by decide +kernel) ?_
  intro tr b' h hlive
  obtain ⟨⟨_, s⟩, -, hrun⟩ := Option.bind_eq_some_iff.mp h
  obtain ⟨served, replies, hr, honce, -⟩ := background_served hrun
  exact ⟨hlive, s, served, replies, hr, honce⟩

/-- The steps with which the worker empties the queue. -/
def worker (b : Background) : List Input :=
  replicate b.taken.length .serve ++
    b.queue.flatMap fun w => .take :: replicate w.thingsToForget.length .serve

theorem backgroundForgets_append (xs ys : List (Nat × Nat)) (v : Volume) :
    backgroundForgets (xs ++ ys) v =
      (backgroundForgets xs v).bind fun p => backgroundForgets ys p.2 := by
  induction xs generalizing v with
  | nil => rfl
  | cons x xs ih =>
    change (backgroundForget x.1 x.2 v).bind _ = ((backgroundForget x.1 x.2 v).bind _).bind _
    rw [Option.bind_assoc]
    exact congrArg _ (funext fun p => ih p.2)

theorem run_serves (v : Volume) (queue : List ForgetWork) (taken : List (Nat × Nat))
    (started locked : Bool) (running : queue ≠ [] → started) (as : List Input) :
    Machine.run (step u bgForget) ⟨v, queue, taken, started, locked, running⟩
        (replicate taken.length .serve ++ as) =
      (backgroundForgets taken v).bind fun p =>
        Machine.run (step u bgForget) ⟨p.2, queue, [], started, locked, running⟩ as := by
  induction taken generalizing v with
  | nil => rfl
  | cons x taken ih =>
    rw [length_cons, replicate_succ, cons_append, run_cons_map rfl]
    change _ = ((backgroundForget x.1 x.2 v).bind _).bind _
    rw [Option.bind_assoc]
    exact congrArg _ (funext fun p => ih p.2)

theorem run_takes (v : Volume) (queue : List ForgetWork) (started locked : Bool)
    (running : queue ≠ [] → started) :
    (Machine.run (step u bgForget) ⟨v, queue, [], started, locked, running⟩
        (queue.flatMap fun w => .take :: replicate w.thingsToForget.length .serve)).map
        (fun q => (q.1, q.2.volume, q.2.pending)) =
      (backgroundForgets (queue.flatMap (·.thingsToForget)) v).map fun p => ([], p.2, []) := by
  induction queue generalizing v started locked with
  | nil => rfl
  | cons work queue ih =>
    have hstarted := running (cons_ne_nil work queue)
    subst hstarted
    rw [flatMap_cons, cons_append, run_cons_map (x := some ())
      (f := fun _ => ⟨v, queue, work.thingsToForget, true, true, fun _ => rfl⟩) rfl,
      Option.bind_some, run_serves, flatMap_cons, backgroundForgets_append, Option.map_bind,
      Option.map_bind]
    exact congrArg _ (funext fun p => ih p.2 true true fun _ => rfl)

/-- Without further requests the worker empties the queue, and leaves what the
forgets leave if they are served at once. -/
theorem worker_drains (u : Userdata) (bgForget : Nat) (b : Background) :
    (Machine.run (step u bgForget) b b.worker).map (fun q => (q.1, q.2.volume, q.2.pending)) =
      (backgroundForgets b.pending b.volume).map fun p => ([], p.2, []) := by
  rw [worker, run_serves, pending, backgroundForgets_append, Option.map_bind, Option.map_bind]
  exact congrArg _ (funext fun p => run_takes p.2 b.queue b.started b.locked b.running)

/-- In every directory, whenever it is looked at, the offsets of the entries are
different, the newer the greater, and none of them is zero or after the epoch. -/
theorem offsets_in_order {root bitbucket : NewInode} {others : List NewInode} {s : Volume}
    {as : List Input} (hinit : bitbucketInit root bitbucket others .empty = some ((), s))
    (hrun : Machine.run (step u bgForget) (idle s) as = some (tr, b')) (d : Nat) :
    (b'.volume.entries d).Pairwise (fun e e' => e'.offset < e.offset) ∧
      ∀ e ∈ b'.volume.entries d, 0 < e.offset ∧ e.offset ≤ (b'.volume.inode d).epoch := by
  obtain ⟨served, replies, h⟩ := run_served hrun
  have horder := (stamped_run hinit h.run).inOrder d
  exact ⟨horder.sorted, fun e he => ⟨horder.pos e he, horder.le e he⟩⟩

/-- The root directory, while a file is still to be forgotten. -/
theorem offsets_in_order_root : ∃ tr b', (newMount.bind fun p =>
      Machine.run (step .plain 1) (idle p.2)
        [.request (.create 1 ['f'] 0o644 ⟨11, 0⟩) true, .request (.forget 11 1) true,
         .request (.mkdir 1 ['a'] 0o755 ⟨12, 0⟩) true]) = some (tr, b') ∧
    b'.pending = [(11, 1)] ∧
    (b'.volume.entries 0).Pairwise fun e e' => e'.offset < e.offset := by
  refine exists_result (I := fun _ b' => b'.pending = [(11, 1)]) (by decide +kernel) ?_
  intro tr b' h hpending
  obtain ⟨⟨_, s⟩, hs, hrun⟩ := Option.bind_eq_some_iff.mp h
  exact ⟨hpending, (offsets_in_order hs hrun 0).1⟩

end Background
end Finesse.Bitbucket
