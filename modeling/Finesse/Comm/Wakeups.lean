import Finesse.Comm.Disconnects

/-!
# No wakeup is lost

The server thread blocks on `server_cond` after it has told the monitors to
look again, and a monitor blocks on `monitor_cond` after it has told the
server that its client is waiting. Each does both in one go under
`monitor_mutex`, so the two are never blocked at the same time.

The server tells the monitors only if it finds an entry of the table that is not
empty. The table has no lock, but a monitor that is blocked has been in it all along,
so the search finds one whenever there is somebody to tell (`ServerAlert`).
-/

namespace Finesse.Connections

open Option Machine Pool List CondLock

open Comm (Slot)

/-- At `pc`, thread `t` may be blocked on `z`. -/
def Sleeping (z : Condition) (t : Thread Unit) (pc : Pc) : Prop :=
  match z, t, pc with
  | .monitorCond, .monitor _, .monitor (.run _ .sleep) => True
  | .serverCond, .server _, .server (.run _ .sleep) => True
  | _, _, _ => False

/-- What the server thread knows about the blocked monitors on its way to the
wait. -/
def ServerAlert (q : ServerPc) (s : Connection Unit) : Prop :=
  match q with
  | .run f (.find i) => f.found = false →
    ∀ c, .monitor c ∈ s.monitor.waiters .monitorCond → i ≤ (s.clients c).index
  | .run f .notify => f.found = false → s.monitor.waiters .monitorCond = []
  | .run _ .wait => s.monitor.waiters .monitorCond = []
  | _ => True

structure Alert (p : Threads Unit) : Prop where
  asleep : ∀ z t, t ∈ p.shared.monitor.waiters z → Sleeping z t (p.pcs t)
  apart : .server () ∈ p.shared.monitor.waiters .serverCond →
    p.shared.monitor.waiters .monitorCond = []
  server : ∀ q, p.pcs (.server ()) = .server q → ServerAlert q p.shared
  signalled : ∀ c d, p.pcs (.monitor c) = .monitor (.run d .wait) →
    p.shared.monitor.waiters .serverCond = []

theorem alert_initial : Alert initial := ⟨nofun, nofun, fun _ h => by cases h; trivial, nofun⟩

variable {s' : Connection Unit} {ev : List (Event Unit)} {c : Nat} {safe : Nat → Prop}
  {q q' : ServerPc}

section Steps

variable {p : Threads Unit} {t : Thread Unit} {pc : Pc} {s : Connection Unit}

theorem ServerAlert.shrink {s : Connection Unit} (h : ServerAlert q s)
    (hw : ∀ u, u ∈ s'.monitor.waiters .monitorCond → u ∈ s.monitor.waiters .monitorCond)
    (hi : ∀ c, .monitor c ∈ s.monitor.waiters .monitorCond →
      (s'.clients c).index = (s.clients c).index) : ServerAlert q s' := by
  have none_of : s.monitor.waiters .monitorCond = [] → s'.monitor.waiters .monitorCond = [] := by
    intro hn
    refine eq_nil_iff_forall_not_mem.mpr fun u hu => ?_
    exact absurd (hw u hu) (by rw [hn]; exact not_mem_nil)
  unfold ServerAlert at h ⊢
  split at h
  · intro hf c hc
    rw [hi c (hw _ hc)]
    exact h hf c (hw _ hc)
  · exact fun hf => none_of (h hf)
  · exact none_of h
  · trivial

theorem Alert.quiet (h : Alert p)
    (hw : ∀ z u, u ∈ s.monitor.waiters z → u ∈ p.shared.monitor.waiters z)
    (ht : ∀ z, t ∈ s.monitor.waiters z → Sleeping z t pc)
    (hi : ∀ c, .monitor c ∈ p.shared.monitor.waiters .monitorCond →
      (s.clients c).index = (p.shared.clients c).index)
    (hs : ∀ q, t = .server () → pc = .server q → ServerAlert q s)
    (hm : ∀ c d, t = .monitor c → pc = .monitor (.run d .wait) →
      s.monitor.waiters .serverCond = []) : Alert (p.set t pc s) := by
  have none_of : ∀ z, p.shared.monitor.waiters z = [] → s.monitor.waiters z = [] := by
    intro z hn
    refine eq_nil_iff_forall_not_mem.mpr fun u hu => ?_
    exact absurd (hw z u hu) (by rw [hn]; exact not_mem_nil)
  refine ⟨?_, fun hv => none_of _ (h.apart (hw _ _ hv)), ?_, ?_⟩
  · intro z u hu
    by_cases hut : u = t
    · subst hut
      rw [set_pcs_self]
      exact ht z hu
    · rw [set_pcs_ne _ _ _ hut]
      exact h.asleep z u (hw z u hu)
  · intro q hq
    by_cases hut : .server () = t
    · subst hut
      rw [set_pcs_self] at hq
      exact hs q rfl hq
    · rw [set_pcs_ne _ _ _ hut] at hq
      exact (h.server q hq).shrink (hw _) hi
  · intro c d hq
    by_cases hut : .monitor c = t
    · subst hut
      rw [set_pcs_self] at hq
      exact hm c d rfl hq
    · rw [set_pcs_ne _ _ _ hut] at hq
      exact none_of _ (h.signalled c d hq)

theorem Alert.index_eq (h : Alert p) (ho : Orderly p) (g : Guarantee safe t p.shared s)
    (hc : .monitor c ∈ p.shared.monitor.waiters .monitorCond) :
    (s.clients c).index = (p.shared.clients c).index ∧
      p.shared.table (p.shared.clients c).index = some c := by
  obtain ⟨q, hq, hok⟩ := ho.monitor c
  have hsl := h.asleep _ _ hc
  rw [hq] at hsl
  have ht : p.shared.table (p.shared.clients c).index = some c := by
    refine hok.table (.inl ?_)
    unfold Sleeping at hsl
    split at hsl
    · next heq => cases heq; rfl
    · next heq _ => cases heq
    · exact hsl.elim
  exact ⟨(g.clients c).index_eq ht, ht⟩

end Steps

section Threads

variable {p : Threads Unit} {s : Connection Unit} {a : Act Unit}

theorem listenerStep_waiters {q q' : ListenerPc} {s : Connection Unit}
    (he : listenerStep a q s = some (q', s')) (z : Condition) (u : Thread Unit)
    (hu : u ∈ s'.monitor.waiters z) : u ∈ s.monitor.waiters z := by
  unfold listenerStep at he
  split at he
  · split at he <;> cases he <;> exact hu
  · split at he
    · split at he <;> cases he <;> exact hu
    · cases he
      exact hu
  · cases he
    exact hu
  · cases he
    exact hu
  · cases he
    exact hu
  · cases he
    exact (mem_broadcast.mp hu).1
  · split at he
    · cases he
      exact hu
    · cases he
  · split at he
    · cases he
      exact hu
    · cases he
  · cases he

theorem clientStep_monitor {s : Connection Unit}
    (he : clientStep c a s = some s') : s'.monitor = s.monitor := by
  unfold clientStep at he
  dsimp only at he
  split at he
  · split at he
    · cases he
      rfl
    · cases he
  · split at he
    · cases he
      rfl
    · cases he
  · split at he
    · cases he
      rfl
    · cases he
  · split at he
    · cases he
      rfl
    · cases he
  · cases he

/-- What a step of a monitor does to the blocked threads: it tells the server,
it blocks, it wakes without a signal, or it leaves them alone. -/
inductive MonitorWakes (c : Nat) : MonitorPc → MonitorPc →
    CondLock (Thread Unit) Condition → CondLock (Thread Unit) Condition → Prop
  | signal {d : Nat} {pick : Option (Thread Unit)}
      {m m' : CondLock (Thread Unit) Condition}
      (h : m.signal .serverCond pick = some m') :
      MonitorWakes c (.run d .signal) (.run d .wait) m m'
  | wait {d : Nat} {m : CondLock (Thread Unit) Condition} :
      MonitorWakes c (.run d .wait) (.run d .sleep) m (m.wait .monitorCond (.monitor c))
  | spurious {d : Nat} {m : CondLock (Thread Unit) Condition} :
      MonitorWakes c (.run d .sleep) (.run d .sleep) m (m.leave .monitorCond (.monitor c))
  | same {q q' : MonitorPc} {m m' : CondLock (Thread Unit) Condition}
      (hw : m'.waiters = m.waiters) (hq : ∀ d, q' ≠ .run d .wait)
      (hs : ∀ d, q = .run d .sleep → .monitor c ∉ m.waiters .monitorCond) :
      MonitorWakes c q q' m m'

theorem monitorLoop_wakes {d : Nat} {q : MonitorPoint} {q' : MonitorPc} {s : Connection Unit}
    (hok : MonitorOk c (.run d q) s) (he : monitorLoop c d a q s = some (q', s')) :
    MonitorWakes c (.run d q) q' s.monitor s'.monitor := by
  unfold monitorLoop at he
  split at he
  · split at he
    · cases he
    · split at he <;> cases he <;> exact .same rfl nofun nofun
  · split at he
    · cases he
    · cases he
      exact .same rfl nofun nofun
  · cases he
    exact .same rfl nofun nofun
  · split at he
    · cases he
      exact .same rfl nofun nofun
    · cases he
  · split at he <;> cases he <;> exact .same rfl nofun nofun
  · obtain ⟨m, hm, ⟨⟩⟩ := map_eq_some_iff.mp he
    obtain ⟨-, rfl⟩ := lock_inv hm
    exact .same rfl nofun nofun
  · cases he
    exact .same rfl nofun nofun
  · obtain ⟨m, hm, ⟨⟩⟩ := map_eq_some_iff.mp he
    exact .signal hm
  · obtain ⟨m, hm, ⟨⟩⟩ := map_eq_some_iff.mp he
    exact .signal hm
  · cases he
    exact .wait
  · obtain ⟨m, hm, ⟨⟩⟩ := map_eq_some_iff.mp he
    obtain ⟨hn, -, rfl⟩ := wake_inv hm
    exact .same rfl nofun fun _ _ => hn
  · cases he
    exact .spurious
  · -- a cancelled monitor is not here
    split at he
    · next hc => exact absurd (hok.cancelled hc).2 nofun
    · cases he
  · cases he
    exact .same rfl nofun nofun
  · cases he
    exact .same rfl nofun nofun
  · cases he
    exact .same rfl nofun nofun
  · cases he
    exact .same rfl nofun nofun
  · cases he

theorem monitorStep_wakes {q q' : MonitorPc} {s : Connection Unit} (hok : MonitorOk c q s)
    (he : monitorStep c a q s = some (q', s')) : MonitorWakes c q q' s.monitor s'.monitor := by
  unfold monitorStep at he
  split at he
  · split at he
    · cases he
    · split at he <;> cases he <;> exact .same rfl nofun nofun
  · split at he
    · cases he
      exact .same rfl nofun nofun
    · cases he
      exact .same rfl nofun nofun
  · exact monitorLoop_wakes hok he
  · cases he

/-- The places at which `ServerAlert` asks for nothing. -/
def ServerPc.plain : ServerPc → Bool
  | .run _ (.find _) | .run _ .notify | .run _ .wait => false
  | _ => true

theorem serverAlert_of_plain (h : q.plain = true) : ServerAlert q s := by
  unfold ServerAlert
  split <;> trivial

/-- What a step of the server thread does to the blocked threads, and what it
finds in the table before. -/
inductive ServerWakes : ServerPc → ServerPc → Connection Unit → Connection Unit → Prop
  | search {f : Frame} {s : Connection Unit} :
      ServerWakes (.run f .loop) (.run f (.find 0)) s s
  | found {f : Frame} {i : Nat} {s : Connection Unit} :
      ServerWakes (.run f (.find i)) (.run { f with found := true } .notify) s s
  | empty {f : Frame} {i : Nat} {s : Connection Unit} (h : i < 64)
      (ht : s.table ⟨i, h⟩ = none) :
      ServerWakes (.run f (.find i)) (.run f (.find (i + 1))) s s
  | searched {f : Frame} {i : Nat} {s : Connection Unit} (h : ¬ i < 64) :
      ServerWakes (.run f (.find i)) (.run f .notify) s s
  | notify {f : Frame} {s : Connection Unit} :
      ServerWakes (.run f .notify) (.run f .wait) s
        (if f.found then { s with monitor := s.monitor.broadcast .monitorCond } else s)
  | wait {f : Frame} {s : Connection Unit} :
      ServerWakes (.run f .wait) (.run f .sleep) s
        { s with monitor := s.monitor.wait .serverCond (.server ()) }
  | spurious {f : Frame} {s : Connection Unit} :
      ServerWakes (.run f .sleep) (.run f .sleep) s
        { s with monitor := s.monitor.leave .serverCond (.server ()) }
  | same {q q' : ServerPc} {s s' : Connection Unit}
      (hw : s'.monitor.waiters = s.monitor.waiters) (hq : q'.plain = true)
      (hs : ∀ f, q = .run f .sleep → .server () ∉ s.monitor.waiters .serverCond) :
      ServerWakes q q' s s'

theorem scanForRequest_plain (f : Frame) (upper : Bool) (i : Nat)
    (s : Connection Unit) : (scanForRequest f upper i s).plain = true := by
  unfold scanForRequest
  repeat' split
  all_goals rfl

theorem getReadyRequest_plain {f : Frame} {upper : Bool} {i : Slot}
    {s : Connection Unit} (he : getReadyRequest f upper i a s = some (q', s')) :
    q'.plain = true ∧ s'.monitor = s.monitor := by
  unfold getReadyRequest at he
  split at he
  · cases he
    exact ⟨rfl, rfl⟩
  split at he
  · cases he
  split at he
  · split at he
    · cases he
      exact ⟨rfl, rfl⟩
    · cases he
  · split at he
    · cases he
      exact ⟨rfl, rfl⟩
    split at he
    · cases he
      exact ⟨rfl, rfl⟩
    · cases he
  · cases he

theorem teardownClientConnection_monitor {d d' : Teardown} {s : Connection Unit}
    (he : teardownClientConnection c d s = some (d', s')) : s'.monitor = s.monitor := by
  unfold teardownClientConnection at he
  split at he
  · cases he
    rfl
  · cases he
    rfl
  · split at he
    · cases he
      rfl
    · cases he
  · cases he

theorem finesseGetRequest_wakes {f : Frame} {q : Point} {s : Connection Unit}
    (he : finesseGetRequest () a f q s = some (ev, q', s')) : ServerWakes (.run f q) q' s s' := by
  unfold finesseGetRequest at he
  split at he
  · obtain ⟨m, hm, ⟨⟩⟩ := map_eq_some_iff.mp he
    obtain ⟨-, rfl⟩ := lock_inv hm
    exact .same rfl rfl nofun
  · cases he
    exact .same rfl rfl nofun
  · cases he
    split
    · exact .search
    · exact .same rfl rfl nofun
  · split at he
    · next hi =>
      split at he
      · cases he
        exact .found
      next ht =>
      cases he
      exact .empty hi ht
    · next hi =>
      cases he
      exact .searched hi
  · cases he
    exact .notify
  · cases he
    exact .wait
  · obtain ⟨m, hm, ⟨⟩⟩ := map_eq_some_iff.mp he
    obtain ⟨hn, -, rfl⟩ := wake_inv hm
    exact .same rfl rfl fun _ _ => hn
  · cases he
    exact .spurious
  · cases he
    exact .same rfl rfl nofun
  · cases he
    exact .same rfl rfl nofun
  · cases he
    refine .same rfl ?_ nofun
    repeat' split
    all_goals rfl
  · cases he
    exact .same rfl (scanForRequest_plain _ _ _ _) nofun
  · obtain ⟨⟨q, t⟩, hg, ⟨⟩⟩ := map_eq_some_iff.mp he
    obtain ⟨hq, hm⟩ := getReadyRequest_plain hg
    exact .same (congrArg _ hm) hq nofun
  · split at he
    · cases he
      exact .same rfl rfl nofun
    · obtain ⟨⟨d', t⟩, hg, ⟨⟩⟩ := map_eq_some_iff.mp he
      exact .same (congrArg _ (teardownClientConnection_monitor hg)) rfl nofun
  · split at he
    · cases he
      exact .same rfl rfl nofun
    · split at he <;> cases he <;> exact .same rfl rfl nofun
  · cases he

theorem serverStep_wakes {s : Connection Unit}
    (he : serverStep () a q s = some (ev, q', s')) : ServerWakes q q' s s' := by
  unfold serverStep at he
  split at he
  · cases he
    exact .same rfl rfl nofun
  · exact finesseGetRequest_wakes he
  · split at he
    · cases he
      exact .same rfl rfl nofun
    · split at he <;> cases he <;> exact .same rfl rfl nofun
  · cases he

end Threads

section Run

variable {p : Threads Unit} {s : Connection Unit} {a : Act Unit} {u : Thread Unit}

theorem Alert.server_of_mem (h : Alert p)
    (hu : u ∈ p.shared.monitor.waiters .serverCond) : u = .server () := by
  have hs := h.asleep _ _ hu
  cases u with
  | server k => rfl
  | _ => exact hs.elim

theorem Alert.monitor_of_mem (h : Alert p)
    (hu : u ∈ p.shared.monitor.waiters .monitorCond) : ∃ c, u = .monitor c := by
  have hs := h.asleep _ _ hu
  cases u with
  | monitor c => exact ⟨c, rfl⟩
  | _ => exact hs.elim

/-- While a monitor has the mutex, the server is not on its way to the wait. -/
theorem Orderly.plain_of_owner (ho : Orderly p) (hm : p.shared.monitor.owner = some (.monitor c))
    (hq : p.pcs (.server ()) = .server q) : q.plain = true := by
  obtain ⟨r, hr, hok⟩ := ho.server
  rw [hr] at hq
  cases hq
  have hoff : q.holds ≠ true := by
    intro hh
    exact nomatch (hok.mutex.mpr hh).symm.trans hm
  cases q with
  | run f q =>
    cases q with
    | find i => exact absurd rfl hoff
    | notify => exact absurd rfl hoff
    | wait => exact absurd rfl hoff
    | _ => rfl
  | _ => rfl

theorem Alert.monitor_step (h : Alert p) (ho : Orderly p) {q q' : MonitorPc}
    (hp : p.pcs (.monitor c) = .monitor q)
    (hw : MonitorWakes c q q' p.shared.monitor s.monitor)
    (g : Guarantee safe (.monitor c) p.shared s) : Alert (p.set (.monitor c) (.monitor q') s) := by
  have awake : (∀ d, q ≠ .run d .sleep) → ∀ z, .monitor c ∉ p.shared.monitor.waiters z := by
    intro hn z hz
    have hs := h.asleep z _ hz
    rw [hp] at hs
    unfold Sleeping at hs
    split at hs
    · next hpc => cases hpc; exact hn _ rfl
    · next hpc => cases hpc
    · exact hs
  have index := fun c' hc' => (h.index_eq ho g (c := c') hc').1
  generalize hm : p.shared.monitor = m at hw
  generalize hm' : s.monitor = m' at hw
  cases hw with
  | signal hsig =>
    subst hm hm'
    have sub : ∀ z u, u ∈ s.monitor.waiters z → u ∈ p.shared.monitor.waiters z := by
      intro z u hu
      rcases signal_inv hsig with ⟨he, -⟩ | ⟨v, -, he⟩
      · rwa [he] at hu
      · rw [he] at hu
        exact (mem_leave.mp hu).1
    refine h.quiet sub (fun z hz => ?_) index nofun fun _ _ _ _ => ?_
    · exact absurd (sub z _ hz) (awake nofun z)
    rcases signal_inv hsig with ⟨he, hn⟩ | ⟨v, hv, he⟩
    · rw [he, hn]
    -- the server was the only one
    refine eq_nil_iff_forall_not_mem.mpr fun u hu => ?_
    rw [he] at hu
    obtain ⟨hu, hne⟩ := mem_leave.mp hu
    exact hne rfl ((h.server_of_mem hu).trans (h.server_of_mem hv).symm)
  | wait =>
    subst hm
    have hnone := h.signalled c _ hp
    obtain ⟨r, hr, hok⟩ := ho.monitor c
    rw [hp] at hr
    cases hr
    refine ⟨fun z u hu => ?_, fun hv => ?_, fun r hr => ?_, fun c' d' hd => ?_⟩
    · rw [set_shared, hm'] at hu
      rcases mem_wait.mp hu with hu | ⟨rfl, rfl⟩
      · have hne : u ≠ .monitor c := by
          rintro rfl
          exact awake nofun z hu
        rw [set_pcs_ne _ _ _ hne]
        exact h.asleep z u hu
      · rw [set_pcs_self]
        trivial
    · rw [set_shared, hm'] at hv
      rcases mem_wait.mp hv with hv | ⟨hz, -⟩
      · rw [hnone] at hv
        exact absurd hv not_mem_nil
      · cases hz
    · have hne : Thread.server () ≠ .monitor c := nofun
      rw [set_pcs_ne _ _ _ hne] at hr
      exact serverAlert_of_plain (ho.plain_of_owner (hok.mutex.mpr rfl) hr)
    · rw [set_shared, hm']
      exact hnone
  | spurious =>
    subst hm
    have sub : ∀ z u, u ∈ s.monitor.waiters z →
        u ∈ p.shared.monitor.waiters z ∧ (z = .monitorCond → u ≠ .monitor c) := by
      intro z u hu
      rw [hm'] at hu
      exact mem_leave.mp hu
    refine h.quiet (fun z u hu => (sub z u hu).1) (fun z hz => ?_) index nofun nofun
    obtain ⟨hz, hne⟩ := sub z _ hz
    cases z with
    | monitorCond => exact absurd rfl (hne rfl)
    | serverCond => exact nomatch h.server_of_mem hz
  | same hw hq hs =>
    subst hm hm'
    refine h.quiet (fun z u hu => by rwa [hw] at hu) (fun z hz => ?_) index nofun ?_
    · rw [hw] at hz
      cases z with
      | monitorCond =>
        refine absurd hz ?_
        by_cases hq : ∃ d, q = .run d .sleep
        · obtain ⟨d, rfl⟩ := hq
          exact hs d rfl
        · exact awake (fun d hd => hq ⟨d, hd⟩) _
      | serverCond => exact nomatch h.server_of_mem hz
    · rintro _ d - ⟨⟩
      exact absurd rfl (hq d)

theorem Alert.server_step (h : Alert p) (ho : Orderly p)
    (hp : p.pcs (.server ()) = .server q) (hw : ServerWakes q q' p.shared s)
    (g : Guarantee safe (.server ()) p.shared s) : Alert (p.set (.server ()) (.server q') s) := by
  have awake : (∀ f, q ≠ .run f .sleep) → ∀ z, .server () ∉ p.shared.monitor.waiters z := by
    intro hn z hz
    have hs := h.asleep z _ hz
    rw [hp] at hs
    unfold Sleeping at hs
    split at hs
    · next hpc => cases hpc
    · next hpc => cases hpc; exact hn _ rfl
    · exact hs
  have index := fun c' hc' => (h.index_eq ho g (c := c') hc').1
  -- a step on the way to the wait that blocks nobody
  have move : (∀ f, q ≠ .run f .sleep) →
      (∀ z u, u ∈ s.monitor.waiters z → u ∈ p.shared.monitor.waiters z) →
      ServerAlert q' s → Alert (p.set (.server ()) (.server q') s) := by
    intro hn sub hq
    refine h.quiet sub (fun z hz => absurd (sub z _ hz) (awake hn z)) index ?_ nofun
    rintro _ - ⟨⟩
    exact hq
  have hcur := h.server q hp
  generalize ht : p.shared = t at hw
  cases hw with
  | search =>
    subst ht
    exact move nofun (fun _ _ hu => hu) fun _ _ _ => Nat.zero_le _
  | found =>
    subst ht
    exact move nofun (fun _ _ hu => hu) nofun
  | empty hi hn =>
    subst ht
    refine move nofun (fun _ _ hu => hu) fun hf c hc => ?_
    have hle := hcur hf c hc
    refine Nat.lt_of_le_of_ne hle fun heq => ?_
    -- a blocked monitor is in the table
    have htab := (h.index_eq ho g hc).2
    rw [show (p.shared.clients c).index = ⟨_, hi⟩ from Fin.ext heq.symm, hn] at htab
    cases htab
  | searched hi =>
    subst ht
    refine move nofun (fun _ _ hu => hu) fun hf => ?_
    refine eq_nil_iff_forall_not_mem.mpr fun u hu => ?_
    obtain ⟨c, rfl⟩ := h.monitor_of_mem hu
    exact hi (Nat.lt_of_le_of_lt (hcur hf c hu) (Fin.isLt _))
  | @notify f =>
    cases hf : f.found with
    | true =>
      simp only [hf, if_true] at g move index ⊢
      refine move nofun (fun z u hu => ?_) ?_
      · rw [ht]
        exact (mem_broadcast.mp hu).1
      · exact eq_nil_iff_forall_not_mem.mpr fun u hu =>
          (mem_broadcast.mp hu).2 rfl
    | false =>
      simp only [hf, Bool.false_eq_true, if_false] at g move index ⊢
      refine move nofun (fun z u hu => by rwa [ht]) ?_
      have := hcur hf
      rwa [ht] at this
  | wait =>
    subst ht
    obtain ⟨r, hr, hok⟩ := ho.server
    rw [hp] at hr
    cases hr
    refine ⟨fun z u hu => ?_, fun _ => hcur, fun r hr => ?_, fun c d hd => ?_⟩
    · rcases mem_wait.mp hu with hu | ⟨rfl, rfl⟩
      · have hne : u ≠ .server () := by
          rintro rfl
          exact awake nofun z hu
        rw [set_pcs_ne _ _ _ hne]
        exact h.asleep z u hu
      · rw [set_pcs_self]
        trivial
    · rw [set_pcs_self] at hr
      cases hr
      trivial
    · -- nobody else has the mutex
      have hne : Thread.monitor c ≠ .server () := nofun
      rw [set_pcs_ne _ _ _ hne] at hd
      obtain ⟨r, hr, hmon⟩ := ho.monitor c
      rw [hd] at hr
      cases hr
      exact nomatch (hok.mutex.mpr rfl).symm.trans (hmon.mutex.mpr rfl)
  | spurious =>
    subst ht
    refine h.quiet (fun z u hu => (mem_leave.mp hu).1) (fun z hz => ?_) index ?_ nofun
    · obtain ⟨hz, hne⟩ := mem_leave.mp hz
      cases z with
      | monitorCond =>
        obtain ⟨c, hc⟩ := h.monitor_of_mem hz
        cases hc
      | serverCond => exact absurd rfl (hne rfl)
    · rintro _ - ⟨⟩
      trivial
  | same hw hq hs =>
    subst ht
    refine h.quiet (fun z u hu => by rwa [hw] at hu) (fun z hz => ?_) index ?_ nofun
    · rw [hw] at hz
      cases z with
      | monitorCond =>
        obtain ⟨c, hc⟩ := h.monitor_of_mem hz
        cases hc
      | serverCond =>
        refine absurd hz ?_
        by_cases hq : ∃ f, q = .run f .sleep
        · obtain ⟨f, rfl⟩ := hq
          exact hs f rfl
        · exact awake (fun f hf => hq ⟨f, hf⟩) _
    · rintro _ - ⟨⟩
      exact serverAlert_of_plain hq

/-- The listener, a client, or a thread like them: nobody is blocked who was
not before. -/
theorem Alert.other_step (h : Alert p) (ho : Orderly p) {t : Thread Unit} {pc : Pc}
    (ht : t = .listener ∨ ∃ c, t = .client c)
    (hw : ∀ z u, u ∈ s.monitor.waiters z → u ∈ p.shared.monitor.waiters z)
    (g : Guarantee safe t p.shared s) : Alert (p.set t pc s) := by
  have never : ∀ z, t ∉ p.shared.monitor.waiters z := by
    intro z hz
    have hs := h.asleep z t hz
    rcases ht with rfl | ⟨c, rfl⟩ <;> cases z <;> exact hs
  refine h.quiet hw (fun z hz => absurd (hw z t hz) (never z))
    (fun c hc => (h.index_eq ho g hc).1) ?_ ?_
  · rintro q rfl
    rcases ht with ht | ⟨c, ht⟩ <;> cases ht
  · rintro c d rfl
    rcases ht with ht | ⟨c, ht⟩ <;> cases ht

theorem Alert.step {p' : Threads Unit} {a : Thread Unit × Act Unit} (h : Alert p) (ho : Orderly p)
    (hc : CancelsSafely p a) (hs : Connections.step p a = some (ev, p')) : Alert p' := by
  obtain ⟨t, a⟩ := a
  obtain ⟨pc, s, he, rfl⟩ := step_inv hs
  obtain ⟨-, g⟩ := ho.exec hc he
  cases t with
  | listener =>
    cases hp : p.pcs .listener with
    | listener q =>
      rw [hp] at he
      obtain ⟨⟨q', s'⟩, hq, ⟨⟩⟩ := map_eq_some_iff.mp he
      exact h.other_step ho (.inl rfl) (listenerStep_waiters hq) g
    | _ =>
      rw [hp] at he
      cases he
  | stopper => exact absurd rfl hc.1
  | server k =>
    cases hp : p.pcs (.server k) with
    | server q =>
      rw [hp] at he
      obtain ⟨⟨ev', q', s'⟩, hq, ⟨⟩⟩ := map_eq_some_iff.mp he
      exact h.server_step ho hp (serverStep_wakes hq) g
    | _ =>
      rw [hp] at he
      cases he
  | monitor c =>
    obtain ⟨q, hp, hok⟩ := ho.monitor c
    rw [hp] at he
    obtain ⟨⟨q', s'⟩, hq, ⟨⟩⟩ := map_eq_some_iff.mp he
    exact h.monitor_step ho hp (monitorStep_wakes hok hq) g
  | client c =>
    cases hp : p.pcs (.client c) with
    | client =>
      rw [hp] at he
      obtain ⟨s', hq, ⟨⟩⟩ := map_eq_some_iff.mp he
      refine h.other_step ho (.inr ⟨c, rfl⟩) (fun z u hu => ?_) g
      rwa [clientStep_monitor hq] at hu
    | _ =>
      rw [hp] at he
      cases he

end Run

/-! ## Without disconnects -/

/-- No client shuts its region down, and the server is not being stopped. -/
def Undisturbed (_ : Threads Unit) (a : Thread Unit × Act Unit) : Prop :=
  a.1 ≠ .stopper ∧ a.2 ≠ .close

/-- No client has shut its region down. -/
structure Attached (p : Threads Unit) : Prop where
  orderly : Orderly p
  alert : Alert p
  opened : ∀ c, (p.shared.clients c).shutdownRequested = false

variable {a : Thread Unit × Act Unit}

/-- A connection is torn down only for a client that has shut down. -/
theorem Attached.cancelsSafely {p : Threads Unit} (h : Attached p)
    (ha : Undisturbed p a) : CancelsSafely p a := by
  refine ⟨ha.1, fun f upper i c hp => ?_⟩
  have ht := h.orderly.threads a.1
  rw [hp] at ht
  cases hk : a.1 with
  | server k =>
    rw [hk] at ht
    have hcl := (ht.point f _ rfl).2.1
    rw [h.opened c] at hcl
    cases hcl
  | _ =>
    rw [hk] at ht
    exact ht.elim

theorem clientStep_opened {a : Act Unit} {s : Connection Unit} (ha : a ≠ .close)
    (he : clientStep c a s = some s') (h : ∀ d, (s.clients d).shutdownRequested = false) (d : Nat) :
    (s'.clients d).shutdownRequested = false := by
  have keep : ∀ f : Client → Client, (∀ x, (f x).shutdownRequested = x.shutdownRequested) →
      ((s.modify c f).clients d).shutdownRequested = false := by
    intro f hf
    by_cases hd : d = c
    · subst hd
      rw [modify_clients_self, hf, h]
    · simpa [Connection.modify, hd] using h d
  unfold clientStep at he
  dsimp only at he
  split at he
  · split at he
    · cases he
      exact keep _ fun _ => rfl
    · cases he
  · split at he
    · cases he
      exact keep _ fun _ => rfl
    · cases he
  · exact absurd rfl ha
  · split at he
    · cases he
      exact keep _ fun _ => rfl
    · cases he
  · cases he

theorem Attached.step {p p' : Threads Unit} (h : Attached p) (ha : Undisturbed p a)
    (hs : Connections.step p a = some (ev, p')) : Attached p' := by
  have hc := h.cancelsSafely ha
  refine ⟨h.orderly.step hc hs, h.alert.step h.orderly hc hs, fun c => ?_⟩
  obtain ⟨t, a⟩ := a
  obtain ⟨pc, s, he, rfl⟩ := step_inv hs
  obtain ⟨-, g⟩ := h.orderly.exec hc he
  rcases (g.clients c).closed with hcl | ⟨-, -, ht⟩
  · exact hcl.trans (h.opened c)
  subst ht
  cases hp : p.pcs (.client c) with
  | client =>
    rw [hp] at he
    obtain ⟨s', hq, ⟨⟩⟩ := map_eq_some_iff.mp he
    exact clientStep_opened ha.2 hq h.opened c
  | _ =>
    rw [hp] at he
    cases he

theorem attached_initial : Attached initial := ⟨orderly_initial, alert_initial, fun _ => rfl⟩

/-- Client `c` has requests, and the server thread and the monitor of `c` are
both blocked, with no wakeup on its way to either. -/
structure Stuck (p : Threads Unit) (c : Nat) : Prop where
  requests : (p.shared.clients c).requestBitmap ≠ 0#64
  server : .server () ∈ p.shared.monitor.waiters .serverCond
  monitor : .monitor c ∈ p.shared.monitor.waiters .monitorCond

/-- With no disconnect and no shutdown, no client is ever stuck. -/
theorem never_stuck {as : List (Thread Unit × Act Unit)} (h : Along step Undisturbed initial as) :
    Always step (fun p => ∀ c, ¬ Stuck p c) initial as := by
  refine always_of_along (fun p hp c hc => ?_)
    (fun _ _ _ _ hp ha hs => Attached.step hp ha hs) attached_initial h
  have hm := hc.monitor
  rw [hp.alert.apart hc.server] at hm
  exact absurd hm not_mem_nil

section Served

local instance servedSlot : NeZero 64 := someSlot

/-- The server waits, is told of a request by a monitor that then blocks, wakes
once without cause, takes the request and waits again. -/
def servedRun : List (Thread Unit × Act Unit) :=
  go .listener 6 ++ go (.monitor 0) 3 ++ call ++ (.server (), .spurious) ::
    go (.server ()) 6 ++ (.client 0, .send 0) :: go (.monitor 0) 3 ++ marks ++
    go (.server ()) 6 ++ (.server (), .take 0) :: (.client 0, .send 1) ::
    go (.server ()) 2 ++ call

end Served

theorem never_stuck_served : (run step initial servedRun).map (fun r =>
      (r.2.pcs (.server ()), (r.2.shared.clients 0).requestBitmap)) =
      some (.server (.run ⟨0, true, 1#64⟩ .sleep), 2#64) ∧
      Always step (fun p => ∀ c, ¬ Stuck p c) initial servedRun := by
  refine ⟨by decide +kernel, never_stuck ?_⟩
  exact along_of_check (p := fun _ a => decide (a.1 ≠ .stopper) && decide (a.2 ≠ .close))
    (fun _ _ _ ha => by simpa [Undisturbed] using ha) (by decide +kernel)

end Finesse.Connections
