import Finesse.Comm.Connections

/-!
# What the threads of a connection rely on

The invariant behind the connection manager with one server thread. The
table, the bitmap of waiting clients and the monitors belong together: as
long as a monitor works for its client, the client's entry is in the table,
and the bit of the entry is set exactly between the two places where the
monitor sets and clears it.

None of this is protected by one lock, so each thread states what it needs
at its place (`MonitorOk`, `ServerOk`, `ListenerOk`), and `Guarantee` says
what a step of one thread leaves to the others. An entry is removed only for
a client that has been confirmed and whose monitor has ended or is leaving; it
is filled only for a client that was never in the table.
-/

namespace Finesse.Connections

open Function Option CondLock
open Comm (Slot makeMask64 insert_bit remove_bit)

/-! ## Places -/

/-- On the way to block on `monitor_cond`, or blocked there. -/
def MonitorPoint.committed : MonitorPoint → Bool
  | .lock | .mark | .signal | .wait | .sleep => true
  | _ => false

/-- Between setting the bit and clearing it. -/
def MonitorPoint.marked : MonitorPoint → Bool
  | .signal | .wait | .sleep | .unmark => true
  | _ => false

def MonitorPoint.holds : MonitorPoint → Bool
  | .mark | .signal | .wait | .unmark | .unlock => true
  | _ => false

variable {f : Frame} {upper : Bool} {p : MonitorPc} {i : Slot} {x' : Client} {p' : ServerPc}

namespace MonitorPc

def committed : MonitorPc → Bool
  | .run _ p => p.committed
  | _ => false

def marked : MonitorPc → Bool
  | .run _ p => p.marked
  | _ => false

def holds : MonitorPc → Bool
  | .run _ p => p.holds
  | _ => false

/-- The monitor runs and has not set `monitor_thread_active` to zero. -/
def works : MonitorPc → Bool
  | .load => true
  | .run _ p => p ≠ .leave
  | _ => false

/-- It has. -/
def left : MonitorPc → Bool
  | .run _ p => p = .leave
  | .ended => true
  | _ => false

theorem not_works_of_left (h : p.left = true) :
    p.works = false ∧ p ≠ .start ∧ p.marked = false := by
  cases p with
  | run d q =>
    simp only [left, decide_eq_true_eq] at h
    subst h
    exact ⟨rfl, nofun, rfl⟩
  | ended => exact ⟨rfl, nofun, rfl⟩
  | start => cases h
  | load => cases h
  | failed => cases h

end MonitorPc

def Point.holds : Point → Bool
  | .capture | .loop | .find _ | .notify | .wait | .recapture | .unlock => true
  | _ => false

def ServerPc.holds : ServerPc → Bool
  | .run _ p => p.holds
  | _ => false

/-! ## The shared state -/

/-- The table, the bitmap and the clients belong together. -/
structure Sound (s : Connection Unit) : Prop where
  entry : ∀ i c, s.table i = some c → (s.clients c).index = i ∧ c < s.accepted
  marked : ∀ i : Slot, s.waiting.getLsbD i = true → s.table i ≠ none
  fresh : ∀ c, s.accepted ≤ c → (s.clients c).created = false ∧ (s.clients c).confirmed = false
  closed : ∀ c, (s.clients c).shutdownRequested = true → (s.clients c).confirmed = true

theorem Sound.unique {s : Connection Unit} (h : Sound s) {c : Nat}
    (hc : s.table i = some c) : s.table (s.clients c).index = some c := by
  rw [(h.entry i c hc).1, hc]

/-- Nothing about the thread of a client or its end has changed; requests and
responses may have. -/
structure Client.Same (x x' : Client) : Prop where
  index : x'.index = x.index
  created : x'.created = x.created
  active : x'.active = x.active
  ended : x'.ended = x.ended
  confirmed : x'.confirmed = x.confirmed
  cancelled : x'.cancelled = x.cancelled
  closed : x'.shutdownRequested = x.shutdownRequested

theorem Client.Same.refl {x : Client} : Client.Same x x := ⟨rfl, rfl, rfl, rfl, rfl, rfl, rfl⟩

/-- How a step of `t` may change client `c`, by the fields that matter. -/
structure ClientMove (safe : Nat → Prop) (t : Thread Unit) (s : Connection Unit)
    (c : Nat) (x' : Client) : Prop where
  index : x'.index = (s.clients c).index ∨
    (t = .listener ∧ (s.clients c).created = false ∧ ∀ j, s.table j ≠ some c)
  created : x'.created = (s.clients c).created ∨
    (t = .listener ∧ s.table (s.clients c).index = some c ∧ x'.created = true)
  active : x'.active = (s.clients c).active ∨
    (t = .listener ∧ (s.clients c).confirmed = false ∧ x'.active = true) ∨
    ((s.clients c).confirmed = true ∧ x'.active = false ∧
      (t = .monitor c ∨ (s.clients c).ended = true))
  ended : x'.ended = (s.clients c).ended ∨ (t = .monitor c ∧ x'.ended = true)
  confirmed : x'.confirmed = (s.clients c).confirmed ∨
    (t = .listener ∧ c < s.accepted ∧ x'.confirmed = true ∧
      (s.clients c).active = true ∧ x'.active = true)
  cancelled : x'.cancelled = (s.clients c).cancelled ∨
    ((s.clients c).shutdownRequested = true ∧ safe c)
  closed : x'.shutdownRequested = (s.clients c).shutdownRequested ∨
    ((s.clients c).confirmed = true ∧ x'.shutdownRequested = true ∧ t = .client c)

/-- The entry of `c` is removed. -/
structure Cleared (t : Thread Unit) (s s' : Connection Unit) (i : Slot) (c : Nat) :
    Prop where
  thread : t = .server ()
  clear : s'.waiting.getLsbD i = false
  confirmed : (s.clients c).confirmed = true
  left : (s.clients c).ended = true ∨ (s.clients c).active = false

/-- The entry `i` is filled with `c`. -/
structure Entered (t : Thread Unit) (s s' : Connection Unit) (i : Slot) (c : Nat) :
    Prop where
  thread : t = .listener
  clear : s.waiting.getLsbD i = false
  new : ∀ j, s.table j ≠ some c
  created : (s.clients c).created = false ∧ (s'.clients c).created = false
  index : (s'.clients c).index = i
  accepted : c < s'.accepted

/-- What a step of `t` leaves to the other threads. -/
structure Guarantee (safe : Nat → Prop) (t : Thread Unit) (s s' : Connection Unit) :
    Prop where
  mutex : Changes t s.monitor s'.monitor
  accepted : s.accepted ≤ s'.accepted
  kept : ∀ i c, s.table i = some c → s'.table i = some c ∨ (s'.table i = none ∧ Cleared t s s' i c)
  entered : ∀ i c, s'.table i = some c → s.table i = some c ∨ Entered t s s' i c
  waiting : ∀ i : Slot, s'.waiting.getLsbD i = s.waiting.getLsbD i ∨
    ∃ c, t = .monitor c ∧ s.table i = some c
  clients : ∀ c, ClientMove safe t s c (s'.clients c)

section Moves

variable {safe : Nat → Prop} {t : Thread Unit} {s s' : Connection Unit} {c : Nat}

theorem ClientMove.ofSame (h : Client.Same (s.clients c) x') : ClientMove safe t s c x' :=
  ⟨.inl h.index, .inl h.created, .inl h.active, .inl h.ended, .inl h.confirmed,
    .inl h.cancelled, .inl h.closed⟩

theorem ClientMove.refl : ClientMove safe t s c (s.clients c) := .ofSame .refl

theorem ClientMove.index_eq (h : ClientMove safe t s c x') (hc : s.table i = some c) :
    x'.index = (s.clients c).index := by
  rcases h.index with h | ⟨-, -, h⟩
  · exact h
  · exact absurd hc (h i)

theorem ClientMove.closed_of (h : ClientMove safe t s c x')
    (hc : (s.clients c).shutdownRequested = true) : x'.shutdownRequested = true := by
  rcases h.closed with h | h
  · rw [h, hc]
  · exact h.2.1

theorem ClientMove.confirmed_of (h : ClientMove safe t s c x')
    (hc : (s.clients c).confirmed = true) : x'.confirmed = true := by
  rcases h.confirmed with h | h
  · rw [h, hc]
  · exact h.2.2.1

theorem Guarantee.ofShared (hm : Changes t s.monitor s'.monitor)
    (ha : s.accepted ≤ s'.accepted) (ht : s'.table = s.table) (hw : s'.waiting = s.waiting)
    (hc : s'.clients = s.clients) : Guarantee safe t s s' := by
  refine ⟨hm, ha, fun i c h => ?_, fun i c h => ?_, fun i => ?_, fun c => ?_⟩
  · exact .inl (ht ▸ h)
  · exact .inl (ht ▸ h)
  · exact .inl (by rw [hw])
  · rw [hc]
    exact .refl

theorem Guarantee.ofMonitor {m : CondLock (Thread Unit) Condition} (h : Changes t s.monitor m) :
    Guarantee safe t s { s with monitor := m } :=
  .ofShared h (Nat.le_refl _) rfl rfl rfl

theorem Guarantee.refl : Guarantee safe t s s := .ofMonitor (.of_eq rfl)

theorem Guarantee.ofModify {f : Client → Client} (h : ClientMove safe t s c (f (s.clients c))) :
    Guarantee safe t s (s.modify c f) := by
  refine ⟨.of_eq rfl, Nat.le_refl _, fun _ _ h => .inl h, fun _ _ h => .inl h,
    fun _ => .inl rfl, fun d => ?_⟩
  by_cases hd : d = c
  · subst hd
    simpa [Connection.modify] using h
  · simpa [Connection.modify, hd] using ClientMove.refl

theorem Sound.step (h : Sound s) (g : Guarantee safe t s s') : Sound s' where
  entry i c hc := by
    rcases g.entered i c hc with ht | he
    · obtain ⟨hi, hlt⟩ := h.entry i c ht
      exact ⟨((g.clients c).index_eq ht).trans hi, Nat.lt_of_lt_of_le hlt g.accepted⟩
    · exact ⟨he.index, he.accepted⟩
  marked i hw := by
    have kept : ∀ c, s.table i = some c → s'.table i ≠ none := by
      intro c hc
      rcases g.kept i c hc with hk | ⟨-, hk⟩
      · rw [hk]
        exact nofun
      · rw [hk.clear] at hw
        cases hw
    rcases g.waiting i with hi | ⟨c, -, hc⟩
    · rw [hi] at hw
      obtain ⟨c, hc⟩ := ne_none_iff_exists'.mp (h.marked i hw)
      exact kept c hc
    · exact kept c hc
  fresh c hc := by
    obtain ⟨hn, hf⟩ := h.fresh c (Nat.le_trans g.accepted hc)
    constructor
    · rcases (g.clients c).created with h' | ⟨-, ht, -⟩
      · rw [h', hn]
      have := (h.entry _ c ht).2
      have := g.accepted
      omega
    · rcases (g.clients c).confirmed with h' | ⟨-, ht, -⟩
      · rw [h', hf]
      · have := g.accepted
        omega
  closed c hc := by
    have m := g.clients c
    rcases m.closed with h' | h'
    · rw [h'] at hc
      exact m.confirmed_of (h.closed c hc)
    · exact m.confirmed_of h'.1

end Moves

/-! ## What each thread states -/

/-- The monitor of client `c`. -/
structure MonitorOk (c : Nat) (p : MonitorPc) (s : Connection Unit) : Prop where
  own : ∀ d q, p = .run d q → d = c
  notFailed : p ≠ .failed
  start : (s.clients c).created = false → p = .start
  table : (p.works = true ∨ (p = .start ∧ (s.clients c).created = true)) →
    s.table (s.clients c).index = some c
  bit : s.table (s.clients c).index = some c → s.waiting.getLsbD (s.clients c).index = p.marked
  mutex : s.monitor.owner = some (.monitor c) ↔ p.holds = true
  ended : (s.clients c).ended = true ↔ p = .ended
  active : (s.clients c).confirmed = true → (s.clients c).active = false → p.left = true
  leaving : ∀ d, p = .run d .inactive → (s.clients c).shutdownRequested = true
  cancelled : (s.clients c).cancelled = true →
    (s.clients c).shutdownRequested = true ∧ p.committed = false

/-- Entry `j` is among those that the scan has still to visit. -/
def Frame.Ahead (f : Frame) (upper : Bool) (i : Nat) (j : Slot) : Prop :=
  if upper then i ≤ j ∨ j < f.rnd else i ≤ j ∧ j < f.rnd

/-- The clients that were found waiting, and are still to be visited, are in
the table. -/
structure Frame.Valid (f : Frame) (upper : Bool) (i : Nat) (s : Connection Unit) :
    Prop where
  first : upper = true → f.rnd ≤ i
  table : ∀ j : Slot, f.captured.getLsbD j = true → f.Ahead upper i j → s.table j ≠ none

def PointOk (f : Frame) (p : Point) (s : Connection Unit) : Prop :=
  match p with
  | .loop | .unlock | .check =>
    ∀ j : Slot, f.captured.getLsbD j = true → s.table j ≠ none
  | .scan upper i => f.Valid upper i s
  | .get upper i => s.table i ≠ none ∧ f.Valid upper i s
  | .teardown upper i c d =>
    s.table i = some c ∧ (s.clients c).shutdownRequested = true ∧ f.Valid upper i s ∧
      (d = .done → (s.clients c).ended = true ∨ (s.clients c).active = false)
  | _ => True

/-- The server thread. -/
structure ServerOk (p : ServerPc) (s : Connection Unit) : Prop where
  notFailed : p ≠ .failed
  point : ∀ f q, p = .run f q → PointOk f q s
  mutex : s.monitor.owner = some (.server ()) ↔ p.holds = true

def ListenerOk (p : ListenerPc) (s : Connection Unit) : Prop :=
  match p with
  | .insert c _ =>
    c < s.accepted ∧ (s.clients c).created = false ∧
      (s.clients c).confirmed = false ∧ ∀ j, s.table j ≠ some c
  | .create c =>
    c < s.accepted ∧ (s.clients c).created = false ∧
      (s.clients c).confirmed = false ∧ s.table (s.clients c).index = some c
  | .activate c => c < s.accepted ∧ (s.clients c).confirmed = false
  | .confirm c =>
    c < s.accepted ∧ (s.clients c).confirmed = false ∧ (s.clients c).active = true
  | _ => True

def Asserts (t : Thread Unit) (pc : Pc) (s : Connection Unit) : Prop :=
  match t, pc with
  | .listener, .listener p => ListenerOk p s
  | .stopper, .stopper _ => True
  | .server _, .server p => ServerOk p s
  | .monitor c, .monitor p => MonitorOk c p s
  | .client _, .client => True
  | _, _ => False

/-! ## It survives the steps of the others -/

section Stable

variable {safe : Nat → Prop} {t : Thread Unit} {s s' : Connection Unit} {c : Nat}
  (g : Guarantee safe t s s')
include g

theorem MonitorOk.kept (h : MonitorOk c p s) (hp : p.left = false)
    (hc : s.table i = some c) : s'.table i = some c := by
  rcases g.kept i c hc with hk | ⟨-, hk⟩
  · exact hk
  have hl : p.left = true := by
    rcases hk.left with he | ha
    · rw [h.ended.mp he]
      rfl
    · exact h.active hk.confirmed ha
  rw [hp] at hl
  cases hl

theorem MonitorOk.stable (h : MonitorOk c p s) (ht : t ≠ .monitor c)
    (hsafe : safe c → p.committed = false) : MonitorOk c p s' := by
  have m := g.clients c
  have ended_eq : (s'.clients c).ended = (s.clients c).ended :=
    m.ended.resolve_right fun h => ht h.1
  -- the table, for a monitor that is at work
  have table_of : (p.works = true ∨ (p = .start ∧ (s.clients c).created = true)) →
      s'.table (s'.clients c).index = some c := by
    intro hw
    have hc := h.table hw
    rw [m.index_eq hc]
    refine h.kept g ?_ hc
    by_contra hl
    obtain ⟨hn, hn', -⟩ := MonitorPc.not_works_of_left (by simpa using hl)
    rcases hw with hw | hw
    · rw [hn] at hw
      cases hw
    · exact hn' hw.1
  refine ⟨h.own, h.notFailed, ?_, ?_, ?_, ?_, ?_, ?_, ?_, ?_⟩
  · intro hc
    rcases m.created with h' | ⟨-, -, h'⟩
    · exact h.start (h'.symm.trans hc)
    · rw [h'] at hc
      cases hc
  · rintro (hw | ⟨hp, hc⟩)
    · exact table_of (.inl hw)
    rcases m.created with h' | ⟨hl, hi, -⟩
    · exact table_of (.inr ⟨hp, h'.symm.trans hc⟩)
    · rw [m.index_eq hi]
      exact h.kept g (by rw [hp]; rfl) hi
  · intro hc
    rcases g.entered _ c hc with hi | he
    · have hidx := m.index_eq hi
      rw [hidx] at hi ⊢
      rcases g.waiting (s.clients c).index with hw | ⟨d, hd, hi'⟩
      · rw [hw, h.bit hi]
      · rw [hi, some.injEq] at hi'
        exact absurd (hi' ▸ hd) ht
    · -- a new entry: the monitor has not started
      rw [h.start he.created.1]
      rcases g.waiting (s'.clients c).index with hw | ⟨d, hd, -⟩
      · rw [hw, he.clear]
        rfl
      · rw [he.thread] at hd
        cases hd
  · rw [g.mutex.owner_iff ht.symm]
    exact h.mutex
  · rw [ended_eq]
    exact h.ended
  · intro hf ha
    rcases m.active with h' | ⟨-, -, h'⟩ | ⟨-, -, h' | h'⟩
    · rcases m.confirmed with h'' | ⟨-, -, -, -, h''⟩
      · exact h.active (h''.symm.trans hf) (h'.symm.trans ha)
      · rw [h''] at ha
        cases ha
    · rw [h'] at ha
      cases ha
    · exact absurd h' ht
    · rw [h.ended.mp h']
      rfl
  · intro d hp
    exact m.closed_of (h.leaving d hp)
  · intro hc
    rcases m.cancelled with h' | ⟨hcl, h'⟩
    · obtain ⟨hcl, hp⟩ := h.cancelled (h'.symm.trans hc)
      exact ⟨m.closed_of hcl, hp⟩
    · exact ⟨m.closed_of hcl, hsafe h'⟩

section Server

variable (ht : t ≠ .server ())
include ht

theorem Guarantee.kept_of (hc : s.table i = some c) : s'.table i = some c := by
  rcases g.kept i c hc with hk | ⟨-, hk⟩
  · exact hk
  · exact absurd hk.thread ht

theorem Guarantee.ne_none (hc : s.table i ≠ none) : s'.table i ≠ none := by
  obtain ⟨c, hc⟩ := ne_none_iff_exists'.mp hc
  rw [g.kept_of ht hc]
  exact nofun

theorem Frame.Valid.stable {i : Nat} (h : f.Valid upper i s) : f.Valid upper i s' :=
  ⟨h.first, fun j hj ha => g.ne_none ht (h.table j hj ha)⟩

theorem PointOk.stable {p : Point} (h : PointOk f p s) (hs : Sound s) : PointOk f p s' := by
  cases p with
  | loop | unlock | check => exact fun j hj => g.ne_none ht (h j hj)
  | scan upper i => exact Frame.Valid.stable g ht h
  | get upper i => exact ⟨g.ne_none ht h.1, h.2.stable g ht⟩
  | teardown upper i c d =>
    obtain ⟨hc, hcl, hv, hd⟩ := h
    have m := g.clients c
    refine ⟨g.kept_of ht hc, m.closed_of hcl, hv.stable g ht, fun hdone => ?_⟩
    rcases hd hdone with he | ha
    · left
      rcases m.ended with h' | ⟨-, h'⟩
      · exact h'.trans he
      · exact h'
    · right
      rcases m.active with h' | ⟨-, h', -⟩ | ⟨-, h', -⟩
      · exact h'.trans ha
      · rw [hs.closed c hcl] at h'
        cases h'
      · exact h'
  | _ => trivial

theorem ServerOk.stable {p : ServerPc} (h : ServerOk p s) (hs : Sound s) : ServerOk p s' := by
  refine ⟨h.notFailed, fun f q hp => (h.point f q hp).stable g ht hs, ?_⟩
  rw [g.mutex.owner_iff ht.symm]
  exact h.mutex

end Server

theorem ListenerOk.stable {p : ListenerPc} (h : ListenerOk p s) (ht : t ≠ .listener) :
    ListenerOk p s' := by
  have created : ∀ c, (s.clients c).created = false → (s'.clients c).created = false := fun c hc =>
    ((g.clients c).created.resolve_right fun h => ht h.1).trans hc
  have confirmed : ∀ c, (s.clients c).confirmed = false →
      (s'.clients c).confirmed = false := fun c hc =>
    ((g.clients c).confirmed.resolve_right fun h => ht h.1).trans hc
  cases p with
  | insert c i =>
    obtain ⟨hlt, hn, hf, hno⟩ := h
    refine ⟨Nat.lt_of_lt_of_le hlt g.accepted, created c hn, confirmed c hf, ?_⟩
    intro j hj
    rcases g.entered j c hj with h' | h'
    · exact hno j h'
    · exact ht h'.thread
  | create c =>
    obtain ⟨hlt, hn, hf, hc⟩ := h
    refine ⟨Nat.lt_of_lt_of_le hlt g.accepted, created c hn, confirmed c hf, ?_⟩
    rw [(g.clients c).index_eq hc]
    rcases g.kept _ c hc with h' | ⟨-, h'⟩
    · exact h'
    · exact nomatch hf.symm.trans h'.confirmed
  | activate c =>
    exact ⟨Nat.lt_of_lt_of_le h.1 g.accepted, confirmed c h.2⟩
  | confirm c =>
    obtain ⟨hlt, hf, ha⟩ := h
    refine ⟨Nat.lt_of_lt_of_le hlt g.accepted, confirmed c hf, ?_⟩
    rcases (g.clients c).active with h' | ⟨-, -, h'⟩ | ⟨h', -⟩
    · exact h'.trans ha
    · exact h'
    · rw [hf] at h'
      cases h'
  | _ => trivial

theorem Asserts.stable {u : Thread Unit} {pc : Pc} (h : Asserts u pc s) (hs : Sound s)
    (hu : u ≠ t)
    (hsafe : ∀ c p, u = .monitor c → pc = .monitor p → safe c → p.committed = false) :
    Asserts u pc s' := by
  cases u with
  | listener =>
    cases pc with
    | listener p => exact ListenerOk.stable g h hu.symm
    | _ => exact h
  | stopper =>
    cases pc with
    | stopper p => exact trivial
    | _ => exact h
  | server k =>
    cases pc with
    | server p => exact ServerOk.stable g hu.symm h hs
    | _ => exact h
  | monitor c =>
    cases pc with
    | monitor p => exact MonitorOk.stable g h hu.symm (hsafe c p rfl rfl)
    | _ => exact h
  | client c =>
    cases pc with
    | client => exact trivial
    | _ => exact h

end Stable

/-! ## The steps of each thread -/

section Local

variable {safe : Nat → Prop} {s s' : Connection Unit} {a : Act Unit}

@[simp] theorem modify_clients_self (s : Connection Unit) (c : Nat)
    (f : Client → Client) : (s.modify c f).clients c = f (s.clients c) := by
  simp [Connection.modify]

theorem modify_modify (s : Connection Unit) (c : Nat) (f g : Client → Client) :
    (s.modify c f).modify c g = s.modify c fun x => g (f x) := by
  simp [Connection.modify]

variable {c : Nat}

theorem same_modify {f : Client → Client} (h : ∀ x, Client.Same x (f x)) :
    Client.Same (s.clients c) ((s.modify c f).clients c) := by
  rw [modify_clients_self]
  exact h _

theorem listener_local {p p' : ListenerPc} (hs : Sound s) (h : ListenerOk p s)
    (he : listenerStep a p s = some (p', s')) :
    ListenerOk p' s' ∧ Guarantee safe .listener s s' := by
  unfold listenerStep at he
  split at he
  · -- accept
    split at he
    · cases he
      exact ⟨trivial, .ofShared (.of_eq rfl) (Nat.le_refl _) rfl rfl rfl⟩
    cases he
    obtain ⟨hn, hf⟩ := hs.fresh s.accepted (Nat.le_refl _)
    refine ⟨⟨Nat.lt_succ_self _, hn, hf, fun j hj => ?_⟩,
      .ofShared (.of_eq rfl) (Nat.le_succ _) rfl rfl rfl⟩
    exact Nat.lt_irrefl _ (hs.entry j _ hj).2
  · -- insert
    next c i =>
    split at he
    · next hi =>
      split at he
      · cases he
        exact ⟨h, .refl⟩
      next hfree =>
      cases he
      obtain ⟨hlt, hn, hf, hno⟩ := h
      have hclear : s.waiting.getLsbD i = false := by
        by_contra hw
        exact hs.marked ⟨i, hi⟩ (by simpa using hw) hfree
      refine ⟨⟨hlt, by simpa [Connection.modify] using hn,
        by simpa [Connection.modify] using hf, by simp [Connection.modify]⟩, ?_⟩
      refine ⟨.of_eq rfl, Nat.le_refl _, fun j d hd => .inl ?_, fun j d hd => ?_,
        fun _ => .inl rfl, fun d => ?_⟩
      · have hj : j ≠ ⟨i, hi⟩ := by
          rintro rfl
          rw [hfree] at hd
          cases hd
        simpa [hj] using hd
      · by_cases hj : j = ⟨i, hi⟩
        · subst hj
          obtain rfl : c = d := by simpa using hd
          exact .inr ⟨rfl, hclear, hno, ⟨hn, by simpa [Connection.modify] using hn⟩,
            by simp [Connection.modify], hlt⟩
        · exact .inl (by simpa [hj] using hd)
      · by_cases hd : d = c
        · subst hd
          simp only [Connection.modify, update_self]
          exact ⟨.inr ⟨rfl, hn, hno⟩, .inl rfl, .inl rfl, .inl rfl, .inl rfl, .inl rfl, .inl rfl⟩
        · simpa [Connection.modify, hd] using ClientMove.refl
    · cases he
      exact ⟨trivial, .refl⟩
  · -- create
    next c =>
    cases he
    obtain ⟨hlt, hn, hf, hc⟩ := h
    exact ⟨⟨hlt, by simpa using hf⟩, .ofModify ⟨.inl rfl, .inr ⟨rfl, hc, rfl⟩, .inl rfl,
      .inl rfl, .inl rfl, .inl rfl, .inl rfl⟩⟩
  · -- activate
    next c =>
    cases he
    exact ⟨⟨h.1, by simpa using h.2, by simp⟩, .ofModify ⟨.inl rfl, .inl rfl,
      .inr (.inl ⟨rfl, h.2, rfl⟩), .inl rfl, .inl rfl, .inl rfl, .inl rfl⟩⟩
  · -- confirm
    next c =>
    cases he
    exact ⟨trivial, .ofModify ⟨.inl rfl, .inl rfl, .inl rfl, .inl rfl,
      .inr ⟨rfl, h.1, rfl, h.2.2, h.2.2⟩, .inl rfl, .inl rfl⟩⟩
  · -- notify
    cases he
    exact ⟨trivial, .ofMonitor (.of_eq rfl)⟩
  all_goals
    first
    | cases he
    | split at he
      · cases he
        exact ⟨trivial, .ofShared (.of_eq rfl) (Nat.le_refl _) rfl rfl rfl⟩
      · cases he

theorem MonitorOk.go {p q : MonitorPoint} (h : MonitorOk c (.run c p) s) (hp : p ≠ .leave)
    (hq : q ≠ .leave) (ht : s'.table = s.table) (hx : Client.Same (s.clients c) (s'.clients c))
    (hbit : s'.waiting.getLsbD (s.clients c).index = q.marked)
    (hm : s'.monitor.owner = some (.monitor c) ↔ q.holds = true)
    (hleave : q = .inactive → (s.clients c).shutdownRequested = true)
    (hcommit : q.committed = true → p.committed = true ∨ (s.clients c).shutdownRequested = false) :
    MonitorOk c (.run c q) s' := by
  have htab : s.table (s.clients c).index = some c := h.table (.inl (by simp [MonitorPc.works, hp]))
  refine ⟨?_, nofun, ?_, ?_, ?_, hm, ?_, ?_, ?_, ?_⟩
  · rintro d r ⟨⟩
    rfl
  · intro hc
    exact nomatch h.start (hx.created.symm.trans hc)
  · intro _
    rw [ht, hx.index, htab]
  · intro _
    rw [hx.index]
    exact hbit
  · rw [hx.ended, h.ended]
    exact ⟨nofun, nofun⟩
  · intro hf ha
    have := h.active (hx.confirmed.symm.trans hf) (hx.active.symm.trans ha)
    simp [MonitorPc.left, hp] at this
  · rintro d ⟨⟩
    rw [hx.closed]
    exact hleave rfl
  intro hc
  obtain ⟨hcl, hnp⟩ := h.cancelled (hx.cancelled.symm.trans hc)
  refine ⟨hx.closed.trans hcl, ?_⟩
  by_contra hq
  rcases hcommit (by simpa [MonitorPc.committed] using hq) with h' | h'
  · exact nomatch h'.symm.trans hnp
  · exact nomatch h'.symm.trans hcl

theorem MonitorOk.finish (h : MonitorOk c p s)
    (hp : p ≠ .start) (hb : p.marked = false) (hh : p.holds = false) :
    MonitorOk c .ended (s.modify c fun x => { x with ended := true }) := by
  refine ⟨nofun, nofun, ?_, ?_, ?_, ?_, ?_, fun _ _ => rfl, nofun, ?_⟩
  · intro hc
    exact absurd (h.start (by simpa using hc)) hp
  · rintro (hw | ⟨hw, -⟩) <;> cases hw
  · intro hc
    rw [modify_clients_self] at hc ⊢
    exact (h.bit hc).trans hb
  · exact h.mutex.trans (by rw [hh]; exact ⟨nofun, nofun⟩)
  · simp
  · intro hc
    rw [modify_clients_self] at hc ⊢
    exact ⟨(h.cancelled hc).1, rfl⟩

theorem Guarantee.ofEnd (f : Client → Client)
    (hf : ∀ x, Client.Same { x with ended := true } (f x)) :
    Guarantee safe (.monitor c) s (s.modify c f) :=
  .ofModify ⟨.inl (hf _).index, .inl (hf _).created, .inl (hf _).active,
    .inr ⟨rfl, (hf _).ended⟩, .inl (hf _).confirmed, .inl (hf _).cancelled,
    .inl (hf _).closed⟩

theorem Guarantee.ofWaiting {b : BitVec 64} (hc : s.table (s.clients c).index = some c)
    (hb : ∀ i : Slot, i ≠ (s.clients c).index → b.getLsbD i = s.waiting.getLsbD i) :
    Guarantee safe (.monitor c) s { s with waiting := b } := by
  refine ⟨.of_eq rfl, Nat.le_refl _, fun _ _ h => .inl h, fun _ _ h => .inl h,
    fun i => ?_, fun _ => .refl⟩
  by_cases hi : i = (s.clients c).index
  · exact .inr ⟨c, rfl, hi ▸ hc⟩
  · exact .inl (hb i hi)

/-- The loop of the monitor. A cancelled monitor is never on its way to
`monitor_cond`, so it does not end in that wait. -/
theorem monitorLoop_local {d : Nat} {p : MonitorPoint} {p' : MonitorPc}
    (hs : Sound s) (h : MonitorOk c (.run d p) s) (he : monitorLoop c d a p s = some (p', s')) :
    MonitorOk c p' s' ∧ Guarantee safe (.monitor c) s s' := by
  obtain rfl := h.own d p rfl
  unfold monitorLoop at he
  split at he
  · -- readyTest
    split at he
    · cases he
    split at he
    · cases he
      have hf : ∀ x : Client, Client.Same x { x with blocked := true } := fun _ =>
        ⟨rfl, rfl, rfl, rfl, rfl, rfl, rfl⟩
      exact ⟨h.go nofun nofun rfl (same_modify hf) (h.bit (h.table (.inl rfl)))
        h.mutex nofun nofun, .ofModify (.ofSame (hf _))⟩
    · cases he
      exact ⟨h.go nofun nofun rfl .refl (h.bit (h.table (.inl rfl))) h.mutex nofun nofun, .refl⟩
  · -- readySleep, woken
    split at he
    · cases he
    · cases he
      exact ⟨h.go nofun nofun rfl .refl (h.bit (h.table (.inl rfl))) h.mutex nofun nofun, .refl⟩
  · -- readySleep, spurious
    cases he
    have hf : ∀ x : Client, Client.Same x { x with blocked := false } := fun _ =>
      ⟨rfl, rfl, rfl, rfl, rfl, rfl, rfl⟩
    exact ⟨h.go nofun nofun rfl (same_modify hf) (h.bit (h.table (.inl rfl)))
      h.mutex nofun nofun, .ofModify (.ofSame (hf _))⟩
  · -- readySleep, cancelled
    split at he
    · cases he
      have hf : ∀ x : Client, Client.Same x
          { x with blocked := false, abandoned := true } := fun _ =>
        ⟨rfl, rfl, rfl, rfl, rfl, rfl, rfl⟩
      have h' : MonitorOk d (.run d .readySleep) (s.modify d _) :=
        h.go nofun nofun rfl (same_modify hf) (h.bit (h.table (.inl rfl))) h.mutex nofun nofun
      refine ⟨h'.finish nofun rfl rfl, ?_⟩
      rw [modify_modify]
      exact .ofEnd _ fun _ => ⟨rfl, rfl, rfl, rfl, rfl, rfl, rfl⟩
    · cases he
  · -- readyStatus
    split at he
    · next hcl =>
      cases he
      exact ⟨h.go nofun nofun rfl .refl (h.bit (h.table (.inl rfl))) h.mutex
        (fun _ => hcl) nofun, .refl⟩
    · next hcl =>
      cases he
      exact ⟨h.go nofun nofun rfl .refl (h.bit (h.table (.inl rfl))) h.mutex nofun
        fun _ => .inr (by simpa using hcl), .refl⟩
  · -- lock
    obtain ⟨m, hm, ⟨⟩⟩ := map_eq_some_iff.mp he
    refine ⟨h.go nofun nofun rfl .refl (h.bit (h.table (.inl rfl))) ?_ nofun
      fun _ => .inl rfl, .ofMonitor (.of_lock hm)⟩
    obtain ⟨-, rfl⟩ := lock_inv hm
    simp [MonitorPoint.holds]
  · -- mark
    cases he
    refine ⟨h.go nofun nofun rfl .refl ?_ h.mutex nofun fun _ => .inl rfl,
      .ofWaiting (h.table (.inl rfl)) fun i hi => ?_⟩
    · rw [insert_bit, if_pos rfl]
      rfl
    · rw [insert_bit, if_neg hi]
  · -- signal, nobody waits
    obtain ⟨m, hm, ⟨⟩⟩ := map_eq_some_iff.mp he
    have ho := signal_owner hm
    exact ⟨h.go nofun nofun rfl .refl (h.bit (h.table (.inl rfl)))
      (by rw [ho]; exact h.mutex) nofun fun _ => .inl rfl, .ofMonitor (.of_eq ho)⟩
  · -- signal
    obtain ⟨m, hm, ⟨⟩⟩ := map_eq_some_iff.mp he
    have ho := signal_owner hm
    exact ⟨h.go nofun nofun rfl .refl (h.bit (h.table (.inl rfl)))
      (by rw [ho]; exact h.mutex) nofun fun _ => .inl rfl, .ofMonitor (.of_eq ho)⟩
  · -- wait
    cases he
    exact ⟨h.go nofun nofun rfl .refl (h.bit (h.table (.inl rfl))) ⟨nofun, nofun⟩ nofun
      fun _ => .inl rfl, .ofMonitor (.of_wait (h.mutex.mpr rfl))⟩
  · -- sleep, woken
    obtain ⟨m, hm, ⟨⟩⟩ := map_eq_some_iff.mp he
    refine ⟨h.go nofun nofun rfl .refl (h.bit (h.table (.inl rfl))) ?_ nofun nofun,
      .ofMonitor (.of_wake hm)⟩
    obtain ⟨-, -, rfl⟩ := wake_inv hm
    simp [MonitorPoint.holds]
  · -- sleep, spurious
    cases he
    exact ⟨h.go nofun nofun rfl .refl (h.bit (h.table (.inl rfl))) h.mutex nofun
      fun _ => .inl rfl, .ofMonitor (.of_eq rfl)⟩
  · -- sleep, cancelled
    split at he
    · next hc => exact absurd (h.cancelled hc).2 nofun
    · cases he
  · -- unmark
    cases he
    refine ⟨h.go nofun nofun rfl .refl ?_ h.mutex nofun nofun,
      .ofWaiting (h.table (.inl rfl)) fun i hi => ?_⟩
    · rw [remove_bit, if_pos rfl]
      rfl
    · rw [remove_bit, if_neg hi]
  · -- unlock
    cases he
    exact ⟨h.go nofun nofun rfl .refl (h.bit (h.table (.inl rfl))) ⟨nofun, nofun⟩ nofun
      nofun, .ofMonitor (.of_unlock (h.mutex.mpr rfl))⟩
  · -- inactive
    cases he
    have hcl := h.leaving d rfl
    refine ⟨⟨?_, nofun, ?_, nofun, ?_, h.mutex, ?_, fun _ _ => rfl, nofun, ?_⟩,
      .ofModify ⟨.inl rfl, .inl rfl, .inr (.inr ⟨hs.closed d hcl, rfl, .inl rfl⟩),
        .inl rfl, .inl rfl, .inl rfl, .inl rfl⟩⟩
    · rintro _ _ ⟨⟩
      rfl
    · intro hc
      exact nomatch h.start (by simpa using hc)
    · intro _
      rw [modify_clients_self]
      exact h.bit (h.table (.inl rfl))
    · rw [modify_clients_self]
      exact h.ended.trans ⟨nofun, nofun⟩
    · rw [modify_clients_self]
      exact fun hc => ⟨(h.cancelled hc).1, rfl⟩
  · -- leave
    cases he
    exact ⟨h.finish nofun rfl rfl, .ofEnd _ fun _ => ⟨rfl, rfl, rfl, rfl, rfl, rfl, rfl⟩⟩
  · cases he

theorem MonitorOk.enter {q : MonitorPc} (h : MonitorOk c p s)
    (hp : p = .start ∨ p = .load) (hc : (s.clients c).created = true)
    (hq : q = .load ∨ q = .run c .readyTest) : MonitorOk c q s := by
  have htab : s.table (s.clients c).index = some c := by
    rcases hp with rfl | rfl
    · exact h.table (.inr ⟨rfl, hc⟩)
    · exact h.table (.inl rfl)
  have hbit : s.waiting.getLsbD (s.clients c).index = false := by
    rcases hp with rfl | rfl <;> exact h.bit htab
  have hmutex : s.monitor.owner ≠ some (.monitor c) := by
    rcases hp with rfl | rfl <;> exact fun ho => nomatch h.mutex.mp ho
  have hended : (s.clients c).ended ≠ true := by
    rcases hp with rfl | rfl <;> exact fun he => nomatch h.ended.mp he
  have hactive : ¬ ((s.clients c).confirmed = true ∧ (s.clients c).active = false) := by
    rcases hp with rfl | rfl <;> exact fun ha => nomatch h.active ha.1 ha.2
  have hcreated : (s.clients c).created ≠ false := by simp [hc]
  rcases hq with rfl | rfl
  · exact ⟨nofun, nofun, fun h' => absurd h' hcreated, fun _ => htab, fun _ => hbit,
      ⟨fun h' => absurd h' hmutex, nofun⟩, ⟨fun h' => absurd h' hended, nofun⟩,
      fun h1 h2 => absurd ⟨h1, h2⟩ hactive, nofun, fun h' => ⟨(h.cancelled h').1, rfl⟩⟩
  refine ⟨?_, nofun, fun h' => absurd h' hcreated, fun _ => htab, fun _ => hbit,
    ⟨fun h' => absurd h' hmutex, nofun⟩, ⟨fun h' => absurd h' hended, nofun⟩,
    fun h1 h2 => absurd ⟨h1, h2⟩ hactive, nofun, fun h' => ⟨(h.cancelled h').1, rfl⟩⟩
  rintro _ _ ⟨⟩
  rfl

/-- The monitor: the assertion at its start holds, and it finds its client. -/
theorem monitor_local {p' : MonitorPc} (hs : Sound s)
    (h : MonitorOk c p s) (he : monitorStep c a p s = some (p', s')) :
    MonitorOk c p' s' ∧ Guarantee safe (.monitor c) s s' := by
  unfold monitorStep at he
  split at he
  · -- start
    split at he
    · cases he
    next hc =>
    have hc : (s.clients c).created = true := by simpa using hc
    split at he
    · next hb =>
      rw [h.bit (h.table (.inr ⟨rfl, hc⟩))] at hb
      cases hb
    · cases he
      exact ⟨h.enter (.inl rfl) hc (.inl rfl), .refl⟩
  · -- load
    have hc : (s.clients c).created = true := by
      by_contra hn
      exact nomatch h.start (by simpa using hn)
    rw [h.table (.inl rfl)] at he
    cases he
    exact ⟨h.enter (.inr rfl) hc (.inr rfl), .refl⟩
  · exact monitorLoop_local hs h he
  · cases he

theorem Frame.Ahead.of_succ {i : Nat} {j : Slot} (hf : upper = true → f.rnd ≤ i)
    (h : f.Ahead upper (i + 1) j) : f.Ahead upper i j ∧ (j : Nat) ≠ i := by
  cases upper with
  | true =>
    have := hf rfl
    rcases h with h | h
    · exact ⟨.inl (by omega), by omega⟩
    · have : (j : Nat) < f.rnd := h
      exact ⟨.inr h, by omega⟩
  | false => exact ⟨⟨by have := h.1; omega, h.2⟩, by have := h.1; omega⟩

theorem Frame.Valid.next {i : Nat} (h : f.Valid upper i s)
    (ht : ∀ j : Slot, (j : Nat) ≠ i → s'.table j = s.table j) : f.Valid upper (i + 1) s' := by
  refine ⟨fun hu => Nat.le_succ_of_le (h.first hu), fun j hj ha => ?_⟩
  obtain ⟨ha, hne⟩ := ha.of_succ h.first
  rw [ht j hne]
  exact h.table j hj ha

theorem Frame.Valid.drop {i : Nat} (h : f.Valid upper i s) (k : Slot) :
    { f with captured := f.captured &&& ~~~makeMask64 k : Frame }.Valid upper i s := by
  refine ⟨h.first, fun j hj ha => h.table j ?_ ha⟩
  rw [remove_bit] at hj
  split at hj
  · cases hj
  · exact hj

theorem ServerOk.run {q : Point} (hq : PointOk f q s)
    (hm : s.monitor.owner = some (.server ()) ↔ q.holds = true) : ServerOk (.run f q) s := by
  refine ⟨nofun, ?_, hm⟩
  rintro _ _ ⟨⟩
  exact hq

theorem ServerOk.off {p : ServerPc} (h : ServerOk p s) (hp : p.holds = false) :
    s.monitor.owner ≠ some (.server ()) := by
  intro ho
  rw [h.mutex.mp ho] at hp
  cases hp

theorem ServerOk.rest {p : ServerPc} (hp : p = .idle ∨ p = .crashed ∨ ∃ i c m, p = .serving i c m)
    (hm : s.monitor.owner ≠ some (.server ())) : ServerOk p s := by
  rcases hp with rfl | rfl | ⟨i, c, m, rfl⟩ <;>
    exact ⟨nofun, nofun, ⟨fun h => absurd h hm, nofun⟩⟩

theorem scanForRequest_ok {i : Nat} (h : f.Valid upper i s)
    (hm : s.monitor.owner ≠ some (.server ())) : ServerOk (scanForRequest f upper i s) s := by
  have off : ∀ q : Point, q.holds = false →
      (s.monitor.owner = some (.server ()) ↔ q.holds = true) := by
    intro q hq
    rw [hq]
    exact ⟨fun h => absurd h hm, nofun⟩
  unfold scanForRequest
  split
  · next hi =>
    split
    · next hn =>
      split
      · next hb =>
        refine absurd hn (h.table ⟨i, hi.2⟩ hb ?_)
        cases upper with
        | true => exact .inl (Nat.le_refl _)
        | false => exact ⟨Nat.le_refl _, hi.1⟩
      · exact .run (h.next fun _ _ => rfl) (off _ rfl)
    · next c hc =>
      split
      · refine .run ⟨?_, h⟩ (off _ rfl)
        rw [hc]
        exact nofun
      · exact .run (h.next fun _ _ => rfl) (off _ rfl)
  · next hi =>
    split
    · next hu =>
      refine .run ⟨nofun, fun j hj ha => h.table j hj ?_⟩ (off _ rfl)
      rw [hu]
      exact .inr ha.2
    · exact .run trivial (off _ rfl)

/-- A request is taken, the client is found closed, or the next entry is
tried. -/
theorem getReadyRequest_local
    (h : ServerOk (.run f (.get upper i)) s) (he : getReadyRequest f upper i a s = some (p', s')) :
    ServerOk p' s' ∧ Guarantee safe (.server ()) s s' := by
  obtain ⟨-, hv⟩ : _ ∧ f.Valid upper i s := h.point f _ rfl
  unfold getReadyRequest at he
  split at he
  · cases he
    exact ⟨.rest (.inr (.inl rfl)) (h.off rfl), .refl⟩
  next c hc =>
  split at he
  · cases he
  split at he
  · split at he
    · cases he
      exact ⟨.run trivial h.mutex, .ofModify (.ofSame ⟨rfl, rfl, rfl, rfl, rfl, rfl, rfl⟩)⟩
    · cases he
  · split at he
    · next hcl =>
      cases he
      exact ⟨.run ⟨hc, hcl, hv, nofun⟩ h.mutex, .refl⟩
    · split at he
      · cases he
        exact ⟨.run ((hv.drop i).next fun _ _ => rfl) h.mutex, .refl⟩
      · cases he
  · cases he

/-- `teardown_client_connection`, up to its end: the monitor has left when the
entry is about to be removed. -/
theorem teardown_local {d d' : Teardown}
    (hs : Sound s) (hd : d = .cancel → safe c) (h : ServerOk (.run f (.teardown upper i c d)) s)
    (he : teardownClientConnection c d s = some (d', s')) :
    ServerOk (.run f (.teardown upper i c d')) s' ∧ Guarantee safe (.server ()) s s' := by
  obtain ⟨hc, hcl, hv, -⟩ : PointOk f (.teardown upper i c d) s := h.point f _ rfl
  cases d with
  | active =>
    cases he
    refine ⟨.run ⟨hc, hcl, hv, fun hdone => .inr ?_⟩ h.mutex, .refl⟩
    split at hdone
    · cases hdone
    · next ha => simpa using ha
  | cancel =>
    cases he
    exact ⟨.run ⟨hc, by simpa using hcl, ⟨hv.first, hv.table⟩, nofun⟩ h.mutex,
      .ofModify ⟨.inl rfl, .inl rfl, .inl rfl, .inl rfl, .inl rfl, .inr ⟨hcl, hd rfl⟩, .inl rfl⟩⟩
  | join =>
    simp only [teardownClientConnection] at he
    split at he
    · next hended =>
      cases he
      exact ⟨.run ⟨hc, by simpa using hcl, ⟨hv.first, hv.table⟩, fun _ => .inr (by simp)⟩ h.mutex,
        .ofModify ⟨.inl rfl, .inl rfl,
          .inr (.inr ⟨hs.closed c hcl, rfl, .inr hended⟩), .inl rfl, .inl rfl,
          .inl rfl, .inl rfl⟩⟩
    · cases he
  | done => cases he

/-- The entry is removed: the monitor has left, so its bit is clear. -/
theorem cleared_local (hs : Sound s)
    (hmon : ∃ p, MonitorOk c p s) (h : ServerOk (.run f (.teardown upper i c .done)) s) :
    ServerOk (.run f (.scan upper (i + 1))) { s with table := update s.table i none } ∧
      Guarantee safe (.server ()) s { s with table := update s.table i none } := by
  obtain ⟨hc, hcl, hv, hleft⟩ : PointOk f (.teardown upper i c .done) s := h.point f _ rfl
  have hconf := hs.closed c hcl
  have hclear : s.waiting.getLsbD i = false := by
    obtain ⟨p, hp⟩ := hmon
    have hl : p.left = true := by
      rcases hleft rfl with he | ha
      · rw [hp.ended.mp he]
        rfl
      · exact hp.active hconf ha
    have hbit := hp.bit (hs.unique hc)
    rw [(hs.entry i c hc).1] at hbit
    exact hbit.trans (MonitorPc.not_works_of_left hl).2.2
  constructor
  · refine .run (hv.next fun j hj => ?_) h.mutex
    exact update_of_ne (fun h' => hj (congrArg Fin.val h')) _ _
  refine ⟨.of_eq rfl, Nat.le_refl _, fun j d hd => ?_, fun j d hd => .inl ?_,
    fun _ => .inl rfl, fun _ => .refl⟩
  · by_cases hj : j = i
    · subst hj
      obtain rfl : c = d := mem_unique hc hd
      exact .inr ⟨by simp, rfl, hclear, hconf, hleft rfl⟩
    · exact .inl (by simpa [hj] using hd)
  · have hj : j ≠ i := by
      rintro rfl
      simp at hd
    simpa [hj] using hd

variable {ev : List (Event Unit)}

theorem finesseGetRequest_local {q : Point} (hs : Sound s) (hmon : ∀ c, ∃ p, MonitorOk c p s)
    (hsafe : ∀ upper i c, q = .teardown upper i c .cancel → safe c) (h : ServerOk (.run f q) s)
    (he : finesseGetRequest () a f q s = some (ev, p', s')) :
    ServerOk p' s' ∧ Guarantee safe (.server ()) s s' := by
  have hq := h.point f q rfl
  unfold finesseGetRequest at he
  split at he
  · -- lock
    obtain ⟨m, hm, ⟨⟩⟩ := map_eq_some_iff.mp he
    refine ⟨.run trivial ?_, .ofMonitor (.of_lock hm)⟩
    obtain ⟨-, rfl⟩ := lock_inv hm
    simp [Point.holds]
  · -- capture
    cases he
    exact ⟨.run (fun j hj => hs.marked j hj) h.mutex, .refl⟩
  · -- loop
    cases he
    refine ⟨?_, .refl⟩
    split
    · exact .run trivial h.mutex
    · exact .run hq h.mutex
  · -- find
    split at he
    · split at he <;> cases he <;> exact ⟨.run trivial h.mutex, .refl⟩
    · cases he
      exact ⟨.run trivial h.mutex, .refl⟩
  · -- notify
    cases he
    split
    · exact ⟨.run trivial h.mutex, .ofMonitor (.of_eq rfl)⟩
    · exact ⟨.run trivial h.mutex, .refl⟩
  · -- wait
    cases he
    exact ⟨.run trivial ⟨nofun, nofun⟩, .ofMonitor (.of_wait (h.mutex.mpr rfl))⟩
  · -- sleep, woken
    obtain ⟨m, hm, ⟨⟩⟩ := map_eq_some_iff.mp he
    refine ⟨.run trivial ?_, .ofMonitor (.of_wake hm)⟩
    obtain ⟨-, -, rfl⟩ := wake_inv hm
    simp [Point.holds]
  · -- sleep, spurious
    cases he
    exact ⟨.run trivial h.mutex, .ofMonitor (.of_eq rfl)⟩
  · -- recapture
    cases he
    exact ⟨.run (fun j hj => hs.marked j hj) h.mutex, .refl⟩
  · -- unlock
    cases he
    exact ⟨.run hq ⟨nofun, nofun⟩, .ofMonitor (.of_unlock (h.mutex.mpr rfl))⟩
  · -- check
    cases he
    refine ⟨?_, .refl⟩
    split
    · exact .run trivial h.mutex
    split
    · exact .rest (.inr (.inl rfl)) (h.off rfl)
    · exact .run ⟨fun _ => Nat.le_refl _, fun j hj _ => hq j hj⟩ h.mutex
  · -- scan
    cases he
    exact ⟨scanForRequest_ok hq (h.off rfl), .refl⟩
  · -- get
    obtain ⟨⟨p, t⟩, hg, ⟨⟩⟩ := map_eq_some_iff.mp he
    exact getReadyRequest_local h hg
  · -- teardown
    next upper i c d =>
    split at he
    · next hd =>
      subst hd
      cases he
      exact cleared_local hs (hmon c) h
    · obtain ⟨⟨d', t⟩, hg, ⟨⟩⟩ := map_eq_some_iff.mp he
      exact teardown_local hs (fun hd => hsafe upper i c (by rw [hd])) h hg
  · -- finish
    split at he
    · cases he
      exact ⟨.rest (.inl rfl) (h.off rfl), .refl⟩
    split at he
    · next i c m =>
      cases he
      exact ⟨.rest (.inr (.inr ⟨i, c, m, rfl⟩)) (h.off rfl), .refl⟩
    · cases he
      exact ⟨.rest (.inl rfl) (h.off rfl), .refl⟩
  · cases he

theorem server_local {p : ServerPc} (hs : Sound s) (hmon : ∀ c, ∃ p, MonitorOk c p s)
    (hsafe : ∀ f upper i c, p = .run f (.teardown upper i c .cancel) → safe c) (h : ServerOk p s)
    (he : serverStep () a p s = some (ev, p', s')) :
    ServerOk p' s' ∧ Guarantee safe (.server ()) s s' := by
  unfold serverStep at he
  split at he
  · cases he
    exact ⟨.run trivial h.mutex, .refl⟩
  · next f q =>
    exact finesseGetRequest_local hs hmon (fun upper i c hq => hsafe f upper i c (by rw [hq])) h he
  · -- FinesseSendResponse
    have off := h.off rfl
    split at he
    · cases he
      exact ⟨.rest (.inl rfl) off, .refl⟩
    split at he
    · cases he
      exact ⟨.rest (.inr (.inl rfl)) off, .refl⟩
    · cases he
      exact ⟨.rest (.inl rfl) off, .ofModify (.ofSame ⟨rfl, rfl, rfl, rfl, rfl, rfl, rfl⟩)⟩
  · cases he

theorem client_local (he : clientStep c a s = some s') : Guarantee safe (.client c) s s' := by
  unfold clientStep at he
  dsimp only at he
  split at he
  · split at he
    · cases he
      exact .ofModify (.ofSame ⟨rfl, rfl, rfl, rfl, rfl, rfl, rfl⟩)
    · cases he
  · split at he
    · cases he
      exact .ofModify (.ofSame ⟨rfl, rfl, rfl, rfl, rfl, rfl, rfl⟩)
    · cases he
  · split at he
    · next hc =>
      cases he
      exact .ofModify ⟨.inl rfl, .inl rfl, .inl rfl, .inl rfl, .inl rfl, .inl rfl,
        .inr ⟨hc.1, rfl, rfl⟩⟩
    · cases he
  · split at he
    · cases he
      exact .ofModify (.ofSame ⟨rfl, rfl, rfl, rfl, rfl, rfl, rfl⟩)
    · cases he
  · cases he

end Local

end Finesse.Connections
