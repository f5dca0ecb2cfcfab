import Finesse.Comm.Region

/-!
# The region keeps the protocol's invariants

A rely-guarantee argument over the mailboxes of `Lib.Mailbox`. The auxiliary
state is one mailbox per block, moved by the events of the run; `SharedInv`
says that the bitmaps of the region are what the mailboxes say and that a
request or a response on its way lies in its block unharmed, under a non-zero
number.

A thread's assertion (`Asserts`) says which mailbox state its program
counter stands for, and which mutex it holds. What another thread can do to
it is bounded by `Guarantee`: a thread moves mailboxes only by deeds of its
own, writes only into blocks whose mailbox makes it the writer, and leaves a
mutex and the bitmap under it alone while another thread holds the mutex.
-/

namespace Finesse.Comm

open Function Machine Option Pool Mailboxes

variable {θ : Type}

/-- What lies in a block, by the state of its mailbox. -/
def Contents (msg : Message) : Mailbox θ → Prop
  | .request _ r => msg.requestId ≠ 0#64 ∧ msg.payload = .request r
  | .serving _ _ _ => msg.requestId ≠ 0#64
  | .response _ r => msg.requestId ≠ 0#64 ∧ msg.payload = .response r
  | _ => True

/-- The region agrees with the mailboxes. -/
structure SharedInv (s : Region θ) (m : Mailboxes Slot θ) : Prop where
  allocated : ∀ i : Slot, s.allocationBitmap.getLsbD i = !(m.boxes i).isEmpty
  requested : ∀ i : Slot, s.requestBitmap.getLsbD i = (m.boxes i).isRequest
  responded : ∀ i : Slot, s.responseBitmap.getLsbD i = (m.boxes i).isResponse
  contents : ∀ i, Contents (s.messages i) (m.boxes i)
  counter : s.allocations = m.next

/-- Thread `t` serves the request in block `i` and has not answered it. -/
def Serves (t : θ) (i : Slot) (s : Region θ) (m : Mailboxes Slot θ) : Prop :=
  ∃ c r, m.boxes i = .serving c r t ∧ (s.messages i).payload = .request r

/-- Thread `t` has built the answer `p` in block `i`. -/
def Answers (t : θ) (i : Slot) (p : Payload) (s : Region θ) (m : Mailboxes Slot θ) : Prop :=
  ∃ c r, m.boxes i = .serving c r t ∧ (s.messages i).payload = .response r ∧ p = .response r

/-- Thread `t` owns block `i` with its request set up. -/
def Composed (t : θ) (i : Slot) (r : Nat) (s : Region θ) (m : Mailboxes Slot θ) : Prop :=
  m.boxes i = .held t r ∧ (s.messages i).payload = .request r

/-- What holds when thread `t` is at `pc`. -/
def Asserts (t : θ) (pc : Pc) (s : Region θ) (m : Mailboxes Slot θ) : Prop :=
  match pc with
  | .idle | .getLoad .. | .getHint .. | .scanLoad .. | .waitLock
  | .waitSleep | .waitStatus | .takeLock .. => True
  | .getCas _ _ b i | .scanCas _ _ b i => b.getLsbD i = false
  | .failed a => a.ofBitmapOrRequestId = false
  | .refused .. => False
  | .allocated i r | .getStoreHint _ _ i r | .getCheck _ _ i r
  | .getHeader _ _ i r => m.boxes i = .held t r
  | .composed i r | .readyLoad i r | .readyNumber i r => Composed t i r s m
  | .readyStoreId i r id => Composed t i r s m ∧ id ≠ 0#64
  | .readyLock i r => Composed t i r s m ∧ (s.messages i).requestId ≠ 0#64
  | .readyTest i r =>
    Composed t i r s m ∧ (s.messages i).requestId ≠ 0#64 ∧ s.requestMutex = some t
  | .readyStore i r b =>
    Composed t i r s m ∧ (s.messages i).requestId ≠ 0#64 ∧
      s.requestMutex = some t ∧ b = s.requestBitmap
  | .readyUnlock i r => (m.boxes i).Out t r ∧ s.requestMutex = some t
  | .sent i r | .respLock i r _ | .respSleep i r => (m.boxes i).Out t r
  | .respTest i r _ => (m.boxes i).Out t r ∧ s.responseMutex = some t
  | .respClear i r => m.boxes i = .response t r ∧ s.responseMutex = some t
  | .respStore i r b =>
    m.boxes i = .response t r ∧ s.responseMutex = some t ∧ b = s.responseBitmap
  | .respUnlock i r status =>
    (if status then m.boxes i = .done t r else (m.boxes i).Out t r) ∧ s.responseMutex = some t
  | .answered i r | .relStoreId i r | .relLoad i r | .relCas i r _
  | .relReload i r => m.boxes i = .done t r
  | .waitTest | .waitCount | .waitBlock | .waitUncount | .waitUnlock
  | .takeShutdown _ | .takeEmpty _ | .takeOriginal _ | .takeUnlock none =>
    s.requestMutex = some t
  | .takeUp _ original _ | .takeDown _ original _ =>
    s.requestMutex = some t ∧ original = s.requestBitmap
  | .takeClear original i =>
    s.requestMutex = some t ∧ original = s.requestBitmap ∧ original.getLsbD i = true
  | .takeStore original i b =>
    s.requestMutex = some t ∧ b = s.requestBitmap ∧ b.getLsbD i = true ∧ original.getLsbD i = true
  | .takeSanity original i =>
    Serves t i s m ∧ s.requestMutex = some t ∧ original.getLsbD i = true
  | .takeUnlock (some i) => Serves t i s m ∧ s.requestMutex = some t
  | .takeCheckId i | .taken i => Serves t i s m
  | .served i p | .ansLock i p => Answers t i p s m
  | .ansTest i p => Answers t i p s m ∧ s.responseMutex = some t
  | .ansStore i p b =>
    Answers t i p s m ∧ s.responseMutex = some t ∧ b = s.responseBitmap
  | .ansUnlock _ => s.responseMutex = some t

/-- What a step of thread `t` leaves to the others. -/
structure Guarantee (t : θ) (s : Region θ) (m : Mailboxes Slot θ)
    (s' : Region θ) (m' : Mailboxes Slot θ) : Prop where
  request : ∀ u, u ≠ t → s.requestMutex = some u →
    s'.requestMutex = some u ∧ s'.requestBitmap = s.requestBitmap
  response : ∀ u, u ≠ t → s.responseMutex = some u →
    s'.responseMutex = some u ∧ s'.responseBitmap = s.responseBitmap
  boxes : ∀ i, m'.boxes i = m.boxes i ∨ ∃ d, Mailbox.Move t (m.boxes i) d (m'.boxes i)
  contents : ∀ i, (m.boxes i).writer = some t ∨ s'.messages i = s.messages i

/-! ## Assertions survive the steps of other threads -/

namespace Guarantee

variable {t u : θ} {s s' : Region θ} {m m' : Mailboxes Slot θ} {i : Slot} {r : Nat}

variable (g : Guarantee t s m s' m')
include g

theorem box {b : Mailbox θ} (h : m.boxes i = b)
    (hb : ∀ {d b'}, Mailbox.Move t (m.boxes i) d b' → b' = m.boxes i) : m'.boxes i = b := by
  rcases g.boxes i with heq | ⟨d, hd⟩
  · rw [heq, h]
  · rw [hb hd, h]

variable (hu : u ≠ t)
include hu

theorem message (h : (m.boxes i).writer = some u) : s'.messages i = s.messages i :=
  (g.contents i).resolve_left fun hw => hu (mem_unique h hw)

theorem held (h : m.boxes i = .held u r) :
    m'.boxes i = .held u r ∧ s'.messages i = s.messages i :=
  ⟨g.box h fun hd => hd.held hu h, g.message hu (by rw [h]; rfl)⟩

theorem done (h : m.boxes i = .done u r) : m'.boxes i = .done u r := g.box h fun hd => hd.done hu h

theorem responseBox (h : m.boxes i = .response u r) : m'.boxes i = .response u r :=
  g.box h fun hd => hd.response hu h

theorem out (h : (m.boxes i).Out u r) : (m'.boxes i).Out u r := by
  rcases g.boxes i with hb | ⟨d, hd⟩
  · rwa [hb]
  · exact hd.out hu h

theorem serving {c : θ} (h : m.boxes i = .serving c r u) :
    m'.boxes i = .serving c r u ∧ s'.messages i = s.messages i :=
  ⟨g.box h fun hd => hd.serving hu h, g.message hu (by rw [h]; rfl)⟩

theorem composed (h : Composed u i r s m) :
    Composed u i r s' m' ∧ s'.messages i = s.messages i := by
  obtain ⟨hb, hs⟩ := g.held hu h.1
  exact ⟨⟨hb, by rw [hs, h.2]⟩, hs⟩

theorem serves (h : Serves u i s m) : Serves u i s' m' := by
  obtain ⟨c, r, hb, hp⟩ := h
  obtain ⟨hb', hs⟩ := g.serving hu hb
  exact ⟨c, r, hb', by rw [hs, hp]⟩

theorem answers {p : Payload} (h : Answers u i p s m) : Answers u i p s' m' := by
  obtain ⟨c, r, hb, hp⟩ := h
  obtain ⟨hb', hs⟩ := g.serving hu hb
  exact ⟨c, r, hb', by rwa [hs]⟩

end Guarantee

theorem asserts_stable {t u : θ} {pc : Pc} {s s' : Region θ} {m m' : Mailboxes Slot θ} (hu : u ≠ t)
    (g : Guarantee t s m s' m') (h : Asserts u pc s m) : Asserts u pc s' m' := by
  have hreq := g.request u hu
  have hresp := g.response u hu
  cases pc with
  | idle | getLoad | getHint | scanLoad | waitLock | waitSleep | waitStatus
  | takeLock | getCas | scanCas | failed | refused => exact h
  | allocated | getStoreHint | getCheck | getHeader => exact (g.held hu h).1
  | composed | readyLoad | readyNumber => exact (g.composed hu h).1
  | readyStoreId => exact ⟨(g.composed hu h.1).1, h.2⟩
  | readyLock i r =>
    obtain ⟨hc, hs⟩ := g.composed hu h.1
    exact ⟨hc, by rw [hs]; exact h.2⟩
  | readyTest i r =>
    obtain ⟨hc, hs⟩ := g.composed hu h.1
    exact ⟨hc, by rw [hs]; exact h.2.1, (hreq h.2.2).1⟩
  | readyStore i r b =>
    obtain ⟨hc, hs⟩ := g.composed hu h.1
    obtain ⟨hm, hb⟩ := hreq h.2.2.1
    exact ⟨hc, by rw [hs]; exact h.2.1, hm, by rw [hb]; exact h.2.2.2⟩
  | readyUnlock => exact ⟨g.out hu h.1, (hreq h.2).1⟩
  | sent | respLock | respSleep => exact g.out hu h
  | respTest => exact ⟨g.out hu h.1, (hresp h.2).1⟩
  | respClear => exact ⟨g.responseBox hu h.1, (hresp h.2).1⟩
  | respStore i r b =>
    obtain ⟨hm, hb⟩ := hresp h.2.1
    exact ⟨g.responseBox hu h.1, hm, by rw [hb]; exact h.2.2⟩
  | respUnlock i r status =>
    refine ⟨?_, (hresp h.2).1⟩
    cases status with
    | true => exact g.done hu h.1
    | false => exact g.out hu h.1
  | answered | relStoreId | relLoad | relCas | relReload => exact g.done hu h
  | waitTest | waitCount | waitBlock | waitUncount | waitUnlock
  | takeShutdown | takeEmpty | takeOriginal => exact (hreq h).1
  | takeUp | takeDown =>
    obtain ⟨hm, hb⟩ := hreq h.1
    exact ⟨hm, by rw [hb]; exact h.2⟩
  | takeClear =>
    obtain ⟨hm, hb⟩ := hreq h.1
    exact ⟨hm, by rw [hb]; exact h.2.1, h.2.2⟩
  | takeStore =>
    obtain ⟨hm, hb⟩ := hreq h.1
    exact ⟨hm, by rw [hb]; exact h.2.1, h.2.2⟩
  | takeSanity => exact ⟨g.serves hu h.1, (hreq h.2.1).1, h.2.2⟩
  | takeUnlock found =>
    cases found with
    | none => exact (hreq h).1
    | some i => exact ⟨g.serves hu h.1, (hreq h.2).1⟩
  | takeCheckId | taken => exact g.serves hu h
  | served | ansLock => exact g.answers hu h
  | ansTest => exact ⟨g.answers hu h.1, (hresp h.2).1⟩
  | ansStore i p b =>
    obtain ⟨hm, hb⟩ := hresp h.2.1
    exact ⟨g.answers hu h.1, hm, by rw [hb]; exact h.2.2⟩
  | ansUnlock => exact (hresp h).1

/-! ## What a step does to the invariant -/

variable {ev : List (Event Slot θ)} {pc' : Pc} {b : Mailbox θ}

section

variable {t : θ} {s s' : Region θ} {m : Mailboxes Slot θ} {i : Slot}

theorem Region.lockRequest_eq (h : s.lockRequest t = some s') :
    s.requestMutex = none ∧ s' = { s with requestMutex := some t } := by
  simp only [Region.lockRequest] at h
  split at h
  · next hm => exact ⟨hm, (some.inj h).symm⟩
  · cases h

theorem Region.lockResponse_eq (h : s.lockResponse t = some s') :
    s.responseMutex = none ∧ s' = { s with responseMutex := some t } := by
  simp only [Region.lockResponse] at h
  split at h
  · next hm => exact ⟨hm, (some.inj h).symm⟩
  · cases h

/-! A bitmap that a deed leaves alone still fits the mailboxes. -/

theorem SharedInv.keepAllocated (hI : SharedInv s m)
    (h : (m.boxes i).isEmpty = b.isEmpty) (j : Slot) :
    s.allocationBitmap.getLsbD j = if j = i then !b.isEmpty else s.allocationBitmap.getLsbD j := by
  split
  · next hj => rw [hj, hI.allocated i, h]
  · rfl

theorem SharedInv.keepRequested (hI : SharedInv s m)
    (h : (m.boxes i).isRequest = b.isRequest) (j : Slot) :
    s.requestBitmap.getLsbD j = if j = i then b.isRequest else s.requestBitmap.getLsbD j := by
  split
  · next hj => rw [hj, hI.requested i, h]
  · rfl

theorem SharedInv.keepResponded (hI : SharedInv s m)
    (h : (m.boxes i).isResponse = b.isResponse) (j : Slot) :
    s.responseBitmap.getLsbD j = if j = i then b.isResponse else s.responseBitmap.getLsbD j := by
  split
  · next hj => rw [hj, hI.responded i, h]
  · rfl

variable [DecidableEq θ] {pc : Pc}

/-- A step of `t` from `s` to `pc` and `s'` keeps the invariant, establishes
its own assertion and its guarantee, and its events are moves. -/
def Sound (t : θ) (s : Region θ) (m : Mailboxes Slot θ)
    (ev : List (Event Slot θ)) (pc : Pc) (s' : Region θ) : Prop :=
  ∃ m', accept step m ev = some m' ∧ SharedInv s' m' ∧
    Asserts t pc s' m' ∧ Guarantee t s m s' m'

theorem checkMessageType_kind {c y : Nat} {a : Assertion}
    (h : checkMessageType c y = some a) : a.ofBitmapOrRequestId = false := by
  simp only [checkMessageType] at h
  split at h
  · split at h <;> cases h
    rfl
  split at h
  · split at h <;> cases h
    rfl
  · cases h
    rfl

variable (hI : SharedInv s m)
include hI

theorem sound_silent (h : (s'.requestBitmap, s'.responseBitmap, s'.allocationBitmap,
      s'.requestMutex, s'.responseMutex, s'.messages, s'.allocations) =
      (s.requestBitmap, s.responseBitmap, s.allocationBitmap, s.requestMutex, s.responseMutex,
        s.messages, s.allocations))
    (hL : Asserts t pc s' m) : Sound t s m [] pc s' := by
  simp only [Prod.mk.injEq] at h
  obtain ⟨hreq, hresp, halloc, hqm, hpm, hmsg, hall⟩ := h
  refine ⟨m, rfl, ⟨?_, ?_, ?_, ?_, ?_⟩, hL, ⟨?_, ?_, fun _ => .inl rfl, ?_⟩⟩
  · rw [halloc]; exact hI.allocated
  · rw [hreq]; exact hI.requested
  · rw [hresp]; exact hI.responded
  · rw [hmsg]; exact hI.contents
  · rw [hall]; exact hI.counter
  · exact fun u _ hm => ⟨hqm ▸ hm, hreq⟩
  · exact fun u _ hm => ⟨hpm ▸ hm, hresp⟩
  · exact fun _ => .inr (by rw [hmsg])

theorem sound_local (hL : Asserts t pc s m) : Sound t s m [] pc s :=
  sound_silent hI rfl hL

theorem sound_mutex {q p : Option θ}
    (hq : q = s.requestMutex ∨ ∀ u, u ≠ t → s.requestMutex ≠ some u)
    (hp : p = s.responseMutex ∨ ∀ u, u ≠ t → s.responseMutex ≠ some u)
    (hL : Asserts t pc { s with requestMutex := q, responseMutex := p } m) :
    Sound t s m [] pc { s with requestMutex := q, responseMutex := p } := by
  refine ⟨m, rfl, ⟨hI.allocated, hI.requested, hI.responded, hI.contents,
    hI.counter⟩, hL, ⟨?_, ?_, fun _ => .inl rfl, fun _ => .inr rfl⟩⟩
  · intro u hu hm
    rcases hq with rfl | hq
    · exact ⟨hm, rfl⟩
    · exact absurd hm (hq u hu)
  · intro u hu hm
    rcases hp with rfl | hp
    · exact ⟨hm, rfl⟩
    · exact absurd hm (hp u hu)

theorem sound_lockRequest
    (h : ((s.lockRequest t).map fun s => (([] : List (Event Slot θ)), pc, s)) = some (ev, pc', s'))
    (hL : Asserts t pc { s with requestMutex := some t } m) : Sound t s m ev pc' s' := by
  obtain ⟨s1, hs, ⟨⟩⟩ := map_eq_some_iff.mp h
  obtain ⟨hm, rfl⟩ := Region.lockRequest_eq hs
  exact sound_mutex hI (.inr fun u _ => by simp [hm]) (.inl rfl) hL

theorem sound_lockResponse
    (h : ((s.lockResponse t).map fun s => (([] : List (Event Slot θ)), pc, s)) = some (ev, pc', s'))
    (hL : Asserts t pc { s with responseMutex := some t } m) : Sound t s m ev pc' s' := by
  obtain ⟨s1, hs, ⟨⟩⟩ := map_eq_some_iff.mp h
  obtain ⟨hm, rfl⟩ := Region.lockResponse_eq hs
  exact sound_mutex hI (.inl rfl) (.inr fun u _ => by simp [hm]) hL

theorem sound_unlockRequest (hm : s.requestMutex = some t)
    (hL : Asserts t pc s.unlockRequest m) : Sound t s m [] pc s.unlockRequest :=
  sound_mutex hI (.inr fun u hu hc => hu (by simpa [hm] using hc.symm)) (.inl rfl) hL

theorem sound_unlockResponse (hm : s.responseMutex = some t)
    (hL : Asserts t pc s.unlockResponse m) : Sound t s m [] pc s.unlockResponse :=
  sound_mutex hI (.inl rfl) (.inr fun u hu hc => hu (by simpa [hm] using hc.symm)) hL

theorem sound_setMessage {f : Message → Message}
    (hw : (m.boxes i).writer = some t) (hc : Contents (f (s.messages i)) (m.boxes i))
    (hL : Asserts t pc (s.setMessage i f) m) : Sound t s m [] pc (s.setMessage i f) := by
  refine ⟨m, rfl, ⟨hI.allocated, hI.requested, hI.responded, ?_, hI.counter⟩,
    hL, ⟨fun _ _ h => ⟨h, rfl⟩, fun _ _ h => ⟨h, rfl⟩, fun _ => .inl rfl, ?_⟩⟩
  · intro j
    by_cases hj : j = i
    · subst hj
      simpa [Region.setMessage] using hc
    · simpa [Region.setMessage, hj] using hI.contents j
  · intro j
    by_cases hj : j = i
    · exact .inl (hj ▸ hw)
    · exact .inr (by simp [Region.setMessage, hj])

/-- A deed: mailbox `i` moves to `b` and the bitmaps follow it. The bitmap
that changes is the allocation bitmap or lies under a mutex of `t`. -/
theorem sound_deed {d : Deed} {n : Nat}
    (hmove : Mailbox.Move t (m.boxes i) d b)
    (hnext : m.step ⟨t, i, d⟩ = some ⟨update m.boxes i b, n⟩)
    (halloc : ∀ j : Slot, s'.allocationBitmap.getLsbD j =
      if j = i then !b.isEmpty else s.allocationBitmap.getLsbD j)
    (hreq : ∀ j : Slot, s'.requestBitmap.getLsbD j =
      if j = i then b.isRequest else s.requestBitmap.getLsbD j)
    (hresp : ∀ j : Slot, s'.responseBitmap.getLsbD j =
      if j = i then b.isResponse else s.responseBitmap.getLsbD j)
    (hmsg : s'.messages = s.messages) (hcont : Contents (s.messages i) b)
    (hall : s'.allocations = n)
    (hreqm : s'.requestMutex = s.requestMutex ∧
      (s.requestMutex = some t ∨ s'.requestBitmap = s.requestBitmap))
    (hrespm : s'.responseMutex = s.responseMutex ∧
      (s.responseMutex = some t ∨ s'.responseBitmap = s.responseBitmap))
    (hL : Asserts t pc s' ⟨update m.boxes i b, n⟩) :
    Sound t s m [⟨t, i, d⟩] pc s' := by
  refine ⟨_, by simp only [accept, hnext], ⟨?_, ?_, ?_, ?_, hall⟩, hL,
    ⟨?_, ?_, ?_, fun _ => .inr (by rw [hmsg])⟩⟩
  · intro j
    simp only [halloc j, hI.allocated j, update_apply]
    split <;> rfl
  · intro j
    simp only [hreq j, hI.requested j, update_apply]
    split <;> rfl
  · intro j
    simp only [hresp j, hI.responded j, update_apply]
    split <;> rfl
  · intro j
    simp only [hmsg, update_apply]
    split
    · next hj => exact hj ▸ hcont
    · exact hI.contents j
  · intro u hu hm
    refine ⟨hreqm.1 ▸ hm, ?_⟩
    rcases hreqm.2 with ht | hb
    · exact absurd (mem_unique hm ht) hu
    · exact hb
  · intro u hu hm
    refine ⟨hrespm.1 ▸ hm, ?_⟩
    rcases hrespm.2 with ht | hb
    · exact absurd (mem_unique hm ht) hu
    · exact hb
  · intro j
    simp only [update_apply]
    split
    · next hj => exact .inr ⟨d, hj ▸ hmove⟩
    · exact .inl rfl

/-! ## The six functions, one step at a time -/

theorem casAllocate_sound {b : BitVec 64} {won : Nat → Pc} {lost : Pc}
    (h : casAllocate t b i won lost s = (ev, pc, s'))
    (hb : b.getLsbD i = false) (hwon : ∀ r s m, m.boxes i = .held t r → Asserts t (won r) s m)
    (hlost : Asserts t lost s m) : Sound t s m ev pc s' := by
  simp only [casAllocate] at h
  split at h
  · next hcas =>
    -- the swap saw the current bitmap, so the mailbox is empty
    subst hcas
    cases h
    have hempty : m.boxes i = .empty := by
      have := hI.allocated i
      rw [hb] at this
      cases hbox : m.boxes i <;> rw [hbox] at this <;>
        first | rfl | cases this
    have hmove : Mailbox.Move t (m.boxes i) (.alloc m.next) (.held t m.next) := hempty ▸ .alloc _
    rw [hI.counter]
    exact sound_deed hI hmove (step_alloc hmove) (insert_bit _ i)
      (hI.keepRequested (by rw [hempty]; rfl))
      (hI.keepResponded (by rw [hempty]; rfl)) rfl trivial rfl
      ⟨rfl, .inr rfl⟩ ⟨rfl, .inr rfl⟩ (hwon _ _ _ (by simp))
  · cases h
    exact sound_local hI hlost

theorem getRequestBuffer_sound (hL : Asserts t pc s m)
    (h : finesseGetRequestBuffer t pc s = some (ev, pc', s')) : Sound t s m ev pc' s' := by
  unfold finesseGetRequestBuffer at h
  split at h
  · cases h
    exact sound_local hI trivial
  · next c y b =>
    dsimp only at h
    split at h
    · cases h
      exact sound_local hI trivial
    next hb =>
    cases h
    rw [makeMask64, Bitmap.insert_eq_self (Fin.isLt _)] at hb
    exact sound_local hI (by simpa [Asserts] using hb)
  · next c y b i =>
    exact casAllocate_sound hI (some.inj h) hL (fun _ _ _ h => h) trivial
  · next c y index =>
    split at h
    · next hlt =>
      dsimp only at h
      split at h
      · cases h
        exact sound_local hI trivial
      next hb =>
      cases h
      rw [makeMask64, Bitmap.insert_eq_self hlt] at hb
      exact sound_local hI (by simpa [Asserts] using hb)
    · cases h
      exact sound_local hI trivial
  · next c y b i =>
    exact casAllocate_sound hI (some.inj h) hL (fun _ _ _ h => h) trivial
  · cases h
    exact sound_silent hI rfl hL
  · next c y i r =>
    split at h
    · cases h
      exact sound_local hI hL
    next hb =>
    -- a block just allocated is in no other bitmap
    rw [test_zero, hI.requested i] at hb
    have hheld : m.boxes i = .held t r := hL
    simp [hheld, Mailbox.isRequest] at hb
  · next c y i r =>
    have hheld : m.boxes i = .held t r := hL
    split at h
    · next a ha =>
      cases h
      exact sound_local hI (checkMessageType_kind ha)
    · cases h
      refine sound_setMessage hI ?_ ?_ hL
      · rw [hheld]; rfl
      · rw [hheld]; trivial
  · cases h

theorem requestReady_sound (hL : Asserts t pc s m)
    (h : finesseRequestReady t pc s = some (ev, pc', s')) : Sound t s m ev pc' s' := by
  unfold finesseRequestReady at h
  split at h
  · next i r =>
    have hheld : m.boxes i = .held t r := hL.1
    split at h
    · next hb =>
      rw [test_zero, hI.allocated i, hheld] at hb
      cases hb
    · cases h
      exact sound_local hI hL
  · dsimp only at h
    split at h
    · cases h
      exact sound_silent hI rfl hL
    next hid =>
    cases h
    exact sound_silent hI rfl ⟨hL, hid⟩
  · next i r id =>
    have hheld : m.boxes i = .held t r := hL.1.1
    split at h
    · next hid => exact absurd hid hL.2
    cases h
    refine sound_setMessage hI ?_ ?_ ⟨⟨hheld, ?_⟩, ?_⟩
    · rw [hheld]; rfl
    · rw [hheld]; trivial
    · simpa [Region.setMessage] using hL.1.2
    · simpa [Region.setMessage] using hL.2
  · next i r =>
    exact sound_lockRequest hI h ⟨hL.1, hL.2, rfl⟩
  · next i r =>
    have hheld : m.boxes i = .held t r := hL.1.1
    split at h
    · cases h
      exact sound_local hI ⟨hL.1, hL.2.1, hL.2.2, rfl⟩
    next hb =>
    rw [test_zero, hI.requested i, hheld] at hb
    exact absurd rfl hb
  · next i r b =>
    obtain ⟨⟨hheld, hpay⟩, hid, hmutex, hb⟩ := hL
    subst hb
    cases h
    have hmove : Mailbox.Move t (m.boxes i) (.ready r) (.request t r) := hheld ▸ .ready r
    exact sound_deed hI hmove (step_move hmove (by simp))
      (hI.keepAllocated (by rw [hheld]; rfl)) (insert_bit _ i)
      (hI.keepResponded (by rw [hheld]; rfl)) rfl ⟨hid, hpay⟩ hI.counter
      ⟨rfl, .inl hmutex⟩ ⟨rfl, .inr rfl⟩
      ⟨.inl (by simp), hmutex⟩
  · cases h
    exact sound_unlockRequest hI hL.2 hL.1
  · cases h

omit [DecidableEq θ] in
/-- A client that finds its response bit set has its response. -/
theorem SharedInv.response_of_bit {r : Nat} (hout : (m.boxes i).Out t r)
    (hb : s.responseBitmap.getLsbD i = true) : m.boxes i = .response t r := by
  rw [hI.responded i] at hb
  rcases hout with h | ⟨d, h⟩ | h
  · rw [h] at hb; cases hb
  · rw [h] at hb; cases hb
  · exact h

theorem getResponse_sound (hL : Asserts t pc s m)
    (h : finesseGetResponse t pc s = some (ev, pc', s')) : Sound t s m ev pc' s' := by
  unfold finesseGetResponse at h
  split at h
  · next i r wait =>
    exact sound_lockResponse hI h ⟨hL, rfl⟩
  · next i r wait =>
    split at h
    · split at h
      · cases h
        exact sound_unlockResponse hI hL.2 hL.1
      · cases h
        exact sound_local hI ⟨hL.1, hL.2⟩
    · next hb =>
      cases h
      rw [test_zero, Bool.not_eq_false] at hb
      exact sound_local hI ⟨hI.response_of_bit hL.1 hb, hL.2⟩
  · next i r =>
    exact sound_lockResponse hI h ⟨hL, rfl⟩
  · cases h
    exact sound_local hI ⟨hL.1, hL.2, rfl⟩
  · next i r b =>
    obtain ⟨hresp, hmutex, hb⟩ := hL
    subst hb
    cases h
    have hpay : (s.messages i).payload = .response r := by
      have := hI.contents i
      rw [hresp] at this
      exact this.2
    rw [hpay]
    have hmove : Mailbox.Move t (m.boxes i) (.consume r (.response r))
        (.done t r) := hresp ▸ .consume r
    exact sound_deed hI hmove (step_move hmove (by simp))
      (hI.keepAllocated (by rw [hresp]; rfl))
      (hI.keepRequested (by rw [hresp]; rfl)) (remove_bit _ i) rfl trivial
      hI.counter ⟨rfl, .inr rfl⟩ ⟨rfl, .inl hmutex⟩ ⟨by simp, hmutex⟩
  · next i r status =>
    cases h
    refine sound_unlockResponse hI hL.2 ?_
    cases status with
    | true => exact hL.1
    | false => exact hL.1
  · cases h

theorem releaseRequestBuffer_sound (hL : Asserts t pc s m)
    (h : finesseReleaseRequestBuffer t pc s = some (ev, pc', s')) : Sound t s m ev pc' s' := by
  unfold finesseReleaseRequestBuffer at h
  split at h
  · next i r =>
    have hdone : m.boxes i = .done t r := hL
    cases h
    refine sound_setMessage hI ?_ ?_ hL
    · rw [hdone]; rfl
    · rw [hdone]; trivial
  · next i r =>
    have hdone : m.boxes i = .done t r := hL
    dsimp only at h
    split at h
    · next hb =>
      rw [makeMask64, Bitmap.remove_eq_self i.isLt, hI.allocated i, hdone] at hb
      cases hb
    · cases h
      exact sound_local hI hL
  · next i r b =>
    have hdone : m.boxes i = .done t r := hL
    split at h
    · next hcas =>
      subst hcas
      cases h
      have hmove : Mailbox.Move t (m.boxes i) (.release r) .empty := hdone ▸ .release r
      exact sound_deed hI hmove (step_move hmove (by simp))
        (remove_bit _ i) (hI.keepRequested (by rw [hdone]; rfl))
        (hI.keepResponded (by rw [hdone]; rfl)) rfl trivial hI.counter
        ⟨rfl, .inr rfl⟩ ⟨rfl, .inr rfl⟩ trivial
    · cases h
      exact sound_local hI hL
  · cases h
    exact sound_local hI hL
  · cases h

theorem readyRequestWait_sound (hL : Asserts t pc s m)
    (h : finesseReadyRequestWait t pc s = some (ev, pc', s')) : Sound t s m ev pc' s' := by
  unfold finesseReadyRequestWait at h
  split at h
  · exact sound_lockRequest hI h rfl
  · split at h <;> cases h <;> exact sound_local hI hL
  · cases h
    exact sound_silent hI rfl hL
  · cases h
    exact sound_unlockRequest hI hL trivial
  · exact sound_lockRequest hI h rfl
  · cases h
    exact sound_silent hI rfl hL
  · cases h
    exact sound_unlockRequest hI hL trivial
  · cases h
    exact sound_local hI trivial
  · cases h

omit [DecidableEq θ] in
/-- A set request bit is a request waiting in its block. -/
theorem SharedInv.request_of_bit (hb : s.requestBitmap.getLsbD i = true) :
    ∃ c r, m.boxes i = .request c r ∧ (s.messages i).payload = .request r ∧
      (s.messages i).requestId ≠ 0#64 := by
  have hc := hI.contents i
  rw [hI.requested i] at hb
  cases hbox : m.boxes i with
  | request c r =>
    rw [hbox] at hc
    exact ⟨c, r, rfl, hc.2, hc.1⟩
  | _ => rw [hbox] at hb; cases hb

variable (hL : Asserts t pc s m)
include hL

theorem getReadyRequest_sound
    (h : finesseGetReadyRequest t pc s = some (ev, pc', s')) : Sound t s m ev pc' s' := by
  unfold finesseGetReadyRequest at h
  split at h
  · exact sound_lockRequest hI h rfl
  · split at h <;> cases h <;> exact sound_local hI hL
  · split at h <;> cases h <;> exact sound_local hI hL
  · cases h
    exact sound_local hI ⟨hL, rfl⟩
  · next rnd original index =>
    split at h
    · next hlt =>
      split at h
      · cases h
        exact sound_local hI hL
      next hb =>
      cases h
      rw [test_zero _ ⟨index, hlt⟩, Bool.not_eq_false] at hb
      exact sound_local hI ⟨hL.1, hL.2, by rw [hL.2]; exact hb⟩
    · cases h
      exact sound_local hI hL
  · next rnd original index =>
    split at h
    · next hlt =>
      split at h
      · cases h
        exact sound_local hI hL
      next hb =>
      cases h
      rw [test_zero _ ⟨index, hlt.2⟩, Bool.not_eq_false] at hb
      exact sound_local hI ⟨hL.1, hL.2, by rw [hL.2]; exact hb⟩
    · cases h
      exact sound_local hI hL.1
  · cases h
    obtain ⟨hmutex, horig, hb⟩ := hL
    exact sound_local hI ⟨hmutex, rfl, by rw [← horig]; exact hb, hb⟩
  · next original i b =>
    obtain ⟨hmutex, hb, hbit, horig⟩ := hL
    subst hb
    cases h
    obtain ⟨c, r, hreq, hpay, hid⟩ := hI.request_of_bit hbit
    rw [hpay]
    have hmove : Mailbox.Move t (m.boxes i) (.take (.request r))
        (.serving c r t) := hreq ▸ .take c r
    exact sound_deed hI hmove (step_move hmove (by simp))
      (hI.keepAllocated (by rw [hreq]; rfl)) (remove_bit _ i)
      (hI.keepResponded (by rw [hreq]; rfl)) rfl hid hI.counter
      ⟨rfl, .inl hmutex⟩ ⟨rfl, .inr rfl⟩
      ⟨⟨c, r, by simp, hpay⟩, hmutex, horig⟩
  · next original i =>
    split at h
    · next hb =>
      rw [test_zero, hL.2.2] at hb
      cases hb
    · cases h
      exact sound_local hI ⟨hL.1, hL.2.1⟩
  · next found =>
    cases h
    cases found with
    | none => exact sound_unlockRequest hI hL trivial
    | some i => exact sound_unlockRequest hI hL.2 hL.1
  · next i =>
    split at h
    · next hid =>
      -- the block is in service, so its number is still there
      obtain ⟨c, r, hserv, -⟩ := hL
      have hc := hI.contents i
      rw [hserv] at hc
      exact absurd hid hc
    · cases h
      exact sound_local hI hL
  · cases h

theorem responseReady_sound
    (h : finesseResponseReady t pc s = some (ev, pc', s')) : Sound t s m ev pc' s' := by
  unfold finesseResponseReady at h
  split at h
  · exact sound_lockResponse hI h ⟨hL, rfl⟩
  · next i p =>
    split at h
    · cases h
      exact sound_local hI ⟨hL.1, hL.2, rfl⟩
    next hb =>
    obtain ⟨⟨c, r, hserv, -⟩, -⟩ := hL
    rw [test_zero, hI.responded i, hserv] at hb
    exact absurd rfl hb
  · next i p b =>
    obtain ⟨⟨c, r, hserv, hpay, hp⟩, hmutex, hb⟩ := hL
    subst hb hp
    cases h
    have hmove : Mailbox.Move t (m.boxes i) (.respond (.response r))
        (.response c r) := hserv ▸ .respond c r
    have hid : (s.messages i).requestId ≠ 0#64 := by
      have hc := hI.contents i
      rwa [hserv] at hc
    exact sound_deed hI hmove (step_move hmove (by simp))
      (hI.keepAllocated (by rw [hserv]; rfl))
      (hI.keepRequested (by rw [hserv]; rfl)) (insert_bit _ i) rfl
      ⟨hid, hpay⟩ hI.counter ⟨rfl, .inr rfl⟩ ⟨rfl, .inl hmutex⟩ hmutex
  · cases h
    exact sound_unlockResponse hI hL trivial
  · cases h

theorem protocol_sound {a : Act}
    (h : protocol a pc s = some (ev, pc', s')) : Sound t s m ev pc' s' := by
  unfold protocol at h
  split at h
  · cases h; exact sound_local hI trivial
  · cases h; exact sound_local hI trivial
  · cases h; exact sound_local hI trivial
  · cases h
    exact sound_silent hI rfl trivial
  · next i r =>
    have hheld : m.boxes i = .held t r := hL
    cases h
    refine sound_setMessage hI ?_ ?_ ⟨hheld, ?_⟩
    · rw [hheld]; rfl
    · rw [hheld]; trivial
    · simp [Region.setMessage]
  · cases h; exact sound_local hI hL
  · cases h; exact sound_local hI hL
  · cases h; exact sound_local hI hL
  · next i =>
    obtain ⟨c, r, hserv, hpay⟩ := hL
    cases h
    refine sound_setMessage hI ?_ ?_ ⟨c, r, hserv, ?_, ?_⟩
    · rw [hserv]; rfl
    · have hc := hI.contents i
      rw [hserv] at hc ⊢
      exact hc
    · simp [Region.setMessage, hpay, Payload.answer]
    · simp [hpay, Payload.answer]
  · cases h; exact sound_local hI hL
  · cases h

theorem exec_sound {a : Act} (h : exec t a pc s = some (ev, pc', s')) : Sound t s m ev pc' s' := by
  unfold exec at h
  split at h
  all_goals first
    | exact protocol_sound hI hL h
    | exact getRequestBuffer_sound hI hL h
    | exact requestReady_sound hI hL h
    | exact getResponse_sound hI hL h
    | exact releaseRequestBuffer_sound hI hL h
    | exact readyRequestWait_sound hI hL h
    | exact getReadyRequest_sound hI hL h
    | exact responseReady_sound hI hL h

end

theorem sharedInv_initial (messages : Slot → Message) :
    SharedInv (θ := θ) (finesseInitializeMemoryRegion messages) .initial := by
  constructor <;> intros <;>
    simp [finesseInitializeMemoryRegion, Mailboxes.initial, Mailbox.isEmpty,
      Mailbox.isRequest, Mailbox.isResponse, Contents]

variable [DecidableEq θ]

/-- Every interleaving is a run of the mailboxes, and ends with the region
in agreement with them. -/
theorem step_sound {p p' : Pool θ Pc (Region θ)} {m : Mailboxes Slot θ} {a : θ × Act}
    (h : Holds SharedInv Asserts p m) (hs : step exec p a = some (ev, p')) :
    ∃ m', accept step m ev = some m' ∧ Holds SharedInv Asserts p' m' := by
  refine pool_step (P := fun _ _ => True) (G := Guarantee) ?_ ?_ h trivial hs
  · intro p m t a ev pc s hi _ he
    exact exec_sound hi.shared (hi.threads t) he
  · intro t u pc s m s' m' hu _ g hL
    exact asserts_stable hu g hL

theorem run_sound {messages : Slot → Message} {as : List (θ × Act)} {tr : List (Event Slot θ)}
    {p : Pool θ Pc (Region θ)}
    (h : Machine.run (step exec) (initial θ messages) as = some (tr, p)) :
    ∃ m, accept step .initial tr = some m ∧
      Holds SharedInv Asserts p m := by
  have h0 : Holds SharedInv Asserts (initial θ messages) .initial :=
    ⟨sharedInv_initial messages, fun _ => trivial⟩
  exact run_monitor (fun _ _ _ _ _ hi _ hs => step_sound hi hs) h0 h (along_trivial _ _)

end Finesse.Comm
