import Finesse.Comm.Protocol

/-!
# Safety of the message protocol

What the invariant of `Protocol` says to the two parties, for any number of
threads, any interleaving and any contents of the message blocks at the
start:

* `bitmaps_safe`: the request and response bitmaps are disjoint and lie
  within the allocation bitmap, no two live requests own one block, and no
  assertion about a bitmap or a request number fires;
* `region_refines_mailboxes`: the region is 64 independent mailboxes. What
  is marked ready is taken once, by one call, and until then it is in the
  bitmap; a response goes to the call for the request it answers.
-/

namespace Finesse.Comm

open Machine Pool List

variable {θ : Type} [DecidableEq θ]

/-! ## One exchange

A client (thread 0) and a server (thread 1) go once through the protocol. -/

def blankMessage : Message := ⟨0#64, 0, 0, 0, 0, 0, .stale⟩

/-- The client's side up to `FinesseRequestReady`, then the server's. -/
def halfExchange : List (Nat × Act) :=
  (0, .getRequestBuffer finesseNativeMessage finesseNativeReqBaseType) ::
    replicate 6 (0, .next) ++
  (0, .compose) :: (0, .requestReady) :: replicate 7 (0, .next) ++
  (1, .getReadyRequest 0) :: replicate 10 (1, .next) ++
  (1, .serve) :: (1, .responseReady) :: replicate 4 (1, .next)

/-- The client then takes its response and frees the block. -/
def exchange : List (Nat × Act) :=
  halfExchange ++ (0, .getResponse true) :: replicate 5 (0, .next) ++
  (0, .release) :: replicate 3 (0, .next)

theorem exists_run (as : List (Nat × Act)) (tr : List (Event Slot Nat))
    (h : (run (step exec) (initial Nat fun _ => blankMessage) as).map Prod.fst = some tr) :
    ∃ p, run (step exec) (initial Nat fun _ => blankMessage) as = some (tr, p) := by
  obtain ⟨⟨tr', p⟩, hr, rfl⟩ := Option.map_eq_some_iff.mp h
  exact ⟨p, hr⟩

/-! ## Bitmaps -/

/-- The block and the number of the live request at a program counter: from
the swap that allocates the block to the swap that frees it. -/
def Pc.owns : Pc → Option (Slot × Nat)
  | .getStoreHint _ _ i r | .getCheck _ _ i r | .getHeader _ _ i r
  | .allocated i r | .composed i r | .refused i r
  | .readyLoad i r | .readyNumber i r | .readyStoreId i r _ | .readyLock i r
  | .readyTest i r | .readyStore i r _ | .readyUnlock i r | .sent i r
  | .respLock i r _ | .respTest i r _ | .respSleep i r | .respClear i r
  | .respStore i r _ | .respUnlock i r _ | .answered i r
  | .relStoreId i r | .relLoad i r | .relCas i r _ | .relReload i r =>
    some (i, r)
  | _ => none

variable {m : Mailboxes Slot θ} {s : Region θ} {i : Slot} {r : Nat} {t : θ}

omit [DecidableEq θ] in
theorem Mailbox.Out.client {b : Mailbox θ} {c : θ} (h : b.Out c r) : b.client = some (c, r) := by
  rcases h with rfl | ⟨d, rfl⟩ | rfl <;> rfl

omit [DecidableEq θ] in
theorem Asserts.client {pc : Pc}
    (h : Asserts t pc s m) (ho : pc.owns = some (i, r)) : (m.boxes i).client = some (t, r) := by
  cases pc with
  | getStoreHint | getCheck | getHeader | allocated =>
    cases ho
    rw [show m.boxes i = .held t r from h]; rfl
  | composed | readyLoad | readyNumber =>
    cases ho
    rw [show m.boxes i = .held t r from h.1]; rfl
  | readyStoreId | readyLock | readyTest | readyStore =>
    cases ho
    rw [show m.boxes i = .held t r from h.1.1]; rfl
  | refused => exact h.elim
  | readyUnlock | respTest => cases ho; exact Mailbox.Out.client h.1
  | sent | respLock | respSleep => cases ho; exact Mailbox.Out.client h
  | respClear | respStore =>
    cases ho
    rw [show m.boxes i = .response t r from h.1]; rfl
  | respUnlock _ _ status =>
    cases ho
    cases status with
    | true => rw [show m.boxes i = .done t r from h.1]; rfl
    | false => exact Mailbox.Out.client h.1
  | answered | relStoreId | relLoad | relCas | relReload =>
    cases ho
    rw [show m.boxes i = .done t r from h]; rfl
  | _ => cases ho

omit [DecidableEq θ] in
theorem and_eq_zero_of_boxes {a b : BitVec 64} {f g : Slot → Bool}
    (ha : ∀ i : Slot, a.getLsbD i = f i) (hb : ∀ i : Slot, b.getLsbD i = g i)
    (hfg : ∀ i, (f i && g i) = false) : a &&& b = 0#64 := by
  apply BitVec.eq_of_getLsbD_eq
  intro j hj
  rw [BitVec.getLsbD_and, ha ⟨j, hj⟩, hb ⟨j, hj⟩, hfg]
  simp

section

variable {messages : Slot → Message} {as : List (θ × Act)}
  {tr : List (Event Slot θ)} {p : Pool θ Pc (Region θ)}

theorem bitmaps_safe (h : run (step exec) (initial θ messages) as = some (tr, p)) :
    p.shared.requestBitmap &&& p.shared.responseBitmap = 0#64 ∧
    p.shared.requestBitmap &&& ~~~p.shared.allocationBitmap = 0#64 ∧
    p.shared.responseBitmap &&& ~~~p.shared.allocationBitmap = 0#64 ∧
    (∀ t u i r r', (p.pcs t).owns = some (i, r) → (p.pcs u).owns = some (i, r') → t = u) ∧
    (∀ t a, p.pcs t = .failed a → a.ofBitmapOrRequestId = false) := by
  obtain ⟨m, -, hI, hL⟩ := run_sound h
  have hfree : ∀ i : Slot, (~~~p.shared.allocationBitmap).getLsbD i = (m.boxes i).isEmpty := by
    intro i
    rw [BitVec.getLsbD_not, hI.allocated i]
    simp
  refine ⟨?_, ?_, ?_, ?_, ?_⟩
  · refine and_eq_zero_of_boxes hI.requested hI.responded fun i => ?_
    cases m.boxes i <;> rfl
  · refine and_eq_zero_of_boxes hI.requested hfree fun i => ?_
    cases m.boxes i <;> rfl
  · refine and_eq_zero_of_boxes hI.responded hfree fun i => ?_
    cases m.boxes i <;> rfl
  · intro t u i r r' ht hu
    have hc := (hL t).client ht
    rw [(hL u).client hu] at hc
    cases hc
    rfl
  · intro t a ha
    have := hL t
    rw [ha] at this
    exact this

theorem bitmaps_safe_halfExchange : ∃ tr p, run (step exec) (initial Nat fun _ => blankMessage)
      halfExchange = some (tr, p) ∧ tr.length = 4 ∧
    p.shared.requestBitmap &&& p.shared.responseBitmap = 0#64 ∧
    ∀ t a, p.pcs t = .failed a → a.ofBitmapOrRequestId = false := by
  obtain ⟨p, hp⟩ := exists_run halfExchange
    ([⟨0, 0, .alloc 0⟩, ⟨0, 0, .ready 0⟩, ⟨1, 0, .take (.request 0)⟩,
      ⟨1, 0, .respond (.response 0)⟩]) (by decide +kernel)
  obtain ⟨hdisj, -, -, -, hfail⟩ := bitmaps_safe hp
  exact ⟨_, p, hp, rfl, hdisj, hfail⟩

/-! ## Delivery -/

/-- What happened to requests and responses in a run with events `tr` that
ended in `s`. A count is per block and request number. -/
structure Delivered (tr : List (Event Slot θ)) (s : Region θ) : Prop where
  /-- No request is readied twice, in one block or in two. -/
  readyOnce : ∀ i r, Mailboxes.count tr i (.ready r) ≤ 1
  readyBlock : ∀ i j r, 0 < Mailboxes.count tr i (.ready r) →
    0 < Mailboxes.count tr j (.ready r) → i = j
  /-- A readied request was taken by one call, or it is in the bitmap. -/
  taken : ∀ i r, Mailboxes.count tr i (.ready r) = Mailboxes.count tr i (.take (.request r)) +
      if s.requestBitmap.getLsbD i ∧ (s.messages i).payload = .request r
      then 1 else 0
  /-- A response answers a taken request, once. -/
  answered : ∀ i r, Mailboxes.count tr i (.respond (.response r)) ≤
    Mailboxes.count tr i (.take (.request r))
  /-- A response was consumed by one call for its own request, or it is in
  the bitmap. -/
  consumed : ∀ i r, Mailboxes.count tr i (.respond (.response r)) =
    Mailboxes.count tr i (.consume r (.response r)) +
      if s.responseBitmap.getLsbD i ∧ (s.messages i).payload = .response r
      then 1 else 0
  /-- Calls hand over requests to servers and responses to their clients,
  and nothing else. -/
  kinds : ∀ e ∈ tr, (∀ q, e.deed = .take q → ∃ r, q = .request r) ∧
    (∀ q, e.deed = .respond q → ∃ r, q = .response r) ∧
    (∀ r q, e.deed = .consume r q → q = .response r)

omit [DecidableEq θ] in
theorem requestStock_eq (hI : SharedInv s m) (i : Slot)
    (r : Nat) : Mailboxes.requestStock r (m.boxes i) =
      if s.requestBitmap.getLsbD i ∧ (s.messages i).payload = .request r
      then 1 else 0 := by
  have hc := hI.contents i
  rw [hI.requested i]
  cases hb : m.boxes i with
  | request c r' =>
    rw [hb] at hc
    simp [Mailboxes.requestStock, Mailbox.isRequest, hc.2]
  | _ => simp [Mailboxes.requestStock, Mailbox.isRequest]

omit [DecidableEq θ] in
theorem responseStock_eq (hI : SharedInv s m) (i : Slot)
    (r : Nat) : Mailboxes.responseStock r (m.boxes i) =
      if s.responseBitmap.getLsbD i ∧ (s.messages i).payload = .response r
      then 1 else 0 := by
  have hc := hI.contents i
  rw [hI.responded i]
  cases hb : m.boxes i with
  | response c r' =>
    rw [hb] at hc
    simp [Mailboxes.responseStock, Mailbox.isResponse, hc.2]
  | _ => simp [Mailboxes.responseStock, Mailbox.isResponse]

theorem delivered_of_accept (hm : accept Mailboxes.step .initial tr = some m)
    (hI : SharedInv s m) : Delivered tr s := by
  refine ⟨Mailboxes.count_ready_le_one hm, ?_, ?_, ?_, ?_, ?_⟩
  · intro i j r hi hj
    exact Mailboxes.ready_slot_unique hm hi hj
  · intro i r
    rw [Mailboxes.ready_flow hm, requestStock_eq hI]
  · intro i r
    rw [Mailboxes.take_flow hm]
    omega
  · intro i r
    rw [Mailboxes.respond_flow hm, responseStock_eq hI]
  · intro e he
    obtain ⟨b, b', hmove⟩ := Mailboxes.move_of_mem he hm
    generalize e.deed = d at hmove
    cases hmove <;> simp

/-- A waiting request is there to be taken: a call that starts its scan at
the block, alone and before a shutdown, returns the block. -/
theorem getReadyRequest_takes (hidle : p.pcs t = .idle) (hmutex : p.shared.requestMutex = none)
    (hrun : p.shared.shutdownRequested = false) (hbit : p.shared.requestBitmap.getLsbD i = true)
    (hid : (p.shared.messages i).requestId ≠ 0#64) :
    ∃ p', run (step exec) p ((t, .getReadyRequest i) :: replicate 10 (t, .next)) =
      some ([⟨t, i, .take (p.shared.messages i).payload⟩], p') ∧
      p'.pcs t = .taken i := by
  have htest : ¬ (p.shared.requestBitmap &&& makeMask64 i = 0#64) := by
    rw [test_zero, hbit]
    simp
  have hne : p.shared.requestBitmap ≠ 0#64 := by
    intro h
    simp [h] at htest
  have hi : (i : Nat) % 64 = i := Nat.mod_eq_of_lt i.isLt
  obtain ⟨pcs, s⟩ := p
  obtain ⟨rb, rw, rm, pb, pm, l, ab, ri, sd, ms, al⟩ := s
  dsimp only at hidle hmutex hrun hid htest hne
  subst hmutex hrun
  simp [run, step, exec, protocol, hidle, finesseGetReadyRequest,
    Region.lockRequest, Region.unlockRequest, hne, htest, hi, hid]

theorem getResponse_consumes (wait : Bool) (hsent : p.pcs t = .sent i r)
    (hmutex : p.shared.responseMutex = none) (hbit : p.shared.responseBitmap.getLsbD i = true) :
    ∃ p', run (step exec) p ((t, .getResponse wait) :: replicate 5 (t, .next)) =
      some ([⟨t, i, .consume r (p.shared.messages i).payload⟩], p') ∧
      p'.pcs t = .answered i r := by
  have htest : ¬ (p.shared.responseBitmap &&& makeMask64 i = 0#64) := by
    rw [test_zero, hbit]
    simp
  obtain ⟨pcs, s⟩ := p
  obtain ⟨rb, rw, rm, pb, pm, l, ab, ri, sd, ms, al⟩ := s
  dsimp only at hsent hmutex htest
  subst hmutex
  simp [run, step, exec, protocol, hsent, finesseGetResponse,
    Region.lockResponse, Region.unlockResponse, htest]

/-- The region refines a row of mailboxes: its events are moves of them and
its bitmaps show their states, so requests and responses are delivered
once, and what waits can be had. -/
theorem region_refines_mailboxes (h : run (step exec) (initial θ messages) as = some (tr, p)) :
    (∃ m, accept Mailboxes.step .initial tr = some m ∧ ∀ i : Slot,
        p.shared.allocationBitmap.getLsbD i = !(m.boxes i).isEmpty ∧
        p.shared.requestBitmap.getLsbD i = (m.boxes i).isRequest ∧
        p.shared.responseBitmap.getLsbD i = (m.boxes i).isResponse) ∧
    Delivered tr p.shared ∧
    (∀ (t : θ) (i : Slot), p.pcs t = .idle → p.shared.requestMutex = none →
      p.shared.shutdownRequested = false →
      p.shared.requestBitmap.getLsbD i = true →
      ∃ p', run (step exec) p ((t, .getReadyRequest i) :: replicate 10 (t, .next)) =
        some ([⟨t, i, .take (p.shared.messages i).payload⟩], p') ∧
        p'.pcs t = .taken i) ∧
    (∀ (t : θ) (i : Slot) (r : Nat) (wait : Bool), p.pcs t = .sent i r →
      p.shared.responseMutex = none →
      p.shared.responseBitmap.getLsbD i = true →
      ∃ p', run (step exec) p ((t, .getResponse wait) :: replicate 5 (t, .next)) =
        some ([⟨t, i, .consume r (.response r)⟩], p') ∧
        p'.pcs t = .answered i r) := by
  obtain ⟨m, hm, hI, hL⟩ := run_sound h
  refine ⟨⟨m, hm, fun i => ⟨hI.allocated i, hI.requested i, hI.responded i⟩⟩,
    delivered_of_accept hm hI, ?_, ?_⟩
  · intro t i hidle hmutex hrun hbit
    obtain ⟨c, r, -, -, hid⟩ := hI.request_of_bit hbit
    exact getReadyRequest_takes hidle hmutex hrun hbit hid
  intro t i r wait hsent hmutex hbit
  -- the response in the block is the one to this client's request
  have hout : (m.boxes i).Out t r := by
    have := hL t
    rwa [hsent] at this
  have hc := hI.contents i
  rw [hI.response_of_bit hout hbit] at hc
  have := getResponse_consumes wait hsent hmutex hbit
  rwa [hc.2] at this

end

theorem region_refines_mailboxes_exchange : ∃ tr p,
    run (step exec) (initial Nat fun _ => blankMessage)
      exchange = some (tr, p) ∧ tr.length = 6 ∧ Delivered tr p.shared := by
  obtain ⟨p, hp⟩ := exists_run exchange
    ([⟨0, 0, .alloc 0⟩, ⟨0, 0, .ready 0⟩, ⟨1, 0, .take (.request 0)⟩,
      ⟨1, 0, .respond (.response 0)⟩, ⟨0, 0, .consume 0 (.response 0)⟩,
      ⟨0, 0, .release 0⟩]) (by decide +kernel)
  exact ⟨_, p, hp, rfl, (region_refines_mailboxes hp).2.1⟩

end Finesse.Comm
