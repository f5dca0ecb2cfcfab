import Finesse.Lib.Machine

/-!
# Single-message mailboxes

The abstract object behind a slot of shared memory that carries one request
and its response at a time. A client takes an empty mailbox, puts a request
in, and owns the mailbox until it has taken the response out; in between
some server takes the request and answers it. Requests are numbered in the
order in which they come into being, and what travels (`Payload`) names the
request it belongs to.

A deed that does not fit the state of its mailbox is refused. What matters to
the two parties are conservation laws: per mailbox and request, what was put in
is what was taken out plus what is still there (`ready_flow`, `respond_flow`),
and no request number is ever put in twice.
-/

/-- What the two parties leave in a mailbox. -/
inductive Payload where
  | stale
  | request (r : Nat)
  | response (r : Nat)
deriving DecidableEq, Repr

/-- The in-place answer to a request. -/
def Payload.answer : Payload → Payload
  | .request r => .response r
  | p => p

/-- The points at which a mailbox changes hands. -/
inductive Deed where
  | alloc (r : Nat)
  | ready (r : Nat)
  | take (p : Payload)
  | respond (p : Payload)
  | consume (r : Nat) (p : Payload)
  | release (r : Nat)
deriving DecidableEq, Repr

/-- `deed` done to mailbox `slot` by thread `actor`. -/
structure Event (κ θ : Type*) where
  actor : θ
  slot : κ
  deed : Deed
deriving DecidableEq, Repr

/-- A mailbox: `c` is the client that owns it, `r` the request's number and
`d` the server at work on it. -/
inductive Mailbox (θ : Type*) where
  | empty
  | held (c : θ) (r : Nat)
  | request (c : θ) (r : Nat)
  | serving (c : θ) (r : Nat) (d : θ)
  | response (c : θ) (r : Nat)
  | done (c : θ) (r : Nat)
deriving DecidableEq, Repr

namespace Mailbox

variable {θ : Type*}

/-- Everything a deed can do. -/
inductive Move (t : θ) : Mailbox θ → Deed → Mailbox θ → Prop where
  | alloc (r : Nat) : Move t .empty (.alloc r) (.held t r)
  | ready (r : Nat) : Move t (.held t r) (.ready r) (.request t r)
  | take (c : θ) (r : Nat) :
      Move t (.request c r) (.take (.request r)) (.serving c r t)
  | respond (c : θ) (r : Nat) :
      Move t (.serving c r t) (.respond (.response r)) (.response c r)
  | consume (r : Nat) :
      Move t (.response t r) (.consume r (.response r)) (.done t r)
  | release (r : Nat) : Move t (.done t r) (.release r) .empty

def isEmpty : Mailbox θ → Bool
  | .empty => true
  | _ => false

def isRequest : Mailbox θ → Bool
  | .request _ _ => true
  | _ => false

def isResponse : Mailbox θ → Bool
  | .response _ _ => true
  | _ => false

/-- The client's request is out: it may be waiting, in service or answered. -/
def Out (b : Mailbox θ) (c : θ) (r : Nat) : Prop :=
  b = .request c r ∨ (∃ d, b = .serving c r d) ∨ b = .response c r

/-- The thread that may change what lies in the mailbox. -/
def writer : Mailbox θ → Option θ
  | .held c _ => some c
  | .serving _ _ d => some d
  | .done c _ => some c
  | _ => none

/-- The owner of the mailbox and its request. -/
def client : Mailbox θ → Option (θ × Nat)
  | .empty => none
  | .held c r | .request c r | .serving c r _ | .response c r | .done c r =>
    some (c, r)

/-! ## What a deed of one thread leaves to the others -/

section

variable {b b' : Mailbox θ} {t u : θ} {d : Deed} {r : Nat}

variable (h : Move t b d b')
include h

variable (hu : u ≠ t)
include hu

theorem Move.held (hb : b = .held u r) : b' = b := by
  cases h <;> simp_all

theorem Move.done (hb : b = .done u r) : b' = b := by
  cases h <;> simp_all

theorem Move.serving {c : θ} (hb : b = .serving c r u) : b' = b := by
  cases h <;> simp_all

theorem Move.response (hb : b = .response u r) : b' = b := by
  cases h <;> simp_all

theorem Move.out (hb : b.Out u r) : b'.Out u r := by
  cases h <;> simp_all [Out]

end

variable [DecidableEq θ]

/-- One deed of thread `t`, or nothing if the mailbox refuses it. -/
def step (b : Mailbox θ) (t : θ) (d : Deed) : Option (Mailbox θ) :=
  match b, d with
  | .empty, .alloc r => some (.held t r)
  | .held c r, .ready r' =>
    if t = c ∧ r' = r then some (.request c r) else none
  | .request c r, .take p =>
    if p = .request r then some (.serving c r t) else none
  | .serving c r u, .respond p =>
    if t = u ∧ p = .response r then some (.response c r) else none
  | .response c r, .consume r' p =>
    if t = c ∧ r' = r ∧ p = .response r then some (.done c r) else none
  | .done c r, .release r' => if t = c ∧ r' = r then some .empty else none
  | _, _ => none

theorem step_eq_some {b b' : Mailbox θ} {t : θ} {d : Deed} :
    b.step t d = some b' ↔ Move t b d b' := by
  constructor
  · intro h
    unfold step at h
    split at h
    · cases h; exact .alloc _
    · split at h
      · next hc => obtain ⟨rfl, rfl⟩ := hc; cases h; exact .ready _
      · cases h
    · split at h
      · next hc => subst hc; cases h; exact .take _ _
      · cases h
    · split at h
      · next hc => obtain ⟨rfl, rfl⟩ := hc; cases h; exact .respond _ _
      · cases h
    · split at h
      · next hc => obtain ⟨rfl, rfl, rfl⟩ := hc; cases h; exact .consume _
      · cases h
    · split at h
      · next hc => obtain ⟨rfl, rfl⟩ := hc; cases h; exact .release _
      · cases h
    · cases h
  · intro h
    cases h <;> simp [step]

end Mailbox

/-- A row of mailboxes and the number of the next request. -/
structure Mailboxes (κ θ : Type*) where
  boxes : κ → Mailbox θ
  next : Nat

namespace Mailboxes

open Function Machine

section

variable {κ θ : Type*} [DecidableEq κ]

/-- How often `d` was done to mailbox `i`. -/
def count (tr : List (Event κ θ)) (i : κ) (d : Deed) : Nat :=
  tr.countP fun e => decide (e.slot = i ∧ e.deed = d)

theorem count_cons (e : Event κ θ) (tr : List (Event κ θ)) (i : κ) (d : Deed) :
    count (e :: tr) i d = count tr i d + if e.slot = i ∧ e.deed = d then 1 else 0 := by
  simp [count, List.countP_cons]

/-- How often `d` was done to any mailbox. -/
def total (tr : List (Event κ θ)) (d : Deed) : Nat :=
  tr.countP fun e => decide (e.deed = d)

omit [DecidableEq κ] in
theorem total_cons (e : Event κ θ) (tr : List (Event κ θ)) (d : Deed) :
    total (e :: tr) d = total tr d + if e.deed = d then 1 else 0 := by
  simp [total, List.countP_cons]

theorem count_le_total (tr : List (Event κ θ)) (i : κ) (d : Deed) : count tr i d ≤ total tr d :=
  List.countP_mono_left (by simp)

theorem count_add_count_le_total {i j : κ} (hij : i ≠ j) (tr : List (Event κ θ)) (d : Deed) :
    count tr i d + count tr j d ≤ total tr d := by
  induction tr with
  | nil => exact Nat.le_refl 0
  | cons e tr ih =>
    rw [count_cons, count_cons, total_cons]
    by_cases hd : e.deed = d
    · by_cases hi : e.slot = i
      · simp [hi, hd, hij]
        omega
      · simp only [hi, hd, and_true, if_false, if_true]
        split <;> omega
    · simpa [hd] using ih

end

variable {κ θ : Type*} [DecidableEq κ] [DecidableEq θ]

def initial : Mailboxes κ θ := ⟨fun _ => .empty, 0⟩

/-- An event is a deed on its own mailbox; a new request takes the next
number. -/
def step (m : Mailboxes κ θ) (e : Event κ θ) : Option (Mailboxes κ θ) :=
  match (m.boxes e.slot).step e.actor e.deed with
  | none => none
  | some b =>
    match e.deed with
    | .alloc r =>
      if r = m.next then some ⟨update m.boxes e.slot b, m.next + 1⟩
      else none
    | _ => some ⟨update m.boxes e.slot b, m.next⟩

variable {e : Event κ θ}

theorem step_inv {m m' : Mailboxes κ θ} (h : m.step e = some m') :
    ∃ b, Mailbox.Move e.actor (m.boxes e.slot) e.deed b ∧ m'.boxes = update m.boxes e.slot b ∧
      (e.deed = .alloc m.next ∧ m'.next = m.next + 1 ∨
        (∀ r, e.deed ≠ .alloc r) ∧ m'.next = m.next) := by
  simp only [step] at h
  cases hb : (m.boxes e.slot).step e.actor e.deed with
  | none => simp [hb] at h
  | some b =>
    have hmove := Mailbox.step_eq_some.mp hb
    simp only [hb] at h
    split at h
    · next r hr =>
      split at h
      · next hn =>
        cases h
        exact ⟨b, hmove, rfl, .inl ⟨by rw [hr, hn], rfl⟩⟩
      · cases h
    · next hr =>
      cases h
      exact ⟨b, hmove, rfl, .inr ⟨fun r hc => hr r hc, rfl⟩⟩

theorem step_alloc {m : Mailboxes κ θ} {t : θ} {i : κ} {b : Mailbox θ}
    (h : Mailbox.Move t (m.boxes i) (.alloc m.next) b) :
    m.step ⟨t, i, .alloc m.next⟩ = some ⟨update m.boxes i b, m.next + 1⟩ := by
  simp only [step, Mailbox.step_eq_some.mpr h, if_true]

theorem step_move {m : Mailboxes κ θ} {t : θ} {i : κ} {d : Deed} {b : Mailbox θ}
    (h : Mailbox.Move t (m.boxes i) d b) (hd : ∀ r, d ≠ .alloc r) :
    m.step ⟨t, i, d⟩ = some ⟨update m.boxes i b, m.next⟩ := by
  simp only [step, Mailbox.step_eq_some.mpr h]

theorem accept_cons {m m' : Mailboxes κ θ}
    {tr : List (Event κ θ)} (h : accept step m (e :: tr) = some m') :
    ∃ m1, m.step e = some m1 ∧ accept step m1 tr = some m' := by
  simp only [accept] at h
  split at h
  · cases h
  · next m1 hm => exact ⟨m1, hm, h⟩

/-! ## Conservation laws -/

/-- A stock that one deed fills and one deed drains is conserved. -/
theorem flow (stock : Mailbox θ → Nat) (fill drain : Deed)
    (hmove : ∀ t b d b', Mailbox.Move t b d b' → stock b + (if d = fill then 1 else 0) =
        (if d = drain then 1 else 0) + stock b')
    {tr : List (Event κ θ)} (i : κ) : ∀ {m m' : Mailboxes κ θ}, accept step m tr = some m' →
      stock (m.boxes i) + count tr i fill = count tr i drain + stock (m'.boxes i) := by
  induction tr with
  | nil =>
    intro m m' h
    cases h
    exact Nat.add_comm _ _
  | cons e tr ih =>
    intro m m' h
    obtain ⟨m1, hm1, htr⟩ := accept_cons h
    obtain ⟨b, hb, hboxes, -⟩ := step_inv hm1
    have hrest := ih htr
    rw [count_cons, count_cons]
    by_cases hi : e.slot = i
    · subst hi
      have hone := hmove _ _ _ _ hb
      rw [hboxes, update_self] at hrest
      simp only [true_and]
      omega
    · rw [hboxes, update_of_ne (Ne.symm hi)] at hrest
      simp only [hi, false_and, if_false]
      omega

def heldStock (r : Nat) : Mailbox θ → Nat
  | .held _ r' => if r' = r then 1 else 0
  | _ => 0

def requestStock (r : Nat) : Mailbox θ → Nat
  | .request _ r' => if r' = r then 1 else 0
  | _ => 0

def servingStock (r : Nat) : Mailbox θ → Nat
  | .serving _ r' _ => if r' = r then 1 else 0
  | _ => 0

def responseStock (r : Nat) : Mailbox θ → Nat
  | .response _ r' => if r' = r then 1 else 0
  | _ => 0

section

variable {tr : List (Event κ θ)} {m : Mailboxes κ θ}

variable (h : accept step initial tr = some m)
include h

theorem alloc_flow (i : κ)
    (r : Nat) : count tr i (.alloc r) = count tr i (.ready r) + heldStock r (m.boxes i) := by
  have := flow (heldStock r) (.alloc r) (.ready r)
    (by intro t b d b' hm; cases hm <;> simp [heldStock]) i h
  simpa [initial, heldStock] using this

theorem ready_flow (i : κ) (r : Nat) : count tr i (.ready r) =
      count tr i (.take (.request r)) + requestStock r (m.boxes i) := by
  have := flow (requestStock r) (.ready r) (.take (.request r))
    (by intro t b d b' hm; cases hm <;> simp [requestStock]) i h
  simpa [initial, requestStock] using this

theorem take_flow (i : κ) (r : Nat) : count tr i (.take (.request r)) =
      count tr i (.respond (.response r)) + servingStock r (m.boxes i) := by
  have := flow (servingStock r) (.take (.request r)) (.respond (.response r))
    (by intro t b d b' hm; cases hm <;> simp [servingStock]) i h
  simpa [initial, servingStock] using this

theorem respond_flow (i : κ) (r : Nat) : count tr i (.respond (.response r)) =
      count tr i (.consume r (.response r)) + responseStock r (m.boxes i) := by
  have := flow (responseStock r) (.respond (.response r)) (.consume r (.response r))
    (by intro t b d b' hm; cases hm <;> simp [responseStock]) i h
  simpa [initial, responseStock] using this

end

/-! ## Request numbers are used once -/

theorem total_alloc_of_lt {tr : List (Event κ θ)} {r : Nat} :
    ∀ {m m' : Mailboxes κ θ}, accept step m tr = some m' →
      r < m.next → total tr (.alloc r) = 0 := by
  induction tr with
  | nil => intros; rfl
  | cons e tr ih =>
    intro m m' h hr
    obtain ⟨m1, hm1, htr⟩ := accept_cons h
    obtain ⟨b, -, -, hnext⟩ := step_inv hm1
    rw [total_cons]
    rcases hnext with ⟨hd, hn⟩ | ⟨hd, hn⟩
    · rw [ih htr (by omega), hd]
      simp
      omega
    · rw [ih htr (by omega)]
      simp [hd r]

theorem total_alloc_le_one {tr : List (Event κ θ)} {r : Nat} :
    ∀ {m m' : Mailboxes κ θ}, accept step m tr = some m' → total tr (.alloc r) ≤ 1 := by
  induction tr with
  | nil => intros; simp [total]
  | cons e tr ih =>
    intro m m' h
    obtain ⟨m1, hm1, htr⟩ := accept_cons h
    obtain ⟨b, -, -, hnext⟩ := step_inv hm1
    rw [total_cons]
    rcases hnext with ⟨hd, hn⟩ | ⟨hd, hn⟩
    · by_cases hr : m.next = r
      · -- this event uses the number up
        rw [total_alloc_of_lt htr (by omega)]
        split <;> omega
      · simp only [hd, Deed.alloc.injEq, hr, if_false]
        exact ih htr
    · simp only [hd r, if_false]
      exact ih htr

section

variable {tr : List (Event κ θ)} {m : Mailboxes κ θ}

theorem count_ready_le_one (h : accept step initial tr = some m)
    (i : κ) (r : Nat) : count tr i (.ready r) ≤ 1 := by
  have hf := alloc_flow h i r
  have hc := count_le_total tr i (.alloc r)
  have ht := total_alloc_le_one (r := r) h
  omega

theorem ready_slot_unique (h : accept step initial tr = some m) {i j : κ} {r : Nat}
    (hi : 0 < count tr i (.ready r)) (hj : 0 < count tr j (.ready r)) : i = j := by
  by_contra hij
  have hfi := alloc_flow h i r
  have hfj := alloc_flow h j r
  have hc := count_add_count_le_total hij tr (.alloc r)
  have ht := total_alloc_le_one (r := r) h
  omega

end

theorem move_of_mem {tr : List (Event κ θ)} (he : e ∈ tr) :
    ∀ {m m' : Mailboxes κ θ}, accept step m tr = some m' →
      ∃ b b', Mailbox.Move e.actor b e.deed b' := by
  induction tr with
  | nil => cases he
  | cons e' tr ih =>
    intro m m' h
    obtain ⟨m1, hm1, htr⟩ := accept_cons h
    rcases List.mem_cons.mp he with rfl | he'
    · obtain ⟨b, hb, -⟩ := step_inv hm1
      exact ⟨_, b, hb⟩
    · exact ih he' htr

end Mailboxes
