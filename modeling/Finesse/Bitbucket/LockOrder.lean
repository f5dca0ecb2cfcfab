import Finesse.Lib.Machine
import Finesse.Lib.RwLock

/-!
# Locking two inodes

`BitbucketLockTwoInodes` locks by the types of the inodes, directories first,
and inodes of one type by their addresses, the higher one first. It compares the
types only one way: if the first argument is of the later type, the addresses
decide as well. So two threads that name a directory and a file in different
orders can each have what the other waits for.

As long as no call is of that kind, every thread waits for an inode that comes
after the one it holds, and there is no circle.
-/

namespace Finesse.Bitbucket

open Function Option Machine

/-- The types of inodes; a new inode is of unknown type. -/
inductive LockType where
  | dir | file | symlink | devnode | unknown
deriving DecidableEq, Repr

/-- `BITBUCKET_DIR_TYPE` and the others. -/
def LockType.value : LockType → Nat
  | .dir => 0x10
  | .file => 0x11
  | .symlink => 0x12
  | .devnode => 0x13
  | .unknown => 0xFF

/-- `BitbucketLockTwoInodes`: the inode that is locked first and the other one.
An inode is its address. -/
def lockOrder (types : Nat → LockType) (inode1 inode2 : Nat) : Option (Nat × Nat) :=
  -- the assertions
  if inode1 = inode2 ∨ types inode1 = .unknown then none
  else if (types inode1).value < (types inode2).value then some (inode1, inode2)
  else if inode1 < inode2 then some (inode2, inode1)
  else some (inode1, inode2)

/-- The order that is meant: by type, and by address downwards. -/
def Before (types : Nat → LockType) (i j : Nat) : Prop :=
  (types i).value < (types j).value ∨ (types i).value = (types j).value ∧ j < i

instance (types : Nat → LockType) : IsStrictOrder Nat (Before types) where
  irrefl i h := by
    rcases h with h | h
    · exact Nat.lt_irrefl _ h
    · exact Nat.lt_irrefl _ h.2
  trans i j k h h' := by
    rw [Before] at h h' ⊢
    omega

/-- The first argument is of a known type, and if it is of the later type then it
has the lower address. -/
def Aligned (types : Nat → LockType) (i j : Nat) : Prop :=
  types i ≠ .unknown ∧ ((types j).value < (types i).value → i < j)

instance (types : Nat → LockType) (i j : Nat) : Decidable (Aligned types i j) :=
  inferInstanceAs (Decidable (_ ∧ _))

/-- The order does not depend on that of the arguments, and follows the types. -/
def OrderRight (types : Nat → LockType) (i j : Nat) : Prop :=
  ∃ first second, lockOrder types i j = some (first, second) ∧
    lockOrder types j i = some (first, second) ∧
    (types first).value ≤ (types second).value

section Order

variable {types : Nat → LockType} {i j x y : Nat}

theorem lockOrder_eq (h : lockOrder types i j = some (x, y)) : x = i ∧ y = j ∨ x = j ∧ y = i := by
  rw [lockOrder] at h
  split_ifs at h <;> obtain ⟨rfl, rfl⟩ := Prod.mk.inj (some.inj h)
  · exact .inl ⟨rfl, rfl⟩
  · exact .inr ⟨rfl, rfl⟩
  · exact .inl ⟨rfl, rfl⟩

theorem Aligned.before (h : Aligned types i j) (hx : lockOrder types i j = some (x, y)) :
    Before types x y := by
  have halign := h.2
  rw [lockOrder] at hx
  rw [Before]
  split_ifs at hx with hassert htype haddr <;>
    obtain ⟨rfl, rfl⟩ := Prod.mk.inj (some.inj hx)
  · exact .inl htype
  · omega
  · have hne : i ≠ j := fun heq => hassert (.inl heq)
    omega

theorem Aligned.returns (h : Aligned types i j) (hij : i ≠ j) :
    ∃ x y, lockOrder types i j = some (x, y) := by
  have hassert : ¬ (i = j ∨ types i = .unknown) := not_or.mpr ⟨hij, h.1⟩
  rw [lockOrder, if_neg hassert]
  split_ifs
  · exact ⟨i, j, rfl⟩
  · exact ⟨j, i, rfl⟩
  · exact ⟨i, j, rfl⟩

theorem lockOrder_of_not_aligned (hi : types i ≠ .unknown) (hij : i ≠ j)
    (h : ¬ Aligned types i j) : lockOrder types i j = some (i, j) ∧
      (types j).value < (types i).value := by
  have hmis : (types j).value < (types i).value ∧ ¬ i < j := by
    simpa [Aligned, hi] using h
  refine ⟨?_, hmis.1⟩
  rw [lockOrder, if_neg (not_or.mpr ⟨hij, hi⟩), if_neg (Nat.not_lt.mpr (Nat.le_of_lt hmis.1)),
    if_neg hmis.2]

theorem orderRight_iff (hij : i ≠ j) :
    OrderRight types i j ↔ Aligned types i j ∧ Aligned types j i := by
  constructor
  · rintro ⟨x, y, hx, hy, hle⟩
    have hknown : ∀ {i j}, lockOrder types i j = some (x, y) → types i ≠ .unknown := by
      intro i j h hu
      rw [lockOrder, if_pos (.inr hu)] at h
      cases h
    have halign : ∀ {i j}, i ≠ j → lockOrder types i j = some (x, y) →
        Aligned types i j := by
      intro i j hij h
      by_contra hno
      obtain ⟨heq, hlt⟩ := lockOrder_of_not_aligned (hknown h) hij hno
      obtain ⟨rfl, rfl⟩ := Prod.mk.inj (mem_unique heq h)
      exact Nat.not_le.mpr hlt hle
    exact ⟨halign hij hx, halign hij.symm hy⟩
  · rintro ⟨hi, hj⟩
    obtain ⟨x, y, hx⟩ := hi.returns hij
    obtain ⟨x', y', hx'⟩ := hj.returns hij.symm
    have hb := hi.before hx
    have hb' := hj.before hx'
    have hsame : x' = x ∧ y' = y := by
      rcases lockOrder_eq hx with ⟨rfl, rfl⟩ | ⟨rfl, rfl⟩ <;>
        rcases lockOrder_eq hx' with ⟨rfl, rfl⟩ | ⟨rfl, rfl⟩
      · exact absurd (trans_of (Before types) hb hb') (irrefl_of (Before types) _)
      · exact ⟨rfl, rfl⟩
      · exact ⟨rfl, rfl⟩
      · exact absurd (trans_of (Before types) hb hb') (irrefl_of (Before types) _)
    obtain ⟨rfl, rfl⟩ := hsame
    refine ⟨x', y', hx, hx', ?_⟩
    rcases hb with hb | hb
    · exact Nat.le_of_lt hb
    · exact Nat.le_of_eq hb.1

end Order

/-! ## Threads -/

/-- Where a thread is: before the first lock, before the second one, with both
locks, or with one that is left. -/
inductive LockPhase where
  | idle
  | first (x y : Nat) (exclusive : Bool)
  | second (x y : Nat) (exclusive : Bool)
  | both (x y : Nat)
  | one (x : Nat)
deriving DecidableEq, Repr

namespace LockPhase

/-- The lock that a thread is about to take. -/
def wanted : LockPhase → Option (Nat × Bool)
  | .first x _ exclusive => some (x, exclusive)
  | .second _ y exclusive => some (y, exclusive)
  | _ => none

/-- The locks that a thread has. -/
def held : LockPhase → List Nat
  | .second x _ _ | .one x => [x]
  | .both x y => [x, y]
  | _ => []

end LockPhase

/-- The threads and the locks of the inodes. -/
structure LockThreads (θ : Type) where
  phase : θ → LockPhase
  lock : Nat → RwLock θ

/-- What a thread does next: call the function, take the lock it is at, or
unlock one of its inodes. -/
inductive LockAct where
  | call (inode1 inode2 : Nat) (exclusive : Bool)
  | acquire
  | unlock (inode : Nat)
deriving DecidableEq, Repr

namespace LockThreads

variable {θ : Type} [DecidableEq θ]

def initial : LockThreads θ := ⟨fun _ => .idle, fun _ => .free⟩

/-- The thread `t` is at `p`. -/
def goto (s : LockThreads θ) (t : θ) (p : LockPhase) : LockThreads θ :=
  { s with phase := update s.phase t p }

def setLock (s : LockThreads θ) (i : Nat) (l : RwLock θ) : LockThreads θ :=
  { s with lock := update s.lock i l }

/-- `BitbucketLockInode`: a thread takes the lock of `i`, if it can be had, and
goes on. -/
def take (s : LockThreads θ) (t : θ) (i : Nat) (exclusive : Bool) (p : LockPhase) :
    Option (List Unit × LockThreads θ) :=
  ((s.lock i).acquire t exclusive).map fun l => ([], (s.setLock i l).goto t p)

/-- One step of one thread. -/
def step (types : Nat → LockType) (s : LockThreads θ) (input : θ × LockAct) :
    Option (List Unit × LockThreads θ) :=
  let t := input.1
  match s.phase t, input.2 with
  | .idle, .call inode1 inode2 exclusive =>
    (lockOrder types inode1 inode2).map fun order =>
      ([], s.goto t (.first order.1 order.2 exclusive))
  | .first x y exclusive, .acquire => s.take t x exclusive (.second x y exclusive)
  | .second x y exclusive, .acquire => s.take t y exclusive (.both x y)
  | .both x y, .unlock i =>
    if i = x then some ([], (s.setLock x ((s.lock x).unlock t)).goto t (.one y))
    else if i = y then some ([], (s.setLock y ((s.lock y).unlock t)).goto t (.one x))
    else none
  | .one x, .unlock i =>
    if i = x then some ([], (s.setLock x ((s.lock x).unlock t)).goto t .idle) else none
  | _, _ => none

/-- The arguments of a call are aligned. -/
def CallsAligned (types : Nat → LockType) (_ : LockThreads θ) : θ × LockAct → Prop
  | (_, .call inode1 inode2 _) => Aligned types inode1 inode2
  | _ => True

/-- The thread waits for the lock of `i`. -/
def Wants (s : LockThreads θ) (t : θ) (i : Nat) : Prop :=
  ∃ exclusive, (s.phase t).wanted = some (i, exclusive) ∧ (s.lock i).acquire t exclusive = none

/-- The thread holds the lock of `i`. -/
def Holds (s : LockThreads θ) (t : θ) (i : Nat) : Prop := 0 < (s.lock i).holdings t

instance (s : LockThreads θ) (t : θ) (i : Nat) : Decidable (s.Holds t i) :=
  Nat.decLt 0 ((s.lock i).holdings t)

/-- Some threads wait for each other in a circle. -/
def CircularWait (s : LockThreads θ) : Prop :=
  ∃ t, Relation.TransGen (WaitsFor s.Wants s.Holds) t t

end LockThreads

/-- Two locks are taken in the order that is meant. -/
def LockPhase.Ordered (types : Nat → LockType) : LockPhase → Prop
  | .first x y _ | .second x y _ | .both x y => Before types x y
  | _ => True

namespace LockThreads

variable {θ : Type} [DecidableEq θ] {types : Nat → LockType} {s s' : LockThreads θ} {t : θ}

/-- What a step on the lock of `i` may do to the thread at `p`. -/
structure Moves (types : Nat → LockType) (t : θ) (i : Nat) (l l' : RwLock θ)
    (p p' : LockPhase) : Prop where
  step : RwLock.Step t l l'
  held : l.holdings t = p.held.count i → l'.holdings t = p'.held.count i
  others : ∀ j, j ≠ i → p'.held.count j = p.held.count j
  ordered : p.Ordered types → p'.Ordered types

theorem Moves.acquire {i : Nat} {exclusive : Bool} {l l' : RwLock θ} {p p' : LockPhase}
    (hl : l.acquire t exclusive = some l') (hheld : p'.held.Perm (i :: p.held))
    (hordered : p.Ordered types → p'.Ordered types) : Moves types t i l l' p p' := by
  refine ⟨.acquire hl, fun h => ?_, fun j hj => ?_, hordered⟩
  · rw [RwLock.holdings_acquire hl, h, hheld.count_eq, List.count_cons_self]
  · rw [hheld.count_eq, List.count_cons_of_ne (Ne.symm hj)]

theorem Moves.unlock {i : Nat} {l : RwLock θ} {p p' : LockPhase}
    (hheld : p.held.Perm (i :: p'.held)) (hordered : p'.Ordered types) :
    Moves types t i l (l.unlock t) p p' := by
  refine ⟨.unlock t l, fun h => ?_, fun j hj => ?_, fun _ => hordered⟩
  · rw [RwLock.holdings_unlock, h, hheld.count_eq, List.count_cons_self, Nat.add_sub_cancel]
  · rw [hheld.count_eq, List.count_cons_of_ne (Ne.symm hj)]

variable {ev : List Unit}

theorem take_inv {i : Nat} {exclusive : Bool} {p : LockPhase}
    (h : s.take t i exclusive p = some (ev, s')) :
    ∃ l, (s.lock i).acquire t exclusive = some l ∧ s' = (s.setLock i l).goto t p := by
  obtain ⟨l, hl, h⟩ := map_eq_some_iff.mp h
  exact ⟨l, hl, (Prod.mk.inj h).2.symm⟩

/-- What a step does: a call puts a thread before its first lock, and every other
step takes or drops one lock. -/
theorem step_inv {a : LockAct} (h : s.step types (t, a) = some (ev, s')) :
    (∃ i j exclusive x y, s.phase t = .idle ∧ a = .call i j exclusive ∧
      lockOrder types i j = some (x, y) ∧ s' = s.goto t (.first x y exclusive)) ∨
    ∃ i l p, s' = (s.setLock i l).goto t p ∧ Moves types t i (s.lock i) l (s.phase t) p := by
  rw [step] at h
  dsimp only at h
  split at h
  · next i j exclusive hp =>
    obtain ⟨⟨x, y⟩, horder, h⟩ := map_eq_some_iff.mp h
    exact .inl ⟨i, j, exclusive, x, y, hp, rfl, horder, (Prod.mk.inj h).2.symm⟩
  · next x y exclusive hp =>
    obtain ⟨l, hl, rfl⟩ := take_inv h
    rw [hp]
    exact .inr ⟨x, l, _, rfl, .acquire hl (.refl _) id⟩
  · next x y exclusive hp =>
    obtain ⟨l, hl, rfl⟩ := take_inv h
    rw [hp]
    exact .inr ⟨y, l, _, rfl, .acquire hl (.swap _ _ _) id⟩
  · next x y i hp =>
    rw [hp]
    split at h
    · obtain ⟨-, rfl⟩ := Prod.mk.inj (some.inj h)
      exact .inr ⟨x, _, _, rfl, .unlock (.refl _) trivial⟩
    split at h
    · obtain ⟨-, rfl⟩ := Prod.mk.inj (some.inj h)
      exact .inr ⟨y, _, _, rfl, .unlock (.swap _ _ _) trivial⟩
    · cases h
  · next x i hp =>
    rw [hp]
    split at h
    · obtain ⟨-, rfl⟩ := Prod.mk.inj (some.inj h)
      exact .inr ⟨x, _, _, rfl, .unlock (.refl _) trivial⟩
    · cases h
  · cases h

/-- The locks are held as the threads are, and taken in order. -/
structure Inv (types : Nat → LockType) (s : LockThreads θ) : Prop where
  holdings : ∀ t i, (s.lock i).holdings t = (s.phase t).held.count i
  ordered : ∀ t, (s.phase t).Ordered types

theorem inv_initial : (initial : LockThreads θ).Inv types := ⟨fun _ _ => rfl, fun _ => trivial⟩

theorem Inv.step {input : θ × LockAct} (h : s.Inv types)
    (hc : CallsAligned types s input) (hx : s.step types input = some (ev, s')) : s'.Inv types := by
  obtain ⟨t, a⟩ := input
  rcases step_inv hx with ⟨i, j, exclusive, x, y, hp, rfl, horder, rfl⟩ | ⟨i, l, p, rfl, hm⟩
  · refine ⟨fun u k => ?_, fun u => ?_⟩
    · by_cases hu : u = t
      · subst hu
        simpa [goto, LockPhase.held, hp] using h.holdings u k
      · simpa [goto, hu] using h.holdings u k
    · by_cases hu : u = t
      · subst hu
        simp only [goto, update_self]
        exact Aligned.before hc horder
      · simpa [goto, hu] using h.ordered u
  · refine ⟨fun u k => ?_, fun u => ?_⟩
    · by_cases hu : u = t
      · subst hu
        by_cases hk : k = i
        · subst hk
          simpa [goto, setLock] using hm.held (h.holdings u k)
        · simpa [goto, setLock, hk, hm.others k hk] using h.holdings u k
      · by_cases hk : k = i
        · subst hk
          simpa [goto, setLock, hu, hm.step.holdings hu] using h.holdings u k
        · simpa [goto, setLock, hu, hk] using h.holdings u k
    · by_cases hu : u = t
      · subst hu
        simpa [goto, setLock] using hm.ordered (h.ordered u)
      · simpa [goto, setLock, hu] using h.ordered u

theorem Inv.before (h : s.Inv types) {i j : Nat} (hi : s.Holds t i) (hj : s.Wants t j) :
    Before types i j := by
  obtain ⟨exclusive, hwanted, -⟩ := hj
  have hmem : i ∈ (s.phase t).held := by
    rw [Holds, h.holdings] at hi
    exact List.count_pos_iff.mp hi
  have hordered := h.ordered t
  cases hp : s.phase t with
  | second x y e =>
    rw [hp] at hwanted hmem hordered
    obtain rfl := List.mem_singleton.mp hmem
    obtain ⟨rfl, -⟩ := Prod.mk.inj (some.inj hwanted)
    exact hordered
  | first x y e =>
    rw [hp] at hmem
    cases hmem
  | idle | both | one =>
    rw [hp] at hwanted
    cases hwanted

theorem Inv.no_circularWait (h : s.Inv types) : ¬ s.CircularWait := by
  rintro ⟨t, hcycle⟩
  exact WaitsFor.acyclic (Before types)
    (fun t i j (hi : s.Holds t i) (hj : s.Wants t j) => h.before hi hj) t hcycle

end LockThreads

/-- Two different inodes are locked in an order that does not depend on the order
of the arguments and follows the types exactly if both ways to call are aligned;
and threads all of whose calls are aligned never wait in a circle. -/
theorem lock_two_right_iff (types : Nat → LockType) {θ : Type} [DecidableEq θ] : (∀ i j, i ≠ j →
      (OrderRight types i j ↔ Aligned types i j ∧ Aligned types j i)) ∧
    ∀ (inputs : List (θ × LockAct)) (tr : List Unit) (s : LockThreads θ),
      Along (LockThreads.step types) (LockThreads.CallsAligned types) .initial inputs →
      run (LockThreads.step types) .initial inputs = some (tr, s) →
      ¬ s.CircularWait := by
  refine ⟨fun i j hij => orderRight_iff hij, fun inputs tr s ha hrun => ?_⟩
  exact (run_invariant (fun _ _ _ _ h hc hx => LockThreads.Inv.step h hc hx)
    LockThreads.inv_initial hrun ha).no_circularWait

instance {θ : Type} (types : Nat → LockType) (s : LockThreads θ) (input : θ × LockAct) :
    Decidable (s.CallsAligned types input) :=
  match input with
  | (_, .call i j _) => inferInstanceAs (Decidable (Aligned types i j))
  | (_, .acquire) | (_, .unlock _) => isTrue trivial

/-- A directory at the higher address: of two threads that name it and a file in
different orders, one waits for the other. -/
theorem lock_two_right_iff_higher_directory : ∃ s : LockThreads Bool,
    OrderRight (fun i => if i = 2 then .dir else .file) 1 2 ∧
    run (LockThreads.step fun i => if i = 2 then .dir else .file) .initial
      [(false, .call 2 1 true), (true, .call 1 2 true), (false, .acquire)] =
      some ([], s) ∧ WaitsFor s.Wants s.Holds true false ∧ ¬ s.CircularWait := by
  obtain ⟨horder, hruns⟩ := lock_two_right_iff (fun i => if i = 2 then .dir else .file) (θ := Bool)
  refine ⟨_, (horder 1 2 (by decide)).mpr (by decide), rfl, ⟨2, ⟨true, rfl, rfl⟩, by decide⟩,
    hruns [(false, .call 2 1 true), (true, .call 1 2 true), (false, .acquire)] [] _ ?_ rfl⟩
  exact along_of_decide (by decide)

/-- A directory at the lower address: two threads that name it and a file in
different orders wait for each other. -/
theorem lower_directory_circular_wait : ∃ s : LockThreads Bool,
    lockOrder (fun i => if i = 1 then .dir else .file) 1 2 = some (1, 2) ∧
    lockOrder (fun i => if i = 1 then .dir else .file) 2 1 = some (2, 1) ∧
    ¬ OrderRight (fun i => if i = 1 then .dir else .file) 1 2 ∧
    run (LockThreads.step fun i => if i = 1 then .dir else .file) .initial
      [(false, .call 1 2 true), (true, .call 2 1 true), (false, .acquire),
       (true, .acquire)] = some ([], s) ∧ s.CircularWait := by
  refine ⟨_, by decide, by decide, fun h => ?_, rfl, false, .tail (.single
    (b := true) ⟨2, ⟨true, rfl, rfl⟩, by decide⟩) ⟨1, ⟨true, rfl, rfl⟩, by decide⟩⟩
  exact absurd ((orderRight_iff (by decide)).mp h) (by decide)

end Finesse.Bitbucket
