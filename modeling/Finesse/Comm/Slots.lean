import Finesse.Comm.Safety

/-!
# Taking a free block

`FinesseGetRequestBuffer` tries the block after the last one that was taken, and
if this fails it scans all blocks. The scan goes on to the next index when a swap
fails, and a swap fails when any bit of the word has changed. So a call that races
with others may pass over a block that is free all the time, and return `NULL`.

A call takes at most `Pc.left` steps of its own, whatever the other threads do.
If the swap at the free block finds the word that was read before it, the call
ends with a block.
-/

namespace Finesse.Comm

open Machine Pool Bitmap List Pc

variable {θ : Type}

/-- How many steps of a call of `FinesseGetRequestBuffer` are left at most. -/
def Pc.left : Pc → Nat
  | .getLoad .. => 135
  | .getHint .. => 134
  | .getCas .. => 133
  | .scanLoad _ _ index => 2 * (64 - index) + 4
  | .scanCas _ _ _ i => 2 * (64 - i) + 3
  | .getStoreHint .. => 3
  | .getCheck .. => 2
  | .getHeader .. => 1
  | _ => 0

theorem casAllocate_left (t : θ) (b : BitVec 64) (i : Slot) (won : Nat → Pc) (lost : Pc)
    (s : Region θ) {n : Nat} (hwon : ∀ r, (won r).left < n) (hlost : lost.left < n) :
    (casAllocate t b i won lost s).2.1.left < n := by
  unfold casAllocate
  split
  · exact hwon _
  · exact hlost

/-- A thread in the call can always take a step, and is nearer to the end then. -/
theorem exec_left {t : θ} {a : Act} {pc : Pc} {s : Region θ} (h : 0 < pc.left) :
    ∃ ev pc' s', exec t a pc s = some (ev, pc', s') ∧ pc'.left < pc.left := by
  cases pc with
  | getLoad c y => exact ⟨_, _, _, rfl, by simp [left]⟩
  | getHint c y b =>
    simp only [exec, finesseGetRequestBuffer]
    split
    · exact ⟨_, _, _, rfl, by simp [left]⟩
    · exact ⟨_, _, _, rfl, by simp [left]⟩
  | getCas c y b i =>
    exact ⟨_, _, _, rfl, casAllocate_left t b i _ _ s (fun _ => by decide : ∀ _, 3 < 133)
      (by decide : 132 < 133)⟩
  | scanLoad c y index =>
    simp only [exec, finesseGetRequestBuffer]
    split
    · next hi =>
      split
      · exact ⟨_, _, _, rfl, show 2 * (64 - (index + 1)) + 4 < 2 * (64 - index) + 4 by omega⟩
      · exact ⟨_, _, _, rfl, show 2 * (64 - index) + 3 < 2 * (64 - index) + 4 by omega⟩
    · exact ⟨_, _, _, rfl, show 0 < 2 * (64 - index) + 4 by omega⟩
  | scanCas c y b i =>
    have hi := i.isLt
    exact ⟨_, _, _, rfl, casAllocate_left t b i _ _ s
      (fun _ => show 3 < 2 * (64 - i.val) + 3 by omega)
      (show 2 * (64 - (i.val + 1)) + 4 < 2 * (64 - i.val) + 3 by omega)⟩
  | getStoreHint c y i r => exact ⟨_, _, _, rfl, by simp [left]⟩
  | getCheck c y i r =>
    simp only [exec, finesseGetRequestBuffer]
    split
    · exact ⟨_, _, _, rfl, by simp [left]⟩
    · exact ⟨_, _, _, rfl, by simp [left]⟩
  | getHeader c y i r =>
    simp only [exec, finesseGetRequestBuffer]
    split
    · exact ⟨_, _, _, rfl, by simp [left]⟩
    · exact ⟨_, _, _, rfl, by simp [left]⟩
  | _ => cases h

variable [DecidableEq θ]

/-- Where thread `t` is when its call of `FinesseGetRequestBuffer` ends, if the run
over `as` goes on for so long. -/
def callEnd (t : θ) : Pool θ Pc (Region θ) → List (θ × Act) → Option Pc
  | p, [] => if (p.pcs t).left = 0 then some (p.pcs t) else none
  | p, a :: as =>
    if (p.pcs t).left = 0 then some (p.pcs t)
    else match step exec p a with
      | none => none
      | some (_, p1) => callEnd t p1 as

/-- Block `j` is not allocated as long as the call of `t` looks for one. -/
def FreeDuring (j : Slot) (t : θ) (p : Pool θ Pc (Region θ)) (_ : θ × Act) : Prop :=
  3 < (p.pcs t).left → p.shared.allocationBitmap.getLsbD j = false

/-- The swap of the scan at block `j` finds the word that was read before it. -/
def SwapsUndisturbed (j : Slot) (t : θ) (p : Pool θ Pc (Region θ)) (a : θ × Act) : Prop :=
  a.1 = t → ∀ c y b, p.pcs t = .scanCas c y b j → p.shared.allocationBitmap = b

/-- A call that has not passed block `j`. -/
def BeforeSlot (c y : Nat) (j : Slot) : Pc → Prop
  | .getLoad c' y' | .getHint c' y' _ | .getCas c' y' _ _
  | .getStoreHint c' y' _ _ | .getCheck c' y' _ _ | .getHeader c' y' _ _ =>
    c' = c ∧ y' = y
  | .scanLoad c' y' index => c' = c ∧ y' = y ∧ index ≤ j
  | .scanCas c' y' _ i => c' = c ∧ y' = y ∧ i.val ≤ j.val
  | .allocated .. => True
  | _ => False

section Call

variable {t : θ} {c y : Nat} {j : Slot} {pc pc' : Pc} {s s' : Region θ} {a : Act}
  {ev : List (Event Slot θ)}

omit [DecidableEq θ] in
theorem casAllocate_before {b : BitVec 64} {i : Slot} {won : Nat → Pc} {lost : Pc}
    (h : some (casAllocate t b i won lost s) = some (ev, pc', s'))
    (hwon : ∀ r, BeforeSlot c y j (won r))
    (hlost : s.allocationBitmap ≠ b → BeforeSlot c y j lost) : BeforeSlot c y j pc' := by
  unfold casAllocate at h
  split at h
  · cases h
    exact hwon _
  next hne =>
  cases h
  exact hlost hne

omit [DecidableEq θ] in
/-- A step of the call does not pass the block, if the block is free and the swap
at it is undisturbed. An assertion can fail for a wrong class or type only. -/
theorem exec_before (hbefore : BeforeSlot c y j pc) (hleft : 0 < pc.left)
    (hvalid : checkMessageType c y = none)
    (hfree : 3 < pc.left → s.allocationBitmap.getLsbD j = false)
    (hswap : ∀ c y b, pc = .scanCas c y b j → s.allocationBitmap = b)
    (hassert : ∀ a, pc' = .failed a → a.ofBitmapOrRequestId = false)
    (h : exec t a pc s = some (ev, pc', s')) : BeforeSlot c y j pc' := by
  cases pc with
  | getLoad c' y' => cases h; exact hbefore
  | getHint c' y' b =>
    simp only [exec, finesseGetRequestBuffer] at h
    split at h
    · cases h
      exact ⟨hbefore.1, hbefore.2, Nat.zero_le _⟩
    · cases h
      exact hbefore
  | getCas c' y' b i =>
    exact casAllocate_before h (fun _ => hbefore) fun _ => ⟨hbefore.1, hbefore.2, Nat.zero_le _⟩
  | scanLoad c' y' index =>
    obtain ⟨rfl, rfl, hle⟩ := hbefore
    have hj := j.isLt
    simp only [exec, finesseGetRequestBuffer, dif_pos (show index < 64 by omega)] at h
    split at h
    · next hset =>
      cases h
      refine ⟨rfl, rfl, ?_⟩
      -- the bit is set, so this is not the free block
      have hne : index ≠ j := by
        rintro rfl
        have := (insert_eq_self hj _).mp hset
        rw [hfree (by simp [left])] at this
        cases this
      omega
    · cases h
      exact ⟨rfl, rfl, hle⟩
  | scanCas c' y' b i =>
    obtain ⟨rfl, rfl, hle⟩ := hbefore
    refine casAllocate_before h (fun _ => ⟨rfl, rfl⟩) fun hne => ⟨rfl, rfl, ?_⟩
    have hval : i.val ≠ j.val := by
      intro he
      exact hne (hswap _ _ b (by rw [Fin.ext he]))
    exact Nat.lt_of_le_of_ne hle hval
  | getStoreHint c' y' i r => cases h; exact hbefore
  | getCheck c' y' i r =>
    simp only [exec, finesseGetRequestBuffer] at h
    split at h
    · cases h
      exact hbefore
    · cases h
      cases hassert _ rfl
  | getHeader c' y' i r =>
    obtain ⟨rfl, rfl⟩ := hbefore
    simp only [exec, finesseGetRequestBuffer, hvalid] at h
    cases h
    trivial
  | _ => cases hleft

theorem BeforeSlot.allocated (h : BeforeSlot c y j pc) (hleft : pc.left = 0) :
    ∃ i r, pc = .allocated i r := by
  cases pc with
  | allocated i r => exact ⟨i, r, rfl⟩
  | getLoad | getHint | getCas | scanLoad | scanCas | getStoreHint | getCheck | getHeader =>
    simp [left] at hleft
  | _ => exact h.elim

end Call

/-- The steps of thread `t` in a run. -/
def ownSteps (t : θ) (as : List (θ × Act)) : Nat := as.countP fun a => a.1 = t

theorem call_ends {t : θ} {c y : Nat} {j : Slot} (hvalid : checkMessageType c y = none)
    {as : List (θ × Act)} : ∀ {p p' : Pool θ Pc (Region θ)} {tr : List (Event Slot θ)}
      {m : Mailboxes Slot θ}, Holds SharedInv Asserts p m →
      BeforeSlot c y j (p.pcs t) →
      run (step exec) p as = some (tr, p') →
      Along (step exec) (FreeDuring j t) p as →
      Along (step exec) (SwapsUndisturbed j t) p as →
      (∀ pc, callEnd t p as = some pc → ∃ i r, pc = .allocated i r) ∧
      ((p.pcs t).left ≤ ownSteps t as → (callEnd t p as).isSome = true) := by
  induction as with
  | nil =>
    intro p p' tr m hI hbefore _ _ _
    rw [callEnd]
    constructor
    · intro pc hend
      obtain ⟨hleft, hpc⟩ := Option.ite_none_right_eq_some.mp hend
      cases hpc
      exact hbefore.allocated hleft
    · intro hle
      rw [if_pos (Nat.le_zero.mp hle)]
      rfl
  | cons a as ih =>
    intro p p' tr m hI hbefore hrun hfree hswap
    rw [callEnd]
    by_cases hleft : (p.pcs t).left = 0
    · rw [if_pos hleft]
      refine ⟨fun pc hpc => ?_, fun _ => rfl⟩
      cases hpc
      exact hbefore.allocated hleft
    rw [if_neg hleft]
    obtain ⟨ev, p1, evs, hs, hrun, -⟩ := run_cons hrun
    obtain ⟨m1, -, hI1⟩ := step_sound hI hs
    simp only [hs]
    obtain ⟨u, a⟩ := a
    obtain ⟨pc, s, he, rfl⟩ := step_inv hs
    by_cases hu : u = t
    · -- a step of the call itself
      subst hu
      obtain ⟨ev', pc', s', he', hlt⟩ := @exec_left _ u a _ p.shared (Nat.pos_of_ne_zero hleft)
      rw [he'] at he
      cases he
      have hnext : BeforeSlot c y j ((p.set u pc s).pcs u) := by
        have hassert := hI1.threads u
        rw [set_pcs_self] at hassert ⊢
        refine exec_before hbefore (Nat.pos_of_ne_zero hleft) hvalid hfree.1 (hswap.1 rfl) ?_ he'
        rintro e rfl
        exact hassert
      obtain ⟨hend, hsome⟩ := ih hI1 hnext hrun (hfree.2 _ _ hs) (hswap.2 _ _ hs)
      refine ⟨hend, fun hle => hsome ?_⟩
      rw [set_pcs_self]
      rw [ownSteps, countP_cons_of_pos (by simp)] at hle
      rw [ownSteps]
      omega
    · have hpc : (p.set u pc s).pcs t = p.pcs t := set_pcs_ne _ _ _ (Ne.symm hu)
      obtain ⟨hend, hsome⟩ := ih hI1 (hpc ▸ hbefore) hrun (hfree.2 _ _ hs) (hswap.2 _ _ hs)
      refine ⟨hend, fun hle => hsome ?_⟩
      rw [hpc]
      rwa [ownSteps, countP_cons_of_neg (by simpa using hu)] at hle

/-- If a block is free as long as a call of `FinesseGetRequestBuffer` looks for one,
and the swap of the scan at this block is undisturbed, the call returns a block. It
ends after 135 steps of its own at the latest, in every interleaving. -/
theorem get_buffer_succeeds {messages : Slot → Message} {pre as : List (θ × Act)}
    {tr0 tr : List (Event Slot θ)} {p p' : Pool θ Pc (Region θ)} {t : θ} {c y : Nat} {j : Slot}
    (hreach : run (step exec) (initial θ messages) pre = some (tr0, p))
    (hcall : p.pcs t = .getLoad c y) (hvalid : checkMessageType c y = none)
    (hrun : run (step exec) p as = some (tr, p')) (hfree : Along (step exec) (FreeDuring j t) p as)
    (hswap : Along (step exec) (SwapsUndisturbed j t) p as) :
    (∀ pc, callEnd t p as = some pc → ∃ i r, pc = .allocated i r) ∧
    (135 ≤ ownSteps t as → (callEnd t p as).isSome = true) := by
  obtain ⟨m, -, hI⟩ := run_sound hreach
  have hbefore : BeforeSlot c y j (p.pcs t) := by
    rw [hcall]
    exact ⟨rfl, rfl⟩
  have h := call_ends hvalid hI hbefore hrun hfree hswap
  rwa [hcall] at h

instance (j : Slot) (t : θ) (p : Pool θ Pc (Region θ)) (a : θ × Act) :
    Decidable (FreeDuring j t p a) :=
  inferInstanceAs (Decidable (_ → _))

/-- A swap of the scan at block `j` finds the word that was read. -/
def swapFinds (j : Slot) (t : θ) (p : Pool θ Pc (Region θ)) (_ : θ × Act) : Bool :=
  match p.pcs t with
  | .scanCas _ _ b i => i ≠ j || p.shared.allocationBitmap = b
  | _ => true

omit [DecidableEq θ] in
theorem undisturbed_of_swapFinds {j : Slot} {t : θ} (p : Pool θ Pc (Region θ)) (a : θ × Act)
    (h : swapFinds j t p a = true) : SwapsUndisturbed j t p a := by
  intro _ c y b hpc
  simpa [swapFinds, hpc] using h

/-- Thread 0 has called `FinesseGetRequestBuffer` in a new region. -/
def firstCall : Pool Nat Pc (Region Nat) :=
  (initial Nat fun _ => blankMessage).set 0 (.getLoad finesseNativeMessage finesseNativeReqBaseType)
    (finesseInitializeMemoryRegion fun _ => blankMessage)

/-- Thread 1 takes block 0 before thread 0 swaps, whose scan then comes to block 1. -/
def raced : List (Nat × Act) :=
  replicate 2 (0, .next) ++ (1, .getRequestBuffer finesseNativeMessage finesseNativeReqBaseType) ::
    (replicate 6 (1, .next) ++ replicate 7 (0, .next))

theorem get_buffer_succeeds_raced : ∃ i r, callEnd 0 firstCall raced = some (.allocated i r) := by
  have hend : callEnd 0 firstCall raced = some (.allocated 1 1) := by decide +kernel
  have hsome : (run (step exec) firstCall raced).isSome = true := by decide +kernel
  obtain ⟨⟨tr, p'⟩, hrun⟩ := Option.isSome_iff_exists.mp hsome
  have hreach : run (step exec) (initial Nat fun _ => blankMessage)
      [(0, .getRequestBuffer finesseNativeMessage finesseNativeReqBaseType)] =
      some ([], firstCall) := run_single (step_of_exec rfl rfl)
  obtain ⟨i, r, hpc⟩ := (get_buffer_succeeds (j := 1) hreach (set_pcs_self _ _ _ _) (by decide) hrun
    (along_of_decide (by decide +kernel))
    (along_of_check (fun a _ p => undisturbed_of_swapFinds p a) (by decide +kernel))).1 _ hend
  exact ⟨i, r, hpc ▸ hend⟩

/-! ## A free block is passed over

Block 0 was used for one exchange and is free again. Thread 2 wants a block. Each
time before it swaps, other threads take the blocks that follow, and at the end it
has passed all of them. -/

/-- Thread 2 looks for a block, and block 0 is free. -/
def Passing (p : Pool Nat Pc (Region Nat)) (_ : Nat × Act) : Prop :=
  p.shared.allocationBitmap.getLsbD 0 = false ∧ 3 < (p.pcs 2).left

/-- Blocks 1 to `n - 1` are allocated, and the threads that will take the others
are idle. -/
structure Filled (n : Nat) (p : Pool Nat Pc (Region Nat)) : Prop where
  bits : ∀ i, p.shared.allocationBitmap.getLsbD i = decide (1 ≤ i ∧ i < n)
  last : p.shared.lastBufferAllocated + 1 = n
  requests : p.shared.requestBitmap = 0#64
  idle : ∀ t, n + 2 ≤ t → t < 66 → p.pcs t = .idle

def takeBlock (t : Nat) : List (Nat × Act) :=
  (t, .getRequestBuffer finesseNativeMessage finesseNativeReqBaseType) ::
    replicate 6 (t, .next)

section Fill

variable {p : Pool Nat Pc (Region Nat)} {n : Nat}

theorem Passing.set (hleft : 3 < (p.pcs 2).left) {t : Nat} (ht : 2 < t) {pc : Pc} {s : Region Nat}
    (hbit : s.allocationBitmap.getLsbD 0 = false) (a : Nat × Act) : Passing (p.set t pc s) a := by
  refine ⟨hbit, ?_⟩
  rwa [set_pcs_ne p pc s (Nat.ne_of_lt ht)]

theorem Filled.take (h : Filled n p) (hn : 0 < n) (hlt : n < 64)
    (hleft : 3 < (p.pcs 2).left) : ∃ p',
    Reaches (step exec) Passing p (takeBlock (n + 2)) p' ∧
    Filled (n + 1) p' ∧ p'.pcs 2 = p.pcs 2 := by
  have hhint : (hintIndex p.shared.lastBufferAllocated).val = n := by
    change (p.shared.lastBufferAllocated + 1) % 64 = n
    rw [h.last, Nat.mod_eq_of_lt hlt]
  have hbits : ∀ i, (p.shared.allocationBitmap |||
      makeMask64 (hintIndex p.shared.lastBufferAllocated)).getLsbD i =
      decide (1 ≤ i ∧ i < n + 1) := by
    intro i
    rw [hhint, makeMask64, getLsbD_insert hlt, h.bits, ← Bool.decide_or]
    exact decide_eq_decide.mpr (by omega)
  have hfree : ¬ p.shared.allocationBitmap = p.shared.allocationBitmap |||
      makeMask64 (hintIndex p.shared.lastBufferAllocated) := by
    rw [hhint, makeMask64, insert_eq_self hlt, h.bits]
    simp
  have hchecked : p.shared.requestBitmap &&&
      makeMask64 (hintIndex p.shared.lastBufferAllocated) = 0#64 := by
    rw [h.requests, BitVec.zero_and]
  have hbit : p.shared.allocationBitmap.getLsbD 0 = false := h.bits 0
  have hpass := @Passing.set p hleft (n + 2) (by omega)
  refine ⟨_, .cons ⟨hbit, hleft⟩ (step_of_exec (h.idle (n + 2) (by omega) (by omega)) rfl) <|
    .cons (hpass hbit _) (step_set rfl) <|
    .cons (hpass hbit _) (step_set (if_neg hfree)) <|
    .cons (hpass hbit _) (step_set (congrArg some (if_pos rfl))) <|
    .cons (hpass (hbits 0) _) (step_set rfl) <|
    .cons (hpass (hbits 0) _) (step_set (if_pos hchecked)) <|
    .cons (hpass (hbits 0) _) (step_set rfl) (.nil _), ⟨hbits, ?_, h.requests, ?_⟩, ?_⟩
  · exact congrArg (· + 1) hhint
  · intro t ht hlt'
    rw [set_pcs_ne _ _ _ (by omega)]
    exact h.idle t (by omega) hlt'
  · exact set_pcs_ne _ _ _ (by omega)

theorem Filled.fill {k : Nat} : ∀ {n : Nat} {p : Pool Nat Pc (Region Nat)}, Filled n p →
    0 < n → n + k ≤ 64 → 3 < (p.pcs 2).left → ∃ as p',
    Reaches (step exec) Passing p as p' ∧ Filled (n + k) p' ∧
    p'.pcs 2 = p.pcs 2 := by
  induction k with
  | zero => exact fun {n p} h _ _ _ => ⟨[], p, .nil p, h, rfl⟩
  | succ k ih =>
    intro n p h hn hlt hleft
    obtain ⟨p1, hr1, h1, hpc1⟩ := h.take hn (by omega) hleft
    obtain ⟨as, p2, hr2, h2, hpc2⟩ := ih h1 (by omega) (by omega) (by rwa [hpc1])
    refine ⟨_, p2, hr1.append hr2, ?_, hpc2.trans hpc1⟩
    rwa [show n + (k + 1) = n + 1 + k by omega]

theorem Filled.scan (h : Filled 64 p) {c y k : Nat} : ∀ {index : Nat}, 0 < index →
    index + k = 64 → ∃ as, Reaches (step exec) Passing (p.set 2 (.scanLoad c y index) p.shared) as
      (p.set 2 (.scanLoad c y 64) p.shared) := by
  have hpass : ∀ index a, Passing (p.set 2 (.scanLoad c y index) p.shared) a := by
    intro index a
    refine ⟨h.bits 0, ?_⟩
    rw [set_pcs_self, left]
    omega
  induction k with
  | zero =>
    intro index _ hk
    rw [show index = 64 by omega]
    exact ⟨[], .nil _⟩
  | succ k ih =>
    intro index hpos hk
    have hlt : index < 64 := by omega
    have hset : p.shared.allocationBitmap = p.shared.allocationBitmap ||| makeMask64 index := by
      rw [makeMask64, insert_eq_self hlt, h.bits]
      simp only [decide_eq_true_eq]
      omega
    have hstep : exec 2 .next (.scanLoad c y index) p.shared =
        some ([], .scanLoad c y (index + 1), p.shared) := (dif_pos hlt).trans (if_pos hset)
    obtain ⟨as, hr⟩ := ih (Nat.succ_pos index) (show index + 1 + k = 64 by omega)
    exact ⟨_, .cons (hpass index _) (step_set hstep) hr⟩

theorem Filled.own (h : Filled n p) (hn : 0 < n) (pc : Pc) : Filled n (p.set 2 pc p.shared) := by
  refine ⟨h.bits, h.last, h.requests, fun t ht hlt => ?_⟩
  rw [set_pcs_ne _ _ _ (by omega)]
  exact h.idle t ht hlt

theorem callEnd_of_reaches {as : List (Nat × Act)} : ∀ {p p' : Pool Nat Pc (Region Nat)},
    Reaches (step exec) Passing p as p' → (p'.pcs 2).left = 0 →
    callEnd 2 p as = some (p'.pcs 2) := by
  induction as with
  | nil =>
    rintro p p' ⟨⟨tr, hr⟩, -⟩ hleft
    obtain ⟨-, rfl⟩ := Prod.mk.inj (Option.some.inj hr)
    exact if_pos hleft
  | cons a as ih =>
    rintro p p' ⟨⟨tr, hr⟩, hp, ha⟩ hleft
    obtain ⟨ev, p1, evs, hs, hr', -⟩ := run_cons hr
    have hne : (p.pcs 2).left ≠ 0 := by
      have := hp.2
      omega
    rw [callEnd, if_neg hne, hs]
    exact ih ⟨⟨evs, hr'⟩, ha ev p1 hs⟩ hleft

/-- From the state in which block 0 is free again, the call of thread 2 passes all
blocks. -/
theorem Filled.passes (h : Filled 1 p) (c y : Nat) : ∃ as p',
    Reaches (step exec) Passing (p.set 2 (.getLoad c y) p.shared) as p' ∧
    p'.pcs 2 = .idle := by
  have hpass : ∀ {n} {q : Pool Nat Pc (Region Nat)} {pc : Pc}, Filled n q →
      3 < pc.left → ∀ a, Passing (q.set 2 pc q.shared) a := by
    intro n q pc hq hleft a
    refine ⟨hq.bits 0, ?_⟩
    rwa [set_pcs_self]
  have differs : ∀ {n k} {q q' : Pool Nat Pc (Region Nat)}, Filled n q → Filled (n + k) q' →
      0 < n → 0 < k → q'.shared.allocationBitmap ≠ q.shared.allocationBitmap := by
    intro n k q q' hq hq' hn hk he
    have := hq'.bits n
    rw [he, hq.bits n, decide_eq_decide] at this
    omega
  -- the fast path fails because the next block is taken before the swap
  let pc1 : Pc := .getCas c y p.shared.allocationBitmap (hintIndex p.shared.lastBufferAllocated)
  have hhint : exec 2 .next (.getHint c y p.shared.allocationBitmap) p.shared =
      some ([], pc1, p.shared) := by
    refine if_neg fun he => ?_
    rw [makeMask64, insert_eq_self (Fin.isLt _), h.bits] at he
    simp only [decide_eq_true_eq] at he
    omega
  obtain ⟨as1, p1, hr1, h1, hpc1⟩ := (h.own Nat.one_pos pc1).fill (k := 1) Nat.one_pos
    (by decide) (by rw [set_pcs_self]; exact (by decide : 3 < 133))
  rw [set_pcs_self] at hpc1
  have hlost1 : exec 2 .next pc1 p1.shared = some ([], .scanLoad c y 0, p1.shared) :=
    congrArg some (if_neg (differs h h1 Nat.one_pos Nat.one_pos))
  -- the scan finds block 0 free, and all other blocks are taken before the swap
  let pc2 : Pc := .scanCas c y p1.shared.allocationBitmap ⟨0, by decide⟩
  have hload : exec 2 .next (.scanLoad c y 0) p1.shared = some ([], pc2, p1.shared) := by
    refine if_neg fun he => ?_
    rw [makeMask64, insert_eq_self (by decide), h1.bits] at he
    cases he
  obtain ⟨as2, p2, hr2, h2, hpc2⟩ := (h1.own (by decide) pc2).fill (k := 62) (by decide)
    (by decide) (by rw [set_pcs_self]; exact (by decide : 3 < 131))
  rw [set_pcs_self] at hpc2
  have hlost2 : exec 2 .next pc2 p2.shared = some ([], .scanLoad c y 1, p2.shared) :=
    congrArg some (if_neg (differs h1 h2 (by decide) (by decide)))
  have hnone : exec 2 .next (.scanLoad c y 64) p2.shared = some ([], .idle, p2.shared) :=
    rfl
  obtain ⟨as3, hr3⟩ := h2.scan (c := c) (y := y) (k := 63) (show 0 < 1 by decide) rfl
  have hstart : Reaches (step exec) Passing (p.set 2 (.getLoad c y) p.shared)
      [(2, .next), (2, .next)] (p.set 2 pc1 p.shared) :=
    .cons (hpass h (by simp [left]) _) (step_set rfl)
      (.cons (hpass h (by simp [left]) _) (step_set hhint) (.nil _))
  have hscan : Reaches (step exec) Passing p1 [(2, .next), (2, .next)] (p1.set 2 pc2 p1.shared) :=
    .cons ⟨h1.bits 0, by rw [hpc1]; exact (by decide : 3 < 133)⟩ (step_of_exec hpc1 hlost1)
      (.cons (hpass h1 (by simp [left]) _) (step_set hload) (.nil _))
  have hpassed : Reaches (step exec) Passing p2 [(2, .next)]
      (p2.set 2 (.scanLoad c y 1) p2.shared) :=
    .cons ⟨h2.bits 0, by rw [hpc2]; exact (by decide : 3 < 131)⟩
      (step_of_exec hpc2 hlost2) (.nil _)
  have hend : Reaches (step exec) Passing
      (p2.set 2 (.scanLoad c y 64) p2.shared) [(2, .next)] (p2.set 2 .idle p2.shared) :=
    .cons (hpass h2 (by simp [left]) _) (step_set hnone) (.nil _)
  exact ⟨_, _, hstart.append (hr1.append (hscan.append (hr2.append
    (hpassed.append (hr3.append hend))))), set_pcs_self _ _ _ _⟩

end Fill

/-- `FinesseGetRequestBuffer` returns `NULL`, and block 0 has been free during the
whole call. -/
theorem free_block_passed_over : ∃ pre tr0 p as tr p',
    run (step exec) (initial Nat fun _ => blankMessage) pre = some (tr0, p) ∧
    p.pcs 2 = .getLoad finesseNativeMessage finesseNativeReqBaseType ∧
    checkMessageType finesseNativeMessage finesseNativeReqBaseType = none ∧
    run (step exec) p as = some (tr, p') ∧
    Along (step exec) (fun p _ => p.shared.allocationBitmap.getLsbD 0 = false) p as ∧
    callEnd 2 p as = some .idle := by
  have hrun : ((run (step exec) (initial Nat fun _ => blankMessage)
      exchange).map fun q => (q.2.shared.allocationBitmap, q.2.shared.lastBufferAllocated,
        q.2.shared.requestBitmap, (range 66).all fun t => 2 ≤ t → q.2.pcs t = .idle)) =
      some (0#64, 0, 0#64, true) := by decide +kernel
  obtain ⟨⟨tr0, p⟩, hr, hq⟩ := Option.map_eq_some_iff.mp hrun
  simp only [Prod.mk.injEq, all_eq_true, mem_range, decide_eq_true_eq] at hq
  obtain ⟨hbits, hlast, hreq, hidle⟩ := hq
  have hfilled : Filled 1 p := by
    refine ⟨fun i => ?_, by rw [hlast], hreq, fun t ht hlt => hidle t hlt (by omega)⟩
    rw [hbits, BitVec.getLsbD_zero]
    exact (decide_eq_false (by omega)).symm
  obtain ⟨as, p', hreaches, hpc⟩ := hfilled.passes finesseNativeMessage finesseNativeReqBaseType
  have hexchange : Reaches (step exec) (fun _ _ => True)
      (initial Nat fun _ => blankMessage) exchange p := ⟨⟨tr0, hr⟩, along_trivial _ _⟩
  obtain ⟨⟨tr1, hcall⟩, -⟩ := hexchange.append <| .cons (a :=
    (2, .getRequestBuffer finesseNativeMessage finesseNativeReqBaseType)) trivial
    (step_of_exec (hidle 2 (by decide) (by decide)) rfl) (.nil _)
  obtain ⟨⟨tr, hr'⟩, halong⟩ := hreaches
  refine ⟨_, tr1, _, as, tr, p', hcall, set_pcs_self _ _ _ _, by decide, hr', ?_, ?_⟩
  · exact along_of_along (fun _ _ (_ : True) h => h.1) (fun _ _ _ _ _ _ _ => trivial) trivial halong
  · rw [← hpc]
    exact callEnd_of_reaches ⟨⟨tr, hr'⟩, halong⟩ (by rw [hpc]; rfl)

end Finesse.Comm
