import Finesse.Lib.Bitmap
import Finesse.Lib.Pool

/-!
# The buffer arena

`buffer.c`: an arena of up to 64 buffers of one size in a mapped file, behind a
page with the control data. A word says which of them are allocated, and the
threads change it with compare-and-swap only.

As in the model of the region, the functions are cut at their accesses to shared
memory. `FincommFreeBuffer` reads the word twice before it swaps, and stores a value
made of the second reading. `arena_safe` is about the runs in which the two readings
are the same.

`FincommAllocateBuffer` looks for a clear bit among the first `Count`, as long as
any of the 64 is clear: with fewer than 64 buffers, all of them allocated, it
looks forever (`allocate_right_iff`).
-/

namespace Finesse.Comm

open List Machine Option Pool Bitmap

def arenaControlAreaSize : Nat := 4096

/-- The fields of `fincomm_arena_info_t` that no function changes once the arena
exists, with the address at which it is mapped. -/
structure ArenaLayout where
  base : Nat
  size : Nat
  count : Nat
  offset : Nat
deriving DecidableEq, Repr

/-- `fincomm_arena_info_t`. `live` are the buffers that were returned and not
given back, which no function of the code reads. -/
structure Arena extends ArenaLayout where
  allocationBitmap : BitVec 64
  lastAllocated : Nat
  live : List Nat
deriving DecidableEq, Repr

/-- `FincommCreateArena`, where the new region is mapped at `base`. -/
def fincommCreateArena (base bufferSize count : Nat) : Option Arena :=
  let size := if bufferSize = 0 then 64 * 1024 * 1024 else bufferSize
  let count := if count = 0 then 64 else count
  let arenaSize := (arenaControlAreaSize + size * count) % 2 ^ 64
  if arenaControlAreaSize < arenaSize ∧ count ≤ 64 then
    some ⟨⟨base, size, count, arenaControlAreaSize⟩, 0#64, count - 1, []⟩
  else none

namespace ArenaLayout

/-- The address of a buffer. -/
def buffer (l : ArenaLayout) (index : Nat) : Nat :=
  (l.base + l.offset + index * l.size) % 2 ^ 64

def fincommGetBufferOffset (l : ArenaLayout) (buffer : Nat) : Option Nat :=
  let startOfArena := (l.base + arenaControlAreaSize) % 2 ^ 64
  let endOfArena := (startOfArena + l.size * (l.count - 1)) % 2 ^ 64
  if startOfArena ≤ buffer ∧ buffer ≤ endOfArena then some (buffer - startOfArena)
  else none

/-- How `FincommFreeBuffer` finds the index of a buffer, with its assertions. -/
def indexOf (l : ArenaLayout) (buffer : Nat) : Option Nat :=
  (l.fincommGetBufferOffset buffer).bind fun offset =>
    let index := offset / l.size
    if (l.base + arenaControlAreaSize + offset) % 2 ^ 64 = buffer ∧
        (l.base + arenaControlAreaSize + index * l.size) % 2 ^ 64 = buffer then
      some index
    else none

/-- The index that is tried after `index`, an `unsigned`. -/
def next (l : ArenaLayout) (index : Nat) : Nat := (index + 1) % 2 ^ 32 % l.count

end ArenaLayout

/-- Where a thread is in `FincommAllocateBuffer`, with its locals. -/
inductive AllocPc where
  | hint
  | guard (index : Nat)
  | load (index : Nat)
  | cas (old : BitVec 64) (index : Nat)
  | store (index : Nat)
deriving DecidableEq, Repr

/-- Where a thread is in `FincommFreeBuffer`, with its locals. -/
inductive FreePc where
  | check (buffer : Nat)
  | load (buffer index : Nat)
  | reload (buffer index : Nat) (old : BitVec 64)
  | cas (buffer index : Nat) (old new : BitVec 64)
deriving DecidableEq, Repr

inductive ArenaPc where
  | idle
  | alloc (pc : AllocPc)
  | free (pc : FreePc)
  | failed -- an assertion
deriving DecidableEq, Repr

/-- The call that a thread makes next. Inside a function it is ignored. -/
inductive ArenaAct where
  | allocate
  | free (buffer : Nat)
  | next
deriving DecidableEq, Repr

inductive ArenaEvent where
  | allocated (buffer : Option Nat)
  | freed (buffer : Nat)
deriving DecidableEq, Repr

/-- One access of `FincommAllocateBuffer`. -/
def Arena.fincommAllocateBuffer (s : Arena) : AllocPc → List ArenaEvent × ArenaPc × Arena
  | .hint => ([], .alloc (.guard s.lastAllocated), s)
  | .guard index =>
    if s.allocationBitmap = BitVec.allOnes 64 then ([.allocated none], .idle, s)
    else ([], .alloc (.load index), s)
  | .load index =>
    let index := s.next index
    if s.allocationBitmap = s.allocationBitmap ||| mask index then
      ([], .alloc (.guard index), s)
    else ([], .alloc (.cas s.allocationBitmap index), s)
  | .cas old index =>
    if s.allocationBitmap = old then
      ([], .alloc (.store index), { s with allocationBitmap := old ||| mask index })
    else ([], .alloc (.guard index), s)
  | .store index =>
    ([.allocated (some (s.buffer index))], .idle,
      { s with lastAllocated := index, live := s.buffer index :: s.live })

/-- One access of `FincommFreeBuffer`. -/
def Arena.fincommFreeBuffer (s : Arena) : FreePc → List ArenaEvent × ArenaPc × Arena
  | .check buffer =>
    (s.indexOf buffer).elim ([], .failed, s) fun index =>
      if s.allocationBitmap &&& mask index = 0#64 then ([], .failed, s)
      else ([], .free (.load buffer index), s)
  | .load buffer index => ([], .free (.reload buffer index s.allocationBitmap), s)
  | .reload buffer index old =>
    let new := s.allocationBitmap &&& ~~~mask index
    if old = new then ([], .failed, s) else ([], .free (.cas buffer index old new), s)
  | .cas buffer index old new =>
    if s.allocationBitmap = old then
      ([.freed buffer], .idle, { s with allocationBitmap := new })
    else ([], .free (.load buffer index), s)

/-- One access of a thread. Only live buffers are given back, and a buffer is live
no more once the call has begun. -/
def Arena.exec (s : Arena) (a : ArenaAct) : ArenaPc → Option (List ArenaEvent × ArenaPc × Arena)
  | .idle =>
    match a with
    | .allocate => some ([], .alloc .hint, s)
    | .free buffer =>
      if buffer ∈ s.live then
        some ([], .free (.check buffer), { s with live := s.live.erase buffer })
      else none
    | .next => none
  | .alloc pc => some (s.fincommAllocateBuffer pc)
  | .free pc => some (s.fincommFreeBuffer pc)
  | .failed => none

/-! ## Addresses -/

/-- The arena is mapped inside the address space, after the control page. -/
structure ArenaLayout.Mapped (l : ArenaLayout) : Prop where
  size_pos : 0 < l.size
  count_pos : 0 < l.count
  count_le : l.count ≤ 64
  offset_eq : l.offset = arenaControlAreaSize
  fits : l.base + arenaControlAreaSize + l.size * l.count ≤ 2 ^ 64

theorem mapped_of_create {base bufferSize count : Nat} {s : Arena}
    (h : fincommCreateArena base bufferSize count = some s)
    (hfits : base + arenaControlAreaSize + s.size * s.count ≤ 2 ^ 64) :
    s.Mapped ∧ s.allocationBitmap = 0#64 ∧ s.live = [] := by
  obtain ⟨hc, hs⟩ := ite_none_right_eq_some.mp h
  obtain rfl := some.inj hs
  refine ⟨⟨?_, ?_, hc.2, rfl, hfits⟩, rfl, rfl⟩
  all_goals
    dsimp only
    split <;> omega

variable {i j : Nat}

namespace ArenaLayout.Mapped

variable {l : ArenaLayout} (h : l.Mapped)
include h

section

variable (hi : i < l.count)
include hi

omit h in
theorem offset_le : i * l.size + l.size ≤ l.size * l.count := by
  have := Nat.mul_le_mul_left l.size (Nat.succ_le_of_lt hi)
  rw [Nat.mul_succ, Nat.mul_comm l.size i] at this
  exact this

theorem buffer_eq : l.buffer i = l.base + arenaControlAreaSize + i * l.size := by
  have hle := offset_le hi
  have hfits := h.fits
  have hpos := h.size_pos
  rw [buffer, h.offset_eq]
  exact Nat.mod_eq_of_lt (by omega)

theorem disjoint (hj : j < l.count) (hij : i < j) : l.buffer i + l.size ≤ l.buffer j := by
  rw [h.buffer_eq hi, h.buffer_eq hj]
  have := Nat.mul_le_mul_right l.size (Nat.succ_le_of_lt hij)
  rw [Nat.succ_mul] at this
  omega

theorem buffer_inj (hj : j < l.count) (he : l.buffer i = l.buffer j) : i = j := by
  have hpos := h.size_pos
  rcases Nat.lt_trichotomy i j with hij | hij | hij
  · have := h.disjoint hi hj hij
    omega
  · exact hij
  · have := h.disjoint hj hi hij
    omega

theorem offset_buffer : l.fincommGetBufferOffset (l.buffer i) = some (i * l.size) := by
  have hpos := h.size_pos
  have hfits := h.fits
  have hend : l.size * (l.count - 1) + l.size = l.size * l.count := by
    rw [← Nat.mul_succ, Nat.succ_eq_add_one, Nat.sub_add_cancel h.count_pos]
  have hlast : i * l.size ≤ l.size * (l.count - 1) := by
    rw [Nat.mul_comm]
    exact Nat.mul_le_mul_left l.size (by omega)
  have hstart : l.base + arenaControlAreaSize < 2 ^ 64 := by omega
  have hlt : l.base + arenaControlAreaSize + l.size * (l.count - 1) < 2 ^ 64 := by omega
  simp only [fincommGetBufferOffset, h.buffer_eq hi, Nat.mod_eq_of_lt hstart, Nat.mod_eq_of_lt hlt]
  rw [if_pos ⟨Nat.le_add_right _ _, Nat.add_le_add_left hlast _⟩, Nat.add_sub_cancel_left]

theorem indexOf_buffer : l.indexOf (l.buffer i) = some i := by
  have haddr : (l.base + arenaControlAreaSize + i * l.size) % 2 ^ 64 = l.buffer i := by
    rw [buffer, h.offset_eq]
  rw [indexOf, h.offset_buffer hi, bind_some]
  dsimp only
  rw [Nat.mul_div_cancel i h.size_pos, if_pos ⟨haddr, haddr⟩]

end

theorem next_lt (index : Nat) : l.next index < l.count := Nat.mod_lt _ h.count_pos

theorem next_eq {index : Nat} (hi : index < l.count) : l.next index = (index + 1) % l.count := by
  have := h.count_le
  rw [next, Nat.mod_eq_of_lt (show index + 1 < 2 ^ 32 by omega)]

end ArenaLayout.Mapped

abbrev Arena.step {θ : Type} [DecidableEq θ] :
    Pool θ ArenaPc Arena → θ × ArenaAct → Option (List ArenaEvent × Pool θ ArenaPc Arena) :=
  Pool.step fun _ a pc s => s.exec a pc

/-! ## Allocation by one thread -/

/-- An allocation state with no call in progress: the bits that are set are those
of the live buffers. -/
structure Arena.Settled (s : Arena) : Prop where
  clear : ∀ i, s.count ≤ i → s.allocationBitmap.getLsbD i = false
  nodup : s.live.Nodup
  mem_live : ∀ b, b ∈ s.live ↔ ∃ i < s.count, s.allocationBitmap.getLsbD i = true ∧ s.buffer i = b

theorem Arena.Settled.length_lt_iff {s : Arena} (h : s.Settled) (hm : s.Mapped) :
    s.live.length < s.count ↔ ∃ i < s.count, s.allocationBitmap.getLsbD i = false := by
  -- the live buffers are those of the bits that are set, each once
  let set := (List.range s.count).filter fun i => s.allocationBitmap.getLsbD i
  have hinj : ∀ i ∈ set, ∀ j ∈ set, s.buffer i = s.buffer j → i = j := by
    intro i hi j hj he
    exact hm.buffer_inj (mem_range.mp (mem_filter.mp hi).1) (mem_range.mp (mem_filter.mp hj).1) he
  have hperm : s.live.Perm (set.map s.buffer) := by
    refine (perm_ext_iff_of_nodup h.nodup
      (List.Nodup.map_on hinj (nodup_range.filter _))).mpr fun b => ?_
    rw [h.mem_live b, List.mem_map]
    simp only [set, mem_filter, mem_range, and_assoc]
  have hlen : s.live.length = set.length := by rw [hperm.length_eq, length_map]
  have hlt := @List.length_filter_lt_length_iff_exists _
    (fun i => s.allocationBitmap.getLsbD i) (List.range s.count)
  rw [length_range] at hlt
  rw [hlen, hlt]
  simp

variable {θ : Type} [DecidableEq θ]

/-- A call of `FincommAllocateBuffer` by a thread that runs alone ends. It returns
a buffer that was free if not all are live, and `NULL` if all are. -/
def AllocatesRight (p : Pool θ ArenaPc Arena) (t : θ) : Prop :=
  ∃ n p' r, run Arena.step p ((t, .allocate) :: replicate n (t, .next)) =
      some ([.allocated r], p') ∧ p'.pcs t = .idle ∧
    (p.shared.live.length < p.shared.count → ∃ i < p.shared.count, r = some (p.shared.buffer i) ∧
        p.shared.buffer i ∉ p.shared.live) ∧
    (p.shared.live.length = p.shared.count → r = none)

section Alone

variable {p : Pool θ ArenaPc Arena} {t : θ} {s : Arena}

theorem ne_allOnes {b : BitVec 64} (hi : i < 64) (h : b.getLsbD i = false) :
    b ≠ BitVec.allOnes 64 := by
  rintro rfl
  rw [BitVec.getLsbD_allOnes, decide_eq_true hi] at h
  cases h

section Exec

variable {a : ArenaAct} {index : Nat}

theorem exec_guard_free (h : s.allocationBitmap ≠ BitVec.allOnes 64) :
    s.exec a (.alloc (.guard index)) = some ([], .alloc (.load index), s) :=
  congrArg some (if_neg h)

theorem exec_guard_full (h : s.allocationBitmap = BitVec.allOnes 64) :
    s.exec a (.alloc (.guard index)) = some ([.allocated none], .idle, s) :=
  congrArg some (if_pos h)

theorem exec_load_free (hm : s.Mapped) (h : s.allocationBitmap.getLsbD (s.next index) = false) :
    s.exec a (.alloc (.load index)) =
      some ([], .alloc (.cas s.allocationBitmap (s.next index)), s) := by
  refine congrArg some (if_neg fun he => ?_)
  rw [insert_eq_self (Nat.lt_of_lt_of_le (hm.next_lt index) hm.count_le), h] at he
  cases he

theorem exec_load_set (hm : s.Mapped) (h : s.allocationBitmap.getLsbD (s.next index) = true) :
    s.exec a (.alloc (.load index)) = some ([], .alloc (.guard (s.next index)), s) :=
  congrArg some <| if_pos <|
    (insert_eq_self (Nat.lt_of_lt_of_le (hm.next_lt index) hm.count_le) _).mpr h

theorem exec_cas : s.exec a (.alloc (.cas s.allocationBitmap index)) =
    some ([], .alloc (.store index),
      { s with allocationBitmap := s.allocationBitmap ||| mask index }) :=
  congrArg some (if_pos rfl)

theorem exec_cas_fails {old : BitVec 64} (h : s.allocationBitmap ≠ old) :
    s.exec a (.alloc (.cas old index)) = some ([], .alloc (.guard index), s) :=
  congrArg some (if_neg h)

theorem exec_store : s.exec a (.alloc (.store index)) =
    some ([.allocated (some (s.buffer index))], .idle,
      { s with lastAllocated := index, live := s.buffer index :: s.live }) := rfl

end Exec

/-- The arena after buffer `i` was allocated. -/
def Arena.take (s : Arena) (i : Nat) : Arena :=
  { s with
    allocationBitmap := s.allocationBitmap ||| mask i
    lastAllocated := i
    live := s.buffer i :: s.live }

theorem search_found (hm : s.Mapped) {index : Nat}
    (h : s.allocationBitmap.getLsbD (s.next index) = false) :
    run Arena.step (p.set t (.alloc (.guard index)) s) (replicate 4 (t, .next)) =
      some ([.allocated (some (s.buffer (s.next index)))],
        p.set t .idle (s.take (s.next index))) := by
  have hne : s.allocationBitmap ≠ BitVec.allOnes 64 :=
    ne_allOnes (Nat.lt_of_lt_of_le (hm.next_lt index) hm.count_le) h
  refine run_silent (Pool.step_set (exec_guard_free hne)) ?_
  refine run_silent (step_set (exec_load_free hm h)) ?_
  refine run_silent (step_set exec_cas) ?_
  exact run_single (step_set exec_store)

/-- A free bit that is `d` indices after the next one is reached, unless the search
ends before. -/
theorem search_ends (hm : s.Mapped) (hj : j < s.count)
    (hfree : s.allocationBitmap.getLsbD j = false) : ∀ d index,
    (s.next index + d) % s.count = j → ∃ n i, i < s.count ∧ s.allocationBitmap.getLsbD i = false ∧
      run Arena.step (p.set t (.alloc (.guard index)) s) (replicate n (t, .next)) =
        some ([.allocated (some (s.buffer i))], p.set t .idle (s.take i)) := by
  intro d
  have hcount := hm.count_le
  have hne : s.allocationBitmap ≠ BitVec.allOnes 64 := ne_allOnes (by omega) hfree
  induction d with
  | zero =>
    intro index hd
    rw [Nat.add_zero, Nat.mod_eq_of_lt (hm.next_lt index)] at hd
    have hbit : s.allocationBitmap.getLsbD (s.next index) = false := by rw [hd, hfree]
    exact ⟨4, _, hm.next_lt index, hbit, search_found hm hbit⟩
  | succ d ih =>
    intro index hd
    cases hbit : s.allocationBitmap.getLsbD (s.next index) with
    | false => exact ⟨4, _, hm.next_lt index, hbit, search_found hm hbit⟩
    | true =>
      have hnext : (s.next (s.next index) + d) % s.count = j := by
        rw [hm.next_eq (hm.next_lt index), Nat.mod_add_mod, Nat.add_assoc, Nat.add_comm 1 d]
        exact hd
      obtain ⟨n, i, hi, hclear, hrun⟩ := ih (s.next index) hnext
      refine ⟨n + 2, i, hi, hclear, ?_⟩
      exact run_silent (Pool.step_set (exec_guard_free hne))
        (run_silent (Pool.step_set (exec_load_set hm hbit)) hrun)

/-- A thread is looking for a free bit. -/
def ArenaPc.Looking : ArenaPc → Prop
  | .alloc .hint | .alloc (.guard _) | .alloc (.load _) => True
  | _ => False

/-- If every index of the arena is allocated and some other bit is clear, the search
goes on for ever. -/
theorem search_goes_on (hm : s.Mapped) (hne : s.allocationBitmap ≠ BitVec.allOnes 64)
    (hset : ∀ i < s.count, s.allocationBitmap.getLsbD i = true) {tr : List ArenaEvent}
    {p' : Pool θ ArenaPc Arena} : ∀ {n : Nat} {pc : ArenaPc}, pc.Looking →
    run Arena.step (p.set t pc s) (replicate n (t, .next)) = some (tr, p') →
    (p'.pcs t).Looking := by
  intro n
  induction n generalizing tr with
  | zero =>
    intro pc hpc hrun
    obtain ⟨-, rfl⟩ := Prod.mk.inj (some.inj hrun)
    rw [set_pcs_self]
    exact hpc
  | succ n ih =>
    intro pc hpc hrun
    obtain ⟨ev, p1, evs, hstep, hrun, -⟩ := run_cons hrun
    have hnext : ∃ pc', ArenaPc.Looking pc' ∧ s.exec .next pc = some ([], pc', s) := by
      rcases pc with _ | (_ | index | index | _ | _) | _ | _
      case alloc.hint => exact ⟨.alloc (.guard _), trivial, rfl⟩
      case alloc.guard => exact ⟨.alloc (.load index), trivial, exec_guard_free hne⟩
      case alloc.load =>
        exact ⟨.alloc (.guard _), trivial, exec_load_set hm (hset _ (hm.next_lt index))⟩
      all_goals exact hpc.elim
    obtain ⟨pc', hpc', he⟩ := hnext
    rw [Arena.step, Pool.step_set he] at hstep
    obtain ⟨-, rfl⟩ := Prod.mk.inj (some.inj hstep)
    exact ih hpc' hrun

end Alone

theorem step_allocate {p : Pool θ ArenaPc Arena} {t : θ} (ht : p.pcs t = .idle) :
    Arena.step p (t, .allocate) = some ([], p.set t (.alloc .hint) p.shared) :=
  Pool.step_of_exec ht rfl

/-- With fewer than 64 buffers, all of them live, the call does not end. -/
theorem allocate_not_right {p : Pool θ ArenaPc Arena} {t : θ} (hm : p.shared.Mapped)
    (hs : p.shared.Settled) (ht : p.pcs t = .idle) (hfull : ¬ p.shared.live.length < p.shared.count)
    (hcount : p.shared.count ≠ 64) : ¬ AllocatesRight p t := by
  rintro ⟨n, p', r, hrun, hidle, -, -⟩
  obtain ⟨ev, p1, evs, hstep, hrun, -⟩ := run_cons hrun
  rw [step_allocate ht] at hstep
  obtain ⟨-, rfl⟩ := Prod.mk.inj (some.inj hstep)
  have hset : ∀ i < p.shared.count, p.shared.allocationBitmap.getLsbD i = true := by
    intro i hi
    by_contra hb
    exact hfull ((hs.length_lt_iff hm).mpr ⟨i, hi, Bool.eq_false_iff.mpr hb⟩)
  have hle := hm.count_le
  have hne : p.shared.allocationBitmap ≠ BitVec.allOnes 64 :=
    ne_allOnes (show p.shared.count < 64 by omega) (hs.clear _ (Nat.le_refl _))
  have hlook := search_goes_on hm hne hset (show ArenaPc.Looking (.alloc .hint) from trivial) hrun
  rw [hidle] at hlook
  exact hlook

/-- `FincommAllocateBuffer` does what it should for a thread that runs alone, if and
only if a buffer is free or the arena has one for each bit of the word. -/
theorem allocate_right_iff {p : Pool θ ArenaPc Arena} {t : θ} (hm : p.shared.Mapped)
    (hs : p.shared.Settled) (ht : p.pcs t = .idle) :
    AllocatesRight p t ↔ p.shared.live.length < p.shared.count ∨ p.shared.count = 64 := by
  have hlt := hs.length_lt_iff hm
  constructor
  · intro hright
    by_contra hc
    rw [not_or] at hc
    exact allocate_not_right hm hs ht hc.1 hc.2 hright
  intro hc
  have hhint : Arena.step (p.set t (.alloc .hint) p.shared) (t, .next) =
      some ([], p.set t (.alloc (.guard p.shared.lastAllocated)) p.shared) := Pool.step_set rfl
  by_cases hfree : p.shared.live.length < p.shared.count
  · obtain ⟨j, hj, hclear⟩ := hlt.mp hfree
    have hd : (p.shared.next p.shared.lastAllocated +
        (j + p.shared.count - p.shared.next p.shared.lastAllocated)) % p.shared.count = j := by
      have := hm.next_lt p.shared.lastAllocated
      rw [Nat.add_sub_cancel' (by omega), Nat.add_mod_right, Nat.mod_eq_of_lt hj]
    obtain ⟨n, i, hi, hbit, hrun⟩ := search_ends (p := p) (t := t) hm hj hclear _ _ hd
    refine ⟨n + 1, _, some (p.shared.buffer i),
      run_silent (step_allocate ht) (run_silent hhint hrun), set_pcs_self _ _ _ _,
      fun _ => ⟨i, hi, rfl, fun hlive => ?_⟩, fun hall => ?_⟩
    · obtain ⟨k, hk, hset, hbuf⟩ := (hs.mem_live _).mp hlive
      rw [hm.buffer_inj hk hi hbuf, hbit] at hset
      cases hset
    · omega
  · -- all buffers are live, and there is one for each bit
    have hcount : p.shared.count = 64 := hc.resolve_left hfree
    have hfull : p.shared.allocationBitmap = BitVec.allOnes 64 := by
      refine BitVec.eq_of_getLsbD_eq fun i hi => ?_
      rw [BitVec.getLsbD_allOnes, decide_eq_true hi]
      by_contra hb
      exact hfree (hlt.mpr ⟨i, by omega, Bool.eq_false_iff.mpr hb⟩)
    refine ⟨2, p.set t .idle p.shared, none, run_silent (step_allocate ht)
      (run_silent hhint ?_), set_pcs_self _ _ _ _,
      fun h => absurd h hfree, fun _ => rfl⟩
    exact run_single (step_set (exec_guard_full hfull))

/-- A new arena with two buffers. -/
def twoBuffers : Arena := ⟨⟨65536, 16, 2, 4096⟩, 0#64, 1, []⟩

theorem twoBuffers_create : fincommCreateArena 65536 16 2 = some twoBuffers := by
  decide +kernel

theorem twoBuffers_mapped : twoBuffers.Mapped :=
  ⟨by decide, by decide, by decide, rfl, by decide +kernel⟩

theorem twoBuffers_settled : twoBuffers.Settled :=
  ⟨fun _ _ => BitVec.getLsbD_zero, nodup_nil, fun b => by simp [twoBuffers]⟩

theorem allocate_right_iff_twoBuffers :
    AllocatesRight (⟨fun _ => .idle, twoBuffers⟩ : Pool Unit ArenaPc Arena) () :=
  (allocate_right_iff twoBuffers_mapped twoBuffers_settled rfl).mpr (.inl (show 0 < 2 by decide))

/-- An arena with one buffer, which is live. -/
def oneLive : Arena := ⟨⟨65536, 16, 1, 4096⟩, 1#64, 0, [69632]⟩

theorem allocate_never_returns : oneLive.Mapped ∧ oneLive.Settled ∧
    ¬ AllocatesRight (⟨fun _ => .idle, oneLive⟩ : Pool Unit ArenaPc Arena) () := by
  have hm : oneLive.Mapped := ⟨by decide, by decide, by decide, rfl, by decide +kernel⟩
  have hbit : ∀ i, (1#64 : BitVec 64).getLsbD i = decide (i = 0) := by
    intro i
    rw [BitVec.getLsbD_one]
    simp
  have hs : oneLive.Settled := by
    refine ⟨fun i hi => ?_, nodup_singleton _, fun b => ?_⟩
    · exact (hbit i).trans (decide_eq_false (Nat.ne_of_gt hi))
    simp only [oneLive, hbit, mem_singleton, Nat.lt_one_iff, decide_eq_true_eq,
      exists_eq_left, true_and]
    exact eq_comm
  exact ⟨hm, hs, allocate_not_right hm hs rfl (show ¬ 1 < 1 by decide) (show 1 ≠ 64 by decide)⟩

/-! ## All interleavings -/

/-- What holds of an arena and its threads in every state. -/
structure ArenaSafe (p : Pool θ ArenaPc Arena) : Prop where
  disjoint : p.shared.live.Pairwise fun a b =>
    a + p.shared.size ≤ b ∨ b + p.shared.size ≤ a
  inside : ∀ b ∈ p.shared.live, p.shared.base + arenaControlAreaSize ≤ b ∧ b + p.shared.size ≤
      p.shared.base + arenaControlAreaSize + p.shared.size * p.shared.count
  clear : ∀ i, p.shared.count ≤ i → p.shared.allocationBitmap.getLsbD i = false
  asserts : ∀ t, p.pcs t ≠ .failed

/-- A swap that gives a buffer back clears the bit of the buffer and no other. -/
def FreesRight (p : Pool θ ArenaPc Arena) (a : θ × ArenaAct) : Prop :=
  match p.pcs a.1 with
  | .free (.cas buffer index old new) => p.shared.allocationBitmap = old →
      index < p.shared.count ∧ p.shared.buffer index = buffer ∧
      p.shared.allocationBitmap.getLsbD index = true ∧
      ∀ j, new.getLsbD j = (p.shared.allocationBitmap.getLsbD j && !decide (index = j))
  | _ => True

/-- `FincommFreeBuffer` reads the word that it has read just before. -/
def RereadsSame (p : Pool θ ArenaPc Arena) (a : θ × ArenaAct) : Prop :=
  match p.pcs a.1 with
  | .free (.reload _ _ old) => p.shared.allocationBitmap = old
  | _ => True

/-- The buffer that a thread has and that is not live: it was just allocated, or it
is being given back. -/
def ArenaPc.owned (l : ArenaLayout) : ArenaPc → Option Nat
  | .alloc (.store index) => some (l.buffer index)
  | .free (.check buffer) | .free (.load buffer _) | .free (.reload buffer _ _)
  | .free (.cas buffer _ _ _) => some buffer
  | _ => none

/-- What a thread knows from the code it has passed. -/
def ArenaPc.Knows (l : ArenaLayout) : ArenaPc → Prop
  | .alloc (.cas old index) => index < l.count ∧ old.getLsbD index = false
  | .alloc (.store index) => index < l.count
  | .free (.load buffer index) => index < l.count ∧ l.buffer index = buffer
  | .free (.reload buffer index old) =>
    index < l.count ∧ l.buffer index = buffer ∧ old.getLsbD index = true
  | .free (.cas buffer index old new) =>
    index < l.count ∧ l.buffer index = buffer ∧ old.getLsbD index = true ∧
      new = old &&& ~~~mask index
  | .failed => False
  | _ => True

/-- The buffer at `b` is allocated. -/
def Arena.Allocated (s : Arena) (b : Nat) : Prop :=
  ∃ i < s.count, s.allocationBitmap.getLsbD i = true ∧ s.buffer i = b

/-- What one access of a thread at `pc` can do. -/
inductive Arena.Changes (s : Arena) (pc : ArenaPc) : ArenaPc → Arena → Prop
  -- nothing that another thread sees
  | quiet {pc' : ArenaPc} (knows : pc'.Knows s.toArenaLayout)
      (owned : pc'.owned s.toArenaLayout = pc.owned s.toArenaLayout) : s.Changes pc pc' s
  -- a live buffer is not live any more
  | giveBack {b : Nat} (mem : b ∈ s.live) :
      s.Changes pc (.free (.check b)) { s with live := s.live.erase b }
  -- a clear bit is set
  | take {i : Nat} (lt : i < s.count) (bit : s.allocationBitmap.getLsbD i = false) :
      s.Changes pc (.alloc (.store i))
        { s with allocationBitmap := s.allocationBitmap ||| mask i }
  -- the buffer that the thread has is live
  | handOut {i : Nat} (owned : pc.owned s.toArenaLayout = some (s.buffer i)) :
      s.Changes pc .idle { s with lastAllocated := i, live := s.buffer i :: s.live }
  -- its bit is cleared
  | clear {i : Nat} (lt : i < s.count)
      (owned : pc.owned s.toArenaLayout = some (s.buffer i)) :
      s.Changes pc .idle { s with allocationBitmap := s.allocationBitmap &&& ~~~mask i }

section Changes

variable {s s' : Arena} {pc' : ArenaPc} {ev : List ArenaEvent} {a : ArenaAct}

theorem alloc_changes (hm : s.Mapped) {pc : AllocPc}
    (hknows : (ArenaPc.alloc pc).Knows s.toArenaLayout)
    (h : s.exec a (.alloc pc) = some (ev, pc', s')) : s.Changes (.alloc pc) pc' s' := by
  cases pc with
  | hint => cases h; exact .quiet trivial rfl
  | guard index =>
    by_cases hfull : s.allocationBitmap = BitVec.allOnes 64
    · rw [exec_guard_full hfull] at h
      cases h
      exact .quiet trivial rfl
    · rw [exec_guard_free hfull] at h
      cases h
      exact .quiet trivial rfl
  | load index =>
    cases hbit : s.allocationBitmap.getLsbD (s.next index) with
    | false =>
      rw [exec_load_free hm hbit] at h
      cases h
      exact .quiet ⟨hm.next_lt index, hbit⟩ rfl
    | true =>
      rw [exec_load_set hm hbit] at h
      cases h
      exact .quiet trivial rfl
  | cas old index =>
    by_cases heq : s.allocationBitmap = old
    · subst heq
      rw [exec_cas] at h
      cases h
      exact .take hknows.1 hknows.2
    · rw [exec_cas_fails heq] at h
      cases h
      exact .quiet trivial rfl
  | store index => cases h; exact .handOut rfl

/-- No assertion of `FincommFreeBuffer` fails for the address of an allocated buffer. -/
theorem free_changes (hm : s.Mapped) {pc : FreePc}
    (hknows : (ArenaPc.free pc).Knows s.toArenaLayout)
    (howns : ∀ b, (ArenaPc.free pc).owned s.toArenaLayout = some b → s.Allocated b)
    (hsame : ∀ b i old, pc = .reload b i old → s.allocationBitmap = old)
    (h : s.fincommFreeBuffer pc = (ev, pc', s')) : s.Changes (.free pc) pc' s' := by
  cases pc with
  | check b =>
    obtain ⟨i, hi, hbit, rfl⟩ := howns b rfl
    simp only [Arena.fincommFreeBuffer, hm.indexOf_buffer hi, elim_some] at h
    rw [if_neg] at h
    · cases h
      exact .quiet ⟨hi, rfl⟩ rfl
    · rw [and_mask_eq_zero (Nat.lt_of_lt_of_le hi hm.count_le), hbit]
      nofun
  | load b i =>
    cases h
    obtain ⟨hi, rfl⟩ := hknows
    obtain ⟨k, hk, hbit, hbuf⟩ := howns _ rfl
    rw [hm.buffer_inj hk hi hbuf] at hbit
    exact .quiet ⟨hi, rfl, hbit⟩ rfl
  | reload b i old =>
    obtain ⟨hi, rfl, hbit⟩ := hknows
    obtain rfl := hsame _ _ _ rfl
    simp only [Arena.fincommFreeBuffer] at h
    rw [if_neg] at h
    · cases h
      exact .quiet ⟨hi, rfl, hbit, rfl⟩ rfl
    · rw [remove_eq_self (Nat.lt_of_lt_of_le hi hm.count_le), hbit]
      nofun
  | cas b i old new =>
    obtain ⟨hi, rfl, hbit, rfl⟩ := hknows
    simp only [Arena.fincommFreeBuffer] at h
    split at h
    · next heq =>
      subst heq
      cases h
      exact .clear hi rfl
    · cases h
      exact .quiet ⟨hi, rfl⟩ rfl

theorem exec_changes (hm : s.Mapped) {pc : ArenaPc} (hknows : pc.Knows s.toArenaLayout)
    (howns : ∀ b, pc.owned s.toArenaLayout = some b → s.Allocated b)
    (hsame : ∀ b i old, pc = .free (.reload b i old) → s.allocationBitmap = old)
    (h : s.exec a pc = some (ev, pc', s')) : s.Changes pc pc' s' := by
  cases pc with
  | idle =>
    cases a with
    | allocate => cases h; exact .quiet trivial rfl
    | free b =>
      obtain ⟨hb, h⟩ := ite_none_right_eq_some.mp h
      cases h
      exact .giveBack hb
    | next => cases h
  | alloc pc => exact alloc_changes hm hknows h
  | free pc =>
    refine free_changes hm hknows howns (fun b i old he => hsame b i old ?_) (some.inj h)
    rw [he]
  | failed => cases h

end Changes

structure ArenaInv (p : Pool θ ArenaPc Arena) : Prop where
  mapped : p.shared.Mapped
  clear : ∀ i, p.shared.count ≤ i → p.shared.allocationBitmap.getLsbD i = false
  nodup : p.shared.live.Nodup
  live : ∀ b ∈ p.shared.live, p.shared.Allocated b
  knows : ∀ t, (p.pcs t).Knows p.shared.toArenaLayout
  exclusive : p.Exclusive (ArenaPc.owned p.shared.toArenaLayout)
  owns : ∀ t b, (p.pcs t).owned p.shared.toArenaLayout = some b →
    p.shared.Allocated b ∧ b ∉ p.shared.live

namespace ArenaInv

variable {p : Pool θ ArenaPc Arena} {t : θ} {pc : ArenaPc} {s : Arena}

omit [DecidableEq θ] in
theorem start (hm : s.Mapped) (hbits : s.allocationBitmap = 0#64) (hlive : s.live = []) :
    ArenaInv (⟨fun _ => .idle, s⟩ : Pool θ ArenaPc Arena) where
  mapped := hm
  clear i _ := by rw [hbits, BitVec.getLsbD_zero]
  nodup := by rw [hlive]; exact nodup_nil
  live b hb := by rw [hlive] at hb; cases hb
  knows _ := trivial
  exclusive t u k h := by cases h
  owns t b h := by cases h

omit [DecidableEq θ] in
theorem safe (h : ArenaInv p) : ArenaSafe p where
  disjoint := by
    refine h.nodup.imp_of_mem fun {a b} ha hb hab => ?_
    obtain ⟨i, hi, -, rfl⟩ := h.live a ha
    obtain ⟨j, hj, -, rfl⟩ := h.live b hb
    rcases Nat.lt_trichotomy i j with hij | rfl | hij
    · exact .inl (h.mapped.disjoint hi hj hij)
    · exact absurd rfl hab
    · exact .inr (h.mapped.disjoint hj hi hij)
  inside b hb := by
    obtain ⟨i, hi, -, rfl⟩ := h.live b hb
    have := ArenaLayout.Mapped.offset_le hi
    rw [h.mapped.buffer_eq hi]
    omega
  clear := h.clear
  asserts t hf := by
    have := h.knows t
    rw [hf] at this
    exact this

theorem set (h : ArenaInv p) (hlayout : s.toArenaLayout = p.shared.toArenaLayout)
    (hclear : ∀ i, s.count ≤ i → s.allocationBitmap.getLsbD i = false)
    (hnodup : s.live.Nodup) (hlive : ∀ b ∈ s.live, s.Allocated b)
    (hknows : pc.Knows s.toArenaLayout)
    (hnew : ∀ b, pc.owned s.toArenaLayout = some b → (s.Allocated b ∧ b ∉ s.live) ∧
      ((p.pcs t).owned p.shared.toArenaLayout = some b ∨
        ∀ u, u ≠ t → (p.pcs u).owned p.shared.toArenaLayout ≠ some b))
    (hothers : ∀ u, u ≠ t → ∀ b, (p.pcs u).owned p.shared.toArenaLayout = some b →
      s.Allocated b ∧ b ∉ s.live) : ArenaInv (p.set t pc s) where
  mapped := by rw [set_shared, hlayout]; exact h.mapped
  clear := hclear
  nodup := hnodup
  live := hlive
  knows := asserts_set (A := fun _ pc (s : Arena) => ArenaPc.Knows s.toArenaLayout pc) hknows
    fun u _ => hlayout ▸ h.knows u
  exclusive := by
    rw [set_shared, hlayout]
    exact h.exclusive.set fun b hb => (hnew b (hlayout ▸ hb)).2
  owns := by
    refine asserts_set (A := fun _ pc (s : Arena) => ∀ b,
      ArenaPc.owned s.toArenaLayout pc = some b → s.Allocated b ∧ b ∉ s.live)
      (fun b hb => (hnew b hb).1) fun u hu b hb => ?_
    rw [hlayout] at hb
    exact hothers u hu b hb

theorem step (h : ArenaInv p) {a : ArenaAct} {ev : List ArenaEvent} (hsame : RereadsSame p (t, a))
    (he : p.shared.exec a (p.pcs t) = some (ev, pc, s)) : ArenaInv (p.set t pc s) := by
  have hcount := h.mapped.count_le
  have hreread : ∀ b i old, p.pcs t = .free (.reload b i old) →
      p.shared.allocationBitmap = old := by
    intro b i old hpc
    simpa only [RereadsSame, hpc] using hsame
  rcases exec_changes h.mapped (h.knows t) (fun b hb => (h.owns t b hb).1) hreread he with
    ⟨hknows, howned⟩ | @⟨b, hb⟩ | @⟨i, hi, hbit⟩ | @⟨i, howned⟩ | @⟨i, hi, howned⟩
  · refine h.set rfl h.clear h.nodup h.live hknows (fun b hb => ?_) fun u _ => h.owns u
    rw [howned] at hb
    exact ⟨h.owns t b hb, .inl hb⟩
  · refine h.set rfl h.clear (h.nodup.erase b) (fun c hc => h.live c (mem_of_mem_erase hc))
      trivial (fun c hc => ?_) fun u _ c hc => ?_
    · cases hc
      refine ⟨⟨h.live b hb, h.nodup.not_mem_erase⟩, .inr fun u _ hu => ?_⟩
      exact (h.owns u b hu).2 hb
    · exact ⟨(h.owns u c hc).1, fun hmem => (h.owns u c hc).2 (mem_of_mem_erase hmem)⟩
  · -- the bit was clear, so nobody has the buffer
    have hnot : ¬ p.shared.Allocated (p.shared.buffer i) := by
      rintro ⟨k, hk, hset, hbuf⟩
      rw [h.mapped.buffer_inj hk hi hbuf, hbit] at hset
      cases hset
    have hmono : ∀ b, p.shared.Allocated b → Arena.Allocated { p.shared with
        allocationBitmap := p.shared.allocationBitmap ||| mask i } b := by
      rintro b ⟨k, hk, hset, hbuf⟩
      exact ⟨k, hk, by simp [getLsbD_insert (show i < 64 by omega), hset], hbuf⟩
    refine h.set rfl (fun j hj => ?_) h.nodup (fun b hb => hmono b (h.live b hb)) hi
      (fun b hb => ?_) fun u _ b hb => ?_
    · dsimp only at hj ⊢
      rw [getLsbD_insert (by omega), h.clear j hj, decide_eq_false (show i ≠ j by omega)]
      rfl
    · cases hb
      refine ⟨⟨⟨i, hi, ?_, rfl⟩, fun hlive => hnot (h.live _ hlive)⟩, .inr fun u _ hu => ?_⟩
      · simp [getLsbD_insert (show i < 64 by omega)]
      · exact hnot (h.owns u _ hu).1
    · exact ⟨hmono b (h.owns u b hb).1, (h.owns u b hb).2⟩
  · obtain ⟨halloc, hfresh⟩ := h.owns t _ howned
    refine h.set rfl h.clear (nodup_cons.mpr ⟨hfresh, h.nodup⟩) (fun b hb => ?_) trivial
      (fun b hb => nomatch hb) fun u hu b hb => ⟨(h.owns u b hb).1, fun hmem => ?_⟩
    · rcases mem_cons.mp hb with rfl | hb
      · exact halloc
      · exact h.live b hb
    · rcases mem_cons.mp hmem with rfl | hmem
      · exact hu (h.exclusive u t _ hb howned)
      · exact (h.owns u b hb).2 hmem
  · -- only the buffer of the cleared bit is not allocated any more
    have hkeep : ∀ b, b ≠ p.shared.buffer i → p.shared.Allocated b → Arena.Allocated { p.shared with
          allocationBitmap := p.shared.allocationBitmap &&& ~~~mask i } b := by
      rintro b hne ⟨k, hk, hset, rfl⟩
      have hki : i ≠ k := fun he => hne (he ▸ rfl)
      exact ⟨k, hk, by simp [getLsbD_remove (show i < 64 by omega), hset, hki], rfl⟩
    refine h.set rfl (fun j hj => ?_) h.nodup (fun b hb => hkeep b ?_ (h.live b hb)) trivial
      (fun b hb => nomatch hb) fun u hu b hb => ⟨hkeep b ?_ (h.owns u b hb).1, (h.owns u b hb).2⟩
    · dsimp only at hj ⊢
      rw [getLsbD_remove (by omega), h.clear j hj, Bool.false_and]
    · rintro rfl
      exact (h.owns t _ howned).2 hb
    · rintro rfl
      exact hu (h.exclusive u t _ hb howned)

omit [DecidableEq θ] in
theorem freesRight (h : ArenaInv p) (a : ArenaAct) : FreesRight p (t, a) := by
  have hknows := h.knows t
  simp only [FreesRight]
  split
  · next buffer index old new hpc =>
    rw [hpc] at hknows
    obtain ⟨hi, hbuf, hbit, rfl⟩ := hknows
    rintro rfl
    exact ⟨hi, hbuf, hbit, fun j =>
      getLsbD_remove (Nat.lt_of_lt_of_le hi h.mapped.count_le) _ j⟩
  · trivial

end ArenaInv

/-- In every run in which `FincommFreeBuffer` never reads two different words, the
live buffers are disjoint and inside the arena, the bits from `Count` on are clear,
no assertion fails, and a buffer that is given back loses its bit and no other does. -/
theorem arena_safe {base bufferSize count : Nat} {s : Arena}
    (hcreate : fincommCreateArena base bufferSize count = some s)
    (hfits : base + arenaControlAreaSize + s.size * s.count ≤ 2 ^ 64) {as : List (θ × ArenaAct)}
    (h : Along Arena.step RereadsSame ⟨fun _ => .idle, s⟩ as) :
    Always Arena.step ArenaSafe ⟨fun _ => .idle, s⟩ as ∧
    Along Arena.step FreesRight ⟨fun _ => .idle, s⟩ as := by
  obtain ⟨hm, hbits, hlive⟩ := mapped_of_create hcreate hfits
  have hstart : ArenaInv (⟨fun _ => .idle, s⟩ : Pool θ ArenaPc Arena) :=
    ArenaInv.start hm hbits hlive
  have hstep : ∀ (p : Pool θ ArenaPc Arena) a ev p', ArenaInv p → RereadsSame p a →
      Arena.step p a = some (ev, p') → ArenaInv p' := by
    intro p a ev p' hi hsame hs
    obtain ⟨pc, s', he, rfl⟩ := Pool.step_inv hs
    exact hi.step hsame he
  exact ⟨always_of_along (fun _ => ArenaInv.safe) hstep hstart h,
    along_of_along (fun _ a hi _ => hi.freesRight a.2) hstep hstart h⟩

def RereadsSame.test (p : Pool θ ArenaPc Arena) (a : θ × ArenaAct) : Bool :=
  match p.pcs a.1 with
  | .free (.reload _ _ old) => decide (p.shared.allocationBitmap = old)
  | _ => true

omit [DecidableEq θ] in
theorem RereadsSame.of_test (p : Pool θ ArenaPc Arena) (a : θ × ArenaAct)
    (h : RereadsSame.test p a = true) : RereadsSame p a := by
  unfold RereadsSame
  unfold RereadsSame.test at h
  split at h
  · exact of_decide_eq_true h
  · trivial

/-- A call and the `n` steps that follow it. -/
def ArenaAct.steps (t : θ) (a : ArenaAct) (n : Nat) : List (θ × ArenaAct) :=
  (t, a) :: replicate n (t, .next)

/-- A thread allocates a buffer and gives it back, while another allocates one. -/
def allocateAndFree : List (Bool × ArenaAct) :=
  ArenaAct.allocate.steps false 5 ++ (ArenaAct.free 69632).steps false 1 ++
    ArenaAct.allocate.steps true 5 ++ replicate 3 (false, .next)

theorem arena_safe_allocateAndFree :
    Always Arena.step ArenaSafe ⟨fun _ => .idle, twoBuffers⟩ allocateAndFree ∧
    Along Arena.step FreesRight ⟨fun _ => .idle, twoBuffers⟩ allocateAndFree :=
  arena_safe twoBuffers_create (by decide +kernel)
    (along_of_check (fun a _ p => RereadsSame.of_test p a) (by decide +kernel))

/-- A thread gives the first buffer back. After it has read the word for the first
time, another thread gives the second buffer back, and before the swap it allocates
it again. -/
def freeInBetween : List (Bool × ArenaAct) :=
  ArenaAct.allocate.steps false 5 ++ ArenaAct.allocate.steps true 5 ++
    (ArenaAct.free 69632).steps false 2 ++ (ArenaAct.free 69648).steps true 4 ++
    [(false, .next)] ++ ArenaAct.allocate.steps true 7 ++ [(false, .next)]

/-- Both bits are clear then, and the second buffer is handed out twice. -/
theorem buffer_allocated_twice : ∃ tr p', fincommCreateArena 65536 16 2 = some twoBuffers ∧
    run Arena.step (⟨fun _ => .idle, twoBuffers⟩ : Pool Bool ArenaPc Arena)
      (freeInBetween ++ ArenaAct.allocate.steps false 5 ++ ArenaAct.allocate.steps false 5) =
      some (tr, p') ∧
    p'.shared.live = [69648, 69632, 69648] ∧ ¬ ArenaSafe p' := by
  have hrun : ((run Arena.step (⟨fun _ => .idle, twoBuffers⟩ : Pool Bool ArenaPc Arena)
      (freeInBetween ++ ArenaAct.allocate.steps false 5 ++
        ArenaAct.allocate.steps false 5)).map fun q => (q.2.shared.live, q.2.shared.size)) =
      some ([69648, 69632, 69648], 16) := by decide +kernel
  obtain ⟨⟨tr, p'⟩, hr, hq⟩ := map_eq_some_iff.mp hrun
  obtain ⟨hlive, hsize⟩ := Prod.mk.inj hq
  refine ⟨tr, p', twoBuffers_create, hr, hlive, fun hsafe => ?_⟩
  have hdisjoint := hsafe.disjoint
  rw [hlive, hsize] at hdisjoint
  simp at hdisjoint

/-! ## The length of the mapping -/

/-- `ArenaSize`: the length of the file and of the mapping. -/
def ArenaLayout.arenaSize (l : ArenaLayout) : Nat :=
  (arenaControlAreaSize + l.size * l.count) % 2 ^ 64

/-- The mapping is as long as the arena, and every buffer lies in it. -/
structure ArenaLayout.MappedWhole (l : ArenaLayout) : Prop where
  length : l.arenaSize = arenaControlAreaSize + l.size * l.count
  inside : ∀ index < l.count,
    l.base ≤ l.buffer index ∧ l.buffer index + l.size ≤ l.base + l.arenaSize

/-- The sizes that fit into a word are the ones for which the mapping is right. The
assertion that compares the sum with the size of the header lets others through. -/
theorem mapped_whole_iff {base bufferSize count : Nat} {a : Arena}
    (h : fincommCreateArena base bufferSize count = some a)
    (hbase : base + a.arenaSize ≤ 2 ^ 64) :
    a.MappedWhole ↔ arenaControlAreaSize +
      (if bufferSize = 0 then 64 * 1024 * 1024 else bufferSize) *
      (if count = 0 then 64 else count) < 2 ^ 64 := by
  unfold fincommCreateArena at h
  dsimp only at h
  generalize (if bufferSize = 0 then 64 * 1024 * 1024 else bufferSize) = size at h ⊢
  generalize (if count = 0 then 64 else count) = n at h ⊢
  split at h
  case isFalse => cases h
  next haccept =>
  obtain rfl := some.inj h
  constructor
  · intro hright
    exact hright.length ▸ Nat.mod_lt _ (Nat.two_pow_pos 64)
  intro hfits
  have hlen : (arenaControlAreaSize + size * n) % 2 ^ 64 = arenaControlAreaSize + size * n :=
    Nat.mod_eq_of_lt hfits
  refine ⟨hlen, fun index hi => ?_⟩
  have hend : index * size + size ≤ size * n := by
    rw [← Nat.succ_mul, Nat.mul_comm size]
    exact Nat.mul_le_mul_right size hi
  have hpos : 0 < size := by
    refine Nat.pos_of_ne_zero fun hzero => ?_
    rw [hlen, hzero, Nat.zero_mul] at haccept
    exact Nat.lt_irrefl _ haccept.1
  simp only [ArenaLayout.arenaSize, ArenaLayout.buffer, hlen] at hbase ⊢
  rw [Nat.mod_eq_of_lt (by omega)]
  omega

theorem mapped_whole_iff_default : ∃ a, fincommCreateArena 65536 0 0 = some a ∧
    a.MappedWhole :=
  have h : fincommCreateArena 65536 0 0 = some _ := rfl
  ⟨_, h, (mapped_whole_iff h (by decide)).mpr (by decide)⟩

/-- Sixty-four buffers of `2 ^ 58 + 1` bytes get a mapping of 4160. -/
theorem sizes_overflow : ∃ a, fincommCreateArena 65536 (2 ^ 58 + 1) 64 = some a ∧
    a.arenaSize = 4160 ∧ ¬ a.MappedWhole :=
  ⟨_, rfl, by decide, fun h => absurd h.length (by decide)⟩

end Finesse.Comm
