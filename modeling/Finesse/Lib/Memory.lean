import Mathlib

/-!
# Bytes in memory

A memory holds a byte at every address. What a program does to it is the list
of its writes in order, so that one can ask where it wrote as well as what it
left behind. Numbers are stored with their low byte first, and a string ends
with a zero.
-/

namespace Memory

open List

abbrev Mem := Nat → UInt8

/-- A value of which only the size matters. -/
abbrev Bytes (n : Nat) := { d : List UInt8 // d.length = n }

def zeros (n : Nat) : List UInt8 := replicate n 0

@[simp] theorem length_zeros (n : Nat) : (zeros n).length = n := length_replicate

structure Write where
  addr : Nat
  bytes : List UInt8
deriving DecidableEq, Repr

def store (m : Mem) (a : Nat) (d : List UInt8) : Mem := fun x =>
  if a ≤ x ∧ x < a + d.length then d.getD (x - a) 0 else m x

/-- The memory after some writes. -/
def run : Mem → List Write → Mem
  | m, [] => m
  | m, w :: ws => run (store m w.addr w.bytes) ws

@[simp] theorem run_nil (m : Mem) : run m [] = m := rfl

@[simp] theorem run_cons (m : Mem) (w : Write) (ws : List Write) :
    run m (w :: ws) = run (store m w.addr w.bytes) ws := rfl

theorem run_append (m : Mem) (ws vs : List Write) : run m (ws ++ vs) = run (run m ws) vs := by
  induction ws generalizing m with
  | nil => rfl
  | cons w ws ih => exact ih _

variable {a k n : Nat} {m : Mem} {ws : List Write} {d : List UInt8}

theorem run_of_lt (h : ∀ w ∈ ws, k ≤ w.addr) (ha : a < k) : run m ws a = m a := by
  induction ws generalizing m with
  | nil => rfl
  | cons w ws ih =>
    have hw := h w mem_cons_self
    rw [run_cons, ih fun v hv => h v (mem_cons_of_mem w hv), store, if_neg (by omega)]

theorem run_of_le (h : ∀ w ∈ ws, w.addr + w.bytes.length ≤ k) (ha : k ≤ a) : run m ws a = m a := by
  induction ws generalizing m with
  | nil => rfl
  | cons w ws ih =>
    have hw := h w mem_cons_self
    rw [run_cons, ih fun v hv => h v (mem_cons_of_mem w hv), store, if_neg (by omega)]

/-- The `n` bytes from `a` on. -/
def load (m : Mem) (a : Nat) : Nat → List UInt8
  | 0 => []
  | n + 1 => m a :: load m (a + 1) n

@[simp] theorem length_load (m : Mem) (a n : Nat) : (load m a n).length = n := by
  induction n generalizing a with
  | zero => rfl
  | succ n ih => rw [load, length_cons, ih]

theorem load_congr {m' : Mem}
    (h : ∀ x, a ≤ x → x < a + n → m' x = m x) : load m' a n = load m a n := by
  induction n generalizing a with
  | zero => rfl
  | succ n ih =>
    rw [load, load, h a (Nat.le_refl a) (by omega), ih fun x hx hn => h x (by omega) (by omega)]

theorem load_add (m : Mem) (a n k : Nat) : load m a (n + k) = load m a n ++ load m (a + n) k := by
  induction n generalizing a with
  | zero => simp [load]
  | succ n ih =>
    rw [Nat.succ_add, load, ih, load, cons_append, show a + 1 + n = a + (n + 1) by omega]

theorem take_drop_load (m : Mem) {o : Nat} (h : o + k ≤ n) :
    ((load m a n).drop o).take k = load m (a + o) k := by
  obtain ⟨rest, rfl⟩ := Nat.exists_eq_add_of_le h
  rw [Nat.add_assoc, load_add, List.drop_left' (length_load _ _ _), load_add,
    List.take_left' (length_load _ _ _)]

theorem getElem?_load (m : Mem) (h : k < n) : (load m a n)[k]? = some (m (a + k)) := by
  induction n generalizing a k with
  | zero => omega
  | succ n ih =>
    cases k with
    | zero => rfl
    | succ k =>
      rw [load, getElem?_cons_succ, ih (by omega), show a + 1 + k = a + (k + 1) by omega]

theorem eq_of_load {b : UInt8} (h : load m a n = d) (hb : d[k]? = some b) : m (a + k) = b := by
  have hk : k < n := by
    have := (List.getElem?_eq_some_iff.mp hb).1
    rw [← h, length_load] at this
    exact this
  rw [← h, getElem?_load m hk] at hb
  exact Option.some.inj hb

/-! ## Loads after stores -/

theorem load_store_self (m : Mem) (a : Nat) (d : List UInt8) :
    load (store m a d) a d.length = d := by
  refine ext_getElem? fun k => ?_
  by_cases hk : k < d.length
  · rw [getElem?_load _ hk, store, if_pos ⟨by omega, by omega⟩,
      Nat.add_sub_cancel_left, getD_eq_getElem?_getD,
      getElem?_eq_getElem hk, Option.getD_some]
  · rw [getElem?_eq_none (by rw [length_load]; omega),
      getElem?_eq_none (by omega)]

@[simp] theorem load_store_of_length (m : Mem) (h : d.length = n) : load (store m a d) a n = d := by
  rw [← h, load_store_self]

@[simp] theorem load_store_apart (m : Mem) {b : Nat} (h : b + n ≤ a ∨ a + d.length ≤ b) :
    load (store m a d) b n = load m b n := by
  refine load_congr fun x hx hn => ?_
  rw [store, if_neg (by omega)]

theorem load_run_apart {b : Nat} (h : ∀ w ∈ ws, b + n ≤ w.addr ∨ w.addr + w.bytes.length ≤ b) :
    load (run m ws) b n = load m b n := by
  induction ws generalizing m with
  | nil => rfl
  | cons w ws ih =>
    rw [run_cons, ih fun v hv => h v (mem_cons_of_mem w hv), load_store_apart m (h w mem_cons_self)]

/-! ## Numbers -/

/-- The `n` low bytes of a number. -/
def le : Nat → Nat → List UInt8
  | 0, _ => []
  | n + 1, v => UInt8.ofNat v :: le n (v / 256)

def ofLe : List UInt8 → Nat
  | [] => 0
  | b :: bs => b.toNat + 256 * ofLe bs

@[simp] theorem length_le (n v : Nat) : (le n v).length = n := by
  induction n generalizing v with
  | zero => rfl
  | succ n ih => rw [le, length_cons, ih]

theorem ofLe_le (n v : Nat) : ofLe (le n v) = v % 256 ^ n := by
  induction n generalizing v with
  | zero => rw [le, ofLe, Nat.pow_zero, Nat.mod_one]
  | succ n ih =>
    have hb : (UInt8.ofNat v).toNat = v % 256 := UInt8.toNat_ofNat'
    rw [le, ofLe, ih, hb, Nat.pow_succ, Nat.mul_comm (256 ^ n), Nat.mod_mul]

theorem ofLe_le_toNat {w : Nat} (h : 2 ^ w ≤ 256 ^ n) (v : BitVec w) :
    ofLe (le n v.toNat) = v.toNat := by
  rw [ofLe_le, Nat.mod_eq_of_lt (Nat.lt_of_lt_of_le v.isLt h)]

theorem ofLe_lt (d : List UInt8) : ofLe d < 256 ^ d.length := by
  induction d with
  | nil => exact Nat.one_pos
  | cons b d ih =>
    have hb := b.toNat_lt
    rw [ofLe, length_cons, Nat.pow_succ]
    omega

/-- The number in the `n` bytes from `a` on. -/
def word (m : Mem) (a n : Nat) : Nat := ofLe (load m a n)

theorem le_ofLe (d : List UInt8) : le d.length (ofLe d) = d := by
  induction d with
  | nil => rfl
  | cons b d ih =>
    have hb := b.toNat_lt
    have hlow : UInt8.ofNat (b.toNat + 256 * ofLe d) = b := by
      apply UInt8.toNat.inj
      rw [UInt8.toNat_ofNat', Nat.add_mul_mod_self_left]
      exact Nat.mod_eq_of_lt hb
    have hhigh : (b.toNat + 256 * ofLe d) / 256 = ofLe d := by omega
    rw [ofLe, length_cons, le, hlow, hhigh, ih]

theorem word_eq_iff {v : Nat} (hv : v < 256 ^ n) : word m a n = v ↔ load m a n = le n v := by
  constructor
  · rintro rfl
    have := le_ofLe (load m a n)
    rw [length_load] at this
    exact this.symm
  · intro h
    rw [word, h, ofLe_le, Nat.mod_eq_of_lt hv]

theorem le_zero (n : Nat) : le n 0 = zeros n := by
  induction n with
  | zero => rfl
  | succ n ih =>
    rw [le, Nat.zero_div, ih, zeros, zeros, replicate_succ]
    rfl

/-! ## Strings -/

/-- A string: its bytes without the zero at the end. -/
structure CString where
  bytes : List UInt8
  nonzero : (0 : UInt8) ∉ bytes
deriving DecidableEq

def CString.length (s : CString) : Nat := s.bytes.length

def CString.terminated (s : CString) : List UInt8 := s.bytes ++ [0]

def CString.empty : CString := ⟨[], not_mem_nil⟩

@[simp] theorem CString.length_terminated (s : CString) : s.terminated.length = s.length + 1 := by
  rw [terminated, length_append, length, length_singleton]

/-- The string at `a`, if it ends within `n` bytes. -/
def stringAt (m : Mem) (a : Nat) : Nat → Option (List UInt8)
  | 0 => none
  | n + 1 => if m a = 0 then some [] else (stringAt m (a + 1) n).map (m a :: ·)

theorem stringAt_eq_some {s : List UInt8} : stringAt m a n = some s ↔
      s.length < n ∧ load m a (s.length + 1) = s ++ [0] ∧ (0 : UInt8) ∉ s := by
  induction n generalizing a s with
  | zero => simp [stringAt]
  | succ n ih =>
    rw [stringAt]
    split
    · next h0 =>
      constructor
      · rintro ⟨⟩
        exact ⟨Nat.succ_pos n, by simp [load, h0], not_mem_nil⟩
      rintro ⟨-, hl, hz⟩
      cases s with
      | nil => rfl
      | cons b s =>
        rw [length_cons, load, cons_append, List.cons.injEq] at hl
        exact absurd (mem_cons.mpr (.inl (h0.symm.trans hl.1))) hz
    next h0 =>
    rw [Option.map_eq_some_iff]
    constructor
    · rintro ⟨t, ht, rfl⟩
      obtain ⟨hn, hl, hz⟩ := ih.mp ht
      refine ⟨Nat.succ_lt_succ hn, ?_, ?_⟩
      · rw [length_cons, load, hl, cons_append]
      · rw [mem_cons, not_or]
        exact ⟨fun h => h0 h.symm, hz⟩
    · rintro ⟨hn, hl, hz⟩
      cases s with
      | nil =>
        rw [length_nil, load, nil_append, List.cons.injEq] at hl
        exact absurd hl.1 h0
      | cons b s =>
        rw [length_cons, load, cons_append, List.cons.injEq] at hl
        rw [mem_cons, not_or] at hz
        rw [length_cons] at hn
        exact ⟨s, ih.mpr ⟨by omega, hl.2, hz.2⟩, by rw [hl.1]⟩

/-- A string that was stored is found, and needs only its own bytes. -/
theorem stringAt_of_load {s : CString} (h : load m a (s.length + 1) = s.terminated)
    (hn : s.length < n) : stringAt m a n = some s.bytes :=
  stringAt_eq_some.mpr ⟨hn, h, s.nonzero⟩

end Memory
