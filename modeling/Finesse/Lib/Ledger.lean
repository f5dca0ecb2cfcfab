import Mathlib

/-!
# Ledgers

Who holds how many references to what. A reference count that is kept in
one place is compared with the `total` of a ledger over all holders. Ledgers
that are kept by different parts of a system add up.
-/

/-- `l t k` is the number of references that `t` holds to `k`. -/
def Ledger (θ κ : Type*) := θ → κ → Nat

namespace Ledger

open Finset

variable {θ κ : Type*}

instance : AddCommMonoid (Ledger θ κ) :=
  inferInstanceAs (AddCommMonoid (θ → κ → Nat))

theorem add_apply (l m : Ledger θ κ) (t : θ) (k : κ) : (l + m) t k = l t k + m t k := rfl

/-- All references to `k`. -/
def total [Fintype θ] (l : Ledger θ κ) (k : κ) : Nat := ∑ t, l t k

theorem le_total [Fintype θ] (l : Ledger θ κ) (t : θ) (k : κ) : l t k ≤ l.total k :=
  single_le_sum (f := fun u => l u k) (fun _ _ => Nat.zero_le _) (mem_univ t)

theorem eq_zero_of_total [Fintype θ] {l : Ledger θ κ} {k : κ} (h : l.total k = 0) (t : θ) :
    l t k = 0 := by
  have := l.le_total t k
  omega

theorem total_add [Fintype θ] (l m : Ledger θ κ) (k : κ) :
    (l + m).total k = l.total k + m.total k :=
  sum_add_distrib

variable [DecidableEq θ]

/-- A ledger with one holder. -/
def single (t : θ) (n : κ → Nat) : Ledger θ κ :=
  fun u k => if u = t then n k else 0

theorem total_single [Fintype θ] (t : θ) (n : κ → Nat) (k : κ) :
    (single t n : Ledger θ κ).total k = n k := by
  simp [total, single]

variable [DecidableEq κ]

/-- `t` holds `n` references to `k` from now on. -/
def set (l : Ledger θ κ) (t : θ) (k : κ) (n : Nat) : Ledger θ κ :=
  fun u j => if u = t ∧ j = k then n else l u j

def give (l : Ledger θ κ) (t : θ) (k : κ) : Ledger θ κ := l.set t k (l t k + 1)

def take (l : Ledger θ κ) (t : θ) (k : κ) : Ledger θ κ := l.set t k (l t k - 1)

/-- `n` references of `t` become references of `u`. -/
def move (l : Ledger θ κ) (t u : θ) (k : κ) (n : Nat) : Ledger θ κ :=
  (l.set t k (l t k - n)).set u k (l.set t k (l t k - n) u k + n)

/-- The ledger of `t` with `n` references to `k` and nothing else. -/
def owe (t : θ) (k : κ) (n : Nat) : Ledger θ κ :=
  fun u j => if u = t ∧ j = k then n else 0

variable {l : Ledger θ κ} {t u : θ} {j k : κ} {n : Nat}

theorem set_apply (l : Ledger θ κ) (t u : θ) (k j : κ) (n : Nat) :
    l.set t k n u j = if u = t ∧ j = k then n else l u j := rfl

theorem set_other (l : Ledger θ κ) (k j : κ) (n : Nat) (hu : u ≠ t) : l.set t k n u j = l u j := by
  rw [set_apply, if_neg (fun h => hu h.1)]

theorem move_from (l : Ledger θ κ) (h : t ≠ u) (k : κ) (n : Nat) :
    l.move t u k n t k = l t k - n := by
  rw [move, set_other _ _ _ _ h, set_apply, if_pos ⟨rfl, rfl⟩]

theorem move_to (l : Ledger θ κ) (h : t ≠ u) (k : κ) (n : Nat) :
    l.move t u k n u k = l u k + n := by
  rw [move, set_apply, if_pos ⟨rfl, rfl⟩, set_other _ _ _ _ (Ne.symm h)]

theorem move_other (l : Ledger θ κ) {v : θ} (n : Nat)
    (h : ¬ (v = t ∧ j = k)) (h' : ¬ (v = u ∧ j = k)) : l.move t u k n v j = l v j := by
  rw [move, set_apply, if_neg h', set_apply, if_neg h]

theorem move_same (h : n ≤ l t k) : l.move t t k n = l := by
  funext v j
  by_cases hv : v = t ∧ j = k
  · obtain ⟨rfl, rfl⟩ := hv
    rw [move, set_apply, if_pos ⟨rfl, rfl⟩, set_apply, if_pos ⟨rfl, rfl⟩, Nat.sub_add_cancel h]
  · exact move_other l n hv hv

theorem owe_self (t : θ) (k : κ) (n : Nat) : owe t k n t k = n := if_pos ⟨rfl, rfl⟩

theorem owe_other (n : Nat) (h : ¬ (u = t ∧ j = k)) : owe t k n u j = 0 := if_neg h

theorem exists_add_owe (h : n ≤ l t k) : ∃ d, l = d + owe t k n := by
  refine ⟨l.set t k (l t k - n), ?_⟩
  funext u j
  rw [add_apply, set_apply]
  by_cases hu : u = t ∧ j = k
  · obtain ⟨rfl, rfl⟩ := hu
    rw [if_pos ⟨rfl, rfl⟩, owe_self, Nat.sub_add_cancel h]
  · rw [if_neg hu, owe_other _ hu]
    rfl

theorem owe_zero (t : θ) (k : κ) : owe t k 0 = 0 := by
  funext u j
  show (if u = t ∧ j = k then 0 else 0) = 0
  exact ite_self 0

theorem owe_add (t : θ) (k : κ) (a b : Nat) : owe t k (a + b) = owe t k a + owe t k b := by
  funext u j
  rw [add_apply]
  simp only [owe]
  split
  · rfl
  · rfl

/-! ## Totals -/

variable [Fintype θ]

theorem total_set_other (l : Ledger θ κ) (t : θ) (n : Nat)
    (hj : j ≠ k) : (l.set t k n).total j = l.total j := by
  refine sum_congr rfl fun u _ => ?_
  rw [set_apply, if_neg (fun h => hj h.2)]

theorem total_set_self (l : Ledger θ κ) (t : θ) (k : κ) (n : Nat) :
    (l.set t k n).total k + l t k = l.total k + n := by
  have hl : l.total k = (∑ u ∈ univ.erase t, l u k) + l t k := (sum_erase_add _ _ (mem_univ t)).symm
  have hs : (l.set t k n).total k = (∑ u ∈ univ.erase t, l.set t k n u k) + l.set t k n t k :=
    (sum_erase_add _ _ (mem_univ t)).symm
  have hrest : ∑ u ∈ univ.erase t, l.set t k n u k = ∑ u ∈ univ.erase t, l u k := by
    refine sum_congr rfl fun u hu => ?_
    exact set_other l k k n (ne_of_mem_erase hu)
  rw [hl, hs, hrest, set_apply, if_pos ⟨rfl, rfl⟩]
  omega

theorem add_le_total (l : Ledger θ κ) (h : t ≠ u) (k : κ) : l t k + l u k ≤ l.total k := by
  have hself := l.total_set_self t k 0
  have hle := (l.set t k 0).le_total u k
  rw [set_other l k k 0 (Ne.symm h)] at hle
  omega

theorem total_give (l : Ledger θ κ) (t : θ) (k : κ) : (l.give t k).total k = l.total k + 1 := by
  have := total_set_self l t k (l t k + 1)
  simp only [give]
  omega

theorem total_take (h : 0 < l t k) : (l.take t k).total k + 1 = l.total k := by
  have := total_set_self l t k (l t k - 1)
  simp only [take]
  omega

theorem total_move (h : n ≤ l t k) (j : κ) : (l.move t u k n).total j = l.total j := by
  by_cases hj : j = k
  · subst hj
    have hfrom := l.total_set_self t j (l t j - n)
    have hto := (l.set t j (l t j - n)).total_set_self u j (l.set t j (l t j - n) u j + n)
    rw [move]
    omega
  · rw [move, total_set_other _ _ _ hj, total_set_other _ _ _ hj]

theorem total_owe_self (t : θ) (k : κ) (n : Nat) : (owe t k n).total k = n := by
  simp [total, owe]

theorem total_owe_other (t : θ) (n : Nat) (h : j ≠ k) : (owe t k n).total j = 0 :=
  sum_eq_zero fun _ _ => owe_other n fun hu => h hu.2

end Ledger

theorem Finset.sum_range_change {f g : Nat → Nat} {n d a b : Nat} (hd : d < n)
    (hother : ∀ e, e ≠ d → g e = f e) (hself : g d + a = f d + b) :
    ∑ e ∈ range n, g e + a = ∑ e ∈ range n, f e + b := by
  have hmem : d ∈ range n := mem_range.mpr hd
  have hrest : ∑ e ∈ (range n).erase d, g e = ∑ e ∈ (range n).erase d, f e :=
    sum_congr rfl fun e he => hother e (ne_of_mem_erase he)
  rw [← sum_erase_add _ _ hmem, ← sum_erase_add _ _ hmem, hrest]
  omega
