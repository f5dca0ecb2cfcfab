import Mathlib

/-!
# Tries

A trie over a finite alphabet: a node has an object and a child for every
character, and `null` is no trie. What a trie is for is the map from words to
objects that `search` reads out of it. Insertion and deletion are updates of
that map; deletion also takes the nodes out that lead nowhere, which the map
does not see.
-/

inductive Trie (κ α : Type) where
  | null
  | node (object : Option α) (character : κ → Trie κ α)

namespace Trie

open List Function

variable {κ α : Type}

/-- A node without an object or children. -/
def createNode : Trie κ α := .node none fun _ => .null

def isNull : Trie κ α → Bool
  | .null => true
  | .node _ _ => false

def search : Trie κ α → List κ → Option α
  | .null, _ => none
  | .node object _, [] => object
  | .node _ character, c :: str => (character c).search str

@[simp] theorem search_null (str : List κ) : (null : Trie κ α).search str = none := by
  cases str <;> rfl

@[simp] theorem search_createNode (str : List κ) : (createNode : Trie κ α).search str = none := by
  cases str with
  | nil => rfl
  | cons c str => exact search_null str

theorem search_of_isNull {t : Trie κ α} (h : t.isNull = true) (str : List κ) :
    t.search str = none := by
  cases t with
  | null => exact search_null str
  | node => cases h

/-- The node that a word leads to. -/
def subtrie : Trie κ α → List κ → Trie κ α
  | t, [] => t
  | .null, _ :: _ => .null
  | .node _ character, c :: str => (character c).subtrie str

theorem search_append (t : Trie κ α) (str str' : List κ) :
    t.search (str ++ str') = (t.subtrie str).search str' := by
  induction str generalizing t with
  | nil => rw [subtrie, nil_append]
  | cons c str ih =>
    cases t with
    | null => rw [subtrie, search_null, search_null]
    | node object character => exact ih (character c)

section Insert

variable [DecidableEq κ]

/-- The object is put under the word; nodes that are missing are made. -/
def insert : Trie κ α → List κ → α → Trie κ α
  | .null, [], a => .node (some a) fun _ => .null
  | .null, c :: str, a =>
    .node none (update (fun _ => .null) c (insert .null str a))
  | .node _ character, [], a => .node (some a) character
  | .node object character, c :: str, a =>
    .node object (update character c (insert (character c) str a))

theorem search_insert (t : Trie κ α) (str : List κ) (a : α) (str' : List κ) :
    (t.insert str a).search str' = if str' = str then some a else t.search str' := by
  induction str generalizing t str' with
  | nil =>
    cases t <;> cases str' <;> simp [insert, search]
  | cons c str ih =>
    cases str' with
    | nil => cases t <;> simp [insert, search]
    | cons c' str' =>
      by_cases hc : c' = c
      · subst hc
        cases t <;> simp [insert, search, ih]
      · cases t <;> simp [insert, search, hc]

end Insert

section Prune

variable [Fintype κ]

def haveChildren : Trie κ α → Bool
  | .null => false
  | .node _ character => decide (∃ c, (character c).isNull = false)

/-- A node that has neither an object nor children is freed. -/
def prune : Trie κ α → Trie κ α
  | .null => .null
  | .node none character =>
    if haveChildren (.node none character) then .node none character else .null
  | .node (some a) character => .node (some a) character

@[simp] theorem search_prune (t : Trie κ α) (str : List κ) : t.prune.search str = t.search str := by
  cases t with
  | null => rfl
  | node object character =>
    cases object with
    | some a => rfl
    | none =>
      rw [prune]
      split
      · rfl
      next h =>
      rw [search_null]
      cases str with
      | nil => rfl
      | cons c str =>
        -- no child is there, so no word leads anywhere
        simp only [haveChildren, decide_eq_true_eq, not_exists, Bool.not_eq_false] at h
        exact (search_of_isNull (h c) str).symm

end Prune

section Delete

variable [DecidableEq κ] [Fintype κ]

/-- The object under the word is taken out, and on the way back the nodes that
have become useless, the root apart. -/
def erase : Trie κ α → List κ → Trie κ α
  | .null, _ => .null
  | .node _ character, [] => .node none character
  | .node object character, c :: str =>
    .node object (update character c (prune (erase (character c) str)))

theorem search_erase (t : Trie κ α) (str str' : List κ) :
    (t.erase str).search str' = if str' = str then none else t.search str' := by
  induction str generalizing t str' with
  | nil => cases t <;> cases str' <;> simp [erase, search]
  | cons c str ih =>
    cases str' with
    | nil => cases t <;> simp [erase, search]
    | cons c' str' =>
      by_cases hc : c' = c
      · subst hc
        cases t <;> simp [erase, search, ih]
      · cases t <;> simp [erase, search, hc]

/-- The deletion of a word that is in the trie, with the root if nothing is
left. -/
def delete (t : Trie κ α) (str : List κ) : Trie κ α := (t.erase str).prune

theorem search_delete (t : Trie κ α) (str str' : List κ) :
    (t.delete str).search str' = if str' = str then none else t.search str' := by
  rw [delete, search_prune, search_erase]

end Delete

/-! ## Tries without useless nodes -/

section Compact

/-- Every node has an object or a child. -/
def Compact : Trie κ α → Prop
  | .null => True
  | .node object character =>
    (object ≠ none ∨ ∃ c, (character c).isNull = false) ∧ ∀ c, (character c).Compact

variable {t : Trie κ α}

theorem Compact.eq_null (ht : t.Compact) (h : ∀ str, t.search str = none) : t = .null := by
  induction t with
  | null => rfl
  | node object character ih =>
    obtain ⟨hobject | ⟨c, hc⟩, hchildren⟩ := ht
    · exact absurd (h []) hobject
    · rw [ih c (hchildren c) fun str => h (c :: str)] at hc
      cases hc

theorem Compact.subtrie (ht : t.Compact) (str : List κ) : (t.subtrie str).Compact := by
  induction str generalizing t with
  | nil => rwa [Trie.subtrie]
  | cons c str ih =>
    cases t with
    | null => trivial
    | node object character => exact ih (ht.2 c)

theorem Compact.exists_word (ht : t.Compact) {str : List κ}
    (hstr : t.subtrie str ≠ .null) : ∃ str', t.search (str ++ str') ≠ none := by
  by_contra h
  refine hstr ((ht.subtrie str).eq_null fun str' => ?_)
  rw [← search_append]
  by_contra hne
  exact h ⟨str', hne⟩

variable [DecidableEq κ]

theorem insert_isNull (t : Trie κ α) (str : List κ) (a : α) : (t.insert str a).isNull = false := by
  cases t <;> cases str <;> rfl

variable {character : κ → Trie κ α} {object : Option α}

theorem compact_update {c : κ} {child : Trie κ α}
    (h : ∀ c, (character c).Compact) (hchild : child.Compact) (hnull : child.isNull = false) :
    (node object (update character c child)).Compact := by
  refine ⟨.inr ⟨c, by rw [update_self]; exact hnull⟩, fun c' => ?_⟩
  by_cases hc : c' = c
  · rw [hc, update_self]
    exact hchild
  · rw [update_of_ne hc]
    exact h c'

theorem Compact.insert (ht : t.Compact) (str : List κ) (a : α) : (t.insert str a).Compact := by
  induction str generalizing t with
  | nil =>
    cases t with
    | null => exact ⟨.inl nofun, fun _ => trivial⟩
    | node object character => exact ⟨.inl nofun, ht.2⟩
  | cons c str ih =>
    cases t with
    | null =>
      exact compact_update (fun _ => trivial) (ih trivial) (insert_isNull _ _ _)
    | node object character =>
      exact compact_update ht.2 (ih (ht.2 c)) (insert_isNull _ _ _)

variable [Fintype κ]

omit [DecidableEq κ] in
theorem compact_prune
    (h : ∀ c, (character c).Compact) : (prune (.node object character)).Compact := by
  cases object with
  | some a => exact ⟨.inl nofun, h⟩
  | none =>
    rw [prune]
    split
    · next hc => exact ⟨.inr (of_decide_eq_true hc), h⟩
    · trivial

theorem Compact.delete (ht : t.Compact) (str : List κ) : (t.delete str).Compact := by
  induction str generalizing t with
  | nil =>
    cases t with
    | null => trivial
    | node object character => exact compact_prune ht.2
  | cons c str ih =>
    cases t with
    | null => trivial
    | node object character =>
      refine compact_prune fun c' => ?_
      by_cases hc : c' = c
      · rw [hc, update_self]
        exact ih (ht.2 c)
      · rw [update_of_ne hc]
        exact ht.2 c'

end Compact

/-! ## A trie beside a list -/

variable {a : α}

section Index

variable [DecidableEq κ] {key : α → List κ} {l : List α} {t : Trie κ α}

/-- The trie finds the members of the list by their keys, no two of which are
the same. -/
structure Indexes (t : Trie κ α) (key : α → List κ) (l : List α) : Prop where
  search : ∀ str, t.search str = l.find? fun a => key a = str
  nodup : (l.map key).Nodup

namespace Indexes

theorem null (key : α → List κ) : (null : Trie κ α).Indexes key [] := ⟨search_null, nodup_nil⟩

variable (h : t.Indexes key l)
include h

theorem congr {t' : Trie κ α} (hsearch : ∀ str, t'.search str = t.search str) : t'.Indexes key l :=
  ⟨fun str => (hsearch str).trans (h.search str), h.nodup⟩

theorem congr_key {key' : α → List κ} (hkey : ∀ a ∈ l, key' a = key a) : t.Indexes key' l := by
  constructor
  · intro str
    rw [h.search, ← head?_filter, ← head?_filter]
    refine congrArg head? (filter_congr fun a ha => ?_)
    rw [hkey a ha]
  · rw [map_congr_left hkey]
    exact h.nodup

theorem of_search {str : List κ} (ha : t.search str = some a) : a ∈ l ∧ key a = str := by
  rw [h.search] at ha
  exact ⟨mem_of_find?_eq_some ha, by simpa using find?_some ha⟩

theorem search_of_mem (ha : a ∈ l) : t.search (key a) = some a := by
  cases hs : t.search (key a) with
  | none =>
    rw [h.search, find?_eq_none] at hs
    exact absurd (decide_eq_true rfl) (hs a ha)
  | some b =>
    obtain ⟨hb, hkey⟩ := h.of_search hs
    rw [inj_on_of_nodup_map h.nodup hb ha hkey]

theorem mem_keys_iff (str : List κ) : str ∈ l.map key ↔ t.search str ≠ none := by
  rw [mem_map]
  constructor
  · rintro ⟨a, ha, rfl⟩
    rw [h.search_of_mem ha]
    exact Option.some_ne_none a
  · intro hs
    obtain ⟨a, ha⟩ := Option.ne_none_iff_exists'.mp hs
    exact ⟨a, h.of_search ha⟩

theorem insert (ha : t.search (key a) = none) : (t.insert (key a) a).Indexes key (a :: l) := by
  constructor
  · intro str
    rw [search_insert, h.search, find?_cons]
    by_cases hstr : str = key a
    · rw [if_pos hstr, decide_eq_true hstr.symm]
    · rw [if_neg hstr, decide_eq_false (Ne.symm hstr)]
  · rw [map_cons, nodup_cons, h.mem_keys_iff]
    exact ⟨fun hne => hne ha, h.nodup⟩

theorem delete [Fintype κ] (str : List κ) :
    (t.delete str).Indexes key (l.filter fun a => key a ≠ str) := by
  constructor
  · intro str'
    rw [search_delete, h.search, find?_filter]
    split
    · next heq =>
      rw [eq_comm, find?_eq_none]
      intro a _
      simp [heq]
    · next hne =>
      congr 1
      funext a
      by_cases ha : key a = str'
      · simp [ha, hne]
      · simp [ha]
  · exact h.nodup.sublist (filter_sublist.map key)

end Indexes

end Index

end Trie
