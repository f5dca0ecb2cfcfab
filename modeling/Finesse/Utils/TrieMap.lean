import Finesse.Lib.Machine
import Finesse.Utils.Trie

/-!
# A trie is a finite map

`TrieDeletion` walks down to the node of a string, keeping the nodes it comes
through in an array, and goes back up along them: it frees the nodes that are
not needed any more and stops at the first one that is. The library's deletion
is a recursion that looks at every node on the way back. The two come to the
same, because above a node that is kept every node has a child. With that any
sequence of calls is one to a finite map (`trie_is_finite_map`).
-/

namespace Finesse

open Function Machine
open Trie (createNode)

variable {α : Type}

/-! ## The two loops -/

/-- A node that was passed on the way down, and the character that led on. -/
structure Passed (α : Type) where
  object : Option α
  character : UInt8 → Trie UInt8 α
  ch : UInt8

/-- The first loop: the node of the string and what was passed, the last node
first. A null child ends it. -/
def walkDown : Trie UInt8 α → List UInt8 → List (Passed α) → Option (Trie UInt8 α × List (Passed α))
  | t, [], path => some (t, path)
  | .null, _ :: _, _ => none
  | .node object character, c :: str, path =>
    if (character c).isNull then none
    else walkDown (character c) str (⟨object, character, c⟩ :: path)

/-- What a node looks like with another child. -/
def Passed.withChild (p : Passed α) (child : Trie UInt8 α) : Trie UInt8 α :=
  .node p.object (update p.character p.ch child)

/-- The trie above a node is as it was. -/
def keepAbove (t : Trie UInt8 α) : List (Passed α) → Trie UInt8 α
  | [] => t
  | p :: path => keepAbove (p.withChild t) path

/-- The node has an object or a child. -/
def needed : Trie UInt8 α → Bool
  | .null => false
  | .node object character => object.isSome || Trie.haveChildren (.node object character)

/-- The end of `TrieDeletion`, if it has got to the root. -/
def freeRoot (t : Trie UInt8 α) : Trie UInt8 α := if needed t then t else .null

/-- The second loop, at a child of the last node of the path. It stops at a
child that is needed. -/
def walkUp (child : Trie UInt8 α) : List (Passed α) → Trie UInt8 α
  | [] => child
  | [root] => freeRoot (root.withChild (if needed child then child else .null))
  | p :: q :: path =>
    if needed child then keepAbove (p.withChild child) (q :: path)
    else walkUp (p.withChild .null) (q :: path)

/-- `TrieDeletion`, for a trie that is not null. -/
def trieDeletionLoops (t : Trie UInt8 α) (str : List UInt8) : Int × Trie UInt8 α :=
  if str = [] then (0, if t.haveChildren then t else .null)
  else
    match walkDown t str [] with
    | some (.node (some _) character, path) => (0, walkUp (.node none character) path)
    | _ => (ENOENT, t)

theorem needed_withChild (p : Passed α) {child : Trie UInt8 α}
    (h : child.isNull = false) : needed (p.withChild child) = true := by
  have hchild : ∃ c, (update p.character p.ch child c).isNull = false :=
    ⟨p.ch, by rw [update_self]; exact h⟩
  rw [Passed.withChild, needed, Trie.haveChildren, decide_eq_true hchild, Bool.or_true]

theorem isNull_of_needed {t : Trie UInt8 α} (h : needed t = true) : t.isNull = false := by
  cases t with
  | null => cases h
  | node => rfl

/-- What the library does to a node that was passed is what the test of the
second loop comes to. -/
theorem prune_eq (t : Trie UInt8 α) : t.prune = if needed t then t else .null := by
  cases t with
  | null => rfl
  | node object character =>
    cases object with
    | none => rw [Trie.prune, needed]; rfl
    | some a => rfl

/-- The way back of the library's deletion. -/
def pruneAbove (t : Trie UInt8 α) : List (Passed α) → Trie UInt8 α
  | [] => t
  | p :: path => pruneAbove (p.withChild t.prune) path

/-- Above a node that is needed nothing is pruned. -/
theorem pruneAbove_of_needed {t : Trie UInt8 α} (h : needed t = true)
    (path : List (Passed α)) : pruneAbove t path = keepAbove t path ∧
      needed (keepAbove t path) = true := by
  induction path generalizing t with
  | nil => exact ⟨rfl, h⟩
  | cons p path ih =>
    rw [pruneAbove, keepAbove, prune_eq, if_pos h]
    exact ih (needed_withChild p (isNull_of_needed h))

variable {path : List (Passed α)}

/-- Stopping at the first node that is needed is as good as looking at all of
them. -/
theorem walkUp_eq (child : Trie UInt8 α) (hpath : path ≠ []) :
    walkUp child path = (pruneAbove child path).prune := by
  induction path generalizing child with
  | nil => exact absurd rfl hpath
  | cons p path ih =>
    cases path with
    | nil => rw [walkUp, pruneAbove, pruneAbove, freeRoot, prune_eq, prune_eq]
    | cons q path =>
      rw [walkUp, pruneAbove, prune_eq child]
      split
      · next h =>
        obtain ⟨heq, hneeded⟩ := pruneAbove_of_needed
          (needed_withChild p (isNull_of_needed h)) (q :: path)
        rw [heq, prune_eq, if_pos hneeded]
      · exact ih (p.withChild .null) (List.cons_ne_nil q path)

/-- The first loop ends at a null child only if the word is not there. -/
theorem search_of_walkDown_none {t : Trie UInt8 α} {str : List UInt8}
    (h : walkDown t str path = none) : t.search str = none := by
  induction str generalizing t path with
  | nil => cases t <;> cases h
  | cons c str ih =>
    cases t with
    | null => exact Trie.search_null _
    | node object character =>
      rw [walkDown] at h
      split at h
      · next hnull => exact Trie.search_of_isNull hnull str
      · exact ih h

/-- It finds the node of a word, and above it what the deletion goes through. -/
theorem walkDown_some {t leaf : Trie UInt8 α} {str : List UInt8} {path passed : List (Passed α)}
    (h : walkDown t str path = some (leaf, passed)) : t.search str = leaf.search [] ∧
      pruneAbove (leaf.erase []) passed = pruneAbove (t.erase str) path ∧
      passed.length = path.length + str.length := by
  induction str generalizing t path with
  | nil =>
    cases t <;> cases h <;> exact ⟨rfl, rfl, rfl⟩
  | cons c str ih =>
    cases t with
    | null => cases h
    | node object character =>
      rw [walkDown] at h
      split at h
      · cases h
      obtain ⟨hsearch, hprune, hlen⟩ := ih h
      refine ⟨hsearch, hprune, ?_⟩
      rw [hlen, List.length_cons, List.length_cons]
      omega

/-- The loops of `TrieDeletion` do what the library's deletion does. -/
theorem trieDeletionLoops_eq (t : Trie UInt8 α) (str : List UInt8) :
    trieDeletionLoops t str = trieDeletion t str := by
  rw [trieDeletionLoops, trieDeletion]
  by_cases hstr : str = []
  · rw [if_pos hstr, if_pos hstr]
  rw [if_neg hstr, if_neg hstr]
  cases hw : walkDown t str [] with
  | none => rw [search_of_walkDown_none hw]
  | some r =>
    obtain ⟨leaf, passed⟩ := r
    obtain ⟨hsearch, hprune, hlen⟩ := walkDown_some hw
    rw [hsearch]
    rcases leaf with _ | ⟨_ | a, character⟩
    · rfl
    · rfl
    · have hpassed : passed ≠ [] := by
        intro h0
        rw [h0] at hlen
        exact hstr (List.length_eq_zero_iff.mp (by simpa using hlen.symm))
      have hup := walkUp_eq (.node none character) hpassed
      rw [show (Trie.node none character : Trie UInt8 α) =
        (Trie.node (some a) character).erase [] from rfl, hprune] at hup
      exact congrArg (Prod.mk 0) hup

/-! ## Calls -/

inductive TrieCall (α : Type) where
  | insert (str : List UInt8) (object : α)
  | search (str : List UInt8)
  | delete (str : List UInt8)
deriving DecidableEq, Repr

inductive TrieReply (α : Type) where
  | inserted
  | found (object : Option α)
  | deleted (status : Int)
deriving DecidableEq, Repr

/-- A call to the trie under a root pointer. Where there is no trie one is made
before an insertion, and there is nothing to delete from. -/
def TrieCall.step (t : Trie UInt8 α) : TrieCall α → Option (List (TrieReply α) × Trie UInt8 α)
  | .insert str object => some ([.inserted], (trieOrNew t).insert str object)
  | .search str => some ([.found (t.search str)], t)
  | .delete str =>
    if t.isNull then none
    else some ([.deleted (trieDeletionLoops t str).1], (trieDeletionLoops t str).2)

/-- The calls that are made: no key is empty, and the root of a deletion is not
null. -/
def TrieCall.Allowed (t : Trie UInt8 α) : TrieCall α → Prop
  | .insert str _ | .search str => str ≠ []
  | .delete str => str ≠ [] ∧ t.isNull = false

instance (t : Trie UInt8 α) (c : TrieCall α) : Decidable (TrieCall.Allowed t c) :=
  match c with
  | .insert str _ | .search str => inferInstanceAs (Decidable (str ≠ []))
  | .delete str => inferInstanceAs (Decidable (str ≠ [] ∧ t.isNull = false))

/-- What the calls are for. -/
def TrieCall.onMap (m : List UInt8 → Option α) : TrieCall α →
    Option (List (TrieReply α) × (List UInt8 → Option α))
  | .insert str object => some ([.inserted], update m str (some object))
  | .search str => some ([.found (m str)], m)
  | .delete str =>
    if (m str).isNone then some ([.deleted ENOENT], m)
    else some ([.deleted 0], update m str none)

/-- A deletion fails, and then changes nothing, exactly if the key is absent, and
the root is null after it exactly if it was the last one. -/
def TrieCall.DeletesRight (t : Trie UInt8 α) : TrieCall α → Prop
  | .delete str => ∃ status t', TrieCall.step t (.delete str) = some ([.deleted status], t') ∧
      (status = ENOENT ↔ t.search str = none) ∧ (t.search str = none → t' = t) ∧
      (t' = .null ↔ t.search str ≠ none ∧ ∀ str', str' ≠ str → t.search str' = none)
  | _ => True

/-- A trie as the calls leave it: without useless nodes, or just made. -/
def Rooted (t : Trie UInt8 α) : Prop := t = .createNode ∨ t.Compact

/-- Every node but the root lies on the way to a key. -/
def LeadsToKeys (t : Trie UInt8 α) : Prop :=
  ∀ str, str ≠ [] → t.subtrie str ≠ .null → ∃ str', t.search (str ++ str') ≠ none

/-- The trie stands for the map, which is finite. -/
structure StandsFor (t : Trie UInt8 α) (m : List UInt8 → Option α) : Prop where
  search : ∀ str, t.search str = m str
  finite : {str | m str ≠ none}.Finite
  rooted : Rooted t

theorem Rooted.leadsToKeys {t : Trie UInt8 α} (h : Rooted t) : LeadsToKeys t := by
  intro str hstr hsub
  rcases h with rfl | h
  · obtain ⟨c, str, rfl⟩ := List.exists_cons_of_ne_nil hstr
    refine absurd ?_ hsub
    cases str <;> rfl
  · exact h.exists_word hsub

theorem Rooted.insert {t : Trie UInt8 α} (h : Rooted t) {str : List UInt8}
    (hstr : str ≠ []) (object : α) : Rooted ((trieOrNew t).insert str object) := by
  rw [insert_trieOrNew t hstr]
  rcases h with rfl | h
  · exact .inr (compact_insert_createNode hstr object)
  · exact .inr (h.insert str object)

theorem Rooted.compact {t : Trie UInt8 α} (h : Rooted t) {str : List UInt8}
    (hs : t.search str ≠ none) : t.Compact := by
  rcases h with rfl | h
  · exact absurd (Trie.search_createNode str) hs
  · exact h

theorem Rooted.delete {t : Trie UInt8 α} (h : Rooted t) {str : List UInt8}
    (hs : t.search str ≠ none) : Rooted (t.delete str) :=
  .inr ((h.compact hs).delete str)

section Delete

variable {t : Trie UInt8 α} {str : List UInt8}

theorem step_delete_absent (hstr : str ≠ []) (hroot : t.isNull = false) (hs : t.search str = none) :
    TrieCall.step t (.delete str) = some ([.deleted ENOENT], t) := by
  rw [TrieCall.step, if_neg (by rw [hroot]; exact Bool.false_ne_true),
    trieDeletionLoops_eq, trieDeletion, if_neg hstr, hs]

theorem step_delete_present (hstr : str ≠ []) (hroot : t.isNull = false)
    (hs : t.search str ≠ none) :
    TrieCall.step t (.delete str) = some ([.deleted 0], t.delete str) := by
  rw [TrieCall.step, if_neg (by rw [hroot]; exact Bool.false_ne_true),
    trieDeletionLoops_eq, trieDeletion_eq hstr hs]

theorem delete_eq_null_iff (ht : t.Compact) :
    t.delete str = .null ↔ ∀ str', str' ≠ str → t.search str' = none := by
  constructor
  · intro h str' hne
    have hsearch := Trie.search_delete t str str'
    rw [h, Trie.search_null, if_neg hne] at hsearch
    exact hsearch.symm
  · intro h
    refine (ht.delete str).eq_null fun str' => ?_
    rw [Trie.search_delete]
    split
    · rfl
    · next hne => exact h str' hne

theorem deletesRight (h : Rooted t) (hstr : str ≠ []) (hroot : t.isNull = false) :
    TrieCall.DeletesRight t (.delete str) := by
  by_cases hs : t.search str = none
  · refine ⟨ENOENT, t, step_delete_absent hstr hroot hs, iff_of_true rfl hs, fun _ => rfl, ?_⟩
    refine iff_of_false (fun hnull => ?_) fun hne => hne.1 hs
    rw [hnull] at hroot
    cases hroot
  · refine ⟨0, t.delete str, step_delete_present hstr hroot hs, ?_, fun h => absurd h hs, ?_⟩
    · exact iff_of_false (by decide) hs
    · rw [delete_eq_null_iff (h.compact hs)]
      exact ⟨fun hall => ⟨hs, hall⟩, And.right⟩

end Delete

theorem StandsFor.step {t : Trie UInt8 α} {m : List UInt8 → Option α} (h : StandsFor t m)
    {c : TrieCall α} (hc : TrieCall.Allowed t c) : ∃ ev t' m',
      TrieCall.step t c = some (ev, t') ∧ TrieCall.onMap m c = some (ev, m') ∧
      StandsFor t' m' := by
  cases c with
  | insert str object =>
    refine ⟨_, _, _, rfl, rfl, ⟨fun str' => ?_, ?_, h.rooted.insert hc object⟩⟩
    · rw [Trie.search_insert, search_trieOrNew, h.search, update_apply]
    refine (h.finite.insert str).subset fun str' hstr' => ?_
    by_cases heq : str' = str
    · exact .inl heq
    · exact .inr (by simpa [update_of_ne heq] using hstr')
  | search str =>
    refine ⟨_, t, m, rfl, ?_, h⟩
    rw [TrieCall.onMap, h.search]
  | delete str =>
    obtain ⟨hstr, hroot⟩ := hc
    by_cases hs : t.search str = none
    · refine ⟨_, t, m, step_delete_absent hstr hroot hs, ?_, h⟩
      rw [TrieCall.onMap, ← h.search, hs]
      rfl
    refine ⟨_, _, update m str none, step_delete_present hstr hroot hs, ?_,
      ⟨fun str' => ?_, ?_, h.rooted.delete hs⟩⟩
    · rw [TrieCall.onMap, ← h.search, if_neg (by simpa using hs)]
    · rw [Trie.search_delete, h.search, update_apply]
    refine h.finite.subset fun str' hstr' => ?_
    by_cases heq : str' = str
    · simp [heq] at hstr'
    · simpa [update_of_ne heq] using hstr'

/-- Over any sequence of calls a trie replies as a finite map does and stands for
it, every node but the root lies on the way to a key, and deletions fail and
free the root when they should. -/
theorem trie_is_finite_map {t0 : Trie UInt8 α} (h₀ : t0 = .null ∨ t0 = .createNode)
    {cs : List (TrieCall α)} (h : Along TrieCall.step TrieCall.Allowed t0 cs) :
    (∃ tr t m, run TrieCall.step t0 cs = some (tr, t) ∧
      run TrieCall.onMap (fun _ => none) cs = some (tr, m) ∧
      (∀ str, t.search str = m str) ∧ {str | m str ≠ none}.Finite ∧ LeadsToKeys t) ∧
    Along TrieCall.step TrieCall.DeletesRight t0 cs := by
  have hrooted : Rooted t0 := h₀.elim (fun h => .inr (h ▸ trivial)) .inl
  have hstart : StandsFor t0 fun _ => none := by
    refine ⟨fun str => ?_, by simp, hrooted⟩
    rcases h₀ with rfl | rfl
    · exact Trie.search_null str
    · exact Trie.search_createNode str
  constructor
  · obtain ⟨tr, t, m, hr, hm, hst⟩ :=
      run_simulates (fun t m c hr hc => StandsFor.step hr hc) hstart h
    exact ⟨tr, t, m, hr, hm, hst.search, hst.finite, hst.rooted.leadsToKeys⟩
  refine along_of_along (fun t c (hi : ∃ m, StandsFor t m) hc => ?_)
    (fun t c ev t' hi hc hs => ?_) ⟨_, hstart⟩ h
  · obtain ⟨m, hi⟩ := hi
    cases c with
    | insert | search => trivial
    | delete str => exact deletesRight hi.rooted hc.1 hc.2
  · obtain ⟨m, hi⟩ := hi
    obtain ⟨ev', t'', m', hs', -, hr⟩ := hi.step hc
    obtain ⟨-, rfl⟩ := Prod.mk.inj (Option.mem_unique hs' hs)
    exact ⟨m', hr⟩

/-- Two keys of which one begins with the other, which goes first. -/
theorem trie_is_finite_map_two_keys : ∃ tr t m, run TrieCall.step (.null : Trie UInt8 Nat)
      [.insert [97] 1, .insert [97, 98] 2, .delete [97], .search [97, 98]] = some (tr, t) ∧
    run TrieCall.onMap (fun _ => none)
      [.insert [97] 1, .insert [97, 98] 2, .delete [97], .search [97, 98]] = some (tr, m) ∧
    LeadsToKeys t := by
  obtain ⟨⟨tr, t, m, hr, hm, -, -, hkeys⟩, -⟩ := trie_is_finite_map (.inl rfl) (along_of_decide
      (show check TrieCall.step _ (.null : Trie UInt8 Nat)
        [.insert [97] 1, .insert [97, 98] 2, .delete [97], .search [97, 98]] = true by
        decide +kernel))
  exact ⟨tr, t, m, hr, hm, hkeys⟩

end Finesse
