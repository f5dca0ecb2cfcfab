import Finesse.Errno
import Finesse.Lib.Trie

/-!
# The trie of C strings

`utils/trie.c`. The words are C strings as lists of bytes, without the zero at
the end, and a node has a child for each of 256 bytes. `TrieCreateNode`,
`TrieInsert` and `TrieSearch` are those of the library.
-/

namespace Finesse

variable {α : Type}

/-- A trie is made with `TrieCreateNode` where there is none. -/
def trieOrNew (t : Trie UInt8 α) : Trie UInt8 α :=
  if t.isNull then .createNode else t

@[simp] theorem search_trieOrNew (t : Trie UInt8 α) (str : List UInt8) :
    (trieOrNew t).search str = t.search str := by
  rw [trieOrNew]
  split
  · next h => rw [Trie.search_of_isNull h, Trie.search_createNode]
  · rfl

variable {str : List UInt8}

/-- What is inserted in a new trie could be inserted in none. -/
theorem insert_trieOrNew (t : Trie UInt8 α) (hstr : str ≠ [])
    (a : α) : (trieOrNew t).insert str a = t.insert str a := by
  obtain ⟨c, str, rfl⟩ := List.exists_cons_of_ne_nil hstr
  cases t <;> rfl

theorem compact_insert_createNode (hstr : str ≠ []) (a : α) :
    (Trie.createNode.insert str a).Compact := by
  have h : (trieOrNew (.null : Trie UInt8 α)).insert str a = Trie.null.insert str a :=
    insert_trieOrNew _ hstr a
  rw [trieOrNew, if_pos (show Trie.isNull .null = true from rfl)] at h
  rw [h]
  exact Trie.Compact.insert (t := .null) trivial str a

/-- `TrieDeletion`, for a trie that is not null. -/
def trieDeletion (t : Trie UInt8 α) (str : List UInt8) : Int × Trie UInt8 α :=
  if str = [] then (0, if t.haveChildren then t else .null)
  else match t.search str with
    | none => (ENOENT, t)
    | some _ => (0, t.delete str)

theorem trieDeletion_eq {t : Trie UInt8 α} (hstr : str ≠ [])
    (h : t.search str ≠ none) : trieDeletion t str = (0, t.delete str) := by
  obtain ⟨a, ha⟩ := Option.ne_none_iff_exists'.mp h
  rw [trieDeletion, if_neg hstr, ha]

theorem search_trieDeletion {t : Trie UInt8 α} (hstr : str ≠ [])
    (str' : List UInt8) : (trieDeletion t str).2.search str' = (t.delete str).search str' := by
  cases h : t.search str with
  | some a => rw [trieDeletion_eq hstr (by rw [h]; nofun)]
  | none =>
    rw [trieDeletion, if_neg hstr, h, Trie.search_delete]
    dsimp only
    split
    · next heq => rw [heq, h]
    · rfl

end Finesse
